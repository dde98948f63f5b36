import CachingDex.State

/-!
# Calls on the page allocator

The allocator hands out the slots of the pool in order, and the sampler picks
a slot among those that are out.  A draw that falls beyond the head index is
folded back into the range that is out; a draw that hits the head index is
not, although the slot of the head index is the next one to be handed out.
-/

namespace CachingDex

/-- The calls of the allocator's interface, a selection with the index it
draws. -/
inductive AllocatorCall where
  | allocate
  | reset
  | randomSelect (draw : ℕ)
  deriving DecidableEq

namespace CacheAllocator

variable {a : CacheAllocator}

theorem allocate_of_lt (h : a.headIdx < a.pageNum) :
    a.allocate = (some (.slot a.headIdx),
      decide (a.headIdx = a.pageNum - 1),
      { a with headIdx := a.headIdx + 1 }) := by
  rw [allocate, if_neg (by omega)]

theorem allocate_of_ge (h : a.pageNum ≤ a.headIdx) :
    a.allocate = (none, false, a) := by
  rw [allocate, if_pos h]

theorem randomSelect_slot (a : CacheAllocator) (draw : ℕ) :
    ∃ i, a.randomSelect draw = .slot i := by
  unfold randomSelect
  dsimp only
  split
  · exact ⟨_, rfl⟩
  · exact ⟨_, rfl⟩

/-- The slots handed out under a head index. -/
def slotsBelow (head : ℕ) : List PagePtr :=
  (List.range head).map .slot

theorem mem_slotsBelow {head i : ℕ} : .slot i ∈ slotsBelow head ↔ i < head := by
  simp [slotsBelow]

/-- A draw selects a slot that is out unless it is the head index. -/
theorem randomSelect_mem_iff {draw : ℕ} (hhead : 0 < a.headIdx)
    (hle : a.headIdx ≤ a.pageNum) (hdraw : draw < a.pageNum) :
    a.randomSelect draw ∈ slotsBelow a.headIdx ↔ draw ≠ a.headIdx := by
  unfold randomSelect
  dsimp only
  rw [Nat.mod_eq_of_lt hdraw]
  split_ifs with hbeyond
  · have hmod := Nat.mod_lt draw hhead
    rw [min_eq_left hle, mem_slotsBelow]
    omega
  · rw [mem_slotsBelow]
    omega

/-! ## Histories -/

/-- What a call of `allocate` promises, where `out` are the slots handed out
since the last reset. -/
structure HandsOut (pageNum : ℕ) (out : List PagePtr)
    (page : Option PagePtr) (lastPage : Bool) : Prop where
  once : ∀ p, page = some p → p ∉ out
  inOrder : ∀ p, page = some p → p = .slot out.length
  null : page = none ↔ out.length = pageNum
  last : lastPage = true ↔ out.length + 1 = pageNum

/-- Along a history every call keeps its promise: `allocate` the one above,
and a selection that the slot is out. -/
def Behaves (pageNum : ℕ) :
    List PagePtr → CacheAllocator → List AllocatorCall → Prop
  | _, _, [] => True
  | out, a, .allocate :: calls =>
      HandsOut pageNum out a.allocate.1 a.allocate.2.1 ∧
        Behaves pageNum (out ++ a.allocate.1.toList) a.allocate.2.2 calls
  | _, a, .reset :: calls => Behaves pageNum [] a.reset calls
  | out, a, .randomSelect draw :: calls =>
      a.randomSelect draw ∈ out ∧ Behaves pageNum out a calls

/-- Every selection comes after an allocation, and its draw is the index of
a page.  `count` allocations were made since the last reset. -/
def Permitted (pageNum : ℕ) : ℕ → List AllocatorCall → Prop
  | _, [] => True
  | count, .allocate :: calls => Permitted pageNum (count + 1) calls
  | _, .reset :: calls => Permitted pageNum 0 calls
  | count, .randomSelect draw :: calls =>
      0 < count ∧ draw < pageNum ∧ Permitted pageNum count calls

/-- No selection draws the number of allocations made since the last
reset. -/
def AvoidsHead : ℕ → List AllocatorCall → Prop
  | _, [] => True
  | count, .allocate :: calls => AvoidsHead (count + 1) calls
  | _, .reset :: calls => AvoidsHead 0 calls
  | count, .randomSelect draw :: calls =>
      draw ≠ count ∧ AvoidsHead count calls

/-- After `count` allocations since the last reset. -/
structure After (pageNum count : ℕ) (out : List PagePtr)
    (a : CacheAllocator) : Prop where
  pageNum_eq : a.pageNum = pageNum
  headIdx_eq : a.headIdx = min count pageNum
  out_eq : out = slotsBelow a.headIdx

variable {pageNum count : ℕ} {out : List PagePtr}

theorem After.reset (h : After pageNum count out a) :
    After pageNum 0 [] a.reset where
  pageNum_eq := h.pageNum_eq
  headIdx_eq := by simp [CacheAllocator.reset]
  out_eq := rfl

theorem After.allocate (h : After pageNum count out a) :
    HandsOut pageNum out a.allocate.1 a.allocate.2.1 ∧
      After pageNum (count + 1) (out ++ a.allocate.1.toList)
        a.allocate.2.2 := by
  obtain ⟨hpages, hhead, rfl⟩ := h
  have hlength : (slotsBelow a.headIdx).length = a.headIdx := by
    simp [slotsBelow]
  rcases Nat.lt_or_ge a.headIdx a.pageNum with hlt | hge
  · rw [allocate_of_lt hlt]
    constructor
    · constructor
      · intro p hp
        obtain rfl := Option.some.inj hp
        simp [mem_slotsBelow]
      · intro p hp
        rw [hlength]
        exact (Option.some.inj hp).symm
      · rw [hlength]
        simp only [reduceCtorEq, false_iff]
        omega
      · rw [hlength, decide_eq_true_eq]
        omega
    · refine ⟨hpages, ?_, ?_⟩
      · change a.headIdx + 1 = _
        omega
      · simp [slotsBelow, List.range_succ]
  · rw [allocate_of_ge hge]
    constructor
    · constructor
      · intro p hp
        cases hp
      · intro p hp
        cases hp
      · rw [hlength]
        simp only [true_iff]
        omega
      · rw [hlength]
        simp only [Bool.false_eq_true, false_iff]
        omega
    · refine ⟨hpages, ?_, by simp⟩
      change a.headIdx = _
      omega

theorem After.selects_iff (h : After pageNum count out a) {draw : ℕ}
    (hcount : 0 < count) (hdraw : draw < pageNum) :
    a.randomSelect draw ∈ out ↔ draw ≠ count := by
  obtain ⟨hpages, hhead, rfl⟩ := h
  rw [randomSelect_mem_iff (by omega) (by omega) (by omega)]
  omega

theorem After.behaves_iff {calls : List AllocatorCall}
    (h : After pageNum count out a) (hcalls : Permitted pageNum count calls) :
    Behaves pageNum out a calls ↔ AvoidsHead count calls := by
  induction calls generalizing count out a with
  | nil => exact Iff.rfl
  | cons call calls ih =>
      cases call with
      | allocate =>
          obtain ⟨hhands, hafter⟩ := h.allocate
          rw [Behaves, AvoidsHead, ih hafter hcalls]
          exact and_iff_right hhands
      | reset => exact ih h.reset hcalls
      | randomSelect draw =>
          obtain ⟨hcount, hdraw, hcalls⟩ := hcalls
          rw [Behaves, AvoidsHead, ih h hcalls,
            h.selects_iff hcount hdraw]

/-- Over a pool of any size the allocator hands out every slot once and in
order, and sampling stays among the slots that are out, exactly along the
histories in which no selection draws the head index. -/
theorem behaves_iff_avoidsHead (baseAddress : UInt64) (pageNum : ℕ)
    (calls : List AllocatorCall) (h : Permitted pageNum 0 calls) :
    Behaves pageNum [] ⟨baseAddress, pageNum, 0⟩ calls ↔
      AvoidsHead 0 calls := by
  have hafter : After pageNum 0 [] ⟨baseAddress, pageNum, 0⟩ :=
    ⟨rfl, by simp, rfl⟩
  exact hafter.behaves_iff h

theorem behaves_iff_avoidsHead_two :
    Behaves 2 [] ⟨0x10000, 2, 0⟩
      [.allocate, .randomSelect 0, .allocate, .randomSelect 1, .allocate,
        .reset, .allocate] := by
  refine (behaves_iff_avoidsHead 0x10000 2 _ ?_).mpr ?_
  · simp [Permitted]
  · simp [AvoidsHead]

/-- With one slot of two out, a draw of 1 selects the other one. -/
theorem head_selected :
    Permitted 2 0 [.allocate, .randomSelect 1] ∧
      ¬ Behaves 2 [] ⟨0x10000, 2, 0⟩ [.allocate, .randomSelect 1] := by
  constructor
  · simp [Permitted]
  · intro h
    exact absurd h.2.1 (by decide)

end CacheAllocator

end CachingDex
