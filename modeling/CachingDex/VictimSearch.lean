import CachingDex.Coherent

/-!
# The search for a victim

Both walks of the source follow tagged slots downwards: one lets the bitmap
name the slot, the other looks at the child words themselves.  As long as
the bitmaps tell the tagged slots and levels fall along them, each walk
comes to a page without tagged children after as many steps as there are
levels, and returns that page if it is hot.
-/

namespace CachingDex

open Lib Lib.Traced

/-! ## The walk over the child words -/

/-- The first tagged slot from `start` on, going round. -/
def Page.nextTagged (p : Page) (start : ℕ) : Option (ℕ × PagePtr) :=
  (List.range (p.count.toNat + 1)).findSome? fun i =>
    let k := (start + i) % (p.count.toNat + 1)
    match p.child k with
    | .swizzled q => some (k, q)
    | .remote _ => none

/-- The end of `recursive_iterate_without_bitmap`. -/
def lastCheck (s : State) (memNode : PagePtr) (idxInParent : Option ℕ) :
    Walk :=
  let p := s.page memNode
  if p.posState ≠ .hot then .deadEnd idxInParent
  else if p.type = .btreeInner ∧ ∃ i < p.count.toNat + 1,
      (p.child i).isSwizzled = true then .deadEnd idxInParent
  else .found memNode idxInParent

/-- The walk of `recursive_iterate_without_bitmap`. -/
def recursiveIterateWithoutBitmap (s : State) :
    ℕ → PagePtr → Option ℕ → Walk
  | 0, _, _ => .endless
  | fuel + 1, memNode, idxInParent =>
      let p := s.page memNode
      if p.type = .btreeInner then
        let startIdx :=
          (murmur64 (s.pointer memNode)).toNat % (p.count.toNat + 1)
        match p.nextTagged startIdx with
        | none => lastCheck s memNode idxInParent
        | some (k, next) =>
            if next = memNode then lastCheck s memNode (some k)
            else recursiveIterateWithoutBitmap s fuel next (some k)
      else lastCheck s memNode idxInParent

/-! ## Where a walk ends -/

/-- A walk along tagged slots, with the number of the last slot taken; at its
start the number is the caller's. -/
inductive Walked (s : State) (p : PagePtr) (idx : Option ℕ) :
    PagePtr → Option ℕ → Prop
  | start : Walked s p idx p idx
  | step {m c : PagePtr} {i : Option ℕ} {k : ℕ} : Walked s p idx m i →
      (s.page m).Tags k c → Walked s p idx c (some k)

/-- The walk comes to a page without tagged children and returns it if it is
hot; either way the slot number left is that of the last slot taken. -/
def EndsWell (s : State) (p : PagePtr) (idx : Option ℕ) (w : Walk) : Prop :=
  ∃ c i, Walked s p idx c i ∧ (∀ k q, ¬ (s.page c).Tags k q) ∧
    w = if (s.page c).posState = .hot then .found c i else .deadEnd i

/-- Pages whose bitmaps tell their tagged slots, which lead to pages of the
same kind at lower levels; a leaf has none. -/
structure TaggedForest (s : State) (pages : Set PagePtr) : Prop where
  typed : ∀ p ∈ pages,
    (s.page p).type = .btreeLeaf ∨ (s.page p).type = .btreeInner
  inner_count : ∀ p ∈ pages, (s.page p).type = .btreeInner →
    (s.page p).count.toNat ≤ 59
  inner_bitmap : ∀ p ∈ pages, (s.page p).type = .btreeInner →
    ∀ i, (s.page p).bitmap.getLsbD i = true ↔
      i ≤ (s.page p).count.toNat ∧ ((s.page p).child i).isSwizzled = true
  leaf_bitmap : ∀ p ∈ pages, (s.page p).type = .btreeLeaf →
    (s.page p).bitmap = 0
  closed : ∀ p ∈ pages, ∀ k q, (s.page p).Tags k q → q ∈ pages
  level_lt : ∀ p ∈ pages, ∀ k q, (s.page p).Tags k q →
    (s.page q).level < (s.page p).level

section Walk

variable {s : State} {p q : PagePtr} {idx i : Option ℕ} {k : ℕ}

theorem Walked.head (htag : (s.page p).Tags k q) {c : PagePtr}
    (h : Walked s q (some k) c i) : Walked s p idx c i := by
  induction h with
  | start => exact .step .start htag
  | step _ htag' ih => exact .step ih htag'

theorem EndsWell.head (htag : (s.page p).Tags k q) {w : Walk}
    (h : EndsWell s q (some k) w) : EndsWell s p idx w := by
  obtain ⟨c, i, hwalk, hend⟩ := h
  exact ⟨c, i, hwalk.head htag, hend⟩

theorem tags_iff_child {page : Page} (hinner : page.type = .btreeInner)
    (hcount : page.count.toNat ≤ 59) : page.Tags k q ↔
      k ≤ page.count.toNat ∧ page.child k = .swizzled q := by
  rw [Page.Tags, Page.slots_of_inner hinner, getElem?_live]
  by_cases hk : k ≤ page.count.toNat
  · rw [if_pos (by omega)]
    simp [Page.child, hk, show k < 60 by omega]
  · rw [if_neg (by omega)]
    simp [hk]

/-- A page with a set bit has a tagged slot, which the walk picks. -/
theorem exists_closestSet {page : Page} (hcount : page.count.toNat ≤ 59)
    (haligned : ∀ i, page.bitmap.getLsbD i = true ↔ ∃ q, page.Tags i q)
    (hne : page.bitmap ≠ 0) (draw : ℕ) : ∃ (k : ℕ) (q : PagePtr),
      BTreeInner.closestSet page (draw % (page.count.toNat + 1)) = (k : ℤ) ∧
        page.child k = .swizzled q ∧ page.Tags k q := by
  have hbits : ∀ i, page.bitmap.getLsbD i = true → i ≤ page.count.toNat := by
    intro i hi
    obtain ⟨q, hq⟩ := (haligned i).mp hi
    exact (Page.le_count_of_slot hq).2.1
  have hpos : draw % (page.count.toNat + 1) ≤ page.count.toNat :=
    Nat.le_of_lt_succ (Nat.mod_lt _ (Nat.succ_pos _))
  obtain ⟨k, hk, hnear⟩ :=
    BTreeInner.closestSet_nearest (by omega) hbits hne hpos
  obtain ⟨q, hq⟩ := (haligned k).mp hnear.isSet
  exact ⟨k, q, hk, (Page.le_count_of_slot hq).2.2, hq⟩

/-- The walk by the bitmap ends as many steps below its start as the rank of
the start allows. -/
theorem recursiveIterate_endsWell (pages : Set PagePtr)
    (rank : PagePtr → ℕ)
    (hcount : ∀ p ∈ pages, (s.page p).bitmap ≠ 0 →
      (s.page p).count.toNat ≤ 59)
    (haligned : ∀ p ∈ pages, ∀ i, (s.page p).bitmap.getLsbD i = true ↔
      ∃ q, (s.page p).Tags i q)
    (hdown : ∀ p ∈ pages, ∀ k q, (s.page p).Tags k q →
      q ∈ pages ∧ rank q < rank p)
    (fuel : ℕ) (hp : p ∈ pages) (hfuel : rank p < fuel) (idx : Option ℕ) :
    EndsWell s p idx (recursiveIterate s fuel p idx) := by
  induction fuel generalizing p idx with
  | zero => omega
  | succ fuel ih =>
      unfold recursiveIterate
      dsimp only
      by_cases hbits : (s.page p).bitmap ≠ 0
      · rw [if_pos hbits]
        obtain ⟨k, q, hk, hchild, htag⟩ :=
          exists_closestSet (hcount p hp hbits) (haligned p hp) hbits
            (murmur64 (s.pointer p)).toNat
        rw [hk, if_neg (by omega), Int.toNat_natCast, hchild]
        obtain ⟨hq, hrank⟩ := hdown p hp k q htag
        exact (ih hq (by omega) (some k)).head htag
      · rw [if_neg hbits]
        rw [ne_eq, not_not] at hbits
        refine ⟨p, idx, .start, fun k q htag => ?_, rfl⟩
        have hbit := (haligned p hp k).mpr ⟨q, htag⟩
        simp [hbits] at hbit

variable {pages : Set PagePtr}

theorem TaggedForest.tags_iff (h : TaggedForest s pages) (hp : p ∈ pages)
    (hinner : (s.page p).type = .btreeInner) : (s.page p).Tags k q ↔
      k ≤ (s.page p).count.toNat ∧ (s.page p).child k = .swizzled q :=
  tags_iff_child hinner (h.inner_count p hp hinner)

theorem TaggedForest.aligned (h : TaggedForest s pages) (hp : p ∈ pages)
    (i : ℕ) : (s.page p).bitmap.getLsbD i = true ↔
      ∃ q, (s.page p).Tags i q := by
  rcases h.typed p hp with hleaf | hinner
  · rw [h.leaf_bitmap p hp hleaf]
    simp [Page.Tags, Page.slots_of_leaf hleaf]
  · rw [h.inner_bitmap p hp hinner]
    simp only [h.tags_iff hp hinner]
    cases (s.page p).child i <;> simp [ChildSlot.isSwizzled]

/-- Going round from `start` every position is met. -/
theorem exists_add_mod_eq (start : ℕ) {n k : ℕ} (hk : k < n) :
    ∃ i < n, (start + i) % n = k := by
  have hmod := Nat.mod_lt start (Nat.zero_lt_of_lt hk)
  have hdiv := Nat.div_add_mod start n
  refine ⟨(k + n - start % n) % n, Nat.mod_lt _ (Nat.zero_lt_of_lt hk), ?_⟩
  rw [Nat.add_mod_mod]
  have hsum : start + (k + n - start % n) = k + n * (start / n + 1) := by
    rw [Nat.mul_add, Nat.mul_one]
    omega
  rw [hsum, Nat.add_mul_mod_self_left, Nat.mod_eq_of_lt hk]

/-- The search over the child words finds a tagged slot if there is one. -/
theorem nextTagged_eq {page : Page} {start : ℕ} {r : Option (ℕ × PagePtr)}
    (h : page.nextTagged start = r) :
    match r with
    | some (k, q) => k ≤ page.count.toNat ∧ page.child k = .swizzled q
    | none => ∀ k ≤ page.count.toNat, ∀ q, page.child k ≠ .swizzled q := by
  unfold Page.nextTagged at h
  cases r with
  | some found =>
      obtain ⟨k, q⟩ := found
      obtain ⟨i, _, hi⟩ := List.exists_of_findSome?_eq_some h
      dsimp only at hi
      split at hi
      · rename_i q' hchild
        rw [Option.some.injEq, Prod.mk.injEq] at hi
        obtain ⟨rfl, rfl⟩ := hi
        exact ⟨Nat.le_of_lt_succ (Nat.mod_lt _ (Nat.succ_pos _)), hchild⟩
      · cases hi
  | none =>
      intro k hk q hchild
      have hall := List.findSome?_eq_none_iff.mp h
      obtain ⟨i, hi, rfl⟩ := exists_add_mod_eq start (Nat.lt_succ_of_le hk)
      have := hall i (List.mem_range.mpr hi)
      simp [hchild] at this

theorem lastCheck_endsWell (h : TaggedForest s pages) (hp : p ∈ pages)
    (hnone : ∀ k q, ¬ (s.page p).Tags k q) :
    EndsWell s p idx (lastCheck s p idx) := by
  refine ⟨p, idx, .start, hnone, ?_⟩
  unfold lastCheck
  dsimp only
  have huntagged : ¬ ((s.page p).type = .btreeInner ∧
      ∃ i < (s.page p).count.toNat + 1,
        ((s.page p).child i).isSwizzled = true) := by
    rintro ⟨hinner, i, hi, hchild⟩
    cases hword : (s.page p).child i with
    | remote addr => simp [hword, ChildSlot.isSwizzled] at hchild
    | swizzled q =>
        exact hnone i q ((h.tags_iff hp hinner).mpr ⟨by omega, hword⟩)
  rw [if_neg huntagged]
  by_cases hhot : (s.page p).posState = .hot
  · simp [hhot]
  · simp [hhot]

theorem recursiveIterateWithoutBitmap_endsWell
    (h : TaggedForest s pages) (fuel : ℕ) (hp : p ∈ pages)
    (hfuel : (s.page p).level.toNat < fuel) (idx : Option ℕ) :
    EndsWell s p idx (recursiveIterateWithoutBitmap s fuel p idx) := by
  induction fuel generalizing p idx with
  | zero => omega
  | succ fuel ih =>
      unfold recursiveIterateWithoutBitmap
      dsimp only
      by_cases hinner : (s.page p).type = .btreeInner
      · rw [if_pos hinner]
        generalize hnext : (s.page p).nextTagged _ = next
        have hspec := nextTagged_eq hnext
        cases next with
        | none =>
            refine lastCheck_endsWell h hp fun k q htag => ?_
            obtain ⟨hk, hchild⟩ := (h.tags_iff hp hinner).mp htag
            exact hspec k hk q hchild
        | some found =>
            obtain ⟨k, q⟩ := found
            have htag := (h.tags_iff hp hinner).mpr hspec
            have hlevel := h.level_lt p hp k q htag
            rw [UInt8.lt_iff_toNat_lt] at hlevel
            have hne : q ≠ p := by
              rintro rfl
              exact lt_irrefl _ hlevel
            dsimp only
            rw [if_neg hne]
            exact (ih (h.closed p hp k q htag) (by omega) (some k)).head htag
      · rw [if_neg hinner]
        have hleaf := (h.typed p hp).resolve_right hinner
        refine lastCheck_endsWell h hp fun k q htag => ?_
        simp [Page.Tags, Page.slots_of_leaf hleaf] at htag

/-- From any page both walks come to an end, along tagged slots only, at a
page without tagged children; they return it if it is hot and nothing
otherwise, and leave the number of the last slot they took. -/
theorem victim_search_endsWell (h : TaggedForest s pages) (hp : p ∈ pages)
    (idx : Option ℕ) (fuel : ℕ) (hfuel : (s.page p).level.toNat < fuel) :
    EndsWell s p idx (recursiveIterate s fuel p idx) ∧
      EndsWell s p idx (recursiveIterateWithoutBitmap s fuel p idx) := by
  constructor
  · refine recursiveIterate_endsWell pages
      (fun p => (s.page p).level.toNat) ?_
      (fun p hp i => h.aligned hp i) ?_ fuel hp hfuel idx
    · intro p hp hbits
      rcases h.typed p hp with hleaf | hinner
      · exact absurd (h.leaf_bitmap p hp hleaf) hbits
      · exact h.inner_count p hp hinner
    · intro p hp k q htag
      exact ⟨h.closed p hp k q htag,
        UInt8.lt_iff_toNat_lt.mp (h.level_lt p hp k q htag)⟩
  · exact recursiveIterateWithoutBitmap_endsWell h fuel hp hfuel idx

end Walk

/-- A pinned inner page in slot 0 whose second child is the hot leaf in slot
1. -/
def pinnedParent : State :=
  { TreeConfig.initial ⟨2, 6, 3, 0x10000, 0x8000, fun _ => 0, fun _ => 0,
      TreeConfig.threePages_fit⟩ with
    page := fun q =>
      if q = .slot 0 then
        { BTreeInner.construct 1 (.make 0 1024) with
          posState := .pin
          count := 1
          bitmap := 2
          children := Vector.ofFn fun i =>
            if i.val = 1 then .swizzled (.slot 1) else .remote (.make 0 2048) }
      else { BTreeLeaf.construct (.make 0 3072) with posState := .hot } }

theorem victim_search_endsWell_small :
    EndsWell pinnedParent (.slot 0) none
        (recursiveIterate pinnedParent 2 (.slot 0) none) ∧
      EndsWell pinnedParent (.slot 0) none
        (recursiveIterateWithoutBitmap pinnedParent 2 (.slot 0) none) := by
  have htags : ∀ k q, (pinnedParent.page (.slot 0)).Tags k q ↔
      k = 1 ∧ q = .slot 1 := by
    intro k q
    rw [tags_iff_child rfl (by decide)]
    constructor
    · rintro ⟨hk, hchild⟩
      have hcount : (pinnedParent.page (.slot 0)).count.toNat = 1 := rfl
      rcases Nat.le_one_iff_eq_zero_or_eq_one.mp (hcount ▸ hk) with rfl | rfl
      · have : (pinnedParent.page (.slot 0)).child 0 =
          .remote (.make 0 2048) := rfl
        rw [this] at hchild
        cases hchild
      · have : (pinnedParent.page (.slot 0)).child 1 =
          .swizzled (.slot 1) := rfl
        rw [this, ChildSlot.swizzled.injEq] at hchild
        exact ⟨rfl, hchild.symm⟩
    · rintro ⟨rfl, rfl⟩
      exact ⟨by decide, rfl⟩
  have hnone : ∀ k q, ¬ (pinnedParent.page (.slot 1)).Tags k q := by
    intro k q htag
    rw [Page.Tags, Page.slots_of_leaf rfl] at htag
    simp at htag
  suffices hforest : TaggedForest pinnedParent {.slot 0, .slot 1} from
    victim_search_endsWell hforest (by simp) none 2 (by decide)
  refine ⟨?_, ?_, ?_, ?_, ?_, ?_⟩
  · rintro _ (rfl | rfl)
    · exact Or.inr rfl
    · exact Or.inl rfl
  · rintro _ (rfl | rfl) hinner
    · decide
    · cases hinner
  · rintro _ (rfl | rfl) hinner i
    · rcases Nat.lt_or_ge i 64 with hi | hi
      · revert i
        decide
      · have hcount : (pinnedParent.page (.slot 0)).count.toNat = 1 := rfl
        rw [BitVec.getLsbD_of_ge _ _ hi, hcount]
        simp [show ¬ i ≤ 1 by omega]
    · cases hinner
  · rintro _ (rfl | rfl) hleaf
    · cases hleaf
    · rfl
  · rintro _ (rfl | rfl) k q htag
    · obtain ⟨rfl, rfl⟩ := (htags k q).mp htag
      simp
    · exact absurd htag (hnone k q)
  · rintro _ (rfl | rfl) k q htag
    · obtain ⟨rfl, rfl⟩ := (htags k q).mp htag
      decide
    · exact absurd htag (hnone k q)

end CachingDex
