import CachingDex.IndexBounds
import CachingDex.Traffic
import Mathlib.Data.Nat.Bitwise

/-!
# Child words

A child word has 64 bits: the address of a page in the backend, or under the
tag the pointer of a page in the pool.  The code tells the two apart by the
tag alone and looks for a child by comparing words.  Over a backend of at most
2^47 bytes and a pool below the tag bit the words of a tree are as good as the
slots they stand for.
-/

namespace CachingDex

open Lib

def swizzleTag : UInt64 :=
  (1 : UInt64) <<< 63

def swizzleHide : UInt64 :=
  ((1 : UInt64) <<< 63) - 1

/-- The pool pointer in a word, or nothing. -/
def searchInCache (node : UInt64) : Option UInt64 :=
  if node &&& swizzleTag ≠ 0 then some (node &&& swizzleHide) else none

def isInCache (node : UInt64) : Bool :=
  node &&& swizzleTag ≠ 0

/-- The word of a child slot. -/
def State.word (s : State) : ChildSlot → UInt64
  | .remote a => a.val
  | .swizzled q => s.pointer q ||| swizzleTag

/-- `findIdx` as the source has it, on words. -/
def State.findIdx (s : State) (p : Page) (target : UInt64) : Option ℕ :=
  (List.range (p.count.toNat + 1)).find? fun i => s.word (p.child i) = target

/-! ## Tagged words -/

section Words

variable {w : UInt64}

theorem toNat_or_tag (h : w.toNat < 2 ^ 63) :
    (w ||| swizzleTag).toNat = w.toNat + 2 ^ 63 := by
  have hor := Nat.two_pow_add_eq_or_of_lt h 1
  rw [Nat.mul_one] at hor
  rw [UInt64.toNat_or]
  change w.toNat ||| 2 ^ 63 = _
  rw [Nat.or_comm, ← hor, Nat.add_comm]

theorem and_tag_ne_zero_iff : w &&& swizzleTag ≠ 0 ↔ 2 ^ 63 ≤ w.toNat := by
  have hlt := w.toNat_lt
  have hbit : w.toNat.testBit 63 = decide (2 ^ 63 ≤ w.toNat) := by
    rw [Nat.testBit_eq_decide_div_mod_eq]
    exact decide_eq_decide.mpr (by omega)
  rw [ne_eq, ← UInt64.toNat_inj, UInt64.toNat_and]
  change ¬ w.toNat &&& 2 ^ 63 = 0 ↔ _
  rw [Nat.and_two_pow, hbit]
  by_cases hle : 2 ^ 63 ≤ w.toNat
  · rw [decide_eq_true hle]
    exact iff_of_true (by decide) hle
  · rw [decide_eq_false hle]
    exact iff_of_false (by decide) hle

theorem toNat_and_hide : (w &&& swizzleHide).toNat = w.toNat % 2 ^ 63 := by
  rw [UInt64.toNat_and]
  exact Nat.and_two_pow_sub_one_eq_mod w.toNat 63

/-- A pointer below the tag bit comes back from under the tag. -/
theorem searchInCache_tagged (h : w.toNat < 2 ^ 63) :
    searchInCache (w ||| swizzleTag) = some w := by
  have hnat := toNat_or_tag h
  have htag : (w ||| swizzleTag) &&& swizzleTag ≠ 0 :=
    and_tag_ne_zero_iff.mpr (by omega)
  rw [searchInCache, if_pos htag, Option.some.injEq, ← UInt64.toNat_inj,
    toNat_and_hide, hnat]
  omega

theorem isInCache_eq (node : UInt64) :
    isInCache node = (searchInCache node).isSome := by
  unfold isInCache searchInCache
  split_ifs with htag
  · simp [htag]
  · simp [htag]

end Words

/-! ## Words over a pool below the tag bit -/

/-- What the words of a tree stand for: addresses in the lower half of the
address space of node 0, and pages of the pool. -/
def State.Plain (s : State) : ChildSlot → Prop
  | .remote a => (a.nodeID : ℕ) = 0 ∧ (a.offset : ℕ) < 2 ^ 47
  | .swizzled q => ∃ v < s.allocator.pageNum, q = .slot v

/-- The pool lies below the tag bit. -/
def State.BelowTag (s : State) : Prop :=
  s.allocator.baseAddress.toNat + s.allocator.pageNum * pageSize ≤ 2 ^ 63

section Plain

variable {s : State} {w w' : ChildSlot} {v : ℕ}

theorem State.BelowTag.toNat_pointer (h : s.BelowTag)
    (hv : v < s.allocator.pageNum) :
    (s.pointer (.slot v)).toNat =
      s.allocator.baseAddress.toNat + v * pageSize := by
  have hmul := Nat.mul_le_mul_right pageSize (Nat.succ_le_of_lt hv)
  rw [Nat.succ_mul] at hmul
  have hle : s.allocator.baseAddress.toNat +
      s.allocator.pageNum * pageSize ≤ 2 ^ 63 := h
  have hpos : 0 < pageSize := by decide
  rw [State.pointer, UInt64.toNat_add, UInt64.toNat_ofNat',
    Nat.mod_eq_of_lt (by omega : v * pageSize < 2 ^ 64),
    Nat.mod_eq_of_lt (by omega)]

theorem State.BelowTag.pointer_lt (h : s.BelowTag)
    (hv : v < s.allocator.pageNum) :
    (s.pointer (.slot v)).toNat < 2 ^ 63 := by
  have hmul := Nat.mul_le_mul_right pageSize (Nat.succ_le_of_lt hv)
  rw [Nat.succ_mul] at hmul
  have hle : s.allocator.baseAddress.toNat +
      s.allocator.pageNum * pageSize ≤ 2 ^ 63 := h
  have hpos : 0 < pageSize := by decide
  rw [h.toNat_pointer hv]
  omega

theorem toNat_val (a : GlobalAddress) :
    a.val.toNat = a.offset * 2 ^ 16 + a.nodeID := by
  have hoffset := a.offset.isLt
  have hnode := a.nodeID.isLt
  rw [GlobalAddress.val, UInt64.toNat_ofNat']
  exact Nat.mod_eq_of_lt (by omega)

/-- In a backend of more than 2^47 bytes the code would take addresses for
pointers. -/
theorem isInCache_val_iff (a : GlobalAddress) :
    isInCache a.val = true ↔ 2 ^ 47 ≤ (a.offset : ℕ) := by
  have hnode := a.nodeID.isLt
  rw [isInCache, decide_eq_true_eq, and_tag_ne_zero_iff, toNat_val]
  omega

/-- The code finds the pointer under the tag and takes no address for one. -/
theorem State.Plain.searchInCache_word (h : s.Plain w) (hpool : s.BelowTag) :
    searchInCache (s.word w) = match w with
      | .remote _ => none
      | .swizzled q => some (s.pointer q) := by
  cases w with
  | remote a =>
      have hnot := (isInCache_val_iff a).not.mpr (Nat.not_le.mpr h.2)
      rw [isInCache_eq] at hnot
      exact Option.not_isSome_iff_eq_none.mp hnot
  | swizzled q =>
      obtain ⟨v, hv, rfl⟩ := h
      exact searchInCache_tagged (hpool.pointer_lt hv)

theorem State.Plain.isInCache_word (h : s.Plain w) (hpool : s.BelowTag) :
    isInCache (s.word w) = w.isSwizzled := by
  rw [isInCache_eq, h.searchInCache_word hpool]
  cases w <;> rfl

theorem State.BelowTag.pointer_injective (h : s.BelowTag) {v' : ℕ}
    (hv : v < s.allocator.pageNum) (hv' : v' < s.allocator.pageNum)
    (heq : s.pointer (.slot v) = s.pointer (.slot v')) : v = v' := by
  have hnat := congrArg UInt64.toNat heq
  rw [h.toNat_pointer hv, h.toNat_pointer hv'] at hnat
  unfold pageSize at hnat
  omega

/-- Different slots have different words. -/
theorem State.Plain.word_injective (h : s.Plain w) (h' : s.Plain w')
    (hpool : s.BelowTag) (heq : s.word w = s.word w') : w = w' := by
  have hsearch := congrArg searchInCache heq
  rw [h.searchInCache_word hpool, h'.searchInCache_word hpool] at hsearch
  cases w with
  | remote a =>
      cases w' with
      | remote a' => exact congrArg _ (GlobalAddress.val_injective heq)
      | swizzled q' => cases hsearch
  | swizzled q =>
      cases w' with
      | remote a' => cases hsearch
      | swizzled q' =>
          obtain ⟨v, hv, rfl⟩ := h
          obtain ⟨v', hv', rfl⟩ := h'
          rw [hpool.pointer_injective hv hv' (Option.some.inj hsearch)]

/-- The search by words is the search by slots. -/
theorem State.findIdx_eq {p : Page} (hpool : s.BelowTag)
    (hp : ∀ k ≤ p.count.toNat, s.Plain (p.child k)) (hw : s.Plain w) :
    s.findIdx p (s.word w) = BTreeInner.findIdx p w := by
  unfold State.findIdx BTreeInner.findIdx
  apply List.find?_congr
  intro k hk
  rw [List.mem_range] at hk
  rw [decide_eq_decide]
  constructor
  · exact (hp k (Nat.le_of_lt_succ hk)).word_injective hw hpool
  · exact congrArg s.word

end Plain

/-! ## Words of a tree -/

/-- The child words in use: those of the pages of the tree, wherever they are,
and the first one of `super_root_`. -/
inductive State.InUse (s : State) : ChildSlot → Prop where
  | super : s.InUse ((s.page .superRoot).child 0)
  | page {path : List ℕ} {p : Page} {w : ChildSlot}
      (hp : s.treePage path = some p) (hw : w ∈ p.slots) : s.InUse w

/-- The words of the tree tell addresses from pointers, pointers from each
other, and children from each other. -/
structure WordsAgree (s : State) : Prop where
  tagged : ∀ {w}, s.InUse w → isInCache (s.word w) = w.isSwizzled
  pointer : ∀ {q}, s.InUse (.swizzled q) →
    searchInCache (s.word (.swizzled q)) = some (s.pointer q)
  remote : ∀ {a}, s.InUse (.remote a) → searchInCache (s.word (.remote a)) = none
  apart : ∀ {w w'}, s.InUse w → s.InUse w' → s.word w = s.word w' → w = w'
  findIdx : ∀ {path p v}, s.treePage path = some p → p.type = .btreeInner →
    v < s.allocator.pageNum →
      s.findIdx p (s.pointer (.slot v) ||| swizzleTag) =
        BTreeInner.findIdx p (.swizzled (.slot v))

section Trees

variable {R : Set ℕ} {s : State} {F : TreeForest}

theorem Tree.plain_resident (h : Tree R s F) {i : ℕ} (hi : i ∈ R) :
    s.Plain (.swizzled (.slot i)) := by
  have hpool := h.ready.settled.pool
  exact ⟨i, (hpool.resident_iff.mp hi).1.trans_le hpool.head_le, rfl⟩

theorem Tree.plain (h : Tree R s F) {w : ChildSlot} (hw : s.InUse w) :
    s.Plain w := by
  have hsettled := h.ready.settled
  cases hw with
  | super =>
      obtain ⟨r, hr⟩ := h.rooted
      rw [hr.word]
      exact h.plain_resident hr.mem
  | page hp hw =>
      obtain ⟨a, _, hcur⟩ := h.toConsistent.current_of_path hp
      obtain ⟨k, hk⟩ := List.getElem?_of_mem hw
      cases w with
      | remote c =>
          have hchild := Page.node_children hcur.formed (w := s.addressOf)
          have hchild := congrArg (fun l => l[k]?) hchild
          rw [List.getElem?_map, hk, Option.map_some] at hchild
          obtain ⟨m, hm, _⟩ := hsettled.backed.linked.child hcur.shown hchild
          have hplaced := hsettled.backed.placed hm
          have hrange := of_decide_eq_true hplaced.inRange
          have hcapacity := hsettled.backed.capacity_le
          have hpos : 0 < pageSize := by decide
          refine ⟨congrArg Fin.val hplaced.nodeID, ?_⟩
          change ((c.offset : ℕ) + pageSize ≤ _) at hrange
          omega
      | swizzled q =>
          rcases hcur.place with ⟨i, hi, rfl⟩ | ⟨_, huntagged⟩
          · obtain ⟨j, hj, rfl, _⟩ := hsettled.cached.tagged hi hk
            exact h.plain_resident hj
          · exact absurd (huntagged _ hw) (by simp [ChildSlot.isSwizzled])

theorem Tree.wordsAgree (h : Tree R s F) (hpool : s.BelowTag) :
    WordsAgree s where
  tagged hw := (h.plain hw).isInCache_word hpool
  pointer hw := (h.plain hw).searchInCache_word hpool
  remote hw := (h.plain hw).searchInCache_word hpool
  apart hw hw' := (h.plain hw).word_injective (h.plain hw') hpool
  findIdx := by
    intro path p v hp htype hv
    have hplain : s.Plain (.swizzled (.slot v)) := ⟨v, hv, rfl⟩
    refine State.findIdx_eq hpool ?_ hplain
    intro k hk
    obtain ⟨a, _, hcur⟩ := h.toConsistent.current_of_path hp
    have hlength := Page.length_slots hcur.formed htype
    have hslot := List.getElem?_eq_getElem (by omega : k < p.slots.length)
    rw [(Page.le_count_of_slot hslot).2.2]
    exact h.plain (.page hp (List.getElem_mem _))

end Trees

/-! ## Words after a run -/

theorem bounded_freshRun {buckets pages : ℕ} {base : UInt64} (ops : List Op) :
    Bounded buckets pages base (freshRun ops) := by
  apply bounded_construct.bind
  intro _
  induction ops with
  | nil => exact Lib.Traced.maintains_pure _
  | cons op ops ih =>
      apply (bounded_run op).bind
      intro r
      apply ih.bind
      intro rs
      exact Lib.Traced.maintains_pure _

/-- A run moves the pool nowhere. -/
theorem freshRun_belowTag {c : TreeConfig} {ops : List Op}
    {replies : List Reply} (hpages : 0 < c.pageNum) (hentries : 0 < c.entryNum)
    (hplace : c.baseAddress.toNat + c.pageNum * pageSize ≤ 2 ^ 63)
    (hreplies : (freshRun ops c.initial).result = .ok replies) :
    (freshRun ops c.initial).state.BelowTag := by
  obtain ⟨_, hpost⟩ := bounded_freshRun ops c.initial
    (upheld_sized hpages hentries) fun _ _ => trivial
  rw [hreplies] at hpost
  have hsized : Sized _ c.pageNum c.baseAddress
    (freshRun ops c.initial).state.outline := hpost.rest
  have hpageNum : (freshRun ops c.initial).state.allocator.pageNum =
      c.pageNum := hsized.pages_eq
  have hbase : (freshRun ops c.initial).state.allocator.baseAddress =
      c.baseAddress := hsized.base_eq
  rw [State.BelowTag, hpageNum, hbase]
  exact hplace

/-- After a tame run over a pool below the tag bit, what the code reads off
the child words of the tree is what they stand for. -/
theorem tameRun_childWords {c : TreeConfig} {ops : List Op} (h : TameRun c ops)
    (hplace : c.baseAddress.toNat + c.pageNum * pageSize ≤ 2 ^ 63) :
    EndsIn c ops fun _ s => WordsAgree s := by
  rcases h.ends.2 with hexit | hend
  · exact Or.inl hexit
  · obtain ⟨replies, hreplies, hend⟩ := hend
    refine Or.inr ⟨replies, hreplies, ?_⟩
    obtain ⟨R, F, htree, _⟩ := hend.tree
    exact htree.wordsAgree
      (freshRun_belowTag h.slots h.buckets hplace hreplies)

theorem tameRun_childWords_mixed :
    WordsAgree (freshRun mixedRun threeSlots.initial).state := by
  obtain ⟨_, _, hwords⟩ :=
    (tameRun_childWords tameRun_mixed (by decide)).of_returns mixedRun_returns
  exact hwords

end CachingDex
