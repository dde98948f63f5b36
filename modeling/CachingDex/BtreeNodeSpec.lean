import CachingDex.BtreeNode
import CachingDex.Lib.Bitmap
import CachingDex.Lib.SearchTree

/-!
# What the node operations do to the node a page shows

A page shows a node of the abstract search forest once its child slots are
resolved to backend addresses.  On a page in order the operations of the
source compute the operations of the abstract node: leaf operations act on
the sorted list of live entries, splits cut a node in half, and inserting
into an inner node puts a separator and a child next to each other.

`Formed` collects what a page satisfies by itself, the bitmap included: bit
`i` is set exactly when live slot `i` is tagged.
-/

namespace CachingDex

open Lib

abbrev TreeNode := Node GlobalAddress Key Value

abbrev TreeForest := Forest GlobalAddress Key Value

namespace Page

def entries (p : Page) : List (Key × Value) :=
  live p.data p.count.toNat

def separators (p : Page) : List Key :=
  live p.keys p.count.toNat

/-- The live child slots; a leaf has none. -/
def slots (p : Page) : List ChildSlot :=
  match p.type with
  | .btreeInner => live p.children (p.count.toNat + 1)
  | _ => []

/-- The node a page shows, its child slots resolved. -/
def node (w : ChildSlot → GlobalAddress) (p : Page) : TreeNode :=
  match p.type with
  | .btreeLeaf => .leaf p.minLimit p.maxLimit p.entries p.nextLeaf
  | _ =>
      .inner p.level.toNat p.minLimit p.maxLimit p.separators
        (p.slots.map w)

/-- A page that is in order by itself. -/
structure Formed (p : Page) : Prop where
  typed : p.type = .btreeLeaf ∨ p.type = .btreeInner
  count_le : p.count.toNat ≤ 59
  leaf_level : p.type = .btreeLeaf → p.level = 0
  aligned : ∀ i, p.bitmap.getLsbD i = true ↔
    ∃ q, p.slots[i]? = some (.swizzled q)

variable {p : Page} {w : ChildSlot → GlobalAddress}

theorem slots_of_inner (h : p.type = .btreeInner) :
    p.slots = live p.children (p.count.toNat + 1) := by
  simp only [slots, h]

theorem slots_of_leaf (h : p.type = .btreeLeaf) : p.slots = [] := by
  simp only [slots, h]

theorem node_of_leaf (h : p.type = .btreeLeaf) :
    p.node w =
      .leaf p.minLimit p.maxLimit p.entries p.nextLeaf := by
  simp only [node, h]

theorem node_of_inner (h : p.type = .btreeInner) :
    p.node w =
      .inner p.level.toNat p.minLimit p.maxLimit p.separators
        (p.slots.map w) := by
  simp only [node, h]

@[simp] theorem node_lo : (p.node w).lo = p.minLimit := by
  unfold node
  split <;> rfl

@[simp] theorem node_hi : (p.node w).hi = p.maxLimit := by
  unfold node
  split <;> rfl

theorem node_children (h : p.Formed) :
    (p.node w).children = p.slots.map w := by
  rcases h.typed with htype | htype
  · rw [node_of_leaf htype, slots_of_leaf htype]
    rfl
  · rw [node_of_inner htype]
    rfl

theorem node_level (h : p.Formed) :
    (p.node w).level = p.level.toNat := by
  rcases h.typed with htype | htype
  · rw [node_of_leaf htype, h.leaf_level htype]
    rfl
  · rw [node_of_inner htype]
    rfl

theorem node_isLeaf (h : p.Formed) :
    (p.node w).isLeaf = true ↔ p.type = .btreeLeaf := by
  rcases h.typed with htype | htype
  · simp [node_of_leaf htype, htype, Node.isLeaf]
  · simp [node_of_inner htype, htype, Node.isLeaf]

theorem node_congr {w' : ChildSlot → GlobalAddress}
    (h : ∀ c ∈ p.slots, w c = w' c) :
    p.node w = p.node w' := by
  unfold node
  split
  · rfl
  · rw [List.map_congr_left h]

theorem getElem?_slots (h : p.Formed) (htype : p.type = .btreeInner)
    {i : ℕ} (hi : i ≤ p.count.toNat) :
    p.slots[i]? = some (p.child i) := by
  have hcount := h.count_le
  rw [slots_of_inner htype, getElem?_live, if_pos (by omega)]
  simp [child, show i < 60 by omega]

theorem le_count_of_slot {i : ℕ} {c : ChildSlot}
    (h : p.slots[i]? = some c) : p.type = .btreeInner ∧ i ≤ p.count.toNat ∧
      p.child i = c := by
  unfold slots at h
  split at h
  · rename_i htype
    rw [getElem?_live] at h
    split_ifs at h with hi
    refine ⟨htype, by omega, ?_⟩
    simp [child, h]
  · simp at h

theorem length_slots (h : p.Formed) (htype : p.type = .btreeInner) :
    p.slots.length = p.count.toNat + 1 := by
  have hcount := h.count_le
  rw [slots_of_inner htype, length_live _ (by omega)]

theorem length_separators (h : p.count.toNat ≤ 59) :
    p.separators.length = p.count.toNat := by
  rw [separators, length_live _ (by omega)]

theorem length_entries (h : p.count.toNat ≤ 59) :
    p.entries.length = p.count.toNat := by
  rw [entries, length_live _ h]

theorem node_size (h : p.Formed) :
    (p.node w).size = p.count.toNat := by
  rcases h.typed with htype | htype
  · rw [node_of_leaf htype]
    exact length_entries h.count_le
  · rw [node_of_inner htype]
    exact length_separators h.count_le

theorem bitmap_of_leaf (h : p.Formed) (htype : p.type = .btreeLeaf) :
    p.bitmap = 0 := by
  apply BitVec.eq_of_getLsbD_eq
  intro i _
  have hnot : ¬ p.bitmap.getLsbD i = true := by
    rw [h.aligned, slots_of_leaf htype]
    simp
  simpa using hnot

/-- A page with a set bit has a tagged slot, one with none has none. -/
theorem bitmap_eq_zero_iff (h : p.Formed) :
    p.bitmap = 0 ↔ ∀ (i : ℕ) (q : PagePtr), p.slots[i]? ≠ some (ChildSlot.swizzled q) := by
  constructor
  · intro hzero i q hslot
    have hbit := (h.aligned i).mpr ⟨q, hslot⟩
    simp [hzero] at hbit
  · intro hnone
    apply BitVec.eq_of_getLsbD_eq
    intro i _
    have hnot : ¬ p.bitmap.getLsbD i = true := by
      rw [h.aligned]
      rintro ⟨q, hq⟩
      exact hnone i q hq
    simpa using hnot

theorem slots_setChild (i : ℕ) (c : ChildSlot) :
    (p.setChild i c).slots = p.slots.set i c := by
  unfold slots setChild
  cases p.type <;> simp [live_set]

end Page

namespace BTreeInner

variable {p : Page}

theorem getLsbD_setBitmap {i j : ℕ} (hi : i < 64) :
    (setBitmap p i).bitmap.getLsbD j =
      (p.bitmap.getLsbD j || decide (j = i)) := by
  simp only [setBitmap, BitVec.getLsbD_or, getLsbD_one_shiftLeft hi]

theorem getLsbD_unsetBitmap {i j : ℕ} (hi : i < 64) :
    (unsetBitmap p i).bitmap.getLsbD j =
      (p.bitmap.getLsbD j && !decide (j = i)) := by
  simp only [unsetBitmap, BitVec.getLsbD_and, BitVec.getLsbD_not,
    getLsbD_one_shiftLeft hi]
  by_cases hj : j < 64
  · simp [hj]
  · simp [BitVec.getLsbD_of_ge _ _ (Nat.le_of_not_lt hj)]

theorem testBitmap_eq (i : ℕ) : testBitmap p i = p.bitmap.getLsbD i := by
  rcases Nat.lt_or_ge i 64 with hi | hi
  · have hbits : ∀ j, (p.bitmap &&& 1#64 <<< i).getLsbD j =
        (p.bitmap.getLsbD j && decide (j = i)) := by
      intro j
      rw [BitVec.getLsbD_and, getLsbD_one_shiftLeft hi]
    rw [testBitmap, Bool.eq_iff_iff, decide_eq_true_eq]
    constructor
    · intro hne
      by_contra hbit
      apply hne
      apply BitVec.eq_of_getLsbD_eq
      intro j _
      change _ = (0#64).getLsbD j
      rw [hbits, BitVec.getLsbD_zero]
      by_cases hj : j = i
      · subst hj
        simpa using hbit
      · simp [hj]
    · intro hbit hzero
      have hset := hbits i
      rw [hzero, hbit] at hset
      simp at hset
  · rw [BitVec.getLsbD_of_ge _ _ hi, testBitmap,
      BitVec.shiftLeft_eq_zero hi, BitVec.and_zero]
    rfl

theorem closestSet_of_empty (h : p.bitmap = 0) (pos : ℕ) :
    closestSet p pos = -1 := by
  rw [closestSet, if_pos h]

/-- On a page whose set bits stay within the count, the search finds the set
bit nearest to the position. -/
theorem closestSet_nearest (hcount : p.count.toNat ≤ 63)
    (hbits : ∀ i, p.bitmap.getLsbD i = true → i ≤ p.count.toNat)
    (hne : p.bitmap ≠ 0) {pos : ℕ} (hpos : pos ≤ p.count.toNat) :
    ∃ i : ℕ, closestSet p pos = i ∧ NearestBit p.bitmap pos i := by
  have hmin : min pos 63 = pos := by omega
  have hpos64 : pos < 64 := by omega
  have hright := fun j => getLsbD_and_not_lowMask (x := p.bitmap) (j := j)
    hpos64
  have hleft := fun j => getLsbD_and_lowMask (x := p.bitmap) (j := j) hpos64
  unfold closestSet
  rw [if_neg hne]
  simp only [hmin]
  generalize p.bitmap &&& ~~~(1#64 <<< pos - 1) = rightSets at hright ⊢
  generalize p.bitmap &&& (1#64 <<< pos - 1) = leftSets at hleft ⊢
  -- a bit on either side makes that side non-empty
  have hrightSome : ∀ j, pos ≤ j → p.bitmap.getLsbD j = true →
      rightSets ≠ 0 ∧ rightSets.ctz.toNat ≤ j := by
    intro j hj hbit
    have hset : rightSets.getLsbD j = true := by simp [hright, hbit, hj]
    refine ⟨?_, ctz_le_of_getLsbD hset⟩
    rintro rfl
    simp at hset
  have hleftSome : ∀ j < pos, p.bitmap.getLsbD j = true →
      leftSets ≠ 0 ∧ j ≤ 64 - 1 - leftSets.clz.toNat := by
    intro j hj hbit
    have hset : leftSets.getLsbD j = true := by simp [hleft, hbit, hj]
    refine ⟨?_, le_sub_clz_of_getLsbD hset⟩
    rintro rfl
    simp at hset
  have hrightBit : rightSets ≠ 0 →
      pos ≤ rightSets.ctz.toNat ∧ rightSets.ctz.toNat ≤ p.count.toNat := by
    intro h
    have hbit := BitVec.getLsbD_true_ctz_of_ne_zero h
    rw [hright, Bool.and_eq_true, decide_eq_true_eq] at hbit
    exact ⟨hbit.2, hbits _ hbit.1⟩
  have hleftBit : leftSets ≠ 0 →
      64 - 1 - leftSets.clz.toNat < pos ∧ leftSets.clz.toNat < 64 := by
    intro h
    have hbit := BitVec.getLsbD_true_clz_of_ne_zero (by omega) h
    rw [hleft, Bool.and_eq_true, decide_eq_true_eq] at hbit
    exact ⟨hbit.2, BitVec.clz_lt_iff_ne_zero.mpr h⟩
  by_cases hl : leftSets ≠ 0
  · obtain ⟨hlt, hclz⟩ := hleftBit hl
    rw [if_pos hl]
    by_cases hr : rightSets ≠ 0
    · obtain ⟨hle, hbound⟩ := hrightBit hr
      rw [if_pos hr]
      split_ifs with hgap
      · refine ⟨rightSets.ctz.toNat, by omega, nearestBit_ctz hright hr ?_⟩
        intro j hj hbit
        have := (hleftSome j hj hbit).2
        omega
      · refine ⟨64 - 1 - leftSets.clz.toNat, by omega,
          nearestBit_clz hleft hl ?_⟩
        intro j hj hbit
        have := (hrightSome j hj hbit).2
        omega
    · rw [if_neg hr, if_neg (by omega)]
      refine ⟨64 - 1 - leftSets.clz.toNat, by omega,
        nearestBit_clz hleft hl ?_⟩
      intro j hj hbit
      exact absurd (hrightSome j hj hbit).1 hr
  · have hr : rightSets ≠ 0 := by
      intro hr
      apply hne
      apply BitVec.eq_of_getLsbD_eq
      intro j _
      change p.bitmap.getLsbD j = (0#64).getLsbD j
      rw [BitVec.getLsbD_zero]
      by_contra hbit
      rw [Bool.not_eq_false] at hbit
      rcases Nat.lt_or_ge j pos with hj | hj
      · exact hl (hleftSome j hj hbit).1
      · exact (hrightSome j hj hbit).1 hr
    obtain ⟨hle, hbound⟩ := hrightBit hr
    rw [if_neg hl, if_pos hr, if_pos (by omega)]
    refine ⟨rightSets.ctz.toNat, by omega, nearestBit_ctz hright hr ?_⟩
    intro j hj hbit
    exact absurd (hleftSome j hj hbit).1 hl

theorem findIdx_eq_some {target : ChildSlot} {i : ℕ}
    (h : findIdx p target = some i) :
    i ≤ p.count.toNat ∧ p.child i = target := by
  have hfound := List.find?_some h
  have hmem := List.mem_of_find?_eq_some h
  simp only [decide_eq_true_eq] at hfound
  simp only [List.mem_range] at hmem
  exact ⟨by omega, hfound⟩

theorem findIdx_isSome {target : ChildSlot} {i : ℕ}
    (hi : i ≤ p.count.toNat) (htarget : p.child i = target) :
    ∃ j, findIdx p target = some j := by
  rw [← Option.isSome_iff_exists, findIdx, List.find?_isSome]
  exact ⟨i, List.mem_range.mpr (by omega), by simp [htarget]⟩

end BTreeInner

/-! ## Leaf operations -/

/-- `p'` is `p` with other entries, and the dirty flag that goes with it. -/
def Page.EntriesOnly (p p' : Page) : Prop :=
  p' = { p with data := p'.data, count := p'.count, dirty := p'.dirty } ∧
    p'.count.toNat ≤ 59

namespace BTreeLeaf

variable {p : Page} {k : Key} {v : Value}

theorem lowerBound_le (p : Page) (k : Key) : lowerBound p k ≤ p.count.toNat :=
  (search_bounds _ k _ (Nat.zero_le _)).2

section Sorted

variable (hcount : p.count.toNat ≤ 59) (hsorted : SortedEntries p.entries)
include hcount hsorted

theorem lowerBound_eq : lowerBound p k = entryIdx k p.entries := by
  have hlength := Page.length_entries hcount
  refine search_eq_lowerIdx (K := Key) ?_ hsorted.keys k _ ?_ ?_ ?_ ?_ ?_
  rotate_left
  · exact Nat.zero_le _
  · omega
  · simp [hlength]
  · intro i _ hi
    exact absurd hi (Nat.not_lt_zero i)
  · intro h
    simp [hlength] at h
  · intro i hi
    simp only [List.length_map, hlength] at hi
    simp [Page.entry, Page.entries, live, show i < 59 by omega]

/-- The lower bound cuts the entries; a hit is the entry at the cut. -/
theorem exists_cut : ∃ below hit above,
    KeySplit k p.entries below hit above ∧
      below.length = lowerBound p k ∧
      (BTreeLeaf.hit p k = true ↔ hit ≠ []) ∧
      ∀ w, hit = [(k, w)] → p.entry (lowerBound p k) = (k, w) := by
  obtain ⟨below, hit, above, hsplit⟩ := hsorted.exists_keySplit k
  have hpos := lowerBound_eq hcount hsorted (k := k)
  have hlength := Page.length_entries hcount
  have hentry : ∀ i, i < p.count.toNat → p.entries[i]? = some (p.entry i) := by
    intro i hi
    simp [Page.entry, Page.entries, live, hi, show i < 59 by omega]
  have hget : p.entries[lowerBound p k]? = (hit ++ above)[0]? := by
    rw [hpos, ← hsplit.length_below, hsplit.eq_append,
      List.getElem?_append_right le_rfl, Nat.sub_self]
  refine ⟨below, hit, above, hsplit, by rw [hsplit.length_below, hpos], ?_, ?_⟩
  · rw [← hsplit.getElem?_entryIdx, ← hpos, List.getElem?_map]
    simp only [BTreeLeaf.hit, decide_eq_true_eq]
    constructor
    · rintro ⟨hlt, hkey⟩
      simp [hentry _ hlt, hkey]
    · intro hfound
      have hlt : lowerBound p k < p.count.toNat := by
        by_contra hge
        rw [List.getElem?_eq_none (by omega)] at hfound
        simp at hfound
      rw [hentry _ hlt] at hfound
      exact ⟨hlt, by simpa using hfound⟩
  · rintro w rfl
    have hlt : lowerBound p k < p.count.toNat := by
      by_contra hge
      rw [List.getElem?_eq_none (by omega)] at hget
      simp at hget
    rw [hentry _ hlt] at hget
    simpa using hget

theorem find_eq : find p k = findEntry k p.entries := by
  obtain ⟨below, hit, above, hsplit, _, hhit, hentry⟩ :=
    exists_cut hcount hsorted (k := k)
  rw [find, hsplit.findEntry_eq]
  rcases hsplit.hit_cases with rfl | ⟨w, rfl⟩
  · simp [hhit]
  · simp [hhit, hentry w rfl]

theorem insert_spec (hroom : p.count.toNat < 59) :
    (insert p k v).1 = (findEntry k p.entries).isNone ∧
      (insert p k v).2.entries = putEntry k v p.entries := by
  obtain ⟨below, hit, above, hsplit, hpos, hhit, hentry⟩ :=
    exists_cut hcount hsorted (k := k)
  have hlength := Page.length_entries hcount
  have hle := lowerBound_le p k
  have hclean : lowerBound { p with dirty := true } k = lowerBound p k := rfl
  have hcleanHit : BTreeLeaf.hit { p with dirty := true } k =
      BTreeLeaf.hit p k := rfl
  rw [hsplit.findEntry_eq, hsplit.putEntry_eq]
  unfold insert
  simp only [hclean, hcleanHit]
  split_ifs with hpositive hfound hfull
  · rcases hsplit.hit_cases with rfl | ⟨w, rfl⟩
    · simp [hhit] at hfound
    · refine ⟨by simp, ?_⟩
      have hkey : ({ p with dirty := true } : Page).entry (lowerBound p k) =
          (k, w) := hentry w rfl
      rw [hkey]
      change live (p.data.setIfInBounds _ _) _ = _
      rw [live_set]
      change p.entries.set _ _ = _
      rw [hsplit.eq_append, ← hpos]
      simp
  · rw [UInt8.le_iff_toNat_le] at hfull
    exact absurd hfull (by simpa using hroom)
  · rcases hsplit.hit_cases with rfl | ⟨w, rfl⟩
    · refine ⟨by simp, ?_⟩
      have hsum : (p.count + 1).toNat = p.count.toNat + 1 := by
        rw [UInt8.toNat_add]
        change (p.count.toNat + 1) % 2 ^ 8 = _
        omega
      change live _ (p.count + 1).toNat = _
      rw [hsum, live_moveUp_set p.data (k, v) hle (by omega) (by omega)]
      change p.entries.insertIdx _ _ = _
      rw [hsplit.eq_append, ← hpos, List.nil_append]
      exact insertIdx_length_append below _ _
    · simp [hhit] at hfound
  · have hzero : p.count.toNat = 0 := by
      rw [UInt8.lt_iff_toNat_lt] at hpositive
      change ¬ 0 < p.count.toNat at hpositive
      omega
    have hnil : p.entries = [] := by
      rw [Page.entries, hzero, live_zero]
    rw [hsplit.eq_append] at hnil
    simp only [List.append_eq_nil_iff] at hnil
    obtain ⟨rfl, rfl, rfl⟩ := hnil
    refine ⟨by simp, ?_⟩
    have hsum : (p.count + 1).toNat = 1 := by
      rw [UInt8.toNat_add]
      change (p.count.toNat + 1) % 2 ^ 8 = _
      omega
    change live _ (p.count + 1).toNat = _
    rw [hsum]
    apply List.ext_getElem?
    intro i
    rw [getElem?_live, Vector.getElem?_setIfInBounds]
    rcases i with _ | i
    · simp
    · simp

theorem remove_spec :
    (remove p k).1 = (findEntry k p.entries).isSome ∧
      (remove p k).2.entries = dropEntry k p.entries := by
  obtain ⟨below, hit, above, hsplit, hpos, hhit, hentry⟩ :=
    exists_cut hcount hsorted (k := k)
  have hlength := Page.length_entries hcount
  rw [hsplit.findEntry_eq, hsplit.dropEntry_eq]
  unfold remove
  split_ifs with hzero hfound
  · have hnil : p.entries = [] := by
      rw [Page.entries, hzero]
      exact live_zero _
    have hempty := hnil
    rw [hsplit.eq_append] at hempty
    simp only [List.append_eq_nil_iff] at hempty
    obtain ⟨rfl, rfl, rfl⟩ := hempty
    exact ⟨by simp, by simpa using hnil⟩
  · rcases hsplit.hit_cases with rfl | ⟨w, rfl⟩
    · simp [hhit] at hfound
    · refine ⟨by simp, ?_⟩
      have hlt : lowerBound p k < p.count.toNat := by
        have := congrArg List.length hsplit.eq_append
        simp only [List.length_append, List.length_cons] at this
        omega
      have hsum : (p.count - 1).toNat = p.count.toNat - 1 := by
        rw [UInt8.toNat_sub_of_le]
        · rfl
        · rw [UInt8.le_iff_toNat_le]
          change 1 ≤ p.count.toNat
          omega
      change live _ (p.count - 1).toNat = _
      rw [hsum, live_moveDown p.data hlt hcount]
      change p.entries.eraseIdx _ = _
      rw [hsplit.eq_append, ← hpos]
      simp [List.eraseIdx_append_of_length_le]
  · rcases hsplit.hit_cases with rfl | ⟨w, rfl⟩
    · exact ⟨by simp, by simpa using hsplit.eq_append⟩
    · simp [hhit] at hfound

theorem update_spec :
    (update p k v).1 = (findEntry k p.entries).isSome ∧
      (update p k v).2.entries =
        if (findEntry k p.entries).isSome then putEntry k v p.entries
        else p.entries := by
  obtain ⟨below, hit, above, hsplit, hpos, hhit, hentry⟩ :=
    exists_cut hcount hsorted (k := k)
  rw [hsplit.findEntry_eq, hsplit.putEntry_eq]
  unfold update
  rcases hsplit.hit_cases with rfl | ⟨w, rfl⟩
  · simp [hhit]
  · have hfound : BTreeLeaf.hit p k = true := hhit.mpr (by simp)
    rw [if_pos hfound]
    refine ⟨by simp, ?_⟩
    rw [hentry w rfl]
    change live (p.data.setIfInBounds _ _) _ = _
    rw [live_set]
    change p.entries.set _ _ = _
    rw [hsplit.eq_append, ← hpos]
    simp

end Sorted

theorem insert_entriesOnly (hroom : p.count.toNat < 59) :
    p.EntriesOnly (insert p k v).2 ∧ (insert p k v).2.dirty = true := by
  have hsum : (p.count + 1).toNat = p.count.toNat + 1 := by
    rw [UInt8.toNat_add]
    change (p.count.toNat + 1) % 2 ^ 8 = _
    omega
  unfold insert Page.EntriesOnly
  simp only
  split_ifs <;> refine ⟨⟨rfl, ?_⟩, rfl⟩ <;> simp only [hsum] <;> omega

theorem remove_entriesOnly (hcount : p.count.toNat ≤ 59) :
    p.EntriesOnly (remove p k).2 ∧
      ((remove p k).2.dirty = true ∨ (remove p k).2 = p) := by
  unfold remove Page.EntriesOnly
  simp only
  split_ifs with hzero hfound
  · exact ⟨⟨rfl, hcount⟩, Or.inr rfl⟩
  · refine ⟨⟨rfl, ?_⟩, Or.inl rfl⟩
    have hpositive : 1 ≤ p.count := by
      rw [UInt8.le_iff_toNat_le]
      change 1 ≤ p.count.toNat
      have : p.count.toNat ≠ 0 := fun h => hzero (UInt8.toNat_inj.mp h)
      omega
    have := UInt8.toNat_sub_of_le _ _ hpositive
    simp only [this]
    omega
  · exact ⟨⟨rfl, hcount⟩, Or.inr rfl⟩

theorem update_entriesOnly (hcount : p.count.toNat ≤ 59) :
    p.EntriesOnly (update p k v).2 ∧
      ((update p k v).2.dirty = true ∨ (update p k v).2 = p) := by
  unfold update Page.EntriesOnly
  simp only
  split_ifs
  · exact ⟨⟨rfl, hcount⟩, Or.inl rfl⟩
  · exact ⟨⟨rfl, hcount⟩, Or.inr rfl⟩

/-- A removal or an update without success leaves the leaf. -/
theorem remove_of_false (h : (remove p k).1 = false) :
    (remove p k).2 = p := by
  unfold remove at h ⊢
  dsimp only at h ⊢
  split_ifs at h ⊢ with hzero hhit
  · rfl
  · rfl

theorem update_of_false (h : (update p k v).1 = false) :
    (update p k v).2 = p := by
  unfold update at h ⊢
  dsimp only at h ⊢
  split_ifs at h ⊢
  rfl

end BTreeLeaf

/-! ## Splits and insertion into inner nodes -/

theorem toNat_half (c : UInt8) : (c / 2).toNat = c.toNat / 2 := by
  rw [UInt8.toNat_div]
  rfl

theorem toNat_sub_half (c : UInt8) :
    (c - c / 2).toNat = c.toNat - c.toNat / 2 := by
  have hle : c / 2 ≤ c := by
    rw [UInt8.le_iff_toNat_le, toNat_half]
    omega
  rw [UInt8.toNat_sub_of_le _ _ hle, toNat_half]

theorem toNat_sub_sub_half (c : UInt8) :
    (c - (c - c / 2)).toNat = c.toNat / 2 := by
  have hle : c - c / 2 ≤ c := by
    rw [UInt8.le_iff_toNat_le, toNat_sub_half]
    omega
  rw [UInt8.toNat_sub_of_le _ _ hle, toNat_sub_half]
  omega

namespace BTreeLeaf

variable {p : Page} {w : ChildSlot → GlobalAddress}

/-- The halves of a leaf split share the entries out. -/
theorem split_entries (hcount : p.count.toNat ≤ 59) (new : Page) :
    (split p new).2.1.entries = p.entries.take (p.count.toNat / 2) ∧
      (split p new).2.2.entries = p.entries.drop (p.count.toNat / 2) := by
  constructor
  · rw [Page.entries, Page.entries, live_take _ (by omega)]
    simp only [split, toNat_sub_sub_half]
  · rw [Page.entries, Page.entries]
    simp only [split, toNat_sub_sub_half, toNat_sub_half]
    exact live_moveFront _ _ (by omega) hcount (by omega)

theorem split_sep (hleaf : p.type = .btreeLeaf)
    (hcount : p.count.toNat ≤ 59) (hlow : 2 ≤ p.count.toNat) (new : Page) :
    (split p new).1 = (p.node w).splitKey := by
  have hlength := Page.length_entries hcount
  have hat : p.count.toNat / 2 - 1 < p.count.toNat := by omega
  rw [Page.node_of_leaf hleaf]
  simp only [split, toNat_sub_sub_half, Node.splitKey, hlength]
  simp [Page.entry, Page.entries, live, hat,
    show p.count.toNat / 2 - 1 < 59 by omega]

/-- A leaf split cuts the shown leaf in half. -/
theorem split_spec (hleaf : p.type = .btreeLeaf)
    (hcount : p.count.toNat ≤ 59) (hlow : 4 ≤ p.count.toNat)
    (sibling : GlobalAddress) :
    (split p (construct sibling)).1 = (p.node w).splitKey ∧
      (split p (construct sibling)).2.1.node w =
        (p.node w).splitLeft sibling ∧
      (split p (construct sibling)).2.2.node w =
        (p.node w).splitRight .null := by
  have hlength := Page.length_entries hcount
  have hsep : (split p (construct sibling)).1 = (p.node w).splitKey :=
    split_sep hleaf hcount (by omega) _
  obtain ⟨hleft, hright⟩ := split_entries hcount (construct sibling)
  refine ⟨hsep, ?_, ?_⟩
  · rw [Page.node_of_leaf (p := (split p (construct sibling)).2.1) hleaf,
      hleft]
    rw [Page.node_of_leaf hleaf] at hsep ⊢
    simp only [Node.splitLeft, ← hsep, hlength]
    rfl
  · rw [Page.node_of_leaf (p := (split p (construct sibling)).2.2) rfl,
      hright]
    rw [Page.node_of_leaf hleaf] at hsep ⊢
    simp only [Node.splitRight, ← hsep, hlength]
    rfl

theorem formed_split (hleaf : p.type = .btreeLeaf) (hformed : p.Formed)
    (sibling : GlobalAddress) :
    (split p (construct sibling)).2.1.Formed ∧
      (split p (construct sibling)).2.2.Formed := by
  have hcount := hformed.count_le
  constructor
  · refine ⟨Or.inl hleaf, ?_, fun _ => hformed.leaf_level hleaf, ?_⟩
    · simp only [split, toNat_sub_sub_half]
      omega
    · intro i
      have hbits : (split p (construct sibling)).2.1.bitmap = 0 := by
        change p.bitmap = 0
        exact Page.bitmap_of_leaf hformed hleaf
      rw [hbits, Page.slots_of_leaf (p := (split p _).2.1) hleaf]
      simp
  · refine ⟨Or.inl rfl, ?_, fun _ => rfl, ?_⟩
    · simp only [split, toNat_sub_half]
      omega
    · intro i
      have hbits : (split p (construct sibling)).2.2.bitmap = 0 := rfl
      rw [hbits, Page.slots_of_leaf (p := (split p _).2.2) rfl]
      simp

end BTreeLeaf

namespace BTreeInner

variable {p : Page} {w : ChildSlot → GlobalAddress} {k : Key}

theorem lowerBound_le (p : Page) (k : Key) : lowerBound p k ≤ p.count.toNat :=
  (search_bounds _ k _ (Nat.zero_le _)).2

theorem lowerBound_eq (hcount : p.count.toNat ≤ 59)
    (hsorted : p.separators.Pairwise (· < ·)) :
    lowerBound p k = lowerIdx k p.separators := by
  have hlength := Page.length_separators hcount
  refine search_eq_lowerIdx (K := Key) ?_ hsorted k _ ?_ ?_ ?_ ?_ ?_
  rotate_left
  · exact Nat.zero_le _
  · omega
  · omega
  · intro i _ hi
    exact absurd hi (Nat.not_lt_zero i)
  · intro h
    omega
  · intro i hi
    rw [hlength] at hi
    simp [Page.key, Page.separators, live, show i < 60 by omega]

/-- An inner split cuts the shown node in half, bitmaps included. -/
theorem split_spec (w : ChildSlot → GlobalAddress)
    (hinner : p.type = .btreeInner) (hformed : p.Formed)
    (hlow : 2 ≤ p.count.toNat) (new : Page)
    (hnew : new.type = .btreeInner) :
    (split p new).1 = (p.node w).splitKey ∧
      (split p new).2.1.slots =
        p.slots.take (p.count.toNat / 2) ∧
      (split p new).2.2.slots =
        p.slots.drop (p.count.toNat / 2) ∧
      (split p new).2.1.separators =
        p.separators.take (p.count.toNat / 2 - 1) ∧
      (split p new).2.2.separators =
        p.separators.drop (p.count.toNat / 2) := by
  have hcount := hformed.count_le
  have hlength := Page.length_separators hcount
  have hleft : (p.count - (p.count - p.count / 2) - 1).toNat =
      p.count.toNat / 2 - 1 := by
    have hle : (1 : UInt8) ≤ p.count - (p.count - p.count / 2) := by
      rw [UInt8.le_iff_toNat_le, toNat_sub_sub_half]
      change 1 ≤ _
      omega
    rw [UInt8.toNat_sub_of_le _ _ hle, toNat_sub_sub_half]
    rfl
  have hone : p.count.toNat / 2 - 1 + 1 = p.count.toNat / 2 := by omega
  refine ⟨?_, ?_, ?_, ?_, ?_⟩
  · rw [Page.node_of_inner hinner]
    simp only [split, hleft, Node.splitKey, hlength]
    simp [Page.key, Page.separators, live,
      show p.count.toNat / 2 - 1 < 60 by omega,
      show p.count.toNat / 2 - 1 < p.count.toNat by omega]
  · rw [Page.slots_of_inner (p := (split p _).2.1) hinner,
      Page.slots_of_inner hinner, live_take _ (by omega)]
    simp only [split, hleft, hone]
  · rw [Page.slots_of_inner (p := (split p _).2.2) hnew,
      Page.slots_of_inner hinner]
    simp only [split, hleft, toNat_sub_half, hone]
    exact live_moveFront _ _ (by omega) (by omega) (by omega)
  · rw [Page.separators, Page.separators, live_take _ (by omega)]
    simp only [split, hleft]
  · rw [Page.separators, Page.separators]
    simp only [split, hleft, toNat_sub_half, hone]
    -- one more cell is copied than the count of the right half
    have hmove : live (moveCells new.keys 0 p.keys
        (p.count.toNat / 2) (p.count.toNat - p.count.toNat / 2 + 1))
          (p.count.toNat - p.count.toNat / 2 + 1) =
        (live p.keys (p.count.toNat + 1)).drop (p.count.toNat / 2) :=
      live_moveFront _ _ (by omega) (by omega) (by omega)
    rw [← live_take _ (show p.count.toNat - p.count.toNat / 2 ≤
        p.count.toNat - p.count.toNat / 2 + 1 by omega), hmove,
      List.take_drop, show p.count.toNat / 2 +
        (p.count.toNat - p.count.toNat / 2) = p.count.toNat by omega,
      live_take _ (by omega)]

theorem node_split (hinner : p.type = .btreeInner) (hformed : p.Formed)
    (hlow : 4 ≤ p.count.toNat) (sibling a : GlobalAddress) :
    (split p (construct p.level sibling)).2.1.node w =
        (p.node w).splitLeft a ∧
      (split p (construct p.level sibling)).2.2.node w =
        (p.node w).splitRight .null := by
  obtain ⟨hsep, hleft, hright, hleftKeys, hrightKeys⟩ :=
    split_spec w hinner hformed (by omega) (construct p.level sibling) rfl
  have hlength := Page.length_separators hformed.count_le
  rw [Page.node_of_inner (p := (split p _).2.1) hinner,
    Page.node_of_inner (p := (split p _).2.2) rfl, hleft, hright, hleftKeys,
    hrightKeys]
  rw [Page.node_of_inner hinner] at hsep ⊢
  simp only [Node.splitLeft, Node.splitRight, ← hsep, hlength, List.map_take,
    List.map_drop]
  exact ⟨rfl, rfl⟩

theorem formed_split (hinner : p.type = .btreeInner) (hformed : p.Formed)
    (hlow : 2 ≤ p.count.toNat) (new : Page)
    (hnew : new.type = .btreeInner) :
    (split p new).2.1.Formed ∧
      (split p new).2.2.Formed := by
  obtain ⟨_, hleft, hright, _, _⟩ :=
    split_spec (fun _ => .null) hinner hformed hlow new hnew
  have hcount := hformed.count_le
  have hleftCount : (p.count - (p.count - p.count / 2) - 1).toNat =
      p.count.toNat / 2 - 1 := by
    have hle : (1 : UInt8) ≤ p.count - (p.count - p.count / 2) := by
      rw [UInt8.le_iff_toNat_le, toNat_sub_sub_half]
      change 1 ≤ _
      omega
    rw [UInt8.toNat_sub_of_le _ _ hle, toNat_sub_sub_half]
    rfl
  have hone : p.count.toNat / 2 - 1 + 1 = p.count.toNat / 2 := by omega
  constructor
  · refine ⟨Or.inr hinner, ?_, fun h => ?_, ?_⟩
    · simp only [split, hleftCount]
      omega
    · simp [split, hinner] at h
    · intro i
      rw [hleft, List.getElem?_take]
      have hbit : (split p new).2.1.bitmap.getLsbD i =
          (p.bitmap.getLsbD i && decide (i < p.count.toNat / 2)) := by
        simp only [split, hleftCount, hone, BitVec.getLsbD_and]
        rw [getLsbD_lowMask (by omega)]
      rw [hbit, Bool.and_eq_true, hformed.aligned, decide_eq_true_eq]
      by_cases hi : i < p.count.toNat / 2
      · simp [hi]
      · simp [hi]
  · refine ⟨Or.inr hnew, ?_, fun h => ?_, ?_⟩
    · simp only [split, toNat_sub_half]
      omega
    · simp [split, hnew] at h
    · intro i
      rw [hright, List.getElem?_drop, ← hformed.aligned]
      simp only [split, hleftCount, hone, BitVec.getLsbD_ushiftRight]

theorem type_insert (c : ChildSlot) : (insert p k c).type = p.type := by
  unfold insert setBitmap
  simp only
  split_ifs <;> rfl

/-- The children move up by one from the new position on, and the swap puts
the old child back before the new one. -/
theorem getElem?_children_insert (hroom : p.count.toNat < 59) (c : ChildSlot)
    (i : ℕ) :
    (insert p k c).children[i]? =
      if i ≤ lowerBound p k then p.children[i]?
      else if i = lowerBound p k + 1 then
        (if i < 60 then some c else none)
      else if i ≤ p.count.toNat + 1 then p.children[i - 1]?
      else p.children[i]? := by
  have hle := lowerBound_le p k
  have hmoved : ∀ j, (moveCells p.children (lowerBound p k + 1) p.children
      (lowerBound p k) (p.count.toNat - lowerBound p k + 1))[j]? =
      if lowerBound p k + 1 ≤ j ∧ j ≤ p.count.toNat + 1
      then p.children[j - 1]? else p.children[j]? := by
    intro j
    rw [getElem?_moveCells _ _ _ _ _ _ (by omega)]
    by_cases hj : lowerBound p k + 1 ≤ j ∧ j ≤ p.count.toNat + 1
    · rw [if_pos ⟨hj.1, by omega, by omega⟩, if_pos hj]
      congr 1
      omega
    · rw [if_neg hj, if_neg (by omega)]
  have hchildren : (insert p k c).children =
      (((moveCells p.children (lowerBound p k + 1) p.children
        (lowerBound p k) (p.count.toNat - lowerBound p k + 1)).setIfInBounds
          (lowerBound p k) c).setIfInBounds (lowerBound p k)
            ((p.children[lowerBound p k]?).getD default)).setIfInBounds
              (lowerBound p k + 1) c := by
    have hold : ((moveCells p.children (lowerBound p k + 1) p.children
        (lowerBound p k) (p.count.toNat - lowerBound p k + 1)).setIfInBounds
          (lowerBound p k) c)[lowerBound p k + 1]? =
        p.children[lowerBound p k]? := by
      rw [Vector.getElem?_setIfInBounds, if_neg (by omega), hmoved,
        if_pos (by omega), Nat.add_sub_cancel]
    rw [← hold]
    unfold insert setBitmap
    simp only
    split_ifs <;> rfl
  rw [hchildren]
  simp only [Vector.getElem?_setIfInBounds, hmoved]
  rcases Nat.lt_trichotomy i (lowerBound p k) with hi | hi | hi
  · simp [show ¬ lowerBound p k + 1 = i by omega,
      show ¬ lowerBound p k = i by omega,
      show ¬ lowerBound p k + 1 ≤ i by omega, hi.le]
  · subst hi
    simp [show lowerBound p k < 60 by omega]
  · by_cases hnext : i = lowerBound p k + 1
    · subst hnext
      simp
    · simp [show ¬ lowerBound p k + 1 = i by omega,
        show ¬ lowerBound p k = i by omega,
        show lowerBound p k + 1 ≤ i by omega,
        show ¬ i ≤ lowerBound p k by omega, hnext]

/-- Inserting a separator with its right child, in terms of the live
lists. -/
theorem insert_spec (hinner : p.type = .btreeInner)
    (hroom : p.count.toNat < 59) (c : ChildSlot) :
    (insert p k c).slots = p.slots.insertIdx (lowerBound p k + 1) c ∧
      (insert p k c).separators =
        p.separators.insertIdx (lowerBound p k) k ∧
      (insert p k c).count.toNat = p.count.toNat + 1 := by
  have hle := lowerBound_le p k
  have hsum : (p.count + 1).toNat = p.count.toNat + 1 := by
    rw [UInt8.toNat_add]
    change (p.count.toNat + 1) % 2 ^ 8 = _
    omega
  have hcount : (insert p k c).count = p.count + 1 := by
    unfold insert setBitmap
    simp only
    split_ifs <;> rfl
  have hkeys : (insert p k c).keys =
      (moveCells p.keys (lowerBound p k + 1) p.keys (lowerBound p k)
        (p.count.toNat - lowerBound p k + 1)).setIfInBounds
          (lowerBound p k) k := by
    unfold insert setBitmap
    simp only
    split_ifs <;> rfl
  have htype : (insert p k c).type = .btreeInner := (type_insert c).trans hinner
  refine ⟨?_, ?_, by rw [hcount, hsum]⟩
  · rw [Page.slots_of_inner htype, Page.slots_of_inner hinner, hcount, hsum]
    apply List.ext_getElem?
    intro i
    have hlength : (live p.children (p.count.toNat + 1)).length =
        p.count.toNat + 1 := length_live _ (by omega)
    have hchildren : (insert p k c).children[i]? =
        if i ≤ lowerBound p k then p.children[i]?
        else if i = lowerBound p k + 1 then
          (if i < 60 then some c else none)
        else if i ≤ p.count.toNat + 1 then p.children[i - 1]?
        else p.children[i]? :=
      getElem?_children_insert hroom c i
    rw [getElem?_live, hchildren, List.getElem?_insertIdx, hlength]
    simp only [getElem?_live]
    rcases Nat.lt_trichotomy i (lowerBound p k + 1) with hi | hi | hi
    · simp [hi, show i ≤ lowerBound p k by omega,
        show i < p.count.toNat + 1 + 1 by omega,
        show i < p.count.toNat + 1 by omega]
    · simp [hi, hle, show lowerBound p k + 1 < 60 by omega]
    · simp only [if_neg (show ¬ i ≤ lowerBound p k by omega),
        if_neg (show ¬ i = lowerBound p k + 1 by omega),
        if_neg (show ¬ i < lowerBound p k + 1 by omega)]
      by_cases hlast : i ≤ p.count.toNat + 1
      · simp [hlast, show i < p.count.toNat + 1 + 1 by omega,
          show i - 1 < p.count.toNat + 1 by omega]
      · simp [show ¬ i < p.count.toNat + 1 + 1 by omega,
          show ¬ i - 1 < p.count.toNat + 1 by omega]
  · rw [Page.separators, hcount, hsum, hkeys]
    exact live_moveUp_set p.keys k hle (by omega) (by omega)

theorem node_insert (hinner : p.type = .btreeInner)
    (hroom : p.count.toNat < 59) (c : ChildSlot) :
    (insert p k c).node w =
      (p.node w).insertChild (lowerBound p k) k (w c) := by
  obtain ⟨hslots, hkeys, _⟩ := insert_spec hinner hroom c (k := k)
  have hheader : (insert p k c).type = .btreeInner ∧
      (insert p k c).level = p.level ∧
      (insert p k c).minLimit = p.minLimit ∧
      (insert p k c).maxLimit = p.maxLimit := by
    unfold insert setBitmap
    simp only
    split_ifs <;> exact ⟨hinner, rfl, rfl, rfl⟩
  rw [Page.node_of_inner hheader.1, Page.node_of_inner hinner, hslots, hkeys,
    hheader.2.1, hheader.2.2.1, hheader.2.2.2]
  simp only [Node.insertChild, List.map_insertIdx]

theorem formed_insert (hinner : p.type = .btreeInner) (hformed : p.Formed)
    (hroom : p.count.toNat < 59) (c : ChildSlot) :
    (insert p k c).Formed := by
  obtain ⟨hslots, _, hcount⟩ := insert_spec hinner hroom c (k := k)
  have hle := lowerBound_le p k
  have htype : (insert p k c).type = .btreeInner := (type_insert c).trans hinner
  have hbits : ∀ i, (insert p k c).bitmap.getLsbD i =
      if i ≤ lowerBound p k then p.bitmap.getLsbD i
      else if i = lowerBound p k + 1 then c.isSwizzled
      else p.bitmap.getLsbD (i - 1) := by
    intro i
    have hhigh : ∀ j, 60 ≤ j → p.bitmap.getLsbD j = false := by
      intro j hj
      by_contra hset
      obtain ⟨q, hq⟩ := (hformed.aligned j).mp (by simpa using hset)
      have := (Page.le_count_of_slot hq).2.1
      omega
    have hbase : (p.bitmap &&& (1#64 <<< (lowerBound p k + 1) - 1) |||
        (p.bitmap >>> (lowerBound p k + 1)) <<< (lowerBound p k + 2)).getLsbD i =
        if i ≤ lowerBound p k then p.bitmap.getLsbD i
        else if i = lowerBound p k + 1 then false
        else p.bitmap.getLsbD (i - 1) := by
      rw [BitVec.getLsbD_or, BitVec.getLsbD_and, getLsbD_lowMask (by omega),
        BitVec.getLsbD_shiftLeft, BitVec.getLsbD_ushiftRight]
      rcases Nat.lt_trichotomy i (lowerBound p k + 1) with hi | hi | hi
      · simp [hi, show i ≤ lowerBound p k by omega,
          show i < lowerBound p k + 2 by omega]
      · simp [hi]
      · rw [show lowerBound p k + 1 + (i - (lowerBound p k + 2)) = i - 1
          by omega]
        by_cases hlast : i < 64
        · simp [hlast, show ¬ i < lowerBound p k + 1 by omega,
            show ¬ i < lowerBound p k + 2 by omega,
            show ¬ i ≤ lowerBound p k by omega,
            show ¬ i = lowerBound p k + 1 by omega]
        · simp [hlast, hhigh (i - 1) (by omega), hhigh i (by omega),
            show ¬ i < lowerBound p k + 1 by omega]
    have hbitmap : (insert p k c).bitmap =
        (p.bitmap &&& (1#64 <<< (lowerBound p k + 1) - 1) |||
          (p.bitmap >>> (lowerBound p k + 1)) <<< (lowerBound p k + 2)) |||
            (if c.isSwizzled then 1#64 <<< (lowerBound p k + 1) else 0) := by
      unfold insert setBitmap
      simp only
      split_ifs
      · rfl
      · exact BitVec.or_zero.symm
    rw [hbitmap, BitVec.getLsbD_or, hbase]
    cases c.isSwizzled with
    | false => simp
    | true =>
        rw [if_pos rfl, getLsbD_one_shiftLeft (by omega)]
        split_ifs with h1 h2
        · simp [show ¬ i = lowerBound p k + 1 by omega]
        · simp [h2]
        · simp [h2]
  refine ⟨Or.inr htype, by omega, fun h => ?_, ?_⟩
  · rw [htype] at h
    cases h
  · intro i
    have hlength := Page.length_slots hformed hinner
    rw [hbits, hslots, List.getElem?_insertIdx]
    rcases Nat.lt_trichotomy i (lowerBound p k + 1) with hi | hi | hi
    · rw [if_pos (by omega), if_pos hi, hformed.aligned]
    · subst hi
      rw [if_neg (by omega), if_pos rfl, if_neg (by omega), if_pos rfl,
        if_pos (by omega)]
      cases c <;> simp [ChildSlot.isSwizzled]
    · rw [if_neg (by omega), if_neg (by omega), if_neg (by omega),
        if_neg (by omega), hformed.aligned]

end BTreeInner

end CachingDex
