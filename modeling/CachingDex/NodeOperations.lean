import CachingDex.BtreeNodeSpec

/-!
# What the node operations promise

A leaf is a finite map from keys to values, kept as a sorted row of entries;
a split of a full leaf shares the row out between two leaves whose ranges
meet.  An inner node keeps separators, children and the bitmap of its tagged
children in step.  Inserting a separator divides the interval it falls in and
a split hands every search key to the child it had.
-/

namespace CachingDex

open Lib

/-! ## Leaves -/

namespace BTreeLeaf

/-- At most 59 entries with increasing keys. -/
structure Sorted (p : Page) : Prop where
  count_le : p.count.toNat ≤ 59
  increasing : SortedEntries p.entries

/-- `find` reads the entries as a finite map. -/
def FindsAsMap (p : Page) : Prop :=
  ∀ k v, find p k = some v ↔ (k, v) ∈ p.entries

/-- An insertion is an update of the map, unless the leaf is full and the key
is new. -/
structure InsertsAsMap (p : Page) (k : Key) (v : Value) : Prop where
  sorted : Sorted (insert p k v).2
  present : find p k ≠ none → (insert p k v).1 = false
  absent : find p k = none → p.count.toNat < 59 → (insert p k v).1 = true
  put : find p k ≠ none ∨ p.count.toNat < 59 →
    find (insert p k v).2 = Function.update (find p) k (some v)
  full : find p k = none → p.count.toNat = 59 →
    (insert p k v).2.entries = p.entries
  dirty : (insert p k v).2.entries ≠ p.entries →
    (insert p k v).2.dirty = true

structure RemovesAsMap (p : Page) (k : Key) : Prop where
  sorted : Sorted (remove p k).2
  found : (remove p k).1 = (find p k).isSome
  dropped : find (remove p k).2 = Function.update (find p) k none
  dirty : (remove p k).2.entries ≠ p.entries → (remove p k).2.dirty = true

structure UpdatesAsMap (p : Page) (k : Key) (v : Value) : Prop where
  sorted : Sorted (update p k v).2
  found : (update p k v).1 = (find p k).isSome
  put : find (update p k v).2 =
    Function.update (find p) k ((find p k).map fun _ => v)
  dirty : (update p k v).2.entries ≠ p.entries →
    (update p k v).2.dirty = true

/-- The two halves of a split with the key between them. -/
structure SplitsInTwo (p left right : Page) (sep : Key) : Prop where
  entries : left.entries ++ right.entries = p.entries
  sorted_left : Sorted left
  sorted_right : Sorted right
  largest : left.entries.getLast?.map Prod.fst = some sep
  left_le : ∀ e ∈ left.entries, e.1 ≤ sep
  right_gt : ∀ e ∈ right.entries, sep < e.1
  left_limits : left.minLimit = p.minLimit ∧ left.maxLimit = sep
  right_limits : right.minLimit = sep ∧ right.maxLimit = p.maxLimit
  left_only : ∀ e ∈ left.entries,
    rangeValid left e.1 = true ∧ rangeValid right e.1 = false
  right_only : ∀ e ∈ right.entries,
    rangeValid right e.1 = true ∧ rangeValid left e.1 = false

variable {p : Page} {k : Key} {v : Value}

theorem Sorted.find_iff (h : Sorted p) (k : Key) (v : Value) :
    find p k = some v ↔ (k, v) ∈ p.entries := by
  rw [find_eq h.count_le h.increasing, h.increasing.findEntry_eq_some]

/-- Sorted leaves with the same entries under every other key. -/
theorem Sorted.find_update {q : Page} (h : Sorted p) (hq : Sorted q)
    {x : Option Value} (hkey : find q k = x)
    (hother : ∀ e : Key × Value, e.1 ≠ k → (e ∈ q.entries ↔ e ∈ p.entries)) :
    find q = Function.update (find p) k x := by
  funext a
  by_cases ha : a = k
  · rw [ha, Function.update_self, hkey]
  · rw [Function.update_of_ne ha]
    ext v
    rw [hq.find_iff, h.find_iff, hother (a, v) ha]

theorem find_eq_none_iff (h : Sorted p) :
    find p k = none ↔ ∀ v, (k, v) ∉ p.entries := by
  rw [Option.eq_none_iff_forall_ne_some]
  exact forall_congr' fun v => not_congr (h.find_iff k v)

/-- On a full leaf only a key that is there can be inserted. -/
theorem insert_full (hfull : p.count.toNat = 59) :
    insert p k v =
      if hit p k then (false, { p with
        dirty := true
        data := p.data.setIfInBounds (lowerBound p k)
          ((p.entry (lowerBound p k)).1, v) })
      else (false, { p with dirty := true }) := by
  have hpositive : 0 < p.count := by
    rw [UInt8.lt_iff_toNat_lt, hfull]
    decide
  have hcount : 59 ≤ p.count := by
    rw [UInt8.le_iff_toNat_le, hfull]
    decide
  unfold insert
  simp only [hpositive, if_true]
  change (if hit p k = true then _ else if 59 ≤ p.count then _ else _) = _
  rw [if_pos hcount]
  rfl

/-- The entries after an insertion that stores the value. -/
theorem Sorted.insert_put (h : Sorted p)
    (hput : find p k ≠ none ∨ p.count.toNat < 59) :
    (insert p k v).1 = (find p k).isNone ∧
      (insert p k v).2.entries = putEntry k v p.entries ∧
      (insert p k v).2.count.toNat ≤ 59 := by
  rw [find_eq h.count_le h.increasing] at hput ⊢
  rcases Nat.lt_or_ge p.count.toNat 59 with hroom | hge
  · obtain ⟨hreply, hentries⟩ := insert_spec h.count_le h.increasing hroom
    exact ⟨hreply, hentries, (insert_entriesOnly hroom).1.2⟩
  · have hfull : p.count.toNat = 59 := le_antisymm h.count_le hge
    have hsome := hput.resolve_right (by omega)
    obtain ⟨below, hits, above, hsplit, hpos, hhit, hentry⟩ :=
      exists_cut h.count_le h.increasing (k := k)
    rw [hsplit.findEntry_eq] at hsome ⊢
    rw [hsplit.putEntry_eq]
    rcases hsplit.hit_cases with rfl | ⟨w, rfl⟩
    · exact absurd rfl hsome
    · have hfound : hit p k = true := hhit.mpr (by simp)
      rw [insert_full hfull, if_pos hfound]
      refine ⟨by simp, ?_, h.count_le⟩
      rw [hentry w rfl]
      change live (p.data.setIfInBounds _ _) _ = _
      rw [live_set]
      change p.entries.set _ _ = _
      rw [hsplit.eq_append, ← hpos]
      simp

theorem dirty_insert : (insert p k v).2.dirty = true := by
  unfold insert
  simp only
  split_ifs <;> rfl

theorem Sorted.insertsAsMap (h : Sorted p) (k : Key) (v : Value) :
    InsertsAsMap p k v := by
  have hcases : (find p k ≠ none ∨ p.count.toNat < 59) ∨
      (find p k = none ∧ p.count.toNat = 59) := by
    have := h.count_le
    rcases Nat.lt_or_ge p.count.toNat 59 with hroom | hge
    · exact Or.inl (Or.inr hroom)
    · by_cases hkey : find p k = none
      · exact Or.inr ⟨hkey, by omega⟩
      · exact Or.inl (Or.inl hkey)
  rcases hcases with hput | ⟨hkey, hfull⟩
  · obtain ⟨hreply, hentries, hcount⟩ := h.insert_put (v := v) hput
    have hsorted : Sorted (insert p k v).2 :=
      ⟨hcount, hentries ▸ h.increasing.put k v⟩
    refine ⟨hsorted, ?_, ?_, fun _ => ?_, ?_, fun _ => dirty_insert⟩
    · intro hkey
      rw [hreply]
      simpa [Option.isNone_eq_false_iff, Option.isSome_iff_ne_none] using hkey
    · intro hkey _
      rw [hreply, hkey]
      rfl
    · refine h.find_update hsorted ?_ ?_
      · rw [hsorted.find_iff, hentries]
        exact (mem_putEntry h.increasing).mpr (Or.inl rfl)
      · intro e he
        rw [hentries, mem_putEntry h.increasing]
        have : e ≠ (k, v) := fun heq => he (congrArg Prod.fst heq)
        tauto
    · intro hkey hfull
      exact absurd hput (by simp [hkey, hfull])
  · have hfound : hit p k = false := by
      unfold find at hkey
      by_contra hne
      simp [Bool.not_eq_false] at hne
      simp [hne] at hkey
    have hinsert : insert p k v = (false, { p with dirty := true }) := by
      rw [insert_full hfull, hfound]
      rfl
    have hentries : (insert p k v).2.entries = p.entries := by
      rw [hinsert]
      rfl
    refine ⟨?_, ?_, ?_, ?_, fun _ _ => hentries, fun _ => dirty_insert⟩
    · exact ⟨by rw [hinsert]; exact h.count_le, hentries ▸ h.increasing⟩
    · exact fun hne => absurd hkey hne
    · intro _ hroom
      omega
    · rintro (hne | hroom)
      · exact absurd hkey hne
      · omega

theorem Sorted.removesAsMap (h : Sorted p) (k : Key) : RemovesAsMap p k := by
  obtain ⟨hreply, hentries⟩ := remove_spec h.count_le h.increasing (k := k)
  obtain ⟨honly, hdirty⟩ := remove_entriesOnly h.count_le (k := k)
  have hsorted : Sorted (remove p k).2 :=
    ⟨honly.2, hentries ▸ h.increasing.dropKey k⟩
  refine ⟨hsorted, ?_, ?_, ?_⟩
  · rw [hreply, find_eq h.count_le h.increasing]
  · refine h.find_update hsorted ?_ ?_
    · rw [find_eq_none_iff hsorted, hentries]
      intro v hmem
      exact ((mem_dropEntry h.increasing).mp hmem).1 rfl
    · intro e he
      rw [hentries, mem_dropEntry h.increasing]
      exact and_iff_right he
  · intro hne
    exact hdirty.resolve_right fun hsame => hne (by rw [hsame])

theorem Sorted.updatesAsMap (h : Sorted p) (k : Key) (v : Value) :
    UpdatesAsMap p k v := by
  obtain ⟨hreply, hentries⟩ :=
    update_spec h.count_le h.increasing (k := k) (v := v)
  obtain ⟨honly, hdirty⟩ := update_entriesOnly h.count_le (k := k) (v := v)
  rw [← find_eq h.count_le h.increasing] at hreply hentries
  have hsorted : Sorted (update p k v).2 := by
    refine ⟨honly.2, ?_⟩
    rw [hentries]
    split_ifs
    · exact h.increasing.put k v
    · exact h.increasing
  refine ⟨hsorted, hreply, ?_, ?_⟩
  · cases hkey : find p k with
    | none =>
        simp only [hkey, Option.isSome_none, Bool.false_eq_true, if_false]
          at hentries
        refine h.find_update hsorted ?_ fun e _ => by rw [hentries]
        rw [Option.map_none, find_eq_none_iff hsorted, hentries]
        exact (find_eq_none_iff h).mp hkey
    | some old =>
        simp only [hkey, Option.isSome_some, if_true] at hentries
        refine h.find_update hsorted ?_ ?_
        · rw [Option.map_some, hsorted.find_iff, hentries]
          exact (mem_putEntry h.increasing).mpr (Or.inl rfl)
        · intro e he
          rw [hentries, mem_putEntry h.increasing]
          have : e ≠ (k, v) := fun heq => he (congrArg Prod.fst heq)
          tauto
  · intro hne
    exact hdirty.resolve_right fun hsame => hne (by rw [hsame])

theorem rangeValid_iff : rangeValid p k = true ↔
    k = ⊥ ∧ k = p.minLimit ∨ p.minLimit < k ∧ k ≤ p.maxLimit := by
  simp [rangeValid]

/-- The limits meet at the separator, and the separator is above the least
key, so each entry passes the range test in one half only. -/
theorem Sorted.splitsInTwo (h : Sorted p) (hfull : p.count.toNat = 59)
    (hrange : ∀ e ∈ p.entries, rangeValid p e.1 = true) (new : Page) :
    SplitsInTwo p (split p new).2.1 (split p new).2.2 (split p new).1 := by
  obtain ⟨hleft, hright⟩ := split_entries h.count_le new
  have hlength := Page.length_entries h.count_le
  rw [hfull] at hleft hright hlength
  norm_num at hleft hright
  have hentries : (split p new).2.1.entries ++ (split p new).2.2.entries =
      p.entries := by
    rw [hleft, hright, List.take_append_drop]
  have hcountLeft : (split p new).2.1.count.toNat = 29 := by
    simp only [split, toNat_sub_sub_half, hfull]
  have hcountRight : (split p new).2.2.count.toNat = 30 := by
    simp only [split, toNat_sub_half, hfull]
  have hsorted := h.increasing
  rw [← hentries, SortedEntries, List.pairwise_append] at hsorted
  obtain ⟨hsortedLeft, hsortedRight, hcross⟩ := hsorted
  obtain ⟨last, hat⟩ : ∃ last, p.entries[28]? = some last :=
    ⟨_, List.getElem?_eq_getElem (by omega)⟩
  have hsep : (split p new).1 = last.1 := by
    have hentry : p.entries[28]? = some (p.entry 28) := by
      simp [Page.entry, Page.entries, live, hfull]
    rw [hentry, Option.some.injEq] at hat
    simp only [split, toNat_sub_sub_half, hfull, ← hat]
  have hlast : (split p new).2.1.entries.getLast? = some last := by
    rw [hleft, List.getLast?_take, if_neg (by decide), hat]
    rfl
  obtain ⟨front, hfront⟩ := List.getLast?_eq_some_iff.mp hlast
  have hmem : last ∈ (split p new).2.1.entries := by simp [hfront]
  have hbelow : ∀ e ∈ front, e.1 < last.1 := by
    rw [hfront, List.pairwise_append] at hsortedLeft
    exact fun e he => hsortedLeft.2.2 e he last (by simp)
  have hle : ∀ e ∈ (split p new).2.1.entries, e.1 ≤ last.1 := by
    intro e he
    rw [hfront, List.mem_append, List.mem_singleton] at he
    rcases he with he | rfl
    · exact (hbelow e he).le
    · exact le_rfl
  have hgt : ∀ e ∈ (split p new).2.2.entries, last.1 < e.1 :=
    fun e he => hcross last hmem e he
  have hbot : last.1 ≠ ⊥ := by
    have hlengthLeft := congrArg List.length (hleft.symm.trans hfront)
    simp only [List.length_take, List.length_append, List.length_singleton,
      hlength] at hlengthLeft
    obtain ⟨e, he⟩ := List.exists_mem_of_length_pos
      (show 0 < front.length by omega)
    exact (bot_le.trans_lt (hbelow e he)).ne'
  have hvalid := fun e he => rangeValid_iff.mp (hrange e he)
  have hleftMin : (split p new).2.1.minLimit = p.minLimit := rfl
  have hleftMax : (split p new).2.1.maxLimit = last.1 := hsep
  have hrightMin : (split p new).2.2.minLimit = last.1 := hsep
  have hrightMax : (split p new).2.2.maxLimit = p.maxLimit := rfl
  refine ⟨hentries, ⟨by omega, hsortedLeft⟩, ⟨by omega, hsortedRight⟩,
    by rw [hlast, hsep]; rfl, hsep ▸ hle, hsep ▸ hgt, ⟨rfl, rfl⟩, ⟨rfl, rfl⟩,
    ?_, ?_⟩
  · intro e he
    have hold := hvalid e (hentries ▸ List.mem_append_left _ he)
    have hnot : ¬ last.1 < e.1 := not_lt.mpr (hle e he)
    constructor
    · rw [rangeValid_iff, hleftMin, hleftMax]
      exact hold.imp_right fun hin => ⟨hin.1, hle e he⟩
    · rw [Bool.eq_false_iff, ne_eq, rangeValid_iff, hrightMin]
      rintro (⟨hzero, heq⟩ | ⟨hlt, _⟩)
      · exact hbot (heq ▸ hzero)
      · exact hnot hlt
  · intro e he
    have hold := hvalid e (hentries ▸ List.mem_append_right _ he)
    have hlt := hgt e he
    have hne : e.1 ≠ ⊥ := (bot_le.trans_lt hlt).ne'
    constructor
    · rw [rangeValid_iff, hrightMin, hrightMax]
      exact Or.inr ⟨hlt, (hold.resolve_left fun hin => hne hin.1).2⟩
    · rw [Bool.eq_false_iff, ne_eq, rangeValid_iff, hleftMax]
      rintro (⟨hzero, _⟩ | ⟨_, hin⟩)
      · exact hne hzero
      · exact absurd hlt (not_lt.mpr hin)

/-- A sorted leaf whose keys lie in its range is a finite map under every
operation, and a split of a full one shares the map out. -/
theorem leaf_is_sorted_map (h : Sorted p)
    (hrange : ∀ e ∈ p.entries, rangeValid p e.1 = true) :
    FindsAsMap p ∧ (∀ k v, InsertsAsMap p k v) ∧ (∀ k, RemovesAsMap p k) ∧
      (∀ k v, UpdatesAsMap p k v) ∧
      (p.count.toNat = 59 → ∀ new : Page,
        SplitsInTwo p (split p new).2.1 (split p new).2.2 (split p new).1) :=
  ⟨h.find_iff, h.insertsAsMap, h.removesAsMap, h.updatesAsMap,
    fun hfull => h.splitsInTwo hfull hrange⟩

/-- A full leaf of the keys 0, 2, …, 116. -/
def evenLeaf : Page :=
  { construct (.make 0 1024) with
    count := 59
    data := Vector.ofFn fun i => (UInt64.ofNat (2 * i), UInt64.ofNat i) }

theorem leaf_is_sorted_map_even :
    (insert evenLeaf 57 0).1 = false ∧
      (insert evenLeaf 57 0).2.entries = evenLeaf.entries ∧
      SplitsInTwo evenLeaf (split evenLeaf (construct (.make 0 2048))).2.1
        (split evenLeaf (construct (.make 0 2048))).2.2 56 := by
  have hall : evenLeaf.entries.all (fun e => rangeValid evenLeaf e.1) =
      true := by decide
  obtain ⟨_, hinsert, _, _, hsplit⟩ := leaf_is_sorted_map (p := evenLeaf)
    ⟨by decide, by unfold SortedEntries; decide⟩ (List.all_eq_true.mp hall)
  have hnone : find evenLeaf 57 = none := by decide
  refine ⟨by decide, (hinsert 57 0).full hnone rfl, ?_⟩
  exact hsplit (by decide) (construct (.make 0 2048))

end BTreeLeaf

/-! ## Inner nodes -/

namespace BTreeInner

/-- Increasing separators, and a bitmap of the tagged children. -/
structure Aligned (p : Page) : Prop where
  inner : p.type = .btreeInner
  count_le : p.count.toNat ≤ 59
  increasing : p.separators.Pairwise (· < ·)
  aligned : ∀ i, p.bitmap.getLsbD i = true ↔
    i ≤ p.count.toNat ∧ (p.child i).isSwizzled = true

/-- The child a search key is sent to. -/
def route (p : Page) (k : Key) : ChildSlot :=
  p.child (lowerBound p k)

/-- A separator with its right child put into a node. -/
structure InsertsBeside (p : Page) (k : Key) (c : ChildSlot)
    (p' : Page) : Prop where
  aligned : Aligned p'
  keys : ∃ below above, p.separators = below ++ above ∧
    (∀ x ∈ below, x < k) ∧ (∀ x ∈ above, k < x) ∧
    p'.separators = below ++ k :: above ∧
    p'.slots = p.slots.take (below.length + 1) ++
      c :: p.slots.drop (below.length + 1)
  route_eq : ∀ x, route p' x =
    if k < x ∧ lowerBound p x = lowerBound p k then c else route p x

/-- The two halves of a split with the separator between them. -/
structure SplitsAt (p left right : Page) (sep : Key) : Prop where
  aligned_left : Aligned left
  aligned_right : Aligned right
  keys : left.separators ++ sep :: right.separators = p.separators
  children : left.slots ++ right.slots = p.slots
  length_left : left.slots.length = left.separators.length + 1
  length_right : right.slots.length = right.separators.length + 1
  left_limits : left.minLimit = p.minLimit ∧ left.maxLimit = sep
  right_limits : right.minLimit = sep ∧ right.maxLimit = p.maxLimit
  route_left : ∀ x ≤ sep, route left x = route p x
  route_right : ∀ x, sep < x → route right x = route p x

variable {p : Page} {k : Key}

theorem aligned_iff_formed :
    Aligned p ↔ p.type = .btreeInner ∧ p.Formed ∧
      p.separators.Pairwise (· < ·) := by
  have hbit : p.type = .btreeInner → p.count.toNat ≤ 59 → ∀ i,
      (i ≤ p.count.toNat ∧ (p.child i).isSwizzled = true ↔
        ∃ q, p.slots[i]? = some (.swizzled q)) := by
    intro hinner hcount i
    have hslot : ∀ c, p.slots[i]? = some c ↔
        i ≤ p.count.toNat ∧ p.child i = c := by
      intro c
      rw [Page.slots_of_inner hinner, getElem?_live]
      by_cases hi : i ≤ p.count.toNat
      · rw [if_pos (by omega)]
        simp [Page.child, hi, show i < 60 by omega]
      · rw [if_neg (by omega)]
        simp [hi]
    simp only [hslot]
    cases p.child i <;> simp [ChildSlot.isSwizzled]
  constructor
  · intro h
    refine ⟨h.inner, ⟨Or.inr h.inner, h.count_le, fun hleaf => ?_, ?_⟩,
      h.increasing⟩
    · rw [h.inner] at hleaf
      cases hleaf
    · exact fun i => (h.aligned i).trans (hbit h.inner h.count_le i)
  · rintro ⟨hinner, hformed, hsorted⟩
    exact ⟨hinner, hformed.count_le, hsorted, fun i =>
      (hformed.aligned i).trans (hbit hinner hformed.count_le i).symm⟩

theorem Aligned.formed (h : Aligned p) : p.Formed :=
  (aligned_iff_formed.mp h).2.1

/-- The routing of a node in terms of its live lists. -/
theorem Aligned.route_eq (h : Aligned p) (x : Key) :
    p.slots[lowerIdx x p.separators]? = some (route p x) := by
  have hle := lowerBound_le p x
  rw [← lowerBound_eq h.count_le h.increasing]
  exact Page.getElem?_slots h.formed h.inner hle

theorem Aligned.route_eq_of_slots {q : Page} {x : Key}
    (h : Aligned p) (hq : Aligned q)
    (hslot : q.slots[lowerIdx x q.separators]? =
      p.slots[lowerIdx x p.separators]?) : route q x = route p x := by
  rw [hq.route_eq, h.route_eq, Option.some.injEq] at hslot
  exact hslot

theorem Aligned.insertsBeside (h : Aligned p) (hroom : p.count.toNat < 59)
    (hk : k ∉ p.separators) (c : ChildSlot) :
    InsertsBeside p k c (insert p k c) := by
  obtain ⟨hslots, hkeys, hcount⟩ := insert_spec h.inner hroom c (k := k)
  have hformed := formed_insert h.inner h.formed hroom c (k := k)
  have hpos := lowerBound_eq h.count_le h.increasing (k := k)
  obtain ⟨hbelow, habove⟩ := cut_at_lowerIdx h.increasing hk
  have hle := lowerIdx_le_length k p.separators
  have hlengthKeys := Page.length_separators h.count_le
  have hlength := Page.length_slots h.formed h.inner
  rw [hpos] at hslots hkeys
  have hkeys' := hkeys
  rw [insertIdx_eq_take_drop hle] at hkeys'
  have htake : (p.separators.take (lowerIdx k p.separators)).length =
      lowerIdx k p.separators := List.length_take_of_le hle
  have haligned : Aligned (insert p k c) := by
    refine aligned_iff_formed.mpr
      ⟨(type_insert c).trans h.inner, hformed, ?_⟩
    rw [hkeys', List.pairwise_append]
    refine ⟨h.increasing.sublist (List.take_sublist _ _), ?_, ?_⟩
    · exact List.pairwise_cons.mpr
        ⟨habove, h.increasing.sublist (List.drop_sublist _ _)⟩
    · intro x hx y hy
      rcases List.mem_cons.mp hy with rfl | hy
      · exact hbelow x hx
      · exact (hbelow x hx).trans (habove y hy)
  refine ⟨haligned, ⟨_, _, (List.take_append_drop _ _).symm, hbelow, habove,
    hkeys', ?_⟩, fun x => ?_⟩
  · rw [hslots, htake, insertIdx_eq_take_drop (by omega)]
  · rw [lowerBound_eq h.count_le h.increasing, hpos]
    have hidx := lowerIdx_insert hbelow habove x
    rw [← hkeys', List.take_append_drop] at hidx
    have hroute := haligned.route_eq x
    rw [hidx, hslots, List.getElem?_insertIdx] at hroute
    by_cases hlt : k < x
    · have hge := lowerIdx_mono h.increasing hlt.le
      rw [if_pos hlt] at hroute
      by_cases heq : lowerIdx x p.separators = lowerIdx k p.separators
      · rw [if_pos ⟨hlt, heq⟩]
        rw [if_neg (by omega), if_pos (by omega), if_pos (by omega),
          Option.some.injEq] at hroute
        exact hroute.symm
      · rw [if_neg fun hboth => heq hboth.2]
        rw [if_neg (by omega), if_neg (by omega), Nat.add_sub_cancel,
          h.route_eq, Option.some.injEq] at hroute
        exact hroute.symm
    · have hge := lowerIdx_mono h.increasing (not_lt.mp hlt)
      rw [if_neg hlt, if_pos (by omega), h.route_eq, Option.some.injEq]
        at hroute
      rw [if_neg fun hboth => hlt hboth.1]
      exact hroute.symm

theorem Aligned.splitsAt (h : Aligned p) (hlow : 2 ≤ p.count.toNat)
    {new : Page} (hnew : new.type = .btreeInner) :
    SplitsAt p (split p new).2.1 (split p new).2.2 (split p new).1 := by
  obtain ⟨hsep, hleft, hright, hleftKeys, hrightKeys⟩ :=
    split_spec (fun _ => .null) h.inner h.formed hlow new hnew
  obtain ⟨hformedLeft, hformedRight⟩ :=
    formed_split h.inner h.formed hlow new hnew
  have hlengthKeys := Page.length_separators h.count_le
  have hlength := Page.length_slots h.formed h.inner
  have hkeys : (split p new).2.1.separators ++
      (split p new).1 :: (split p new).2.2.separators = p.separators := by
    rw [hsep, hleftKeys, hrightKeys, Page.node_of_inner h.inner]
    simp only [Node.splitKey, hlengthKeys]
    have hat : p.count.toNat / 2 - 1 < p.separators.length := by omega
    have hdrop := List.drop_eq_getElem_cons hat
    rw [show p.count.toNat / 2 - 1 + 1 = p.count.toNat / 2 by omega] at hdrop
    rw [List.getElem?_eq_getElem hat, Option.getD_some, ← hdrop,
      List.take_append_drop]
  have hsorted := h.increasing
  rw [← hkeys, List.pairwise_append, List.pairwise_cons] at hsorted
  have halignedLeft : Aligned (split p new).2.1 :=
    aligned_iff_formed.mpr ⟨h.inner, hformedLeft, hsorted.1⟩
  have halignedRight : Aligned (split p new).2.2 :=
    aligned_iff_formed.mpr ⟨hnew, hformedRight, hsorted.2.1.2⟩
  have hlengthLeft : (split p new).2.1.separators.length =
      p.count.toNat / 2 - 1 := by
    rw [hleftKeys, List.length_take]
    omega
  have hlengthRight : (split p new).2.2.separators.length =
      p.count.toNat - p.count.toNat / 2 := by
    rw [hrightKeys, List.length_drop]
    omega
  refine ⟨halignedLeft, halignedRight, hkeys, ?_, ?_, ?_, ⟨rfl, rfl⟩,
    ⟨rfl, rfl⟩, ?_, ?_⟩
  · rw [hleft, hright, List.take_append_drop]
  · rw [hleft, List.length_take]
    omega
  · rw [hright, List.length_drop]
    omega
  · intro x hx
    refine h.route_eq_of_slots halignedLeft ?_
    have hidx : lowerIdx x p.separators =
        lowerIdx x (split p new).2.1.separators := by
      rw [← hkeys, lowerIdx_append_of_le hx]
    have hle := lowerIdx_le_length x (split p new).2.1.separators
    rw [hidx, hleft, List.getElem?_take, if_pos (by omega)]
  · intro x hx
    refine h.route_eq_of_slots halignedRight ?_
    have hidx : lowerIdx x p.separators = p.count.toNat / 2 - 1 +
        (lowerIdx x (split p new).2.2.separators + 1) := by
      rw [← hkeys, lowerIdx_append_of_lt
        (fun y hy => (hsorted.2.2 y hy _ (by simp)).trans hx),
        lowerIdx_cons_of_lt hx, hlengthLeft]
    rw [hidx, hright, List.getElem?_drop]
    congr 1
    omega

/-- On an inner node in order an insertion puts a separator and its right
child next to each other, and a split cuts all rows of the node at one
place; no search key changes its child but those the new separator sends
to the new child. -/
theorem inner_operations_aligned (h : Aligned p) :
    (p.count.toNat < 59 → ∀ k ∉ p.separators, ∀ c : ChildSlot,
      InsertsBeside p k c (insert p k c)) ∧
    (2 ≤ p.count.toNat → ∀ new : Page, new.type = .btreeInner →
      SplitsAt p (split p new).2.1 (split p new).2.2 (split p new).1) :=
  ⟨fun hroom _ hk c => h.insertsBeside hroom hk c,
    fun hlow _ hnew => h.splitsAt hlow hnew⟩

/-- Separators 10, 20, 30 with the second and the last child tagged. -/
def smallInner : Page :=
  { construct 1 (.make 0 1024) with
    count := 3
    keys := Vector.ofFn fun i => UInt64.ofNat (10 * (i + 1))
    children := Vector.ofFn fun i =>
      if i.val % 2 = 1 then .swizzled (.slot i) else .remote (.make 0 i)
    bitmap := 0b1010 }

theorem inner_operations_aligned_small :
    InsertsBeside smallInner 15 (.swizzled (.slot 9))
        (insert smallInner 15 (.swizzled (.slot 9))) ∧
      route (insert smallInner 15 (.swizzled (.slot 9))) 16 =
        .swizzled (.slot 9) ∧
      SplitsAt smallInner (split smallInner (construct 1 .null)).2.1
        (split smallInner (construct 1 .null)).2.2 10 := by
  have haligned : Aligned smallInner := by
    refine ⟨rfl, by decide, by decide, fun i => ?_⟩
    rcases Nat.lt_or_ge i 64 with hi | hi
    · revert i
      decide
    · rw [BitVec.getLsbD_of_ge _ _ hi]
      have hnot : ¬ i ≤ smallInner.count.toNat := by
        have : smallInner.count.toNat = 3 := rfl
        omega
      simp [hnot]
  obtain ⟨hinsert, hsplit⟩ := inner_operations_aligned haligned
  exact ⟨hinsert (by decide) 15 (by decide) _, by decide,
    hsplit (by decide) (construct 1 .null) rfl⟩

/-! ## The nearest tagged child -/

/-- `closest_set` finds the set bit nearest to a position, the lower one of
two, unless there is none. -/
theorem closestSet_finds_nearest (hcount : p.count ≤ 63)
    (hbits : ∀ i, p.count.toNat < i → i < 64 → testBitmap p i = false)
    {pos : ℕ} (hpos : pos ≤ p.count.toNat) :
    (closestSet p pos = -1 ↔ p.bitmap = 0) ∧
      (p.bitmap ≠ 0 → ∃ i : ℕ, closestSet p pos = i ∧
        i ≤ p.count.toNat ∧ testBitmap p i = true ∧
        ∀ j, testBitmap p j = true → i.dist pos ≤ j.dist pos ∧
          (j.dist pos = i.dist pos → i ≤ j)) := by
  have hcount : p.count.toNat ≤ 63 := UInt8.le_iff_toNat_le.mp hcount
  simp only [testBitmap_eq] at hbits ⊢
  have hwithin : ∀ i, p.bitmap.getLsbD i = true → i ≤ p.count.toNat := by
    intro i hi
    by_contra hgt
    rcases Nat.lt_or_ge i 64 with hlt | hge
    · rw [hbits i (by omega) hlt] at hi
      cases hi
    · rw [BitVec.getLsbD_of_ge _ _ hge] at hi
      cases hi
  have hfound := fun hne => closestSet_nearest hcount hwithin hne hpos
  constructor
  · constructor
    · intro hnone
      by_contra hne
      obtain ⟨i, hi, _⟩ := hfound hne
      omega
    · intro hempty
      exact closestSet_of_empty hempty pos
  · intro hne
    obtain ⟨i, hi, hnear⟩ := hfound hne
    refine ⟨i, hi, hwithin i hnear.isSet, hnear.isSet, fun j hj => ?_⟩
    exact ⟨hnear.nearest j hj, hnear.lower j hj⟩

/-- Between two set bits at the same distance the lower one is taken. -/
theorem closestSet_finds_nearest_small :
    closestSet smallInner 2 = 1 ∧ ∃ i : ℕ, closestSet smallInner 2 = i ∧
      testBitmap smallInner i = true := by
  have hbits : ∀ i < 64, smallInner.count.toNat < i →
      testBitmap smallInner i = false := by
    decide +kernel
  obtain ⟨_, hfound⟩ := closestSet_finds_nearest (p := smallInner)
    (by decide) (fun i hi hlt => hbits i hlt hi)
    (show 2 ≤ smallInner.count.toNat by decide)
  obtain ⟨i, hi, _, hset, _⟩ := hfound (by decide)
  exact ⟨by decide +kernel, i, hi, hset⟩

end BTreeInner

end CachingDex
