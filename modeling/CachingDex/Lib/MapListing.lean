import CachingDex.Lib.SortedSearch
import Mathlib.Data.Finset.Sort
import Mathlib.Data.List.Pairwise

/-!
# Listing a range of a map

The pairs of a map with keys in an interval, in ascending order of the keys.
A sorted association list that holds these pairs and no others is that list.
A reader that stops at an inner limit of the interval and one that goes on to
its end agree exactly if nothing they are asked for lies beyond the limit.
-/

namespace CachingDex.Lib

variable {K V : Type} [LinearOrder K] [Finite K]

/-- The pairs of `m` with keys from `lo` to `hi`, in ascending order. -/
noncomputable def listing (m : K → Option V) (lo hi : K) : List (K × V) :=
  ((Set.toFinite (Set.Icc lo hi)).toFinset.sort (· ≤ ·)).filterMap fun k =>
    (m k).map (Prod.mk k)

section Listing

variable {m : K → Option V} {lo mid hi k : K} {e : K × V}
  {l : List (K × V)}

theorem mem_listing :
    e ∈ listing m lo hi ↔ m e.1 = some e.2 ∧ lo ≤ e.1 ∧ e.1 ≤ hi := by
  rw [listing, List.mem_filterMap]
  constructor
  · rintro ⟨k, hk, hpair⟩
    obtain ⟨v, hv, rfl⟩ := Option.map_eq_some_iff.mp hpair
    rw [Finset.mem_sort, Set.Finite.mem_toFinset] at hk
    exact ⟨hv, hk.1, hk.2⟩
  · rintro ⟨hv, hlo, hhi⟩
    refine ⟨e.1, ?_, by rw [hv]; rfl⟩
    rw [Finset.mem_sort, Set.Finite.mem_toFinset]
    exact ⟨hlo, hhi⟩

theorem sorted_listing : SortedEntries (listing m lo hi) := by
  rw [SortedEntries, listing]
  refine List.Pairwise.filterMap _ ?_ (Finset.sortedLT_sort _).pairwise
  intro a b hab c hc d hd
  obtain ⟨v, _, rfl⟩ := Option.map_eq_some_iff.mp hc
  obtain ⟨w, _, rfl⟩ := Option.map_eq_some_iff.mp hd
  exact hab

omit [Finite K] in
/-- A sorted association list is known by its pairs. -/
theorem SortedEntries.ext {l' : List (K × V)} (h : SortedEntries l)
    (h' : SortedEntries l') (hmem : ∀ e, e ∈ l ↔ e ∈ l') : l = l' := by
  have hnodup : ∀ {l : List (K × V)}, SortedEntries l → l.Nodup := by
    intro l hl
    refine List.Pairwise.imp ?_ hl
    intro a b hab heq
    exact hab.ne (congrArg Prod.fst heq)
  have hperm := (List.perm_ext_iff_of_nodup (hnodup h) (hnodup h')).mpr hmem
  exact List.Perm.eq_of_pairwise
    (fun a b _ _ hab hba => absurd (hab.trans hba) (lt_irrefl _)) h h' hperm

theorem eq_listing (h : SortedEntries l)
    (hmem : ∀ e, e ∈ l ↔ m e.1 = some e.2 ∧ lo ≤ e.1 ∧ e.1 ≤ hi) :
    l = listing m lo hi :=
  h.ext sorted_listing fun e => (hmem e).trans mem_listing.symm

/-- The whole listing is as long as there are keys. -/
theorem length_listing [BoundedOrder K] :
    (listing m ⊥ ⊤).length = {k | m k ≠ none}.ncard := by
  classical
  have hsorted : ((listing m ⊥ ⊤).map Prod.fst).Pairwise (· < ·) :=
    List.pairwise_map.mpr sorted_listing
  have hset : {k | m k ≠ none} =
      ↑((listing m ⊥ ⊤).map Prod.fst).toFinset := by
    ext k
    simp only [Set.mem_ofPred_eq, Finset.mem_coe, List.mem_toFinset,
      List.mem_map]
    constructor
    · intro hk
      obtain ⟨v, hv⟩ := Option.ne_none_iff_exists'.mp hk
      exact ⟨(k, v), mem_listing.mpr ⟨hv, bot_le, le_top⟩, rfl⟩
    · intro hk
      obtain ⟨e, he, rfl⟩ := hk
      rw [(mem_listing.mp he).1]
      simp
  rw [hset, Set.ncard_coe_finset,
    List.toFinset_card_of_nodup (hsorted.imp ne_of_lt), List.length_map]

/-- The pairs up to an inner limit come first. -/
theorem listing_append (hmid : mid ≤ hi) :
    listing m lo hi = listing m lo mid ++
      (listing m lo hi).filter fun e => mid < e.1 := by
  refine sorted_listing.ext ?_ fun e => ?_
  · rw [SortedEntries, List.pairwise_append]
    refine ⟨sorted_listing, sorted_listing.sublist List.filter_sublist, ?_⟩
    intro a ha b hb
    have hle := (mem_listing.mp ha).2.2
    have hlt := (List.mem_filter.mp hb).2
    exact hle.trans_lt (by simpa using hlt)
  · rw [List.mem_append, List.mem_filter, mem_listing, mem_listing,
      decide_eq_true_eq]
    rcases le_or_gt e.1 mid with hle | hlt
    · simp [hle, hle.trans hmid, hle.not_gt]
    · simp [hlt, hlt.not_ge]

theorem listing_eq_of_forall (hmid : mid ≤ hi)
    (h : ∀ k, (m k).isSome → lo ≤ k → k ≤ hi → k ≤ mid) :
    listing m lo hi = listing m lo mid := by
  refine sorted_listing.ext sorted_listing fun e => ?_
  rw [mem_listing, mem_listing]
  constructor
  · rintro ⟨hv, hlo, hhi⟩
    exact ⟨hv, hlo, h e.1 (by rw [hv]; rfl) hlo hhi⟩
  · rintro ⟨hv, hlo, hle⟩
    exact ⟨hv, hlo, hle.trans hmid⟩

/-! ## Reading up to an inner limit -/

/-- Up to `num` pairs from `k` to `mid`, if the map has a value at `k`. -/
noncomputable def cutListing (m : K → Option V) (k mid : K) (num : ℕ) :
    List (K × V) :=
  if (m k).isSome then (listing m k mid).take num else []

/-- The cut listing is the listing to the end if it is as long as it may be,
or all that follows `k` lies within the limit. -/
theorem cutListing_eq_iff (num : ℕ) (hmid : mid ≤ hi) :
    cutListing m k mid num = (listing m k hi).take num ↔
      (cutListing m k mid num).length = num ∨
        ∀ k', (m k').isSome → k ≤ k' → k' ≤ hi →
          (m k).isSome ∧ k' ≤ mid := by
  constructor
  · intro heq
    rcases Nat.lt_or_ge (listing m k hi).length num with hshort | hlong
    · -- everything there is was read
      rw [List.take_of_length_le hshort.le] at heq
      refine Or.inr fun k' hk' hle hhi => ?_
      obtain ⟨v, hv⟩ := Option.isSome_iff_exists.mp hk'
      have hmem : (k', v) ∈ listing m k hi := mem_listing.mpr ⟨hv, hle, hhi⟩
      rw [← heq, cutListing] at hmem
      split at hmem
      · rename_i hsome
        have hcut := mem_listing.mp (List.mem_of_mem_take hmem)
        exact ⟨hsome, hcut.2.2⟩
      · cases hmem
    · left
      rw [heq, List.length_take, Nat.min_eq_left hlong]
  · intro h
    rcases h with hlength | hall
    · unfold cutListing at hlength ⊢
      split
      · rename_i hsome
        rw [if_pos hsome, List.length_take, min_eq_left_iff] at hlength
        rw [listing_append hmid, List.take_append_of_le_length hlength]
      · rename_i hnone
        rw [if_neg hnone, List.length_nil] at hlength
        rw [← hlength, List.take_zero]
    · unfold cutListing
      split
      · rw [listing_eq_of_forall hmid fun k' hk' hle hhi =>
          (hall k' hk' hle hhi).2]
      · rename_i hnone
        have hempty : listing m k hi = [] := by
          rw [List.eq_nil_iff_forall_not_mem]
          intro e he
          obtain ⟨hv, hle, hhi⟩ := mem_listing.mp he
          exact hnone (hall e.1 (by rw [hv]; rfl) hle hhi).1
        rw [hempty, List.take_nil]

end Listing

end CachingDex.Lib
