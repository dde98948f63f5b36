import CachingDex.FreshTree
import CachingDex.TreeView
import CachingDex.Lib.MapListing
import Mathlib.Data.FinEnum

/-!
# Range scans

A scan reads one leaf: the one its start key is routed to.  It returns
nothing unless the start key is stored, and nothing from beyond the upper
limit of that leaf.
-/

namespace CachingDex

open Lib Lib.Traced

instance Key.finite : Finite Key :=
  inferInstance

/-- A scan starts at its key, which has to be there. -/
theorem BTreeLeaf.rangeScan_eq {p : Page} {k : Key}
    (hcount : p.count.toNat ≤ 59) (hsorted : SortedEntries p.entries)
    (num : ℕ) :
    rangeScan p k num =
      if (findEntry k p.entries).isSome then
        (p.entries.filter fun e => k ≤ e.1).take num
      else [] := by
  obtain ⟨below, hit, above, hsplit, hpos, hhit, _⟩ :=
    exists_cut hcount hsorted (k := k)
  have hlength := Page.length_entries hcount
  have hfilter : (p.entries.filter fun e => k ≤ e.1) = hit ++ above := by
    have hbelow : (below.filter fun e => decide (k ≤ e.1)) = [] := by
      rw [List.filter_eq_nil_iff]
      intro e he
      simpa using hsplit.below_lt e he
    have habove : (above.filter fun e => decide (k ≤ e.1)) = above := by
      rw [List.filter_eq_self]
      intro e he
      simpa using (hsplit.lt_above e he).le
    rw [hsplit.eq_append, List.filter_append, List.filter_append, hbelow,
      habove]
    rcases hsplit.hit_cases with rfl | ⟨w, rfl⟩ <;> simp
  have hdrop : (live p.data p.count.toNat).drop (lowerBound p k) =
      hit ++ above := by
    change p.entries.drop (lowerBound p k) = _
    rw [← hpos, hsplit.eq_append, List.drop_left]
  have hrest : p.count.toNat - lowerBound p k = (hit ++ above).length := by
    rw [← hdrop, List.length_drop]
    change _ = p.entries.length - _
    rw [hlength]
  rw [rangeScan, hsplit.findEntry_eq, hfilter]
  simp only [hdrop, hrest]
  rcases hsplit.hit_cases with rfl | ⟨w, rfl⟩
  · rw [if_neg (by simp [hhit]), if_neg (by simp)]
  · rw [if_pos (hhit.mpr (by simp)), if_pos (by simp), Nat.min_comm,
      ← List.take_take, List.take_length]

/-- The upper limit of the leaf a key is routed to. -/
def State.scanLimit (s : State) (k : Key) : Key :=
  ((s.route k s.height s.rootPage).map Page.maxLimit).getD ⊥

section Scan

variable {R : Set ℕ} {s : State} {F : TreeForest} {m : KeyMap} {k : Key}

/-- The leaf that covers the key has the limit of the one it is routed to. -/
theorem Tree.scanLimit_eq (h : Tree R s F) {a : GlobalAddress}
    {lo hi : Key} {entries : List (Key × Value)} {next : GlobalAddress}
    (ha : F a = some (.leaf lo hi entries next)) (hk : Lib.Covers lo hi k) :
    s.scanLimit k = hi := by
  have hroot := h.current_root
  obtain ⟨n, hn, hlo, hhi⟩ := h.search.root_node
  rw [hroot.shown, Option.some.injEq] at hn
  subst hn
  have hcovers : (s.rootPage.node s.addressOf).Covers k := by
    rw [Node.Covers, hlo, hhi]
    exact covers_top k
  have hheight := h.height hroot.shown
  obtain ⟨b, q, hq, hleaf, hcur, hqk⟩ :=
    hroot.route h.toConsistent hcovers (show _ < s.height by omega)
  have hshown := hcur.shown
  rw [Page.node_of_leaf hleaf] at hshown hqk
  obtain rfl := h.search.covers_unique ha hshown rfl hk hqk
  rw [ha, Option.some.injEq, Node.leaf.injEq] at hshown
  rw [State.scanLimit, hq]
  exact hshown.2.1.symm

/-- The pairs of a leaf from a covered key on are those of the map up to the
limit of the leaf. -/
theorem Tree.filter_entries (h : Tree R s F) (hm : Represents F m)
    {a : GlobalAddress} {lo hi : Key} {entries : List (Key × Value)}
    {next : GlobalAddress} (ha : F a = some (.leaf lo hi entries next))
    (hk : Lib.Covers lo hi k) :
    (entries.filter fun e => k ≤ e.1) = listing m k hi := by
  have hsound := h.search.sound ha
  refine eq_listing (hsound.entries_sorted.sublist List.filter_sublist) ?_
  intro e
  rw [List.mem_filter, decide_eq_true_eq]
  constructor
  · rintro ⟨he, hle⟩
    have hcovers := hsound.entries_covered e he
    exact ⟨(hm e.1 e.2).mp ⟨a, _, ha, he⟩, hle, hcovers.le_hi⟩
  · rintro ⟨hv, hle, hhi⟩
    have hcovers : Lib.Covers lo hi e.1 := by
      rcases hle.eq_or_lt with heq | hlt
      · exact heq ▸ hk
      · exact Or.inr ⟨hk.lo_le.trans_lt hlt, hhi⟩
    have hstored := (hm e.1 e.2).mpr hv
    exact ⟨(h.search.stored_iff ha rfl hcovers).mp hstored, hle⟩

/-- A scan returns the stored pairs from its key up to the limit of one
leaf, and nothing where the key is not stored. -/
theorem Tree.rangeScan_meets {C : Contract State Halt Event}
    (hC : Tolerates True ∅ C) (h : Tree R s F) (hm : Represents F m) (k : Key)
    (num : ℕ) :
    Meets C (LeanStoreTree.rangeScan k num) s fun o s' =>
      o = cutListing m k (s.scanLimit k) num ∧
        ∃ R', Tree R' s' F ∧ Steady s s' := by
  obtain ⟨r, hr⟩ := h.rooted
  refine (CachingDex.rangeScan_meets hC (guides_covers h.search k) h.ready hr
    (SearchTree.covers_root h.search k) num).mono ?_
  rintro o s' ⟨R', v, hreached, rfl⟩
  obtain ⟨hshown, hk, hcount, hsorted, hstored⟩ := hreached.stored h.search
  refine ⟨?_, R', h.retains hreached.ready hreached.retains,
    hreached.retains.steady⟩
  have hfind : findEntry k (s'.slotPage v).entries = m k := by
    apply Option.ext
    intro w
    rw [← hstored, hm]
  rw [BTreeLeaf.rangeScan_eq hcount hsorted, cutListing, hfind,
    h.filter_entries hm hshown hk, h.scanLimit_eq hshown hk]

end Scan

/-! ## Replies along a run -/

/-- What an operation replies in a state that stands for `m`, scans
included. -/
def Op.Replies (s : State) (m : KeyMap) : Op → Reply → Prop
  | .rangeScan k num, r => r = .pairs (cutListing m k (s.scanLimit k) num)
  | op, r => op.Answers m r

/-- The replies of a run from `s`. -/
def Replied (s : State) (m : KeyMap) : List Op → List Reply → Prop
  | [], [] => True
  | op :: ops, r :: rs =>
      op.Replies s m r ∧ Replied (op.run s).state (op.effect m) ops rs
  | _, _ => False

theorem Op.Replies.answers {s : State} {m : KeyMap} {op : Op} {r : Reply}
    (h : op.Replies s m r) : op.Answers m r := by
  cases op with
  | rangeScan => exact ⟨_, h⟩
  | insert => exact h
  | lookup => exact h
  | update => exact h
  | remove => exact h

theorem Replied.answered {s : State} {m : KeyMap} {ops : List Op}
    {rs : List Reply} (h : Replied s m ops rs) : Answered m ops rs := by
  induction ops generalizing s m rs with
  | nil =>
      cases rs with
      | nil => trivial
      | cons => exact h.elim
  | cons op ops ih =>
      cases rs with
      | nil => exact h.elim
      | cons r rs => exact ⟨h.1.answers, ih h.2⟩

end CachingDex
