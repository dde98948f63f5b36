import CachingDex.Transparency
import CachingDex.TreeView

/-!
# The structural invariant

What the left half, the right half, the parent and the tree object keep about
one tree, stated of the pages of the tree as they stand.  It holds after
every run in which no page is evicted and no allocation fails.
-/

namespace CachingDex

open Lib

/-- The pages of the tree agree with each other and with the tree object. -/
structure WellShaped (s : State) : Prop where
  root_limits : s.rootPage.minLimit = ⊥ ∧ s.rootPage.maxLimit = ⊤
  root_address : s.rootPage.remoteAddress = s.root
  height_root : s.height = s.rootPage.level.toNat + 1
  leaf_depth : ∀ {path p}, s.treePage path = some p →
    p.type = .btreeLeaf → path.length + 1 = s.height
  child_level : ∀ {path p i}, s.treePage path = some p →
    p.type = .btreeInner → i ≤ p.count.toNat →
      (s.behind (p.child i)).level.toNat + 1 = p.level.toNat
  child_limits : ∀ {path p i}, s.treePage path = some p →
    p.type = .btreeInner → i ≤ p.count.toNat →
      newCheckLimitMatch p (s.behind (p.child i)) i = true
  keys_sorted : ∀ {path p}, s.treePage path = some p →
    p.type = .btreeInner → p.separators.Pairwise (· < ·)
  keys_inside : ∀ {path p k}, s.treePage path = some p →
    p.type = .btreeInner → k ∈ p.separators →
      p.minLimit < k ∧ k < p.maxLimit
  least_keys : ∀ {path p}, s.treePage path = some p →
    p.type = .btreeInner → path ≠ [] → 28 ≤ p.count.toNat
  leaf_num : {path | ∃ p, s.treePage path = some p ∧
    p.type = .btreeLeaf}.encard = s.leafNum
  inner_num : {path | ∃ p, s.treePage path = some p ∧
    p.type = .btreeInner}.encard = s.innerNum
  routed : ∀ k, ∃ leaf, s.route k s.height s.rootPage = some leaf ∧
    leaf.type = .btreeLeaf ∧ BTreeLeaf.rangeValid leaf k = true

section Shape

variable {R : Set ℕ} {s : State} {F : TreeForest}

/-- The nodes of one kind are as many as the paths to pages of that kind. -/
theorem Tree.encard_paths (h : Tree R s F) {t : PageType} {l : Bool}
    (htype : ∀ {p : Page}, p.Formed →
      (p.type = t ↔ (p.node s.addressOf).isLeaf = l)) :
    {path | ∃ p, s.treePage path = some p ∧ p.type = t}.encard =
      {a | ∃ n, F a = some n ∧ n.isLeaf = l}.encard := by
  rw [← h.search.encard_paths fun n => n.isLeaf = l]
  congr 1
  ext path
  constructor
  · rintro ⟨p, hp, hpt⟩
    obtain ⟨a, ha, hcur⟩ := h.current_of_path hp
    exact ⟨a, _, ha, hcur.shown, (htype hcur.formed).mp hpt⟩
  · rintro ⟨a, n, ha, hn, hleaf⟩
    obtain ⟨p, hp, hcur⟩ := h.path_of_follow ha
    rw [hcur.shown, Option.some.injEq] at hn
    subst hn
    exact ⟨p, hp, (htype hcur.formed).mpr hleaf⟩

theorem Tree.wellShaped (h : Tree R s F) : WellShaped s := by
  have hroot := h.current_root
  have hF := h.search
  obtain ⟨n, hn, hlo, hhi⟩ := hF.root_node
  rw [hroot.shown, Option.some.injEq] at hn
  subst hn
  have hheight := h.height hroot.shown
  rw [Page.node_level hroot.formed] at hheight
  constructor
  · exact ⟨by simpa using hlo, by simpa using hhi⟩
  · exact hroot.address
  · exact hheight
  · intro path p hp hleaf
    obtain ⟨a, ha, hcur⟩ := h.current_of_path hp
    obtain ⟨m, hm, hlevel⟩ := hF.linked.follow_level hroot.shown ha
    rw [hcur.shown, Option.some.injEq] at hm
    subst hm
    rw [Page.node_level hroot.formed, Page.node_level hcur.formed,
      hcur.formed.leaf_level hleaf] at hlevel
    rw [hheight, ← hlevel]
    simp
  · intro path p i hp htype hi
    obtain ⟨a, ha, hcur⟩ := h.current_of_path hp
    obtain ⟨c, hc, hchild⟩ := hcur.child h.ready.settled htype hi
    obtain ⟨m, hm, hlevel⟩ := hF.linked.child hcur.shown hc
    rw [hchild.shown, Option.some.injEq] at hm
    subst hm
    rwa [Page.node_level hchild.formed, Page.node_level hcur.formed] at hlevel
  · intro path p i hp htype hi
    obtain ⟨a, ha, hcur⟩ := h.current_of_path hp
    obtain ⟨c, hc, hchild⟩ := hcur.child h.ready.settled htype hi
    exact hcur.limits_match hchild hF hc
  · intro path p hp htype
    obtain ⟨a, ha, hcur⟩ := h.current_of_path hp
    have hsorted := (hF.sound hcur.shown).keys_sorted
    rwa [Page.node_of_inner htype] at hsorted
  · intro path p k hp htype hk
    obtain ⟨a, ha, hcur⟩ := h.current_of_path hp
    have hsound := hF.sound hcur.shown
    have hmem : k ∈ (p.node s.addressOf).keys := by
      rw [Page.node_of_inner htype]
      exact hk
    have hlow := hsound.lo_lt_key hmem
    have hhigh := hsound.key_lt_hi hmem
    exact ⟨by simpa using hlow, by simpa using hhigh⟩
  · intro path p hp htype hpath
    obtain ⟨a, ha, hcur⟩ := h.current_of_path hp
    have hne : a ≠ s.root := by
      rintro rfl
      exact hpath (hF.linked.follow_injective hF.not_child ha rfl)
    have hinner : (p.node s.addressOf).isLeaf = false := by
      rw [Page.node_of_inner htype]
      rfl
    have hleast := h.shape.least_le hcur.shown hinner hne
    have hsize := Page.node_size (w := s.addressOf) hcur.formed
    rw [Page.node_of_inner htype] at hleast hsize
    rw [← hsize]
    exact hleast
  · rw [h.encard_paths (l := true) fun hp =>
      (Page.node_isLeaf hp).symm, ← h.shape.leaves_ncard,
      h.shape.finite_leaves.cast_ncard_eq]
    rfl
  · rw [h.encard_paths (l := false) fun hp => ?_, ← h.shape.inners_ncard,
      h.shape.finite_inners.cast_ncard_eq]
    · rfl
    · rw [← Bool.not_eq_true, Page.node_isLeaf hp]
      constructor
      · intro hinner hleaf
        rw [hinner] at hleaf
        cases hleaf
      · exact hp.typed.resolve_left
  · intro k
    have hcovers : (s.rootPage.node s.addressOf).Covers k := by
      rw [Node.Covers, hlo, hhi]
      exact covers_top k
    obtain ⟨b, q, hq, hleaf, hcur, hk⟩ := hroot.route h.toConsistent hcovers
      (show _ < s.height by rw [Page.node_level hroot.formed]; omega)
    refine ⟨q, hq, hleaf, ?_⟩
    rw [BTreeLeaf.rangeValid, decide_eq_true_eq]
    rwa [Node.Covers, Page.node_lo, Page.node_hi] at hk

end Shape

/-! ## Without the cooling table -/

section Table

variable {h : HashTable} {s : State}

theorem State.follow_setTable (path : List ℕ) (p : Page) :
    (s.setTable h).follow path p = s.follow path p := by
  induction path generalizing p with
  | nil => rfl
  | cons i path ih =>
      simp only [State.follow, ih]
      rfl

theorem State.route_setTable (k : Key) (fuel : ℕ) (p : Page) :
    (s.setTable h).route k fuel p = s.route k fuel p := by
  induction fuel generalizing p with
  | zero => rfl
  | succ fuel ih =>
      simp only [State.route, ih]
      rfl

theorem State.treePage_setTable (path : List ℕ) :
    (s.setTable h).treePage path = s.treePage path :=
  State.follow_setTable path _

theorem WellShaped.of_setTable (hs : WellShaped (s.setTable h)) :
    WellShaped s := by
  have hpage := State.treePage_setTable (h := h) (s := s)
  have hroute := fun k => State.route_setTable (h := h) (s := s) k
  obtain ⟨hlimits, haddress, hheight, hdepth, hlevel, hmatch, hsorted,
    hinside, hleast, hleaves, hinners, hrouted⟩ := hs
  simp only [hpage] at hdepth hlevel hmatch hsorted hinside hleast
  simp only [hpage] at hleaves hinners
  simp only [hroute] at hrouted
  exact ⟨hlimits, haddress, hheight, hdepth, hlevel, hmatch, hsorted, hinside,
    hleast, hleaves, hinners, hrouted⟩

end Table

/-- After every run without evictions and failed allocations the tree is in
shape. -/
theorem freshRun_wellShaped {c : TreeConfig} {ops : List Op}
    (h : NeverFills c ops) :
    ∃ replies, (freshRun ops c.initial).result = .ok replies ∧
      WellShaped (freshRun ops c.initial).state := by
  obtain ⟨_, replies, hresult, _, table, R, F, htree, _⟩ := freshRun_warm h
  exact ⟨replies, hresult, htree.wellShaped.of_setTable⟩

theorem freshRun_wellShaped_mixed :
    ∃ replies, (freshRun mixedRun sixPages.initial).result = .ok replies ∧
      WellShaped (freshRun mixedRun sixPages.initial).state :=
  freshRun_wellShaped neverFills_mixed

end CachingDex
