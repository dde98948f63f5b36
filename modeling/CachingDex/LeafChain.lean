import CachingDex.StructuralInvariant

/-!
# The chain of leaves of the tree

Following `next_leaf` from the leftmost leaf ought to visit the leaves of the
tree in key order.  `BTreeLeaf::split` hangs the new leaf behind the leaf it
splits, but the new leaf is built without a neighbour and gets none.  So the
chain is whole after a run exactly when every leaf that the run split was the
rightmost one.
-/

namespace CachingDex

open Lib Lib.Traced

namespace State

/-- The leaves below a page from left to right, down to a depth. -/
def leavesBelow (s : State) : ℕ → Page → List Page
  | 0, _ => []
  | fuel + 1, p =>
      if p.type = .btreeInner then
        p.slots.flatMap fun c => s.leavesBelow fuel (s.behind c)
      else [p]

def leaves (s : State) : List Page :=
  s.leavesBelow s.height s.rootPage

end State

/-- The leaves of the tree tile the key space in order, each one names the
next by its address, and the last one names none. -/
structure LeafChain (s : State) : Prop where
  every : ∀ {path p}, s.treePage path = some p → p.type = .btreeLeaf →
    p ∈ s.leaves
  once : (s.leaves.map Page.remoteAddress).Nodup
  not_null : .null ∉ s.leaves.map Page.remoteAddress
  ascending : ⊥ :: s.leaves.map Page.maxLimit =
    s.leaves.map Page.minLimit ++ [⊤]
  next : s.leaves.map Page.nextLeaf =
    (s.leaves.map Page.remoteAddress).tail ++ [.null]

section Lists

variable {α β ι : Type} {r : α → β → Prop}

theorem forall₂_flatMap {l : List ι} {f : ι → List α} {g : ι → List β}
    (h : ∀ i ∈ l, List.Forall₂ r (f i) (g i)) :
    List.Forall₂ r (l.flatMap f) (l.flatMap g) := by
  induction l with
  | nil => exact .nil
  | cons i l ih =>
      rw [List.flatMap_cons, List.flatMap_cons]
      exact List.rel_append (h i (by simp))
        (ih fun j hj => h j (by simp [hj]))

end Lists

section Chain

variable {R : Set ℕ} {s : State} {F : TreeForest}

/-- A current page whose node is a leaf shows the fields of the node. -/
theorem Current.leaf_fields {a : GlobalAddress} {p : Page}
    (h : Current R s F a p) {lo hi : Key} {entries : List (Key × Value)}
    {next : GlobalAddress} (ha : F a = some (.leaf lo hi entries next)) :
    p.type = .btreeLeaf ∧ p.minLimit = lo ∧ p.maxLimit = hi ∧
      p.nextLeaf = next := by
  have hnode := h.shown.symm.trans ha
  rw [Option.some.injEq] at hnode
  have hleaf : p.type = .btreeLeaf := by
    rw [← Page.node_isLeaf (w := s.addressOf) h.formed, hnode]
    rfl
  rw [Page.node_of_leaf hleaf, Node.leaf.injEq] at hnode
  exact ⟨hleaf, hnode.1, hnode.2.1, hnode.2.2.2⟩

/-- The leaf pages below a page are those of the nodes below its node. -/
theorem Current.leavesBelow {a : GlobalAddress} {p : Page}
    (hp : Current R s F a p) (h : Settled True R s F) (fuel : ℕ) :
    List.Forall₂ (Current R s F) (F.leafList fuel a)
      (s.leavesBelow fuel p) := by
  induction fuel generalizing a p with
  | zero => exact .nil
  | succ fuel ih =>
      rw [Forest.leafList, hp.shown, State.leavesBelow]
      dsimp only
      by_cases hinner : p.type = .btreeInner
      · have hnot : (p.node s.addressOf).isLeaf = false := by
          rw [Page.node_of_inner hinner]
          rfl
        rw [if_pos hinner, hnot, if_neg (by simp),
          Page.node_children hp.formed, List.flatMap_map]
        apply forall₂_flatMap
        intro c hc
        obtain ⟨i, hi⟩ := List.getElem?_of_mem hc
        obtain ⟨_, hle, hchild⟩ := Page.le_count_of_slot hi
        obtain ⟨b, hb, hcur⟩ := hp.child h hinner hle
        rw [Page.node_children hp.formed, List.getElem?_map, hi,
          Option.map_some, Option.some.injEq] at hb
        subst hb
        rw [hchild] at hcur
        exact ih hcur
      · have hleaf := hp.formed.typed.resolve_right hinner
        rw [if_neg hinner, if_pos ((Page.node_isLeaf hp.formed).mpr hleaf)]
        exact .cons hp .nil

theorem forall₂_addresses {l : List GlobalAddress} {ps : List Page}
    (h : List.Forall₂ (Current R s F) l ps) :
    ps.map Page.remoteAddress = l := by
  induction h with
  | nil => rfl
  | cons hp _ ih => rw [List.map_cons, ih, hp.address]

/-- The pages of leaves that lie side by side lie side by side. -/
theorem limits_of_spans {l : List GlobalAddress} {ps : List Page}
    (h : List.Forall₂ (Current R s F) l ps) {lo hi : Key}
    (hl : F.Spans lo l hi) :
    lo :: ps.map Page.maxLimit = ps.map Page.minLimit ++ [hi] := by
  induction h generalizing lo with
  | nil =>
      obtain rfl : lo = hi := hl
      rfl
  | cons hp _ ih =>
      obtain ⟨mid, entries, next, ha, hrest⟩ := hl
      obtain ⟨_, hmin, hmax, _⟩ := hp.leaf_fields ha
      rw [List.map_cons, List.map_cons, List.cons_append, ← ih hrest, hmin,
        hmax]

theorem nexts_of_spans {l : List GlobalAddress} {ps : List Page}
    (h : List.Forall₂ (Current R s F) l ps) {lo hi : Key}
    (hl : F.Spans lo l hi) :
    (ps.map Page.nextLeaf).map some = l.map F.nextOf := by
  induction h generalizing lo with
  | nil => rfl
  | cons hp _ ih =>
      obtain ⟨mid, entries, next, ha, hrest⟩ := hl
      obtain ⟨_, _, _, hnext⟩ := hp.leaf_fields ha
      rw [List.map_cons, List.map_cons, List.map_cons, ih hrest, hnext,
        Forest.nextOf, ha]

/-- The addresses and pages of the leaves of a tree. -/
theorem Tree.leaves (h : Tree R s F) :
    ∃ l, List.Forall₂ (Current R s F) l s.leaves ∧ F.Spans ⊥ l ⊤ ∧
      ∀ {a lo hi entries next}, F a = some (.leaf lo hi entries next) →
        a ∈ l := by
  have hroot := h.current_root
  obtain ⟨n, hn, hlo, hhi⟩ := h.search.root_node
  have hheight := h.height hn
  refine ⟨F.leafList s.height s.root,
    hroot.leavesBelow h.ready.settled s.height, ?_, ?_⟩
  · rw [← hlo, ← hhi]
    exact h.search.spans_leafList hn (by omega)
  · intro a lo hi entries next ha
    obtain ⟨path, hpath⟩ :=
      Forest.exists_follow_of_reach (h.search.reach ha)
    obtain ⟨m, _, hlevel⟩ := h.search.linked.follow_level hn hpath
    exact Forest.mem_leafList hpath ha (by omega)

theorem Current.mem_leavesBelow {a : GlobalAddress} {p q : Page}
    (hp : Current R s F a p) (h : Settled True R s F) {path : List ℕ}
    (hq : s.follow path p = some q) (hleaf : q.type = .btreeLeaf) {fuel : ℕ}
    (hfuel : path.length < fuel) : q ∈ s.leavesBelow fuel p := by
  induction path generalizing a p fuel with
  | nil =>
      obtain ⟨fuel, rfl⟩ := Nat.exists_eq_succ_of_ne_zero (by omega : fuel ≠ 0)
      obtain rfl : p = q := Option.some.inj hq
      rw [State.leavesBelow, if_neg (by simp [hleaf])]
      simp
  | cons i path ih =>
      obtain ⟨fuel, rfl⟩ := Nat.exists_eq_succ_of_ne_zero (by omega : fuel ≠ 0)
      rw [List.length_cons] at hfuel
      rw [State.follow] at hq
      split at hq
      · rename_i hi
        obtain ⟨c, _, hcur⟩ := hp.child h hi.1 hi.2
        have hlength := Page.length_slots hp.formed hi.1
        have hslot : p.slots[i]? = some p.slots[i] :=
          List.getElem?_eq_getElem (by omega)
        rw [(Page.le_count_of_slot hslot).2.2] at hcur hq
        rw [State.leavesBelow, if_pos hi.1, List.mem_flatMap]
        exact ⟨_, List.getElem_mem _, ih hcur hq (by omega)⟩
      · cases hq

theorem Tree.mem_leaves (h : Tree R s F) {path : List ℕ} {p : Page}
    (hp : s.treePage path = some p) (hleaf : p.type = .btreeLeaf) :
    p ∈ s.leaves := by
  have hroot := h.current_root
  obtain ⟨a, ha, _⟩ := h.current_of_path hp
  obtain ⟨m, _, hlevel⟩ := h.search.linked.follow_level hroot.shown ha
  have hheight := h.height hroot.shown
  exact hroot.mem_leavesBelow h.ready.settled hp hleaf (by omega)

/-- A linked forest shows as a chain of leaf pages. -/
theorem Tree.leafChain (h : Tree R s F) (hlinked : F.LeafLinked .null) :
    LeafChain s := by
  obtain ⟨l, hpages, hspans, _⟩ := h.leaves
  have haddresses := forall₂_addresses hpages
  have hne : l ≠ [] := by
    rintro rfl
    have hempty : (⊥ : Key) = ⊤ := hspans
    exact absurd hempty (by decide)
  constructor
  · exact h.mem_leaves
  · rw [haddresses]
    exact (hspans.nodup h.search).1
  · rw [haddresses]
    intro hmem
    obtain ⟨lo, hi, entries, next, hnull⟩ := hspans.mem hmem
    rw [h.null_free] at hnull
    cases hnull
  · exact limits_of_spans hpages hspans
  · apply List.map_injective_iff.mpr (Option.some_injective _)
    rw [nexts_of_spans hpages hspans, hlinked.nexts h.search hspans hne,
      haddresses]

/-- A leaf that has lost its neighbour breaks the chain of leaf pages. -/
theorem Tree.not_leafChain (h : Tree R s F) (hcut : F.LeafCut .null) :
    ¬ LeafChain s := by
  intro hchain
  obtain ⟨l, hpages, _, hall⟩ := h.leaves
  obtain ⟨b, lo, hi, entries, hb, hne⟩ := hcut
  obtain ⟨i, hi'⟩ := List.getElem?_of_mem (hall hb)
  have hlength := hpages.length_eq
  obtain ⟨hlt, hget⟩ := List.getElem?_eq_some_iff.mp hi'
  have hpage : s.leaves[i]? = some s.leaves[i] :=
    List.getElem?_eq_getElem (by omega)
  have hcur : Current R s F b s.leaves[i] := by
    have := hpages.get hlt (by omega)
    rwa [List.get_eq_getElem, List.get_eq_getElem, hget] at this
  obtain ⟨_, _, hmax, hnext⟩ := hcur.leaf_fields hb
  have hnexts := congrArg (fun xs => xs[i]?) hchain.next
  have hlimits := congrArg (fun xs => xs[i + 1]?) hchain.ascending
  simp only [List.getElem?_map, hpage, Option.map_some, hnext] at hnexts
  simp only [List.getElem?_cons_succ, List.getElem?_map, hpage,
    Option.map_some, hmax] at hlimits
  rcases Nat.lt_or_ge (i + 1) s.leaves.length with hlast | hlast
  · -- the next leaf would have the null address
    rw [List.getElem?_append_left (by simp; omega), List.getElem?_tail] at hnexts
    exact hchain.not_null (List.mem_of_getElem? hnexts.symm)
  · -- the last leaf reaches up to the greatest key
    have hend : i + 1 = (s.leaves.map Page.minLimit).length := by
      simp only [List.length_map]
      omega
    rw [hend, List.getElem?_concat_length, Option.some.injEq] at hlimits
    exact hne hlimits

/-! ## The leaf an insert splits -/

/-- If the operation finds the leaf of its key full, it is the rightmost
leaf. -/
def Op.SplitsRightmost (s : State) : Op → Prop
  | .insert k _ => ∀ leaf, s.route k s.height s.rootPage = some leaf →
      BTreeLeaf.isFull leaf = true → leaf.maxLimit = ⊤
  | _ => True

/-- Every insert of the run that finds its leaf full finds the rightmost
one. -/
def SplitRightmost : List Op → State → Prop
  | [], _ => True
  | op :: ops, s => op.SplitsRightmost s ∧ SplitRightmost ops (op.run s).state

theorem Tree.splitsRightmost_iff (h : Tree R s F) (op : Op) :
    op.SplitsRightmost s ↔ op.SplitsLast F := by
  cases op with
  | insert k v =>
      have hroot := h.current_root
      obtain ⟨n, hn, hkey⟩ := SearchTree.covers_root h.search k
      rw [hroot.shown, Option.some.injEq] at hn
      subst hn
      have hheight := h.height hroot.shown
      obtain ⟨b, q, hq, hleaf, hcur, hk⟩ := hroot.route h.toConsistent hkey
        (show _ < s.height by omega)
      have hnode := Page.node_of_leaf (w := s.addressOf) hleaf
      have hshown := hcur.shown
      rw [hnode] at hshown hk
      have hfull : BTreeLeaf.isFull q = true ↔ q.entries.length = 59 := by
        rw [Page.length_entries hcur.formed.count_le, BTreeLeaf.isFull,
          decide_eq_true_eq, ← UInt8.toNat_inj]
        rfl
      constructor
      · intro hlast a lo hi entries next ha hcovers hsize
        obtain rfl := h.search.covers_unique hshown ha rfl hk hcovers
        rw [hshown, Option.some.injEq, Node.leaf.injEq] at ha
        obtain ⟨_, rfl, rfl, _⟩ := ha
        exact hlast q hq (hfull.mpr hsize)
      · intro hlast leaf hroute hisFull
        rw [hq, Option.some.injEq] at hroute
        subst hroute
        exact hlast hshown hk (hfull.mp hisFull)
  | lookup => exact Iff.rfl
  | update => exact Iff.rfl
  | remove => exact Iff.rfl
  | rangeScan => exact Iff.rfl

end Chain

/-! ## Runs -/

section Runs

variable {R : Set ℕ} {s : State} {F : TreeForest} {m : KeyMap}
  {C : Contract State Halt Event}

/-- What a run leaves is left by its last state. -/
theorem Meets.at_end {α : Type} {p : M α} {Q : α → State → Prop}
    (h : Meets C p s Q) :
    Meets C p s fun a s' => Q a s' ∧ s' = (p s).state := by
  intro hrely
  obtain ⟨hguarantee, hpost⟩ := h hrely
  refine ⟨hguarantee, ?_⟩
  cases hresult : (p s).result with
  | ok a =>
      rw [hresult] at hpost
      exact ⟨hpost, rfl⟩
  | error e =>
      rw [hresult] at hpost
      exact hpost

/-- What the forest of a run tells about its splits. -/
structure ChainRun (P : Prop) (F F' : TreeForest) : Prop where
  linked : P → F.LeafLinked .null → F'.LeafLinked .null
  cut : F.LeafCut .null ∨ ¬ P → F'.LeafCut .null

theorem ChainStep.run {P P' : Prop} {F F' F'' : TreeForest}
    (h : ChainStep P F F') (h' : ChainRun P' F' F'') :
    ChainRun (P ∧ P') F F'' where
  linked hP hF := h'.linked hP.2 (h.linked hP.1 hF)
  cut hbroken := by
    by_cases hcut : F'.LeafCut .null
    · exact h'.cut (Or.inl hcut)
    · refine h'.cut (Or.inr fun hrest => ?_)
      rcases hbroken with hF | hnot
      · exact hcut (h.cut hF)
      · exact hcut (h.cuts fun hop => hnot ⟨hop, hrest⟩)

theorem runOps_chain (hC : Runs C) (ops : List Op) (h : Tree R s F)
    (hm : Represents F m) :
    Meets C (runOps ops) s fun _ s' => ∃ R' F', Tree R' s' F' ∧
      ChainRun (SplitRightmost ops s) F F' := by
  induction ops generalizing R F m s with
  | nil =>
      exact meets_pure ⟨R, F, h, fun _ hF => hF, fun hF =>
        hF.resolve_right fun hnot => hnot trivial⟩
  | cons op ops ih =>
      unfold runOps
      apply Meets.bind
      refine (Meets.at_end (op.run_after hC h hm)).mono ?_
      intro r s' hs'
      obtain ⟨⟨_, R', F', htree, hm', hstep⟩, rfl⟩ := hs'
      rw [← h.splitsRightmost_iff op] at hstep
      apply Meets.bind
      refine (ih htree hm').mono ?_
      intro rs t ht
      obtain ⟨R'', F'', htree', hrun⟩ := ht
      exact meets_pure ⟨R'', F'', htree', hstep.run hrun⟩

end Runs

/-! ## Without the cooling table -/

section Table

variable {h : HashTable} {s : State}

theorem State.leavesBelow_setTable (fuel : ℕ) (p : Page) :
    (s.setTable h).leavesBelow fuel p = s.leavesBelow fuel p := by
  induction fuel generalizing p with
  | zero => rfl
  | succ fuel ih =>
      simp only [State.leavesBelow, ih]
      rfl

theorem leafChain_setTable : LeafChain (s.setTable h) ↔ LeafChain s := by
  have hleaves : (s.setTable h).leaves = s.leaves :=
    State.leavesBelow_setTable _ _
  have hpage := State.treePage_setTable (h := h) (s := s)
  constructor
  · intro hchain
    obtain ⟨hevery, honce, hnull, hascending, hnext⟩ := hchain
    simp only [hpage, hleaves] at hevery honce hnull hascending hnext
    exact ⟨hevery, honce, hnull, hascending, hnext⟩
  · intro hchain
    obtain ⟨hevery, honce, hnull, hascending, hnext⟩ := hchain
    constructor
    all_goals simp only [hpage, hleaves]
    · exact hevery
    · exact honce
    · exact hnull
    · exact hascending
    · exact hnext

theorem Op.splitsRightmost_setTable (op : Op) :
    op.SplitsRightmost (s.setTable h) ↔ op.SplitsRightmost s := by
  cases op with
  | insert k v =>
      simp only [Op.SplitsRightmost, State.route_setTable]
      exact Iff.rfl
  | lookup => exact Iff.rfl
  | update => exact Iff.rfl
  | remove => exact Iff.rfl
  | rangeScan => exact Iff.rfl

/-- A finished warm run splits the same leaves over any cooling table. -/
theorem splitRightmost_setTable {ops : List Op} {replies : List Reply}
    (hwarm : ∀ e ∈ (runOps ops s).trace, e.Warm)
    (hok : (runOps ops s).result = .ok replies) :
    SplitRightmost ops (s.setTable h) ↔ SplitRightmost ops s := by
  induction ops generalizing s replies with
  | nil => exact Iff.rfl
  | cons op ops ih =>
      rcases hop : op.run s with ⟨result, s', trace⟩
      cases result with
      | error e =>
          rw [runOps, bind_of_error hop] at hok
          cases hok
      | ok r =>
          rw [runOps, bind_of_ok hop] at hwarm hok
          rcases hrest : runOps ops s' with ⟨result', s'', trace'⟩
          cases result' with
          | error e =>
              rw [bind_of_error hrest] at hok
              cases hok
          | ok rs =>
              rw [bind_of_ok hrest] at hwarm
              simp only [List.mem_append] at hwarm
              have hframe := warmed_run (h := h) op s (by
                rw [hop]
                exact fun e he => hwarm e (Or.inl he))
              rw [hop] at hframe
              have hwarm' : ∀ e ∈ (runOps ops s').trace, e.Warm := by
                rw [hrest]
                exact fun e he => hwarm e (Or.inr (Or.inl he))
              have hok' : (runOps ops s').result = .ok rs := by rw [hrest]
              have hih := ih hwarm' hok'
              rw [SplitRightmost, SplitRightmost,
                Op.splitsRightmost_setTable, hframe, hop]
              exact and_congr_right fun _ => hih

end Table

/-- The forest a fresh run ends in is linked or cut as its splits tell. -/
theorem freshRun_chain {C : Contract State Halt Event} (hC : Runs C)
    {c : TreeConfig} (hpages : 0 < c.pageNum) (hentries : 0 < c.entryNum)
    (ops : List Op) :
    Meets C (freshRun ops) c.initial fun _ s' =>
      LeafChain s' ↔ SplitRightmost ops (construct c.initial).state := by
  unfold freshRun
  apply Meets.bind
  refine (Meets.at_end (construct_meets hC hpages hentries)).mono ?_
  intro _ s' hs'
  obtain ⟨⟨R, F, htree, hm, hlinked⟩, rfl⟩ := hs'
  refine (runOps_chain hC ops htree hm).mono ?_
  intro _ t ht
  obtain ⟨R', F', htree', hrun⟩ := ht
  constructor
  · intro hchain
    by_contra hnot
    exact htree'.not_leafChain (hrun.cut (Or.inr hnot)) hchain
  · intro hsplit
    exact htree'.leafChain (hrun.linked hsplit hlinked)

/-- After a run without evictions and failed allocations the leaves form a
chain exactly when the run has split no leaf but the rightmost one. -/
theorem freshRun_leafChain_iff {c : TreeConfig} {ops : List Op}
    (h : NeverFills c ops) :
    LeafChain (freshRun ops c.initial).state ↔
      SplitRightmost ops (construct c.initial).state := by
  have hmeets := freshRun_chain runs_warmContract
    (c := { c with entryNum := 1 }) h.slots Nat.one_pos ops
  have hstart : ({ c with entryNum := 1 } : TreeConfig).initial =
      c.initial.setTable (.new 1) := rfl
  rw [hstart, Meets, warmed_freshRun ops c.initial h.warm] at hmeets
  obtain ⟨_, hpost⟩ := hmeets fun e he => ⟨h.warm e he, h.allocates e he⟩
  have hwarm := h.warm
  unfold freshRun at hwarm hpost ⊢
  rcases hbuilt : construct c.initial with ⟨result, s, trace⟩
  cases result with
  | error e =>
      rw [bind_of_error hbuilt] at hpost
      exact hpost.elim
  | ok _ =>
      rw [bind_of_ok hbuilt] at hwarm hpost ⊢
      rcases hran : runOps ops s with ⟨result', t, trace'⟩
      rw [hran] at hwarm hpost
      simp only [List.mem_append] at hwarm
      have hframe := warmed_construct (h := .new 1) c.initial (by
        rw [hbuilt]
        exact fun e he => hwarm e (Or.inl he))
      rw [hframe, hbuilt] at hpost
      cases result' with
      | error e => exact hpost.elim
      | ok replies =>
          have hwarm' : ∀ e ∈ (runOps ops s).trace, e.Warm := by
            rw [hran]
            exact fun e he => hwarm e (Or.inr he)
          have hok : (runOps ops s).result = .ok replies := by rw [hran]
          have hsplits := splitRightmost_setTable (h := .new 1) hwarm' hok
          exact leafChain_setTable.symm.trans (Iff.trans hpost hsplits)

theorem freshRun_leafChain_iff_mixed :
    LeafChain (freshRun mixedRun sixPages.initial).state ↔
      SplitRightmost mixedRun (construct sixPages.initial).state :=
  freshRun_leafChain_iff neverFills_mixed

/-! ## Keys in descending order -/

/-- Inserts of the keys from `n` down to 1. -/
def descending (n : ℕ) : List Op :=
  (List.range n).map fun i => .insert (UInt64.ofNat (n - i)) 0

set_option maxRecDepth 100000 in
/-- The second split, of the left leaf, leaves the chain at its new right
half. -/
theorem descending_nexts :
    (fun r : Outcome State Halt Event (List Reply) =>
      r.trace.all Event.isWarm = true ∧
        r.state.leaves.map Page.remoteAddress =
          [.make 0 1024, .make 0 4096, .make 0 2048] ∧
        r.state.leaves.map Page.nextLeaf = [.make 0 4096, .null, .null])
      (freshRun (descending 90) sixPages.initial) := by
  decide +kernel

/-- Ninety inserts in descending order split the left leaf. -/
theorem descending_no_leafChain :
    NeverFills sixPages (descending 90) ∧
      ¬ LeafChain (freshRun (descending 90) sixPages.initial).state := by
  obtain ⟨hwarm, haddresses, hnexts⟩ := descending_nexts
  refine ⟨neverFills_of_isWarm (by decide) hwarm, fun hchain => ?_⟩
  have hnext := hchain.next
  rw [haddresses, hnexts] at hnext
  revert hnext
  decide

end CachingDex
