import CachingDex.Traffic
import CachingDex.TreeUpkeep
import CachingDex.Lib.Tally

/-!
# Accounting for the pages of the backend

Every page the backend has handed out is one node more in the counts of the
tree object, and every page it could not hand out is a node without one.
This holds after every run, also where the run stops early or the tree is
broken: an address is counted before anything can stop the program.
-/

namespace CachingDex

open Lib Lib.Traced Lib.Tally

/-- The pages handed out by a backend of `capacity` bytes against the nodes
counted. -/
def pageTally (capacity : ℕ) : Tally State Event where
  gauge s := s.backend.curOffset - pageSize * (s.leafNum + s.innerNum : ℕ)
  charge e := if e.failsAlloc then -pageSize else 0
  inv s := s.backend.curOffset ≤ max pageSize capacity ∧
    s.backend.capacityBytes = capacity

variable {capacity : ℕ}

/-- The program accounts for the pages it takes from the backend. -/
abbrev Accounted (capacity : ℕ) {α : Type} (m : M α) : Prop :=
  (pageTally capacity).Moves 0 m

/-- A step outside the backend's offset and the counts of nodes. -/
theorem accounted_modify {f : State → State}
    (hcur : ∀ s, (f s).backend.curOffset = s.backend.curOffset)
    (hcapacity : ∀ s, (f s).backend.capacityBytes = s.backend.capacityBytes)
    (hleaf : ∀ s, (f s).leafNum = s.leafNum)
    (hinner : ∀ s, (f s).innerNum = s.innerNum) :
    Accounted capacity (Traced.modify f : M Unit) := by
  apply moves_modify
  intro s hs
  refine ⟨⟨(hcur s).trans_le hs.1, (hcapacity s).trans hs.2⟩, ?_⟩
  simp only [pageTally, hcur, hleaf, hinner]

/-- A step outside the backend and the tree object. -/
theorem accounted_step {f : State → State}
    (hbackend : ∀ s, (f s).backend = s.backend)
    (hleaf : ∀ s, (f s).leafNum = s.leafNum)
    (hinner : ∀ s, (f s).innerNum = s.innerNum) :
    Accounted capacity (Traced.modify f : M Unit) :=
  accounted_modify (fun s => by rw [hbackend]) (fun s => by rw [hbackend])
    hleaf hinner

theorem accounted_emit {e : Event} (he : e.failsAlloc = false) :
    Accounted capacity (emit e : M Unit) := by
  intro s hs
  refine ⟨hs, ?_⟩
  simp [emit, total, pageTally, he]

theorem accounted_modifyPage (p : PagePtr) (f : Page → Page) :
    Accounted capacity (modifyPage p f) :=
  accounted_step (fun _ => rfl) (fun _ => rfl) fun _ => rfl

theorem accounted_gets {α : Type} (f : State → α) :
    Accounted capacity (Traced.gets f : M α) := by
  intro s hs
  exact ⟨hs, by simp [Traced.gets, total]⟩

/-! ## Programs that take no page -/

/-- The backend ends where it did and there are as many nodes. -/
structure Outline.SameCounts (o o' : Outline) : Prop where
  curOffset : o'.curOffset = o.curOffset
  capacityBytes : o'.capacityBytes = o.capacityBytes
  leafNum : o'.leafNum = o.leafNum
  innerNum : o'.innerNum = o.innerNum

theorem Outline.SameCounts.step {o o₁ o₂ : Outline} (h : o.SameCounts o₁)
    (hstep : o₁.Step o₂) : o.SameCounts o₂ := by
  cases hstep <;> exact ⟨h.curOffset, h.capacityBytes, h.leafNum, h.innerNum⟩

/-- Runs that fail no allocation and leave the counts as they were, also
where they stop early. -/
def countsUpkeep (o : Outline) : TreeUpkeep where
  contract :=
    ⟨fun _ => True, fun e => e.failsAlloc = false,
      fun _ s => o.SameCounts s.outline⟩
  page _ _ := True
  image _ := True
  pointer _ := True
  rest := o.SameCounts
  slot _ := trivial
  child _ _ := trivial
  tended _ _ := trivial
  stored _ _ _ := trivial
  kept _ _ := trivial
  step h hstep := h.step hstep
  event := by
    intro e he
    cases e with
    | allocFailed => cases he
    | inSplit => cases he
    | _ => rfl
  indexed _ _ := rfl
  written _ _ := rfl
  mayHalt _ h := h
  current _ := True
  current_congr _ _ := trivial
  current_new _ := trivial
  page_current _ := trivial
  image_current _ := trivial
  loaded _ _ _ := trivial
  linked _ _ _ := trivial
  called := by
    intro call _
    refine ⟨rfl, ?_⟩
    cases call <;> trivial
  rely_inSplit _ := trivial
  guarantee_inSplit h := h

theorem total_of_succeeds {log : List Event}
    (h : ∀ e ∈ log, e.failsAlloc = false) :
    (pageTally capacity).total log = 0 := by
  apply List.sum_eq_zero
  intro x hx
  obtain ⟨e, he, rfl⟩ := List.mem_map.mp hx
  simp [pageTally, h e he]

/-- A program that leaves the counts as they are accounts for them. -/
theorem accounted_of_upkeeps {α : Type} {m : M α}
    (h : ∀ o, Upkeeps (countsUpkeep o).toUpkeep m) :
    Accounted capacity m := by
  intro s hs
  have hstart : Upheld (countsUpkeep s.outline).toUpkeep s :=
    ⟨fun _ => trivial, trivial, fun _ => trivial, fun _ => trivial,
      fun _ _ _ _ => trivial, ⟨rfl, rfl, rfl, rfl⟩⟩
  obtain ⟨hsucceeds, hpost⟩ := h s.outline s hstart fun _ _ => trivial
  have hcounts : s.outline.SameCounts (m s).state.outline := by
    cases hresult : (m s).result with
    | ok a =>
        rw [hresult] at hpost
        exact hpost.rest
    | error e =>
        rw [hresult] at hpost
        exact hpost
  have hcur : (m s).state.backend.curOffset = s.backend.curOffset :=
    hcounts.curOffset
  have hleaf : (m s).state.leafNum = s.leafNum := hcounts.leafNum
  have hinner : (m s).state.innerNum = s.innerNum := hcounts.innerNum
  refine ⟨⟨hcur.trans_le hs.1, hcounts.capacityBytes.trans hs.2⟩, ?_⟩
  rw [total_of_succeeds hsucceeds]
  simp only [pageTally, hcur, hleaf, hinner]
  ring

theorem accounted_cacheInsert (globalNode : SlotRef) (cacheNode : Page)
    (parent : PagePtr) :
    Accounted capacity (cacheInsert globalNode cacheNode parent) :=
  accounted_of_upkeeps fun _ => upkeeps_cacheInsert globalNode trivial parent

theorem accounted_loadChild (parent : PagePtr) (childIdx : ℕ) :
    Accounted capacity (loadChild parent childIdx) :=
  accounted_of_upkeeps fun _ => upkeeps_loadChild parent childIdx

theorem accounted_insertIntoInner (parent : PagePtr) (sep : Key)
    (child : ChildSlot) :
    Accounted capacity (insertIntoInner parent sep child) :=
  accounted_of_upkeeps fun _ => upkeeps_insertIntoInner parent sep child

/-! ## Splits -/

theorem allocAddress_apply (s : State) :
    allocAddress s = ⟨.ok s.backend.alloc.1,
      { s with backend := s.backend.alloc.2 },
      if s.backend.hasRoom then [] else [.allocFailed]⟩ := by
  change (onlyIf (!s.backend.hasRoom) (emit Event.allocFailed) >>= _) s = _
  cases s.backend.hasRoom <;> rfl

/-- An address is handed out, or the failure is in the trace: either way a
node more may be counted. -/
theorem moves_allocAddress :
    (pageTally capacity).Moves pageSize allocAddress := by
  intro s hs
  obtain ⟨hle, hcapacity⟩ := hs
  rw [allocAddress_apply]
  cases hroom : s.backend.hasRoom with
  | true =>
      have hnext := InMemoryBackend.curOffset_alloc hroom
      have hfits : s.backend.curOffset + pageSize ≤ capacity := by
        rw [InMemoryBackend.hasRoom, decide_eq_true_eq, hcapacity] at hroom
        exact hroom
      refine ⟨⟨hnext.trans_le (hfits.trans (le_max_right _ _)), ?_⟩, ?_⟩
      · exact InMemoryBackend.capacityBytes_alloc.trans hcapacity
      · simp only [pageTally, total, hnext, if_true, List.map_nil,
          List.sum_nil]
        push_cast
        ring
  | false =>
      have hsame : s.backend.alloc.2 = s.backend := by
        rw [InMemoryBackend.alloc, if_neg (by simp [hroom])]
      rw [hsame]
      refine ⟨⟨hle, hcapacity⟩, ?_⟩
      simp [pageTally, total, Event.failsAlloc]

/-- A program that goes on with a new address, one node short. -/
theorem accounted_alloc_bind {α : Type} {d : ℤ} {k : GlobalAddress → M α}
    (hk : ∀ addr, (pageTally capacity).Moves (d - pageSize) (k addr)) :
    (pageTally capacity).Moves d (allocAddress >>= k) := by
  have hsum := moves_allocAddress.bind_of_ok
    (fun s _ => ⟨_, by rw [allocAddress_apply]⟩) hk
  rwa [add_sub_cancel] at hsum

/-- A step that counts a node. -/
theorem moves_count_bind {α : Type} {f : State → State} {k : Unit → M α}
    (hbackend : ∀ s, (f s).backend = s.backend)
    (hnodes : ∀ s, (f s).leafNum + (f s).innerNum =
      s.leafNum + s.innerNum + 1) (hk : Accounted capacity (k ())) :
    (pageTally capacity).Moves (0 - pageSize) (Traced.modify f >>= k) := by
  have hstep := moves_modify_bind (T := pageTally capacity)
    (e := -(pageSize : ℤ)) (f := f) (fun s hs => by
    simp only [pageTally, hbackend, hnodes] at hs ⊢
    refine ⟨hs, ?_⟩
    push_cast
    ring) hk
  simpa using hstep

theorem accounted_makeNewRoot (sep : Key) (leftChild : PagePtr)
    (right : ChildSlot) (level : UInt8) :
    Accounted capacity (makeNewRoot sep leftChild right level) := by
  have hadopt : ∀ (q : PagePtr) (c : ChildSlot), Accounted capacity
      (Traced.modify fun s => s.adopt q c : M Unit) := fun q c =>
    accounted_of_upkeeps fun _ => upkeeps_adopt q c
  apply accounted_alloc_bind
  intro addr
  apply (accounted_emit rfl).then_bind (fun _ _ => ⟨_, rfl⟩)
  intro _
  apply Moves.then_bind
  · exact moves_onlyIf _ (accounted_emit rfl)
  · intro s _
    cases right.isSwizzled <;> exact ⟨_, rfl⟩
  intro _
  apply moves_count_bind
  · intro s
    rfl
  · intro s
    exact (Nat.add_assoc ..).symm
  apply (accounted_cacheInsert _ _ _).bind
  intro cachedRoot
  apply (accounted_modifyPage cachedRoot _).bind
  intro _
  apply (accounted_modifyPage .superRoot _).bind
  intro _
  apply (hadopt _ _).bind
  intro _
  apply (hadopt _ _).bind
  intro _
  exact accounted_step (fun _ => rfl) (fun _ => rfl) fun _ => rfl

theorem accounted_splitLeafChild (parent : PagePtr) (idx : ℕ)
    (leaf : PagePtr) :
    Accounted capacity (splitLeafChild parent idx leaf) := by
  apply accounted_alloc_bind
  intro addr
  apply (accounted_gets _).then_bind (fun _ _ => ⟨_, rfl⟩)
  intro p
  apply (accounted_emit rfl).then_bind (fun _ _ => ⟨_, rfl⟩)
  intro _
  dsimp only
  apply (accounted_modifyPage leaf _).then_bind (fun _ _ => ⟨_, rfl⟩)
  intro _
  apply Moves.then_bind (m := backendWrite _ _) ?_ (fun _ _ => ⟨_, rfl⟩)
  · intro _
    apply (accounted_modifyPage leaf _).then_bind (fun _ _ => ⟨_, rfl⟩)
    intro _
    apply moves_count_bind
    · intro s
      rfl
    · intro s
      exact Nat.add_right_comm ..
    split
    · exact accounted_makeNewRoot _ _ _ _
    · apply (accounted_insertIntoInner _ _ _).bind
      intro _
      apply (accounted_loadChild _ _).bind
      intro _
      exact moves_pure _
  · exact accounted_modify (fun _ => InMemoryBackend.curOffset_write)
      (fun _ => InMemoryBackend.capacityBytes_write) (fun _ => rfl)
      fun _ => rfl

theorem accounted_splitInnerChild (parent inner : PagePtr) :
    Accounted capacity (splitInnerChild parent inner) := by
  apply (accounted_gets _).bind
  intro p
  apply accounted_alloc_bind
  intro addr
  apply (accounted_emit rfl).then_bind (fun _ _ => ⟨_, rfl⟩)
  intro _
  dsimp only
  apply (accounted_modifyPage inner _).then_bind (fun _ _ => ⟨_, rfl⟩)
  intro _
  apply moves_count_bind
  · intro s
    rfl
  · intro s
    exact (Nat.add_assoc ..).symm
  apply Moves.bind
  · apply Moves.relabel
    · intro _
      rfl
    · exact accounted_cacheInsert _ _ _
  intro cachedSib
  apply (accounted_modifyPage cachedSib _).bind
  intro _
  apply Moves.bind
  · exact accounted_of_upkeeps fun _ => upkeeps_updateAllParentPtr cachedSib
  intro _
  apply (accounted_gets _).bind
  intro q
  split
  · exact accounted_makeNewRoot _ _ _ _
  · exact accounted_insertIntoInner _ _ _

theorem accounted_splitChild (parent : PagePtr) (idx : ℕ) (child : PagePtr) :
    Accounted capacity (splitChild parent idx child) := by
  apply (accounted_gets _).bind
  intro p
  split
  · exact accounted_splitLeafChild _ _ _
  · exact accounted_splitInnerChild _ _

/-! ## Operations and runs -/

theorem accounted_insert (k : Key) (v : Value) :
    Accounted capacity (LeanStoreTree.insert k v) := by
  apply Moves.bind
  · apply (accounted_loadChild _ _).bind
    intro cur
    apply (accounted_gets _).bind
    intro p
    split
    · apply (accounted_splitChild _ _ _).bind
      intro _
      exact accounted_loadChild _ _
    · exact moves_pure _
  intro cur
  apply Moves.bind
  · generalize maxLevels = fuel
    induction fuel generalizing cur with
    | zero => exact moves_halt _
    | succ fuel ih =>
        apply (accounted_gets _).bind
        intro p
        split
        · apply (accounted_loadChild _ _).bind
          intro child
          apply Moves.bind
          · apply (accounted_gets _).bind
            intro q
            split
            · apply (accounted_splitChild _ _ _).bind
              intro _
              apply (accounted_gets _).bind
              intro _
              exact accounted_loadChild _ _
            · exact moves_pure _
          · exact ih
        · exact moves_pure _
  intro leaf
  apply (accounted_gets _).bind
  intro p
  apply (accounted_emit rfl).bind
  intro _
  dsimp only
  apply (accounted_modifyPage leaf _).bind
  intro _
  exact moves_pure _

theorem Op.run_accounted (op : Op) : Accounted capacity op.run := by
  cases op with
  | insert k v => exact (accounted_insert k v).bind fun _ => moves_pure _
  | lookup k =>
      apply (accounted_of_upkeeps fun _ => upkeeps_readLeaf k _).bind
      exact fun _ => moves_pure _
  | update k v =>
      apply (accounted_of_upkeeps fun _ => upkeeps_update k v).bind
      exact fun _ => moves_pure _
  | remove k =>
      apply (accounted_of_upkeeps fun _ => upkeeps_remove k).bind
      exact fun _ => moves_pure _
  | rangeScan k num =>
      apply (accounted_of_upkeeps fun _ => upkeeps_readLeaf k _).bind
      exact fun _ => moves_pure _

theorem runOps_accounted (ops : List Op) :
    Accounted capacity (runOps ops) := by
  induction ops with
  | nil => exact moves_pure _
  | cons op ops ih =>
      apply op.run_accounted.bind
      intro reply
      apply ih.bind
      intro replies
      exact moves_pure _

/-- The first leaf is counted from the start. -/
theorem moves_construct : (pageTally capacity).Moves pageSize construct := by
  apply (accounted_modifyPage .superRoot _).then_bind (fun _ _ => ⟨_, rfl⟩)
  intro _
  apply Moves.bind
  · apply moves_allocAddress.bind
    intro addr
    apply Moves.bind
    · exact accounted_modify (fun _ => InMemoryBackend.curOffset_write)
        (fun _ => InMemoryBackend.capacityBytes_write) (fun _ => rfl)
        fun _ => rfl
    · intro _
      exact moves_pure _
  intro root
  apply Moves.bind
  · exact accounted_step (fun _ => rfl) (fun _ => rfl) fun _ => rfl
  intro _
  apply (accounted_modifyPage .superRoot _).bind
  intro _
  apply (accounted_loadChild _ _).bind
  intro _
  exact moves_pure _

theorem total_pageTally (log : List Event) :
    (pageTally capacity).total log = -(pageSize * log.countP Event.failsAlloc) := by
  induction log with
  | nil => rfl
  | cons e log ih =>
      have hcons : (pageTally capacity).total (e :: log) =
          (pageTally capacity).charge e + (pageTally capacity).total log := by
        simp [total]
      rw [hcons, ih, List.countP_cons]
      cases he : e.failsAlloc with
      | true =>
          simp only [pageTally, he, if_true]
          push_cast
          ring
      | false => simp [pageTally, he]

theorem freshRun_moves (ops : List Op) :
    (pageTally capacity).Moves pageSize (freshRun ops) :=
  moves_construct.bind fun _ => runOps_accounted ops

/-- What the tally says of a run: its invariant and its balance. -/
theorem freshRun_tally (c : TreeConfig) (ops : List Op) :
    (pageTally (c.backendPages * pageSize)).inv
        (freshRun ops c.initial).state ∧
      (pageTally (c.backendPages * pageSize)).gauge
          (freshRun ops c.initial).state =
        pageSize - pageSize *
          ((freshRun ops c.initial).trace.countP Event.failsAlloc : ℕ) := by
  have hstart : (pageTally (c.backendPages * pageSize)).inv c.initial :=
    ⟨le_max_left _ _, rfl⟩
  obtain ⟨hinv, hgauge⟩ := freshRun_moves ops c.initial hstart
  have hzero : (pageTally (c.backendPages * pageSize)).gauge c.initial = 0 := by
    simp [pageTally, TreeConfig.initial, InMemoryBackend.new]
  refine ⟨hinv, ?_⟩
  rw [hgauge, hzero, total_pageTally]
  ring

/-- In every run, however it ends, the backend has handed out the null page
and one page for each node counted, less the allocations that failed. -/
theorem freshRun_accounted (c : TreeConfig) (ops : List Op) :
    let out := freshRun ops c.initial
    out.state.backend.curOffset +
        pageSize * out.trace.countP Event.failsAlloc =
      pageSize * (1 + (out.state.leafNum + out.state.innerNum)) ∧
    out.state.backend.curOffset ≤
      max pageSize (c.backendPages * pageSize) := by
  obtain ⟨⟨hle, _⟩, hgauge⟩ := freshRun_tally c ops
  refine ⟨?_, hle⟩
  simp only [pageTally] at hgauge
  zify
  push_cast at hgauge
  linarith

/-! ## How high a tree gets -/

/-- Where allocations succeed the nodes have a page each. -/
theorem nodes_lt_pages {c : TreeConfig} {ops : List Op}
    (h : Allocates c ops) :
    1 + ((freshRun ops c.initial).state.leafNum +
      (freshRun ops c.initial).state.innerNum) ≤ max 1 c.backendPages := by
  obtain ⟨⟨hle, _⟩, hgauge⟩ := freshRun_tally c ops
  have hnone : (freshRun ops c.initial).trace.countP Event.failsAlloc = 0 := by
    rw [List.countP_eq_zero]
    intro e he
    simp [h e he]
  rw [hnone] at hgauge
  simp only [pageTally] at hgauge
  push_cast at hgauge
  rw [pageSize] at hle hgauge
  omega

theorem Tree.height_le {R : Set ℕ} {s : State} {F : TreeForest}
    (h : Tree R s F) (hleaves : s.leafNum < 2 ^ 37) :
    (2 ≤ s.height → 2 * 29 ^ (s.height - 2) ≤ s.leafNum) ∧
      s.height ≤ 9 := by
  obtain ⟨r, hr, _⟩ := h.search.root_node
  have hheight := h.height hr
  have hpow : 2 ≤ s.height → 2 * 29 ^ (s.height - 2) ≤ s.leafNum := by
    intro htwo
    have hle := h.search.pow_le_leafNum h.shape hr (by omega)
    have hlevel : r.level - 1 = s.height - 2 := by omega
    rwa [hlevel] at hle
  refine ⟨hpow, ?_⟩
  by_contra hhigh
  have hle := hpow (by omega)
  have hmono : 29 ^ 8 ≤ 29 ^ (s.height - 2) :=
    Nat.pow_le_pow_right (by decide) (by omega)
  omega

/-- A tame run needs 29 inserts for each leaf it adds, and no backend has
room for a tree of more than nine levels. -/
theorem tameRun_height {c : TreeConfig} {ops : List Op} (h : TameRun c ops) :
    EndsIn c ops fun _ s => 29 * s.leafNum ≤ 29 + inserts ops ∧
      (2 ≤ s.height → 2 * 29 ^ (s.height - 2) ≤ s.leafNum) ∧
        s.height ≤ 9 := by
  have hpages : (freshRun ops c.initial).state.leafNum < 2 ^ 37 ∨
      inserts ops ≤ 1710 := by
    rcases h.splits with hclear | ⟨hsmall, _⟩
    · left
      have hlt := nodes_lt_pages fun e he => (hclear e he).2
      have hfits := c.backend_fits
      rw [pageSize] at hfits
      omega
    · exact Or.inr hsmall
  rcases h.ends.2 with hexit | hend
  · exact Or.inl hexit
  · obtain ⟨replies, hresult, hend⟩ := hend
    obtain ⟨R, F, htree, _⟩ := hend.tree
    have hleaves := hend.leaves
    exact Or.inr ⟨replies, hresult, hleaves, htree.height_le (by omega)⟩

theorem tameRun_height_mixed :
    let s := (freshRun mixedRun threeSlots.initial).state
    29 * s.leafNum ≤ 29 + inserts mixedRun ∧
      (2 ≤ s.height → 2 * 29 ^ (s.height - 2) ≤ s.leafNum) ∧
        s.height ≤ 9 := by
  obtain ⟨_, _, hheight⟩ :=
    (tameRun_height tameRun_mixed).of_returns mixedRun_returns
  exact hheight

end CachingDex
