import CachingDex.LeafChain
import CachingDex.RangeScan

/-!
# Runs under eviction

What a run answers while pages are demoted, evicted and loaded again.  The
one step of the tree that the sampler can spoil is the split of an inner
page, while the children that move still point at the old page.  A run is
tame if the sampler never ends at a page of such a split, or if the tree is
too small for any: sixty leaves take 1711 inserts.
-/

namespace CachingDex

open Lib Lib.Traced

/-- An insert adds one entry to the tree, at most. -/
def Op.inserts : Op → ℕ
  | .insert _ _ => 1
  | _ => 0

def inserts (ops : List Op) : ℕ :=
  (ops.map Op.inserts).sum

section Steps

variable {R : Set ℕ} {s : State} {F : TreeForest} {m : KeyMap}
  {C : Contract State Halt Event} {N : ℕ}

/-- What an operation leaves of a tree within bounds. -/
structure OpStep (C : Contract State Halt Event) (N : ℕ) (F : TreeForest)
    (m : KeyMap) (op : Op) (R' : Set ℕ) (s' : State) (F' : TreeForest) :
    Prop where
  tree : Tree R' s' F'
  represents : Represents F' (op.effect m)
  chain : ChainStep (op.SplitsLast F) F F'
  credit : leafCredit F' ≤ leafCredit F + op.inserts
  within : Within C N F' s'

theorem EditStep.opStep (op : Op) {R' : Set ℕ} {s' : State} {F' : TreeForest}
    (h : EditStep s F (op.effect m) R' s' F') (hN : Within C N F s)
    (hlast : op.SplitsLast F) : OpStep C N F m op R' s' F' := by
  obtain ⟨k, entries, entries', hedit, hless⟩ := h.edits
  have hcredit : leafCredit F' ≤ leafCredit F + 0 :=
    hedit.weigh_credit hless
  have hchain := ChainStep.of_edits hedit
  refine ⟨h.tree, h.represents, ⟨fun _ => hchain.linked trivial, hchain.cut,
    fun hnot => absurd hlast hnot⟩, hcredit.trans (Nat.le_add_right _ _), ?_⟩
  refine hN.step (n := 0) (hcredit.trans hN.credit) ?_ h.steady.capacity ?_
  · rw [h.steady.curOffset]
    omega
  · rw [h.steady.leafNum, h.steady.innerNum]
    rfl

/-- A read leaves the tree as it is. -/
theorem Tree.readStep {op : Op} {R' : Set ℕ} {s' : State}
    (h : Tree R' s' F) (hm : Represents F m) (hread : op.effect m = m)
    (hlast : op.SplitsLast F) (hN : Within C N F s) (hsteady : Steady s s') :
    OpStep C N F m op R' s' F := by
  refine ⟨h, hread.symm ▸ hm, ⟨fun _ hF => hF, id, fun hnot =>
    absurd hlast hnot⟩, Nat.le_add_right _ _, ?_⟩
  refine hN.step (n := 0) hN.credit ?_ hsteady.capacity ?_
  · rw [hsteady.curOffset]
    omega
  · rw [hsteady.leafNum, hsteady.innerNum]
    rfl

/-- One operation replies as it should and leaves a tree for the next. -/
theorem Op.run_step (hC : Inserts N C) (h : Tree R s F)
    (hN : Within C N F s) (hm : Represents F m) (op : Op)
    (hle : leafCredit F + op.inserts ≤ N) :
    Meets C op.run s fun r s' =>
      op.Replies s m r ∧ ∃ R' F', OpStep C N F m op R' s' F' := by
  have hbase := hC.base
  cases op with
  | insert k v =>
      apply Meets.bind
      refine (h.insert_step hC hN hm k v).mono ?_
      rintro ok s' ⟨rfl, R', F', hstep⟩
      exact meets_pure ⟨rfl, R', F', hstep.tree, hstep.represents,
        hstep.chain, hstep.credit, hstep.within hle⟩
  | lookup k =>
      apply Meets.bind
      refine (h.lookup_step hbase hm k).mono ?_
      rintro o s' ⟨rfl, R', htree, hsteady⟩
      exact meets_pure ⟨rfl, R', F, htree.readStep hm rfl trivial hN hsteady⟩
  | update k v =>
      apply Meets.bind
      refine (h.update_step hbase hm k v).mono ?_
      rintro ok s' ⟨rfl, R', F', hstep⟩
      exact meets_pure ⟨rfl, R', F', hstep.opStep (.update k v) hN
        trivial⟩
  | remove k =>
      apply Meets.bind
      refine (h.remove_step hbase hm k).mono ?_
      rintro ok s' ⟨rfl, R', F', hstep⟩
      exact meets_pure ⟨rfl, R', F', hstep.opStep (.remove k) hN trivial⟩
  | rangeScan k num =>
      apply Meets.bind
      refine (h.rangeScan_meets hbase hm k num).mono ?_
      rintro entries s' ⟨rfl, R', htree, hsteady⟩
      exact meets_pure ⟨rfl, R', F, htree.readStep hm rfl trivial hN hsteady⟩

/-- What a run leaves of a tree within bounds. -/
structure RunStep (C : Contract State Halt Event) (N : ℕ) (F : TreeForest)
    (s : State) (m : KeyMap) (ops : List Op) (R' : Set ℕ) (s' : State)
    (F' : TreeForest) : Prop where
  tree : Tree R' s' F'
  represents : Represents F' (ops.foldl Op.effect m)
  chain : ChainRun (SplitRightmost ops s) F F'
  within : Within C N F' s'

theorem runOps_step (hC : Inserts N C) (ops : List Op) (h : Tree R s F)
    (hN : Within C N F s) (hm : Represents F m)
    (hle : leafCredit F + inserts ops ≤ N) :
    Meets C (runOps ops) s fun rs s' =>
      Replied s m ops rs ∧ ∃ R' F', RunStep C N F s m ops R' s' F' := by
  induction ops generalizing R F m s with
  | nil =>
      exact meets_pure ⟨trivial, R, F, h, hm, ⟨fun _ hF => hF, fun hF =>
        hF.resolve_right fun hnot => hnot trivial⟩, hN⟩
  | cons op ops ih =>
      have hsum : inserts (op :: ops) = op.inserts + inserts ops := by
        simp [inserts]
      unfold runOps
      apply Meets.bind
      refine (Meets.at_end (op.run_step hC h hN hm (by omega))).mono ?_
      intro r s' hs'
      obtain ⟨⟨hr, R', F', hstep⟩, rfl⟩ := hs'
      have hcredit := hstep.credit
      have hchain := hstep.chain
      rw [← h.splitsRightmost_iff op] at hchain
      apply Meets.bind
      refine (ih hstep.tree hstep.within hstep.represents (by omega)).mono ?_
      intro rs t ht
      obtain ⟨hrs, R'', F'', hrun⟩ := ht
      exact meets_pure ⟨⟨hr, hrs⟩, R'', F'', hrun.tree, hrun.represents,
        hchain.run hrun.chain, hrun.within⟩

end Steps

/-! ## Runs on a fresh tree -/

/-- What a run on a fresh tree ends with. -/
structure FreshEnd (c : TreeConfig) (ops : List Op) (replies : List Reply)
    (s : State) : Prop where
  replied : Replied (construct c.initial).state (fun _ => none) ops replies
  tree : TreeOf (mapOf ops) s
  chain : LeafChain s ↔ SplitRightmost ops (construct c.initial).state
  leaves : 29 * s.leafNum ≤ 29 + inserts ops

theorem freshRun_step {C : Contract State Halt Event} {c : TreeConfig}
    {ops : List Op} (hC : Inserts (29 + inserts ops) C)
    (hpages : 0 < c.pageNum) (hentries : 0 < c.entryNum)
    (hbackend : C.rely .allocFailed →
      1 + nodesFor ((29 + inserts ops) / 29) ≤ c.backendPages) :
    Meets C (freshRun ops) c.initial (FreshEnd c ops) := by
  unfold freshRun
  apply Meets.bind
  refine (Meets.at_end (construct_step hC.base hpages hentries
    (Nat.le_add_right 29 _) hbackend)).mono ?_
  intro _ s hs
  obtain ⟨⟨R, F, htree, hm, hlinked, hcredit, hN⟩, rfl⟩ := hs
  refine (runOps_step hC ops htree hN hm (by omega)).mono ?_
  intro replies s' hs'
  obtain ⟨hreplied, R', F', hrun⟩ := hs'
  refine ⟨hreplied, ⟨R', F', hrun.tree, hrun.represents⟩, ?_, ?_⟩
  · constructor
    · intro hchain
      by_contra hnot
      exact hrun.tree.not_leafChain (hrun.chain.cut (Or.inr hnot)) hchain
    · intro hsplit
      exact hrun.tree.leafChain (hrun.chain.linked hsplit hlinked)
  · have hle : 29 * s'.leafNum ≤ leafCredit F' := hrun.tree.shape.least_mul_le
    exact hle.trans hrun.within.credit

/-- Runs on trees without full inner pages: nothing is asked of the draws. -/
def smallContract : Contract State Halt Event where
  rely _ := True
  guarantee e := e.Safe ∧ e.failsAlloc = false
  mayHalt h _ := h = .exit0

theorem tolerates_smallContract : Tolerates True ∅ smallContract where
  exit0 := fun _ _ => rfl
  recycled := ⟨trivial, rfl⟩
  evicted := fun _ => ⟨trivial, rfl⟩
  handedOut := fun _ => ⟨trivial, rfl⟩
  indexed := fun _ => ⟨trivial, rfl⟩
  written := fun _ => ⟨trivial, rfl⟩
  sampled := fun _ _ => ⟨Set.notMem_empty _, trivial, rfl⟩
  called := fun _ h => ⟨h, rfl⟩
  untidy := fun h => absurd trivial h

theorem inserts_smallContract {N : ℕ} (hN : N < 29 * 60) :
    Inserts N smallContract where
  base := tolerates_smallContract
  inner hle := absurd hle (Nat.not_le.mpr hN)

/-- The splits of the run are safe: the sampler stays away from the pages of
inner splits and allocations succeed, or the tree stays small and the
backend has room for it. -/
structure TameRun (c : TreeConfig) (ops : List Op) : Prop where
  slots : 0 < c.pageNum
  buckets : 0 < c.entryNum
  splits : (∀ e ∈ (freshRun ops c.initial).trace,
      e.Clear ∧ e.failsAlloc = false) ∨
    (inserts ops ≤ 1710 ∧
      1 + nodesFor ((29 + inserts ops) / 29) ≤ c.backendPages)

/-- The run gives up in the sampler, or returns and `Q` holds. -/
def EndsIn (c : TreeConfig) (ops : List Op)
    (Q : List Reply → State → Prop) : Prop :=
  (freshRun ops c.initial).result = .error .exit0 ∨
    ∃ replies, (freshRun ops c.initial).result = .ok replies ∧
      Q replies (freshRun ops c.initial).state

theorem EndsIn.mono {c : TreeConfig} {ops : List Op}
    {Q Q' : List Reply → State → Prop} (h : EndsIn c ops Q)
    (hQ : ∀ replies s, Q replies s → Q' replies s) : EndsIn c ops Q' := by
  rcases h with hexit | hend
  · exact Or.inl hexit
  · obtain ⟨replies, hresult, hq⟩ := hend
    exact Or.inr ⟨replies, hresult, hQ _ _ hq⟩

theorem Meets.endsIn {C : Contract State Halt Event} {c : TreeConfig}
    {ops : List Op} {Q : List Reply → State → Prop}
    (h : Meets C (freshRun ops) c.initial Q)
    (hhalt : ∀ e s, C.mayHalt e s → e = .exit0)
    (htrace : ∀ e ∈ (freshRun ops c.initial).trace, C.rely e) :
    (∀ e ∈ (freshRun ops c.initial).trace, C.guarantee e) ∧
      EndsIn c ops Q := by
  obtain ⟨hguarantee, hpost⟩ := h htrace
  refine ⟨hguarantee, ?_⟩
  cases hresult : (freshRun ops c.initial).result with
  | ok replies =>
      rw [hresult] at hpost
      exact Or.inr ⟨replies, hresult, hpost⟩
  | error e =>
      rw [hresult] at hpost
      rw [hhalt e _ hpost] at hresult
      exact Or.inl hresult

/-- What every contract for the inserts of a tame run gives, the run has. -/
theorem TameRun.endsIn {c : TreeConfig} {ops : List Op}
    {Q : List Reply → State → Prop} (h : TameRun c ops)
    (hQ : ∀ {C : Contract State Halt Event}, Inserts (29 + inserts ops) C →
      (C.rely .allocFailed →
        1 + nodesFor ((29 + inserts ops) / 29) ≤ c.backendPages) →
      Meets C (freshRun ops) c.initial Q) :
    (∀ e ∈ (freshRun ops c.initial).trace, e.Safe) ∧ EndsIn c ops Q := by
  rcases h.splits with hclear | ⟨hsmall, hbackend⟩
  · have hC := runs_clearContract
    have hrun := hQ (hC.inserts _) fun hrely => absurd hrely hC.noFail
    exact Meets.endsIn hrun (fun _ _ he => he) hclear
  · have hC := inserts_smallContract (N := 29 + inserts ops) (by omega)
    have hrun := hQ hC fun _ => hbackend
    obtain ⟨hkept, hends⟩ :=
      Meets.endsIn hrun (fun _ _ he => he) fun _ _ => trivial
    exact ⟨fun e he => (hkept e he).1, hends⟩

/-- A tame run calls node operations safely, trips no assertion, and ends in
a tree for the map it has made unless it gives up. -/
theorem TameRun.ends {c : TreeConfig} {ops : List Op} (h : TameRun c ops) :
    (∀ e ∈ (freshRun ops c.initial).trace, e.Safe) ∧
      EndsIn c ops (FreshEnd c ops) :=
  h.endsIn fun hC hbackend => freshRun_step hC h.slots h.buckets hbackend

/-- A tame run that returns leaves a tree for its map. -/
theorem TameRun.treeOf {c : TreeConfig} {ops : List Op}
    {replies : List Reply} (h : TameRun c ops)
    (hreplies : (freshRun ops c.initial).result = .ok replies) :
    TreeOf (mapOf ops) (freshRun ops c.initial).state := by
  rcases h.ends.2 with hexit | hend
  · rw [hreplies] at hexit
    cases hexit
  · obtain ⟨_, _, hend⟩ := hend
    exact hend.tree

/-- The first operations of a run leave the first events. -/
theorem runOps_prefix (ops more : List Op) (s : State) :
    (runOps ops s).trace <+: (runOps (ops ++ more) s).trace := by
  induction ops generalizing s with
  | nil => exact List.nil_prefix
  | cons op ops ih =>
      refine bind_prefix_bind op.run fun reply s' => ?_
      have hmore := ih s'
      rw [← trace_bind_pure (runOps ops) (reply :: ·),
        ← trace_bind_pure (runOps (ops ++ more)) (reply :: ·)] at hmore
      exact hmore

/-- A tame run was tame after each of its operations. -/
theorem TameRun.before {c : TreeConfig} {ops before : List Op}
    (h : TameRun c ops) (hbefore : before <+: ops) : TameRun c before := by
  obtain ⟨more, rfl⟩ := hbefore
  have hle : inserts before ≤ inserts (before ++ more) := by
    simp [inserts]
  refine ⟨h.slots, h.buckets, ?_⟩
  rcases h.splits with hclear | ⟨hsmall, hbackend⟩
  · left
    intro e he
    have hfirst : (freshRun before c.initial).trace <+:
        (freshRun (before ++ more) c.initial).trace :=
      bind_prefix_bind construct fun _ s' => runOps_prefix before more s'
    exact hclear e (hfirst.subset he)
  · right
    have hnodes := nodesFor_mono
      (show (29 + inserts before) / 29 ≤
        (29 + inserts (before ++ more)) / 29 by omega)
    exact ⟨hle.trans hsmall, by omega⟩

/-- A pool of three pages and a cooling table of one bucket. -/
def threeSlots : TreeConfig where
  pageNum := 3
  entryNum := 1
  backendPages := 8
  baseAddress := 0x10000
  heapAddress := 0x8000
  selectDraws := fun n => n
  bucketDraws := fun n => n
  backend_fits := TreeConfig.eightPages_fit

theorem tameRun_mixed : TameRun threeSlots mixedRun where
  slots := by decide
  buckets := by decide
  splits := Or.inr ⟨by decide, by decide⟩

/-- A page was taken out of the cooling table. -/
def Event.isEvicted : Event → Bool
  | .evicted _ => true
  | _ => false

/-- Operations on all three leaves of the run. -/
def mixedReads : List Op :=
  [.lookup 90, .update 40 3, .rangeScan 1 5, .remove 60, .lookup 40]

set_option maxRecDepth 100000 in
/-- Over three slots the root and the three leaves of the run do not stay, and
the operations that follow load and evict more of them. -/
theorem mixedRun_threeSlots :
    (fun r : Outcome State Halt Event (List Reply) =>
      r.result.toBool = true ∧ r.trace.countP Event.isEvicted = 2 ∧
        r.state.leafNum = 3 ∧
        (LeanStoreTree.rangeScan 25 10 r.state).result.toBool = true ∧
        (fun reads : Outcome State Halt Event (List Reply) =>
          reads.result.toBool = true ∧
            reads.trace.countP Event.isEvicted = 4)
          (runOps mixedReads r.state))
      (freshRun mixedRun threeSlots.initial) := by
  decide +kernel

theorem exists_of_toBool {ε α : Type} {r : Except ε α}
    (h : r.toBool = true) : ∃ a, r = .ok a := by
  cases r with
  | ok a => exact ⟨a, rfl⟩
  | error e => cases h

theorem mixedRun_returns :
    ∃ replies, (freshRun mixedRun threeSlots.initial).result = .ok replies :=
  exists_of_toBool mixedRun_threeSlots.1

theorem EndsIn.of_returns {c : TreeConfig} {ops : List Op}
    {Q : List Reply → State → Prop} (h : EndsIn c ops Q)
    (hreturns : ∃ replies, (freshRun ops c.initial).result = .ok replies) :
    ∃ replies, (freshRun ops c.initial).result = .ok replies ∧
      Q replies (freshRun ops c.initial).state := by
  rcases h with hexit | hend
  · obtain ⟨replies, hok⟩ := hreturns
    rw [hok] at hexit
    cases hexit
  · exact hend

/-- Under eviction the tree is a map: a tame run answers like the map unless
it gives up, and never calls a node operation unsafely. -/
theorem tameRun_answers_like_map {c : TreeConfig} {ops : List Op}
    (h : TameRun c ops) :
    (∀ e ∈ (freshRun ops c.initial).trace, e.Safe) ∧
      EndsIn c ops fun replies _ => Answered (fun _ => none) ops replies := by
  obtain ⟨hsafe, hends⟩ := h.ends
  exact ⟨hsafe, hends.mono fun _ _ hend => hend.replied.answered⟩

theorem tameRun_answers_like_map_mixed :
    (∀ e ∈ (freshRun mixedRun threeSlots.initial).trace, e.Safe) ∧
      ∃ replies, (freshRun mixedRun threeSlots.initial).result =
        .ok replies ∧ Answered (fun _ => none) mixedRun replies := by
  obtain ⟨hsafe, hends⟩ := tameRun_answers_like_map tameRun_mixed
  exact ⟨hsafe, hends.of_returns mixedRun_returns⟩

/-- The pool does not show: runs over pools of any two sizes, with any two
cooling tables and any draws, reply the same. -/
theorem tameRun_replies_agree {c c' : TreeConfig} {ops : List Op}
    {replies replies' : List Reply} (h : TameRun c ops)
    (h' : TameRun c' ops ∨ NeverFills c' ops) (hops : ∀ op ∈ ops, op.IsPoint)
    (hreplies : (freshRun ops c.initial).result = .ok replies)
    (hreplies' : (freshRun ops c'.initial).result = .ok replies') :
    replies = replies' := by
  have htame : ∀ {c : TreeConfig} {replies : List Reply}, TameRun c ops →
      (freshRun ops c.initial).result = .ok replies →
      Answered (fun _ => none) ops replies := by
    intro c replies h hreplies
    rcases h.ends.2 with hexit | hend
    · rw [hreplies] at hexit
      cases hexit
    · obtain ⟨rs, hresult, hend⟩ := hend
      rw [hreplies, Except.ok.injEq] at hresult
      exact hresult ▸ hend.replied.answered
  have hanswered' : Answered (fun _ => none) ops replies' := by
    rcases h' with h' | h'
    · exact htame h' hreplies'
    · obtain ⟨_, rs, hresult, hanswered, _⟩ := freshRun_warm h'
      rw [hreplies', Except.ok.injEq] at hresult
      exact hresult ▸ hanswered
  exact (htame h hreplies).unique hops hanswered'

/-- The run replies the same with evictions and without. -/
theorem tameRun_replies_agree_mixed :
    ∃ replies, (freshRun mixedRun threeSlots.initial).result = .ok replies ∧
      (freshRun mixedRun sixPages.initial).result = .ok replies := by
  obtain ⟨replies, hreplies⟩ := mixedRun_returns
  obtain ⟨_, replies', hreplies', _⟩ := freshRun_warm neverFills_mixed
  have hpoint : ∀ op ∈ mixedRun, op.IsPoint := by
    intro op hop
    rcases List.mem_append.mp hop with hinsert | hrest
    · obtain ⟨i, _, rfl⟩ := List.mem_map.mp hinsert
      trivial
    · simp only [List.mem_cons, List.not_mem_nil, or_false] at hrest
      rcases hrest with rfl | rfl | rfl | rfl | rfl | rfl | rfl <;> trivial
  have hagree := tameRun_replies_agree tameRun_mixed (Or.inr neverFills_mixed)
    hpoint hreplies hreplies'
  exact ⟨replies, hreplies, hagree ▸ hreplies'⟩

/-- A scan after a tame run gives up or reads to the limit of one leaf. -/
theorem TameRun.rangeScan {c : TreeConfig} {ops : List Op}
    {replies : List Reply} (h : TameRun c ops)
    (hreplies : (freshRun ops c.initial).result = .ok replies) (k : Key)
    (num : ℕ) :
    let s := (freshRun ops c.initial).state
    let scan := LeanStoreTree.rangeScan k num s
    scan.result = .error .exit0 ∨
      scan.result = .ok (cutListing (mapOf ops) k (s.scanLimit k) num) := by
  intro s scan
  obtain ⟨R, F, htree, hm⟩ := h.treeOf hreplies
  have hmeets := htree.rangeScan_meets tolerates_smallContract hm k num
  obtain ⟨_, hpost⟩ := hmeets fun _ _ => trivial
  cases hresult : scan.result with
  | error e =>
      rw [hresult] at hpost
      exact Or.inl (congrArg Except.error hpost)
  | ok entries =>
      rw [hresult] at hpost
      exact Or.inr (congrArg Except.ok hpost.1)

/-- A scan is complete if it returns as many pairs as it may, or its key is
stored and so is nothing from beyond the leaf it reads. -/
theorem tameRun_scan_complete_iff {c : TreeConfig} {ops : List Op}
    {replies : List Reply} (h : TameRun c ops)
    (hreplies : (freshRun ops c.initial).result = .ok replies) (k : Key)
    (num : ℕ) :
    let s := (freshRun ops c.initial).state
    let scan := LeanStoreTree.rangeScan k num s
    scan.result = .error .exit0 ∨ ∃ entries, scan.result = .ok entries ∧
      entries = cutListing (mapOf ops) k (s.scanLimit k) num ∧
      (entries = (listing (mapOf ops) k ⊤).take num ↔
        entries.length = num ∨ ∀ k', (mapOf ops k').isSome → k ≤ k' →
          (mapOf ops k).isSome ∧ k' ≤ s.scanLimit k) := by
  intro s scan
  rcases h.rangeScan hreplies k num with hexit | hscan
  · exact Or.inl hexit
  · have hiff := cutListing_eq_iff (m := mapOf ops) (k := k) num
      (le_top : s.scanLimit k ≤ ⊤)
    refine Or.inr ⟨_, hscan, rfl, hiff.trans ?_⟩
    simp only [le_top, forall_const]
    exact Iff.rfl

theorem tameRun_scan_complete_iff_mixed :
    let s := (freshRun mixedRun threeSlots.initial).state
    ∃ entries, (LeanStoreTree.rangeScan 25 10 s).result = .ok entries ∧
      entries = cutListing (mapOf mixedRun) 25 (s.scanLimit 25) 10 ∧
      (entries = (listing (mapOf mixedRun) 25 ⊤).take 10 ↔
        entries.length = 10 ∨ ∀ k', (mapOf mixedRun k').isSome → 25 ≤ k' →
          (mapOf mixedRun 25).isSome ∧ k' ≤ s.scanLimit 25) := by
  intro s
  obtain ⟨replies, hreplies⟩ := mixedRun_returns
  obtain ⟨entries, hscan⟩ := exists_of_toBool mixedRun_threeSlots.2.2.2.1
  rcases tameRun_scan_complete_iff tameRun_mixed hreplies 25 10 with
    hexit | hend
  · rw [hscan] at hexit
    cases hexit
  · exact hend

/-- Eviction leaves the tree in shape, and its leaves are chained if and only
if the run split no leaf but the rightmost one. -/
theorem tameRun_wellShaped {c : TreeConfig} {ops : List Op}
    (h : TameRun c ops) :
    EndsIn c ops fun _ s => WellShaped s ∧
      (LeafChain s ↔ SplitRightmost ops (construct c.initial).state) := by
  refine h.ends.2.mono ?_
  intro _ s hend
  obtain ⟨R, F, htree, _⟩ := hend.tree
  exact ⟨htree.wellShaped, hend.chain⟩

theorem tameRun_wellShaped_mixed :
    ∃ replies, (freshRun mixedRun threeSlots.initial).result = .ok replies ∧
      WellShaped (freshRun mixedRun threeSlots.initial).state ∧
        (LeafChain (freshRun mixedRun threeSlots.initial).state ↔
          SplitRightmost mixedRun (construct threeSlots.initial).state) :=
  (tameRun_wellShaped tameRun_mixed).of_returns mixedRun_returns

end CachingDex
