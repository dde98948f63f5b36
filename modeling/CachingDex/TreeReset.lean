import CachingDex.Flush

/-!
# Resetting the pool of a tree

`reset_buffer_pool` zeroes the pool but not the word of `super_root_` that
points into it.  The tree object goes on with a page of zero bytes for its
root, which is neither kind of node: it is read as an empty leaf, and it is
taken for an inner page once it is full.  So the operations after a reset
see an empty map, whether or not the pages were written back, while the
backend keeps what was written.
-/

namespace CachingDex

open Lib Lib.Traced

/-- The root is an untyped page in slot `r` that serves as a leaf for `m`. -/
structure StartedOver (r : ℕ) (m : KeyMap) (s : State) : Prop where
  word : (s.page .superRoot).child 0 = .swizzled (.slot r)
  unset : (s.slotPage r).type = .unset
  count_le : (s.slotPage r).count.toNat ≤ 59
  sorted : SortedEntries (s.slotPage r).entries
  stands : ∀ k, findEntry k (s.slotPage r).entries = m k

section After

variable {s : State} {r : ℕ} {m : KeyMap} {C : Contract State Halt Event}

/-- The entries of the root page are rewritten under one key. -/
theorem StartedOver.edit (h : StartedOver r m s) {p : Page} {k : Key}
    (honly : (s.slotPage r).EntriesOnly p)
    (hspec : EditSpec k (s.slotPage r).entries p.entries) :
    StartedOver r (Function.update m k (findEntry k p.entries))
      (s.setPage (.slot r) p) := by
  obtain ⟨hp, hcount⟩ := honly
  have hself : (s.setPage (.slot r) p).slotPage r = p := State.setPage_self ..
  constructor
  · rw [State.setPage_of_ne (by simp)]
    exact h.word
  · rw [hself, hp]
    exact h.unset
  · rw [hself]
    exact hcount
  · rw [hself]
    exact hspec.sorted
  · intro k'
    rw [hself]
    by_cases hk : k' = k
    · subst hk
      rw [Function.update_self]
    · rw [Function.update_of_ne hk, ← h.stands k']
      apply Option.ext
      intro w
      rw [hspec.sorted.findEntry_eq_some, h.sorted.findEntry_eq_some]
      constructor
      · intro hw
        exact (hspec.new _ hw).resolve_left hk
      · intro hw
        exact hspec.kept _ hw hk

theorem StartedOver.loadRoot (h : StartedOver r m s)
    {Q : PagePtr → State → Prop} (hQ : Q (.slot r) s) :
    Meets C (loadChild .superRoot 0) s Q := by
  unfold loadChild
  apply Meets.bind
  apply meets_gets
  rw [h.word]
  exact meets_pure hQ

theorem StartedOver.leafFor (h : StartedOver r m s) (k : Key)
    {Q : PagePtr → State → Prop} (hQ : Q (.slot r) s) :
    Meets C (leafFor k) s Q := by
  unfold CachingDex.leafFor
  apply Meets.bind
  apply h.loadRoot
  rw [maxLevels, findLeaf]
  apply Meets.bind
  apply meets_gets
  rw [if_neg (by rw [h.unset]; decide)]
  exact meets_pure hQ

theorem StartedOver.editLeaf (h : StartedOver r m s)
    (hC : ∀ call, C.guarantee (.called call)) {k : Key}
    {call : Page → NodeCall} {edit : Page → Bool × Page}
    {f : List (Key × Value) → List (Key × Value)}
    (hedit : EditsAs k call edit f)
    (hless : ∀ entries, SortedEntries entries →
      (f entries).length ≤ entries.length) :
    Meets C (LeanStoreTree.editLeaf k call edit) s fun ok s' =>
      ok = (m k).isSome ∧
        (s'.slotPage r).entries.length ≤ (s.slotPage r).entries.length ∧
        s'.backend = s.backend ∧
        StartedOver r (Function.update m k
          (findEntry k (f (s.slotPage r).entries))) s' := by
  unfold LeanStoreTree.editLeaf
  apply Meets.bind
  apply h.leafFor
  apply Meets.bind
  apply meets_gets
  apply Meets.bind
  apply meets_emit_of (hC _)
  apply Meets.bind
  apply meets_modify
  apply meets_pure
  have honly := (hedit.edits.entriesOnly h.count_le).1
  have hentries : (editedPage edit (s.slotPage r)).entries =
      f (s.slotPage r).entries := by
    rw [entries_editedPage, hedit.entries _ h.count_le h.sorted]
  have hspec := hedit.spec _ h.sorted
  rw [← hentries] at hspec ⊢
  have hafter : (s.setPage (.slot r)
      (editedPage edit (s.slotPage r))).slotPage r =
        editedPage edit (s.slotPage r) := State.setPage_self ..
  refine ⟨?_, ?_, rfl, h.edit honly hspec⟩
  · rw [hedit.result _ h.count_le h.sorted, h.stands]
  · change ((s.setPage (.slot r)
      (editedPage edit (s.slotPage r))).slotPage r).entries.length ≤ _
    rw [hafter, hentries]
    exact hless _ h.sorted

theorem StartedOver.insert (h : StartedOver r m s)
    (hC : ∀ call, C.guarantee (.called call)) (k : Key) (v : Value)
    (hroom : (s.slotPage r).entries.length < 59) :
    Meets C (LeanStoreTree.insert k v) s fun ok s' =>
      ok = (m k).isNone ∧
        (s'.slotPage r).entries.length ≤ (s.slotPage r).entries.length + 1 ∧
        s'.backend = s.backend ∧
        StartedOver r (Function.update m k (some v)) s' := by
  rw [Page.length_entries h.count_le] at hroom
  have hunset : (s.slotPage r).type ≠ .btreeLeaf := by
    rw [h.unset]
    decide
  have hnotInner : (s.slotPage r).type ≠ .btreeInner := by
    rw [h.unset]
    decide
  -- the page is not a leaf, so it is asked for room as an inner page
  have hfull : isFull (s.slotPage r) = false := by
    rw [isFull, if_neg hunset, BTreeInner.isFull, decide_eq_false_iff_not,
      ← UInt8.toNat_inj]
    exact hroom.ne
  obtain ⟨hresult, hentries⟩ :=
    BTreeLeaf.insert_spec h.count_le h.sorted hroom (k := k) (v := v)
  obtain ⟨⟨honly, hcount⟩, _⟩ :=
    BTreeLeaf.insert_entriesOnly hroom (k := k) (v := v)
  let p : Page := { (BTreeLeaf.insert (s.slotPage r) k v).2 with dirty := true }
  have hentries' : p.entries = putEntry k v (s.slotPage r).entries := hentries
  have hedit : (s.slotPage r).EntriesOnly p := by
    refine ⟨?_, hcount⟩
    simp only [p]
    rw [honly]
  have hspec := editSpec_put h.sorted v (k := k)
  rw [← hentries'] at hspec
  have hstands := h.edit hedit hspec
  rw [hentries', findEntry_putEntry h.sorted] at hstands
  have hafter : (s.setPage (.slot r) p).slotPage r = p := State.setPage_self ..
  have hlength : ((s.setPage (.slot r) p).slotPage r).entries.length ≤
      (s.slotPage r).entries.length + 1 := by
    rw [hafter, hentries']
    exact length_putEntry_le k v _
  rw [h.stands] at hresult
  unfold LeanStoreTree.insert
  apply Meets.bind
  unfold rootForInsert
  apply Meets.bind
  apply h.loadRoot
  apply Meets.bind
  apply meets_gets
  rw [hfull]
  apply meets_pure
  apply Meets.bind
  rw [maxLevels, findLeafSplitting]
  apply Meets.bind
  apply meets_gets
  rw [if_neg hnotInner]
  apply meets_pure
  apply Meets.bind
  apply meets_gets
  apply Meets.bind
  apply meets_emit_of (hC _)
  apply Meets.bind
  apply meets_modify
  exact meets_pure ⟨hresult, hlength, rfl, hstands⟩

/-- What an operation leaves of a root page that serves as a leaf. -/
structure LeafStep (r : ℕ) (m : KeyMap) (added : ℕ) (s s' : State) :
    Prop where
  stands : StartedOver r m s'
  length_le : (s'.slotPage r).entries.length ≤
    (s.slotPage r).entries.length + added
  backend : s'.backend = s.backend

theorem StartedOver.run_op (h : StartedOver r m s)
    (hC : ∀ call, C.guarantee (.called call)) (op : Op)
    (hroom : (s.slotPage r).entries.length + op.inserts ≤ 59) :
    Meets C op.run s fun reply s' =>
      op.Answers m reply ∧ LeafStep r (op.effect m) op.inserts s s' := by
  have hread : LeafStep r m 0 s s := ⟨h, le_rfl, rfl⟩
  cases op with
  | insert k v =>
      apply Meets.bind
      refine (h.insert hC k v (Nat.lt_of_succ_le hroom)).mono ?_
      intro ok s' hs'
      obtain ⟨rfl, hlength, hbackend, hstands⟩ := hs'
      exact meets_pure ⟨rfl, hstands, hlength, hbackend⟩
  | lookup k =>
      apply Meets.bind
      unfold LeanStoreTree.lookup
      apply Meets.bind
      apply h.leafFor
      apply Meets.bind
      apply meets_gets
      apply meets_pure
      have hfind : BTreeLeaf.find (s.slotPage r) k = m k := by
        rw [BTreeLeaf.find_eq h.count_le h.sorted, h.stands]
      exact meets_pure ⟨congrArg Reply.value hfind, hread⟩
  | update k v =>
      apply Meets.bind
      refine (h.editLeaf hC (editsAs_update k v) ?_).mono ?_
      · intro entries hsorted
        split
        · rename_i hsome
          exact (hsorted.length_putEntry hsome v).le
        · exact le_rfl
      intro ok s' hs'
      obtain ⟨rfl, hlength, hbackend, hstands⟩ := hs'
      refine meets_pure ⟨rfl, ?_, hlength, hbackend⟩
      rw [h.stands] at hstands
      rw [Op.effect]
      split at hstands
      · rename_i hsome
        rw [if_pos hsome]
        rwa [findEntry_putEntry h.sorted] at hstands
      · rename_i hnone
        rw [if_neg hnone]
        rwa [h.stands, Function.update_eq_self] at hstands
  | remove k =>
      apply Meets.bind
      refine (h.editLeaf hC (editsAs_remove k)
        fun entries _ => length_dropEntry_le k entries).mono ?_
      intro ok s' hs'
      obtain ⟨rfl, hlength, hbackend, hstands⟩ := hs'
      refine meets_pure ⟨rfl, ?_, hlength, hbackend⟩
      rwa [findEntry_dropEntry h.sorted] at hstands
  | rangeScan k num =>
      apply Meets.bind
      unfold LeanStoreTree.rangeScan
      apply Meets.bind
      apply h.leafFor
      apply Meets.bind
      apply meets_gets
      apply meets_pure
      exact meets_pure ⟨⟨_, rfl⟩, hread⟩

theorem StartedOver.runOps (h : StartedOver r m s)
    (hC : ∀ call, C.guarantee (.called call)) (ops : List Op)
    (hroom : (s.slotPage r).entries.length + inserts ops ≤ 59) :
    Meets C (runOps ops) s fun replies s' =>
      Answered m ops replies ∧ s'.backend = s.backend := by
  induction ops generalizing m s with
  | nil => exact meets_pure ⟨trivial, rfl⟩
  | cons op ops ih =>
      have hsum : inserts (op :: ops) = op.inserts + inserts ops := by
        simp [inserts]
      unfold CachingDex.runOps
      apply Meets.bind
      refine (h.run_op hC op (by omega)).mono ?_
      intro reply s' hs'
      obtain ⟨hreply, hstep⟩ := hs'
      have hlength := hstep.length_le
      apply Meets.bind
      refine (ih hstep.stands (by omega)).mono ?_
      intro replies t ht
      exact meets_pure ⟨⟨hreply, ht.1⟩, ht.2.trans hstep.backend⟩

end After

/-! ## The reset -/

theorem startedOver_zero {s : State} {r : ℕ}
    (hword : (s.page .superRoot).child 0 = .swizzled (.slot r))
    (hzero : s.slotPage r = Page.zero) :
    StartedOver r (fun _ => none) s := by
  have hentries : (s.slotPage r).entries = [] := by
    rw [hzero]
    rfl
  constructor
  · exact hword
  · rw [hzero]
    rfl
  · rw [hzero]
    exact Nat.zero_le 59
  · rw [hentries]
    exact List.Pairwise.nil
  · intro k
    rw [hentries]
    rfl

/-- A reset writes the pages back if it is told to, and leaves the tree
object with a page of zero bytes for its root. -/
theorem Tree.resetCache_meets {C : Contract State Halt Event}
    (hwritten : ∀ b, C.guarantee (.written b))
    (hindexed : ∀ indices, C.guarantee (.indexed indices)) {R : Set ℕ}
    {s : State} {F : TreeForest} (h : Tree R s F) (flushDirty : Bool) :
    Meets C (resetCache flushDirty) s fun _ s' => ∃ r t, Tree R t F ∧
      t.root = s.root ∧ s'.backend = t.backend ∧
      (flushDirty = true → ∀ i ∈ R, (t.slotPage i).dirty = false) ∧
      s'.slotPage r = Page.zero ∧
      (s'.page .superRoot).child 0 = .swizzled (.slot r) := by
  have hflush : Meets C (onlyIf flushDirty flushAll) s fun _ t =>
      Tree R t F ∧ t.root = s.root ∧
        (flushDirty = true → ∀ i ∈ R, (t.slotPage i).dirty = false) := by
    apply meets_onlyIf
    · intro _
      refine (h.flushAll_meets hwritten hindexed).mono ?_
      intro _ t ht
      obtain ⟨hconsistent, hflushed⟩ := ht
      have hsteady := hflushed.steady
      refine ⟨h.of_steady hconsistent hsteady, hsteady.root, fun _ i hi => ?_⟩
      have hpool := hconsistent.ready.settled.pool
      have hlt := (hpool.resident_iff.mp hi).1.trans_le hpool.head_le
      rw [hflushed.steady.pageNum] at hlt
      rw [hflushed.clean hlt]
    · intro hkeep
      refine ⟨h, rfl, fun hflush => ?_⟩
      rw [hkeep] at hflush
      cases hflush
  unfold resetCache
  apply Meets.bind
  refine hflush.mono ?_
  intro _ t ht
  obtain ⟨htree, hroot, hclean⟩ := ht
  obtain ⟨r, hr⟩ := htree.rooted
  have hpool := htree.ready.settled.pool
  have hlt := (hpool.resident_iff.mp hr.mem).1.trans_le hpool.head_le
  apply meets_modify
  exact ⟨r, t, htree, hroot, rfl, hclean, if_pos hlt, hr.word⟩

/-- A tree is reset without a failure and starts over as an empty map. -/
theorem Tree.resetCache_returns {R : Set ℕ} {s : State} {F : TreeForest}
    {m : KeyMap} (h : Tree R s F) (hm : Represents F m) (flushDirty : Bool)
    (later : List Op) (hlater : inserts later ≤ 59) :
    let reset := resetCache flushDirty s
    let out := runOps later reset.state
    reset.result = .ok () ∧
      (∃ rs, out.result = .ok rs ∧ Answered (fun _ => none) later rs) ∧
      (flushDirty = true → ∀ k v g, Btree.Returns
        (fun fuel => Btree.lookup fuel s.root
          (fun offset => out.state.backend.store offset) k v g)
        (lookupCode m k v g)) := by
  intro reset out
  have hreset := h.resetCache_meets (C := flushContract)
    (fun _ => trivial) (fun _ => trivial) flushDirty
  obtain ⟨_, hpost⟩ := hreset fun _ _ => trivial
  cases hresult : reset.result with
  | error e =>
      rw [hresult] at hpost
      exact hpost.elim
  | ok u =>
      rw [hresult] at hpost
      obtain ⟨r, t, htree', hroot, hbackend, hclean, hzero, hword⟩ := hpost
      have hstart := startedOver_zero hword hzero
      have hentries : (reset.state.slotPage r).entries = [] := by
        rw [hzero]
        rfl
      have hroom : (reset.state.slotPage r).entries.length +
          inserts later ≤ 59 := by
        rw [hentries, List.length_nil, Nat.zero_add]
        exact hlater
      have hrun := hstart.runOps (C := flushContract) (fun _ => trivial) later
        hroom
      obtain ⟨_, hend⟩ := hrun fun _ _ => trivial
      cases hout : out.result with
      | error e =>
          rw [hout] at hend
          exact hend.elim
      | ok rs =>
          rw [hout] at hend
          obtain ⟨hanswered, hkept⟩ := hend
          refine ⟨rfl, ⟨rs, rfl, hanswered⟩, fun hflush k v g => ?_⟩
          have hlookup := htree'.lookup_backend hm (hclean hflush) k v g
          rwa [hroot, ← hbackend, ← hkept] at hlookup

/-- After a reset the tree object serves an empty map as long as one page can
hold it, and what was written back stays in the backend, where a memory node
still finds the old map. -/
theorem tameRun_resetBufferPool {c : TreeConfig} {ops : List Op}
    {replies : List Reply} (h : TameRun c ops)
    (hreplies : (freshRun ops c.initial).result = .ok replies)
    (flushDirty : Bool) (later : List Op) (hlater : inserts later ≤ 59) :
    let s := (freshRun ops c.initial).state
    let reset := LeanStoreTree.resetBufferPool flushDirty s
    let out := runOps later reset.state
    reset.result = .ok () ∧
      (∃ rs, out.result = .ok rs ∧ Answered (fun _ => none) later rs) ∧
      (flushDirty = true → ∀ k v g, Btree.Returns
        (fun fuel => Btree.lookup fuel s.root
          (fun offset => out.state.backend.store offset) k v g)
        (lookupCode (mapOf ops) k v g)) := by
  intro s reset out
  obtain ⟨R, F, htree, hm⟩ := h.treeOf hreplies
  exact htree.resetCache_returns hm flushDirty later hlater

/-- A key that was stored before the reset, and one that is stored after. -/
def afterReset : List Op :=
  [.lookup 45, .insert 5 7, .lookup 5, .remove 45]

theorem tameRun_resetBufferPool_mixed :
    let s := (freshRun mixedRun threeSlots.initial).state
    let reset := LeanStoreTree.resetBufferPool true s
    let out := runOps afterReset reset.state
    reset.result = .ok () ∧
      (∃ rs, out.result = .ok rs ∧ Answered (fun _ => none) afterReset rs) ∧
      ∀ k v g, Btree.Returns
        (fun fuel => Btree.lookup fuel s.root
          (fun offset => out.state.backend.store offset) k v g)
        (lookupCode (mapOf mixedRun) k v g) := by
  obtain ⟨replies, hreplies⟩ := mixedRun_returns
  obtain ⟨hreset, hlater, hkept⟩ := tameRun_resetBufferPool tameRun_mixed
    hreplies true afterReset (by decide)
  exact ⟨hreset, hlater, hkept rfl⟩

end CachingDex
