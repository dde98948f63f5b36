import CachingDex.AllocatorCalls
import CachingDex.SlotTurns

/-!
# Resetting the cache manager

A manager on its own serves calls of `get_empty_page`, `cache_insert` and
`sample_page`, and between them the caller writes the pages it was handed.
`reset` sets the allocator and both tables back but leaves the free list.
So the slots of the free list are handed out once more by the allocator and
then from the list, without having been evicted in between.
-/

namespace CachingDex

open Lib Lib.Traced

instance (p : Page) : Decidable p.InUse :=
  inferInstanceAs (Decidable (_ ∨ _))

/-- A call of the manager or a write of its caller.  The caller may fill a
slot it asked for, and it may write the pages it has in use. -/
inductive PoolCall where
  | getEmptyPage (content : Option Page)
  | cacheInsert (globalNode : SlotRef) (cacheNode : Page)
      (parentPtr : PagePtr)
  | samplePage
  | write (p : PagePtr) (page : Page)

namespace PoolCall

def run : PoolCall → M Unit
  | getEmptyPage content => do
      let page ← CachingDex.getEmptyPage
      modifyPage page fun p => content.getD p
  | cacheInsert globalNode cacheNode parentPtr => do
      let _ ← CachingDex.cacheInsert globalNode cacheNode parentPtr
      pure ()
  | samplePage => CachingDex.samplePage
  | write p page =>
      modify fun s => if (s.page p).InUse then s.setPage p page else s

end PoolCall

def runCalls : List PoolCall → M Unit
  | [] => pure ()
  | call :: calls => do
      call.run
      runCalls calls

section Turns

variable {log : List Event} {H : Set ℕ} {s : State}

theorem cacheInsert_turns (h : Turning log H s) (globalNode : SlotRef)
    (cacheNode : Page) (parentPtr : PagePtr) :
    Records slotExchange.InTurn log
      (cacheInsert globalNode cacheNode parentPtr) s
      fun _ log' s' => ∃ H', Turning log' H' s' := by
  unfold cacheInsert
  apply Records.bind
  refine (getEmptyPage_turns h).mono ?_
  intro page log' t ht
  obtain ⟨v, rfl, hv, hturning⟩ := ht
  apply Records.bind
  apply records_modify
  obtain ⟨H', hwritten⟩ := hturning.write (Or.inl (Set.mem_insert v H))
    { cacheNode with posState := .pin, parentPtr := some parentPtr }
  match globalNode with
  | .variable addr =>
      apply Records.bind
      refine (hwritten.quiet (upsertPageTable_quiet addr (.slot v))).mono ?_
      intro _ _ _ hs
      exact records_pure ⟨H', hs.1⟩
  | .childOf parent idx =>
      apply Records.bind
      apply records_gets
      apply Records.bind
      have hset : ∀ p : Page,
          (p.setChild idx (.swizzled (.slot v))).posState = p.posState :=
        fun _ => rfl
      refine (hwritten.quiet (quiet_modifyPage parent hset)).mono ?_
      intro _ log'' t' ht'
      split
      · rename_i addr _
        apply Records.bind
        refine (ht'.1.quiet (upsertPageTable_quiet addr (.slot v))).mono ?_
        intro _ _ _ hs
        exact records_pure ⟨H', hs.1⟩
      · apply Records.bind
        exact records_halt ht'.1.inTurn

/-- One call keeps the history in turn. -/
theorem PoolCall.run_turns (h : Turning log H s) (call : PoolCall) :
    Records slotExchange.InTurn log call.run s
      fun _ log' s' => ∃ H', Turning log' H' s' := by
  cases call with
  | getEmptyPage content =>
      apply Records.bind
      refine (getEmptyPage_turns h).mono ?_
      intro page log' t ht
      obtain ⟨v, rfl, hv, hturning⟩ := ht
      apply records_modify
      exact hturning.write (Or.inl (Set.mem_insert v H)) _
  | cacheInsert globalNode cacheNode parentPtr =>
      apply Records.bind
      refine (cacheInsert_turns h globalNode cacheNode parentPtr).mono ?_
      intro _ _ _ hs
      exact records_pure hs
  | samplePage =>
      refine (samplePage_turns h).mono ?_
      intro _ _ _ hs
      exact ⟨H, hs⟩
  | write p page =>
      apply records_modify
      split_ifs with hin
      · obtain ⟨c, _, rfl, _⟩ := h.resident hin
        exact h.write (Or.inr hin) page
      · exact ⟨H, h⟩

theorem runCalls_turns (h : Turning log H s) (calls : List PoolCall) :
    Records slotExchange.InTurn log (runCalls calls) s
      fun _ log' s' => ∃ H', Turning log' H' s' := by
  induction calls generalizing log H s with
  | nil => exact records_pure ⟨H, h⟩
  | cons call calls ih =>
      unfold runCalls
      apply Records.bind
      refine (call.run_turns h).mono ?_
      intro _ log' t ht
      obtain ⟨H', hturning⟩ := ht
      exact ih hturning

end Turns

/-! ## A pool whose free list is empty -/

/-- Nothing is placed in the pool, and nothing in it is in use. -/
structure Vacant (s : State) : Prop where
  headIdx : s.allocator.headIdx = 0
  dynamic : s.dynamic = false
  empty : ∀ j, (s.hashTable.table j).count = 0
  notInUse : ∀ p, ¬ (s.page p).InUse

theorem Vacant.turning {s : State} (h : Vacant s)
    (hlist : s.localPageSet = []) : Turning [] ∅ s := by
  have hpages : ∀ {j p}, p ∉ (s.spanned.hashTable.table j).pages := by
    intro j p
    rw [Bucket.pages, show (s.spanned.hashTable.table j).count = 0 from
      h.empty j, live_zero]
    simp
  have hnone : ∀ {p}, p ∉ s.spanned.localPageSet := by
    intro p
    rw [show s.spanned.localPageSet = [] from hlist]
    simp
  have hhead : s.spanned.allocator.headIdx = 0 := h.headIdx
  refine ⟨⟨∅, ?_⟩, by simp [h.headIdx], slotExchange.inTurn_nil, ?_, ?_,
    ?_⟩
  · constructor
    · rw [hhead]
      exact Nat.zero_le _
    · rw [show s.spanned.dynamic = false from h.dynamic, hhead]
      simp only [State.spanned, Bool.false_eq_true, false_iff]
      omega
    · simp only [State.spanned]
      split_ifs with hzero
      · positivity
      · exact Nat.pos_of_ne_zero hzero
    · intro j _
      rw [show (s.spanned.hashTable.table j).count = 0 from h.empty j]
      exact Nat.zero_le _
    · intro j p _ hp
      exact absurd hp hpages
    · intro j _
      rw [Bucket.pages, show (s.spanned.hashTable.table j).count = 0 from
        h.empty j, live_zero]
      exact List.nodup_nil
    · intro j j' p _ _ hp
      exact absurd hp hpages
    · rw [show s.spanned.localPageSet = [] from hlist]
      exact List.nodup_nil
    · intro p hp
      exact absurd hp hnone
    · intro i hi
      exact absurd hi (Set.notMem_empty i)
    · intro i
      rw [hhead]
      simp
    · intro i hi
      rw [hhead] at hi
      exact absurd hi (Nat.not_lt_zero i)
  · intro p hp
    rw [hlist] at hp
    simp at hp
  · intro i _
    exact slotExchange.home_nil _
  · intro p hp
    exact absurd hp (h.notInUse p)

theorem vacant_initial (c : TreeConfig) : Vacant c.initial where
  headIdx := rfl
  dynamic := rfl
  empty _ := rfl
  notInUse _ := Page.not_inUse (x := .remote) rfl (by decide) (by decide)

/-- A run of calls on a new manager leaves a history in turn. -/
theorem turning_of_run {c : TreeConfig} {calls : List PoolCall}
    (hrun : (runCalls calls c.initial).result = .ok ()) :
    ∃ log H, Turning log H (runCalls calls c.initial).state := by
  have hturns := runCalls_turns ((vacant_initial c).turning rfl) calls
  rw [Records, hrun] at hturns
  obtain ⟨H, hturning⟩ := hturns
  exact ⟨_, H, hturning⟩

/-! ## The reset -/

theorem flushPage_quiet (cur : PagePtr) : Quiet (flushPage cur) := by
  apply Quiet.bind (quiet_gets _)
  intro p
  apply quiet_onlyIf
  apply Quiet.bind (quiet_check _ _)
  intro _
  apply Quiet.bind
  · exact quiet_modify fun _ => ⟨rfl, rfl, rfl, rfl, fun _ => rfl⟩
  · intro _
    apply Quiet.bind (quiet_gets _)
    intro buffer
    apply Quiet.bind (writeImage_quiet _ buffer)
    intro _
    apply Quiet.bind (quiet_emit (w := .written p.obsolete) trivial)
    intro _
    exact quiet_modifyPage cur fun _ => rfl

theorem flushFrom_quiet (n i : ℕ) : Quiet (flushFrom n i) := by
  induction n generalizing i with
  | zero => exact quiet_pure ()
  | succ n ih =>
      apply Quiet.bind (quiet_gets _)
      intro pageNum
      apply Quiet.bind (quiet_indexed _)
      intro _
      apply Quiet.bind (flushPage_quiet (.slot i))
      intro _
      exact ih (i + 1)

theorem flushAll_quiet : Quiet flushAll := by
  apply Quiet.bind
  · exact quiet_modify fun _ => ⟨rfl, rfl, rfl, rfl, fun _ => rfl⟩
  · intro _
    apply Quiet.bind (quiet_gets _)
    intro pageNum
    exact flushFrom_quiet pageNum 0

/-- The reset empties the pool and leaves the free list. -/
theorem resetCache_vacant {log : List Event} {H : Set ℕ} {s : State}
    (h : Turning log H s) (flushDirty : Bool)
    {J : List Event → Prop}
    (hJ : flushDirty = true → ∀ log', Noted [] log' → J log') :
    Records J [] (resetCache flushDirty) s fun _ log' s' =>
      Noted [] log' ∧ Vacant s' ∧ s'.localPageSet = s.localPageSet ∧
        s'.allocator.pageNum = s.allocator.pageNum := by
  have hflush : Records J [] (onlyIf flushDirty flushAll) s
      fun _ log' t => Noted [] log' ∧ Undisturbed s t :=
    records_onlyIf (fun hflush => flushAll_quiet J [] s (hJ hflush))
      fun _ => ⟨.refl [], .refl s⟩
  apply Records.bind
  refine hflush.mono ?_
  intro _ log' t ht
  obtain ⟨hlog, hsame⟩ := ht
  apply records_modify
  have hnum : t.allocator.pageNum = s.allocator.pageNum := by
    rw [hsame.allocator]
  refine ⟨hlog, ⟨rfl, rfl, fun _ => rfl, ?_⟩, hsame.localPageSet, hnum⟩
  intro p hp
  have hslot : ∀ {q}, (t.page q).InUse → ∃ i < s.allocator.pageNum,
      q = .slot i := by
    intro q hq
    obtain ⟨i, hi, rfl, _⟩ := h.inUse (hsame.inUse.mp hq)
    exact ⟨i, hi.trans_le h.head_le, rfl⟩
  cases p with
  | superRoot =>
      obtain ⟨i, _, hi⟩ := hslot (q := .superRoot) hp
      cases hi
  | slot i =>
      dsimp only at hp
      split_ifs at hp with hlt
      · exact Page.not_inUse (x := .remote) rfl (by decide) (by decide) hp
      · obtain ⟨j, hj, hij⟩ := hslot hp
        obtain rfl : i = j := by simpa using hij
        exact hlt (hnum ▸ hj)
  | ioFlag =>
      obtain ⟨i, _, hi⟩ := hslot (q := .ioFlag) hp
      cases hi

def resetThenCalls (flushDirty : Bool) (calls : List PoolCall) : M Unit := do
  resetCache flushDirty
  runCalls calls

section Reset

variable {log : List Event} {H : Set ℕ} {s : State}

/-- A reset with an empty free list starts a history in turn. -/
theorem inTurn_of_empty (h : Turning log H s) (hlist : s.localPageSet = [])
    (flushDirty : Bool) (calls : List PoolCall) :
    slotExchange.InTurn (resetThenCalls flushDirty calls s).trace := by
  have hrun : Records slotExchange.InTurn [] (resetThenCalls flushDirty calls)
      s fun _ log' _ => slotExchange.InTurn log' := by
    apply Records.bind
    have hflushed : ∀ log', Noted [] log' → slotExchange.InTurn log' := by
      intro log' hlog
      obtain ⟨x, rfl, hx⟩ := hlog
      exact slotExchange.inTurn_nil.append (Noted.not_handedOut hx)
    refine (resetCache_vacant h flushDirty fun _ => hflushed).mono ?_
    intro _ log' t ht
    obtain ⟨hlog, hvacant, hlocal, _⟩ := ht
    refine (runCalls_turns ((hvacant.turning (hlocal.trans hlist)).noted
      hlog) calls).mono ?_
    intro _ _ _ hs
    obtain ⟨_, hturning⟩ := hs
    exact hturning.inTurn
  simpa using hrun.history fun _ _ _ hs => hs

/-- In the warm-up phase the next slot of the allocator is handed out. -/
theorem getEmptyPage_warm {J : List Event → Prop}
    (hdynamic : s.dynamic = false)
    (hroom : s.allocator.headIdx < s.allocator.pageNum) :
    Records J log getEmptyPage s fun _ log' s' =>
      log' = log ++ [.indexed [(s.allocator.headIdx, s.allocator.pageNum)],
          .handedOut (.slot s.allocator.headIdx)] ∧
        s'.allocator.headIdx = s.allocator.headIdx + 1 ∧
        s'.allocator.pageNum = s.allocator.pageNum ∧
        s'.dynamic =
          decide (s.allocator.headIdx = s.allocator.pageNum - 1) ∧
        s'.localPageSet = s.localPageSet := by
  unfold getEmptyPage
  apply Records.bind
  apply records_gets
  unfold getEmptyPageLoop tryGetEmptyPage
  apply Records.bind
  apply Records.bind
  apply records_gets
  rw [hdynamic, if_neg (by simp)]
  unfold allocatePage
  apply Records.bind
  apply records_gets
  apply Records.bind
  apply records_gets
  rw [CacheAllocator.allocate_of_lt hroom]
  apply Records.bind
  apply records_modify
  apply Records.bind
  apply records_emit
  apply records_pure
  apply Records.bind
  apply records_emit
  apply records_pure
  refine ⟨by simp, rfl, rfl, ?_, rfl⟩
  simp [hdynamic]

/-- In the dynamic phase the free list is used first. -/
theorem getEmptyPage_listed {J : List Event → Prop}
    (hdynamic : s.dynamic = true) {p : PagePtr} {rest : List PagePtr}
    (hlist : s.localPageSet = p :: rest) :
    Records J log getEmptyPage s fun _ log' _ =>
      log' = log ++ [.recycled] ++ [.handedOut p] := by
  unfold getEmptyPage
  apply Records.bind
  apply records_gets
  unfold getEmptyPageLoop tryGetEmptyPage
  apply Records.bind
  apply Records.bind
  apply records_gets
  rw [hdynamic, if_pos rfl]
  apply Records.bind
  apply records_emit
  unfold recyclePage getLocalPageSet
  apply Records.bind
  apply Records.bind
  apply records_gets
  rw [hlist]
  apply Records.bind
  apply records_modify
  apply records_pure
  apply records_pure
  apply Records.bind
  apply records_emit
  exact records_pure rfl

/-- Asking for one slot more than the allocator has left ends in a slot of
the free list, although the allocator has handed it out as well. -/
theorem outOfTurn_of_listed {J : List Event → Prop} {k i : ℕ}
    {rest : List PagePtr}
    (hk : s.allocator.headIdx + k = s.allocator.pageNum)
    (hdynamic : s.dynamic = true ↔ k = 0)
    (hlist : s.localPageSet = .slot i :: rest)
    (hi : i < s.allocator.pageNum)
    (hout : i < s.allocator.headIdx → .handedOut (.slot i) ∈ log)
    (hback : .evicted (.slot i) ∉ log) :
    Records J log (runCalls (List.replicate (k + 1) (.getEmptyPage none))) s
      fun _ log' _ => ¬ slotExchange.InTurn log' := by
  induction k generalizing log s with
  | zero =>
      apply Records.bind
      apply Records.bind
      refine (getEmptyPage_listed (hdynamic.mpr rfl) hlist).mono ?_
      intro page log' t hlog
      apply records_modify
      apply records_pure
      rw [hlog]
      intro hturns
      obtain ⟨_, hhome⟩ := Exchange.inTurn_append_out.mp hturns
      have hmem : slotExchange.back (.slot i) ∈ log ++ [.recycled] :=
        hhome.mem_back (List.mem_append_left _ (hout (by omega)))
      rcases List.mem_append.mp hmem with hmem | hmem
      · exact hback hmem
      · simp [slotExchange] at hmem
  | succ k ih =>
      have hwarm : s.dynamic = false := by
        rw [Bool.eq_false_iff]
        intro hdyn
        exact absurd (hdynamic.mp hdyn) (Nat.succ_ne_zero k)
      apply Records.bind
      apply Records.bind
      refine (getEmptyPage_warm hwarm (by omega)).mono ?_
      intro page log' t ht
      obtain ⟨rfl, hhead, hnum, hdyn, hlocal⟩ := ht
      apply records_modify
      apply ih
      · change t.allocator.headIdx + k = t.allocator.pageNum
        omega
      · change t.dynamic = true ↔ k = 0
        rw [hdyn, decide_eq_true_eq]
        omega
      · exact hlocal.trans hlist
      · exact hnum.symm ▸ hi
      · intro hlt
        have hlt : i < t.allocator.headIdx := hlt
        rcases Nat.lt_succ_iff_lt_or_eq.mp (hhead ▸ hlt) with hlt | rfl
        · exact List.mem_append_left _ (hout hlt)
        · simp
      · simpa using hback

/-- A reset with a slot on the free list lets it be handed out twice. -/
theorem not_inTurn_of_listed (h : Turning log H s) {p : PagePtr}
    {rest : List PagePtr} (hlist : s.localPageSet = p :: rest) :
    ¬ slotExchange.InTurn (resetThenCalls false
      (List.replicate (s.allocator.pageNum + 1) (.getEmptyPage none))
        s).trace := by
  obtain ⟨R, hpool⟩ := h.pool
  have hp : p ∈ s.spanned.localPageSet := by
    rw [show s.spanned.localPageSet = p :: rest from hlist]
    exact List.mem_cons_self
  obtain ⟨i, hi, rfl, _⟩ := hpool.listed hp
  have hlt : i < s.allocator.pageNum := hi.trans_le h.head_le
  have hrun : Records (fun log' => ¬ slotExchange.InTurn log') []
      (resetThenCalls false
        (List.replicate (s.allocator.pageNum + 1) (.getEmptyPage none)))
      s fun _ log' _ => ¬ slotExchange.InTurn log' := by
    apply Records.bind
    refine (resetCache_vacant h false (by simp)).mono ?_
    intro _ log' t ht
    obtain ⟨hlog, hvacant, hlocal, hnum⟩ := ht
    apply outOfTurn_of_listed
    · rw [hvacant.headIdx, hnum, Nat.zero_add]
    · rw [hvacant.dynamic]
      simp only [Bool.false_eq_true, false_iff]
      omega
    · exact hlocal.trans hlist
    · omega
    · intro hhead
      rw [hvacant.headIdx] at hhead
      omega
    · intro hmem
      exact List.not_mem_nil (hlog.mem hmem id)
  simpa using hrun.history fun _ _ _ hs => hs

end Reset

/-- After a run on a new manager, a reset gives back a pool that hands out
its slots in turn, whatever calls follow, exactly when no slot is on the free
list at the reset. -/
theorem reset_inTurn_iff (c : TreeConfig) (calls : List PoolCall)
    (hrun : (runCalls calls c.initial).result = .ok ()) :
    (∀ flushDirty calls', slotExchange.InTurn (resetThenCalls flushDirty calls'
      (runCalls calls c.initial).state).trace) ↔
      (runCalls calls c.initial).state.localPageSet = [] := by
  obtain ⟨_, _, hturning⟩ := turning_of_run hrun
  constructor
  · intro hall
    by_contra hne
    obtain ⟨p, rest, hlist⟩ := List.exists_cons_of_ne_nil hne
    exact not_inTurn_of_listed hturning hlist (hall false _)
  · intro hlist flushDirty calls'
    exact inTurn_of_empty hturning hlist flushDirty calls'

/-- Eight slots, a cooling table of one bucket, and draws that select one
slot after the other. -/
def smallPool : TreeConfig where
  pageNum := 8
  entryNum := 1
  backendPages := 16
  baseAddress := 0x10000
  heapAddress := 0x8000
  selectDraws := fun n => n
  bucketDraws := fun n => n
  backend_fits := Nat.le_of_ble_eq_true rfl

/-- A leaf at the `n`-th address of the backend. -/
def loadedPage (n : ℕ) : Page :=
  BTreeLeaf.construct (.make 0 (pageSize * (n + 1)))

/-- Seven pages are loaded, made hot, and demoted one by one; the last one
drives the first one out of the full bucket onto the free list. -/
def demoteSeven : List PoolCall :=
  (List.range 7).flatMap (fun n =>
    [.cacheInsert (.variable (loadedPage n).remoteAddress) (loadedPage n)
        .superRoot,
      .write (.slot n) { loadedPage n with posState := .hot }]) ++
    List.replicate 7 .samplePage

theorem demoteSeven_run :
    (runCalls demoteSeven smallPool.initial).result = .ok () ∧
      (runCalls demoteSeven smallPool.initial).state.localPageSet =
        [.slot 0] := by
  decide +kernel

theorem reset_inTurn_iff_small :
    (runCalls demoteSeven smallPool.initial).result = .ok () ∧
      ((∀ flushDirty calls', slotExchange.InTurn
        (resetThenCalls flushDirty calls'
          (runCalls demoteSeven smallPool.initial).state).trace) ↔
        (runCalls demoteSeven smallPool.initial).state.localPageSet = []) :=
  ⟨demoteSeven_run.1,
    reset_inTurn_iff smallPool demoteSeven demoteSeven_run.1⟩

/-- The slot on the free list is handed out by the allocator, and again once
the allocator has no slot left. -/
theorem reset_outOfTurn :
    ¬ ∀ (c : TreeConfig) (calls : List PoolCall),
      (runCalls calls c.initial).result = .ok () →
        ∀ flushDirty calls', slotExchange.InTurn
          (resetThenCalls flushDirty calls'
            (runCalls calls c.initial).state).trace := by
  intro hall
  obtain ⟨hok, hlist⟩ := demoteSeven_run
  obtain ⟨_, _, hturning⟩ := turning_of_run hok
  exact not_inTurn_of_listed hturning hlist
    (hall smallPool demoteSeven hok false _)

end CachingDex
