import CachingDex.CacheLoads
import CachingDex.PageTableMap
import CachingDex.BtreeNodeSpec
import CachingDex.LeanStoreTree

/-!
# Accesses past the cache

A load with admission may leave the leaf outside and work on the image in the
scratch buffer.  The four operations agree there with the way through a slot:
load the leaf, apply its own operation, and write it back.  They are turned
down for a key outside the limits, and an insertion for a full leaf, before
anything is written; no page of the pool takes part.
-/

namespace CachingDex

open Lib Lib.Traced

/-- The operation of the leaf: success, the value, and the leaf after. -/
def RpcType.apply (rpcType : RpcType) (leaf : Page) (k : Key)
    (result : Value) : Bool × Value × Page :=
  match rpcType with
  | .lookup =>
      let found := BTreeLeaf.find leaf k
      (found.isSome, found.getD result, leaf)
  | .update =>
      let (ok, leaf') := BTreeLeaf.update leaf k result
      (ok, result, leaf')
  | .insert =>
      let (ok, leaf') := BTreeLeaf.insert leaf k result
      (ok, result, leaf')
  | .delete =>
      let (ok, leaf') := BTreeLeaf.remove leaf k
      (ok, result, leaf')

/-- The way through the cache: the leaf is loaded into a slot, accessed there
and written back. -/
def accessCached (slot : ℕ) (globalNode : GlobalAddress) (k : Key)
    (result : Value) (rpcType : RpcType) : M (Bool × Value) := do
  let _ ← remoteToCache (.slot slot) globalNode false
  let leaf ← getPage (.slot slot)
  let accessed := rpcType.apply leaf k result
  modifyPage (.slot slot) fun _ => accessed.2.2
  remoteWrite globalNode (.slot slot)
  pure (accessed.1, accessed.2.1)

/-- The leaf turns the operation down. -/
def RpcType.refused (rpcType : RpcType) (leaf : Page) (k : Key) : Prop :=
  BTreeLeaf.rangeValid leaf k = false ∨
    (rpcType = .insert ∧ leaf.count = 59)

/-- Two images of a leaf with the same content. -/
structure Page.SameLeaf (p q : Page) : Prop where
  entries : p.entries = q.entries
  count : p.count = q.count
  minLimit : p.minLimit = q.minLimit
  maxLimit : p.maxLimit = q.maxLimit
  nextLeaf : p.nextLeaf = q.nextLeaf
  remoteAddress : p.remoteAddress = q.remoteAddress

/-- The image of a page in the backend. -/
def State.image (s : State) (a : GlobalAddress) : Page :=
  s.backend.store a.offset

/-- The access past the cache that ended with `access` in `s'` agrees with
the way through slot `i`. -/
structure BypassAgrees (s : State) (a : GlobalAddress) (k : Key)
    (result : Value) (rpcType : RpcType) (i : ℕ) (access : Access)
    (s' : State) : Prop where
  code : access.ret = 1 ∨ access.ret = -1
  agrees : access.ret = 1 → ∃ t trace,
    accessCached i a k result rpcType s =
        ⟨.ok (access.success, access.result), t, trace⟩ ∧
      (s'.image a).SameLeaf (t.image a)
  refused_iff : access.ret = -1 ↔ rpcType.refused (s.image a) k
  refused : access.ret = -1 → s'.backend = s.backend
  others : ∀ o, o ≠ (a.offset : ℕ) →
    s'.backend.store o = s.backend.store o
  table : s'.pageTable.get = Function.update s.pageTable.get a none
  pages : s'.page = s.page
  freeList : s'.localPageSet = s.localPageSet

/-- Nothing stops the run, whatever its events. -/
def endsContract : Contract State Halt Event where
  rely _ := True
  guarantee _ := True
  mayHalt _ _ := False

theorem exists_of_ends {α : Type} {m : M α} {s : State} {Q : α → State → Prop}
    (h : Meets endsContract m s Q) :
    ∃ a s' trace, m s = ⟨.ok a, s', trace⟩ ∧ Q a s' := by
  obtain ⟨_, hpost⟩ := h fun _ _ => trivial
  rcases hrun : m s with ⟨result, s', trace⟩
  rw [hrun] at hpost
  cases result with
  | ok a => exact ⟨a, s', trace, rfl, hpost⟩
  | error e => exact hpost.elim

section Leaf

variable {p : Page} {k : Key} {v : Value}

theorem BTreeLeaf.remoteAddress_insert :
    (BTreeLeaf.insert p k v).2.remoteAddress = p.remoteAddress := by
  unfold BTreeLeaf.insert
  dsimp only
  split_ifs <;> rfl

theorem BTreeLeaf.remoteAddress_remove :
    (BTreeLeaf.remove p k).2.remoteAddress = p.remoteAddress := by
  unfold BTreeLeaf.remove
  dsimp only
  split_ifs <;> rfl

theorem BTreeLeaf.remoteAddress_update :
    (BTreeLeaf.update p k v).2.remoteAddress = p.remoteAddress := by
  unfold BTreeLeaf.update
  dsimp only
  split_ifs <;> rfl

theorem RpcType.remoteAddress_apply (rpcType : RpcType) :
    (rpcType.apply p k v).2.2.remoteAddress = p.remoteAddress := by
  cases rpcType with
  | lookup => rfl
  | update => exact BTreeLeaf.remoteAddress_update
  | insert => exact BTreeLeaf.remoteAddress_insert
  | delete => exact BTreeLeaf.remoteAddress_remove

end Leaf

/-- A page as it is written out. -/
def Page.written (p : Page) : Page :=
  { p with dirty := false, parentPtr := none, posState := .remote }

section Programs

variable {s : State} {a : GlobalAddress} {k : Key} {v : Value}
  {rpcType : RpcType}

theorem rawRemoteRead_image {C : Contract State Halt Event}
    (hrange : s.backend.inRange a = true) {Q : Page → State → Prop}
    (hQ : Q (s.image a) { s with scratch := s.image a }) :
    Meets C (rawRemoteRead a) s Q := by
  have hread : s.backend.read a = some (s.image a) := by
    rw [InMemoryBackend.read, if_pos hrange]
    rfl
  unfold rawRemoteRead
  apply Meets.bind
  apply meets_modify
  rw [hread]
  exact meets_gets hQ

theorem writeImage_ends {p : Page} (haddr : p.remoteAddress = a)
    {Q : Unit → State → Prop}
    (hQ : Q ()
      { s with
        backend :=
          s.backend.write a { p with parentPtr := none, posState := .remote } }) :
    Meets endsContract (writeImage a p) s Q := by
  rw [writeImage, if_pos haddr]
  exact meets_modify hQ

/-- The way through a slot ends with the operation applied to the image. -/
theorem accessCached_ends (hrange : s.backend.inRange a = true)
    (haddr : (s.image a).remoteAddress = a) (i : ℕ) (rpcType : RpcType) :
    ∃ t trace, accessCached i a k v rpcType s =
        ⟨.ok ((rpcType.apply (s.image a) k v).1,
          (rpcType.apply (s.image a) k v).2.1), t, trace⟩ ∧
      t.image a = (rpcType.apply (s.image a) k v).2.2.written := by
  have hmeets : Meets endsContract (accessCached i a k v rpcType) s
      fun r t => r = ((rpcType.apply (s.image a) k v).1,
          (rpcType.apply (s.image a) k v).2.1) ∧
        t.image a = (rpcType.apply (s.image a) k v).2.2.written := by
    unfold accessCached remoteToCache modifyPage getPage
    simp only [Bool.false_eq_true, if_false]
    apply Meets.bind
    apply Meets.bind
    apply rawRemoteRead_image hrange
    apply Meets.bind
    apply meets_modify
    apply meets_pure
    apply Meets.bind
    apply meets_gets
    apply Meets.bind
    apply meets_modify
    unfold remoteWrite modifyPage getPage
    apply Meets.bind
    apply Meets.bind
    apply meets_modify
    apply Meets.bind
    apply meets_gets
    simp only [State.setPage_self]
    apply Meets.bind
    apply writeImage_ends
    · exact rpcType.remoteAddress_apply.trans haddr
    · apply meets_emit_of trivial
      refine meets_pure ⟨rfl, ?_⟩
      exact InMemoryBackend.store_write_self hrange
  obtain ⟨r, t, trace, hrun, rfl, himage⟩ := exists_of_ends hmeets
  exact ⟨t, trace, hrun, himage⟩

/-- The run ended in `t` with `p` as the image of the leaf; every other image
and the pool are as in `s`. -/
structure LeavesImage (s : State) (a : GlobalAddress) (p : Page) (t : State) :
    Prop where
  image : (t.image a).SameLeaf p
  others : ∀ o, o ≠ (a.offset : ℕ) → t.backend.store o = s.backend.store o
  pageTable : t.pageTable = s.pageTable
  pages : t.page = s.page
  freeList : t.localPageSet = s.localPageSet

/-- The scratch buffer is not part of it. -/
theorem LeavesImage.of_scratch {p q : Page} {t : State}
    (h : LeavesImage { s with scratch := q } a p t) : LeavesImage s a p t :=
  ⟨h.image, h.others, h.pageTable, h.pages, h.freeList⟩

/-- The leaf is written back from the scratch buffer, unless the operation
failed and left it alone. -/
theorem writeBuffer_ends {α : Type} (hrange : s.backend.inRange a = true)
    {leaf : Page} (haddr : leaf.remoteAddress = a) {wrote : Bool}
    (hkept : wrote = false → leaf = s.image a) (r : α) :
    Meets endsContract
      (do
        modify fun s => { s with scratch := leaf }
        onlyIf wrote (remoteWriteBuffer a)
        pure r : M α) s
      fun r' t => r' = r ∧ LeavesImage s a leaf t := by
  apply Meets.bind
  apply meets_modify
  apply Meets.bind
  apply meets_onlyIf
  · intro _
    unfold remoteWriteBuffer
    apply Meets.bind
    apply meets_modify
    apply Meets.bind
    apply meets_gets
    apply writeImage_ends (p := leaf.written) haddr
    refine meets_pure ⟨rfl, ?_, ?_, rfl, rfl, rfl⟩
    · have hstore : (s.backend.write a leaf.written).store a.offset =
          leaf.written := InMemoryBackend.store_write_self hrange
      change ((s.backend.write a leaf.written).store a.offset).SameLeaf leaf
      rw [hstore]
      exact ⟨rfl, rfl, rfl, rfl, rfl, rfl⟩
    · intro o ho
      exact InMemoryBackend.store_write_of_ne ho
  · intro hwrote
    refine meets_pure ⟨rfl, ?_, fun _ _ => rfl, rfl, rfl, rfl⟩
    rw [hkept hwrote]
    exact ⟨rfl, rfl, rfl, rfl, rfl, rfl⟩

/-- What an access past the cache does. -/
structure Accessed (s : State) (a : GlobalAddress) (k : Key) (v : Value)
    (rpcType : RpcType) (r : ℤ × Value × Bool) (t : State) : Prop where
  refused : rpcType.refused (s.image a) k → r.1 = -1 ∧
    t.backend = s.backend ∧ LeavesImage s a (s.image a) t
  done : ¬ rpcType.refused (s.image a) k →
    r = (1, (rpcType.apply (s.image a) k v).2.1,
      (rpcType.apply (s.image a) k v).1) ∧
    LeavesImage s a (rpcType.apply (s.image a) k v).2.2 t

theorem accessed_refused {success : Bool}
    (h : rpcType.refused (s.image a) k) :
    Accessed s a k v rpcType (-1, v, success)
      { s with scratch := s.image a } :=
  ⟨fun _ => ⟨rfl, rfl, ⟨rfl, rfl, rfl, rfl, rfl, rfl⟩, fun _ _ => rfl, rfl,
    rfl, rfl⟩, fun hnot => absurd h hnot⟩

theorem accessRemote_ends (hrange : s.backend.inRange a = true)
    (haddr : (s.image a).remoteAddress = a) (success : Bool) :
    Meets endsContract (accessRemote a k v success rpcType) s
      (Accessed s a k v rpcType) := by
  cases rpcType with
  | lookup =>
      unfold accessRemote
      apply Meets.bind
      apply rawRemoteRead_image hrange
      apply meets_ite
      · intro hout
        exact meets_pure (accessed_refused (Or.inl (by simpa using hout)))
      · intro hin
        refine meets_pure ⟨fun h => absurd h ?_, fun _ => ⟨rfl, ?_⟩⟩
        · simpa [RpcType.refused] using hin
        · exact ⟨⟨rfl, rfl, rfl, rfl, rfl, rfl⟩, fun _ _ => rfl, rfl, rfl,
            rfl⟩
  | update =>
      unfold accessRemote
      apply Meets.bind
      apply rawRemoteRead_image hrange
      apply meets_ite
      · intro hout
        exact meets_pure (accessed_refused (Or.inl (by simpa using hout)))
      · intro hin
        refine (writeBuffer_ends hrange
          (BTreeLeaf.remoteAddress_update.trans haddr)
          BTreeLeaf.update_of_false _).mono ?_
        intro r t ht
        obtain ⟨rfl, hleaves⟩ := ht
        refine ⟨fun h => absurd h ?_, fun _ => ⟨rfl, hleaves.of_scratch⟩⟩
        simpa [RpcType.refused] using hin
  | insert =>
      unfold accessRemote
      apply Meets.bind
      apply rawRemoteRead_image hrange
      apply meets_ite
      · intro hout
        refine meets_pure (accessed_refused ?_)
        simpa [RpcType.refused, BTreeLeaf.isFull] using hout
      · intro hin
        refine (writeBuffer_ends hrange
          (BTreeLeaf.remoteAddress_insert.trans haddr)
          (fun h : true = false => Bool.noConfusion h) _).mono ?_
        intro r t ht
        obtain ⟨rfl, hleaves⟩ := ht
        refine ⟨fun h => absurd h ?_, fun _ => ⟨rfl, hleaves.of_scratch⟩⟩
        simpa [RpcType.refused, BTreeLeaf.isFull] using hin
  | delete =>
      unfold accessRemote
      apply Meets.bind
      apply rawRemoteRead_image hrange
      apply meets_ite
      · intro hout
        exact meets_pure (accessed_refused (Or.inl (by simpa using hout)))
      · intro hin
        refine (writeBuffer_ends hrange
          (BTreeLeaf.remoteAddress_remove.trans haddr)
          BTreeLeaf.remove_of_false _).mono ?_
        intro r t ht
        obtain ⟨rfl, hleaves⟩ := ht
        refine ⟨fun h => absurd h ?_, fun _ => ⟨rfl, hleaves.of_scratch⟩⟩
        simpa [RpcType.refused] using hin

/-- Taking the marker of an address away leaves every other entry. -/
theorem removeIoFlag_meets {C : Contract State Halt Event} (hinv : s.pageTable.Inv)
    (hflag : s.pageTable.get a = some .ioFlag) {Q : Unit → State → Prop}
    (hQ : ∀ t : PageTable, t.Inv →
      t.get = Function.update s.pageTable.get a none →
        Q () { s with pageTable := t }) :
    Meets C (removeIoFlag a) s Q := by
  obtain ⟨hinv', hget, hfound⟩ := hinv.remove a .ioFlag
  rw [if_pos hflag] at hget
  unfold removeIoFlag
  apply Meets.bind
  apply meets_gets
  apply Meets.bind
  apply meets_modify
  apply meets_check
  · rw [hfound, hflag]
    rfl
  · exact hQ _ hinv' hget

/-- An access past the cache does to the image what the way through any slot
does, and to the page table no more than to take the marker away. -/
theorem admission_bypass_agrees (l : BufferLimits) {admissionIdx idx : ℕ}
    (retPage : Option PagePtr) (parent : PagePtr) (childIdx : ℕ)
    (refresh success : Bool) (k : Key) (result : Value) (rpcType : RpcType)
    (i : ℕ) (hdynamic : s.dynamic = true) (hidx : admissionIdx ≤ idx)
    (hinv : s.pageTable.Inv) (hflag : s.pageTable.get a = some .ioFlag)
    (hrange : s.backend.inRange a = true)
    (haddr : (s.image a).remoteAddress = a) :
    ∃ access s' trace,
      coldToHotWithAdmission l admissionIdx idx a retPage parent childIdx
          refresh k result success rpcType s = ⟨.ok access, s', trace⟩ ∧
        BypassAgrees s a k result rpcType i access s' := by
  apply exists_of_ends
  unfold coldToHotWithAdmission
  apply Meets.bind
  apply meets_gets
  rw [if_pos (by simp [hdynamic, hidx])]
  apply Meets.bind
  refine (accessRemote_ends hrange haddr success).mono ?_
  intro r t ht
  have hleaves : ∃ p, LeavesImage s a p t := by
    by_cases hrefused : rpcType.refused (s.image a) k
    · exact ⟨_, (ht.refused hrefused).2.2⟩
    · exact ⟨_, (ht.done hrefused).2⟩
  obtain ⟨p, hp⟩ := hleaves
  have hcode : r.1 = -1 ↔ rpcType.refused (s.image a) k := by
    constructor
    · intro hret
      by_contra hrefused
      rw [(ht.done hrefused).1] at hret
      simp at hret
    · exact fun hrefused => (ht.refused hrefused).1
  apply Meets.bind
  apply removeIoFlag_meets (hp.pageTable ▸ hinv) (hp.pageTable ▸ hflag)
  intro table _ hget
  rw [hp.pageTable] at hget
  refine meets_pure ⟨?_, ?_, hcode, ?_, hp.others, hget, hp.pages,
    hp.freeList⟩
  · by_cases hrefused : rpcType.refused (s.image a) k
    · exact Or.inr (ht.refused hrefused).1
    · exact Or.inl (by rw [(ht.done hrefused).1])
  · intro hret
    have hrefused : ¬ rpcType.refused (s.image a) k := by
      intro hrefused
      change r.1 = 1 at hret
      rw [hcode.mpr hrefused] at hret
      simp at hret
    obtain ⟨rfl, hdone⟩ := ht.done hrefused
    obtain ⟨u, trace, hrun, himage⟩ := accessCached_ends (k := k)
      (v := result) hrange haddr i rpcType
    refine ⟨u, trace, hrun, ?_⟩
    rw [himage]
    obtain ⟨hentries, hcount, hmin, hmax, hnext, haddress⟩ := hdone.image
    exact ⟨hentries, hcount, hmin, hmax, hnext, haddress⟩
  · intro hret
    exact (ht.refused (hcode.mp hret)).2.1

end Programs

/-- A pool that has been handed out, with the leaf at 1024 marked as being
loaded. -/
def flaggedLeaf : State :=
  let initial := TreeConfig.initial ⟨2, 6, 4, 0x10000, 0x8000, fun _ => 0,
    fun _ => 0, TreeConfig.fourPages_fit⟩
  { initial with
    dynamic := true
    pageTable := (initial.pageTable.insert (.make 0 1024) .ioFlag).1
    backend := initial.backend.write (.make 0 1024)
      { BTreeLeaf.construct (.make 0 1024) with
        count := 2
        data := Vector.ofFn fun i => (UInt64.ofNat (i + 1), 0) } }

theorem admission_bypass_agrees_insert :
    ∃ access s' trace,
      coldToHotWithAdmission ⟨0, 0⟩ 5000 7000 (.make 0 1024) none .superRoot
          0 false 5 7 false .insert flaggedLeaf = ⟨.ok access, s', trace⟩ ∧
        BypassAgrees flaggedLeaf (.make 0 1024) 5 7 .insert 1 access s' := by
  have hinv := (PageTable.inv_clear 1).insert (.make 0 1024) .ioFlag
  exact admission_bypass_agrees ⟨0, 0⟩ none .superRoot 0 false false 5 7
    .insert 1 rfl (by decide) hinv.1 rfl (by decide) rfl

end CachingDex
