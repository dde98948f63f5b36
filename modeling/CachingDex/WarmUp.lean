import CachingDex.LeanStoreTree

/-!
# The warm-up phase

Until the pool has been handed out, a page comes from the allocator and the
cooling table is not looked at.  A run that stays in this phase is therefore
the same run over any other cooling table, one without buckets included.
-/

namespace CachingDex

open Lib Lib.Traced

/-- An event of the warm-up phase: no slot is recycled, no page sampled. -/
def Event.Warm : Event → Prop
  | .recycled => False
  | .sampled _ _ => False
  | .evicted _ => False
  | .handedOut _ => True
  | .inSplit _ e => e.Warm
  | .allocFailed => True
  | .called _ => True
  | .indexed _ => True
  | .written _ => True

instance Event.decidableWarm : DecidablePred Event.Warm
  | .recycled => isFalse id
  | .sampled _ _ => isFalse id
  | .evicted _ => isFalse id
  | .handedOut _ => isTrue trivial
  | .inSplit _ e => Event.decidableWarm e
  | .allocFailed => isTrue trivial
  | .called _ => isTrue trivial
  | .indexed _ => isTrue trivial
  | .written _ => isTrue trivial

/-- The state over another cooling table. -/
def State.setTable (h : HashTable) (s : State) : State :=
  { s with hashTable := h }

/-- A warm run of the program does not depend on the cooling table. -/
abbrev Warmed (h : HashTable) {α : Type} (m : M α) : Prop :=
  Frames Event.Warm (State.setTable h) m

variable {h : HashTable}

/-! ## Pages -/

theorem warmed_getPage (p : PagePtr) : Warmed h (getPage p) :=
  frames_gets fun _ => rfl

theorem warmed_modifyPage (p : PagePtr) (f : Page → Page) :
    Warmed h (modifyPage p f) :=
  frames_modify fun _ => rfl

theorem warmed_adopt (memNode : PagePtr) (c : ChildSlot) :
    Warmed h (modify fun s => s.adopt memNode c) := by
  apply frames_modify
  intro s
  cases c <;> rfl

theorem warmed_updateAllParentPtr (memNode : PagePtr) :
    Warmed h (updateAllParentPtr memNode) := by
  refine (warmed_getPage memNode).bind fun p => ?_
  split
  · exact frames_pure ()
  · apply frames_modify
    generalize live p.children (p.count.toNat + 1) = words
    induction words with
    | nil => exact fun _ => rfl
    | cons c words ih =>
        intro s
        rw [List.foldl_cons, List.foldl_cons, ← ih]
        cases c <;> rfl

theorem warmed_rawRemoteRead (a : GlobalAddress) :
    Warmed h (rawRemoteRead a) := by
  refine Frames.bind (frames_modify fun s => ?_) fun _ =>
    frames_gets fun _ => rfl
  have hbackend : (s.setTable h).backend = s.backend := rfl
  rw [hbackend]
  cases s.backend.read a <;> rfl

/-! ## Slots -/

theorem warmed_tryGetEmptyPage : Warmed h tryGetEmptyPage := by
  refine Frames.bind (frames_gets fun _ => rfl) fun dynamic => ?_
  split
  · exact frames_emit_bind (fun hwarm => hwarm) _
  · refine Frames.bind (frames_gets fun _ => rfl) fun index => ?_
    refine Frames.bind (frames_gets fun _ => rfl) fun allocated => ?_
    refine Frames.bind (frames_modify fun _ => rfl) fun _ => ?_
    cases allocated.1 with
    | none => exact frames_halt _
    | some page => exact (frames_emit _).bind fun _ => frames_pure _

theorem warmed_getEmptyPage : Warmed h getEmptyPage := by
  refine Frames.bind (frames_gets fun _ => rfl) fun pageNum => ?_
  generalize pageNum + 1 = n
  induction n with
  | zero => exact frames_halt _
  | succ n ih =>
      refine warmed_tryGetEmptyPage.bind fun page => ?_
      cases page with
      | none => exact ih
      | some page => exact (frames_emit _).bind fun _ => frames_pure _

theorem warmed_upsertPageTable (key : GlobalAddress) (value : PagePtr) :
    Warmed h (upsertPageTable key value) := by
  refine Frames.bind (frames_gets fun _ => rfl) fun bucket => ?_
  refine (frames_emit _).bind fun _ => ?_
  refine Frames.bind (frames_gets fun _ => rfl) fun upserted => ?_
  refine (warmed_getPage value).bind fun p => ?_
  refine Frames.bind (frames_onlyIf _ (frames_check _ _)) fun _ => ?_
  exact frames_modify fun _ => rfl

theorem warmed_cacheInsert (globalNode : SlotRef) (cacheNode : Page)
    (parentPtr : PagePtr) :
    Warmed h (cacheInsert globalNode cacheNode parentPtr) := by
  refine warmed_getEmptyPage.bind fun page => ?_
  refine (warmed_modifyPage _ _).bind fun _ => ?_
  rcases globalNode with ⟨parent, idx⟩ | addr
  · refine (warmed_getPage parent).bind fun p => ?_
    refine (warmed_modifyPage _ _).bind fun _ => ?_
    cases p.child idx with
    | remote addr =>
        exact (warmed_upsertPageTable addr page).bind fun _ => frames_pure _
    | swizzled _ => exact (frames_halt _).bind fun _ => frames_pure _
  · exact (warmed_upsertPageTable addr page).bind fun _ => frames_pure _

/-! ## Loading and splitting -/

theorem warmed_allocAddress : Warmed h allocAddress := by
  refine Frames.bind (frames_gets fun _ => rfl) fun hasRoom => ?_
  refine Frames.bind (frames_onlyIf _ (frames_emit _)) fun _ => ?_
  refine Frames.bind (frames_gets fun _ => rfl) fun addr => ?_
  exact Frames.bind (frames_modify fun _ => rfl) fun _ => frames_pure _

theorem warmed_backendWrite (addr : GlobalAddress) (p : Page) :
    Warmed h (backendWrite addr p) :=
  frames_modify fun _ => rfl

theorem warmed_loadChild (parent : PagePtr) (childIdx : ℕ) :
    Warmed h (loadChild parent childIdx) := by
  refine (warmed_getPage parent).bind fun p => ?_
  cases p.child childIdx with
  | swizzled cached => exact frames_pure _
  | remote addr =>
      refine (warmed_getPage parent).bind fun prev => ?_
      refine Frames.bind (frames_onlyIf _ (warmed_modifyPage _ _)) fun _ => ?_
      refine (warmed_rawRemoteRead addr).bind fun buf => ?_
      refine Frames.bind (frames_modify fun s => ?_) fun _ => ?_
      · split <;> rfl
      refine (warmed_cacheInsert _ _ _).bind fun cached => ?_
      refine (warmed_modifyPage _ _).bind fun _ => ?_
      refine (warmed_getPage parent).bind fun p => ?_
      refine Frames.bind (frames_onlyIf _
        ((frames_emit _).bind fun _ => warmed_modifyPage _ _)) fun _ => ?_
      refine Frames.bind (frames_onlyIf _ (warmed_modifyPage _ _)) fun _ => ?_
      exact frames_pure _

theorem warmed_construct : Warmed h construct := by
  refine (warmed_modifyPage _ _).bind fun _ => ?_
  refine Frames.bind (warmed_allocAddress.bind fun addr =>
    (warmed_backendWrite addr _).bind fun _ => frames_pure _) fun root => ?_
  refine Frames.bind (frames_modify fun _ => rfl) fun _ => ?_
  refine (warmed_modifyPage _ _).bind fun _ => ?_
  exact (warmed_loadChild _ _).bind fun _ => frames_pure _

theorem warmed_makeNewRoot (sep : Key) (leftChild : PagePtr)
    (right : ChildSlot) (level : UInt8) :
    Warmed h (makeNewRoot sep leftChild right level) := by
  refine warmed_allocAddress.bind fun addr => ?_
  refine (frames_emit _).bind fun _ => ?_
  refine Frames.bind (frames_onlyIf _ (frames_emit _)) fun _ => ?_
  refine Frames.bind (frames_modify fun _ => rfl) fun _ => ?_
  refine (warmed_cacheInsert _ _ _).bind fun cachedRoot => ?_
  refine (warmed_modifyPage _ _).bind fun _ => ?_
  refine (warmed_modifyPage _ _).bind fun _ => ?_
  refine (warmed_adopt _ _).bind fun _ => ?_
  refine (warmed_adopt _ _).bind fun _ => ?_
  exact frames_modify fun _ => rfl

theorem warmed_insertIntoInner (parent : PagePtr) (sep : Key)
    (child : ChildSlot) : Warmed h (insertIntoInner parent sep child) := by
  refine (warmed_getPage parent).bind fun p => ?_
  refine (frames_emit _).bind fun _ => ?_
  exact (frames_check _ _).bind fun _ => warmed_modifyPage _ _

theorem warmed_splitLeafChild (parent : PagePtr) (idx : ℕ) (leaf : PagePtr) :
    Warmed h (splitLeafChild parent idx leaf) := by
  refine warmed_allocAddress.bind fun addr => ?_
  refine (warmed_getPage leaf).bind fun p => ?_
  refine (frames_emit _).bind fun _ => ?_
  refine (warmed_modifyPage _ _).bind fun _ => ?_
  refine (warmed_backendWrite _ _).bind fun _ => ?_
  refine (warmed_modifyPage _ _).bind fun _ => ?_
  refine Frames.bind (frames_modify fun _ => rfl) fun _ => ?_
  split
  · exact warmed_makeNewRoot _ _ _ _
  · refine (warmed_insertIntoInner _ _ _).bind fun _ => ?_
    exact (warmed_loadChild _ _).bind fun _ => frames_pure _

theorem warmed_splitInnerChild (parent inner : PagePtr) :
    Warmed h (splitInnerChild parent inner) := by
  refine (warmed_getPage inner).bind fun p => ?_
  refine warmed_allocAddress.bind fun addr => ?_
  refine (frames_emit _).bind fun _ => ?_
  refine (warmed_modifyPage _ _).bind fun _ => ?_
  refine Frames.bind (frames_modify fun _ => rfl) fun _ => ?_
  refine Frames.bind (Frames.relabel (warmed_cacheInsert _ _ _))
    fun cachedSib => ?_
  refine (warmed_modifyPage _ _).bind fun _ => ?_
  refine (warmed_updateAllParentPtr _).bind fun _ => ?_
  refine (warmed_getPage inner).bind fun p => ?_
  split
  · exact warmed_makeNewRoot _ _ _ _
  · exact warmed_insertIntoInner _ _ _

theorem warmed_splitChild (parent : PagePtr) (idx : ℕ) (child : PagePtr) :
    Warmed h (splitChild parent idx child) := by
  refine (warmed_getPage child).bind fun p => ?_
  split
  · exact warmed_splitLeafChild _ _ _
  · exact warmed_splitInnerChild _ _

/-! ## The tree interface -/

theorem warmed_leafFor (k : Key) : Warmed h (leafFor k) := by
  refine (warmed_loadChild _ _).bind fun cur => ?_
  generalize maxLevels = fuel
  induction fuel generalizing cur with
  | zero => exact frames_halt _
  | succ fuel ih =>
      refine (warmed_getPage cur).bind fun p => ?_
      split
      · exact (warmed_loadChild _ _).bind ih
      · exact frames_pure _

theorem warmed_splitIfFull (k : Key) (inner : PagePtr) (idx : ℕ)
    (child : PagePtr) : Warmed h (splitIfFull k inner idx child) := by
  refine (warmed_getPage child).bind fun p => ?_
  split
  · refine (warmed_splitChild _ _ _).bind fun _ => ?_
    exact (warmed_getPage inner).bind fun q => warmed_loadChild _ _
  · exact frames_pure _

theorem warmed_findLeafSplitting (k : Key) (fuel : ℕ) (cur : PagePtr) :
    Warmed h (findLeafSplitting k fuel cur) := by
  induction fuel generalizing cur with
  | zero => exact frames_halt _
  | succ fuel ih =>
      refine (warmed_getPage cur).bind fun p => ?_
      split
      · refine (warmed_loadChild _ _).bind fun child => ?_
        exact (warmed_splitIfFull _ _ _ _).bind ih
      · exact frames_pure _

theorem warmed_rootForInsert : Warmed h rootForInsert := by
  refine (warmed_loadChild _ _).bind fun cur => ?_
  refine (warmed_getPage cur).bind fun p => ?_
  split
  · exact (warmed_splitChild _ _ _).bind fun _ => warmed_loadChild _ _
  · exact frames_pure _

theorem warmed_editLeaf (k : Key) (call : Page → NodeCall)
    (edit : Page → Bool × Page) :
    Warmed h (LeanStoreTree.editLeaf k call edit) := by
  refine (warmed_leafFor k).bind fun leaf => ?_
  refine (warmed_getPage leaf).bind fun p => ?_
  refine (frames_emit _).bind fun _ => ?_
  exact (warmed_modifyPage _ _).bind fun _ => frames_pure _

theorem warmed_run (op : Op) : Warmed h op.run := by
  cases op with
  | insert k v =>
      refine Frames.bind ?_ fun _ => frames_pure _
      refine warmed_rootForInsert.bind fun cur => ?_
      refine (warmed_findLeafSplitting _ _ _).bind fun leaf => ?_
      refine (warmed_getPage leaf).bind fun p => ?_
      refine (frames_emit _).bind fun _ => ?_
      exact (warmed_modifyPage _ _).bind fun _ => frames_pure _
  | lookup k =>
      refine Frames.bind ?_ fun _ => frames_pure _
      refine (warmed_leafFor k).bind fun leaf => ?_
      exact (warmed_getPage leaf).bind fun _ => frames_pure _
  | update k v =>
      exact (warmed_editLeaf _ _ _).bind fun _ => frames_pure _
  | remove k =>
      exact (warmed_editLeaf _ _ _).bind fun _ => frames_pure _
  | rangeScan k num =>
      refine Frames.bind ?_ fun _ => frames_pure _
      refine (warmed_leafFor k).bind fun leaf => ?_
      exact (warmed_getPage leaf).bind fun _ => frames_pure _

theorem warmed_runOps (ops : List Op) : Warmed h (runOps ops) := by
  induction ops with
  | nil => exact frames_pure _
  | cons op ops ih =>
      refine (warmed_run op).bind fun reply => ?_
      exact ih.bind fun _ => frames_pure _

theorem warmed_freshRun (ops : List Op) : Warmed h (freshRun ops) :=
  warmed_construct.bind fun _ => warmed_runOps ops

end CachingDex
