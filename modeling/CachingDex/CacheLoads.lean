import CachingDex.LeanStoreCache

/-!
# Loads by address

Beside the calls that the tree makes, the cache manager has an interface that
works on backend addresses alone: it looks an address up in the page table,
marks it while its page is being loaded, loads the page into a free slot or
works on it in the scratch buffer, and exchanges a resident page for a newer
image.  The page table holds the marker in the place of a pointer, so a
caller that follows what it finds there may follow the marker.

A flag or a result that the source hands on by reference is an argument and
a component of the result.
-/

namespace CachingDex

open Lib Lib.Traced

/-- `buffer_min_limit_` and `buffer_max_limit_`. -/
structure BufferLimits where
  min : Key
  max : Key

def fitLimits (l : BufferLimits) (curNode : Page) : Bool :=
  ¬ (l.max ≤ curNode.minLimit ∨ curNode.maxLimit < l.min)

def syncOrNot (l : BufferLimits) (inner : Page) (idx : ℕ) : Bool :=
  if inner.level = 255 then true
  else
    let minLimit := if idx = 0 then inner.minLimit else inner.key (idx - 1)
    let maxLimit :=
      if idx = inner.count.toNat then inner.maxLimit else inner.key idx
    ¬ (l.min ≤ minLimit ∧ maxLimit < l.max)

/-! ## Entries of the page table -/

def insertIoFlag (key : GlobalAddress) : M Bool := do
  let inserted ← gets fun s => s.pageTable.insert key .ioFlag
  modify fun s => { s with pageTable := inserted.1 }
  pure inserted.2.1

/-- `page_table_->update_with_lock`: whether the key was there, and its old
page. -/
def updatePageTable (key : GlobalAddress) (value : PagePtr) :
    M (Bool × Option PagePtr) := do
  let updated ← gets fun s => s.pageTable.update key value
  modify fun s => { s with pageTable := updated.1 }
  let p ← getPage value
  onlyIf (updated.2.1 && p.remoteAddress ≠ key) (halt .hang)
  pure updated.2

/-- Take the marker of an address out of the page table. -/
def removeIoFlag (key : GlobalAddress) : M Unit := do
  let removed ← gets fun s => s.pageTable.remove key .ioFlag
  modify fun s => { s with pageTable := removed.1 }
  check removed.2 (.assertion .loadUnflagged)

/-! ## Loading a page -/

def optRemoteRead (globalNode : GlobalAddress) : M Page :=
  rawRemoteRead globalNode

def remoteToCache (cachePage : PagePtr) (globalNode : GlobalAddress)
    (syncRead : Bool) : M Bool := do
  let bufferPage ←
    if syncRead then optRemoteRead globalNode else rawRemoteRead globalNode
  modifyPage cachePage fun _ => bufferPage
  pure true

/-- The result with `*ret_page` and `refresh`. -/
structure Load where
  ret : ℤ
  retPage : Option PagePtr
  refresh : Bool
  deriving DecidableEq

/-- The slot is filled before the parent is looked at. -/
def simpleColdToHot (l : BufferLimits) (node : GlobalAddress)
    (retPage : Option PagePtr) (parent : PagePtr) (childIdx : ℕ)
    (refresh syncRead : Bool) : M Load := do
  let page ← tryGetEmptyPage
  match page with
  | none => pure ⟨-1, retPage, refresh⟩
  | some page => do
      let slot ← getPage page
      check (slot.posState ≠ .hot) (.assertion .slotHot)
      let ioSuccess ← remoteToCache page node syncRead
      let p ← getPage parent
      let returnPage ← getPage page
      check (p.level ≠ 255) (.assertion .parentIsSuper)
      if !ioSuccess || !fitLimits l returnPage ||
          !newCheckLimitMatch p returnPage childIdx then do
        insertLocalSet page
        pure ⟨-1, retPage, true⟩
      else do
        onlyIf (returnPage.remoteAddress ≠ node) (halt .hang)
        check (returnPage.posState = .remote) (.assertion .loadedState)
        check (returnPage.parentPtr = none) (.assertion .loadedParent)
        pure ⟨0, some page, refresh⟩

def coldToHot (l : BufferLimits) (globalNode : GlobalAddress)
    (retPage : Option PagePtr) (parent : PagePtr) (childIdx : ℕ)
    (refresh : Bool) : M Load := do
  let inner ← getPage parent
  let syncRead := syncOrNot l inner childIdx
  let load ← simpleColdToHot l globalNode retPage parent childIdx refresh
    syncRead
  if load.ret = 0 then
    match load.retPage with
    | none => halt .wildPointer
    | some page => do
        let updated ← updatePageTable globalNode page
        check (updated.1 && updated.2 = some .ioFlag)
          (.assertion .loadUnflagged)
        pure load
  else do
    removeIoFlag globalNode
    pure load

/-- What `cache_get` returns, with `restart` and `refresh`. -/
structure Got where
  page : Option PagePtr
  restart : Bool
  refresh : Bool

/-- The limits of the page found are compared with those of the slot, so
whatever the page table holds is followed. -/
def cacheGet (l : BufferLimits) (node : GlobalAddress) (parent : PagePtr)
    (childIdx : ℕ) (restart refresh ioEnable : Bool) : M Got := do
  let targetPage ← gets fun s => s.pageTable.get node
  match targetPage with
  | none => do
      let _ ← insertIoFlag node
      if !ioEnable then pure ⟨none, restart, refresh⟩
      else do
        let load ← coldToHot l node none parent childIdx refresh
        pure ⟨load.retPage, true, load.refresh⟩
  | some .ioFlag => halt .wildPointer
  | some targetNode => do
      let p ← getPage parent
      let child ← getPage targetNode
      if !newCheckLimitMatch p child childIdx then do
        modifyPage targetNode fun q => { q with obsolete := true }
        modify fun s =>
          { s with pageTable := (s.pageTable.remove node targetNode).1 }
        pure ⟨none, restart, true⟩
      else pure ⟨some targetNode, restart, refresh⟩

/-! ## Loads with admission -/

/-- `RPC_type` -/
inductive RpcType where
  | lookup
  | update
  | insert
  | delete
  deriving DecidableEq

/-- `remote_write` of the scratch buffer in place. -/
def remoteWriteBuffer (globalNode : GlobalAddress) : M Unit := do
  modify fun s =>
    { s with scratch :=
        { s.scratch with
          dirty := false, parentPtr := none, posState := .remote } }
  let bufferPage ← gets fun s => s.scratch
  writeImage globalNode bufferPage

/-- A load, or an access that leaves the page outside, with `result` and
`success`. -/
structure Access extends Load where
  result : Value
  success : Bool

/-- The access to the image in the scratch buffer: the code, the value and
whether it succeeded. -/
def accessRemote (globalNode : GlobalAddress) (k : Key) (result : Value)
    (success : Bool) : RpcType → M (ℤ × Value × Bool)
  | .lookup => do
      let curLeaf ← rawRemoteRead globalNode
      if !BTreeLeaf.rangeValid curLeaf k then pure (-1, result, success)
      else
        let found := BTreeLeaf.find curLeaf k
        pure (1, found.getD result, found.isSome)
  | .update => do
      let curLeaf ← rawRemoteRead globalNode
      if !BTreeLeaf.rangeValid curLeaf k then pure (-1, result, success)
      else do
        let updated := BTreeLeaf.update curLeaf k result
        modify fun s => { s with scratch := updated.2 }
        onlyIf updated.1 (remoteWriteBuffer globalNode)
        pure (1, result, updated.1)
  | .insert => do
      let curLeaf ← rawRemoteRead globalNode
      if !BTreeLeaf.rangeValid curLeaf k || BTreeLeaf.isFull curLeaf then
        pure (-1, result, success)
      else do
        let inserted := BTreeLeaf.insert curLeaf k result
        modify fun s => { s with scratch := inserted.2 }
        remoteWriteBuffer globalNode
        pure (1, result, inserted.1)
  | .delete => do
      let curLeaf ← rawRemoteRead globalNode
      if !BTreeLeaf.rangeValid curLeaf k then pure (-1, result, success)
      else do
        let removed := BTreeLeaf.remove curLeaf k
        modify fun s => { s with scratch := removed.2 }
        onlyIf removed.1 (remoteWriteBuffer globalNode)
        pure (1, result, removed.1)

/-- `admissionIdx` is the part of 10000 draws that loads the page. -/
def coldToHotWithAdmission (l : BufferLimits) (admissionIdx idx : ℕ)
    (globalNode : GlobalAddress) (retPage : Option PagePtr)
    (parent : PagePtr) (childIdx : ℕ) (refresh : Bool) (k : Key)
    (result : Value) (success : Bool) (rpcType : RpcType) : M Access := do
  let dynamic ← gets fun s => s.dynamic
  if dynamic && admissionIdx ≤ idx then do
    let access ← accessRemote globalNode k result success rpcType
    removeIoFlag globalNode
    pure ⟨⟨access.1, retPage, refresh⟩, access.2.1, access.2.2⟩
  else do
    let load ← coldToHot l globalNode retPage parent childIdx refresh
    pure ⟨load, result, success⟩

/-! ## Replacing a page by a newer image -/

def fillLocalPageSet : M Unit := do
  let pages ← gets fun s => s.localPageSet
  if pages = [] then do
    let newPage ← getEmptyPage
    insertLocalSet newPage
  else pure ()

/-- Point the parent's word for `curNode` at `newNode`. -/
def replaceChild (parent curNode newNode : PagePtr) : M Unit := do
  let p ← getPage parent
  let idxInParent :=
    if p.level = 255 then some 0 else BTreeInner.findIdx p (.swizzled curNode)
  match idxInParent with
  | none => halt (.assertion .childMissing)
  | some idx => do
      modifyPage curNode fun q => { q with parentPtr := none }
      modifyPage newNode fun q => { q with parentPtr := some parent }
      modifyPage parent fun q => q.setChild idx (.swizzled newNode)

def bufferToCache (cachePage : PagePtr) (curNode : Page) : M Unit := do
  modifyPage cachePage fun _ => curNode
  check (curNode.posState ≠ .hot) (.assertion .slotHot)

/-- The new page takes the place of the old one below its parent. -/
def replaceWith (curNode parent : PagePtr) (remoteCurNode : Page) :
    M PagePtr := do
  let page ← getLocalPageSet
  match page with
  | none => halt (.assertion .replaceSlot)
  | some newCurNode => do
      bufferToCache newCurNode remoteCurNode
      replaceChild parent curNode newCurNode
      pure newCurNode

/-- The end of a replacement. -/
def finishReplace (parent newCurNode : PagePtr) : M Unit := do
  let p ← getPage parent
  let child ← getPage newCurNode
  check (checkParentChildInfo p child newCurNode)
    (.assertion .parentChildInfo)
  modifyPage newCurNode fun q => { q with posState := .hot }

def updatestReplace (curNode parent : PagePtr) (remoteCurNode : Page) :
    M Unit := do
  fillLocalPageSet
  let cur ← getPage curNode
  let remoteAddr := cur.remoteAddress
  let targetPage ← gets fun s => s.pageTable.get remoteAddr
  match targetPage with
  | none => do
      let newCurNode ← replaceWith curNode parent remoteCurNode
      let inserted ← gets fun s => s.pageTable.insert remoteAddr newCurNode
      modify fun s => { s with pageTable := inserted.1 }
      check inserted.2.1 (.assertion .replaceEntry)
      finishReplace parent newCurNode
  | some targetNode => do
      check (targetNode = curNode) (.assertion .replaceTarget)
      let newCurNode ← replaceWith curNode parent remoteCurNode
      let updated ← updatePageTable remoteAddr newCurNode
      check (updated.1 && updated.2 = some targetNode)
        (.assertion .replaceEntry)
      modifyPage curNode fun q => { q with obsolete := true }
      finishReplace parent newCurNode

end CachingDex
