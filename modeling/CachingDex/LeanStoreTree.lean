import CachingDex.LeanStoreCache

/-!
# The tree over the cache

The driver of the B+-tree: construction, loading a child through the cache,
the three kinds of split, and the operations of the tree interface.  The
loops that descend from the root run on a number of levels no tree reaches,
since a level is one byte.

`construct` builds the first tree of a process from a configuration: the
sizes of pool, cooling table and backend, where the pool lies in memory, and
the streams of random draws.
-/

namespace CachingDex

open Lib Lib.Traced

/-- The parameters of a run.  `entryNum` is the product of pool capacity and
cooling ratio, truncated; the backend fits into the part of the address
space that leaves the tag bit clear. -/
structure TreeConfig where
  pageNum : ℕ
  entryNum : ℕ
  backendPages : ℕ
  baseAddress : UInt64
  heapAddress : UInt64
  selectDraws : ℕ → ℕ
  bucketDraws : ℕ → ℕ
  backend_fits : backendPages * pageSize ≤ 2 ^ 47

namespace TreeConfig

theorem twoPages_fit : 2 * pageSize ≤ 2 ^ 47 := by decide

theorem threePages_fit : 3 * pageSize ≤ 2 ^ 47 := by decide

theorem fourPages_fit : 4 * pageSize ≤ 2 ^ 47 := by decide

theorem eightPages_fit : 8 * pageSize ≤ 2 ^ 47 := by decide

/-- The state before the tree object exists. -/
def initial (c : TreeConfig) : State where
  page := fun _ => Page.zero
  allocator := ⟨c.baseAddress, c.pageNum, 0⟩
  localPageSet := []
  hashTable := .new c.entryNum
  pageTable := .new c.pageNum
  dynamic := false
  innerMiss := 0
  leafMiss := 0
  wrongParent := 0
  backend := .new c.backendPages
  scratch := Page.zero
  heapAddress := c.heapAddress
  root := .null
  height := 1
  leafNum := 1
  innerNum := 0
  selectDraws := c.selectDraws
  bucketDraws := c.bucketDraws

end TreeConfig

/-! ## Loading -/

/-- `backend_->alloc(PAGE_SIZE)` -/
def allocAddress : M GlobalAddress := do
  let hasRoom ← gets fun s => s.backend.hasRoom
  onlyIf (!hasRoom) (emit .allocFailed)
  let addr ← gets fun s => s.backend.alloc.1
  modify fun s => { s with backend := s.backend.alloc.2 }
  pure addr

/-- `backend_->write` -/
def backendWrite (addr : GlobalAddress) (p : Page) : M Unit :=
  modify fun s => { s with backend := s.backend.write addr p }

def allocateLeaf : M GlobalAddress := do
  let addr ← allocAddress
  backendWrite addr (BTreeLeaf.construct addr)
  pure addr

/-- Load the page behind child word `childIdx` of `parent`, with the parent
pinned. -/
def loadFromBackend (parent : PagePtr) (childIdx : ℕ)
    (addr : GlobalAddress) : M PagePtr := do
  let pin := decide (parent ≠ .superRoot)
  let prev ← getPage parent
  onlyIf pin (modifyPage parent fun p => { p with posState := .pin })
  let buf ← rawRemoteRead addr
  modify fun s =>
    if buf.type = .btreeLeaf then { s with leafMiss := s.leafMiss + 1 }
    else { s with innerMiss := s.innerMiss + 1 }
  let cached ← cacheInsert (.childOf parent childIdx) buf parent
  modifyPage cached fun p => { p with posState := .hot }
  let p ← getPage parent
  onlyIf (p.level ≠ 255 ∧ p.type = .btreeInner) do
    emit (.called (.setBitmap childIdx))
    modifyPage parent fun p => BTreeInner.setBitmap p childIdx
  onlyIf pin (modifyPage parent fun p => { p with posState := prev.posState })
  pure cached

def loadChild (parent : PagePtr) (childIdx : ℕ) : M PagePtr := do
  let p ← getPage parent
  match p.child childIdx with
  | .swizzled cached => pure cached
  | .remote addr => loadFromBackend parent childIdx addr

def construct : M Unit := do
  modifyPage .superRoot fun _ =>
    { BTreeInner.construct 255 .null with posState := .hot }
  let root ← allocateLeaf
  modify fun s => { s with root := root }
  modifyPage .superRoot fun p =>
    { p.setChild 0 (.remote root) with count := 0 }
  let _ ← loadChild .superRoot 0
  pure ()

/-! ## Splits -/

def isFull (p : Page) : Bool :=
  if p.type = .btreeLeaf then BTreeLeaf.isFull p else BTreeInner.isFull p

/-- The page of a new root over two children, built in a buffer. -/
def newRootPage (addr : GlobalAddress) (level : UInt8) (sep : Key)
    (leftChild : PagePtr) (right : ChildSlot) : Page :=
  let p := BTreeInner.construct level addr
  let p :=
    { p with
      count := 1
      keys := p.keys.setIfInBounds 0 sep
      children := (p.children.setIfInBounds 0
        (.swizzled leftChild)).setIfInBounds 1 right }
  let p := BTreeInner.setBitmap p 0
  if right.isSwizzled then BTreeInner.setBitmap p 1 else p

def makeNewRoot (sep : Key) (leftChild : PagePtr) (right : ChildSlot)
    (level : UInt8) : M Unit := do
  let addr ← allocAddress
  emit (.called (.setBitmap 0))
  onlyIf right.isSwizzled (emit (.called (.setBitmap 1)))
  modify fun s => { s with innerNum := s.innerNum + 1, root := addr }
  let cachedRoot ← cacheInsert (.variable addr)
    (newRootPage addr level sep leftChild right) .superRoot
  modifyPage cachedRoot fun p => { p with posState := .hot, dirty := true }
  modifyPage .superRoot fun p =>
    { p.setChild 0 (.swizzled cachedRoot) with bitmap := 0, count := 0 }
  modify fun s => s.adopt cachedRoot (.swizzled leftChild)
  modify fun s => s.adopt cachedRoot right
  modify fun s => { s with height := level.toNat + 1 }

/-- `BTreeInner::insert` with its assertion, and the dirty flag the tree sets
again. -/
def insertIntoInner (parent : PagePtr) (sep : Key) (child : ChildSlot) :
    M Unit := do
  let p ← getPage parent
  emit (.called (.innerInsert p sep))
  check (p.count < 59) (.assertion .innerRoom)
  modifyPage parent fun p => { BTreeInner.insert p sep child with dirty := true }

def splitLeafChild (parent : PagePtr) (idx : ℕ) (leaf : PagePtr) :
    M Unit := do
  let addr ← allocAddress
  let p ← getPage leaf
  emit (.called (.leafSplit p))
  let (sep, left, sib) := BTreeLeaf.split p (BTreeLeaf.construct addr)
  modifyPage leaf fun _ => left
  backendWrite addr sib
  modifyPage leaf fun p => { p with dirty := true }
  modify fun s => { s with leafNum := s.leafNum + 1 }
  if parent = .superRoot then makeNewRoot sep leaf (.remote addr) 1
  else do
    insertIntoInner parent sep (.remote addr)
    let _ ← loadChild parent (idx + 1)
    pure ()

/-- The window in which a half-done inner split is open to the sampler. -/
def splitWindow (parent inner : PagePtr) (sib : Page) : SplitWindow where
  page := inner
  isRoot := decide (parent = .superRoot)
  moved := (live sib.children (sib.count.toNat + 1)).filterMap fun c =>
    match c with
    | .swizzled q => some q
    | .remote _ => none

def splitInnerChild (parent : PagePtr) (inner : PagePtr) : M Unit := do
  let p ← getPage inner
  let addr ← allocAddress
  emit (.called (.innerSplit p))
  let (sep, left, sib) := BTreeInner.split p (BTreeInner.construct p.level addr)
  modifyPage inner fun _ => { left with dirty := true }
  modify fun s => { s with innerNum := s.innerNum + 1 }
  let cachedSib ← relabel (.inSplit (splitWindow parent inner sib))
    (cacheInsert (.variable addr) sib parent)
  modifyPage cachedSib fun p => { p with posState := .hot, dirty := true }
  updateAllParentPtr cachedSib
  let p ← getPage inner
  if parent = .superRoot then
    makeNewRoot sep inner (.swizzled cachedSib) (p.level + 1)
  else insertIntoInner parent sep (.swizzled cachedSib)

def splitChild (parent : PagePtr) (idx : ℕ) (child : PagePtr) : M Unit := do
  let p ← getPage child
  if p.type = .btreeLeaf then splitLeafChild parent idx child
  else splitInnerChild parent child

/-! ## The tree interface -/

/-- More levels than a level byte can count. -/
def maxLevels : ℕ := 256

/-- The descent of `lookup`, `update`, `remove` and `range_scan`. -/
def findLeaf (k : Key) : ℕ → PagePtr → M PagePtr
  | 0, _ => halt .hang
  | fuel + 1, cur => do
      let p ← getPage cur
      if p.type = .btreeInner then do
        let child ← loadChild cur (BTreeInner.lowerBound p k)
        findLeaf k fuel child
      else pure cur

def leafFor (k : Key) : M PagePtr := do
  let cur ← loadChild .superRoot 0
  findLeaf k maxLevels cur

/-- Split a full child and pick the child for `k` again. -/
def splitIfFull (k : Key) (inner : PagePtr) (idx : ℕ) (child : PagePtr) :
    M PagePtr := do
  let p ← getPage child
  if isFull p then do
    splitChild inner idx child
    let q ← getPage inner
    loadChild inner (BTreeInner.lowerBound q k)
  else pure child

/-- The descent of `insert`, which splits every full page on its way. -/
def findLeafSplitting (k : Key) : ℕ → PagePtr → M PagePtr
  | 0, _ => halt .hang
  | fuel + 1, cur => do
      let p ← getPage cur
      if p.type = .btreeInner then do
        let idx := BTreeInner.lowerBound p k
        let child ← loadChild cur idx
        let child ← splitIfFull k cur idx child
        findLeafSplitting k fuel child
      else pure cur

/-- The root page, split first if it is full. -/
def rootForInsert : M PagePtr := do
  let cur ← loadChild .superRoot 0
  let p ← getPage cur
  if isFull p then do
    splitChild .superRoot 0 cur
    loadChild .superRoot 0
  else pure cur

namespace LeanStoreTree

def insert (k : Key) (v : Value) : M Bool := do
  let cur ← rootForInsert
  let leaf ← findLeafSplitting k maxLevels cur
  let p ← getPage leaf
  emit (.called (.leafInsert p k))
  let (inserted, p') := BTreeLeaf.insert p k v
  modifyPage leaf fun _ => { p' with dirty := true }
  pure inserted

/-- The result is nothing where the source returns false. -/
def lookup (k : Key) : M (Option Value) := do
  let leaf ← leafFor k
  let p ← getPage leaf
  pure (BTreeLeaf.find p k)

/-- Store what a leaf operation returns, dirty if it succeeded. -/
def editLeaf (k : Key) (call : Page → NodeCall)
    (edit : Page → Bool × Page) : M Bool := do
  let leaf ← leafFor k
  let p ← getPage leaf
  emit (.called (call p))
  let (ok, p') := edit p
  modifyPage leaf fun _ => if ok then { p' with dirty := true } else p'
  pure ok

def update (k : Key) (v : Value) : M Bool :=
  editLeaf k (.leafUpdate · k) fun p => BTreeLeaf.update p k v

def remove (k : Key) : M Bool :=
  editLeaf k (.leafRemove · k) fun p => BTreeLeaf.remove p k

/-- The pairs written to the result buffer; their number is returned. -/
def rangeScan (k : Key) (num : ℕ) : M (List (Key × Value)) := do
  let leaf ← leafFor k
  let p ← getPage leaf
  pure (BTreeLeaf.rangeScan p k num)

def resetBufferPool (flushDirty : Bool) : M Unit :=
  resetCache flushDirty

end LeanStoreTree

/-! ## Runs -/

inductive Op where
  | insert (k : Key) (v : Value)
  | lookup (k : Key)
  | update (k : Key) (v : Value)
  | remove (k : Key)
  | rangeScan (k : Key) (num : ℕ)
  deriving DecidableEq

inductive Reply where
  | done (ok : Bool)
  | value (v : Option Value)
  | pairs (entries : List (Key × Value))
  deriving DecidableEq

def Op.run : Op → M Reply
  | insert k v => do
      let ok ← LeanStoreTree.insert k v
      pure (.done ok)
  | lookup k => do
      let v ← LeanStoreTree.lookup k
      pure (.value v)
  | update k v => do
      let ok ← LeanStoreTree.update k v
      pure (.done ok)
  | remove k => do
      let ok ← LeanStoreTree.remove k
      pure (.done ok)
  | rangeScan k num => do
      let entries ← LeanStoreTree.rangeScan k num
      pure (.pairs entries)

def runOps : List Op → M (List Reply)
  | [] => pure []
  | op :: ops => do
      let reply ← op.run
      let replies ← runOps ops
      pure (reply :: replies)

/-- A run on a freshly built tree. -/
def freshRun (ops : List Op) : M (List Reply) := do
  construct
  runOps ops

end CachingDex
