import CachingDex.State

/-!
# The cache manager

The page helpers, the cooling table and the cache manager, statement by
statement.  A page leaves the hot state when `samplePage` draws a slot,
walks down along tagged children and demotes the page where the walk ends;
it then waits in the cooling table until `getEmptyPage` needs its slot.

Assertions that compare a value with itself and loops guarded by a condition
that cannot hold with one thread are left out; every other assertion stops
the run.  A retry loop of the source is a recursion on the number of tries
that the source allows, or on a number of rounds it cannot exceed.
-/

namespace CachingDex

open Lib Lib.Traced

/-! ## Page helpers -/

/-- Read a page into the scratch buffer; a failed read leaves the buffer. -/
def rawRemoteRead (addr : GlobalAddress) : M Page := do
  modify fun s =>
    match s.backend.read addr with
    | some p => { s with scratch := p }
    | none => s
  gets fun s => s.scratch

/-- Write the image of `p`: without its parent pointer and page state. -/
def writeImage (addr : GlobalAddress) (p : Page) : M Unit :=
  if p.remoteAddress = addr then
    modify fun s =>
      { s with backend :=
          s.backend.write addr { p with parentPtr := none, posState := .remote } }
  else halt .hang

def remoteWrite (addr : GlobalAddress) (memNode : PagePtr) : M Unit := do
  modifyPage memNode fun p => { p with dirty := false }
  let p ← getPage memNode
  writeImage addr p
  emit (.written p.obsolete)

/-- Point the page behind a word at `memNode`, if the word is tagged. -/
def State.adopt (memNode : PagePtr) (s : State) : ChildSlot → State
  | .swizzled q => s.setPage q { s.page q with parentPtr := some memNode }
  | .remote _ => s

/-- Point the tagged children of a page back at it. -/
def updateAllParentPtr (memNode : PagePtr) : M Unit := do
  let inner ← getPage memNode
  if inner.type = .btreeLeaf then pure ()
  else
    modify fun s =>
      (live inner.children (inner.count.toNat + 1)).foldl (.adopt memNode) s

/-- Where a walk down the tagged children ends, and what it leaves in
`idx_in_parent`. -/
inductive Walk where
  | found (cur : PagePtr) (idxInParent : Option ℕ)
  | deadEnd (idxInParent : Option ℕ)
  | untagged
  | endless

/-- The walk of `recursive_iterate`.  It changes nothing, so one that visits
more pages than there are has no end. -/
def recursiveIterate (s : State) : ℕ → PagePtr → Option ℕ → Walk
  | 0, _, _ => .endless
  | fuel + 1, memNode, idxInParent =>
      let p := s.page memNode
      if p.bitmap ≠ 0 then
        let idx := (murmur64 (s.pointer memNode)).toNat % (p.count.toNat + 1)
        let nextIdx := BTreeInner.closestSet p idx
        if nextIdx = -1 then .deadEnd idxInParent
        else
          match p.child nextIdx.toNat with
          | .swizzled next =>
              recursiveIterate s fuel next (some nextIdx.toNat)
          | .remote _ => .untagged
      else if p.posState = .hot then .found memNode idxInParent
      else .deadEnd idxInParent

def checkLimitMatch (parent child : Page) (target : ChildSlot) : Bool :=
  match BTreeInner.findIdx parent target with
  | none => false
  | some idx =>
      let minLimit := if idx = 0 then parent.minLimit else parent.key (idx - 1)
      let maxLimit :=
        if idx = parent.count.toNat then parent.maxLimit else parent.key idx
      minLimit = child.minLimit ∧ maxLimit = child.maxLimit

def newCheckLimitMatch (parent child : Page) (idx : ℕ) : Bool :=
  let minLimit := if idx = 0 then parent.minLimit else parent.key (idx - 1)
  let maxLimit :=
    if idx = parent.count.toNat then parent.maxLimit else parent.key idx
  minLimit = child.minLimit ∧ maxLimit = child.maxLimit

/-- `check_parent_child_info` for the page `child` at `childPtr`. -/
def checkParentChildInfo (parent child : Page) (childPtr : PagePtr) : Bool :=
  parent.level = 255 ∨
    (parent.level.toNat = child.level.toNat + 1 ∧
      ¬ (child.minLimit < parent.minLimit ∨ parent.maxLimit < child.maxLimit) ∧
      (checkLimitMatch parent child (.swizzled childPtr) ∨
        checkLimitMatch parent child (.remote child.remoteAddress)))

/-! ## The cooling table -/

/-- The oldest page of bucket `i`, taken out. -/
def evictLast (i : ℕ) : M (Option PagePtr) := do
  let bucket ← gets fun s => s.hashTable.table i
  if bucket.count = 0 then pure none
  else
    let p ← getPage bucket.last
    check (!p.dirty) (.assertion .evictDirty)
    modify fun s => s.setBucket i bucket.dropLast
    emit (.evicted bucket.last)
    pure (some bucket.last)

/-- Put a frame at the front of bucket `i`, evicting the oldest page of a
full bucket. -/
def bucketInsert (i : ℕ) (frame : Frame) : M (Option PagePtr) := do
  let full ← gets fun s => decide ((s.hashTable.table i).count = 6)
  let evicted ← if full then evictLast i else pure none
  modify fun s => s.setBucket i ((s.hashTable.table i).push frame)
  pure evicted

/-- `page_table_->remove_with_lock` for a page by its own address. -/
def removeFromPageTable (victim : PagePtr) : M Unit := do
  let bucket ← gets fun s =>
    (s.pageTable.bucketIdx (s.page victim).remoteAddress,
      s.pageTable.bucketNum)
  emit (.indexed [bucket])
  modify fun s =>
    { s with pageTable :=
        (s.pageTable.remove (s.page victim).remoteAddress victim).1 }

/-- `HashTable::insert`; the result is the page evicted to make room. -/
def hashTableInsert (key : GlobalAddress) (value : PagePtr) :
    M (Option PagePtr) := do
  let p ← getPage value
  onlyIf p.dirty (remoteWrite p.remoteAddress value)
  let bucket ← gets fun s => (s.hashTable.bucketIdx key, s.hashTable.bucketNum)
  emit (.indexed [bucket])
  let evicted ← bucketInsert bucket.1 ⟨HashTable.fingerprint key, value⟩
  modifyPage value fun p => { p with posState := .cool }
  match evicted with
  | none => pure none
  | some victim => do
      removeFromPageTable victim
      pure (some victim)

/-- The probing loop of `random_evict_to_remote` over `n` buckets from `i`
on. -/
def probe : ℕ → ℕ → M (Option PagePtr)
  | 0, _ => pure none
  | n + 1, i => do
      let bucketNum ← gets fun s => s.hashTable.bucketNum
      emit (.indexed [(i, bucketNum)])
      let evicted ← evictLast i
      match evicted with
      | none => probe n (i + 1)
      | some victim => do
          removeFromPageTable victim
          pure (some victim)

def randomBucketIdx : M ℕ := do
  let bucket ← gets fun s =>
    (s.bucketDraws 0 % s.hashTable.bucketNum, s.hashTable.bucketNum)
  emit (.indexed [bucket])
  modify fun s => { s with bucketDraws := fun n => s.bucketDraws (n + 1) }
  check (bucket.1 < bucket.2) (.assertion .bucketIndex)
  pure bucket.1

def randomEvictToRemote (probingLength : ℕ) : M (Option PagePtr) := do
  let idx ← randomBucketIdx
  let bucketNum ← gets fun s => s.hashTable.bucketNum
  probe (min bucketNum (idx + probingLength) - idx) idx

/-! ## Demotion -/

/-- Put a page on the free list. -/
def insertLocalSet (page : PagePtr) : M Unit := do
  modifyPage page fun p => { p with posState := .local }
  modify fun s => { s with localPageSet := page :: s.localPageSet }

/-- Write a page back, put it into the cooling table, and put the page this
evicts on the free list. -/
def coolDown (cur : PagePtr) : M Unit := do
  let p ← getPage cur
  onlyIf p.dirty (remoteWrite p.remoteAddress cur)
  let evictPage ← hashTableInsert p.remoteAddress cur
  match evictPage with
  | none => pure ()
  | some page => insertLocalSet page

def randomSelect : M PagePtr := do
  let indices ← gets fun s => s.allocator.selectIndices (s.selectDraws 0)
  emit (.indexed indices)
  let page ← gets fun s => s.allocator.randomSelect (s.selectDraws 0)
  modify fun s => { s with selectDraws := fun n => s.selectDraws (n + 1) }
  pure page

/-- Cut a page out of its parent and cool it down. -/
def demote (parent : PagePtr) (idx : ℕ) (cur : PagePtr) : M Unit := do
  let p ← getPage cur
  modifyPage parent fun q =>
    BTreeInner.unsetBitmap (q.setChild idx (.remote p.remoteAddress)) idx
  modifyPage cur fun p => { p with parentPtr := none }
  coolDown cur

/-- The rest of a sampling round for the page where the walk ended; the
result says whether a page was demoted. -/
def sampleVictim (cur : PagePtr) (idxInParent : Option ℕ) : M Bool := do
  let p ← getPage cur
  match p.parentPtr with
  | none => do
      emit (.sampled cur .orphan)
      coolDown cur
      pure true
  | some parent => do
      let q ← getPage parent
      if q.level = 255 then do
        emit (.sampled cur .superRootChild)
        pure false
      else do
        check (p.posState = .hot) (.assertion .victimHot)
        match idxInParent.or (BTreeInner.findIdx q (.swizzled cur)) with
        | none => do
            emit (.sampled cur .staleParent)
            modifyPage cur fun p => { p with parentPtr := none }
            modify fun s => { s with wrongParent := s.wrongParent + 1 }
            pure false
        | some idx =>
            if checkParentChildInfo q p cur then do
              emit (.sampled cur .demoted)
              demote parent idx cur
              pure true
            else do
              emit (.sampled cur .checkFailed)
              halt (.assertion .parentChildInfo)

/-- One round of the loop of `sample_page`. -/
def sampleRound : M Bool := do
  let page ← randomSelect
  let p ← getPage page
  if p.posState = .hot then do
    let walk ← gets fun s =>
      recursiveIterate s (s.allocator.pageNum + 2) page none
    match walk with
    | .found cur idxInParent => sampleVictim cur idxInParent
    | .deadEnd _ => pure false
    | .untagged => halt (.assertion .walkUntagged)
    | .endless => halt .hang
  else pure false

def sampleRounds : ℕ → M Unit
  | 0 => halt .exit0
  | n + 1 => do
      let demoted ← sampleRound
      if demoted then pure () else sampleRounds n

/-- The counter of the source reaches 1000 after 999 rounds. -/
def samplePage : M Unit :=
  sampleRounds 999

def sampleMultiplePages : ℕ → M Unit
  | 0 => pure ()
  | n + 1 => do
      samplePage
      sampleMultiplePages n

/-! ## Free slots -/

def probingLength : ℕ := 8

def numPagesToSample : ℕ := 2

/-- Pop the free list. -/
def getLocalPageSet : M (Option PagePtr) := do
  let pages ← gets fun s => s.localPageSet
  match pages with
  | [] => pure none
  | page :: rest => do
      modify fun s => { s with localPageSet := rest }
      pure (some page)

/-- A slot in the dynamic phase, if this try yields one. -/
def recyclePage : M (Option PagePtr) := do
  let page ← getLocalPageSet
  match page with
  | some page => pure (some page)
  | none => do
      let evicted ← randomEvictToRemote probingLength
      match evicted with
      | some page => pure (some page)
      | none => do
          sampleMultiplePages numPagesToSample
          getLocalPageSet

/-- A slot from the allocator in the warm-up phase. -/
def allocatePage : M (Option PagePtr) := do
  let index ← gets fun s => (s.allocator.headIdx, s.allocator.pageNum)
  let (page, lastPage, allocator) ← gets fun s => s.allocator.allocate
  modify fun s =>
    { s with allocator := allocator, dynamic := s.dynamic || lastPage }
  match page with
  | some page => do
      emit (.indexed [index])
      pure (some page)
  | none => halt .hang

def tryGetEmptyPage : M (Option PagePtr) := do
  let dynamic ← gets fun s => s.dynamic
  if dynamic then do
    emit .recycled
    recyclePage
  else allocatePage

def getEmptyPageLoop : ℕ → M PagePtr
  | 0 => halt .hang
  | n + 1 => do
      let page ← tryGetEmptyPage
      match page with
      | some page => do
          emit (.handedOut page)
          pure page
      | none => getEmptyPageLoop n

/-- Every try that fails has demoted hot pages, so there are at most as many
as there are slots. -/
def getEmptyPage : M PagePtr := do
  let pageNum ← gets fun s => s.allocator.pageNum
  getEmptyPageLoop (pageNum + 1)

/-! ## Insertion into the cache -/

/-- The child word `cache_insert` is handed by reference: a slot of a page,
or a local variable that holds an address. -/
inductive SlotRef where
  | childOf (parent : PagePtr) (idx : ℕ)
  | variable (addr : GlobalAddress)

/-- `page_table_->upsert_with_lock` -/
def upsertPageTable (key : GlobalAddress) (value : PagePtr) : M Unit := do
  let bucket ← gets fun s => (s.pageTable.bucketIdx key, s.pageTable.bucketNum)
  emit (.indexed [bucket])
  let upserted ← gets fun s => s.pageTable.upsert key value
  let p ← getPage value
  onlyIf upserted.2.isFilled
    (check (p.remoteAddress = key) (.assertion .upsertAddress))
  modify fun s => { s with pageTable := upserted.1 }

/-- Copy a page into a free slot and swizzle the referenced child word.  The
word is read after the slot was found. -/
def cacheInsert (globalNode : SlotRef) (cacheNode : Page)
    (parentPtr : PagePtr) : M PagePtr := do
  let page ← getEmptyPage
  modifyPage page fun _ =>
    { cacheNode with posState := .pin, parentPtr := some parentPtr }
  match globalNode with
  | .variable addr => upsertPageTable addr page
  | .childOf parent idx => do
      let p ← getPage parent
      modifyPage parent fun p => p.setChild idx (.swizzled page)
      match p.child idx with
      | .remote addr => upsertPageTable addr page
      | .swizzled _ => halt (.assertion .upsertAddress)
  pure page

/-! ## Flushing and resetting -/

/-- Replace tagged child words by the addresses of the children. -/
def fullyUnswizzle (s : State) (p : Page) : Page :=
  if p.type = .btreeLeaf then p
  else
    { p with
      children := Vector.ofFn fun i =>
        if i.val ≤ p.count.toNat then
          match p.children.get i with
          | .swizzled q => .remote (s.page q).remoteAddress
          | c => c
        else p.children.get i
      bitmap := 0 }

/-- The bit of every tagged slot is set. -/
def bitmapCovers (p : Page) : Bool :=
  p.type = .btreeLeaf ∨
    ∀ i < p.count.toNat + 1, (p.child i).isSwizzled →
      p.bitmap.getLsbD i

/-- Write one dirty page of the pool back, unswizzled. -/
def flushPage (cur : PagePtr) : M Unit := do
  let p ← getPage cur
  onlyIf p.dirty do
    check (bitmapCovers p) (.assertion .unswizzleBitmap)
    modify fun s =>
      { s with scratch := { fullyUnswizzle s p with dirty := false } }
    let buffer ← gets fun s => s.scratch
    writeImage buffer.remoteAddress buffer
    emit (.written p.obsolete)
    modifyPage cur fun p => { p with dirty := false }

def flushFrom : ℕ → ℕ → M Unit
  | 0, _ => pure ()
  | n + 1, i => do
      let pageNum ← gets fun s => s.allocator.pageNum
      emit (.indexed [(i, pageNum)])
      flushPage (.slot i)
      flushFrom n (i + 1)

def flushAll : M Unit := do
  modify fun s => { s with innerMiss := 0, leafMiss := 0 }
  let pageNum ← gets fun s => s.allocator.pageNum
  flushFrom pageNum 0

/-- `CacheManager::reset`; zeroing the pool zeroes every slot. -/
def resetCache (flushDirty : Bool) : M Unit := do
  onlyIf flushDirty flushAll
  modify fun s =>
    { s with
      dynamic := false
      innerMiss := 0
      leafMiss := 0
      allocator := s.allocator.reset
      page := fun p =>
        match p with
        | .superRoot => s.page .superRoot
        | .slot i =>
            if i < s.allocator.pageNum then Page.zero else s.page (.slot i)
        | .ioFlag => s.page .ioFlag
      hashTable := s.hashTable.reset
      pageTable := s.pageTable.reset }

end CachingDex
