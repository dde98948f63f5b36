import CachingDex.Accesses
import CachingDex.PageTable
import CachingDex.Lib.Traced

/-!
# The state of one tree over its cache and backend

Everything a run of the tree reads or writes: the pages in memory, the pool
allocator, the free list, the cooling table, the page table, the backend,
and the fields of the tree object.  The two generators behind the random
choices are streams of numbers; a run consumes them draw by draw, so a
statement about all runs ranges over all streams.

The store of the backend is kept page by page under the byte offset where
the page starts.  All accesses of the tree start at offsets handed out by
`alloc`, which are multiples of the page size, and at the null offset.
-/

namespace CachingDex

open Lib

structure InMemoryBackend where
  capacityBytes : ℕ
  curOffset : ℕ
  store : ℕ → Page

namespace InMemoryBackend

def new (pageNums : ℕ) : InMemoryBackend where
  capacityBytes := pageNums * pageSize
  curOffset := pageSize
  store := fun _ => Page.zero

def inRange (b : InMemoryBackend) (addr : GlobalAddress) : Bool :=
  addr.offset + pageSize ≤ b.capacityBytes

/-- The page at an address, or nothing where the read fails. -/
def read (b : InMemoryBackend) (addr : GlobalAddress) : Option Page :=
  if b.inRange addr then some (b.store addr.offset) else none

def write (b : InMemoryBackend) (addr : GlobalAddress) (p : Page) :
    InMemoryBackend :=
  if b.inRange addr then
    { b with store := Function.update b.store addr.offset p }
  else b

/-- Room for one more page. -/
def hasRoom (b : InMemoryBackend) : Bool :=
  b.curOffset + pageSize ≤ b.capacityBytes

def alloc (b : InMemoryBackend) : GlobalAddress × InMemoryBackend :=
  if b.hasRoom then
    (.make 0 b.curOffset, { b with curOffset := b.curOffset + pageSize })
  else (.null, b)

variable {b : InMemoryBackend} {a : GlobalAddress} {p : Page}

@[simp] theorem curOffset_write : (b.write a p).curOffset = b.curOffset := by
  unfold write
  split <;> rfl

@[simp] theorem capacityBytes_write :
    (b.write a p).capacityBytes = b.capacityBytes := by
  unfold write
  split <;> rfl

@[simp] theorem store_alloc : b.alloc.2.store = b.store := by
  unfold alloc
  split <;> rfl

@[simp] theorem capacityBytes_alloc :
    b.alloc.2.capacityBytes = b.capacityBytes := by
  unfold alloc
  split <;> rfl

theorem store_write_self (h : b.inRange a = true) :
    (b.write a p).store a.offset = p := by
  rw [write, if_pos h]
  exact Function.update_self ..

theorem store_write_of_ne {o : ℕ} (h : o ≠ a.offset) :
    (b.write a p).store o = b.store o := by
  unfold write
  split
  · exact Function.update_of_ne h ..
  · rfl

end InMemoryBackend

structure CacheAllocator where
  baseAddress : UInt64
  pageNum : ℕ
  headIdx : ℕ

namespace CacheAllocator

def reset (a : CacheAllocator) : CacheAllocator :=
  { a with headIdx := 0 }

/-- The next slot, whether it is the last one, and the allocator after. -/
def allocate (a : CacheAllocator) :
    Option PagePtr × Bool × CacheAllocator :=
  if a.pageNum ≤ a.headIdx then (none, false, a)
  else
    (some (.slot a.headIdx), decide (a.headIdx = a.pageNum - 1),
      { a with headIdx := a.headIdx + 1 })

/-- The slot a draw selects. -/
def randomSelect (a : CacheAllocator) (draw : ℕ) : PagePtr :=
  let idx := draw % a.pageNum
  if a.headIdx < idx ∨ a.pageNum ≤ idx then
    .slot (idx % min a.headIdx a.pageNum)
  else .slot idx

/-- The indices of a selection, each with the bound it was taken below. -/
def selectIndices (a : CacheAllocator) (draw : ℕ) : List (ℕ × ℕ) :=
  let idx := draw % a.pageNum
  if a.headIdx < idx ∨ a.pageNum ≤ idx then
    let folded := idx % min a.headIdx a.pageNum
    [(idx, a.pageNum), (folded, min a.headIdx a.pageNum), (folded, a.pageNum)]
  else [(idx, a.pageNum)]

end CacheAllocator

/-- A fingerprint in the upper 16 bits over a page pointer. -/
structure Frame where
  fp : UInt16
  page : PagePtr

/-- Frames from the count on are not in use. -/
structure Bucket where
  count : ℕ
  frames : Vector Frame 6

namespace Bucket

def empty : Bucket :=
  ⟨0, Vector.replicate 6 ⟨0, .slot 0⟩⟩

/-- The page of the last frame in use. -/
def last (b : Bucket) : PagePtr :=
  ((b.frames[b.count - 1]?).getD ⟨0, .slot 0⟩).page

def dropLast (b : Bucket) : Bucket :=
  { b with count := b.count - 1 }

/-- The frames move up by one, and the new one goes to the front. -/
def push (b : Bucket) (frame : Frame) : Bucket where
  count := b.count + 1
  frames :=
    (moveCells b.frames 1 b.frames 0 b.count).setIfInBounds 0 frame

end Bucket

/-- The cooling table. -/
structure HashTable where
  bucketNum : ℕ
  table : ℕ → Bucket

namespace HashTable

def new (entryNum : ℕ) : HashTable where
  bucketNum := if entryNum % 6 = 0 then entryNum / 6 else entryNum / 6 + 1
  table := fun _ => .empty

def reset (h : HashTable) : HashTable :=
  { h with table := fun _ => .empty }

def bucketIdx (h : HashTable) (key : GlobalAddress) : ℕ :=
  (hashBytes key.val).toNat % h.bucketNum

def fingerprint (key : GlobalAddress) : UInt16 :=
  (hashBytes key.val >>> 49).toUInt16 ||| 0x8000

end HashTable

structure State where
  page : PagePtr → Page
  allocator : CacheAllocator
  /-- The free list, its last element first. -/
  localPageSet : List PagePtr
  hashTable : HashTable
  pageTable : PageTable
  /-- `state == 1`: the pool has been handed out once. -/
  dynamic : Bool
  innerMiss : ℕ
  leafMiss : ℕ
  wrongParent : ℕ
  backend : InMemoryBackend
  /-- The scratch page of `raw_remote_read` and `flush_all`. -/
  scratch : Page
  /-- The address of the tree object's `super_root_`. -/
  heapAddress : UInt64
  root : GlobalAddress
  height : ℕ
  leafNum : ℕ
  innerNum : ℕ
  selectDraws : ℕ → ℕ
  bucketDraws : ℕ → ℕ

namespace State

def setPage (s : State) (p : PagePtr) (page : Page) : State :=
  { s with page := Function.update s.page p page }

def setBucket (s : State) (i : ℕ) (b : Bucket) : State :=
  { s with hashTable :=
      { s.hashTable with table := Function.update s.hashTable.table i b } }

/-- The address of a page in memory. -/
def pointer (s : State) : PagePtr → UInt64
  | .superRoot => s.heapAddress
  | .slot i => s.allocator.baseAddress + UInt64.ofNat (i * pageSize)
  | .ioFlag => (1 : UInt64) <<< 63

@[simp] theorem setPage_self (s : State) (p : PagePtr) (page : Page) :
    (s.setPage p page).page p = page :=
  Function.update_self ..

@[simp] theorem setPage_of_ne {s : State} {p q : PagePtr} {page : Page}
    (h : q ≠ p) : (s.setPage p page).page q = s.page q :=
  Function.update_of_ne h ..

@[simp] theorem setPage_allocator (s : State) (p : PagePtr) (page : Page) :
    (s.setPage p page).allocator = s.allocator := rfl

@[simp] theorem setPage_localPageSet (s : State) (p : PagePtr)
    (page : Page) : (s.setPage p page).localPageSet = s.localPageSet := rfl

@[simp] theorem setPage_hashTable (s : State) (p : PagePtr) (page : Page) :
    (s.setPage p page).hashTable = s.hashTable := rfl

@[simp] theorem setPage_pageTable (s : State) (p : PagePtr) (page : Page) :
    (s.setPage p page).pageTable = s.pageTable := rfl

@[simp] theorem setPage_dynamic (s : State) (p : PagePtr) (page : Page) :
    (s.setPage p page).dynamic = s.dynamic := rfl

@[simp] theorem setPage_backend (s : State) (p : PagePtr) (page : Page) :
    (s.setPage p page).backend = s.backend := rfl

end State

/-! ## Outcomes of a run -/

/-- The assertions of the source that a run may trip. -/
inductive Assertion where
  | walkUntagged
  | victimHot
  | parentChildInfo
  | evictDirty
  | bucketIndex
  | upsertAddress
  | innerRoom
  | unswizzleBitmap
  | slotHot
  | parentIsSuper
  | loadedState
  | loadedParent
  | loadUnflagged
  | childMissing
  | replaceTarget
  | replaceSlot
  | replaceEntry
  deriving DecidableEq

/-- The ways a run stops early: a failed assertion, the `exit(0)` of
`sample_page`, a loop that does not end, or an access to a page through a
pointer that leads to none. -/
inductive Halt where
  | assertion (a : Assertion)
  | exit0
  | hang
  | wildPointer
  deriving DecidableEq

/-- What the sampler did with the page its walk ended at. -/
inductive Sampled where
  | demoted
  | staleParent
  | orphan
  | superRootChild
  | checkFailed
  deriving DecidableEq

/-- A split of an inner page in progress: the page, whether it hangs below
`super_root_`, and the cached children that moved to the sibling. -/
structure SplitWindow where
  page : PagePtr
  isRoot : Bool
  moved : List PagePtr

/-- What a run leaves in its trace.  The events change nothing. -/
inductive Event where
  /-- The sampler's walk ended at a page. -/
  | sampled (cur : PagePtr) (outcome : Sampled)
  /-- A page was asked for after the pool had been handed out. -/
  | recycled
  /-- A page was taken out of the cooling table to reuse its slot. -/
  | evicted (page : PagePtr)
  /-- A slot was handed out. -/
  | handedOut (page : PagePtr)
  /-- A page of the pool was written to the backend; its obsolete flag. -/
  | written (obsolete : Bool)
  /-- The backend had no room for a page. -/
  | allocFailed
  /-- A node operation was called. -/
  | called (call : NodeCall)
  /-- Indices were taken, each below a bound; of a remainder the bound is the
  modulus. -/
  | indexed (indices : List (ℕ × ℕ))
  /-- An event while an inner page was being split. -/
  | inSplit (window : SplitWindow) (event : Event)

abbrev M : Type → Type := Traced State Halt Event

def getPage (p : PagePtr) : M Page :=
  Traced.gets fun s => s.page p

def modifyPage (p : PagePtr) (f : Page → Page) : M Unit :=
  Traced.modify fun s => s.setPage p (f (s.page p))

end CachingDex
