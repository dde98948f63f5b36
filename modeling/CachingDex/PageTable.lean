import CachingDex.Types

/-!
# The page table

Buckets of three frames, each with a count of its frames in use and a chain
of overflow buckets behind it.  A frame is free when its page pointer is
null.  The table maps a backend address to the slot that holds the page.
-/

namespace CachingDex

structure PageFrame where
  pageId : GlobalAddress
  bufferPage : Option PagePtr

structure PageBucket where
  count : UInt32
  frames : Vector PageFrame 3

/-- A bucket of zero bytes. -/
def PageBucket.empty : PageBucket :=
  ⟨0, Vector.replicate 3 ⟨.null, none⟩⟩

/-- Each head bucket with the overflow buckets chained behind it. -/
structure PageTable where
  bucketNum : ℕ
  table : ℕ → List PageBucket

/-- What an upsert did: it found the key, took a free frame, or appended a
bucket. -/
inductive UpsertOutcome where
  | replaced (old : Option PagePtr)
  | filled
  | chained

/-- The key went into a frame of an existing bucket. -/
def UpsertOutcome.isFilled : UpsertOutcome → Bool
  | filled => true
  | _ => false

namespace PageTable

def new (entryNum : ℕ) : PageTable where
  bucketNum := if entryNum % 3 = 0 then entryNum / 3 else entryNum / 3 + 1
  table := fun _ => [.empty]

def reset (t : PageTable) : PageTable :=
  { t with table := fun _ => [.empty] }

/-- `get_bucket` -/
def bucketIdx (t : PageTable) (key : GlobalAddress) : ℕ :=
  (hashBytes key.val).toNat % t.bucketNum

def holds (key : GlobalAddress) (f : PageFrame) : Bool :=
  f.pageId = key ∧ f.bufferPage ≠ none

def free (f : PageFrame) : Bool :=
  f.bufferPage = none

/-- Replace the page in frame `i`. -/
def replaceFrame (key : GlobalAddress) (value : PagePtr) (b : PageBucket)
    (i : ℕ) : PageBucket :=
  { b with frames := b.frames.setIfInBounds i ⟨key, some value⟩ }

/-- Take frame `i` into use. -/
def fillFrame (key : GlobalAddress) (value : PagePtr) (b : PageBucket)
    (i : ℕ) : PageBucket where
  count := b.count + 1
  frames := b.frames.setIfInBounds i ⟨key, some value⟩

/-- Free frame `i`. -/
def freeFrame (key : GlobalAddress) (b : PageBucket) (i : ℕ) : PageBucket where
  count := b.count - 1
  frames := b.frames.setIfInBounds i ⟨key, none⟩

/-- Rewrite the first frame of the chain that satisfies `p`. -/
def modifyFirst (p : PageFrame → Bool) (f : PageBucket → ℕ → PageBucket) :
    List PageBucket → Option (List PageBucket)
  | [] => none
  | b :: rest =>
      match b.frames.toList.findIdx? p with
      | some i => some (f b i :: rest)
      | none => (modifyFirst p f rest).map (b :: ·)

/-- The page that `get` finds on a chain. -/
def getChain (chain : List PageBucket) (key : GlobalAddress) :
    Option PagePtr :=
  ((chain.flatMap fun b => b.frames.toList).find? (holds key)).bind
    PageFrame.bufferPage

def upsertChain (chain : List PageBucket) (key : GlobalAddress)
    (value : PagePtr) : List PageBucket × UpsertOutcome :=
  match modifyFirst (holds key) (replaceFrame key value) chain with
  | some chain' => (chain', .replaced (getChain chain key))
  | none =>
      match modifyFirst free (fillFrame key value) chain with
      | some chain' => (chain', .filled)
      | none => (chain ++ [fillFrame key value .empty 0], .chained)

def setChain (t : PageTable) (i : ℕ) (chain : List PageBucket) : PageTable :=
  { t with table := Function.update t.table i chain }

def upsert (t : PageTable) (key : GlobalAddress) (value : PagePtr) :
    PageTable × UpsertOutcome :=
  let i := t.bucketIdx key
  let (chain, outcome) := upsertChain (t.table i) key value
  (t.setChain i chain, outcome)

/-- Free the first frame in `p`, and unlink an overflow bucket that became
empty. -/
def removeFirst (p : PageFrame → Bool) (key : GlobalAddress) :
    Bool → List PageBucket → Option (List PageBucket)
  | _, [] => none
  | hasPrev, b :: rest =>
      match b.frames.toList.findIdx? p with
      | some i =>
          if (freeFrame key b i).count = 0 ∧ hasPrev then some rest
          else some (freeFrame key b i :: rest)
      | none => (removeFirst p key true rest).map (b :: ·)

/-- Remove the entry of `key` and `value`. -/
def removeChain (key : GlobalAddress) (value : PagePtr) :
    Bool → List PageBucket → Option (List PageBucket) :=
  removeFirst (fun f => f.pageId = key ∧ f.bufferPage = some value) key

def remove (t : PageTable) (key : GlobalAddress) (value : PagePtr) :
    PageTable × Bool :=
  let i := t.bucketIdx key
  match removeChain key value false (t.table i) with
  | some chain => (t.setChain i chain, true)
  | none => (t, false)

def get (t : PageTable) (key : GlobalAddress) : Option PagePtr :=
  getChain (t.table (t.bucketIdx key)) key

/-- `insert` on a chain: whether the key was new, and the page found if it was
not. -/
def insertChain (chain : List PageBucket) (key : GlobalAddress)
    (value : PagePtr) : List PageBucket × Bool × Option PagePtr :=
  match getChain chain key with
  | some page => (chain, false, some page)
  | none =>
      match modifyFirst free (fillFrame key value) chain with
      | some chain' => (chain', true, none)
      | none => (chain ++ [fillFrame key value .empty 0], true, none)

/-- `update` on a chain: whether the key was there, and its old page. -/
def updateChain (chain : List PageBucket) (key : GlobalAddress)
    (value : PagePtr) : List PageBucket × Bool × Option PagePtr :=
  match modifyFirst (holds key) (replaceFrame key value) chain with
  | some chain' => (chain', true, getChain chain key)
  | none => (chain, false, none)

def insert (t : PageTable) (key : GlobalAddress) (value : PagePtr) :
    PageTable × Bool × Option PagePtr :=
  let i := t.bucketIdx key
  let (chain, reply) := insertChain (t.table i) key value
  (t.setChain i chain, reply)

def update (t : PageTable) (key : GlobalAddress) (value : PagePtr) :
    PageTable × Bool × Option PagePtr :=
  let i := t.bucketIdx key
  let (chain, reply) := updateChain (t.table i) key value
  (t.setChain i chain, reply)

/-- `RMW` on a chain. -/
def rmwChain (chain : List PageBucket) (key : GlobalAddress)
    (new old : PagePtr) : List PageBucket × Bool :=
  match modifyFirst (fun f => f.pageId = key ∧ f.bufferPage = some old)
      (replaceFrame key new) chain with
  | some chain' => (chain', true)
  | none => (chain, false)

/-- `remove` by key alone: the first frame with the key is freed, whether or
not it is in use. -/
def removeKeyChain (key : GlobalAddress) :
    Bool → List PageBucket → Option (List PageBucket) :=
  removeFirst (fun f => f.pageId = key) key

end PageTable

/-- The calls of the page table's interface.  Where the source asserts on the
page behind a value, the call carries that page's `remote_address`. -/
inductive TableOp where
  | insert (key : GlobalAddress) (value : PagePtr)
  | upsert (key : GlobalAddress) (value : PagePtr) (address : GlobalAddress)
  | update (key : GlobalAddress) (value : PagePtr) (address : GlobalAddress)
  | rmw (key : GlobalAddress) (new old : PagePtr)
  | remove (key : GlobalAddress) (value : PagePtr)
  | removeKey (key : GlobalAddress)
  | checkAndRemove (key : GlobalAddress)
  | reset

/-- What a call returns, and the page it reports through its argument. -/
abbrev TableReply := Bool × Option PagePtr

namespace PageTable

section Hash

variable (hash : GlobalAddress → ℕ) (t : PageTable)

/-- The head bucket of a key under a hash function. -/
def headOf (key : GlobalAddress) : ℕ :=
  hash key % t.bucketNum

/-- `get` on the bucket of its key. -/
def getIn (key : GlobalAddress) : Option PagePtr :=
  getChain (t.table (t.headOf hash key)) key

/-- `remove(bucket, key)` on the bucket of its key. -/
def removeKeyIn (key : GlobalAddress) : PageTable × Bool :=
  match removeKeyChain key false (t.table (t.headOf hash key)) with
  | some chain => (t.setChain (t.headOf hash key) chain, true)
  | none => (t, false)

/-- One call, on the bucket of its key; nothing where an assertion fails. -/
def call : TableOp → Option (PageTable × TableReply)
  | .insert key value =>
      let i := t.headOf hash key
      let (chain, reply) := insertChain (t.table i) key value
      some (t.setChain i chain, reply)
  | .upsert key value address =>
      let i := t.headOf hash key
      let (chain, outcome) := upsertChain (t.table i) key value
      if outcome.isFilled ∧ address ≠ key then none
      else
        match outcome with
        | .replaced old => some (t.setChain i chain, false, old)
        | _ => some (t.setChain i chain, true, none)
  | .update key value address =>
      let i := t.headOf hash key
      let (chain, found, old) := updateChain (t.table i) key value
      if found ∧ address ≠ key then none
      else some (t.setChain i chain, found, old)
  | .rmw key new old =>
      let i := t.headOf hash key
      let (chain, found) := rmwChain (t.table i) key new old
      some (t.setChain i chain, found, none)
  | .remove key value =>
      let i := t.headOf hash key
      match removeChain key value false (t.table i) with
      | some chain => some (t.setChain i chain, true, none)
      | none => some (t, false, none)
  | .removeKey key =>
      let (t', found) := t.removeKeyIn hash key
      some (t', found, none)
  | .checkAndRemove key =>
      match t.getIn hash key with
      | none => some (t, false, none)
      | some _ =>
          let (t', found) := t.removeKeyIn hash key
          some (t', found, none)
  | .reset => some (t.reset, true, none)

end Hash

/-- The calls of a history, one after the other. -/
def calls (hash : GlobalAddress → ℕ) :
    PageTable → List TableOp → Option (PageTable × List TableReply)
  | t, [] => some (t, [])
  | t, op :: ops => do
      let (t', reply) ← t.call hash op
      let (t'', replies) ← calls hash t' ops
      pure (t'', reply :: replies)

end PageTable

end CachingDex
