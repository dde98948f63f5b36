import CachingDex.PageTableMap
import CachingDex.State
import CachingDex.Lib.Ledger

/-!
# The cooling table as the source stores it

A frame is one word: a fingerprint of the key in its upper 16 bits over the
48 bits of the page's address.  The four calls of the table's interface work
on these words, over any hash function, and a history of calls keeps a
ledger of the pages that went in and came out.

On pages at distinct addresses the words of a bucket are a list of pages, the
newest first.  No call loses a page or holds one twice, an eviction takes the
oldest page of its bucket, and a promotion finds the newest page of its key,
or the very page it is asked for.
-/

namespace CachingDex

open Lib

/-- `ADDRESS_HIDE` -/
def addressHide : UInt64 :=
  ((1 : UInt64) <<< 48) - 1

/-- Where pages lie in memory, and the page behind an address. -/
structure Layout where
  address : PagePtr → UInt64
  pageAt : UInt64 → PagePtr

/-- A page with an address of its own that fits under a fingerprint. -/
structure Layout.Apart (L : Layout) (p : PagePtr) : Prop where
  lt : (L.address p).toNat < 2 ^ 48
  pageAt_address : L.pageAt (L.address p) = p

/-- A bucket of the cooling table, its frames one word each. -/
structure WordBucket where
  count : ℕ
  frames : Vector UInt64 6

namespace WordBucket

def empty : WordBucket :=
  ⟨0, Vector.replicate 6 0⟩

def words (b : WordBucket) : List UInt64 :=
  live b.frames b.count

def last (b : WordBucket) : UInt64 :=
  (b.frames[b.count - 1]?).getD 0

def remove (b : WordBucket) (idx : ℕ) : WordBucket where
  count := b.count - 1
  frames :=
    let frames := b.frames.setIfInBounds idx 0
    moveCells frames idx frames (idx + 1) (b.count - idx - 1)

/-- The frames move up by one, and the payload goes to the front. -/
def push (b : WordBucket) (payload : UInt64) : WordBucket where
  count := b.count + 1
  frames := (moveCells b.frames 1 b.frames 0 b.count).setIfInBounds 0 payload

end WordBucket

/-- The cooling table with the pages, the page table and the backend that its
calls work on. -/
structure CoolTier where
  page : PagePtr → Page
  bucketNum : ℕ
  table : ℕ → WordBucket
  pageTable : PageTable
  backend : InMemoryBackend

inductive CoolOp where
  | insert (key : UInt64) (value : PagePtr)
  | tryPromote (key : UInt64)
  | tryPromoteUsingValue (key : UInt64) (page : PagePtr)
  | randomEvictToRemote (idx probingLength : ℕ)

/-- What a call returns, and the page it hands back through its argument. -/
abbrev CoolReply := Bool × Option PagePtr

namespace CoolTier

section Calls

variable (hash : UInt64 → UInt64) (L : Layout) (t : CoolTier)

def bucketIdx (key : UInt64) : ℕ :=
  (hash key).toNat % t.bucketNum

def fingerprint (key : UInt64) : UInt64 :=
  hash key >>> 49 ||| (1 : UInt64) <<< 15

def payload (key : UInt64) (value : PagePtr) : UInt64 :=
  fingerprint hash key <<< 48 ||| (L.address value &&& addressHide)

/-- The page in a frame. -/
def unpack (word : UInt64) : PagePtr :=
  L.pageAt (word &&& addressHide)

def setBucket (i : ℕ) (b : WordBucket) : CoolTier :=
  { t with table := Function.update t.table i b }

def setPage (p : PagePtr) (page : Page) : CoolTier :=
  { t with page := Function.update t.page p page }

/-- `match` -/
def matchKey (key fp : UInt64) (b : WordBucket) : Option ℕ :=
  b.words.findIdx? fun w : UInt64 =>
    w >>> 48 = fp ∧ (t.page (unpack L w)).remoteAddress.val = key

/-- `match_value` -/
def matchValue (fp : UInt64) (value : PagePtr) (b : WordBucket) : Option ℕ :=
  b.words.findIdx? fun w : UInt64 =>
    w >>> 48 = fp ∧ w &&& addressHide = L.address value

/-- Take out the oldest page of bucket `i`; nothing where the assertion on
its dirty flag fails. -/
def evictLast (i : ℕ) : Option (CoolTier × Option PagePtr) :=
  let b := t.table i
  if b.count = 0 then some (t, none)
  else
    let page := unpack L b.last
    if (t.page page).dirty then none
    else some (t.setBucket i { b with count := b.count - 1 }, some page)

def bucketInsert (i : ℕ) (payload : UInt64) :
    Option (CoolTier × Option PagePtr) := do
  let (t', evicted) ←
    if (t.table i).count = 6 then t.evictLast L i else some (t, none)
  pure (t'.setBucket i ((t'.table i).push payload), evicted)

def markCool (p : PagePtr) : CoolTier :=
  t.setPage p { t.page p with posState := .cool }

/-- The hash of a page's address. -/
def addressHash (a : GlobalAddress) : ℕ :=
  (hash a.val).toNat

/-- `remove_with_lock` of the page table for a page by its own address. -/
def removeEntry (victim : PagePtr) : CoolTier :=
  let op := TableOp.remove (t.page victim).remoteAddress victim
  match t.pageTable.call (addressHash hash) op with
  | some (pageTable, _) => { t with pageTable := pageTable }
  | none => t

/-- `remote_write` of a page to its own address. -/
def remoteWrite (value : PagePtr) : CoolTier :=
  let p := { t.page value with dirty := false }
  { t.setPage value p with
    backend := t.backend.write p.remoteAddress
      { p with parentPtr := none, posState := .remote } }

def insert (key : UInt64) (value : PagePtr) :
    Option (CoolTier × Option PagePtr) := do
  let t := if (t.page value).dirty then t.remoteWrite value else t
  let (t, evicted) ←
    t.bucketInsert L (t.bucketIdx hash key) (payload hash L key value)
  let t := t.markCool value
  match evicted with
  | none => pure (t, none)
  | some victim => pure (t.removeEntry hash victim, some victim)

def tryPromote (key : UInt64) : CoolTier × Option PagePtr :=
  let i := t.bucketIdx hash key
  let b := t.table i
  match t.matchKey L key (fingerprint hash key) b with
  | none => (t, none)
  | some idx =>
      (t.setBucket i (b.remove idx),
        some (unpack L ((b.frames[idx]?).getD 0)))

def tryPromoteUsingValue (key : UInt64) (page : PagePtr) : CoolTier × Bool :=
  let i := t.bucketIdx hash key
  let b := t.table i
  match matchValue L (fingerprint hash key) page b with
  | none => (t, false)
  | some idx => (t.setBucket i (b.remove idx), true)

/-- The probing loop over `n` buckets from `i` on. -/
def probe : ℕ → ℕ → Option (CoolTier × Option PagePtr)
  | 0, _ => some (t, none)
  | n + 1, i => do
      let (t', evicted) ← t.evictLast L i
      match evicted with
      | none => probe n (i + 1)
      | some victim => pure (t'.removeEntry hash victim, some victim)

def randomEvictToRemote (idx probingLength : ℕ) :
    Option (CoolTier × Option PagePtr) :=
  t.probe hash L (min t.bucketNum (idx + probingLength) - idx) idx

/-- One call; nothing where an assertion fails. -/
def call : CoolOp → Option (CoolTier × CoolReply)
  | .insert key value =>
      (t.insert hash L key value).map fun (t', evicted) =>
        (t', true, evicted)
  | .tryPromote key =>
      let (t', page) := t.tryPromote hash L key
      some (t', page.isSome, page)
  | .tryPromoteUsingValue key page =>
      let (t', found) := t.tryPromoteUsingValue hash L key page
      some (t', found, none)
  | .randomEvictToRemote idx probingLength =>
      (t.randomEvictToRemote hash L idx probingLength).map
        fun (t', page) => (t', page.isSome, page)

end Calls

end CoolTier

end CachingDex
