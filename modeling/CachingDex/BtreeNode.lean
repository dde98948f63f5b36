import CachingDex.Types
import CachingDex.Lib.LiveArray
import CachingDex.Lib.SortedSearch

/-!
# Node operations

The operations of the two node kinds on a page, as the source computes them:
binary search with an early exit, block moves inside the fixed arrays, and
counts kept in one unsigned byte.  Nothing here knows about the cache; a
split works on two pages in hand.
-/

namespace CachingDex

open Lib

namespace BTreeLeaf

/-- The constructor, run over a zeroed buffer. -/
def construct (remote : GlobalAddress) : Page :=
  { Page.zero with
    remoteAddress := remote
    dirty := true
    type := .btreeLeaf
    minLimit := ⊥
    maxLimit := ⊤ }

def isFull (p : Page) : Bool :=
  p.count = 59

def lowerBound (p : Page) (k : Key) : ℕ :=
  search (fun i => (p.entry i).1) k p.count.toNat 0 p.count.toNat

/-- The position `lowerBound` returns holds `k`. -/
def hit (p : Page) (k : Key) : Bool :=
  lowerBound p k < p.count.toNat ∧ (p.entry (lowerBound p k)).1 = k

def find (p : Page) (k : Key) : Option Value :=
  if hit p k then some (p.entry (lowerBound p k)).2 else none

/-- The entries copied out; their number is the result of the source. -/
def rangeScan (p : Page) (k : Key) (num : ℕ) : List (Key × Value) :=
  let pos := lowerBound p k
  if hit p k then
    let remainCount := p.count.toNat - pos
    let copyCount := min remainCount num
    ((live p.data p.count.toNat).drop pos).take copyCount
  else []

def insert (p : Page) (k : Key) (v : Value) : Bool × Page :=
  let p := { p with dirty := true }
  if 0 < p.count then
    let pos := lowerBound p k
    if hit p k then
      (false, { p with data := p.data.setIfInBounds pos ((p.entry pos).1, v) })
    else if 59 ≤ p.count then
      (false, p)
    else
      (true,
        { p with
          data := (moveCells p.data (pos + 1) p.data pos
            (p.count.toNat - pos)).setIfInBounds pos (k, v)
          count := p.count + 1 })
  else
    (true,
      { p with data := p.data.setIfInBounds 0 (k, v), count := p.count + 1 })

def remove (p : Page) (k : Key) : Bool × Page :=
  if p.count = 0 then (false, p)
  else
    let pos := lowerBound p k
    if hit p k then
      (true,
        { p with
          dirty := true
          data := moveCells p.data pos p.data (pos + 1)
            (p.count.toNat - pos - 1)
          count := p.count - 1 })
    else (false, p)

def update (p : Page) (k : Key) (v : Value) : Bool × Page :=
  let pos := lowerBound p k
  if hit p k then
    (true,
      { p with
        dirty := true
        data := p.data.setIfInBounds pos ((p.entry pos).1, v) })
  else (false, p)

/-- The separator, the left half and the filled sibling. -/
def split (p newLeaf : Page) : Key × Page × Page :=
  let newCount := p.count - p.count / 2
  let count := p.count - newCount
  let sep := (p.entry (count.toNat - 1)).1
  (sep,
    { p with
      count := count
      nextLeaf := newLeaf.remoteAddress
      maxLimit := sep
      dirty := true },
    { newLeaf with
      count := newCount
      data := moveCells newLeaf.data 0 p.data count.toNat newCount.toNat
      minLimit := sep
      maxLimit := p.maxLimit })

def rangeValid (p : Page) (k : Key) : Bool :=
  (k = ⊥ ∧ k = p.minLimit) ∨ (p.minLimit < k ∧ k ≤ p.maxLimit)

end BTreeLeaf

namespace BTreeInner

def construct (level : UInt8) (remote : GlobalAddress) : Page :=
  { Page.zero with
    remoteAddress := remote
    level := level
    dirty := true
    type := .btreeInner
    minLimit := ⊥
    maxLimit := ⊤ }

def isFull (p : Page) : Bool :=
  p.count = 59

def lowerBound (p : Page) (k : Key) : ℕ :=
  search p.key k p.count.toNat 0 p.count.toNat

/-- The first child slot that holds `target`; the source returns -1 when
there is none. -/
def findIdx (p : Page) (target : ChildSlot) : Option ℕ :=
  (List.range (p.count.toNat + 1)).find? fun i => p.child i = target

def setBitmap (p : Page) (idx : ℕ) : Page :=
  { p with bitmap := p.bitmap ||| 1#64 <<< idx }

def unsetBitmap (p : Page) (idx : ℕ) : Page :=
  { p with bitmap := p.bitmap &&& ~~~(1#64 <<< idx) }

def testBitmap (p : Page) (idx : ℕ) : Bool :=
  p.bitmap &&& 1#64 <<< idx ≠ 0

/-- The set bit closest to `pos`, the left one on a tie. -/
def closestSet (p : Page) (pos : ℕ) : ℤ :=
  if p.bitmap = 0 then -1
  else
    let bitPos := min pos 63
    let below := 1#64 <<< bitPos - 1
    let rightSets := p.bitmap &&& ~~~below
    let leftSets := p.bitmap &&& below
    let rightGap : ℤ :=
      if rightSets ≠ 0 then (rightSets.ctz.toNat : ℤ) - bitPos else 64
    let leftGap : ℤ :=
      if leftSets ≠ 0 then bitPos - (63 - (leftSets.clz.toNat : ℤ)) else 64
    if rightGap < leftGap ∧ pos + rightGap < p.count.toNat + 1
    then pos + rightGap
    else pos - leftGap

/-- The separator, the left half and the filled sibling. -/
def split (p newInner : Page) : Key × Page × Page :=
  let newCount := p.count - p.count / 2
  let count := p.count - newCount - 1
  let sep := p.key count.toNat
  let right := count.toNat + 1
  (sep,
    { p with
      count := count
      maxLimit := sep
      bitmap := p.bitmap &&& (1#64 <<< right - 1)
      dirty := true },
    { newInner with
      count := newCount
      keys := moveCells newInner.keys 0 p.keys right (newCount.toNat + 1)
      children :=
        moveCells newInner.children 0 p.children right (newCount.toNat + 1)
      minLimit := sep
      maxLimit := p.maxLimit
      bitmap := p.bitmap >>> right })

/-- The insertion of a separator with its right child, for a node with room;
the assertion on the count is made by the caller in the tree. -/
def insert (p : Page) (k : Key) (child : ChildSlot) : Page :=
  let pos := lowerBound p k
  let moved := p.count.toNat - pos + 1
  let children :=
    (moveCells p.children (pos + 1) p.children pos moved).setIfInBounds pos child
  -- `std::swap` keeps the old child to the left of the new separator
  let old := (children[pos + 1]?).getD default
  let children :=
    (children.setIfInBounds pos old).setIfInBounds (pos + 1) child
  let upperPart := (p.bitmap >>> (pos + 1)) <<< (pos + 2)
  let bitmap := (p.bitmap &&& (1#64 <<< (pos + 1) - 1)) ||| upperPart
  let inserted :=
    { p with
      keys := (moveCells p.keys (pos + 1) p.keys pos moved).setIfInBounds pos k
      children := children
      bitmap := bitmap
      count := p.count + 1
      dirty := true }
  if child.isSwizzled then setBitmap inserted (pos + 1) else inserted

end BTreeInner

end CachingDex
