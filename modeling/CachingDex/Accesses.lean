import CachingDex.BtreeNodeSpec

/-!
# What the node operations touch

The arrays of a page have a fixed size and its count is one byte, and the
source trusts its callers for both.  For every call of a node operation this
file lists the blocks it moves, the single cells it reads or writes, the
values it assigns to a count and the amounts by which it shifts a bitmap, all
as exact integers.  A call is safe when none of them leaves its range, which
the second half derives from the counts of the pages.
-/

namespace CachingDex

/-- The arrays inside a page. -/
inductive PageArray where
  | data
  | keys
  | children
  deriving DecidableEq

def PageArray.size : PageArray → ℤ
  | data => 59
  | keys => 60
  | children => 60

/-- One `memmove` or `memcpy` of `len` cells, possibly from one page into
the same array of another. -/
structure Move where
  array : PageArray
  dst : ℤ
  src : ℤ
  len : ℤ

/-- The cells of the move lie inside the array, and the length, an unsigned
number, did not wrap. -/
def Move.Inside (m : Move) : Prop :=
  0 ≤ m.len ∧ 0 ≤ m.dst ∧ 0 ≤ m.src ∧ m.dst + m.len ≤ m.array.size ∧
    m.src + m.len ≤ m.array.size

instance (m : Move) : Decidable m.Inside :=
  inferInstanceAs (Decidable (_ ∧ _ ∧ _ ∧ _ ∧ _))

structure Footprint where
  moves : List Move
  cells : List (PageArray × ℤ)
  /-- The values of the arithmetic on counts, before they are cut to a
  byte. -/
  counts : List ℤ
  shifts : List ℤ

namespace Footprint

def empty : Footprint :=
  ⟨[], [], [], []⟩

structure Safe (f : Footprint) : Prop where
  moves : ∀ m ∈ f.moves, m.Inside
  cells : ∀ c ∈ f.cells, 0 ≤ c.2 ∧ c.2 < c.1.size
  counts : ∀ n ∈ f.counts, 0 ≤ n ∧ n < 256
  shifts : ∀ n ∈ f.shifts, 0 ≤ n ∧ n < 64

theorem safe_empty : empty.Safe := by
  constructor <;> simp [empty]

end Footprint

/-- The calls of node operations that move cells or change a count or a
bitmap. -/
inductive NodeCall where
  | leafInsert (p : Page) (k : Key)
  | leafUpdate (p : Page) (k : Key)
  | leafRemove (p : Page) (k : Key)
  | leafSplit (p : Page)
  | innerInsert (p : Page) (k : Key)
  | innerSplit (p : Page)
  | setBitmap (idx : ℕ)

namespace NodeCall

def footprint : NodeCall → Footprint
  | leafInsert p k =>
      let count : ℤ := p.count.toNat
      let pos : ℤ := BTreeLeaf.lowerBound p k
      if 0 < p.count then
        if BTreeLeaf.hit p k then ⟨[], [(.data, pos)], [], []⟩
        else if 59 ≤ p.count then .empty
        else
          ⟨[⟨.data, pos + 1, pos, count - pos⟩], [(.data, pos)], [count + 1],
            []⟩
      else ⟨[], [(.data, 0)], [count + 1], []⟩
  | leafUpdate p k =>
      if BTreeLeaf.hit p k then
        ⟨[], [(.data, BTreeLeaf.lowerBound p k)], [], []⟩
      else .empty
  | leafRemove p k =>
      let count : ℤ := p.count.toNat
      let pos : ℤ := BTreeLeaf.lowerBound p k
      if p.count ≠ 0 ∧ BTreeLeaf.hit p k then
        ⟨[⟨.data, pos, pos + 1, count - pos - 1⟩], [], [count - 1], []⟩
      else .empty
  | leafSplit p =>
      let count : ℤ := p.count.toNat
      let moved := count - count / 2
      let left := count - moved
      ⟨[⟨.data, 0, left, moved⟩], [(.data, left - 1)], [moved, left], []⟩
  | innerInsert p k =>
      let count : ℤ := p.count.toNat
      let pos : ℤ := BTreeInner.lowerBound p k
      let len := count - pos + 1
      ⟨[⟨.keys, pos + 1, pos, len⟩, ⟨.children, pos + 1, pos, len⟩],
        [(.keys, pos), (.children, pos), (.children, pos + 1)], [count + 1],
        [pos + 1, pos + 2]⟩
  | innerSplit p =>
      let count : ℤ := p.count.toNat
      let moved := count - count / 2
      let left := count - moved - 1
      ⟨[⟨.keys, 0, left + 1, moved + 1⟩, ⟨.children, 0, left + 1, moved + 1⟩],
        [(.keys, left)], [moved, left], [left + 1]⟩
  | setBitmap idx => ⟨[], [], [], [idx]⟩

/-- An insertion finds a place: an inner node takes a separator only if it
has room, and a full leaf is asked only for keys it holds. -/
def HasRoom : NodeCall → Prop
  | leafInsert p k => p.count.toNat < 59 ∨ BTreeLeaf.hit p k = true
  | innerInsert p _ => p.count.toNat < 59
  | _ => True

structure Safe (c : NodeCall) : Prop where
  room : c.HasRoom
  footprint : c.footprint.Safe

/-! ## Safe calls -/

section Safety

variable {p : Page} {k : Key}

theorem hit_lt (h : BTreeLeaf.hit p k = true) :
    BTreeLeaf.lowerBound p k < p.count.toNat := by
  simp only [BTreeLeaf.hit, Bool.decide_and, Bool.and_eq_true,
    decide_eq_true_eq] at h
  exact h.1

theorem safe_leafInsert (hcount : p.count.toNat < 59) :
    (leafInsert p k).Safe := by
  have hle := BTreeLeaf.lowerBound_le p k
  refine ⟨Or.inl hcount, ?_⟩
  simp only [footprint]
  split
  · split
    · rename_i hhit
      have := hit_lt hhit
      constructor <;> simp [PageArray.size]
      omega
    · split
      · exact Footprint.safe_empty
      · constructor <;> simp [Move.Inside, PageArray.size] <;> omega
  · constructor <;> simp [PageArray.size]
    omega

theorem safe_leafUpdate (hcount : p.count.toNat ≤ 59) :
    (leafUpdate p k).Safe := by
  refine ⟨trivial, ?_⟩
  simp only [footprint]
  split
  · rename_i hhit
    have := hit_lt hhit
    constructor <;> simp [PageArray.size]
    omega
  · exact Footprint.safe_empty

theorem safe_leafRemove (hcount : p.count.toNat ≤ 59) :
    (leafRemove p k).Safe := by
  refine ⟨trivial, ?_⟩
  simp only [footprint]
  split
  · rename_i hhit
    have := hit_lt hhit.2
    constructor <;> simp [Move.Inside, PageArray.size] <;> omega
  · exact Footprint.safe_empty

theorem safe_leafSplit (hcount : p.count.toNat ≤ 59)
    (hlow : 2 ≤ p.count.toNat) : (leafSplit p).Safe := by
  refine ⟨trivial, ?_⟩
  simp only [footprint]
  constructor <;> simp [Move.Inside, PageArray.size] <;> omega

theorem safe_innerInsert (hcount : p.count.toNat < 59) :
    (innerInsert p k).Safe := by
  have hle := BTreeInner.lowerBound_le p k
  refine ⟨hcount, ?_⟩
  simp only [footprint]
  constructor <;> simp [Move.Inside, PageArray.size] <;> omega

theorem safe_innerSplit (hcount : p.count.toNat ≤ 59)
    (hlow : 2 ≤ p.count.toNat) : (innerSplit p).Safe := by
  refine ⟨trivial, ?_⟩
  simp only [footprint]
  constructor <;> simp [Move.Inside, PageArray.size] <;> omega

theorem safe_setBitmap {idx : ℕ} (h : idx < 64) : (setBitmap idx).Safe := by
  refine ⟨trivial, ?_⟩
  simp only [footprint]
  constructor <;> simp
  omega

end Safety

end NodeCall

end CachingDex
