import Mathlib.Tactic

/-!
# Addresses, pages and page states

A page of the tree is known under two names.  Its backend address is a node
id with an offset into that node's store; in the buffer pool it is named by
its slot.  A child slot of an inner page holds one or the other: the tag bit
of the source, which tells a pool pointer from a backend address, is the
constructor of `ChildSlot`.

A page is the record of the header fields and arrays of the source.  The
source lets a leaf's entries and an inner node's keys and children share one
block of memory; here they are separate fields, of which the page type says
which are in use.
-/

namespace CachingDex

abbrev Key := UInt64

abbrev Value := UInt64

instance linearOrderUInt64 : LinearOrder UInt64 where
  le_refl := UInt64.le_refl
  le_trans _ _ _ := UInt64.le_trans
  le_antisymm _ _ := UInt64.le_antisymm
  le_total := UInt64.le_total
  lt_iff_le_not_ge a b := by
    simp only [UInt64.le_iff_toNat_le, UInt64.lt_iff_toNat_lt]
    omega
  toDecidableLE := inferInstance
  toDecidableLT := inferInstance

/-- `std::numeric_limits<Key>::min()` and `max()`. -/
instance boundedOrderUInt64 : BoundedOrder UInt64 where
  bot := 0
  top := UInt64.ofNat (UInt64.size - 1)
  bot_le a := by
    rw [UInt64.le_iff_toNat_le]
    exact Nat.zero_le _
  le_top a := by
    rw [UInt64.le_iff_toNat_le]
    have h := a.toNat_lt
    change a.toNat ≤ 2 ^ 64 - 1
    omega

/-- Bytes of one page. -/
def pageSize : ℕ := 1024

structure GlobalAddress where
  nodeID : Fin (2 ^ 16)
  offset : Fin (2 ^ 48)
  deriving DecidableEq, Inhabited

namespace GlobalAddress

/-- The constructor truncates both parts to their bit fields. -/
def make (nodeID offset : ℕ) : GlobalAddress :=
  ⟨Fin.ofNat _ nodeID, Fin.ofNat _ offset⟩

def null : GlobalAddress := make 0 0

/-- The 64-bit word of an address, the node id in its low 16 bits. -/
def val (a : GlobalAddress) : UInt64 :=
  UInt64.ofNat (a.offset * 2 ^ 16 + a.nodeID)

theorem val_injective : Function.Injective val := by
  rintro ⟨⟨n, hn⟩, ⟨o, ho⟩⟩ ⟨⟨n', hn'⟩, ⟨o', ho'⟩⟩ h
  have hnat := congrArg UInt64.toNat h
  simp only [val, UInt64.toNat_ofNat'] at hnat
  rw [Nat.mod_eq_of_lt (by omega), Nat.mod_eq_of_lt (by omega)] at hnat
  have : o = o' ∧ n = n' := by omega
  simp [this]

theorem offset_make {o : ℕ} (h : o < 2 ^ 48) : ((make 0 o).offset : ℕ) = o := by
  simp only [make, Fin.ofNat]
  exact Nat.mod_eq_of_lt h

end GlobalAddress

/-- The zero byte of a page that was never written is `unset`. -/
inductive PageType where
  | unset
  | btreeInner
  | btreeLeaf
  deriving DecidableEq, Inhabited

/-- The page state byte: 0 to 4 in this order. -/
inductive PosState where
  | remote
  | cool
  | hot
  | local
  | pin
  deriving DecidableEq, Inhabited

/-- A pointer to a page in memory: the tree's `super_root_` or a slot of the
pool.  `IO_FLAG` is the marker that the page table holds in the place of a
pointer while a page is being loaded; there is no page behind it. -/
inductive PagePtr where
  | superRoot
  | slot (i : ℕ)
  | ioFlag
  deriving DecidableEq, Inhabited

/-- A child word: a backend address, or a pool pointer under the tag. -/
inductive ChildSlot where
  | remote (addr : GlobalAddress)
  | swizzled (page : PagePtr)
  deriving DecidableEq

instance : Inhabited ChildSlot := ⟨.remote .null⟩

namespace ChildSlot

def isSwizzled : ChildSlot → Bool
  | remote _ => false
  | swizzled _ => true

end ChildSlot

structure Page where
  remoteAddress : GlobalAddress
  bitmap : BitVec 64
  parentPtr : Option PagePtr
  type : PageType
  count : UInt8
  level : UInt8
  posState : PosState
  dirty : Bool
  obsolete : Bool
  minLimit : Key
  maxLimit : Key
  data : Vector (Key × Value) 59
  nextLeaf : GlobalAddress
  children : Vector ChildSlot 60
  keys : Vector Key 60

namespace Page

/-- A page of zero bytes. -/
def zero : Page where
  remoteAddress := .null
  bitmap := 0
  parentPtr := none
  type := .unset
  count := 0
  level := 0
  posState := .remote
  dirty := false
  obsolete := false
  minLimit := 0
  maxLimit := 0
  data := Vector.replicate 59 (0, 0)
  nextLeaf := .null
  children := Vector.replicate 60 default
  keys := Vector.replicate 60 0

instance : Inhabited Page := ⟨zero⟩

/-- `data[i]` -/
def entry (p : Page) (i : ℕ) : Key × Value :=
  (p.data[i]?).getD (0, 0)

/-- `children[i]` -/
def child (p : Page) (i : ℕ) : ChildSlot :=
  (p.children[i]?).getD default

/-- `keys[i]` -/
def key (p : Page) (i : ℕ) : Key :=
  (p.keys[i]?).getD 0

/-- `children[i] = c` -/
def setChild (p : Page) (i : ℕ) (c : ChildSlot) : Page :=
  { p with children := p.children.setIfInBounds i c }

end Page

/-- `std::_Hash_bytes` on eight bytes with the seed both tables use. -/
def hashBytes (data : UInt64) : UInt64 :=
  let mul : UInt64 := 0xc6a4a7935bd1e995
  let shiftMix (v : UInt64) : UInt64 := v ^^^ (v >>> 47)
  let h : UInt64 := 0xc70f6907 ^^^ (8 * mul)
  let h := (h ^^^ (shiftMix (data * mul) * mul)) * mul
  shiftMix (shiftMix h * mul)

def murmur64 (k : UInt64) : UInt64 :=
  let k := k ^^^ (k >>> 33)
  let k := k * 0xff51afd7ed558ccd
  let k := k ^^^ (k >>> 33)
  let k := k * 0xc4ceb9fe1a85ec53
  k ^^^ (k >>> 33)

end CachingDex
