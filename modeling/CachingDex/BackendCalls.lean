import CachingDex.State
import Mathlib.Data.UInt
import Mathlib.Order.CompletePartialOrder

/-!
# The arithmetic of the backend

The backend in the words of its source: a capacity, a cursor and sizes of 64
bits, and a store of bytes.  Rounding up to pages, moving the cursor and the
test against the capacity all wrap.  A call whose sum wraps can pass its
test; every other call stays inside the store, and the allocated ranges are
apart.
-/

namespace CachingDex

/-- The backend over bytes.  `store` is the memory from the first byte of
`store_` on, of which the first `capacityBytes` belong to it. -/
structure ByteBackend where
  capacityBytes : UInt64
  curOffset : UInt64
  store : ℕ → UInt8

namespace ByteBackend

def new (pageNums : UInt64) : ByteBackend where
  capacityBytes := pageNums * 1024
  curOffset := 1024
  store := fun _ => 0

/-- The test of `read` and `write`. -/
def inRange (b : ByteBackend) (addr : GlobalAddress) (size : UInt64) : Bool :=
  ¬ b.capacityBytes < UInt64.ofNat addr.offset + size

/-- Whether the read succeeds, and the caller's buffer after it. -/
def read (b : ByteBackend) (addr : GlobalAddress) (buf : ℕ → UInt8)
    (size : UInt64) : Bool × (ℕ → UInt8) :=
  if b.inRange addr size then
    (true, fun i => if i < size.toNat then b.store (addr.offset + i) else buf i)
  else (false, buf)

def write (b : ByteBackend) (addr : GlobalAddress) (buf : ℕ → UInt8)
    (size : UInt64) : Bool × ByteBackend :=
  if b.inRange addr size then
    (true,
      { b with
        store := fun i =>
          if addr.offset ≤ i ∧ i < addr.offset + size.toNat then
            buf (i - addr.offset)
          else b.store i })
  else (false, b)

def rounded (size : UInt64) : UInt64 :=
  (size + 1024 - 1) / 1024 * 1024

/-- The test of `alloc`. -/
def hasRoom (b : ByteBackend) (size : UInt64) : Bool :=
  ¬ b.capacityBytes < b.curOffset + rounded size

def alloc (b : ByteBackend) (size : UInt64) : GlobalAddress × ByteBackend :=
  if b.hasRoom size then
    (.make 0 b.curOffset.toNat,
      { b with curOffset := b.curOffset + rounded size })
  else (.null, b)

end ByteBackend

/-- The calls of the backend's interface.  A read has the caller's buffer, a
write what is in it. -/
inductive BackendCall where
  | alloc (size : UInt64)
  | read (addr : GlobalAddress) (buf : ℕ → UInt8) (size : UInt64)
  | write (addr : GlobalAddress) (buf : ℕ → UInt8) (size : UInt64)

namespace BackendCall

/-- The backend after a call. -/
def next (b : ByteBackend) : BackendCall → ByteBackend
  | alloc size => (b.alloc size).2
  | read _ _ _ => b
  | write addr buf size => (b.write addr buf size).2

/-- The range a call allocates, by its first byte and its size. -/
def granted (b : ByteBackend) : BackendCall → List (ℕ × ℕ)
  | alloc size =>
      if b.hasRoom size then [((b.alloc size).1.offset, size.toNat)] else []
  | read _ _ _ => []
  | write _ _ _ => []

end BackendCall

namespace ByteBackend

/-- An allocation that succeeds yields a range of whole pages inside the
store and apart from the ranges allocated before; one that fails changes
nothing. -/
structure AllocatesApart (past : List (ℕ × ℕ)) (b : ByteBackend)
    (size : UInt64) : Prop where
  not_null : b.hasRoom size = true → (b.alloc size).1 ≠ .null
  aligned : b.hasRoom size = true →
    ((b.alloc size).1.offset : ℕ) % pageSize = 0
  inside : b.hasRoom size = true →
    (b.alloc size).1.offset + size.toNat ≤ b.capacityBytes.toNat
  apart : b.hasRoom size = true → ∀ r ∈ past,
    Disjoint (Set.Ico r.1 (r.1 + r.2)) (Set.Ico ((b.alloc size).1.offset : ℕ)
      ((b.alloc size).1.offset + size.toNat))
  failed : b.hasRoom size = false → b.alloc size = (.null, b)

/-- A read succeeds only inside the store, and has no effect otherwise. -/
structure ReadsInside (b : ByteBackend) (addr : GlobalAddress)
    (buf : ℕ → UInt8) (size : UInt64) : Prop where
  inside : (b.read addr buf size).1 = true →
    addr.offset + size.toNat ≤ b.capacityBytes.toNat
  outside : b.capacityBytes.toNat < addr.offset + size.toNat →
    b.read addr buf size = (false, buf)

/-- A write succeeds only inside the store, touches no byte beyond it, and
has no effect otherwise. -/
structure WritesInside (b : ByteBackend) (addr : GlobalAddress)
    (buf : ℕ → UInt8) (size : UInt64) : Prop where
  inside : (b.write addr buf size).1 = true →
    addr.offset + size.toNat ≤ b.capacityBytes.toNat
  outside : b.capacityBytes.toNat < addr.offset + size.toNat →
    b.write addr buf size = (false, b)
  untouched : ∀ i ≥ b.capacityBytes.toNat,
    (b.write addr buf size).2.store i = b.store i

end ByteBackend

namespace BackendCall

/-- What a call promises after the allocations of `past`. -/
def Sound (past : List (ℕ × ℕ)) (b : ByteBackend) : BackendCall → Prop
  | alloc size => b.AllocatesApart past size
  | read addr buf size => b.ReadsInside addr buf size
  | write addr buf size => b.WritesInside addr buf size

/-- The sums of a call do not wrap, or the wrapped sum fails the test. -/
def Unwrapped (b : ByteBackend) : BackendCall → Prop
  | alloc size =>
      b.curOffset.toNat + size.toNat + 1023 < 2 ^ 64 ∨
        (b.capacityBytes < b.curOffset ∧ 2 ^ 64 < size.toNat + 1024)
  | read addr _ size | write addr _ size =>
      addr.offset + size.toNat < 2 ^ 64 ∨
        2 ^ 64 + b.capacityBytes.toNat < addr.offset + size.toNat

end BackendCall

namespace ByteBackend

/-- Every call of a history keeps its promise. -/
def Sound : List (ℕ × ℕ) → ByteBackend → List BackendCall → Prop
  | _, _, [] => True
  | past, b, call :: calls =>
      call.Sound past b ∧ Sound (call.granted b ++ past) (call.next b) calls

/-- No call of a history passes its test by a sum that wraps. -/
def Unwrapped : ByteBackend → List BackendCall → Prop
  | _, [] => True
  | b, call :: calls => call.Unwrapped b ∧ Unwrapped (call.next b) calls

/-! ## The tests in natural numbers -/

variable {b : ByteBackend} {addr : GlobalAddress} {buf : ℕ → UInt8}
  {size : UInt64} {past : List (ℕ × ℕ)}

theorem toNat_rounded (size : UInt64) : (rounded size).toNat =
    if size.toNat + 1023 < 2 ^ 64 then (size.toNat + 1023) / 1024 * 1024
    else 0 := by
  have hsize := size.toNat_lt
  have hone : (1 : UInt64).toNat = 1 := rfl
  have hpage : (1024 : UInt64).toNat = 1024 := rfl
  simp only [rounded, UInt64.toNat_mul, UInt64.toNat_div, UInt64.toNat_sub,
    UInt64.toNat_add, hone, hpage]
  split_ifs with h
  · omega
  · omega

theorem inRange_iff : b.inRange addr size = true ↔
    (addr.offset + size.toNat) % 2 ^ 64 ≤ b.capacityBytes.toNat := by
  have hoffset : (addr.offset : ℕ) < 2 ^ 64 :=
    addr.offset.isLt.trans (by decide)
  rw [inRange, decide_eq_true_eq, not_lt, UInt64.le_iff_toNat_le,
    UInt64.toNat_add, UInt64.toNat_ofNat', Nat.mod_eq_of_lt hoffset]

theorem hasRoom_iff : b.hasRoom size = true ↔
    (b.curOffset.toNat + (rounded size).toNat) % 2 ^ 64 ≤
      b.capacityBytes.toNat := by
  rw [hasRoom, decide_eq_true_eq, not_lt, UInt64.le_iff_toNat_le,
    UInt64.toNat_add]

/-- The cursor is at the start of a page, behind all ranges allocated. -/
structure Inv (past : List (ℕ × ℕ)) (b : ByteBackend) : Prop where
  capacity_lt : b.capacityBytes.toNat < 2 ^ 48
  aligned : b.curOffset.toNat % 1024 = 0
  positive : 0 < b.curOffset.toNat
  cursor : b.curOffset.toNat ≤ b.capacityBytes.toNat ∨
    (b.curOffset.toNat = 1024 ∧ b.capacityBytes.toNat = 0)
  before : ∀ r ∈ past, r.1 + r.2 ≤ b.curOffset.toNat

theorem inv_new {pageNums : UInt64}
    (h : pageNums.toNat * pageSize < 2 ^ 48) : Inv [] (new pageNums) := by
  have hpage : (1024 : UInt64).toNat = 1024 := rfl
  have hcapacity : (new pageNums).capacityBytes.toNat =
      pageNums.toNat * 1024 := by
    change (pageNums * 1024).toNat = _
    rw [UInt64.toNat_mul, hpage, Nat.mod_eq_of_lt]
    exact h.trans (by decide)
  have hcursor : (new pageNums).curOffset.toNat = 1024 := rfl
  refine ⟨hcapacity ▸ h, by rw [hcursor], by rw [hcursor]; decide, ?_, by simp⟩
  rw [hcursor, hcapacity]
  omega

theorem Inv.curOffset_lt (h : Inv past b) :
    b.curOffset.toNat < 2 ^ 48 := by
  have hcapacity := h.capacity_lt
  rcases h.cursor with hle | ⟨hcursor, _⟩
  · omega
  · omega

/-! ## One call -/

theorem offset_alloc (hroom : b.hasRoom size = true)
    (hlt : b.curOffset.toNat < 2 ^ 48) :
    ((b.alloc size).1.offset : ℕ) = b.curOffset.toNat := by
  rw [alloc, if_pos hroom, GlobalAddress.offset_make hlt]

/-- A sum that does not wrap has room just when its range ends in the
store. -/
theorem Inv.hasRoom_iff_of_lt (h : Inv past b)
    (hsum : b.curOffset.toNat + size.toNat + 1023 < 2 ^ 64) :
    b.hasRoom size = true ↔
      b.curOffset.toNat + (rounded size).toNat ≤ b.capacityBytes.toNat := by
  have haligned := h.aligned
  rw [hasRoom_iff, toNat_rounded, if_pos (by omega), Nat.mod_eq_of_lt]
  omega

theorem size_le_rounded (hsum : size.toNat + 1023 < 2 ^ 64) :
    size.toNat ≤ (rounded size).toNat := by
  rw [toNat_rounded, if_pos hsum]
  omega

/-- A sum that wraps has room, unless the size alone wraps and the store is
empty. -/
theorem Inv.hasRoom_of_wrapped (h : Inv past b)
    (hwrapped : ¬ (BackendCall.alloc size).Unwrapped b) :
    b.hasRoom size = true := by
  obtain ⟨hsum, hempty⟩ := not_or.mp hwrapped
  have hsize := size.toNat_lt
  have haligned := h.aligned
  have hcursor := h.cursor
  have hlt := h.curOffset_lt
  rw [UInt64.lt_iff_toNat_lt] at hempty
  rw [hasRoom_iff, toNat_rounded]
  split_ifs with hround
  · have hover : 2 ^ 64 ≤
        b.curOffset.toNat + (size.toNat + 1023) / 1024 * 1024 := by
      omega
    rw [Nat.mod_eq_sub_mod hover, Nat.mod_eq_of_lt (by omega)]
    omega
  · rw [Nat.add_zero, Nat.mod_eq_of_lt (by omega)]
    omega

theorem Inv.allocatesApart_iff (h : Inv past b) :
    b.AllocatesApart past size ↔ (BackendCall.alloc size).Unwrapped b := by
  have hcapacity := h.capacity_lt
  have hlt := h.curOffset_lt
  constructor
  · intro halloc
    by_contra hwrapped
    have hroom := h.hasRoom_of_wrapped hwrapped
    have hinside := halloc.inside hroom
    rw [offset_alloc hroom hlt] at hinside
    exact hwrapped (Or.inl (by omega))
  · intro hunwrapped
    have hsum : b.hasRoom size = true →
        b.curOffset.toNat + size.toNat + 1023 < 2 ^ 64 := by
      intro hroom
      rcases hunwrapped with hsum | ⟨hempty, hsize⟩
      · exact hsum
      · rw [hasRoom_iff, toNat_rounded, if_neg (by omega), Nat.add_zero,
          Nat.mod_eq_of_lt (by omega)] at hroom
        rw [UInt64.lt_iff_toNat_lt] at hempty
        omega
    have hinside : b.hasRoom size = true →
        b.curOffset.toNat + size.toNat ≤ b.capacityBytes.toNat := by
      intro hroom
      have hle := (h.hasRoom_iff_of_lt (hsum hroom)).mp hroom
      have hsmall := hsum hroom
      have hsize : size.toNat ≤ (rounded size).toNat :=
        size_le_rounded (by omega)
      omega
    constructor
    · intro hroom hnull
      have hoffset := offset_alloc hroom hlt
      rw [hnull] at hoffset
      have := h.positive
      have hzero : (GlobalAddress.null.offset : ℕ) = 0 := rfl
      omega
    · intro hroom
      rw [offset_alloc hroom hlt]
      exact h.aligned
    · intro hroom
      rw [offset_alloc hroom hlt]
      exact hinside hroom
    · intro hroom r hr
      rw [offset_alloc hroom hlt]
      have hbefore := h.before r hr
      rw [Set.disjoint_left]
      intro x hx hx'
      rw [Set.mem_Ico] at hx hx'
      omega
    · intro hroom
      rw [alloc, if_neg (by simp [hroom])]

theorem inRange_of_unwrapped (hcapacity : b.capacityBytes.toNat < 2 ^ 48)
    (hunwrapped : addr.offset + size.toNat < 2 ^ 64 ∨
      2 ^ 64 + b.capacityBytes.toNat < addr.offset + size.toNat) :
    b.inRange addr size = true ↔
      addr.offset + size.toNat ≤ b.capacityBytes.toNat := by
  have hoffset := addr.offset.isLt
  have hsize := size.toNat_lt
  rw [inRange_iff]
  rcases hunwrapped with hlt | hgt
  · rw [Nat.mod_eq_of_lt hlt]
  · rw [Nat.mod_eq_sub_mod (by omega), Nat.mod_eq_of_lt (by omega)]
    omega

theorem inRange_of_wrapped (hcapacity : b.capacityBytes.toNat < 2 ^ 48)
    (hwrapped : ¬ (addr.offset + size.toNat < 2 ^ 64 ∨
      2 ^ 64 + b.capacityBytes.toNat < addr.offset + size.toNat)) :
    b.inRange addr size = true ∧
      b.capacityBytes.toNat < addr.offset + size.toNat := by
  obtain ⟨hle, hbound⟩ := not_or.mp hwrapped
  have hoffset := addr.offset.isLt
  have hsize := size.toNat_lt
  refine ⟨?_, by omega⟩
  rw [inRange_iff, Nat.mod_eq_sub_mod (by omega), Nat.mod_eq_of_lt (by omega)]
  omega

theorem readsInside_iff (hcapacity : b.capacityBytes.toNat < 2 ^ 48) :
    b.ReadsInside addr buf size ↔
      (BackendCall.read addr buf size).Unwrapped b := by
  constructor
  · intro hread
    by_contra hwrapped
    obtain ⟨hrange, hover⟩ := inRange_of_wrapped hcapacity hwrapped
    have hinside := hread.inside (by rw [read, if_pos hrange])
    omega
  · intro hunwrapped
    have hrange := inRange_of_unwrapped hcapacity hunwrapped
    constructor
    · intro hread
      by_contra hover
      rw [read, if_neg (by rwa [hrange])] at hread
      cases hread
    · intro hover
      rw [read, if_neg (by rw [hrange]; omega)]

theorem writesInside_iff (hcapacity : b.capacityBytes.toNat < 2 ^ 48) :
    b.WritesInside addr buf size ↔
      (BackendCall.write addr buf size).Unwrapped b := by
  constructor
  · intro hwrite
    by_contra hwrapped
    obtain ⟨hrange, hover⟩ := inRange_of_wrapped hcapacity hwrapped
    have hinside := hwrite.inside (by rw [write, if_pos hrange])
    omega
  · intro hunwrapped
    have hrange := inRange_of_unwrapped hcapacity hunwrapped
    constructor
    · intro hwrite
      by_contra hover
      rw [write, if_neg (by rwa [hrange])] at hwrite
      cases hwrite
    · intro hover
      rw [write, if_neg (by rw [hrange]; omega)]
    · intro i hi
      rw [write]
      split_ifs with hin
      · have hinside := hrange.mp hin
        exact if_neg (by omega)
      · rfl

/-- A call keeps its promise just when it does not pass its test by a sum
that wraps. -/
theorem Inv.sound_iff (h : Inv past b) (call : BackendCall) :
    call.Sound past b ↔ call.Unwrapped b := by
  cases call with
  | alloc size => exact h.allocatesApart_iff
  | read addr buf size => exact readsInside_iff h.capacity_lt
  | write addr buf size => exact writesInside_iff h.capacity_lt

theorem Inv.next (h : Inv past b) {call : BackendCall}
    (hunwrapped : call.Unwrapped b) :
    Inv (call.granted b ++ past) (call.next b) := by
  have hlt := h.curOffset_lt
  cases call with
  | alloc size =>
      have hsound := h.allocatesApart_iff.mpr hunwrapped
      rw [BackendCall.granted, BackendCall.next]
      cases hroom : b.hasRoom size with
      | false =>
          rw [if_neg (by simp), hsound.failed hroom]
          exact h
      | true =>
          have hinside := hsound.inside hroom
          rw [offset_alloc hroom hlt] at hinside
          have hcapacity := h.capacity_lt
          have hsum : b.curOffset.toNat + size.toNat + 1023 < 2 ^ 64 := by
            omega
          have hle := (h.hasRoom_iff_of_lt hsum).mp hroom
          have hsize : size.toNat ≤ (rounded size).toNat :=
            size_le_rounded (by omega)
          have hcursor : (b.alloc size).2.curOffset.toNat =
              b.curOffset.toNat + (rounded size).toNat := by
            rw [alloc, if_pos hroom, UInt64.toNat_add,
              Nat.mod_eq_of_lt (by omega)]
          have hcapacityBytes :
              (b.alloc size).2.capacityBytes = b.capacityBytes := by
            rw [alloc, if_pos hroom]
          have haligned := h.aligned
          have hpositive := h.positive
          have hrounded : (rounded size).toNat % 1024 = 0 := by
            rw [toNat_rounded]
            split_ifs <;> omega
          rw [if_pos rfl]
          constructor
          · rw [hcapacityBytes]
            exact hcapacity
          · rw [hcursor]
            omega
          · rw [hcursor]
            omega
          · rw [hcursor, hcapacityBytes]
            exact Or.inl hle
          · intro r hr
            rw [hcursor]
            rcases List.mem_append.mp hr with hr | hr
            · obtain rfl := List.mem_singleton.mp hr
              dsimp only
              rw [offset_alloc hroom hlt]
              omega
            · have := h.before r hr
              omega
  | read addr buf size => exact h
  | write addr buf size =>
      have hsame : ∀ r : Bool × ByteBackend,
          r = b.write addr buf size → r.2.capacityBytes = b.capacityBytes ∧
            r.2.curOffset = b.curOffset := by
        intro r hr
        rw [hr, write]
        split_ifs <;> exact ⟨rfl, rfl⟩
      obtain ⟨hcapacity, hcursor⟩ := hsame _ rfl
      obtain ⟨hlt', haligned, hpositive, hpos, hbefore⟩ := h
      constructor
      all_goals simp only [BackendCall.next, BackendCall.granted,
        List.nil_append, hcapacity, hcursor]
      · exact hlt'
      · exact haligned
      · exact hpositive
      · exact hpos
      · exact hbefore

/-! ## Histories -/

theorem Inv.history_sound_iff (h : Inv past b) (calls : List BackendCall) :
    Sound past b calls ↔ Unwrapped b calls := by
  induction calls generalizing past b with
  | nil => exact Iff.rfl
  | cons call calls ih =>
      rw [Sound, Unwrapped, h.sound_iff call]
      constructor
      · intro hsound
        exact ⟨hsound.1, (ih (h.next hsound.1)).mp hsound.2⟩
      · intro hunwrapped
        exact ⟨hunwrapped.1, (ih (h.next hunwrapped.1)).mpr hunwrapped.2⟩

/-- Over a store below 2^48 bytes the calls of a history keep their promises
exactly when none of them passes its test by a sum that wraps. -/
theorem sound_iff_unwrapped (pageNums : UInt64)
    (h : pageNums.toNat * pageSize < 2 ^ 48) (calls : List BackendCall) :
    Sound [] (new pageNums) calls ↔ Unwrapped (new pageNums) calls :=
  (inv_new h).history_sound_iff calls

/-- Two ranges apart, an allocation without room, and accesses at the end of
the store. -/
theorem sound_iff_unwrapped_four :
    Sound [] (new 4)
      [.alloc 1, .alloc 1025, .alloc 4096,
        .write (.make 0 1024) (fun _ => 7) 3072,
        .read (.make 0 1024) (fun _ => 0) 3073] := by
  refine (sound_iff_unwrapped 4 (by decide) _).mpr ?_
  refine ⟨Or.inl ?_, Or.inl ?_, Or.inl ?_, Or.inl ?_, Or.inl ?_, trivial⟩
  all_goals decide +kernel

/-- A size that rounds up to zero is allocated in a store of four pages. -/
theorem alloc_wrapped :
    ¬ Sound [] (new 4) [.alloc (2 ^ 64 - 1)] ∧
      ((new 4).alloc (2 ^ 64 - 1)).1 = .make 0 1024 := by
  constructor
  · intro hsound
    exact absurd (hsound.1.inside (by decide +kernel)) (by decide +kernel)
  · decide +kernel

/-! ## Whole pages -/

/-- The page backend of a run has the capacity and the cursor of the byte
backend. -/
structure Matches (b : ByteBackend) (p : InMemoryBackend) : Prop where
  capacity : b.capacityBytes.toNat = p.capacityBytes
  cursor : b.curOffset.toNat = p.curOffset
  capacity_lt : p.capacityBytes < 2 ^ 48
  cursor_lt : p.curOffset < 2 ^ 48

variable {p : InMemoryBackend}

/-- For accesses of one page the two backends make the same test. -/
theorem Matches.inRange (h : Matches b p) (addr : GlobalAddress) :
    b.inRange addr 1024 = p.inRange addr := by
  have hcapacity := h.capacity
  have hlt := h.capacity_lt
  have hoffset := addr.offset.isLt
  have hpage : (1024 : UInt64).toNat = 1024 := rfl
  have hrange : b.inRange addr 1024 = true ↔
      addr.offset + (1024 : UInt64).toNat ≤ b.capacityBytes.toNat :=
    inRange_of_unwrapped (by omega) (Or.inl (by omega))
  rw [Bool.eq_iff_iff, hrange, InMemoryBackend.inRange, decide_eq_true_eq,
    hpage, hcapacity]
  rfl

/-- Allocations of one page yield the same address from both backends. -/
theorem Matches.alloc (h : Matches b p) :
    (b.alloc 1024).1 = p.alloc.1 ∧ Matches (b.alloc 1024).2 p.alloc.2 := by
  obtain ⟨hcapacity, hcursor, hlt, hlt'⟩ := h
  have hrounded : (rounded 1024).toNat = 1024 := rfl
  have hroom : b.hasRoom 1024 = p.hasRoom := by
    rw [Bool.eq_iff_iff, hasRoom_iff, InMemoryBackend.hasRoom,
      decide_eq_true_eq, hrounded, hcapacity, hcursor,
      Nat.mod_eq_of_lt (by omega)]
    rfl
  unfold ByteBackend.alloc InMemoryBackend.alloc
  rw [hroom]
  split_ifs with hfits
  · have hcursor' : (b.curOffset + rounded 1024).toNat =
        p.curOffset + pageSize := by
      rw [UInt64.toNat_add, hrounded, hcursor, Nat.mod_eq_of_lt (by omega)]
      rfl
    rw [InMemoryBackend.hasRoom, decide_eq_true_eq] at hfits
    exact ⟨by rw [hcursor], hcapacity, hcursor', hlt, hfits.trans_lt hlt⟩
  · exact ⟨rfl, hcapacity, hcursor, hlt, hlt'⟩

end ByteBackend

end CachingDex
