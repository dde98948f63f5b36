import CachingDex.TreeUpkeep

/-!
# Remainders and indices

The sizes of the page table, the cooling table and the pool never change, and
once the pool is in the dynamic phase all of its slots have been handed out,
until a reset takes it back to the warm-up phase.  So every remainder has a
modulus other than zero and every index stays below its bound, in any run of
tree operations and resets, provided the cooling table has a bucket.  What
the pages hold does not matter, and neither do dangling pointers that a reset
leaves behind.
-/

namespace CachingDex

open Lib Lib.Traced

/-- All indices of the event are below their bounds. -/
def Event.InBounds : Event → Prop
  | .indexed indices => ∀ i ∈ indices, i.1 < i.2
  | .inSplit _ e => e.InBounds
  | _ => True

/-- Runs that may stop anywhere, as long as all indices are in bounds. -/
def boundedContract : Contract State Halt Event where
  rely _ := True
  guarantee := Event.InBounds
  mayHalt _ _ := True

/-- The sizes of a state with a cooling table of `buckets` buckets and a pool
of `pages` pages from `base` on. -/
structure Sized (buckets pages : ℕ) (base : UInt64) (o : Outline) :
    Prop where
  buckets_eq : o.bucketNum = buckets
  pages_eq : o.allocator.pageNum = pages
  base_eq : o.allocator.baseAddress = base
  buckets_pos : 0 < buckets
  pages_pos : 0 < pages
  entries_pos : 0 < o.pageTable.bucketNum
  allOut : o.dynamic = true → o.allocator.headIdx = pages

variable {buckets pages : ℕ} {base : UInt64}

theorem inBounds_singleton {idx bound : ℕ} (h : idx < bound) :
    (Event.indexed [(idx, bound)]).InBounds := by
  intro i hi
  obtain rfl := List.mem_singleton.mp hi
  exact h

theorem PageTable.bucketNum_remove (t : PageTable) (key : GlobalAddress)
    (value : PagePtr) : (t.remove key value).1.bucketNum = t.bucketNum := by
  unfold PageTable.remove
  dsimp only
  split <;> rfl

namespace Sized

variable {o o' : Outline}

theorem of_entries (h : Sized buckets pages base o) {t : PageTable}
    (ht : t.bucketNum = o.pageTable.bucketNum) :
    Sized buckets pages base { o with pageTable := t } :=
  ⟨h.buckets_eq, h.pages_eq, h.base_eq, h.buckets_pos, h.pages_pos,
    ht ▸ h.entries_pos, h.allOut⟩

/-- When the last slot is handed out, all of them are. -/
theorem allocated (h : Sized buckets pages base o) :
    Sized buckets pages base
      { o with
        allocator := o.allocator.allocate.2.2
        dynamic := o.dynamic || o.allocator.allocate.2.1 } := by
  have hpages := h.pages_eq
  rcases Nat.lt_or_ge o.allocator.headIdx o.allocator.pageNum with hlt | hge
  · rw [CacheAllocator.allocate_of_lt hlt]
    refine ⟨h.buckets_eq, hpages, h.base_eq, h.buckets_pos, h.pages_pos,
      h.entries_pos, fun hdynamic => ?_⟩
    dsimp only at hdynamic ⊢
    rw [Bool.or_eq_true, decide_eq_true_eq] at hdynamic
    rcases hdynamic with hdynamic | hlast
    · have := h.allOut hdynamic
      omega
    · omega
  · rw [CacheAllocator.allocate_of_ge hge, Bool.or_false]
    exact h

theorem step (h : Sized buckets pages base o) (hstep : o.Step o') :
    Sized buckets pages base o' := by
  cases hstep with
  | refl => exact h
  | inserted key value => exact h.of_entries rfl
  | upserted key value => exact h.of_entries rfl
  | updated key value => exact h.of_entries rfl
  | removed key value =>
      exact h.of_entries (PageTable.bucketNum_remove _ _ _)
  | allocated => exact h.allocated

theorem select_inBounds (h : Sized buckets pages base o)
    (hdynamic : o.dynamic = true) (draw : ℕ) :
    (Event.indexed (o.allocator.selectIndices draw)).InBounds := by
  have hpos := h.pages_pos
  have hpages := h.pages_eq
  have hidx : draw % o.allocator.pageNum < o.allocator.pageNum :=
    Nat.mod_lt _ (by omega)
  have hhead := h.allOut hdynamic
  intro i hi
  rw [CacheAllocator.selectIndices] at hi
  dsimp only at hi
  rw [if_neg (by omega)] at hi
  obtain rfl := List.mem_singleton.mp hi
  exact hidx

theorem takes (h : Sized buckets pages base o) {indices : List (ℕ × ℕ)}
    (htakes : o.Takes indices) : (Event.indexed indices).InBounds := by
  cases htakes with
  | entry key => exact inBounds_singleton (Nat.mod_lt _ h.entries_pos)
  | bucket n =>
      apply inBounds_singleton
      rw [h.buckets_eq]
      exact Nat.mod_lt _ h.buckets_pos
  | probed hlt => exact inBounds_singleton hlt
  | slot hlt => exact inBounds_singleton hlt
  | selected draw hdynamic => exact h.select_inBounds hdynamic draw

theorem reset (h : Sized buckets pages base o) :
    Sized buckets pages base
      { o with
        allocator := o.allocator.reset
        dynamic := false
        pageTable := o.pageTable.reset } :=
  ⟨h.buckets_eq, h.pages_eq, h.base_eq, h.buckets_pos, h.pages_pos,
    h.entries_pos, fun hdynamic => by cases hdynamic⟩

end Sized

/-- The sizes say nothing about pages, so that any page will do. -/
def sizedUpkeep (buckets pages : ℕ) (base : UInt64) : TreeUpkeep where
  contract := boundedContract
  page _ _ := True
  image _ := True
  pointer _ := True
  rest := Sized buckets pages base
  slot _ := trivial
  child _ _ := trivial
  tended _ _ := trivial
  stored _ _ _ := trivial
  kept _ _ := trivial
  step h hstep := h.step hstep
  event := by
    intro e he
    cases e with
    | indexed => cases he
    | inSplit => cases he
    | _ => trivial
  indexed h htakes := h.takes htakes
  written _ _ := trivial
  mayHalt _ _ := trivial
  current _ := True
  current_congr _ _ := trivial
  current_new _ := trivial
  page_current _ := trivial
  image_current _ := trivial
  loaded _ _ _ := trivial
  linked _ _ _ := trivial
  called := by
    intro call _
    refine ⟨trivial, ?_⟩
    cases call <;> trivial
  rely_inSplit _ := trivial
  guarantee_inSplit h := h

theorem sizedUpkeep_grows : (sizedUpkeep buckets pages base).Grows where
  allocFailed := trivial
  resized _ _ _ h :=
    ⟨h.buckets_eq, h.pages_eq, h.base_eq, h.buckets_pos, h.pages_pos,
      h.entries_pos, h.allOut⟩

/-- The program keeps all indices in bounds and the sizes as they are. -/
abbrev Bounded (buckets pages : ℕ) (base : UInt64) {α : Type} (m : M α) :
    Prop :=
  Upkeeps (sizedUpkeep buckets pages base).toUpkeep m

theorem bounded_run (op : Op) : Bounded buckets pages base op.run :=
  upkeeps_run sizedUpkeep_grows op

theorem bounded_construct : Bounded buckets pages base construct :=
  upkeeps_construct sizedUpkeep_grows

/-! ## Runs -/

/-- A call of a tree: an operation, or a reset of its buffer pool. -/
inductive TreeCall where
  | op (op : Op)
  | resetBufferPool (flushDirty : Bool)
  deriving DecidableEq

def TreeCall.run : TreeCall → M Unit
  | op o => do
      let _ ← o.run
      pure ()
  | resetBufferPool flushDirty => LeanStoreTree.resetBufferPool flushDirty

def runTreeCalls : List TreeCall → M Unit
  | [] => pure ()
  | call :: calls => do
      call.run
      runTreeCalls calls

/-- A run of operations and resets on a freshly built tree. -/
def freshCalls (calls : List TreeCall) : M Unit := do
  construct
  runTreeCalls calls

theorem bounded_freshCalls (calls : List TreeCall) :
    Bounded buckets pages base (freshCalls calls) := by
  apply bounded_construct.bind
  intro _
  induction calls with
  | nil => exact maintains_pure _
  | cons call calls ih =>
      apply Maintains.bind _ fun _ => ih
      cases call with
      | op o =>
          apply (bounded_run o).bind
          intro _
          exact maintains_pure _
      | resetBufferPool flushDirty =>
          exact upkeeps_resetCache (fun _ => trivial) Sized.reset flushDirty

/-- The numbers of buckets and pages less one, the greatest draws, do not
wrap, and in the run every index is below its bound, a remainder below its
modulus. -/
structure BoundsHold (c : TreeConfig) (calls : List TreeCall) : Prop where
  buckets : 0 < c.initial.hashTable.bucketNum
  pages : 0 < c.initial.allocator.pageNum
  indices : ∀ e ∈ (freshCalls calls c.initial).trace, e.InBounds

theorem bucketNum_new_pos {n : ℕ} : 0 < (HashTable.new n).bucketNum ↔ 0 < n := by
  change 0 < (if n % 6 = 0 then n / 6 else n / 6 + 1) ↔ _
  split_ifs with h
  · omega
  · omega

/-- The state before the tree object exists has the sizes of its
configuration. -/
theorem upheld_sized {c : TreeConfig} (hpages : 0 < c.pageNum)
    (hentries : 0 < c.entryNum) :
    Upheld (sizedUpkeep (HashTable.new c.entryNum).bucketNum c.pageNum
      c.baseAddress).toUpkeep c.initial := by
  apply upheld_initial c (fun _ => trivial) trivial
  refine ⟨rfl, rfl, rfl, bucketNum_new_pos.mpr hentries, hpages, ?_,
    fun h => by cases h⟩
  change 0 < (if c.pageNum % 3 = 0 then c.pageNum / 3 else c.pageNum / 3 + 1)
  split_ifs with h
  · omega
  · omega

/-- Over a pool of at least one page no remainder is by zero, no bound wraps
and no index leaves its table, in any run of operations and resets, exactly
when capacity times cooling ratio is at least one. -/
theorem boundsHold_iff (c : TreeConfig) (coolingRatio : ℝ)
    (hcapacity : 1 ≤ c.pageNum)
    (hentries : c.entryNum = ⌊c.pageNum * coolingRatio⌋₊)
    (calls : List TreeCall) :
    BoundsHold c calls ↔ 1 ≤ c.pageNum * coolingRatio := by
  have hone : 1 ≤ c.pageNum * coolingRatio ↔ 0 < c.entryNum := by
    rw [hentries, Nat.floor_pos]
  rw [hone]
  constructor
  · intro h
    exact bucketNum_new_pos.mp h.buckets
  · intro hpos
    have hsized := upheld_sized hcapacity hpos
    refine ⟨hsized.rest.buckets_pos, hcapacity, ?_⟩
    exact (bounded_freshCalls calls c.initial hsized fun _ _ => trivial).1

/-- Two pages and a cooling table of `entryNum` entries. -/
def twoPages (entryNum : ℕ) : TreeConfig where
  pageNum := 2
  entryNum := entryNum
  backendPages := 3
  baseAddress := 0x10000
  heapAddress := 0x8000
  selectDraws := fun _ => 0
  bucketDraws := fun _ => 0
  backend_fits := TreeConfig.threePages_fit

theorem boundsHold_iff_twoPages :
    BoundsHold (twoPages 1)
      [.op (.insert 5 7), .resetBufferPool true, .op (.lookup 5)] := by
  have hfloor : ⌊(2 : ℝ) * (1 / 2)⌋₊ = 1 := by norm_num
  have hentries : (twoPages 1).entryNum =
      ⌊((twoPages 1).pageNum : ℝ) * (1 / 2)⌋₊ := hfloor.symm
  refine (boundsHold_iff (twoPages 1) (1 / 2) (by decide) hentries _).mpr ?_
  change (1 : ℝ) ≤ (2 : ℕ) * (1 / 2)
  norm_num

/-- Two pages with a cooling ratio of a quarter get a cooling table without
buckets. -/
theorem boundsHold_without_buckets :
    (twoPages 0).entryNum = ⌊((twoPages 0).pageNum : ℝ) * (1 / 4)⌋₊ ∧
      ¬ BoundsHold (twoPages 0) [] := by
  constructor
  · have hfloor : ⌊(2 : ℝ) * (1 / 4)⌋₊ = 0 := by norm_num
    exact hfloor.symm
  · intro h
    exact absurd h.buckets (by decide)

end CachingDex
