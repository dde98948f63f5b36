import CachingDex.BtreeNodeSpec
import CachingDex.LeanStoreTree
import CachingDex.PageTableMap

/-!
# Coherence of memory, pool and backend

What a state means is a forest of abstract nodes by backend address.  The
state is coherent with a forest `F` when four groups of conditions hold,
each about another part of the state:

* `Pool`: every slot of the pool is unallocated, on the free list, in one
  frame of the cooling table, or resident; slots in the set `H` are held by
  the running operation and are in none of these places.
* `Cached`: resident pages show the nodes of `F`, and tagged child words and
  parent pointers agree.  The parent pointers of pages in the set `loose`
  are not constrained.
* `Backed`: the nodes of `F` are linked, lie in the allocated part of the
  backend, and are shown there unless a dirty resident page holds them.
* `Mapped`: the page table knows every resident page and no slot of the
  free list; slots in `U` are in no entry.

Each operation of the cache changes one or two of these groups, so each
group has its own step lemmas.  The proposition `tidy` stands for conditions
that only the assertions of the source depend on: clean cooling pages and
separators in order.
-/

namespace CachingDex

open Lib

/-- The pages in the frames of a bucket, the newest first. -/
def Bucket.pages (b : Bucket) : List PagePtr :=
  (live b.frames b.count).map Frame.page

namespace State

/-- The backend address a child word stands for. -/
def addressOf (s : State) : ChildSlot → GlobalAddress
  | .remote a => a
  | .swizzled q => (s.page q).remoteAddress

/-- The page in slot `i`. -/
abbrev slotPage (s : State) (i : ℕ) : Page :=
  s.page (.slot i)

/-- The backend address of the page in slot `i`. -/
abbrev addr (s : State) (i : ℕ) : GlobalAddress :=
  (s.slotPage i).remoteAddress

/-- The node the page in slot `i` shows. -/
def nodeAt (s : State) (i : ℕ) : TreeNode :=
  (s.slotPage i).node s.addressOf

/-- Slot `i` is in a frame of the cooling table. -/
def Cooling (s : State) (i : ℕ) : Prop :=
  ∃ j < s.hashTable.bucketNum, PagePtr.slot i ∈ (s.hashTable.table j).pages

end State

/-- Child word `k` is a tagged pointer to `q`. -/
abbrev Page.Tags (p : Page) (k : ℕ) (q : PagePtr) : Prop :=
  p.slots[k]? = some (.swizzled q)

/-- The page is in use by the tree: hot, or pinned for the moment. -/
def Page.InUse (p : Page) : Prop :=
  p.posState = .hot ∨ p.posState = .pin

structure Pool (H R : Set ℕ) (s : State) : Prop where
  head_le : s.allocator.headIdx ≤ s.allocator.pageNum
  dynamic_iff : s.dynamic = true ↔ s.allocator.headIdx = s.allocator.pageNum
  buckets : 0 < s.hashTable.bucketNum
  count_le : ∀ {j}, j < s.hashTable.bucketNum →
    (s.hashTable.table j).count ≤ 6
  framed : ∀ {j p}, j < s.hashTable.bucketNum →
    p ∈ (s.hashTable.table j).pages →
      ∃ i < s.allocator.headIdx, p = .slot i ∧ i ∉ H ∧
        (s.slotPage i).posState = .cool
  frames_nodup : ∀ {j}, j < s.hashTable.bucketNum →
    (s.hashTable.table j).pages.Nodup
  frames_apart : ∀ {j j' p}, j < s.hashTable.bucketNum →
    j' < s.hashTable.bucketNum → p ∈ (s.hashTable.table j).pages →
      p ∈ (s.hashTable.table j').pages → j = j'
  local_nodup : s.localPageSet.Nodup
  listed : ∀ {p}, p ∈ s.localPageSet →
    ∃ i < s.allocator.headIdx, p = .slot i ∧ i ∉ H ∧
      (s.slotPage i).posState = .local
  hand_lt : ∀ {i}, i ∈ H → i < s.allocator.headIdx
  resident_iff : ∀ {i}, i ∈ R ↔
    i < s.allocator.headIdx ∧ i ∉ H ∧ (s.slotPage i).InUse
  accounted : ∀ {i}, i < s.allocator.headIdx → i ∉ H →
    i ∈ R ∨ .slot i ∈ s.localPageSet ∨ s.Cooling i

structure Cached (loose R : Set ℕ) (s : State) (F : TreeForest) : Prop where
  super_level : (s.page .superRoot).level = 255
  formed : ∀ {i}, i ∈ R → (s.slotPage i).Formed
  shown : ∀ {i}, i ∈ R → F (s.addr i) = some (s.nodeAt i)
  distinct : ∀ {i j}, i ∈ R → j ∈ R → s.addr i = s.addr j → i = j
  tagged : ∀ {i k q}, i ∈ R → (s.slotPage i).Tags k q →
    ∃ j ∈ R, q = .slot j ∧
      (j ∉ loose → (s.slotPage j).parentPtr = some (.slot i))
  parented : ∀ {i}, i ∈ R → i ∉ loose →
    ((s.slotPage i).parentPtr = some .superRoot ∧
      ¬ F.IsChild (s.addr i)) ∨
    ∃ j ∈ R, (s.slotPage i).parentPtr = some (.slot j) ∧
      ∃ k, (s.slotPage j).Tags k (.slot i)

/-- The address in a child word that is not tagged. -/
def ChildSlot.home : ChildSlot → GlobalAddress
  | .remote a => a
  | .swizzled _ => .null

/-- The backend image at `a` shows `n`, without tagged child words. -/
structure Image (b : InMemoryBackend) (a : GlobalAddress) (n : TreeNode) :
    Prop where
  address : (b.store a.offset).remoteAddress = a
  formed : (b.store a.offset).Formed
  untagged : ∀ {c}, c ∈ (b.store a.offset).slots → c.isSwizzled = false
  shows : (b.store a.offset).node ChildSlot.home = n

/-- The address is in the part of the store handed out by the backend. -/
structure Placed (b : InMemoryBackend) (a : GlobalAddress) : Prop where
  nodeID : a.nodeID = 0
  used : a.offset + pageSize ≤ b.curOffset
  inRange : b.inRange a = true

namespace Placed

variable {b : InMemoryBackend} {a a' : GlobalAddress}

theorem congr {b' : InMemoryBackend} (h : Placed b a)
    (hcur : b.curOffset ≤ b'.curOffset)
    (hcapacity : b'.capacityBytes = b.capacityBytes) : Placed b' a where
  nodeID := h.nodeID
  used := h.used.trans hcur
  inRange := by
    have := h.inRange
    rwa [InMemoryBackend.inRange, hcapacity]

theorem write (h : Placed b a) (p : Page) : Placed (b.write a' p) a :=
  h.congr (by simp) (by simp)

/-- Placed addresses differ in their offsets. -/
theorem offset_ne (h : Placed b a) (h' : Placed b a') (hne : a ≠ a') :
    (a.offset : ℕ) ≠ a'.offset := by
  intro heq
  apply hne
  have hnode : a.nodeID = a'.nodeID := h.nodeID.trans h'.nodeID.symm
  cases a
  cases a'
  simp only [GlobalAddress.mk.injEq]
  exact ⟨hnode, Fin.ext heq⟩

end Placed

namespace Image

variable {b : InMemoryBackend} {a a' : GlobalAddress} {n : TreeNode}

theorem congr {b' : InMemoryBackend} (h : Image b a n)
    (hstore : b'.store a.offset = b.store a.offset) : Image b' a n where
  address := hstore ▸ h.address
  formed := hstore ▸ h.formed
  untagged := by
    rw [hstore]
    exact h.untagged
  shows := hstore ▸ h.shows

/-- Writing another page keeps the image. -/
theorem write_of_ne (h : Image b a n) (ha : Placed b a) (ha' : Placed b a')
    (hne : a ≠ a') (p : Page) : Image (b.write a' p) a n :=
  h.congr (InMemoryBackend.store_write_of_ne (ha.offset_ne ha' hne))

/-- Writing a page without tagged words leaves its image. -/
theorem of_write {p : Page} (ha : b.inRange a = true)
    (haddr : p.remoteAddress = a) (hp : p.Formed)
    (htags : ∀ {c}, c ∈ p.slots → c.isSwizzled = false) :
    Image (b.write a p) a (p.node ChildSlot.home) where
  address := by
    rw [InMemoryBackend.store_write_self ha]
    exact haddr
  formed := by
    rw [InMemoryBackend.store_write_self ha]
    exact hp
  untagged := by
    rw [InMemoryBackend.store_write_self ha]
    exact htags
  shows := by rw [InMemoryBackend.store_write_self ha]

end Image

structure Backed (tidy : Prop) (adrift : GlobalAddress → Prop) (R : Set ℕ)
    (s : State) (F : TreeForest) : Prop where
  linked : F.Linked adrift
  level_lt : ∀ {a n}, F a = some n → n.level < 255
  ordered : tidy → ∀ {a n}, F a = some n → n.bounds.Pairwise (· ≤ ·)
  capacity_le : s.backend.capacityBytes ≤ 2 ^ 47
  placed : ∀ {a n}, F a = some n → Placed s.backend a
  image : ∀ {a n}, F a = some n →
    (∀ i ∈ R, s.addr i = a → (s.slotPage i).dirty = false) → Image s.backend a n
  clean : tidy → ∀ {i}, i < s.allocator.pageNum →
    (s.slotPage i).dirty = true → i ∈ R

structure Mapped (U R : Set ℕ) (s : State) : Prop where
  inv : s.pageTable.Inv
  maps : ∀ {a q}, s.pageTable.get a = some q →
    ∃ i < s.allocator.headIdx, q = .slot i ∧ i ∉ U ∧ s.addr i = a ∧
      (s.slotPage i).posState ≠ .local
  mapped : ∀ {i}, i ∈ R → s.pageTable.get (s.addr i) = some (.slot i)

/-- The state is coherent with the forest `F`; `R` is the set of resident
slots and `H` the set of slots in hand, of which those in `U` hold nothing. -/
structure Coherent (tidy : Prop) (adrift : GlobalAddress → Prop)
    (loose H U R : Set ℕ) (s : State) (F : TreeForest) : Prop where
  pool : Pool H R s
  cached : Cached loose R s F
  backed : Backed tidy adrift R s F
  mapped : Mapped U R s

/-! ## Consequences for a single page -/

namespace Cached

variable {loose R : Set ℕ} {s : State} {F : TreeForest}

theorem children_nodeAt (h : Cached loose R s F) {i : ℕ} (hi : i ∈ R) :
    (s.nodeAt i).children = (s.slotPage i).slots.map s.addressOf :=
  Page.node_children (h.formed hi)

/-- A child word of a resident page names a child in the forest. -/
theorem child_of_slot (h : Cached loose R s F) {i k : ℕ} {c : ChildSlot}
    (hi : i ∈ R) (hc : (s.slotPage i).slots[k]? = some c) :
    (s.nodeAt i).children[k]? = some (s.addressOf c) := by
  rw [h.children_nodeAt hi, List.getElem?_map, hc]
  rfl

theorem isChild_of_tagged (h : Cached loose R s F) {i k j : ℕ} (hi : i ∈ R)
    (hc : (s.slotPage i).Tags k (.slot j)) : F.IsChild (s.addr j) :=
  ⟨_, _, _, h.shown hi, h.child_of_slot hi hc⟩

/-- A resident page is tagged in one place only. -/
theorem tagged_unique (h : Cached loose R s F) {adrift : GlobalAddress → Prop}
    (hF : F.Linked adrift) {i i' k k' : ℕ} {q : PagePtr} (hi : i ∈ R)
    (hi' : i' ∈ R) (hc : (s.slotPage i).Tags k q)
    (hc' : (s.slotPage i').Tags k' q) : i = i' ∧ k = k' := by
  obtain ⟨haddr, hk⟩ := hF.unique (h.shown hi) (h.shown hi')
    (h.child_of_slot hi hc) (h.child_of_slot hi' hc')
  exact ⟨h.distinct hi hi' haddr, hk⟩

theorem level_nodeAt (h : Cached loose R s F) {i : ℕ} (hi : i ∈ R) :
    (s.nodeAt i).level = (s.slotPage i).level.toNat :=
  Page.node_level (h.formed hi)

/-- A tagged child is one level below the page that tags it. -/
theorem level_tagged (h : Cached loose R s F)
    {adrift : GlobalAddress → Prop} (hF : F.Linked adrift) {i j k : ℕ}
    (hi : i ∈ R) (hj : j ∈ R)
    (hc : (s.slotPage i).Tags k (.slot j)) :
    (s.slotPage j).level.toNat + 1 = (s.slotPage i).level.toNat := by
  obtain ⟨m, hm, hlevel⟩ := hF.child (h.shown hi) (h.child_of_slot hi hc)
  have hshown : F (s.addr j) = some (s.nodeAt j) := h.shown hj
  change F (s.addr j) = some m at hm
  rw [hshown, Option.some.injEq] at hm
  subst hm
  rwa [h.level_nodeAt hi, h.level_nodeAt hj] at hlevel

/-- A loose page that is parented after all need not be counted as loose. -/
theorem tighten (h : Cached loose R s F) {loose' : Set ℕ}
    (htagged : ∀ {i k j}, i ∈ R → j ∈ R → j ∈ loose → j ∉ loose' →
      (s.slotPage i).Tags k (.slot j) →
        (s.slotPage j).parentPtr = some (.slot i))
    (hparented : ∀ {i}, i ∈ R → i ∈ loose → i ∉ loose' →
      ((s.slotPage i).parentPtr = some .superRoot ∧
        ¬ F.IsChild (s.addr i)) ∨
      ∃ j ∈ R, (s.slotPage i).parentPtr = some (.slot j) ∧
        ∃ k, (s.slotPage j).Tags k (.slot i)) :
    Cached loose' R s F where
  super_level := h.super_level
  formed := h.formed
  shown := h.shown
  distinct := h.distinct
  tagged hi hc := by
    obtain ⟨j, hj, rfl, hparent⟩ := h.tagged hi hc
    refine ⟨j, hj, rfl, fun hnot => ?_⟩
    by_cases hloose : j ∈ loose
    · exact htagged hi hj hloose hnot hc
    · exact hparent hloose
  parented := by
    intro i hi hnot
    by_cases hloose : i ∈ loose
    · exact hparented hi hloose hnot
    · exact h.parented hi hloose

end Cached

/-! ## Parts of the state a group does not look at -/

/-- `Pool` looks at the allocator, the lists and the page states. -/
theorem Pool.congr {H R : Set ℕ} {s s' : State} (h : Pool H R s)
    (hallocator : s'.allocator = s.allocator)
    (hdynamic : s'.dynamic = s.dynamic)
    (htable : s'.hashTable = s.hashTable)
    (hlocal : s'.localPageSet = s.localPageSet)
    (hpos : ∀ i, (s'.slotPage i).posState = (s.slotPage i).posState) :
    Pool H R s' where
  head_le := hallocator ▸ h.head_le
  dynamic_iff := by
    rw [hdynamic, hallocator]
    exact h.dynamic_iff
  buckets := htable ▸ h.buckets
  count_le := by
    rw [htable]
    exact h.count_le
  framed := by
    simp only [htable, hallocator, hpos]
    exact h.framed
  frames_nodup := by
    rw [htable]
    exact h.frames_nodup
  frames_apart := by
    rw [htable]
    exact h.frames_apart
  local_nodup := hlocal ▸ h.local_nodup
  listed := by
    simp only [hlocal, hallocator, hpos]
    exact h.listed
  hand_lt := by
    rw [hallocator]
    exact h.hand_lt
  resident_iff := by
    simp only [hallocator, Page.InUse, hpos]
    exact h.resident_iff
  accounted := by
    simp only [State.Cooling, htable, hlocal, hallocator]
    exact h.accounted

/-- Swapping the two states of pages in use keeps `Pool`. -/
theorem Pool.congr_inUse {H R : Set ℕ} {s s' : State} (h : Pool H R s)
    (hallocator : s'.allocator = s.allocator)
    (hdynamic : s'.dynamic = s.dynamic)
    (htable : s'.hashTable = s.hashTable)
    (hlocal : s'.localPageSet = s.localPageSet)
    (hpos : ∀ i, i ∉ R → (s'.slotPage i).posState = (s.slotPage i).posState)
    (huse : ∀ i ∈ R, (s'.slotPage i).InUse) :
    Pool H R s' where
  head_le := hallocator ▸ h.head_le
  dynamic_iff := by
    rw [hdynamic, hallocator]
    exact h.dynamic_iff
  buckets := htable ▸ h.buckets
  count_le := by
    rw [htable]
    exact h.count_le
  framed := by
    simp only [htable, hallocator]
    intro j p hj hp
    obtain ⟨i, hi, rfl, hH, hcool⟩ := h.framed hj hp
    have hR : i ∉ R := fun hR => by
      have := (h.resident_iff.mp hR).2.2
      simp [Page.InUse, hcool] at this
    exact ⟨i, hi, rfl, hH, by rw [hpos i hR, hcool]⟩
  frames_nodup := by
    rw [htable]
    exact h.frames_nodup
  frames_apart := by
    rw [htable]
    exact h.frames_apart
  local_nodup := hlocal ▸ h.local_nodup
  listed := by
    simp only [hlocal, hallocator]
    intro p hp
    obtain ⟨i, hi, rfl, hH, hcool⟩ := h.listed hp
    have hR : i ∉ R := fun hR => by
      have := (h.resident_iff.mp hR).2.2
      simp [Page.InUse, hcool] at this
    exact ⟨i, hi, rfl, hH, by rw [hpos i hR, hcool]⟩
  hand_lt := by
    rw [hallocator]
    exact h.hand_lt
  resident_iff := by
    intro i
    rw [hallocator]
    constructor
    · intro hi
      obtain ⟨hlt, hH, _⟩ := h.resident_iff.mp hi
      exact ⟨hlt, hH, huse i hi⟩
    · rintro ⟨hlt, hH, hin⟩
      by_contra hi
      rw [Page.InUse, hpos i hi] at hin
      exact hi (h.resident_iff.mpr ⟨hlt, hH, hin⟩)
  accounted := by
    simp only [State.Cooling, htable, hlocal, hallocator]
    exact h.accounted

theorem Mapped.congr {U R : Set ℕ} {s s' : State} (h : Mapped U R s)
    (hhead : s'.allocator.headIdx = s.allocator.headIdx)
    (htable : s'.pageTable = s.pageTable)
    (haddr : ∀ i, s'.addr i = s.addr i)
    (hpos : ∀ i, (s'.slotPage i).posState = .local →
      (s.slotPage i).posState = .local) :
    Mapped U R s' where
  inv := htable ▸ h.inv
  maps := by
    rw [htable, hhead]
    intro a q hq
    obtain ⟨i, hi, rfl, hU, ha, hlocal⟩ := h.maps hq
    exact ⟨i, hi, rfl, hU, by rw [haddr, ha], fun hl => hlocal (hpos i hl)⟩
  mapped := by
    intro i hi
    rw [htable, haddr]
    exact h.mapped hi

/-- `Cached` looks at the resident pages and at `super_root_`. -/
theorem Cached.nodeAt_congr {loose R : Set ℕ} {s s' : State} {F : TreeForest}
    (h : Cached loose R s F) {i : ℕ} (hi : i ∈ R)
    (hpage : s'.slotPage i = s.slotPage i)
    (haddr : ∀ j ∈ R, s'.addr j = s.addr j) : s'.nodeAt i = s.nodeAt i := by
  rw [State.nodeAt, State.nodeAt, hpage]
  apply Page.node_congr
  intro c hc
  cases c with
  | remote a => rfl
  | swizzled q =>
      obtain ⟨k, hk⟩ := List.getElem?_of_mem hc
      obtain ⟨j, hj, rfl, _⟩ := h.tagged hi hk
      exact haddr j hj

theorem Cached.congr {loose R : Set ℕ} {s s' : State} {F : TreeForest}
    (h : Cached loose R s F)
    (hpage : ∀ i ∈ R, s'.slotPage i = s.slotPage i)
    (hsuper : s'.page .superRoot = s.page .superRoot) :
    Cached loose R s' F where
  super_level := hsuper ▸ h.super_level
  formed := by
    intro i hi
    rw [hpage i hi]
    exact h.formed hi
  shown := by
    intro i hi
    have haddr : ∀ j ∈ R, s'.addr j = s.addr j := fun j hj => by
      rw [State.addr, hpage j hj]
    rw [h.nodeAt_congr hi (hpage i hi) haddr, haddr i hi]
    exact h.shown hi
  distinct := by
    intro i j hi hj hij
    rw [State.addr, State.addr, hpage i hi, hpage j hj] at hij
    exact h.distinct hi hj hij
  tagged := by
    intro i k q hi hc
    rw [hpage i hi] at hc
    obtain ⟨j, hj, rfl, hparent⟩ := h.tagged hi hc
    exact ⟨j, hj, rfl, by rw [hpage j hj]; exact hparent⟩
  parented := by
    intro i hi hloose
    rw [State.addr, hpage i hi]
    rcases h.parented hi hloose with htop | ⟨j, hj, hparent, k, hk⟩
    · exact Or.inl htop
    · exact Or.inr ⟨j, hj, hparent, k, by rw [hpage j hj]; exact hk⟩

/-- `Backed` looks at the backend and at the dirty pages. -/
theorem Backed.congr {tidy : Prop} {adrift : GlobalAddress → Prop}
    {R : Set ℕ} {s s' : State} {F : TreeForest}
    (h : Backed tidy adrift R s F)
    (hbackend : s'.backend = s.backend)
    (hnum : s'.allocator.pageNum = s.allocator.pageNum)
    (hresident : ∀ i ∈ R, s'.addr i = s.addr i ∧
        (s'.slotPage i).dirty = (s.slotPage i).dirty)
    (hdirty : ∀ i, (s'.slotPage i).dirty = true →
      (s.slotPage i).dirty = true) :
    Backed tidy adrift R s' F where
  linked := h.linked
  level_lt := h.level_lt
  ordered := h.ordered
  capacity_le := hbackend ▸ h.capacity_le
  placed := by
    rw [hbackend]
    exact h.placed
  image := by
    intro a n hn hclean
    rw [hbackend]
    refine h.image hn fun i hi ha => ?_
    obtain ⟨haddr, hd⟩ := hresident i hi
    rw [← hd]
    exact hclean i hi (haddr.trans ha)
  clean := by
    intro ht i hi hd
    rw [hnum] at hi
    exact h.clean ht hi (hdirty i hd)

/-- The draws, the counters and the fields of the tree object are in no
group. -/
theorem Coherent.congr {tidy : Prop} {adrift : GlobalAddress → Prop}
    {loose H U R : Set ℕ} {s s' : State} {F : TreeForest}
    (h : Coherent tidy adrift loose H U R s F) (hpage : s'.page = s.page)
    (hallocator : s'.allocator = s.allocator)
    (hdynamic : s'.dynamic = s.dynamic)
    (htable : s'.hashTable = s.hashTable)
    (hlocal : s'.localPageSet = s.localPageSet)
    (hpageTable : s'.pageTable = s.pageTable)
    (hbackend : s'.backend = s.backend) :
    Coherent tidy adrift loose H U R s' F where
  pool := h.pool.congr hallocator hdynamic htable hlocal
    fun i => by rw [State.slotPage, hpage]
  cached := h.cached.congr (fun i _ => by rw [State.slotPage, hpage])
    (by rw [hpage])
  backed := h.backed.congr hbackend (by rw [hallocator])
    (fun i _ => by simp only [State.addr, State.slotPage, hpage, and_self])
    fun i hd => by rwa [State.slotPage, hpage] at hd
  mapped := h.mapped.congr (by rw [hallocator]) hpageTable
    (fun i => by simp only [State.addr, State.slotPage, hpage])
    fun i hl => by rwa [State.slotPage, hpage] at hl

end CachingDex
