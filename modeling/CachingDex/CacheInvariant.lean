import CachingDex.Accounting

/-!
# The cache between two operations

What holds of the pool, the page table, the child words and the backend
whenever a tame run is between two operations, stated of the pages as they
stand.
-/

namespace CachingDex

open Lib

namespace State

/-- The pages in the frames of the cooling table, bucket by bucket. -/
def frames (s : State) : List PagePtr :=
  (List.range s.hashTable.bucketNum).flatMap fun j =>
    (s.hashTable.table j).pages

/-- Slot `i` is handed out and holds a hot page. -/
def Hot (s : State) (i : ℕ) : Prop :=
  i < s.allocator.headIdx ∧ (s.slotPage i).posState = .hot

end State

/-- A slot that was handed out holds a hot page, is in one frame of the
cooling table, or is on the free list once. -/
structure SlotRoles (s : State) : Prop where
  roles : ∀ {i}, i < s.allocator.headIdx →
    (s.slotPage i).posState = .hot ∨ (s.slotPage i).posState = .cool ∨
      (s.slotPage i).posState = .local
  framed_iff : ∀ {p}, p ∈ s.frames ↔ ∃ i < s.allocator.headIdx,
    p = .slot i ∧ (s.slotPage i).posState = .cool
  frames_nodup : s.frames.Nodup
  listed_iff : ∀ {p}, p ∈ s.localPageSet ↔ ∃ i < s.allocator.headIdx,
    p = .slot i ∧ (s.slotPage i).posState = .local
  local_nodup : s.localPageSet.Nodup
  dynamic_iff : s.dynamic = true ↔ s.allocator.headIdx = s.allocator.pageNum

/-- The page table finds every hot page, and nothing but hot and cooling
pages under their own addresses. -/
structure TableTruth (s : State) : Prop where
  hot : ∀ {i}, s.Hot i → s.pageTable.get (s.addr i) = some (.slot i)
  found : ∀ {a p}, s.pageTable.get a = some p → ∃ i < s.allocator.headIdx,
    p = .slot i ∧ s.addr i = a ∧ ((s.slotPage i).posState = .hot ∨
      (s.slotPage i).posState = .cool)

/-- The backend has the page as it stands, without tagged child words. -/
structure Stored (s : State) (p : Page) : Prop where
  address : (s.backend.store p.remoteAddress.offset).remoteAddress =
    p.remoteAddress
  bitmap : (s.backend.store p.remoteAddress.offset).bitmap = 0
  untagged : ∀ c ∈ (s.backend.store p.remoteAddress.offset).slots,
    c.isSwizzled = false
  shows : (s.backend.store p.remoteAddress.offset).node ChildSlot.home =
    p.node s.addressOf

/-- Tagged child words, bitmaps, parent pointers and dirty flags agree, and
the backend has what the pool has not changed. -/
structure LinksAgree (s : State) : Prop where
  root : ∃ r, s.Hot r ∧ (s.page .superRoot).child 0 = .swizzled (.slot r) ∧
    (s.slotPage r).parentPtr = some .superRoot ∧
      (s.slotPage r).minLimit = ⊥ ∧ (s.slotPage r).maxLimit = ⊤
  bitmap : ∀ {i k}, s.Hot i → ((s.slotPage i).bitmap.getLsbD k = true ↔
    (s.slotPage i).type = .btreeInner ∧ k ≤ (s.slotPage i).count.toNat ∧
      ((s.slotPage i).child k).isSwizzled = true)
  tagged : ∀ {i k p}, s.Hot i → (s.slotPage i).type = .btreeInner →
    k ≤ (s.slotPage i).count.toNat → (s.slotPage i).child k = .swizzled p →
    ∃ j, p = .slot j ∧ s.Hot j ∧
      (s.slotPage j).parentPtr = some (.slot i) ∧
      (s.slotPage j).level.toNat + 1 = (s.slotPage i).level.toNat ∧
      newCheckLimitMatch (s.slotPage i) (s.slotPage j) k = true
  parented : ∀ {j}, s.Hot j → (s.page .superRoot).child 0 ≠
      .swizzled (.slot j) →
    ∃! place : ℕ × ℕ, s.Hot place.1 ∧
      (s.slotPage place.1).type = .btreeInner ∧
      place.2 ≤ (s.slotPage place.1).count.toNat ∧
      (s.slotPage place.1).child place.2 = .swizzled (.slot j)
  dirty : ∀ {i}, i < s.allocator.pageNum → (s.slotPage i).dirty = true →
    s.Hot i
  stored : ∀ {path p}, s.treePage path = some p →
    (∃ i, s.Hot i ∧ p = s.slotPage i ∧ p.dirty = true) ∨ Stored s p
  apart : ∀ {path path' p p'}, s.treePage path = some p →
    s.treePage path' = some p' → p.remoteAddress = p'.remoteAddress →
      path = path'
  null_free : ∀ {path p}, s.treePage path = some p →
    p.remoteAddress ≠ .null

section Between

variable {R : Set ℕ} {s : State} {F : TreeForest}

/-- Between two operations the resident slots are those with hot pages. -/
theorem Ready.mem_iff (h : Ready True R s F) {i : ℕ} : i ∈ R ↔ s.Hot i := by
  constructor
  · intro hi
    exact ⟨(h.settled.pool.resident_iff.mp hi).1, h.hot i hi⟩
  · intro hi
    exact h.settled.pool.resident_iff.mpr
      ⟨hi.1, Set.notMem_empty i, Or.inl hi.2⟩

theorem State.mem_frames {p : PagePtr} : p ∈ s.frames ↔
    ∃ j < s.hashTable.bucketNum, p ∈ (s.hashTable.table j).pages := by
  simp [State.frames]

theorem Ready.slotRoles (h : Ready True R s F) : SlotRoles s := by
  have hpool := h.settled.pool
  have hcooling : ∀ {i}, s.Cooling i → (s.slotPage i).posState = .cool := by
    intro i hi
    obtain ⟨j, hj, hmem⟩ := hi
    obtain ⟨i', _, heq, _, hpos⟩ := hpool.framed hj hmem
    obtain rfl := PagePtr.slot.inj heq
    exact hpos
  have hlisted : ∀ {i}, .slot i ∈ s.localPageSet →
      (s.slotPage i).posState = .local := by
    intro i hi
    obtain ⟨i', _, heq, _, hpos⟩ := hpool.listed hi
    obtain rfl := PagePtr.slot.inj heq
    exact hpos
  constructor
  · intro i hi
    rcases hpool.accounted hi (Set.notMem_empty i) with hR | hlocal | hcool
    · exact Or.inl (h.hot i hR)
    · exact Or.inr (Or.inr (hlisted hlocal))
    · exact Or.inr (Or.inl (hcooling hcool))
  · intro p
    rw [State.mem_frames]
    constructor
    · intro hp
      obtain ⟨j, hj, hmem⟩ := hp
      obtain ⟨i, hi, rfl, _, hpos⟩ := hpool.framed hj hmem
      exact ⟨i, hi, rfl, hpos⟩
    · intro hp
      obtain ⟨i, hi, rfl, hpos⟩ := hp
      rcases hpool.accounted hi (Set.notMem_empty i) with hR | hlocal | hcool
      · rw [h.hot i hR] at hpos
        cases hpos
      · rw [hlisted hlocal] at hpos
        cases hpos
      · exact hcool
  · rw [State.frames, List.nodup_flatMap]
    constructor
    · intro j hj
      exact hpool.frames_nodup (List.mem_range.mp hj)
    · refine List.nodup_range.imp_of_mem ?_
      intro j j' hj hj' hne p hp hp'
      exact hne (hpool.frames_apart (List.mem_range.mp hj)
        (List.mem_range.mp hj') hp hp')
  · intro p
    constructor
    · intro hp
      obtain ⟨i, hi, rfl, _, hpos⟩ := hpool.listed hp
      exact ⟨i, hi, rfl, hpos⟩
    · intro hp
      obtain ⟨i, hi, rfl, hpos⟩ := hp
      rcases hpool.accounted hi (Set.notMem_empty i) with hR | hlocal | hcool
      · rw [h.hot i hR] at hpos
        cases hpos
      · exact hlocal
      · rw [hcooling hcool] at hpos
        cases hpos
  · exact hpool.local_nodup
  · exact hpool.dynamic_iff

theorem Ready.tableTruth (h : Ready True R s F) : TableTruth s := by
  have hmapped := h.settled.mapped
  constructor
  · intro i hi
    exact hmapped.mapped (h.mem_iff.mpr hi)
  · intro a p hget
    obtain ⟨i, hi, rfl, _, ha, hlocal⟩ := hmapped.maps hget
    refine ⟨i, hi, rfl, ha, ?_⟩
    rcases h.slotRoles.roles hi with hhot | hcool | hfree
    · exact Or.inl hhot
    · exact Or.inr hcool
    · exact absurd hfree hlocal

/-- An image without tagged words has an empty bitmap. -/
theorem Image.bitmap_eq_zero {b : InMemoryBackend} {a : GlobalAddress}
    {n : TreeNode} (h : Image b a n) : (b.store a.offset).bitmap = 0 := by
  rw [Page.bitmap_eq_zero_iff h.formed]
  intro i q hq
  have huntagged := h.untagged (List.mem_of_getElem? hq)
  simp [ChildSlot.isSwizzled] at huntagged

theorem Image.stored {a : GlobalAddress} {p : Page}
    (h : Image s.backend a (p.node s.addressOf)) (ha : p.remoteAddress = a) :
    Stored s p := by
  subst ha
  exact ⟨h.address, h.bitmap_eq_zero, fun c hc => h.untagged hc, h.shows⟩

/-- The backend has every page of the tree but the dirty ones. -/
theorem Consistent.imaged (h : Consistent R s F) {path : List ℕ} {p : Page}
    (hp : s.treePage path = some p) :
    (∃ i, s.Hot i ∧ p = s.slotPage i ∧ p.dirty = true) ∨
      Image s.backend p.remoteAddress (p.node s.addressOf) := by
  have hready := h.ready
  have hbacked := hready.settled.backed
  obtain ⟨a, ha, hcur⟩ := h.current_of_path hp
  rw [hcur.address]
  rcases hcur.place with ⟨i, hi, rfl⟩ | ⟨hout, _⟩
  · cases hdirty : (s.slotPage i).dirty with
    | true => exact Or.inl ⟨i, hready.mem_iff.mp hi, rfl, rfl⟩
    | false =>
        right
        refine hbacked.image hcur.shown ?_
        intro j hj hja
        obtain rfl := hready.settled.cached.distinct hj hi
          (hja.trans hcur.address.symm)
        exact hdirty
  · exact Or.inr (hbacked.image hcur.shown
      fun j hj hja => absurd hja (hout j hj))

theorem Consistent.linksAgree (h : Consistent R s F) : LinksAgree s := by
  have hready := h.ready
  have hcached := hready.settled.cached
  have hbacked := hready.settled.backed
  have hlinked := hbacked.linked
  obtain ⟨r, hr⟩ := h.rooted
  have hrootPage : s.rootPage = s.slotPage r := by
    rw [State.rootPage, hr.word]
    rfl
  constructor
  · obtain ⟨n, hn, hlo, hhi⟩ := h.search.root_node
    rw [h.current_root.shown, Option.some.injEq] at hn
    subst hn
    rw [hrootPage] at hlo hhi
    exact ⟨r, hready.mem_iff.mp hr.mem, hr.word, hr.parent,
      by simpa using hlo, by simpa using hhi⟩
  · intro i k hi
    have hformed := hcached.formed (hready.mem_iff.mpr hi)
    rw [hformed.aligned]
    constructor
    · intro hk
      obtain ⟨q, hq⟩ := hk
      obtain ⟨htype, hle, hchild⟩ := Page.le_count_of_slot hq
      exact ⟨htype, hle, by rw [hchild]; rfl⟩
    · intro hk
      obtain ⟨htype, hle, htag⟩ := hk
      rw [Page.getElem?_slots hformed htype hle]
      cases hchild : (s.slotPage i).child k with
      | swizzled q => exact ⟨q, rfl⟩
      | remote a =>
          rw [hchild] at htag
          cases htag
  · intro i k p hi htype hle hchild
    have hmem := hready.mem_iff.mpr hi
    have hslot := Page.getElem?_slots (hcached.formed hmem) htype hle
    rw [hchild] at hslot
    obtain ⟨j, hj, rfl, hparent⟩ := hcached.tagged hmem hslot
    have hnode := hcached.child_of_slot hmem hslot
    refine ⟨j, rfl, hready.mem_iff.mp hj, hparent (Set.notMem_empty j),
      hcached.level_tagged hlinked hmem hj hslot, ?_⟩
    exact (hready.settled.current_resident hmem).limits_match
      (hready.settled.current_resident hj) h.search hnode
  · intro j hj hroot
    have hmem := hready.mem_iff.mpr hj
    have hne : j ≠ r := by
      rintro rfl
      exact hroot hr.word
    rcases hcached.parented hmem (Set.notMem_empty j) with
      ⟨_, hfree⟩ | ⟨i, hi, _, k, hk⟩
    · have haddr := h.search.eq_root (hcached.shown hmem) hfree
      exact absurd (hcached.distinct hmem hr.mem (haddr.trans hr.addr.symm))
        hne
    · obtain ⟨htype, hle, hchild⟩ := Page.le_count_of_slot hk
      refine ⟨(i, k), ⟨hready.mem_iff.mp hi, htype, hle, hchild⟩, ?_⟩
      intro place hplace
      obtain ⟨hhot, htype', hle', hchild'⟩ := hplace
      have hi' := hready.mem_iff.mpr hhot
      have hslot := Page.getElem?_slots (hcached.formed hi') htype' hle'
      rw [hchild'] at hslot
      obtain ⟨hfst, hsnd⟩ := hcached.tagged_unique hlinked hi' hi hslot hk
      exact Prod.ext hfst hsnd
  · intro i hi hdirty
    exact hready.mem_iff.mp (hbacked.clean trivial hi hdirty)
  · intro path p hp
    rcases h.imaged hp with hdirty | himage
    · exact Or.inl hdirty
    · exact Or.inr (himage.stored rfl)
  · intro path path' p p' hp hp' heq
    obtain ⟨a, ha, hcur⟩ := h.current_of_path hp
    obtain ⟨a', ha', hcur'⟩ := h.current_of_path hp'
    rw [hcur.address, hcur'.address] at heq
    subst heq
    exact hlinked.follow_injective h.search.not_child ha ha'
  · intro path p hp
    obtain ⟨a, _, hcur⟩ := h.current_of_path hp
    rw [hcur.address]
    rintro rfl
    have hshown := hcur.shown
    rw [h.null_free] at hshown
    cases hshown

end Between

/-- After a tame run every slot has one role, and the page table tells the
truth. -/
theorem tameRun_slotRoles {c : TreeConfig} {ops : List Op}
    (h : TameRun c ops) :
    EndsIn c ops fun _ s => SlotRoles s ∧ TableTruth s := by
  refine h.ends.2.mono ?_
  intro _ s hend
  obtain ⟨R, F, htree, _⟩ := hend.tree
  exact ⟨htree.ready.slotRoles, htree.ready.tableTruth⟩

theorem tameRun_slotRoles_mixed :
    SlotRoles (freshRun mixedRun threeSlots.initial).state ∧
      TableTruth (freshRun mixedRun threeSlots.initial).state := by
  obtain ⟨_, _, hroles⟩ :=
    (tameRun_slotRoles tameRun_mixed).of_returns mixedRun_returns
  exact hroles

/-- After a tame run the child words, bitmaps, parent pointers, dirty flags
and backend images agree. -/
theorem tameRun_linksAgree {c : TreeConfig} {ops : List Op}
    (h : TameRun c ops) : EndsIn c ops fun _ s => LinksAgree s := by
  refine h.ends.2.mono ?_
  intro _ s hend
  obtain ⟨R, F, htree, _⟩ := hend.tree
  exact htree.linksAgree

theorem tameRun_linksAgree_mixed :
    LinksAgree (freshRun mixedRun threeSlots.initial).state := by
  obtain ⟨_, _, hlinks⟩ :=
    (tameRun_linksAgree tameRun_mixed).of_returns mixedRun_returns
  exact hlinks

end CachingDex
