import CachingDex.TreeState

/-!
# The steps of a split

A split allocates an address, cuts a page in half, adds the other half as a
page or as an image, turns the parent pointers of the children that moved,
and hooks the new half into the parent or both halves into a new root.  Each
step leads from one coherent state to another; in between, the forest has an
adrift node and loose pages.
-/

namespace CachingDex

open Lib Lib.Traced

section States

variable {tidy : Prop} {adrift adrift' : GlobalAddress → Prop}
  {loose loose' H U R : Set ℕ} {s s' : State} {F : TreeForest}

/-! ## A new address -/

/-- What is known of an address just allocated, null or not. -/
structure Allocated (s : State) (F : TreeForest) (a : GlobalAddress)
    (b : InMemoryBackend) : Prop where
  fresh : F a = none
  placed : Placed b a
  store : b.store = s.backend.store
  curOffset : s.backend.curOffset ≤ b.curOffset
  capacity : b.capacityBytes = s.backend.capacityBytes

theorem Backed.allocated_of_room (h : Backed tidy adrift R s F)
    (hroom : s.backend.hasRoom = true) :
    Allocated s F s.backend.alloc.1 s.backend.alloc.2 := by
  have hle : s.backend.curOffset + pageSize ≤ s.backend.capacityBytes := by
    simpa [InMemoryBackend.hasRoom] using hroom
  have hcapacity := h.capacity_le
  have hoffset : ((GlobalAddress.make 0 s.backend.curOffset).offset : ℕ) =
      s.backend.curOffset := by
    apply GlobalAddress.offset_make
    unfold pageSize at hle
    omega
  unfold InMemoryBackend.alloc
  rw [if_pos hroom]
  refine ⟨?_, ⟨rfl, ?_, ?_⟩, rfl, Nat.le_add_right _ _, rfl⟩
  · by_contra hsome
    obtain ⟨n, hn⟩ := Option.ne_none_iff_exists'.mp hsome
    have hused := (h.placed hn).used
    rw [hoffset] at hused
    unfold pageSize at hused
    omega
  · simp only [hoffset]
    exact le_rfl
  · simpa [InMemoryBackend.inRange, hoffset] using hle

theorem Backed.allocated (h : Backed tidy adrift R s F)
    (hnull : F .null = none) {a₀ : GlobalAddress} {n₀ : TreeNode}
    (h₀ : F a₀ = some n₀) :
    Allocated s F s.backend.alloc.1 s.backend.alloc.2 := by
  by_cases hroom : s.backend.hasRoom = true
  · exact h.allocated_of_room hroom
  · have hin := (h.placed h₀).inRange
    have hused := (h.placed h₀).used
    simp only [InMemoryBackend.inRange, decide_eq_true_eq] at hin
    unfold InMemoryBackend.alloc
    rw [if_neg hroom]
    refine ⟨hnull, ⟨rfl, ?_, ?_⟩, rfl, le_rfl, rfl⟩
    · change 0 + pageSize ≤ s.backend.curOffset
      omega
    · simp only [InMemoryBackend.inRange, decide_eq_true_eq]
      change 0 + pageSize ≤ s.backend.capacityBytes
      omega

/-- A successful allocation does not return the null address. -/
theorem InMemoryBackend.alloc_ne_null {b : InMemoryBackend}
    (hcapacity : b.capacityBytes ≤ 2 ^ 47) (hcur : 0 < b.curOffset)
    (hroom : b.hasRoom = true) : b.alloc.1 ≠ .null := by
  have hle : b.curOffset + pageSize ≤ b.capacityBytes := by
    simpa [InMemoryBackend.hasRoom] using hroom
  unfold pageSize at hle
  have hoffset : ((GlobalAddress.make 0 b.curOffset).offset : ℕ) =
      b.curOffset := GlobalAddress.offset_make (by omega)
  rw [InMemoryBackend.alloc, if_pos hroom]
  intro heq
  have hzero : (GlobalAddress.null.offset : ℕ) = 0 := rfl
  rw [← heq, hoffset] at hzero
  omega

theorem alloc_ne_null (h : Backed tidy adrift R s F) {a₀ : GlobalAddress}
    {n₀ : TreeNode} (h₀ : F a₀ = some n₀) (hroom : s.backend.hasRoom = true) :
    s.backend.alloc.1 ≠ .null := by
  have hused := (h.placed h₀).used
  unfold pageSize at hused
  exact InMemoryBackend.alloc_ne_null h.capacity_le (by omega) hroom

/-- A larger part of the backend in use keeps what is there. -/
theorem Backed.alloc (h : Backed tidy adrift R s F) {b : InMemoryBackend}
    (hstore : b.store = s.backend.store)
    (hcur : s.backend.curOffset ≤ b.curOffset)
    (hcapacity : b.capacityBytes = s.backend.capacityBytes) :
    Backed tidy adrift R { s with backend := b } F where
  linked := h.linked
  level_lt := h.level_lt
  ordered := h.ordered
  capacity_le := hcapacity.symm ▸ h.capacity_le
  placed hn := (h.placed hn).congr hcur hcapacity
  image hn hclean := (h.image hn hclean).congr (by rw [hstore])
  clean := h.clean

theorem Coherent.alloc (h : Coherent tidy adrift loose H U R s F)
    {b : InMemoryBackend} (hstore : b.store = s.backend.store)
    (hcur : s.backend.curOffset ≤ b.curOffset)
    (hcapacity : b.capacityBytes = s.backend.capacityBytes) :
    Coherent tidy adrift loose H U R { s with backend := b } F where
  pool := h.pool.congr rfl rfl rfl rfl fun _ => rfl
  cached := h.cached.congr (fun _ _ => rfl) rfl
  backed := h.backed.alloc hstore hcur hcapacity
  mapped := h.mapped.congr rfl rfl (fun _ => rfl) fun _ hl => hl

section Alloc

variable {b : InMemoryBackend}

theorem InMemoryBackend.curOffset_le_alloc :
    b.curOffset ≤ b.alloc.2.curOffset := by
  unfold alloc
  split
  · exact Nat.le_add_right _ _
  · exact le_rfl

end Alloc

/-- Asking the backend for an address keeps a state coherent. -/
theorem Coherent.allocated (h : Coherent tidy adrift loose H U R s F) :
    Coherent tidy adrift loose H U R { s with backend := s.backend.alloc.2 }
      F :=
  h.alloc InMemoryBackend.store_alloc InMemoryBackend.curOffset_le_alloc
    InMemoryBackend.capacityBytes_alloc

/-! ## Cutting a page in half -/

/-- The resident children of slot `c` that a split moves to the sibling. -/
def movedSlots (s : State) (c : ℕ) : Set ℕ :=
  {m | ∃ k, (s.nodeAt c).size / 2 ≤ k ∧ (s.slotPage c).Tags k (.slot m)}

/-- The page in slot `c` gives up the upper half of its contents. -/
theorem Coherent.shrink (h : Settled tidy R s F) {c : ℕ} (hc : c ∈ R)
    (hsize : 4 ≤ (s.nodeAt c).size) {a : GlobalAddress}
    (hordered : tidy →
      ((s.nodeAt c).splitLeft a).bounds.Pairwise (· ≤ ·))
    (hstep : Rewriting c s s') (hformed : (s'.slotPage c).Formed)
    (hnode : (s'.slotPage c).node s.addressOf = (s.nodeAt c).splitLeft a)
    (hslots : (s'.slotPage c).slots =
      (s.slotPage c).slots.take ((s.nodeAt c).size / 2))
    (hdirty : (s'.slotPage c).dirty = true)
    (hbackend : s'.backend = s.backend) :
    Coherent tidy (fun b => b = s.addr c) (movedSlots s c) ∅ ∅ R s'
      (Function.update F (s.addr c) (some ((s.nodeAt c).splitLeft a))) := by
  have hshown := h.cached.shown hc
  have htags : ∀ {k q}, (s'.slotPage c).Tags k q ↔
      k < (s.nodeAt c).size / 2 ∧ (s.slotPage c).Tags k q := by
    intro k q
    rw [Page.Tags, hslots, List.getElem?_take]
    split_ifs with hlt
    · simp [hlt, Page.Tags]
    · simp [hlt]
  refine ⟨h.pool.rewrite hc hstep, ?_, ?_, h.mapped.rewrite hstep⟩
  · refine h.cached.replace hc (fun j _ hj => hstep.slotPage hj) ?_ hstep.addr
      hformed hstep.parentPtr (Set.empty_subset _) ?_ ?_ (by rw [hnode]) ?_
    · rw [hstep.other (by simp)]
      exact h.cached.super_level
    · intro k q hq
      exact Or.inl ⟨k, (htags.mp hq).2⟩
    · intro k j hq hnot
      refine ⟨k, htags.mpr ⟨?_, hq⟩⟩
      by_contra hle
      exact hnot ⟨k, not_lt.mp hle, hq⟩
    · intro j _ _ hfree hchild
      obtain ⟨d, m, i, hm, hi, _⟩ :=
        Forest.Linked.isChild_splitLeft hshown hchild
      exact hfree ⟨d, m, i, hm, hi⟩
  · have hlinked : Forest.Linked (Function.update F (s.addr c)
        (some ((s.nodeAt c).splitLeft a))) fun b => b = s.addr c := by
      simpa using h.backed.linked.splitLeft hshown hsize (z := a)
    exact h.backed.rewrite hc hshown hstep hdirty hbackend (by simp) hlinked
      hordered

/-! ## Adding a node -/

/-- A node is added as an image in the backend. -/
theorem Coherent.graftImage (h : Coherent tidy adrift loose H U R s F)
    {a : GlobalAddress} {n : TreeNode} {p : Page} (hfresh : F a = none)
    (hlinked : Forest.Linked (Function.update F a (some n)) adrift)
    (hlevel : n.level < 255) (hordered : tidy → n.bounds.Pairwise (· ≤ ·))
    (hplaced : Placed s.backend a) (hp : Shows p a n)
    (hfree : ∀ j ∈ R, ¬ F.IsChild (s.addr j) →
      ¬ Forest.IsChild (Function.update F a (some n)) (s.addr j)) :
    Coherent tidy adrift loose H U R
      { s with backend := s.backend.write a p }
        (Function.update F a (some n)) := by
  have hne : ∀ j ∈ R, s.addr j ≠ a := by
    rintro j hj rfl
    rw [h.cached.shown hj] at hfresh
    cases hfresh
  refine ⟨h.pool.congr rfl rfl rfl rfl fun _ => rfl, ?_, ?_,
    h.mapped.congr rfl rfl (fun _ => rfl) fun _ hl => hl⟩
  · refine (h.cached.extend (fun j hj => ?_) hfree).congr (fun _ _ => rfl) rfl
    exact Function.update_of_ne (hne j hj) ..
  · refine h.backed.rebuild hlinked hlevel hordered (hplaced.write p)
      (by simp) (by simp) ?_ ?_ ?_ ?_
    · intro b hb hba
      exact InMemoryBackend.store_write_of_ne (hb.offset_ne hplaced hba)
    · intro _
      have := Image.of_write hplaced.inRange hp.address hp.formed hp.untagged
      rwa [hp.shows] at this
    · intro j hj _
      exact ⟨hj, rfl, rfl⟩
    · exact h.backed.clean

/-- A node is added as a dirty page in the slot in hand. -/
theorem Coherent.graftPage {v : ℕ}
    (h : Coherent tidy adrift loose {v} {v} R s F) (hvR : v ∉ R)
    (hstep : Placing v s s') {a : GlobalAddress} (haddr : s'.addr v = a)
    (hdirty : (s'.slotPage v).dirty = true) {n : TreeNode}
    (hfresh : F a = none)
    (hlinked : Forest.Linked (Function.update F a (some n)) adrift)
    (hlevel : n.level < 255) (hordered : tidy → n.bounds.Pairwise (· ≤ ·))
    (hplaced : Placed s.backend a) (hformed : (s'.slotPage v).Formed)
    (hnode : (s'.slotPage v).node s.addressOf = n) (hsub : loose ⊆ loose')
    (hloose : v ∈ loose')
    (htags : ∀ {k q}, (s'.slotPage v).Tags k q →
      ∃ j ∈ R, q = .slot j ∧ j ∈ loose')
    (hfree : ∀ j ∈ R, j ∉ loose' → ¬ F.IsChild (s.addr j) →
      ¬ Forest.IsChild (Function.update F a (some n)) (s.addr j)) :
    Coherent tidy adrift loose' ∅ ∅ (insert v R) s'
      (Function.update F a (some n)) := by
  have hne : ∀ j ∈ R, s.addr j ≠ a := by
    rintro j hj rfl
    rw [h.cached.shown hj] at hfresh
    cases hfresh
  have hpool := h.pool.placing rfl hstep
  rw [sdiff_self] at hpool
  refine ⟨hpool, ?_, ?_,
    h.mapped.placing (h.pool.hand_lt rfl) hvR hstep (by rwa [haddr])⟩
  · refine h.cached.place hvR
      (fun j hj => hstep.slotPage fun heq => hvR (heq ▸ hj)) ?_ hformed
      (by rwa [haddr]) hsub hloose htags ?_ ?_ hfree
    · rw [hstep.other (by simp)]
      exact h.cached.super_level
    · intro j hj
      exact Function.update_of_ne (hne j hj) ..
    · rw [haddr, Function.update_self, hnode]
  · refine h.backed.rebuild hlinked hlevel hordered ?_ ?_ ?_ ?_ ?_ ?_ ?_
    · rw [hstep.backend]
      exact hplaced
    · rw [hstep.backend]
    · rw [hstep.backend]
    · intro b _ _
      rw [hstep.backend]
    · intro hclean
      have := hclean v (Or.inl rfl) haddr
      rw [hdirty] at this
      cases this
    · intro j hj _
      have hjv : j ≠ v := fun heq => hvR (heq ▸ hj)
      refine ⟨Or.inr hj, ?_, by rw [hstep.slotPage hjv]⟩
      rw [State.addr, hstep.slotPage hjv]
    · intro ht j hj hd
      by_cases hjv : j = v
      · exact Or.inl hjv
      · rw [hstep.slotPage hjv] at hd
        rw [hstep.allocator] at hj
        exact Or.inr (h.backed.clean ht hj hd)

/-! ## Hooking a half into its parent -/

/-- The slot a child word tags. -/
def ChildSlot.tagged (c : ChildSlot) : Set ℕ :=
  {v | c = .swizzled (.slot v)}

/-- A child word that the page in slot `i` can take: the address of a node
that is not resident, or a page that already points at slot `i`. -/
def Hookable (R : Set ℕ) (s : State) (i : ℕ) : ChildSlot → Prop
  | .remote a => ∀ j ∈ R, s.addr j ≠ a
  | .swizzled q => ∃ v ∈ R, q = .slot v ∧
      (s.slotPage v).parentPtr = some (.slot i)

/-- The parent of a cut page takes the other half as its next child. -/
theorem Coherent.hook {i : ℕ} {sep : Key} {child : ChildSlot}
    (h : Coherent tidy adrift child.tagged ∅ ∅ R s F) (hi : i ∈ R)
    (htype : (s.slotPage i).type = .btreeInner)
    (hroom : (s.slotPage i).count.toNat < 59) (hchild : Hookable R s i child)
    {n : TreeNode}
    (hn : n = (s.nodeAt i).insertChild
      (BTreeInner.lowerBound (s.slotPage i) sep) sep (s.addressOf child))
    (hlinked : Forest.Linked (Function.update F (s.addr i) (some n))
      fun _ => False)
    (hordered : tidy → n.bounds.Pairwise (· ≤ ·)) (hstep : Rewriting i s s')
    (hbody : SameBody (BTreeInner.insert (s.slotPage i) sep child)
      (s'.slotPage i))
    (hdirty : (s'.slotPage i).dirty = true)
    (hbackend : s'.backend = s.backend) :
    Settled tidy R s' (Function.update F (s.addr i) (some n)) := by
  have hshown := h.cached.shown hi
  have hformed := h.cached.formed hi
  have hle := BTreeInner.lowerBound_le (s.slotPage i) sep
  obtain ⟨hslots, _, _⟩ := BTreeInner.insert_spec htype hroom child (k := sep)
  rw [← hbody.slots] at hslots
  have hlength := Page.length_slots hformed htype
  have hpos : BTreeInner.lowerBound (s.slotPage i) sep + 1 ≤
      (s.slotPage i).slots.length := by omega
  have hmem : ∀ {c}, c ∈ (s'.slotPage i).slots ↔
      c = child ∨ c ∈ (s.slotPage i).slots := by
    intro c
    rw [hslots, List.mem_insertIdx hpos]
  have hnode : (s'.slotPage i).node s.addressOf = n := by
    rw [hbody.node, BTreeInner.node_insert htype hroom, hn]
    rfl
  have hchildren : ∀ {a}, a ∈ n.children →
      a = s.addressOf child ∨ a ∈ (s.nodeAt i).children := by
    intro a ha
    rw [← hnode, Page.node_children (hbody.formed
      (BTreeInner.formed_insert htype hformed hroom child)),
      List.mem_map] at ha
    obtain ⟨c, hc, rfl⟩ := ha
    rcases hmem.mp hc with rfl | hc
    · exact Or.inl rfl
    · rw [h.cached.children_nodeAt hi]
      exact Or.inr (List.mem_map_of_mem hc)
  have hcached : Cached child.tagged R s'
      (Function.update F (s.addr i) (some n)) := by
    refine h.cached.replace hi (fun j _ hj => hstep.slotPage hj) ?_ hstep.addr
      (hbody.formed (BTreeInner.formed_insert htype hformed hroom child))
      hstep.parentPtr subset_rfl ?_ ?_ (by rw [hnode]) ?_
    · rw [hstep.other (by simp)]
      exact h.cached.super_level
    · intro k q hq
      rcases hmem.mp (List.mem_of_getElem? hq) with rfl | hold
      · obtain ⟨v, hv, rfl, _⟩ := hchild
        exact Or.inr ⟨v, hv, rfl, rfl⟩
      · exact Or.inl (List.getElem?_of_mem hold)
    · intro k j hq _
      exact List.getElem?_of_mem (hmem.mpr (Or.inr (List.mem_of_getElem? hq)))
    · rintro j hj hnot hfree ⟨b, m, x, hm, hx⟩
      by_cases hb : b = s.addr i
      · subst hb
        rw [Function.update_self, Option.some.injEq] at hm
        subst hm
        rcases hchildren (List.mem_of_getElem? hx) with heq | hold
        · cases child with
          | remote a => exact hchild j hj heq
          | swizzled q =>
              obtain ⟨v, hv, rfl, _⟩ := hchild
              obtain rfl := h.cached.distinct hj hv heq
              exact hnot rfl
        · obtain ⟨y, hy⟩ := List.getElem?_of_mem hold
          exact hfree ⟨_, _, y, hshown, hy⟩
      · rw [Function.update_of_ne hb] at hm
        exact hfree ⟨b, m, x, hm, hx⟩
  refine ⟨h.pool.rewrite hi hstep, ?_, ?_, h.mapped.rewrite hstep⟩
  · have hparents : ∀ j, (s'.slotPage j).parentPtr =
        (s.slotPage j).parentPtr := by
      intro j
      by_cases hji : j = i
      · exact hji ▸ hstep.parentPtr
      · rw [hstep.slotPage hji]
    -- the new child is tagged by its parent now, and only there
    have hown : ∀ {j}, j ∈ child.tagged →
        (s.slotPage j).parentPtr = some (.slot i) ∧
          ∃ k, (s'.slotPage i).Tags k (.slot j) := by
      rintro j rfl
      obtain ⟨v, _, hv, hparent⟩ := hchild
      obtain rfl : j = v := by simpa using hv
      exact ⟨hparent, List.getElem?_of_mem (hmem.mpr (Or.inl rfl))⟩
    refine hcached.tighten ?_ ?_
    · intro i' k j hi' hj hl _ htag
      obtain ⟨hparent, k', htag'⟩ := hown hl
      obtain ⟨rfl, _⟩ := hcached.tagged_unique hlinked hi' hi htag htag'
      rw [hparents, hparent]
    · intro j hj hl _
      obtain ⟨hparent, htag⟩ := hown hl
      exact Or.inr ⟨i, hi, by rw [hparents, hparent], htag⟩
  · exact h.backed.rewrite hi hshown hstep hdirty hbackend (by rw [hn]; simp)
      hlinked hordered

/-! ## Turning parent pointers -/

/-- The pages behind the words of slot `v` point at it, and nothing else that
is resident changes. -/
structure Adopting (v : ℕ) (s s' : State) : Prop where
  page : ∀ j, s'.slotPage j =
    if ChildSlot.swizzled (.slot j) ∈ (s.slotPage v).slots then
      { s.slotPage j with parentPtr := some (.slot v) }
    else s.slotPage j
  super : (s'.page .superRoot).level = (s.page .superRoot).level
  allocator : s'.allocator = s.allocator
  dynamic : s'.dynamic = s.dynamic
  hashTable : s'.hashTable = s.hashTable
  localPageSet : s'.localPageSet = s.localPageSet
  pageTable : s'.pageTable = s.pageTable
  backend : s'.backend = s.backend

namespace Adopting

variable {v : ℕ}

theorem sameBody (h : Adopting v s s') (j : ℕ) :
    SameBody (s.slotPage j) (s'.slotPage j) := by
  rw [h.page]
  split <;> rfl

theorem posState (h : Adopting v s s') (j : ℕ) :
    (s'.slotPage j).posState = (s.slotPage j).posState := by
  rw [h.page]
  split <;> rfl

theorem dirty (h : Adopting v s s') (j : ℕ) :
    (s'.slotPage j).dirty = (s.slotPage j).dirty := by
  rw [h.page]
  split <;> rfl

end Adopting

/-- After a page has taken its children over they are no longer loose. -/
theorem Coherent.turn (h : Coherent tidy adrift loose ∅ ∅ R s F) {v : ℕ}
    (hv : v ∈ R) (hstep : Adopting v s s')
    (htags : ∀ {k j}, (s.slotPage v).Tags k (.slot j) → j ∈ loose)
    (hsub : ∀ {j}, j ∈ loose → j ∉ loose' →
      ∃ k, (s.slotPage v).Tags k (.slot j)) :
    Coherent tidy adrift loose' ∅ ∅ R s' F := by
  have hcached : Cached loose R s' F := by
    refine h.cached.touch (fun j _ => hstep.sameBody j) ?_ ?_
    · intro j _ hnot
      rw [hstep.page, if_neg]
      intro hmem
      obtain ⟨k, hk⟩ := List.getElem?_of_mem hmem
      exact hnot (htags hk)
    · rw [hstep.super]
      exact h.cached.super_level
  have hown : ∀ {j}, j ∈ loose → j ∉ loose' →
      (s'.slotPage j).parentPtr = some (.slot v) ∧
        ∃ k, (s'.slotPage v).Tags k (.slot j) := by
    intro j hl hnot
    obtain ⟨k, hk⟩ := hsub hl hnot
    constructor
    · rw [hstep.page, if_pos (List.mem_of_getElem? hk)]
    · refine ⟨k, ?_⟩
      rw [Page.Tags, (hstep.sameBody v).slots]
      exact hk
  refine ⟨h.pool.congr hstep.allocator hstep.dynamic hstep.hashTable
    hstep.localPageSet hstep.posState, hcached.tighten ?_ ?_, ?_, ?_⟩
  · intro i k j hi _ hl hnot htag
    obtain ⟨hparent, k', htag'⟩ := hown hl hnot
    obtain ⟨rfl, _⟩ := hcached.tagged_unique h.backed.linked hi hv htag htag'
    exact hparent
  · intro j _ hl hnot
    obtain ⟨hparent, htag⟩ := hown hl hnot
    exact Or.inr ⟨v, hv, hparent, htag⟩
  · exact h.backed.congr hstep.backend (by rw [hstep.allocator])
      (fun j _ => ⟨(hstep.sameBody j).remoteAddress, hstep.dirty j⟩)
      fun j hd => (hstep.dirty j).symm.trans hd
  · exact h.mapped.congr (by rw [hstep.allocator]) hstep.pageTable
      (fun j => (hstep.sameBody j).remoteAddress)
      fun j hl => (hstep.posState j).symm.trans hl

/-- A page below `super_root_` that is nobody's child is not loose. -/
theorem Coherent.anchor {v : ℕ}
    (h : Coherent tidy adrift {v} ∅ ∅ R s F)
    (hparent : (s.slotPage v).parentPtr = some .superRoot)
    (hfree : ¬ F.IsChild (s.addr v)) :
    Coherent tidy adrift ∅ ∅ ∅ R s F := by
  refine ⟨h.pool, h.cached.tighten ?_ ?_, h.backed, h.mapped⟩
  · rintro i k j hi _ rfl _ htag
    exact absurd (h.cached.isChild_of_tagged hi htag) hfree
  · rintro j _ rfl _
    exact Or.inl ⟨hparent, hfree⟩

end States

end CachingDex
