import CachingDex.PageSteps

/-!
# Loading a child

Loading copies a backend image into the slot obtained and swizzles the word
of the parent, which stays pinned while a slot is sought.  On paper these are
two moves: the page is placed, as a loose page that shows its node, and the
parent's word becomes a tagged pointer to it.
-/

namespace CachingDex

open Lib Lib.Traced

namespace Page

variable {p : Page} {k : ℕ} {q : PagePtr} {a : GlobalAddress}

/-- The page with word `k` turned into a tagged pointer. -/
def swizzle (p : Page) (k : ℕ) (q : PagePtr) : Page :=
  BTreeInner.setBitmap (p.setChild k (.swizzled q)) k

theorem slots_swizzle (p : Page) (k : ℕ) (q : PagePtr) :
    (p.swizzle k q).slots = p.slots.set k (.swizzled q) :=
  slots_setChild (p := p) k (.swizzled q)

theorem tags_swizzle_self (h : p.slots[k]? = some (.remote a)) :
    (p.swizzle k q).Tags k q := by
  rw [Tags, slots_swizzle, List.getElem?_set, if_pos rfl]
  simp [(List.getElem?_eq_some_iff.mp h).1]

theorem Tags.of_swizzle {k' : ℕ} {q' : PagePtr}
    (h : (p.swizzle k q).Tags k' q') : q' = q ∨ p.Tags k' q' := by
  rw [Tags, slots_swizzle, List.getElem?_set] at h
  split_ifs at h with hk
  · left
    simpa using h.symm
  · exact Or.inr h

theorem Tags.swizzle {k' : ℕ} {q' : PagePtr} (h : p.Tags k' q')
    (hk : p.slots[k]? = some (.remote a)) : (p.swizzle k q).Tags k' q' := by
  have hne : k ≠ k' := by
    rintro rfl
    have := h.symm.trans hk
    simp at this
  rw [Tags, slots_swizzle, List.getElem?_set_ne hne]
  exact h

theorem Formed.swizzle (h : p.Formed) (hk : p.slots[k]? = some (.remote a))
    (q : PagePtr) : (p.swizzle k q).Formed where
  typed := h.typed
  count_le := h.count_le
  leaf_level := h.leaf_level
  aligned := by
    intro i
    have hlt : k < 64 := by
      have := (le_count_of_slot hk).2.1
      have := h.count_le
      omega
    have hin : k < p.slots.length := (List.getElem?_eq_some_iff.mp hk).1
    rw [slots_swizzle, List.getElem?_set, Page.swizzle,
      BTreeInner.getLsbD_setBitmap hlt]
    change (p.bitmap.getLsbD i || _) = true ↔ _
    by_cases hi : k = i
    · subst hi
      simp [hin]
    · simp [hi, Ne.symm hi, h.aligned]

/-- A tagged pointer to a page stands for the address of that page. -/
theorem node_swizzle {w : ChildSlot → GlobalAddress}
    (hk : p.slots[k]? = some (.remote a)) (ha : w (.remote a) = a)
    (hq : w (.swizzled q) = a) :
    (p.swizzle k q).node w = p.node w := by
  obtain ⟨htype, _, _⟩ := le_count_of_slot hk
  have htype' : (p.swizzle k q).type = .btreeInner := htype
  have hword : (p.slots.map w)[k]? = some a := by
    rw [List.getElem?_map, hk, Option.map_some, ha]
  obtain ⟨hlt, hget⟩ := List.getElem?_eq_some_iff.mp hword
  rw [node_of_inner htype', node_of_inner htype, slots_swizzle, List.map_set,
    hq]
  conv_lhs => rw [← hget, List.set_getElem_self]
  rfl

end Page

/-- A page that can be placed for the node `n` at `a`: its address is `a`, no
word is tagged, and it shows `n`. -/
structure Shows (p : Page) (a : GlobalAddress) (n : TreeNode) : Prop where
  address : p.remoteAddress = a
  formed : p.Formed
  untagged : ∀ {c}, c ∈ p.slots → c.isSwizzled = false
  shows : p.node ChildSlot.home = n

theorem Image.page {b : InMemoryBackend} {a : GlobalAddress} {n : TreeNode}
    (h : Image b a n) : Shows (b.store a.offset) a n :=
  ⟨h.address, h.formed, h.untagged, h.shows⟩

namespace Shows

variable {p : Page} {a : GlobalAddress} {n : TreeNode}

theorem not_tags (h : Shows p a n) {k : ℕ} {q : PagePtr} : ¬ p.Tags k q := by
  intro hq
  have := h.untagged (List.mem_of_getElem? hq)
  simp [ChildSlot.isSwizzled] at this

/-- Without tagged words it does not matter how they resolve. -/
theorem node_eq (h : Shows p a n) (s : State) : p.node s.addressOf = n := by
  rw [← h.shows]
  apply Page.node_congr
  intro c hc
  cases c with
  | remote a => rfl
  | swizzled q => simpa [ChildSlot.isSwizzled] using h.untagged hc

end Shows

section States

variable {tidy : Prop} {adrift : GlobalAddress → Prop} {loose R : Set ℕ}
  {s s' : State} {F : TreeForest} {v : ℕ}

/-- A node that is a child by a word that is not tagged is not resident,
unless it is loose. -/
theorem Cached.not_resident (h : Cached loose R s F) (hF : F.Linked adrift)
    {i k : ℕ} {a : GlobalAddress} (hi : i ∈ R)
    (hk : (s.slotPage i).slots[k]? = some (.remote a)) :
    ∀ j ∈ R, j ∉ loose → s.addr j ≠ a := by
  rintro j hj hnot rfl
  have hchild : (s.nodeAt i).children[k]? = some (s.addr j) :=
    h.child_of_slot hi hk
  rcases h.parented hj hnot with ⟨_, hfree⟩ | ⟨i', hi', _, k', hk'⟩
  · exact hfree ⟨_, _, _, h.shown hi, hchild⟩
  · have hchild' : (s.nodeAt i').children[k']? = some (s.addr j) :=
      h.child_of_slot hi' hk'
    obtain ⟨haddr, rfl⟩ := hF.unique (h.shown hi) (h.shown hi') hchild hchild'
    obtain rfl := h.distinct hi hi' haddr
    have := hk.symm.trans hk'
    simp at this

/-- What placing a page in slot `v` changes. -/
structure Placing (v : ℕ) (s s' : State) : Prop where
  other : ∀ {p}, p ≠ .slot v → s'.page p = s.page p
  inUse : (s'.slotPage v).InUse
  allocator : s'.allocator = s.allocator
  dynamic : s'.dynamic = s.dynamic
  hashTable : s'.hashTable = s.hashTable
  localPageSet : s'.localPageSet = s.localPageSet
  pageTable : s'.pageTable = (s.pageTable.upsert (s'.addr v) (.slot v)).1
  backend : s'.backend = s.backend

theorem Placing.slotPage (h : Placing v s s') {i : ℕ} (hi : i ≠ v) :
    s'.slotPage i = s.slotPage i :=
  h.other (by simpa using hi)

theorem Pool.placing {H : Set ℕ} (h : Pool H R s) (hv : v ∈ H)
    (hstep : Placing v s s') : Pool (H \ {v}) (insert v R) s' := by
  refine (h.place hv hstep.inUse).congr hstep.allocator hstep.dynamic
    hstep.hashTable hstep.localPageSet fun i => ?_
  by_cases hi : i = v
  · subst hi
    rw [State.slotPage, State.slotPage, State.setPage_self]
  · rw [hstep.slotPage hi, State.slotPage, State.slotPage,
      State.setPage_of_ne (by simpa using hi)]

theorem Mapped.placing (h : Mapped {v} R s)
    (hv : v < s.allocator.headIdx) (hvR : v ∉ R) (hstep : Placing v s s')
    (hfresh : ∀ j ∈ R, s.addr j ≠ s'.addr v) :
    Mapped ∅ (insert v R) s' := by
  refine h.place hv hvR (by rw [hstep.allocator]) hstep.pageTable ?_ ?_ ?_
    hfresh
  · intro i hi
    rw [State.addr, hstep.slotPage hi]
  · intro i hi hl
    rwa [hstep.slotPage hi] at hl
  · intro hl
    have := hstep.inUse
    simp [Page.InUse, hl] at this

/-- Placing a page in use changes nothing about the backend. -/
theorem Backed.placing (h : Backed tidy adrift R s F) (hvR : v ∉ R)
    (hstep : Placing v s s') : Backed tidy adrift (insert v R) s' F where
  linked := h.linked
  level_lt := h.level_lt
  ordered := h.ordered
  capacity_le := hstep.backend ▸ h.capacity_le
  placed := by
    rw [hstep.backend]
    exact h.placed
  image := by
    intro a n hn hclean
    rw [hstep.backend]
    refine h.image hn fun i hi ha => ?_
    by_cases hiv : i = v
    · exact absurd (hiv ▸ hi) hvR
    · rw [← hstep.slotPage hiv]
      refine hclean i (Or.inr hi) ?_
      rwa [State.addr, hstep.slotPage hiv]
  clean := by
    intro ht i hi hd
    by_cases hiv : i = v
    · exact Or.inl hiv
    · rw [hstep.slotPage hiv] at hd
      rw [hstep.allocator] at hi
      exact Or.inr (h.clean ht hi hd)

/-- A backend image is placed as a loose page. -/
theorem Coherent.placeImage (h : Coherent tidy adrift loose {v} {v} R s F)
    (hvR : v ∉ R) (hstep : Placing v s s') {a : GlobalAddress}
    {n : TreeNode} {buf : Page} (hbuf : Shows buf a n)
    (hbody : SameBody buf (s'.slotPage v)) (hn : F a = some n)
    (hfresh : ∀ j ∈ R, s.addr j ≠ a) :
    Coherent tidy adrift (insert v loose) ∅ ∅ (insert v R) s' F := by
  have haddr : s'.addr v = a := hbody.remoteAddress.trans hbuf.address
  have hother : ∀ j ∈ R, s'.slotPage j = s.slotPage j := fun j hj =>
    hstep.slotPage fun heq => hvR (heq ▸ hj)
  have hpool := h.pool.placing rfl hstep
  rw [sdiff_self] at hpool
  refine ⟨hpool, ?_, h.backed.placing hvR hstep,
    h.mapped.placing (h.pool.hand_lt rfl) hvR hstep (by rwa [haddr])⟩
  refine h.cached.place hvR hother ?_ (hbody.formed hbuf.formed)
    (by rwa [haddr]) (Set.subset_insert v loose) (Set.mem_insert v loose) ?_
    (fun _ _ => rfl) ?_ fun _ _ _ hfree => hfree
  · rw [hstep.other (by simp)]
    exact h.cached.super_level
  · intro k q hq
    rw [Page.Tags, hbody.slots] at hq
    exact absurd hq hbuf.not_tags
  · rw [haddr, hbody.node, hbuf.node_eq s]
    exact hn

/-- What swizzling word `k` of slot `i` changes. -/
structure Swizzling (i k v : ℕ) (s s' : State) : Prop where
  body : SameBody ((s.slotPage i).swizzle k (.slot v)) (s'.slotPage i)
  parentPtr : (s'.slotPage i).parentPtr = (s.slotPage i).parentPtr
  dirty : (s'.slotPage i).dirty = (s.slotPage i).dirty
  inUse : (s'.slotPage i).InUse
  other : ∀ {p}, p ≠ .slot i → s'.page p = s.page p
  allocator : s'.allocator = s.allocator
  dynamic : s'.dynamic = s.dynamic
  hashTable : s'.hashTable = s.hashTable
  localPageSet : s'.localPageSet = s.localPageSet
  pageTable : s'.pageTable = s.pageTable
  backend : s'.backend = s.backend

/-- The parent of a loose page finds it under its word. -/
theorem Coherent.swizzle
    (h : Coherent tidy adrift (insert v loose) ∅ ∅ R s F) {i k : ℕ}
    (hi : i ∈ R) (hv : v ∈ R) (hne : i ≠ v)
    (hk : (s.slotPage i).slots[k]? = some (.remote (s.addr v)))
    (hparent : (s.slotPage v).parentPtr = some (.slot i))
    (hstep : Swizzling i k v s s') :
    Coherent tidy adrift loose ∅ ∅ R s' F := by
  have hother : ∀ {j}, j ≠ i → s'.slotPage j = s.slotPage j := fun hj =>
    hstep.other (by simpa using hj)
  have haddr : ∀ j, s'.addr j = s.addr j := by
    intro j
    by_cases hji : j = i
    · subst hji
      exact hstep.body.remoteAddress
    · rw [State.addr, hother hji]
  have hnode : (s'.slotPage i).node s.addressOf = s.nodeAt i :=
    (hstep.body.node _).trans (Page.node_swizzle hk rfl rfl)
  have htags : ∀ {k' q}, (s'.slotPage i).Tags k' q ↔
      ((s.slotPage i).swizzle k (.slot v)).Tags k' q := by
    intro k' q
    rw [Page.Tags, hstep.body.slots]
  have hcached : Cached (insert v loose) R s' F := by
    refine h.cached.replace hi (fun j _ hj => hother hj) ?_ (haddr i)
      (hstep.body.formed ((h.cached.formed hi).swizzle hk _))
      hstep.parentPtr subset_rfl ?_ ?_ ?_ fun _ _ _ hfree => hfree
    · rw [hstep.other (by simp)]
      exact h.cached.super_level
    · intro k' q hq
      rcases (htags.mp hq).of_swizzle with rfl | hq
      · exact Or.inr ⟨v, hv, rfl, Set.mem_insert v loose⟩
      · exact Or.inl ⟨k', hq⟩
    · intro k' j hq _
      exact ⟨k', htags.mpr (hq.swizzle hk)⟩
    · rw [hnode, ← h.cached.shown hi, Function.update_eq_self]
  have hparents : ∀ j, (s'.slotPage j).parentPtr =
      (s.slotPage j).parentPtr := by
    intro j
    by_cases hji : j = i
    · subst hji
      exact hstep.parentPtr
    · rw [hother hji]
  have htag : (s'.slotPage i).Tags k (.slot v) :=
    htags.mpr (Page.tags_swizzle_self hk)
  constructor
  · refine h.pool.congr_inUse hstep.allocator hstep.dynamic hstep.hashTable
      hstep.localPageSet ?_ ?_
    · intro j hj
      rw [hother (by rintro rfl; exact hj hi)]
    · intro j hj
      by_cases hji : j = i
      · subst hji
        exact hstep.inUse
      · rw [hother hji]
        exact (h.pool.resident_iff.mp hj).2.2
  · refine hcached.tighten ?_ ?_
    · intro i' k' j hi' _ hl hnot htag'
      obtain rfl : j = v := by
        rcases hl with hl | hl
        · exact hl
        · exact absurd hl hnot
      obtain ⟨rfl, _⟩ :=
        hcached.tagged_unique h.backed.linked hi' hi htag' htag
      rw [hparents, hparent]
    · intro j _ hl hnot
      obtain rfl : j = v := by
        rcases hl with hl | hl
        · exact hl
        · exact absurd hl hnot
      exact Or.inr ⟨i, hi, by rw [hparents, hparent], k, htag⟩
  · refine h.backed.congr hstep.backend (by rw [hstep.allocator]) ?_ ?_
    · intro j _
      refine ⟨haddr j, ?_⟩
      by_cases hji : j = i
      · subst hji
        exact hstep.dirty
      · rw [hother hji]
    · intro j hd
      by_cases hji : j = i
      · subst hji
        exact hstep.dirty.symm.trans hd
      · rwa [hother hji] at hd
  · refine h.mapped.congr (by rw [hstep.allocator]) hstep.pageTable haddr ?_
    intro j hl
    by_cases hji : j = i
    · subst hji
      have := hstep.inUse
      simp [Page.InUse, hl] at this
    · rwa [hother hji] at hl

end States

/-! ## Programs -/

/-- A state between two steps of an operation: nothing is in the hand and no
split is open. -/
abbrev Settled (tidy : Prop) (R : Set ℕ) (s : State) (F : TreeForest) :
    Prop :=
  Coherent tidy (fun _ => False) ∅ ∅ ∅ R s F

/-- Between two steps every resident page is hot. -/
structure Ready (tidy : Prop) (R : Set ℕ) (s : State) (F : TreeForest) :
    Prop where
  settled : Settled tidy R s F
  hot : ∀ i ∈ R, (s.slotPage i).posState = .hot
  pages : 0 < s.allocator.pageNum

/-- The tree object, `super_root_` and the anchored pages are as before. -/
structure Retains (R R' : Set ℕ) (s s' : State) : Prop where
  steady : Steady s s'
  super : s'.page .superRoot = s.page .superRoot
  kept : ∀ {i}, i ∈ R → Anchored ∅ s i →
    i ∈ R' ∧ SameHeader (s.slotPage i) (s'.slotPage i)

namespace Retains

variable {R R' R'' : Set ℕ} {s t u : State}

theorem refl (R : Set ℕ) (s : State) : Retains R R s s :=
  ⟨.refl s, rfl, fun hi _ => ⟨hi, .refl _⟩⟩

theorem trans (h : Retains R R' s t) (h' : Retains R' R'' t u) :
    Retains R R'' s u where
  steady := h.steady.trans h'.steady
  super := h'.super.trans h.super
  kept := by
    intro i hi ha
    obtain ⟨hi', hheader⟩ := h.kept hi ha
    have ha' : Anchored ∅ t i := by
      rw [SameHeader] at hheader
      rw [Anchored, hheader]
      exact ha
    obtain ⟨hi'', hheader'⟩ := h'.kept hi' ha'
    exact ⟨hi'', hheader.trans hheader'⟩

end Retains

section Programs

variable {tidy : Prop} {R : Set ℕ} {s : State} {F : TreeForest}
  {C : Contract State Halt Event}

/-- The upsert of a page under its own address passes its assertion. -/
theorem upsertPageTable_meets {B : Set PagePtr} (hC : Tolerates tidy B C)
    {key : GlobalAddress} {value : PagePtr}
    (hkey : (s.page value).remoteAddress = key) {Q : Unit → State → Prop}
    (hQ : Q () { s with
      pageTable := (s.pageTable.upsert key value).1 }) :
    Meets C (upsertPageTable key value) s Q := by
  unfold upsertPageTable
  apply Meets.bind
  apply meets_gets
  apply Meets.bind
  apply meets_emit_of (hC.indexed _)
  apply Meets.bind
  apply meets_gets
  apply Meets.bind
  apply meets_gets
  apply Meets.bind
  apply meets_onlyIf
  · intro _
    exact meets_check (by simp [hkey]) (meets_modify hQ)
  · intro _
    exact meets_modify hQ

/-- Reading a placed address yields the page stored there. -/
theorem rawRemoteRead_meets {a : GlobalAddress}
    (ha : s.backend.inRange a = true) {Q : Page → State → Prop}
    (hQ : Q (s.backend.store a.offset)
      { s with scratch := s.backend.store a.offset }) :
    Meets C (rawRemoteRead a) s Q := by
  have hread : s.backend.read a = some (s.backend.store a.offset) := by
    rw [InMemoryBackend.read, if_pos ha]
  unfold rawRemoteRead
  apply Meets.bind
  apply meets_modify
  rw [hread]
  exact meets_gets hQ

/-- A child is in memory: in slot `v`, under its address, while the page in
slot `i` has kept its header. -/
structure Loaded (tidy : Prop) (F : TreeForest) (R : Set ℕ) (i : ℕ)
    (a : GlobalAddress) (s s' : State) (R' : Set ℕ) (v : ℕ) : Prop where
  resident : v ∈ R'
  addr : s'.addr v = a
  parent : i ∈ R'
  header : SameHeader (s.slotPage i) (s'.slotPage i)
  retains : Retains R R' s s'
  ready : Ready tidy R' s' F

/-- The state after a parent was pinned and the child's image read. -/
theorem Coherent.pin (h : Settled tidy R s F) {i : ℕ} (hi : i ∈ R)
    {x : PosState} (hx : x = .hot ∨ x = .pin) :
    Settled tidy R
      (s.setPage (.slot i) { s.slotPage i with posState := x }) F := by
  have hself : (s.setPage (.slot i)
      { s.slotPage i with posState := x }).slotPage i =
        { s.slotPage i with posState := x } := State.setPage_self ..
  have hother : ∀ {j}, j ≠ i → (s.setPage (.slot i)
      { s.slotPage i with posState := x }).slotPage j = s.slotPage j :=
    fun hj => State.setPage_of_ne (by simpa using hj)
  have hbody : ∀ j, SameBody (s.slotPage j) ((s.setPage (.slot i)
      { s.slotPage i with posState := x }).slotPage j) := by
    intro j
    by_cases hj : j = i
    · subst hj
      rw [hself]
      rfl
    · rw [hother hj]
      exact .refl _
  have hdirty : ∀ j, ((s.setPage (.slot i)
      { s.slotPage i with posState := x }).slotPage j).dirty =
        (s.slotPage j).dirty := by
    intro j
    by_cases hj : j = i
    · subst hj
      rw [hself]
    · rw [hother hj]
  constructor
  · refine h.pool.congr_inUse rfl rfl rfl rfl ?_ ?_
    · intro j hj
      rw [hother (by rintro rfl; exact hj hi)]
    · intro j hj
      by_cases hji : j = i
      · subst hji
        rw [hself]
        exact hx
      · rw [hother hji]
        exact (h.pool.resident_iff.mp hj).2.2
  · refine h.cached.touch (fun j _ => hbody j) ?_ ?_
    · intro j _ _
      by_cases hji : j = i
      · subst hji
        rw [hself]
      · rw [hother hji]
    · rw [State.setPage_of_ne (by simp)]
      exact h.cached.super_level
  · exact h.backed.congr rfl rfl
      (fun j _ => ⟨(hbody j).remoteAddress, hdirty j⟩)
      fun j hd => (hdirty j).symm.trans hd
  · refine h.mapped.congr rfl rfl (fun j => (hbody j).remoteAddress) ?_
    intro j hl
    by_cases hji : j = i
    · subst hji
      rw [hself] at hl
      rcases hx with rfl | rfl <;> cases hl
    · rwa [hother hji] at hl

/-- The part of loading between two page states: the slot is found, the
image copied, and the word of the pinned parent overwritten. -/
theorem cacheInsert_childOf_meets (hC : Tolerates tidy ∅ C)
    (h : Settled tidy R s F) (hpos : 0 < s.allocator.pageNum) {i k : ℕ}
    (hi : i ∈ R) (hpin : (s.slotPage i).posState = .pin)
    {a : GlobalAddress} (hk : (s.slotPage i).slots[k]? = some (.remote a))
    {buf : Page} (hbuf : buf.remoteAddress = a) :
    Meets C (cacheInsert (.childOf (.slot i) k) buf (.slot i)) s fun q s' =>
      ∃ R' v t, q = .slot v ∧ v ∉ R' ∧ i ∈ R' ∧ Keeps ∅ R R' s t ∧
        Coherent tidy (fun _ => False) ∅ {v} {v} R' t F ∧
        s' = { (t.setPage (.slot v)
            { buf with posState := .pin, parentPtr := some (.slot i) }).setPage
              (.slot i) ((t.slotPage i).setChild k (.swizzled (.slot v))) with
          pageTable := (t.pageTable.upsert a (.slot v)).1 } := by
  unfold cacheInsert
  apply Meets.bind
  refine (getEmptyPage_meets hC h (.none R s F) hpos).mono ?_
  rintro q t ⟨R', v, rfl, hvR, hkeeps, hcoh, _⟩
  have hi' : i ∈ R' := hkeeps.kept hi (Or.inl hpin)
  have hne : i ≠ v := fun heq => hvR (heq ▸ hi')
  have hword : (t.slotPage i).child k = .remote a :=
    (Page.le_count_of_slot (hkeeps.remote hi' hk)).2.2
  apply Meets.bind
  apply meets_modify
  apply Meets.bind
  apply meets_gets
  apply Meets.bind
  apply meets_modify
  rw [State.setPage_of_ne (by simpa using hne)]
  dsimp only
  rw [hword]
  apply Meets.bind
  apply upsertPageTable_meets hC
  · rw [State.setPage_of_ne (by simpa using hne.symm), State.setPage_self]
    exact hbuf
  · exact meets_pure ⟨R', v, t, rfl, hvR, hi', hkeeps, hcoh, rfl⟩

/-- The state a load ends in, from the one in which the slot was found. -/
theorem loaded_of_steps {R' : Set ℕ} {t u w : State} {i k v : ℕ}
    {a : GlobalAddress} {n : TreeNode} {buf : Page}
    (h : Ready tidy R s F) (hsteady : Steady s u)
    (hself : u.slotPage i = { s.slotPage i with posState := .pin })
    (hother : ∀ {p}, p ≠ .slot i → u.page p = s.page p) (hi : i ∈ R)
    (hkeeps : Keeps ∅ R R' u t)
    (hcoh : Coherent tidy (fun _ => False) ∅ {v} {v} R' t F) (hvR : v ∉ R')
    (hi' : i ∈ R') (hbuf : Shows buf a n) (hn : F a = some n)
    (hword : (t.slotPage i).slots[k]? = some (.remote a))
    (hwi : w.slotPage i =
      { (t.slotPage i).swizzle k (.slot v) with posState := .hot })
    (hwv : w.slotPage v =
      { buf with posState := .hot, parentPtr := some (.slot i) })
    (hwo : ∀ {p}, p ≠ .slot i → p ≠ .slot v → w.page p = t.page p)
    (hrest : w.allocator = t.allocator ∧ w.dynamic = t.dynamic ∧
      w.hashTable = t.hashTable ∧ w.localPageSet = t.localPageSet ∧
      w.pageTable = (t.pageTable.upsert a (.slot v)).1 ∧
      w.backend = t.backend ∧ Steady t w) :
    Loaded tidy F R i a s w (insert v R') v := by
  obtain ⟨halloc, hdyn, htable, hlocal, hptable, hback, hsteady'⟩ := hrest
  have hne : i ≠ v := fun heq => hvR (heq ▸ hi')
  have hslot : PagePtr.slot i ≠ .slot v := by simpa using hne
  -- on paper: the page is placed, then the parent's word is swizzled
  let g : State :=
    { t with
      page := Function.update t.page (.slot v) (w.slotPage v)
      pageTable := (t.pageTable.upsert a (.slot v)).1 }
  have hgv : g.slotPage v = w.slotPage v := Function.update_self ..
  have hgo : ∀ {p}, p ≠ .slot v → g.page p = t.page p := fun hp =>
    Function.update_of_ne hp ..
  have haddr : w.addr v = a := by
    rw [State.addr, hwv]
    exact hbuf.address
  have hplacing : Placing v t g := by
    refine ⟨hgo, ?_, rfl, rfl, rfl, rfl, ?_, rfl⟩
    · rw [hgv, hwv]
      exact Or.inl rfl
    · rw [State.addr, hgv]
      change _ = (t.pageTable.upsert (w.addr v) _).1
      rw [haddr]
  have hplaced := hcoh.placeImage hvR hplacing hbuf
    (by rw [hgv, hwv]; rfl) hn fun j hj =>
      hcoh.cached.not_resident hcoh.backed.linked hi' hword j hj
        (Set.notMem_empty j)
  have hgi : g.slotPage i = t.slotPage i := hgo hslot
  have hswizzling : Swizzling i k v g w := by
    constructor
    · rw [hwi, hgi]
      rfl
    · rw [hwi, hgi]
      rfl
    · rw [hwi, hgi]
      rfl
    · rw [hwi]
      exact Or.inl rfl
    · intro p hp
      by_cases hpv : p = .slot v
      · subst hpv
        exact hgv.symm
      · rw [hwo hp hpv, hgo hpv]
    · exact halloc
    · exact hdyn
    · exact htable
    · exact hlocal
    · exact hptable
    · exact hback
  have hdone : Settled tidy (insert v R') w F := by
    refine hplaced.swizzle (Or.inr hi') (Or.inl rfl) hne ?_ ?_ hswizzling
    · rw [hgi, hword, State.addr, hgv, ← haddr]
    · rw [hgv, hwv]
  have hheader : SameHeader (s.slotPage i) (w.slotPage i) := by
    have := hkeeps.header hi'
    rw [SameHeader, hself] at this
    rw [SameHeader, hwi, this, ← h.hot i hi]
    rfl
  have hsteadyAll := (hsteady.trans hkeeps.steady).trans hsteady'
  refine ⟨Or.inl rfl, haddr, Or.inr hi', hheader, ?_, hdone, ?_,
    hsteadyAll.pageNum ▸ h.pages⟩
  rotate_left
  · rintro j (rfl | hj)
    · rw [hwv]
    · by_cases hji : j = i
      · subst hji
        rw [hwi]
      · have hjv : j ≠ v := fun heq => hvR (heq ▸ hj)
        have hw : w.slotPage j = t.slotPage j :=
          hwo (by simpa using hji) (by simpa using hjv)
        have hu : u.slotPage j = s.slotPage j := hother (by simpa using hji)
        rw [hw, hkeeps.header hj, ← h.hot j (hkeeps.sub hj), ← hu]
  refine ⟨hsteadyAll, ?_, ?_⟩
  · rw [hwo (by simp) (by simp), hkeeps.super, hother (by simp)]
  · intro j hj ha
    by_cases hji : j = i
    · subst hji
      exact ⟨Or.inr hi', hheader⟩
    · have hu : u.slotPage j = s.slotPage j := hother (by simpa using hji)
      have ha' : Anchored ∅ u j := by
        rw [Anchored, hu]
        exact ha
      have hj' := hkeeps.kept hj ha'
      have hjv : j ≠ v := fun heq => hvR (heq ▸ hj')
      refine ⟨Or.inr hj', ?_⟩
      have hw : w.slotPage j = t.slotPage j :=
        hwo (by simpa using hji) (by simpa using hjv)
      rw [hw, ← hu]
      exact hkeeps.header hj'

theorem loadFromBackend_meets (hC : Tolerates tidy ∅ C)
    (hready : Ready tidy R s F) {i k : ℕ} (hi : i ∈ R) {a : GlobalAddress}
    (hk : (s.slotPage i).slots[k]? = some (.remote a)) :
    Meets C (loadFromBackend (.slot i) k a) s fun q s' =>
      ∃ R' v, q = .slot v ∧ Loaded tidy F R i a s s' R' v := by
  have h := hready.settled
  have hhot := hready.hot i hi
  have hF := h.backed.linked
  obtain ⟨n, hn, _⟩ : ∃ n, F a = some n ∧ _ :=
    hF.child (h.cached.shown hi) (h.cached.child_of_slot hi hk)
  have himage : Image s.backend a n := by
    refine h.backed.image hn fun j hj ha => ?_
    exact absurd ha (h.cached.not_resident hF hi hk j hj (Set.notMem_empty j))
  have hplaced := h.backed.placed hn
  have hbuf := himage.page
  generalize hbufEq : s.backend.store a.offset = buf at hbuf
  -- the parent is pinned, the image read, the miss counted
  have hpinned := h.pin hi (Or.inr rfl)
  have hpin : decide (PagePtr.slot i ≠ .superRoot) = true := by simp
  unfold loadFromBackend
  rw [hpin]
  apply Meets.bind
  apply meets_gets
  apply Meets.bind
  refine meets_onlyIf (fun _ => meets_modify ?_) (fun hfalse => by cases hfalse)
  apply Meets.bind
  apply rawRemoteRead_meets (s := s.setPage _ _) hplaced.inRange
  apply Meets.bind
  apply meets_modify
  rw [State.setPage_backend, hbufEq]
  generalize hcounted : (if buf.type = .btreeLeaf then _ else _ : State) = u
  have hu : u.page = (s.setPage (.slot i)
      { s.slotPage i with posState := .pin }).page ∧
      u.allocator = s.allocator ∧ u.dynamic = s.dynamic ∧
      u.hashTable = s.hashTable ∧ u.localPageSet = s.localPageSet ∧
      u.pageTable = s.pageTable ∧ u.backend = s.backend ∧ Steady s u := by
    rw [← hcounted]
    split_ifs <;> exact ⟨rfl, rfl, rfl, rfl, rfl, rfl, rfl,
      ⟨rfl, rfl, rfl, rfl, rfl, rfl, rfl, id⟩⟩
  obtain ⟨hpage, halloc, hdyn, htable, hlocal, hptable, hback, hsteady⟩ := hu
  have hcoh := hpinned.congr hpage halloc hdyn htable hlocal hptable hback
  have hself : u.slotPage i = { s.slotPage i with posState := .pin } := by
    rw [State.slotPage, hpage, State.setPage_self]
  have hother : ∀ {p}, p ≠ .slot i → u.page p = s.page p := by
    intro p hp
    rw [hpage, State.setPage_of_ne hp]
  apply Meets.bind
  refine (cacheInsert_childOf_meets hC hcoh (halloc ▸ hready.pages) hi
    (by rw [hself]) (by rw [hself]; exact hk) hbuf.address).mono ?_
  rintro q t' ⟨R', v, t, rfl, hvR, hi', hkeeps, hcoh', rfl⟩
  have hne : i ≠ v := fun heq => hvR (heq ▸ hi')
  have hword : (t.slotPage i).slots[k]? = some (.remote a) :=
    hkeeps.remote hi' (by rw [hself]; exact hk)
  have hlevel : (t.slotPage i).level ≠ 255 := by
    intro heq
    have hlt := hcoh'.backed.level_lt (hcoh'.cached.shown hi')
    rw [hcoh'.cached.level_nodeAt hi', heq] at hlt
    exact absurd hlt (by decide)
  obtain ⟨htype', hkcount, _⟩ := Page.le_count_of_slot hword
  have hcount := (hcoh'.cached.formed hi').count_le
  have hslot : PagePtr.slot i ≠ .slot v := by simpa using hne
  apply Meets.bind
  apply meets_modify
  apply Meets.bind
  apply meets_gets
  apply Meets.bind
  refine meets_onlyIf (fun _ => ?_) fun hfalse => ?_
  · apply Meets.bind
    refine meets_emit fun hrely =>
      ⟨hC.called hrely (NodeCall.safe_setBitmap (by omega)), ?_⟩
    apply meets_modify
    apply Meets.bind
    refine meets_onlyIf (fun _ => meets_modify ?_)
      (fun hfalse => by cases hfalse)
    apply meets_pure
    refine ⟨insert v R', v, rfl, ?_⟩
    generalize hw : State.setPage (State.setPage _ _ _) _ _ = w
    have hwi : w.slotPage i =
        { (t.slotPage i).swizzle k (.slot v) with posState := .hot } := by
      rw [← hw]
      simp [State.slotPage, hslot, hhot, Page.swizzle]
    have hwv : w.slotPage v =
        { buf with posState := .hot, parentPtr := some (.slot i) } := by
      rw [← hw]
      simp [State.slotPage, hslot.symm]
    have hwo : ∀ {p}, p ≠ .slot i → p ≠ .slot v → w.page p = t.page p := by
      intro p hpi hpv
      rw [← hw]
      simp [hpi, hpv]
    have hrest : w.allocator = t.allocator ∧ w.dynamic = t.dynamic ∧
        w.hashTable = t.hashTable ∧ w.localPageSet = t.localPageSet ∧
        w.pageTable = (t.pageTable.upsert a (.slot v)).1 ∧
        w.backend = t.backend ∧ Steady t w := by
      rw [← hw]
      exact ⟨rfl, rfl, rfl, rfl, rfl, rfl,
        ⟨rfl, rfl, rfl, rfl, rfl, rfl, rfl, id⟩⟩
    exact loaded_of_steps hready hsteady hself hother hi hkeeps hcoh' hvR hi'
      hbuf hn hword hwi hwv hwo hrest
  · -- the parent is an inner page of the tree, so its bit is set
    simp only [State.setPage_of_ne hslot, State.setPage_self] at hfalse
    exact absurd ⟨hlevel, htype'⟩ (of_decide_eq_false hfalse)

/-- A child of a resident page is brought into memory. -/
theorem loadChild_meets (hC : Tolerates tidy ∅ C) (h : Ready tidy R s F)
    {i k : ℕ} (hi : i ∈ R) {a : GlobalAddress}
    (hk : (s.nodeAt i).children[k]? = some a) :
    Meets C (loadChild (.slot i) k) s fun q s' =>
      ∃ R' v, q = .slot v ∧ Loaded tidy F R i a s s' R' v := by
  have hcached := h.settled.cached
  rw [hcached.children_nodeAt hi, List.getElem?_map,
    Option.map_eq_some_iff] at hk
  obtain ⟨c, hc, rfl⟩ := hk
  unfold loadChild
  apply Meets.bind
  apply meets_gets
  rw [(Page.le_count_of_slot hc).2.2]
  cases c with
  | swizzled q =>
      obtain ⟨v, hv, rfl, _⟩ := hcached.tagged hi hc
      exact meets_pure ⟨R, v, rfl, hv, rfl, hi, .refl _, .refl R s, h⟩
  | remote a => exact loadFromBackend_meets hC h hi hc

end Programs

end CachingDex
