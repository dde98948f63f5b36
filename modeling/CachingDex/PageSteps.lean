import CachingDex.EmptySlot

/-!
# Changing a page

Between two runs of the sampler an operation changes pages one at a time: it
places a page in the slot it obtained, rewrites a page, or turns parent
pointers and page states.  The lemmas here say what each of these needs so
that the resident pages still show the nodes of a forest, possibly of another
one.  They are stated about the pages before and after, not about a program,
so that moves the source makes in several writes count as one.
-/

namespace CachingDex

open Lib

/-- Everything but the parent pointer, the page state and the dirty flag is
the same. -/
def SameBody (p p' : Page) : Prop :=
  p' = { p with
    parentPtr := p'.parentPtr, posState := p'.posState, dirty := p'.dirty }

namespace SameBody

variable {p p' : Page}

theorem refl (p : Page) : SameBody p p := rfl

theorem slots (h : SameBody p p') : p'.slots = p.slots := by
  rw [SameBody] at h
  rw [h]
  rfl

theorem node (h : SameBody p p') (w : ChildSlot → GlobalAddress) :
    p'.node w = p.node w := by
  rw [SameBody] at h
  rw [h]
  rfl

theorem remoteAddress (h : SameBody p p') :
    p'.remoteAddress = p.remoteAddress := by
  rw [SameBody] at h
  rw [h]

theorem formed (h : SameBody p p') (hp : p.Formed) : p'.Formed := by
  rw [SameBody] at h
  rw [h]
  exact ⟨hp.typed, hp.count_le, hp.leaf_level, hp.aligned⟩

end SameBody

namespace Cached

variable {adrift : GlobalAddress → Prop} {loose loose' R : Set ℕ}
  {s s' : State} {F F' : TreeForest}

/-- The addresses of tagged children resolve as before. -/
theorem resolve_congr (h : Cached loose R s F)
    (haddr : ∀ j ∈ R, s'.addr j = s.addr j) {i : ℕ} (hi : i ∈ R) :
    ∀ c ∈ (s.slotPage i).slots, s'.addressOf c = s.addressOf c := by
  intro c hc
  cases c with
  | remote a => rfl
  | swizzled q =>
      obtain ⟨k, hk⟩ := List.getElem?_of_mem hc
      obtain ⟨j, hj, rfl, _⟩ := h.tagged hi hk
      exact haddr j hj

/-- Page states, dirty flags and the parent pointers of loose pages may
change. -/
theorem touch (h : Cached loose R s F)
    (hbody : ∀ i ∈ R, SameBody (s.slotPage i) (s'.slotPage i))
    (hparent : ∀ i ∈ R, i ∉ loose →
      (s'.slotPage i).parentPtr = (s.slotPage i).parentPtr)
    (hsuper : (s'.page .superRoot).level = 255) : Cached loose R s' F where
  super_level := hsuper
  formed hi := (hbody _ hi).formed (h.formed hi)
  shown := by
    intro i hi
    have haddr : ∀ j ∈ R, s'.addr j = s.addr j := fun j hj =>
      (hbody j hj).remoteAddress
    rw [haddr i hi, State.nodeAt, (hbody i hi).node,
      Page.node_congr (h.resolve_congr haddr hi)]
    exact h.shown hi
  distinct := by
    intro i j hi hj heq
    rw [State.addr, State.addr, (hbody i hi).remoteAddress,
      (hbody j hj).remoteAddress] at heq
    exact h.distinct hi hj heq
  tagged := by
    intro i k q hi hq
    rw [Page.Tags, (hbody i hi).slots] at hq
    obtain ⟨j, hj, rfl, hpar⟩ := h.tagged hi hq
    exact ⟨j, hj, rfl, fun hnot => (hparent j hj hnot).trans (hpar hnot)⟩
  parented := by
    intro i hi hnot
    rw [hparent i hi hnot, State.addr, (hbody i hi).remoteAddress]
    rcases h.parented hi hnot with htop | ⟨j, hj, hpar, k, hk⟩
    · exact Or.inl htop
    · refine Or.inr ⟨j, hj, hpar, k, ?_⟩
      rw [Page.Tags, (hbody j hj).slots]
      exact hk

/-- A page is rewritten under its address.  New tags and tags that went away
belong to loose pages. -/
theorem replace (h : Cached loose R s F) {i : ℕ} (hi : i ∈ R)
    (hother : ∀ j ∈ R, j ≠ i → s'.slotPage j = s.slotPage j)
    (hsuper : (s'.page .superRoot).level = 255)
    (haddr : s'.addr i = s.addr i) (hformed : (s'.slotPage i).Formed)
    (hparent : (s'.slotPage i).parentPtr = (s.slotPage i).parentPtr)
    (hsub : loose ⊆ loose')
    (hnew : ∀ {k q}, (s'.slotPage i).Tags k q →
      (∃ k', (s.slotPage i).Tags k' q) ∨
        ∃ j ∈ R, q = .slot j ∧ j ∈ loose')
    (hlost : ∀ {k j}, (s.slotPage i).Tags k (.slot j) → j ∉ loose' →
      ∃ k', (s'.slotPage i).Tags k' (.slot j))
    (hF : F' = Function.update F (s.addr i)
      (some ((s'.slotPage i).node s.addressOf)))
    (hfree : ∀ j ∈ R, j ∉ loose' → ¬ F.IsChild (s.addr j) →
      ¬ F'.IsChild (s.addr j)) :
    Cached loose' R s' F' := by
  have haddrs : ∀ j ∈ R, s'.addr j = s.addr j := by
    intro j hj
    by_cases hji : j = i
    · exact hji ▸ haddr
    · rw [State.addr, hother j hj hji]
  have hparents : ∀ j ∈ R,
      (s'.slotPage j).parentPtr = (s.slotPage j).parentPtr := by
    intro j hj
    by_cases hji : j = i
    · exact hji ▸ hparent
    · rw [hother j hj hji]
  -- a tag after the step was a tag of the same page, or tags a loose page
  have htags : ∀ {j k q}, j ∈ R → (s'.slotPage j).Tags k q →
      (∃ k', (s.slotPage j).Tags k' q) ∨
        ∃ j' ∈ R, q = .slot j' ∧ j' ∈ loose' := by
    intro j k q hj hq
    by_cases hji : j = i
    · subst hji
      exact hnew hq
    · rw [hother j hj hji] at hq
      exact Or.inl ⟨k, hq⟩
  have hresolve : ∀ j ∈ R, ∀ c ∈ (s'.slotPage j).slots,
      s'.addressOf c = s.addressOf c := by
    intro j hj c hc
    cases c with
    | remote a => rfl
    | swizzled q =>
        obtain ⟨k, hk⟩ := List.getElem?_of_mem hc
        rcases htags hj hk with ⟨k', hk'⟩ | ⟨j', hj', rfl, _⟩
        · obtain ⟨j', hj', rfl, _⟩ := h.tagged hj hk'
          exact haddrs j' hj'
        · exact haddrs j' hj'
  constructor
  · exact hsuper
  · intro j hj
    by_cases hji : j = i
    · exact hji ▸ hformed
    · rw [hother j hj hji]
      exact h.formed hj
  · intro j hj
    rw [haddrs j hj, State.nodeAt, Page.node_congr (hresolve j hj), hF]
    by_cases hji : j = i
    · subst hji
      rw [Function.update_self]
    · have hne : s.addr j ≠ s.addr i := fun heq =>
        hji (h.distinct hj hi heq)
      rw [Function.update_of_ne hne, hother j hj hji]
      exact h.shown hj
  · intro j j' hj hj' heq
    rw [haddrs j hj, haddrs j' hj'] at heq
    exact h.distinct hj hj' heq
  · intro j k q hj hq
    rcases htags hj hq with ⟨k', hk'⟩ | ⟨j', hj', rfl, hl⟩
    · obtain ⟨j', hj', rfl, hpar⟩ := h.tagged hj hk'
      refine ⟨j', hj', rfl, fun hnot => ?_⟩
      rw [hparents j' hj']
      exact hpar fun hl => hnot (hsub hl)
    · exact ⟨j', hj', rfl, fun hnot => absurd hl hnot⟩
  · intro j hj hnot
    rw [hparents j hj, haddrs j hj]
    rcases h.parented hj fun hl => hnot (hsub hl) with
      ⟨htop, hchild⟩ | ⟨j', hj', hpar, k, hk⟩
    · exact Or.inl ⟨htop, hfree j hj hnot hchild⟩
    · refine Or.inr ⟨j', hj', hpar, ?_⟩
      by_cases hji : j' = i
      · subst hji
        exact hlost hk hnot
      · exact ⟨k, by rw [hother j' hj' hji]; exact hk⟩

/-- A page is placed in a slot that was not resident, as a loose page. -/
theorem place (h : Cached loose R s F) {v : ℕ} (hv : v ∉ R)
    (hother : ∀ j ∈ R, s'.slotPage j = s.slotPage j)
    (hsuper : (s'.page .superRoot).level = 255)
    (hformed : (s'.slotPage v).Formed)
    (hfresh : ∀ j ∈ R, s.addr j ≠ s'.addr v) (hsub : loose ⊆ loose')
    (hloose : v ∈ loose')
    (htags : ∀ {k q}, (s'.slotPage v).Tags k q →
      ∃ j ∈ R, q = .slot j ∧ j ∈ loose')
    (hF : ∀ j ∈ R, F' (s.addr j) = F (s.addr j))
    (hnode : F' (s'.addr v) = some ((s'.slotPage v).node s.addressOf))
    (hfree : ∀ j ∈ R, j ∉ loose' → ¬ F.IsChild (s.addr j) →
      ¬ F'.IsChild (s.addr j)) :
    Cached loose' (insert v R) s' F' := by
  have haddrs : ∀ j ∈ R, s'.addr j = s.addr j := fun j hj => by
    rw [State.addr, hother j hj]
  have hne : ∀ j ∈ R, j ≠ v := fun j hj heq => hv (heq ▸ hj)
  constructor
  · exact hsuper
  · rintro j (rfl | hj)
    · exact hformed
    · rw [hother j hj]
      exact h.formed hj
  · rintro j (rfl | hj)
    · rw [State.nodeAt, hnode, Page.node_congr]
      intro c hc
      cases c with
      | remote a => rfl
      | swizzled q =>
          obtain ⟨k, hk⟩ := List.getElem?_of_mem hc
          obtain ⟨j', hj', rfl, _⟩ := htags hk
          exact (haddrs j' hj').symm
    · rw [haddrs j hj, hF j hj,
        h.nodeAt_congr hj (hother j hj) haddrs]
      exact h.shown hj
  · rintro j j' (rfl | hj) (rfl | hj') heq
    · rfl
    · rw [haddrs j' hj'] at heq
      exact absurd heq.symm (hfresh j' hj')
    · rw [haddrs j hj] at heq
      exact absurd heq (hfresh j hj)
    · rw [haddrs j hj, haddrs j' hj'] at heq
      exact h.distinct hj hj' heq
  · rintro j k q (rfl | hj) hq
    · obtain ⟨j', hj', rfl, hl⟩ := htags hq
      exact ⟨j', Or.inr hj', rfl, fun hnot => absurd hl hnot⟩
    · rw [hother j hj] at hq
      obtain ⟨j', hj', rfl, hpar⟩ := h.tagged hj hq
      refine ⟨j', Or.inr hj', rfl, fun hnot => ?_⟩
      rw [hother j' hj']
      exact hpar fun hl => hnot (hsub hl)
  · rintro j (rfl | hj) hnot
    · exact absurd hloose hnot
    · rw [haddrs j hj, hother j hj]
      rcases h.parented hj fun hl => hnot (hsub hl) with
        ⟨htop, hchild⟩ | ⟨j', hj', hpar, k, hk⟩
      · exact Or.inl ⟨htop, hfree j hj hnot hchild⟩
      · exact Or.inr ⟨j', Or.inr hj', hpar, k, by rw [hother j' hj']; exact hk⟩

/-- A node that is not resident may change, as long as the same addresses
are children. -/
theorem extend (h : Cached loose R s F)
    (hF : ∀ j ∈ R, F' (s.addr j) = F (s.addr j))
    (hfree : ∀ j ∈ R, ¬ F.IsChild (s.addr j) → ¬ F'.IsChild (s.addr j)) :
    Cached loose R s F' where
  super_level := h.super_level
  formed := h.formed
  shown hi := (hF _ hi).trans (h.shown hi)
  distinct := h.distinct
  tagged := h.tagged
  parented := by
    intro i hi hnot
    rcases h.parented hi hnot with ⟨htop, hchild⟩ | hpar
    · exact Or.inl ⟨htop, hfree i hi hchild⟩
    · exact Or.inr hpar

end Cached

/-- What rewriting the page in slot `i` leaves alone. -/
structure Rewriting (i : ℕ) (s s' : State) : Prop where
  addr : s'.addr i = s.addr i
  parentPtr : (s'.slotPage i).parentPtr = (s.slotPage i).parentPtr
  inUse : (s'.slotPage i).InUse
  other : ∀ {p}, p ≠ .slot i → s'.page p = s.page p
  allocator : s'.allocator = s.allocator
  dynamic : s'.dynamic = s.dynamic
  hashTable : s'.hashTable = s.hashTable
  localPageSet : s'.localPageSet = s.localPageSet
  pageTable : s'.pageTable = s.pageTable

namespace Rewriting

variable {s s' : State} {i : ℕ}

theorem slotPage (h : Rewriting i s s') {j : ℕ} (hj : j ≠ i) :
    s'.slotPage j = s.slotPage j :=
  h.other (by simpa using hj)

theorem addrs (h : Rewriting i s s') (j : ℕ) : s'.addr j = s.addr j := by
  by_cases hj : j = i
  · exact hj ▸ h.addr
  · rw [State.addr, h.slotPage hj]

end Rewriting

theorem Pool.rewrite {H R : Set ℕ} {s s' : State} {i : ℕ} (h : Pool H R s)
    (hi : i ∈ R) (hstep : Rewriting i s s') : Pool H R s' := by
  refine h.congr_inUse hstep.allocator hstep.dynamic hstep.hashTable
    hstep.localPageSet ?_ ?_
  · intro j hj
    rw [hstep.slotPage (by rintro rfl; exact hj hi)]
  · intro j hj
    by_cases hji : j = i
    · exact hji ▸ hstep.inUse
    · rw [hstep.slotPage hji]
      exact (h.resident_iff.mp hj).2.2

theorem Mapped.rewrite {U R : Set ℕ} {s s' : State} {i : ℕ}
    (h : Mapped U R s) (hstep : Rewriting i s s') : Mapped U R s' := by
  refine h.congr (by rw [hstep.allocator]) hstep.pageTable hstep.addrs ?_
  intro j hl
  by_cases hji : j = i
  · subst hji
    have := hstep.inUse
    simp [Page.InUse, hl] at this
  · rwa [hstep.slotPage hji] at hl

/-- One node of the forest changes or is added, together with the page or the
image that shows it. -/
theorem Backed.rebuild {tidy : Prop} {adrift adrift' : GlobalAddress → Prop}
    {R R' : Set ℕ} {s s' : State} {F : TreeForest} {a : GlobalAddress}
    {n : TreeNode} (h : Backed tidy adrift R s F)
    (hlinked : Forest.Linked (Function.update F a (some n)) adrift')
    (hlevel : n.level < 255)
    (hordered : tidy → n.bounds.Pairwise (· ≤ ·))
    (hplaced : Placed s'.backend a)
    (hcur : s.backend.curOffset ≤ s'.backend.curOffset)
    (hcapacity : s'.backend.capacityBytes = s.backend.capacityBytes)
    (hstore : ∀ {b}, Placed s.backend b → b ≠ a →
      s'.backend.store b.offset = s.backend.store b.offset)
    (himage : (∀ i ∈ R', s'.addr i = a → (s'.slotPage i).dirty = false) →
      Image s'.backend a n)
    (hold : ∀ i ∈ R, s.addr i ≠ a → i ∈ R' ∧ s'.addr i = s.addr i ∧
      (s'.slotPage i).dirty = (s.slotPage i).dirty)
    (hclean : tidy → ∀ {i}, i < s'.allocator.pageNum →
      (s'.slotPage i).dirty = true → i ∈ R') :
    Backed tidy adrift' R' s' (Function.update F a (some n)) := by
  have hcases : ∀ {b m}, Function.update F a (some n) b = some m →
      (b = a ∧ m = n) ∨ (b ≠ a ∧ F b = some m) := by
    intro b m hm
    by_cases hb : b = a
    · subst hb
      rw [Function.update_self, Option.some.injEq] at hm
      exact Or.inl ⟨rfl, hm.symm⟩
    · rw [Function.update_of_ne hb] at hm
      exact Or.inr ⟨hb, hm⟩
  constructor
  · exact hlinked
  · intro b m hm
    rcases hcases hm with ⟨_, rfl⟩ | ⟨_, hm⟩
    · exact hlevel
    · exact h.level_lt hm
  · intro ht b m hm
    rcases hcases hm with ⟨_, rfl⟩ | ⟨_, hm⟩
    · exact hordered ht
    · exact h.ordered ht hm
  · rw [hcapacity]
    exact h.capacity_le
  · intro b m hm
    rcases hcases hm with ⟨rfl, _⟩ | ⟨_, hm⟩
    · exact hplaced
    · exact (h.placed hm).congr hcur hcapacity
  · intro b m hm hdirty
    rcases hcases hm with ⟨rfl, rfl⟩ | ⟨hb, hm⟩
    · exact himage hdirty
    · refine (h.image hm fun i hi hib => ?_).congr
        (hstore (h.placed hm) hb)
      obtain ⟨hi', haddr, hd⟩ := hold i hi (hib ▸ hb)
      rw [← hd]
      exact hdirty i hi' (haddr.trans hib)
  · exact hclean

/-- A resident page is rewritten and dirty. -/
theorem Backed.rewrite {tidy : Prop} {adrift adrift' : GlobalAddress → Prop}
    {R : Set ℕ} {s s' : State} {F : TreeForest} {i : ℕ} {n₀ n : TreeNode}
    (h : Backed tidy adrift R s F) (hi : i ∈ R)
    (hshown : F (s.addr i) = some n₀) (hstep : Rewriting i s s')
    (hdirty : (s'.slotPage i).dirty = true)
    (hbackend : s'.backend = s.backend) (hlevel : n.level = n₀.level)
    (hlinked : Forest.Linked (Function.update F (s.addr i) (some n)) adrift')
    (hordered : tidy → n.bounds.Pairwise (· ≤ ·)) :
    Backed tidy adrift' R s' (Function.update F (s.addr i) (some n)) := by
  refine h.rebuild hlinked (hlevel ▸ h.level_lt hshown) hordered ?_ ?_ ?_ ?_
    ?_ ?_ ?_
  · rw [hbackend]
    exact h.placed hshown
  · rw [hbackend]
  · rw [hbackend]
  · intro b _ _
    rw [hbackend]
  · intro hclean
    have := hclean i hi hstep.addr
    rw [hdirty] at this
    cases this
  · intro j hj hne
    have hji : j ≠ i := fun heq => hne (heq ▸ rfl)
    exact ⟨hj, hstep.addrs j, by rw [hstep.slotPage hji]⟩
  · intro ht j hj hd
    by_cases hji : j = i
    · exact hji ▸ hi
    · rw [hstep.slotPage hji] at hd
      rw [hstep.allocator] at hj
      exact h.clean ht hj hd

/-- The page table learns the page placed in the slot in hand. -/
theorem Mapped.place {R : Set ℕ} {s s' : State} {v : ℕ}
    (h : Mapped {v} R s) (hv : v < s.allocator.headIdx) (hvR : v ∉ R)
    (hhead : s'.allocator.headIdx = s.allocator.headIdx)
    (htable : s'.pageTable = (s.pageTable.upsert (s'.addr v) (.slot v)).1)
    (haddr : ∀ i, i ≠ v → s'.addr i = s.addr i)
    (hlocal : ∀ i, i ≠ v → (s'.slotPage i).posState = .local →
      (s.slotPage i).posState = .local)
    (hplaced : (s'.slotPage v).posState ≠ .local)
    (hfresh : ∀ j ∈ R, s.addr j ≠ s'.addr v) :
    Mapped ∅ (insert v R) s' := by
  obtain ⟨hinv, hget⟩ := h.inv.upsert (s'.addr v) (.slot v)
  rw [← htable] at hinv hget
  refine ⟨hinv, ?_, ?_⟩
  · intro a q hq
    rw [hhead]
    rw [hget, Function.update_apply] at hq
    split_ifs at hq with ha
    · obtain rfl := Option.some.inj hq
      exact ⟨v, hv, rfl, Set.notMem_empty v, ha.symm, hplaced⟩
    · obtain ⟨i, hi, rfl, hne, rfl, hpos⟩ := h.maps hq
      have hne : i ≠ v := by simpa using hne
      exact ⟨i, hi, rfl, Set.notMem_empty i, haddr i hne,
        fun hl => hpos (hlocal i hne hl)⟩
  · rintro i (rfl | hi)
    · rw [hget, Function.update_self]
    · have hne : i ≠ v := fun heq => hvR (heq ▸ hi)
      rw [haddr i hne, hget, Function.update_of_ne (hfresh i hi)]
      exact h.mapped hi

end CachingDex
