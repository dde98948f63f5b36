import CachingDex.Splitting

/-!
# Cutting an inner page

The first part of an inner split, up to the point where the sibling knows its
children: the page gives up its upper half, the sibling is built from it and
placed in a slot the cache finds, and the children that moved are pointed at
it.  While the slot is sought the sampler runs on a half-done split; under a
contract that keeps it away from the pages of the window, the state is
coherent again at the end but for the sibling, which nobody tags yet.
-/

namespace CachingDex

open Lib Lib.Traced

theorem Backed.moor {tidy : Prop} {adrift adrift' : GlobalAddress → Prop}
    {R : Set ℕ} {s : State} {F : TreeForest} (h : Backed tidy adrift R s F)
    (hsub : ∀ d, F.IsChild d → adrift d → adrift' d) :
    Backed tidy adrift' R s F :=
  ⟨h.linked.mono hsub, h.level_lt, h.ordered, h.capacity_le, h.placed,
    h.image, h.clean⟩

/-- Fewer nodes are adrift than thought. -/
theorem Coherent.moor {tidy : Prop} {adrift adrift' : GlobalAddress → Prop}
    {loose H U R : Set ℕ} {s : State} {F : TreeForest}
    (h : Coherent tidy adrift loose H U R s F)
    (hsub : ∀ d, F.IsChild d → adrift d → adrift' d) :
    Coherent tidy adrift' loose H U R s F :=
  ⟨h.pool, h.cached, h.backed.moor hsub, h.mapped⟩

/-- A child of a resident page that is resident itself is tagged there. -/
theorem Cached.tags_of_child {R : Set ℕ} {s : State} {F : TreeForest}
    (h : Cached ∅ R s F) {adrift : GlobalAddress → Prop}
    (hF : F.Linked adrift) {i j k : ℕ} (hi : i ∈ R) (hj : j ∈ R)
    (hk : (s.nodeAt i).children[k]? = some (s.addr j)) :
    (s.slotPage i).Tags k (.slot j) := by
  rw [h.children_nodeAt hi, List.getElem?_map, Option.map_eq_some_iff] at hk
  obtain ⟨c, hc, haddr⟩ := hk
  cases c with
  | remote a =>
      exact absurd haddr.symm (h.not_resident hF hi hc j hj
        (Set.notMem_empty j))
  | swizzled q =>
      obtain ⟨j', hj', rfl, _⟩ := h.tagged hi hc
      obtain rfl := h.distinct hj' hj haddr
      exact hc

section Cut

variable {R : Set ℕ} {s : State} {F : TreeForest} {c : ℕ} {parent : PagePtr}

/-- The old page and its address while it is not known to be cut. -/
def adriftBelow (s : State) (c : ℕ) (parent : PagePtr) (d : GlobalAddress) :
    Prop :=
  d = s.addr c ∧ parent ≠ .superRoot

/-- The left half as it is stored. -/
def cutPage (s : State) (c : ℕ) (a : GlobalAddress) : Page :=
  { (BTreeInner.split (s.slotPage c)
    (BTreeInner.construct (s.slotPage c).level a)).2.1 with dirty := true }

/-- The sibling as it is built. -/
def siblingPage (s : State) (c : ℕ) (a : GlobalAddress) : Page :=
  (BTreeInner.split (s.slotPage c)
    (BTreeInner.construct (s.slotPage c).level a)).2.2

/-- The state while a slot is sought for the sibling. -/
def cutState (s : State) (c : ℕ) : State :=
  { State.setPage { s with backend := s.backend.alloc.2 } (.slot c)
      (cutPage s c s.backend.alloc.1) with
    innerNum := s.innerNum + 1 }

/-- A resident inner page that is about to be split below `parent`. -/
structure Cuttable (R : Set ℕ) (s : State) (F : TreeForest) (c : ℕ)
    (parent : PagePtr) : Prop where
  mem : c ∈ R
  inner : (s.slotPage c).type = .btreeInner
  size : 4 ≤ (s.nodeAt c).size
  sound : (s.nodeAt c).Sound 59
  parent : (s.slotPage c).parentPtr = some parent

theorem slotPage_cutState_self :
    (cutState s c).slotPage c = cutPage s c s.backend.alloc.1 :=
  State.setPage_self ..

theorem slotPage_cutState_of_ne {j : ℕ} (hj : j ≠ c) :
    (cutState s c).slotPage j = s.slotPage j :=
  State.setPage_of_ne (by simpa using hj)

theorem superRoot_cutState :
    (cutState s c).page .superRoot = s.page .superRoot := by
  simp [cutState]

theorem addr_cutState (j : ℕ) : (cutState s c).addr j = s.addr j := by
  by_cases hj : j = c
  · subst hj
    rw [State.addr, slotPage_cutState_self]
    rfl
  · rw [State.addr, slotPage_cutState_of_ne hj]

/-- The halves of the page, in terms of the node it shows. -/
theorem Cuttable.halves (hcut : Cuttable R s F c parent)
    (h : Cached ∅ R s F) (a : GlobalAddress) :
    (cutPage s c a).Formed ∧ (siblingPage s c a).Formed ∧
      (cutPage s c a).node s.addressOf = (s.nodeAt c).splitLeft a ∧
      (siblingPage s c a).node s.addressOf =
        (s.nodeAt c).splitRight .null ∧
      (cutPage s c a).slots =
        (s.slotPage c).slots.take ((s.nodeAt c).size / 2) ∧
      (siblingPage s c a).slots =
        (s.slotPage c).slots.drop ((s.nodeAt c).size / 2) := by
  have hformed := h.formed hcut.mem
  have hsize : (s.nodeAt c).size = (s.slotPage c).count.toNat :=
    Page.node_size hformed
  have hlow : 4 ≤ (s.slotPage c).count.toNat := hsize ▸ hcut.size
  obtain ⟨hleftFormed, hrightFormed⟩ :=
    BTreeInner.formed_split hcut.inner hformed (by omega)
      (BTreeInner.construct (s.slotPage c).level a) rfl
  obtain ⟨hleft, hright⟩ := BTreeInner.node_split (w := s.addressOf)
    hcut.inner hformed hlow a a
  obtain ⟨_, hleftSlots, hrightSlots, _, _⟩ :=
    BTreeInner.split_spec s.addressOf hcut.inner hformed (by omega)
      (BTreeInner.construct (s.slotPage c).level a) rfl
  refine ⟨?_, hrightFormed, hleft, hright, ?_, ?_⟩
  · exact ⟨hleftFormed.typed, hleftFormed.count_le, hleftFormed.leaf_level,
      hleftFormed.aligned⟩
  · rw [hsize]
    exact hleftSlots
  · rw [hsize]
    exact hrightSlots

theorem siblingPage_tags (hcut : Cuttable R s F c parent)
    (h : Cached ∅ R s F) {a : GlobalAddress} {m : ℕ} :
    (∃ k, (siblingPage s c a).Tags k (.slot m)) ↔ m ∈ movedSlots s c := by
  obtain ⟨_, _, _, _, _, hslots⟩ := hcut.halves h a
  constructor
  · rintro ⟨k, hk⟩
    rw [Page.Tags, hslots, List.getElem?_drop] at hk
    exact ⟨_, Nat.le_add_right _ _, hk⟩
  · rintro ⟨k, hle, hk⟩
    refine ⟨k - (s.nodeAt c).size / 2, ?_⟩
    rw [Page.Tags, hslots, List.getElem?_drop,
      show (s.nodeAt c).size / 2 + (k - (s.nodeAt c).size / 2) = k by omega]
    exact hk

theorem mem_moved_splitWindow (hcut : Cuttable R s F c parent)
    (h : Cached ∅ R s F) {a : GlobalAddress} {q : PagePtr} :
    q ∈ (splitWindow parent (.slot c) (siblingPage s c a)).moved ↔
      ∃ m ∈ movedSlots s c, q = .slot m := by
  have htype : (siblingPage s c a).type = .btreeInner := rfl
  obtain ⟨_, _, _, _, _, hslots⟩ := hcut.halves h a
  have hmem : q ∈ (splitWindow parent (.slot c) (siblingPage s c a)).moved ↔
      ChildSlot.swizzled q ∈ (siblingPage s c a).slots := by
    rw [Page.slots_of_inner htype]
    simp only [splitWindow, List.mem_filterMap]
    constructor
    · rintro ⟨x, hx, heq⟩
      cases x with
      | remote _ => simp at heq
      | swizzled q' =>
          obtain rfl : q' = q := by simpa using heq
          exact hx
    · intro hq
      exact ⟨_, hq, rfl⟩
  rw [hmem]
  constructor
  · intro hq
    obtain ⟨k, hk⟩ := List.getElem?_of_mem hq
    have hk' := hk
    rw [hslots, List.getElem?_drop] at hk'
    obtain ⟨m, _, rfl, _⟩ := h.tagged hcut.mem hk'
    exact ⟨m, (siblingPage_tags hcut h).mp ⟨k, hk⟩, rfl⟩
  · rintro ⟨m, hm, rfl⟩
    obtain ⟨k, hk⟩ := (siblingPage_tags hcut h (a := a)).mpr hm
    exact List.mem_of_getElem? hk

/-- Children of the page that moved are resident pages below it. -/
theorem Cuttable.moved (hcut : Cuttable R s F c parent)
    (h : Settled True R s F) {m : ℕ} (hm : m ∈ movedSlots s c) :
    m ∈ R ∧ m ≠ c ∧ (s.slotPage m).parentPtr = some (.slot c) ∧
      ∃ k, (s.nodeAt c).size / 2 ≤ k ∧
        (s.nodeAt c).children[k]? = some (s.addr m) := by
  obtain ⟨k, hle, hk⟩ := hm
  obtain ⟨j, hj, hq, hparent⟩ := h.cached.tagged hcut.mem hk
  obtain rfl : m = j := by simpa using hq
  refine ⟨hj, ?_, hparent (Set.notMem_empty m), k, hle,
    h.cached.child_of_slot hcut.mem hk⟩
  rintro rfl
  have := h.cached.level_tagged h.backed.linked hj hj hk
  omega

/-- The state in the window is coherent with the left half in place. -/
theorem Cuttable.coherent (hcut : Cuttable R s F c parent)
    (h : Settled True R s F) (hhot : (s.slotPage c).InUse)
    (halloc : Settled True R { s with backend := s.backend.alloc.2 } F)
    (htop : parent = .superRoot → ¬ F.IsChild (s.addr c)) :
    Coherent True (adriftBelow s c parent) (movedSlots s c) ∅ ∅ R
      (cutState s c) (Function.update F (s.addr c)
        (some ((s.nodeAt c).splitLeft s.backend.alloc.1))) := by
  obtain ⟨hformed, _, hnode, _, hslots, _⟩ :=
    hcut.halves h.cached s.backend.alloc.1
  have hself := slotPage_cutState_self (s := s) (c := c)
  have hstep : Rewriting c { s with backend := s.backend.alloc.2 }
      (cutState s c) :=
    ⟨addr_cutState c, by rw [hself]; rfl, by rw [hself]; exact hhot,
      fun hp => State.setPage_of_ne hp, rfl, rfl, rfl, rfl, rfl⟩
  have hshrunk := Coherent.shrink (a := s.backend.alloc.1)
    (s := { s with backend := s.backend.alloc.2 }) halloc hcut.mem hcut.size
    (fun _ => ((hcut.sound.splitLeft hcut.size _).ordered).imp le_of_lt)
    hstep (by rw [hself]; exact hformed) (by rw [hself]; exact hnode)
    (by rw [hself]; exact hslots) (by rw [hself]; rfl) rfl
  refine Coherent.moor hshrunk ?_
  rintro d hchild rfl
  refine ⟨rfl, fun hsuper => ?_⟩
  obtain ⟨d', m, i, hm, hi, _⟩ :=
    Forest.Linked.isChild_splitLeft (h.cached.shown hcut.mem) hchild
  exact htop hsuper ⟨d', m, i, hm, hi⟩

/-- The window names exactly the pages a split leaves without backing. -/
theorem Cuttable.window (hcut : Cuttable R s F c parent)
    (h : Settled True R s F) :
    Window (splitWindow parent (.slot c)
        (siblingPage s c s.backend.alloc.1)).bad
      (adriftBelow s c parent) (movedSlots s c) R (cutState s c)
      (Function.update F (s.addr c)
        (some ((s.nodeAt c).splitLeft s.backend.alloc.1))) := by
  have hF := h.backed.linked
  have hshown := h.cached.shown hcut.mem
  have hbad : ∀ {m}, m ∈ movedSlots s c → PagePtr.slot m ∈
      (splitWindow parent (.slot c)
        (siblingPage s c s.backend.alloc.1)).bad := fun hm =>
    Or.inl ((mem_moved_splitWindow hcut h.cached).mpr ⟨_, hm, rfl⟩)
  have hself : parent ≠ .superRoot → PagePtr.slot c ∈
      (splitWindow parent (.slot c)
        (siblingPage s c s.backend.alloc.1)).bad := fun hne =>
    Or.inr ⟨by simpa [splitWindow] using hne, rfl⟩
  constructor
  · intro i _ hi
    exact hbad hi
  · intro i _ hi
    obtain ⟨_, hne, hparent, k, hle, hk⟩ := hcut.moved h hi
    rw [addr_cutState]
    refine ⟨hF.not_isChild_splitLeft hshown hk hle, c, hcut.mem, ?_, ?_, ?_⟩
    · rw [slotPage_cutState_of_ne hne, hparent]
    · rw [slotPage_cutState_self]
      exact hcut.inner
    · by_cases hsuper : parent = .superRoot
      · refine Or.inr (Or.inl ?_)
        rw [slotPage_cutState_self, ← hsuper]
        exact hcut.parent
      · exact Or.inr (Or.inr (hself hsuper))
  · rintro i hi ⟨heq, hne⟩
    rw [addr_cutState] at heq
    obtain rfl := h.cached.distinct hi hcut.mem heq
    exact hself hne
  · rintro i hi ⟨heq, hne⟩
    rw [addr_cutState] at heq
    obtain rfl := h.cached.distinct hi hcut.mem heq
    -- the parent's slot still ends where the whole page ended
    obtain ⟨j, hj, k, hk⟩ : ∃ j ∈ R, ∃ k,
        (s.slotPage j).Tags k (.slot i) := by
      rcases h.cached.parented hi (Set.notMem_empty i) with
        ⟨htop, _⟩ | ⟨j, hj, _, k, hk⟩
      · rw [hcut.parent, Option.some.injEq] at htop
        exact absurd htop hne
      · exact ⟨j, hj, k, hk⟩
    have hchild : (s.nodeAt j).children[k]? = some (s.addr i) :=
      h.cached.child_of_slot hj hk
    obtain ⟨_, hhi⟩ := hF.limits (h.cached.shown hj) hchild hshown not_false
    have hji : s.addr j ≠ s.addr i :=
      (hF.child_ne (h.cached.shown hj) hchild).symm
    refine ⟨s.addr j, s.nodeAt j, k, ?_, ?_, ?_⟩
    · rw [Function.update_of_ne hji, h.cached.shown hj]
    · rw [addr_cutState]
      exact hchild
    · obtain ⟨_, _, hnode, _⟩ := hcut.halves h.cached s.backend.alloc.1
      have hlimit : (cutPage s i s.backend.alloc.1).maxLimit =
          (s.nodeAt i).splitKey := by
        rw [← Page.node_hi (w := s.addressOf), hnode,
          Node.hi_splitLeft]
      rw [slotPage_cutState_self, hlimit, hhi, ne_eq, Option.some.injEq]
      exact (hcut.sound.splitKey_lt_hi hcut.size s.backend.alloc.1).ne'
  · rintro i hi (hmoved | ⟨hroot, heq⟩)
    · obtain ⟨m, hm, heq⟩ := (mem_moved_splitWindow hcut h.cached).mp hmoved
      obtain rfl : i = m := by simpa using heq
      exact Or.inl hm
    · obtain rfl : i = c := by simpa [splitWindow] using heq
      refine Or.inr ⟨addr_cutState i, ?_⟩
      simpa [splitWindow] using hroot

/-- The sibling is in place and knows its children; nobody tags it yet. -/
structure CutDone (F : TreeForest) (R : Set ℕ) (s : State) (c : ℕ)
    (parent : PagePtr) (R' : Set ℕ) (v : ℕ) (u : State) : Prop where
  sibling : v ∈ R'
  page : c ∈ R'
  ne : v ≠ c
  coherent : Coherent True (adriftBelow s c parent) {v} ∅ ∅ R' u
    (halved F (s.addr c) (s.nodeAt c) s.backend.alloc.1)
  addr : u.addr v = s.backend.alloc.1
  siblingParent : (u.slotPage v).parentPtr = some parent
  header : SameHeader (cutPage s c s.backend.alloc.1) (u.slotPage c)
  above : ∀ i, parent = .slot i →
    i ∈ R' ∧ i ≠ v ∧ SameHeader (s.slotPage i) (u.slotPage i)
  top : ∀ r, r ∈ R → r ≠ c → (s.slotPage r).parentPtr = some .superRoot →
    r ∈ R' ∧ SameHeader (s.slotPage r) (u.slotPage r)
  hot : ∀ j ∈ R', (u.slotPage j).posState = .hot
  super : u.page .superRoot = s.page .superRoot
  steady : Steady (cutState s c) u

/-- What the search for a slot leaves of a window. -/
structure SlotFound (F : TreeForest) (R : Set ℕ) (s : State) (c : ℕ)
    (parent : PagePtr) (B : Set PagePtr) (R' : Set ℕ) (v : ℕ) (t : State) :
    Prop where
  free : v ∉ R'
  keeps : Keeps B R R' (cutState s c) t
  coherent : Coherent True (adriftBelow s c parent) (movedSlots s c) {v} {v} R'
    t (Function.update F (s.addr c)
      (some ((s.nodeAt c).splitLeft s.backend.alloc.1)))
  moved : ∀ m ∈ movedSlots s c, m ∈ R'
  page : c ∈ R'

namespace SlotFound

variable {B : Set PagePtr} {R' : Set ℕ} {v : ℕ} {t : State}

theorem addr (h : SlotFound F R s c parent B R' v t) {j : ℕ} (hj : j ∈ R') :
    t.addr j = s.addr j := by
  rw [State.addr, h.keeps.header hj, ← addr_cutState (c := c)]

theorem header (h : SlotFound F R s c parent B R' v t) {j : ℕ} (hj : j ∈ R')
    (hjc : j ≠ c) : SameHeader (s.slotPage j) (t.slotPage j) := by
  have := h.keeps.header hj
  rwa [slotPage_cutState_of_ne hjc] at this

/-- The sibling shows the upper half of the page that was cut. -/
theorem node_sibling (h : SlotFound F R s c parent B R' v t)
    (hcut : Cuttable R s F c parent) (hs : Settled True R s F) :
    (siblingPage s c s.backend.alloc.1).node t.addressOf =
      (s.nodeAt c).splitRight .null := by
  obtain ⟨_, _, _, hright, _, hslots⟩ :=
    hcut.halves hs.cached s.backend.alloc.1
  rw [← hright]
  apply Page.node_congr
  intro x hx
  cases x with
  | remote a => rfl
  | swizzled q =>
      obtain ⟨k, hk⟩ := List.getElem?_of_mem hx
      have hk' := hk
      rw [hslots, List.getElem?_drop] at hk'
      obtain ⟨m, _, rfl, _⟩ := hs.cached.tagged hcut.mem hk'
      exact h.addr (h.moved m ((siblingPage_tags hcut hs.cached).mp ⟨k, hk⟩))

/-- The sibling is placed: the halves are both there. -/
theorem graft (h : SlotFound F R s c parent B R' v t)
    (hcut : Cuttable R s F c parent) (hs : Settled True R s F)
    (ha : Allocated s F s.backend.alloc.1 s.backend.alloc.2)
    (htop : parent = .superRoot → ¬ F.IsChild (s.addr c)) {g : State}
    (hplacing : Placing v t g)
    (hpage : g.slotPage v = { siblingPage s c s.backend.alloc.1 with
      posState := .hot, dirty := true, parentPtr := some parent }) :
    Coherent True (adriftBelow s c parent) (insert v (movedSlots s c)) ∅ ∅
      (insert v R') g (halved F (s.addr c) (s.nodeAt c) s.backend.alloc.1) := by
  have hshown := hs.cached.shown hcut.mem
  obtain ⟨_, hformed, _, _, _, _⟩ := hcut.halves hs.cached s.backend.alloc.1
  have hbody : SameBody (siblingPage s c s.backend.alloc.1) (g.slotPage v) := by
    rw [hpage]
    rfl
  have hca : s.backend.alloc.1 ≠ s.addr c := by
    intro heq
    have := hshown.symm.trans (heq ▸ ha.fresh)
    cases this
  have hlinked : Forest.Linked (halved F (s.addr c) (s.nodeAt c)
      s.backend.alloc.1) (adriftBelow s c parent) := by
    refine (hs.backed.linked.split hshown hcut.size ha.fresh).mono ?_
    rintro d hd rfl
    rw [Forest.Linked.isChild_split hshown ha.fresh] at hd
    exact ⟨rfl, fun hsuper => htop hsuper hd⟩
  have htags : ∀ {k q}, (g.slotPage v).Tags k q →
      ∃ m ∈ movedSlots s c, q = .slot m := by
    intro k q hq
    rw [Page.Tags, hbody.slots] at hq
    have hmem := (mem_moved_splitWindow hcut hs.cached
      (a := s.backend.alloc.1) (q := q)).mp
    obtain ⟨_, _, _, _, _, hslots⟩ := hcut.halves hs.cached s.backend.alloc.1
    have hq' := hq
    rw [hslots, List.getElem?_drop] at hq'
    obtain ⟨m, _, rfl, _⟩ := hs.cached.tagged hcut.mem hq'
    exact ⟨m, (siblingPage_tags hcut hs.cached).mp ⟨k, hq⟩, rfl⟩
  refine h.coherent.graftPage (a := s.backend.alloc.1) h.free hplacing
    hbody.remoteAddress ?_ ?_ hlinked ?_ ?_ ?_
    (hbody.formed hformed) ?_ (Set.subset_insert _ _) (Or.inl rfl) ?_ ?_
  · rw [hpage]
  · rw [Function.update_of_ne hca, ha.fresh]
  · rw [Node.level_splitRight]
    exact hs.backed.level_lt hshown
  · intro _
    exact (hcut.sound.splitRight hcut.size .null).ordered.imp le_of_lt
  · exact ha.placed.congr h.keeps.steady.curOffset.symm.le
      h.keeps.steady.capacity
  · rw [hbody.node, h.node_sibling hcut hs]
  · intro k q hq
    obtain ⟨m, hm, rfl⟩ := htags hq
    exact ⟨m, h.moved m hm, rfl, Or.inr hm⟩
  · intro j hj hnot hfree
    have hj' := h.keeps.sub hj
    rw [h.addr hj] at hfree ⊢
    change ¬ Forest.IsChild (halved F _ _ _) _
    rw [halved, Forest.Linked.isChild_split hshown ha.fresh]
    rintro ⟨d, m, k, hm, hk⟩
    by_cases hd : d = s.addr c
    · subst hd
      rw [hshown, Option.some.injEq] at hm
      subst hm
      by_cases hlt : k < (s.nodeAt c).size / 2
      · refine hfree ⟨_, _, k, Function.update_self .., ?_⟩
        rw [Node.children_splitLeft, List.getElem?_take, if_pos hlt, hk]
      · have htag := hs.cached.tags_of_child hs.backed.linked hcut.mem hj' hk
        exact hnot (Or.inr ⟨k, not_lt.mp hlt, htag⟩)
    · exact hfree ⟨d, m, k, by rw [Function.update_of_ne hd, hm], hk⟩

/-- The children turn to the sibling, and the cut is done. -/
theorem done (h : SlotFound F R s c parent B R' v t)
    (hcut : Cuttable R s F c parent) (hready : Ready True R s F)
    (ha : Allocated s F s.backend.alloc.1 s.backend.alloc.2)
    (htop : parent = .superRoot → ¬ F.IsChild (s.addr c)) {g u : State}
    (hplacing : Placing v t g)
    (hpage : g.slotPage v = { siblingPage s c s.backend.alloc.1 with
      posState := .hot, dirty := true, parentPtr := some parent })
    (hsteady : Steady t u) (hturning : Adopting v g u)
    (hsuper : u.page .superRoot = t.page .superRoot) :
    CutDone F R s c parent (insert v R') v u := by
  have hs := hready.settled
  have hbody : SameBody (siblingPage s c s.backend.alloc.1) (g.slotPage v) := by
    rw [hpage]
    rfl
  have htags : ∀ {m}, (∃ k, (g.slotPage v).Tags k (.slot m)) ↔
      m ∈ movedSlots s c := by
    intro m
    rw [← siblingPage_tags hcut hs.cached (a := s.backend.alloc.1)]
    simp only [Page.Tags, hbody.slots]
  have hmem : ∀ {m}, ChildSlot.swizzled (.slot m) ∈ (g.slotPage v).slots ↔
      m ∈ movedSlots s c := by
    intro m
    rw [← htags]
    exact ⟨List.getElem?_of_mem, fun ⟨_, hk⟩ => List.mem_of_getElem? hk⟩
  have hcv : v ≠ c := fun heq => h.free (heq ▸ h.page)
  have hvm : v ∉ movedSlots s c := fun hm => h.free (h.moved v hm)
  have hcm : c ∉ movedSlots s c := fun hm => (hcut.moved hs hm).2.1 rfl
  -- a page that is neither new nor moved is as the search left it
  have hpages : ∀ {j}, j ≠ v → j ∉ movedSlots s c →
      u.slotPage j = t.slotPage j := by
    intro j hj hm
    rw [hturning.page, if_neg (by rwa [hmem]), hplacing.slotPage hj]
  have hcoh : Coherent True (adriftBelow s c parent) {v} ∅ ∅ (insert v R') u
      (halved F (s.addr c) (s.nodeAt c) s.backend.alloc.1) := by
    refine (h.graft hcut hs ha htop hplacing hpage).turn (Or.inl rfl) hturning
      ?_ ?_
    · intro k j hk
      exact Or.inr (htags.mp ⟨k, hk⟩)
    · rintro j (rfl | hj) hnot
      · exact absurd rfl hnot
      · exact htags.mpr hj
  have hheaderC : SameHeader (cutPage s c s.backend.alloc.1) (t.slotPage c) := by
    have := h.keeps.header h.page
    rwa [slotPage_cutState_self] at this
  refine ⟨Or.inl rfl, Or.inr h.page, hcv, hcoh, ?_, ?_, ?_, ?_, ?_, ?_, ?_,
    h.keeps.steady.trans hsteady⟩
  · rw [State.addr, (hturning.sameBody v).remoteAddress, hpage]
    rfl
  · rw [hturning.page, if_neg (by rwa [hmem]), hpage]
  · rw [hpages hcv.symm hcm]
    exact hheaderC
  · rintro i rfl
    have hparentC : (t.slotPage c).parentPtr = some (.slot i) := by
      rw [hheaderC.parentPtr]
      exact hcut.parent
    obtain ⟨j, hj, hpar, k, hk⟩ : ∃ j ∈ R',
        (t.slotPage c).parentPtr = some (.slot j) ∧
          ∃ k, (t.slotPage j).Tags k (.slot c) := by
      rcases h.coherent.cached.parented h.page hcm with ⟨hroot, _⟩ | hj
      · rw [hparentC] at hroot
        cases hroot
      · exact hj
    obtain rfl : i = j := by
      rw [hparentC] at hpar
      simpa using hpar
    have hiv : i ≠ v := fun heq => h.free (heq ▸ hj)
    have hlevel := h.coherent.cached.level_tagged h.coherent.backed.linked hj
      h.page hk
    have hic : i ≠ c := by
      rintro rfl
      omega
    have him : i ∉ movedSlots s c := by
      intro hm
      obtain ⟨hiR, _, _, k', _, hk'⟩ := hcut.moved hs hm
      have htag := hs.cached.tags_of_child hs.backed.linked hcut.mem hiR hk'
      have hbelow := hs.cached.level_tagged hs.backed.linked hcut.mem hiR htag
      rw [(h.header hj hic).level, hheaderC.level] at hlevel
      change (s.slotPage c).level.toNat + 1 = (s.slotPage i).level.toNat
        at hlevel
      omega
    refine ⟨Or.inr hj, hiv, ?_⟩
    rw [hpages hiv him]
    exact h.header hj hic
  · intro r hr hrc hpar
    have hanchored : Anchored B (cutState s c) r := by
      refine Or.inr (Or.inl ?_)
      rw [slotPage_cutState_of_ne hrc]
      exact hpar
    have hr' := h.keeps.kept hr hanchored
    have hrm : r ∉ movedSlots s c := by
      intro hm
      have hbelow := (hcut.moved hs hm).2.2.1
      rw [hpar] at hbelow
      cases hbelow
    refine ⟨Or.inr hr', ?_⟩
    rw [hpages (fun heq => h.free (heq ▸ hr')) hrm]
    exact h.header hr' hrc
  · rintro j (rfl | hj)
    · rw [hturning.posState, hpage]
    · have hjv : j ≠ v := fun heq => h.free (heq ▸ hj)
      rw [hturning.posState, hplacing.slotPage hjv]
      by_cases hjc : j = c
      · subst hjc
        rw [hheaderC.posState]
        exact hready.hot j hcut.mem
      · rw [(h.header hj hjc).posState]
        exact hready.hot j (h.keeps.sub hj)
  · rw [hsuper, h.keeps.super, superRoot_cutState]

end SlotFound

/-! ## The program -/

theorem splitInnerChild_meets {C : Contract State Halt Event} (hC : Splits C)
    {n : ℕ} (hspare : Affords C (n + 1) s) (hready : Ready True R s F) (hnull : F .null = none)
    (hcut : Cuttable R s F c parent)
    (htop : parent = .superRoot → ¬ F.IsChild (s.addr c))
    {Q : Unit → State → Prop}
    (hrest : ∀ R' v u, CutDone F R s c parent R' v u →
      s.backend.hasRoom = true →
      Meets C
        (if parent = .superRoot then
          makeNewRoot (s.nodeAt c).splitKey (.slot c) (.swizzled (.slot v))
            ((s.slotPage c).level + 1)
        else insertIntoInner parent (s.nodeAt c).splitKey
          (.swizzled (.slot v))) u Q) :
    Meets C (splitInnerChild parent (.slot c)) s Q := by
  have h := hready.settled
  have hshown := h.cached.shown hcut.mem
  have hformed := h.cached.formed hcut.mem
  have ha := h.backed.allocated hnull hshown
  have halloc := h.alloc ha.store ha.curOffset ha.capacity
  have hhot : (s.slotPage c).InUse := (h.pool.resident_iff.mp hcut.mem).2.2
  have hcoh := hcut.coherent h hhot halloc htop
  have hwin := hcut.window h
  have hlow : 4 ≤ (s.slotPage c).count.toNat := by
    have := hcut.size
    rwa [State.nodeAt, Page.node_size hformed] at this
  have hsep : (BTreeInner.split (s.slotPage c) (BTreeInner.construct
      (s.slotPage c).level s.backend.alloc.1)).1 = (s.nodeAt c).splitKey :=
    (BTreeInner.split_spec s.addressOf hcut.inner hformed (by omega) _ rfl).1
  unfold splitInnerChild
  apply Meets.bind
  apply meets_gets
  apply Meets.bind
  apply allocAddress_meets hspare
  intro hroom
  apply Meets.bind
  refine meets_emit fun hrely => ⟨hC.base.called hrely
    (NodeCall.safe_innerSplit hformed.count_le (le_trans (by omega) hlow)), ?_⟩
  dsimp only
  rw [hsep]
  apply Meets.bind
  apply meets_modify
  apply Meets.bind
  apply meets_modify
  apply Meets.bind
  apply Meets.relabel
  refine (cacheInsert_variable_meets (hC.window _) hcoh hwin hready.pages
    (a := s.backend.alloc.1) (p := siblingPage s c s.backend.alloc.1) rfl
    parent).mono ?_
  rintro q u₀ ⟨R', v, t, rfl, hv, hkeeps, hcoht, _, rfl⟩
  have hanchored : Anchored (splitWindow parent (.slot c)
      (siblingPage s c s.backend.alloc.1)).bad (cutState s c) c := by
    by_cases hsuper : parent = .superRoot
    · refine Or.inr (Or.inl ?_)
      rw [slotPage_cutState_self, ← hsuper]
      exact hcut.parent
    · exact Or.inr (Or.inr (Or.inr ⟨by simpa [splitWindow] using hsuper, rfl⟩))
  have hfound : SlotFound F R s c parent (splitWindow parent (.slot c)
      (siblingPage s c s.backend.alloc.1)).bad R' v t := by
    refine ⟨hv, hkeeps, hcoht, fun m hm => ?_, hkeeps.kept hcut.mem hanchored⟩
    refine hkeeps.kept (hcut.moved h hm).1 (Or.inr (Or.inr (Or.inl ?_)))
    exact (mem_moved_splitWindow hcut h.cached).mpr ⟨m, hm, rfl⟩
  -- on paper the sibling is placed with its final state and flag
  let page : Page := { siblingPage s c s.backend.alloc.1 with
    posState := .hot, dirty := true, parentPtr := some parent }
  let g : State :=
    { t with
      page := Function.update t.page (.slot v) page
      pageTable := (t.pageTable.upsert s.backend.alloc.1 (.slot v)).1 }
  have hgv : g.slotPage v = page := Function.update_self ..
  have hgo : ∀ {p}, p ≠ .slot v → g.page p = t.page p := fun hp =>
    Function.update_of_ne hp ..
  have hplacing : Placing v t g := by
    refine ⟨hgo, ?_, rfl, rfl, rfl, rfl, ?_, rfl⟩
    · rw [hgv]
      exact Or.inl rfl
    · rw [State.addr, hgv]
      rfl
  apply Meets.bind
  apply meets_modify
  generalize hplaced : State.setPage _ (.slot v) _ = f
  have hf : f = g := by
    rw [← hplaced]
    simp only [State.setPage_self]
    simp [g, page, State.setPage]
  rw [hf]
  have htype : (g.slotPage v).type = .btreeInner := by
    rw [hgv]
    rfl
  apply Meets.bind
  apply updateAllParentPtr_meets htype
  intro pages hturning hsuper
  have hnotSuper : ChildSlot.swizzled .superRoot ∉ (g.slotPage v).slots := by
    intro hmem
    obtain ⟨_, _, _, _, _, hslots⟩ := hcut.halves h.cached s.backend.alloc.1
    rw [hgv] at hmem
    change _ ∈ (siblingPage s c s.backend.alloc.1).slots at hmem
    rw [hslots] at hmem
    obtain ⟨k, hk⟩ := List.getElem?_of_mem (List.mem_of_mem_drop hmem)
    obtain ⟨_, _, heq, _⟩ := h.cached.tagged hcut.mem hk
    cases heq
  have hdone := hfound.done (u := { g with page := pages }) hcut hready ha
    htop hplacing hgv
    ⟨rfl, rfl, rfl, rfl, rfl, rfl, rfl, id⟩ hturning
    ((hsuper hnotSuper).trans (hgo (by simp)))
  apply Meets.bind
  apply meets_gets
  have hlevel : (pages (.slot c)).level = (s.slotPage c).level :=
    hdone.header.level
  rw [hlevel]
  exact hrest _ v _ hdone hroom

end Cut

end CachingDex
