import CachingDex.InnerCut
import CachingDex.Lib.LeafChain
import CachingDex.Lib.TreeWeight

/-!
# Splitting a full child

What the three kinds of split do to the tree.  Below a parent with room, the
forest becomes the one in which the child is split; at the root it grows by a
level.  Either way the tree stores the same pairs, and the chain of leaves
is kept unless a leaf other than the last one was split.
-/

namespace CachingDex

open Lib Lib.Traced

/-- The forests store the same pairs. -/
def SameStored (F F' : TreeForest) : Prop :=
  ∀ k v, F'.Stored k v ↔ F.Stored k v

theorem Represents.same {F F' : TreeForest} {m : KeyMap}
    (h : Represents F m) (hsame : SameStored F F') : Represents F' m :=
  fun k v => (hsame k v).trans (h k v)

/-- The forest grew by splits on the way to `key`. -/
structure GrownFor (key : Key) (F F' : TreeForest) : Prop where
  stored : SameStored F F'
  chain : Forest.Regrown 59 .null key F F'

theorem GrownFor.refl (key : Key) (F : TreeForest) : GrownFor key F F :=
  ⟨fun _ _ => Iff.rfl, .refl 59 .null key F⟩

theorem GrownFor.trans {key : Key} {F F' F'' : TreeForest}
    (h : GrownFor key F F') (h' : GrownFor key F' F'') :
    GrownFor key F F'' :=
  ⟨fun k v => (h'.stored k v).trans (h.stored k v), h.chain.trans h'.chain⟩

instance : Finite GlobalAddress :=
  Finite.of_injective (fun a => (a.nodeID, a.offset)) (by
    intro a b h
    cases a
    cases b
    simpa using h)

/-- The entries the leaves have gained since they were split, over the least
a split leaves them. -/
noncomputable def leafCredit (F : TreeForest) : ℕ :=
  F.weigh (Forest.credit 29)

/-- The splits on the way to `key`, one after the other, keep the credit of
the leaves. -/
structure Grown (key : Key) (F F' : TreeForest) : Prop
    extends GrownFor key F F' where
  credit : leafCredit F' = leafCredit F
  splits : Relation.ReflTransGen (Forest.SplitsOn 59 .null key) F F'

theorem Grown.refl (key : Key) (F : TreeForest) : Grown key F F :=
  ⟨.refl key F, rfl, .refl⟩

theorem Grown.trans {key : Key} {F F' F'' : TreeForest}
    (h : Grown key F F') (h' : Grown key F' F'') : Grown key F F'' :=
  ⟨h.toGrownFor.trans h'.toGrownFor, h'.credit.trans h.credit,
    h.splits.trans h'.splits⟩

theorem Rooted.of_header {R R' : Set ℕ} {s s' : State} {r : ℕ}
    (h : Rooted R s r) (hr : r ∈ R')
    (hsuper : s'.page .superRoot = s.page .superRoot)
    (hheader : SameHeader (s.slotPage r) (s'.slotPage r))
    (hroot : s'.root = s.root) : Rooted R' s' r :=
  ⟨hr, by rw [hsuper]; exact h.word, hheader.parentPtr.trans h.parent,
    by rw [State.addr, hheader.remoteAddress, hroot]; exact h.addr⟩

theorem Rooted.rewriting {R : Set ℕ} {s s' : State} {i r : ℕ}
    (h : Rooted R s r) (hstep : Rewriting i s s') (hroot : s'.root = s.root) :
    Rooted R s' r := by
  refine ⟨h.mem, by rw [hstep.other (by simp)]; exact h.word, ?_,
    by rw [hstep.addrs, hroot]; exact h.addr⟩
  by_cases hri : r = i
  · subst hri
    exact hstep.parentPtr.trans h.parent
  · rw [hstep.slotPage hri]
    exact h.parent

/-! ## Cutting a leaf -/

section LeafCut

variable {R : Set ℕ} {s : State} {F : TreeForest} {c : ℕ}

/-- A full leaf was cut, its upper half written to a new address. -/
def leafCutState (s : State) (c : ℕ) : State :=
  { State.setPage { s with backend := s.backend.alloc.2 } (.slot c)
      (BTreeLeaf.split (s.slotPage c)
        (BTreeLeaf.construct s.backend.alloc.1)).2.1 with
    backend := s.backend.alloc.2.write s.backend.alloc.1
      (BTreeLeaf.split (s.slotPage c)
        (BTreeLeaf.construct s.backend.alloc.1)).2.2
    leafNum := s.leafNum + 1 }

theorem slotPage_leafCutState_self : (leafCutState s c).slotPage c =
    (BTreeLeaf.split (s.slotPage c)
      (BTreeLeaf.construct s.backend.alloc.1)).2.1 := by
  simp [leafCutState, State.slotPage]

theorem rewriting_leafCutState (h : (s.slotPage c).posState = .hot) :
    Rewriting c s (leafCutState s c) := by
  have hself := slotPage_leafCutState_self (s := s) (c := c)
  refine ⟨?_, by rw [hself]; rfl, ?_, ?_, rfl, rfl, rfl, rfl, rfl⟩
  · rw [State.addr, hself]
    rfl
  · rw [hself]
    exact Or.inl h
  · intro p hp
    simp [leafCutState, hp]

theorem coherent_leafCutState (h : Ready True R s F) (hnull : F .null = none)
    (hc : c ∈ R) (hleaf : (s.slotPage c).type = .btreeLeaf)
    (hsize : 4 ≤ (s.nodeAt c).size) (hsound : (s.nodeAt c).Sound 59) :
    Coherent True (fun d => d = s.addr c) ∅ ∅ ∅ R (leafCutState s c)
      (halved F (s.addr c) (s.nodeAt c) s.backend.alloc.1) := by
  have ha := h.settled.backed.allocated hnull (h.settled.cached.shown hc)
  have hstep := rewriting_leafCutState (h.hot c hc)
  have hcut := Coherent.cutLeaf
    (u := { leafCutState s c with backend := s.backend.alloc.2 })
    h.settled hc hleaf hsize hsound ha
    ⟨hstep.addr, hstep.parentPtr, hstep.inUse, hstep.other, rfl, rfl, rfl, rfl,
      rfl⟩
    slotPage_leafCutState_self rfl
  exact hcut

theorem splitLeafChild_meets {C : Contract State Halt Event}
    (hC : Tolerates True ∅ C) {n : ℕ} (hspare : Affords C (n + 1) s)
    {parent : PagePtr} {idx : ℕ} (hformed : (s.slotPage c).Formed)
    (hleaf : (s.slotPage c).type = .btreeLeaf)
    (hsize : 4 ≤ (s.nodeAt c).size) {Q : Unit → State → Prop}
    (hrest : s.backend.hasRoom = true →
      Meets C
        (if parent = .superRoot then
          makeNewRoot (s.nodeAt c).splitKey (.slot c)
            (.remote s.backend.alloc.1) 1
        else do
          insertIntoInner parent (s.nodeAt c).splitKey
            (.remote s.backend.alloc.1)
          let _ ← loadChild parent (idx + 1)
          pure ())
        (leafCutState s c) Q) :
    Meets C (splitLeafChild parent idx (.slot c)) s Q := by
  have hlow : 4 ≤ (s.slotPage c).count.toNat := by
    rwa [State.nodeAt, Page.node_size hformed] at hsize
  have hsep : (BTreeLeaf.split (s.slotPage c)
      (BTreeLeaf.construct s.backend.alloc.1)).1 = (s.nodeAt c).splitKey :=
    (BTreeLeaf.split_spec hleaf hformed.count_le hlow _).1
  unfold splitLeafChild
  apply Meets.bind
  apply allocAddress_meets hspare
  intro hroom
  apply Meets.bind
  apply meets_gets
  apply Meets.bind
  refine meets_emit fun hrely => ⟨hC.called hrely
    (NodeCall.safe_leafSplit hformed.count_le (le_trans (by omega) hlow)), ?_⟩
  dsimp only
  rw [hsep]
  apply Meets.bind
  apply meets_modify
  apply Meets.bind
  apply meets_modify
  apply Meets.bind
  apply meets_modify
  apply Meets.bind
  apply meets_modify
  -- the half kept is dirty already
  have hdirty : (BTreeLeaf.split (s.slotPage c)
      (BTreeLeaf.construct s.backend.alloc.1)).2.1.dirty = true := rfl
  generalize hcut : ({ State.setPage _ _ _ with leafNum := _ } : State) = u
  have hu : u = leafCutState s c := by
    rw [← hcut]
    simp only [leafCutState, State.setPage, Function.update_self,
      Function.update_idem]
    rfl
  rw [hu]
  exact hrest hroom

end LeafCut

/-! ## Below a parent -/

/-- A full child of a resident page that has room. -/
structure FullChild (R : Set ℕ) (s : State) (i k c : ℕ) : Prop where
  parent : i ∈ R
  child : c ∈ R
  slot : (s.nodeAt i).children[k]? = some (s.addr c)
  full : (s.nodeAt c).size = 59
  room : (s.nodeAt i).size < 59

section Below

variable {R R' : Set ℕ} {s s' u : State} {F : TreeForest} {i k c : ℕ}
  {a : GlobalAddress}

theorem FullChild.splittable (hf : FullChild R s i k c)
    (h : Consistent R s F) (ha : F a = none) :
    Forest.Splittable F (s.addr i) (s.nodeAt i) k (s.addr c) (s.nodeAt c) a :=
  ⟨h.ready.settled.cached.shown hf.parent, hf.slot,
    h.ready.settled.cached.shown hf.child, by rw [hf.full]; omega, ha⟩

theorem FullChild.inner (hf : FullChild R s i k c) (h : Consistent R s F) :
    (s.slotPage i).type = .btreeInner := by
  have hslot := hf.slot
  rw [h.ready.settled.cached.children_nodeAt hf.parent,
    List.getElem?_map, Option.map_eq_some_iff] at hslot
  obtain ⟨x, hx, _⟩ := hslot
  exact (Page.le_count_of_slot hx).1

/-- A full child is tagged by its parent, which it points at. -/
theorem FullChild.tagged (hf : FullChild R s i k c) (h : Consistent R s F) :
    (s.slotPage i).Tags k (.slot c) ∧
      (s.slotPage c).parentPtr = some (.slot i) := by
  have hcached := h.ready.settled.cached
  have htag := hcached.tags_of_child h.ready.settled.backed.linked hf.parent
    hf.child hf.slot
  obtain ⟨j, _, hj, hparent⟩ := hcached.tagged hf.parent htag
  obtain rfl : c = j := by simpa using hj
  exact ⟨htag, hparent (Set.notMem_empty c)⟩

/-- The forest after the child was split with its right half at `a`. -/
def splitForest (F : TreeForest) (s : State) (i k c : ℕ) (a : GlobalAddress) :
    TreeForest :=
  F.splitBelow .null (s.addr i) (s.nodeAt i) k (s.addr c) (s.nodeAt c) a

/-- The sibling is hooked into the parent right of the page that was split. -/
theorem FullChild.hook (hf : FullChild R s i k c) (h : Consistent R s F)
    (ha : F a = none) {adrift : GlobalAddress → Prop} {child : ChildSlot}
    (hu : Coherent True adrift child.tagged ∅ ∅ R' u
      (halved F (s.addr c) (s.nodeAt c) a))
    (hi : i ∈ R') (hheader : SameHeader (s.slotPage i) (u.slotPage i))
    (hhot : ∀ j ∈ R', (u.slotPage j).posState = .hot)
    (hpages : 0 < u.allocator.pageNum) (haddr : u.addressOf child = a)
    (hchild : Hookable R' u i child)
    (hs' : s' = u.setPage (.slot i) { BTreeInner.insert (u.slotPage i)
      (s.nodeAt c).splitKey child with dirty := true }) :
    Ready True R' s' (splitForest F s i k c a) ∧ Rewriting i u s' := by
  have hsplit := hf.splittable h ha
  have hcached := h.ready.settled.cached
  have hF := h.ready.settled.backed.linked
  have hui : u.addr i = s.addr i := hheader.remoteAddress
  have hnode : u.nodeAt i = s.nodeAt i := by
    have hshown := hu.cached.shown hi
    rw [hui, halved, Function.update_of_ne hsplit.parent_ne_fresh,
      Function.update_of_ne (hsplit.child_ne_parent hF).symm,
      hcached.shown hf.parent, Option.some.injEq] at hshown
    exact hshown.symm
  have htype : (u.slotPage i).type = .btreeInner :=
    hheader.type.trans (hf.inner h)
  have hformed := hu.cached.formed hi
  have hroom : (u.slotPage i).count.toNat < 59 := by
    rw [← Page.node_size (w := u.addressOf) hformed]
    change (u.nodeAt i).size < 59
    rw [hnode]
    exact hf.room
  have hpos : BTreeInner.lowerBound (u.slotPage i) (s.nodeAt c).splitKey =
      k := by
    have hkeys : (u.slotPage i).separators = (s.nodeAt i).keys := by
      rw [← hnode, State.nodeAt, Page.node_of_inner htype]
      rfl
    have hsorted := (h.search.sound hsplit.parent).keys_sorted
    rw [BTreeInner.lowerBound_eq hformed.count_le (by rwa [hkeys]), hkeys]
    exact hsplit.lowerIdx_eq h.search
  have hself : s'.slotPage i = { BTreeInner.insert (u.slotPage i)
      (s.nodeAt c).splitKey child with dirty := true } := by
    rw [hs']
    exact State.setPage_self ..
  have hheader' : (s'.slotPage i).remoteAddress = (u.slotPage i).remoteAddress ∧
      (s'.slotPage i).parentPtr = (u.slotPage i).parentPtr ∧
      (s'.slotPage i).posState = (u.slotPage i).posState := by
    rw [hself]
    unfold BTreeInner.insert BTreeInner.setBitmap
    simp only
    split_ifs <;> exact ⟨rfl, rfl, rfl⟩
  have hstep : Rewriting i u s' := by
    refine ⟨hheader'.1, hheader'.2.1, ?_, ?_, ?_, ?_, ?_, ?_, ?_⟩
    · rw [Page.InUse, hheader'.2.2]
      exact Or.inl (hhot i hi)
    · intro p hp
      rw [hs', State.setPage_of_ne hp]
    all_goals rw [hs']; rfl
  have hbody : SameBody (BTreeInner.insert (u.slotPage i)
      (s.nodeAt c).splitKey child) (s'.slotPage i) := by
    rw [hself]
    rfl
  have hforest : Function.update (halved F (s.addr c) (s.nodeAt c) a)
      (u.addr i) (some ((s.nodeAt i).insertChild k (s.nodeAt c).splitKey a)) =
        splitForest F s i k c a := by
    rw [hui]
    rfl
  have hlinked : (splitForest F s i k c a).Linked fun _ => False :=
    hsplit.linked_splitBelow hF
  have hhook := hu.hook hi htype hroom hchild
    (n := (s.nodeAt i).insertChild k (s.nodeAt c).splitKey a)
    (by rw [hnode, hpos, haddr]) (by rw [hforest]; exact hlinked)
    (fun _ => (hsplit.sound_parent h.search hf.room).ordered.imp le_of_lt)
    hstep hbody (by rw [hself]) (by rw [hs']; rfl)
  rw [hforest] at hhook
  refine ⟨⟨hhook, ?_, by rw [hstep.allocator]; exact hpages⟩, hstep⟩
  intro j hj
  by_cases hji : j = i
  · subst hji
    rw [hheader'.2.2]
    exact hhot j hj
  · rw [hstep.slotPage hji]
    exact hhot j hj

/-- A child split below its parent leaves a consistent state. -/
theorem FullChild.consistent (hf : FullChild R s i k c)
    (h : Consistent R s F) (ha : F a = none) (hnull : a ≠ .null)
    (hready : Ready True R' s' (splitForest F s i k c a))
    (hrooted : ∃ r, Rooted R' s' r) (hroot : s'.root = s.root) :
    Consistent R' s' (splitForest F s i k c a) := by
  have hsplit := hf.splittable h ha
  refine ⟨hready, hrooted, ?_, ?_⟩
  · rw [hroot]
    exact hsplit.searchTree h.search hf.room
  · by_contra hsome
    obtain ⟨n, hn⟩ := Option.ne_none_iff_exists'.mp hsome
    rcases Forest.splitBelow_cases hn with ⟨heq, _⟩ | ⟨heq, _⟩ | ⟨heq, _⟩ |
      ⟨_, _, _, hn⟩
    · have := hsplit.parent
      rw [← heq, h.null_free] at this
      cases this
    · exact hnull heq.symm
    · have := hsplit.child
      rw [← heq, h.null_free] at this
      cases this
    · rw [h.null_free] at hn
      cases hn

theorem FullChild.tree (hf : FullChild R s i k c) (h : Tree R s F)
    (ha : F a = none) (hnull : a ≠ .null)
    (hready : Ready True R' s' (splitForest F s i k c a))
    (hrooted : ∃ r, Rooted R' s' r) (hroot : s'.root = s.root)
    (hheight : s'.height = s.height)
    (hleaf : s'.leafNum =
      s.leafNum + if (s.nodeAt c).isLeaf then 1 else 0)
    (hinner : s'.innerNum =
      s.innerNum + if (s.nodeAt c).isLeaf then 0 else 1) :
    Tree R' s' (splitForest F s i k c a) := by
  have hsplit := hf.splittable h.toConsistent ha
  have hcp := hsplit.child_ne_parent h.search.linked
  refine ⟨hf.consistent h.toConsistent ha hnull hready hrooted hroot, ?_, ?_⟩
  · rw [hroot, hleaf, hinner]
    refine h.shape.splitBelow hsplit hcp (by omega) fun _ => ?_
    rw [hf.full]
    omega
  · intro n hn
    rw [hroot] at hn
    rw [hheight]
    rcases Forest.splitBelow_cases hn with ⟨heq, rfl⟩ | ⟨heq, _⟩ | ⟨heq, _⟩ |
      ⟨_, _, _, hn⟩
    · rw [Node.level_insertChild]
      exact h.height (heq ▸ hsplit.parent)
    · obtain ⟨r, hr, _⟩ := h.search.root_node
      rw [heq, ha] at hr
      cases hr
    · exact absurd ⟨_, _, _, hsplit.parent, heq ▸ hsplit.slot⟩
        h.search.not_child
    · exact h.height hn

theorem FullChild.grown (hf : FullChild R s i k c)
    (h : Consistent R s F) (ha : F a = none) {key : Key}
    (hkey : (s.nodeAt c).Covers key) :
    Grown key F (splitForest F s i k c a) := by
  have hsplit := hf.splittable h ha
  have hne := hsplit.child_ne_parent h.search.linked
  have hhalves := hsplit.halves (z := .null) hne
  exact ⟨⟨fun _ _ => hsplit.stored_iff hne,
    hhalves.regrown h.search hkey hf.full⟩,
    hsplit.weigh_credit hne hf.full,
    .single ⟨_, _, _, _, h.search, hhalves, hkey, hf.full⟩⟩

/-- What a split below a parent leaves. -/
structure SplitBelow (F : TreeForest) (R : Set ℕ) (s : State) (i k c : ℕ)
    (R' : Set ℕ) (s' : State) : Prop where
  ready : Ready True R' s' (splitForest F s i k c s.backend.alloc.1)
  rooted : ∀ r, Rooted R s r → Rooted R' s' r
  parent : i ∈ R'
  addr : s'.addr i = s.addr i
  root : s'.root = s.root
  height : s'.height = s.height
  leafNum : s'.leafNum = s.leafNum + if (s.nodeAt c).isLeaf then 1 else 0
  innerNum : s'.innerNum = s.innerNum + if (s.nodeAt c).isLeaf then 0 else 1
  curOffset : s'.backend.curOffset = s.backend.alloc.2.curOffset
  capacity : s'.backend.capacityBytes = s.backend.capacityBytes

section Programs

variable {C : Contract State Halt Event}

theorem FullChild.allocated (hf : FullChild R s i k c)
    (h : Consistent R s F) :
    Allocated s F s.backend.alloc.1 s.backend.alloc.2 :=
  h.ready.settled.backed.allocated h.null_free
    (h.ready.settled.cached.shown hf.child)

theorem FullChild.cuttable (hf : FullChild R s i k c)
    (h : Consistent R s F) (htype : (s.slotPage c).type = .btreeInner) :
    Cuttable R s F c (.slot i) :=
  ⟨hf.child, htype, by rw [hf.full]; omega,
    h.search.sound (h.ready.settled.cached.shown hf.child), (hf.tagged h).2⟩

/-- An inner child is split below its parent. -/
theorem FullChild.splitInner_meets (hf : FullChild R s i k c) (hC : Splits C)
    (hspare : Affords C 1 s) (h : Consistent R s F)
    (htype : (s.slotPage c).type = .btreeInner) :
    Meets C (splitInnerChild (.slot i) (.slot c)) s fun _ s' =>
      s.backend.hasRoom = true ∧ ∃ R', SplitBelow F R s i k c R' s' := by
  have ha := hf.allocated h
  have hleaf : (s.nodeAt c).isLeaf = false := by
    rw [State.nodeAt, Page.node_of_inner htype]
    rfl
  refine splitInnerChild_meets hC hspare h.ready h.null_free
    (hf.cuttable h htype) (fun heq => by cases heq) ?_
  intro R' v u hdone hroom
  obtain ⟨hi, hiv, hheader⟩ := hdone.above i rfl
  rw [if_neg (by simp)]
  have hui : (u.slotPage i).count.toNat < 59 := by
    rw [hheader.count, ← Page.node_size (w := s.addressOf)
      (h.ready.settled.cached.formed hf.parent)]
    exact hf.room
  apply insertIntoInner_meets hC.base hui
  have htagged : (ChildSlot.swizzled (.slot v)).tagged = {v} := by
    ext j
    simp [ChildSlot.tagged, eq_comm]
  have hpages : 0 < u.allocator.pageNum := by
    rw [hdone.steady.pageNum]
    exact h.ready.pages
  have haddr : u.addressOf (.swizzled (.slot v)) = s.backend.alloc.1 :=
    hdone.addr
  obtain ⟨hready, hstep⟩ := hf.hook h ha.fresh
    (htagged ▸ hdone.coherent) hi hheader hdone.hot hpages haddr
    ⟨v, hdone.sibling, rfl, hdone.siblingParent⟩ rfl
  have hsteady := hdone.steady
  refine ⟨hroom, R', hready, ?_, hi, ?_, ?_, ?_, ?_, ?_, ?_, ?_⟩
  · intro r hr
    have hrc : r ≠ c := by
      rintro rfl
      have := (hf.tagged h).2
      rw [hr.parent] at this
      cases this
    obtain ⟨hr', hheaderR⟩ := hdone.top r hr.mem hrc hr.parent
    exact (hr.of_header hr' hdone.super hheaderR hsteady.root).rewriting hstep
      rfl
  · rw [hstep.addr]
    exact hheader.remoteAddress
  · exact hsteady.root
  · exact hsteady.height
  · rw [hleaf]
    exact hsteady.leafNum
  · rw [hleaf]
    exact hsteady.innerNum
  · exact hsteady.curOffset
  · exact hsteady.capacity.trans InMemoryBackend.capacityBytes_alloc

/-- A leaf child is split below its parent, and the sibling is loaded. -/
theorem FullChild.splitLeaf_meets (hf : FullChild R s i k c)
    (hC : Tolerates True ∅ C) (hspare : Affords C 1 s) (h : Consistent R s F)
    (htype : (s.slotPage c).type = .btreeLeaf) :
    Meets C (splitLeafChild (.slot i) k (.slot c)) s fun _ s' =>
      s.backend.hasRoom = true ∧ ∃ R', SplitBelow F R s i k c R' s' := by
  have ha := hf.allocated h
  have hcached := h.ready.settled.cached
  have hsplit := hf.splittable h ha.fresh
  have hformed := hcached.formed hf.child
  have hleaf : (s.nodeAt c).isLeaf = true :=
    (Page.node_isLeaf hformed).mpr htype
  have hsize : 4 ≤ (s.nodeAt c).size := by
    rw [hf.full]
    omega
  have hcut := coherent_leafCutState h.ready h.null_free hf.child htype hsize
    (h.search.sound hsplit.child)
  have hcutStep := rewriting_leafCutState (h.ready.hot c hf.child)
  have hic : i ≠ c := by
    rintro rfl
    exact hsplit.child_ne_parent h.search.linked rfl
  have hpageI : (leafCutState s c).slotPage i = s.slotPage i :=
    hcutStep.slotPage hic
  have hhot : ∀ j ∈ R, ((leafCutState s c).slotPage j).posState = .hot := by
    intro j hj
    by_cases hjc : j = c
    · subst hjc
      rw [slotPage_leafCutState_self]
      exact h.ready.hot j hj
    · rw [hcutStep.slotPage hjc]
      exact h.ready.hot j hj
  refine splitLeafChild_meets hC hspare hformed htype hsize fun hroom => ?_
  rw [if_neg (by simp)]
  apply Meets.bind
  apply insertIntoInner_meets hC
  · rw [hpageI, ← Page.node_size (w := s.addressOf)
      (hcached.formed hf.parent)]
    exact hf.room
  have hremote : (ChildSlot.remote s.backend.alloc.1).tagged = ∅ := by
    ext j
    simp [ChildSlot.tagged]
  have hhook : Hookable R (leafCutState s c) i
      (.remote s.backend.alloc.1) := by
    intro j hj haddr
    rw [hcutStep.addrs] at haddr
    have := hcached.shown hj
    rw [haddr, ha.fresh] at this
    cases this
  obtain ⟨hready, hstep⟩ := hf.hook h
    ha.fresh (by rw [hremote]; exact hcut) hf.parent
    (by rw [hpageI]; exact .refl _) hhot h.ready.pages rfl hhook rfl
  generalize ht : (leafCutState s c).setPage (.slot i) _ = t at hready hstep
  have htree : t.root = s.root ∧ t.height = s.height ∧
      t.leafNum = s.leafNum + 1 ∧ t.innerNum = s.innerNum := by
    rw [← ht]
    exact ⟨rfl, rfl, rfl, rfl⟩
  have hback : t.backend.curOffset = s.backend.alloc.2.curOffset ∧
      t.backend.capacityBytes = s.backend.capacityBytes := by
    rw [← ht]
    simp [leafCutState]
  have hti : t.addr i = s.addr i := (hstep.addrs i).trans (hcutStep.addrs i)
  have hchild : (t.nodeAt i).children[k + 1]? = some s.backend.alloc.1 := by
    have hshown := hready.settled.cached.shown hf.parent
    rw [hti, splitForest, Forest.splitBelow_parent, Option.some.injEq]
      at hshown
    rw [← hshown]
    exact Node.children_insertChild_self hf.slot _ _
  apply Meets.bind
  refine (loadChild_meets hC hready hf.parent hchild).mono ?_
  rintro q s' ⟨R', v, rfl, hload⟩
  have hsteady := hload.retains.steady
  refine meets_pure ⟨hroom, R', hload.ready, ?_, hload.parent, ?_, ?_, ?_, ?_,
    ?_, ?_, ?_⟩
  · intro r hr
    have hmid := (hr.rewriting hcutStep rfl).rewriting hstep
      (htree.1.trans rfl)
    exact hmid.retains hload.retains
  · rw [State.addr, hload.header.remoteAddress]
    exact hti
  · rw [hsteady.root, htree.1]
  · rw [hsteady.height, htree.2.1]
  · rw [hsteady.leafNum, htree.2.2.1, hleaf]
    rfl
  · rw [hsteady.innerNum, htree.2.2.2, hleaf]
    rfl
  · rw [hsteady.curOffset, hback.1]
  · rw [hsteady.capacity, hback.2]

end Programs

end Below

/-! ## At the root -/

section Root

variable {R R' : Set ℕ} {s s' u : State} {F : TreeForest} {c : ℕ}
  {a : GlobalAddress} {right : ChildSlot} {C : Contract State Halt Event}

/-- The forest after the root in slot `c` was split under a root at `b`. -/
def grownForest (F : TreeForest) (s : State) (c : ℕ) (a b : GlobalAddress) :
    TreeForest :=
  F.splitRoot .null (s.addr c) (s.nodeAt c) a b

/-- What the split of a root leaves: a new root with one separator. -/
structure RootGrown (F : TreeForest) (s : State) (c : ℕ) (a b : GlobalAddress)
    (R' : Set ℕ) (w : ℕ) (s' : State) : Prop where
  split : Forest.RootSplit F (s.addr c) (s.nodeAt c) a b
  ne_null : a ≠ .null ∧ b ≠ .null
  ready : Ready True R' s' (grownForest F s c a b)
  rooted : Rooted R' s' w
  root : s'.root = b
  height : s'.height = (s.nodeAt c).level + 2
  count : (s'.slotPage w).count = 1
  curOffset : s'.backend.curOffset = s.backend.curOffset + 2 * pageSize
  capacity : s'.backend.capacityBytes = s.backend.capacityBytes

/-- Both halves of the old root are in place and the new root is built. -/
theorem makeNewRoot_grows (hC : Tolerates True ∅ C) (hspare : Affords C 1 u)
    (h : Consistent R s F) (hr : Rooted R s c)
    (hfull : (s.nodeAt c).size = 59) (hlevel : (s.nodeAt c).level + 1 < 255)
    (ha : F a = none) (hanull : a ≠ .null)
    (hu : Settled True R' u (halved F (s.addr c) (s.nodeAt c) a))
    (hc : c ∈ R') (hparent : (u.slotPage c).parentPtr = some .superRoot)
    (haddr : u.addr c = s.addr c)
    (hhot : ∀ j ∈ R', (u.slotPage j).posState = .hot)
    (hpages : 0 < u.allocator.pageNum)
    (hright : ∀ q, right = .swizzled q → ∃ v ∈ R', q = .slot v ∧
      (u.slotPage v).parentPtr = some .superRoot)
    (hbeside : ∀ b, right = .remote b → ∀ j ∈ R', u.addr j ≠ b)
    (hra : u.addressOf right = a)
    (hcur : u.backend.curOffset = s.backend.curOffset + pageSize)
    (hcapacity : u.backend.capacityBytes = s.backend.capacityBytes)
    {level : UInt8} (hlv : level.toNat = (s.nodeAt c).level + 1) :
    Meets C (makeNewRoot (s.nodeAt c).splitKey (.slot c) right level) u
      fun _ s' => ∃ b R'' w, RootGrown F s c a b R'' w s' ∧
        s'.leafNum = u.leafNum ∧ s'.innerNum = u.innerNum + 1 := by
  have hshown := h.ready.settled.cached.shown hr.mem
  have hroot : s.addr c = s.root := hr.addr
  have hcnull : s.addr c ≠ .null := by
    intro heq
    rw [heq, h.null_free] at hshown
    cases hshown
  have hca : s.addr c ≠ a := by
    rintro rfl
    rw [hshown] at ha
    cases ha
  have hhalves : halved F (s.addr c) (s.nodeAt c) a a =
      some ((s.nodeAt c).splitRight .null) := Function.update_self ..
  have hunull : halved F (s.addr c) (s.nodeAt c) a .null = none := by
    rw [halved, Function.update_of_ne hanull.symm,
      Function.update_of_ne hcnull.symm, h.null_free]
  have hplaced := hu.backed.allocated hunull hhalves
  refine (makeNewRoot_meets hC hspare hpages hc hparent hright
    hu.allocated).mono ?_
  rintro _ s' ⟨R'', w, t, g, hw, hroom, hkeeps, hcoht, hnew, hroot', hheight,
    hleafNum, hinnerNum⟩
  have hoffset := InMemoryBackend.curOffset_alloc hroom
  have hbnull := alloc_ne_null hu.backed hhalves hroom
  generalize u.backend.alloc.1 = b at hplaced hbnull hnew hroot' hkeeps
  have hsteady := hkeeps.steady
  have hkept : ∀ j, j ∈ R' → (u.slotPage j).parentPtr = some .superRoot →
      j ∈ R'' := fun j hj hpar => hkeeps.kept hj (Or.inr (Or.inl hpar))
  have hcR : c ∈ R'' := hkept c hc hparent
  have htaddr : ∀ {j}, j ∈ R'' → t.addr j = u.addr j := fun hj =>
    (hkeeps.header hj).remoteAddress
  have hba : a ≠ b := by
    rintro rfl
    have := hplaced.fresh
    rw [hhalves] at this
    cases this
  have hbc : s.addr c ≠ b := by
    rintro rfl
    have := hplaced.fresh
    rw [halved, Function.update_of_ne hca, Function.update_self] at this
    cases this
  have hbfresh : F b = none := by
    have := hplaced.fresh
    rwa [halved, Function.update_of_ne hba.symm,
      Function.update_of_ne hbc.symm] at this
  have hsplit : Forest.RootSplit F (s.addr c) (s.nodeAt c) a b :=
    ⟨hshown, hroot ▸ h.search.not_child, by rw [hfull]; omega, ha, hbfresh,
      hba⟩
  obtain ⟨r, hrn, hlo, hhi⟩ := h.search.root_node
  rw [← hroot, hshown, Option.some.injEq] at hrn
  rw [← hrn] at hlo hhi
  have hbesideT : Beside R'' t right := by
    cases hrt : right with
    | remote x =>
        intro j hj
        rw [htaddr hj]
        exact hbeside x hrt j (hkeeps.sub hj)
    | swizzled q =>
        obtain ⟨v, hv, rfl, hpar⟩ := hright q hrt
        exact ⟨v, hkept v hv hpar, rfl⟩
  have hrat : t.addressOf right = a := by
    rw [← hra]
    cases hrt : right with
    | remote x => rfl
    | swizzled q =>
        obtain ⟨v, hv, rfl, hpar⟩ := hright q hrt
        exact htaddr (hkept v hv hpar)
  have hsearch : SearchTree (grownForest F s c a b) 59 b := by
    refine hsplit.searchTree ?_ (by omega)
    rw [hroot]
    exact h.search
  have hdone := hcoht.reroot hw hnew hcR hbesideT
    formed_newRootPage slots_newRootPage (by rw [newRootPage_eq]; rfl)
    hplaced.fresh
    (n := .inner ((s.nodeAt c).level + 1) (s.nodeAt c).lo (s.nodeAt c).hi
      [(s.nodeAt c).splitKey] [s.addr c, a]) ?_
    (hsplit.linked_splitRoot h.search.linked) hlevel ?_ ?_
  rotate_left
  · rw [node_newRootPage, hlv, hrat, hlo, hhi]
    have : t.addressOf (.swizzled (.slot c)) = s.addr c :=
      (htaddr hcR).trans haddr
    rw [this]
  · intro _
    exact (hsearch.sound Forest.splitRoot_root).ordered.imp le_of_lt
  · exact hplaced.placed.congr hsteady.curOffset.symm.le hsteady.capacity
  have hnotSelf : ChildSlot.swizzled (.slot w) ∉ (g.slotPage w).slots := by
    rw [hnew.root]
    change _ ∉ (newRootPage _ _ _ _ _).slots
    rw [slots_newRootPage]
    intro hmem
    simp only [List.mem_cons, ChildSlot.swizzled.injEq, PagePtr.slot.injEq,
      List.not_mem_nil, or_false] at hmem
    rcases hmem with rfl | heq
    · exact hw hcR
    · rw [← heq] at hbesideT
      obtain ⟨v, hv, hvw⟩ := hbesideT
      obtain rfl : w = v := by simpa using hvw
      exact hw hv
  have hpageW : s'.slotPage w = { newRootPage b level (s.nodeAt c).splitKey
      (.slot c) right with
        posState := .hot, dirty := true, parentPtr := some .superRoot } := by
    rw [hnew.turning.page, if_neg hnotSelf, hnew.root]
  refine ⟨b, insert w R'', w, ⟨hsplit, ⟨hanull, hbnull⟩, ⟨hdone, ?_, ?_⟩,
    ⟨Or.inl rfl, ?_, ?_, ?_⟩, hroot', ?_, ?_, ?_, ?_⟩, hleafNum, hinnerNum⟩
  · rintro j (rfl | hj)
    · rw [hpageW]
    · have hjw : j ≠ w := fun heq => hw (heq ▸ hj)
      rw [hnew.turning.posState, hnew.placing.slotPage hjw,
        (hkeeps.header hj).posState]
      exact hhot j (hkeeps.sub hj)
  · rw [hnew.turning.allocator, hnew.placing.allocator, hsteady.pageNum]
    exact hpages
  · rw [hnew.super]
    simp [Page.child, Page.setChild]
  · rw [hpageW]
  · rw [State.addr, hpageW, hroot', newRootPage_eq]
    rfl
  · rw [hheight, hlv]
  · rw [hpageW, newRootPage_eq]
  · rw [hnew.turning.backend, hnew.placing.backend, hsteady.curOffset]
    change u.backend.alloc.2.curOffset = _
    rw [hoffset, hcur]
    omega
  · rw [hnew.turning.backend, hnew.placing.backend, hsteady.capacity]
    change u.backend.alloc.2.capacityBytes = _
    rw [InMemoryBackend.capacityBytes_alloc, hcapacity]

/-- A root that is a leaf is split. -/
theorem splitLeafRoot_meets (hC : Tolerates True ∅ C) (hspare : Affords C 2 s)
    (h : Consistent R s F) (hr : Rooted R s c)
    (hfull : (s.nodeAt c).size = 59) (hleaf : (s.slotPage c).type = .btreeLeaf)
    (idx : ℕ) :
    Meets C (splitLeafChild .superRoot idx (.slot c)) s fun _ s' =>
      ∃ a b R' w, RootGrown F s c a b R' w s' ∧
        s'.leafNum = s.leafNum + 1 ∧ s'.innerNum = s.innerNum + 1 := by
  have hcached := h.ready.settled.cached
  have hshown := hcached.shown hr.mem
  have hformed := hcached.formed hr.mem
  have hsize : 4 ≤ (s.nodeAt c).size := by
    rw [hfull]
    omega
  have ha := h.ready.settled.backed.allocated h.null_free hshown
  have hlevel : (s.nodeAt c).level = 0 :=
    Node.level_eq_zero_of_isLeaf ((Page.node_isLeaf hformed).mpr hleaf)
  have hstep := rewriting_leafCutState (h.ready.hot c hr.mem)
  have hcut := coherent_leafCutState h.ready h.null_free hr.mem hleaf hsize
    (h.search.sound hshown)
  have hfree : ¬ F.IsChild (s.addr c) := by
    rw [hr.addr]
    exact h.search.not_child
  have hsettled : Settled True R (leafCutState s c)
      (halved F (s.addr c) (s.nodeAt c) s.backend.alloc.1) := by
    refine hcut.moor ?_
    rintro d hd rfl
    exact hfree ((Forest.Linked.isChild_split hshown ha.fresh).mp hd)
  refine splitLeafChild_meets hC hspare hformed hleaf hsize fun hroom => ?_
  rw [if_pos rfl]
  have hanull := alloc_ne_null h.ready.settled.backed hshown hroom
  have hcur : (leafCutState s c).backend.curOffset =
      s.backend.alloc.2.curOffset := by simp [leafCutState]
  have hcapacity : (leafCutState s c).backend.capacityBytes =
      s.backend.capacityBytes := by simp [leafCutState]
  refine (makeNewRoot_grows hC (hspare.alloc hcur hcapacity) h hr hfull
    (by omega) ha.fresh hanull hsettled hr.mem
    (hstep.parentPtr.trans hr.parent) hstep.addr ?_ h.ready.pages (by simp) ?_
    rfl (hcur.trans (InMemoryBackend.curOffset_alloc hroom)) hcapacity
    (by rw [hlevel]; rfl)).mono ?_
  · intro j hj
    by_cases hjc : j = c
    · subst hjc
      rw [slotPage_leafCutState_self]
      exact h.ready.hot j hj
    · rw [hstep.slotPage hjc]
      exact h.ready.hot j hj
  · intro b hb j hj heq
    obtain rfl : s.backend.alloc.1 = b := by simpa using hb
    rw [hstep.addrs] at heq
    have := hcached.shown hj
    rw [heq, ha.fresh] at this
    cases this
  · rintro _ s' ⟨b, R', w, hgrown, hleafNum, hinnerNum⟩
    exact ⟨_, b, R', w, hgrown, hleafNum, hinnerNum⟩

/-- A root that is an inner page is split. -/
theorem splitInnerRoot_meets (hC : Splits C) (hspare : Affords C 2 s)
    (h : Consistent R s F) (hr : Rooted R s c)
    (hfull : (s.nodeAt c).size = 59) (hlevel : (s.nodeAt c).level + 1 < 255)
    (hinner : (s.slotPage c).type = .btreeInner) :
    Meets C (splitInnerChild .superRoot (.slot c)) s fun _ s' =>
      ∃ a b R' w, RootGrown F s c a b R' w s' ∧
        s'.leafNum = s.leafNum ∧ s'.innerNum = s.innerNum + 2 := by
  have hcached := h.ready.settled.cached
  have hshown := hcached.shown hr.mem
  have ha := h.ready.settled.backed.allocated h.null_free hshown
  have hfree : ¬ F.IsChild (s.addr c) := by
    rw [hr.addr]
    exact h.search.not_child
  have hcut : Cuttable R s F c .superRoot :=
    ⟨hr.mem, hinner, by rw [hfull]; omega, h.search.sound hshown, hr.parent⟩
  refine splitInnerChild_meets hC hspare h.ready h.null_free hcut
    (fun _ => hfree) ?_
  intro R' v u hdone hroom
  rw [if_pos rfl]
  have hanull := alloc_ne_null h.ready.settled.backed hshown hroom
  have hsettled : Settled True R' u
      (halved F (s.addr c) (s.nodeAt c) s.backend.alloc.1) := by
    refine (hdone.coherent.moor ?_).anchor hdone.siblingParent ?_
    · rintro d _ ⟨_, hne⟩
      exact hne rfl
    · rw [hdone.addr, halved, Forest.Linked.isChild_split hshown ha.fresh]
      exact h.search.linked.not_isChild_of_fresh ha.fresh
  have hsteady := hdone.steady
  have hlv : ((s.slotPage c).level + 1).toNat = (s.nodeAt c).level + 1 := by
    have hnode := hcached.level_nodeAt hr.mem
    rw [UInt8.toNat_add]
    change ((s.slotPage c).level.toNat + 1) % 2 ^ 8 = _
    omega
  have haddr : u.addressOf (.swizzled (.slot v)) = s.backend.alloc.1 :=
    hdone.addr
  have hcapacity : u.backend.capacityBytes = s.backend.capacityBytes :=
    hsteady.capacity.trans InMemoryBackend.capacityBytes_alloc
  refine (makeNewRoot_grows hC.base
    (hspare.alloc hsteady.curOffset hcapacity) h hr hfull hlevel ha.fresh
    hanull hsettled hdone.page (hdone.header.parentPtr.trans hr.parent)
    hdone.header.remoteAddress hdone.hot
    (by rw [hsteady.pageNum]; exact h.ready.pages) ?_ (by simp) haddr
    (hsteady.curOffset.trans (InMemoryBackend.curOffset_alloc hroom))
    hcapacity hlv).mono ?_
  · intro q hq
    exact ⟨v, hdone.sibling, by simpa using hq.symm, hdone.siblingParent⟩
  · rintro _ s' ⟨b, R'', w, hgrown, hleafNum, hinnerNum⟩
    refine ⟨_, b, R'', w, hgrown, hleafNum.trans hsteady.leafNum, ?_⟩
    rw [hinnerNum, hsteady.innerNum]
    rfl

theorem RootGrown.consistent {a b : GlobalAddress} {w : ℕ}
    (hg : RootGrown F s c a b R' w s') (h : Consistent R s F)
    (hr : Rooted R s c) :
    Consistent R' s' (grownForest F s c a b) := by
  refine ⟨hg.ready, ⟨w, hg.rooted⟩, ?_, ?_⟩
  · rw [hg.root]
    refine hg.split.searchTree ?_ (by omega)
    rw [hr.addr]
    exact h.search
  · by_contra hsome
    obtain ⟨n, hn⟩ := Option.ne_none_iff_exists'.mp hsome
    rcases Forest.splitRoot_cases hn with ⟨heq, _⟩ | ⟨heq, _⟩ | ⟨heq, _⟩ |
      ⟨_, _, _, hn⟩
    · exact hg.ne_null.2 heq.symm
    · exact hg.ne_null.1 heq.symm
    · have := hg.split.root
      rw [← heq, h.null_free] at this
      cases this
    · rw [h.null_free] at hn
      cases hn

/-- A grown root is the root of a tree of the next height. -/
theorem RootGrown.tree {a b : GlobalAddress} {w : ℕ}
    (hg : RootGrown F s c a b R' w s') (h : Tree R s F) (hr : Rooted R s c)
    (hfull : (s.nodeAt c).size = 59)
    (hleaf : s'.leafNum =
      s.leafNum + if (s.nodeAt c).isLeaf then 1 else 0)
    (hinner : s'.innerNum =
      s.innerNum + (if (s.nodeAt c).isLeaf then 0 else 1) + 1) :
    Tree R' s' (grownForest F s c a b) := by
  refine ⟨hg.consistent h.toConsistent hr, ?_, ?_⟩
  · rw [hg.root, hleaf, hinner]
    have hshape := h.shape
    rw [← hr.addr] at hshape
    refine hshape.splitRoot hg.split (by omega) fun _ => ?_
    rw [hfull]
    omega
  · intro n hn
    rw [hg.root, grownForest, Forest.splitRoot_root, Option.some.injEq] at hn
    rw [← hn, hg.height]
    rfl

theorem RootGrown.grown {a b : GlobalAddress} {w : ℕ}
    (hg : RootGrown F s c a b R' w s') (h : Tree R s F) (hr : Rooted R s c)
    (hfull : (s.nodeAt c).size = 59) (key : Key) :
    Grown key F (grownForest F s c a b) := by
  obtain ⟨n, hn, hkey⟩ := SearchTree.covers_root h.search key
  rw [← hr.addr, hg.split.root, Option.some.injEq] at hn
  subst hn
  have hhalves := hg.split.halves (z := .null)
  exact ⟨⟨fun _ _ => hg.split.stored_iff,
    hhalves.regrown h.search hkey hfull⟩,
    hg.split.weigh_credit hfull,
    .single ⟨_, _, _, _, h.search, hhalves, hkey, hfull⟩⟩

/-- A tree over 64-bit keys stays far below the levels a byte can count. -/
theorem Tree.level_lt (h : Tree R s F) {a : GlobalAddress} {n : TreeNode}
    (hn : F a = some n) : n.level < 64 := by
  have hrank : StrictMono (UInt64.toNat : Key → ℕ) :=
    fun _ _ hlt => UInt64.lt_iff_toNat_lt.mp hlt
  have hle := h.search.two_pow_level_le h.shape.keys_ne_nil hrank n.level hn
    rfl
  have hhi := n.hi.toNat_lt
  by_contra hge
  have hpow : 2 ^ 64 ≤ 2 ^ n.level :=
    Nat.pow_le_pow_right (by omega) (not_lt.mp hge)
  omega

/-! ## Room in the backend -/

/-- As many nodes as a tree with so many leaves can have. -/
def nodesFor (leaves : ℕ) : ℕ :=
  leaves + (1 + (leaves - 2) / 28)

/-- The backend has handed out one page for each node, after the null page. -/
def Packed (s : State) : Prop :=
  s.backend.curOffset = pageSize * (1 + (s.leafNum + s.innerNum))

/-- The leaves have a credit of at most `N`.  Unless allocations succeed
anyway, the backend is large enough for every such tree. -/
structure Within (C : Contract State Halt Event) (N : ℕ) (F : TreeForest)
    (s : State) : Prop where
  credit : leafCredit F ≤ N
  packed : C.rely .allocFailed → Packed s
  room : C.rely .allocFailed →
    pageSize * (1 + nodesFor (N / 29)) ≤ s.backend.capacityBytes

theorem Within.affords {N n : ℕ} (h : Within C N F s)
    (hle : s.leafNum + s.innerNum + n ≤ nodesFor (N / 29)) :
    Affords C n s := by
  intro hrely
  have hmul := Nat.mul_le_mul_left pageSize
    (show 1 + (s.leafNum + s.innerNum) + n ≤ 1 + nodesFor (N / 29) by omega)
  rw [Nat.mul_add] at hmul
  rw [h.packed hrely, Nat.mul_comm n]
  exact hmul.trans (h.room hrely)

/-- Some pages were allocated for as many nodes. -/
theorem Within.step {N n : ℕ} (h : Within C N F s) {F' : TreeForest}
    (hcredit : leafCredit F' ≤ N)
    (hcur : s'.backend.curOffset = s.backend.curOffset + n * pageSize)
    (hcapacity : s'.backend.capacityBytes = s.backend.capacityBytes)
    (hnodes : s'.leafNum + s'.innerNum = s.leafNum + s.innerNum + n) :
    Within C N F' s' where
  credit := hcredit
  packed := by
    intro hrely
    rw [Packed, hcur, hnodes, h.packed hrely]
    ring
  room := by
    rw [hcapacity]
    exact h.room

theorem leaves_le {leafNum innerNum : ℕ} {root : GlobalAddress}
    (h : F.Shape 28 root leafNum innerNum) : leafNum ≤ leafCredit F / 29 := by
  have hle : 29 * leafNum ≤ leafCredit F := h.least_mul_le
  omega

theorem nodesFor_mono {l l' : ℕ} (h : l ≤ l') : nodesFor l ≤ nodesFor l' := by
  unfold nodesFor
  omega

/-- A tree has no more nodes than its number of leaves allows. -/
theorem nodes_le {leafNum innerNum : ℕ} {root : GlobalAddress}
    (h : F.Shape 28 root leafNum innerNum) (hF : SearchTree F 59 root) :
    leafNum + innerNum ≤ nodesFor (leafCredit F / 29) := by
  refine le_trans ?_ (nodesFor_mono (leaves_le h))
  obtain ⟨r, hr, _⟩ := hF.root_node
  unfold nodesFor
  cases hleaf : r.isLeaf with
  | true =>
      obtain ⟨_, hinner⟩ := hF.leaf_root h hr hleaf
      omega
  | false =>
      have hle := hF.inners_le h hr hleaf
      have hkeys := List.length_pos_of_ne_nil (h.keys_ne_nil hr hleaf)
      rw [Node.size_of_inner hleaf] at hle
      omega

/-- There is room for the page a split below a parent takes. -/
theorem FullChild.affords {N i k : ℕ} (hf : FullChild R s i k c)
    (h : Tree R s F) (hN : Within C N F s) : Affords C 1 s := by
  have ha := (hf.allocated h.toConsistent).fresh
  have hsplit := hf.splittable h.toConsistent ha
  have hne := hsplit.child_ne_parent h.search.linked
  have hshape := h.shape.splitBelow (z := .null) hsplit hne (by omega)
    fun _ => by rw [hf.full]; omega
  have hle := nodes_le hshape (hsplit.searchTree h.search hf.room)
  have hcredit : leafCredit (F.splitBelow .null (s.addr i) (s.nodeAt i) k
      (s.addr c) (s.nodeAt c) s.backend.alloc.1) = leafCredit F :=
    hsplit.weigh_credit hne hf.full
  rw [hcredit] at hle
  have hmono := nodesFor_mono (Nat.div_le_div_right (c := 29) hN.credit)
  apply hN.affords
  split_ifs at hle <;> omega

/-- There is room for the two pages a split of the root takes. -/
theorem Tree.affords_root (h : Tree R s F) (hr : Rooted R s c)
    (hfull : (s.nodeAt c).size = 59) {N : ℕ} (hN : Within C N F s) :
    Affords C 2 s := by
  have hshown := h.ready.settled.cached.shown hr.mem
  rw [hr.addr] at hshown
  have hleaves := leaves_le h.shape
  apply hN.affords
  refine le_trans ?_
    (nodesFor_mono (Nat.div_le_div_right (c := 29) hN.credit))
  cases hleaf : (s.nodeAt c).isLeaf with
  | true =>
      -- the only leaf is full, so its halves have been paid for
      obtain ⟨hl, hi⟩ := h.search.leaf_root h.shape hshown hleaf
      have hcredit : 58 ≤ leafCredit F := by
        refine le_trans ?_ (Forest.le_weigh hshown)
        cases hn : s.nodeAt c with
        | inner => simp [hn, Node.isLeaf] at hleaf
        | leaf =>
            rw [hn, Node.size] at hfull
            simp [Forest.credit, hfull]
      have hmono := nodesFor_mono (show 2 ≤ leafCredit F / 29 by omega)
      rw [hl, hi]
      exact hmono
  | false =>
      have hle := h.search.inners_le h.shape hshown hleaf
      refine le_trans ?_ (nodesFor_mono hleaves)
      unfold nodesFor
      omega

/-- A full root is split, and a new root stands above the halves. -/
theorem splitRoot_meets (hC : Tolerates True ∅ C)
    (hinner : (s.nodeAt c).isLeaf = false → Splits C) {N : ℕ}
    (hN : Within C N F s) (h : Tree R s F) (hr : Rooted R s c)
    (hfull : (s.nodeAt c).size = 59) (idx : ℕ) :
    Meets C (splitChild .superRoot idx (.slot c)) s fun _ s' =>
      ∃ R' F' w, Tree R' s' F' ∧ Rooted R' s' w ∧
        (∀ key, Grown key F F') ∧ Within C N F' s' ∧
          (s'.slotPage w).count = 1 := by
  have hcached := h.ready.settled.cached
  have hformed := hcached.formed hr.mem
  have hlevel := h.level_lt (hcached.shown hr.mem)
  have hspare := h.affords_root hr hfull hN
  have hdone : ∀ {a b R' w s'}, RootGrown F s c a b R' w s' →
      s'.leafNum = s.leafNum + (if (s.nodeAt c).isLeaf then 1 else 0) →
      s'.innerNum =
        s.innerNum + (if (s.nodeAt c).isLeaf then 0 else 1) + 1 →
      ∃ R' F' w, Tree R' s' F' ∧ Rooted R' s' w ∧
        (∀ key, Grown key F F') ∧ Within C N F' s' ∧
          (s'.slotPage w).count = 1 := by
    intro a b R' w s' hg hleafNum hinnerNum
    have hgrown := hg.grown h hr hfull
    refine ⟨R', _, w, hg.tree h hr hfull hleafNum hinnerNum, hg.rooted,
      hgrown, ?_, hg.count⟩
    refine hN.step ((hgrown 0).credit.trans_le hN.credit) hg.curOffset hg.capacity ?_
    rw [hleafNum, hinnerNum]
    split_ifs <;> omega
  unfold splitChild
  apply Meets.bind
  apply meets_gets
  apply meets_ite
  · intro hleaf
    have hisLeaf : (s.nodeAt c).isLeaf = true :=
      (Page.node_isLeaf hformed).mpr hleaf
    refine (splitLeafRoot_meets hC hspare h.toConsistent hr hfull hleaf
      idx).mono ?_
    rintro _ s' ⟨a, b, R', w, hg, hleafNum, hinnerNum⟩
    apply hdone hg
    · rw [hleafNum, hisLeaf]
      rfl
    · rw [hinnerNum, hisLeaf]
      rfl
  · intro hnot
    have htype := hformed.typed.resolve_left hnot
    have hisLeaf : (s.nodeAt c).isLeaf = false := by
      rw [State.nodeAt, Page.node_of_inner htype]
      rfl
    refine (splitInnerRoot_meets (hinner hisLeaf) hspare h.toConsistent hr
      hfull (by omega) htype).mono ?_
    rintro _ s' ⟨a, b, R', w, hg, hleafNum, hinnerNum⟩
    apply hdone hg
    · rw [hleafNum, hisLeaf]
      rfl
    · rw [hinnerNum, hisLeaf]
      rfl

end Root

end CachingDex
