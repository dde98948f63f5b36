import CachingDex.SplitSteps

/-!
# The programs of a split

The pieces of which the three kinds of split are made: a new address, a page
placed in a slot obtained from the cache, the parent pointers of its children,
and the insertion into the parent or the new root.  Each lemma describes the
state it leaves in terms of the steps of a split.
-/

namespace CachingDex

open Lib Lib.Traced

/-- The pages the sampler must not draw while an inner page is being split:
the children that moved, and the page itself unless it is the root. -/
def SplitWindow.bad (w : SplitWindow) : Set PagePtr :=
  {q | q ∈ w.moved ∨ (w.isRoot = false ∧ q = w.page)}

/-- The contract under which splits run: the events of each window are judged
by the pages of that window. -/
structure Splits (C : Contract State Halt Event) : Prop where
  base : Tolerates True ∅ C
  window : ∀ w : SplitWindow, Tolerates True w.bad
    ⟨fun e => C.rely (.inSplit w e), fun e => C.guarantee (.inSplit w e),
      C.mayHalt⟩

/-- Allocations succeed, or there is room for `n` of them. -/
def Affords (C : Contract State Halt Event) (n : ℕ) (s : State) : Prop :=
  C.rely .allocFailed →
    s.backend.curOffset + n * pageSize ≤ s.backend.capacityBytes

section Affords

variable {C : Contract State Halt Event} {n : ℕ} {s s' : State}

theorem Affords.hasRoom (h : Affords C (n + 1) s)
    (hrely : C.rely .allocFailed) : s.backend.hasRoom = true := by
  have hle := h hrely
  have hmul : (n + 1) * pageSize = n * pageSize + pageSize := by ring
  rw [InMemoryBackend.hasRoom, decide_eq_true_eq]
  omega

theorem InMemoryBackend.curOffset_alloc {b : InMemoryBackend}
    (hroom : b.hasRoom = true) :
    b.alloc.2.curOffset = b.curOffset + pageSize := by
  rw [InMemoryBackend.alloc, if_pos hroom]

/-- Room for one allocation fewer after one of them. -/
theorem Affords.alloc (h : Affords C (n + 1) s)
    (hcur : s'.backend.curOffset = s.backend.alloc.2.curOffset)
    (hcapacity : s'.backend.capacityBytes = s.backend.capacityBytes) :
    Affords C n s' := by
  intro hrely
  have hle := h hrely
  have hroom := h.hasRoom hrely
  have hmul : (n + 1) * pageSize = n * pageSize + pageSize := by ring
  rw [hcur, hcapacity, InMemoryBackend.curOffset_alloc hroom]
  omega

end Affords

section Pieces

variable {tidy : Prop} {adrift : GlobalAddress → Prop} {loose R : Set ℕ}
  {s : State} {F : TreeForest} {B : Set PagePtr} {C : Contract State Halt Event}

/-- The backend hands out an address where it can afford to. -/
theorem allocAddress_meets {n : ℕ} (hspare : Affords C (n + 1) s)
    {Q : GlobalAddress → State → Prop}
    (hQ : s.backend.hasRoom = true →
      Q s.backend.alloc.1 { s with backend := s.backend.alloc.2 }) :
    Meets C allocAddress s Q := by
  unfold allocAddress
  apply Meets.bind
  apply meets_gets
  apply Meets.bind
  apply meets_onlyIf
  · intro hfull
    apply meets_emit
    intro hrely
    rw [hspare.hasRoom hrely] at hfull
    cases hfull
  · intro hroom
    apply Meets.bind
    apply meets_gets
    apply Meets.bind
    apply meets_modify
    exact meets_pure (hQ (by simpa using hroom))

/-- A page is copied into a slot that was obtained for it. -/
theorem cacheInsert_variable_meets (hC : Tolerates tidy B C)
    (h : Coherent tidy adrift loose ∅ ∅ R s F)
    (hwin : Window B adrift loose R s F) (hpos : 0 < s.allocator.pageNum)
    {a : GlobalAddress} {p : Page} (hbuf : p.remoteAddress = a)
    (parent : PagePtr) :
    Meets C (cacheInsert (.variable a) p parent) s fun q s' =>
      ∃ R' v t, q = .slot v ∧ v ∉ R' ∧ Keeps B R R' s t ∧
        Coherent tidy adrift loose {v} {v} R' t F ∧
        Window B adrift loose R' t F ∧
        s' = { t.setPage (.slot v)
            { p with posState := .pin, parentPtr := some parent } with
          pageTable := (t.pageTable.upsert a (.slot v)).1 } := by
  unfold cacheInsert
  apply Meets.bind
  refine (getEmptyPage_meets hC h hwin hpos).mono ?_
  rintro q t ⟨R', v, rfl, hvR, hkeeps, hcoh, hw⟩
  apply Meets.bind
  apply meets_modify
  apply Meets.bind
  apply upsertPageTable_meets hC
  · rw [State.setPage_self]
    exact hbuf
  · exact meets_pure ⟨R', v, t, rfl, hvR, hkeeps, hcoh, hw, rfl⟩

/-- A fold of adoptions changes parent pointers only. -/
theorem foldl_adopt (q : PagePtr) (words : List ChildSlot) (s : State) :
    ∃ page, words.foldl (.adopt q) s = { s with page := page } ∧
      ∀ p, page p = if ChildSlot.swizzled p ∈ words then
        { s.page p with parentPtr := some q } else s.page p := by
  induction words generalizing s with
  | nil => exact ⟨s.page, rfl, fun p => by simp⟩
  | cons c words ih =>
      obtain ⟨page, hfold, hpage⟩ := ih (s.adopt q c)
      rw [List.foldl_cons, hfold]
      cases c with
      | remote a => exact ⟨page, rfl, fun p => by simp [hpage, State.adopt]⟩
      | swizzled r =>
          refine ⟨page, rfl, fun p => ?_⟩
          rw [hpage]
          by_cases hp : p = r
          · subst hp
            simp [State.adopt]
          · simp [State.adopt, hp]

theorem updateAllParentPtr_meets {v : ℕ}
    (htype : (s.slotPage v).type = .btreeInner) {Q : Unit → State → Prop}
    (hQ : ∀ page, Adopting v s { s with page := page } →
      (ChildSlot.swizzled .superRoot ∉ (s.slotPage v).slots →
        page .superRoot = s.page .superRoot) →
      Q () { s with page := page }) :
    Meets C (updateAllParentPtr (.slot v)) s Q := by
  obtain ⟨page, hfold, hpage⟩ := foldl_adopt (.slot v) (s.slotPage v).slots s
  unfold updateAllParentPtr
  apply Meets.bind
  apply meets_gets
  rw [if_neg (by rw [htype]; simp)]
  apply meets_modify
  rw [← Page.slots_of_inner htype, hfold]
  refine hQ page ⟨fun j => hpage _, ?_, rfl, rfl, rfl, rfl, rfl, rfl⟩ ?_
  · change (page .superRoot).level = _
    rw [hpage]
    split <;> rfl
  · intro hnot
    rw [hpage, if_neg hnot]

theorem insertIntoInner_meets (hC : Tolerates tidy B C) {i : ℕ} {sep : Key}
    {child : ChildSlot} (hroom : (s.slotPage i).count.toNat < 59) {Q : Unit → State → Prop}
    (hQ : Q () (s.setPage (.slot i)
      { BTreeInner.insert (s.slotPage i) sep child with dirty := true })) :
    Meets C (insertIntoInner (.slot i) sep child) s Q := by
  unfold insertIntoInner
  apply Meets.bind
  apply meets_gets
  apply Meets.bind
  refine meets_emit fun hrely =>
    ⟨hC.called hrely (NodeCall.safe_innerInsert hroom), ?_⟩
  apply Meets.bind
  apply meets_check
  · rw [decide_eq_true_eq, UInt8.lt_iff_toNat_lt]
    exact hroom
  · exact meets_modify hQ

/-! ## Cutting a leaf -/

/-- The forest with the node at `c` cut in half, the right half at `a`. -/
def halved (F : TreeForest) (c : GlobalAddress) (n : TreeNode)
    (a : GlobalAddress) : TreeForest :=
  Function.update (Function.update F c (some (n.splitLeft a))) a
    (some (n.splitRight .null))

/-- A leaf gives its upper half to an image in the backend. -/
theorem Coherent.cutLeaf {u : State} {c : ℕ} {a : GlobalAddress}
    {b : InMemoryBackend} (h : Settled True R s F) (hc : c ∈ R)
    (hleaf : (s.slotPage c).type = .btreeLeaf)
    (hsize : 4 ≤ (s.nodeAt c).size) (hsound : (s.nodeAt c).Sound 59)
    (ha : Allocated s F a b) (hstep : Rewriting c s u)
    (hpage : u.slotPage c = (BTreeLeaf.split (s.slotPage c)
      (BTreeLeaf.construct a)).2.1)
    (hbackend : u.backend = b) :
    Coherent True (fun d => d = s.addr c) ∅ ∅ ∅ R
      { u with backend := u.backend.write a (BTreeLeaf.split (s.slotPage c)
        (BTreeLeaf.construct a)).2.2 }
      (halved F (s.addr c) (s.nodeAt c) a) := by
  have hshown := h.cached.shown hc
  have hformed := h.cached.formed hc
  have hcount := hformed.count_le
  have hlow : 4 ≤ (s.slotPage c).count.toNat := by
    rwa [State.nodeAt, Page.node_size hformed] at hsize
  obtain ⟨hleftFormed, hrightFormed⟩ :=
    BTreeLeaf.formed_split hleaf hformed a
  obtain ⟨_, hleft, hright⟩ := BTreeLeaf.split_spec (w := s.addressOf)
    hleaf hcount hlow a
  have halloc := h.alloc ha.store ha.curOffset ha.capacity
  have hmoved : movedSlots s c = ∅ := by
    ext m
    simp [movedSlots, Page.Tags, Page.slots_of_leaf hleaf]
  have hleftSlots : (u.slotPage c).slots = [] := by
    rw [hpage]
    exact Page.slots_of_leaf hleaf
  have hcut := Coherent.shrink (s := { s with backend := b }) (a := a)
    halloc hc hsize
    (fun _ => ((hsound.splitLeft hsize a).ordered).imp le_of_lt)
    ⟨hstep.addr, hstep.parentPtr, hstep.inUse, hstep.other, hstep.allocator,
      hstep.dynamic, hstep.hashTable, hstep.localPageSet, hstep.pageTable⟩
    (by rw [hpage]; exact hleftFormed) (by rw [hpage]; exact hleft)
    (by rw [hleftSlots]
        change [] = (s.slotPage c).slots.take _
        rw [Page.slots_of_leaf hleaf, List.take_nil])
    (by rw [hpage]; rfl) hbackend
  change Coherent True (fun d => d = s.addr c) (movedSlots s c) ∅ ∅ R u
    (Function.update F (s.addr c) (some ((s.nodeAt c).splitLeft a))) at hcut
  rw [hmoved] at hcut
  have hca : a ≠ s.addr c := by
    rintro rfl
    have := hshown.symm.trans ha.fresh
    cases this
  refine hcut.graftImage ?_ ?_ ?_ ?_ ?_ ?_ ?_
  · rw [Function.update_of_ne hca, ha.fresh]
  · exact h.backed.linked.split hshown hsize ha.fresh
  · rw [Node.level_splitRight]
    exact h.backed.level_lt hshown
  · intro _
    exact (hsound.splitRight hsize .null).ordered.imp le_of_lt
  · rw [hbackend]
    exact ha.placed
  · refine ⟨rfl, hrightFormed, ?_, ?_⟩
    · intro x hx
      rw [Page.slots_of_leaf (p := (BTreeLeaf.split _ _).2.2) rfl] at hx
      simp at hx
    · change _ = (s.nodeAt c).splitRight .null
      rw [State.nodeAt, ← hright,
        Page.node_of_leaf (p := (BTreeLeaf.split _ _).2.2) rfl,
        Page.node_of_leaf (p := (BTreeLeaf.split _ _).2.2) rfl]
  · intro j _ hfree
    rw [Forest.Linked.isChild_split hshown ha.fresh]
    rintro ⟨d, m, k, hm, hk⟩
    have hd : d ≠ s.addr c := by
      rintro rfl
      rw [hshown, Option.some.injEq] at hm
      subst hm
      rw [State.nodeAt, Page.node_of_leaf hleaf] at hk
      simp [Node.children] at hk
    exact hfree ⟨d, m, k, by rw [Function.update_of_ne hd, hm], hk⟩

end Pieces

/-! ## A new root -/

section NewRoot

variable {addr : GlobalAddress} {level : UInt8} {sep : Key} {left : PagePtr}
  {right : ChildSlot}

/-- The new root's page, its bitmap spelt out. -/
theorem newRootPage_eq :
    newRootPage addr level sep left right =
      { BTreeInner.construct level addr with
        count := 1
        keys := (BTreeInner.construct level addr).keys.setIfInBounds 0 sep
        children := ((BTreeInner.construct level addr).children.setIfInBounds 0
          (.swizzled left)).setIfInBounds 1 right
        bitmap := if right.isSwizzled then 3#64 else 1#64 } := by
  cases right <;>
    simp [newRootPage, BTreeInner.setBitmap, BTreeInner.construct, Page.zero,
      ChildSlot.isSwizzled]

theorem slots_newRootPage :
    (newRootPage addr level sep left right).slots =
      [.swizzled left, right] := by
  rw [newRootPage_eq]
  rfl

theorem formed_newRootPage :
    (newRootPage addr level sep left right).Formed := by
  refine ⟨?_, ?_, ?_, ?_⟩
  · rw [newRootPage_eq]
    exact Or.inr rfl
  · rw [newRootPage_eq]
    change 1 ≤ 59
    omega
  · rw [newRootPage_eq]
    intro h
    cases h
  · intro i
    rw [slots_newRootPage, newRootPage_eq]
    match i with
    | 0 => cases right <;> simp [ChildSlot.isSwizzled]
    | 1 => cases right <;> simp [ChildSlot.isSwizzled]
    | i + 2 =>
        have hthree : (3#64).getLsbD (i + 2) = false := by
          rw [show (3#64) = BitVec.ofNat 64 (2 ^ 2 - 1) from rfl,
            BitVec.getLsbD_ofNat, Nat.testBit_two_pow_sub_one]
          simp
        cases right <;> simp [ChildSlot.isSwizzled, hthree]

theorem node_newRootPage (w : ChildSlot → GlobalAddress) :
    (newRootPage addr level sep left right).node w =
      .inner level.toNat ⊥ ⊤ [sep]
        [w (.swizzled left), w right] := by
  have htype : (newRootPage addr level sep left right).type = .btreeInner := by
    rw [newRootPage_eq]
    rfl
  rw [Page.node_of_inner htype, slots_newRootPage, newRootPage_eq]
  rfl

/-- What a new root in slot `w` changes in the state `t` where its slot was
found.  On paper the page is placed first, in the state `g`, and then its
children turn to it. -/
structure NewRoot (page : Page) (w : ℕ) (t g s' : State) : Prop where
  placing : Placing w t g
  root : g.slotPage w =
    { page with posState := .hot, dirty := true, parentPtr := some .superRoot }
  turning : Adopting w g s'
  super : s'.page .superRoot =
    { (t.page .superRoot).setChild 0 (.swizzled (.slot w)) with
      bitmap := 0, count := 0 }

section Programs

variable {tidy : Prop} {R : Set ℕ} {s : State} {F : TreeForest}
  {C : Contract State Halt Event}

theorem makeNewRoot_meets (hC : Tolerates tidy ∅ C)
    {n : ℕ} (hspare : Affords C (n + 1) s) (hpos : 0 < s.allocator.pageNum) {c : ℕ} (hc : c ∈ R)
    (hparent : (s.slotPage c).parentPtr = some .superRoot)
    (hright : ∀ q, right = .swizzled q → ∃ v ∈ R, q = .slot v ∧
      (s.slotPage v).parentPtr = some .superRoot)
    (hcoh : Settled tidy R
      { s with backend := s.backend.alloc.2 } F) :
    Meets C (makeNewRoot sep (.slot c) right level) s fun _ s' =>
      ∃ R' w t g, w ∉ R' ∧ s.backend.hasRoom = true ∧
        Keeps ∅ R R'
          { s with
            backend := s.backend.alloc.2
            innerNum := s.innerNum + 1
            root := s.backend.alloc.1 } t ∧
        Coherent tidy (fun _ => False) ∅ {w} {w} R' t F ∧
        NewRoot (newRootPage s.backend.alloc.1 level sep (.slot c) right)
          w t g s' ∧
        s'.root = s.backend.alloc.1 ∧ s'.height = level.toNat + 1 ∧
        s'.leafNum = s.leafNum ∧ s'.innerNum = s.innerNum + 1 := by
  unfold makeNewRoot
  apply Meets.bind
  apply allocAddress_meets hspare
  intro hroom
  apply Meets.bind
  refine meets_emit fun hrely =>
    ⟨hC.called hrely (NodeCall.safe_setBitmap (by omega)), ?_⟩
  apply Meets.bind
  suffices hrest : _ from
    meets_onlyIf (fun _ => meets_emit fun hrely =>
      ⟨hC.called hrely (NodeCall.safe_setBitmap (by omega)), hrest⟩)
      fun _ => hrest
  apply Meets.bind
  apply meets_modify
  generalize hu : ({ s with
    backend := s.backend.alloc.2
    innerNum := s.innerNum + 1
    root := s.backend.alloc.1 } : State) = u
  have hcoh' : Settled tidy R u F := by
    rw [← hu]
    exact hcoh.congr rfl rfl rfl rfl rfl rfl rfl
  have hpage : u.page = s.page := by rw [← hu]
  apply Meets.bind
  refine (cacheInsert_variable_meets hC hcoh' (.none R u F)
    (by rw [← hu]; exact hpos) (a := s.backend.alloc.1)
    (by rw [newRootPage_eq]; rfl) .superRoot).mono ?_
  rintro q t' ⟨R', w, t, rfl, hw, hkeeps, hcoht, _, rfl⟩
  have hanchored : ∀ {j}, j ∈ R →
      (s.slotPage j).parentPtr = some .superRoot → j ≠ w := by
    rintro j hj hpar rfl
    refine hw (hkeeps.kept hj (Or.inr (Or.inl ?_)))
    rw [State.slotPage, hpage]
    exact hpar
  have hcw : c ≠ w := hanchored hc hparent
  have hsteady := hkeeps.steady
  generalize hbuf :
    newRootPage s.backend.alloc.1 level sep (.slot c) right = buf
  have hslots : buf.slots = [.swizzled (.slot c), right] := by
    rw [← hbuf, slots_newRootPage]
  have haddr : buf.remoteAddress = s.backend.alloc.1 := by
    rw [← hbuf, newRootPage_eq]
    rfl
  let page : Page :=
    { buf with posState := .hot, dirty := true, parentPtr := some .superRoot }
  let g : State :=
    { t with
      page := Function.update t.page (.slot w) page
      pageTable := (t.pageTable.upsert s.backend.alloc.1 (.slot w)).1 }
  have hgw : g.slotPage w = page := Function.update_self ..
  have hgo : ∀ {p}, p ≠ .slot w → g.page p = t.page p := fun hp =>
    Function.update_of_ne hp ..
  have hplacing : Placing w t g := by
    refine ⟨hgo, ?_, rfl, rfl, rfl, rfl, ?_, rfl⟩
    · rw [hgw]
      exact Or.inl rfl
    · rw [State.addr, hgw]
      change (t.pageTable.upsert s.backend.alloc.1 _).1 =
        (t.pageTable.upsert buf.remoteAddress _).1
      rw [haddr]
  have hcs : PagePtr.slot c ≠ .slot w := by simpa using hcw
  apply Meets.bind
  apply meets_modify
  apply Meets.bind
  apply meets_modify
  apply Meets.bind
  apply meets_modify
  apply Meets.bind
  apply meets_modify
  apply meets_modify
  generalize hplaced : State.setPage _ .superRoot _ = f
  obtain ⟨pages, hfold, hpages⟩ := foldl_adopt (.slot w) page.slots f
  have hpageSlots : page.slots = [.swizzled (.slot c), right] := hslots
  have hlast : (f.adopt (.slot w) (.swizzled (.slot c))).adopt (.slot w) right =
      { f with page := pages } := by
    rw [← hfold, hpageSlots]
    rfl
  rw [hlast]
  have hother : ∀ {p}, p ≠ .superRoot → f.page p = g.page p := by
    intro p hp
    rw [← hplaced, State.setPage_of_ne hp]
    by_cases hpw : p = .slot w
    · subst hpw
      simp only [State.setPage_self]
      exact hgw.symm
    · rw [State.setPage_of_ne hpw]
      exact (State.setPage_of_ne hpw).trans (hgo hpw).symm
  have hsuper : f.page .superRoot =
      { (t.page .superRoot).setChild 0 (.swizzled (.slot w)) with
        bitmap := 0, count := 0 } := by
    rw [← hplaced, State.setPage_self]
    simp [State.setPage_of_ne]
  have hnotSuper : ChildSlot.swizzled .superRoot ∉ page.slots := by
    rw [hpageSlots]
    intro hmem
    simp only [List.mem_cons, ChildSlot.swizzled.injEq, reduceCtorEq,
      List.not_mem_nil, or_false, false_or] at hmem
    obtain ⟨v, _, hv, _⟩ := hright _ hmem.symm
    cases hv
  have hrest : f.allocator = t.allocator ∧ f.dynamic = t.dynamic ∧
      f.hashTable = t.hashTable ∧ f.localPageSet = t.localPageSet ∧
      f.pageTable = g.pageTable ∧ f.backend = t.backend ∧ Steady t f := by
    rw [← hplaced]
    exact ⟨rfl, rfl, rfl, rfl, rfl, rfl,
      ⟨rfl, rfl, rfl, rfl, rfl, rfl, rfl, id⟩⟩
  obtain ⟨halloc, hdyn, htable, hlocal, hptable, hback, hsteady'⟩ := hrest
  have hall := hsteady.trans hsteady'
  rw [← hu] at hall
  refine ⟨R', w, t, g, hw, hroom, hkeeps, hcoht, ⟨hplacing, hgw, ?_, ?_⟩,
    hall.root, rfl, hall.leafNum, hall.innerNum⟩
  · refine ⟨fun j => ?_, ?_, halloc, hdyn, htable, hlocal, hptable, hback⟩
    · rw [hgw]
      change pages (.slot j) = _
      rw [hpages, hother (by simp)]
    · change (pages .superRoot).level = _
      rw [hpages, if_neg hnotSuper, hsuper, hgo (by simp)]
      rfl
  · change pages .superRoot = _
    rw [hpages, if_neg hnotSuper, hsuper]

end Programs

/-- The word to the right of a new root: the address of a node that is not
resident, or a resident page. -/
def Beside (R : Set ℕ) (s : State) : ChildSlot → Prop
  | .remote a => ∀ j ∈ R, s.addr j ≠ a
  | .swizzled q => ∃ v ∈ R, q = .slot v

/-- The old root and its sibling hang below the new root. -/
theorem Coherent.reroot {tidy : Prop} {R : Set ℕ} {F : TreeForest}
    {t g s' : State} {page : Page} {w c : ℕ} {b : GlobalAddress} {n : TreeNode}
    (h : Coherent tidy (fun _ => False) ∅ {w} {w} R t F) (hw : w ∉ R)
    (hstep : NewRoot page w t g s') (hc : c ∈ R) (hright : Beside R t right)
    (hformed : page.Formed)
    (hslots : page.slots = [.swizzled (.slot c), right])
    (haddr : page.remoteAddress = b) (hfresh : F b = none)
    (hnode : page.node t.addressOf = n)
    (hlinked : Forest.Linked (Function.update F b (some n)) fun _ => False)
    (hlevel : n.level < 255) (hordered : tidy → n.bounds.Pairwise (· ≤ ·))
    (hplaced : Placed t.backend b) :
    Settled tidy (insert w R) s' (Function.update F b (some n)) := by
  have hbody : SameBody page (g.slotPage w) := by
    rw [hstep.root]
    rfl
  have hgaddr : g.addr w = b := hbody.remoteAddress.trans haddr
  have hmem : ∀ {x}, x ∈ (g.slotPage w).slots ↔
      x = .swizzled (.slot c) ∨ x = right := by
    intro x
    rw [hbody.slots, hslots]
    simp
  -- a tagged word of the new root leads to an old resident page
  have htagged : ∀ {q}, ChildSlot.swizzled q ∈ (g.slotPage w).slots →
      ∃ j ∈ R, q = .slot j := by
    intro q hq
    rcases hmem.mp hq with heq | heq
    · exact ⟨c, hc, by simpa using heq⟩
    · rw [← heq] at hright
      exact hright
  have hgraft : Coherent tidy (fun _ => False)
      {j | j = w ∨ ChildSlot.swizzled (.slot j) ∈ (g.slotPage w).slots}
      ∅ ∅ (insert w R) g (Function.update F b (some n)) := by
    refine h.graftPage hw hstep.placing hgaddr ?_ hfresh hlinked hlevel
      hordered hplaced (hbody.formed hformed) ?_ (Set.empty_subset _)
      (Or.inl rfl) ?_ ?_
    · rw [hstep.root]
    · rw [hbody.node, hnode]
    · intro k q hq
      have hq := List.mem_of_getElem? hq
      obtain ⟨j, hj, rfl⟩ := htagged hq
      exact ⟨j, hj, rfl, Or.inr hq⟩
    · rintro j hj hnot hfree ⟨d, m, k, hm, hk⟩
      by_cases hd : d = b
      · subst hd
        rw [Function.update_self, Option.some.injEq] at hm
        subst hm
        rw [← hnode, Page.node_children hformed, hslots] at hk
        have hk := List.mem_of_getElem? hk
        simp only [List.map_cons, List.map_nil, List.mem_cons,
          List.not_mem_nil, or_false] at hk
        rcases hk with heq | heq
        · obtain rfl := h.cached.distinct hj hc heq
          exact hnot (Or.inr (hmem.mpr (Or.inl rfl)))
        · cases right with
          | remote a => exact hright j hj heq
          | swizzled q =>
              obtain ⟨v, hv, rfl⟩ := hright
              obtain rfl := h.cached.distinct hj hv heq
              exact hnot (Or.inr (hmem.mpr (Or.inr rfl)))
      · rw [Function.update_of_ne hd] at hm
        exact hfree ⟨d, m, k, hm, hk⟩
  have hnotSelf : ChildSlot.swizzled (.slot w) ∉ (g.slotPage w).slots := by
    intro hself
    obtain ⟨j, hj, heq⟩ := htagged hself
    obtain rfl : w = j := by simpa using heq
    exact hw hj
  have hturn : Coherent tidy (fun _ => False) {w} ∅ ∅ (insert w R) s'
      (Function.update F b (some n)) := by
    refine hgraft.turn (Or.inl rfl) hstep.turning ?_ ?_
    · intro k j hk
      exact Or.inr (List.mem_of_getElem? hk)
    · rintro j (rfl | hj) hnot
      · exact absurd rfl hnot
      · exact List.getElem?_of_mem hj
  refine hturn.anchor ?_ ?_
  · rw [hstep.turning.page, if_neg hnotSelf, hstep.root]
  · have hsaddr : s'.addr w = b := by
      rw [State.addr, (hstep.turning.sameBody w).remoteAddress]
      exact hgaddr
    rw [hsaddr]
    rintro ⟨d, m, k, hm, hk⟩
    by_cases hd : d = b
    · exact hlinked.child_ne hm hk hd.symm
    · rw [Function.update_of_ne hd] at hm
      exact h.backed.linked.not_isChild_of_fresh hfresh ⟨d, m, k, hm, hk⟩

end NewRoot

end CachingDex
