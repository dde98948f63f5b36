import CachingDex.CoolingSteps

/-!
# Demoting a page

A page without tagged children leaves the tree in four moves: its parent's
word for it becomes an address, its parent pointer is cleared, it is written
back if it is dirty, and it enters the cooling table, which may push the
oldest page of the bucket onto the free list.  `Cut` describes the state
after the first three moves; each group of the coherence conditions survives
them with the page in the hand of the running operation.
-/

namespace CachingDex

open Lib Lib.Traced

/-! ## Pages -/

namespace Page

variable {p : Page} {k : ℕ} {q : PagePtr} {a : GlobalAddress}

/-- The page with its tagged word `k` replaced by an address. -/
def unswizzle (p : Page) (k : ℕ) (a : GlobalAddress) : Page :=
  BTreeInner.unsetBitmap (p.setChild k (.remote a)) k

theorem slots_unswizzle (p : Page) (k : ℕ) (a : GlobalAddress) :
    (p.unswizzle k a).slots = p.slots.set k (.remote a) :=
  slots_setChild (p := p) k (.remote a)

theorem sameHeader_unswizzle (p : Page) (k : ℕ) (a : GlobalAddress) :
    SameHeader p (p.unswizzle k a) := rfl

theorem Tags.of_unswizzle {k' : ℕ} (h : (p.unswizzle k a).Tags k' q) :
    k' ≠ k ∧ p.Tags k' q := by
  rw [Tags, slots_unswizzle, List.getElem?_set] at h
  split_ifs at h with hk
  · simp at h
  · exact ⟨Ne.symm hk, h⟩

theorem Tags.unswizzle {k' : ℕ} (h : p.Tags k' q) (hne : k' ≠ k) :
    (p.unswizzle k a).Tags k' q := by
  rw [Tags, slots_unswizzle, List.getElem?_set_ne (Ne.symm hne)]
  exact h

theorem Tags.lt (h : p.Tags k q) (hp : p.Formed) : k < 60 := by
  have := (le_count_of_slot h).2.1
  have := hp.count_le
  omega

theorem Formed.unswizzle (h : p.Formed) (hk : p.Tags k q)
    (a : GlobalAddress) : (p.unswizzle k a).Formed where
  typed := h.typed
  count_le := h.count_le
  leaf_level := h.leaf_level
  aligned := by
    intro i
    have hlt := hk.lt h
    have hin : k < p.slots.length := (List.getElem?_eq_some_iff.mp hk).1
    rw [slots_unswizzle, List.getElem?_set, Page.unswizzle,
      BTreeInner.getLsbD_unsetBitmap (by omega)]
    change (p.bitmap.getLsbD i && _) = true ↔ _
    by_cases hi : k = i
    · subst hi
      simp [hin]
    · simp [hi, Ne.symm hi, h.aligned]

/-- Without a set bit no child word is tagged. -/
theorem Formed.not_tags (h : p.Formed) (hzero : p.bitmap = 0) : ¬ p.Tags k q :=
  (bitmap_eq_zero_iff h).mp hzero k q

end Page

/-! ## The state after the cut -/

/-- The copy of a page that is written back. -/
def Page.toImage (p : Page) : Page :=
  { p with dirty := false, parentPtr := none, posState := .remote }

/-- Word `k` of slot `j` no longer tags slot `c`, whose page has been
written back. -/
structure Cut (j k c : ℕ) (s s' : State) : Prop where
  steady : Steady s s'
  parent : s'.slotPage j = (s.slotPage j).unswizzle k (s.addr c)
  child : s'.slotPage c =
    { s.slotPage c with parentPtr := none, dirty := false }
  other : ∀ {i}, i ≠ j → i ≠ c → s'.slotPage i = s.slotPage i
  super : s'.page .superRoot = s.page .superRoot
  allocator : s'.allocator = s.allocator
  dynamic : s'.dynamic = s.dynamic
  hashTable : s'.hashTable = s.hashTable
  localPageSet : s'.localPageSet = s.localPageSet
  pageTable : s'.pageTable = s.pageTable
  backend : s'.backend =
    if (s.slotPage c).dirty then
      s.backend.write (s.addr c) (s.slotPage c).toImage
    else s.backend

section Groups

variable {tidy : Prop} {adrift : GlobalAddress → Prop}
  {loose H U R : Set ℕ} {s s' : State} {F : TreeForest} {j k c : ℕ}

theorem Cut.addr (h : Cut j k c s s') (i : ℕ) : s'.addr i = s.addr i := by
  rw [State.addr, State.addr]
  by_cases hc : i = c
  · subst hc
    rw [h.child]
  · by_cases hj : i = j
    · subst hj
      rw [h.parent]
      rfl
    · rw [h.other hj hc]

theorem Cut.posState (h : Cut j k c s s') (i : ℕ) :
    (s'.slotPage i).posState = (s.slotPage i).posState := by
  by_cases hc : i = c
  · subst hc
    rw [h.child]
  · by_cases hj : i = j
    · subst hj
      rw [h.parent]
      rfl
    · rw [h.other hj hc]

theorem Cut.dirty (h : Cut j k c s s') {i : ℕ} (hi : i ≠ c) :
    (s'.slotPage i).dirty = (s.slotPage i).dirty := by
  by_cases hj : i = j
  · subst hj
    rw [h.parent]
    rfl
  · rw [h.other hj hi]

theorem Cut.header (h : Cut j k c s s') {i : ℕ} (hi : i ≠ c) :
    SameHeader (s.slotPage i) (s'.slotPage i) := by
  by_cases hj : i = j
  · subst hj
    rw [h.parent]
    exact Page.sameHeader_unswizzle ..
  · rw [h.other hj hi]
    exact .refl _

theorem Cut.parentPtr (h : Cut j k c s s') {i : ℕ} (hi : i ≠ c) :
    (s'.slotPage i).parentPtr = (s.slotPage i).parentPtr := by
  rw [h.header hi]

/-- A tag after the cut was there before, and is not the one cut. -/
theorem Cut.of_tags (h : Cut j k c s s') {i k' : ℕ} {q : PagePtr}
    (hi : i ≠ c) (hq : (s'.slotPage i).Tags k' q) :
    (s.slotPage i).Tags k' q ∧ (i = j → k' ≠ k) := by
  by_cases hj : i = j
  · subst hj
    rw [h.parent] at hq
    exact ⟨hq.of_unswizzle.2, fun _ => hq.of_unswizzle.1⟩
  · rw [h.other hj hi] at hq
    exact ⟨hq, fun heq => absurd heq hj⟩

theorem Cut.tags (h : Cut j k c s s') {i k' : ℕ} {q : PagePtr}
    (hi : i ≠ c) (hq : (s.slotPage i).Tags k' q) (hne : i = j → k' ≠ k) :
    (s'.slotPage i).Tags k' q := by
  by_cases hj : i = j
  · subst hj
    rw [h.parent]
    exact hq.unswizzle (hne rfl)
  · rwa [h.other hj hi]

theorem Cut.addressOf (h : Cut j k c s s') (hR : Cached loose R s F) {i : ℕ}
    (hi : i ∈ R) {w : ChildSlot} (hw : w ∈ (s.slotPage i).slots) :
    s'.addressOf w = s.addressOf w := by
  cases w with
  | remote a => rfl
  | swizzled q =>
      obtain ⟨m, hm⟩ := List.getElem?_of_mem hw
      obtain ⟨i', _, rfl, _⟩ := hR.tagged hi hm
      exact h.addr i'

/-- The cut leaves the nodes the pages show. -/
theorem Cut.nodeAt (h : Cut j k c s s') (hR : Cached loose R s F)
    (htag : (s.slotPage j).Tags k (.slot c)) {i : ℕ} (hi : i ∈ R)
    (hne : i ≠ c) : s'.nodeAt i = s.nodeAt i := by
  have haddress : ∀ w ∈ (s.slotPage i).slots,
      s'.addressOf w = s.addressOf w := fun w hw => h.addressOf hR hi hw
  have hformed := hR.formed hi
  by_cases hj : i = j
  · subst hj
    obtain ⟨htype, _, _⟩ := Page.le_count_of_slot htag
    have htype' : ((s.slotPage i).unswizzle k (s.addr c)).type =
        .btreeInner := htype
    rw [State.nodeAt, State.nodeAt, h.parent, Page.node_of_inner htype',
      Page.node_of_inner htype, Page.slots_unswizzle, List.map_set,
      List.map_congr_left haddress]
    have hword : ((s.slotPage i).slots.map s.addressOf)[k]? =
        some (s.addr c) := by
      rw [List.getElem?_map, htag]
      rfl
    obtain ⟨hlt, hget⟩ := List.getElem?_eq_some_iff.mp hword
    have hset : ((s.slotPage i).slots.map s.addressOf).set k (s.addr c) =
        (s.slotPage i).slots.map s.addressOf := by
      rw [← hget, List.set_getElem_self]
    change Node.inner _ _ _ _
      (((s.slotPage i).slots.map s.addressOf).set k (s.addr c)) = _
    rw [hset]
    rfl
  · rw [State.nodeAt, State.nodeAt, h.other hj hne]
    exact Page.node_congr haddress

theorem Pool.cut (h : Pool H R s) (hc : c ∈ R) (hcut : Cut j k c s s') :
    Pool (insert c H) (R \ {c}) s' :=
  (h.take hc).congr hcut.allocator hcut.dynamic hcut.hashTable
    hcut.localPageSet hcut.posState

theorem Mapped.cut (h : Mapped U R s) (hcut : Cut j k c s s') :
    Mapped U (R \ {c}) s' := by
  have hsub : Mapped U (R \ {c}) s :=
    ⟨h.inv, h.maps, fun hi => h.mapped hi.1⟩
  exact hsub.congr (by rw [hcut.allocator]) hcut.pageTable hcut.addr
    fun i hl => by rwa [hcut.posState] at hl

theorem Cached.cut (h : Cached loose R s F) (hF : F.Linked adrift)
    (hj : j ∈ R) (hc : c ∈ R) (htag : (s.slotPage j).Tags k (.slot c))
    (hzero : (s.slotPage c).bitmap = 0) (hcut : Cut j k c s s') :
    Cached loose (R \ {c}) s' F where
  super_level := hcut.super ▸ h.super_level
  formed := by
    rintro i ⟨hi, hne⟩
    by_cases hij : i = j
    · subst hij
      rw [hcut.parent]
      exact (h.formed hi).unswizzle htag _
    · rw [hcut.other hij hne]
      exact h.formed hi
  shown := by
    rintro i ⟨hi, hne⟩
    rw [hcut.addr, hcut.nodeAt h htag hi hne]
    exact h.shown hi
  distinct := by
    rintro i i' ⟨hi, _⟩ ⟨hi', _⟩ heq
    rw [hcut.addr, hcut.addr] at heq
    exact h.distinct hi hi' heq
  tagged := by
    rintro i k' q ⟨hi, hne⟩ hq
    obtain ⟨hq, hold⟩ := hcut.of_tags hne hq
    obtain ⟨i', hi', rfl, hparent⟩ := h.tagged hi hq
    have hne' : i' ≠ c := by
      rintro rfl
      obtain ⟨rfl, rfl⟩ := h.tagged_unique hF hi hj hq htag
      exact hold rfl rfl
    exact ⟨i', ⟨hi', hne'⟩, rfl, by rwa [hcut.parentPtr hne']⟩
  parented := by
    rintro i ⟨hi, hne⟩ hloose
    rw [hcut.addr, hcut.parentPtr hne]
    rcases h.parented hi hloose with htop | ⟨i', hi', hparent, k', hk'⟩
    · exact Or.inl htop
    · have hne' : i' ≠ c := by
        rintro rfl
        exact (h.formed hi').not_tags hzero hk'
      refine Or.inr ⟨i', ⟨hi', hne'⟩, hparent, k', hcut.tags hne' hk' ?_⟩
      rintro rfl rfl
      have := htag.symm.trans hk'
      simp only [Option.some.injEq, ChildSlot.swizzled.injEq,
        PagePtr.slot.injEq] at this
      exact hne this.symm

theorem Backed.cut (h : Backed tidy adrift R s F) (hR : Cached loose R s F)
    (hc : c ∈ R) (hzero : (s.slotPage c).bitmap = 0)
    (hcut : Cut j k c s s') : Backed tidy adrift (R \ {c}) s' F := by
  have hnode := hR.shown hc
  have hplaced := h.placed hnode
  constructor
  · exact h.linked
  · exact h.level_lt
  · exact h.ordered
  · rw [hcut.steady.capacity]
    exact h.capacity_le
  · intro a n hn
    exact (h.placed hn).congr hcut.steady.curOffset.ge hcut.steady.capacity
  · intro a n hn hclean
    by_cases ha : a = s.addr c
    · subst ha
      rw [hnode, Option.some.injEq] at hn
      subst hn
      by_cases hdirty : (s.slotPage c).dirty = true
      · have hformed := hR.formed hc
        have htags : ∀ {w}, w ∈ (s.slotPage c).slots →
            w.isSwizzled = false := by
          intro w hw
          obtain ⟨m, hm⟩ := List.getElem?_of_mem hw
          cases w with
          | remote a => rfl
          | swizzled q => exact absurd hm (hformed.not_tags hzero)
        have himage : Image (s.backend.write (s.addr c)
            (s.slotPage c).toImage) (s.addr c)
              ((s.slotPage c).toImage.node ChildSlot.home) :=
          .of_write hplaced.inRange rfl
            ⟨hformed.typed, hformed.count_le, hformed.leaf_level,
              hformed.aligned⟩ htags
        have hshows : (s.slotPage c).toImage.node ChildSlot.home =
            s.nodeAt c := by
          change (s.slotPage c).node ChildSlot.home = _
          apply Page.node_congr
          intro w hw
          cases w with
          | remote a => rfl
          | swizzled q => simpa [ChildSlot.isSwizzled] using htags hw
        rw [hcut.backend, if_pos hdirty, ← hshows]
        exact himage
      · rw [hcut.backend, if_neg hdirty]
        refine h.image hnode fun i hi ha => ?_
        obtain rfl := hR.distinct hi hc ha
        simpa using hdirty
    · have himage : Image s.backend a n := by
        refine h.image hn fun i hi hia => ?_
        have hne : i ≠ c := by
          rintro rfl
          exact ha hia.symm
        rw [← hcut.dirty hne]
        exact hclean i ⟨hi, hne⟩ ((hcut.addr i).trans hia)
      rw [hcut.backend]
      split
      · exact himage.write_of_ne (h.placed hn) hplaced ha _
      · exact himage
  · intro ht i hi hdirty
    have hne : i ≠ c := by
      rintro rfl
      rw [hcut.child] at hdirty
      cases hdirty
    rw [hcut.allocator] at hi
    rw [hcut.dirty hne] at hdirty
    exact ⟨h.clean ht hi hdirty, hne⟩

theorem Coherent.cut (h : Coherent tidy adrift loose H U R s F) (hj : j ∈ R)
    (hc : c ∈ R) (htag : (s.slotPage j).Tags k (.slot c))
    (hzero : (s.slotPage c).bitmap = 0) (hcut : Cut j k c s s') :
    Coherent tidy adrift loose (insert c H) U (R \ {c}) s' F where
  pool := h.pool.cut hc hcut
  cached := h.cached.cut h.backed.linked hj hc htag hzero hcut
  backed := h.backed.cut h.cached hc hzero hcut
  mapped := h.mapped.cut hcut

/-- The cut only takes away the page it is about. -/
theorem Cut.keeps {B : Set PagePtr} (h : Cut j k c s s')
    (hc : ¬ Anchored B s c) (htag : (s.slotPage j).Tags k (.slot c)) :
    Keeps B R (R \ {c}) s s' where
  steady := h.steady
  super := h.super
  sub := Set.sdiff_subset
  header hi := h.header hi.2
  word := by
    rintro i ⟨_, hne⟩ k'
    by_cases hij : i = j
    · subst hij
      rw [h.parent, Page.slots_unswizzle, List.getElem?_set]
      by_cases hk : k = k'
      · subst hk
        refine Or.inr ⟨_, s.addr c, htag, ?_⟩
        simp [(List.getElem?_eq_some_iff.mp htag).1]
      · exact Or.inl (by rw [if_neg hk])
    · exact Or.inl (by rw [h.other hij hne])
  kept := by
    intro i hi ha
    refine ⟨hi, ?_⟩
    rintro rfl
    exact hc ha

end Groups

/-! ## The programs -/

section Programs

variable {tidy : Prop} {adrift : GlobalAddress → Prop}
  {loose H U R : Set ℕ} {s : State} {F : TreeForest} {B : Set PagePtr}
  {C : Contract State Halt Event}

/-- The state after a page was written back, if it was dirty. -/
def State.writeBack (s : State) (c : ℕ) : State :=
  if (s.slotPage c).dirty then
    { s.setPage (.slot c) { s.slotPage c with dirty := false } with
      backend := s.backend.write (s.addr c) (s.slotPage c).toImage }
  else s

namespace State

/-- Word `k` of slot `j` and the parent pointer of slot `c` let go of each
other. -/
def untag (s : State) (j k c : ℕ) : State :=
  (s.setPage (.slot j) ((s.slotPage j).unswizzle k (s.addr c))).setPage
    (.slot c) { s.slotPage c with parentPtr := none }

theorem slotPage_writeBack (s : State) (c : ℕ) :
    (s.writeBack c).slotPage c = { s.slotPage c with dirty := false } := by
  unfold writeBack
  split
  · exact setPage_self ..
  · rename_i hclean
    rw [Bool.not_eq_true] at hclean
    rw [← hclean]

theorem page_writeBack_of_ne {s : State} {c : ℕ} {p : PagePtr}
    (hp : p ≠ .slot c) : (s.writeBack c).page p = s.page p := by
  unfold writeBack
  split
  · exact setPage_of_ne hp
  · rfl

theorem backend_writeBack (s : State) (c : ℕ) :
    (s.writeBack c).backend =
      if (s.slotPage c).dirty then
        s.backend.write (s.addr c) (s.slotPage c).toImage
      else s.backend := by
  unfold writeBack
  split <;> rfl

theorem rest_writeBack (s : State) (c : ℕ) :
    (s.writeBack c).allocator = s.allocator ∧
      (s.writeBack c).dynamic = s.dynamic ∧
      (s.writeBack c).hashTable = s.hashTable ∧
      (s.writeBack c).localPageSet = s.localPageSet ∧
      (s.writeBack c).pageTable = s.pageTable := by
  unfold writeBack
  split <;> exact ⟨rfl, rfl, rfl, rfl, rfl⟩

theorem steady_writeBack (s : State) (c : ℕ) : Steady s (s.writeBack c) := by
  unfold writeBack
  split
  · exact ⟨rfl, rfl, rfl, rfl, by simp, by simp, rfl, id⟩
  · exact .refl s

end State

theorem writeBack_meets (hC : Tolerates tidy B C) (c : ℕ)
    {Q : Unit → State → Prop} (hQ : Q () (s.writeBack c)) :
    Meets C (onlyIf (s.slotPage c).dirty
      (remoteWrite (s.slotPage c).remoteAddress (.slot c))) s Q := by
  unfold State.writeBack at hQ
  apply meets_onlyIf
  · intro hdirty
    rw [if_pos hdirty] at hQ
    unfold remoteWrite modifyPage
    apply Meets.bind
    apply meets_modify
    apply Meets.bind
    apply meets_gets
    rw [State.setPage_self, writeImage, if_pos rfl]
    apply Meets.bind
    apply meets_modify
    exact meets_emit_of (hC.written _) hQ
  · intro hclean
    rwa [if_neg (by simp [hclean])] at hQ

/-- The state after slot `c` entered bucket `i`. -/
def State.frame (s : State) (i : ℕ) (f : Frame) (c : ℕ) : State :=
  (s.setBucket i ((s.hashTable.table i).push f)).setPage (.slot c)
    { s.slotPage c with posState := .cool }

/-- A slot in the hand enters a bucket with room. -/
theorem Coherent.frame (h : Coherent tidy adrift loose H U R s F) {c i : ℕ}
    (hc : c ∈ H) (hi : i < s.hashTable.bucketNum)
    (hroom : (s.hashTable.table i).count < 6) {f : Frame}
    (hf : f.page = .slot c) :
    Coherent tidy adrift loose (H \ {c}) U R (s.frame i f c) F ∧
      Keeps B R R s (s.frame i f c) := by
  have hcR : c ∉ R := fun hmem => (h.pool.resident_iff.mp hmem).2.1 hc
  have hself : (s.frame i f c).slotPage c =
      { s.slotPage c with posState := .cool } := State.setPage_self ..
  have hpage : ∀ m, m ≠ c → (s.frame i f c).slotPage m = s.slotPage m := by
    intro m hm
    exact State.setPage_of_ne (by simpa using hm)
  have hsuper : (s.frame i f c).page .superRoot = s.page .superRoot :=
    State.setPage_of_ne (by simp)
  have hresident : ∀ m ∈ R, (s.frame i f c).slotPage m = s.slotPage m :=
    fun m hm => hpage m fun heq => hcR (heq ▸ hm)
  have haddr : ∀ m, (s.frame i f c).addr m = s.addr m := by
    intro m
    by_cases hm : m = c
    · subst hm
      rw [State.addr, hself]
    · rw [State.addr, hpage m hm]
  refine ⟨⟨h.pool.frame hc hi hroom hf, h.cached.congr hresident hsuper,
    ?_, ?_⟩, .of_pages ⟨rfl, rfl, rfl, rfl, rfl, rfl, rfl, id⟩ hsuper hresident⟩
  · refine h.backed.congr rfl rfl
      (fun m hm => ⟨haddr m, congrArg Page.dirty (hresident m hm)⟩) ?_
    intro m hd
    by_cases hm : m = c
    · subst hm
      exact (congrArg Page.dirty hself).symm.trans hd
    · exact (congrArg Page.dirty (hpage m hm)).symm.trans hd
  · refine h.mapped.congr rfl rfl haddr ?_
    intro m hl
    by_cases hm : m = c
    · subst hm
      rw [hself] at hl
      cases hl
    · exact (congrArg Page.posState (hpage m hm)).symm.trans hl

theorem bucketInsert_meets (hC : Tolerates tidy B C) {c i : ℕ}
    (h : Coherent tidy adrift loose (insert c H) U R s F) (hc : c ∉ H)
    (hi : i < s.hashTable.bucketNum) {f : Frame} (hf : f.page = .slot c) :
    Meets C (bucketInsert i f) s fun r s' =>
      Keeps B R R s (s'.setPage (.slot c)
        { s'.slotPage c with posState := .cool }) ∧
      match r with
      | none => Coherent tidy adrift loose H U R (s'.setPage (.slot c)
          { s'.slotPage c with posState := .cool }) F
      | some q => ∃ v, q = .slot v ∧ v ∉ H ∧ v ∉ R ∧
          Coherent tidy adrift loose (insert v H) U R (s'.setPage (.slot c)
            { s'.slotPage c with posState := .cool }) F := by
  unfold bucketInsert
  apply Meets.bind
  apply meets_gets
  dsimp only
  by_cases hfull : (s.hashTable.table i).count = 6
  · -- the oldest page leaves
    rw [decide_eq_true hfull, if_pos rfl]
    apply Meets.bind
    refine (evictLast_meets hC h hi).mono ?_
    intro r t hr
    cases r with
    | none =>
        obtain ⟨rfl, hzero⟩ := hr
        omega
    | some q =>
        obtain ⟨v, rfl, hvH, hvR, _, rfl, _, hcoh⟩ := hr
        have hvc : c ≠ v := fun heq => hvH (Or.inl heq.symm)
        have hroom : ((s.setBucket i
            (s.hashTable.table i).dropLast).hashTable.table i).count < 6 := by
          change (Function.update s.hashTable.table _ _ _).count < 6
          rw [Function.update_self]
          change _ - 1 < 6
          omega
        obtain ⟨hdone, hkeeps⟩ := hcoh.frame (B := B) (by simp) hi hroom hf
        rw [Set.insert_comm,
          Set.insert_sdiff_self_of_notMem (by simp [hc, hvc])] at hdone
        have hevict : Keeps B R R s
            (s.setBucket i (s.hashTable.table i).dropLast) :=
          .of_pages ⟨rfl, rfl, rfl, rfl, rfl, rfl, rfl, id⟩ rfl fun _ _ => rfl
        apply Meets.bind
        apply meets_modify
        exact meets_pure ⟨hevict.trans hkeeps, v, rfl,
          fun hmem => hvH (Or.inr hmem), hvR, hdone⟩
  · rw [decide_eq_false hfull, if_neg (by simp)]
    have hroom : (s.hashTable.table i).count < 6 :=
      lt_of_le_of_ne (h.pool.count_le hi) hfull
    obtain ⟨hdone, hkeeps⟩ := h.frame (B := B) (by simp) hi hroom hf
    rw [Set.insert_sdiff_self_of_notMem hc] at hdone
    apply Meets.bind
    apply meets_pure
    apply Meets.bind
    apply meets_modify
    exact meets_pure ⟨hkeeps, hdone⟩

/-- A clean page in the hand enters the cooling table; the page that has to
leave for it is then in the hand. -/
theorem hashTableInsert_meets (hC : Tolerates tidy B C) {c : ℕ}
    (h : Coherent tidy adrift loose (insert c H) U R s F) (hc : c ∉ H)
    (hclean : (s.slotPage c).dirty = false) (key : GlobalAddress) :
    Meets C (hashTableInsert key (.slot c)) s fun r s' =>
      Keeps B R R s s' ∧
      match r with
      | none => Coherent tidy adrift loose H U R s' F
      | some q => ∃ v, q = .slot v ∧ v ∉ H ∧
          Coherent tidy adrift loose (insert v H) (insert v U) R s' F := by
  unfold hashTableInsert
  apply Meets.bind
  apply meets_gets
  apply Meets.bind
  rw [hclean]
  apply meets_pure
  apply Meets.bind
  apply meets_gets
  apply Meets.bind
  apply meets_emit_of (hC.indexed _)
  apply Meets.bind
  refine (bucketInsert_meets hC h hc (Nat.mod_lt _ h.pool.buckets) rfl).mono ?_
  rintro r t ⟨hkeeps, hr⟩
  apply Meets.bind
  apply meets_modify
  cases r with
  | none => exact meets_pure ⟨hkeeps, hr⟩
  | some q =>
      obtain ⟨v, rfl, hvH, hvR, hcoh⟩ := hr
      apply Meets.bind
      apply removeFromPageTable_meets hC
      refine meets_pure ⟨?_, v, rfl, hvH, hcoh.removeFromPageTable hvR⟩
      exact hkeeps.trans (.of_pages ⟨rfl, rfl, rfl, rfl, rfl, rfl, rfl, id⟩ rfl
        fun _ _ => rfl)

/-- A page that is out of the tree once it has been written back cools
down. -/
theorem coolDown_meets (hC : Tolerates tidy B C) {c : ℕ}
    (h : Coherent tidy adrift loose {c} ∅ R (s.writeBack c) F) :
    Meets C (coolDown (.slot c)) s fun _ s' =>
      Keeps B R R (s.writeBack c) s' ∧
        Coherent tidy adrift loose ∅ ∅ R s' F := by
  have hclean : ((s.writeBack c).slotPage c).dirty = false := by
    rw [State.slotPage_writeBack]
  unfold coolDown
  apply Meets.bind
  apply meets_gets
  apply Meets.bind
  apply writeBack_meets hC
  apply Meets.bind
  rw [← insert_empty_eq] at h
  refine (hashTableInsert_meets hC h (Set.notMem_empty c) hclean _).mono ?_
  rintro r t ⟨hkeeps, hr⟩
  cases r with
  | none => exact meets_pure ⟨hkeeps, hr⟩
  | some q =>
      obtain ⟨v, rfl, _, hcoh⟩ := hr
      refine (insertLocalSet_meets (B := B) hcoh (by simp) (by simp)).mono ?_
      rintro _ t' ⟨hkeeps', hcoh'⟩
      rw [Set.insert_sdiff_self_of_notMem (Set.notMem_empty v)] at hcoh'
      exact ⟨hkeeps.trans hkeeps', hcoh'⟩

/-- The first moves of a demotion make the cut. -/
theorem cut_writeBack (s : State) {j k c : ℕ} (hne : j ≠ c) :
    Cut j k c s ((s.untag j k c).writeBack c) := by
  have hself : (s.untag j k c).slotPage c =
      { s.slotPage c with parentPtr := none } := State.setPage_self ..
  have hparent : (s.untag j k c).slotPage j =
      (s.slotPage j).unswizzle k (s.addr c) :=
    (State.setPage_of_ne (by simpa using hne)).trans (State.setPage_self ..)
  have hother : ∀ {p}, p ≠ .slot j → p ≠ .slot c →
      (s.untag j k c).page p = s.page p := fun hj hc =>
    (State.setPage_of_ne hc).trans (State.setPage_of_ne hj)
  have hbackend : ((s.untag j k c).writeBack c).backend =
      if (s.slotPage c).dirty then
        s.backend.write (s.addr c) (s.slotPage c).toImage
      else s.backend := by
    rw [State.backend_writeBack, State.addr, hself]
    rfl
  have hrest := (s.untag j k c).rest_writeBack c
  constructor
  · have hfirst : Steady s (s.untag j k c) :=
      ⟨rfl, rfl, rfl, rfl, rfl, rfl, rfl, id⟩
    exact hfirst.trans (State.steady_writeBack _ c)
  · rw [State.slotPage, State.page_writeBack_of_ne (by simpa using hne)]
    exact hparent
  · rw [State.slotPage_writeBack, hself]
  · intro i hi hi'
    rw [State.slotPage, State.page_writeBack_of_ne (by simpa using hi')]
    exact hother (by simpa using hi) (by simpa using hi')
  · rw [State.page_writeBack_of_ne (by simp)]
    exact hother (by simp) (by simp)
  · exact hrest.1
  · exact hrest.2.1
  · exact hrest.2.2.1
  · exact hrest.2.2.2.1
  · exact hrest.2.2.2.2
  · exact hbackend

/-- Demotion takes one page out of the tree and leaves the rest alone. -/
theorem demote_meets (hC : Tolerates tidy B C) {j k c : ℕ}
    (h : Coherent tidy adrift loose ∅ ∅ R s F) (hj : j ∈ R) (hc : c ∈ R)
    (htag : (s.slotPage j).Tags k (.slot c))
    (hzero : (s.slotPage c).bitmap = 0) (hfree : ¬ Anchored B s c) :
    Meets C (demote (.slot j) k (.slot c)) s fun _ s' =>
      Keeps B R (R \ {c}) s s' ∧
        Coherent tidy adrift loose ∅ ∅ (R \ {c}) s' F := by
  have hne : j ≠ c := by
    rintro rfl
    have := h.cached.level_tagged h.backed.linked hj hj htag
    omega
  have hcut := cut_writeBack s (k := k) hne
  unfold demote modifyPage
  apply Meets.bind
  apply meets_gets
  apply Meets.bind
  apply meets_modify
  apply Meets.bind
  apply meets_modify
  rw [State.setPage_of_ne (by simpa using hne.symm)]
  have hcoh := h.cut hj hc htag hzero hcut
  rw [insert_empty_eq] at hcoh
  refine (coolDown_meets hC hcoh).mono ?_
  rintro _ s' ⟨hkeeps, hcoh'⟩
  exact ⟨(hcut.keeps hfree htag).trans hkeeps, hcoh'⟩

end Programs

end CachingDex
