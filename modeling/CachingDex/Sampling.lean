import CachingDex.Demotion
import CachingDex.VictimSearch

/-!
# The sampler

A sampling round walks from a random hot slot down to a page without tagged
children.  In a coherent state the walk never leaves the tree, the page it
ends at is known to its parent, and the check of levels and limits accepts
it, so the page is demoted or, below `super_root_`, left alone.

While an inner page is being split this fails for some pages: the children
that move to the sibling still point at the old page, and the old page no
longer has the limits of its slot.  `Window` describes such a state; the set
`B` holds the pages the sampler must not draw.
-/

namespace CachingDex

open Lib Lib.Traced

/-- The pages in `B` are those a split has left without their parent's
backing: loose ones, unknown to the page they point at, and adrift ones,
whose upper limit is not that of their slot. -/
structure Window (B : Set PagePtr) (adrift : GlobalAddress → Prop)
    (loose R : Set ℕ) (s : State) (F : TreeForest) : Prop where
  loose_mem : ∀ {i}, i ∈ R → i ∈ loose → .slot i ∈ B
  loose_stale : ∀ {i}, i ∈ R → i ∈ loose → ¬ F.IsChild (s.addr i) ∧
    ∃ j ∈ R, (s.slotPage i).parentPtr = some (.slot j) ∧
      (s.slotPage j).type = .btreeInner ∧ Anchored B s j
  adrift_mem : ∀ {i}, i ∈ R → adrift (s.addr i) → .slot i ∈ B
  adrift_apart : ∀ {i}, i ∈ R → adrift (s.addr i) →
    ∃ a n k, F a = some n ∧ n.children[k]? = some (s.addr i) ∧
      n.bounds[k + 1]? ≠ some (s.slotPage i).maxLimit
  only : ∀ {i}, i ∈ R → .slot i ∈ B → i ∈ loose ∨ adrift (s.addr i)

/-- Outside a split every page has its parent's backing. -/
theorem Window.none (R : Set ℕ) (s : State) (F : TreeForest) :
    Window ∅ (fun _ => False) ∅ R s F where
  loose_mem _ h := h.elim
  loose_stale _ h := h.elim
  adrift_mem _ h := h.elim
  adrift_apart _ h := h.elim
  only _ h := h.elim

theorem Window.keeps {B : Set PagePtr} {adrift : GlobalAddress → Prop}
    {loose R R' : Set ℕ} {s s' : State} {F : TreeForest}
    (h : Window B adrift loose R s F) (hkeeps : Keeps B R R' s s') :
    Window B adrift loose R' s' F := by
  have haddr : ∀ {i}, i ∈ R' → s'.addr i = s.addr i := by
    intro i hi
    rw [State.addr, hkeeps.header hi]
  constructor
  · exact fun hi hloose => h.loose_mem (hkeeps.sub hi) hloose
  · intro i hi hloose
    obtain ⟨hfree, j, hj, hparent, htype, hanchored⟩ :=
      h.loose_stale (hkeeps.sub hi) hloose
    have hj' := hkeeps.kept hj hanchored
    rw [haddr hi]
    refine ⟨hfree, j, hj', ?_, ?_, hkeeps.anchored hj' hanchored⟩
    · rw [hkeeps.header hi]
      exact hparent
    · rw [hkeeps.header hj']
      exact htype
  · intro i hi hadrift
    exact h.adrift_mem (hkeeps.sub hi) (haddr hi ▸ hadrift)
  · intro i hi hadrift
    rw [haddr hi] at hadrift ⊢
    rw [hkeeps.header hi]
    exact h.adrift_apart (hkeeps.sub hi) hadrift
  · intro i hi hB
    rw [haddr hi]
    exact h.only (hkeeps.sub hi) hB

/-! ## The walk -/

section Walk

variable {loose R : Set ℕ} {s : State} {F : TreeForest}
  {adrift : GlobalAddress → Prop}

/-- The resident slots at a level below that of slot `i`. -/
def levelsBelow (R : Set ℕ) (s : State) (i : ℕ) : Set ℕ :=
  {m | m ∈ R ∧ (s.slotPage m).level.toNat < (s.slotPage i).level.toNat}

/-- The tagged words of the pages in `R` lead to pages in `R` at lower
levels. -/
structure Descends (R : Set ℕ) (s : State) : Prop where
  formed : ∀ {i}, i ∈ R → (s.slotPage i).Formed
  tagged : ∀ {i k q}, i ∈ R → (s.slotPage i).Tags k q → ∃ j ∈ R,
    q = .slot j ∧
      (s.slotPage j).level.toNat < (s.slotPage i).level.toNat

theorem Cached.descends (h : Cached loose R s F) (hF : F.Linked adrift) :
    Descends R s where
  formed := h.formed
  tagged := by
    intro i k q hi htag
    obtain ⟨j, hj, rfl, _⟩ := h.tagged hi htag
    have hlevel := h.level_tagged hF hi hj htag
    exact ⟨j, hj, rfl, by omega⟩

/-- A walk from a resident page stays among the resident pages, and its slot
number is that of a tagged pointer to the page. -/
theorem Walked.resident (h : Descends R s) {i : ℕ} (hi : i ∈ R)
    {idx : Option ℕ} (hidx : ∀ k, idx = some k →
      ∃ m ∈ R, (s.slotPage m).Tags k (.slot i)) {cur : PagePtr}
    {idx' : Option ℕ} (hwalk : Walked s (.slot i) idx cur idx') :
    ∃ c ∈ R, cur = .slot c ∧
      ∀ k, idx' = some k → ∃ m ∈ R, (s.slotPage m).Tags k (.slot c) := by
  induction hwalk with
  | start => exact ⟨i, hi, rfl, hidx⟩
  | step _ htag ih =>
      obtain ⟨m, hm, rfl, _⟩ := ih
      obtain ⟨c, hc, rfl, _⟩ := h.tagged hm htag
      refine ⟨c, hc, rfl, fun k' hk' => ⟨m, hm, ?_⟩⟩
      rw [Option.some.injEq] at hk'
      exact hk' ▸ htag

/-- The walk ends at a hot page without tagged children, or gives up; the
slot number it carries is that of a tagged pointer to the page. -/
theorem recursiveIterate_spec (h : Descends R s) (hfinite : R.Finite)
    (fuel : ℕ) {i : ℕ} (hi : i ∈ R)
    (hfuel : (levelsBelow R s i).ncard < fuel)
    {idx : Option ℕ} (hidx : ∀ k, idx = some k →
      ∃ m ∈ R, (s.slotPage m).Tags k (.slot i)) :
    match recursiveIterate s fuel (.slot i) idx with
    | .found cur idx' => ∃ c ∈ R, cur = .slot c ∧
        (s.slotPage c).posState = .hot ∧ (s.slotPage c).bitmap = 0 ∧
          ∀ k, idx' = some k → ∃ m ∈ R, (s.slotPage m).Tags k (.slot c)
    | .deadEnd _ => True
    | .untagged => False
    | .endless => False := by
  have hend : EndsWell s (.slot i) idx
      (recursiveIterate s fuel (.slot i) idx) := by
    refine recursiveIterate_endsWell {q | ∃ i ∈ R, q = .slot i}
      (fun q => match q with
        | .slot i => (levelsBelow R s i).ncard
        | _ => 0) ?_ ?_ ?_ fuel ⟨i, hi, rfl⟩ hfuel idx
    · rintro _ ⟨m, hm, rfl⟩ _
      exact (h.formed hm).count_le
    · rintro _ ⟨m, hm, rfl⟩
      exact (h.formed hm).aligned
    · rintro _ ⟨m, hm, rfl⟩ k q htag
      obtain ⟨j, hj, rfl, hlevel⟩ := h.tagged hm htag
      refine ⟨⟨j, hj, rfl⟩, ?_⟩
      -- the child itself no longer counts
      apply Set.ncard_lt_ncard
      · refine ⟨fun m' hm' => ⟨hm'.1, hm'.2.trans hlevel⟩, ?_⟩
        intro hsub
        exact lt_irrefl _ (hsub ⟨hj, hlevel⟩).2
      · exact hfinite.subset fun m' hm' => hm'.1
  obtain ⟨cur, idx', hwalk, hnone, hresult⟩ := hend
  obtain ⟨c, hc, rfl, hidx'⟩ := hwalk.resident h hi hidx
  rw [hresult]
  by_cases hhot : (s.slotPage c).posState = .hot
  · rw [if_pos hhot]
    refine ⟨c, hc, rfl, hhot, ?_, hidx'⟩
    exact (Page.bitmap_eq_zero_iff (h.formed hc)).mpr hnone
  · rw [if_neg hhot]
    trivial

end Walk

/-! ## The check of levels and limits -/

namespace Page

variable {p : Page} {w : ChildSlot → GlobalAddress}

theorem bounds_node (h : p.type = .btreeInner) :
    (p.node w).bounds =
      p.minLimit :: (p.separators ++ [p.maxLimit]) := by
  rw [node_of_inner h]
  rfl

/-- The lower limit of slot `k`. -/
theorem getElem?_bounds_lo (h : p.type = .btreeInner)
    (hcount : p.count.toNat ≤ 59) {k : ℕ} (hk : k ≤ p.count.toNat) :
    (p.node w).bounds[k]? =
      some (if k = 0 then p.minLimit else p.key (k - 1)) := by
  have hlength := length_separators hcount
  rw [bounds_node h]
  cases k with
  | zero => rfl
  | succ k =>
      rw [List.getElem?_cons_succ, List.getElem?_append_left (by omega)]
      simp [separators, live, key, show k < p.count.toNat by omega,
        show k < 60 by omega]

/-- The upper limit of slot `k`. -/
theorem getElem?_bounds_hi (h : p.type = .btreeInner)
    (hcount : p.count.toNat ≤ 59) {k : ℕ} (hk : k ≤ p.count.toNat) :
    (p.node w).bounds[k + 1]? =
      some (if k = p.count.toNat then p.maxLimit else p.key k) := by
  have hlength := length_separators hcount
  rw [bounds_node h, List.getElem?_cons_succ]
  by_cases hlast : k = p.count.toNat
  · rw [if_pos hlast, List.getElem?_append_right (by omega), hlast, hlength]
    simp
  · rw [if_neg hlast, List.getElem?_append_left (by omega)]
    simp [separators, live, key, show k < p.count.toNat by omega,
      show k < 60 by omega]

end Page

/-- The limits match where the page's limits are those of its slot. -/
theorem checkLimitMatch_iff {parent child : Page} {target : ChildSlot}
    {w : ChildSlot → GlobalAddress} (hparent : parent.Formed)
    (htype : parent.type = .btreeInner) {k : ℕ}
    (hfind : BTreeInner.findIdx parent target = some k) :
    checkLimitMatch parent child target = true ↔
      (parent.node w).bounds[k]? = some child.minLimit ∧
        (parent.node w).bounds[k + 1]? = some child.maxLimit := by
  obtain ⟨hk, _⟩ := BTreeInner.findIdx_eq_some hfind
  rw [Page.getElem?_bounds_lo htype hparent.count_le hk,
    Page.getElem?_bounds_hi htype hparent.count_le hk]
  simp only [checkLimitMatch, hfind, decide_eq_true_eq, Option.some.injEq]

section Check

variable {tidy : Prop} {adrift : GlobalAddress → Prop}
  {loose R : Set ℕ} {s : State} {F : TreeForest} {j k c : ℕ}

/-- A tagged child is found under its one slot number. -/
theorem findIdx_tagged (h : Cached loose R s F) (hF : F.Linked adrift)
    (hj : j ∈ R) (htag : (s.slotPage j).Tags k (.slot c)) :
    BTreeInner.findIdx (s.slotPage j) (.swizzled (.slot c)) = some k := by
  obtain ⟨htype, hk, hchild⟩ := Page.le_count_of_slot htag
  obtain ⟨k', hk'⟩ := BTreeInner.findIdx_isSome hk hchild
  obtain ⟨hle, hchild'⟩ := BTreeInner.findIdx_eq_some hk'
  have htag' : (s.slotPage j).Tags k' (.slot c) := by
    rw [Page.Tags, Page.getElem?_slots (h.formed hj) htype hle, hchild']
  rw [hk', (h.tagged_unique hF hj hj htag' htag).2]

/-- Beside the tag there is no word with the child's address. -/
theorem findIdx_remote (h : Cached loose R s F) (hF : F.Linked adrift)
    (hj : j ∈ R) (htag : (s.slotPage j).Tags k (.slot c)) :
    BTreeInner.findIdx (s.slotPage j) (.remote (s.addr c)) = none := by
  by_contra hsome
  obtain ⟨k', hk'⟩ := Option.ne_none_iff_exists'.mp hsome
  obtain ⟨hle, hchild⟩ := BTreeInner.findIdx_eq_some hk'
  have htype := (Page.le_count_of_slot htag).1
  have hslot := Page.getElem?_slots (h.formed hj) htype hle
  rw [hchild] at hslot
  have hchild' : (s.nodeAt j).children[k]? = some (s.addr c) :=
    h.child_of_slot hj htag
  have hkk := (hF.unique (h.shown hj) (h.shown hj) (h.child_of_slot hj hslot)
    hchild').2
  rw [hkk] at hslot
  have := hslot.symm.trans htag
  simp at this

/-- The check passes for a tagged child whose limits are those of its
slot. -/
theorem checkParentChildInfo_of_linked (h : Cached loose R s F)
    (hB : Backed tidy adrift R s F) (ht : tidy) (hj : j ∈ R) (hc : c ∈ R)
    (htag : (s.slotPage j).Tags k (.slot c)) (hnot : ¬ adrift (s.addr c)) :
    checkParentChildInfo (s.slotPage j) (s.slotPage c) (.slot c) = true := by
  have hF := hB.linked
  have htype := (Page.le_count_of_slot htag).1
  have hfind := findIdx_tagged h hF hj htag
  obtain ⟨hlo, hhi⟩ := hF.limits (h.shown hj) (h.child_of_slot hj htag)
    (h.shown hc) hnot
  rw [State.nodeAt, State.nodeAt, Page.node_lo] at hlo
  rw [State.nodeAt, State.nodeAt, Page.node_hi] at hhi
  have hmatch : checkLimitMatch (s.slotPage j) (s.slotPage c)
      (.swizzled (.slot c)) = true :=
    (checkLimitMatch_iff (h.formed hj) htype hfind).mpr ⟨hlo, hhi⟩
  have hordered := hB.ordered ht (h.shown hj)
  have hlevel := h.level_tagged hF hj hc htag
  have hwithin : (s.slotPage j).minLimit ≤ (s.slotPage c).minLimit ∧
      (s.slotPage c).maxLimit ≤ (s.slotPage j).maxLimit := by
    rw [State.nodeAt, Page.bounds_node htype, List.pairwise_cons] at hordered
    obtain ⟨hfirst, hrest⟩ := hordered
    rw [Page.bounds_node htype] at hlo hhi
    constructor
    · rcases Nat.eq_zero_or_pos k with rfl | hpos
      · rw [List.getElem?_cons_zero, Option.some.injEq] at hlo
        exact hlo.le
      · obtain ⟨m, rfl⟩ := Nat.exists_eq_succ_of_ne_zero hpos.ne'
        rw [List.getElem?_cons_succ] at hlo
        exact hfirst _ (List.mem_of_getElem? hlo)
    · rw [List.getElem?_cons_succ] at hhi
      rcases List.mem_append.mp (List.mem_of_getElem? hhi) with hmem | hmem
      · exact (List.pairwise_append.mp hrest).2.2 _ hmem _ (by simp)
      · exact (by simpa using hmem : _ = _).le
  simp only [checkParentChildInfo, decide_eq_true_eq]
  refine Or.inr ⟨hlevel.symm, ?_, Or.inl hmatch⟩
  rintro (hlt | hlt)
  · exact absurd hlt (not_lt.mpr hwithin.1)
  · exact absurd hlt (not_lt.mpr hwithin.2)

/-- The check fails for a tagged child whose upper limit is not that of its
slot. -/
theorem checkParentChildInfo_of_adrift (h : Cached loose R s F)
    (hB : Backed tidy adrift R s F) (hj : j ∈ R)
    (htag : (s.slotPage j).Tags k (.slot c))
    (hapart : (s.nodeAt j).bounds[k + 1]? ≠ some (s.slotPage c).maxLimit) :
    checkParentChildInfo (s.slotPage j) (s.slotPage c) (.slot c) = false := by
  have hF := hB.linked
  have htype := (Page.le_count_of_slot htag).1
  have hfind := findIdx_tagged h hF hj htag
  have hswizzled : ¬ checkLimitMatch (s.slotPage j) (s.slotPage c)
      (.swizzled (.slot c)) = true := by
    rw [checkLimitMatch_iff (h.formed hj) htype hfind]
    exact fun hmatch => hapart hmatch.2
  have hremote : ¬ checkLimitMatch (s.slotPage j) (s.slotPage c)
      (.remote (s.slotPage c).remoteAddress) = true := by
    have hnone := findIdx_remote h hF hj htag
    rw [State.addr] at hnone
    simp [checkLimitMatch, hnone]
  have hlevel : (s.slotPage j).level ≠ 255 := by
    intro heq
    have hlt := hB.level_lt (h.shown hj)
    rw [h.level_nodeAt hj, heq] at hlt
    exact absurd hlt (by decide)
  rw [checkParentChildInfo, decide_eq_false_iff_not]
  rintro (heq | ⟨_, _, hmatch | hmatch⟩)
  · exact hlevel heq
  · exact hswizzled hmatch
  · exact hremote hmatch

end Check

/-! ## Sampling rounds -/

theorem Pool.finite {H R : Set ℕ} {s : State} (h : Pool H R s) : R.Finite :=
  (Set.finite_Iio s.allocator.headIdx).subset fun _ hi =>
    (h.resident_iff.mp hi).1

theorem Pool.ncard_le {H R : Set ℕ} {s : State} (h : Pool H R s) :
    R.ncard ≤ s.allocator.pageNum := by
  have hsub : R ⊆ Set.Iio s.allocator.headIdx := fun _ hi =>
    (h.resident_iff.mp hi).1
  have hcard := Set.ncard_le_ncard hsub (Set.finite_Iio _)
  rw [← Finset.coe_range, Set.ncard_coe_finset, Finset.card_range] at hcard
  exact hcard.trans h.head_le

theorem Pool.ncard_levelsBelow {H R : Set ℕ} {s : State} (h : Pool H R s)
    (i : ℕ) : (levelsBelow R s i).ncard < s.allocator.pageNum + 2 := by
  have hsub : levelsBelow R s i ⊆ R := fun m hm => hm.1
  have hcard := Set.ncard_le_ncard hsub h.finite
  have := h.ncard_le
  omega

/-- What a run of the sampler leaves: a coherent state in which some pages
may be gone. -/
def Shrinks (tidy : Prop) (adrift : GlobalAddress → Prop) (loose : Set ℕ)
    (B : Set PagePtr) (F : TreeForest) (R : Set ℕ) (s : State)
    (strict : Prop) (s' : State) : Prop :=
  ∃ R', Keeps B R R' s s' ∧ Coherent tidy adrift loose ∅ ∅ R' s' F ∧
    Window B adrift loose R' s' F ∧ (strict → R' ≠ R)

section Programs

variable {tidy : Prop} {adrift : GlobalAddress → Prop} {loose R : Set ℕ}
  {s : State} {F : TreeForest} {B : Set PagePtr} {C : Contract State Halt Event}

theorem Shrinks.refl (h : Coherent tidy adrift loose ∅ ∅ R s F)
    (hwin : Window B adrift loose R s F) {strict : Prop} (hs : ¬ strict) :
    Shrinks tidy adrift loose B F R s strict s :=
  ⟨R, .refl B R s, h, hwin, fun hstrict => absurd hstrict hs⟩

theorem sampleVictim_meets (hC : Tolerates tidy B C)
    (h : Coherent tidy adrift loose ∅ ∅ R s F)
    (hwin : Window B adrift loose R s F) {c : ℕ} (hc : c ∈ R)
    (hhot : (s.slotPage c).posState = .hot)
    (hzero : (s.slotPage c).bitmap = 0) {idx : Option ℕ}
    (hidx : ∀ k, idx = some k → ∃ m ∈ R, (s.slotPage m).Tags k (.slot c)) :
    Meets C (sampleVictim (.slot c) idx) s fun r s' =>
      Shrinks tidy adrift loose B F R s (r = true) s' := by
  have hF := h.backed.linked
  have hlevel : ∀ {j}, j ∈ R → (s.slotPage j).level ≠ 255 := by
    intro j hj heq
    have hlt := h.backed.level_lt (h.cached.shown hj)
    rw [h.cached.level_nodeAt hj, heq] at hlt
    exact absurd hlt (by decide)
  unfold sampleVictim
  apply Meets.bind
  apply meets_gets
  by_cases hloose : c ∈ loose
  · -- the parent does not know the page, and the page is in `B`
    obtain ⟨hfree, j, hj, hparent, htype, _⟩ := hwin.loose_stale hc hloose
    have hnone : idx.or (BTreeInner.findIdx (s.slotPage j)
        (.swizzled (.slot c))) = none := by
      rw [Option.or_eq_none_iff]
      constructor
      · by_contra hsome
        obtain ⟨k, hk⟩ := Option.ne_none_iff_exists'.mp hsome
        obtain ⟨m, hm, htag⟩ := hidx k hk
        exact hfree (h.cached.isChild_of_tagged hm htag)
      · by_contra hsome
        obtain ⟨k, hk⟩ := Option.ne_none_iff_exists'.mp hsome
        obtain ⟨hle, hchild⟩ := BTreeInner.findIdx_eq_some hk
        have hslot := Page.getElem?_slots (h.cached.formed hj) htype hle
        rw [hchild] at hslot
        exact hfree (h.cached.isChild_of_tagged hj hslot)
    rw [hparent]
    apply Meets.bind
    apply meets_gets
    rw [if_neg (hlevel hj)]
    apply Meets.bind
    apply meets_check (by simp [hhot])
    rw [hnone]
    apply Meets.bind
    apply meets_emit
    intro hrely
    exact absurd (hwin.loose_mem hc hloose)
      (hC.sampled hrely (Or.inl ⟨hwin.loose_mem hc hloose, Or.inl rfl⟩)).1
  · rcases h.cached.parented hc hloose with ⟨htop, hfree⟩ |
      ⟨j, hj, hparent, k, htag⟩
    · -- the root page stays
      have hB : .slot c ∉ B := by
        intro hmem
        rcases hwin.only hc hmem with hmem | hadrift
        · exact hloose hmem
        · obtain ⟨a, n, k, hn, hchild, _⟩ := hwin.adrift_apart hc hadrift
          exact hfree ⟨a, n, k, hn, hchild⟩
      rw [htop]
      apply Meets.bind
      apply meets_gets
      rw [if_pos h.cached.super_level]
      apply Meets.bind
      apply meets_emit
      intro hrely
      refine ⟨(hC.sampled hrely (Or.inr ⟨hB, Or.inr rfl⟩)).2, ?_⟩
      exact meets_pure (.refl h hwin (by simp))
    · have hfind : idx.or (BTreeInner.findIdx (s.slotPage j)
          (.swizzled (.slot c))) = some k := by
        rw [findIdx_tagged h.cached hF hj htag]
        cases hcase : idx with
        | none => rfl
        | some k' =>
            obtain ⟨m, hm, htag'⟩ := hidx k' hcase
            rw [(h.cached.tagged_unique hF hm hj htag' htag).2]
            rfl
      rw [hparent]
      apply Meets.bind
      apply meets_gets
      rw [if_neg (hlevel hj)]
      apply Meets.bind
      apply meets_check (by simp [hhot])
      rw [hfind]
      by_cases hadrift : adrift (s.addr c)
      · -- the limits have changed under the parent
        obtain ⟨a, n, k', hn, hchild, hapart⟩ :=
          hwin.adrift_apart hc hadrift
        have hslot : (s.nodeAt j).children[k]? = some (s.addr c) :=
          h.cached.child_of_slot hj htag
        obtain ⟨rfl, rfl⟩ := hF.unique hn (h.cached.shown hj) hchild hslot
        rw [h.cached.shown hj, Option.some.injEq] at hn
        subst hn
        have hmem := hwin.adrift_mem hc hadrift
        dsimp only
        rw [if_neg (by
          rw [checkParentChildInfo_of_adrift h.cached h.backed hj htag hapart]
          simp)]
        apply Meets.bind
        apply meets_emit
        intro hrely
        exact absurd hmem
          (hC.sampled hrely (Or.inl ⟨hmem, Or.inr rfl⟩)).1
      · have hB : .slot c ∉ B := by
          intro hmem
          rcases hwin.only hc hmem with hmem | hmem
          · exact hloose hmem
          · exact hadrift hmem
        have hanchored : ¬ Anchored B s c := by
          rintro (hpin | hsuper | hmem)
          · rw [hhot] at hpin
            cases hpin
          · rw [hparent] at hsuper
            cases hsuper
          · exact hB hmem
        apply meets_ite
        · intro _
          apply Meets.bind
          apply meets_emit
          intro hrely
          refine ⟨(hC.sampled hrely (Or.inr ⟨hB, Or.inl rfl⟩)).2, ?_⟩
          apply Meets.bind
          refine (demote_meets hC h hj hc htag hzero hanchored).mono ?_
          rintro _ s' ⟨hkeeps, hcoh⟩
          refine meets_pure ⟨_, hkeeps, hcoh, hwin.keeps hkeeps, ?_⟩
          intro _ heq
          rw [← heq] at hc
          exact hc.2 rfl
        · intro hcheck
          have hnot : ¬ tidy := fun ht => hcheck
            (checkParentChildInfo_of_linked h.cached h.backed ht hj hc htag
              hadrift)
          apply Meets.bind
          apply meets_emit
          intro _
          exact ⟨(hC.untidy hnot).2.2 _,
            meets_halt ((hC.untidy hnot).2.1 _)⟩

/-- In the dynamic phase every slot is drawn from the pool. -/
theorem Pool.randomSelect {H : Set ℕ} (h : Pool H R s)
    (hdynamic : s.dynamic = true) (hpos : 0 < s.allocator.pageNum)
    (draw : ℕ) : ∃ i < s.allocator.headIdx,
      s.allocator.randomSelect draw = .slot i := by
  have hhead := h.dynamic_iff.mp hdynamic
  have hlt : draw % s.allocator.pageNum < s.allocator.pageNum :=
    Nat.mod_lt _ hpos
  refine ⟨draw % s.allocator.pageNum, by omega, ?_⟩
  rw [CacheAllocator.randomSelect]
  exact if_neg (by omega)

theorem sampleRound_meets (hC : Tolerates tidy B C)
    (h : Coherent tidy adrift loose ∅ ∅ R s F)
    (hwin : Window B adrift loose R s F) (hdynamic : s.dynamic = true)
    (hpos : 0 < s.allocator.pageNum) :
    Meets C sampleRound s fun r s' =>
      Shrinks tidy adrift loose B F R s (r = true) s' := by
  obtain ⟨i, hlt, hslot⟩ :=
    h.pool.randomSelect hdynamic hpos (s.selectDraws 0)
  have hdrawn : Coherent tidy adrift loose ∅ ∅ R
      { s with selectDraws := fun n => s.selectDraws (n + 1) } F :=
    h.congr rfl rfl rfl rfl rfl rfl rfl
  have hkeeps : Keeps B R R s
      { s with selectDraws := fun n => s.selectDraws (n + 1) } :=
    .of_pages ⟨rfl, rfl, rfl, rfl, rfl, rfl, rfl, id⟩ rfl fun _ _ => rfl
  have hwin' := hwin.keeps hkeeps
  have hidle : Shrinks tidy adrift loose B F R s (false = true)
      { s with selectDraws := fun n => s.selectDraws (n + 1) } :=
    ⟨R, hkeeps, hdrawn, hwin', by simp⟩
  unfold sampleRound randomSelect
  apply Meets.bind
  apply Meets.bind
  apply meets_gets
  apply Meets.bind
  apply meets_emit_of (hC.indexed _)
  apply Meets.bind
  apply meets_gets
  apply Meets.bind
  apply meets_modify
  apply meets_pure
  rw [hslot]
  apply Meets.bind
  apply meets_gets
  apply meets_ite
  · intro hhot
    have hi : i ∈ R := h.pool.resident_iff.mpr
      ⟨hlt, Set.notMem_empty i, Or.inl hhot⟩
    have hwalk := recursiveIterate_spec
      (hdrawn.cached.descends hdrawn.backed.linked) h.pool.finite
      (s.allocator.pageNum + 2) hi (hdrawn.pool.ncard_levelsBelow i)
      fun k (hk : none = some k) => by cases hk
    apply Meets.bind
    apply meets_gets
    dsimp only
    generalize recursiveIterate _ _ _ _ = walk at hwalk ⊢
    cases walk with
    | found cur idx =>
        obtain ⟨c, hc, rfl, hhot', hzero, hidx⟩ := hwalk
        refine (sampleVictim_meets hC hdrawn hwin' hc hhot' hzero hidx).mono ?_
        rintro r s' ⟨R', hk, hcoh, hw, hstrict⟩
        exact ⟨R', hkeeps.trans hk, hcoh, hw, hstrict⟩
    | deadEnd => exact meets_pure hidle
    | untagged => exact hwalk.elim
    | endless => exact hwalk.elim
  · intro _
    exact meets_pure hidle

theorem sampleRounds_meets (hC : Tolerates tidy B C)
    (hexit : ∀ s, C.mayHalt .exit0 s) (n : ℕ)
    (h : Coherent tidy adrift loose ∅ ∅ R s F)
    (hwin : Window B adrift loose R s F) (hdynamic : s.dynamic = true)
    (hpos : 0 < s.allocator.pageNum) :
    Meets C (sampleRounds n) s fun _ s' =>
      Shrinks tidy adrift loose B F R s True s' := by
  induction n generalizing R s with
  | zero => exact meets_halt (hexit _)
  | succ n ih =>
      unfold sampleRounds
      apply Meets.bind
      refine (sampleRound_meets hC h hwin hdynamic hpos).mono ?_
      rintro r s' ⟨R', hkeeps, hcoh, hw, hstrict⟩
      apply meets_ite
      · intro hr
        exact meets_pure ⟨R', hkeeps, hcoh, hw, fun _ => hstrict hr⟩
      · intro _
        refine (ih hcoh hw (hkeeps.steady.dynamic hdynamic)
          (hkeeps.steady.pageNum ▸ hpos)).mono ?_
        rintro _ t ⟨R'', hkeeps', hcoh', hw', hstrict'⟩
        refine ⟨R'', hkeeps.trans hkeeps', hcoh', hw', fun _ heq => ?_⟩
        apply hstrict' trivial
        exact hkeeps'.sub.antisymm (heq ▸ hkeeps.sub)

theorem sampleMultiplePages_meets (hC : Tolerates tidy B C)
    (hexit : ∀ s, C.mayHalt .exit0 s) (n : ℕ)
    (h : Coherent tidy adrift loose ∅ ∅ R s F)
    (hwin : Window B adrift loose R s F) (hdynamic : s.dynamic = true)
    (hpos : 0 < s.allocator.pageNum) :
    Meets C (sampleMultiplePages n) s fun _ s' =>
      Shrinks tidy adrift loose B F R s (n ≠ 0) s' := by
  induction n generalizing R s with
  | zero => exact meets_pure (.refl h hwin (by simp))
  | succ n ih =>
      unfold sampleMultiplePages samplePage
      apply Meets.bind
      refine (sampleRounds_meets hC hexit 999 h hwin hdynamic hpos).mono ?_
      rintro _ s' ⟨R', hkeeps, hcoh, hw, hstrict⟩
      refine (ih hcoh hw (hkeeps.steady.dynamic hdynamic)
        (hkeeps.steady.pageNum ▸ hpos)).mono ?_
      rintro _ t ⟨R'', hkeeps', hcoh', hw', _⟩
      refine ⟨R'', hkeeps.trans hkeeps', hcoh', hw', fun _ heq => ?_⟩
      apply hstrict trivial
      exact hkeeps.sub.antisymm (heq ▸ hkeeps'.sub)

end Programs

end CachingDex
