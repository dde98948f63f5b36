import CachingDex.SplitChild

/-!
# Insertion

An insert goes down like a lookup, but splits every full page before it
enters it.  So each page it enters has room, a split finds room in its
parent, and the leaf at the end has room for the new entry.
-/

namespace CachingDex

open Lib Lib.Traced

/-- The contract of a run whose splits meet no bad draw and whose
allocations succeed. -/
structure Runs (C : Contract State Halt Event) : Prop where
  splits : Splits C
  noFail : ¬ C.rely .allocFailed

/-- The contract of inserts into trees whose leaves have a credit of at most
`N`: inner pages are split only where there are as many leaves as a full one
has children. -/
structure Inserts (N : ℕ) (C : Contract State Halt Event) : Prop where
  base : Tolerates True ∅ C
  inner : 29 * 60 ≤ N → Splits C

section Programs

variable {R : Set ℕ} {s : State} {F : TreeForest} {C : Contract State Halt Event}
  {i k c N : ℕ} {key : Key}

theorem Runs.inserts (hC : Runs C) (N : ℕ) : Inserts N C :=
  ⟨hC.splits.base, fun _ => hC.splits⟩

/-- Where allocations succeed any tree is within bounds. -/
theorem Runs.within (hC : Runs C) (F : TreeForest) (s : State) :
    Within C (leafCredit F) F s :=
  ⟨le_rfl, fun hrely => absurd hrely hC.noFail,
    fun hrely => absurd hrely hC.noFail⟩

/-- A full inner page has sixty leaves below it. -/
theorem Inserts.splits (hC : Inserts N C) (hN : Within C N F s)
    (h : Tree R s F) {a : GlobalAddress} {n : TreeNode} (hn : F a = some n)
    (hfull : n.size = 59) (hinner : n.isLeaf = false) : Splits C := by
  have hlt := h.search.size_lt_leafNum h.shape hn hinner
  have hle : 29 * s.leafNum ≤ leafCredit F := h.shape.least_mul_le
  have hcredit := hN.credit
  exact hC.inner (by omega)

/-- Loading pages takes no page of the backend. -/
theorem Within.retains {R' : Set ℕ} {s' : State} (hN : Within C N F s)
    (hs : Retains R R' s s') : Within C N F s' := by
  refine hN.step (n := 0) hN.credit ?_ hs.steady.capacity ?_
  · rw [hs.steady.curOffset]
    omega
  · rw [hs.steady.leafNum, hs.steady.innerNum]
    rfl

theorem isFull_iff {p : Page} (h : p.Formed)
    {w : ChildSlot → GlobalAddress} :
    isFull p = true ↔ (p.node w).size = 59 := by
  rw [Page.node_size h]
  have hcount : p.count = 59 ↔ p.count.toNat = 59 := by
    rw [← UInt8.toNat_inj]
    rfl
  unfold isFull BTreeLeaf.isFull BTreeInner.isFull
  simp [hcount]

theorem Ready.size_le (h : Ready True R s F) (hi : i ∈ R) :
    (s.nodeAt i).size ≤ 59 := by
  have hformed := h.settled.cached.formed hi
  rw [State.nodeAt, Page.node_size hformed]
  exact hformed.count_le

/-- A full child is split below a parent with room. -/
theorem splitChild_meets (hC : Inserts N C) (h : Tree R s F)
    (hN : Within C N F s) (hf : FullChild R s i k c)
    (hkey : (s.nodeAt c).Covers key) :
    Meets C (splitChild (.slot i) k (.slot c)) s fun _ s' =>
      ∃ R' a, F a = none ∧ Tree R' s' (splitForest F s i k c a) ∧
        Within C N (splitForest F s i k c a) s' ∧ i ∈ R' ∧
          s'.addr i = s.addr i := by
  have hcached := h.ready.settled.cached
  have hformed := hcached.formed hf.child
  have ha := (hf.allocated h.toConsistent).fresh
  have hdone : ∀ {R' s'}, SplitBelow F R s i k c R' s' →
      s.backend.hasRoom = true →
      ∃ R' a, F a = none ∧ Tree R' s' (splitForest F s i k c a) ∧
        Within C N (splitForest F s i k c a) s' ∧ i ∈ R' ∧
          s'.addr i = s.addr i := by
    intro R' s' hs hroom
    have hnull := alloc_ne_null h.ready.settled.backed
      (hcached.shown hf.child) hroom
    have hgrown := hf.grown h.toConsistent ha hkey
    obtain ⟨r, hr⟩ := h.rooted
    refine ⟨R', _, ha, hf.tree h ha hnull hs.ready ⟨r, hs.rooted r hr⟩
      hs.root hs.height hs.leafNum hs.innerNum, ?_, hs.parent, hs.addr⟩
    refine hN.step (n := 1) (hgrown.credit.trans_le hN.credit) ?_ hs.capacity
      ?_
    · rw [hs.curOffset, InMemoryBackend.curOffset_alloc hroom, Nat.one_mul]
    · rw [hs.leafNum, hs.innerNum]
      split_ifs <;> omega
  have hspare := hf.affords h hN
  unfold splitChild
  apply Meets.bind
  apply meets_gets
  apply meets_ite
  · intro hleaf
    refine (hf.splitLeaf_meets hC.base hspare h.toConsistent hleaf).mono ?_
    rintro _ s' ⟨hroom, R', hs⟩
    exact hdone hs hroom
  · intro hnot
    have htype := hformed.typed.resolve_left hnot
    have hinner : (s.nodeAt c).isLeaf = false := by
      rw [State.nodeAt, Page.node_of_inner htype]
      rfl
    refine (hf.splitInner_meets (hC.splits hN h (hcached.shown hf.child)
      hf.full hinner) hspare h.toConsistent htype).mono ?_
    rintro _ s' ⟨hroom, R', hs⟩
    exact hdone hs hroom

/-- A page on the way of an insert: resident, covering the key, with room. -/
structure OnPath (R : Set ℕ) (s : State) (key : Key) (i : ℕ) : Prop where
  mem : i ∈ R
  covers : (s.nodeAt i).Covers key
  room : (s.nodeAt i).size < 59

/-- The child picked after a split is one of the halves, or was never
full. -/
theorem FullChild.size_lt (hf : FullChild R s i k c) (h : Consistent R s F)
    {a b : GlobalAddress} (ha : F a = none) {n : TreeNode}
    (hc : (s.nodeAt c).Covers key)
    (hb : splitForest F s i k c a b = some n) (hn : n.Covers key)
    (hlevel : n.level + 1 = (s.nodeAt i).level) : n.size < 59 := by
  have hsplit := hf.splittable h ha
  have hfull := hf.full
  rcases Forest.splitBelow_cases hb with ⟨_, rfl⟩ | ⟨_, rfl⟩ | ⟨_, rfl⟩ |
    ⟨_, _, hbc, hb⟩
  · rw [Node.level_insertChild] at hlevel
    omega
  · rw [Node.size_splitRight]
    omega
  · have := (s.nodeAt c).size_splitLeft_le a
    omega
  · -- two children of one page do not cover the same key
    obtain ⟨m, hm, hmlevel⟩ := h.search.linked.child hsplit.parent hsplit.slot
    rw [hsplit.child, Option.some.injEq] at hm
    subst hm
    exact absurd (h.search.covers_unique hb hsplit.child (by omega) hn hc) hbc

theorem splitIfFull_meets (hC : Inserts N C) (h : Tree R s F)
    (hN : Within C N F s) (hpath : OnPath R s key i) (hcR : c ∈ R)
    (hslot : (s.nodeAt i).children[k]? = some (s.addr c))
    (hcovers : (s.nodeAt c).Covers key) :
    Meets C (splitIfFull key (.slot i) k (.slot c)) s fun q s' =>
      ∃ R' F' v, q = .slot v ∧ Tree R' s' F' ∧ Grown key F F' ∧
        Within C N F' s' ∧ OnPath R' s' key v ∧
          (s'.nodeAt v).level + 1 = (s.nodeAt i).level := by
  have hcached := h.ready.settled.cached
  unfold splitIfFull
  apply Meets.bind
  apply meets_gets
  apply meets_ite
  · intro hfull
    rw [isFull_iff (hcached.formed hcR) (w := s.addressOf)] at hfull
    have hf : FullChild R s i k c :=
      ⟨hpath.mem, hcR, hslot, hfull, hpath.room⟩
    have hsplitLevel := h.search.linked
    apply Meets.bind
    refine (splitChild_meets hC h hN hf hcovers).mono ?_
    rintro _ t ⟨R', a, ha, htree, hNt, hi, haddr⟩
    have hsplit := hf.splittable h.toConsistent ha
    have hnodeT : t.nodeAt i =
        (s.nodeAt i).insertChild k (s.nodeAt c).splitKey a := by
      have hshown := htree.ready.settled.cached.shown hi
      rw [haddr, splitForest, Forest.splitBelow_parent, Option.some.injEq]
        at hshown
      exact hshown.symm
    have hcoversT : (t.nodeAt i).Covers key := by
      rw [hnodeT, Node.Covers, Node.lo_insertChild, Node.hi_insertChild]
      exact hpath.covers
    have htype : (t.slotPage i).type = .btreeInner := by
      have hleaf : (t.nodeAt i).isLeaf = false := by
        rw [hnodeT, Node.isLeaf_insertChild]
        exact hsplit.parent_isInner
      have hformed := htree.ready.settled.cached.formed hi
      refine hformed.typed.resolve_left fun hl => ?_
      have := (Page.node_isLeaf (w := t.addressOf) hformed).mpr hl
      rw [State.nodeAt] at hleaf
      rw [hleaf] at this
      cases this
    obtain ⟨b, n, hchild, hb, hlevel⟩ :=
      htree.ready.exists_child hi htype key
    have hguide := guides_covers htree.search key
      (htree.ready.settled.cached.formed hi) htype
      (htree.ready.settled.cached.shown hi)
      ⟨_, htree.ready.settled.cached.shown hi, hcoversT⟩ hchild
    obtain ⟨n', hb', hn⟩ := hguide
    rw [hb, Option.some.injEq] at hb'
    subst hb'
    have hlevelT : n.level + 1 = (s.nodeAt i).level := by
      rw [hlevel, ← htree.ready.settled.cached.level_nodeAt hi, hnodeT,
        Node.level_insertChild]
    apply Meets.bind
    apply meets_gets
    refine (loadChild_meets hC.base htree.ready hi hchild).mono ?_
    rintro q s' ⟨R'', v, rfl, hload⟩
    have hnodeV : s'.nodeAt v = n := by
      have hshown := hload.ready.settled.cached.shown hload.resident
      rw [hload.addr, hb, Option.some.injEq] at hshown
      exact hshown.symm
    refine ⟨R'', _, v, rfl, htree.retains hload.ready hload.retains,
      hf.grown h.toConsistent ha hcovers, hNt.retains hload.retains,
      ⟨hload.resident, ?_, ?_⟩, ?_⟩
    · rw [hnodeV]
      exact hn
    · rw [hnodeV]
      exact hf.size_lt h.toConsistent ha hcovers hb hn hlevelT
    · rw [hnodeV]
      exact hlevelT
  · intro hnot
    rw [isFull_iff (hcached.formed hcR) (w := s.addressOf)] at hnot
    have hle := h.ready.size_le hcR
    obtain ⟨m, hm, hlevel⟩ :=
      h.search.linked.child (hcached.shown hpath.mem) hslot
    rw [hcached.shown hcR, Option.some.injEq] at hm
    subst hm
    exact meets_pure ⟨R, F, c, rfl, h, .refl key F, hN,
      ⟨hcR, hcovers, lt_of_le_of_ne hle hnot⟩, hlevel⟩

/-- The descent of an insert ends at a leaf with room. -/
theorem findLeafSplitting_meets (hC : Inserts N C) (fuel : ℕ)
    (h : Tree R s F) (hN : Within C N F s) (hpath : OnPath R s key i)
    (hfuel : (s.nodeAt i).level < fuel) :
    Meets C (findLeafSplitting key fuel (.slot i)) s fun q s' =>
      ∃ R' F' v, q = .slot v ∧ Tree R' s' F' ∧ Grown key F F' ∧
        Within C N F' s' ∧ OnPath R' s' key v ∧ (s'.slotPage v).type = .btreeLeaf := by
  induction fuel generalizing R s F i with
  | zero => omega
  | succ fuel ih =>
      have hcached := h.ready.settled.cached
      unfold findLeafSplitting
      apply Meets.bind
      apply meets_gets
      apply meets_ite
      · intro htype
        obtain ⟨a, n, hchild, hn, _⟩ :=
          h.ready.exists_child hpath.mem htype key
        obtain ⟨n', hn', hcovers⟩ := guides_covers h.search key
          (hcached.formed hpath.mem) htype (hcached.shown hpath.mem)
          ⟨_, hcached.shown hpath.mem, hpath.covers⟩ hchild
        rw [hn, Option.some.injEq] at hn'
        subst hn'
        apply Meets.bind
        refine (loadChild_meets hC.base h.ready hpath.mem hchild).mono ?_
        rintro q t ⟨R', c, rfl, hload⟩
        have hti : t.addr i = s.addr i := hload.header.remoteAddress
        have hcachedT := hload.ready.settled.cached
        have hnodeI : t.nodeAt i = s.nodeAt i := by
          have hshown := hcachedT.shown hload.parent
          rw [hti, hcached.shown hpath.mem, Option.some.injEq] at hshown
          exact hshown.symm
        have hnodeC : t.nodeAt c = n := by
          have hshown := hcachedT.shown hload.resident
          rw [hload.addr, hn, Option.some.injEq] at hshown
          exact hshown.symm
        have hpathT : OnPath R' t key i :=
          ⟨hload.parent, hnodeI ▸ hpath.covers, hnodeI ▸ hpath.room⟩
        apply Meets.bind
        refine (splitIfFull_meets hC (h.retains hload.ready hload.retains)
          (hN.retains hload.retains) hpathT hload.resident (by rw [hnodeI, hload.addr]; exact hchild)
          (hnodeC ▸ hcovers)).mono ?_
        rintro q u ⟨R'', F', v, rfl, htree, hsame, hN', hpathV, hlevel⟩
        rw [hnodeI] at hlevel
        refine (ih htree hN' hpathV (by omega)).mono ?_
        rintro q w ⟨R₃, F₃, x, rfl, htree', hsame', hN'', hpathX, hleaf⟩
        exact ⟨R₃, F₃, x, rfl, htree', hsame.trans hsame', hN'', hpathX, hleaf⟩
      · intro hnot
        have hleaf := (hcached.formed hpath.mem).typed.resolve_right hnot
        exact meets_pure ⟨R, F, i, rfl, h, .refl key F, hN, hpath, hleaf⟩

/-- The descent of an insert starts at a root with room. -/
theorem rootForInsert_meets (hC : Inserts N C) (h : Tree R s F)
    (hN : Within C N F s) (key : Key) :
    Meets C rootForInsert s fun q s' =>
      ∃ R' F' r, q = .slot r ∧ Tree R' s' F' ∧ Grown key F F' ∧
        Within C N F' s' ∧ OnPath R' s' key r := by
  obtain ⟨r, hr⟩ := h.rooted
  have hcached := h.ready.settled.cached
  have hcovers : ∀ {R' s' F' r'}, Tree R' s' F' → Rooted R' s' r' →
      (s'.nodeAt r').Covers key := by
    intro R' s' F' r' htree hr'
    obtain ⟨n, hn, hk⟩ := SearchTree.covers_root htree.search key
    rw [← hr'.addr, htree.ready.settled.cached.shown hr'.mem,
      Option.some.injEq] at hn
    exact hn ▸ hk
  unfold rootForInsert
  apply Meets.bind
  apply loadChild_superRoot_meets hr
  apply Meets.bind
  apply meets_gets
  apply meets_ite
  · intro hfull
    rw [isFull_iff (hcached.formed hr.mem) (w := s.addressOf)] at hfull
    apply Meets.bind
    refine (splitRoot_meets hC.base
      (hC.splits hN h (hcached.shown hr.mem) hfull) hN h hr hfull 0).mono ?_
    rintro _ s' ⟨R', F', w, htree, hw, hsame, hN', hcount⟩
    apply loadChild_superRoot_meets hw
    refine ⟨R', F', w, rfl, htree, hsame key, hN', hw.mem, hcovers htree hw,
      ?_⟩
    rw [State.nodeAt,
      Page.node_size (htree.ready.settled.cached.formed hw.mem), hcount]
    decide
  · intro hnot
    rw [isFull_iff (hcached.formed hr.mem) (w := s.addressOf)] at hnot
    exact meets_pure ⟨R, F, r, rfl, h, .refl key F, hN, hr.mem,
      hcovers h hr, lt_of_le_of_ne (h.ready.size_le hr.mem) hnot⟩

/-- The leaf that covers the key is not full at the end of the descent. -/
theorem fullLast_of_room {root : GlobalAddress} (h : SearchTree F 59 root)
    {a : GlobalAddress} {n : TreeNode} (hn : F a = some n)
    (hleaf : n.isLeaf = true) (hk : n.Covers key) (hroom : n.size < 59) :
    F.FullLast 59 key := by
  intro b lo hi entries next hb hcovers hfull
  obtain rfl := h.covers_unique hn hb
    (Node.level_eq_zero_of_isLeaf hleaf) hk hcovers
  rw [hn, Option.some.injEq] at hb
  subst hb
  exact absurd hfull hroom.ne

/-- Splits on the way and the edit at the end, as one step. -/
theorem GrownFor.chainStep {F' F'' : TreeForest}
    {entries entries' : List (Key × Value)} (h : GrownFor key F F')
    (hroom : F'.FullLast 59 key)
    (hedit : Forest.EditsLeaf F' F'' key entries entries') :
    ChainStep (F.FullLast 59 key) F F'' where
  linked hk hF := hedit.linked (h.chain.linked hk hF)
  cut hF := hedit.cut (h.chain.cut hF)
  cuts hnot := by
    rcases h.chain.cuts hnot with hnot' | hcut
    · exact absurd hroom hnot'
    · exact hedit.cut hcut

/-- The tree an insert leaves: some pages were split, and a leaf edited. -/
structure InsertStep (C : Contract State Halt Event) (N : ℕ) (F : TreeForest)
    (m : KeyMap) (k : Key) (v : Value) (R' : Set ℕ) (s' : State)
    (F' : TreeForest) : Prop where
  tree : Tree R' s' F'
  represents : Represents F' (Function.update m k (some v))
  chain : ChainStep (F.FullLast 59 k) F F'
  credit : leafCredit F' ≤ leafCredit F + 1
  within : leafCredit F + 1 ≤ N → Within C N F' s'
  edits : ∃ F₁ root entries, SearchTree F₁ 59 root ∧ Grown k F F₁ ∧
    Forest.EditsLeaf F₁ F' k entries (putEntry k v entries)

/-- An insert sets the value of its key and tells whether it was absent. -/
theorem Tree.insert_step (hC : Inserts N C) (h : Tree R s F)
    (hN : Within C N F s) {m : KeyMap} (hm : Represents F m) (k : Key)
    (v : Value) :
    Meets C (LeanStoreTree.insert k v) s fun ok s' =>
      ok = (m k).isNone ∧ ∃ R' F', InsertStep C N F m k v R' s' F' := by
  unfold LeanStoreTree.insert
  apply Meets.bind
  refine (rootForInsert_meets hC h hN k).mono ?_
  rintro q t ⟨R₁, F₁, r, rfl, htree, hsame, hN₁, hpath⟩
  apply Meets.bind
  have hlevel := htree.level_lt (htree.ready.settled.cached.shown hpath.mem)
  refine (findLeafSplitting_meets hC maxLevels htree hN₁ hpath
    (hlevel.trans (by decide))).mono ?_
  rintro q u ⟨R₂, F₂, x, rfl, htree', hsame', hN₂, hpathX, hleaf⟩
  have hgrown := hsame.trans hsame'
  have hm' := hm.same hgrown.stored
  have hready := htree'.ready
  have hcached := hready.settled.cached
  have hformed := hcached.formed hpathX.mem
  have hshown := hcached.shown hpathX.mem
  have hnode : u.nodeAt x = .leaf (u.slotPage x).minLimit
      (u.slotPage x).maxLimit (u.slotPage x).entries (u.slotPage x).nextLeaf :=
    Page.node_of_leaf hleaf
  have hroom : (u.slotPage x).count.toNat < 59 := by
    rw [← Page.node_size (w := u.addressOf) hformed]
    exact hpathX.room
  have hcovers := hpathX.covers
  rw [hnode] at hshown hcovers
  have hsorted : SortedEntries (u.slotPage x).entries :=
    (htree'.search.sound hshown).entries_sorted
  have hfind : findEntry k (u.slotPage x).entries = m k := by
    apply Option.ext
    intro w
    rw [hsorted.findEntry_eq_some, ← hm' k w]
    exact (htree'.search.stored_iff hshown rfl hcovers).symm
  obtain ⟨hresult, hentries⟩ :=
    BTreeLeaf.insert_spec hformed.count_le hsorted hroom (k := k) (v := v)
  obtain ⟨honly, _⟩ := BTreeLeaf.insert_entriesOnly hroom (k := k) (v := v)
  apply Meets.bind
  apply meets_gets
  apply Meets.bind
  refine meets_emit fun hrely =>
    ⟨hC.base.called hrely (NodeCall.safe_leafInsert hroom), ?_⟩
  rcases hinsert : BTreeLeaf.insert (u.slotPage x) k v with ⟨inserted, p₀⟩
  rw [hinsert] at hresult hentries honly
  apply Meets.bind
  apply meets_modify
  apply meets_pure
  refine ⟨hresult.trans (by rw [hfind]), ?_⟩
  generalize hp' : ({ p₀ with dirty := true } : Page) = p'
  have honly' : (u.slotPage x).EntriesOnly p' := by
    rw [← hp']
    refine ⟨?_, honly.2⟩
    have hp₀ : p₀ = { u.slotPage x with
        data := p₀.data, count := p₀.count, dirty := p₀.dirty } := honly.1
    rw [hp₀]
  have hdirty : p'.dirty = true := by rw [← hp']
  have hentries' : p'.entries = putEntry k v (u.slotPage x).entries := by
    rw [← hp', ← hentries]
    rfl
  have hspec := editSpec_put hsorted (k := k) v
  have hlength : (putEntry k v (u.slotPage x).entries).length ≤ 59 := by
    rw [← hentries', Page.length_entries honly'.2]
    exact honly'.2
  have hedit : Forest.EditsLeaf F₂ (editedForest F₂ u x p') k
      (u.slotPage x).entries (putEntry k v (u.slotPage x).entries) := by
    refine ⟨_, _, _, _, hshown, hcovers, ?_⟩
    rw [editedForest, hentries']
  have hcredit : leafCredit (editedForest F₂ u x p') ≤ leafCredit F + 1 := by
    rw [← hgrown.credit]
    exact hedit.weigh_credit (length_putEntry_le k v _)
  obtain ⟨r', hr'⟩ := htree'.rooted
  refine ⟨R₂, _, htree'.edits hedit hspec hlength
    (hready.editLeaf hpathX.mem hleaf honly' (Or.inl hdirty))
    ⟨r', hr'.editLeaf honly'⟩ ⟨rfl, rfl, rfl, rfl, rfl, rfl, rfl, id⟩, ?_, ?_,
    hcredit, fun hle => hN₂.step (n := 0) (hcredit.trans hle) rfl rfl rfl,
    _, _, _, htree'.search, hgrown, hedit⟩
  · have := hm'.edits htree'.search hedit hspec hlength
    rwa [findEntry_putEntry hsorted] at this
  · refine hgrown.toGrownFor.chainStep ?_ hedit
    refine fullLast_of_room htree'.search hshown rfl hcovers ?_
    change (u.slotPage x).entries.length < 59
    rw [Page.length_entries hformed.count_le]
    exact hroom

theorem Tree.insert_meets (hC : Runs C) (h : Tree R s F) {m : KeyMap}
    (hm : Represents F m) (k : Key) (v : Value) :
    Meets C (LeanStoreTree.insert k v) s fun ok s' =>
      ok = (m k).isNone ∧ TreeAfter (F.FullLast 59 k) F
        (Function.update m k (some v)) s' := by
  refine (h.insert_step (hC.inserts _) (hC.within F s) hm k v).mono ?_
  rintro ok s' ⟨hok, R', F', hstep⟩
  exact ⟨hok, R', F', hstep.tree, hstep.represents, hstep.chain⟩

end Programs

end CachingDex
