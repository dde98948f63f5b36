import CachingDex.PoolSteps

/-!
# The cooling table and the free list under a coherent state

`Keeps` says what a step of the cache leaves alone: the fields of the tree
object, `super_root_`, the pages that may not be demoted, and of every other
page that stays resident everything but its child words.

The programs that hand slots around keep a state coherent and move one slot
between the hand and the rest of the pool.
-/

namespace CachingDex

open Lib Lib.Traced

/-! ## What a step leaves alone -/

/-- Everything but the child words and the bitmap is the same. -/
def SameHeader (p p' : Page) : Prop :=
  p' = { p with children := p'.children, bitmap := p'.bitmap }

theorem SameHeader.refl (p : Page) : SameHeader p p := rfl

theorem SameHeader.trans {p q r : Page} (h : SameHeader p q)
    (h' : SameHeader q r) : SameHeader p r := by
  rw [SameHeader] at h h' ⊢
  rw [h']
  conv_lhs => rw [h]

section SameHeader

variable {p p' : Page} (h : SameHeader p p')
include h

theorem SameHeader.posState : p'.posState = p.posState := by
  rw [SameHeader] at h
  rw [h]

theorem SameHeader.parentPtr : p'.parentPtr = p.parentPtr := by
  rw [SameHeader] at h
  rw [h]

theorem SameHeader.type : p'.type = p.type := by
  rw [SameHeader] at h
  rw [h]

theorem SameHeader.level : p'.level = p.level := by
  rw [SameHeader] at h
  rw [h]

theorem SameHeader.count : p'.count = p.count := by
  rw [SameHeader] at h
  rw [h]

theorem SameHeader.remoteAddress : p'.remoteAddress = p.remoteAddress := by
  rw [SameHeader] at h
  rw [h]

end SameHeader

/-- The fields the cache leaves to the tree. -/
structure Steady (s s' : State) : Prop where
  root : s'.root = s.root
  height : s'.height = s.height
  leafNum : s'.leafNum = s.leafNum
  innerNum : s'.innerNum = s.innerNum
  curOffset : s'.backend.curOffset = s.backend.curOffset
  capacity : s'.backend.capacityBytes = s.backend.capacityBytes
  pageNum : s'.allocator.pageNum = s.allocator.pageNum
  dynamic : s.dynamic = true → s'.dynamic = true

theorem Steady.refl (s : State) : Steady s s :=
  ⟨rfl, rfl, rfl, rfl, rfl, rfl, rfl, id⟩

theorem Steady.trans {s t u : State} (h : Steady s t) (h' : Steady t u) :
    Steady s u :=
  ⟨h'.root.trans h.root, h'.height.trans h.height,
    h'.leafNum.trans h.leafNum, h'.innerNum.trans h.innerNum,
    h'.curOffset.trans h.curOffset, h'.capacity.trans h.capacity,
    h'.pageNum.trans h.pageNum, fun hs => h'.dynamic (h.dynamic hs)⟩

/-- Pages the sampler must not demote: pinned ones, those below
`super_root_`, and those in `B`. -/
def Anchored (B : Set PagePtr) (s : State) (i : ℕ) : Prop :=
  (s.slotPage i).posState = .pin ∨
    (s.slotPage i).parentPtr = some .superRoot ∨ .slot i ∈ B

structure Keeps (B : Set PagePtr) (R R' : Set ℕ) (s s' : State) : Prop where
  steady : Steady s s'
  super : s'.page .superRoot = s.page .superRoot
  sub : R' ⊆ R
  header : ∀ {i}, i ∈ R' → SameHeader (s.slotPage i) (s'.slotPage i)
  word : ∀ {i}, i ∈ R' → ∀ k,
    (s'.slotPage i).slots[k]? = (s.slotPage i).slots[k]? ∨
      ∃ q a, (s.slotPage i).Tags k q ∧
        (s'.slotPage i).slots[k]? = some (.remote a)
  kept : ∀ {i}, i ∈ R → Anchored B s i → i ∈ R'

namespace Keeps

variable {B : Set PagePtr} {R R' R'' : Set ℕ} {s t u : State}

theorem refl (B : Set PagePtr) (R : Set ℕ) (s : State) : Keeps B R R s s :=
  ⟨.refl s, rfl, subset_rfl, fun _ => .refl _, fun _ _ => Or.inl rfl,
    fun hi _ => hi⟩

/-- A tagged word was tagged before. -/
theorem tags (h : Keeps B R R' s t) {i k : ℕ} {q : PagePtr} (hi : i ∈ R')
    (hq : (t.slotPage i).Tags k q) : (s.slotPage i).Tags k q := by
  rcases h.word hi k with heq | ⟨_, a, _, hremote⟩
  · exact heq.symm.trans hq
  · have := hq.symm.trans hremote
    simp at this

/-- A word that is not tagged stays. -/
theorem remote (h : Keeps B R R' s t) {i k : ℕ} {a : GlobalAddress}
    (hi : i ∈ R') (ha : (s.slotPage i).slots[k]? = some (.remote a)) :
    (t.slotPage i).slots[k]? = some (.remote a) := by
  rcases h.word hi k with heq | ⟨q, _, htag, _⟩
  · exact heq.trans ha
  · have := htag.symm.trans ha
    simp at this

theorem anchored (h : Keeps B R R' s t) {i : ℕ} (hi : i ∈ R')
    (ha : Anchored B s i) : Anchored B t i := by
  have hheader := h.header hi
  rw [SameHeader] at hheader
  rw [Anchored, hheader]
  exact ha

theorem trans (h : Keeps B R R' s t) (h' : Keeps B R' R'' t u) :
    Keeps B R R'' s u where
  steady := h.steady.trans h'.steady
  super := h'.super.trans h.super
  sub := h'.sub.trans h.sub
  header hi := (h.header (h'.sub hi)).trans (h'.header hi)
  word := by
    intro i hi k
    rcases h'.word hi k with heq | ⟨q, a, htag, hremote⟩
    · rw [heq]
      exact h.word (h'.sub hi) k
    · exact Or.inr ⟨q, a, h.tags (h'.sub hi) htag, hremote⟩
  kept := by
    intro i hi ha
    have hmid := h.kept hi ha
    exact h'.kept hmid (h.anchored hmid ha)

/-- A step that leaves the resident pages alone keeps everything. -/
theorem of_pages (hsteady : Steady s t)
    (hsuper : t.page .superRoot = s.page .superRoot)
    (hpage : ∀ i ∈ R, t.slotPage i = s.slotPage i) : Keeps B R R s t where
  steady := hsteady
  super := hsuper
  sub := subset_rfl
  header hi := by
    rw [hpage _ hi]
    exact .refl _
  word hi _ := by
    rw [hpage _ hi]
    exact Or.inl rfl
  kept hi _ := hi

end Keeps

/-! ## Contracts -/

/-- What the sampler does with a page it finds, as far as the set `B` of
pages in the middle of a split tells. -/
def Classified (B : Set PagePtr) (cur : PagePtr) (outcome : Sampled) : Prop :=
  (cur ∈ B ∧ (outcome = .staleParent ∨ outcome = .checkFailed)) ∨
    (cur ∉ B ∧ (outcome = .demoted ∨ outcome = .superRootChild))

/-- The contract allows what the cache does: it may give up once it recycles
slots, sampling events and safe calls are guaranteed once they are relied on,
and where the state is not tidy two assertions may fail. -/
structure Tolerates (tidy : Prop) (B : Set PagePtr)
    (C : Contract State Halt Event) : Prop where
  exit0 : C.rely .recycled → ∀ s, C.mayHalt .exit0 s
  recycled : C.guarantee .recycled
  evicted : ∀ p, C.guarantee (.evicted p)
  handedOut : ∀ p, C.guarantee (.handedOut p)
  indexed : ∀ indices, C.guarantee (.indexed indices)
  written : ∀ obsolete, C.guarantee (.written obsolete)
  sampled : ∀ {cur outcome}, C.rely (.sampled cur outcome) →
    Classified B cur outcome →
      cur ∉ B ∧ C.guarantee (.sampled cur outcome)
  called : ∀ {call}, C.rely (.called call) → NodeCall.Safe call →
    C.guarantee (.called call)
  untidy : ¬ tidy → (∀ s, C.mayHalt (.assertion .evictDirty) s) ∧
    (∀ s, C.mayHalt (.assertion .parentChildInfo) s) ∧
      ∀ cur, C.guarantee (.sampled cur .checkFailed)

section Programs

variable {tidy : Prop} {adrift : GlobalAddress → Prop}
  {loose H U R : Set ℕ} {s : State} {F : TreeForest} {B : Set PagePtr}
  {C : Contract State Halt Event}

/-- A page on its way out of the pool is taken out of the page table. -/
theorem Mapped.remove (h : Mapped U R s) {v : ℕ} (hv : v ∉ R) :
    Mapped (insert v U) R { s with pageTable :=
      (s.pageTable.remove (s.addr v) (.slot v)).1 } := by
  obtain ⟨hinv, hget, _⟩ := h.inv.remove (s.addr v) (.slot v)
  refine ⟨hinv, ?_, ?_⟩
  · intro a q hq
    dsimp only at hq
    rw [hget, Function.update_apply] at hq
    split_ifs at hq with ha hown
    · obtain ⟨i, hi, rfl, hU, hi', hpos⟩ := h.maps (ha ▸ hq)
      refine ⟨i, hi, rfl, ?_, hi', hpos⟩
      rintro (rfl | hmem)
      · exact hown hq
      · exact hU hmem
    · obtain ⟨i, hi, rfl, hU, hi', hpos⟩ := h.maps hq
      refine ⟨i, hi, rfl, ?_, hi', hpos⟩
      rintro (rfl | hmem)
      · exact ha hi'.symm
      · exact hU hmem
  · intro i hi
    change (s.pageTable.remove (s.addr v) (.slot v)).1.get (s.addr i) = _
    rw [hget, Function.update_apply]
    split_ifs with ha hown
    · -- the entry of the address is that of the resident slot
      have hi' := h.mapped hi
      rw [ha, hown] at hi'
      obtain rfl : v = i := by simpa using hi'
      exact absurd hi hv
    · exact ha ▸ h.mapped hi
    · exact h.mapped hi

theorem evictLast_meets (hC : Tolerates tidy B C)
    (h : Coherent tidy adrift loose H U R s F) {j : ℕ}
    (hj : j < s.hashTable.bucketNum) :
    Meets C (evictLast j) s fun r s' =>
      match r with
      | none => s' = s ∧ (s.hashTable.table j).count = 0
      | some q => ∃ v, q = .slot v ∧ v ∉ H ∧ v ∉ R ∧
          (s.slotPage v).posState = .cool ∧
          s' = s.setBucket j (s.hashTable.table j).dropLast ∧
          (s.hashTable.table j).count ≠ 0 ∧
          Coherent tidy adrift loose (insert v H) U R s' F := by
  unfold evictLast
  apply Meets.bind
  apply meets_gets
  apply meets_ite
  · intro hzero
    exact meets_pure ⟨rfl, hzero⟩
  · intro hne
    obtain ⟨v, hlast, hH, hR, hcool, hv, hpool⟩ := h.pool.evict hj hne
    have hdone : Coherent tidy adrift loose (insert v H) U R
        (s.setBucket j (s.hashTable.table j).dropLast) F :=
      ⟨hpool, h.cached.congr (fun _ _ => rfl) rfl,
        h.backed.congr rfl rfl (fun _ _ => ⟨rfl, rfl⟩) fun _ hd => hd,
        h.mapped.congr rfl rfl (fun _ => rfl) fun _ hl => hl⟩
    apply Meets.bind
    apply meets_gets
    apply Meets.bind
    rw [hlast]
    by_cases hdirty : (s.slotPage v).dirty = false
    · apply meets_check (by simp [hdirty])
      apply Meets.bind
      apply meets_modify
      apply Meets.bind
      apply meets_emit
      intro _
      exact ⟨hC.evicted _,
        meets_pure ⟨v, rfl, hH, hR, hcool, rfl, hne, hdone⟩⟩
    · have hnot : ¬ tidy := fun ht => by
        have hlt : v < s.allocator.pageNum := hv.trans_le h.pool.head_le
        exact hR (h.backed.clean ht hlt (by simpa using hdirty))
      rw [check, if_neg (by simpa using hdirty)]
      exact meets_halt ((hC.untidy hnot).1 _)

theorem removeFromPageTable_meets (hC : Tolerates tidy B C) (v : ℕ)
    {Q : Unit → State → Prop}
    (hQ : Q () { s with pageTable :=
      (s.pageTable.remove (s.addr v) (.slot v)).1 }) :
    Meets C (removeFromPageTable (.slot v)) s Q := by
  unfold removeFromPageTable
  apply Meets.bind
  apply meets_gets
  apply Meets.bind
  apply meets_emit_of (hC.indexed _)
  exact meets_modify hQ

/-- A removal from the page table keeps a state coherent. -/
theorem Coherent.removeFromPageTable
    (h : Coherent tidy adrift loose H U R s F) {v : ℕ} (hv : v ∉ R) :
    Coherent tidy adrift loose H (insert v U) R { s with pageTable :=
      (s.pageTable.remove (s.addr v) (.slot v)).1 } F :=
  ⟨h.pool.congr rfl rfl rfl rfl fun _ => rfl,
    h.cached.congr (fun _ _ => rfl) rfl,
    h.backed.congr rfl rfl (fun _ _ => ⟨rfl, rfl⟩) fun _ hd => hd,
    h.mapped.remove hv⟩

/-- Probing the buckets finds nothing and changes nothing, or takes one
cooling page out of its bucket and out of the page table. -/
theorem probe_meets (hC : Tolerates tidy B C)
    (h : Coherent tidy adrift loose H U R s F) (n : ℕ) {j : ℕ}
    (hj : j + n ≤ s.hashTable.bucketNum) :
    Meets C (probe n j) s fun r s' =>
      match r with
      | none => s' = s
      | some q => ∃ v, q = .slot v ∧ v ∉ H ∧ v ∉ R ∧
          Keeps B R R s s' ∧
          Coherent tidy adrift loose (insert v H) (insert v U) R s' F := by
  induction n generalizing j with
  | zero => exact meets_pure rfl
  | succ n ih =>
      unfold probe
      apply Meets.bind
      apply meets_gets
      apply Meets.bind
      apply meets_emit_of (hC.indexed _)
      apply Meets.bind
      refine (evictLast_meets hC h (by omega)).mono ?_
      intro r s' hr
      cases r with
      | none =>
          obtain ⟨rfl, _⟩ := hr
          exact ih (by omega)
      | some q =>
          obtain ⟨v, rfl, hH, hR, _, hs', _, hcoh⟩ := hr
          apply Meets.bind
          apply removeFromPageTable_meets hC
          refine meets_pure ⟨v, rfl, hH, hR, ?_, hcoh.removeFromPageTable hR⟩
          subst hs'
          exact .of_pages ⟨rfl, rfl, rfl, rfl, rfl, rfl, rfl, id⟩ rfl fun _ _ => rfl

theorem randomEvictToRemote_meets (hC : Tolerates tidy B C)
    (h : Coherent tidy adrift loose H U R s F) (probingLength : ℕ) :
    Meets C (randomEvictToRemote probingLength) s fun r s' =>
      Keeps B R R s s' ∧
      match r with
      | none => Coherent tidy adrift loose H U R s' F ∧
          s'.localPageSet = s.localPageSet
      | some q => ∃ v, q = .slot v ∧ v ∉ H ∧ v ∉ R ∧
          Coherent tidy adrift loose (insert v H) (insert v U) R s' F := by
  have hlt : s.bucketDraws 0 % s.hashTable.bucketNum <
      s.hashTable.bucketNum := Nat.mod_lt _ h.pool.buckets
  unfold randomEvictToRemote randomBucketIdx
  apply Meets.bind
  apply Meets.bind
  apply meets_gets
  apply Meets.bind
  apply meets_emit_of (hC.indexed _)
  apply Meets.bind
  apply meets_modify
  apply Meets.bind
  apply meets_check (decide_eq_true hlt)
  apply meets_pure
  apply Meets.bind
  apply meets_gets
  have hdrawn : Coherent tidy adrift loose H U R
      { s with bucketDraws := fun n => s.bucketDraws (n + 1) } F :=
    h.congr rfl rfl rfl rfl rfl rfl rfl
  have hkeeps : Keeps B R R s
      { s with bucketDraws := fun n => s.bucketDraws (n + 1) } :=
    .of_pages ⟨rfl, rfl, rfl, rfl, rfl, rfl, rfl, id⟩ rfl fun _ _ => rfl
  refine (probe_meets hC hdrawn _ ?_).mono ?_
  · simp only
    omega
  · intro r s' hr
    cases r with
    | none =>
        obtain rfl : s' = _ := hr
        exact ⟨hkeeps, hdrawn, rfl⟩
    | some q =>
        obtain ⟨v, rfl, hH, hR, hk, hcoh⟩ := hr
        exact ⟨hkeeps.trans hk, v, rfl, hH, hR, hcoh⟩

theorem getLocalPageSet_meets (h : Coherent tidy adrift loose H U R s F) :
    Meets C getLocalPageSet s fun r s' =>
      match r with
      | none => s' = s ∧ s.localPageSet = []
      | some q => ∃ v, q = .slot v ∧ v ∉ H ∧ v ∉ R ∧ Keeps B R R s s' ∧
          Coherent tidy adrift loose (insert v H) (insert v U) R s' F := by
  unfold getLocalPageSet
  apply Meets.bind
  apply meets_gets
  cases hlist : s.localPageSet with
  | nil => exact meets_pure ⟨rfl, rfl⟩
  | cons p rest =>
      obtain ⟨v, rfl, hH, hR, _, hlocal, hpool⟩ := h.pool.pop hlist
      apply Meets.bind
      apply meets_modify
      refine meets_pure ⟨v, rfl, hH, hR,
        .of_pages ⟨rfl, rfl, rfl, rfl, rfl, rfl, rfl, id⟩ rfl fun _ _ => rfl,
        hpool, h.cached.congr (fun _ _ => rfl) rfl,
        h.backed.congr rfl rfl (fun _ _ => ⟨rfl, rfl⟩) fun _ hd => hd, ?_⟩
      refine ⟨h.mapped.inv, ?_, h.mapped.mapped⟩
      intro a q hq
      obtain ⟨i, hi, rfl, hU, ha, hpos⟩ := h.mapped.maps hq
      refine ⟨i, hi, rfl, ?_, ha, hpos⟩
      rintro (rfl | hmem)
      · exact hpos hlocal
      · exact hU hmem

theorem insertLocalSet_meets (h : Coherent tidy adrift loose H U R s F)
    {v : ℕ} (hv : v ∈ H) (hU : v ∈ U) :
    Meets C (insertLocalSet (.slot v)) s fun _ s' =>
      Keeps B R R s s' ∧
        Coherent tidy adrift loose (H \ {v}) (U \ {v}) R s' F := by
  have hR : v ∉ R := fun hR => (h.pool.resident_iff.mp hR).2.1 hv
  have hpage : ∀ i, i ≠ v →
      (s.setPage (.slot v) { s.slotPage v with posState := .local }).slotPage i
        = s.slotPage i := by
    intro i hi
    exact State.setPage_of_ne (by simpa using hi)
  have hself :
      (s.setPage (.slot v) { s.slotPage v with posState := .local }).slotPage v
        = { s.slotPage v with posState := .local } := State.setPage_self ..
  have hresident : ∀ i ∈ R,
      (s.setPage (.slot v) { s.slotPage v with posState := .local }).slotPage i
        = s.slotPage i := fun i hi => hpage i fun heq => hR (heq ▸ hi)
  have hsuper : (s.setPage (.slot v)
      { s.slotPage v with posState := .local }).page .superRoot =
        s.page .superRoot := State.setPage_of_ne (by simp)
  have haddr : ∀ i, (s.setPage (.slot v)
      { s.slotPage v with posState := .local }).addr i = s.addr i := by
    intro i
    by_cases hi : i = v
    · subst hi
      rw [State.addr, hself]
    · rw [State.addr, hpage i hi]
  unfold insertLocalSet
  apply Meets.bind
  apply meets_modify
  apply meets_modify
  refine ⟨.of_pages ⟨rfl, rfl, rfl, rfl, rfl, rfl, rfl, id⟩ hsuper hresident,
    h.pool.release hv, h.cached.congr hresident hsuper, ?_, ?_⟩
  · refine h.backed.congr rfl rfl (fun i hi => ⟨haddr i, ?_⟩) ?_
    · exact congrArg Page.dirty (hresident i hi)
    · intro i hd
      by_cases hi : i = v
      · subst hi
        exact (congrArg Page.dirty hself).symm.trans hd
      · exact (congrArg Page.dirty (hpage i hi)).symm.trans hd
  · refine ⟨h.mapped.inv, ?_, ?_⟩
    · intro a q hq
      obtain ⟨i, hi, rfl, hiU, ha, hpos⟩ := h.mapped.maps hq
      have hne : i ≠ v := by
        rintro rfl
        exact hiU hU
      refine ⟨i, hi, rfl, fun hmem => hiU hmem.1, (haddr i).trans ha, ?_⟩
      intro hl
      exact hpos ((congrArg Page.posState (hpage i hne)).symm.trans hl)
    · intro i hi
      have hmapped := h.mapped.mapped hi
      rw [← haddr i] at hmapped
      exact hmapped

end Programs

end CachingDex
