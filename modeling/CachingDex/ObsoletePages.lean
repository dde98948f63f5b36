import CachingDex.IoMarker

/-!
# Obsolete pages

A page is marked obsolete when a newer image took its place or when its
limits no longer fit.  It stays in its slot until the slot is reused, and
whatever meets it there writes it back if it is dirty.  So a run never writes
an obsolete page exactly as long as no page is obsolete and dirty at once,
and the manager itself never brings this about: it happens when a dirty page
is marked, or when the tree works on a marked page.
-/

namespace CachingDex

open Lib Lib.Traced

/-- There is nothing to write of an obsolete page. -/
def Page.Harmless (p : Page) : Prop :=
  p.obsolete = true → p.dirty = false

theorem Page.Harmless.of_current {p : Page} (h : p.obsolete = false) :
    p.Harmless := by
  intro hobsolete
  rw [h] at hobsolete
  cases hobsolete

/-- The event is not the writing of an obsolete page. -/
def Event.sparesNewer : Event → Bool
  | .written obsolete => !obsolete
  | .inSplit _ e => e.sparesNewer
  | _ => true

/-- The page a node operation works on is not obsolete. -/
def NodeCall.onCurrent : NodeCall → Bool
  | .leafInsert p _ => !p.obsolete
  | .leafUpdate p _ => !p.obsolete
  | .leafRemove p _ => !p.obsolete
  | .leafSplit p => !p.obsolete
  | .innerInsert p _ => !p.obsolete
  | .innerSplit p => !p.obsolete
  | .setBitmap _ => true

def Event.onCurrent : Event → Bool
  | .called call => call.onCurrent
  | .inSplit _ e => e.onCurrent
  | _ => true

/-- The slot `q` is not handed out. -/
def Event.keeps (q : PagePtr) : Event → Bool
  | .handedOut page => page ≠ q
  | .inSplit _ e => e.keeps q
  | _ => true

theorem Page.Harmless.tended {p p' : Page} (hp : p.Harmless)
    (h : p.Tended p') : p'.Harmless := by
  intro hobsolete
  rw [h.obsolete] at hobsolete
  cases hdirty : p'.dirty with
  | false => rfl
  | true => exact (h.dirty hdirty).symm.trans (hp hobsolete)

/-- Runs that write no obsolete page, if the tree works on none and no slot in
`L` is handed out.  The pages in `K` are clean, too. -/
def harmlessUpkeep (K L : Set PagePtr) : Upkeep where
  contract :=
    ⟨fun e => e.onCurrent = true ∧ ∀ q ∈ L, e.keeps q = true,
      fun e => e.sparesNewer = true, fun _ _ => True⟩
  page q p := p.Harmless ∧ (q ∈ K → p.dirty = false)
  image p := p.Harmless
  pointer _ := True
  rest _ := True
  slot _ := trivial
  child _ _ := trivial
  tended := by
    intro q p p' hp h
    refine ⟨hp.1.tended h, fun hq => ?_⟩
    cases hdirty : p'.dirty with
    | false => rfl
    | true => exact (h.dirty hdirty).symm.trans (hp.2 hq)
  stored _ _ hclean _ := hclean
  kept hp h := hp.tended h
  step _ _ := trivial
  event := by
    intro e he
    cases e with
    | written => cases he
    | inSplit => cases he
    | _ => rfl
  indexed _ _ := rfl
  written := by
    intro _ p hp hdirty
    cases hobsolete : p.obsolete with
    | false => rfl
    | true => exact absurd (hp.1 hobsolete) (by simp [hdirty])
  mayHalt _ _ := trivial

theorem harmless_load {L : Set PagePtr} ⦃q : PagePtr⦄ ⦃p : Page⦄
    (h : p.Harmless) : (harmlessUpkeep ∅ L).page q p :=
  ⟨h, fun hq => hq.elim⟩

theorem current_of_not {b : Bool} (h : (!b) = true) : b = false := by
  cases b with
  | false => rfl
  | true => cases h

/-- For the tree a page is current if it is not obsolete. -/
def harmlessTree : TreeUpkeep where
  toUpkeep := harmlessUpkeep ∅ ∅
  current p := p.obsolete = false
  current_congr hp h := h.trans hp
  current_new hp := hp
  page_current hp := harmless_load (.of_current hp)
  image_current hp := .of_current hp
  loaded := harmless_load
  linked := by
    intro q p p' hp hobsolete hdirty
    refine harmless_load fun h => ?_
    cases hd : p'.dirty with
    | false => rfl
    | true => exact (hdirty hd).symm.trans (hp.1 (hobsolete ▸ h))
  called := by
    intro call hrely
    refine ⟨rfl, ?_⟩
    have hcurrent : call.onCurrent = true := hrely.1
    cases call with
    | setBitmap => trivial
    | _ => exact current_of_not hcurrent
  rely_inSplit h := ⟨h.1, h.2⟩
  guarantee_inSplit h := h

theorem harmlessTree_grows : harmlessTree.Grows where
  allocFailed := rfl
  resized _ _ _ _ := trivial

/-- No page and no image is obsolete and dirty. -/
abbrev AllHarmless (s : State) : Prop :=
  Upheld harmlessTree.toUpkeep s

/-- The program writes no obsolete page and leaves none dirty. -/
abbrev Spares {α : Type} (m : M α) : Prop :=
  Upkeeps harmlessTree.toUpkeep m

theorem harmless_setPage {s : State} (h : AllHarmless s) {q : PagePtr}
    {p : Page} (hp : p.Harmless) : AllHarmless (s.setPage q p) :=
  h.setPage (harmless_load hp)

/-! ## Replacements -/

/-- The pages are as dirty as `d` says. -/
structure Dirt (d : PagePtr → Bool) (s : State) : Prop where
  harmless : AllHarmless s
  dirty : ∀ q, (s.page q).dirty = d q

section Replace

variable {d : PagePtr → Bool} {s : State} {cur parent : PagePtr} {img : Page}

theorem Dirt.setPage (h : Dirt d s) {q : PagePtr} {p : Page}
    (hp : p.Harmless) (hdirty : p.dirty = d q) : Dirt d (s.setPage q p) := by
  refine ⟨harmless_setPage h.harmless hp, fun r => ?_⟩
  by_cases hr : r = q
  · subst hr
    rw [State.setPage_self]
    exact hdirty
  · rw [State.setPage_of_ne hr]
    exact h.dirty r

theorem Dirt.modifyPage (q : PagePtr) {f : Page → Page}
    (hf : ∀ p : Page, p.Harmless → (f p).Harmless)
    (hdirty : ∀ p : Page, (f p).dirty = p.dirty) :
    Maintains harmlessTree.contract (Dirt d) (modifyPage q f) :=
  maintains_modify fun s h => h.setPage (hf _ (h.harmless.page q).1)
    ((hdirty (s.page q)).trans (h.dirty q))

theorem Dirt.replaceChild (parent cur new : PagePtr) :
    Maintains harmlessTree.contract (Dirt d)
      (replaceChild parent cur new) := by
  apply (maintains_gets _).bind
  intro p
  have hlinked : ∀ idx : ℕ,
      Maintains harmlessTree.contract (Dirt d) (do
        CachingDex.modifyPage cur fun q => { q with parentPtr := none }
        CachingDex.modifyPage new fun q => { q with parentPtr := some parent }
        CachingDex.modifyPage parent fun q =>
          q.setChild idx (.swizzled new)) := by
    intro idx
    apply Maintains.bind
    · exact Dirt.modifyPage cur (fun _ hp => hp) fun _ => rfl
    intro _
    apply Maintains.bind
    · exact Dirt.modifyPage new (fun _ hp => hp) fun _ => rfl
    intro _
    exact Dirt.modifyPage parent (fun _ hp => hp) fun _ => rfl
  dsimp only
  split
  · exact maintains_halt fun _ _ => trivial
  · exact hlinked _

theorem Dirt.updatePageTable (a : GlobalAddress) (q : PagePtr) :
    Maintains harmlessTree.contract (Dirt d) (updatePageTable a q) := by
  apply (maintains_gets _).bind
  intro updated
  apply Maintains.bind
  · exact maintains_modify fun s h =>
      ⟨⟨h.harmless.page, h.harmless.scratch, h.harmless.image,
        h.harmless.listed, h.harmless.framed, trivial⟩, h.dirty⟩
  intro _
  apply (maintains_gets _).bind
  intro p
  apply (maintains_onlyIf _ (maintains_halt fun _ _ => trivial)).bind
  intro _
  exact maintains_pure _

/-- The slot of the new page is the first of the free list; the other pages
stay as dirty as they were. -/
theorem replaceWith_harmless (himg : img.Harmless) (h : AllHarmless s) :
    Meets harmlessTree.contract (replaceWith cur parent img) s
      fun new s' => (∃ rest, s.localPageSet = new :: rest) ∧
        Dirt (fun q => if q = new then img.dirty else (s.page q).dirty)
          s' := by
  unfold replaceWith getLocalPageSet
  apply Meets.bind
  apply Meets.bind
  apply meets_gets
  cases hlist : s.localPageSet with
  | nil => exact meets_pure (meets_halt trivial)
  | cons new rest =>
      apply Meets.bind
      apply meets_modify
      apply meets_pure
      dsimp only
      have hpopped : AllHarmless { s with localPageSet := rest } :=
        ⟨h.page, h.scratch, h.image, fun _ => trivial, h.framed, trivial⟩
      have hcopied : Dirt
          (fun q => if q = new then img.dirty else (s.page q).dirty)
          (State.setPage { s with localPageSet := rest } new img) := by
        refine ⟨harmless_setPage hpopped himg, fun q => ?_⟩
        by_cases hq : q = new
        · subst hq
          rw [State.setPage_self, if_pos rfl]
        · rw [State.setPage_of_ne hq, if_neg hq]
      apply Meets.bind
      unfold bufferToCache
      apply Meets.bind
      apply meets_modify
      refine (maintains_check _ (fun _ _ => trivial) _ hcopied).mono ?_
      intro _ s₁ h₁
      apply Meets.bind
      refine (Dirt.replaceChild parent cur new s₁ h₁).mono ?_
      intro _ s₂ h₂
      exact meets_pure ⟨⟨rest, rfl⟩, h₂⟩

theorem spares_finishReplace (parent new : PagePtr) :
    Spares (finishReplace parent new) := by
  apply (upholds_getPage parent).bind_maintains
  intro p _
  apply (upholds_getPage new).bind_maintains
  intro child _
  apply (maintains_check _ fun _ _ => trivial).bind
  intro _
  exact upkeeps_relink new (fun _ => rfl) fun _ => id

/-- The page that a replacement marks is clean: the old page, or the new
image where this goes to the slot of the old page. -/
structure MarksClean (s : State) (cur : PagePtr) (img : Page) : Prop where
  listed : ∀ new rest, s.localPageSet = new :: rest →
    (if cur = new then img.dirty else (s.page cur).dirty) = false
  empty : s.localPageSet = [] → (s.page cur).dirty = false

/-- A dirty image is not put into the slot of the old page. -/
def keptFrom (cur : PagePtr) (img : Page) : Set PagePtr :=
  {q | q = cur ∧ img.dirty = true}

/-- Making room leaves a clean page clean. -/
theorem fillLocalPageSet_harmless (h : AllHarmless s)
    (hclean : MarksClean s cur img) :
    Meets (harmlessUpkeep ∅ (keptFrom cur img)).contract fillLocalPageSet s
      fun _ s' => AllHarmless s' ∧ ∀ new rest,
        s'.localPageSet = new :: rest →
          (if cur = new then img.dirty else (s'.page cur).dirty) = false := by
  unfold fillLocalPageSet
  apply Meets.bind
  apply meets_gets
  cases hlist : s.localPageSet with
  | cons q tail =>
      rw [if_neg (by simp)]
      exact meets_pure ⟨h, hclean.listed⟩
  | nil =>
      rw [if_pos rfl]
      have hkept : Upheld (harmlessUpkeep {cur} (keptFrom cur img)) s := by
        refine ⟨fun q => ⟨(h.page q).1, fun hq => ?_⟩, h.scratch, h.image,
          h.listed, h.framed, trivial⟩
        obtain rfl := hq
        exact hclean.empty hlist
      have hget := upholds_getEmptyPage s hkept
      apply Meets.bind
      refine Meets.mono hget ?_
      rintro new s₁ ⟨⟨_, hrely⟩, h₁⟩
      have hnew : new = cur → img.dirty = false := by
        intro heq
        cases hdirty : img.dirty with
        | false => rfl
        | true =>
            have hkeeps := hrely.2 cur ⟨rfl, hdirty⟩
            exact absurd heq (of_decide_eq_true hkeeps)
      unfold insertLocalSet
      apply Meets.bind
      apply meets_modify
      have hreset : Upheld (harmlessUpkeep {cur} (keptFrom cur img))
          (s₁.setPage new { s₁.page new with posState := .local }) :=
        h₁.setPage ((harmlessUpkeep {cur} _).tended (h₁.page new)
          (.of_children rfl id rfl))
      apply meets_modify
      refine ⟨⟨fun q => harmless_load (hreset.page q).1, hreset.scratch,
        hreset.image, fun _ => trivial, hreset.framed, trivial⟩, ?_⟩
      intro new' rest hfirst
      obtain ⟨rfl, _⟩ := List.cons.inj hfirst
      split_ifs with hcur
      · exact hnew hcur.symm
      · exact (hreset.page cur).2 rfl

theorem updatestReplace_harmless (himg : img.Harmless) (h : AllHarmless s)
    (hclean : MarksClean s cur img) :
    Meets (harmlessUpkeep ∅ (keptFrom cur img)).contract
      (updatestReplace cur parent img) s fun _ s' => AllHarmless s' := by
  unfold updatestReplace
  apply Meets.bind
  refine (fillLocalPageSet_harmless h hclean).mono ?_
  intro _ s₁ hpost
  obtain ⟨h₁, hmarked⟩ := hpost
  apply Meets.bind
  apply meets_gets
  apply Meets.bind
  apply meets_gets
  have hinsert : ∀ a : GlobalAddress, Meets harmlessTree.contract (do
      let newCurNode ← replaceWith cur parent img
      let inserted ← gets fun s => s.pageTable.insert a newCurNode
      Traced.modify fun s => { s with pageTable := inserted.1 }
      check inserted.2.1 (.assertion .replaceEntry)
      finishReplace parent newCurNode) s₁ fun _ s' => AllHarmless s' := by
    intro a
    apply Meets.bind
    refine (replaceWith_harmless himg h₁).mono ?_
    intro new s₂ h₂
    refine maintains_gets_modify ?_ ?_ s₂ h₂.2.harmless
    · exact fun _ h => h.congr rfl rfl rfl rfl rfl (.inserted _ _)
    intro inserted
    apply (maintains_check _ fun _ _ => trivial).bind
    intro _
    exact spares_finishReplace parent new
  have hupdate : ∀ (a : GlobalAddress) (target : PagePtr),
      Meets harmlessTree.contract (do
        check (target = cur) (.assertion .replaceTarget)
        let newCurNode ← replaceWith cur parent img
        let updated ← updatePageTable a newCurNode
        check (updated.1 && updated.2 = some target)
          (.assertion .replaceEntry)
        modifyPage cur fun q => { q with obsolete := true }
        finishReplace parent newCurNode) s₁ fun _ s' => AllHarmless s' := by
    intro a target
    apply Meets.bind
    unfold check
    split
    rotate_left
    · exact meets_halt trivial
    apply meets_pure
    apply Meets.bind
    refine (replaceWith_harmless himg h₁).mono ?_
    intro new s₂ hpost₂
    obtain ⟨⟨rest, hrest⟩, hdirt⟩ := hpost₂
    have hcur := hmarked new rest hrest
    apply Meets.bind
    refine (Dirt.updatePageTable a new s₂ hdirt).mono ?_
    intro updated s₃ h₃
    apply Meets.bind
    refine (maintains_check _ (fun _ _ => trivial) s₃ h₃).mono ?_
    intro _ s₄ h₄
    apply Meets.bind
    apply meets_modify
    apply spares_finishReplace
    apply harmless_setPage h₄.harmless
    intro _
    exact (h₄.dirty cur).trans hcur
  refine Meets.weaken (C := harmlessTree.contract) ?_
    (fun _ hrely => ⟨hrely.1, fun _ hq => hq.elim⟩) (fun _ hkept => hkept)
    fun _ _ _ => trivial
  cases s₁.pageTable.get (s₁.page cur).remoteAddress with
  | none => exact hinsert _
  | some target => exact hupdate _ target

end Replace

/-! ## Runs -/

/-- A call of the tree or of the cache manager. -/
inductive CacheCall where
  | construct
  | operate (op : Op)
  | resetBufferPool (flushDirty : Bool)
  | load (call : LoadCall)
  | updatestReplace (curNode parent : PagePtr) (remoteCurNode : Page)
  | samplePage
  | flushAll
  | hashTableInsert (key : GlobalAddress) (value : PagePtr)

namespace CacheCall

def run : CacheCall → M Unit
  | construct => CachingDex.construct
  | operate op => do
      let _ ← op.run
      pure ()
  | resetBufferPool flushDirty => LeanStoreTree.resetBufferPool flushDirty
  | load call => call.run
  | updatestReplace curNode parent remoteCurNode =>
      CachingDex.updatestReplace curNode parent remoteCurNode
  | samplePage => CachingDex.samplePage
  | flushAll => CachingDex.flushAll
  | hashTableInsert key value => do
      let _ ← CachingDex.hashTableInsert key value
      pure ()

/-- A page that the call marks obsolete is clean, and no image comes in that
is obsolete and dirty. -/
def MarksCleanPages : CacheCall → State → Prop
  | load (.cacheGet _ node parent childIdx _ _ _), s =>
      ∀ q, s.pageTable.get node = some q →
        newCheckLimitMatch (s.page parent) (s.page q) childIdx = false →
        (s.page q).dirty = false
  | updatestReplace curNode _ remoteCurNode, s =>
      remoteCurNode.Harmless ∧ MarksClean s curNode remoteCurNode
  | _, _ => True

/-- The slots that the call must not hand out. -/
def keptSlots : CacheCall → Set PagePtr
  | updatestReplace curNode _ remoteCurNode => keptFrom curNode remoteCurNode
  | _ => ∅

/-- In addition no node operation of the call works on an obsolete page, and
a replacement does not put a dirty image into the slot of the old page. -/
structure Careful (call : CacheCall) (s : State) : Prop where
  onCurrent : ∀ e ∈ (call.run s).trace, e.onCurrent = true
  keepsSlots : ∀ q ∈ call.keptSlots, ∀ e ∈ (call.run s).trace,
    e.keeps q = true
  marksClean : call.MarksCleanPages s

end CacheCall

theorem LoadCall.run_harmless {s : State} (h : AllHarmless s)
    (call : LoadCall) (hcall : (CacheCall.load call).MarksCleanPages s) :
    Meets harmlessTree.contract call.run s
      fun _ s' => AllHarmless s' := by
  cases call with
  | cacheGet l node parent childIdx restart refresh ioEnable =>
      apply Meets.bind
      by_cases hmarker : s.pageTable.get node = some .ioFlag
      · intro _
        rw [cacheGet_of_marker hmarker]
        exact ⟨by simp, trivial⟩
      · have hmarked : ∀ q, s.pageTable.get node = some q →
            newCheckLimitMatch (s.page parent) (s.page q) childIdx = false →
            harmlessTree.page q { s.page q with obsolete := true } :=
          fun q hq hlimits => harmless_load fun _ => hcall q hq hlimits
        refine (cacheGet_meets harmless_load l node parent childIdx restart
          refresh ioEnable h hmarker hmarked).mono ?_
        intro _ s' hpost
        exact meets_pure hpost.1
  | coldToHot l node retPage parent childIdx refresh =>
      apply (upholds_coldToHot harmless_load l node retPage parent childIdx
        refresh).bind_maintains
      · intro _ _
        exact maintains_pure ()
      · exact h
  | coldToHotWithAdmission l admissionIdx idx node retPage parent childIdx
      refresh k result success rpcType =>
      apply (upkeeps_coldToHotWithAdmission harmless_load l admissionIdx idx
        node retPage parent childIdx refresh k result success rpcType).bind
      · intro _
        exact maintains_pure ()
      · exact h

/-- A careful call writes no obsolete page and leaves none dirty. -/
theorem CacheCall.run_harmless {s : State} (h : AllHarmless s)
    (call : CacheCall) (hcall : call.MarksCleanPages s) :
    Meets (harmlessUpkeep ∅ call.keptSlots).contract call.run s
      fun _ s' => AllHarmless s' := by
  cases call with
  | construct => exact upkeeps_construct harmlessTree_grows s h
  | operate op =>
      have hrun : Spares op.run := upkeeps_run harmlessTree_grows op
      exact (hrun.bind fun _ => maintains_pure ()) s h
  | resetBufferPool flushDirty =>
      have hzero : ∀ q, harmlessTree.page q Page.zero := fun _ =>
        harmless_load (.of_current rfl)
      exact upkeeps_resetCache hzero (fun _ => trivial) flushDirty s h
  | load call => exact call.run_harmless h hcall
  | updatestReplace curNode parent remoteCurNode =>
      exact updatestReplace_harmless hcall.1 h hcall.2
  | samplePage => exact upkeeps_samplePage (fun _ _ _ => rfl) s h
  | flushAll => exact upkeeps_flushAll s h
  | hashTableInsert key value =>
      exact ((upholds_hashTableInsert key trivial).bind_maintains
        fun _ _ => maintains_pure ()) s h

theorem allHarmless_initial (c : TreeConfig) : AllHarmless c.initial :=
  upheld_initial c (fun _ => harmless_load (.of_current rfl))
    (.of_current rfl) trivial

/-- In a run of calls that mark clean pages only, and whose node operations
work on current pages only, no obsolete page is written to the backend, and
after it every obsolete page is clean. -/
theorem obsolete_not_written (c : TreeConfig) (calls : List CacheCall)
    (h : Along CacheCall.run CacheCall.Careful c.initial calls) :
    (∀ e ∈ (runAll CacheCall.run calls c.initial).trace,
      e.sparesNewer = true) ∧
    ((runAll CacheCall.run calls c.initial).result = .ok () →
      ∀ q, ((runAll CacheCall.run calls c.initial).state.page q).Harmless) := by
  let C : Contract State Halt Event :=
    ⟨fun _ => True, fun e => e.sparesNewer = true, fun _ _ => True⟩
  have hcall : ∀ call s, AllHarmless s → call.Careful s →
      Meets C (CacheCall.run call) s fun _ s' => AllHarmless s' :=
    fun call s hs hcareful _ =>
      call.run_harmless hs hcareful.marksClean fun e he =>
        ⟨hcareful.onCurrent e he, fun q hq => hcareful.keepsSlots q hq e he⟩
  obtain ⟨htrace, hpost⟩ :=
    h.runAll hcall (allHarmless_initial c) fun _ _ => trivial
  refine ⟨htrace, fun hok q => ?_⟩
  rw [hok] at hpost
  exact (hpost.page q).1

/-- The image of the root leaf of `coldCache` with another value. -/
def newerRoot : Page :=
  { (BTreeLeaf.insert (BTreeLeaf.construct (.make 0 1024)) 5 8).2 with
    dirty := false }

/-- A page that was flushed is replaced by a dirty image, and that one is
flushed. -/
def flushedThenReplaced : List CacheCall :=
  [.construct, .operate (.insert 5 7), .flushAll,
    .updatestReplace (.slot 0) .superRoot { newerRoot with dirty := true },
    .flushAll]

theorem obsolete_not_written_flushed :
    (∀ e ∈ (runAll CacheCall.run flushedThenReplaced coldCache.initial).trace,
      e.sparesNewer = true) ∧
    ∀ q, ((runAll CacheCall.run flushedThenReplaced
      coldCache.initial).state.page q).Harmless := by
  have hflushed : ∃ s, s = (CacheCall.flushAll.run ((CacheCall.operate
      (.insert 5 7)).run (CacheCall.construct.run
        coldCache.initial).state).state).state ∧
      s.localPageSet = [] ∧ (s.page (.slot 0)).dirty = false :=
    ⟨_, rfl, by decide +kernel⟩
  obtain ⟨s, hs, hlist, hclean⟩ := hflushed
  have hrun := obsolete_not_written coldCache flushedThenReplaced ?_
  · exact ⟨hrun.1, hrun.2 (by decide +kernel)⟩
  refine ⟨⟨by decide +kernel, fun _ hq => hq.elim, trivial⟩, fun _ =>
    ⟨⟨by decide +kernel, fun _ hq => hq.elim, trivial⟩, fun _ =>
      ⟨⟨by decide +kernel, fun _ hq => hq.elim, trivial⟩, fun _ =>
        ⟨⟨by decide +kernel, ?_, ?_⟩, fun _ =>
          ⟨⟨by decide +kernel, fun _ hq => hq.elim, trivial⟩, fun _ =>
            trivial⟩⟩⟩⟩⟩
  · rintro q ⟨rfl, _⟩
    decide +kernel
  · refine And.intro (.of_current rfl) ⟨fun new rest hnew => ?_, fun _ => ?_⟩
    · rw [← hs, hlist] at hnew
      cases hnew
    · rw [← hs]
      exact hclean

/-- The leaf of a fresh tree is dirty after an insertion.  A newer image takes
its place, and the flush writes the old page. -/
theorem obsolete_written :
    ¬ ∀ e ∈ (runAll CacheCall.run [.construct, .operate (.insert 5 7),
        .updatestReplace (.slot 0) .superRoot newerRoot, .flushAll]
        coldCache.initial).trace, e.sparesNewer = true := by
  decide +kernel

end CachingDex
