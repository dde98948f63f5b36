import CachingDex.LeanStoreTree
import CachingDex.Upkeep

/-!
# What the operations of the tree keep

The tree reads and writes pages through the manager.  On its own account it
changes the links between pages, which leaves of a page whether it is obsolete
and how dirty it is, and it works on pages that a node operation is called on,
and on new ones.  A property of pages that survives the former, and that the
latter have in any case, holds after an operation of the tree if it held
before, and so does a property of the outline that the manager keeps.  As long
as no page splits the sizes of backend and tree stay as they are.
-/

namespace CachingDex

open Lib Lib.Traced

/-- The page that a node operation works on satisfies `P`. -/
def NodeCall.On (P : Page → Prop) : NodeCall → Prop
  | .leafInsert p _ => P p
  | .leafUpdate p _ => P p
  | .leafRemove p _ => P p
  | .leafSplit p => P p
  | .innerInsert p _ => P p
  | .innerSplit p => P p
  | .setBitmap _ => True

/-- A property of pages in which the links of a page do not count, and which
every current page has.  Whether a page is current shows in its flag, and the
pages that node operations work on are current. -/
structure TreeUpkeep extends Upkeep where
  current : Page → Prop
  current_congr : ∀ {p p' : Page}, current p → p'.obsolete = p.obsolete →
    current p'
  current_new : ∀ {p : Page}, p.obsolete = false → current p
  page_current : ∀ {q p}, current p → page q p
  image_current : ∀ {p}, current p → image p
  loaded : ∀ ⦃q p⦄, image p → page q p
  linked : ∀ {q p p'}, page q p → p'.obsolete = p.obsolete →
    (p'.dirty = true → p.dirty = true) → page q p'
  called : ∀ {call}, contract.rely (.called call) →
    contract.guarantee (.called call) ∧ call.On current
  rely_inSplit : ∀ {w e}, contract.rely (.inSplit w e) → contract.rely e
  guarantee_inSplit : ∀ {w e}, contract.guarantee e →
    contract.guarantee (.inSplit w e)

/-- The sizes of backend and tree do not count either. -/
structure TreeUpkeep.Grows (U : TreeUpkeep) : Prop where
  allocFailed : U.contract.guarantee .allocFailed
  resized : ∀ {o} (curOffset leafNum innerNum : ℕ), U.rest o →
    U.rest { o with
      curOffset := curOffset
      leafNum := leafNum
      innerNum := innerNum }

theorem upheld_initial {U : Upkeep} (c : TreeConfig)
    (hpage : ∀ q, U.page q Page.zero) (himage : U.image Page.zero)
    (hrest : U.rest c.initial.outline) : Upheld U c.initial where
  page := hpage
  scratch := himage
  image _ := himage
  listed h := by cases h
  framed j i f hf := by
    change Bucket.empty.frames[i]? = some f at hf
    rw [Bucket.empty, Vector.getElem?_replicate] at hf
    split at hf
    · rw [← Option.some.inj hf]
      exact U.slot 0
    · cases hf
  rest := hrest

section Programs

variable {U : TreeUpkeep} {s : State}

/-! ## Pages -/

theorem upkeeps_relink (q : PagePtr) {f : Page → Page}
    (hobsolete : ∀ p, (f p).obsolete = p.obsolete)
    (hdirty : ∀ p, (f p).dirty = true → p.dirty = true) :
    Upkeeps U.toUpkeep (modifyPage q f) :=
  maintains_modify fun _ h =>
    h.setPage (U.linked (h.page q) (hobsolete _) (hdirty _))

theorem upkeeps_step {f : State → State} (hpage : ∀ s, (f s).page = s.page)
    (hscratch : ∀ s, (f s).scratch = s.scratch)
    (hbackend : ∀ s, (f s).backend = s.backend)
    (hlocal : ∀ s, (f s).localPageSet = s.localPageSet)
    (htable : ∀ s, (f s).hashTable = s.hashTable)
    (houtline : ∀ s, (f s).outline = s.outline) :
    Upkeeps U.toUpkeep (Traced.modify f) :=
  maintains_modify fun s h => h.congr (hpage s) (hscratch s) (hbackend s)
    (hlocal s) (htable s) (by rw [houtline]; exact .refl)

theorem upkeeps_called (call : NodeCall) :
    Upkeeps U.toUpkeep (emit (.called call)) :=
  fun _ h => meets_emit fun hrely => ⟨(U.called hrely).1, h⟩

/-- In addition a certain page is current. -/
structure CurrentAt (U : TreeUpkeep) (q : PagePtr) (s : State) : Prop where
  upheld : Upheld U.toUpkeep s
  current : U.current (s.page q)

/-- A program that starts with a current page. -/
abbrev WorksAt (U : TreeUpkeep) (q : PagePtr) {α : Type} (m : M α) : Prop :=
  ∀ s, CurrentAt U q s → Meets U.contract m s fun _ s' =>
    Upheld U.toUpkeep s'

theorem CurrentAt.modifyPage {q : PagePtr} {f : Page → Page}
    (hf : ∀ p, U.current p → U.current (f p)) :
    Maintains U.contract (CurrentAt U q) (modifyPage q f) := by
  apply maintains_modify
  intro s h
  have hcurrent := hf _ h.current
  refine ⟨h.upheld.setPage (U.page_current hcurrent), ?_⟩
  rw [State.setPage_self]
  exact hcurrent

/-- The page that a node operation is called on is current. -/
theorem upkeeps_called_bind {α : Type} (q : PagePtr) {call : Page → NodeCall}
    (hcall : ∀ p, (call p).On U.current → U.current p) {k : Page → M α}
    (hk : ∀ p, U.current p → WorksAt U q (k p)) :
    Upkeeps U.toUpkeep (do
      let p ← getPage q
      emit (.called (call p))
      k p) := by
  intro s h
  apply Meets.bind
  apply meets_gets
  apply Meets.bind
  apply meets_emit
  intro hrely
  obtain ⟨hguarantee, hon⟩ := U.called hrely
  have hp := hcall _ hon
  exact ⟨hguarantee, hk _ hp s ⟨h, hp⟩⟩

/-- A page that is put into the place of a current one. -/
theorem WorksAt.replace {α : Type} {q : PagePtr} {f : Page → Page}
    (hf : ∀ p, U.current p → U.current (f p)) (a : α) :
    WorksAt U q (do
      modifyPage q f
      pure a) := by
  intro s h
  apply Meets.bind
  refine (CurrentAt.modifyPage hf s h).mono ?_
  intro _ s' h'
  exact meets_pure h'.upheld

/-! ## Loading -/

/-- The upsert changes the table of pages at most. -/
theorem upsertPageTable_upheld (key : GlobalAddress) (value : PagePtr)
    (h : Upheld U.toUpkeep s) :
    Meets U.contract (upsertPageTable key value) s
      fun _ s' => Upheld U.toUpkeep s' ∧ s'.page = s.page := by
  have hupserted : Upheld U.toUpkeep
      { s with pageTable := (s.pageTable.upsert key value).1 } :=
    h.congr rfl rfl rfl rfl rfl (.upserted _ _)
  unfold upsertPageTable getPage
  apply Meets.bind
  apply meets_gets
  apply Meets.bind
  apply meets_emit_of (U.indexed h.rest (.entry key))
  apply Meets.bind
  apply meets_gets
  apply Meets.bind
  apply meets_gets
  apply Meets.bind
  apply meets_onlyIf
  · intro _
    unfold check
    split
    · exact meets_pure (meets_modify ⟨hupserted, rfl⟩)
    · exact meets_halt (U.mayHalt (by decide) h.rest)
  · intro _
    exact meets_modify ⟨hupserted, rfl⟩

/-- A page put into the cache is as obsolete as the copy was. -/
theorem cacheInsert_upheld (globalNode : SlotRef) {p : Page} (hp : U.image p)
    (parent : PagePtr) (h : Upheld U.toUpkeep s) :
    Meets U.contract (cacheInsert globalNode p parent) s
      fun q s' => Upheld U.toUpkeep s' ∧
        (s'.page q).obsolete = p.obsolete := by
  unfold cacheInsert modifyPage getPage
  apply Meets.bind
  refine (upholds_getEmptyPage s h).mono ?_
  intro q s₁ hgot
  have h₁ := hgot.2
  apply Meets.bind
  apply meets_modify
  have hcopied : Upheld U.toUpkeep (s₁.setPage q
      { p with posState := .pin, parentPtr := some parent }) :=
    h₁.setPage (U.linked (U.loaded hp) rfl id)
  have hself : ((s₁.setPage q
      { p with posState := .pin, parentPtr := some parent }).page q).obsolete =
        p.obsolete := by
    rw [State.setPage_self]
  generalize s₁.setPage q _ = s₂ at hcopied hself ⊢
  cases globalNode with
  | «variable» addr =>
      apply Meets.bind
      refine (upsertPageTable_upheld addr q hcopied).mono ?_
      intro _ s' hpost
      obtain ⟨h', hpage⟩ := hpost
      apply meets_pure
      exact ⟨h', by rw [hpage, hself]⟩
  | childOf parent idx =>
      have hword : Upheld U.toUpkeep (s₂.setPage parent
          ((s₂.page parent).setChild idx (.swizzled q))) :=
        hcopied.setPage (U.linked (hcopied.page parent) rfl id)
      have hkept : ((s₂.setPage parent
          ((s₂.page parent).setChild idx (.swizzled q))).page q).obsolete =
            p.obsolete := by
        by_cases hq : q = parent
        · subst hq
          rw [State.setPage_self, Page.setChild]
          exact hself
        · rw [State.setPage_of_ne hq]
          exact hself
      apply Meets.bind
      apply meets_gets
      apply Meets.bind
      apply meets_modify
      cases (s₂.page parent).child idx with
      | swizzled r =>
          exact Meets.bind (meets_halt (U.mayHalt (by decide) hword.rest))
      | remote addr =>
          apply Meets.bind
          refine (upsertPageTable_upheld addr q hword).mono ?_
          intro _ s' hpost
          obtain ⟨h', hpage⟩ := hpost
          apply meets_pure
          exact ⟨h', by rw [hpage, hkept]⟩

theorem upkeeps_cacheInsert (globalNode : SlotRef) {p : Page}
    (hp : U.image p) (parent : PagePtr) :
    Upkeeps U.toUpkeep (cacheInsert globalNode p parent) :=
  fun _ h => (cacheInsert_upheld globalNode hp parent h).mono
    fun _ _ hpost => hpost.1

theorem upkeeps_loadFromBackend (parent : PagePtr) (childIdx : ℕ)
    (addr : GlobalAddress) :
    Upkeeps U.toUpkeep (loadFromBackend parent childIdx addr) := by
  apply (upholds_getPage parent).bind_maintains
  intro prev _
  apply Maintains.bind
  · exact maintains_onlyIf _
      (upkeeps_relink parent (fun _ => rfl) fun _ => id)
  intro _
  apply (upholds_rawRemoteRead addr).bind_maintains
  intro buf hbuf
  apply Maintains.bind
  · apply upkeeps_step <;> intro s <;> split <;> rfl
  intro _
  apply (upkeeps_cacheInsert _ hbuf parent).bind
  intro cached
  apply Maintains.bind
  · exact upkeeps_relink cached (fun _ => rfl) fun _ => id
  intro _
  apply (upholds_getPage parent).bind_maintains
  intro q _
  apply Maintains.bind
  · apply maintains_onlyIf
    apply (upkeeps_called _).bind
    intro _
    exact upkeeps_relink parent (fun _ => rfl) fun _ => id
  intro _
  apply Maintains.bind
  · exact maintains_onlyIf _
      (upkeeps_relink parent (fun _ => rfl) fun _ => id)
  · intro _
    exact maintains_pure _

theorem upkeeps_loadChild (parent : PagePtr) (childIdx : ℕ) :
    Upkeeps U.toUpkeep (loadChild parent childIdx) := by
  apply (upholds_getPage parent).bind_maintains
  intro p _
  cases p.child childIdx with
  | swizzled cached => exact maintains_pure _
  | remote addr => exact upkeeps_loadFromBackend parent childIdx addr

theorem upkeeps_leafFor (k : Key) : Upkeeps U.toUpkeep (leafFor k) := by
  apply (upkeeps_loadChild .superRoot 0).bind
  generalize maxLevels = fuel
  induction fuel with
  | zero => exact fun _ => upkeeps_halt (by decide)
  | succ fuel ih =>
      intro cur
      apply (upholds_getPage cur).bind_maintains
      intro p _
      split
      · exact (upkeeps_loadChild _ _).bind ih
      · exact maintains_pure _

/-- What the lookups and scans do. -/
theorem upkeeps_readLeaf {α : Type} (k : Key) (f : Page → α) :
    Upkeeps U.toUpkeep (do
      let leaf ← leafFor k
      let p ← getPage leaf
      pure (f p)) := by
  apply (upkeeps_leafFor k).bind
  intro leaf
  apply (upholds_getPage leaf).bind_maintains
  intro p _
  exact maintains_pure _

theorem upkeeps_editLeaf (k : Key) {call : Page → NodeCall}
    {edit : Page → Bool × Page}
    (hcall : ∀ p, (call p).On U.current → U.current p)
    (hedit : ∀ p : Page, p.LeafEdit (edit p).2) :
    Upkeeps U.toUpkeep (LeanStoreTree.editLeaf k call edit) := by
  apply (upkeeps_leafFor k).bind
  intro leaf
  apply upkeeps_called_bind leaf hcall
  intro p hp
  apply WorksAt.replace
  intro _ _
  split
  · exact U.current_congr hp (hedit p).obsolete
  · exact U.current_congr hp (hedit p).obsolete

theorem upkeeps_update (k : Key) (v : Value) :
    Upkeeps U.toUpkeep (LeanStoreTree.update k v) :=
  upkeeps_editLeaf k (fun _ h => h) fun p => BTreeLeaf.leafEdit_update p k v

theorem upkeeps_remove (k : Key) :
    Upkeeps U.toUpkeep (LeanStoreTree.remove k) :=
  upkeeps_editLeaf k (fun _ h => h) fun p => BTreeLeaf.leafEdit_remove p k

/-! ## Links -/

theorem Upheld.adopt (h : Upheld U.toUpkeep s) (memNode : PagePtr)
    (c : ChildSlot) : Upheld U.toUpkeep (s.adopt memNode c) := by
  cases c with
  | remote a => exact h
  | swizzled q => exact h.setPage (U.linked (h.page q) rfl id)

theorem upkeeps_adopt (memNode : PagePtr) (c : ChildSlot) :
    Upkeeps U.toUpkeep (Traced.modify fun s => s.adopt memNode c) :=
  maintains_modify fun _ h => h.adopt memNode c

theorem upkeeps_updateAllParentPtr (memNode : PagePtr) :
    Upkeeps U.toUpkeep (updateAllParentPtr memNode) := by
  apply (upholds_getPage memNode).bind_maintains
  intro inner _
  split
  · exact maintains_pure _
  · apply maintains_modify
    intro s h
    generalize live inner.children (inner.count.toNat + 1) = cs
    induction cs generalizing s with
    | nil => exact h
    | cons c cs ih => exact ih _ (h.adopt memNode c)

theorem upkeeps_insertIntoInner (parent : PagePtr) (sep : Key)
    (child : ChildSlot) :
    Upkeeps U.toUpkeep (insertIntoInner parent sep child) := by
  apply upkeeps_called_bind parent fun _ h => h
  intro p _ s h
  apply Meets.bind
  have hcheck : Maintains U.contract (CurrentAt U parent)
      (check (p.count < 59) (.assertion .innerRoom)) :=
    maintains_check _ fun _ h => U.mayHalt (by decide) h.upheld.rest
  refine (hcheck s h).mono ?_
  intro _ s₁ h₁
  refine (CurrentAt.modifyPage (fun q hq => ?_) s₁ h₁).mono ?_
  · refine U.current_congr hq ?_
    unfold BTreeInner.insert
    dsimp only
    split
    · rfl
    · rfl
  · intro _ s' h'
    exact h'.upheld

/-! ## Splits -/

/-- A page put into the cache from a current copy may be made dirty. -/
theorem upkeeps_cacheInsert_dirty {α : Type} (globalNode : SlotRef) {p : Page}
    (hp : U.current p) (parent : PagePtr) {k : PagePtr → M α}
    (hk : ∀ q, Upkeeps U.toUpkeep (k q)) :
    Upkeeps U.toUpkeep (do
      let q ← cacheInsert globalNode p parent
      modifyPage q fun p => { p with posState := .hot, dirty := true }
      k q) := by
  intro s h
  apply Meets.bind
  refine (cacheInsert_upheld globalNode (U.image_current hp) parent h).mono ?_
  intro q s' hpost
  obtain ⟨h', hobsolete⟩ := hpost
  apply Meets.bind
  apply meets_modify
  exact hk q _ (h'.setPage (U.page_current (U.current_congr hp hobsolete)))

section Growing

variable (hgrows : U.Grows)
include hgrows

/-- An allocation changes the end of the backend at most. -/
theorem allocAddress_upheld (h : Upheld U.toUpkeep s) :
    Meets U.contract allocAddress s
      fun _ s' => Upheld U.toUpkeep s' ∧ s'.page = s.page := by
  have halloc : Upheld U.toUpkeep { s with backend := s.backend.alloc.2 } := by
    refine ⟨h.page, h.scratch, fun o => ?_, h.listed, h.framed, ?_⟩
    · rw [InMemoryBackend.store_alloc]
      exact h.image o
    · have houtline : ({ s with backend := s.backend.alloc.2 } : State).outline
          = { s.outline with curOffset := s.backend.alloc.2.curOffset } := by
        simp [State.outline]
      rw [houtline]
      exact hgrows.resized _ _ _ h.rest
  have hnext : Meets U.contract (do
      let addr ← Traced.gets fun s => s.backend.alloc.1
      Traced.modify fun s => { s with backend := s.backend.alloc.2 }
      pure addr : M GlobalAddress) s fun _ s' =>
        Upheld U.toUpkeep s' ∧ s'.page = s.page := by
    apply Meets.bind
    apply meets_gets
    apply Meets.bind
    apply meets_modify
    exact meets_pure ⟨halloc, rfl⟩
  unfold allocAddress
  apply Meets.bind
  apply meets_gets
  apply Meets.bind
  apply meets_onlyIf
  · intro _
    exact meets_emit_of hgrows.allocFailed hnext
  · intro _
    exact hnext

theorem upkeeps_allocAddress : Upkeeps U.toUpkeep allocAddress :=
  fun _ h => (allocAddress_upheld hgrows h).mono fun _ _ hpost => hpost.1

/-- A node is counted. -/
theorem Upheld.resize (h : Upheld U.toUpkeep s) {s' : State}
    (hpage : s'.page = s.page) (hscratch : s'.scratch = s.scratch)
    (hbackend : s'.backend = s.backend)
    (hlocal : s'.localPageSet = s.localPageSet)
    (htable : s'.hashTable = s.hashTable)
    (hallocator : s'.allocator = s.allocator)
    (hdynamic : s'.dynamic = s.dynamic)
    (hentries : s'.pageTable = s.pageTable) : Upheld U.toUpkeep s' := by
  have hsame : Upheld U.toUpkeep
      { s' with leafNum := s.leafNum, innerNum := s.innerNum } := by
    refine h.congr hpage hscratch hbackend hlocal htable ?_
    have houtline : ({ s' with
        leafNum := s.leafNum, innerNum := s.innerNum } : State).outline =
          s.outline := by
      simp only [State.outline, hallocator, hdynamic, htable, hentries,
        hbackend]
    rw [houtline]
    exact .refl
  exact ⟨hsame.page, hsame.scratch, hsame.image, hsame.listed, hsame.framed,
    hgrows.resized _ _ _ hsame.rest⟩

theorem upkeeps_makeNewRoot (sep : Key) (leftChild : PagePtr)
    (right : ChildSlot) (level : UInt8) :
    Upkeeps U.toUpkeep (makeNewRoot sep leftChild right level) := by
  apply (upkeeps_allocAddress hgrows).bind
  intro addr
  apply (upkeeps_called _).bind
  intro _
  apply (maintains_onlyIf _ (upkeeps_called _)).bind
  intro _
  apply Maintains.bind
  · exact maintains_modify fun _ h =>
      h.resize hgrows rfl rfl rfl rfl rfl rfl rfl rfl
  intro _
  apply upkeeps_cacheInsert_dirty
  · apply U.current_new
    unfold newRootPage
    dsimp only
    split <;> rfl
  intro cachedRoot
  apply Maintains.bind
  · exact upkeeps_relink .superRoot (fun _ => rfl) fun _ => id
  intro _
  apply (upkeeps_adopt cachedRoot _).bind
  intro _
  apply (upkeeps_adopt cachedRoot _).bind
  intro _
  exact maintains_modify fun _ h => h.congr rfl rfl rfl rfl rfl .refl

theorem upkeeps_splitLeafChild (parent : PagePtr) (idx : ℕ)
    (leaf : PagePtr) :
    Upkeeps U.toUpkeep (splitLeafChild parent idx leaf) := by
  apply (upkeeps_allocAddress hgrows).bind
  intro addr
  apply upkeeps_called_bind leaf fun _ h => h
  intro p hp s h
  dsimp only
  apply Meets.bind
  refine (CurrentAt.modifyPage ?_ s h).mono ?_
  · exact fun _ _ => U.current_congr hp rfl
  intro _ s₁ h₁
  apply Meets.bind
  apply meets_modify
  have hsib : U.current (BTreeLeaf.split p (BTreeLeaf.construct addr)).2.2 :=
    U.current_new rfl
  have hwritten : CurrentAt U leaf { s₁ with
      backend := s₁.backend.write addr
        (BTreeLeaf.split p (BTreeLeaf.construct addr)).2.2 } :=
    ⟨h₁.upheld.write addr (U.image_current hsib), h₁.current⟩
  apply Meets.bind
  refine (CurrentAt.modifyPage ?_ _ hwritten).mono ?_
  · exact fun _ hq => U.current_congr hq rfl
  intro _ s₂ h₂
  refine Maintains.bind ?_ ?_ s₂ h₂.upheld
  · exact maintains_modify fun _ h =>
      h.resize hgrows rfl rfl rfl rfl rfl rfl rfl rfl
  intro _
  split
  · exact upkeeps_makeNewRoot hgrows _ _ _ _
  · apply (upkeeps_insertIntoInner _ _ _).bind
    intro _
    apply (upkeeps_loadChild _ _).bind
    intro _
    exact maintains_pure _

/-- Inside the window of the split the events are judged the same way. -/
theorem upkeeps_splitInnerChild (parent inner : PagePtr) :
    Upkeeps U.toUpkeep (splitInnerChild parent inner) := by
  intro s h
  unfold splitInnerChild
  apply Meets.bind
  apply meets_gets
  apply Meets.bind
  refine (allocAddress_upheld hgrows h).mono ?_
  intro addr s₁ hpost
  obtain ⟨h₁, hpage⟩ := hpost
  apply Meets.bind
  apply meets_emit
  intro hrely
  obtain ⟨hguarantee, hp⟩ := U.called hrely
  refine ⟨hguarantee, ?_⟩
  have hcurrent₁ : CurrentAt U inner s₁ := ⟨h₁, by rw [hpage]; exact hp⟩
  replace hp : U.current (s.page inner) := hp
  generalize s.page inner = p at hp ⊢
  dsimp only
  apply Meets.bind
  refine (CurrentAt.modifyPage ?_ s₁ hcurrent₁).mono ?_
  · exact fun _ _ => U.current_congr hp rfl
  intro _ s₂ h₂
  refine Maintains.bind ?_ ?_ s₂ h₂.upheld
  · exact maintains_modify fun _ h =>
      h.resize hgrows rfl rfl rfl rfl rfl rfl rfl rfl
  intro _ s₃ h₃
  have hsib : U.current (BTreeInner.split p
      (BTreeInner.construct p.level addr)).2.2 := U.current_new rfl
  apply Meets.bind
  have hinsert := cacheInsert_upheld (.variable addr) (U.image_current hsib)
    parent h₃
  refine (hinsert.relabel_of (fun _ => U.rely_inSplit)
    fun _ => U.guarantee_inSplit).mono ?_
  intro cachedSib s₄ hpost₄
  apply Meets.bind
  refine (CurrentAt.modifyPage ?_ s₄
    ⟨hpost₄.1, U.current_congr hsib hpost₄.2⟩).mono ?_
  · exact fun _ hq => U.current_congr hq rfl
  intro _ s₅ h₅
  refine Maintains.bind (upkeeps_updateAllParentPtr cachedSib) ?_ s₅
    h₅.upheld
  intro _
  apply (upholds_getPage inner).bind_maintains
  intro q _
  split
  · exact upkeeps_makeNewRoot hgrows _ _ _ _
  · exact upkeeps_insertIntoInner _ _ _

theorem upkeeps_splitChild (parent : PagePtr) (idx : ℕ) (child : PagePtr) :
    Upkeeps U.toUpkeep (splitChild parent idx child) := by
  apply (upholds_getPage child).bind_maintains
  intro p _
  split
  · exact upkeeps_splitLeafChild hgrows _ _ _
  · exact upkeeps_splitInnerChild hgrows _ _

/-! ## The operations of the tree -/

theorem upkeeps_splitIfFull (k : Key) (inner : PagePtr) (idx : ℕ)
    (child : PagePtr) :
    Upkeeps U.toUpkeep (splitIfFull k inner idx child) := by
  apply (upholds_getPage child).bind_maintains
  intro p _
  split
  · apply (upkeeps_splitChild hgrows _ _ _).bind
    intro _
    apply (upholds_getPage inner).bind_maintains
    intro q _
    exact upkeeps_loadChild _ _
  · exact maintains_pure _

theorem upkeeps_findLeafSplitting (k : Key) (fuel : ℕ) (cur : PagePtr) :
    Upkeeps U.toUpkeep (findLeafSplitting k fuel cur) := by
  induction fuel generalizing cur with
  | zero => exact upkeeps_halt (by decide)
  | succ fuel ih =>
      apply (upholds_getPage cur).bind_maintains
      intro p _
      split
      · apply (upkeeps_loadChild _ _).bind
        intro child
        exact (upkeeps_splitIfFull hgrows _ _ _ _).bind ih
      · exact maintains_pure _

theorem upkeeps_rootForInsert : Upkeeps U.toUpkeep rootForInsert := by
  apply (upkeeps_loadChild .superRoot 0).bind
  intro cur
  apply (upholds_getPage cur).bind_maintains
  intro p _
  split
  · apply (upkeeps_splitChild hgrows _ _ _).bind
    intro _
    exact upkeeps_loadChild _ _
  · exact maintains_pure _

theorem upkeeps_insert (k : Key) (v : Value) :
    Upkeeps U.toUpkeep (LeanStoreTree.insert k v) := by
  apply (upkeeps_rootForInsert hgrows).bind
  intro cur
  apply (upkeeps_findLeafSplitting hgrows _ _ _).bind
  intro leaf
  apply upkeeps_called_bind leaf fun _ h => h
  intro p hp
  apply WorksAt.replace
  exact fun _ _ =>
    U.current_congr hp (BTreeLeaf.leafEdit_insert p k v).obsolete

theorem upkeeps_run (op : Op) : Upkeeps U.toUpkeep op.run := by
  cases op with
  | insert k v =>
      exact (upkeeps_insert hgrows k v).bind fun _ => maintains_pure _
  | lookup k => exact (upkeeps_readLeaf k _).bind fun _ => maintains_pure _
  | update k v => exact (upkeeps_update k v).bind fun _ => maintains_pure _
  | remove k => exact (upkeeps_remove k).bind fun _ => maintains_pure _
  | rangeScan k num =>
      exact (upkeeps_readLeaf k _).bind fun _ => maintains_pure _

theorem upkeeps_construct : Upkeeps U.toUpkeep construct := by
  apply Maintains.bind
  · exact maintains_modify fun _ h =>
      h.setPage (U.page_current (U.current_new rfl))
  intro _
  apply Maintains.bind
  · apply (upkeeps_allocAddress hgrows).bind
    intro addr
    apply Maintains.bind
    · exact maintains_modify fun _ h =>
        h.write addr (U.image_current (U.current_new rfl))
    · intro _
      exact maintains_pure _
  intro root
  apply Maintains.bind
  · exact maintains_modify fun _ h => h.congr rfl rfl rfl rfl rfl .refl
  intro _
  apply Maintains.bind
  · exact upkeeps_relink .superRoot (fun _ => rfl) fun _ => id
  intro _
  apply (upkeeps_loadChild .superRoot 0).bind
  intro _
  exact maintains_pure _

end Growing

end Programs

end CachingDex
