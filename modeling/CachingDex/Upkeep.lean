import CachingDex.AllocatorCalls
import CachingDex.BtreeNodeSpec
import CachingDex.CacheLoads

/-!
# What the work of the cache manager keeps

Making room, demoting, evicting and flushing touch of a page only what says
where it is kept: its state, its parent pointer, its tagged child words, and
the dirty flag, which is cleared when the page is written.  A property of
pages that depends on nothing else, or at most demands that a page be clean,
holds after a run of the manager if it held before; the same goes for a
property of the pointers that the manager keeps in its lists and tables.

Of the sizes, the table of pages and the counts, the outline of a state, the
manager only changes entries and hands out slots.  There is one lemma for each
program of the manager, for every property of these three kinds.
-/

namespace CachingDex

open Lib Lib.Traced

/-- `p'` is `p` as the manager may leave it: no dirtier, and without new
tagged child words. -/
structure Page.Tended (p p' : Page) : Prop where
  obsolete : p'.obsolete = p.obsolete
  dirty : p'.dirty = true → p.dirty = true
  child : ∀ {k q}, p'.child k = .swizzled q → p.child k = .swizzled q

/-- The parts of a state that say which slots are handed out, what the table
of pages maps, and how many pages and nodes there are. -/
structure Outline where
  allocator : CacheAllocator
  dynamic : Bool
  bucketNum : ℕ
  pageTable : PageTable
  curOffset : ℕ
  capacityBytes : ℕ
  leafNum : ℕ
  innerNum : ℕ

def State.outline (s : State) : Outline where
  allocator := s.allocator
  dynamic := s.dynamic
  bucketNum := s.hashTable.bucketNum
  pageTable := s.pageTable
  curOffset := s.backend.curOffset
  capacityBytes := s.backend.capacityBytes
  leafNum := s.leafNum
  innerNum := s.innerNum

/-- What the manager does to the outline. -/
inductive Outline.Step (o : Outline) : Outline → Prop
  | refl : o.Step o
  | inserted (key : GlobalAddress) (value : PagePtr) :
      o.Step { o with pageTable := (o.pageTable.insert key value).1 }
  | upserted (key : GlobalAddress) (value : PagePtr) :
      o.Step { o with pageTable := (o.pageTable.upsert key value).1 }
  | updated (key : GlobalAddress) (value : PagePtr) :
      o.Step { o with pageTable := (o.pageTable.update key value).1 }
  | removed (key : GlobalAddress) (value : PagePtr) :
      o.Step { o with pageTable := (o.pageTable.remove key value).1 }
  | allocated :
      o.Step
        { o with
          allocator := o.allocator.allocate.2.2
          dynamic := o.dynamic || o.allocator.allocate.2.1 }

/-- The indices that the manager takes, each with its bound.  It selects a
page only after it has handed out all slots. -/
inductive Outline.Takes (o : Outline) : List (ℕ × ℕ) → Prop
  | entry (key : GlobalAddress) :
      o.Takes [(o.pageTable.bucketIdx key, o.pageTable.bucketNum)]
  | bucket (n : ℕ) : o.Takes [(n % o.bucketNum, o.bucketNum)]
  | probed {i : ℕ} : i < o.bucketNum → o.Takes [(i, o.bucketNum)]
  | slot {i : ℕ} : i < o.allocator.pageNum →
      o.Takes [(i, o.allocator.pageNum)]
  | selected (draw : ℕ) : o.dynamic = true →
      o.Takes (o.allocator.selectIndices draw)

theorem Outline.Step.bucketNum {o o' : Outline} (h : o.Step o') :
    o'.bucketNum = o.bucketNum := by
  cases h <;> rfl

theorem Outline.Step.pageNum {o o' : Outline} (h : o.Step o') :
    o'.allocator.pageNum = o.allocator.pageNum := by
  cases h with
  | allocated =>
      change o.allocator.allocate.2.2.pageNum = _
      unfold CacheAllocator.allocate
      split <;> rfl
  | _ => rfl

theorem Outline.Step.dynamic {o o' : Outline} (h : o.Step o')
    (ho : o.dynamic = true) : o'.dynamic = true := by
  cases h with
  | allocated =>
      change (o.dynamic || _) = true
      rw [ho, Bool.true_or]
  | _ => exact ho

/-- The events of the manager's own work, but for pages written back and
indices taken. -/
def Event.OfManager : Event → Bool
  | .written _ => false
  | .indexed _ => false
  | .allocFailed => false
  | .called _ => false
  | .inSplit _ _ => false
  | _ => true

/-- A property of the pages behind pointers, of the images in the backend, of
the pointers themselves and of the outline, with the contract of the runs that
keep it. -/
structure Upkeep where
  contract : Contract State Halt Event
  page : PagePtr → Page → Prop
  image : Page → Prop
  pointer : PagePtr → Prop
  rest : Outline → Prop
  slot : ∀ i, pointer (.slot i)
  child : ∀ {r p k q}, page r p → p.child k = .swizzled q → pointer q
  tended : ∀ {q p p'}, page q p → p.Tended p' → page q p'
  stored : ∀ {q p p'}, page q p → p.Tended p' → p'.dirty = false → image p'
  kept : ∀ {p p'}, image p → p.Tended p' → image p'
  step : ∀ {o o'}, rest o → o.Step o' → rest o'
  event : ∀ {e}, e.OfManager = true → contract.guarantee e
  indexed : ∀ {o l}, rest o → o.Takes l → contract.guarantee (.indexed l)
  written : ∀ {q p}, page q p → p.dirty = true →
    contract.guarantee (.written p.obsolete)
  mayHalt : ∀ {e s}, e ≠ .wildPointer → rest s.outline →
    contract.mayHalt e s

/-- The property together with one of the outline that the manager keeps. -/
def Upkeep.within (U : Upkeep) (P : Outline → Prop)
    (hP : ∀ {o o'}, P o → o.Step o' → P o') : Upkeep :=
  { U with
    rest := fun o => U.rest o ∧ P o
    step := fun h hstep => ⟨U.step h.1 hstep, hP h.2 hstep⟩
    indexed := fun h => U.indexed h.1
    mayHalt := fun he h => U.mayHalt he h.1 }

/-- In any state the indices of a selection may be taken. -/
def Upkeep.Selects (U : Upkeep) : Prop :=
  ∀ ⦃o⦄ (draw : ℕ), U.rest o →
    U.contract.guarantee (.indexed (o.allocator.selectIndices draw))

/-- The pages of all frames of a bucket, in use or not. -/
def Bucket.Holds (P : PagePtr → Prop) (b : Bucket) : Prop :=
  ∀ ⦃i : ℕ⦄ ⦃f : Frame⦄, b.frames[i]? = some f → P f.page

/-- The property holds throughout the state. -/
structure Upheld (U : Upkeep) (s : State) : Prop where
  page : ∀ q, U.page q (s.page q)
  scratch : U.image s.scratch
  image : ∀ o, U.image (s.backend.store o)
  listed : ∀ {q}, q ∈ s.localPageSet → U.pointer q
  framed : ∀ j, (s.hashTable.table j).Holds U.pointer
  rest : U.rest s.outline

section Tended

variable {p p' : Page}

theorem Page.Tended.of_children (hobsolete : p'.obsolete = p.obsolete)
    (hdirty : p'.dirty = true → p.dirty = true)
    (hchildren : p'.children = p.children) : p.Tended p' :=
  ⟨hobsolete, hdirty, fun h => by
    rw [Page.child, hchildren] at h
    exact h⟩

theorem Page.child_setChild (p : Page) (i k : ℕ) (c : ChildSlot) :
    (p.setChild i c).child k = c ∨ (p.setChild i c).child k = p.child k := by
  unfold Page.setChild Page.child
  rw [Vector.getElem?_setIfInBounds]
  split_ifs with hi hlt
  · exact Or.inl rfl
  · subst hi
    rw [Vector.getElem?_eq_none (by omega)]
    exact Or.inr rfl
  · exact Or.inr rfl

/-- A child word may become an address. -/
theorem Page.tended_unsetBitmap (p : Page) (idx : ℕ) (a : GlobalAddress) :
    p.Tended (BTreeInner.unsetBitmap (p.setChild idx (.remote a)) idx) := by
  refine ⟨rfl, id, fun {k q} hk => ?_⟩
  change (p.setChild idx (.remote a)).child k = _ at hk
  rcases p.child_setChild idx k (.remote a) with heq | heq
  · exact ChildSlot.noConfusion (heq.symm.trans hk)
  · exact heq.symm.trans hk

/-- A flushed page has no tagged words at all. -/
theorem Page.tended_fullyUnswizzle (s : State) (p : Page) :
    p.Tended { fullyUnswizzle s p with dirty := false } := by
  refine ⟨?_, fun h => Bool.noConfusion h, fun {k q} hk => ?_⟩
  · unfold fullyUnswizzle
    split <;> rfl
  · unfold fullyUnswizzle at hk
    split at hk
    · exact hk
    · unfold Page.child at hk ⊢
      simp only [Vector.getElem?_ofFn] at hk
      by_cases hlt : k < 60
      · rw [dif_pos hlt] at hk
        simp only [Option.getD_some] at hk
        rw [Vector.getElem?_eq_getElem hlt, Option.getD_some]
        change _ = _ at hk
        split at hk
        · split at hk
          · cases hk
          · exact hk
        · exact hk
      · rw [dif_neg hlt] at hk
        cases hk

end Tended

namespace Upheld

variable {U : Upkeep} {s : State}

/-- Parts of the state the property does not look at. -/
theorem congr (h : Upheld U s) {s' : State} (hpage : s'.page = s.page)
    (hscratch : s'.scratch = s.scratch) (hbackend : s'.backend = s.backend)
    (hlocal : s'.localPageSet = s.localPageSet)
    (htable : s'.hashTable = s.hashTable)
    (hstep : s.outline.Step s'.outline) : Upheld U s' where
  page q := by
    rw [hpage]
    exact h.page q
  scratch := by
    rw [hscratch]
    exact h.scratch
  image o := by
    rw [hbackend]
    exact h.image o
  listed := by
    rw [hlocal]
    exact h.listed
  framed j := by
    rw [htable]
    exact h.framed j
  rest := U.step h.rest hstep

theorem within (h : Upheld U s) {P : Outline → Prop}
    (hP : ∀ {o o'}, P o → o.Step o' → P o') (ho : P s.outline) :
    Upheld (U.within P hP) s :=
  ⟨h.page, h.scratch, h.image, h.listed, h.framed, h.rest, ho⟩

theorem of_within {P : Outline → Prop}
    {hP : ∀ {o o'}, P o → o.Step o' → P o'}
    (h : Upheld (U.within P hP) s) : Upheld U s :=
  ⟨h.page, h.scratch, h.image, h.listed, h.framed, h.rest.1⟩

theorem setPage (h : Upheld U s) {q : PagePtr} {p : Page}
    (hp : U.page q p) : Upheld U (s.setPage q p) where
  page r := by
    by_cases hr : r = q
    · subst hr
      rw [State.setPage_self]
      exact hp
    · rw [State.setPage_of_ne hr]
      exact h.page r
  scratch := h.scratch
  image := h.image
  listed := h.listed
  framed := h.framed
  rest := h.rest

theorem write (h : Upheld U s) (a : GlobalAddress) {p : Page}
    (hp : U.image p) :
    Upheld U { s with backend := s.backend.write a p } where
  page := h.page
  scratch := h.scratch
  image o := by
    change U.image ((s.backend.write a p).store o)
    unfold InMemoryBackend.write
    split
    · dsimp only
      rw [Function.update_apply]
      split
      · exact hp
      · exact h.image o
    · exact h.image o
  listed := h.listed
  framed := h.framed
  rest := by
    have houtline : ({ s with backend := s.backend.write a p } : State).outline
        = s.outline := by
      simp [State.outline]
    rw [houtline]
    exact h.rest

theorem setBucket (h : Upheld U s) (j : ℕ) {b : Bucket}
    (hb : b.Holds U.pointer) : Upheld U (s.setBucket j b) where
  page := h.page
  scratch := h.scratch
  image := h.image
  listed := h.listed
  framed j' := by
    change (Function.update s.hashTable.table j b j').Holds U.pointer
    rw [Function.update_apply]
    split
    · exact hb
    · exact h.framed j'
  rest := h.rest

end Upheld

section Buckets

variable {P : PagePtr → Prop} {b : Bucket}

theorem Bucket.Holds.last (h : b.Holds P) (h₀ : P (.slot 0)) : P b.last := by
  rw [Bucket.last]
  cases hf : b.frames[b.count - 1]? with
  | none => exact h₀
  | some f => exact h hf

theorem Bucket.Holds.dropLast (h : b.Holds P) : b.dropLast.Holds P :=
  h

theorem Bucket.Holds.push (h : b.Holds P) {f : Frame} (hf : P f.page) :
    (b.push f).Holds P := by
  intro i g hg
  rw [Bucket.push, Vector.getElem?_setIfInBounds] at hg
  by_cases hi : 0 = i
  · rw [if_pos hi, if_pos (by omega), Option.some.injEq] at hg
    rw [← hg]
    exact hf
  · rw [if_neg hi] at hg
    rcases mem_of_getElem?_moveCells hg with hk | ⟨_, hk⟩
    · exact h hk
    · exact h hk

end Buckets

/-! ## The cooling table -/

section Programs

variable {U : Upkeep}

/-- The program keeps the property, and its result satisfies `P`. -/
abbrev Upholds (U : Upkeep) {α : Type} (P : α → Prop) (m : M α) : Prop :=
  Yields U.contract (Upheld U) P m

/-- The program keeps the property. -/
abbrev Upkeeps (U : Upkeep) {α : Type} (m : M α) : Prop :=
  Maintains U.contract (Upheld U) m

/-- A page, if there is one, is behind a pointer with the property. -/
def Upkeep.Points (U : Upkeep) (page : Option PagePtr) : Prop :=
  ∀ ⦃q⦄, page = some q → U.pointer q

theorem Upkeep.points_none : U.Points none :=
  fun _ h => absurd h (by simp)

theorem Upkeep.points_some {q : PagePtr} (h : U.pointer q) :
    U.Points (some q) := by
  intro r hr
  obtain rfl := Option.some.inj hr
  exact h

theorem upholds_getPage (q : PagePtr) : Upholds U (U.page q) (getPage q) :=
  yields_gets fun _ h => h.page q

theorem upkeeps_modifyPage (q : PagePtr) {f : Page → Page}
    (hf : ∀ p : Page, p.Tended (f p)) : Upkeeps U (modifyPage q f) :=
  maintains_modify fun _ h => h.setPage (U.tended (h.page q) (hf _))

theorem upkeeps_emit {e : Event} (he : e.OfManager = true) :
    Upkeeps U (emit e) :=
  maintains_emit (U.event he)

theorem upkeeps_halt {α : Type} {e : Halt} (he : e ≠ .wildPointer) :
    Upkeeps U (halt e : M α) :=
  maintains_halt fun _ h => U.mayHalt he h.rest

theorem upholds_halt {α : Type} {P : α → Prop} {e : Halt}
    (he : e ≠ .wildPointer) : Upholds U P (halt e : M α) :=
  yields_halt fun _ h => U.mayHalt he h.rest

theorem upkeeps_check (c : Bool) {e : Halt} (he : e ≠ .wildPointer) :
    Upkeeps U (check c e) :=
  maintains_check c fun _ h => U.mayHalt he h.rest

theorem upkeeps_writeImage (a : GlobalAddress) {p : Page}
    (hp : U.image { p with parentPtr := none, posState := .remote }) :
    Upkeeps U (writeImage a p) := by
  unfold writeImage
  split
  · exact maintains_modify fun _ h => h.write a hp
  · exact upkeeps_halt (by decide)

theorem upkeeps_remoteWrite {s : State} (h : Upheld U s) {q : PagePtr}
    (hdirty : (s.page q).dirty = true) (a : GlobalAddress) :
    Meets U.contract (remoteWrite a q) s fun _ s' => Upheld U s' := by
  unfold remoteWrite modifyPage getPage
  have htended : (s.page q).Tended { s.page q with dirty := false } :=
    .of_children rfl (fun hd => Bool.noConfusion hd) rfl
  have hstored : (s.page q).Tended
      { s.page q with
        dirty := false, parentPtr := none, posState := .remote } :=
    .of_children rfl (fun hd => Bool.noConfusion hd) rfl
  apply Meets.bind
  apply meets_modify
  apply Meets.bind
  apply meets_gets
  rw [State.setPage_self]
  dsimp only
  apply Meets.bind
  refine (upkeeps_writeImage a (U.stored (h.page q) hstored rfl) _
    (h.setPage (U.tended (h.page q) htended))).mono ?_
  intro _ s' h'
  exact meets_emit_of
    (show U.contract.guarantee (.written (s.page q).obsolete) from
      U.written (h.page q) hdirty) h'

/-- Write a page back if it is dirty, and go on. -/
theorem upholds_writeBack {α : Type} {P : α → Prop} (q : PagePtr)
    {k : Page → M α} (hk : ∀ p, Upholds U P (k p)) :
    Upholds U P (do
      let p ← getPage q
      onlyIf p.dirty (remoteWrite p.remoteAddress q)
      k p) := by
  intro s h
  apply Meets.bind
  apply meets_gets
  apply Meets.bind
  apply meets_onlyIf
  · intro hdirty
    refine (upkeeps_remoteWrite h hdirty _).mono ?_
    intro _ s' h'
    exact hk _ s' h'
  · intro _
    exact hk _ s h

theorem upkeeps_removeFromPageTable (victim : PagePtr) :
    Upkeeps U (removeFromPageTable victim) := by
  apply maintains_gets_emit
  · intro s h
    exact U.indexed h.rest (.entry _)
  · intro _
    exact maintains_modify fun _ h => h.congr rfl rfl rfl rfl rfl
      (.removed _ _)

theorem upholds_evictLast (i : ℕ) : Upholds U U.Points (evictLast i) := by
  unfold evictLast
  have hbucket : Upholds U (fun b => b.Holds U.pointer)
      (gets fun s => s.hashTable.table i) :=
    yields_gets fun _ h => h.framed i
  apply hbucket.bind
  intro bucket hb
  split
  · exact yields_pure U.points_none
  · apply (upholds_getPage _).bind
    intro p _
    apply (upkeeps_check _ (by decide)).bind_yields
    intro _
    apply Maintains.bind_yields
    · exact maintains_modify fun _ h => h.setBucket i hb.dropLast
    · intro _
      apply (upkeeps_emit rfl).bind_yields
      intro _
      exact yields_pure (U.points_some (hb.last (U.slot 0)))

theorem upholds_bucketInsert (i : ℕ) {frame : Frame}
    (hframe : U.pointer frame.page) :
    Upholds U U.Points (bucketInsert i frame) := by
  have hpush : ∀ evicted, U.Points evicted → Upholds U U.Points (do
      Traced.modify fun s => s.setBucket i ((s.hashTable.table i).push frame)
      pure evicted) := by
    intro evicted hevicted
    apply Maintains.bind_yields
    · exact maintains_modify fun _ h =>
        h.setBucket i ((h.framed i).push hframe)
    · intro _
      exact yields_pure hevicted
  apply (maintains_gets _).bind_yields
  intro full
  dsimp only
  split
  · exact (upholds_evictLast i).bind hpush
  · exact (yields_pure U.points_none).bind hpush

theorem upholds_hashTableInsert (key : GlobalAddress) {value : PagePtr}
    (hvalue : U.pointer value) :
    Upholds U U.Points (hashTableInsert key value) := by
  apply upholds_writeBack
  intro p
  apply yields_gets_emit
  · intro s h
    exact U.indexed h.rest (.bucket _)
  intro bucket
  apply (upholds_bucketInsert _ hvalue).bind
  intro evicted hevicted
  apply Maintains.bind_yields
  · exact upkeeps_modifyPage _ fun p => .of_children rfl id rfl
  intro _
  cases evicted with
  | none => exact yields_pure U.points_none
  | some victim =>
      apply (upkeeps_removeFromPageTable victim).bind_yields
      intro _
      exact yields_pure hevicted

/-- The buckets of a probe are buckets of the table. -/
theorem upholds_probe {buckets : ℕ} (n : ℕ) {i : ℕ} (hi : i + n ≤ buckets) :
    Upholds (U.within (fun o => o.bucketNum = buckets)
      fun h hstep => hstep.bucketNum.trans h) U.Points (probe n i) := by
  induction n generalizing i with
  | zero => exact yields_pure U.points_none
  | succ n ih =>
      apply yields_gets_emit
      · intro s h
        refine U.indexed h.rest.1 (.probed ?_)
        have hbuckets : s.outline.bucketNum = buckets := h.rest.2
        omega
      intro _
      apply (upholds_evictLast i).bind
      intro evicted hevicted
      cases evicted with
      | none => exact ih (by omega)
      | some victim =>
          apply (upkeeps_removeFromPageTable victim).bind_yields
          intro _
          exact yields_pure hevicted

theorem upholds_randomEvictToRemote (n : ℕ) :
    Upholds U U.Points (randomEvictToRemote n) := by
  intro s h
  unfold randomEvictToRemote randomBucketIdx
  apply Meets.bind
  apply Meets.bind
  apply meets_gets
  apply Meets.bind
  apply meets_emit_of (U.indexed h.rest (.bucket _))
  apply Meets.bind
  apply meets_modify
  have hdrawn : Upheld U
      { s with bucketDraws := fun n => s.bucketDraws (n + 1) } :=
    h.congr rfl rfl rfl rfl rfl .refl
  apply Meets.bind
  unfold check
  apply meets_ite
  · intro hlt
    rw [decide_eq_true_eq] at hlt
    apply meets_pure
    apply meets_pure
    apply Meets.bind
    apply meets_gets
    refine (upholds_probe _ ?_ _ (hdrawn.within _ rfl)).mono ?_
    · simp only at hlt ⊢
      change _ ≤ s.hashTable.bucketNum
      omega
    · intro r s' hpost
      exact ⟨hpost.1, hpost.2.of_within⟩
  · intro _
    exact meets_halt (U.mayHalt (by decide) hdrawn.rest)

/-! ## Demotion -/

theorem upkeeps_insertLocalSet {page : PagePtr} (hpage : U.pointer page) :
    Upkeeps U (insertLocalSet page) := by
  apply Maintains.bind
  · exact upkeeps_modifyPage _ fun p => .of_children rfl id rfl
  intro _
  apply maintains_modify
  intro s h
  refine ⟨h.page, h.scratch, h.image, fun {q} hq => ?_, h.framed, h.rest⟩
  rcases List.mem_cons.mp hq with rfl | hq
  · exact hpage
  · exact h.listed hq

theorem upkeeps_coolDown {cur : PagePtr} (hcur : U.pointer cur) :
    Upkeeps U (coolDown cur) := by
  apply Yields.maintains
  apply upholds_writeBack (P := fun _ => True)
  intro p
  apply (upholds_hashTableInsert _ hcur).bind
  intro evicted hevicted
  cases evicted with
  | none => exact yields_pure trivial
  | some page => exact (upkeeps_insertLocalSet (hevicted rfl)).yields

/-- The walk follows words of pages. -/
theorem Upheld.walk {s : State} (h : Upheld U s) {fuel : ℕ}
    {mem cur : PagePtr} {idx idx' : Option ℕ} (hmem : U.pointer mem)
    (hwalk : recursiveIterate s fuel mem idx = .found cur idx') :
    U.pointer cur := by
  induction fuel generalizing mem idx with
  | zero => cases hwalk
  | succ fuel ih =>
      rw [recursiveIterate] at hwalk
      dsimp only at hwalk
      split at hwalk
      · split at hwalk
        · cases hwalk
        · split at hwalk
          · rename_i hchild
            exact ih (U.child (h.page mem) hchild) hwalk
          · cases hwalk
      · split at hwalk
        · cases hwalk
          exact hmem
        · cases hwalk

theorem upkeeps_demote (parent : PagePtr) (idx : ℕ) {cur : PagePtr}
    (hcur : U.pointer cur) : Upkeeps U (demote parent idx cur) := by
  apply (upholds_getPage cur).bind_maintains
  intro p _
  apply Maintains.bind
  · exact upkeeps_modifyPage _ fun q => q.tended_unsetBitmap idx _
  intro _
  apply Maintains.bind
  · exact upkeeps_modifyPage _ fun q => .of_children rfl id rfl
  intro _
  exact upkeeps_coolDown hcur

theorem upkeeps_sampleVictim {cur : PagePtr} (hcur : U.pointer cur)
    (idx : Option ℕ) : Upkeeps U (sampleVictim cur idx) := by
  apply (upholds_getPage cur).bind_maintains
  intro p _
  cases p.parentPtr with
  | none =>
      apply (upkeeps_emit rfl).bind
      intro _
      apply (upkeeps_coolDown hcur).bind
      intro _
      exact maintains_pure _
  | some parent =>
      apply (upholds_getPage parent).bind_maintains
      intro q _
      split
      · apply (upkeeps_emit rfl).bind
        intro _
        exact maintains_pure _
      · apply (upkeeps_check _ (by decide)).bind
        intro _
        cases idx.or (BTreeInner.findIdx q (.swizzled cur)) with
        | none =>
            apply (upkeeps_emit rfl).bind
            intro _
            apply Maintains.bind
            · exact upkeeps_modifyPage _ fun q => .of_children rfl id rfl
            intro _
            apply Maintains.bind
            · exact maintains_modify fun _ h =>
                h.congr rfl rfl rfl rfl rfl .refl
            · intro _
              exact maintains_pure _
        | some i =>
            dsimp only
            split
            · apply (upkeeps_emit rfl).bind
              intro _
              apply (upkeeps_demote parent i hcur).bind
              intro _
              exact maintains_pure _
            · apply (upkeeps_emit rfl).bind
              intro _
              exact upkeeps_halt (by decide)

section Sampler

variable (hselects : U.Selects)
include hselects

theorem upholds_randomSelect : Upholds U U.pointer randomSelect := by
  apply yields_gets_emit
  · intro s h
    exact hselects _ h.rest
  intro _
  have hselect : Upholds U U.pointer
      (gets fun s => s.allocator.randomSelect (s.selectDraws 0)) := by
    apply yields_gets
    intro s _
    obtain ⟨i, hi⟩ := s.allocator.randomSelect_slot (s.selectDraws 0)
    rw [hi]
    exact U.slot i
  apply hselect.bind
  intro page hpage
  apply Maintains.bind_yields
  · exact maintains_modify fun _ h => h.congr rfl rfl rfl rfl rfl .refl
  · intro _
    exact yields_pure hpage

theorem upkeeps_sampleRound : Upkeeps U sampleRound := by
  apply (upholds_randomSelect hselects).bind_maintains
  intro page hpage
  apply (upholds_getPage page).bind_maintains
  intro p _
  split
  · have hwalk : Upholds U
        (fun walk => ∀ ⦃cur idx⦄, walk = .found cur idx → U.pointer cur)
        (gets fun s =>
          recursiveIterate s (s.allocator.pageNum + 2) page none) :=
      yields_gets fun _ h _ _ hwalk => h.walk hpage hwalk
    apply hwalk.bind_maintains
    intro walk hcur
    cases walk with
    | found cur idx => exact upkeeps_sampleVictim (hcur rfl) idx
    | deadEnd => exact maintains_pure _
    | untagged => exact upkeeps_halt (by decide)
    | endless => exact upkeeps_halt (by decide)
  · exact maintains_pure _

theorem upkeeps_samplePage : Upkeeps U samplePage := by
  unfold samplePage
  generalize 999 = rounds
  induction rounds with
  | zero => exact upkeeps_halt (by decide)
  | succ rounds ih =>
      apply (upkeeps_sampleRound hselects).bind
      intro demoted
      split
      · exact maintains_pure _
      · exact ih

theorem upkeeps_sampleMultiplePages (n : ℕ) :
    Upkeeps U (sampleMultiplePages n) := by
  induction n with
  | zero => exact maintains_pure _
  | succ n ih => exact (upkeeps_samplePage hselects).bind fun _ => ih

end Sampler

/-! ## Free slots -/

theorem upholds_getLocalPageSet : Upholds U U.Points getLocalPageSet := by
  intro s h
  unfold getLocalPageSet
  apply Meets.bind
  apply meets_gets
  cases hpages : s.localPageSet with
  | nil => exact meets_pure ⟨U.points_none, h⟩
  | cons page rest =>
      apply Meets.bind
      apply meets_modify
      apply meets_pure
      have hlisted : ∀ {q}, q ∈ page :: rest → U.pointer q := fun hq =>
        h.listed (hpages ▸ hq)
      refine ⟨U.points_some (hlisted List.mem_cons_self),
        h.page, h.scratch, h.image, fun hq => ?_, h.framed, h.rest⟩
      exact hlisted (List.mem_cons_of_mem _ hq)

theorem upholds_recyclePage (hselects : U.Selects) :
    Upholds U U.Points recyclePage := by
  apply upholds_getLocalPageSet.bind
  intro page hpage
  cases page with
  | some page => exact yields_pure hpage
  | none =>
      apply (upholds_randomEvictToRemote _).bind
      intro evicted hevicted
      cases evicted with
      | some page => exact yields_pure hevicted
      | none =>
          apply (upkeeps_sampleMultiplePages hselects _).bind_yields
          intro _
          exact upholds_getLocalPageSet

theorem CacheAllocator.allocate_cases (a : CacheAllocator) :
    a.headIdx < a.pageNum ∧ a.allocate.1 = some (.slot a.headIdx) ∨
      a.allocate.1 = none := by
  rcases Nat.lt_or_ge a.headIdx a.pageNum with hlt | hge
  · exact Or.inl ⟨hlt, by rw [allocate_of_lt hlt]⟩
  · exact Or.inr (by rw [allocate_of_ge hge])

theorem upholds_allocatePage : Upholds U U.Points allocatePage := by
  intro s h
  have hallocated : Upheld U
      { s with
        allocator := s.allocator.allocate.2.2
        dynamic := s.dynamic || s.allocator.allocate.2.1 } :=
    h.congr rfl rfl rfl rfl rfl .allocated
  have hcases := s.allocator.allocate_cases
  unfold allocatePage
  apply Meets.bind
  apply meets_gets
  apply Meets.bind
  apply meets_gets
  generalize s.allocator.allocate = allocation at hallocated hcases ⊢
  obtain ⟨page, lastPage, allocator⟩ := allocation
  dsimp only at hallocated hcases ⊢
  apply Meets.bind
  apply meets_modify
  rcases hcases with ⟨hlt, rfl⟩ | rfl
  · apply Meets.bind
    apply meets_emit_of (U.indexed h.rest (.slot hlt))
    exact meets_pure ⟨U.points_some (U.slot _), hallocated⟩
  · exact meets_halt (U.mayHalt (by decide) hallocated.rest)

/-- In the dynamic phase all slots have been handed out. -/
theorem upholds_tryGetEmptyPage : Upholds U U.Points tryGetEmptyPage := by
  intro s h
  unfold tryGetEmptyPage
  apply Meets.bind
  apply meets_gets
  apply meets_ite
  · intro hdynamic
    have hselects : (U.within (fun o => o.dynamic = true)
        fun ho hstep => hstep.dynamic ho).Selects := fun _ draw ho =>
      U.indexed ho.1 (.selected draw ho.2)
    apply Meets.bind
    apply meets_emit_of (U.event rfl)
    refine (upholds_recyclePage hselects s (h.within _ hdynamic)).mono ?_
    intro r s' hpost
    exact ⟨hpost.1, hpost.2.of_within⟩
  · intro _
    exact upholds_allocatePage s h

/-- The page handed out is the one of the event. -/
theorem upholds_getEmptyPage :
    Upholds U (fun q => U.pointer q ∧ U.contract.rely (.handedOut q))
      getEmptyPage := by
  apply Maintains.bind_yields (maintains_gets _)
  intro pageNum
  generalize pageNum + 1 = tries
  induction tries with
  | zero => exact upholds_halt (by decide)
  | succ tries ih =>
      apply upholds_tryGetEmptyPage.bind
      intro page hpage
      cases page with
      | some page =>
          intro s h
          apply Meets.bind
          apply meets_emit
          intro hrely
          exact ⟨U.event rfl, meets_pure ⟨⟨hpage rfl, hrely⟩, h⟩⟩
      | none => exact ih

/-! ## Flushing -/

theorem Upheld.buffer {s : State} (h : Upheld U s) {p : Page}
    (hp : U.image p) : Upheld U { s with scratch := p } :=
  ⟨h.page, hp, h.image, h.listed, h.framed, h.rest⟩

theorem upholds_scratch : Upholds U U.image (gets fun s => s.scratch) :=
  yields_gets fun _ h => h.scratch

theorem upkeeps_flushPage (cur : PagePtr) : Upkeeps U (flushPage cur) := by
  apply (upholds_getPage cur).bind_maintains
  intro p hp
  cases hdirty : p.dirty with
  | false => exact maintains_pure ()
  | true =>
      apply (upkeeps_check _ (by decide)).bind
      intro _
      apply Maintains.bind
      · exact maintains_modify fun s h =>
          h.buffer (U.stored hp (p.tended_fullyUnswizzle s) rfl)
      intro _
      apply upholds_scratch.bind_maintains
      intro buffer hbuffer
      apply Maintains.bind
      · exact upkeeps_writeImage _
          (U.kept hbuffer (.of_children rfl id rfl))
      intro _
      apply Maintains.bind
      · exact maintains_emit (U.written hp hdirty)
      intro _
      exact upkeeps_modifyPage _ fun q =>
        .of_children rfl (fun hd => Bool.noConfusion hd) rfl

theorem upkeeps_flushFrom {pages : ℕ} (n : ℕ) {i : ℕ} (hi : i + n ≤ pages) :
    Upkeeps (U.within (fun o => o.allocator.pageNum = pages)
      fun h hstep => hstep.pageNum.trans h) (flushFrom n i) := by
  induction n generalizing i with
  | zero => exact maintains_pure ()
  | succ n ih =>
      apply maintains_gets_emit
      · intro s h
        refine U.indexed h.rest.1 (.slot ?_)
        have hpages : s.outline.allocator.pageNum = pages := h.rest.2
        omega
      intro _
      apply (upkeeps_flushPage _).bind
      intro _
      exact ih (by omega)

theorem upkeeps_flushAll : Upkeeps U flushAll := by
  apply Maintains.bind
  · exact maintains_modify fun _ h => h.congr rfl rfl rfl rfl rfl .refl
  intro _ s h
  apply Meets.bind
  apply meets_gets
  refine (upkeeps_flushFrom _ ?_ s (h.within _ rfl)).mono ?_
  · exact (Nat.zero_add _).le
  · intro _ s' h'
    exact h'.of_within

theorem upkeeps_resetCache (hzero : ∀ q, U.page q Page.zero)
    (hreset : ∀ {o : Outline}, U.rest o → U.rest
      { o with
        allocator := o.allocator.reset
        dynamic := false
        pageTable := o.pageTable.reset })
    (flushDirty : Bool) : Upkeeps U (resetCache flushDirty) := by
  apply (maintains_onlyIf _ upkeeps_flushAll).bind
  intro _
  apply maintains_modify
  intro s h
  refine ⟨fun q => ?_, h.scratch, h.image, h.listed, fun j i f hf => ?_,
    hreset h.rest⟩
  · cases q with
    | superRoot => exact h.page .superRoot
    | ioFlag => exact h.page .ioFlag
    | slot i =>
        dsimp only
        split
        · exact hzero _
        · exact h.page (.slot i)
  · change Bucket.empty.frames[i]? = some f at hf
    rw [Bucket.empty, Vector.getElem?_replicate] at hf
    split at hf
    · rw [← Option.some.inj hf]
      exact U.slot 0
    · cases hf

/-! ## Loads by address -/

theorem upholds_rawRemoteRead (a : GlobalAddress) :
    Upholds U U.image (rawRemoteRead a) := by
  apply Maintains.bind_yields
  · apply maintains_modify
    intro s h
    cases hread : s.backend.read a with
    | none => exact h
    | some p =>
        apply h.buffer
        rw [InMemoryBackend.read] at hread
        split at hread
        · rw [← Option.some.inj hread]
          exact h.image _
        · cases hread
  · intro _
    exact upholds_scratch

/-- What a load hands on as the page: a new one or the old one. -/
def Load.Brings (U : Upkeep) (retPage : Option PagePtr) (load : Load) :
    Prop :=
  (load.ret = 0 ∧ ∃ q, load.retPage = some q ∧ U.pointer q) ∨
    (load.ret ≠ 0 ∧ load.retPage = retPage)

/-- The operations of a leaf keep its flag and its child words. -/
structure Page.LeafEdit (p p' : Page) : Prop where
  obsolete : p'.obsolete = p.obsolete
  children : p'.children = p.children

theorem BTreeLeaf.leafEdit_insert (p : Page) (k : Key) (v : Value) :
    p.LeafEdit (BTreeLeaf.insert p k v).2 := by
  unfold BTreeLeaf.insert
  dsimp only
  split_ifs <;> exact ⟨rfl, rfl⟩

theorem BTreeLeaf.leafEdit_remove (p : Page) (k : Key) :
    p.LeafEdit (BTreeLeaf.remove p k).2 := by
  unfold BTreeLeaf.remove
  dsimp only
  split_ifs <;> exact ⟨rfl, rfl⟩

theorem BTreeLeaf.leafEdit_update (p : Page) (k : Key) (v : Value) :
    p.LeafEdit (BTreeLeaf.update p k v).2 := by
  unfold BTreeLeaf.update
  dsimp only
  split_ifs <;> exact ⟨rfl, rfl⟩

/-- The edited leaf in the buffer is dirty until it is written; an edit
without success changes nothing. -/
theorem upkeeps_editBuffer (a : GlobalAddress) {p p' : Page} {ok : Bool}
    (hp : U.image p) (hedit : p.LeafEdit p') (hok : ok = false → p' = p) :
    Upkeeps U (do
      Traced.modify fun s => { s with scratch := p' }
      onlyIf ok (remoteWriteBuffer a)) := by
  intro s h
  apply Meets.bind
  apply meets_modify
  apply meets_onlyIf
  · intro _
    have hclean : U.image { p' with
        dirty := false, parentPtr := none, posState := .remote } :=
      U.kept hp (.of_children hedit.obsolete (fun hd => Bool.noConfusion hd)
        hedit.children)
    unfold remoteWriteBuffer
    apply Meets.bind
    apply meets_modify
    apply Meets.bind
    apply meets_gets
    exact upkeeps_writeImage a hclean _ (h.buffer hclean)
  · intro hfailed
    rw [hok hfailed]
    exact h.buffer hp

theorem upkeeps_accessRemote (a : GlobalAddress) (k : Key) (result : Value)
    (success : Bool) (rpcType : RpcType) :
    Upkeeps U (accessRemote a k result success rpcType) := by
  cases rpcType with
  | lookup =>
      apply (upholds_rawRemoteRead a).bind_maintains
      intro leaf _
      dsimp only
      split
      · exact maintains_pure _
      · exact maintains_pure _
  | update =>
      apply (upholds_rawRemoteRead a).bind_maintains
      intro leaf hleaf
      dsimp only
      split
      · exact maintains_pure _
      · exact (upkeeps_editBuffer a hleaf
          (BTreeLeaf.leafEdit_update leaf k result)
          BTreeLeaf.update_of_false).bind fun _ => maintains_pure _
  | insert =>
      apply (upholds_rawRemoteRead a).bind_maintains
      intro leaf hleaf
      dsimp only
      split
      · exact maintains_pure _
      · have hok : true = false →
            (BTreeLeaf.insert leaf k result).2 = leaf := by
          intro h
          cases h
        exact (upkeeps_editBuffer a hleaf
          (BTreeLeaf.leafEdit_insert leaf k result) hok).bind
            fun _ => maintains_pure _
  | delete =>
      apply (upholds_rawRemoteRead a).bind_maintains
      intro leaf hleaf
      dsimp only
      split
      · exact maintains_pure _
      · exact (upkeeps_editBuffer a hleaf
          (BTreeLeaf.leafEdit_remove leaf k)
          BTreeLeaf.remove_of_false).bind fun _ => maintains_pure _

theorem upkeeps_updatePageTable (a : GlobalAddress) (q : PagePtr) :
    Upkeeps U (updatePageTable a q) := by
  apply maintains_gets_modify
  · exact fun _ h => h.congr rfl rfl rfl rfl rfl (.updated _ _)
  intro updated
  apply (upholds_getPage q).bind_maintains
  intro p _
  apply (maintains_onlyIf _ (upkeeps_halt (by decide))).bind
  intro _
  exact maintains_pure _

theorem upkeeps_removeIoFlag (a : GlobalAddress) :
    Upkeeps U (removeIoFlag a) := by
  apply maintains_gets_modify
  · exact fun _ h => h.congr rfl rfl rfl rfl rfl (.removed _ _)
  · intro _
    exact upkeeps_check _ (by decide)

section Loads

variable (hload : ∀ ⦃q p⦄, U.image p → U.page q p)
include hload

theorem upkeeps_remoteToCache (page : PagePtr) (a : GlobalAddress)
    (syncRead : Bool) : Upkeeps U (remoteToCache page a syncRead) := by
  have hcopy : Upkeeps U (do
      let bufferPage ← rawRemoteRead a
      modifyPage page fun _ => bufferPage
      pure true) := by
    apply (upholds_rawRemoteRead a).bind_maintains
    intro p hp
    apply Maintains.bind
    · exact maintains_modify fun _ h => h.setPage (hload hp)
    · intro _
      exact maintains_pure _
  cases syncRead with
  | true => exact hcopy
  | false => exact hcopy

theorem upholds_simpleColdToHot (l : BufferLimits) (node : GlobalAddress)
    (retPage : Option PagePtr) (parent : PagePtr) (childIdx : ℕ)
    (refresh syncRead : Bool) :
    Upholds U (Load.Brings U retPage)
      (simpleColdToHot l node retPage parent childIdx refresh syncRead) := by
  apply upholds_tryGetEmptyPage.bind
  intro page hpage
  cases page with
  | none => exact yields_pure (Or.inr ⟨show (-1 : ℤ) ≠ 0 by decide, rfl⟩)
  | some page =>
      apply (upholds_getPage page).bind
      intro slot _
      apply (upkeeps_check _ (by decide)).bind_yields
      intro _
      apply (upkeeps_remoteToCache hload page node syncRead).bind_yields
      intro ioSuccess
      apply (upholds_getPage parent).bind
      intro p _
      apply (upholds_getPage page).bind
      intro returnPage _
      apply (upkeeps_check _ (by decide)).bind_yields
      intro _
      split
      · apply (upkeeps_insertLocalSet (hpage rfl)).bind_yields
        intro _
        exact yields_pure (Or.inr ⟨show (-1 : ℤ) ≠ 0 by decide, rfl⟩)
      · apply (maintains_onlyIf _ (upkeeps_halt (by decide))).bind_yields
        intro _
        apply (upkeeps_check _ (by decide)).bind_yields
        intro _
        apply (upkeeps_check _ (by decide)).bind_yields
        intro _
        exact yields_pure (Or.inl ⟨rfl, page, rfl, hpage rfl⟩)

theorem upholds_coldToHot (l : BufferLimits) (node : GlobalAddress)
    (retPage : Option PagePtr) (parent : PagePtr) (childIdx : ℕ)
    (refresh : Bool) :
    Upholds U (Load.Brings U retPage)
      (coldToHot l node retPage parent childIdx refresh) := by
  apply (upholds_getPage parent).bind
  intro inner _
  apply (upholds_simpleColdToHot hload l node retPage parent childIdx refresh
    _).bind
  intro load hbrings
  split
  · rename_i hret
    rcases hbrings with ⟨_, q, hq, hpointer⟩ | ⟨hnot, _⟩
    · rw [hq]
      apply (upkeeps_updatePageTable node q).bind_yields
      intro updated
      apply (upkeeps_check _ (by decide)).bind_yields
      intro _
      exact yields_pure (Or.inl ⟨hret, q, hq, hpointer⟩)
    · exact absurd hret hnot
  · apply (upkeeps_removeIoFlag node).bind_yields
    intro _
    exact yields_pure hbrings

theorem upkeeps_coldToHotWithAdmission (l : BufferLimits)
    (admissionIdx idx : ℕ) (node : GlobalAddress) (retPage : Option PagePtr)
    (parent : PagePtr) (childIdx : ℕ) (refresh : Bool) (k : Key)
    (result : Value) (success : Bool) (rpcType : RpcType) :
    Upkeeps U (coldToHotWithAdmission l admissionIdx idx node retPage parent
      childIdx refresh k result success rpcType) := by
  apply (maintains_gets _).bind
  intro dynamic
  split
  · apply (upkeeps_accessRemote node k result success rpcType).bind
    intro access
    apply (upkeeps_removeIoFlag node).bind
    intro _
    exact maintains_pure _
  · apply (upholds_coldToHot hload l node retPage parent childIdx
      refresh).bind_maintains
    intro load _
    exact maintains_pure _

/-- Where the table holds no marker, a lookup keeps the property if marking
the page it finds does, and returns a page it loaded or found. -/
theorem cacheGet_meets (l : BufferLimits) (node : GlobalAddress)
    (parent : PagePtr) (childIdx : ℕ) (restart refresh ioEnable : Bool)
    {s : State} (h : Upheld U s)
    (hmarker : s.pageTable.get node ≠ some .ioFlag)
    (hmark : ∀ q, s.pageTable.get node = some q →
      newCheckLimitMatch (s.page parent) (s.page q) childIdx = false →
      U.page q { s.page q with obsolete := true }) :
    Meets U.contract
      (cacheGet l node parent childIdx restart refresh ioEnable) s
      fun got s' => Upheld U s' ∧ ∀ q, got.page = some q →
        U.pointer q ∨ s.pageTable.get node = some q := by
  unfold cacheGet
  apply Meets.bind
  apply meets_gets
  cases hget : s.pageTable.get node with
  | none =>
      dsimp only
      unfold insertIoFlag
      apply Meets.bind
      apply Meets.bind
      apply meets_gets
      apply Meets.bind
      apply meets_modify
      apply meets_pure
      apply meets_ite
      · intro _
        exact meets_pure
          ⟨h.congr rfl rfl rfl rfl rfl (.inserted _ _), by simp⟩
      · intro _
        apply Meets.bind
        have hinserted : Upheld U
            { s with pageTable := (s.pageTable.insert node .ioFlag).1 } :=
          h.congr rfl rfl rfl rfl rfl (.inserted _ _)
        refine (upholds_coldToHot hload l node none parent childIdx refresh _
          hinserted).mono ?_
        intro load s' hpost
        obtain ⟨hbrings, h'⟩ := hpost
        apply meets_pure
        refine ⟨h', fun q hq => Or.inl ?_⟩
        rcases hbrings with ⟨_, r, hr, hpointer⟩ | ⟨_, hnone⟩
        · obtain rfl := Option.some.inj (hr.symm.trans hq)
          exact hpointer
        · exact absurd (hnone.symm.trans hq) (by simp)
  | some target =>
      have hfound : Meets U.contract (do
          let p ← getPage parent
          let child ← getPage target
          if !newCheckLimitMatch p child childIdx then do
            modifyPage target fun q => { q with obsolete := true }
            Traced.modify fun s =>
              { s with pageTable := (s.pageTable.remove node target).1 }
            pure ⟨none, restart, true⟩
          else pure (⟨some target, restart, refresh⟩ : Got)) s
          fun got s' => Upheld U s' ∧ ∀ q, got.page = some q →
            U.pointer q ∨ some target = some q := by
        apply Meets.bind
        apply meets_gets
        apply Meets.bind
        apply meets_gets
        apply meets_ite
        · intro hmismatch
          have hpage := hmark target hget (by simpa using hmismatch)
          apply Meets.bind
          apply meets_modify
          apply Meets.bind
          apply meets_modify
          exact meets_pure
            ⟨(h.setPage hpage).congr rfl rfl rfl rfl rfl (.removed _ _),
              by simp⟩
        · intro _
          exact meets_pure ⟨h, fun q hq => Or.inr hq⟩
      cases target with
      | ioFlag => exact absurd hget hmarker
      | superRoot => exact hfound
      | slot i => exact hfound

end Loads

end Programs

end CachingDex
