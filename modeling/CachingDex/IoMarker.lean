import CachingDex.Lib.CallSequence
import CachingDex.TreeUpkeep

/-!
# The marker of a load in progress

While a page is being loaded, the page table maps its address to `IO_FLAG`
in the place of a pointer.  The lookup by address follows whatever it finds
in the table, so it takes the marker for a page exactly when it is called
while a load of its address is open: after a lookup that was told not to
read, and before the load that closes it.  Nowhere else does the marker
occur, neither in the lists of the manager nor in the words of a page.
-/

namespace CachingDex

open Lib Lib.Traced

/-- The calls of the interface by address, with their arguments. -/
inductive LoadCall where
  | cacheGet (l : BufferLimits) (node : GlobalAddress) (parent : PagePtr)
      (childIdx : ℕ) (restart refresh ioEnable : Bool)
  | coldToHot (l : BufferLimits) (node : GlobalAddress)
      (retPage : Option PagePtr) (parent : PagePtr) (childIdx : ℕ)
      (refresh : Bool)
  | coldToHotWithAdmission (l : BufferLimits) (admissionIdx idx : ℕ)
      (node : GlobalAddress) (retPage : Option PagePtr) (parent : PagePtr)
      (childIdx : ℕ) (refresh : Bool) (k : Key) (result : Value)
      (success : Bool) (rpcType : RpcType)

namespace LoadCall

def run : LoadCall → M Unit
  | cacheGet l node parent childIdx restart refresh ioEnable => do
      let _ ← CachingDex.cacheGet l node parent childIdx restart refresh
        ioEnable
      pure ()
  | coldToHot l node retPage parent childIdx refresh => do
      let _ ← CachingDex.coldToHot l node retPage parent childIdx refresh
      pure ()
  | coldToHotWithAdmission l admissionIdx idx node retPage parent childIdx
      refresh k result success rpcType => do
      let _ ← CachingDex.coldToHotWithAdmission l admissionIdx idx node
        retPage parent childIdx refresh k result success rpcType
      pure ()

/-- A lookup does not take the marker for a page: it neither follows nor
returns it, and while the marker stands for its address it returns nothing,
asks for another try, and leaves the page table. -/
def SparesMarker : LoadCall → State → Prop
  | cacheGet l node parent childIdx restart refresh ioEnable, s =>
      let o := CachingDex.cacheGet l node parent childIdx restart refresh
        ioEnable s
      o.result ≠ .error .wildPointer ∧
        (∀ got, o.result = .ok got → got.page ≠ some .ioFlag) ∧
        (s.pageTable.get node = some .ioFlag →
          ∃ got, o.result = .ok got ∧ got.page = none ∧
            (got.restart = true ∨ got.refresh = true) ∧
            o.state.pageTable = s.pageTable)
  | _, _ => True

/-- A lookup is made while the marker does not stand for its address. -/
def FindsNoMarker : LoadCall → State → Prop
  | cacheGet _ node _ _ _ _ _, s => s.pageTable.get node ≠ some .ioFlag
  | _, _ => True

end LoadCall

/-- No tagged word of the page is the marker. -/
def Page.Unmarked (p : Page) : Prop :=
  ∀ k, p.child k ≠ .swizzled .ioFlag

theorem Page.Unmarked.of_children {p : Page}
    (h : ∀ i (hi : i < 60), p.children[i] ≠ .swizzled .ioFlag) :
    p.Unmarked := by
  intro k
  unfold Page.child
  by_cases hk : k < 60
  · rw [Vector.getElem?_eq_getElem hk]
    exact h k hk
  · rw [Vector.getElem?_eq_none (by omega)]
    exact ChildSlot.noConfusion

/-- Runs that follow no pointer but to a page. -/
def markerUpkeep : Upkeep where
  contract := ⟨fun _ => True, fun _ => True, fun e _ => e ≠ .wildPointer⟩
  page _ p := p.Unmarked
  image p := p.Unmarked
  pointer q := q ≠ .ioFlag
  rest _ := True
  slot _ := PagePtr.noConfusion
  child := fun hp hchild heq => hp _ (heq ▸ hchild)
  tended := fun hp h k hk => hp k (h.child hk)
  stored := fun hp h _ k hk => hp k (h.child hk)
  kept := fun hp h k hk => hp k (h.child hk)
  step _ _ := trivial
  event _ := trivial
  indexed _ _ := trivial
  written _ _ := trivial
  mayHalt h _ := h

/-- The marker occurs nowhere outside the page table. -/
def OnlyTableMarked (s : State) : Prop :=
  Upheld markerUpkeep s

theorem onlyTableMarked_initial (c : TreeConfig) :
    OnlyTableMarked c.initial := by
  have hzero : Page.zero.Unmarked := .of_children (by decide)
  exact upheld_initial c (fun _ => hzero) hzero trivial

section Lookups

variable {s : State} {l : BufferLimits} {node : GlobalAddress}
  {parent : PagePtr} {childIdx : ℕ} {restart refresh ioEnable : Bool}

/-- A lookup follows the marker it finds. -/
theorem cacheGet_of_marker (h : s.pageTable.get node = some .ioFlag) :
    cacheGet l node parent childIdx restart refresh ioEnable s =
      ⟨.error .wildPointer, s, []⟩ := by
  have hread : (gets fun s : State => s.pageTable.get node : M _) s =
      ⟨.ok (some .ioFlag), s, []⟩ := by
    rw [← h]
    rfl
  exact (bind_of_ok hread).trans rfl

theorem OnlyTableMarked.cacheGet (h : OnlyTableMarked s)
    (hget : s.pageTable.get node ≠ some .ioFlag) :
    Meets markerUpkeep.contract
      (cacheGet l node parent childIdx restart refresh ioEnable) s
      fun got s' => OnlyTableMarked s' ∧ got.page ≠ some .ioFlag := by
  refine (cacheGet_meets (fun _ _ hp => hp) l node parent childIdx restart
    refresh ioEnable h hget fun q _ _ => h.page q).mono ?_
  intro got s' hpost
  obtain ⟨h', hfound⟩ := hpost
  refine ⟨h', fun hmarker => ?_⟩
  rcases hfound _ hmarker with hne | hentry
  · exact hne rfl
  · exact hget hentry

/-- A lookup spares the marker exactly when it does not find it. -/
theorem OnlyTableMarked.sparesMarker_iff (h : OnlyTableMarked s)
    (call : LoadCall) : call.SparesMarker s ↔ call.FindsNoMarker s := by
  cases call with
  | coldToHot => exact Iff.rfl
  | coldToHotWithAdmission => exact Iff.rfl
  | cacheGet l node parent childIdx restart refresh ioEnable =>
      constructor
      · intro hspares hmarker
        apply hspares.1
        rw [cacheGet_of_marker hmarker]
      · intro hget
        have hmeets : Meets markerUpkeep.contract
            (CachingDex.cacheGet l node parent childIdx restart refresh
              ioEnable) s
            fun got s' => OnlyTableMarked s' ∧ got.page ≠ some .ioFlag :=
          h.cacheGet hget
        obtain ⟨_, hpost⟩ := hmeets fun _ _ => trivial
        refine ⟨fun herror => ?_, fun got hok => ?_,
          fun hmarker => absurd hmarker hget⟩
        · rw [herror] at hpost
          exact hpost rfl
        · rw [hok] at hpost
          exact hpost.2

/-- After a call that does not find the marker it is still only in the
table. -/
theorem OnlyTableMarked.run (h : OnlyTableMarked s) (call : LoadCall)
    (hcall : call.FindsNoMarker s) (hok : (call.run s).result = .ok ()) :
    OnlyTableMarked (call.run s).state := by
  have hrun : Meets markerUpkeep.contract call.run s
      fun _ s' => OnlyTableMarked s' := by
    cases call with
    | cacheGet l node parent childIdx restart refresh ioEnable =>
        apply Meets.bind
        refine (h.cacheGet hcall).mono ?_
        intro _ s' hpost
        exact meets_pure hpost.1
    | coldToHot l node retPage parent childIdx refresh =>
        apply (upholds_coldToHot (U := markerUpkeep) (fun _ _ hp => hp) l
          node retPage parent childIdx refresh).bind_maintains
        · intro _ _
          exact maintains_pure ()
        · exact h
    | coldToHotWithAdmission l admissionIdx idx node retPage parent childIdx
        refresh k result success rpcType =>
        apply (upkeeps_coldToHotWithAdmission (U := markerUpkeep)
          (fun _ _ hp => hp) l admissionIdx idx node retPage parent childIdx
          refresh k result success rpcType).bind
        · intro _
          exact maintains_pure ()
        · exact h
  obtain ⟨_, hpost⟩ := hrun fun _ _ => trivial
  rw [hok] at hpost
  exact hpost

end Lookups

/-! ## Sequences of calls -/

/-- Over a cache with the marker nowhere outside the page table, the lookups
of a sequence of calls spare the marker exactly when none of them is made
while the marker stands for its address. -/
theorem sparesMarker_iff_findsNoMarker {s : State} (h : OnlyTableMarked s)
    (calls : List LoadCall) :
    Along LoadCall.run LoadCall.SparesMarker s calls ↔
      Along LoadCall.run LoadCall.FindsNoMarker s calls :=
  along_congr (fun call _ hs => hs.sparesMarker_iff call)
    (fun call _ hs => hs.run call) h

/-- A fresh cache of two pages, over a backend of four. -/
def coldCache : TreeConfig where
  pageNum := 2
  entryNum := 1
  backendPages := 4
  baseAddress := 4096
  heapAddress := 64
  selectDraws := id
  bucketDraws := id
  backend_fits := TreeConfig.fourPages_fit

/-- An inner page over two pages that are not in memory. -/
def coldParent : Page :=
  { BTreeInner.construct 1 (.make 0 2048) with
    count := 1
    keys := Vector.replicate 60 10
    children := (Vector.replicate 60 (.remote (.make 0 3072))).set 0
      (.remote (.make 0 1024)) }

/-- Its left child. -/
def coldLeaf : Page :=
  { BTreeLeaf.construct (.make 0 1024) with
    dirty := false
    maxLimit := 10 }

/-- The cache with the inner page in its first slot and the leaf in the
backend. -/
def coldTree : State :=
  let initial := coldCache.initial
  { initial.setPage (.slot 0) coldParent with
    allocator := { initial.allocator with headIdx := 1 }
    backend := initial.backend.write (.make 0 1024) coldLeaf }

theorem onlyTableMarked_coldTree : OnlyTableMarked coldTree := by
  have hparent : coldParent.Unmarked := .of_children (by decide)
  have hleaf : coldLeaf.Unmarked := .of_children (by decide)
  have htree := ((onlyTableMarked_initial coldCache).setPage (q := .slot 0)
    hparent).write (.make 0 1024) hleaf
  exact ⟨htree.page, htree.scratch, htree.image, htree.listed, htree.framed,
    trivial⟩

/-- A lookup that marks the leaf's address, the load that closes it, and a
lookup that finds the leaf. -/
def markThenLoad : List LoadCall :=
  [.cacheGet ⟨⊥, ⊤⟩ (.make 0 1024) (.slot 0) 0 false false false,
    .coldToHot ⟨⊥, ⊤⟩ (.make 0 1024) none (.slot 0) 0 false,
    .cacheGet ⟨⊥, ⊤⟩ (.make 0 1024) (.slot 0) 0 false false true]

theorem sparesMarker_markThenLoad :
    Along LoadCall.run LoadCall.SparesMarker coldTree markThenLoad ∧
      (runAll LoadCall.run markThenLoad coldTree).result = .ok () := by
  refine ⟨(sparesMarker_iff_findsNoMarker onlyTableMarked_coldTree _).mpr ?_,
    by decide +kernel⟩
  have hempty : coldTree.pageTable.get (.make 0 1024) ≠ some .ioFlag := by
    decide +kernel
  refine ⟨hempty, fun _ => ⟨trivial, fun _ => ⟨?_, fun _ => trivial⟩⟩⟩
  -- after the load the table maps the address to a slot
  unfold LoadCall.FindsNoMarker
  decide +kernel

/-- A lookup of a page that is told not to read it. -/
def peek : LoadCall :=
  .cacheGet ⟨⊥, ⊤⟩ (.make 0 1024) .superRoot 0 false false false

/-- The second of two lookups follows the marker of the first. -/
theorem peek_twice :
    ¬ Along LoadCall.run LoadCall.SparesMarker coldCache.initial
      [peek, peek] := by
  intro halong
  have hmarker : ((peek.run coldCache.initial).state).pageTable.get
      (.make 0 1024) = some .ioFlag := by decide +kernel
  apply (halong.2 rfl).1.1
  rw [cacheGet_of_marker hmarker]

end CachingDex
