import CachingDex.FreshTree
import CachingDex.WarmUp

/-!
# What a run answers

The contracts of whole runs.  A run in the warm-up phase of the pool never
asks the sampler for anything and always returns.  A run of any length with
any pool answers the same, unless it gives up, as long as the sampler never
ends at a page of a split in progress and no allocation fails.
-/

namespace CachingDex

open Lib Lib.Traced

/-- The sampler did not end at a page that a split in progress has left
without its parent's backing. -/
def Event.Clear : Event → Prop
  | .inSplit w (.sampled cur _) => cur ∉ w.bad
  | _ => True

/-- The backend had no room for a page. -/
def Event.failsAlloc : Event → Bool
  | .allocFailed => true
  | .inSplit _ e => e.failsAlloc
  | _ => false

/-- A node operation, if one was called, was called safely. -/
def Event.Safe : Event → Prop
  | .called call => call.Safe
  | .inSplit _ e => e.Safe
  | _ => True

/-- Runs with clear windows and successful allocations. -/
def clearContract : Contract State Halt Event where
  rely e := e.Clear ∧ e.failsAlloc = false
  guarantee e := e.Safe
  mayHalt h _ := h = .exit0

/-- Runs in the warm-up phase with successful allocations. -/
def warmContract : Contract State Halt Event where
  rely e := e.Warm ∧ e.failsAlloc = false
  guarantee e := e.Safe
  mayHalt _ _ := False

theorem runs_clearContract : Runs clearContract where
  splits :=
    { base :=
        { exit0 := fun _ _ => rfl
          recycled := trivial
          evicted := fun _ => trivial
          handedOut := fun _ => trivial
          indexed := fun _ => trivial
          written := fun _ => trivial
          sampled := fun _ _ => ⟨Set.notMem_empty _, trivial⟩
          called := fun _ h => h
          untidy := fun h => absurd trivial h }
      window := fun _ =>
        { exit0 := fun _ _ => rfl
          recycled := trivial
          evicted := fun _ => trivial
          handedOut := fun _ => trivial
          indexed := fun _ => trivial
          written := fun _ => trivial
          sampled := fun h _ => ⟨h.1, trivial⟩
          called := fun _ h => h
          untidy := fun h => absurd trivial h } }
  noFail h := by cases h.2

theorem runs_warmContract : Runs warmContract where
  splits :=
    { base :=
        { exit0 := fun h => h.1.elim
          recycled := trivial
          evicted := fun _ => trivial
          handedOut := fun _ => trivial
          indexed := fun _ => trivial
          written := fun _ => trivial
          sampled := fun h _ => h.1.elim
          called := fun _ h => h
          untidy := fun h => absurd trivial h }
      window := fun _ =>
        { exit0 := fun h => h.1.elim
          recycled := trivial
          evicted := fun _ => trivial
          handedOut := fun _ => trivial
          indexed := fun _ => trivial
          written := fun _ => trivial
          sampled := fun h _ => h.1.elim
          called := fun _ h => h
          untidy := fun h => absurd trivial h } }
  noFail h := by cases h.2

/-! ## Warm runs on a fresh tree -/

/-- Every allocation of the run succeeds. -/
def Allocates (c : TreeConfig) (ops : List Op) : Prop :=
  ∀ e ∈ (freshRun ops c.initial).trace, e.failsAlloc = false

/-- The pool never fills and no allocation fails: the pool has a slot to hand
out whenever a page is asked for, and the backend an address. -/
structure NeverFills (c : TreeConfig) (ops : List Op) : Prop where
  slots : 0 < c.pageNum
  warm : ∀ e ∈ (freshRun ops c.initial).trace, e.Warm
  allocates : Allocates c ops

/-- The state stands for the map, up to the cooling table, which a warm run
does not look at. -/
def WarmTreeOf (m : KeyMap) (s : State) : Prop :=
  ∃ h, TreeOf m (s.setTable h)

/-- A warm run calls node operations safely, answers like the map and ends
in a tree for the map it makes. -/
theorem freshRun_warm {c : TreeConfig} {ops : List Op}
    (h : NeverFills c ops) :
    (∀ e ∈ (freshRun ops c.initial).trace, e.Safe) ∧
      ∃ replies, (freshRun ops c.initial).result = .ok replies ∧
        Answered (fun _ => none) ops replies ∧
        WarmTreeOf (mapOf ops) (freshRun ops c.initial).state := by
  have hrun := warmed_freshRun (h := .new 1) ops c.initial h.warm
  have hmeets := freshRun_meets runs_warmContract
    (c := { c with entryNum := 1 }) h.slots Nat.one_pos ops
  have hstart : ({ c with entryNum := 1 } : TreeConfig).initial =
      c.initial.setTable (.new 1) := rfl
  rw [hstart, Meets, hrun] at hmeets
  obtain ⟨hsafe, hpost⟩ := hmeets fun e he => ⟨h.warm e he, h.allocates e he⟩
  refine ⟨hsafe, ?_⟩
  cases hresult : (freshRun ops c.initial).result with
  | ok replies =>
      rw [hresult] at hpost
      exact ⟨replies, rfl, hpost.1, _, hpost.2⟩
  | error e =>
      rw [hresult] at hpost
      exact hpost.elim

/-- An event of the warm-up phase other than a failed allocation. -/
def Event.isWarm (e : Event) : Bool :=
  decide e.Warm && !e.failsAlloc

theorem neverFills_of_isWarm {c : TreeConfig} {ops : List Op}
    (hslots : 0 < c.pageNum)
    (h : (freshRun ops c.initial).trace.all Event.isWarm = true) :
    NeverFills c ops := by
  simp only [List.all_eq_true, Event.isWarm, Bool.and_eq_true,
    decide_eq_true_eq, Bool.not_eq_true'] at h
  exact ⟨hslots, fun e he => (h e he).1, fun e he => (h e he).2⟩

/-- A pool of six pages over a backend of eight. -/
def sixPages : TreeConfig where
  pageNum := 6
  entryNum := 6
  backendPages := 8
  baseAddress := 0x10000
  heapAddress := 0x8000
  selectDraws := fun _ => 0
  bucketDraws := fun _ => 0
  backend_fits := TreeConfig.eightPages_fit

/-- Inserts of the keys from 1 to `n`. -/
def ascending (n : ℕ) : List Op :=
  (List.range n).map fun i => .insert (UInt64.ofNat (i + 1)) (UInt64.ofNat i)

/-- Enough inserts for three leaves, and operations on all of them. -/
def mixedRun : List Op :=
  ascending 90 ++ [.lookup 1, .update 2 9, .remove 3, .lookup 60, .insert 3 8,
    .lookup 90, .lookup 2]

set_option maxRecDepth 100000 in
/-- The run splits two leaves and makes a root. -/
theorem mixedRun_sixPages :
    (fun r : Outcome State Halt Event (List Reply) =>
      r.trace.all Event.isWarm = true ∧ r.state.leafNum = 3 ∧
        r.state.height = 2)
      (freshRun mixedRun sixPages.initial) := by
  decide +kernel

theorem neverFills_mixed : NeverFills sixPages mixedRun :=
  neverFills_of_isWarm (by decide) mixedRun_sixPages.1

/-- Without evictions and failed allocations the tree is a map. -/
theorem freshRun_answers_like_map {c : TreeConfig} {ops : List Op}
    (h : NeverFills c ops) :
    ∃ replies, (freshRun ops c.initial).result = .ok replies ∧
      Answered (fun _ => none) ops replies := by
  obtain ⟨_, replies, hresult, hanswered, _⟩ := freshRun_warm h
  exact ⟨replies, hresult, hanswered⟩

theorem freshRun_answers_like_map_mixed :
    ∃ replies, (freshRun mixedRun sixPages.initial).result = .ok replies ∧
      Answered (fun _ => none) mixedRun replies :=
  freshRun_answers_like_map neverFills_mixed

/-- Without evictions and failed allocations no node operation leaves its
arrays, wraps a count, shifts out of a bitmap or lacks room. -/
theorem freshRun_calls_safely {c : TreeConfig} {ops : List Op}
    (h : NeverFills c ops) :
    (∃ replies, (freshRun ops c.initial).result = .ok replies) ∧
      ∀ e ∈ (freshRun ops c.initial).trace, e.Safe := by
  obtain ⟨hsafe, replies, hresult, _⟩ := freshRun_warm h
  exact ⟨⟨replies, hresult⟩, hsafe⟩

theorem freshRun_calls_safely_mixed :
    (∃ replies, (freshRun mixedRun sixPages.initial).result =
      .ok replies) ∧
      ∀ e ∈ (freshRun mixedRun sixPages.initial).trace, e.Safe :=
  freshRun_calls_safely neverFills_mixed

end CachingDex
