import CachingDex.Lib.Traced

/-!
# Sequences of calls

A client of an interface makes its calls one after the other.  `Along` says
that something holds of every call in the state it is made in; a call that
stops the program is the last one.  What holds of single calls is carried
over to sequences here, along an invariant of the states between them.
-/

namespace CachingDex.Lib

namespace Traced

variable {σ ε ω κ : Type} {C : Contract σ ε ω} {I : σ → Prop}

def runAll (run : κ → Traced σ ε ω Unit) : List κ → Traced σ ε ω Unit
  | [] => pure ()
  | call :: calls => do
      run call
      runAll run calls

/-- `P` holds of every call of a sequence, in the state it is made in. -/
def Along (run : κ → Traced σ ε ω Unit) (P : κ → σ → Prop) :
    σ → List κ → Prop
  | _, [] => True
  | s, call :: calls =>
      P call s ∧ ((run call s).result = .ok () →
        Along run P (run call s).state calls)

/-- The postcondition may speak of the run itself. -/
theorem Meets.and_run {α : Type} {m : Traced σ ε ω α} {s : σ}
    {Q : α → σ → Prop} (h : Meets C m s Q) :
    Meets C m s fun a s' => Q a s' ∧ (m s).result = .ok a ∧
      s' = (m s).state := by
  intro hrely
  obtain ⟨hguarantee, hpost⟩ := h hrely
  refine ⟨hguarantee, ?_⟩
  cases hresult : (m s).result with
  | ok a =>
      rw [hresult] at hpost
      exact ⟨hpost, rfl, rfl⟩
  | error e =>
      rw [hresult] at hpost
      exact hpost

variable {run : κ → Traced σ ε ω Unit} {P Q : κ → σ → Prop}

/-- A sequence of calls keeps the contract and the invariant if every call
does where its condition holds. -/
theorem Along.runAll
    (hcall : ∀ call s, I s → P call s → Meets C (run call) s fun _ s' => I s')
    {calls : List κ} {s : σ} (h : Along run P s calls) (hs : I s) :
    Meets C (runAll run calls) s fun _ s' => I s' := by
  induction calls generalizing s with
  | nil => exact meets_pure hs
  | cons call calls ih =>
      apply Meets.bind
      refine (hcall call s hs h.1).and_run.mono ?_
      intro _ s' hpost
      obtain ⟨hs', hok, rfl⟩ := hpost
      exact ih (h.2 hok) hs'

/-- Two properties of calls that agree where the invariant holds agree along
a sequence of calls. -/
theorem along_congr (hiff : ∀ call s, I s → (P call s ↔ Q call s))
    (hcall : ∀ call s, I s → Q call s → (run call s).result = .ok () →
      I (run call s).state) {calls : List κ} {s : σ} (hs : I s) :
    Along run P s calls ↔ Along run Q s calls := by
  induction calls generalizing s with
  | nil => exact Iff.rfl
  | cons call calls ih =>
      rw [Along, Along, hiff call s hs]
      constructor
      · intro h
        exact ⟨h.1, fun hok => (ih (hcall call s hs h.1 hok)).mp (h.2 hok)⟩
      · intro h
        exact ⟨h.1, fun hok => (ih (hcall call s hs h.1 hok)).mpr (h.2 hok)⟩

end Traced

end CachingDex.Lib
