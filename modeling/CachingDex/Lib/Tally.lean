import CachingDex.Lib.Traced

/-!
# Keeping a tally

A tally is a quantity of the state together with what every event takes from
it.  A program moves the tally by `d` if the quantity changes by the charges
of its events and by `d`, also where the program stops early.  The balances of
programs in sequence add up where the first always returns, or the rest
leaves none.
-/

namespace CachingDex.Lib

variable {σ ε ω α β : Type}

/-- A quantity of the states in order, and the charges of the events. -/
structure Tally (σ ω : Type) where
  gauge : σ → ℤ
  charge : ω → ℤ
  inv : σ → Prop

namespace Tally

open Traced

variable {T : Tally σ ω} {d e : ℤ} {m : Traced σ ε ω α}

def total (T : Tally σ ω) (log : List ω) : ℤ :=
  (log.map T.charge).sum

def Moves (T : Tally σ ω) (d : ℤ) (m : Traced σ ε ω α) : Prop :=
  ∀ s, T.inv s → T.inv (m s).state ∧
    T.gauge (m s).state = T.gauge s + T.total (m s).trace + d

theorem moves_pure (a : α) : T.Moves 0 (pure a : Traced σ ε ω α) := by
  intro s hs
  exact ⟨hs, by simp [total, pure_apply]⟩

theorem moves_halt (h : ε) : T.Moves 0 (halt h : Traced σ ε ω α) := by
  intro s hs
  exact ⟨hs, by simp [total, Traced.halt]⟩

/-- A program that always returns may leave a balance to the next one. -/
theorem Moves.bind_of_ok {k : α → Traced σ ε ω β} (hm : T.Moves d m)
    (hok : ∀ s, T.inv s → ∃ a, (m s).result = .ok a)
    (hk : ∀ a, T.Moves e (k a)) : T.Moves (d + e) (m >>= k) := by
  intro s hs
  rcases hrun : m s with ⟨result, s', trace⟩
  obtain ⟨a, ha⟩ := hok s hs
  rw [hrun] at ha
  obtain rfl : result = .ok a := ha
  have hfirst := hm s hs
  rw [hrun] at hfirst
  have hnext := hk a s' hfirst.1
  rw [Traced.bind_of_ok hrun]
  refine ⟨hnext.1, ?_⟩
  simp only [total, List.map_append, List.sum_append] at hfirst hnext ⊢
  rw [hnext.2, hfirst.2]
  ring

/-- The same where the first program leaves none. -/
theorem Moves.then_bind {k : α → Traced σ ε ω β} (hm : T.Moves 0 m)
    (hok : ∀ s, T.inv s → ∃ a, (m s).result = .ok a)
    (hk : ∀ a, T.Moves d (k a)) : T.Moves d (m >>= k) := by
  have hsum := hm.bind_of_ok hok hk
  rwa [zero_add] at hsum

/-- A program may stop early as long as the next one leaves no balance. -/
theorem Moves.bind {k : α → Traced σ ε ω β} (hm : T.Moves d m)
    (hk : ∀ a, T.Moves 0 (k a)) : T.Moves d (m >>= k) := by
  intro s hs
  rcases hrun : m s with ⟨result, s', trace⟩
  have hfirst := hm s hs
  rw [hrun] at hfirst
  cases result with
  | error h =>
      rw [Traced.bind_of_error hrun]
      exact hfirst
  | ok a =>
      have hnext := hk a s' hfirst.1
      rw [Traced.bind_of_ok hrun]
      refine ⟨hnext.1, ?_⟩
      simp only [total, List.map_append, List.sum_append] at hfirst hnext ⊢
      rw [hnext.2, hfirst.2]
      ring

theorem moves_modify_bind {f : σ → σ} {k : Unit → Traced σ ε ω β}
    (hf : ∀ s, T.inv s → T.inv (f s) ∧ T.gauge (f s) = T.gauge s + e)
    (hk : T.Moves d (k ())) : T.Moves (e + d) (modify f >>= k) := by
  intro s hs
  obtain ⟨hinv, hgauge⟩ := hf s hs
  obtain ⟨hinv', hgauge'⟩ := hk (f s) hinv
  refine ⟨hinv', ?_⟩
  change T.gauge (k () (f s)).state = T.gauge s + T.total (k () (f s)).trace + _
  rw [hgauge', hgauge]
  ring

theorem moves_modify {f : σ → σ}
    (hf : ∀ s, T.inv s → T.inv (f s) ∧ T.gauge (f s) = T.gauge s) :
    T.Moves 0 (modify f : Traced σ ε ω Unit) := by
  intro s hs
  obtain ⟨hinv, hgauge⟩ := hf s hs
  exact ⟨hinv, by simp [Traced.modify, total, hgauge]⟩

theorem moves_onlyIf (c : Bool) {m : Traced σ ε ω Unit}
    (hm : T.Moves 0 m) : T.Moves 0 (onlyIf c m) := by
  cases c with
  | true => exact hm
  | false => exact moves_pure ()

theorem Moves.relabel {g : ω → ω} (hg : ∀ w, T.charge (g w) = T.charge w)
    (hm : T.Moves d m) : T.Moves d (relabel g m) := by
  intro s hs
  obtain ⟨hinv, hgauge⟩ := hm s hs
  refine ⟨hinv, ?_⟩
  have hcharge : T.charge ∘ g = T.charge := funext hg
  have htotal : T.total ((m s).trace.map g) = T.total (m s).trace := by
    simp [total, hcharge]
  change T.gauge (m s).state = T.gauge s + T.total ((m s).trace.map g) + d
  rw [htotal, hgauge]

end Tally

end CachingDex.Lib
