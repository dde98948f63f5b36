import CachingDex.Lib.Traced

/-!
# Properties of a whole history

A contract judges the events of a run one by one.  `Records` judges a run
together with all events before it, so that a property of the order of
events can be carried through a program.

The property used here is about things that go out and come back: an
`Exchange` names the two events, and a history is in turn if nothing goes
out twice without having come back in between.
-/

namespace CachingDex.Lib

namespace Traced

variable {σ ε ω α β : Type}

/-- Started in `s` after the events `log`, the program ends in `Q`, which may
speak of all events so far; if it stops early, the events so far are in
`J`. -/
def Records (J : List ω → Prop) (log : List ω) (m : Traced σ ε ω α) (s : σ)
    (Q : α → List ω → σ → Prop) : Prop :=
  match (m s).result with
  | .ok a => Q a (log ++ (m s).trace) (m s).state
  | .error _ => J (log ++ (m s).trace)

variable {J : List ω → Prop} {log : List ω} {m : Traced σ ε ω α} {s : σ}
  {Q R : α → List ω → σ → Prop}

theorem Records.mono (h : Records J log m s Q)
    (hQR : ∀ a log' s', Q a log' s' → R a log' s') :
    Records J log m s R := by
  unfold Records at h ⊢
  cases hresult : (m s).result with
  | ok a =>
      rw [hresult] at h
      exact hQR a _ _ h
  | error e =>
      rw [hresult] at h
      exact h

/-- Where every result satisfies `J` as well, so does the whole history. -/
theorem Records.history (h : Records J log m s Q)
    (hQ : ∀ a log' s', Q a log' s' → J log') : J (log ++ (m s).trace) := by
  unfold Records at h
  cases hresult : (m s).result with
  | ok a =>
      rw [hresult] at h
      exact hQ a _ _ h
  | error e =>
      rw [hresult] at h
      exact h

theorem Records.of_ok {a : α} {s' : σ} {trace : List ω}
    (h : Records J log m s Q) (hrun : m s = ⟨.ok a, s', trace⟩) :
    Q a (log ++ trace) s' := by
  simpa only [Records, hrun] using h

theorem records_pure {a : α} (h : Q a log s) :
    Records J log (pure a : Traced σ ε ω α) s Q := by
  simpa only [Records, pure_apply, List.append_nil] using h

theorem Records.bind {f : α → Traced σ ε ω β}
    {R : β → List ω → σ → Prop}
    (h : Records J log m s fun a log' s' => Records J log' (f a) s' R) :
    Records J log (m >>= f) s R := by
  rcases hm : m s with ⟨result, s', trace⟩
  cases result with
  | error e =>
      simpa only [Records, hm, bind_of_error hm] using h
  | ok a =>
      have hnext := h.of_ok hm
      simpa only [Records, bind_of_ok hm, List.append_assoc] using hnext

theorem records_gets {f : σ → α} (h : Q (f s) log s) :
    Records J log (gets f : Traced σ ε ω α) s Q := by
  simpa only [Records, gets, List.append_nil] using h

theorem records_modify {f : σ → σ} {Q : Unit → List ω → σ → Prop}
    (h : Q () log (f s)) :
    Records J log (modify f : Traced σ ε ω Unit) s Q := by
  simpa only [Records, modify, List.append_nil] using h

theorem records_halt {e : ε} (h : J log) :
    Records J log (halt e : Traced σ ε ω α) s Q := by
  simpa only [Records, halt, List.append_nil] using h

theorem records_emit {w : ω} {Q : Unit → List ω → σ → Prop}
    (h : Q () (log ++ [w]) s) :
    Records J log (emit w : Traced σ ε ω Unit) s Q :=
  h

theorem records_check {c : Bool} {e : ε} {Q : Unit → List ω → σ → Prop}
    (hJ : J log) (h : Q () log s) :
    Records J log (check c e : Traced σ ε ω Unit) s Q := by
  cases c with
  | true => exact records_pure h
  | false => exact records_halt hJ

theorem records_onlyIf {c : Bool} {m : Traced σ ε ω Unit}
    {Q : Unit → List ω → σ → Prop} (ht : c = true → Records J log m s Q)
    (hf : c = false → Q () log s) : Records J log (onlyIf c m) s Q := by
  cases c with
  | true => exact ht rfl
  | false => exact records_pure (hf rfl)

end Traced

/-! ## Going out and coming back -/

/-- The events by which a thing goes out and comes back. -/
structure Exchange (P ω : Type) where
  out : P → ω
  back : P → ω
  out_injective : Function.Injective out
  back_ne_out : ∀ p q, back p ≠ out q

namespace Exchange

variable {P ω : Type} {x : Exchange P ω} {log : List ω} {p q : P} {w : ω}

/-- Whenever `p` went out, it came back later. -/
def Home (x : Exchange P ω) (log : List ω) (p : P) : Prop :=
  ∀ a c, log = a ++ x.out p :: c → x.back p ∈ c

/-- Between two times a thing goes out it comes back. -/
def InTurn (x : Exchange P ω) (log : List ω) : Prop :=
  ∀ a b c p, log = a ++ x.out p :: (b ++ x.out p :: c) → x.back p ∈ b

theorem home_nil (x : Exchange P ω) (p : P) : x.Home [] p := by
  intro a c h
  simp at h

theorem inTurn_nil (x : Exchange P ω) : x.InTurn [] := by
  intro a b c p h
  simp at h

/-- A split of a history at an event is a split before its last event, or
the last event itself. -/
theorem split_append {a c : List ω} {v : ω}
    (h : log ++ [w] = a ++ v :: c) :
    (c = [] ∧ log = a ∧ w = v) ∨
      ∃ c', c = c' ++ [w] ∧ log = a ++ v :: c' := by
  rcases List.eq_nil_or_concat c with rfl | ⟨c', z, rfl⟩
  · have := List.append_inj' h rfl
    exact Or.inl ⟨rfl, this.1, by simpa using this.2⟩
  · rw [List.concat_eq_append, ← List.cons_append, ← List.append_assoc] at h
    have := List.append_inj' h rfl
    obtain rfl : w = z := by simpa using this.2
    exact Or.inr ⟨c', List.concat_eq_append, this.1⟩

theorem Home.append_of_ne (h : x.Home log p) (hw : w ≠ x.out p) :
    x.Home (log ++ [w]) p := by
  intro a c hsplit
  rcases split_append hsplit with ⟨_, _, heq⟩ | ⟨c', rfl, hlog⟩
  · exact absurd heq hw
  · exact List.mem_append_left _ (h a c' hlog)

theorem Home.append_out (h : x.Home log p) (hne : q ≠ p) :
    x.Home (log ++ [x.out q]) p :=
  h.append_of_ne fun heq => hne (x.out_injective heq)

/-- What has just come back is home. -/
theorem home_append_back (x : Exchange P ω) (log : List ω) (p : P) :
    x.Home (log ++ [x.back p]) p := by
  intro a c hsplit
  rcases split_append hsplit with ⟨_, _, heq⟩ | ⟨c', rfl, _⟩
  · exact absurd heq (x.back_ne_out p p)
  · simp

theorem Home.mem_back (h : x.Home log p) (hout : x.out p ∈ log) :
    x.back p ∈ log := by
  obtain ⟨a, c, rfl⟩ := List.append_of_mem hout
  have := h a c rfl
  simp [this]

theorem InTurn.append_of_ne (h : x.InTurn log) (hw : ∀ p, w ≠ x.out p) :
    x.InTurn (log ++ [w]) := by
  intro a b c p hsplit
  rw [← List.cons_append, ← List.append_assoc] at hsplit
  rcases split_append hsplit with ⟨_, _, heq⟩ | ⟨c', rfl, hlog⟩
  · exact absurd heq (hw p)
  · exact h a b c' p (by simpa using hlog)

theorem Home.append {extra : List ω} (h : x.Home log p)
    (hne : ∀ w ∈ extra, w ≠ x.out p) : x.Home (log ++ extra) p := by
  induction extra generalizing log with
  | nil => simpa using h
  | cons w extra ih =>
      have hnext := ih (h.append_of_ne (hne w (by simp)))
        fun v hv => hne v (by simp [hv])
      simpa using hnext

theorem InTurn.append {extra : List ω} (h : x.InTurn log)
    (hne : ∀ w ∈ extra, ∀ p, w ≠ x.out p) : x.InTurn (log ++ extra) := by
  induction extra generalizing log with
  | nil => simpa using h
  | cons w extra ih =>
      have hnext := ih (h.append_of_ne (hne w (by simp)))
        fun v hv => hne v (by simp [hv])
      simpa using hnext

/-- A thing may go out again exactly when it is home. -/
theorem inTurn_append_out :
    x.InTurn (log ++ [x.out p]) ↔ x.InTurn log ∧ x.Home log p := by
  constructor
  · intro h
    constructor
    · intro a b c q hsplit
      exact h a b (c ++ [x.out p]) q (by simp [hsplit])
    · intro a c hsplit
      exact h a c [] p (by simp [hsplit])
  · rintro ⟨h, hhome⟩ a b c q hsplit
    rw [← List.cons_append, ← List.append_assoc] at hsplit
    rcases split_append hsplit with ⟨_, hlog, heq⟩ | ⟨c', _, hlog⟩
    · obtain rfl := x.out_injective heq
      exact hhome a b hlog
    · exact h a b c' q (by simpa using hlog)

end Exchange

end CachingDex.Lib
