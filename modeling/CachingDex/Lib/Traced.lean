import Mathlib.Tactic

/-!
# Programs that fail, keep their state and leave a trace

A program maps a state to an outcome: a result or a failure, the state in
which it stopped, and the list of events it emitted on the way.  A failure
keeps both the state and the trace, so that a property of what happened
before a run stopped can still be stated.

The second half is the program logic.  A contract names the events a run may
rely on, the events it guarantees and the failures it may end in; `Meets`
says that a run keeps its contract and ends in a given postcondition.
Reliance and guarantee range over single events, so both are closed under
splitting a trace and the rule for sequencing needs no side condition.

`Frames` compares two runs of one program: a change of a part of the state
that the program does not look at can be made before or after the run.
-/

namespace CachingDex.Lib

/-- What a run leaves behind. -/
structure Outcome (σ ε ω α : Type) where
  result : Except ε α
  state : σ
  trace : List ω

/-- A program over states `σ` with failures `ε` and events `ω`. -/
def Traced (σ ε ω α : Type) : Type :=
  σ → Outcome σ ε ω α

namespace Traced

variable {σ ε ω α β : Type}

protected def pure (a : α) : Traced σ ε ω α :=
  fun s => ⟨.ok a, s, []⟩

protected def bind (m : Traced σ ε ω α) (f : α → Traced σ ε ω β) :
    Traced σ ε ω β :=
  fun s =>
    match m s with
    | ⟨.ok a, s', trace⟩ =>
        let next := f a s'
        ⟨next.result, next.state, trace ++ next.trace⟩
    | ⟨.error e, s', trace⟩ => ⟨.error e, s', trace⟩

instance : Monad (Traced σ ε ω) where
  pure := Traced.pure
  bind := Traced.bind

/-- Read a part of the state. -/
def gets (f : σ → α) : Traced σ ε ω α :=
  fun s => ⟨.ok (f s), s, []⟩

/-- Change the state. -/
def modify (f : σ → σ) : Traced σ ε ω Unit :=
  fun s => ⟨.ok (), f s, []⟩

/-- Stop with a failure. -/
def halt (e : ε) : Traced σ ε ω α :=
  fun s => ⟨.error e, s, []⟩

/-- Append one event to the trace. -/
def emit (w : ω) : Traced σ ε ω Unit :=
  fun s => ⟨.ok (), s, [w]⟩

/-- Stop with `e` unless `c` holds. -/
def check (c : Bool) (e : ε) : Traced σ ε ω Unit :=
  if c then pure () else halt e

/-- Run a program only if a condition holds. -/
def onlyIf (c : Bool) (m : Traced σ ε ω Unit) : Traced σ ε ω Unit :=
  if c then m else pure ()

/-- Rename the events of a program. -/
def relabel (g : ω → ω) (m : Traced σ ε ω α) : Traced σ ε ω α :=
  fun s =>
    let o := m s
    ⟨o.result, o.state, o.trace.map g⟩

/-! ## Evaluation -/

theorem pure_apply (a : α) (s : σ) :
    (pure a : Traced σ ε ω α) s = ⟨.ok a, s, []⟩ := rfl

theorem bind_of_ok {m : Traced σ ε ω α} {f : α → Traced σ ε ω β}
    {s s' : σ} {a : α} {trace : List ω} (h : m s = ⟨.ok a, s', trace⟩) :
    (m >>= f) s =
      ⟨(f a s').result, (f a s').state, trace ++ (f a s').trace⟩ := by
  change Traced.bind m f s = _
  simp only [Traced.bind, h]

theorem bind_of_error {m : Traced σ ε ω α} {f : α → Traced σ ε ω β}
    {s s' : σ} {e : ε} {trace : List ω} (h : m s = ⟨.error e, s', trace⟩) :
    (m >>= f) s = ⟨.error e, s', trace⟩ := by
  change Traced.bind m f s = _
  simp only [Traced.bind, h]

/-- A result is computed without an event. -/
theorem trace_bind_pure (m : Traced σ ε ω α) (f : α → β) (s : σ) :
    ((m >>= fun a => pure (f a)) s).trace = (m s).trace := by
  rcases hm : m s with ⟨result, s', trace⟩
  cases result with
  | ok a =>
      rw [bind_of_ok hm, pure_apply, List.append_nil]
  | error e =>
      rw [bind_of_error hm]

/-- A longer continuation leaves a longer trace. -/
theorem bind_prefix_bind {γ : Type} (m : Traced σ ε ω α)
    {f : α → Traced σ ε ω β} {g : α → Traced σ ε ω γ} {s : σ}
    (h : ∀ a s', (f a s').trace <+: (g a s').trace) :
    ((m >>= f) s).trace <+: ((m >>= g) s).trace := by
  rcases hm : m s with ⟨result, s', trace⟩
  cases result with
  | ok a =>
      rw [bind_of_ok hm, bind_of_ok hm]
      exact (List.prefix_append_right_inj _).mpr (h a s')
  | error e =>
      rw [bind_of_error hm, bind_of_error hm]

/-! ## Contracts -/

/-- The events a run relies on, the events it guarantees, and the failures
it may end in, with the states it may leave then. -/
structure Contract (σ ε ω : Type) where
  rely : ω → Prop
  guarantee : ω → Prop
  mayHalt : ε → σ → Prop

/-- Started in `s`, the program keeps the contract `C`: if every event of
its trace is one `C` relies on, then every event is one `C` guarantees, and
the run either ends with a value and a state in `Q` or stops with a failure
`C` permits. -/
def Meets (C : Contract σ ε ω) (m : Traced σ ε ω α) (s : σ)
    (Q : α → σ → Prop) : Prop :=
  (∀ w ∈ (m s).trace, C.rely w) →
    (∀ w ∈ (m s).trace, C.guarantee w) ∧
      match (m s).result with
      | .ok a => Q a (m s).state
      | .error e => C.mayHalt e (m s).state

variable {C : Contract σ ε ω} {m : Traced σ ε ω α} {s : σ}
  {Q R : α → σ → Prop}

theorem Meets.mono (h : Meets C m s Q)
    (hQR : ∀ a s', Q a s' → R a s') : Meets C m s R := by
  intro hrely
  obtain ⟨hguarantee, hpost⟩ := h hrely
  refine ⟨hguarantee, ?_⟩
  cases hresult : (m s).result with
  | ok a =>
      rw [hresult] at hpost
      exact hQR a _ hpost
  | error e =>
      rw [hresult] at hpost
      exact hpost

/-- The program keeps every contract that relies on more and asks for less. -/
theorem Meets.weaken {C' : Contract σ ε ω} (h : Meets C m s Q)
    (hrely : ∀ w, C'.rely w → C.rely w)
    (hguarantee : ∀ w, C.guarantee w → C'.guarantee w)
    (hhalt : ∀ e s', C.mayHalt e s' → C'.mayHalt e s') : Meets C' m s Q := by
  intro hrely'
  obtain ⟨hkept, hpost⟩ := h fun w hw => hrely w (hrely' w hw)
  refine ⟨fun w hw => hguarantee w (hkept w hw), ?_⟩
  cases hresult : (m s).result with
  | ok a =>
      rw [hresult] at hpost
      exact hpost
  | error e =>
      rw [hresult] at hpost
      exact hhalt e _ hpost

theorem meets_pure {a : α} (h : Q a s) :
    Meets C (pure a : Traced σ ε ω α) s Q := by
  intro _
  exact ⟨by simp [pure_apply], h⟩

theorem Meets.bind {f : α → Traced σ ε ω β} {R : β → σ → Prop}
    (h : Meets C m s fun a s' => Meets C (f a) s' R) :
    Meets C (m >>= f) s R := by
  intro hrely
  rcases hm : m s with ⟨result, s', trace⟩
  cases result with
  | error e =>
      rw [bind_of_error hm] at hrely ⊢
      have hfirst := h (by simpa [hm] using hrely)
      simpa [hm] using hfirst
  | ok a =>
      rw [bind_of_ok hm] at hrely ⊢
      simp only [List.mem_append] at hrely
      obtain ⟨hfirst, hmid⟩ :=
        h (by simpa [hm] using fun w hw => hrely w (Or.inl hw))
      simp only [hm] at hfirst hmid
      obtain ⟨hsecond, hpost⟩ := hmid fun w hw => hrely w (Or.inr hw)
      refine ⟨?_, hpost⟩
      intro w hw
      rcases List.mem_append.mp hw with hw | hw
      · exact hfirst w hw
      · exact hsecond w hw

theorem meets_gets {f : σ → α} (h : Q (f s) s) :
    Meets C (gets f) s Q := by
  intro _
  exact ⟨by simp [gets], h⟩

theorem meets_modify {f : σ → σ} {Q : Unit → σ → Prop} (h : Q () (f s)) :
    Meets C (modify f) s Q := by
  intro _
  exact ⟨by simp [modify], h⟩

theorem meets_halt {e : ε} (h : C.mayHalt e s) :
    Meets C (halt e) s Q := by
  intro _
  exact ⟨by simp [halt], h⟩

theorem meets_emit {w : ω} {Q : Unit → σ → Prop}
    (h : C.rely w → C.guarantee w ∧ Q () s) :
    Meets C (emit w) s Q := by
  intro hrely
  have hw : C.rely w := hrely w (by simp [emit])
  refine ⟨?_, (h hw).2⟩
  intro v hv
  rw [show v = w by simpa [emit] using hv]
  exact (h hw).1

/-- An event that is guaranteed in any case. -/
theorem meets_emit_of {w : ω} {Q : Unit → σ → Prop} (hw : C.guarantee w)
    (h : Q () s) : Meets C (emit w) s Q :=
  meets_emit fun _ => ⟨hw, h⟩

theorem meets_check {c : Bool} {e : ε} {Q : Unit → σ → Prop}
    (hc : c = true) (h : Q () s) : Meets C (check c e) s Q := by
  rw [check, if_pos hc]
  exact meets_pure h

theorem meets_ite {c : Prop} [Decidable c] {m' : Traced σ ε ω α}
    (ht : c → Meets C m s Q) (hf : ¬ c → Meets C m' s Q) :
    Meets C (if c then m else m') s Q := by
  split_ifs with hc
  · exact ht hc
  · exact hf hc

theorem meets_onlyIf {c : Bool} {m : Traced σ ε ω Unit}
    {Q : Unit → σ → Prop} (ht : c = true → Meets C m s Q)
    (hf : c = false → Q () s) : Meets C (onlyIf c m) s Q := by
  cases c with
  | true => exact ht rfl
  | false => exact meets_pure (hf rfl)

/-- A renamed program keeps `C` when the original one keeps the contract
that judges an event by its new name. -/
theorem Meets.relabel {g : ω → ω}
    (h : Meets ⟨fun w => C.rely (g w), fun w => C.guarantee (g w), C.mayHalt⟩
      m s Q) :
    Meets C (relabel g m) s Q := by
  intro hrely
  have hinner : ∀ w ∈ (m s).trace, C.rely (g w) := by
    intro w hw
    exact hrely (g w) (List.mem_map_of_mem hw)
  obtain ⟨hguarantee, hpost⟩ := h hinner
  refine ⟨?_, hpost⟩
  intro w hw
  obtain ⟨v, hv, rfl⟩ := List.mem_map.mp hw
  exact hguarantee v hv

/-- The same where the new names keep what the contract says of an event. -/
theorem Meets.relabel_of {g : ω → ω} (h : Meets C m s Q)
    (hrely : ∀ w, C.rely (g w) → C.rely w)
    (hguarantee : ∀ w, C.guarantee w → C.guarantee (g w)) :
    Meets C (Traced.relabel g m) s Q := by
  apply Meets.relabel
  intro hnamed
  obtain ⟨hkept, hpost⟩ := h fun w hw => hrely w (hnamed w hw)
  exact ⟨fun w hw => hguarantee w (hkept w hw), hpost⟩

/-! ## Invariants of the state -/

/-- The program keeps the contract and an invariant of the state. -/
def Maintains (C : Contract σ ε ω) (I : σ → Prop) (m : Traced σ ε ω α) : Prop :=
  ∀ s, I s → Meets C m s fun _ s' => I s'

section Maintains

variable {I : σ → Prop}

theorem maintains_pure (a : α) :
    Maintains C I (pure a : Traced σ ε ω α) :=
  fun _ h => meets_pure h

theorem Maintains.bind {f : α → Traced σ ε ω β} (hm : Maintains C I m)
    (hf : ∀ a, Maintains C I (f a)) : Maintains C I (m >>= f) := by
  intro s h
  apply Meets.bind
  refine (hm s h).mono ?_
  intro a s' h'
  exact hf a s' h'

theorem maintains_gets (f : σ → α) :
    Maintains C I (gets f : Traced σ ε ω α) :=
  fun _ h => meets_gets h

theorem maintains_modify {f : σ → σ} (hf : ∀ s, I s → I (f s)) :
    Maintains C I (modify f : Traced σ ε ω Unit) :=
  fun s h => meets_modify (hf s h)

theorem maintains_halt {e : ε} (he : ∀ s, I s → C.mayHalt e s) :
    Maintains C I (halt e : Traced σ ε ω α) :=
  fun s h => meets_halt (he s h)

theorem maintains_emit {w : ω} (hw : C.guarantee w) :
    Maintains C I (emit w : Traced σ ε ω Unit) :=
  fun _ h => meets_emit_of hw h

theorem maintains_check (c : Bool) {e : ε}
    (he : ∀ s, I s → C.mayHalt e s) :
    Maintains C I (check c e : Traced σ ε ω Unit) := by
  cases c with
  | true => exact maintains_pure ()
  | false => exact maintains_halt he

theorem maintains_onlyIf (c : Bool) {m : Traced σ ε ω Unit}
    (hm : Maintains C I m) : Maintains C I (onlyIf c m) := by
  cases c with
  | true => exact hm
  | false => exact maintains_pure ()

/-- A value read from a state that satisfies the invariant may be put into
an event. -/
theorem maintains_gets_emit {f : σ → α} {w : α → ω}
    {k : α → Traced σ ε ω β} (hw : ∀ s, I s → C.guarantee (w (f s)))
    (hk : ∀ a, Maintains C I (k a)) :
    Maintains C I (gets f >>= fun a => emit (w a) >>= fun _ => k a) := by
  intro s h
  apply Meets.bind
  apply meets_gets
  apply Meets.bind
  exact meets_emit_of (hw s h) (hk _ s h)

/-- The change may depend on a value read just before it. -/
theorem maintains_gets_modify {f : σ → α} {g : α → σ → σ}
    {k : α → Traced σ ε ω β} (hg : ∀ s, I s → I (g (f s) s))
    (hk : ∀ a, Maintains C I (k a)) :
    Maintains C I (gets f >>= fun a => modify (g a) >>= fun _ => k a) := by
  intro s h
  apply Meets.bind
  apply meets_gets
  apply Meets.bind
  exact meets_modify (hk _ _ (hg s h))

end Maintains

/-- From a state that satisfies `I` the program keeps the contract and the
invariant, and its result satisfies `P`. -/
def Yields (C : Contract σ ε ω) (I : σ → Prop) (P : α → Prop)
    (m : Traced σ ε ω α) : Prop :=
  ∀ s, I s → Meets C m s fun a s' => P a ∧ I s'

section Yields

variable {I : σ → Prop} {P : α → Prop} {P' : β → Prop}

theorem Maintains.yields (h : Maintains C I m) :
    Yields C I (fun _ => True) m :=
  fun s hs => (h s hs).mono fun _ _ h' => ⟨trivial, h'⟩

theorem Yields.maintains (h : Yields C I P m) : Maintains C I m :=
  fun s hs => (h s hs).mono fun _ _ h' => h'.2

theorem yields_pure {a : α} (ha : P a) :
    Yields C I P (pure a : Traced σ ε ω α) :=
  fun _ h => meets_pure ⟨ha, h⟩

theorem Yields.bind {f : α → Traced σ ε ω β} (hm : Yields C I P m)
    (hf : ∀ a, P a → Yields C I P' (f a)) : Yields C I P' (m >>= f) := by
  intro s h
  apply Meets.bind
  refine (hm s h).mono ?_
  intro a s' h'
  exact hf a h'.1 s' h'.2

/-- After a program whose result says nothing. -/
theorem Maintains.bind_yields {f : α → Traced σ ε ω β}
    (hm : Maintains C I m) (hf : ∀ a, Yields C I P' (f a)) :
    Yields C I P' (m >>= f) :=
  hm.yields.bind fun a _ => hf a

/-- After a value that is known to satisfy `P`. -/
theorem Yields.bind_maintains {f : α → Traced σ ε ω β}
    (hm : Yields C I P m) (hf : ∀ a, P a → Maintains C I (f a)) :
    Maintains C I (m >>= f) :=
  (hm.bind fun a ha => (hf a ha).yields).maintains

theorem yields_gets {f : σ → α} (hf : ∀ s, I s → P (f s)) :
    Yields C I P (gets f : Traced σ ε ω α) :=
  fun s h => meets_gets ⟨hf s h, h⟩

theorem yields_halt {e : ε} (he : ∀ s, I s → C.mayHalt e s) :
    Yields C I P (halt e : Traced σ ε ω α) :=
  fun s h => meets_halt (he s h)

theorem yields_gets_emit {f : σ → α} {w : α → ω} {k : α → Traced σ ε ω β}
    (hw : ∀ s, I s → C.guarantee (w (f s))) (hk : ∀ a, Yields C I P' (k a)) :
    Yields C I P' (gets f >>= fun a => emit (w a) >>= fun _ => k a) := by
  intro s h
  apply Meets.bind
  apply meets_gets
  apply Meets.bind
  exact meets_emit_of (hw s h) (hk _ s h)

end Yields

/-! ## Framing -/

/-- As long as every event is in `P`, the run from a state changed by `f` is
the same run, with its last state changed by `f`. -/
def Frames (P : ω → Prop) (f : σ → σ) (m : Traced σ ε ω α) : Prop :=
  ∀ s, (∀ w ∈ (m s).trace, P w) →
    m (f s) = ⟨(m s).result, f (m s).state, (m s).trace⟩

section Frames

variable {P : ω → Prop} {f : σ → σ}

theorem frames_pure (a : α) : Frames P f (pure a : Traced σ ε ω α) :=
  fun _ _ => rfl

theorem Frames.bind {k : α → Traced σ ε ω β} (hm : Frames P f m)
    (hk : ∀ a, Frames P f (k a)) : Frames P f (m >>= k) := by
  intro s htrace
  rcases hrun : m s with ⟨result, s', trace⟩
  cases result with
  | error e =>
      rw [bind_of_error hrun] at htrace ⊢
      have hfirst := hm s (by simpa [hrun] using htrace)
      rw [hrun] at hfirst
      exact bind_of_error hfirst
  | ok a =>
      rw [bind_of_ok hrun] at htrace ⊢
      simp only [List.mem_append] at htrace
      have hfirst := hm s (by
        rw [hrun]
        exact fun w hw => htrace w (Or.inl hw))
      have hnext := hk a s' fun w hw => htrace w (Or.inr hw)
      rw [hrun] at hfirst
      rw [bind_of_ok hfirst, hnext]

theorem frames_gets {g : σ → α} (h : ∀ s, g (f s) = g s) :
    Frames P f (gets g : Traced σ ε ω α) := by
  intro s _
  simp only [gets, h]

theorem frames_modify {g : σ → σ} (h : ∀ s, g (f s) = f (g s)) :
    Frames P f (modify g : Traced σ ε ω Unit) := by
  intro s _
  simp only [modify, h]

theorem frames_halt (e : ε) : Frames P f (halt e : Traced σ ε ω α) :=
  fun _ _ => rfl

theorem frames_emit (w : ω) : Frames P f (emit w : Traced σ ε ω Unit) :=
  fun _ _ => rfl

/-- An event outside `P` ends the comparison. -/
theorem frames_emit_bind {w : ω} (h : ¬ P w) (k : Unit → Traced σ ε ω α) :
    Frames P f (emit w >>= k) := by
  intro s htrace
  rw [bind_of_ok (m := emit w) rfl] at htrace
  exact absurd (htrace w (by simp)) h

theorem frames_onlyIf (c : Bool) {m : Traced σ ε ω Unit}
    (h : Frames P f m) : Frames P f (onlyIf c m) := by
  cases c with
  | true => exact h
  | false => exact frames_pure ()

theorem frames_check (c : Bool) (e : ε) :
    Frames P f (check c e : Traced σ ε ω Unit) := by
  cases c with
  | true => exact frames_pure ()
  | false => exact frames_halt e

theorem Frames.relabel {g : ω → ω} (h : Frames (fun w => P (g w)) f m) :
    Frames P f (relabel g m) := by
  intro s htrace
  have hrun := h s fun w hw => htrace (g w) (List.mem_map_of_mem hw)
  simp only [Traced.relabel, hrun]

end Frames

end Traced

end CachingDex.Lib
