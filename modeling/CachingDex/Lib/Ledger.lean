import Mathlib.Tactic

/-!
# Items kept in a family of queues

A ledger records which items were taken in and which were handed back, the
newest entry first.  `Kept` relates a ledger to a family of lists that hold
the items: nothing is in two places, every item taken in is held or has been
handed back once since, and each list has its newest items in front.  It is
preserved when an item that is held nowhere goes to the front of a list and
when any item is taken out of its list.
-/

namespace CachingDex.Lib

inductive LedgerEntry (P : Type) where
  | taken (p : P)
  | back (p : P)

abbrev Ledger (P : Type) := List (LedgerEntry P)

section Ledger

variable {P : Type} [DecidableEq P]

/-- When the item was last taken in, counted from the start; 0 if never. -/
def Ledger.lastTaken (p : P) : Ledger P → ℕ
  | [] => 0
  | .taken q :: l => if q = p then l.length + 1 else Ledger.lastTaken p l
  | .back _ :: l => Ledger.lastTaken p l

/-- How often the item has been handed back since it was last taken in, if
it ever was. -/
def Ledger.backs (p : P) : Ledger P → Option ℕ
  | [] => none
  | .taken q :: l => if q = p then some 0 else Ledger.backs p l
  | .back q :: l =>
      if q = p then (Ledger.backs p l).map (· + 1) else Ledger.backs p l

theorem Ledger.lastTaken_le (p : P) (l : Ledger P) :
    Ledger.lastTaken p l ≤ l.length := by
  induction l with
  | nil => simp [lastTaken]
  | cons e l ih =>
      cases e with
      | taken q =>
          simp only [lastTaken, List.length_cons]
          split_ifs <;> omega
      | back q =>
          simp only [lastTaken, List.length_cons]
          omega

variable {ι : Type}

structure Kept (l : Ledger P) (Q : ι → List P) : Prop where
  nodup : ∀ i, (Q i).Nodup
  apart : ∀ {i j p}, p ∈ Q i → p ∈ Q j → i = j
  held : ∀ {i p}, p ∈ Q i → l.backs p = some 0
  gone : ∀ {p}, (∀ i, p ∉ Q i) → l.backs p = none ∨ l.backs p = some 1
  newest : ∀ i, (Q i).Pairwise fun a b => l.lastTaken b < l.lastTaken a

theorem Kept.empty : Kept ([] : Ledger P) fun _ : ι => [] where
  nodup _ := List.nodup_nil
  apart h := by simp at h
  held h := by simp at h
  gone _ := Or.inl rfl
  newest _ := List.Pairwise.nil

variable {l : Ledger P} {Q : ι → List P} {p : P} {i : ι}

/-- The last item of a list is its oldest. -/
theorem Kept.oldest (h : Kept l Q) (hp : (Q i).getLast? = some p) {q : P}
    (hq : q ∈ Q i) : l.lastTaken p ≤ l.lastTaken q := by
  obtain ⟨front, hfront⟩ := List.getLast?_eq_some_iff.mp hp
  have hsorted := h.newest i
  rw [hfront, List.pairwise_append] at hsorted
  rw [hfront, List.mem_append, List.mem_singleton] at hq
  rcases hq with hq | rfl
  · exact (hsorted.2.2 q hq p (by simp)).le
  · exact le_rfl

/-- The first item with a property is the newest one with it. -/
theorem Kept.newest_of_find (h : Kept l Q) {c : P → Bool}
    (hp : (Q i).find? c = some p) {q : P} (hq : q ∈ Q i)
    (hc : c q = true) : l.lastTaken q ≤ l.lastTaken p := by
  obtain ⟨_, front, back, hsplit, hfront⟩ :=
    List.find?_eq_some_iff_append.mp hp
  have hsorted := h.newest i
  rw [hsplit, List.pairwise_append, List.pairwise_cons] at hsorted
  rw [hsplit, List.mem_append, List.mem_cons] at hq
  rcases hq with hq | rfl | hq
  · have := hfront q hq
    simp [hc] at this
  · exact le_rfl
  · exact (hsorted.2.1.1 q hq).le

variable [DecidableEq ι]

/-- An item that is held nowhere goes to the front of a list. -/
theorem Kept.take (h : Kept l Q) (hnew : ∀ j, p ∉ Q j) (i : ι) :
    Kept (.taken p :: l) (Function.update Q i (p :: Q i)) := by
  have hmem : ∀ {j q}, q ∈ Function.update Q i (p :: Q i) j →
      (q = p ∧ j = i) ∨ q ∈ Q j := by
    intro j q hq
    by_cases hj : j = i
    · subst hj
      rw [Function.update_self, List.mem_cons] at hq
      exact hq.imp_left fun heq => ⟨heq, rfl⟩
    · rw [Function.update_of_ne hj] at hq
      exact Or.inr hq
  have hne : ∀ {j q}, q ∈ Q j → p ≠ q := by
    rintro j _ hq rfl
    exact hnew j hq
  constructor
  · intro j
    by_cases hj : j = i
    · subst hj
      rw [Function.update_self]
      exact List.nodup_cons.mpr ⟨hnew j, h.nodup j⟩
    · rw [Function.update_of_ne hj]
      exact h.nodup j
  · intro j j' q hq hq'
    rcases hmem hq with ⟨rfl, rfl⟩ | hold
    · rcases hmem hq' with ⟨_, rfl⟩ | hold'
      · rfl
      · exact absurd hold' (hnew j')
    · rcases hmem hq' with ⟨rfl, _⟩ | hold'
      · exact absurd hold (hnew j)
      · exact h.apart hold hold'
  · intro j q hq
    rcases hmem hq with ⟨rfl, _⟩ | hold
    · simp [Ledger.backs]
    · simp [Ledger.backs, hne hold, h.held hold]
  · intro q hq
    have hqp : p ≠ q := by
      rintro rfl
      exact hq i (by simp)
    have hold : ∀ j, q ∉ Q j := by
      intro j hj
      apply hq j
      by_cases hji : j = i
      · subst hji
        simp [hj]
      · rwa [Function.update_of_ne hji]
    simpa [Ledger.backs, hqp] using h.gone hold
  · intro j
    have hsame : ∀ q, p ≠ q →
        Ledger.lastTaken q (.taken p :: l) = l.lastTaken q := by
      intro q hq
      simp [Ledger.lastTaken, hq]
    have hold : (Q j).Pairwise fun a b =>
        Ledger.lastTaken b (.taken p :: l) <
          Ledger.lastTaken a (.taken p :: l) := by
      refine (h.newest j).imp_of_mem fun ha hb hlt => ?_
      rwa [hsame _ (hne ha), hsame _ (hne hb)]
    by_cases hj : j = i
    · subst hj
      rw [Function.update_self]
      refine List.pairwise_cons.mpr ⟨fun q hq => ?_, hold⟩
      rw [hsame q (hne hq)]
      have := l.lastTaken_le q
      simp only [Ledger.lastTaken, if_true]
      omega
    · rwa [Function.update_of_ne hj]

/-- An item is taken out of its list. -/
theorem Kept.handBack (h : Kept l Q) (hp : p ∈ Q i) :
    Kept (.back p :: l) (Function.update Q i ((Q i).erase p)) := by
  have hsub : ∀ {j q}, q ∈ Function.update Q i ((Q i).erase p) j →
      q ∈ Q j ∧ p ≠ q := by
    intro j q hq
    by_cases hj : j = i
    · subst hj
      rw [Function.update_self, (h.nodup j).mem_erase_iff] at hq
      exact ⟨hq.2, hq.1.symm⟩
    · rw [Function.update_of_ne hj] at hq
      refine ⟨hq, ?_⟩
      rintro rfl
      exact hj (h.apart hq hp)
  constructor
  · intro j
    by_cases hj : j = i
    · subst hj
      rw [Function.update_self]
      exact (h.nodup j).erase p
    · rw [Function.update_of_ne hj]
      exact h.nodup j
  · exact fun hq hq' => h.apart (hsub hq).1 (hsub hq').1
  · intro j q hq
    obtain ⟨hold, hne⟩ := hsub hq
    simp [Ledger.backs, hne, h.held hold]
  · intro q hq
    by_cases hqp : p = q
    · subst hqp
      right
      simp [Ledger.backs, h.held hp]
    · have hold : ∀ j, q ∉ Q j := by
        intro j hj
        apply hq j
        by_cases hji : j = i
        · subst hji
          rw [Function.update_self, (h.nodup j).mem_erase_iff]
          exact ⟨Ne.symm hqp, hj⟩
        · rwa [Function.update_of_ne hji]
      simpa [Ledger.backs, hqp] using h.gone hold
  · intro j
    by_cases hj : j = i
    · subst hj
      rw [Function.update_self]
      exact (h.newest j).sublist List.erase_sublist
    · rw [Function.update_of_ne hj]
      exact h.newest j

end Ledger

end CachingDex.Lib
