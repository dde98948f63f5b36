import Mathlib.Tactic

/-!
# Rows of keyed slots

A slot has a key and perhaps a value; one without a value is free, but the key
it had last is still there.  A row is read by the first occupied slot with the
key.  When every occupied slot is the first one of its key, free slots
included, a search that does not look at the values finds the same slot, and
the row is a map that changes in one place at a time.
-/

namespace CachingDex.Lib

variable {K V : Type}

/-- Every occupied slot is the first one with its key. -/
def FirstHeld (row : List (K × Option V)) : Prop :=
  row.Pairwise fun f g => g.2 ≠ none → f.1 ≠ g.1

section Rows

variable {row pre post : List (K × Option V)} {f : K × Option V} {k : K}
  {v : V} {x y : Option V}

theorem FirstHeld.value_unique (h : FirstHeld row) {w : V}
    (hv : (k, some v) ∈ row) (hw : (k, some w) ∈ row) : v = w := by
  by_contra hne
  rcases List.mem_iff_getElem.mp hv with ⟨i, hi, hiv⟩
  rcases List.mem_iff_getElem.mp hw with ⟨j, hj, hjw⟩
  have hpair := List.pairwise_iff_getElem.mp h
  rcases Nat.lt_trichotomy i j with hlt | heq | hlt
  · have := hpair i j hi hj hlt
    simp [hiv, hjw] at this
  · subst heq
    rw [hiv] at hjw
    simp [hne] at hjw
  · have := hpair j i hj hi hlt
    simp [hiv, hjw] at this

theorem firstHeld_middle_iff :
    FirstHeld (pre ++ f :: post) ↔ FirstHeld (pre ++ post) ∧
      (f.2 ≠ none → ∀ g ∈ pre, g.1 ≠ f.1) ∧
      ∀ g ∈ post, g.2 ≠ none → f.1 ≠ g.1 := by
  simp only [FirstHeld, List.pairwise_append, List.pairwise_cons,
    List.mem_cons]
  constructor
  · rintro ⟨hpre, ⟨hf, hpost⟩, hall⟩
    exact ⟨⟨hpre, hpost, fun a ha b hb => hall a ha b (Or.inr hb)⟩,
      fun hne g hg => hall g hg f (Or.inl rfl) hne, hf⟩
  · rintro ⟨⟨hpre, hpost, hall⟩, hf, hfpost⟩
    refine ⟨hpre, ⟨hfpost, hpost⟩, ?_⟩
    rintro a ha b (rfl | hb)
    · exact fun hne => hf hne a ha
    · exact hall a ha b hb

/-- A slot keeps its key and is not newly occupied. -/
theorem FirstHeld.replace (h : FirstHeld (pre ++ (k, x) :: post))
    (hy : y ≠ none → x ≠ none) : FirstHeld (pre ++ (k, y) :: post) := by
  rw [firstHeld_middle_iff] at h ⊢
  exact ⟨h.1, fun hne => h.2.1 (hy hne), h.2.2⟩

/-- Free slots at the end of a row may be there. -/
theorem FirstHeld.append_free {spare : List (K × Option V)}
    (h : FirstHeld row) (hspare : ∀ g ∈ spare, g.2 = none) :
    FirstHeld (row ++ spare) := by
  rw [FirstHeld, List.pairwise_append]
  refine ⟨h, ?_, ?_⟩
  · exact List.pairwise_of_forall_mem_list fun a _ b hb hne =>
      absurd (hspare b hb) hne
  · exact fun a _ b hb hne => absurd (hspare b hb) hne

end Rows

section Lookup

variable [DecidableEq K]

def lookup (row : List (K × Option V)) (k : K) : Option V :=
  (row.find? fun f => f.1 = k ∧ f.2.isSome).bind Prod.snd

variable {row pre post : List (K × Option V)} {f : K × Option V} {k : K}
  {v : V}

theorem mem_of_lookup (h : lookup row k = some v) : (k, some v) ∈ row := by
  obtain ⟨⟨k', w⟩, hf, hw⟩ := Option.bind_eq_some_iff.mp h
  have hp := List.find?_some hf
  simp only [decide_eq_true_eq] at hp
  have hw : w = some v := hw
  rw [← hp.1, ← hw]
  exact List.mem_of_find?_eq_some hf

theorem exists_lookup_of_mem (h : (k, some v) ∈ row) :
    ∃ w, lookup row k = some w := by
  have hsome : (row.find? fun f => f.1 = k ∧ f.2.isSome).isSome := by
    rw [List.find?_isSome]
    exact ⟨_, h, by simp⟩
  obtain ⟨⟨k', w⟩, hf⟩ := Option.isSome_iff_exists.mp hsome
  have hp := List.find?_some hf
  simp only [decide_eq_true_eq] at hp
  obtain ⟨w', hw'⟩ := Option.isSome_iff_exists.mp hp.2
  exact ⟨w', by rw [lookup, hf]; exact hw'⟩

theorem lookup_eq_none_iff :
    lookup row k = none ↔ ∀ v, (k, some v) ∉ row := by
  constructor
  · intro hnone v hmem
    obtain ⟨w, hw⟩ := exists_lookup_of_mem hmem
    rw [hnone] at hw
    cases hw
  · intro hfree
    by_contra hsome
    obtain ⟨v, hv⟩ := Option.ne_none_iff_exists'.mp hsome
    exact hfree v (mem_of_lookup hv)

theorem FirstHeld.lookup_eq_some_iff (h : FirstHeld row) :
    lookup row k = some v ↔ (k, some v) ∈ row := by
  refine ⟨mem_of_lookup, fun hmem => ?_⟩
  obtain ⟨w, hw⟩ := exists_lookup_of_mem hmem
  rw [hw, h.value_unique (mem_of_lookup hw) hmem]

/-! ## Changing one slot -/

/-- The first free slot takes a key that is not held. -/
theorem FirstHeld.fill (h : FirstHeld (pre ++ f :: post))
    (hpre : ∀ g ∈ pre, g.2 ≠ none)
    (hk : lookup (pre ++ f :: post) k = none) :
    FirstHeld (pre ++ (k, some v) :: post) := by
  rw [firstHeld_middle_iff] at h ⊢
  rw [lookup_eq_none_iff] at hk
  have hfree : ∀ g ∈ pre ++ f :: post, g.2 ≠ none → g.1 ≠ k := by
    rintro ⟨k', w⟩ hg hne rfl
    obtain ⟨w', rfl⟩ := Option.ne_none_iff_exists'.mp hne
    exact hk w' hg
  refine ⟨h.1, fun _ g hg => hfree g (by simp [hg]) (hpre g hg), ?_⟩
  intro g hg hne
  exact (hfree g (by simp [hg]) hne).symm

/-- Free slots are not read. -/
theorem lookup_append_free {spare : List (K × Option V)}
    (hspare : ∀ g ∈ spare, g.2 = none) (k : K) :
    lookup (pre ++ spare ++ post) k = lookup (pre ++ post) k := by
  have hnone : (spare.find? fun f => f.1 = k ∧ f.2.isSome) = none := by
    rw [List.find?_eq_none]
    intro g hg
    simp [hspare g hg]
  simp only [lookup, List.find?_append, hnone, Option.or_none]

/-- Rewriting an occupied slot changes the row under its key. -/
theorem FirstHeld.lookup_replace (h : FirstHeld (pre ++ (k, some v) :: post))
    (y : Option V) : lookup (pre ++ (k, y) :: post) =
      Function.update (lookup (pre ++ (k, some v) :: post)) k y := by
  have h' : FirstHeld (pre ++ (k, y) :: post) := h.replace (by simp)
  have hsole : ∀ w, (k, some w) ∉ pre ++ post := by
    intro w hmem
    obtain ⟨_, hpre, hpost⟩ := firstHeld_middle_iff.mp h
    rcases List.mem_append.mp hmem with hm | hm
    · exact hpre (by simp) _ hm rfl
    · exact hpost _ hm (by simp) rfl
  funext a
  apply Option.ext
  intro w
  rw [h'.lookup_eq_some_iff]
  have hiff : ∀ z : Option V, (a, some w) ∈ pre ++ (k, z) :: post ↔
      (a = k ∧ z = some w) ∨ (a, some w) ∈ pre ++ post := by
    intro z
    simp only [List.mem_append, List.mem_cons, Prod.mk.injEq]
    constructor
    · rintro (hm | ⟨rfl, rfl⟩ | hm)
      · exact Or.inr (Or.inl hm)
      · exact Or.inl ⟨rfl, rfl⟩
      · exact Or.inr (Or.inr hm)
    · rintro (⟨rfl, rfl⟩ | hm | hm)
      · exact Or.inr (Or.inl ⟨rfl, rfl⟩)
      · exact Or.inl hm
      · exact Or.inr (Or.inr hm)
  rw [hiff]
  by_cases ha : a = k
  · subst ha
    simp [hsole w]
  · rw [Function.update_of_ne ha, h.lookup_eq_some_iff, hiff]
    simp [ha]

/-- Filling the first free slot adds its key to the row. -/
theorem FirstHeld.lookup_fill (h : FirstHeld (pre ++ f :: post))
    (hf : f.2 = none) (hpre : ∀ g ∈ pre, g.2 ≠ none)
    (hk : lookup (pre ++ f :: post) k = none) (v : V) :
    lookup (pre ++ (k, some v) :: post) =
      Function.update (lookup (pre ++ f :: post)) k (some v) := by
  have h' := h.fill hpre hk (v := v)
  funext a
  apply Option.ext
  intro w
  rw [h'.lookup_eq_some_iff]
  by_cases ha : a = k
  · subst ha
    rw [Function.update_self]
    rw [lookup_eq_none_iff] at hk
    have hpost : (a, some w) ∉ pre ∧ (a, some w) ∉ post := by
      have := hk w
      simp only [List.mem_append, List.mem_cons, not_or] at this
      exact ⟨this.1, this.2.2⟩
    simp [hpost, eq_comm]
  · rw [Function.update_of_ne ha, h.lookup_eq_some_iff]
    have hne : (a, some w) ≠ f := by
      rintro rfl
      cases hf
    simp [ha, hne]

end Lookup

end CachingDex.Lib
