import CachingDex.Lib.TreeShape

/-!
# Paths through a search tree

A path is a list of child positions from the root.  Every node of a search
tree is at the end of exactly one path, whose length is the distance of its
level from the root's, so nodes can be counted by their paths.
-/

namespace CachingDex.Lib

variable {A K V : Type}

namespace Forest

/-- The address a path leads to. -/
def follow (F : Forest A K V) : List ℕ → A → Option A
  | [], a => some a
  | i :: path, a => ((F a).bind fun n => n.children[i]?).bind (F.follow path)

variable {F : Forest A K V} {adrift : A → Prop} {root a b : A}

theorem follow_append (p q : List ℕ) :
    F.follow (p ++ q) a = (F.follow p a).bind (F.follow q) := by
  induction p generalizing a with
  | nil => rfl
  | cons i p ih =>
      simp only [List.cons_append, follow, Option.bind_assoc]
      congr 1
      funext n
      congr 1
      funext c
      exact ih

/-- The last step of a path goes to a child. -/
theorem follow_concat {p : List ℕ} {i : ℕ}
    (h : F.follow (p ++ [i]) root = some b) :
    ∃ a n, F.follow p root = some a ∧ F a = some n ∧
      n.children[i]? = some b := by
  rw [follow_append] at h
  obtain ⟨a, ha, hb⟩ := Option.bind_eq_some_iff.mp h
  obtain ⟨c, hc, hcb⟩ := Option.bind_eq_some_iff.mp hb
  obtain ⟨n, hn, hi⟩ := Option.bind_eq_some_iff.mp hc
  obtain rfl : c = b := Option.some.inj hcb
  exact ⟨a, n, ha, hn, hi⟩

theorem exists_follow_of_reach (h : F.Reach root b) :
    ∃ p, F.follow p root = some b := by
  induction h with
  | root => exact ⟨[], rfl⟩
  | @child a c n i _ hn hc ih =>
      obtain ⟨p, hp⟩ := ih
      refine ⟨p ++ [i], ?_⟩
      rw [follow_append, hp]
      simp [follow, hn, hc]

/-- Every step goes down by one level. -/
theorem Linked.follow_level (h : F.Linked adrift) {p : List ℕ}
    {n : Node A K V} (hn : F a = some n) (hp : F.follow p a = some b) :
    ∃ m, F b = some m ∧ m.level + p.length = n.level := by
  induction p generalizing a n with
  | nil =>
      obtain rfl : a = b := Option.some.inj hp
      exact ⟨n, hn, rfl⟩
  | cons i p ih =>
      obtain ⟨c, hc, hcb⟩ := Option.bind_eq_some_iff.mp hp
      obtain ⟨n', hn', hi⟩ := Option.bind_eq_some_iff.mp hc
      rw [hn, Option.some.injEq] at hn'
      subst hn'
      obtain ⟨k, hk, hlevel⟩ := h.child hn hi
      obtain ⟨m, hm, hml⟩ := ih hk hcb
      refine ⟨m, hm, ?_⟩
      rw [List.length_cons]
      omega

/-- One path leads to a node. -/
theorem Linked.follow_injective (h : F.Linked adrift)
    (hroot : ¬ F.IsChild root) {p q : List ℕ} (hp : F.follow p root = some a)
    (hq : F.follow q root = some a) : p = q := by
  induction p using List.reverseRecOn generalizing q a with
  | nil =>
      obtain rfl : root = a := Option.some.inj hp
      rcases List.eq_nil_or_concat' q with rfl | ⟨q', j, rfl⟩
      · rfl
      · obtain ⟨c, n, _, hn, hj⟩ := follow_concat hq
        exact absurd ⟨c, n, j, hn, hj⟩ hroot
  | append_singleton p i ih =>
      obtain ⟨c, n, hc, hn, hi⟩ := follow_concat hp
      rcases List.eq_nil_or_concat' q with rfl | ⟨q', j, rfl⟩
      · obtain rfl : root = a := Option.some.inj hq
        exact absurd ⟨c, n, i, hn, hi⟩ hroot
      · obtain ⟨d, m, hd, hm, hj⟩ := follow_concat hq
        obtain ⟨rfl, rfl⟩ := h.unique hn hm hi hj
        rw [ih hc hd]

end Forest

/-- The nodes of one kind are counted by the paths to them. -/
theorem SearchTree.encard_paths [LinearOrder K] [BoundedOrder K]
    {F : Forest A K V} {cap : ℕ} {root : A} (h : SearchTree F cap root)
    (P : Node A K V → Prop) :
    {p | ∃ a n, F.follow p root = some a ∧ F a = some n ∧ P n}.encard =
      {a | ∃ n, F a = some n ∧ P n}.encard := by
  have hinj : Set.InjOn (fun p => (F.follow p root).getD root)
      {p | ∃ a n, F.follow p root = some a ∧ F a = some n ∧ P n} := by
    rintro p ⟨a, n, hp, _⟩ q ⟨b, m, hq, _⟩ heq
    simp only [hp, hq, Option.getD_some] at heq
    subst heq
    exact h.linked.follow_injective h.not_child hp hq
  rw [← hinj.encard_image]
  congr 1
  ext a
  constructor
  · rintro ⟨p, ⟨b, n, hp, hn, hP⟩, rfl⟩
    exact ⟨n, by simpa [hp] using hn, hP⟩
  · rintro ⟨n, hn, hP⟩
    obtain ⟨p, hp⟩ := Forest.exists_follow_of_reach (h.reach hn)
    exact ⟨p, ⟨a, n, hp, hn, hP⟩, by simp [hp]⟩

end CachingDex.Lib
