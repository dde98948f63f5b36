import CachingDex.Lib.TreePath

/-!
# A forest read off the paths of a tree

A tree may be given by what stands at the end of each path from its root: an
address and a node.  Where every node has its children at the paths one
longer, and no address stands at the end of two paths, the nodes by address
are a search tree.
-/

namespace CachingDex.Lib

variable {A K V : Type} [LinearOrder K] [BoundedOrder K]

/-- The address and the node at the end of a path. -/
abbrev PathTree (A K V : Type) := List ℕ → Option (A × Node A K V)

namespace PathTree

/-- The nodes at the ends of the paths are in order by themselves and with
their children. -/
structure InOrder (t : PathTree A K V) (cap : ℕ) (root : A) : Prop where
  root : ∃ r, t [] = some (root, r) ∧ r.lo = ⊥ ∧ r.hi = ⊤
  parent : ∀ {path : List ℕ} {i : ℕ} {c : A} {m : Node A K V},
    t (path ++ [i]) = some (c, m) →
      ∃ a n, t path = some (a, n) ∧ n.children[i]? = some c
  child : ∀ {path : List ℕ} {i : ℕ} {a c : A} {n : Node A K V},
    t path = some (a, n) → n.children[i]? = some c →
      ∃ m, t (path ++ [i]) = some (c, m) ∧ m.level + 1 = n.level ∧
        n.bounds[i]? = some m.lo ∧ n.bounds[i + 1]? = some m.hi
  children_length : ∀ {path : List ℕ} {a : A} {n : Node A K V},
    t path = some (a, n) → n.isLeaf = false →
      n.children.length = n.keys.length + 1
  sound : ∀ {path : List ℕ} {a : A} {n : Node A K V},
    t path = some (a, n) → n.Sound cap
  apart : ∀ {path path' : List ℕ} {a : A} {n n' : Node A K V},
    t path = some (a, n) → t path' = some (a, n') → path = path'

open Classical in
/-- The nodes by address. -/
noncomputable def forest (t : PathTree A K V) : Forest A K V :=
  fun a =>
    if h : ∃ path n, t path = some (a, n) then some h.choose_spec.choose
    else none

namespace InOrder

variable {t : PathTree A K V} {cap : ℕ} {root : A}

theorem forest_iff (h : t.InOrder cap root) {a : A} {n : Node A K V} :
    t.forest a = some n ↔ ∃ path, t path = some (a, n) := by
  unfold forest
  constructor
  · intro hn
    split at hn
    · rename_i hsome
      rw [Option.some.injEq] at hn
      exact ⟨_, hn ▸ hsome.choose_spec.choose_spec⟩
    · cases hn
  · rintro ⟨path, hpath⟩
    have hsome : ∃ path n, t path = some (a, n) := ⟨path, n, hpath⟩
    rw [dif_pos hsome]
    have hchosen := hsome.choose_spec.choose_spec
    have hsame := hchosen.symm.trans
      ((congrArg t (h.apart hchosen hpath)).trans hpath)
    rw [Option.some.injEq, Prod.mk.injEq] at hsame
    exact congrArg some hsame.2

/-- The address a path leads to is the one that stands at its end. -/
theorem reach (h : t.InOrder cap root) {path : List ℕ} {a : A}
    {n : Node A K V} (hpath : t path = some (a, n)) :
    t.forest.Reach root a := by
  induction path using List.reverseRecOn generalizing a n with
  | nil =>
      obtain ⟨r, hr, _⟩ := h.root
      rw [hr, Option.some.injEq, Prod.mk.injEq] at hpath
      rw [← hpath.1]
      exact .root
  | append_singleton path i ih =>
      obtain ⟨b, m, hm, hi⟩ := h.parent hpath
      exact .child (ih hm) (h.forest_iff.mpr ⟨path, hm⟩) hi

theorem linked (h : t.InOrder cap root) :
    t.forest.Linked fun _ => False := by
  constructor
  · intro a n hn
    obtain ⟨path, hpath⟩ := h.forest_iff.mp hn
    exact h.children_length hpath
  · intro a c n i hn hi
    obtain ⟨path, hpath⟩ := h.forest_iff.mp hn
    obtain ⟨m, hm, hlevel, _⟩ := h.child hpath hi
    exact ⟨m, h.forest_iff.mpr ⟨_, hm⟩, hlevel⟩
  · intro a c n m i hn hi hm _
    obtain ⟨path, hpath⟩ := h.forest_iff.mp hn
    obtain ⟨path', hpath'⟩ := h.forest_iff.mp hm
    obtain ⟨m', hm', _, hbounds⟩ := h.child hpath hi
    rw [← h.apart hm' hpath', hm', Option.some.injEq, Prod.mk.injEq]
      at hpath'
    rw [← hpath'.2]
    exact hbounds
  · intro a b c n m i j hn hm hi hj
    obtain ⟨path, hpath⟩ := h.forest_iff.mp hn
    obtain ⟨path', hpath'⟩ := h.forest_iff.mp hm
    obtain ⟨_, hci, _⟩ := h.child hpath hi
    obtain ⟨_, hcj, _⟩ := h.child hpath' hj
    obtain ⟨rfl, hij⟩ := List.append_inj' (h.apart hci hcj) rfl
    rw [hpath, Option.some.injEq, Prod.mk.injEq] at hpath'
    exact ⟨hpath'.1, by simpa using hij⟩

theorem searchTree (h : t.InOrder cap root) :
    SearchTree t.forest cap root := by
  obtain ⟨r, hr, hlimits⟩ := h.root
  refine ⟨h.linked, ⟨r, h.forest_iff.mpr ⟨[], hr⟩, hlimits⟩, ?_, ?_, ?_⟩
  · intro a n hn
    obtain ⟨path, hpath⟩ := h.forest_iff.mp hn
    exact h.reach hpath
  · intro a n hn
    obtain ⟨path, hpath⟩ := h.forest_iff.mp hn
    exact h.sound hpath
  · rintro ⟨a, n, i, hn, hi⟩
    obtain ⟨path, hpath⟩ := h.forest_iff.mp hn
    obtain ⟨m, hm, _⟩ := h.child hpath hi
    have hnil := h.apart hm hr
    simp at hnil

end InOrder

end PathTree

end CachingDex.Lib
