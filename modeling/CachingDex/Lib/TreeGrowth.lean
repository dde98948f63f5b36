import CachingDex.Lib.SearchTree

/-!
# Growing a search tree

Overwriting the entries of a leaf, splitting a child below its parent and
splitting the root each give a search tree again.  The splits keep the stored
pairs; an overwrite changes the pairs of the keys its leaf covers.
-/

namespace CachingDex.Lib

variable {A K V : Type}

/-! ## Splitting a child below its parent -/

namespace Forest

/-- A node and its child, and a missing node to split the child into. -/
structure Splittable (F : Forest A K V) (p : A) (np : Node A K V) (i : ℕ)
    (c : A) (n : Node A K V) (a : A) : Prop where
  parent : F p = some np
  slot : np.children[i]? = some c
  child : F c = some n
  size : 4 ≤ n.size
  fresh : F a = none

/-- The forest after the node `n` at `c`, child `i` of the node at `p`, was
split with the right half at `a`. -/
def splitBelow [DecidableEq A] [Inhabited K] (F : Forest A K V) (z p : A)
    (np : Node A K V) (i : ℕ) (c : A) (n : Node A K V) (a : A) :
    Forest A K V :=
  Function.update
    (Function.update (Function.update F c (some (n.splitLeft a))) a
      (some (n.splitRight z)))
    p (some (np.insertChild i n.splitKey a))

namespace Splittable

variable {F : Forest A K V} {z p c a : A} {np n : Node A K V} {i : ℕ}
  (h : Splittable F p np i c n a) (hF : F.Linked fun _ => False)

include h

theorem child_ne_fresh : c ≠ a := by
  rintro rfl
  have := h.child.symm.trans h.fresh
  cases this

theorem parent_ne_fresh : p ≠ a := by
  rintro rfl
  have := h.parent.symm.trans h.fresh
  cases this

theorem parent_isInner : np.isLeaf = false := by
  have hslot := h.slot
  cases np with
  | leaf => simp [Node.children] at hslot
  | inner => rfl

include hF

theorem child_ne_parent : c ≠ p :=
  hF.child_ne h.parent h.slot

theorem linked_splitBelow [DecidableEq A] [Inhabited K] :
    (F.splitBelow z p np i c n a).Linked fun _ => False := by
  have hsplit := hF.split (e := z) h.child h.size h.fresh
  have hcp := h.child_ne_parent hF
  obtain ⟨hlo, hhi⟩ := hF.limits h.parent h.slot h.child not_false
  have hinsert := hsplit.insertChild (p := p) (c := c) (a := a)
    (l := n.splitLeft a) (r := n.splitRight z) (i := i) ?_
    h.parent_isInner h.slot ?_ (Function.update_self ..) ?_ (by simp)
    (by simpa using hlo) (by simp) (by simpa using hhi)
  · have hnone : (fun b => b = c ∧ b ≠ c) = fun _ => False := by
      funext b
      simp
    rw [hnone] at hinsert
    simpa [splitBelow] using hinsert
  · rw [Function.update_of_ne h.parent_ne_fresh,
      Function.update_of_ne hcp.symm, h.parent]
  · rw [Function.update_of_ne h.child_ne_fresh, Function.update_self]
  · rw [Linked.isChild_split h.child h.fresh]
    exact hF.not_isChild_of_fresh h.fresh

end Splittable

section At

variable [DecidableEq A] [Inhabited K] {F : Forest A K V} {z p c a : A}
  {np n : Node A K V} {i : ℕ}

/-- The nodes of the forest after a split below `p`. -/
theorem splitBelow_cases {b : A} {m : Node A K V}
    (hm : F.splitBelow z p np i c n a b = some m) :
    (b = p ∧ m = np.insertChild i n.splitKey a) ∨
      (b = a ∧ m = n.splitRight z) ∨ (b = c ∧ m = n.splitLeft a) ∨
        (b ≠ p ∧ b ≠ a ∧ b ≠ c ∧ F b = some m) := by
  unfold splitBelow at hm
  by_cases hbp : b = p
  · subst hbp
    rw [Function.update_self, Option.some.injEq] at hm
    exact Or.inl ⟨rfl, hm.symm⟩
  · rw [Function.update_of_ne hbp] at hm
    by_cases hba : b = a
    · subst hba
      rw [Function.update_self, Option.some.injEq] at hm
      exact Or.inr (Or.inl ⟨rfl, hm.symm⟩)
    · rw [Function.update_of_ne hba] at hm
      by_cases hbc : b = c
      · subst hbc
        rw [Function.update_self, Option.some.injEq] at hm
        exact Or.inr (Or.inr (Or.inl ⟨rfl, hm.symm⟩))
      · rw [Function.update_of_ne hbc] at hm
        exact Or.inr (Or.inr (Or.inr ⟨hbp, hba, hbc, hm⟩))

theorem splitBelow_parent : F.splitBelow z p np i c n a p =
    some (np.insertChild i n.splitKey a) :=
  Function.update_self ..

theorem Splittable.splitBelow_right (h : Splittable F p np i c n a) :
    F.splitBelow z p np i c n a a = some (n.splitRight z) := by
  rw [splitBelow, Function.update_of_ne h.parent_ne_fresh.symm,
    Function.update_self]

theorem Splittable.splitBelow_left (h : Splittable F p np i c n a)
    (hcp : c ≠ p) :
    F.splitBelow z p np i c n a c = some (n.splitLeft a) := by
  rw [splitBelow, Function.update_of_ne hcp,
    Function.update_of_ne h.child_ne_fresh, Function.update_self]

theorem splitBelow_other {b : A} (hp : b ≠ p) (hc : b ≠ c) (ha : b ≠ a) :
    F.splitBelow z p np i c n a b = F b := by
  rw [splitBelow, Function.update_of_ne hp, Function.update_of_ne ha,
    Function.update_of_ne hc]

/-- A split stores the same pairs. -/
theorem Splittable.stored_iff (h : Splittable F p np i c n a)
    (hcp : c ≠ p) {k : K} {v : V} :
    Stored (F.splitBelow z p np i c n a) k v ↔ F.Stored k v := by
  have hsplit := n.entries_split a z
  constructor
  · rintro ⟨b, m, hm, hmem⟩
    rcases splitBelow_cases hm with ⟨_, rfl⟩ | ⟨_, rfl⟩ | ⟨_, rfl⟩ |
      ⟨_, _, _, hm⟩
    · exact ⟨p, np, h.parent, by simpa using hmem⟩
    · exact ⟨c, n, h.child, hsplit ▸ List.mem_append_right _ hmem⟩
    · exact ⟨c, n, h.child, hsplit ▸ List.mem_append_left _ hmem⟩
    · exact ⟨b, m, hm, hmem⟩
  · rintro ⟨b, m, hm, hmem⟩
    by_cases hbc : b = c
    · subst hbc
      rw [h.child, Option.some.injEq] at hm
      subst hm
      rw [← hsplit] at hmem
      rcases List.mem_append.mp hmem with hmem | hmem
      · exact ⟨b, _, h.splitBelow_left hcp, hmem⟩
      · exact ⟨a, _, h.splitBelow_right, hmem⟩
    · by_cases hbp : b = p
      · subst hbp
        rw [h.parent, Option.some.injEq] at hm
        subst hm
        exact ⟨b, _, splitBelow_parent, by simpa using hmem⟩
      · have hba : b ≠ a := by
          rintro rfl
          rw [h.fresh] at hm
          cases hm
        exact ⟨b, m, by rw [splitBelow_other hbp hbc hba, hm], hmem⟩

end At

/-! ## Splitting the root -/

/-- A root and two missing nodes to split it with. -/
structure RootSplit (F : Forest A K V) (c : A) (n : Node A K V) (a b : A) :
    Prop where
  root : F c = some n
  not_child : ¬ F.IsChild c
  size : 4 ≤ n.size
  fresh : F a = none
  fresh_root : F b = none
  ne : a ≠ b

/-- The forest after the root `n` at `c` was split under a new root at
`b`. -/
def splitRoot [DecidableEq A] [Inhabited K] (F : Forest A K V) (z c : A)
    (n : Node A K V) (a b : A) : Forest A K V :=
  Function.update
    (Function.update (Function.update F c (some (n.splitLeft a))) a
      (some (n.splitRight z)))
    b (some (.inner (n.level + 1) n.lo n.hi [n.splitKey] [c, a]))

theorem RootSplit.ne_left {F : Forest A K V} {c a b : A} {n : Node A K V}
    (h : RootSplit F c n a b) : c ≠ a := by
  rintro rfl
  have := h.root.symm.trans h.fresh
  cases this

theorem RootSplit.ne_root {F : Forest A K V} {c a b : A} {n : Node A K V}
    (h : RootSplit F c n a b) : c ≠ b := by
  rintro rfl
  have := h.root.symm.trans h.fresh_root
  cases this

section RootSplit

variable [DecidableEq A] [Inhabited K] {F : Forest A K V} {z c a b : A}
  {n : Node A K V} (h : RootSplit F c n a b)

theorem splitRoot_root : F.splitRoot z c n a b b =
    some (.inner (n.level + 1) n.lo n.hi [n.splitKey] [c, a]) :=
  Function.update_self ..

theorem splitRoot_cases {d : A} {m : Node A K V}
    (hm : F.splitRoot z c n a b d = some m) :
    (d = b ∧ m = .inner (n.level + 1) n.lo n.hi [n.splitKey] [c, a]) ∨
      (d = a ∧ m = n.splitRight z) ∨ (d = c ∧ m = n.splitLeft a) ∨
        (d ≠ b ∧ d ≠ a ∧ d ≠ c ∧ F d = some m) := by
  unfold splitRoot at hm
  by_cases hdb : d = b
  · subst hdb
    rw [Function.update_self, Option.some.injEq] at hm
    exact Or.inl ⟨rfl, hm.symm⟩
  · rw [Function.update_of_ne hdb] at hm
    by_cases hda : d = a
    · subst hda
      rw [Function.update_self, Option.some.injEq] at hm
      exact Or.inr (Or.inl ⟨rfl, hm.symm⟩)
    · rw [Function.update_of_ne hda] at hm
      by_cases hdc : d = c
      · subst hdc
        rw [Function.update_self, Option.some.injEq] at hm
        exact Or.inr (Or.inr (Or.inl ⟨rfl, hm.symm⟩))
      · rw [Function.update_of_ne hdc] at hm
        exact Or.inr (Or.inr (Or.inr ⟨hdb, hda, hdc, hm⟩))

theorem splitRoot_other {d : A} (hc : d ≠ c) (ha : d ≠ a) (hb : d ≠ b) :
    F.splitRoot z c n a b d = F d := by
  rw [splitRoot, Function.update_of_ne hb, Function.update_of_ne ha,
    Function.update_of_ne hc]

namespace RootSplit

include h

theorem splitRoot_left : F.splitRoot z c n a b c = some (n.splitLeft a) := by
  rw [splitRoot, Function.update_of_ne h.ne_root,
    Function.update_of_ne h.ne_left, Function.update_self]

theorem splitRoot_right :
    F.splitRoot z c n a b a = some (n.splitRight z) := by
  rw [splitRoot, Function.update_of_ne h.ne, Function.update_self]

/-- Both halves in place; the old root is nobody's child, so nothing is
adrift. -/
theorem linked_halves (hF : F.Linked fun _ => False) :
    Linked (Function.update (Function.update F c (some (n.splitLeft a))) a
      (some (n.splitRight z))) fun _ => False := by
  refine (hF.split h.root h.size h.fresh).mono ?_
  rintro d hd rfl
  exact h.not_child ((Linked.isChild_split h.root h.fresh).mp hd)

theorem linked_splitRoot (hF : F.Linked fun _ => False) :
    (F.splitRoot z c n a b).Linked fun _ => False := by
  apply (h.linked_halves hF).graft
  · rw [Function.update_of_ne h.ne.symm, Function.update_of_ne h.ne_root.symm,
      h.fresh_root]
  · intro _
    rfl
  · simp [Node.children, h.ne_left]
  · intro d hd
    rw [Linked.isChild_split h.root h.fresh]
    simp only [Node.children, List.mem_cons, List.not_mem_nil, or_false] at hd
    rcases hd with rfl | rfl
    · exact h.not_child
    · exact hF.not_isChild_of_fresh h.fresh
  · intro i d hd
    have hbounds : (Node.inner (n.level + 1) n.lo n.hi [n.splitKey]
        [c, a] : Node A K V).bounds = [n.lo, n.splitKey, n.hi] := rfl
    rw [hbounds]
    rcases i with _ | _ | i
    · obtain rfl : c = d := by simpa [Node.children] using hd
      refine ⟨n.splitLeft a, ?_, by rw [n.level_splitLeft]; rfl, by simp,
        by simp⟩
      rw [Function.update_of_ne h.ne_left, Function.update_self]
    · obtain rfl : a = d := by simpa [Node.children] using hd
      exact ⟨n.splitRight z, Function.update_self ..,
        by rw [n.level_splitRight]; rfl, by simp, by simp⟩
    · simp [Node.children] at hd

/-- A split of the root stores the same pairs. -/
theorem stored_iff {k : K} {v : V} :
    Stored (F.splitRoot z c n a b) k v ↔ F.Stored k v := by
  have hsplit := n.entries_split a z
  constructor
  · rintro ⟨d, m, hm, hmem⟩
    rcases splitRoot_cases hm with ⟨_, rfl⟩ | ⟨_, rfl⟩ | ⟨_, rfl⟩ |
      ⟨_, _, _, hm⟩
    · simp [Node.entries] at hmem
    · exact ⟨c, n, h.root, hsplit ▸ List.mem_append_right _ hmem⟩
    · exact ⟨c, n, h.root, hsplit ▸ List.mem_append_left _ hmem⟩
    · exact ⟨d, m, hm, hmem⟩
  · rintro ⟨d, m, hm, hmem⟩
    by_cases hdc : d = c
    · subst hdc
      rw [h.root, Option.some.injEq] at hm
      subst hm
      rw [← hsplit] at hmem
      rcases List.mem_append.mp hmem with hmem | hmem
      · exact ⟨d, _, h.splitRoot_left, hmem⟩
      · exact ⟨a, _, h.splitRoot_right, hmem⟩
    · have hda : d ≠ a := by
        rintro rfl
        rw [h.fresh] at hm
        cases hm
      have hdb : d ≠ b := by
        rintro rfl
        rw [h.fresh_root] at hm
        cases hm
      exact ⟨d, m, by rw [splitRoot_other hdc hda hdb, hm], hmem⟩

end RootSplit

end RootSplit

end Forest

section Ordered

variable [LinearOrder K] [BoundedOrder K] [DecidableEq A]

namespace SearchTree

variable {F : Forest A K V} {cap : ℕ} {root : A}

/-! ## Overwriting a node -/

/-- Another payload for a node gives a search tree again. -/
theorem update (h : SearchTree F cap root) {a : A} {n n' : Node A K V}
    (hn : F a = some n) (hsound : n'.Sound cap) (hlevel : n'.level = n.level)
    (hleaf : n'.isLeaf = n.isLeaf) (hbounds : n'.bounds = n.bounds)
    (hchildren : n'.children = n.children) :
    SearchTree (Function.update F a (some n')) cap root := by
  have hlo : n'.lo = n.lo := by
    have := congrArg List.head? hbounds
    simpa [Node.bounds] using this
  have hhi : n'.hi = n.hi := by
    have := congrArg List.getLast? hbounds
    simpa [Node.bounds, List.getLast?_cons] using this
  have hold : ∀ {b m}, Function.update F a (some n') b = some m →
      ∃ m₀, F b = some m₀ ∧ m.children = m₀.children := by
    intro b m hm
    by_cases hb : b = a
    · subst hb
      rw [Function.update_self, Option.some.injEq] at hm
      exact ⟨n, hn, hm ▸ hchildren⟩
    · rw [Function.update_of_ne hb] at hm
      exact ⟨m, hm, rfl⟩
  have hnew : ∀ {b m}, F b = some m → ∃ m',
      Function.update F a (some n') b = some m' ∧
        m'.children = m.children ∧ m'.lo = m.lo ∧ m'.hi = m.hi := by
    intro b m hm
    by_cases hb : b = a
    · subst hb
      rw [hn, Option.some.injEq] at hm
      subst hm
      exact ⟨n', Function.update_self .., hchildren, hlo, hhi⟩
    · exact ⟨m, by rw [Function.update_of_ne hb, hm], rfl, rfl, rfl⟩
  have hreach : ∀ {b}, F.Reach root b →
      Forest.Reach (Function.update F a (some n')) root b := by
    intro b hb
    induction hb with
    | root => exact .root
    | child _ hm hc ih =>
        obtain ⟨m', hm', hchildren', _⟩ := hnew hm
        exact .child ih hm' (hchildren' ▸ hc)
  constructor
  · exact h.linked.update_payload hn hlevel hleaf hbounds hchildren
  · obtain ⟨r, hr, hrlo, hrhi⟩ := h.root_node
    obtain ⟨r', hr', _, hlo', hhi'⟩ := hnew hr
    exact ⟨r', hr', hlo'.trans hrlo, hhi'.trans hrhi⟩
  · intro b m hm
    obtain ⟨m₀, hm₀, _⟩ := hold hm
    exact hreach (h.reach hm₀)
  · intro b m hm
    by_cases hb : b = a
    · subst hb
      rw [Function.update_self, Option.some.injEq] at hm
      exact hm ▸ hsound
    · rw [Function.update_of_ne hb] at hm
      exact h.sound hm
  · rintro ⟨b, m, i, hm, hc⟩
    obtain ⟨m₀, hm₀, hchildren₀⟩ := hold hm
    exact h.not_child ⟨b, m₀, i, hm₀, hchildren₀ ▸ hc⟩

/-- The stored pairs after the entries of a leaf were overwritten. -/
theorem stored_update (h : SearchTree F cap root) {a : A}
    {n n' : Node A K V} (hn : F a = some n) (hleaf : n.isLeaf = true)
    (hsound : n'.Sound cap)
    (hlo : n'.lo = n.lo) (hhi : n'.hi = n.hi) {k : K} {v : V} :
    Forest.Stored (Function.update F a (some n')) k v ↔
      (n.Covers k ∧ (k, v) ∈ n'.entries) ∨
        (¬ n.Covers k ∧ F.Stored k v) := by
  have hcovers : n'.Covers k ↔ n.Covers k := by
    rw [Node.Covers, Node.Covers, hlo, hhi]
  constructor
  · rintro ⟨b, m, hm, hmem⟩
    by_cases hb : b = a
    · subst hb
      rw [Function.update_self, Option.some.injEq] at hm
      subst hm
      exact Or.inl ⟨hcovers.mp (hsound.entries_covered _ hmem), hmem⟩
    · rw [Function.update_of_ne hb] at hm
      refine Or.inr ⟨fun hk => hb ?_, b, m, hm, hmem⟩
      have hmleaf : m.isLeaf = true := by
        by_contra hnot
        rw [Node.entries_eq_nil (by simpa using hnot)] at hmem
        exact List.not_mem_nil hmem
      refine h.covers_unique hm hn ?_
        ((h.sound hm).entries_covered _ hmem) hk
      rw [Node.level_eq_zero_of_isLeaf hmleaf,
        Node.level_eq_zero_of_isLeaf hleaf]
  · rintro (⟨_, hmem⟩ | ⟨hk, b, m, hm, hmem⟩)
    · exact ⟨a, n', Function.update_self .., hmem⟩
    · have hb : b ≠ a := by
        rintro rfl
        rw [hn, Option.some.injEq] at hm
        subst hm
        exact hk ((h.sound hn).entries_covered _ hmem)
      exact ⟨b, m, by rw [Function.update_of_ne hb, hm], hmem⟩

end SearchTree

namespace Forest

/-- The leaf that covers `k` holds `entries` before and `entries'` after. -/
structure EditsLeaf (F F' : Forest A K V) (k : K)
    (entries entries' : List (K × V)) : Prop where
  covers : ∃ a lo hi next, F a = some (.leaf lo hi entries next) ∧
    Lib.Covers lo hi k ∧
      F' = Function.update F a (some (.leaf lo hi entries' next))

namespace EditsLeaf

variable {F F' : Forest A K V} {k : K} {entries entries' : List (K × V)}
  {cap : ℕ} {root : A}

/-- Every node was there before, at its level. -/
theorem node_before (h : EditsLeaf F F' k entries entries') {a : A}
    {n : Node A K V} (hn : F' a = some n) :
    ∃ n₀, F a = some n₀ ∧ n.level = n₀.level := by
  obtain ⟨b, lo, hi, next, hb, _, rfl⟩ := h.covers
  by_cases ha : a = b
  · subst ha
    rw [Function.update_self, Option.some.injEq] at hn
    subst hn
    exact ⟨_, hb, rfl⟩
  · rw [Function.update_of_ne ha] at hn
    exact ⟨n, hn, rfl⟩

omit [DecidableEq A] in
/-- Sorted entries with at most the one new key `k` make a sound leaf. -/
theorem sound (hF : SearchTree F cap root) {a next : A} {lo hi : K}
    (ha : F a = some (.leaf lo hi entries next)) (hk : Lib.Covers lo hi k)
    (hsorted : SortedEntries entries')
    (hkeys : ∀ e ∈ entries', e.1 = k ∨ e ∈ entries)
    (hsize : entries'.length ≤ cap) :
    (Node.leaf lo hi entries' next : Node A K V).Sound cap where
  ordered := (hF.sound ha).ordered
  entries_sorted := hsorted
  entries_covered := by
    intro e he
    rcases hkeys e he with heq | hmem
    · change Lib.Covers lo hi e.1
      rw [heq]
      exact hk
    · exact (hF.sound ha).entries_covered e hmem
  size_le := hsize

theorem searchTree (h : EditsLeaf F F' k entries entries')
    (hF : SearchTree F cap root) (hsorted : SortedEntries entries')
    (hkeys : ∀ e ∈ entries', e.1 = k ∨ e ∈ entries)
    (hsize : entries'.length ≤ cap) : SearchTree F' cap root := by
  obtain ⟨a, lo, hi, next, ha, hk, rfl⟩ := h.covers
  exact hF.update ha (sound hF ha hk hsorted hkeys hsize) rfl rfl rfl rfl

/-- The edit is seen under the keys that changed, and nowhere else. -/
theorem stored_iff (h : EditsLeaf F F' k entries entries')
    (hF : SearchTree F cap root) (hsorted : SortedEntries entries')
    (hkeys : ∀ e ∈ entries', e.1 = k ∨ e ∈ entries)
    (hsize : entries'.length ≤ cap)
    (hkept : ∀ e ∈ entries, e.1 ≠ k → e ∈ entries') {k' : K} {v : V} :
    F'.Stored k' v ↔
      (k' = k ∧ (k, v) ∈ entries') ∨ (k' ≠ k ∧ F.Stored k' v) := by
  obtain ⟨a, lo, hi, next, ha, hk, rfl⟩ := h.covers
  have hsound := sound hF ha hk hsorted hkeys hsize
  rw [hF.stored_update ha rfl hsound rfl rfl]
  change (Lib.Covers lo hi k' ∧ (k', v) ∈ entries') ∨
    (¬ Lib.Covers lo hi k' ∧ F.Stored k' v) ↔ _
  have hstored : Lib.Covers lo hi k' →
      (F.Stored k' v ↔ (k', v) ∈ entries) := fun hk' =>
    hF.stored_iff ha rfl hk'
  by_cases hkk : k' = k
  · subst hkk
    simp [hk]
  · by_cases hk' : Lib.Covers lo hi k'
    · have hiff : (k', v) ∈ entries' ↔ (k', v) ∈ entries :=
        ⟨fun hmem => (hkeys _ hmem).resolve_left hkk,
          fun hmem => hkept _ hmem hkk⟩
      simp [hk', hkk, hiff, hstored hk']
    · simp [hk', hkk]

end EditsLeaf

variable {F : Forest A K V} {cap : ℕ} {root z p c a : A}
  {np n : Node A K V} {i : ℕ} [Inhabited K]

omit [DecidableEq A] in
/-- The lower bound of the new separator is the slot that was split. -/
theorem Splittable.lowerIdx_eq (h : Splittable F p np i c n a)
    (hF : SearchTree F cap root) : lowerIdx n.splitKey np.keys = i := by
  obtain ⟨hlo, hhi⟩ := hF.limits h.parent h.slot h.child
  have hn := hF.sound h.child
  exact (hF.sound h.parent).lowerIdx_eq hlo hhi
    (hn.lo_lt_splitKey h.size a) (hn.splitKey_lt_hi h.size a).le

omit [DecidableEq A] in
/-- The new separator fits between the limits of the slot that was split. -/
theorem Splittable.sound_parent (h : Splittable F p np i c n a)
    (hF : SearchTree F cap root) (hroom : np.size < cap) :
    (np.insertChild i n.splitKey a).Sound cap := by
  obtain ⟨hlo, hhi⟩ := hF.limits h.parent h.slot h.child
  have hsound := hF.sound h.parent
  have hn := hF.sound h.child
  have hinner := h.parent_isInner
  have hlength := hF.linked.children_length h.parent hinner
  have hi := (List.getElem?_eq_some_iff.mp h.slot).1
  cases np with
  | leaf => simp [Node.isLeaf] at hinner
  | inner level lo hi' keys children =>
      simp only [Node.children, Node.keys] at hlength hi
      constructor
      · rw [Node.bounds_insertChild (by omega)]
        exact pairwise_insertIdx hsound.ordered hlo hhi
          (hn.lo_lt_splitKey h.size a) (hn.splitKey_lt_hi h.size a)
      · exact List.Pairwise.nil
      · intro e he
        simp [Node.insertChild, Node.entries] at he
      · simp only [Node.size] at hroom
        simp only [Node.insertChild, Node.size]
        rw [List.length_insertIdx_of_le_length (by omega)]
        omega

/-- Every node that hung below the root still does, and so does the new
half. -/
theorem Splittable.reach_splitBelow (h : Splittable F p np i c n a)
    (hF : SearchTree F cap root) {b : A} (hb : F.Reach root b) :
    Reach (F.splitBelow z p np i c n a) root b ∧
      (b = p → Reach (F.splitBelow z p np i c n a) root a) := by
  have hlinked := h.linked_splitBelow hF.linked (z := z)
  have hcp := h.child_ne_parent hF.linked
  have hparent : (F.splitBelow z p np i c n a) p =
      some (np.insertChild i n.splitKey a) := splitBelow_parent
  have hinner := h.parent_isInner
  have hchildren : (np.insertChild i n.splitKey a).children =
      np.children.insertIdx (i + 1) a := by
    cases np with
    | leaf => simp [Node.isLeaf] at hinner
    | inner => rfl
  have hlt := (List.getElem?_eq_some_iff.mp h.slot).1
  have hnew : Reach (F.splitBelow z p np i c n a) root p →
      Reach (F.splitBelow z p np i c n a) root a := by
    intro hp
    refine .child (i := i + 1) hp hparent ?_
    rw [hchildren, List.getElem?_insertIdx_self]
    simp [hlt]
  induction hb with
  | root => exact ⟨.root, fun heq => hnew (heq ▸ .root)⟩
  | @child d e m j _ hm hj ih =>
      have hstep : Reach (F.splitBelow z p np i c n a) root e := by
        by_cases hdp : d = p
        · subst hdp
          rw [h.parent, Option.some.injEq] at hm
          subst hm
          by_cases hji : j ≤ i
          · refine .child (i := j) ih.1 hparent ?_
            rw [hchildren, List.getElem?_insertIdx_of_lt (by omega), hj]
          · refine .child (i := j + 1) ih.1 hparent ?_
            rw [hchildren, List.getElem?_insertIdx_of_gt (by omega)]
            exact hj
        · by_cases hdc : d = c
          · subst hdc
            rw [h.child, Option.some.injEq] at hm
            subst hm
            by_cases hjs : j < n.size / 2
            · refine .child (i := j) ih.1 (h.splitBelow_left hcp) ?_
              rw [Node.children_splitLeft, List.getElem?_take, if_pos hjs, hj]
            · -- the child hangs below the new half, which hangs below `p`
              have hpReach : Reach (F.splitBelow z p np i d n a) root p := by
                have hslot : (np.insertChild i n.splitKey a).children[i]? =
                    some d := by
                  rw [hchildren, List.getElem?_insertIdx_of_lt (by omega),
                    h.slot]
                cases ih.1 with
                | root => exact absurd ⟨p, np, i, h.parent, h.slot⟩ hF.not_child
                | child hq hmq hjq =>
                    obtain ⟨rfl, _⟩ := hlinked.unique hmq hparent hjq hslot
                    exact hq
              refine .child (i := j - n.size / 2) (hnew hpReach)
                h.splitBelow_right ?_
              rw [Node.children_splitRight, List.getElem?_drop,
                show n.size / 2 + (j - n.size / 2) = j by omega, hj]
          · have hda : d ≠ a := by
              rintro rfl
              rw [h.fresh] at hm
              cases hm
            exact .child ih.1 (by rw [splitBelow_other hdp hdc hda, hm]) hj
      exact ⟨hstep, fun heq => hnew (heq ▸ hstep)⟩

/-- A split below a parent with room gives a search tree again. -/
theorem Splittable.searchTree (h : Splittable F p np i c n a)
    (hF : SearchTree F cap root) (hroom : np.size < cap) :
    SearchTree (F.splitBelow z p np i c n a) cap root := by
  have hcp := h.child_ne_parent hF.linked
  have hlinked := h.linked_splitBelow hF.linked (z := z)
  have hpa := (h.reach_splitBelow (z := z) hF (hF.reach h.parent)).2 rfl
  have hrootc : root ≠ c := by
    rintro rfl
    exact hF.not_child ⟨p, np, i, h.parent, h.slot⟩
  obtain ⟨r, hr, hrlo, hrhi⟩ := hF.root_node
  have hroota : root ≠ a := by
    rintro rfl
    have := hr.symm.trans h.fresh
    cases this
  constructor
  · exact hlinked
  · by_cases hrp : root = p
    · subst hrp
      rw [h.parent, Option.some.injEq] at hr
      subst hr
      exact ⟨_, splitBelow_parent, by simpa using hrlo, by simpa using hrhi⟩
    · exact ⟨r, by rw [splitBelow_other hrp hrootc hroota, hr], hrlo, hrhi⟩
  · intro b m hm
    rcases splitBelow_cases hm with ⟨rfl, _⟩ | ⟨rfl, _⟩ | ⟨rfl, _⟩ |
      ⟨_, _, _, hm⟩
    · exact (h.reach_splitBelow hF (hF.reach h.parent)).1
    · exact hpa
    · exact (h.reach_splitBelow hF (hF.reach h.child)).1
    · exact (h.reach_splitBelow hF (hF.reach hm)).1
  · intro b m hm
    rcases splitBelow_cases hm with ⟨_, rfl⟩ | ⟨_, rfl⟩ | ⟨_, rfl⟩ |
      ⟨_, _, _, hm⟩
    · exact h.sound_parent hF hroom
    · exact (hF.sound h.child).splitRight h.size z
    · exact (hF.sound h.child).splitLeft h.size a
    · exact hF.sound hm
  · intro hchild
    have hroot := hF.not_child
    obtain ⟨b, m, j, hm, hj⟩ := hchild
    rcases splitBelow_cases hm with ⟨rfl, rfl⟩ | ⟨rfl, rfl⟩ | ⟨rfl, rfl⟩ |
      ⟨_, _, _, hm⟩
    · have hmem := List.mem_of_getElem? hj
      have hinner := h.parent_isInner
      cases np with
      | leaf => simp [Node.isLeaf] at hinner
      | inner level lo hi keys children =>
          rcases List.eq_or_mem_of_mem_insertIdx hmem with rfl | hmem
          · exact hroota rfl
          · obtain ⟨j', hj'⟩ := List.getElem?_of_mem hmem
            exact hroot ⟨_, _, j', h.parent, hj'⟩
    · rw [Node.children_splitRight, List.getElem?_drop] at hj
      exact hroot ⟨_, _, _, h.child, hj⟩
    · rw [Node.children_splitLeft, List.getElem?_take] at hj
      split_ifs at hj
      exact hroot ⟨_, _, _, h.child, hj⟩
    · exact hroot ⟨_, _, _, hm, hj⟩

/-- A split of the root gives a search tree below the new root. -/
theorem RootSplit.searchTree {z c a b : A} {n : Node A K V} (h : RootSplit F c n a b)
    (hF : SearchTree F cap c) (hcap : 1 ≤ cap) :
    SearchTree (F.splitRoot z c n a b) cap b := by
  have hlinked := h.linked_splitRoot (z := z) hF.linked
  have hn := hF.sound h.root
  have hleft : Reach (F.splitRoot z c n a b) b c :=
    .child (i := 0) .root splitRoot_root rfl
  have hright : Reach (F.splitRoot z c n a b) b a :=
    .child (i := 1) .root splitRoot_root rfl
  have hreach : ∀ {d}, F.Reach c d → Reach (F.splitRoot z c n a b) b d := by
    intro d hd
    induction hd with
    | root => exact hleft
    | @child d e m j _ hm hj ih =>
        by_cases hdc : d = c
        · subst hdc
          rw [h.root, Option.some.injEq] at hm
          subst hm
          by_cases hjs : j < n.size / 2
          · refine .child (i := j) hleft h.splitRoot_left ?_
            rw [Node.children_splitLeft, List.getElem?_take, if_pos hjs, hj]
          · refine .child (i := j - n.size / 2) hright h.splitRoot_right ?_
            rw [Node.children_splitRight, List.getElem?_drop,
              show n.size / 2 + (j - n.size / 2) = j by omega, hj]
        · have hda : d ≠ a := by
            rintro rfl
            rw [h.fresh] at hm
            cases hm
          have hdb : d ≠ b := by
            rintro rfl
            rw [h.fresh_root] at hm
            cases hm
          exact .child ih (by rw [splitRoot_other hdc hda hdb, hm]) hj
  obtain ⟨r, hr, hrlo, hrhi⟩ := hF.root_node
  rw [h.root, Option.some.injEq] at hr
  subst hr
  constructor
  · exact hlinked
  · exact ⟨_, splitRoot_root, hrlo, hrhi⟩
  · intro d m hm
    rcases splitRoot_cases hm with ⟨rfl, _⟩ | ⟨rfl, _⟩ | ⟨rfl, _⟩ |
      ⟨_, _, _, hm⟩
    · exact .root
    · exact hright
    · exact hleft
    · exact hreach (hF.reach hm)
  · intro d m hm
    rcases splitRoot_cases hm with ⟨_, rfl⟩ | ⟨_, rfl⟩ | ⟨_, rfl⟩ |
      ⟨_, _, _, hm⟩
    · constructor
      · simp only [Node.bounds, Node.lo, Node.keys, Node.hi,
          List.singleton_append, List.pairwise_cons, List.mem_cons,
          List.not_mem_nil, or_false, forall_eq_or_imp, forall_eq]
        exact ⟨⟨hn.lo_lt_splitKey h.size a, hn.lo_lt_hi⟩,
          hn.splitKey_lt_hi h.size a, by simp⟩
      · exact List.Pairwise.nil
      · intro e he
        simp [Node.entries] at he
      · simpa [Node.size] using hcap
    · exact hn.splitRight h.size z
    · exact hn.splitLeft h.size a
    · exact hF.sound hm
  · -- no node has the new root as a child: it was not there before
    rintro ⟨d, m, j, hm, hj⟩
    have hold : ¬ F.IsChild b := hF.linked.not_isChild_of_fresh h.fresh_root
    rcases splitRoot_cases hm with ⟨rfl, rfl⟩ | ⟨rfl, rfl⟩ | ⟨rfl, rfl⟩ |
      ⟨_, _, _, hm⟩
    · have hmem := List.mem_of_getElem? hj
      simp only [Node.children, List.mem_cons, List.not_mem_nil,
        or_false] at hmem
      rcases hmem with rfl | rfl
      · exact h.ne_root rfl
      · exact h.ne rfl
    · rw [Node.children_splitRight, List.getElem?_drop] at hj
      exact hold ⟨_, _, _, h.root, hj⟩
    · rw [Node.children_splitLeft, List.getElem?_take] at hj
      split_ifs at hj
      exact hold ⟨_, _, _, h.root, hj⟩
    · exact hold ⟨_, _, _, hm, hj⟩

end Forest

end Ordered

end CachingDex.Lib
