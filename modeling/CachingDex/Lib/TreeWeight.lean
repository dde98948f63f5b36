import CachingDex.Lib.TreeShape
import Mathlib.Algebra.BigOperators.Finprod

/-!
# Weighing a forest

A weight of nodes adds up to a weight of the forest.  An edit or a split
touches a few nodes, so what it does to the sum is read off these nodes.

Two sums are used.  The credit of a leaf is the least size a split leaves it
with, and one more for every entry above that size; a split of a full leaf
keeps the credit and one new entry adds at most one, so the leaves of a tree
are bounded by its inserts.  And counting the children of all nodes bounds
the inner nodes by the leaves.
-/

namespace CachingDex.Lib

variable {A K V : Type}

namespace Forest

variable {F F' : Forest A K V}

/-- The sum of a weight over the nodes of a forest. -/
noncomputable def weigh (w : Node A K V → ℕ) (F : Forest A K V) : ℕ :=
  finsum fun a => (F a).elim 0 w

section Finite

variable [Finite A] {w : Node A K V → ℕ}

omit [Finite A] in
theorem weigh_eq_sum [Fintype A] (w : Node A K V → ℕ) (F : Forest A K V) :
    F.weigh w = Finset.univ.sum fun a => (F a).elim 0 w :=
  finsum_eq_sum_of_fintype _

theorem weigh_mono {u : Node A K V → ℕ}
    (h : ∀ {a n}, F a = some n → w n ≤ u n) : F.weigh w ≤ F.weigh u := by
  have := Fintype.ofFinite A
  rw [weigh_eq_sum, weigh_eq_sum]
  apply Finset.sum_le_sum
  intro a _
  cases ha : F a with
  | none => exact le_rfl
  | some n => exact h ha

theorem le_weigh {a : A} {n : Node A K V} (hn : F a = some n) :
    w n ≤ F.weigh w := by
  have := Fintype.ofFinite A
  have hle := Finset.single_le_sum (f := fun b => (F b).elim 0 w)
    (fun _ _ => Nat.zero_le _) (Finset.mem_univ a)
  rw [weigh_eq_sum]
  simpa [hn] using hle

/-- Two weights compared at all nodes but one, and there as they are. -/
theorem weigh_mono_except {u : Node A K V → ℕ} {a : A} {n : Node A K V}
    (hn : F a = some n)
    (h : ∀ {b m}, F b = some m → b ≠ a → w m ≤ u m) :
    F.weigh w + u n ≤ F.weigh u + w n := by
  classical
  have := Fintype.ofFinite A
  rw [weigh_eq_sum, weigh_eq_sum,
    Finset.sum_eq_add_sum_sdiff_singleton_of_mem (Finset.mem_univ a)
      fun b => (F b).elim 0 w,
    Finset.sum_eq_add_sum_sdiff_singleton_of_mem (Finset.mem_univ a)
      fun b => (F b).elim 0 u, hn]
  have hothers : (Finset.univ \ {a}).sum (fun b => (F b).elim 0 w) ≤
      (Finset.univ \ {a}).sum fun b => (F b).elim 0 u := by
    apply Finset.sum_le_sum
    intro b hb
    have hne : b ≠ a := by simpa using hb
    cases hm : F b with
    | none => exact le_rfl
    | some m => exact h hm hne
  simp only [Option.elim_some]
  omega

theorem weigh_mul (c : ℕ) (w : Node A K V → ℕ) (F : Forest A K V) :
    F.weigh (fun n => c * w n) = c * F.weigh w := by
  have := Fintype.ofFinite A
  rw [weigh_eq_sum, weigh_eq_sum, Finset.mul_sum]
  apply Finset.sum_congr rfl
  intro a _
  cases F a <;> simp

/-- The sum over the nodes of one kind is their number. -/
theorem weigh_indicator {p : Node A K V → Bool} :
    F.weigh (fun n => if p n then 1 else 0) =
      {a | ∃ n, F a = some n ∧ p n = true}.ncard := by
  classical
  have := Fintype.ofFinite A
  rw [weigh_eq_sum, Set.ncard_eq_toFinset_card']
  have hterm : ∀ a, ((F a).elim 0 fun n => if p n then 1 else 0) =
      if a ∈ {a | ∃ n, F a = some n ∧ p n = true} then 1 else 0 := by
    intro a
    by_cases hmem : a ∈ {a | ∃ n, F a = some n ∧ p n = true}
    · rw [if_pos hmem]
      obtain ⟨n, hn, hp⟩ := hmem
      simp [hn, hp]
    · rw [if_neg hmem]
      cases hn : F a with
      | none => rfl
      | some n =>
          have hp : ¬ p n = true := fun hp => hmem ⟨n, hn, hp⟩
          simp [hp]
  simp only [hterm]
  rw [Finset.sum_boole, Nat.cast_id]
  congr 1
  ext a
  simp

/-- Changing one node changes the sum by what the node weighs. -/
theorem weigh_update [DecidableEq A] (a : A) (n : Node A K V) :
    weigh w (Function.update F a (some n)) + (F a).elim 0 w =
      F.weigh w + w n := by
  have := Fintype.ofFinite A
  have hterms : (fun b => (Function.update F a (some n) b).elim 0 w) =
      Function.update (fun b => (F b).elim 0 w) a (w n) := by
    funext b
    by_cases hb : b = a
    · subst hb
      simp
    · simp [hb]
  rw [weigh_eq_sum, weigh_eq_sum, hterms,
    Finset.sum_update_of_mem (Finset.mem_univ a),
    Finset.sum_eq_add_sum_sdiff_singleton_of_mem (Finset.mem_univ a)
      fun b => (F b).elim 0 w]
  omega

section Splits

variable [DecidableEq A] [Inhabited K] {z p c a b : A} {np n : Node A K V}
  {i : ℕ}

theorem Splittable.weigh_splitBelow (h : Splittable F p np i c n a)
    (hcp : c ≠ p) :
    weigh w (F.splitBelow z p np i c n a) + (w n + w np) =
      F.weigh w + (w (n.splitLeft a) + w (n.splitRight z) +
        w (np.insertChild i n.splitKey a)) := by
  have hleft := weigh_update (w := w) (F := F) c (n.splitLeft a)
  have hright := weigh_update (w := w)
    (F := Function.update F c (some (n.splitLeft a))) a (n.splitRight z)
  have hparent := weigh_update (w := w)
    (F := Function.update (Function.update F c (some (n.splitLeft a))) a
      (some (n.splitRight z))) p (np.insertChild i n.splitKey a)
  rw [h.child] at hleft
  rw [Function.update_of_ne h.child_ne_fresh.symm, h.fresh] at hright
  rw [Function.update_of_ne h.parent_ne_fresh, Function.update_of_ne hcp.symm,
    h.parent] at hparent
  simp only [Option.elim_some, Option.elim_none] at hleft hright hparent
  rw [Forest.splitBelow]
  omega

theorem RootSplit.weigh_splitRoot (h : RootSplit F c n a b) :
    weigh w (F.splitRoot z c n a b) + w n =
      F.weigh w + (w (n.splitLeft a) + w (n.splitRight z) +
        w (.inner (n.level + 1) n.lo n.hi [n.splitKey] [c, a])) := by
  have hleft := weigh_update (w := w) (F := F) c (n.splitLeft a)
  have hright := weigh_update (w := w)
    (F := Function.update F c (some (n.splitLeft a))) a (n.splitRight z)
  have hroot := weigh_update (w := w)
    (F := Function.update (Function.update F c (some (n.splitLeft a))) a
      (some (n.splitRight z))) b
    (.inner (n.level + 1) n.lo n.hi [n.splitKey] [c, a])
  rw [h.root] at hleft
  rw [Function.update_of_ne h.ne_left.symm, h.fresh] at hright
  rw [Function.update_of_ne h.ne.symm, Function.update_of_ne h.ne_root.symm,
    h.fresh_root] at hroot
  simp only [Option.elim_some, Option.elim_none] at hleft hright hroot
  rw [Forest.splitRoot]
  omega

end Splits

/-! ## The credit of the leaves -/

end Finite

/-- What a split leaves of a leaf, and the entries above that. -/
def credit (least : ℕ) : Node A K V → ℕ
  | .leaf _ _ entries _ => least + (entries.length - (least + 1))
  | .inner .. => 0

variable {least : ℕ}

/-- The halves of a full node have the credit of the whole. -/
theorem credit_split [Inhabited K] {n : Node A K V}
    (hfull : n.size = 2 * least + 1) (a z : A) :
    credit least (n.splitLeft a) + credit least (n.splitRight z) =
      credit least n := by
  cases n with
  | inner => rfl
  | leaf lo hi entries next =>
      simp only [Node.size] at hfull
      simp only [Node.splitLeft, Node.splitRight, credit, List.length_take,
        List.length_drop]
      omega

theorem credit_insertChild (i : ℕ) (sep : K) (a : A) {n : Node A K V}
    (hinner : n.isLeaf = false) :
    credit least (n.insertChild i sep a) = credit least n := by
  cases n with
  | leaf => simp [Node.isLeaf] at hinner
  | inner => rfl

section Credit

variable [Finite A] [DecidableEq A] [Inhabited K] {z p c a b : A}
  {np n : Node A K V} {i : ℕ}

theorem Splittable.weigh_credit (h : Splittable F p np i c n a) (hcp : c ≠ p)
    (hfull : n.size = 2 * least + 1) :
    weigh (credit least) (F.splitBelow z p np i c n a) =
      F.weigh (credit least) := by
  have hsum := h.weigh_splitBelow (w := credit least) (z := z) hcp
  rw [credit_split hfull, credit_insertChild _ _ _ h.parent_isInner] at hsum
  omega

theorem RootSplit.weigh_credit (h : RootSplit F c n a b)
    (hfull : n.size = 2 * least + 1) :
    weigh (credit least) (F.splitRoot z c n a b) =
      F.weigh (credit least) := by
  have hsum := h.weigh_splitRoot (w := credit least) (z := z)
  rw [credit_split hfull] at hsum
  simp only [credit] at hsum
  omega

omit [Inhabited K] in
/-- An edit adds as much credit as it adds entries. -/
theorem EditsLeaf.weigh_credit [LinearOrder K] [BoundedOrder K] {k : K}
    {entries entries' : List (K × V)} {extra : ℕ}
    (h : EditsLeaf F F' k entries entries')
    (hlength : entries'.length ≤ entries.length + extra) :
    F'.weigh (credit least) ≤ F.weigh (credit least) + extra := by
  obtain ⟨a, lo, hi, next, ha, _, rfl⟩ := h.covers
  have hsum := weigh_update (w := credit least) (F := F) a
    (.leaf lo hi entries' next)
  rw [ha] at hsum
  simp only [Option.elim_some, credit] at hsum
  omega

end Credit

/-- Every leaf has the credit of one half of a split. -/
theorem Shape.least_mul_le [Finite A] {root : A} {leafNum innerNum floor : ℕ}
    (h : F.Shape floor root leafNum innerNum) :
    least * leafNum ≤ F.weigh (credit least) := by
  have hcount : F.weigh (fun n => if n.isLeaf then 1 else 0) = leafNum := by
    rw [weigh_indicator]
    exact h.leaves_ncard
  rw [← hcount, ← weigh_mul]
  apply weigh_mono
  intro a n _
  cases n <;> simp [Node.isLeaf, credit]

/-! ## Counting children -/

section Children

variable [Finite A] {root : A} {leafNum innerNum : ℕ}

/-- The children of the nodes of one kind. -/
def childrenOf (F : Forest A K V) (p : Node A K V → Bool) : Set A :=
  {c | ∃ (a : A) (n : Node A K V) (i : ℕ), F a = some n ∧ p n = true ∧
    n.children[i]? = some c}

/-- No node is the child of two. -/
theorem weigh_children (hF : F.Linked fun _ => False)
    (p : Node A K V → Bool) :
    F.weigh (fun n => if p n then n.children.length else 0) =
      (F.childrenOf p).ncard := by
  classical
  have := Fintype.ofFinite A
  let kids : A → Finset A := fun a =>
    ((F a).elim [] fun n => if p n then n.children else []).toFinset
  have hmem : ∀ {a d}, d ∈ kids a ↔ ∃ (n : Node A K V) (i : ℕ),
      F a = some n ∧ p n = true ∧ n.children[i]? = some d := by
    intro a d
    simp only [kids, List.mem_toFinset]
    cases ha : F a with
    | none => simp
    | some n =>
        cases hp : p n with
        | false => simp [hp]
        | true =>
            simp only [hp, Option.elim_some, if_true, Option.some.injEq,
              List.mem_iff_getElem?]
            simp [hp]
  have hcard : ∀ a, (kids a).card =
      (F a).elim 0 fun n => if p n then n.children.length else 0 := by
    intro a
    cases ha : F a with
    | none => simp [kids, ha]
    | some n =>
        simp only [kids, ha, Option.elim_some]
        cases p n with
        | false => simp
        | true => exact List.toFinset_card_of_nodup (hF.children_nodup ha)
  have hdisjoint : ∀ a ∈ Finset.univ, ∀ b ∈ Finset.univ, a ≠ b →
      Disjoint (kids a) (kids b) := by
    intro a _ b _ hab
    apply Finset.disjoint_left.mpr
    intro d hda hdb
    obtain ⟨n, i, ha, _, hi⟩ := hmem.mp hda
    obtain ⟨m, j, hb, _, hj⟩ := hmem.mp hdb
    exact hab (hF.unique ha hb hi hj).1
  have hunion := Finset.card_biUnion hdisjoint
  simp only [hcard] at hunion
  rw [weigh_eq_sum, ← hunion, Set.ncard_eq_toFinset_card']
  congr 1
  ext d
  simp only [Finset.mem_biUnion, Finset.mem_univ, true_and, hmem,
    Set.mem_toFinset]
  rfl

/-- Every node but the root is the child of one node. -/
theorem weigh_children_lt (hF : F.Linked fun _ => False)
    (hroot : ∃ n, F root = some n) (hfree : ¬ F.IsChild root) :
    F.weigh (fun n => n.children.length) <
      {a | ∃ n, F a = some n}.ncard := by
  have hall := weigh_children hF fun _ => true
  simp only [if_true] at hall
  rw [hall]
  apply Set.ncard_lt_ncard
  · constructor
    · intro d hd
      obtain ⟨a, n, i, hn, _, hi⟩ := hd
      obtain ⟨m, hm, _⟩ := hF.child hn hi
      exact ⟨m, hm⟩
    · intro hsub
      obtain ⟨a, n, i, hn, _, hi⟩ := hsub hroot
      exact hfree ⟨a, n, i, hn, hi⟩
  · exact Set.toFinite _

/-- The nodes of a level. -/
def atLevel (F : Forest A K V) (level : ℕ) : Set A :=
  {a | ∃ n, F a = some n ∧ n.level = level}

theorem weigh_level_le (hF : F.Linked fun _ => False) (level : ℕ) :
    F.weigh (fun n => if decide (n.level = level + 1) then n.children.length
      else 0) ≤ (F.atLevel level).ncard := by
  rw [weigh_children hF fun n => decide (n.level = level + 1)]
  apply Set.ncard_le_ncard
  · intro d hd
    obtain ⟨a, n, i, hn, hlevel, hi⟩ := hd
    obtain ⟨m, hm, hml⟩ := hF.child hn hi
    exact ⟨m, hm, by simpa [← hml] using hlevel⟩
  · exact Set.toFinite _

omit [Finite A] in
/-- The nodes of a forest are its leaves and its inner nodes. -/
theorem Shape.ncard_nodes (h : F.Shape least root leafNum innerNum) :
    {a | ∃ n, F a = some n}.ncard = leafNum + innerNum := by
  have hunion : {a | ∃ n, F a = some n} = F.leaves ∪ F.inners := by
    ext a
    constructor
    · intro ha
      obtain ⟨n, hn⟩ := ha
      cases hleaf : n.isLeaf with
      | true => exact Or.inl ⟨n, hn, hleaf⟩
      | false => exact Or.inr ⟨n, hn, hleaf⟩
    · intro ha
      rcases ha with ha | ha
      · exact ⟨_, ha.choose_spec.1⟩
      · exact ⟨_, ha.choose_spec.1⟩
  have hdisjoint : Disjoint F.leaves F.inners := by
    apply Set.disjoint_left.mpr
    intro a hl hi
    obtain ⟨n, hn, hleaf⟩ := hl
    obtain ⟨m, hm, hinner⟩ := hi
    rw [hn, Option.some.injEq] at hm
    rw [hm, hinner] at hleaf
    cases hleaf
  rw [hunion, Set.ncard_union_eq hdisjoint h.finite_leaves h.finite_inners,
    h.leaves_ncard, h.inners_ncard]

end Children

end Forest

theorem Node.size_of_inner {n : Node A K V} (h : n.isLeaf = false) :
    n.size = n.keys.length := by
  cases n with
  | leaf => simp [Node.isLeaf] at h
  | inner => rfl

section Bounds

variable [LinearOrder K] [BoundedOrder K] [Finite A] {F : Forest A K V}
  {cap least leafNum innerNum : ℕ} {root a : A} {n : Node A K V}

/-- There is one child fewer than there are nodes, at most. -/
theorem SearchTree.children_lt (hF : SearchTree F cap root)
    (h : F.Shape least root leafNum innerNum) :
    F.weigh (fun n => n.children.length) < leafNum + innerNum := by
  obtain ⟨r, hr, _⟩ := hF.root_node
  rw [← h.ncard_nodes]
  exact Forest.weigh_children_lt hF.linked ⟨r, hr⟩ hF.not_child

omit [LinearOrder K] [BoundedOrder K] in
/-- The inner nodes, each counted `c` times. -/
theorem Forest.Shape.weigh_inners (h : F.Shape least root leafNum innerNum)
    (c : ℕ) :
    F.weigh (fun n => c * if (!n.isLeaf) then 1 else 0) = c * innerNum := by
  rw [Forest.weigh_mul, Forest.weigh_indicator, ← h.inners_ncard]
  congr 2
  ext a
  simp [Forest.inners]

/-- Each child of a node has a leaf of its own below it. -/
theorem SearchTree.size_lt_leafNum (hF : SearchTree F cap root)
    (h : F.Shape least root leafNum innerNum) (hn : F a = some n)
    (hinner : n.isLeaf = false) : n.size < leafNum := by
  have hpos : 0 < innerNum := by
    rw [← h.inners_ncard]
    exact Set.ncard_pos h.finite_inners |>.mpr ⟨a, n, hn, hinner⟩
  have hchildren := hF.children_lt h
  -- an inner node has two children, and one more for each further separator
  have hle := Forest.weigh_mono_except
    (w := fun m => 2 * if (!m.isLeaf) then 1 else 0)
    (u := fun m => m.children.length) hn (fun {b m} hm _ => by
      cases hleaf : m.isLeaf with
      | true => simp
      | false =>
          have hlength := hF.linked.children_length hm hleaf
          have hkeys := List.length_pos_of_ne_nil (h.keys_ne_nil hm hleaf)
          simp only [Bool.not_false, if_true]
          omega)
  have hlength := hF.linked.children_length hn hinner
  rw [h.weigh_inners 2] at hle
  simp only [hinner, Bool.not_false, if_true] at hle
  rw [Node.size_of_inner hinner]
  omega

omit [Finite A] in
/-- A root that is a leaf is the only node. -/
theorem SearchTree.leaf_root (hF : SearchTree F cap root)
    (h : F.Shape least root leafNum innerNum) {r : Node A K V}
    (hr : F root = some r) (hleaf : r.isLeaf = true) :
    leafNum = 1 ∧ innerNum = 0 := by
  have hreach : ∀ {a}, F.Reach root a → a = root := by
    intro a ha
    induction ha with
    | root => rfl
    | @child a c n i _ hn hc ih =>
        rw [ih, hr, Option.some.injEq] at hn
        cases r with
        | inner => simp [Node.isLeaf] at hleaf
        | leaf =>
            rw [← hn] at hc
            simp [Node.children] at hc
  have honly : ∀ {a n}, F a = some n → a = root ∧ n.isLeaf = true := by
    intro a n hn
    have ha := hreach (hF.reach hn)
    rw [ha, hr, Option.some.injEq] at hn
    exact ⟨ha, hn ▸ hleaf⟩
  have hleaves : F.leaves = {root} := by
    ext a
    constructor
    · rintro ⟨n, hn, _⟩
      exact (honly hn).1
    · rintro rfl
      exact ⟨r, hr, hleaf⟩
  have hinners : F.inners = ∅ := by
    ext a
    constructor
    · rintro ⟨n, hn, hinner⟩
      rw [(honly hn).2] at hinner
      cases hinner
    · intro ha
      exact ha.elim
  rw [← h.leaves_ncard, ← h.inners_ncard, hleaves, hinners]
  exact ⟨Set.ncard_singleton root, Set.ncard_empty A⟩

/-- Where the inner nodes but the root have `least` separators, there are
about `least` times as many leaves. -/
theorem SearchTree.inners_le (hF : SearchTree F cap root)
    (h : F.Shape least root leafNum innerNum) {r : Node A K V}
    (hr : F root = some r) (hinner : r.isLeaf = false) :
    least * (innerNum - 1) + r.size + 1 ≤ leafNum := by
  have hpos : 0 < innerNum := by
    rw [← h.inners_ncard]
    exact Set.ncard_pos h.finite_inners |>.mpr ⟨root, r, hr, hinner⟩
  have hchildren := hF.children_lt h
  have hle := Forest.weigh_mono_except
    (w := fun m => (least + 1) * if (!m.isLeaf) then 1 else 0)
    (u := fun m => m.children.length) hr (fun {b m} hm hb => by
      cases hleaf : m.isLeaf with
      | true => simp
      | false =>
          have hlength := hF.linked.children_length hm hleaf
          have hkeys := h.least_le hm hleaf hb
          simp only [Bool.not_false, if_true]
          omega)
  have hlength := hF.linked.children_length hr hinner
  rw [h.weigh_inners (least + 1)] at hle
  simp only [hinner, Bool.not_false, if_true] at hle
  obtain ⟨m, rfl⟩ : ∃ m, innerNum = m + 1 := ⟨innerNum - 1, by omega⟩
  have hsplit : (least + 1) * (m + 1) = least * m + least + m + 1 := by ring
  rw [Nat.add_sub_cancel, Node.size_of_inner hinner]
  omega

/-- Below the two children of a root each level multiplies the nodes. -/
theorem SearchTree.pow_le_atLevel (hF : SearchTree F cap root)
    (h : F.Shape least root leafNum innerNum) {r : Node A K V}
    (hr : F root = some r) (j : ℕ) (hj : j + 1 ≤ r.level) :
    2 * (least + 1) ^ j ≤ (F.atLevel (r.level - 1 - j)).ncard := by
  have hinner : ∀ {a : A} {n : Node A K V}, F a = some n → 0 < n.level →
      n.isLeaf = false := by
    intro a n hn hlevel
    cases hleaf : n.isLeaf with
    | false => rfl
    | true =>
        rw [Node.level_eq_zero_of_isLeaf hleaf] at hlevel
        omega
  induction j with
  | zero =>
      have hlevel : r.level = r.level - 1 - 0 + 1 := by omega
      have hle := Forest.weigh_level_le hF.linked (r.level - 1 - 0)
      have hroot := Forest.le_weigh (w := fun n =>
        if decide (n.level = r.level - 1 - 0 + 1) then n.children.length
        else 0) hr
      have hrootInner := hinner hr (by omega)
      have hlength := hF.linked.children_length hr hrootInner
      have hkeys := List.length_pos_of_ne_nil (h.keys_ne_nil hr hrootInner)
      rw [if_pos (by simpa using hlevel)] at hroot
      rw [pow_zero]
      omega
  | succ j ih =>
      have hprev := ih (by omega)
      have hlevel : r.level - 1 - j = r.level - 1 - (j + 1) + 1 := by omega
      rw [hlevel] at hprev
      generalize r.level - 1 - (j + 1) = l at hlevel hprev
      have hle := Forest.weigh_level_le hF.linked l
      -- the nodes of the level above are not the root
      have hmono := Forest.weigh_mono (F := F)
        (w := fun n => (least + 1) * if decide (n.level = l + 1) then 1 else 0)
        (u := fun n => if decide (n.level = l + 1) then n.children.length
          else 0) (fun {a n} hn => by
        by_cases hn' : n.level = l + 1
        · have hne : a ≠ root := by
            rintro rfl
            rw [hr, Option.some.injEq] at hn
            subst hn
            omega
          have hnInner := hinner hn (by omega)
          have hlength := hF.linked.children_length hn hnInner
          have hkeys := h.least_le hn hnInner hne
          simp only [hn', decide_true, if_true]
          omega
        · simp [hn'])
      rw [Forest.weigh_mul, Forest.weigh_indicator] at hmono
      have hcount : {a | ∃ n, F a = some n ∧ decide (n.level = l + 1) = true}
          = F.atLevel (l + 1) := by
        ext a
        simp [Forest.atLevel]
      rw [hcount] at hmono
      calc 2 * (least + 1) ^ (j + 1)
          = (least + 1) * (2 * (least + 1) ^ j) := by ring
        _ ≤ (least + 1) * (F.atLevel (l + 1)).ncard :=
            Nat.mul_le_mul_left _ hprev
        _ ≤ (F.atLevel l).ncard := hmono.trans hle

/-- A high tree has many leaves. -/
theorem SearchTree.pow_le_leafNum (hF : SearchTree F cap root)
    (h : F.Shape least root leafNum innerNum) {r : Node A K V}
    (hr : F root = some r) (hlevel : 0 < r.level) :
    2 * (least + 1) ^ (r.level - 1) ≤ leafNum := by
  have hpow := hF.pow_le_atLevel h hr (r.level - 1) (by omega)
  rw [Nat.sub_self] at hpow
  refine hpow.trans ?_
  rw [← h.leaves_ncard]
  apply Set.ncard_le_ncard ?_ h.finite_leaves
  rintro a ⟨n, hn, hzero⟩
  refine ⟨n, hn, ?_⟩
  cases hleaf : n.isLeaf with
  | true => rfl
  | false =>
      have hlength := hF.linked.children_length hn hleaf
      obtain ⟨m, _, hm⟩ := hF.linked.child hn
        (List.getElem?_eq_getElem (show 0 < n.children.length by omega))
      omega

end Bounds

end CachingDex.Lib
