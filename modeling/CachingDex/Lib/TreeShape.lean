import CachingDex.Lib.TreeGrowth

/-!
# The shape of a search tree

How full the inner nodes are, how many nodes of either kind there are, and
how high a tree over a bounded key space can grow: the two children of an
inner node split its interval, so an interval of height `h` has room for at
least `2 ^ h` keys.
-/

namespace CachingDex.Lib

variable {A K V : Type}

namespace Forest

def leaves (F : Forest A K V) : Set A :=
  {a | ∃ n, F a = some n ∧ n.isLeaf = true}

def inners (F : Forest A K V) : Set A :=
  {a | ∃ n, F a = some n ∧ n.isLeaf = false}

/-- Inner nodes have a separator, other than the root at least `least`, and
the nodes of either kind are counted. -/
structure Shape (F : Forest A K V) (least : ℕ) (root : A)
    (leafNum innerNum : ℕ) : Prop where
  keys_ne_nil : ∀ {a : A} {n : Node A K V}, F a = some n →
    n.isLeaf = false → n.keys ≠ []
  least_le : ∀ {a : A} {n : Node A K V}, F a = some n →
    n.isLeaf = false → a ≠ root → least ≤ n.keys.length
  finite_leaves : F.leaves.Finite
  finite_inners : F.inners.Finite
  leaves_ncard : F.leaves.ncard = leafNum
  inners_ncard : F.inners.ncard = innerNum

variable {F F' : Forest A K V} {least leafNum innerNum : ℕ} {root : A}

/-- A node added to the leaves or to the inner nodes. -/
theorem ncard_insert {s s' : Set A} {a : A} (h : s.Finite) (ha : a ∉ s)
    (hs : s' = insert a s) : s'.Finite ∧ s'.ncard = s.ncard + 1 := by
  subst hs
  exact ⟨h.insert a, Set.ncard_insert_of_notMem ha h⟩

section Updates

variable [DecidableEq A]

/-- An update that keeps the kind of a node keeps the sets of nodes. -/
theorem kinds_update {a : A} {n z : Node A K V} (hn : F a = some n)
    (hleaf : z.isLeaf = n.isLeaf) :
    leaves (Function.update F a (some z)) = F.leaves ∧
      inners (Function.update F a (some z)) = F.inners := by
  have hkind : ∀ x b, (∃ m, Function.update F a (some z) b = some m ∧
      m.isLeaf = x) ↔ ∃ m, F b = some m ∧ m.isLeaf = x := by
    intro x b
    by_cases hb : b = a
    · subst hb
      simp [hn, hleaf]
    · rw [Function.update_of_ne hb]
  exact ⟨Set.ext fun b => hkind true b, Set.ext fun b => hkind false b⟩

/-- A node at a fresh address joins the nodes of its kind. -/
theorem kinds_graft {a : A} {n : Node A K V} (ha : F a = none) :
    leaves (Function.update F a (some n)) =
        (if n.isLeaf then insert a F.leaves else F.leaves) ∧
      inners (Function.update F a (some n)) =
        (if n.isLeaf then F.inners else insert a F.inners) := by
  have hkind : ∀ x b, (∃ m, Function.update F a (some n) b = some m ∧
      m.isLeaf = x) ↔
        (b = a ∧ n.isLeaf = x) ∨ ∃ m, F b = some m ∧ m.isLeaf = x := by
    intro x b
    by_cases hb : b = a
    · subst hb
      simp [ha]
    · rw [Function.update_of_ne hb]
      simp [hb]
  constructor
  · ext b
    refine (hkind true b).trans ?_
    cases n.isLeaf <;> simp [leaves]
  · ext b
    refine (hkind false b).trans ?_
    cases n.isLeaf <;> simp [inners]

/-- Grafting a node counts it. -/
theorem ncard_graft {a : A} {n : Node A K V} (ha : F a = none)
    (hl : F.leaves.Finite) (hi : F.inners.Finite) :
    (leaves (Function.update F a (some n))).Finite ∧
      (inners (Function.update F a (some n))).Finite ∧
      (leaves (Function.update F a (some n))).ncard =
        F.leaves.ncard + (if n.isLeaf then 1 else 0) ∧
      (inners (Function.update F a (some n))).ncard =
        F.inners.ncard + (if n.isLeaf then 0 else 1) := by
  obtain ⟨hleaves, hinners⟩ := kinds_graft (n := n) ha
  have hal : a ∉ F.leaves := by
    rintro ⟨m, hm, _⟩
    rw [ha] at hm
    cases hm
  have hai : a ∉ F.inners := by
    rintro ⟨m, hm, _⟩
    rw [ha] at hm
    cases hm
  rw [hleaves, hinners]
  cases n.isLeaf with
  | true =>
      obtain ⟨hfinite, hcard⟩ := ncard_insert hl hal rfl
      exact ⟨hfinite, hi, hcard, rfl⟩
  | false =>
      obtain ⟨hfinite, hcard⟩ := ncard_insert hi hai rfl
      exact ⟨hl, hfinite, rfl, hcard⟩

/-- One leaf has the shape of one leaf. -/
theorem Shape.single (least : ℕ) (a : A) {n : Node A K V}
    (hn : n.isLeaf = true) :
    Shape (Function.update (fun _ => none) a (some n) : Forest A K V) least a
      1 0 := by
  have hnone : leaves (fun _ => none : Forest A K V) = ∅ ∧
      inners (fun _ => none : Forest A K V) = ∅ := by
    constructor <;> ext b <;> simp [leaves, inners]
  obtain ⟨hl, hi, hnl, hni⟩ := ncard_graft (n := n)
    (F := (fun _ => none : Forest A K V)) (a := a) rfl
    (hnone.1 ▸ Set.finite_empty) (hnone.2 ▸ Set.finite_empty)
  have hleaf : ∀ {b m}, (Function.update (fun _ => none) a (some n) :
      Forest A K V) b = some m → m.isLeaf = true := by
    intro b m hm
    by_cases hb : b = a
    · subst hb
      rw [Function.update_self, Option.some.injEq] at hm
      exact hm ▸ hn
    · rw [Function.update_of_ne hb] at hm
      cases hm
  constructor
  · intro b m hm hm'
    rw [hleaf hm] at hm'
    cases hm'
  · intro b m hm hm'
    rw [hleaf hm] at hm'
    cases hm'
  · exact hl
  · exact hi
  · rw [hnl, hnone.1, hn]
    simp
  · rw [hni, hnone.2, hn]
    simp

theorem Shape.update (h : F.Shape least root leafNum innerNum) {a : A}
    {n n' : Node A K V} (hn : F a = some n) (hleaf : n'.isLeaf = n.isLeaf)
    (hkeys : n'.keys = n.keys) :
    Shape (Function.update F a (some n')) least root leafNum innerNum := by
  obtain ⟨hleaves, hinners⟩ := kinds_update hn hleaf
  have hold : ∀ {b m}, Function.update F a (some n') b = some m →
      ∃ m₀, F b = some m₀ ∧ m.isLeaf = m₀.isLeaf ∧ m.keys = m₀.keys := by
    intro b m hm
    by_cases hb : b = a
    · subst hb
      rw [Function.update_self, Option.some.injEq] at hm
      subst hm
      exact ⟨n, hn, hleaf, hkeys⟩
    · rw [Function.update_of_ne hb] at hm
      exact ⟨m, hm, rfl, rfl⟩
  constructor
  · intro b m hm hmleaf
    obtain ⟨m₀, hm₀, hleaf₀, hkeys₀⟩ := hold hm
    rw [hkeys₀]
    exact h.keys_ne_nil hm₀ (hleaf₀ ▸ hmleaf)
  · intro b m hm hmleaf hb
    obtain ⟨m₀, hm₀, hleaf₀, hkeys₀⟩ := hold hm
    rw [hkeys₀]
    exact h.least_le hm₀ (hleaf₀ ▸ hmleaf) hb
  · rw [hleaves]
    exact h.finite_leaves
  · rw [hinners]
    exact h.finite_inners
  · rw [hleaves]
    exact h.leaves_ncard
  · rw [hinners]
    exact h.inners_ncard

variable [Inhabited K] {z p c a b : A} {np n : Node A K V} {i : ℕ}

omit [DecidableEq A] in
/-- Both halves of a large inner node are large enough. -/
theorem least_le_halves (hsize : n.isLeaf = false → 2 * least + 2 ≤ n.size)
    (hleaf : n.isLeaf = false) :
    least ≤ (n.splitLeft a).keys.length ∧
      least ≤ (n.splitRight z).keys.length := by
  have hle := hsize hleaf
  cases n with
  | leaf => simp [Node.isLeaf] at hleaf
  | inner level lo hi keys children =>
      simp only [Node.size] at hle
      simp only [Node.splitLeft, Node.splitRight, Node.keys,
        List.length_take, List.length_drop]
      omega

theorem Shape.splitBelow (h : F.Shape least root leafNum innerNum)
    (hs : Splittable F p np i c n a) (hcp : c ≠ p) (hleast : 1 ≤ least)
    (hsize : n.isLeaf = false → 2 * least + 2 ≤ n.size) :
    Shape (F.splitBelow z p np i c n a) least root
      (leafNum + if n.isLeaf then 1 else 0)
      (innerNum + if n.isLeaf then 0 else 1) := by
  obtain ⟨hleft, hinnersLeft⟩ :=
    kinds_update (z := n.splitLeft a) hs.child (by simp)
  have hfresh : Function.update F c (some (n.splitLeft a)) a = none := by
    rw [Function.update_of_ne hs.child_ne_fresh.symm, hs.fresh]
  obtain ⟨hfl, hfi, hnl, hni⟩ := ncard_graft (n := n.splitRight z) hfresh
    (hleft ▸ h.finite_leaves) (hinnersLeft ▸ h.finite_inners)
  have hp : Function.update (Function.update F c (some (n.splitLeft a))) a
      (some (n.splitRight z)) p = some np := by
    rw [Function.update_of_ne hs.parent_ne_fresh,
      Function.update_of_ne hcp.symm, hs.parent]
  obtain ⟨hlast, hinnersLast⟩ :=
    kinds_update (z := np.insertChild i n.splitKey a) hp (by simp)
  rw [Node.isLeaf_splitRight] at hnl hni
  have hnonempty : ∀ {m : Node A K V}, least ≤ m.keys.length →
      m.keys ≠ [] := by
    rintro m hm heq
    rw [heq] at hm
    simp only [List.length_nil] at hm
    omega
  have hparent : np.keys.length ≤ (np.insertChild i n.splitKey a).keys.length
      ∧ (np.insertChild i n.splitKey a).keys ≠ [] := by
    have hinner := hs.parent_isInner
    have hne := h.keys_ne_nil hs.parent hinner
    cases np with
    | leaf => simp [Node.isLeaf] at hinner
    | inner level lo hi keys children =>
        simp only [Node.keys, ne_eq] at hne
        simp only [Node.insertChild, Node.keys]
        rw [List.length_insertIdx]
        refine ⟨by split <;> omega, fun heq => hne ?_⟩
        have hlen := congrArg List.length heq
        rw [List.length_insertIdx, List.length_nil] at hlen
        split at hlen
        · omega
        · exact List.eq_nil_of_length_eq_zero hlen
  constructor
  · intro d m hm hmleaf
    rcases splitBelow_cases hm with ⟨_, rfl⟩ | ⟨_, rfl⟩ | ⟨_, rfl⟩ |
      ⟨_, _, _, hm⟩
    · exact hparent.2
    · exact hnonempty (least_le_halves hsize (a := a) (by simpa using hmleaf)).2
    · exact hnonempty (least_le_halves hsize (z := z) (by simpa using hmleaf)).1
    · exact h.keys_ne_nil hm hmleaf
  · intro d m hm hmleaf hd
    rcases splitBelow_cases hm with ⟨rfl, rfl⟩ | ⟨_, rfl⟩ | ⟨_, rfl⟩ |
      ⟨_, _, _, hm⟩
    · exact (h.least_le hs.parent hs.parent_isInner hd).trans hparent.1
    · exact (least_le_halves hsize (a := a) (by simpa using hmleaf)).2
    · exact (least_le_halves hsize (z := z) (by simpa using hmleaf)).1
    · exact h.least_le hm hmleaf hd
  · rw [Forest.splitBelow, hlast]
    exact hfl
  · rw [Forest.splitBelow, hinnersLast]
    exact hfi
  · rw [Forest.splitBelow, hlast, hnl, hleft, h.leaves_ncard]
  · rw [Forest.splitBelow, hinnersLast, hni, hinnersLeft, h.inners_ncard]

theorem Shape.splitRoot (h : F.Shape least c leafNum innerNum)
    (hs : RootSplit F c n a b) (hleast : 1 ≤ least)
    (hsize : n.isLeaf = false → 2 * least + 2 ≤ n.size) :
    Shape (F.splitRoot z c n a b) least b
      (leafNum + if n.isLeaf then 1 else 0)
      (innerNum + (if n.isLeaf then 0 else 1) + 1) := by
  obtain ⟨hleft, hinnersLeft⟩ :=
    kinds_update (z := n.splitLeft a) hs.root (by simp)
  have hfresh : Function.update F c (some (n.splitLeft a)) a = none := by
    rw [Function.update_of_ne hs.ne_left.symm, hs.fresh]
  obtain ⟨hfl, hfi, hnl, hni⟩ := ncard_graft (n := n.splitRight z) hfresh
    (hleft ▸ h.finite_leaves) (hinnersLeft ▸ h.finite_inners)
  have hfreshRoot : Function.update
      (Function.update F c (some (n.splitLeft a))) a
      (some (n.splitRight z)) b = none := by
    rw [Function.update_of_ne hs.ne.symm, Function.update_of_ne hs.ne_root.symm,
      hs.fresh_root]
  obtain ⟨hfl', hfi', hnl', hni'⟩ := ncard_graft
    (n := .inner (n.level + 1) n.lo n.hi [n.splitKey] [c, a]) hfreshRoot
    hfl hfi
  rw [Node.isLeaf_splitRight] at hnl hni
  simp only [Node.isLeaf] at hnl' hni'
  have hnonempty : ∀ {m : Node A K V}, least ≤ m.keys.length →
      m.keys ≠ [] := by
    rintro m hm heq
    rw [heq] at hm
    simp only [List.length_nil] at hm
    omega
  constructor
  · intro d m hm hmleaf
    rcases splitRoot_cases hm with ⟨_, rfl⟩ | ⟨_, rfl⟩ | ⟨_, rfl⟩ |
      ⟨_, _, _, hm⟩
    · simp [Node.keys]
    · exact hnonempty (least_le_halves hsize (a := a) (by simpa using hmleaf)).2
    · exact hnonempty (least_le_halves hsize (z := z) (by simpa using hmleaf)).1
    · exact h.keys_ne_nil hm hmleaf
  · intro d m hm hmleaf hd
    rcases splitRoot_cases hm with ⟨rfl, _⟩ | ⟨_, rfl⟩ | ⟨_, rfl⟩ |
      ⟨_, _, hdc, hm⟩
    · exact absurd rfl hd
    · exact (least_le_halves hsize (a := a) (by simpa using hmleaf)).2
    · exact (least_le_halves hsize (z := z) (by simpa using hmleaf)).1
    · exact h.least_le hm hmleaf hdc
  · exact hfl'
  · exact hfi'
  · rw [Forest.splitRoot, hnl', hnl, hleft, h.leaves_ncard]
    simp
  · rw [Forest.splitRoot, hni', hni, hinnersLeft, h.inners_ncard]
    simp

omit [Inhabited K] in
theorem Shape.editsLeaf [LinearOrder K] [BoundedOrder K]
    (h : F.Shape least root leafNum innerNum) {k : K}
    {entries entries' : List (K × V)}
    (hedit : EditsLeaf F F' k entries entries') :
    F'.Shape least root leafNum innerNum := by
  obtain ⟨_, _, _, _, ha, _, rfl⟩ := hedit.covers
  exact h.update ha rfl rfl

end Updates

end Forest

/-! ## The height over a bounded key space -/

section Height

variable [LinearOrder K] [BoundedOrder K] {F : Forest A K V} {cap : ℕ}
  {root : A}

theorem SearchTree.two_pow_level_le (h : SearchTree F cap root)
    (hkeys : ∀ {a : A} {n : Node A K V}, F a = some n →
      n.isLeaf = false → n.keys ≠ [])
    {rank : K → ℕ} (hrank : StrictMono rank) (level : ℕ) {a : A}
    {n : Node A K V} (hn : F a = some n) (hlevel : n.level = level) :
    2 ^ level + rank n.lo ≤ rank n.hi := by
  induction level generalizing a n with
  | zero =>
      have := hrank (h.sound hn).lo_lt_hi
      simp only [pow_zero]
      omega
  | succ level ih =>
      have hinner : n.isLeaf = false := by
        by_contra hleaf
        rw [Node.level_eq_zero_of_isLeaf (by simpa using hleaf)] at hlevel
        omega
      have hne := hkeys hn hinner
      have hlength := h.linked.children_length hn hinner
      have hpos : 0 < n.keys.length := List.length_pos_of_ne_nil hne
      -- the first two children split the front of the interval
      obtain ⟨c₀, hc₀⟩ : ∃ c, n.children[0]? = some c :=
        ⟨_, List.getElem?_eq_getElem (by omega)⟩
      obtain ⟨c₁, hc₁⟩ : ∃ c, n.children[1]? = some c :=
        ⟨_, List.getElem?_eq_getElem (by omega)⟩
      obtain ⟨m₀, hm₀, hl₀⟩ := h.linked.child hn hc₀
      obtain ⟨m₁, hm₁, hl₁⟩ := h.linked.child hn hc₁
      obtain ⟨_, hhi₀⟩ := h.limits hn hc₀ hm₀
      obtain ⟨hlo₁, _⟩ := h.limits hn hc₁ hm₁
      have hmeet : m₀.hi = m₁.lo := by
        rw [hhi₀] at hlo₁
        exact Option.some.inj hlo₁
      have hwithin₀ := h.child_within hn hc₀ hm₀
      have hwithin₁ := h.child_within hn hc₁ hm₁
      have h₀ := ih hm₀ (by omega)
      have h₁ := ih hm₁ (by omega)
      have hlo := hrank.monotone hwithin₀.1
      have hhi := hrank.monotone hwithin₁.2
      rw [hmeet] at h₀
      rw [pow_succ]
      omega

end Height

end CachingDex.Lib
