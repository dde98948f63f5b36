import CachingDex.Lib.SortedSearch

/-!
# Forests of address-linked search nodes

Nodes live at addresses and name their children by address.  Every node
carries the limits of its key interval; the limits of an inner node, with
its separators between them, are the limits of its children.  This file
fixes the nodes, what splitting one of them produces, and `Linked`, the
condition that the addresses tie the nodes into a forest: children exist one
level down, carry the limits of their slot, and no address is a child twice.

Nothing here orders the keys.  A forest stays linked under lookups whatever
the keys are, which is what a cache below the tree relies on.
-/

namespace CachingDex.Lib

variable {A K V : Type}

/-- One node of a search tree over addresses `A`.  An interval is open below
and closed above; `next` is the address of the leaf to the right. -/
inductive Node (A K V : Type) where
  | leaf (lo hi : K) (entries : List (K × V)) (next : A)
  | inner (level : ℕ) (lo hi : K) (keys : List K) (children : List A)

namespace Node

def level : Node A K V → ℕ
  | .leaf .. => 0
  | .inner level .. => level

def lo : Node A K V → K
  | .leaf lo .. => lo
  | .inner _ lo .. => lo

def hi : Node A K V → K
  | .leaf _ hi .. => hi
  | .inner _ _ hi .. => hi

def keys : Node A K V → List K
  | .leaf .. => []
  | .inner _ _ _ keys _ => keys

def children : Node A K V → List A
  | .leaf .. => []
  | .inner _ _ _ _ children => children

def entries : Node A K V → List (K × V)
  | .leaf _ _ entries _ => entries
  | .inner .. => []

def isLeaf : Node A K V → Bool
  | .leaf .. => true
  | .inner .. => false

/-- The lower limit, the separators and the upper limit: slot `i` spans the
interval between positions `i` and `i + 1`. -/
def bounds (n : Node A K V) : List K :=
  n.lo :: (n.keys ++ [n.hi])

/-- Number of entries of a leaf, of separators of an inner node. -/
def size : Node A K V → ℕ
  | .leaf _ _ entries _ => entries.length
  | .inner _ _ _ keys _ => keys.length

/-- The separator an even split promotes. -/
def splitKey [Inhabited K] : Node A K V → K
  | .leaf _ _ entries _ =>
      ((entries.map Prod.fst)[entries.length / 2 - 1]?).getD default
  | .inner _ _ _ keys _ => (keys[keys.length / 2 - 1]?).getD default

/-- The half that keeps the address. -/
def splitLeft [Inhabited K] (sibling : A) (n : Node A K V) : Node A K V :=
  match n with
  | .leaf lo _ entries _ =>
      .leaf lo n.splitKey (entries.take (entries.length / 2)) sibling
  | .inner level lo _ keys children =>
      .inner level lo n.splitKey (keys.take (keys.length / 2 - 1))
        (children.take (keys.length / 2))

/-- The half that moves to a new address; a new leaf starts without a right
neighbour. -/
def splitRight [Inhabited K] (null : A) (n : Node A K V) : Node A K V :=
  match n with
  | .leaf _ hi entries _ =>
      .leaf n.splitKey hi (entries.drop (entries.length / 2)) null
  | .inner level _ hi keys children =>
      .inner level n.splitKey hi (keys.drop (keys.length / 2))
        (children.drop (keys.length / 2))

/-- An inner node after its child in slot `i` was split at `sep`. -/
def insertChild (i : ℕ) (sep : K) (sibling : A) : Node A K V → Node A K V
  | .leaf lo hi entries next => .leaf lo hi entries next
  | .inner level lo hi keys children =>
      .inner level lo hi (keys.insertIdx i sep)
        (children.insertIdx (i + 1) sibling)

section Split

variable [Inhabited K] (n : Node A K V) (a : A)

@[simp] theorem level_splitLeft : (n.splitLeft a).level = n.level := by
  cases n <;> rfl

@[simp] theorem level_splitRight : (n.splitRight a).level = n.level := by
  cases n <;> rfl

@[simp] theorem lo_splitLeft : (n.splitLeft a).lo = n.lo := by
  cases n <;> rfl

@[simp] theorem hi_splitLeft : (n.splitLeft a).hi = n.splitKey := by
  cases n <;> rfl

@[simp] theorem lo_splitRight : (n.splitRight a).lo = n.splitKey := by
  cases n <;> rfl

@[simp] theorem hi_splitRight : (n.splitRight a).hi = n.hi := by
  cases n <;> rfl

@[simp] theorem isLeaf_splitLeft : (n.splitLeft a).isLeaf = n.isLeaf := by
  cases n <;> rfl

@[simp] theorem isLeaf_splitRight : (n.splitRight a).isLeaf = n.isLeaf := by
  cases n <;> rfl

theorem children_splitLeft :
    (n.splitLeft a).children = n.children.take (n.size / 2) := by
  cases n <;> simp [splitLeft, children, size]

theorem children_splitRight :
    (n.splitRight a).children = n.children.drop (n.size / 2) := by
  cases n <;> simp [splitRight, children, size]

theorem size_splitLeft_le : (n.splitLeft a).size ≤ n.size / 2 := by
  cases n with
  | leaf => simp [splitLeft, size]
  | inner =>
      simp only [splitLeft, size, List.length_take]
      omega

theorem size_splitRight : (n.splitRight a).size = n.size - n.size / 2 := by
  cases n <;> simp [splitRight, size]

theorem entries_split (b : A) :
    (n.splitLeft a).entries ++ (n.splitRight b).entries = n.entries := by
  cases n <;> simp [splitLeft, splitRight, entries]

end Split

@[simp] theorem level_insertChild (i : ℕ) (sep : K) (a : A)
    (n : Node A K V) : (n.insertChild i sep a).level = n.level := by
  cases n <;> rfl

@[simp] theorem lo_insertChild (i : ℕ) (sep : K) (a : A)
    (n : Node A K V) : (n.insertChild i sep a).lo = n.lo := by
  cases n <;> rfl

@[simp] theorem hi_insertChild (i : ℕ) (sep : K) (a : A)
    (n : Node A K V) : (n.insertChild i sep a).hi = n.hi := by
  cases n <;> rfl

@[simp] theorem isLeaf_insertChild (i : ℕ) (sep : K) (a : A)
    (n : Node A K V) : (n.insertChild i sep a).isLeaf = n.isLeaf := by
  cases n <;> rfl

@[simp] theorem entries_insertChild (i : ℕ) (sep : K) (a : A)
    (n : Node A K V) : (n.insertChild i sep a).entries = n.entries := by
  cases n <;> rfl

/-- The new child stands to the right of the slot that was split. -/
theorem children_insertChild_self {n : Node A K V} {i : ℕ} {c : A}
    (hc : n.children[i]? = some c) (sep : K) (a : A) :
    (n.insertChild i sep a).children[i + 1]? = some a := by
  cases n with
  | leaf => simp [children] at hc
  | inner level lo hi keys children =>
      have hlt := (List.getElem?_eq_some_iff.mp hc).1
      simp only [Node.children] at hlt
      simp only [insertChild, Node.children]
      rw [List.getElem?_insertIdx_self, if_pos (by omega)]

theorem level_eq_zero_of_isLeaf {n : Node A K V} (h : n.isLeaf = true) :
    n.level = 0 := by
  cases n with
  | leaf => rfl
  | inner => simp [isLeaf] at h

theorem entries_eq_nil {n : Node A K V} (h : n.isLeaf = false) :
    n.entries = [] := by
  cases n with
  | leaf => simp [isLeaf] at h
  | inner => rfl

/-! ### Where the limits go in a split -/

section Bounds

variable [Inhabited K] {level : ℕ} {lo hi : K} {keys : List K}
  {children : List A}

theorem splitKey_inner (h : 2 ≤ keys.length) :
    keys[keys.length / 2 - 1]? =
      some (inner level lo hi keys children : Node A K V).splitKey := by
  have hlt : keys.length / 2 - 1 < keys.length := by omega
  simp [splitKey, hlt]

/-- The separators are the left ones, the promoted one and the right ones. -/
theorem keys_split (h : 2 ≤ keys.length) :
    keys = keys.take (keys.length / 2 - 1) ++
      (inner level lo hi keys children : Node A K V).splitKey ::
        keys.drop (keys.length / 2) := by
  have hlt : keys.length / 2 - 1 < keys.length := by omega
  have hget := @splitKey_inner A K V _ level lo hi keys children h
  rw [List.getElem?_eq_getElem hlt, Option.some.injEq] at hget
  rw [← hget]
  have hdrop : keys.drop (keys.length / 2 - 1) =
      keys[keys.length / 2 - 1] :: keys.drop (keys.length / 2) := by
    rw [List.drop_eq_getElem_cons hlt]
    congr 2
    omega
  rw [← hdrop, List.take_append_drop]

theorem bounds_splitLeft (h : 2 ≤ keys.length) (a : A) :
    (splitLeft a (inner level lo hi keys children : Node A K V)).bounds =
      (inner level lo hi keys children : Node A K V).bounds.take
        (keys.length / 2 + 1) := by
  have hkeys := @keys_split A K V _ level lo hi keys children h
  generalize hsep :
    (inner level lo hi keys children : Node A K V).splitKey = sep at hkeys
  have hbounds :
      (inner level lo hi keys children : Node A K V).bounds =
        lo :: (keys.take (keys.length / 2 - 1) ++
          sep :: (keys.drop (keys.length / 2) ++ [hi])) := by
    simp only [bounds, Node.lo, Node.keys, Node.hi]
    conv_lhs => rw [hkeys]
    simp
  rw [hbounds]
  simp only [splitLeft, bounds, Node.lo, Node.keys, Node.hi, hsep]
  rw [List.take_succ_cons]
  congr 1
  have hlength : (keys.take (keys.length / 2 - 1)).length + 1 =
      keys.length / 2 := by
    rw [List.length_take_of_le (by omega)]
    omega
  generalize keys.take (keys.length / 2 - 1) = front at hlength
  rw [← hlength, List.take_length_add_append]
  simp

theorem bounds_splitRight (h : 2 ≤ keys.length) (a : A) :
    (splitRight a (inner level lo hi keys children : Node A K V)).bounds =
      (inner level lo hi keys children : Node A K V).bounds.drop
        (keys.length / 2) := by
  have hkeys := @keys_split A K V _ level lo hi keys children h
  generalize hsep :
    (inner level lo hi keys children : Node A K V).splitKey = sep at hkeys
  have hbounds :
      (inner level lo hi keys children : Node A K V).bounds =
        (lo :: keys.take (keys.length / 2 - 1)) ++
          (sep :: (keys.drop (keys.length / 2) ++ [hi])) := by
    simp only [bounds, Node.lo, Node.keys, Node.hi]
    conv_lhs => rw [hkeys]
    simp
  rw [hbounds]
  simp only [splitRight, bounds, Node.lo, Node.keys, Node.hi, hsep]
  rw [List.drop_left' (by simp; omega)]

end Bounds

theorem bounds_insertChild {level : ℕ} {lo hi : K} {keys : List K}
    {children : List A} {i : ℕ} (hi' : i ≤ keys.length) (sep : K) (a : A) :
    (insertChild i sep a (inner level lo hi keys children : Node A K V)).bounds =
      (inner level lo hi keys children : Node A K V).bounds.insertIdx
        (i + 1) sep := by
  simp only [insertChild, bounds, Node.lo, Node.keys, Node.hi,
    List.insertIdx_succ_cons]
  congr 1
  rw [insertIdx_eq_take_drop hi', insertIdx_eq_take_drop (by simp; omega),
    List.take_append_of_le_length hi', List.drop_append_of_le_length hi']
  simp

end Node

/-- The nodes of a forest, by address. -/
abbrev Forest (A K V : Type) : Type :=
  A → Option (Node A K V)

namespace Forest

/-- Some node of the forest names `c` as a child. -/
def IsChild (F : Forest A K V) (c : A) : Prop :=
  ∃ (a : A) (n : Node A K V) (i : ℕ), F a = some n ∧ n.children[i]? = some c

/-- The addresses tie the nodes into a forest.  The limits of an `adrift`
child are not compared with those of its slot: a node that has just been cut
in half is adrift until its parent learns of the cut. -/
structure Linked (F : Forest A K V) (adrift : A → Prop) : Prop where
  children_length : ∀ {a : A} {n : Node A K V}, F a = some n →
    n.isLeaf = false → n.children.length = n.keys.length + 1
  child : ∀ {a c : A} {n : Node A K V} {i : ℕ}, F a = some n →
    n.children[i]? = some c → ∃ m, F c = some m ∧ m.level + 1 = n.level
  limits : ∀ {a c : A} {n m : Node A K V} {i : ℕ}, F a = some n →
    n.children[i]? = some c → F c = some m → ¬ adrift c →
      n.bounds[i]? = some m.lo ∧ n.bounds[i + 1]? = some m.hi
  unique : ∀ {a b c : A} {n m : Node A K V} {i j : ℕ}, F a = some n →
    F b = some m → n.children[i]? = some c → m.children[j]? = some c →
      a = b ∧ i = j

namespace Linked

variable {F : Forest A K V} {adrift : A → Prop}

theorem level_lt (h : F.Linked adrift) {a c : A} {n m : Node A K V} {i : ℕ}
    (hn : F a = some n) (hc : n.children[i]? = some c) (hm : F c = some m) :
    m.level < n.level := by
  obtain ⟨m', hm', hlevel⟩ := h.child hn hc
  rw [hm] at hm'
  cases hm'
  omega

theorem child_ne (h : F.Linked adrift) {a c : A} {n : Node A K V} {i : ℕ}
    (hn : F a = some n) (hc : n.children[i]? = some c) : c ≠ a := by
  rintro rfl
  exact lt_irrefl _ (h.level_lt hn hc hn)

theorem mono (h : F.Linked adrift) {adrift' : A → Prop}
    (hsub : ∀ c, F.IsChild c → adrift c → adrift' c) : F.Linked adrift' where
  children_length := h.children_length
  child := h.child
  limits hn hc hm hnot :=
    h.limits hn hc hm fun hadrift => hnot (hsub _ ⟨_, _, _, hn, hc⟩ hadrift)
  unique := h.unique

/-- No child has the address of a missing node. -/
theorem not_isChild_of_fresh (h : F.Linked fun _ => False) {a : A}
    (ha : F a = none) : ¬ F.IsChild a := by
  rintro ⟨b, n, i, hn, hc⟩
  obtain ⟨m, hm, _⟩ := h.child hn hc
  rw [ha] at hm
  cases hm

/-- The children of a node are different addresses. -/
theorem children_nodup (h : F.Linked adrift) {a : A} {n : Node A K V}
    (hn : F a = some n) : n.children.Nodup := by
  rw [List.nodup_iff_injective_get]
  intro i j hij
  have hi : n.children[i.val]? = some (n.children.get i) := by simp
  have hj : n.children[j.val]? = some (n.children.get i) := by
    rw [hij]
    simp
  exact Fin.ext (h.unique hn hn hi hj).2

variable [DecidableEq A]

/-- Rewriting the payload of a node keeps the links. -/
theorem update_payload (h : F.Linked adrift) {a : A} {n n' : Node A K V}
    (hn : F a = some n) (hlevel : n'.level = n.level)
    (hleaf : n'.isLeaf = n.isLeaf) (hbounds : n'.bounds = n.bounds)
    (hchildren : n'.children = n.children) :
    Linked (Function.update F a (some n')) adrift := by
  have hlo : n'.lo = n.lo := by
    have := congrArg List.head? hbounds
    simpa [Node.bounds] using this
  have hhi : n'.hi = n.hi := by
    have := congrArg List.getLast? hbounds
    simpa [Node.bounds, List.getLast?_cons] using this
  have hkeys : n'.keys = n.keys := by
    simpa [Node.bounds, hlo, hhi] using hbounds
  -- every node of the new forest is an old one up to its payload
  have hold : ∀ {b m}, Function.update F a (some n') b = some m →
      ∃ m₀, F b = some m₀ ∧ m.level = m₀.level ∧ m.isLeaf = m₀.isLeaf ∧
        m.bounds = m₀.bounds ∧ m.children = m₀.children ∧ m.lo = m₀.lo ∧
          m.hi = m₀.hi ∧ m.keys = m₀.keys := by
    intro b m hm
    by_cases hb : b = a
    · subst hb
      rw [Function.update_self, Option.some.injEq] at hm
      subst hm
      exact ⟨n, hn, hlevel, hleaf, hbounds, hchildren, hlo, hhi, hkeys⟩
    · rw [Function.update_of_ne hb] at hm
      exact ⟨m, hm, rfl, rfl, rfl, rfl, rfl, rfl, rfl⟩
  have hnew : ∀ {b m}, F b = some m →
      ∃ m', Function.update F a (some n') b = some m' ∧
        m'.level = m.level := by
    intro b m hm
    by_cases hb : b = a
    · subst hb
      rw [hn] at hm
      cases hm
      exact ⟨n', Function.update_self .., hlevel⟩
    · exact ⟨m, by rw [Function.update_of_ne hb, hm], rfl⟩
  constructor
  · intro b m hm hmleaf
    obtain ⟨m₀, hm₀, _, hleaf₀, _, hchildren₀, _, _, hkeys₀⟩ := hold hm
    rw [hchildren₀, hkeys₀]
    exact h.children_length hm₀ (hleaf₀ ▸ hmleaf)
  · intro b c m i hm hc
    obtain ⟨m₀, hm₀, hlevel₀, _, _, hchildren₀, _⟩ := hold hm
    rw [hchildren₀] at hc
    obtain ⟨k, hk, hklevel⟩ := h.child hm₀ hc
    obtain ⟨k', hk', hk'level⟩ := hnew hk
    exact ⟨k', hk', by omega⟩
  · intro b c m k i hm hc hk hnot
    obtain ⟨m₀, hm₀, _, _, hbounds₀, hchildren₀, _⟩ := hold hm
    obtain ⟨k₀, hk₀, _, _, _, _, hklo, hkhi, _⟩ := hold hk
    rw [hbounds₀, hklo, hkhi]
    exact h.limits hm₀ (hchildren₀ ▸ hc) hk₀ hnot
  · intro b b' c m m' i j hm hm' hc hc'
    obtain ⟨m₀, hm₀, _, _, _, hchildren₀, _⟩ := hold hm
    obtain ⟨m₁, hm₁, _, _, _, hchildren₁, _⟩ := hold hm'
    exact h.unique hm₀ hm₁ (hchildren₀ ▸ hc) (hchildren₁ ▸ hc')

/-- Cutting a node in half leaves it adrift and its upper children
unclaimed. -/
theorem splitLeft [Inhabited K] (h : F.Linked adrift) {a z : A}
    {n : Node A K V} (hn : F a = some n) (hsize : 4 ≤ n.size) :
    Linked (Function.update F a (some (n.splitLeft z)))
      (fun c => adrift c ∨ c = a) := by
  have hchildren : (n.splitLeft z).children =
      n.children.take (n.size / 2) := n.children_splitLeft z
  have hbounds : n.isLeaf = false → (n.splitLeft z).bounds =
      n.bounds.take (n.size / 2 + 1) := by
    intro hleaf
    cases n with
    | leaf => simp [Node.isLeaf] at hleaf
    | inner level lo hi keys children =>
        exact Node.bounds_splitLeft (by simp [Node.size] at hsize; omega) _
  have hold : ∀ {b : A} {m : Node A K V} {i : ℕ} {c : A},
      Function.update F a (some (n.splitLeft z)) b = some m →
      m.children[i]? = some c →
      ∃ m₀, F b = some m₀ ∧ m₀.children[i]? = some c ∧
        m.level = m₀.level ∧
        (∀ x, m₀.bounds[i]? = some x → m.bounds[i]? = some x) ∧
        (∀ x, m₀.bounds[i + 1]? = some x → m.bounds[i + 1]? = some x) := by
    intro b m i c hm hc
    by_cases hb : b = a
    · subst hb
      rw [Function.update_self, Option.some.injEq] at hm
      subst hm
      rw [hchildren, List.getElem?_take] at hc
      split_ifs at hc with hi
      have hinner : n.isLeaf = false := by
        cases n with
        | leaf => simp [Node.children] at hc
        | inner => rfl
      refine ⟨n, hn, hc, n.level_splitLeft z, ?_, ?_⟩
      · intro x hx
        rw [hbounds hinner, List.getElem?_take, if_pos (by omega), hx]
      · intro x hx
        rw [hbounds hinner, List.getElem?_take, if_pos (by omega), hx]
    · rw [Function.update_of_ne hb] at hm
      exact ⟨m, hm, hc, rfl, fun _ hx => hx, fun _ hx => hx⟩
  constructor
  · intro b m hm hmleaf
    by_cases hb : b = a
    · subst hb
      rw [Function.update_self, Option.some.injEq] at hm
      subst hm
      have hlength := h.children_length hn (by simpa using hmleaf)
      cases n with
      | leaf => simp [Node.isLeaf, Node.splitLeft] at hmleaf
      | inner level lo hi keys children =>
          simp only [Node.size] at hsize
          simp only [Node.children, Node.keys] at hlength
          simp only [Node.splitLeft, Node.children, Node.keys,
            List.length_take]
          omega
    · rw [Function.update_of_ne hb] at hm
      exact h.children_length hm hmleaf
  · intro b c m i hm hc
    obtain ⟨m₀, hm₀, hc₀, hlevel, _⟩ := hold hm hc
    obtain ⟨k, hk, hklevel⟩ := h.child hm₀ hc₀
    by_cases hca : c = a
    · subst hca
      rw [hn, Option.some.injEq] at hk
      subst hk
      exact ⟨_, Function.update_self .., by simpa [hlevel] using hklevel⟩
    · exact ⟨k, by rw [Function.update_of_ne hca, hk], by omega⟩
  · intro b c m k i hm hc hk hnot
    obtain ⟨m₀, hm₀, hc₀, _, hlow, hhigh⟩ := hold hm hc
    simp only [not_or] at hnot
    rw [Function.update_of_ne hnot.2] at hk
    obtain ⟨hlo, hhi⟩ := h.limits hm₀ hc₀ hk hnot.1
    exact ⟨hlow _ hlo, hhigh _ hhi⟩
  · intro b b' c m m' i j hm hm' hc hc'
    obtain ⟨m₀, hm₀, hc₀, _⟩ := hold hm hc
    obtain ⟨m₁, hm₁, hc₁, _⟩ := hold hm' hc'
    exact h.unique hm₀ hm₁ hc₀ hc₁

/-- A node whose children are unclaimed can be added at a fresh address. -/
theorem graft (h : F.Linked adrift) {a : A} {r : Node A K V}
    (hfresh : F a = none)
    (hlength : r.isLeaf = false → r.children.length = r.keys.length + 1)
    (hnodup : r.children.Nodup)
    (hunclaimed : ∀ c ∈ r.children, ¬ F.IsChild c)
    (hchild : ∀ (i : ℕ) (c : A), r.children[i]? = some c →
      ∃ m, F c = some m ∧ m.level + 1 = r.level ∧
        r.bounds[i]? = some m.lo ∧ r.bounds[i + 1]? = some m.hi) :
    Linked (Function.update F a (some r)) adrift := by
  have hne : ∀ {b m}, F b = some m → b ≠ a := by
    rintro b m hm rfl
    rw [hfresh] at hm
    cases hm
  have hkeep : ∀ {b m}, F b = some m →
      Function.update F a (some r) b = some m := by
    intro b m hm
    rw [Function.update_of_ne (hne hm), hm]
  constructor
  · intro b m hm hmleaf
    by_cases hb : b = a
    · subst hb
      rw [Function.update_self, Option.some.injEq] at hm
      subst hm
      exact hlength hmleaf
    · rw [Function.update_of_ne hb] at hm
      exact h.children_length hm hmleaf
  · intro b c m i hm hc
    by_cases hb : b = a
    · subst hb
      rw [Function.update_self, Option.some.injEq] at hm
      subst hm
      obtain ⟨k, hk, hlevel, _⟩ := hchild i c hc
      exact ⟨k, hkeep hk, hlevel⟩
    · rw [Function.update_of_ne hb] at hm
      obtain ⟨k, hk, hlevel⟩ := h.child hm hc
      exact ⟨k, hkeep hk, hlevel⟩
  · intro b c m k i hm hc hk hnot
    by_cases hb : b = a
    · subst hb
      rw [Function.update_self, Option.some.injEq] at hm
      subst hm
      obtain ⟨k', hk', _, hlo, hhi⟩ := hchild i c hc
      rw [hkeep hk', Option.some.injEq] at hk
      subst hk
      exact ⟨hlo, hhi⟩
    · rw [Function.update_of_ne hb] at hm
      obtain ⟨k', hk', _⟩ := h.child hm hc
      have hk'' := hkeep hk'
      rw [hk, Option.some.injEq] at hk''
      subst hk''
      exact h.limits hm hc hk' hnot
  · intro b b' c m m' i j hm hm' hc hc'
    by_cases hb : b = a <;> by_cases hb' : b' = a
    · subst hb
      subst hb'
      rw [Function.update_self, Option.some.injEq] at hm hm'
      subst hm
      subst hm'
      have hi := (List.getElem?_eq_some_iff.mp hc).1
      exact ⟨rfl, (List.getElem?_inj hi hnodup).mp (hc.trans hc'.symm)⟩
    · subst hb
      rw [Function.update_self, Option.some.injEq] at hm
      rw [Function.update_of_ne hb'] at hm'
      subst hm
      exact absurd ⟨_, _, _, hm', hc'⟩
        (hunclaimed c (List.mem_of_getElem? hc))
    · subst hb'
      rw [Function.update_self, Option.some.injEq] at hm'
      rw [Function.update_of_ne hb] at hm
      subst hm'
      exact absurd ⟨_, _, _, hm, hc⟩
        (hunclaimed c (List.mem_of_getElem? hc'))
    · rw [Function.update_of_ne hb] at hm
      rw [Function.update_of_ne hb'] at hm'
      exact h.unique hm hm' hc hc'

section Split

variable [Inhabited K] (h : F.Linked fun _ => False) {a b e : A}
  {n : Node A K V} (hn : F a = some n)

include hn in
omit h in
/-- The left half alone has the children of the lower slots. -/
theorem isChild_splitLeft {c : A}
    (hc : IsChild (Function.update F a (some (n.splitLeft b))) c) :
    ∃ d m i, F d = some m ∧ m.children[i]? = some c ∧
      (d = a → i < n.size / 2) := by
  obtain ⟨d, m, i, hm, hi⟩ := hc
  by_cases hda : d = a
  · subst hda
    rw [Function.update_self, Option.some.injEq] at hm
    subst hm
    rw [Node.children_splitLeft, List.getElem?_take] at hi
    split_ifs at hi with hlt
    exact ⟨d, n, i, hn, hi, fun _ => hlt⟩
  · rw [Function.update_of_ne hda] at hm
    exact ⟨d, m, i, hm, hi, fun heq => absurd heq hda⟩

include h hn in
/-- The children of the upper slots are nobody's children for a while. -/
theorem not_isChild_splitLeft {c : A} {j : ℕ}
    (hc : n.children[j]? = some c) (hj : n.size / 2 ≤ j) :
    ¬ IsChild (Function.update F a (some (n.splitLeft b))) c := by
  intro hchild
  obtain ⟨d, m, i, hm, hi, hlt⟩ := isChild_splitLeft hn hchild
  obtain ⟨rfl, rfl⟩ := h.unique hm hn hi hc
  have := hlt rfl
  omega

include h hn in
/-- Both halves in place, the old one adrift. -/
theorem split (hsize : 4 ≤ n.size) (hfresh : F b = none) :
    Linked (Function.update (Function.update F a (some (n.splitLeft b))) b
      (some (n.splitRight e))) (fun c => c = a) := by
  have hab : a ≠ b := by
    rintro rfl
    rw [hn] at hfresh
    cases hfresh
  have hleft : Linked (Function.update F a (some (n.splitLeft b)))
      (fun c => c = a) := by
    simpa using h.splitLeft hn hsize (z := b)
  apply hleft.graft
  · rw [Function.update_of_ne hab.symm, hfresh]
  · intro hleaf
    have hlength := h.children_length hn (by simpa using hleaf)
    cases n with
    | leaf => simp [Node.isLeaf, Node.splitRight] at hleaf
    | inner level lo hi keys children =>
        simp only [Node.size] at hsize
        simp only [Node.children, Node.keys] at hlength
        simp only [Node.splitRight, Node.children, Node.keys,
          List.length_drop]
        omega
  · rw [Node.children_splitRight]
    exact (h.children_nodup hn).sublist (List.drop_sublist _ _)
  · intro c hc
    rw [Node.children_splitRight] at hc
    obtain ⟨j, hj⟩ := List.getElem?_of_mem hc
    rw [List.getElem?_drop] at hj
    exact h.not_isChild_splitLeft hn hj (by omega)
  · intro i c hc
    rw [Node.children_splitRight, List.getElem?_drop] at hc
    obtain ⟨m, hm, hlevel⟩ := h.child hn hc
    obtain ⟨hlo, hhi⟩ := h.limits hn hc hm not_false
    have hca : c ≠ a := h.child_ne hn hc
    refine ⟨m, by rw [Function.update_of_ne hca, hm],
      by simpa using hlevel, ?_⟩
    cases n with
    | leaf => simp [Node.children] at hc
    | inner level lo hi keys children =>
        simp only [Node.size] at hsize hlo hhi
        rw [Node.bounds_splitRight (by omega), List.getElem?_drop,
          List.getElem?_drop]
        exact ⟨hlo, hhi⟩

include hn in
omit h in
/-- A split changes who is whose child, but not who is a child. -/
theorem isChild_split (hfresh : F b = none) {c : A} :
    IsChild (Function.update (Function.update F a (some (n.splitLeft b))) b
      (some (n.splitRight e))) c ↔ F.IsChild c := by
  have hab : a ≠ b := by
    rintro rfl
    rw [hn] at hfresh
    cases hfresh
  constructor
  · rintro ⟨d, m, i, hm, hi⟩
    by_cases hdb : d = b
    · subst hdb
      rw [Function.update_self, Option.some.injEq] at hm
      subst hm
      rw [Node.children_splitRight, List.getElem?_drop] at hi
      exact ⟨a, n, _, hn, hi⟩
    · rw [Function.update_of_ne hdb] at hm
      obtain ⟨d', m', i', hm', hi', _⟩ :=
        isChild_splitLeft hn ⟨d, m, i, hm, hi⟩
      exact ⟨d', m', i', hm', hi'⟩
  · rintro ⟨d, m, i, hm, hi⟩
    by_cases hda : d = a
    · subst hda
      rw [hn, Option.some.injEq] at hm
      subst hm
      by_cases hlt : i < n.size / 2
      · refine ⟨d, n.splitLeft b, i, ?_, ?_⟩
        · rw [Function.update_of_ne hab, Function.update_self]
        · rw [Node.children_splitLeft, List.getElem?_take, if_pos hlt, hi]
      · refine ⟨b, n.splitRight e, i - n.size / 2,
          Function.update_self .., ?_⟩
        rw [Node.children_splitRight, List.getElem?_drop,
          show n.size / 2 + (i - n.size / 2) = i by omega, hi]
    · have hdb : d ≠ b := by
        rintro rfl
        rw [hm] at hfresh
        cases hfresh
      exact ⟨d, m, i, by
        rw [Function.update_of_ne hdb, Function.update_of_ne hda, hm], hi⟩

end Split

/-- The parent of a cut node takes the new half as the next child; after
that the old half is no longer adrift. -/
theorem insertChild (h : F.Linked adrift) {p c a : A} {np l r : Node A K V}
    {i : ℕ} (hp : F p = some np) (hinner : np.isLeaf = false)
    (hc : np.children[i]? = some c) (hl : F c = some l) (hr : F a = some r)
    (hfree : ¬ F.IsChild a) (hlevel : r.level = l.level)
    (hlo : np.bounds[i]? = some l.lo) (hsep : l.hi = r.lo)
    (hhi : np.bounds[i + 1]? = some r.hi) :
    Linked (Function.update F p (some (np.insertChild i r.lo a)))
      (fun b => adrift b ∧ b ≠ c) := by
  obtain ⟨level, lo, hi, keys, children, rfl⟩ :
      ∃ level lo hi keys children, np = .inner level lo hi keys children := by
    cases np with
    | leaf => simp [Node.isLeaf] at hinner
    | inner level lo hi keys children => exact ⟨_, _, _, _, _, rfl⟩
  have hlength := h.children_length hp hinner
  simp only [Node.children, Node.keys] at hlength hc
  have hi' : i < children.length := (List.getElem?_eq_some_iff.mp hc).1
  have hkeys : i ≤ keys.length := by omega
  have hchildren :
      (Node.insertChild i r.lo a
        (.inner level lo hi keys children : Node A K V)).children =
        children.insertIdx (i + 1) a := rfl
  have hbounds :=
    @Node.bounds_insertChild A K V level lo hi keys children i hkeys r.lo a
  generalize hb :
    (Node.inner level lo hi keys children : Node A K V).bounds = bounds
      at hlo hhi hbounds
  have hblength : bounds.length = keys.length + 2 := by
    rw [← hb]
    simp [Node.bounds, Node.keys]
  have hap : a ≠ p := by
    rintro rfl
    rw [hp] at hr
    cases hr
    have := h.level_lt hp hc hl
    rw [← hlevel] at this
    exact lt_irrefl _ this
  have hcp : c ≠ p := h.child_ne hp hc
  -- the children of the new parent: the old ones, then the new half
  have hslot : ∀ {j d}, (children.insertIdx (i + 1) a)[j]? = some d →
      (j ≤ i ∧ children[j]? = some d) ∨ (j = i + 1 ∧ d = a) ∨
        (i + 1 < j ∧ children[j - 1]? = some d) := by
    intro j d hd
    rw [List.getElem?_insertIdx] at hd
    split_ifs at hd with h1 h2 h3
    · exact Or.inl ⟨by omega, hd⟩
    · exact Or.inr (Or.inl ⟨h2, by simpa using hd.symm⟩)
    · exact Or.inr (Or.inr ⟨by omega, hd⟩)
  have hold : ∀ {b m},
      Function.update F p (some (Node.insertChild i r.lo a
        (.inner level lo hi keys children))) b = some m →
      ∃ m₀, F b = some m₀ ∧ m.level = m₀.level ∧ m.lo = m₀.lo ∧
        m.hi = m₀.hi := by
    intro b m hm
    by_cases hbp : b = p
    · subst hbp
      rw [Function.update_self, Option.some.injEq] at hm
      subst hm
      exact ⟨_, hp, by simp, by simp, by simp⟩
    · rw [Function.update_of_ne hbp] at hm
      exact ⟨m, hm, rfl, rfl, rfl⟩
  have hnew : ∀ {b m}, F b = some m →
      ∃ m', Function.update F p (some (Node.insertChild i r.lo a
        (.inner level lo hi keys children))) b = some m' ∧
        m'.level = m.level := by
    intro b m hm
    by_cases hbp : b = p
    · subst hbp
      rw [hp] at hm
      cases hm
      exact ⟨_, Function.update_self .., by simp⟩
    · exact ⟨m, by rw [Function.update_of_ne hbp, hm], rfl⟩
  constructor
  · intro b m hm hmleaf
    by_cases hbp : b = p
    · subst hbp
      rw [Function.update_self, Option.some.injEq] at hm
      subst hm
      simp only [Node.insertChild, Node.children, Node.keys]
      rw [List.length_insertIdx_of_le_length (by omega),
        List.length_insertIdx_of_le_length (by omega)]
      omega
    · rw [Function.update_of_ne hbp] at hm
      exact h.children_length hm hmleaf
  · intro b d m j hm hd
    by_cases hbp : b = p
    · subst hbp
      rw [Function.update_self, Option.some.injEq] at hm
      subst hm
      rw [hchildren] at hd
      rcases hslot hd with ⟨_, hd⟩ | ⟨_, rfl⟩ | ⟨_, hd⟩
      · obtain ⟨k, hk, hklevel⟩ := h.child hp hd
        obtain ⟨k', hk', hk'level⟩ := hnew hk
        exact ⟨k', hk', by simpa [hk'level] using hklevel⟩
      · obtain ⟨k, hk, hklevel⟩ := h.child hp hc
        rw [hl, Option.some.injEq] at hk
        subst hk
        obtain ⟨r', hr', hr'level⟩ := hnew hr
        exact ⟨r', hr', by simpa [hr'level, hlevel] using hklevel⟩
      · obtain ⟨k, hk, hklevel⟩ := h.child hp hd
        obtain ⟨k', hk', hk'level⟩ := hnew hk
        exact ⟨k', hk', by simpa [hk'level] using hklevel⟩
    · rw [Function.update_of_ne hbp] at hm
      obtain ⟨k, hk, hklevel⟩ := h.child hm hd
      obtain ⟨k', hk', hk'level⟩ := hnew hk
      exact ⟨k', hk', by omega⟩
  · intro b d m k j hm hd hk hnot
    obtain ⟨k₀, hk₀, _, hklo, hkhi⟩ := hold hk
    rw [hklo, hkhi]
    by_cases hbp : b = p
    · subst hbp
      rw [Function.update_self, Option.some.injEq] at hm
      subst hm
      rw [hchildren] at hd
      rw [hbounds]
      simp only [List.getElem?_insertIdx]
      rcases hslot hd with ⟨hj, hdj⟩ | ⟨rfl, rfl⟩ | ⟨hj, hdj⟩
      · by_cases hdc : d = c
        · -- the old half: its upper limit is the promoted separator
          subst hdc
          have hji : j = i := (h.unique hp hp hdj hc).2
          subst hji
          rw [hl, Option.some.injEq] at hk₀
          subst hk₀
          simp [hlo, hsep, hblength, show j + 1 ≤ keys.length + 2 by omega]
        · have hlimits := h.limits hp hdj hk₀
            fun hadrift => hnot ⟨hadrift, hdc⟩
          rw [hb] at hlimits
          have hji : j ≠ i := by
            rintro rfl
            exact hdc (Option.some.inj (hdj.symm.trans hc))
          rw [if_pos (by omega), if_pos (by omega)]
          exact hlimits
      · rw [hr, Option.some.injEq] at hk₀
        subst hk₀
        rw [if_neg (by omega), if_pos rfl, if_pos (by omega),
          if_neg (by omega), if_neg (by omega)]
        exact ⟨rfl, hhi⟩
      · have hdc : d ≠ c := by
          rintro rfl
          have := (h.unique hp hp hdj hc).2
          omega
        have hlimits := h.limits hp hdj hk₀
          fun hadrift => hnot ⟨hadrift, hdc⟩
        rw [hb, show j - 1 + 1 = j by omega] at hlimits
        rw [if_neg (by omega), if_neg (by omega), if_neg (by omega),
          if_neg (by omega)]
        exact hlimits
    · rw [Function.update_of_ne hbp] at hm
      apply h.limits hm hd hk₀
      intro hadrift
      by_cases hdc : d = c
      · subst hdc
        exact hbp (h.unique hm hp hd hc).1
      · exact hnot ⟨hadrift, hdc⟩
  · have hclaim : ∀ {b m j d},
        Function.update F p (some (Node.insertChild i r.lo a
          (.inner level lo hi keys children))) b = some m →
        m.children[j]? = some d →
        (b = p ∧ j = i + 1 ∧ d = a) ∨
          ∃ m₀ j₀, F b = some m₀ ∧ m₀.children[j₀]? = some d ∧
            (b = p → j = if j₀ ≤ i then j₀ else j₀ + 1) ∧
              (b ≠ p → j = j₀) := by
      intro b m j d hm hd
      by_cases hbp : b = p
      · subst hbp
        rw [Function.update_self, Option.some.injEq] at hm
        subst hm
        rw [hchildren] at hd
        rcases hslot hd with ⟨hj, hd⟩ | ⟨rfl, rfl⟩ | ⟨hj, hd⟩
        · exact Or.inr ⟨_, j, hp, hd, fun _ => by simp [hj],
            fun hne => absurd rfl hne⟩
        · exact Or.inl ⟨rfl, rfl, rfl⟩
        · refine Or.inr ⟨_, j - 1, hp, hd, fun _ => ?_,
            fun hne => absurd rfl hne⟩
          rw [if_neg (by omega)]
          omega
      · rw [Function.update_of_ne hbp] at hm
        exact Or.inr ⟨m, j, hm, hd, fun heq => absurd heq hbp, fun _ => rfl⟩
    intro b b' d m m' j j' hm hm' hd hd'
    rcases hclaim hm hd with ⟨hbp, hj, rfl⟩ | ⟨m₀, j₀, hm₀, hd₀, hsame, hother⟩
    · rcases hclaim hm' hd' with ⟨hbp', hj', _⟩ | ⟨m₁, j₁, hm₁, hd₁, _, _⟩
      · exact ⟨hbp.trans hbp'.symm, hj.trans hj'.symm⟩
      · exact absurd ⟨_, _, _, hm₁, hd₁⟩ hfree
    · rcases hclaim hm' hd' with ⟨_, _, rfl⟩ |
        ⟨m₁, j₁, hm₁, hd₁, hsame', hother'⟩
      · exact absurd ⟨_, _, _, hm₀, hd₀⟩ hfree
      · obtain ⟨rfl, rfl⟩ := h.unique hm₀ hm₁ hd₀ hd₁
        refine ⟨rfl, ?_⟩
        by_cases hbp : b = p
        · rw [hsame hbp, hsame' hbp]
        · rw [hother hbp, hother' hbp]

end Linked

end Forest

end CachingDex.Lib
