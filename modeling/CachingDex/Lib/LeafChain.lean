import CachingDex.Lib.TreePath

/-!
# The chain of leaves

Each leaf of a search tree may name the leaf to its right.  A split of a leaf
hangs the new right half behind the left half, but the right half itself
names no neighbour.  So a split keeps the chain exactly where it cuts the
last leaf; any other leaf loses its neighbour, and later splits and edits do
not bring it back.

`Regrown` says what one or more splits on the way to a key do to the chain,
in a form that composes.
-/

namespace CachingDex.Lib

variable {A K V : Type}

namespace Forest

/-- A list of leaves whose intervals lie side by side from `lo` to `hi`. -/
def Spans (F : Forest A K V) : K → List A → K → Prop
  | lo, [], hi => lo = hi
  | lo, a :: l, hi => ∃ mid entries next,
      F a = some (.leaf lo mid entries next) ∧ Spans F mid l hi

/-- The leaves below an address from left to right, down to a depth. -/
def leafList (F : Forest A K V) : ℕ → A → List A
  | 0, _ => []
  | fuel + 1, a =>
      match F a with
      | none => []
      | some n =>
          if n.isLeaf then [a] else n.children.flatMap (F.leafList fuel)

/-- The address a leaf names as its neighbour. -/
def nextOf (F : Forest A K V) (a : A) : Option A :=
  match F a with
  | some (.leaf _ _ _ next) => some next
  | _ => none

section Spans

variable {F : Forest A K V} {lo mid hi : K} {l l' : List A}

theorem Spans.append (h : F.Spans lo l mid) (h' : F.Spans mid l' hi) :
    F.Spans lo (l ++ l') hi := by
  induction l generalizing lo with
  | nil =>
      obtain rfl : lo = mid := h
      exact h'
  | cons a l ih =>
      obtain ⟨m, entries, next, ha, hl⟩ := h
      exact ⟨m, entries, next, ha, ih hl⟩

theorem Spans.mem (h : F.Spans lo l hi) {a : A} (ha : a ∈ l) :
    ∃ lo' hi' entries next, F a = some (.leaf lo' hi' entries next) := by
  induction l generalizing lo with
  | nil => exact absurd ha List.not_mem_nil
  | cons b l ih =>
      obtain ⟨m, entries, next, hb, hl⟩ := h
      rcases List.mem_cons.mp ha with rfl | ha
      · exact ⟨_, _, _, _, hb⟩
      · exact ih hl ha

/-- Children that carry the limits of their slots line up. -/
theorem spans_flatMap {cs : List A} {bs : List K} {f : A → List A}
    (hlength : bs.length = cs.length + 1)
    (h : ∀ {i c lo hi}, cs[i]? = some c → bs[i]? = some lo →
      bs[i + 1]? = some hi → F.Spans lo (f c) hi)
    (hlo : bs.head? = some lo) (hhi : bs.getLast? = some hi) :
    F.Spans lo (cs.flatMap f) hi := by
  induction cs generalizing bs lo with
  | nil =>
      obtain ⟨b, rfl⟩ := List.length_eq_one_iff.mp hlength
      simp only [List.head?_cons, Option.some.injEq] at hlo
      simp only [List.getLast?_singleton, Option.some.injEq] at hhi
      exact hlo.symm.trans hhi
  | cons c cs ih =>
      match bs, hlength with
      | b :: b' :: bs, hlength =>
          obtain rfl : b = lo := by simpa using hlo
          have hfirst : F.Spans b (f c) b' := h (i := 0) rfl rfl rfl
          have hlength' : (b' :: bs).length = cs.length + 1 := by
            simpa using hlength
          refine hfirst.append (ih hlength' ?_ rfl ?_)
          · intro i d lo' hi' hd hlo' hhi'
            exact h (i := i + 1) hd hlo' hhi'
          · simpa using hhi

end Spans

/-- Every leaf below a node is in the list. -/
theorem mem_leafList {F : Forest A K V} {path : List ℕ} {a b : A}
    (hpath : F.follow path a = some b) {lo hi : K} {entries : List (K × V)}
    {next : A} (hb : F b = some (.leaf lo hi entries next)) {fuel : ℕ}
    (hfuel : path.length < fuel) : b ∈ F.leafList fuel a := by
  induction path generalizing a fuel with
  | nil =>
      obtain rfl : a = b := Option.some.inj hpath
      obtain ⟨fuel, rfl⟩ := Nat.exists_eq_succ_of_ne_zero (by omega : fuel ≠ 0)
      rw [leafList, hb]
      simp [Node.isLeaf]
  | cons i path ih =>
      obtain ⟨fuel, rfl⟩ := Nat.exists_eq_succ_of_ne_zero (by omega : fuel ≠ 0)
      obtain ⟨c, hc, hcb⟩ := Option.bind_eq_some_iff.mp hpath
      obtain ⟨n, hn, hi'⟩ := Option.bind_eq_some_iff.mp hc
      rw [List.length_cons] at hfuel
      have hmem : b ∈ F.leafList fuel c := ih hcb (by omega)
      have hinner : n.isLeaf = false := by
        cases n with
        | leaf => simp [Node.children] at hi'
        | inner => rfl
      rw [leafList, hn]
      simp only [hinner, Bool.false_eq_true, if_false, List.mem_flatMap]
      exact ⟨c, List.mem_of_getElem? hi', hmem⟩

/-! ## Halves of a node -/

/-- The node `n` at `c` was split with the right half at `a`; other leaves
are as before. -/
structure Halves [Inhabited K] (F F' : Forest A K V) (z c : A)
    (n : Node A K V) (a : A) : Prop where
  child : F c = some n
  size : 4 ≤ n.size
  fresh : F a = none
  left : F' c = some (n.splitLeft a)
  right : F' a = some (n.splitRight z)
  other : ∀ {b m}, m.isLeaf = true → b ≠ c → b ≠ a →
    (F' b = some m ↔ F b = some m)

section Grown

variable [DecidableEq A] [Inhabited K] {F : Forest A K V} {p c a b z : A}
  {np n : Node A K V} {i : ℕ}

theorem Splittable.halves (h : Splittable F p np i c n a)
    (hcp : c ≠ p) : Halves F (F.splitBelow z p np i c n a) z c n a where
  child := h.child
  size := h.size
  fresh := h.fresh
  left := h.splitBelow_left hcp
  right := h.splitBelow_right
  other := by
    intro d m hm hdc hda
    by_cases hdp : d = p
    · subst hdp
      have hinner := h.parent_isInner
      rw [splitBelow_parent, h.parent]
      constructor
      · intro heq
        rw [Option.some.injEq] at heq
        rw [← heq, Node.isLeaf_insertChild, hinner] at hm
        cases hm
      · intro heq
        rw [Option.some.injEq] at heq
        rw [← heq, hinner] at hm
        cases hm
    · rw [splitBelow_other hdp hdc hda]

theorem RootSplit.halves (h : RootSplit F c n a b) :
    Halves F (F.splitRoot z c n a b) z c n a where
  child := h.root
  size := h.size
  fresh := h.fresh
  left := h.splitRoot_left
  right := h.splitRoot_right
  other := by
    intro d m hm hdc hda
    by_cases hdb : d = b
    · subst hdb
      rw [splitRoot_root, h.fresh_root]
      constructor
      · intro heq
        rw [Option.some.injEq] at heq
        rw [← heq] at hm
        cases hm
      · intro heq
        cases heq
    · rw [splitRoot_other hdc hda hdb]

end Grown

end Forest

section Ordered

variable [LinearOrder K] [BoundedOrder K] {F : Forest A K V} {cap : ℕ}
  {root : A}

namespace SearchTree

/-- The leaves below a node span its interval. -/
theorem spans_leafList (h : SearchTree F cap root) {fuel : ℕ} {a : A}
    {n : Node A K V} (hn : F a = some n) (hfuel : n.level < fuel) :
    F.Spans n.lo (F.leafList fuel a) n.hi := by
  induction fuel generalizing a n with
  | zero => omega
  | succ fuel ih =>
      rw [Forest.leafList, hn]
      cases n with
      | leaf lo hi entries next => exact ⟨hi, entries, next, hn, rfl⟩
      | inner level lo hi keys children =>
          have hlength := h.linked.children_length hn rfl
          simp only [Node.children, Node.keys] at hlength
          change F.Spans lo (children.flatMap (F.leafList fuel)) hi
          have hbounds : (Node.inner level lo hi keys children :
              Node A K V).bounds = lo :: (keys ++ [hi]) := rfl
          have hlength' : (lo :: (keys ++ [hi])).length =
              children.length + 1 := by
            simp [hlength]
          apply Forest.spans_flatMap hlength'
          · intro i c lo' hi' hc hlo hhi
            obtain ⟨m, hm, hlevel⟩ := h.linked.child hn hc
            obtain ⟨hmlo, hmhi⟩ := h.limits hn hc hm
            rw [hbounds] at hmlo hmhi
            obtain rfl := Option.some.inj (hmlo.symm.trans hlo)
            obtain rfl := Option.some.inj (hmhi.symm.trans hhi)
            have hbelow : m.level + 1 = level := hlevel
            have hlt : level < fuel + 1 := hfuel
            exact ih hm (by omega)
          · rfl
          · rw [← List.cons_append]
            exact List.getLast?_concat

/-- A leaf is determined by where its interval begins. -/
theorem leaf_unique (h : SearchTree F cap root) {a b : A} {lo hi hi' : K}
    {entries entries' : List (K × V)} {next next' : A}
    (ha : F a = some (.leaf lo hi entries next))
    (hb : F b = some (.leaf lo hi' entries' next')) : a = b := by
  by_contra hne
  have hlt := (h.sound ha).lo_lt_hi
  have hlt' := (h.sound hb).lo_lt_hi
  simp only [Node.lo, Node.hi] at hlt hlt'
  rcases h.apart ha hb hne rfl with hle | hle
  · simp only [Node.lo, Node.hi] at hle
    exact absurd hlt (not_lt.mpr hle)
  · simp only [Node.lo, Node.hi] at hle
    exact absurd hlt' (not_lt.mpr hle)

end SearchTree

namespace Forest

/-- Every leaf names the leaf to its right; the last one names `z`. -/
structure LeafLinked (F : Forest A K V) (z : A) : Prop where
  last : ∀ {a lo entries next}, F a = some (.leaf lo ⊤ entries next) →
    next = z
  next : ∀ {a lo hi entries next}, F a = some (.leaf lo hi entries next) →
    hi ≠ ⊤ → ∃ hi' entries' next', F next = some (.leaf hi hi' entries' next')

/-- A leaf that is not the last one names no neighbour. -/
def LeafCut (F : Forest A K V) (z : A) : Prop :=
  ∃ a lo hi entries, F a = some (.leaf lo hi entries z) ∧ hi ≠ ⊤

theorem LeafLinked.single [DecidableEq A] (a z : A) :
    LeafLinked (Function.update (fun _ => none) a (some (.leaf ⊥ ⊤ [] z)) :
      Forest A K V) z := by
  have honly : ∀ {b lo hi entries next},
      (Function.update (fun _ => none) a (some (.leaf ⊥ ⊤ [] z)) :
        Forest A K V) b = some (.leaf lo hi entries next) →
      hi = ⊤ ∧ next = z := by
    intro b lo hi entries next hb
    by_cases hba : b = a
    · subst hba
      rw [Function.update_self, Option.some.injEq, Node.leaf.injEq] at hb
      exact ⟨hb.2.1.symm, hb.2.2.2.symm⟩
    · rw [Function.update_of_ne hba] at hb
      cases hb
  exact ⟨fun hb => (honly hb).2, fun hb hne => absurd (honly hb).1 hne⟩

/-- Leaves side by side are different. -/
theorem Spans.nodup (hF : SearchTree F cap root) {lo hi : K} {l : List A}
    (hl : F.Spans lo l hi) : l.Nodup ∧ ∀ {a lo' hi' entries next}, a ∈ l →
      F a = some (.leaf lo' hi' entries next) → lo ≤ lo' := by
  induction l generalizing lo with
  | nil => exact ⟨List.nodup_nil, fun ha => absurd ha List.not_mem_nil⟩
  | cons a l ih =>
      obtain ⟨mid, entries, next, ha, hrest⟩ := hl
      obtain ⟨hnodup, hle⟩ := ih hrest
      have hlt : lo < mid := (hF.sound ha).lo_lt_hi
      constructor
      · rw [List.nodup_cons]
        refine ⟨fun hmem => ?_, hnodup⟩
        exact absurd hlt (not_lt.mpr (hle hmem ha))
      · intro b lo' hi' entries' next' hb hb'
        rcases List.mem_cons.mp hb with rfl | hb
        · rw [ha, Option.some.injEq, Node.leaf.injEq] at hb'
          exact hb'.1.le
        · exact hlt.le.trans (hle hb hb')

/-- Along leaves side by side up to the greatest key, each one names the
next. -/
theorem LeafLinked.nexts {z : A} (h : F.LeafLinked z)
    (hF : SearchTree F cap root) {lo : K} {l : List A}
    (hl : F.Spans lo l ⊤) (hne : l ≠ []) :
    l.map F.nextOf = (l.tail ++ [z]).map some := by
  induction l generalizing lo with
  | nil => exact absurd rfl hne
  | cons a l ih =>
      obtain ⟨mid, entries, next, ha, hrest⟩ := hl
      have hnext : F.nextOf a = some next := by rw [nextOf, ha]
      cases l with
      | nil =>
          obtain rfl : mid = ⊤ := hrest
          rw [List.map_singleton, hnext, h.last ha]
          rfl
      | cons b l =>
          have hih := ih hrest (by simp)
          obtain ⟨mid', entries', next', hb, _⟩ := hrest
          have hlt := (hF.sound hb).lo_lt_hi
          have hmid : mid ≠ ⊤ := (hlt.trans_le le_top).ne
          obtain ⟨_, _, _, hn⟩ := h.next ha hmid
          obtain rfl := hF.leaf_unique hb hn
          rw [List.map_cons, hih, hnext]
          rfl

/-! ## Splits -/

/-- A full leaf that covers the key is the last one. -/
def FullLast (F : Forest A K V) (cap : ℕ) (k : K) : Prop :=
  ∀ ⦃a lo hi entries next⦄, F a = some (.leaf lo hi entries next) →
    Covers lo hi k → entries.length = cap → hi = ⊤

/-- What splits on the way to the key `k` do to the chain of leaves. -/
structure Regrown (cap : ℕ) (z : A) (k : K) (F F' : Forest A K V) :
    Prop where
  linked : F.FullLast cap k → F.LeafLinked z → F'.LeafLinked z
  fullLast : F.FullLast cap k → F'.FullLast cap k
  cut : F.LeafCut z → F'.LeafCut z
  cuts : ¬ F.FullLast cap k → ¬ F'.FullLast cap k ∨ F'.LeafCut z

theorem Regrown.refl (cap : ℕ) (z : A) (k : K) (F : Forest A K V) :
    Regrown cap z k F F :=
  ⟨fun _ h => h, id, id, Or.inl⟩

theorem Regrown.trans {F' F'' : Forest A K V} {z : A} {k : K}
    (h : Regrown cap z k F F') (h' : Regrown cap z k F' F'') :
    Regrown cap z k F F'' where
  linked hk hF := h'.linked (h.fullLast hk) (h.linked hk hF)
  fullLast hk := h'.fullLast (h.fullLast hk)
  cut hF := h'.cut (h.cut hF)
  cuts hk := by
    rcases h.cuts hk with hk' | hcut
    · exact h'.cuts hk'
    · exact Or.inr (h'.cut hcut)

namespace Halves

variable [Inhabited K] {F' : Forest A K V} {z c a : A} {n : Node A K V}
  {k : K}

theorem linked (h : Halves F F' z c n a) (hF : SearchTree F cap root)
    (hlast : n.isLeaf = true → n.hi = ⊤) (hlinked : F.LeafLinked z) :
    F'.LeafLinked z := by
  have hsplit := (hF.sound h.child).splitKey_lt_hi h.size a
  constructor
  · intro b lo entries next hb
    by_cases hbc : b = c
    · subst hbc
      cases n with
      | leaf lo' hi' entries' next' =>
          rw [h.left] at hb
          simp only [Node.splitLeft, Option.some.injEq, Node.leaf.injEq] at hb
          exact absurd (hb.2.1 ▸ hsplit) not_top_lt
      | inner =>
          rw [h.left] at hb
          simp [Node.splitLeft] at hb
    · by_cases hba : b = a
      · subst hba
        cases n with
        | leaf lo' hi' entries' next' =>
            rw [h.right] at hb
            simp only [Node.splitRight, Option.some.injEq,
              Node.leaf.injEq] at hb
            exact hb.2.2.2.symm
        | inner =>
            rw [h.right] at hb
            simp [Node.splitRight] at hb
      · exact hlinked.last ((h.other rfl hbc hba).mp hb)
  · intro b lo hi entries next hb hne
    by_cases hbc : b = c
    · subst hbc
      cases n with
      | leaf lo' hi' entries' next' =>
          rw [h.left] at hb
          simp only [Node.splitLeft, Option.some.injEq, Node.leaf.injEq] at hb
          obtain ⟨_, rfl, _, rfl⟩ := hb
          exact ⟨_, _, _, h.right⟩
      | inner =>
          rw [h.left] at hb
          simp [Node.splitLeft] at hb
    · by_cases hba : b = a
      · subst hba
        cases n with
        | leaf lo' hi' entries' next' =>
            rw [h.right] at hb
            simp only [Node.splitRight, Option.some.injEq,
              Node.leaf.injEq] at hb
            exact absurd (hb.2.1.symm.trans (hlast rfl)) hne
        | inner =>
            rw [h.right] at hb
            simp [Node.splitRight] at hb
      · obtain ⟨hi', entries', next', hnext⟩ :=
          hlinked.next ((h.other rfl hbc hba).mp hb) hne
        have hna : next ≠ a := by
          rintro rfl
          rw [h.fresh] at hnext
          cases hnext
        by_cases hnc : next = c
        · subst hnc
          rw [h.child, Option.some.injEq] at hnext
          subst hnext
          exact ⟨_, _, _, h.left⟩
        · exact ⟨hi', entries', next', (h.other rfl hnc hna).mpr hnext⟩

/-- Halves are never full. -/
theorem fullLast (h : Halves F F' z c n a) (hF : SearchTree F cap root)
    (hk : F.FullLast cap k) : F'.FullLast cap k := by
  have hsize := (hF.sound h.child).size_le
  have hfour := h.size
  intro b lo hi entries next hb hcovers hfull
  by_cases hbc : b = c
  · subst hbc
    have hleft := n.size_splitLeft_le a
    rw [h.left, Option.some.injEq] at hb
    rw [hb] at hleft
    change entries.length ≤ _ at hleft
    omega
  · by_cases hba : b = a
    · subst hba
      have hright := n.size_splitRight z
      rw [h.right, Option.some.injEq] at hb
      rw [hb] at hright
      change entries.length = _ at hright
      omega
    · exact hk ((h.other rfl hbc hba).mp hb) hcovers hfull

theorem cut_of_leaf (h : Halves F F' z c n a) (hleaf : n.isLeaf = true)
    (hne : n.hi ≠ ⊤) : F'.LeafCut z := by
  cases n with
  | leaf lo hi entries next => exact ⟨a, _, _, _, h.right, hne⟩
  | inner => simp [Node.isLeaf] at hleaf

theorem cut (h : Halves F F' z c n a) (hcut : F.LeafCut z) :
    F'.LeafCut z := by
  obtain ⟨b, lo, hi, entries, hb, hne⟩ := hcut
  by_cases hbc : b = c
  · subst hbc
    rw [h.child, Option.some.injEq] at hb
    exact h.cut_of_leaf (by rw [hb]; rfl) (by rw [hb]; exact hne)
  · have hba : b ≠ a := by
      rintro rfl
      rw [h.fresh] at hb
      cases hb
    exact ⟨b, lo, hi, entries, (h.other rfl hbc hba).mpr hb, hne⟩

/-- A split of a full node on the way to `k`. -/
theorem regrown (h : Halves F F' z c n a) (hF : SearchTree F cap root)
    (hcovers : n.Covers k) (hfull : n.size = cap) :
    Regrown cap z k F F' where
  linked hk hlinked := by
    refine h.linked hF ?_ hlinked
    intro hleaf
    cases n with
    | leaf lo hi entries next => exact hk h.child hcovers hfull
    | inner => simp [Node.isLeaf] at hleaf
  fullLast := h.fullLast hF
  cut := h.cut
  cuts hnot := by
    simp only [FullLast, not_forall] at hnot
    obtain ⟨b, lo, hi, entries, next, hb, hbk, hbfull, hne⟩ := hnot
    by_cases hbc : b = c
    · subst hbc
      rw [h.child, Option.some.injEq] at hb
      exact Or.inr (h.cut_of_leaf (by rw [hb]; rfl) (by rw [hb]; exact hne))
    · have hba : b ≠ a := by
        rintro rfl
        rw [h.fresh] at hb
        cases hb
      refine Or.inl fun hall => hne ?_
      exact hall ((h.other rfl hbc hba).mpr hb) hbk hbfull

end Halves

/-- One split of a full node of a search tree that covers the key. -/
def SplitsOn [Inhabited K] (cap : ℕ) (z : A) (k : K) (F F' : Forest A K V) :
    Prop :=
  ∃ root c n a, SearchTree F cap root ∧ Halves F F' z c n a ∧ n.Covers k ∧
    n.size = cap

/-! ## Edits -/

section Edits

variable [DecidableEq A] {F' : Forest A K V} {k : K} {z : A}
  {entries entries' : List (K × V)}

/-- Leaves keep their limits and neighbours. -/
theorem EditsLeaf.leaf (h : EditsLeaf F F' k entries entries') {a : A}
    {lo hi : K} {es : List (K × V)} {next : A}
    (ha : F' a = some (.leaf lo hi es next)) :
    ∃ es', F a = some (.leaf lo hi es' next) := by
  obtain ⟨b, lo', hi', next', hb, _, rfl⟩ := h.covers
  by_cases hab : a = b
  · subst hab
    rw [Function.update_self, Option.some.injEq, Node.leaf.injEq] at ha
    obtain ⟨rfl, rfl, _, rfl⟩ := ha
    exact ⟨_, hb⟩
  · rw [Function.update_of_ne hab] at ha
    exact ⟨_, ha⟩

theorem EditsLeaf.exists_leaf (h : EditsLeaf F F' k entries entries')
    {a : A} {lo hi : K} {es : List (K × V)} {next : A}
    (ha : F a = some (.leaf lo hi es next)) :
    ∃ es', F' a = some (.leaf lo hi es' next) := by
  obtain ⟨b, lo', hi', next', hb, _, rfl⟩ := h.covers
  by_cases hab : a = b
  · subst hab
    rw [hb, Option.some.injEq, Node.leaf.injEq] at ha
    obtain ⟨rfl, rfl, _, rfl⟩ := ha
    exact ⟨_, Function.update_self ..⟩
  · exact ⟨es, by rw [Function.update_of_ne hab, ha]⟩

theorem EditsLeaf.linked (h : EditsLeaf F F' k entries entries')
    (hF : F.LeafLinked z) : F'.LeafLinked z where
  last ha := by
    obtain ⟨_, ha'⟩ := h.leaf ha
    exact hF.last ha'
  next ha hne := by
    obtain ⟨_, ha'⟩ := h.leaf ha
    obtain ⟨hi', es, next', hnext⟩ := hF.next ha' hne
    obtain ⟨es', hnext'⟩ := h.exists_leaf hnext
    exact ⟨hi', es', next', hnext'⟩

theorem EditsLeaf.cut (h : EditsLeaf F F' k entries entries')
    (hF : F.LeafCut z) : F'.LeafCut z := by
  obtain ⟨a, lo, hi, es, ha, hne⟩ := hF
  obtain ⟨es', ha'⟩ := h.exists_leaf ha
  exact ⟨a, lo, hi, es', ha', hne⟩

end Edits

end Forest

end Ordered

end CachingDex.Lib
