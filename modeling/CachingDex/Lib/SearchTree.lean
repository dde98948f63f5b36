import CachingDex.Lib.SearchForest

/-!
# Search trees over addresses

A forest is a search tree when its nodes are reachable from one root that
covers every key, the separators of each node increase strictly between its
limits, and the entries of each leaf are sorted and inside its interval.
Leaves of such a tree have disjoint intervals and the descent by lower bound
reaches the leaf that covers the searched key, so the pairs stored in the
leaves form a finite map that the descent reads.
-/

namespace CachingDex.Lib

variable {A K V : Type} [LinearOrder K] [BoundedOrder K]

/-- `k` lies in the interval open at `lo` and closed at `hi`; the least key
belongs to the leftmost interval. -/
def Covers (lo hi k : K) : Prop :=
  (k = ⊥ ∧ k = lo) ∨ (lo < k ∧ k ≤ hi)

theorem Covers.lo_le {lo hi k : K} (h : Covers lo hi k) : lo ≤ k := by
  rcases h with ⟨_, h⟩ | ⟨h, _⟩
  · exact h.ge
  · exact h.le

theorem Covers.le_hi {lo hi k : K} (h : Covers lo hi k) : k ≤ hi := by
  rcases h with ⟨h, _⟩ | ⟨_, h⟩
  · exact h ▸ bot_le
  · exact h

theorem covers_top (k : K) : Covers ⊥ ⊤ k := by
  rcases eq_or_ne k ⊥ with h | h
  · exact Or.inl ⟨h, h⟩
  · exact Or.inr ⟨bot_lt_iff_ne_bot.mpr h, le_top⟩

/-- Two intervals, one after the other, cover no key both. -/
theorem Covers.not_of_le {lo hi lo' hi' k : K} (h : Covers lo hi k)
    (hlt : lo < hi) (hle : hi ≤ lo') : ¬ Covers lo' hi' k := by
  rintro (⟨hk, hlo'⟩ | ⟨hlo', _⟩)
  · have hbot : lo' = ⊥ := hlo'.symm.trans hk
    rw [hbot] at hle
    exact not_lt_bot (hlt.trans_le hle)
  · exact absurd (h.le_hi.trans hle) (not_le.mpr hlo')

namespace Node

/-- The key belongs to the interval of the node. -/
protected def Covers (n : Node A K V) (k : K) : Prop :=
  Lib.Covers n.lo n.hi k

/-- A node that is in order by itself. -/
structure Sound (cap : ℕ) (n : Node A K V) : Prop where
  ordered : n.bounds.Pairwise (· < ·)
  entries_sorted : SortedEntries n.entries
  entries_covered : ∀ e ∈ n.entries, n.Covers e.1
  size_le : n.size ≤ cap

namespace Sound

variable [Inhabited K] {cap : ℕ} {n : Node A K V}

omit [Inhabited K] in
theorem lo_lt_hi (h : n.Sound cap) : n.lo < n.hi := by
  have hordered := h.ordered
  rw [bounds, List.pairwise_cons] at hordered
  exact hordered.1 n.hi (by simp)

omit [Inhabited K] in
theorem keys_sorted (h : n.Sound cap) : n.keys.Pairwise (· < ·) := by
  have hordered := h.ordered
  rw [bounds, List.pairwise_cons] at hordered
  exact hordered.2.sublist (List.sublist_append_left _ _)

omit [Inhabited K] in
theorem lo_lt_key (h : n.Sound cap) {k : K} (hk : k ∈ n.keys) : n.lo < k := by
  have hordered := h.ordered
  rw [bounds, List.pairwise_cons] at hordered
  exact hordered.1 k (by simp [hk])

omit [Inhabited K] in
theorem key_lt_hi (h : n.Sound cap) {k : K} (hk : k ∈ n.keys) : k < n.hi := by
  have hordered := h.ordered
  rw [bounds, List.pairwise_cons, List.pairwise_append] at hordered
  exact hordered.2.2.2 k hk n.hi (by simp)

omit [Inhabited K] in
/-- The lower bound of a covered key picks the slot that covers it. -/
theorem covers_slot (h : n.Sound cap) {k : K} (hk : n.Covers k) {lo hi : K}
    (hlo : n.bounds[lowerIdx k n.keys]? = some lo)
    (hhi : n.bounds[lowerIdx k n.keys + 1]? = some hi) :
    Lib.Covers lo hi k := by
  have hkhi : k ≤ hi := by
    simp only [bounds, List.getElem?_cons_succ] at hhi
    by_cases hlt : lowerIdx k n.keys < n.keys.length
    · rw [List.getElem?_append_left hlt, List.getElem?_eq_getElem hlt,
        Option.some.injEq] at hhi
      rw [← hhi]
      exact le_of_lowerIdx_le h.keys_sorted hlt le_rfl
    · have heq : lowerIdx k n.keys = n.keys.length :=
        le_antisymm (lowerIdx_le_length k n.keys) (not_lt.mp hlt)
      rw [heq, List.getElem?_append_right le_rfl] at hhi
      simp only [Nat.sub_self, List.getElem?_cons_zero,
        Option.some.injEq] at hhi
      rw [← hhi]
      exact hk.le_hi
  rcases Nat.eq_zero_or_pos (lowerIdx k n.keys) with hzero | hpos
  · rw [hzero] at hlo
    simp only [bounds, List.getElem?_cons_zero, Option.some.injEq] at hlo
    rcases hk with ⟨hbot, hkey⟩ | ⟨hlt, _⟩
    · exact Or.inl ⟨hbot, hkey.trans hlo⟩
    · exact Or.inr ⟨hlo ▸ hlt, hkhi⟩
  · obtain ⟨i, hi'⟩ : ∃ i, lowerIdx k n.keys = i + 1 :=
      ⟨lowerIdx k n.keys - 1, by omega⟩
    obtain ⟨hlength, hbelow⟩ :=
      lt_of_lt_lowerIdx (show i < lowerIdx k n.keys by omega)
    rw [hi'] at hlo
    simp only [bounds, List.getElem?_cons_succ] at hlo
    rw [List.getElem?_append_left hlength, List.getElem?_eq_getElem hlength,
      Option.some.injEq] at hlo
    exact Or.inr ⟨hlo ▸ hbelow, hkhi⟩

omit [Inhabited K] in
/-- A key inside the interval of a slot has that slot as its lower bound. -/
theorem lowerIdx_eq (h : n.Sound cap) {i : ℕ} {lo hi k : K}
    (hlo : n.bounds[i]? = some lo) (hhi : n.bounds[i + 1]? = some hi)
    (hlt : lo < k) (hle : k ≤ hi) : lowerIdx k n.keys = i := by
  have hlength : i ≤ n.keys.length := by
    have := (List.getElem?_eq_some_iff.mp hhi).1
    simp only [bounds, List.length_cons, List.length_append,
      List.length_nil] at this
    omega
  have hkey : ∀ j (hj : j < n.keys.length),
      n.bounds[j + 1]? = some n.keys[j] := by
    intro j hj
    rw [bounds, List.getElem?_cons_succ, List.getElem?_append_left hj,
      List.getElem?_eq_getElem hj]
  apply lowerIdx_unique hlength
  · intro j hj hji
    rcases Nat.eq_or_lt_of_le (show j + 1 ≤ i by omega) with heq | hless
    · have := hkey j hj
      rw [heq, hlo, Option.some.injEq] at this
      rwa [← this]
    · refine lt_trans ?_ hlt
      obtain ⟨hb, hget⟩ := List.getElem?_eq_some_iff.mp (hkey j hj)
      obtain ⟨hb', hget'⟩ := List.getElem?_eq_some_iff.mp hlo
      have := List.pairwise_iff_getElem.mp h.ordered _ _ hb hb' hless
      rwa [hget, hget'] at this
  · intro hi'
    have := hkey i hi'
    rw [hhi, Option.some.injEq] at this
    rwa [← this]

/-- The promoted key of a leaf ends its lower half. -/
theorem leaf_splitKey {lo hi : K} {entries : List (K × V)} {next : A}
    (h : (leaf lo hi entries next : Node A K V).Sound cap)
    (hsize : 4 ≤ entries.length) :
    (∀ e ∈ entries.take (entries.length / 2),
      e.1 ≤ (leaf lo hi entries next : Node A K V).splitKey) ∧
    (∀ e ∈ entries.drop (entries.length / 2),
      (leaf lo hi entries next : Node A K V).splitKey < e.1) ∧
    lo < (leaf lo hi entries next : Node A K V).splitKey ∧
    (leaf lo hi entries next : Node A K V).splitKey < hi := by
  have hsorted : SortedEntries entries := h.entries_sorted
  have hget := List.pairwise_iff_getElem.mp hsorted
  have hat : entries.length / 2 - 1 < entries.length := by omega
  have hsep : (leaf lo hi entries next : Node A K V).splitKey =
      (entries[entries.length / 2 - 1]).1 := by
    simp [splitKey, hat]
  rw [hsep]
  have hright : ∀ e ∈ entries.drop (entries.length / 2),
      (entries[entries.length / 2 - 1]).1 < e.1 := by
    intro e he
    obtain ⟨i, hi', rfl⟩ := List.getElem_of_mem he
    rw [List.getElem_drop]
    simp only [List.length_drop] at hi'
    exact hget _ _ hat (by omega) (by omega)
  refine ⟨?_, hright, ?_, ?_⟩
  · intro e he
    obtain ⟨i, hi', rfl⟩ := List.getElem_of_mem he
    simp only [List.length_take] at hi'
    rw [List.getElem_take]
    rcases Nat.lt_or_ge i (entries.length / 2 - 1) with hlt | hge
    · exact (hget _ _ (by omega) hat hlt).le
    · have heq : i = entries.length / 2 - 1 := by omega
      simp [heq]
  · have hfirst : (entries[0]).1 < (entries[entries.length / 2 - 1]).1 :=
      hget _ _ (by omega) hat (by omega)
    have hcovered := h.entries_covered (entries[0])
      (List.getElem_mem (l := entries) (by omega))
    exact hcovered.lo_le.trans_lt hfirst
  · have hcovered := h.entries_covered (entries[entries.length / 2])
      (List.getElem_mem (l := entries) (by omega))
    refine lt_of_lt_of_le (hright _ ?_) hcovered.le_hi
    rw [List.mem_drop_iff_getElem]
    exact ⟨0, by omega, by simp⟩

theorem splitLeft (h : n.Sound cap) (hsize : 4 ≤ n.size) (a : A) :
    (n.splitLeft a).Sound cap := by
  cases n with
  | leaf lo hi entries next =>
      obtain ⟨hleft, _, hlo, _⟩ := h.leaf_splitKey hsize
      constructor
      · simpa [Node.splitLeft, bounds, Node.lo, Node.hi, keys] using hlo
      · exact h.entries_sorted.sublist (List.take_sublist _ _)
      · intro e he
        have hcovered := h.entries_covered e (List.mem_of_mem_take he)
        rcases hcovered with hbot | ⟨hlt, _⟩
        · exact Or.inl hbot
        · exact Or.inr ⟨hlt, hleft e he⟩
      · have := h.size_le
        simp only [Node.splitLeft, size, List.length_take] at this ⊢
        omega
  | inner level lo hi keys children =>
      constructor
      · rw [bounds_splitLeft (by simp only [size] at hsize; omega)]
        exact h.ordered.sublist (List.take_sublist _ _)
      · exact List.Pairwise.nil
      · intro e he
        simp [Node.splitLeft, entries] at he
      · have := h.size_le
        simp only [Node.splitLeft, size, List.length_take] at this ⊢
        omega

theorem splitRight (h : n.Sound cap) (hsize : 4 ≤ n.size) (a : A) :
    (n.splitRight a).Sound cap := by
  cases n with
  | leaf lo hi entries next =>
      obtain ⟨_, hright, _, hhi⟩ := h.leaf_splitKey hsize
      constructor
      · simpa [Node.splitRight, bounds, Node.lo, Node.hi, keys] using hhi
      · exact h.entries_sorted.sublist (List.drop_sublist _ _)
      · intro e he
        have hcovered := h.entries_covered e (List.mem_of_mem_drop he)
        exact Or.inr ⟨hright e he, hcovered.le_hi⟩
      · have := h.size_le
        simp only [Node.splitRight, size, List.length_drop] at this ⊢
        omega
  | inner level lo hi keys children =>
      constructor
      · rw [bounds_splitRight (by simp only [size] at hsize; omega)]
        exact h.ordered.sublist (List.drop_sublist _ _)
      · exact List.Pairwise.nil
      · intro e he
        simp [Node.splitRight, entries] at he
      · have := h.size_le
        simp only [Node.splitRight, size, List.length_drop] at this ⊢
        omega

theorem lo_lt_splitKey (h : n.Sound cap) (hsize : 4 ≤ n.size) (a : A) :
    n.lo < n.splitKey := by
  have := (h.splitLeft hsize a).lo_lt_hi
  simpa using this

theorem splitKey_lt_hi (h : n.Sound cap) (hsize : 4 ≤ n.size) (a : A) :
    n.splitKey < n.hi := by
  have := (h.splitRight hsize a).lo_lt_hi
  simpa using this

end Sound

end Node

namespace Forest

/-- Addresses reached from `root` along child addresses. -/
inductive Reach (F : Forest A K V) (root : A) : A → Prop where
  | root : Reach F root root
  | child {a c : A} {n : Node A K V} {i : ℕ} (ha : Reach F root a)
      (hn : F a = some n) (hc : n.children[i]? = some c) : Reach F root c

/-- Some leaf pairs `k` with `v`. -/
def Stored (F : Forest A K V) (k : K) (v : V) : Prop :=
  ∃ a n, F a = some n ∧ (k, v) ∈ n.entries

end Forest

/-- A forest whose nodes hang below `root` in key order. -/
structure SearchTree (F : Forest A K V) (cap : ℕ) (root : A) : Prop where
  linked : F.Linked fun _ => False
  root_node : ∃ r, F root = some r ∧ r.lo = ⊥ ∧ r.hi = ⊤
  reach : ∀ {a : A} {n : Node A K V}, F a = some n → F.Reach root a
  sound : ∀ {a : A} {n : Node A K V}, F a = some n → n.Sound cap
  not_child : ¬ F.IsChild root

namespace SearchTree

/-- One empty leaf over all keys is a search tree. -/
theorem single [DecidableEq A] (hlt : (⊥ : K) < ⊤) (cap : ℕ) (a z : A) :
    SearchTree (Function.update (fun _ => none) a (some (.leaf ⊥ ⊤ [] z)) :
      Forest A K V) cap a := by
  have honly : ∀ {b : A} {n : Node A K V},
      (Function.update (fun _ => none) a (some (.leaf ⊥ ⊤ [] z)) :
        Forest A K V) b = some n → b = a ∧ n = .leaf ⊥ ⊤ [] z := by
    intro b n hn
    by_cases hb : b = a
    · subst hb
      rw [Function.update_self, Option.some.injEq] at hn
      exact ⟨rfl, hn.symm⟩
    · rw [Function.update_of_ne hb] at hn
      cases hn
  have hfree : ∀ {b c : A} {n : Node A K V} {i : ℕ},
      (Function.update (fun _ => none) a (some (.leaf ⊥ ⊤ [] z)) :
        Forest A K V) b = some n → n.children[i]? ≠ some c := by
    intro b c n i hn hc
    obtain ⟨_, rfl⟩ := honly hn
    simp [Node.children] at hc
  constructor
  · constructor
    · intro b n hn hleaf
      obtain ⟨_, rfl⟩ := honly hn
      simp [Node.isLeaf] at hleaf
    · exact fun hn hc => absurd hc (hfree hn)
    · exact fun hn hc => absurd hc (hfree hn)
    · exact fun hn _ hc => absurd hc (hfree hn)
  · exact ⟨_, Function.update_self .., rfl, rfl⟩
  · intro b n hn
    obtain ⟨rfl, _⟩ := honly hn
    exact .root
  · intro b n hn
    obtain ⟨_, rfl⟩ := honly hn
    refine ⟨?_, List.Pairwise.nil, ?_, Nat.zero_le cap⟩
    · simpa [Node.bounds, Node.lo, Node.keys, Node.hi] using hlt
    · intro e he
      simp [Node.entries] at he
  · rintro ⟨b, n, i, hn, hc⟩
    exact hfree hn hc

variable {F : Forest A K V} {cap : ℕ} {root : A}

theorem limits (h : SearchTree F cap root) {a c : A} {n m : Node A K V}
    {i : ℕ} (hn : F a = some n) (hc : n.children[i]? = some c)
    (hm : F c = some m) :
    n.bounds[i]? = some m.lo ∧ n.bounds[i + 1]? = some m.hi :=
  h.linked.limits hn hc hm not_false

/-- Every node but the root is a child. -/
theorem eq_root (h : SearchTree F cap root) {a : A} {n : Node A K V}
    (hn : F a = some n) (hfree : ¬ F.IsChild a) : a = root := by
  cases h.reach hn with
  | root => rfl
  | child _ hm hc => exact absurd ⟨_, _, _, hm, hc⟩ hfree

/-- A child's interval lies inside its parent's. -/
theorem child_within (h : SearchTree F cap root) {a c : A}
    {n m : Node A K V} {i : ℕ} (hn : F a = some n)
    (hc : n.children[i]? = some c) (hm : F c = some m) :
    n.lo ≤ m.lo ∧ m.hi ≤ n.hi := by
  obtain ⟨hlo, hhi⟩ := h.limits hn hc hm
  have hordered := (h.sound hn).ordered
  have hfirst : n.bounds[0]? = some n.lo := rfl
  have hlast : n.bounds[n.bounds.length - 1]? = some n.hi := by
    rw [← List.getLast?_eq_getElem?]
    simp [Node.bounds, List.getLast?_cons]
  have hle : ∀ {i j : ℕ} {x y : K}, n.bounds[i]? = some x →
      n.bounds[j]? = some y → i ≤ j → x ≤ y := by
    intro i j x y hx hy hij
    obtain ⟨hi, rfl⟩ := List.getElem?_eq_some_iff.mp hx
    obtain ⟨hj, rfl⟩ := List.getElem?_eq_some_iff.mp hy
    rcases Nat.eq_or_lt_of_le hij with rfl | hlt
    · exact le_rfl
    · exact (List.pairwise_iff_getElem.mp hordered _ _ hi hj hlt).le
  have hin := (List.getElem?_eq_some_iff.mp hhi).1
  exact ⟨hle hfirst hlo (Nat.zero_le i), hle hhi hlast (by omega)⟩

/-- Two different nodes of one level have disjoint intervals. -/
theorem apart (h : SearchTree F cap root) {a b : A} {n m : Node A K V}
    (hn : F a = some n) (hm : F b = some m) (hne : a ≠ b)
    (hlevel : n.level = m.level) : n.hi ≤ m.lo ∨ m.hi ≤ n.lo := by
  obtain ⟨r, hr, _⟩ := h.root_node
  have hbelow : ∀ {a : A}, F.Reach root a → ∀ {n : Node A K V},
      F a = some n → a ≠ root → n.level < r.level := by
    intro a ha
    induction ha with
    | root => exact fun _ hne => absurd rfl hne
    | @child a c n' i _ hn' hc ih =>
        intro n hn _
        have hlt := h.linked.level_lt hn' hc hn
        by_cases heq : a = root
        · subst heq
          rw [hr, Option.some.injEq] at hn'
          exact hn' ▸ hlt
        · exact hlt.trans (ih hn' heq)
  -- climb both nodes to their parents until these coincide
  have hclimb : ∀ {a : A}, F.Reach root a → ∀ {b : A} {n m : Node A K V},
      F a = some n → F b = some m → a ≠ b → n.level = m.level →
        n.hi ≤ m.lo ∨ m.hi ≤ n.lo := by
    intro a ha
    induction ha with
    | root =>
        intro b n m hn hm hne hlevel
        have hlt := hbelow (h.reach hm) hm (Ne.symm hne)
        rw [hr, Option.some.injEq] at hn
        subst hn
        omega
    | @child p a np i hp hnp hi ih =>
        intro b n m hn hm hne hlevel
        cases h.reach hm with
        | root =>
            have hlt := hbelow (Forest.Reach.child hp hnp hi) hn hne
            rw [hr, Option.some.injEq] at hm
            subst hm
            omega
        | @child q _ nq j hq hnq hj =>
            obtain ⟨hnlo, hnhi⟩ := h.limits hnp hi hn
            obtain ⟨hmlo, hmhi⟩ := h.limits hnq hj hm
            by_cases hpq : p = q
            · subst hpq
              rw [hnp, Option.some.injEq] at hnq
              subst hnq
              have hij : i ≠ j := by
                rintro rfl
                exact hne (Option.some.inj (hi.symm.trans hj))
              have hle : ∀ {i j : ℕ} {x y : K}, np.bounds[i]? = some x →
                  np.bounds[j]? = some y → i ≤ j → x ≤ y := by
                intro i j x y hx hy hij
                obtain ⟨hi, rfl⟩ := List.getElem?_eq_some_iff.mp hx
                obtain ⟨hj, rfl⟩ := List.getElem?_eq_some_iff.mp hy
                rcases Nat.eq_or_lt_of_le hij with rfl | hlt
                · exact le_rfl
                · exact (List.pairwise_iff_getElem.mp (h.sound hnp).ordered
                    _ _ hi hj hlt).le
              rcases Nat.lt_or_gt_of_ne hij with hlt | hlt
              · exact Or.inl (hle hnhi hmlo (by omega))
              · exact Or.inr (hle hmhi hnlo (by omega))
            · obtain ⟨n', hn', hnl⟩ := h.linked.child hnp hi
              obtain ⟨m', hm', hml⟩ := h.linked.child hnq hj
              rw [hn, Option.some.injEq] at hn'
              rw [hm, Option.some.injEq] at hm'
              subst hn'
              subst hm'
              have hnin := h.child_within hnp hi hn
              have hmin := h.child_within hnq hj hm
              rcases ih hnp hnq hpq (by omega) with hle | hle
              · exact Or.inl (hnin.2.trans (hle.trans hmin.1))
              · exact Or.inr (hmin.2.trans (hle.trans hnin.1))
  exact hclimb (h.reach hn) hn hm hne hlevel

/-- At most one node of a level covers a key. -/
theorem covers_unique (h : SearchTree F cap root) {a b : A}
    {n m : Node A K V} {k : K} (hn : F a = some n) (hm : F b = some m)
    (hlevel : n.level = m.level) (hnk : n.Covers k) (hmk : m.Covers k) :
    a = b := by
  by_contra hne
  rcases h.apart hn hm hne hlevel with hle | hle
  · exact hnk.not_of_le (h.sound hn).lo_lt_hi hle hmk
  · exact hmk.not_of_le (h.sound hm).lo_lt_hi hle hnk

/-- The descent by lower bound stays with the searched key. -/
theorem covers_child (h : SearchTree F cap root) {a c : A}
    {n m : Node A K V} {k : K} (hn : F a = some n) (hk : n.Covers k)
    (hc : n.children[lowerIdx k n.keys]? = some c) (hm : F c = some m) :
    m.Covers k := by
  obtain ⟨hlo, hhi⟩ := h.limits hn hc hm
  exact (h.sound hn).covers_slot hk hlo hhi

/-- What the tree stores under a key is what the covering leaf holds. -/
theorem stored_iff (h : SearchTree F cap root) {a : A} {n : Node A K V}
    {k : K} (hn : F a = some n) (hleaf : n.isLeaf = true)
    (hk : n.Covers k) {v : V} : F.Stored k v ↔ (k, v) ∈ n.entries := by
  constructor
  · rintro ⟨b, m, hm, hmem⟩
    have hmleaf : m.isLeaf = true := by
      by_contra hnot
      rw [Node.entries_eq_nil (by simpa using hnot)] at hmem
      exact List.not_mem_nil hmem
    have hmk := (h.sound hm).entries_covered _ hmem
    have hlevel : n.level = m.level := by
      rw [Node.level_eq_zero_of_isLeaf hleaf,
        Node.level_eq_zero_of_isLeaf hmleaf]
    obtain rfl := h.covers_unique hn hm hlevel hk hmk
    rw [hn, Option.some.injEq] at hm
    exact hm ▸ hmem
  · exact fun hmem => ⟨a, n, hn, hmem⟩

end SearchTree

end CachingDex.Lib
