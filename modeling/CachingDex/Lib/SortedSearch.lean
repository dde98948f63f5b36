import Mathlib.Tactic

/-!
# Binary search in sorted sequences, and sorted association lists

`search` is the usual half-interval search with an early exit on a hit.  Its
value is always a position of the searched interval; on a strictly
increasing sequence it is the lower bound `lowerIdx`, the first position
whose key is not below the searched one.

The second half treats a list of pairs with strictly increasing keys as a
finite map and describes insertion, overwriting and deletion at the lower
bound by the pairs they leave behind.
-/

namespace CachingDex.Lib

variable {K V : Type} [LinearOrder K]

/-- Half-interval search for `k` between `lower` and `upper`. -/
def search (key : ℕ → K) (k : K) : ℕ → ℕ → ℕ → ℕ
  | 0, lower, _ => lower
  | fuel + 1, lower, upper =>
      if lower < upper then
        let mid := (upper - lower) / 2 + lower
        if k = key mid then mid
        else if key mid < k then search key k fuel (mid + 1) upper
        else search key k fuel lower mid
      else lower

/-- The first position whose key is at least `k`. -/
def lowerIdx (k : K) (keys : List K) : ℕ :=
  keys.findIdx fun x => k ≤ x

theorem search_bounds (key : ℕ → K) (k : K) (fuel : ℕ) {lower upper : ℕ}
    (h : lower ≤ upper) :
    lower ≤ search key k fuel lower upper ∧
      search key k fuel lower upper ≤ upper := by
  induction fuel generalizing lower upper with
  | zero => simp [search, h]
  | succ fuel ih =>
      simp only [search]
      split_ifs with hlt heq hkey
      · omega
      · have hnext := ih (show (upper - lower) / 2 + lower + 1 ≤ upper by omega)
        omega
      · have hnext := ih (show lower ≤ (upper - lower) / 2 + lower by omega)
        omega
      · omega

theorem lowerIdx_le_length (k : K) (keys : List K) :
    lowerIdx k keys ≤ keys.length :=
  List.findIdx_le_length

theorem lt_of_lt_lowerIdx {k : K} {keys : List K} {i : ℕ}
    (hi : i < lowerIdx k keys) :
    ∃ h : i < keys.length, keys[i] < k := by
  have hlength : i < keys.length :=
    lt_of_lt_of_le hi (lowerIdx_le_length k keys)
  have hnot := List.not_of_lt_findIdx hi
  exact ⟨hlength, by simpa using hnot⟩

theorem le_of_lowerIdx_le {k : K} {keys : List K}
    (hsorted : keys.Pairwise (· < ·)) {i : ℕ} (hi : i < keys.length)
    (hle : lowerIdx k keys ≤ i) : k ≤ keys[i] := by
  have hfound : lowerIdx k keys < keys.length := by omega
  have hat : k ≤ keys[lowerIdx k keys] := by
    have hhit := List.findIdx_getElem (w := hfound)
    exact of_decide_eq_true hhit
  rcases Nat.eq_or_lt_of_le hle with heq | hlt
  · simpa [heq] using hat
  · have := List.pairwise_iff_getElem.mp hsorted _ _ hfound hi hlt
    exact hat.trans this.le

/-- The lower bound is the only position with smaller keys before it and no
smaller key from it on. -/
theorem lowerIdx_unique {k : K} {keys : List K} {pos : ℕ}
    (hpos : pos ≤ keys.length)
    (hbelow : ∀ i (h : i < keys.length), i < pos → keys[i] < k)
    (habove : ∀ h : pos < keys.length, k ≤ keys[pos]) :
    lowerIdx k keys = pos := by
  rcases Nat.eq_or_lt_of_le hpos with heq | hlt
  · subst heq
    apply List.findIdx_eq_length.mpr
    intro x hx
    obtain ⟨i, hi, rfl⟩ := List.getElem_of_mem hx
    simpa using hbelow i hi hi
  · apply (List.findIdx_eq hlt).mpr
    refine ⟨by simpa using habove hlt, ?_⟩
    intro j hj
    simpa using hbelow j (by omega) hj

/-- On a strictly increasing sequence the search returns the lower bound. -/
theorem search_eq_lowerIdx {key : ℕ → K} {keys : List K}
    (hkey : ∀ i (h : i < keys.length), key i = keys[i])
    (hsorted : keys.Pairwise (· < ·)) (k : K) (fuel : ℕ) {lower upper : ℕ}
    (hle : lower ≤ upper) (hfuel : upper - lower ≤ fuel)
    (hupper : upper ≤ keys.length)
    (hbelow : ∀ i (h : i < keys.length), i < lower → keys[i] < k)
    (habove : ∀ h : upper < keys.length, k ≤ keys[upper]) :
    search key k fuel lower upper = lowerIdx k keys := by
  have hincreasing := List.pairwise_iff_getElem.mp hsorted
  induction fuel generalizing lower upper with
  | zero =>
      have heq : upper = lower := by omega
      subst heq
      exact (lowerIdx_unique hupper hbelow habove).symm
  | succ fuel ih =>
      simp only [search]
      split_ifs with hlt heq hmid
      · have hin : (upper - lower) / 2 + lower < keys.length := by omega
        rw [hkey _ hin] at heq
        refine (lowerIdx_unique hin.le ?_ ?_).symm
        · intro i hi hbefore
          exact heq ▸ hincreasing i _ hi hin hbefore
        · intro _
          exact heq.le
      · have hin : (upper - lower) / 2 + lower < keys.length := by omega
        rw [hkey _ hin] at hmid
        apply ih (by omega) (by omega) hupper _ habove
        intro i hi hbefore
        rcases Nat.lt_succ_iff_lt_or_eq.mp hbefore with hbefore | hbefore
        · exact (hincreasing i _ hi hin hbefore).trans hmid
        · simpa [hbefore] using hmid
      · have hin : (upper - lower) / 2 + lower < keys.length := by omega
        rw [hkey _ hin] at hmid
        exact ih (by omega) (by omega) (by omega) hbelow
          fun _ => not_lt.mp hmid
      · have heq : upper = lower := by omega
        subst heq
        exact (lowerIdx_unique hupper hbelow habove).symm

/-! ## Lower bounds and cuts -/

theorem lowerIdx_mono {keys : List K} (hsorted : keys.Pairwise (· < ·))
    {a b : K} (h : a ≤ b) : lowerIdx a keys ≤ lowerIdx b keys := by
  by_contra hlt
  obtain ⟨hlength, hbelow⟩ := lt_of_lt_lowerIdx (not_le.mp hlt)
  have habove := le_of_lowerIdx_le hsorted hlength le_rfl
  exact absurd (habove.trans_lt hbelow) (not_lt.mpr h)

theorem lowerIdx_cons_of_le {k x : K} (h : k ≤ x) (keys : List K) :
    lowerIdx k (x :: keys) = 0 := by
  simp [lowerIdx, List.findIdx_cons, h]

theorem lowerIdx_cons_of_lt {k x : K} (h : x < k) (keys : List K) :
    lowerIdx k (x :: keys) = lowerIdx k keys + 1 := by
  simp [lowerIdx, List.findIdx_cons, not_le.mpr h]

/-- Keys behind one that is not smaller do not matter. -/
theorem lowerIdx_append_of_le {k x : K} (h : k ≤ x) (front back : List K) :
    lowerIdx k (front ++ x :: back) = lowerIdx k front := by
  induction front with
  | nil => exact lowerIdx_cons_of_le h back
  | cons y front ih =>
      rcases le_or_gt k y with hy | hy
      · rw [List.cons_append, lowerIdx_cons_of_le hy, lowerIdx_cons_of_le hy]
      · rw [List.cons_append, lowerIdx_cons_of_lt hy, lowerIdx_cons_of_lt hy,
          ih]

theorem lowerIdx_append_of_lt {k : K} {front : List K}
    (h : ∀ x ∈ front, x < k) (back : List K) :
    lowerIdx k (front ++ back) = front.length + lowerIdx k back := by
  induction front with
  | nil => simp
  | cons y front ih =>
      rw [List.cons_append, lowerIdx_cons_of_lt (h y (by simp)),
        ih fun x hx => h x (by simp [hx]), List.length_cons]
      omega

/-- A new key moves the lower bounds of the keys above it by one. -/
theorem lowerIdx_insert {k : K} {below above : List K}
    (hbelow : ∀ x ∈ below, x < k) (habove : ∀ x ∈ above, k < x) (x : K) :
    lowerIdx x (below ++ k :: above) =
      if k < x then lowerIdx x (below ++ above) + 1
      else lowerIdx x (below ++ above) := by
  split_ifs with hlt
  · have hbelow' : ∀ y ∈ below, y < x := fun y hy => (hbelow y hy).trans hlt
    rw [lowerIdx_append_of_lt hbelow', lowerIdx_append_of_lt hbelow',
      lowerIdx_cons_of_lt hlt]
    omega
  · have hle := not_lt.mp hlt
    rw [lowerIdx_append_of_le hle]
    cases above with
    | nil => simp
    | cons y above =>
        rw [lowerIdx_append_of_le (hle.trans (habove y (by simp)).le)]

/-- Sorted keys are cut at a key that is not among them. -/
theorem cut_at_lowerIdx {k : K} {keys : List K}
    (hsorted : keys.Pairwise (· < ·)) (hk : k ∉ keys) :
    (∀ x ∈ keys.take (lowerIdx k keys), x < k) ∧
      ∀ x ∈ keys.drop (lowerIdx k keys), k < x := by
  constructor
  · intro x hx
    obtain ⟨i, hi, rfl⟩ := List.mem_take_iff_getElem.mp hx
    have hlt : i < lowerIdx k keys := by omega
    exact (lt_of_lt_lowerIdx hlt).2
  · intro x hx
    obtain ⟨i, hi, rfl⟩ := List.mem_drop_iff_getElem.mp hx
    have hat : lowerIdx k keys + i < keys.length := by omega
    have hle : k ≤ keys[lowerIdx k keys + i] :=
      le_of_lowerIdx_le hsorted hat (Nat.le_add_right _ _)
    refine lt_of_le_of_ne hle fun heq => hk ?_
    exact heq ▸ List.getElem_mem hat

/-! ## Sorted association lists -/

theorem insertIdx_length_append {α : Type} (front back : List α) (x : α) :
    (front ++ back).insertIdx front.length x = front ++ x :: back := by
  induction front with
  | nil => simp
  | cons y front ih => simp [ih]

theorem insertIdx_eq_take_drop {α : Type} {l : List α} {i : ℕ}
    (hi : i ≤ l.length) (x : α) :
    l.insertIdx i x = l.take i ++ x :: l.drop i := by
  have h := insertIdx_length_append (l.take i) (l.drop i) x
  rwa [List.take_append_drop, List.length_take_of_le hi] at h

/-- A value between two neighbours can be inserted between them. -/
theorem pairwise_insertIdx {l : List K} (h : l.Pairwise (· < ·)) {i : ℕ}
    {lo hi x : K} (hlo : l[i]? = some lo) (hhi : l[i + 1]? = some hi)
    (hlt : lo < x) (hgt : x < hi) :
    (l.insertIdx (i + 1) x).Pairwise (· < ·) := by
  obtain ⟨hi', rfl⟩ := List.getElem?_eq_some_iff.mp hlo
  obtain ⟨hi'', rfl⟩ := List.getElem?_eq_some_iff.mp hhi
  have hget := List.pairwise_iff_getElem.mp h
  have hbelow : ∀ y ∈ l.take (i + 1), y < x := by
    intro y hy
    obtain ⟨j, hj, rfl⟩ := List.getElem_of_mem hy
    rw [List.length_take] at hj
    rw [List.getElem_take]
    rcases Nat.lt_or_ge j i with hji | hji
    · exact (hget j i (by omega) hi' hji).trans hlt
    · obtain rfl : j = i := by omega
      exact hlt
  have habove : ∀ y ∈ l.drop (i + 1), x < y := by
    intro y hy
    obtain ⟨j, hj, rfl⟩ := List.getElem_of_mem hy
    rw [List.length_drop] at hj
    rw [List.getElem_drop]
    rcases Nat.eq_zero_or_pos j with rfl | hpos
    · exact hgt
    · exact hgt.trans (hget (i + 1) (i + 1 + j) hi'' (by omega) (by omega))
  rw [insertIdx_eq_take_drop (by omega), List.pairwise_append]
  refine ⟨h.sublist (List.take_sublist _ _), ?_, ?_⟩
  · rw [List.pairwise_cons]
    exact ⟨habove, h.sublist (List.drop_sublist _ _)⟩
  · intro y hy z hz
    rcases List.mem_cons.mp hz with rfl | hz
    · exact hbelow y hy
    · exact (hbelow y hy).trans (habove z hz)

/-- The keys of an association list strictly increase. -/
def SortedEntries (entries : List (K × V)) : Prop :=
  entries.Pairwise fun a b => a.1 < b.1

/-- The lower bound of a key among the entries. -/
def entryIdx (k : K) (entries : List (K × V)) : ℕ :=
  lowerIdx k (entries.map Prod.fst)

/-- The value stored under `k`. -/
def findEntry (k : K) (entries : List (K × V)) : Option V :=
  (entries.find? fun e => e.1 = k).map Prod.snd

/-- Store `v` under `k`, overwriting an old value. -/
def putEntry (k : K) (v : V) (entries : List (K × V)) : List (K × V) :=
  if (entries.map Prod.fst)[entryIdx k entries]? = some k
  then entries.set (entryIdx k entries) (k, v)
  else entries.insertIdx (entryIdx k entries) (k, v)

/-- Delete the entry under `k`. -/
def dropEntry (k : K) (entries : List (K × V)) : List (K × V) :=
  if (entries.map Prod.fst)[entryIdx k entries]? = some k
  then entries.eraseIdx (entryIdx k entries)
  else entries

/-- The entries below `k`, the entry under `k` if there is one, and the
entries above `k`. -/
structure KeySplit (k : K) (entries below hit above : List (K × V)) :
    Prop where
  eq_append : entries = below ++ (hit ++ above)
  length_below : below.length = entryIdx k entries
  below_lt : ∀ e ∈ below, e.1 < k
  lt_above : ∀ e ∈ above, k < e.1
  hit_cases : hit = [] ∨ ∃ v, hit = [(k, v)]

theorem SortedEntries.keys {entries : List (K × V)}
    (h : SortedEntries entries) :
    (entries.map Prod.fst).Pairwise (· < ·) :=
  List.pairwise_map.mpr h

theorem entryIdx_le_length (k : K) (entries : List (K × V)) :
    entryIdx k entries ≤ entries.length := by
  simpa [entryIdx] using lowerIdx_le_length k (entries.map Prod.fst)

/-- A sorted association list is cut by every key. -/
theorem SortedEntries.exists_keySplit {entries : List (K × V)}
    (h : SortedEntries entries) (k : K) :
    ∃ below hit above, KeySplit k entries below hit above := by
  have hle := entryIdx_le_length k entries
  have hcut : entries = entries.take (entryIdx k entries) ++
      entries.drop (entryIdx k entries) := by simp
  have hbelow : ∀ e ∈ entries.take (entryIdx k entries), e.1 < k := by
    intro e he
    obtain ⟨i, hi, rfl⟩ := List.getElem_of_mem he
    have hi' : i < entryIdx k entries := by
      simp only [List.length_take] at hi
      omega
    obtain ⟨hlength, hlt⟩ := lt_of_lt_lowerIdx hi'
    simpa using hlt
  have habove : ∀ e ∈ entries.drop (entryIdx k entries), k ≤ e.1 := by
    intro e he
    obtain ⟨i, hi, rfl⟩ := List.getElem_of_mem he
    simp only [List.length_drop] at hi
    have := le_of_lowerIdx_le (k := k) h.keys
      (i := entryIdx k entries + i) (by simp; omega)
      (Nat.le_add_right _ _)
    simpa using this
  have hsorted : SortedEntries (entries.drop (entryIdx k entries)) :=
    List.Pairwise.sublist (List.drop_sublist _ _) h
  rcases hdrop : entries.drop (entryIdx k entries) with _ | ⟨e, rest⟩
  · refine ⟨entries.take (entryIdx k entries), [], [], ?_, by simp [hle],
      hbelow, by simp, Or.inl rfl⟩
    rw [hdrop] at hcut
    simpa using hcut
  · rw [hdrop] at hcut habove hsorted
    have hrest : ∀ e' ∈ rest, e.1 < e'.1 := (List.pairwise_cons.mp hsorted).1
    rcases (habove e (by simp)).eq_or_lt with heq | hlt
    · refine ⟨entries.take (entryIdx k entries), [e], rest, by simpa using hcut,
        by simp [hle], hbelow, ?_, Or.inr ⟨e.2, by rw [heq]⟩⟩
      intro e' he'
      rw [heq]
      exact hrest e' he'
    · refine ⟨entries.take (entryIdx k entries), [], e :: rest,
        by simpa using hcut, by simp [hle], hbelow, ?_, Or.inl rfl⟩
      intro e' he'
      rcases List.mem_cons.mp he' with rfl | he'
      · exact hlt
      · exact hlt.trans (hrest e' he')

namespace KeySplit

variable {k : K} {v : V} {entries below hit above : List (K × V)}

theorem getElem?_entryIdx (h : KeySplit k entries below hit above) :
    (entries.map Prod.fst)[entryIdx k entries]? = some k ↔ hit ≠ [] := by
  rw [← h.length_below, h.eq_append]
  rcases h.hit_cases with rfl | ⟨w, rfl⟩
  · rcases above with _ | ⟨e, rest⟩
    · simp
    · have hlt := h.lt_above e (by simp)
      simp [hlt.ne']
  · simp

theorem findEntry_eq (h : KeySplit k entries below hit above) :
    findEntry k entries = hit.head?.map Prod.snd := by
  have hbelow : below.find? (fun e => e.1 = k) = none := by
    rw [List.find?_eq_none]
    intro e he
    simpa using (h.below_lt e he).ne
  have habove : above.find? (fun e => e.1 = k) = none := by
    rw [List.find?_eq_none]
    intro e he
    simpa using (h.lt_above e he).ne'
  rw [findEntry, h.eq_append]
  rcases h.hit_cases with rfl | ⟨w, rfl⟩ <;> simp [hbelow, habove]

theorem putEntry_eq (h : KeySplit k entries below hit above) :
    putEntry k v entries = below ++ ((k, v) :: above) := by
  rw [putEntry]
  have hhit := h.getElem?_entryIdx
  rw [← h.length_below] at hhit ⊢
  rcases h.hit_cases with rfl | ⟨w, rfl⟩
  · rw [if_neg (by simpa using hhit), h.eq_append]
    exact insertIdx_length_append below _ _
  · rw [if_pos (by simpa using hhit), h.eq_append]
    simp

theorem dropEntry_eq (h : KeySplit k entries below hit above) :
    dropEntry k entries = below ++ above := by
  rw [dropEntry]
  have hhit := h.getElem?_entryIdx
  rw [← h.length_below] at hhit ⊢
  rcases h.hit_cases with rfl | ⟨w, rfl⟩
  · rw [if_neg (by simpa using hhit), h.eq_append]
    simp
  · rw [if_pos (by simpa using hhit), h.eq_append]
    simp [List.eraseIdx_append_of_length_le]

theorem sortedEntries_append (h : KeySplit k entries below hit above)
    (hsorted : SortedEntries entries) {mid : List (K × V)}
    (hmid : mid = [] ∨ ∃ w, mid = [(k, w)]) :
    SortedEntries (below ++ (mid ++ above)) := by
  rw [h.eq_append, SortedEntries, List.pairwise_append] at hsorted
  obtain ⟨hbelow, hrest, _⟩ := hsorted
  have habove : above.Pairwise fun a b : K × V => a.1 < b.1 :=
    hrest.sublist (List.sublist_append_right _ _)
  rw [SortedEntries, List.pairwise_append]
  refine ⟨hbelow, ?_, ?_⟩
  · rcases hmid with rfl | ⟨w, rfl⟩
    · simpa using habove
    · simpa using ⟨fun a b hab => h.lt_above (a, b) hab, habove⟩
  · intro a ha b hb
    rcases List.mem_append.mp hb with hb | hb
    · rcases hmid with rfl | ⟨w, rfl⟩
      · simp at hb
      · rw [List.mem_singleton.mp hb]
        exact h.below_lt a ha
    · exact (h.below_lt a ha).trans (h.lt_above b hb)

end KeySplit

theorem SortedEntries.put {entries : List (K × V)}
    (h : SortedEntries entries) (k : K) (v : V) :
    SortedEntries (putEntry k v entries) := by
  obtain ⟨below, hit, above, hsplit⟩ := h.exists_keySplit k
  rw [hsplit.putEntry_eq]
  exact hsplit.sortedEntries_append h (Or.inr ⟨v, rfl⟩)

theorem SortedEntries.dropKey {entries : List (K × V)}
    (h : SortedEntries entries) (k : K) :
    SortedEntries (dropEntry k entries) := by
  obtain ⟨below, hit, above, hsplit⟩ := h.exists_keySplit k
  rw [hsplit.dropEntry_eq]
  exact hsplit.sortedEntries_append h (Or.inl rfl)

/-- In a sorted association list the value found under a key is the one it
is paired with. -/
theorem SortedEntries.findEntry_eq_some {entries : List (K × V)}
    (h : SortedEntries entries) {k : K} {v : V} :
    findEntry k entries = some v ↔ (k, v) ∈ entries := by
  obtain ⟨below, hit, above, hsplit⟩ := h.exists_keySplit k
  have hbelow : (k, v) ∉ below := fun he =>
    lt_irrefl k (hsplit.below_lt _ he)
  have habove : (k, v) ∉ above := fun he =>
    lt_irrefl k (hsplit.lt_above _ he)
  rw [hsplit.findEntry_eq, hsplit.eq_append]
  rcases hsplit.hit_cases with rfl | ⟨w, rfl⟩
  · simp [hbelow, habove]
  · simp [hbelow, habove, eq_comm]

theorem length_putEntry_le (k : K) (v : V) (entries : List (K × V)) :
    (putEntry k v entries).length ≤ entries.length + 1 := by
  unfold putEntry
  split
  · simp
  · exact List.length_insertIdx_le_succ ..

/-- Overwriting a stored value adds no entry. -/
theorem SortedEntries.length_putEntry {entries : List (K × V)}
    (h : SortedEntries entries) {k : K} (hk : (findEntry k entries).isSome)
    (v : V) : (putEntry k v entries).length = entries.length := by
  obtain ⟨below, hit, above, hsplit⟩ := h.exists_keySplit k
  rw [hsplit.findEntry_eq] at hk
  rw [hsplit.putEntry_eq, hsplit.eq_append]
  rcases hsplit.hit_cases with rfl | ⟨w, rfl⟩
  · simp at hk
  · simp

theorem length_dropEntry_le (k : K) (entries : List (K × V)) :
    (dropEntry k entries).length ≤ entries.length := by
  unfold dropEntry
  split
  · exact List.length_eraseIdx_le ..
  · exact le_rfl

theorem mem_putEntry {entries : List (K × V)}
    (h : SortedEntries entries) {k : K} {v : V} {e : K × V} :
    e ∈ putEntry k v entries ↔
      e = (k, v) ∨ e.1 ≠ k ∧ e ∈ entries := by
  obtain ⟨below, hit, above, hsplit⟩ := h.exists_keySplit k
  have hbelow : e ∈ below → e.1 ≠ k := fun he => (hsplit.below_lt e he).ne
  have habove : e ∈ above → e.1 ≠ k := fun he => (hsplit.lt_above e he).ne'
  rw [hsplit.putEntry_eq, hsplit.eq_append]
  rcases hsplit.hit_cases with rfl | ⟨w, rfl⟩
  · simp only [List.mem_append, List.mem_cons, List.nil_append]
    tauto
  · have hhit : e = (k, w) → e.1 = k := fun he => by rw [he]
    simp only [List.mem_append, List.mem_cons, List.singleton_append]
    tauto

theorem mem_dropEntry {entries : List (K × V)}
    (h : SortedEntries entries) {k : K} {e : K × V} :
    e ∈ dropEntry k entries ↔ e.1 ≠ k ∧ e ∈ entries := by
  obtain ⟨below, hit, above, hsplit⟩ := h.exists_keySplit k
  have hbelow : e ∈ below → e.1 ≠ k := fun he => (hsplit.below_lt e he).ne
  have habove : e ∈ above → e.1 ≠ k := fun he => (hsplit.lt_above e he).ne'
  rw [hsplit.dropEntry_eq, hsplit.eq_append]
  rcases hsplit.hit_cases with rfl | ⟨w, rfl⟩
  · simp only [List.mem_append, List.nil_append]
    tauto
  · have hhit : e = (k, w) → e.1 = k := fun he => by rw [he]
    simp only [List.mem_append, List.mem_cons, List.singleton_append]
    tauto

end CachingDex.Lib
