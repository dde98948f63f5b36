import Mathlib.Tactic

/-!
# Fixed arrays with a live part

A fixed array of `n` cells together with a count `c` stands for the list of
its first `c` cells.  Block moves between such arrays follow `memmove`: the
source is read before anything is written, so source and destination may
overlap.  The lemmas below say which list operation a block move performs on
the live part; cells beyond the count are never mentioned.
-/

namespace CachingDex.Lib

variable {α : Type} {n m : ℕ}

/-- The list held by the first `c` cells. -/
def live (v : Vector α n) (c : ℕ) : List α :=
  v.toList.take c

/-- Copy `len` cells of `src`, starting at `s`, over the cells of `dst` that
start at `d`. -/
def moveCells (dst : Vector α n) (d : ℕ) (src : Vector α m) (s len : ℕ) :
    Vector α n :=
  Vector.ofFn fun i =>
    if d ≤ i.val ∧ i.val < d + len
    then (src[s + (i.val - d)]?).getD (dst.get i)
    else dst.get i

theorem getElem?_live (v : Vector α n) (c i : ℕ) :
    (live v c)[i]? = if i < c then v[i]? else none := by
  simp [live, List.getElem?_take]

theorem length_live (v : Vector α n) {c : ℕ} (hc : c ≤ n) :
    (live v c).length = c := by
  simp [live, hc]

@[simp] theorem live_zero (v : Vector α n) : live v 0 = [] := by
  simp [live]

theorem live_take (v : Vector α n) {c d : ℕ} (hd : d ≤ c) :
    (live v c).take d = live v d := by
  simp [live, List.take_take, hd]

theorem live_set (v : Vector α n) (x : α) (c i : ℕ) :
    live (v.setIfInBounds i x) c = (live v c).set i x := by
  apply List.ext_getElem?
  intro j
  simp only [getElem?_live, Vector.getElem?_setIfInBounds, List.getElem?_set]
  by_cases hij : i = j
  · subst hij
    by_cases hc : i < c <;> by_cases hn : i < n <;> simp [live, hc, hn]
  · simp [hij]

theorem getElem?_moveCells (dst : Vector α n) (d : ℕ) (src : Vector α m)
    (s len i : ℕ) (hsrc : s + len ≤ m) :
    (moveCells dst d src s len)[i]? =
      if d ≤ i ∧ i < d + len ∧ i < n then src[s + (i - d)]? else dst[i]? := by
  simp only [moveCells, Vector.getElem?_ofFn]
  by_cases hi : i < n
  · by_cases hin : d ≤ i ∧ i < d + len
    · have hlt : s + (i - d) < m := by omega
      simp [hi, hin, hlt]
    · simp [hi, hin, Vector.get]
  · simp [hi]

/-- A block move brings in no cells but those of its source. -/
theorem mem_of_getElem?_moveCells {dst : Vector α n} {d : ℕ}
    {src : Vector α m} {s len i : ℕ} {x : α}
    (h : (moveCells dst d src s len)[i]? = some x) :
    dst[i]? = some x ∨ ∃ j : ℕ, src[j]? = some x := by
  simp only [moveCells, Vector.getElem?_ofFn] at h
  split_ifs at h with hi hin
  · cases hsrc : src[s + (i - d)]? with
    | none =>
        rw [hsrc] at h
        exact Or.inl (by simpa [Vector.get, hi] using h)
    | some y =>
        rw [hsrc] at h
        exact Or.inr ⟨_, hsrc.trans (by simpa using h)⟩
  · exact Or.inl (by simpa [Vector.get, hi] using h)

/-- Opening a gap at `pos` and filling it is an insertion. -/
theorem live_moveUp_set (v : Vector α n) (x : α) {c pos len : ℕ}
    (hpos : pos ≤ c) (hlen : c ≤ pos + len) (hn : pos + len < n) :
    live ((moveCells v (pos + 1) v pos len).setIfInBounds pos x) (c + 1) =
      (live v c).insertIdx pos x := by
  apply List.ext_getElem?
  intro i
  have hlength : (live v c).length = c := length_live v (by omega)
  rw [getElem?_live, Vector.getElem?_setIfInBounds,
    getElem?_moveCells _ _ _ _ _ _ (by omega), List.getElem?_insertIdx, hlength]
  simp only [getElem?_live]
  rcases Nat.lt_trichotomy i pos with hi | hi | hi
  · have hne : pos ≠ i := by omega
    have hnot : ¬ (pos + 1 ≤ i ∧ i < pos + 1 + len ∧ i < n) := by omega
    rw [if_neg hnot]
    simp [hi, hne, show i < c + 1 by omega, show i < c by omega]
  · subst hi
    simp [show i < c + 1 by omega, show i < n by omega, hpos]
  · have hne : pos ≠ i := by omega
    have hshift : pos + (i - (pos + 1)) = i - 1 := by omega
    simp only [if_neg hne, if_neg (show ¬ i < pos by omega),
      if_neg (show ¬ i = pos by omega), hshift]
    by_cases hc : i < c + 1
    · simp [hc, show pos + 1 ≤ i by omega, show i < pos + 1 + len by omega,
        show i < n by omega, show i - 1 < c by omega]
    · simp [hc, show ¬ i - 1 < c by omega]

/-- Closing the gap at `pos` is a deletion. -/
theorem live_moveDown (v : Vector α n) {c pos : ℕ}
    (hpos : pos < c) (hc : c ≤ n) :
    live (moveCells v pos v (pos + 1) (c - pos - 1)) (c - 1) =
      (live v c).eraseIdx pos := by
  apply List.ext_getElem?
  intro i
  rw [getElem?_live, getElem?_moveCells _ _ _ _ _ _ (by omega),
    List.getElem?_eraseIdx]
  simp only [getElem?_live]
  by_cases hi : i < pos
  · have hnot : ¬ (pos ≤ i ∧ i < pos + (c - pos - 1) ∧ i < n) := by omega
    simp [hi, hnot, show i < c - 1 by omega, show i < c by omega]
  · have hshift : pos + 1 + (i - pos) = i + 1 := by omega
    simp only [if_neg hi, hshift]
    by_cases hlast : i < c - 1
    · simp [hlast, show pos ≤ i by omega,
        show i < pos + (c - pos - 1) by omega, show i < n by omega,
        show i + 1 < c by omega]
    · simp [hlast, show ¬ i + 1 < c by omega]

/-- Copying the upper part of a live list into the front of another array. -/
theorem live_moveFront (dst : Vector α n) (v : Vector α m) {c s len : ℕ}
    (hlen : s + len = c) (hm : c ≤ m) (hn : len ≤ n) :
    live (moveCells dst 0 v s len) len = (live v c).drop s := by
  apply List.ext_getElem?
  intro i
  rw [getElem?_live, getElem?_moveCells _ _ _ _ _ _ (by omega),
    List.getElem?_drop]
  simp only [getElem?_live]
  by_cases hi : i < len
  · simp [hi, show i < n by omega, show s + i < c by omega]
  · simp [hi, show ¬ s + i < c by omega]

end CachingDex.Lib
