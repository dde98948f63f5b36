import CachingDex.Lib.LeafChain
import CachingDex.Lib.MapListing

/-!
# Loading in ascending order

A key above all keys of a search tree belongs to its last leaf, so inserts in
ascending order split no other leaf.  The lower half of a split is never
touched again, and the upper half takes all further keys: every leaf but the
last one is half a full leaf.

Read from left to right, the leaves of any search tree list the map that it
stores.
-/

namespace CachingDex.Lib

variable {A K V : Type} [LinearOrder K]

/-- A new key adds an entry. -/
theorem SortedEntries.length_putEntry_of_lt {entries : List (K × V)}
    (h : SortedEntries entries) {k : K} (hk : ∀ e ∈ entries, e.1 < k) (v : V) :
    (putEntry k v entries).length = entries.length + 1 := by
  obtain ⟨below, hit, above, hsplit⟩ := h.exists_keySplit k
  have heq := hsplit.eq_append
  rw [hsplit.putEntry_eq]
  rcases hsplit.hit_cases with rfl | ⟨w, rfl⟩
  · rw [heq]
    simp only [List.length_append, List.length_cons, List.length_nil]
    omega
  · have hmem : (k, w) ∈ entries := by simp [heq]
    exact absurd (hk _ hmem) (lt_irrefl k)

variable [BoundedOrder K]

namespace Forest

/-- All keys in the leaves, and the limits between them, are below `k`. -/
structure Below (F : Forest A K V) (k : K) : Prop where
  limit : ∀ {a lo hi entries next}, F a = some (.leaf lo hi entries next) →
    hi ≠ ⊤ → hi < k
  entry : ∀ {a lo hi entries next}, F a = some (.leaf lo hi entries next) →
    ∀ e ∈ entries, e.1 < k

/-- Every leaf but the last one has `least` entries, and the last one has
`extra` more at least unless it is alone. -/
structure HalfFull (F : Forest A K V) (least extra : ℕ) : Prop where
  half : ∀ {a lo hi entries next}, F a = some (.leaf lo hi entries next) →
    hi ≠ ⊤ → entries.length = least
  last : ∀ {a lo entries next}, F a = some (.leaf lo ⊤ entries next) →
    lo ≠ ⊥ → least + extra ≤ entries.length

variable {F F' : Forest A K V} {k : K} {cap least extra : ℕ} {root z : A}

theorem HalfFull.mono (h : F.HalfFull least extra) {extra' : ℕ}
    (hle : extra' ≤ extra) : F.HalfFull least extra' where
  half := h.half
  last ha hlo := (Nat.add_le_add_left hle least).trans (h.last ha hlo)

/-- The leaf of a key above all others is the last one. -/
theorem Below.hi_eq_top (h : F.Below k) {a next : A} {lo hi : K}
    {entries : List (K × V)} (ha : F a = some (.leaf lo hi entries next))
    (hk : Lib.Covers lo hi k) : hi = ⊤ := by
  by_contra hne
  exact absurd hk.le_hi (not_le.mpr (h.limit ha hne))

theorem Below.fullLast (h : F.Below k) (cap : ℕ) : F.FullLast cap k :=
  fun _ _ _ _ _ ha hk _ => h.hi_eq_top ha hk

omit [LinearOrder K] [BoundedOrder K] in
/-- The leaves of a forest in which a leaf was split. -/
theorem Halves.leaf_cases [Inhabited K] {c a next : A} {lo hi : K}
    {entries : List (K × V)}
    (h : Halves F F' z c (.leaf lo hi entries next) a) {b next' : A}
    {lo' hi' : K} {entries' : List (K × V)}
    (hb : F' b = some (.leaf lo' hi' entries' next')) :
    (hi' = (Node.leaf lo hi entries next : Node A K V).splitKey ∧
      entries' = entries.take (entries.length / 2)) ∨
    (hi' = hi ∧ entries' = entries.drop (entries.length / 2)) ∨
    F b = some (.leaf lo' hi' entries' next') := by
  by_cases hbc : b = c
  · have hleft := h.left
    rw [← hbc, hb, Option.some.injEq, Node.splitLeft, Node.leaf.injEq] at hleft
    exact Or.inl ⟨hleft.2.1, hleft.2.2.1⟩
  · by_cases hba : b = a
    · have hright := h.right
      rw [← hba, hb, Option.some.injEq, Node.splitRight, Node.leaf.injEq]
        at hright
      exact Or.inr (Or.inl ⟨hright.2.1, hright.2.2.1⟩)
    · exact Or.inr (Or.inr ((h.other rfl hbc hba).mp hb))

omit [LinearOrder K] [BoundedOrder K] in
/-- A split of an inner node leaves the leaves. -/
theorem Halves.leaf_of_inner [Inhabited K] {c a : A} {n : Node A K V}
    (h : Halves F F' z c n a) (hinner : n.isLeaf = false) {b : A}
    {m : Node A K V} (hm : m.isLeaf = true) (hb : F' b = some m) :
    F b = some m := by
  by_cases hbc : b = c
  · have hleft := h.left
    rw [← hbc, hb, Option.some.injEq] at hleft
    rw [hleft, Node.isLeaf_splitLeft, hinner] at hm
    cases hm
  · by_cases hba : b = a
    · have hright := h.right
      rw [← hba, hb, Option.some.injEq] at hright
      rw [hright, Node.isLeaf_splitRight, hinner] at hm
      cases hm
    · exact (h.other hm hbc hba).mp hb

/-- A split on the way to a key above all others leaves half a leaf and the
last one. -/
theorem HalfFull.splitsOn [Inhabited K] (h : F.HalfFull least 1)
    (hk : F.Below k) (hstep : SplitsOn (2 * least + 1) z k F F') :
    F'.HalfFull least 1 ∧ F'.Below k := by
  obtain ⟨root, c, n, a, hF, hhalves, hcovers, hsize⟩ := hstep
  have hsound := hF.sound hhalves.child
  have hfour := hhalves.size
  cases n with
  | inner level lo hi keys children =>
      have hold : ∀ {b lo hi entries next},
          F' b = some (.leaf lo hi entries next) →
          F b = some (.leaf lo hi entries next) :=
        hhalves.leaf_of_inner rfl rfl
      exact ⟨⟨fun hb => h.half (hold hb), fun hb => h.last (hold hb)⟩,
        fun hb => hk.limit (hold hb), fun hb => hk.entry (hold hb)⟩
  | leaf lo hi entries next =>
      obtain rfl := hk.hi_eq_top hhalves.child hcovers
      simp only [Node.size] at hsize hfour
      obtain ⟨_, habove, _, hlt⟩ := hsound.leaf_splitKey hfour
      have hentries := hk.entry hhalves.child
      -- the separator is below a key of the upper half
      have hsep : (Node.leaf lo ⊤ entries next : Node A K V).splitKey < k := by
        have hmem : entries[entries.length / 2] ∈
            entries.drop (entries.length / 2) := by
          rw [List.mem_drop_iff_getElem]
          exact ⟨0, by omega, by simp⟩
        exact (habove _ hmem).trans (hentries _ (List.getElem_mem _))
      constructor
      · constructor
        · intro b lo' hi' entries' next' hb hne
          rcases hhalves.leaf_cases hb with ⟨_, rfl⟩ | ⟨rfl, _⟩ | hb
          · rw [List.length_take]
            omega
          · exact absurd rfl hne
          · exact h.half hb hne
        · intro b lo' entries' next' hb hlo
          rcases hhalves.leaf_cases hb with ⟨heq, _⟩ | ⟨_, rfl⟩ | hb
          · rw [← heq] at hlt
            exact absurd hlt (lt_irrefl _)
          · rw [List.length_drop]
            omega
          · exact h.last hb hlo
      · constructor
        · intro b lo' hi' entries' next' hb hne
          rcases hhalves.leaf_cases hb with ⟨rfl, _⟩ | ⟨rfl, _⟩ | hb
          · exact hsep
          · exact absurd rfl hne
          · exact hk.limit hb hne
        · intro b lo' hi' entries' next' hb e he
          rcases hhalves.leaf_cases hb with ⟨_, rfl⟩ | ⟨_, rfl⟩ | hb
          · exact hentries e (List.mem_of_mem_take he)
          · exact hentries e (List.mem_of_mem_drop he)
          · exact hk.entry hb e he

theorem HalfFull.splits [Inhabited K] (h : F.HalfFull least 1)
    (hk : F.Below k)
    (hsteps : Relation.ReflTransGen (SplitsOn (2 * least + 1) z k) F F') :
    F'.HalfFull least 1 ∧ F'.Below k := by
  induction hsteps with
  | refl => exact ⟨h, hk⟩
  | tail _ hstep ih => exact ih.1.splitsOn ih.2 hstep

/-- The new entry goes to the last leaf. -/
theorem HalfFull.put [DecidableEq A] (h : F.HalfFull least 1)
    (hk : F.Below k) (hF : SearchTree F cap root) {entries : List (K × V)}
    {v : V} (hedit : EditsLeaf F F' k entries (putEntry k v entries)) :
    F'.HalfFull least 2 ∧ ∀ k', k < k' → F'.Below k' := by
  obtain ⟨a, lo, hi, next, ha, hcovers, rfl⟩ := hedit.covers
  obtain rfl := hk.hi_eq_top ha hcovers
  have hsorted : SortedEntries entries := (hF.sound ha).entries_sorted
  have hlength := hsorted.length_putEntry_of_lt (hk.entry ha) v
  have hcases : ∀ {b lo' hi' entries' next'},
      Function.update F a (some (.leaf lo ⊤ (putEntry k v entries) next)) b =
        some (.leaf lo' hi' entries' next') →
      (lo' = lo ∧ hi' = ⊤ ∧ entries' = putEntry k v entries) ∨
        (b ≠ a ∧ F b = some (.leaf lo' hi' entries' next')) := by
    intro b lo' hi' entries' next' hb
    by_cases hba : b = a
    · rw [hba, Function.update_self, Option.some.injEq, Node.leaf.injEq] at hb
      exact Or.inl ⟨hb.1.symm, hb.2.1.symm, hb.2.2.1.symm⟩
    · rw [Function.update_of_ne hba] at hb
      exact Or.inr ⟨hba, hb⟩
  constructor
  · constructor
    · intro b lo' hi' entries' next' hb hne
      rcases hcases hb with ⟨_, rfl, _⟩ | ⟨_, hb⟩
      · exact absurd rfl hne
      · exact h.half hb hne
    · intro b lo' entries' next' hb hlo
      rcases hcases hb with ⟨rfl, _, rfl⟩ | ⟨hba, hb⟩
      · have := h.last ha hlo
        omega
      · -- there is one last leaf only
        exact absurd (hF.covers_unique hb ha rfl (k := ⊤)
          (Or.inr ⟨(hF.sound hb).lo_lt_hi, le_rfl⟩)
          (Or.inr ⟨(hF.sound ha).lo_lt_hi, le_rfl⟩)) hba
  · intro k' hlt
    constructor
    · intro b lo' hi' entries' next' hb hne
      rcases hcases hb with ⟨_, rfl, _⟩ | ⟨_, hb⟩
      · exact absurd rfl hne
      · exact (hk.limit hb hne).trans hlt
    · intro b lo' hi' entries' next' hb e he
      rcases hcases hb with ⟨_, _, rfl⟩ | ⟨_, hb⟩
      · rcases (mem_putEntry hsorted).mp he with rfl | ⟨_, hmem⟩
        · exact hlt
        · exact (hk.entry ha e hmem).trans hlt
      · exact (hk.entry hb e he).trans hlt

/-- A lone empty leaf is ready for any key. -/
theorem HalfFull.of_empty (honly : ∀ {a lo hi entries next},
    F a = some (.leaf lo hi entries next) →
      lo = ⊥ ∧ hi = ⊤ ∧ entries = []) (least extra : ℕ) :
    F.HalfFull least extra ∧ ∀ k, F.Below k := by
  refine ⟨⟨fun ha hne => absurd (honly ha).2.1 hne, fun ha hlo =>
    absurd (honly ha).1 hlo⟩, fun k => ⟨fun ha hne =>
      absurd (honly ha).2.1 hne, ?_⟩⟩
  intro a lo hi entries next ha e he
  rw [(honly ha).2.2] at he
  cases he

/-! ## The leaves from left to right -/

def entriesAt (F : Forest A K V) (a : A) : List (K × V) :=
  (F a).elim [] Node.entries

/-- The entries of leaves side by side are in order and within their
limits. -/
theorem Spans.sorted (hF : SearchTree F cap root) {lo hi : K} {l : List A}
    (hl : F.Spans lo l hi) :
    lo ≤ hi ∧ SortedEntries (l.flatMap F.entriesAt) ∧
      ∀ e ∈ l.flatMap F.entriesAt, Lib.Covers lo hi e.1 := by
  induction l generalizing lo with
  | nil =>
      obtain rfl : lo = hi := hl
      exact ⟨le_rfl, List.Pairwise.nil, fun e he => absurd he (by simp)⟩
  | cons a l ih =>
      obtain ⟨mid, entries, next, ha, hrest⟩ := hl
      obtain ⟨hle, hsorted, hcovered⟩ := ih hrest
      have hsound := hF.sound ha
      have hlt : lo < mid := hsound.lo_lt_hi
      have hhead : F.entriesAt a = entries := by
        rw [entriesAt, ha]
        rfl
      rw [List.flatMap_cons, hhead]
      have hlater : ∀ e ∈ l.flatMap F.entriesAt, mid < e.1 := by
        intro e he
        rcases hcovered e he with ⟨hbot, heq⟩ | ⟨hmid, _⟩
        · rw [← heq, hbot] at hlt
          exact absurd hlt not_lt_bot
        · exact hmid
      refine ⟨hlt.le.trans hle, ?_, ?_⟩
      · rw [SortedEntries, List.pairwise_append]
        refine ⟨hsound.entries_sorted, hsorted, ?_⟩
        intro e he e' he'
        exact (hsound.entries_covered e he).le_hi.trans_lt (hlater e' he')
      · intro e he
        rcases List.mem_append.mp he with he | he
        · rcases hsound.entries_covered e he with hbot | ⟨hlo, hmid⟩
          · exact Or.inl hbot
          · exact Or.inr ⟨hlo, hmid.trans hle⟩
        · exact Or.inr ⟨hlt.trans (hlater e he), (hcovered e he).le_hi⟩

/-- All leaves of a search tree list the map it stores. -/
theorem Spans.listing [Finite K] (hF : SearchTree F cap root) {l : List A}
    (hl : F.Spans ⊥ l ⊤)
    (hall : ∀ {a lo hi entries next}, F a = some (.leaf lo hi entries next) →
      a ∈ l) {m : K → Option V} (hm : ∀ k v, F.Stored k v ↔ m k = some v) :
    l.flatMap F.entriesAt = listing m ⊥ ⊤ := by
  obtain ⟨_, hsorted, _⟩ := hl.sorted hF
  apply eq_listing hsorted
  intro e
  rw [← hm e.1 e.2]
  simp only [bot_le, le_top, and_true, List.mem_flatMap]
  constructor
  · intro he
    obtain ⟨a, _, hmem⟩ := he
    rw [entriesAt] at hmem
    cases ha : F a with
    | none =>
        rw [ha] at hmem
        cases hmem
    | some n =>
        rw [ha] at hmem
        exact ⟨a, n, ha, hmem⟩
  · intro he
    obtain ⟨a, n, ha, hmem⟩ := he
    cases n with
    | inner => cases hmem
    | leaf lo hi entries next =>
        refine ⟨a, hall ha, ?_⟩
        rw [entriesAt, ha]
        exact hmem

/-- The size of each leaf of an ascending load but the last one. -/
theorem HalfFull.length_entriesAt (h : F.HalfFull least extra)
    (hF : SearchTree F cap root) {lo : K} {l : List A} (hl : F.Spans lo l ⊤) :
    ∀ a ∈ l.dropLast, (F.entriesAt a).length = least := by
  induction l generalizing lo with
  | nil => exact fun a ha => absurd ha (by simp)
  | cons b l ih =>
      obtain ⟨mid, entries, next, hb, hrest⟩ := hl
      cases l with
      | nil => exact fun a ha => absurd ha (by simp)
      | cons c l =>
          have hih := ih hrest
          obtain ⟨_, _, _, hc, _⟩ := hrest
          have hne : mid ≠ ⊤ :=
            ((hF.sound hc).lo_lt_hi.trans_le le_top).ne
          intro a ha
          rw [List.dropLast_cons_of_ne_nil (List.cons_ne_nil c l)] at ha
          rcases List.mem_cons.mp ha with rfl | ha
          · rw [entriesAt, hb]
            exact h.half hb hne
          · exact hih a ha

/-- How many pairs an ascending load has put into its leaves. -/
theorem HalfFull.length (h : F.HalfFull least extra)
    (hF : SearchTree F cap root) {lo : K} {l : List A} (hl : F.Spans lo l ⊤)
    (hlo : lo < ⊤) :
    ∃ rest, (l.flatMap F.entriesAt).length = least * (l.length - 1) + rest ∧
      rest ≤ cap ∧ (lo ≠ ⊥ ∨ 1 < l.length → least + extra ≤ rest) := by
  induction l generalizing lo with
  | nil => exact absurd hl hlo.ne
  | cons a l ih =>
      obtain ⟨mid, entries, next, ha, hrest⟩ := hl
      have hsound := hF.sound ha
      have hhead : F.entriesAt a = entries := by
        rw [entriesAt, ha]
        rfl
      cases l with
      | nil =>
          obtain rfl : mid = ⊤ := hrest
          refine ⟨entries.length, by simp [hhead], hsound.size_le, ?_⟩
          intro hcase
          exact h.last ha (hcase.resolve_right (by simp))
      | cons b l =>
          have hlt : lo < mid := hsound.lo_lt_hi
          have hmid : mid < ⊤ := by
            obtain ⟨_, _, _, hb, _⟩ := hrest
            exact (hF.sound hb).lo_lt_hi.trans_le le_top
          obtain ⟨rest, hlength, hle, hleast⟩ := ih hrest hmid
          refine ⟨rest, ?_, hle, fun _ =>
            hleast (Or.inl (bot_le.trans_lt hlt).ne')⟩
          rw [List.flatMap_cons, List.length_append, hlength, hhead,
            h.half ha hmid.ne]
          simp only [List.length_cons]
          rw [show l.length + 1 + 1 - 1 = (l.length + 1 - 1) + 1 by omega]
          ring

end Forest

end CachingDex.Lib
