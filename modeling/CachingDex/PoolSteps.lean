import CachingDex.Coherent

/-!
# Slots changing places

Each lemma moves one slot of the pool from one place to another: out of the
tree into the hand of the running operation, from the hand into the cooling
table or onto the free list, and from these two or the allocator back into
the hand.  Together they say that no step of the cache duplicates a slot or
drops one.
-/

namespace CachingDex

open Lib

namespace Bucket

variable {b : Bucket}

theorem pages_eq_append (hpos : b.count ≠ 0) (hle : b.count ≤ 6) :
    b.pages = b.dropLast.pages ++ [b.last] := by
  obtain ⟨c, hc⟩ := Nat.exists_eq_succ_of_ne_zero hpos
  have hlt : c < 6 := by omega
  simp only [pages, dropLast, last, live, hc, Nat.succ_eq_add_one,
    Nat.add_sub_cancel, List.take_add_one, List.map_append]
  simp [hlt]

theorem pages_push (hlt : b.count < 6) (frame : Frame) :
    (b.push frame).pages = frame.page :: b.pages := by
  simp only [pages, push]
  rw [live_moveUp_set b.frames frame (Nat.zero_le _) (by omega) (by omega)]
  rfl

end Bucket

namespace Pool

variable {H R : Set ℕ} {s : State}

theorem ne_of_posState (h : Pool H R s) {i : ℕ} (hi : i ∈ R) {x : PosState}
    (hx : (s.slotPage i).posState = x) : x = .hot ∨ x = .pin := by
  have := (h.resident_iff.mp hi).2.2
  rwa [Page.InUse, hx] at this

theorem not_listed (h : Pool H R s) {i : ℕ} (hi : i ∈ R) :
    .slot i ∉ s.localPageSet := by
  intro hmem
  obtain ⟨j, _, hj, _, hpos⟩ := h.listed hmem
  obtain rfl : i = j := by simpa using hj
  simpa using h.ne_of_posState hi hpos

theorem not_cooling (h : Pool H R s) {i : ℕ} (hi : i ∈ R) :
    ¬ s.Cooling i := by
  rintro ⟨j, hj, hmem⟩
  obtain ⟨i', _, hi', _, hpos⟩ := h.framed hj hmem
  obtain rfl : i = i' := by simpa using hi'
  simpa using h.ne_of_posState hi hpos

/-- A resident slot is taken into the hand. -/
theorem take (h : Pool H R s) {c : ℕ} (hc : c ∈ R) :
    Pool (insert c H) (R \ {c}) s where
  head_le := h.head_le
  dynamic_iff := h.dynamic_iff
  buckets := h.buckets
  count_le := h.count_le
  framed := by
    intro j p hj hp
    obtain ⟨i, hi, rfl, hH, hpos⟩ := h.framed hj hp
    refine ⟨i, hi, rfl, ?_, hpos⟩
    rintro (rfl | hmem)
    · exact h.not_cooling hc ⟨j, hj, hp⟩
    · exact hH hmem
  frames_nodup := h.frames_nodup
  frames_apart := h.frames_apart
  local_nodup := h.local_nodup
  listed := by
    intro p hp
    obtain ⟨i, hi, rfl, hH, hpos⟩ := h.listed hp
    refine ⟨i, hi, rfl, ?_, hpos⟩
    rintro (rfl | hmem)
    · exact h.not_listed hc hp
    · exact hH hmem
  hand_lt := by
    rintro i (rfl | hi)
    · exact (h.resident_iff.mp hc).1
    · exact h.hand_lt hi
  resident_iff := by
    intro i
    simp only [Set.mem_sdiff, Set.mem_singleton_iff, Set.mem_insert_iff,
      not_or, h.resident_iff]
    tauto
  accounted := by
    intro i hi hnot
    simp only [Set.mem_insert_iff, not_or] at hnot
    rcases h.accounted hi hnot.2 with hR | hplace
    · exact Or.inl ⟨hR, hnot.1⟩
    · exact Or.inr hplace

/-- The last frame of a bucket is given up, and its slot is in the hand. -/
theorem evict (h : Pool H R s) {j : ℕ} (hj : j < s.hashTable.bucketNum)
    (hb : (s.hashTable.table j).count ≠ 0) :
    ∃ v, (s.hashTable.table j).last = .slot v ∧ v ∉ H ∧ v ∉ R ∧
      (s.slotPage v).posState = .cool ∧ v < s.allocator.headIdx ∧
      Pool (insert v H) R (s.setBucket j (s.hashTable.table j).dropLast) := by
  have hpages := Bucket.pages_eq_append hb (h.count_le hj)
  have hlast : (s.hashTable.table j).last ∈ (s.hashTable.table j).pages := by
    rw [hpages]
    simp
  obtain ⟨v, hv, hslot, hH, hcool⟩ := h.framed hj hlast
  have hR : v ∉ R := fun hR => by simpa using h.ne_of_posState hR hcool
  rw [hslot] at hpages hlast
  have hnodup := h.frames_nodup hj
  rw [hpages] at hnodup
  have hout : .slot v ∉ (s.hashTable.table j).dropLast.pages := by
    intro hmem
    exact (List.nodup_append.mp hnodup).2.2 _ hmem _ (by simp) rfl
  -- the pages of every bucket after the step, in terms of those before it
  have hold : ∀ {j' p},
      p ∈ (Function.update s.hashTable.table j
        (s.hashTable.table j).dropLast j').pages →
      p ∈ (s.hashTable.table j').pages ∧
        (j' < s.hashTable.bucketNum → p ≠ .slot v) := by
    intro j' p hp
    by_cases hj' : j' = j
    · subst hj'
      rw [Function.update_self] at hp
      refine ⟨by rw [hpages]; simp [hp], fun _ heq => ?_⟩
      exact hout (heq ▸ hp)
    · rw [Function.update_of_ne hj'] at hp
      refine ⟨hp, ?_⟩
      rintro hlt rfl
      exact hj' (h.frames_apart hlt hj hp hlast)
  refine ⟨v, hslot, hH, hR, hcool, hv, ?_⟩
  constructor
  · exact h.head_le
  · exact h.dynamic_iff
  · exact h.buckets
  · intro j' hj'
    change (Function.update s.hashTable.table j _ j').count ≤ 6
    by_cases heq : j' = j
    · subst heq
      have hcount := h.count_le hj
      rw [Function.update_self]
      change _ - 1 ≤ 6
      omega
    · rw [Function.update_of_ne heq]
      exact h.count_le hj'
  · intro j' p hj' hp
    obtain ⟨hp, hne⟩ := hold hp
    obtain ⟨i, hi, rfl, hiH, hpos⟩ := h.framed hj' hp
    refine ⟨i, hi, rfl, ?_, hpos⟩
    rintro (rfl | hmem)
    · exact hne hj' rfl
    · exact hiH hmem
  · intro j' hj'
    change (Function.update s.hashTable.table j _ j').pages.Nodup
    by_cases heq : j' = j
    · subst heq
      rw [Function.update_self]
      exact (List.nodup_append.mp hnodup).1
    · rw [Function.update_of_ne heq]
      exact h.frames_nodup hj'
  · intro j₁ j₂ p h₁ h₂ hp₁ hp₂
    exact h.frames_apart h₁ h₂ (hold hp₁).1 (hold hp₂).1
  · exact h.local_nodup
  · intro p hp
    obtain ⟨i, hi, rfl, hiH, hpos⟩ := h.listed hp
    refine ⟨i, hi, rfl, ?_, hpos⟩
    rintro (rfl | hmem)
    · have hpos : (s.slotPage i).posState = .local := hpos
      rw [hcool] at hpos
      cases hpos
    · exact hiH hmem
  · rintro i (rfl | hi)
    · exact hv
    · exact h.hand_lt hi
  · intro i
    change i ∈ R ↔ i < s.allocator.headIdx ∧ i ∉ insert v H ∧
      (s.slotPage i).InUse
    simp only [Set.mem_insert_iff, not_or, h.resident_iff]
    constructor
    · rintro ⟨hlt, hiH, hin⟩
      refine ⟨hlt, ⟨?_, hiH⟩, hin⟩
      rintro rfl
      exact hR (h.resident_iff.mpr ⟨hlt, hiH, hin⟩)
    · rintro ⟨hlt, ⟨_, hiH⟩, hin⟩
      exact ⟨hlt, hiH, hin⟩
  · intro i hi hnot
    simp only [Set.mem_insert_iff, not_or] at hnot
    rcases h.accounted hi hnot.2 with hiR | hlisted | ⟨j', hj', hmem⟩
    · exact Or.inl hiR
    · exact Or.inr (Or.inl hlisted)
    · refine Or.inr (Or.inr ⟨j', hj', ?_⟩)
      change .slot i ∈ (Function.update s.hashTable.table j _ j').pages
      by_cases heq : j' = j
      · subst heq
        rw [Function.update_self]
        rw [hpages] at hmem
        rcases List.mem_append.mp hmem with hmem | hmem
        · exact hmem
        · exact absurd (by simpa using hmem) hnot.1
      · rw [Function.update_of_ne heq]
        exact hmem

/-- A slot in the hand goes to the front of a bucket with room. -/
theorem frame (h : Pool H R s) {c j : ℕ} (hc : c ∈ H)
    (hj : j < s.hashTable.bucketNum)
    (hroom : (s.hashTable.table j).count < 6) {f : Frame}
    (hf : f.page = .slot c) :
    Pool (H \ {c}) R ((s.setBucket j ((s.hashTable.table j).push f)).setPage
      (.slot c) { s.slotPage c with posState := .cool }) := by
  have hpush := Bucket.pages_push hroom f
  rw [hf] at hpush
  have hfresh : ∀ j', j' < s.hashTable.bucketNum →
      PagePtr.slot c ∉ (s.hashTable.table j').pages := by
    intro j' hj' hmem
    obtain ⟨i, _, hi, hH, _⟩ := h.framed hj' hmem
    obtain rfl : c = i := by simpa using hi
    exact hH hc
  have hpage : ∀ i, i ≠ c → ((s.setBucket j
      ((s.hashTable.table j).push f)).setPage (.slot c)
        { s.slotPage c with posState := .cool }).slotPage i =
      s.slotPage i := by
    intro i hi
    exact State.setPage_of_ne (by simpa using hi)
  have hself : ((s.setBucket j ((s.hashTable.table j).push f)).setPage
      (.slot c) { s.slotPage c with posState := .cool }).slotPage c =
      { s.slotPage c with posState := .cool } := State.setPage_self ..
  have hcR : c ∉ R := fun hR => (h.resident_iff.mp hR).2.1 hc
  -- the pages of a bucket after the step
  have htable : ∀ {j' p}, j' < s.hashTable.bucketNum →
      (p ∈ (Function.update s.hashTable.table j
        ((s.hashTable.table j).push f) j').pages ↔
      (j' = j ∧ p = .slot c) ∨ p ∈ (s.hashTable.table j').pages) := by
    intro j' p hj'
    by_cases heq : j' = j
    · subst heq
      rw [Function.update_self, hpush]
      simp
    · rw [Function.update_of_ne heq]
      simp [heq]
  constructor
  · exact h.head_le
  · exact h.dynamic_iff
  · exact h.buckets
  · intro j' hj'
    change (Function.update s.hashTable.table j _ j').count ≤ 6
    by_cases heq : j' = j
    · subst heq
      rw [Function.update_self]
      exact hroom
    · rw [Function.update_of_ne heq]
      exact h.count_le hj'
  · intro j' p hj' hp
    rcases (htable hj').mp hp with ⟨_, rfl⟩ | hp
    · exact ⟨c, h.hand_lt hc, rfl, by simp, by rw [hself]⟩
    · obtain ⟨i, hi, rfl, hH, hpos⟩ := h.framed hj' hp
      have hne : i ≠ c := by
        rintro rfl
        exact hH hc
      exact ⟨i, hi, rfl, fun hmem => hH hmem.1, by rw [hpage i hne, hpos]⟩
  · intro j' hj'
    change (Function.update s.hashTable.table j _ j').pages.Nodup
    by_cases heq : j' = j
    · subst heq
      rw [Function.update_self, hpush]
      exact List.nodup_cons.mpr ⟨hfresh j' hj', h.frames_nodup hj'⟩
    · rw [Function.update_of_ne heq]
      exact h.frames_nodup hj'
  · intro j₁ j₂ p h₁ h₂ hp₁ hp₂
    rcases (htable h₁).mp hp₁ with ⟨rfl, rfl⟩ | hp₁
    · rcases (htable h₂).mp hp₂ with ⟨rfl, _⟩ | hp₂
      · rfl
      · exact absurd hp₂ (hfresh j₂ h₂)
    · rcases (htable h₂).mp hp₂ with ⟨_, rfl⟩ | hp₂
      · exact absurd hp₁ (hfresh j₁ h₁)
      · exact h.frames_apart h₁ h₂ hp₁ hp₂
  · exact h.local_nodup
  · intro p hp
    obtain ⟨i, hi, rfl, hH, hpos⟩ := h.listed hp
    have hne : i ≠ c := by
      rintro rfl
      exact hH hc
    exact ⟨i, hi, rfl, fun hmem => hH hmem.1, by rw [hpage i hne, hpos]⟩
  · intro i hi
    exact h.hand_lt hi.1
  · intro i
    by_cases hi : i = c
    · subst hi
      rw [hself]
      simp [hcR, Page.InUse]
    · rw [hpage i hi]
      change i ∈ R ↔ i < s.allocator.headIdx ∧ _
      rw [h.resident_iff]
      simp [hi]
  · intro i hi hnot
    by_cases heq : i = c
    · subst heq
      exact Or.inr (Or.inr ⟨j, hj, (htable hj).mpr (Or.inl ⟨rfl, rfl⟩)⟩)
    · have hH : i ∉ H := fun hmem => hnot ⟨hmem, heq⟩
      rcases h.accounted hi hH with hR | hlisted | ⟨j', hj', hmem⟩
      · exact Or.inl hR
      · exact Or.inr (Or.inl hlisted)
      · exact Or.inr (Or.inr ⟨j', hj', (htable hj').mpr (Or.inr hmem)⟩)

/-- A slot in the hand goes onto the free list. -/
theorem release (h : Pool H R s) {c : ℕ} (hc : c ∈ H) :
    Pool (H \ {c}) R
      { s.setPage (.slot c) { s.slotPage c with posState := .local } with
        localPageSet := .slot c :: s.localPageSet } := by
  have hcR : c ∉ R := fun hR => (h.resident_iff.mp hR).2.1 hc
  have hpage : ∀ i, i ≠ c →
      (s.setPage (.slot c) { s.slotPage c with posState := .local }).slotPage i
        = s.slotPage i := by
    intro i hi
    exact State.setPage_of_ne (by simpa using hi)
  have hself :
      (s.setPage (.slot c) { s.slotPage c with posState := .local }).slotPage c
        = { s.slotPage c with posState := .local } := State.setPage_self ..
  constructor
  · exact h.head_le
  · exact h.dynamic_iff
  · exact h.buckets
  · exact h.count_le
  · intro j p hj hp
    obtain ⟨i, hi, rfl, hH, hpos⟩ := h.framed hj hp
    have hne : i ≠ c := by
      rintro rfl
      exact hH hc
    refine ⟨i, hi, rfl, fun hmem => hH hmem.1, ?_⟩
    exact (congrArg Page.posState (hpage i hne)).trans hpos
  · exact h.frames_nodup
  · exact h.frames_apart
  · refine List.nodup_cons.mpr ⟨?_, h.local_nodup⟩
    intro hmem
    obtain ⟨i, _, hi, hH, _⟩ := h.listed hmem
    obtain rfl : c = i := by simpa using hi
    exact hH hc
  · intro p hp
    rcases List.mem_cons.mp hp with rfl | hp
    · exact ⟨c, h.hand_lt hc, rfl, by simp, congrArg Page.posState hself⟩
    · obtain ⟨i, hi, rfl, hH, hpos⟩ := h.listed hp
      have hne : i ≠ c := by
        rintro rfl
        exact hH hc
      refine ⟨i, hi, rfl, fun hmem => hH hmem.1, ?_⟩
      exact (congrArg Page.posState (hpage i hne)).trans hpos
  · intro i hi
    exact h.hand_lt hi.1
  · intro i
    change i ∈ R ↔ i < s.allocator.headIdx ∧ i ∉ H \ {c} ∧
      ((s.setPage (.slot c) { s.slotPage c with posState := .local }).slotPage
        i).InUse
    by_cases hi : i = c
    · subst hi
      rw [hself]
      simp [hcR, Page.InUse]
    · rw [hpage i hi, h.resident_iff]
      simp [hi]
  · intro i hi hnot
    by_cases heq : i = c
    · subst heq
      exact Or.inr (Or.inl List.mem_cons_self)
    · have hH : i ∉ H := fun hmem => hnot ⟨hmem, heq⟩
      rcases h.accounted hi hH with hR | hlisted | hcool
      · exact Or.inl hR
      · exact Or.inr (Or.inl (List.mem_cons_of_mem _ hlisted))
      · exact Or.inr (Or.inr hcool)

/-- The first slot of the free list is taken into the hand. -/
theorem pop (h : Pool H R s) {p : PagePtr} {rest : List PagePtr}
    (hlist : s.localPageSet = p :: rest) :
    ∃ v, p = .slot v ∧ v ∉ H ∧ v ∉ R ∧ v < s.allocator.headIdx ∧
      (s.slotPage v).posState = .local ∧
      Pool (insert v H) R { s with localPageSet := rest } := by
  have hmem : p ∈ s.localPageSet := by simp [hlist]
  obtain ⟨v, hv, rfl, hH, hlocal⟩ := h.listed hmem
  have hR : v ∉ R := fun hR => by simpa using h.ne_of_posState hR hlocal
  have hnodup := h.local_nodup
  rw [hlist] at hnodup
  have hout := (List.nodup_cons.mp hnodup).1
  refine ⟨v, rfl, hH, hR, hv, hlocal, ?_⟩
  constructor
  · exact h.head_le
  · exact h.dynamic_iff
  · exact h.buckets
  · exact h.count_le
  · intro j q hj hq
    obtain ⟨i, hi, rfl, hiH, hpos⟩ := h.framed hj hq
    refine ⟨i, hi, rfl, ?_, hpos⟩
    rintro (rfl | hiH')
    · rw [hlocal] at hpos
      cases hpos
    · exact hiH hiH'
  · exact h.frames_nodup
  · exact h.frames_apart
  · exact (List.nodup_cons.mp hnodup).2
  · intro q hq
    obtain ⟨i, hi, rfl, hiH, hpos⟩ :=
      h.listed (by rw [hlist]; exact List.mem_cons_of_mem _ hq)
    refine ⟨i, hi, rfl, ?_, hpos⟩
    rintro (rfl | hiH')
    · exact hout hq
    · exact hiH hiH'
  · rintro i (rfl | hi)
    · exact hv
    · exact h.hand_lt hi
  · intro i
    change i ∈ R ↔ i < s.allocator.headIdx ∧ i ∉ insert v H ∧
      (s.slotPage i).InUse
    simp only [Set.mem_insert_iff, not_or, h.resident_iff]
    constructor
    · rintro ⟨hlt, hiH, hin⟩
      refine ⟨hlt, ⟨?_, hiH⟩, hin⟩
      rintro rfl
      exact hR (h.resident_iff.mpr ⟨hlt, hiH, hin⟩)
    · rintro ⟨hlt, ⟨_, hiH⟩, hin⟩
      exact ⟨hlt, hiH, hin⟩
  · intro i hi hnot
    simp only [Set.mem_insert_iff, not_or] at hnot
    rcases h.accounted hi hnot.2 with hiR | hlisted | hcool
    · exact Or.inl hiR
    · rw [hlist] at hlisted
      rcases List.mem_cons.mp hlisted with heq | hlisted
      · exact absurd (by simpa using heq) hnot.1
      · exact Or.inr (Or.inl hlisted)
    · exact Or.inr (Or.inr hcool)

/-- The allocator hands out the next slot. -/
theorem allocate (h : Pool H R s)
    (hroom : s.allocator.headIdx < s.allocator.pageNum) {b : Bool}
    (hb : b = true ↔ s.allocator.headIdx + 1 = s.allocator.pageNum) :
    s.allocator.headIdx ∉ H ∧ s.allocator.headIdx ∉ R ∧
      Pool (insert s.allocator.headIdx H) R
        { s with
          allocator :=
            { s.allocator with headIdx := s.allocator.headIdx + 1 }
          dynamic := b } := by
  have hH : s.allocator.headIdx ∉ H := fun hmem =>
    lt_irrefl _ (h.hand_lt hmem)
  have hR : s.allocator.headIdx ∉ R := fun hmem =>
    lt_irrefl _ (h.resident_iff.mp hmem).1
  refine ⟨hH, hR, ?_⟩
  constructor
  · exact hroom
  · exact hb
  · exact h.buckets
  · exact h.count_le
  · intro j p hj hp
    obtain ⟨i, hi, rfl, hiH, hpos⟩ := h.framed hj hp
    refine ⟨i, Nat.lt_succ_of_lt hi, rfl, ?_, hpos⟩
    rintro (rfl | hmem)
    · exact lt_irrefl _ hi
    · exact hiH hmem
  · exact h.frames_nodup
  · exact h.frames_apart
  · exact h.local_nodup
  · intro p hp
    obtain ⟨i, hi, rfl, hiH, hpos⟩ := h.listed hp
    refine ⟨i, Nat.lt_succ_of_lt hi, rfl, ?_, hpos⟩
    rintro (rfl | hmem)
    · exact lt_irrefl _ hi
    · exact hiH hmem
  · rintro i (rfl | hi)
    · exact Nat.lt_succ_self _
    · exact Nat.lt_succ_of_lt (h.hand_lt hi)
  · intro i
    change i ∈ R ↔ i < s.allocator.headIdx + 1 ∧
      i ∉ insert s.allocator.headIdx H ∧ (s.slotPage i).InUse
    simp only [Set.mem_insert_iff, not_or, h.resident_iff]
    constructor
    · rintro ⟨hlt, hiH, hin⟩
      exact ⟨by omega, ⟨by omega, hiH⟩, hin⟩
    · rintro ⟨hlt, ⟨hne, hiH⟩, hin⟩
      exact ⟨by omega, hiH, hin⟩
  · intro i hi hnot
    simp only [Set.mem_insert_iff, not_or] at hnot
    have hlt : i < s.allocator.headIdx + 1 := hi
    exact h.accounted (by omega) hnot.2

/-- The slot in the hand is put to use. -/
theorem place (h : Pool H R s) {c : ℕ} (hc : c ∈ H) {p : Page}
    (hp : p.InUse) : Pool (H \ {c}) (insert c R) (s.setPage (.slot c) p) := by
  have hpage : ∀ i, i ≠ c →
      (s.setPage (.slot c) p).slotPage i = s.slotPage i := by
    intro i hi
    exact State.setPage_of_ne (by simpa using hi)
  have hself : (s.setPage (.slot c) p).slotPage c = p :=
    State.setPage_self ..
  constructor
  · exact h.head_le
  · exact h.dynamic_iff
  · exact h.buckets
  · exact h.count_le
  · intro j q hj hq
    obtain ⟨i, hi, rfl, hiH, hpos⟩ := h.framed hj hq
    have hne : i ≠ c := by
      rintro rfl
      exact hiH hc
    exact ⟨i, hi, rfl, fun hmem => hiH hmem.1, by rw [hpage i hne, hpos]⟩
  · exact h.frames_nodup
  · exact h.frames_apart
  · exact h.local_nodup
  · intro q hq
    obtain ⟨i, hi, rfl, hiH, hpos⟩ := h.listed hq
    have hne : i ≠ c := by
      rintro rfl
      exact hiH hc
    exact ⟨i, hi, rfl, fun hmem => hiH hmem.1, by rw [hpage i hne, hpos]⟩
  · intro i hi
    exact h.hand_lt hi.1
  · intro i
    change i ∈ insert c R ↔ i < s.allocator.headIdx ∧ i ∉ H \ {c} ∧ _
    by_cases hi : i = c
    · subst hi
      rw [hself]
      simp [h.hand_lt hc, hp]
    · rw [hpage i hi]
      simp only [Set.mem_insert_iff, hi, false_or, Set.mem_sdiff,
        Set.mem_singleton_iff, not_false_eq_true, and_true]
      exact h.resident_iff
  · intro i hi hnot
    by_cases heq : i = c
    · exact Or.inl (Or.inl heq)
    · have hH : i ∉ H := fun hmem => hnot ⟨hmem, heq⟩
      rcases h.accounted hi hH with hR | hplace
      · exact Or.inl (Or.inr hR)
      · exact Or.inr hplace

/-- The page of a slot in the hand may be anything. -/
theorem refill (h : Pool H R s) {c : ℕ} (hc : c ∈ H) (p : Page) :
    Pool H R (s.setPage (.slot c) p) := by
  have hpage : ∀ {i}, i ∉ H →
      (s.setPage (.slot c) p).slotPage i = s.slotPage i := by
    intro i hi
    apply State.setPage_of_ne
    simp only [ne_eq, PagePtr.slot.injEq]
    rintro rfl
    exact hi hc
  constructor
  · exact h.head_le
  · exact h.dynamic_iff
  · exact h.buckets
  · exact h.count_le
  · intro j q hj hq
    obtain ⟨i, hi, rfl, hiH, hpos⟩ := h.framed hj hq
    exact ⟨i, hi, rfl, hiH, by rw [hpage hiH, hpos]⟩
  · exact h.frames_nodup
  · exact h.frames_apart
  · exact h.local_nodup
  · intro q hq
    obtain ⟨i, hi, rfl, hiH, hpos⟩ := h.listed hq
    exact ⟨i, hi, rfl, hiH, by rw [hpage hiH, hpos]⟩
  · exact h.hand_lt
  · intro i
    rw [h.resident_iff]
    constructor
    · rintro ⟨hi, hiH, hin⟩
      exact ⟨hi, hiH, by rwa [hpage hiH]⟩
    · rintro ⟨hi, hiH, hin⟩
      exact ⟨hi, hiH, by rwa [hpage hiH] at hin⟩
  · exact h.accounted

end Pool

end CachingDex
