import CachingDex.BulkLoad

/-!
# The benchmark

`newbench` loads the keys from 1 on in ascending order and runs a mixed
workload on the tree.  It makes a backend for the worst case by the number of
loaded keys alone.  What it counts is determined by the map: its numbers do
not depend on the pool.
-/

namespace CachingDex

open Lib Lib.Traced

/-! ## Room in the backend -/

/-- Clear runs over a backend with room for all nodes. -/
def roomyContract : Contract State Halt Event where
  rely e := e.Clear
  guarantee e := e.Safe ∧ e.failsAlloc = false
  mayHalt h _ := h = .exit0

theorem splits_roomyContract : Splits roomyContract where
  base :=
    { exit0 := fun _ _ => rfl
      recycled := ⟨trivial, rfl⟩
      evicted := fun _ => ⟨trivial, rfl⟩
      handedOut := fun _ => ⟨trivial, rfl⟩
      indexed := fun _ => ⟨trivial, rfl⟩
      written := fun _ => ⟨trivial, rfl⟩
      sampled := fun _ _ => ⟨Set.notMem_empty _, trivial, rfl⟩
      called := fun _ h => ⟨h, rfl⟩
      untidy := fun h => absurd trivial h }
  window := fun _ =>
    { exit0 := fun _ _ => rfl
      recycled := ⟨trivial, rfl⟩
      evicted := fun _ => ⟨trivial, rfl⟩
      handedOut := fun _ => ⟨trivial, rfl⟩
      indexed := fun _ => ⟨trivial, rfl⟩
      written := fun _ => ⟨trivial, rfl⟩
      sampled := fun h _ => ⟨h, trivial, rfl⟩
      called := fun _ h => ⟨h, rfl⟩
      untidy := fun h => absurd trivial h }

/-- The splits of the run are left alone: the sampler stays away from the
pages of inner splits, or there are too few inserts for any. -/
def Calm (c : TreeConfig) (ops : List Op) : Prop :=
  (∀ e ∈ (freshRun ops c.initial).trace, e.Clear) ∨ inserts ops ≤ 1710

/-- One page for each 28 inserts and three more are enough. -/
theorem nodesFor_le {n pages : ℕ} (h : n + 84 ≤ 28 * pages) :
    1 + nodesFor ((29 + n) / 29) ≤ pages := by
  unfold nodesFor
  omega

section Calm

variable {c : TreeConfig} {ops : List Op}

theorem Calm.never_fails (h : Calm c ops) (hslots : 0 < c.pageNum)
    (hbuckets : 0 < c.entryNum)
    (hroom : inserts ops + 84 ≤ 28 * c.backendPages) :
    ∀ e ∈ (freshRun ops c.initial).trace, e.failsAlloc = false := by
  have hbackend := nodesFor_le hroom
  intro e he
  rcases h with hclear | hfew
  · have hC : Inserts (29 + inserts ops) roomyContract :=
      ⟨splits_roomyContract.base, fun _ => splits_roomyContract⟩
    have hrun := freshRun_step hC hslots hbuckets fun _ => hbackend
    exact ((hrun hclear).1 e he).2
  · have hC := inserts_smallContract (N := 29 + inserts ops) (by omega)
    have hrun := freshRun_step hC hslots hbuckets fun _ => hbackend
    exact ((hrun fun _ _ => trivial).1 e he).2

theorem Calm.tame (h : Calm c ops) (hslots : 0 < c.pageNum)
    (hbuckets : 0 < c.entryNum)
    (hroom : inserts ops + 84 ≤ 28 * c.backendPages) : TameRun c ops := by
  refine ⟨hslots, hbuckets, ?_⟩
  have hnever := h.never_fails hslots hbuckets hroom
  rcases h with hclear | hfew
  · exact Or.inl fun e he => ⟨hclear e he, hnever e he⟩
  · exact Or.inr ⟨hfew, nodesFor_le hroom⟩

end Calm

/-- The backend is large enough for any number of inserts up to 28 for each
of its pages, less three pages: no allocation fails, and what holds of tame
runs holds. -/
theorem calmRun_fits {c : TreeConfig} {ops : List Op} (h : Calm c ops)
    (hslots : 0 < c.pageNum) (hbuckets : 0 < c.entryNum)
    (hroom : inserts ops + 84 ≤ 28 * c.backendPages) :
    (∀ e ∈ (freshRun ops c.initial).trace, e.failsAlloc = false) ∧
      TameRun c ops :=
  ⟨h.never_fails hslots hbuckets hroom, h.tame hslots hbuckets hroom⟩

theorem calmRun_fits_mixed :
    (∀ e ∈ (freshRun mixedRun threeSlots.initial).trace,
        e.failsAlloc = false) ∧
      TameRun threeSlots mixedRun :=
  calmRun_fits (Or.inr (by decide)) (by decide) (by decide) (by decide)

/-! ## The program -/

namespace Newbench

structure Args where
  keySpace : UInt64
  readRatio : UInt32
  insertRatio : UInt32
  updateRatio : UInt32
  deleteRatio : UInt32
  scanLen : UInt32

/-- Big enough for the worst case, says the source. -/
def Args.backendPages (k : Args) : UInt64 :=
  max (64 * 1024) (k.keySpace / 8 + 1024)

inductive Pick where
  | read
  | insert
  | update
  | delete
  | range
  deriving DecidableEq

/-- The next operation type from the ratio mix. -/
def pickOp (roll : UInt32) (k : Args) : Pick :=
  let r := roll % 100
  let acc := k.readRatio
  if r < acc then .read
  else
    let acc := acc + k.insertRatio
    if r < acc then .insert
    else
      let acc := acc + k.updateRatio
      if r < acc then .update
      else
        let acc := acc + k.deleteRatio
        if r < acc then .delete
        else .range

/-- What one turn of the mixed workload draws.  The source reads
`insert_cursor` as a value in the call that increments it, so the value may
be the cursor before or after. -/
structure Draw where
  roll : UInt32
  zk : UInt64
  late : Bool

/-- One turn, with `insert_cursor` after it. -/
def turn (k : Args) (insertCursor : UInt64) (d : Draw) : Op × UInt64 :=
  let key := d.zk + 1
  match pickOp d.roll k with
  | .read => (.lookup key, insertCursor)
  | .insert =>
      (.insert insertCursor (if d.late then insertCursor + 1 else insertCursor),
        insertCursor + 1)
  | .update => (.update key (key + 7), insertCursor)
  | .delete => (.remove key, insertCursor)
  | .range => (.rangeScan key k.scanLen.toNat, insertCursor)

def mixed (k : Args) (insertCursor : UInt64) : List Draw → List Op
  | [] => []
  | d :: ds =>
      let t := turn k insertCursor d
      t.1 :: mixed k t.2 ds

/-- The keys from 1 on, each with its successor. -/
def loadPairs (k : Args) : List (Key × Value) :=
  (List.range k.keySpace.toNat).map fun i =>
    (UInt64.ofNat (i + 1), UInt64.ofNat (i + 2))

def workload (k : Args) (draws : List Draw) : List Op :=
  mixed k (k.keySpace + 1) draws

/-- The calls of `main`. -/
def mainOps (k : Args) (draws : List Draw) : List Op :=
  bulkLoad (loadPairs k) ++ workload k draws

/-- What the mixed workload counts. -/
structure Counts where
  cntRead : ℕ
  cntInsert : ℕ
  cntUpdate : ℕ
  cntDelete : ℕ
  cntRange : ℕ
  hitRead : ℕ
  hitUpdate : ℕ
  hitDelete : ℕ
  scannedTotal : ℕ

def Counts.zero : Counts :=
  ⟨0, 0, 0, 0, 0, 0, 0, 0, 0⟩

def Counts.add (c : Counts) : Op → Reply → Counts
  | .lookup _, .value v =>
      { c with
        cntRead := c.cntRead + 1
        hitRead := c.hitRead + if v.isSome then 1 else 0 }
  | .update _ _, .done ok =>
      { c with
        cntUpdate := c.cntUpdate + 1
        hitUpdate := c.hitUpdate + if ok then 1 else 0 }
  | .insert _ _, .done _ => { c with cntInsert := c.cntInsert + 1 }
  | .remove _, .done ok =>
      { c with
        cntDelete := c.cntDelete + 1
        hitDelete := c.hitDelete + if ok then 1 else 0 }
  | .rangeScan _ _, .pairs got =>
      { c with
        cntRange := c.cntRange + 1
        scannedTotal := c.scannedTotal + got.length }
  | _, _ => c

def counts (c : Counts) : List Op → List Reply → Counts
  | op :: ops, r :: rs => counts (c.add op r) ops rs
  | _, _ => c

/-! ## What one turn counts -/

section Turns

variable {k : Args} {m : KeyMap} {insertCursor : UInt64} {c : Counts}
  {n : ℕ} {d : Draw} {r : Reply}

theorem pickOp_ne_delete (hdelete : k.deleteRatio = 0) (roll : UInt32) :
    pickOp roll k ≠ .delete := by
  unfold pickOp
  simp only [hdelete, UInt32.add_zero]
  split_ifs <;> simp

/-- The keys stored. -/
def stored (m : KeyMap) : Set Key :=
  {key | m key ≠ none}

theorem ncard_stored_some {key : Key} (v : Value) (hnone : m key = none) :
    (stored (Function.update m key (some v))).ncard = (stored m).ncard + 1 := by
  have hset : stored (Function.update m key (some v)) =
      insert key (stored m) := by
    ext key'
    by_cases hkey : key' = key
    · subst hkey
      simp [stored]
    · simp [stored, hkey]
  rw [hset]
  exact Set.ncard_insert_of_notMem (by simp [stored, hnone])

theorem stored_some {key : Key} (v : Value) (hsome : m key ≠ none) :
    stored (Function.update m key (some v)) = stored m := by
  ext key'
  by_cases hkey : key' = key
  · subst hkey
    simp [stored, hsome]
  · simp [stored, hkey]

theorem ncard_stored_none (key : Key) :
    (stored (Function.update m key none)).ncard +
      (if (m key).isSome then 1 else 0) = (stored m).ncard := by
  have hset : stored (Function.update m key none) = stored m \ {key} := by
    ext key'
    by_cases hkey : key' = key
    · subst hkey
      simp [stored]
    · simp [stored, hkey]
  rw [hset]
  cases hk : m key with
  | none =>
      have hnot : key ∉ stored m := by simp [stored, hk]
      rw [Set.sdiff_singleton_eq_self hnot]
      rfl
  | some v =>
      have hmem : key ∈ stored m := by simp [stored, hk]
      simpa using Set.ncard_sdiff_singleton_add_one hmem

/-- The map and the counters after `n` turns of the mixed workload. -/
structure Phase (k : Args) (n : ℕ) (m : KeyMap) (insertCursor : UInt64)
    (c : Counts) : Prop where
  below : ∀ key, m key ≠ none → key < insertCursor
  above : k.keySpace < insertCursor
  loaded : k.deleteRatio = 0 →
    ∀ key, 0 < key → key ≤ k.keySpace → m key ≠ none
  balance : (stored m).ncard + c.hitDelete = k.keySpace.toNat + c.cntInsert
  hits : k.deleteRatio = 0 →
    c.hitRead = c.cntRead ∧ c.hitUpdate = c.cntUpdate
  turns : c.cntRead + c.cntInsert + c.cntUpdate + c.cntDelete + c.cntRange = n

/-- The key of a turn is one of those loaded. -/
theorem key_loaded (hzk : d.zk < k.keySpace) :
    0 < d.zk + 1 ∧ d.zk + 1 ≤ k.keySpace := by
  have hlt := UInt64.lt_iff_toNat_lt.mp hzk
  have hsize := k.keySpace.toNat_lt
  have hadd : (d.zk + 1).toNat = d.zk.toNat + 1 := by
    rw [UInt64.toNat_add]
    change (d.zk.toNat + 1) % 2 ^ 64 = _
    omega
  rw [UInt64.lt_iff_toNat_lt, UInt64.le_iff_toNat_le, hadd]
  exact ⟨Nat.succ_pos _, hlt⟩

theorem Phase.next (h : Phase k n m insertCursor c) (hzk : d.zk < k.keySpace)
    (hroom : insertCursor.toNat + (turn k insertCursor d).1.inserts < 2 ^ 64)
    (hr : (turn k insertCursor d).1.Answers m r) :
    Phase k (n + 1) ((turn k insertCursor d).1.effect m)
      (turn k insertCursor d).2 (c.add (turn k insertCursor d).1 r) := by
  have hturns := h.turns
  obtain ⟨hpos, hle⟩ := key_loaded hzk
  have hhit := fun hdelete => h.loaded hdelete _ hpos hle
  revert hroom hr
  unfold turn
  cases hpick : pickOp d.roll k with
  | read =>
      intro _ hr
      obtain rfl : r = .value (m (d.zk + 1)) := hr
      refine ⟨h.below, h.above, h.loaded, h.balance, ?_, ?_⟩
      · intro hdelete
        have hsome := Option.isSome_iff_ne_none.mpr (hhit hdelete)
        simp [Counts.add, hsome, h.hits hdelete]
      · simp only [Counts.add]
        omega
  | insert =>
      intro hroom hr
      have hnone : m insertCursor = none := by
        by_contra hsome
        exact lt_irrefl _ (h.below _ hsome)
      obtain rfl : r = .done (m insertCursor).isNone := hr
      have hlt : insertCursor < insertCursor + 1 := by
        rw [UInt64.lt_iff_toNat_lt, UInt64.toNat_add]
        change _ < (insertCursor.toNat + 1) % 2 ^ 64
        have hbound : insertCursor.toNat + 1 < 2 ^ 64 := hroom
        omega
      refine ⟨?_, h.above.trans hlt, ?_, ?_, h.hits, ?_⟩
      · intro key hkey
        by_cases heq : key = insertCursor
        · exact heq ▸ hlt
        · simp only [Op.effect, Function.update_of_ne heq] at hkey
          exact (h.below key hkey).trans hlt
      · intro hdelete key hkey hkeyle
        by_cases heq : key = insertCursor
        · simp [Op.effect, heq]
        · simp only [Op.effect, Function.update_of_ne heq]
          exact h.loaded hdelete key hkey hkeyle
      · have hcard := ncard_stored_some
          (if d.late then insertCursor + 1 else insertCursor) hnone
        have hbalance := h.balance
        simp only [Op.effect, Counts.add]
        omega
      · simp only [Counts.add]
        omega
  | update =>
      intro _ hr
      obtain rfl : r = .done (m (d.zk + 1)).isSome := hr
      have hstored : ∀ key, (Op.update (d.zk + 1) (d.zk + 1 + 7)).effect m key ≠
          none ↔ m key ≠ none := by
        intro key
        simp only [Op.effect]
        split
        · rename_i hsome
          have hset := stored_some (d.zk + 1 + 7)
            (Option.isSome_iff_ne_none.mp hsome)
          exact Set.ext_iff.mp hset key
        · exact Iff.rfl
      refine ⟨?_, h.above, ?_, ?_, ?_, ?_⟩
      · intro key hkey
        exact h.below key ((hstored key).mp hkey)
      · intro hdelete key hkey hkeyle
        exact (hstored key).mpr (h.loaded hdelete key hkey hkeyle)
      · have hset : stored ((Op.update (d.zk + 1) (d.zk + 1 + 7)).effect m) =
            stored m := Set.ext hstored
        rw [hset]
        exact h.balance
      · intro hdelete
        have hsome := Option.isSome_iff_ne_none.mpr (hhit hdelete)
        simp [Counts.add, hsome, h.hits hdelete]
      · simp only [Counts.add]
        omega
  | delete =>
      intro _ hr
      obtain rfl : r = .done (m (d.zk + 1)).isSome := hr
      have hdeletes : k.deleteRatio ≠ 0 := fun hdelete =>
        pickOp_ne_delete hdelete d.roll hpick
      refine ⟨?_, h.above, fun hdelete => absurd hdelete hdeletes, ?_,
        fun hdelete => absurd hdelete hdeletes, ?_⟩
      · intro key hkey
        by_cases heq : key = d.zk + 1
        · simp [Op.effect, heq] at hkey
        · simp only [Op.effect, Function.update_of_ne heq] at hkey
          exact h.below key hkey
      · have hcard := ncard_stored_none (m := m) (d.zk + 1)
        have hbalance := h.balance
        simp only [Op.effect, Counts.add]
        omega
      · simp only [Counts.add]
        omega
  | range =>
      intro _ hr
      obtain ⟨entries, rfl⟩ := hr
      refine ⟨h.below, h.above, h.loaded, h.balance, h.hits, ?_⟩
      simp only [Counts.add]
      omega

end Turns

/-! ## What a run counts -/

section Runs

variable {k : Args} {m : KeyMap} {insertCursor : UInt64} {c : Counts}
  {n : ℕ} {draws : List Draw} {rs : List Reply}

theorem Phase.run (h : Phase k n m insertCursor c)
    (hzk : ∀ d ∈ draws, d.zk < k.keySpace)
    (hroom : insertCursor.toNat + inserts (mixed k insertCursor draws) < 2 ^ 64)
    (hrs : Answered m (mixed k insertCursor draws) rs) :
    ∃ insertCursor', Phase k (n + draws.length)
      ((mixed k insertCursor draws).foldl Op.effect m) insertCursor'
      (counts c (mixed k insertCursor draws) rs) := by
  induction draws generalizing m insertCursor c n rs with
  | nil =>
      cases rs with
      | nil => exact ⟨_, h⟩
      | cons => exact hrs.elim
  | cons d draws ih =>
      cases rs with
      | nil => exact hrs.elim
      | cons r rs =>
          obtain ⟨hr, hrs⟩ := hrs
          have hsum : inserts (mixed k insertCursor (d :: draws)) =
              (turn k insertCursor d).1.inserts +
                inserts (mixed k (turn k insertCursor d).2 draws) := by
            simp [inserts, mixed]
          have hstep := h.next (hzk d (List.mem_cons_self ..)) (by omega) hr
          have hcursor : (turn k insertCursor d).2.toNat ≤
              insertCursor.toNat + (turn k insertCursor d).1.inserts := by
            unfold turn
            cases pickOp d.roll k with
            | insert =>
                simp only [UInt64.toNat_add]
                exact Nat.mod_le _ _
            | _ => exact Nat.le_add_right _ _
          obtain ⟨insertCursor', hphase⟩ := ih hstep
            (fun d' hd' => hzk d' (List.mem_cons_of_mem _ hd')) (by omega) hrs
          refine ⟨insertCursor', ?_⟩
          rw [List.length_cons, Nat.add_comm draws.length, ← Nat.add_assoc]
          exact hphase

theorem Answered.append {ops ops' : List Op}
    (h : Answered m (ops ++ ops') rs) :
    ∃ first last, rs = first ++ last ∧ Answered m ops first ∧
      Answered (ops.foldl Op.effect m) ops' last := by
  induction ops generalizing m rs with
  | nil => exact ⟨[], rs, rfl, trivial, h⟩
  | cons op ops ih =>
      cases rs with
      | nil => exact h.elim
      | cons r rs =>
          obtain ⟨hr, hrs⟩ := h
          obtain ⟨first, last, rfl, hfirst, hlast⟩ := ih hrs
          exact ⟨r :: first, last, rfl, ⟨hr, hfirst⟩, hlast⟩

/-- An ascending load of keys not stored is answered with yes throughout. -/
theorem answered_bulkLoad {entries : List (Key × Value)}
    (hsorted : SortedEntries entries) (hm : ∀ e ∈ entries, m e.1 = none)
    (h : Answered m (bulkLoad entries) rs) :
    rs = List.replicate entries.length (.done true) := by
  induction entries generalizing m rs with
  | nil =>
      cases rs with
      | nil => rfl
      | cons => exact h.elim
  | cons e entries ih =>
      cases rs with
      | nil => exact h.elim
      | cons r rs =>
          obtain ⟨hfirst, hrest⟩ := List.pairwise_cons.mp hsorted
          obtain ⟨hr, hrs⟩ := h
          have hnone : ∀ e' ∈ entries,
              Function.update m e.1 (some e.2) e'.1 = none := by
            intro e' he'
            rw [Function.update_of_ne (hfirst e' he').ne']
            exact hm e' (List.mem_cons_of_mem _ he')
          have hr : r = .done true := by
            have hfree := hm e (List.mem_cons_self ..)
            rw [show r = .done (m e.1).isNone from hr, hfree]
            rfl
          rw [hr, ih hrest hnone hrs, List.length_cons, List.replicate_succ]

end Runs

/-! ## The load -/

section Load

variable {k : Args}

theorem length_loadPairs : (loadPairs k).length = k.keySpace.toNat := by
  rw [loadPairs, List.length_map, List.length_range]

theorem toNat_ofNat_of_lt {n : ℕ} (h : n < 2 ^ 64) :
    (UInt64.ofNat n).toNat = n := by
  rw [UInt64.toNat_ofNat']
  exact Nat.mod_eq_of_lt h

theorem sorted_loadPairs (h : k.keySpace.toNat < 2 ^ 64 - 1) :
    SortedEntries (loadPairs k) := by
  refine List.pairwise_map.mpr (List.Pairwise.imp_of_mem ?_ List.pairwise_lt_range)
  intro i j hi hj hlt
  rw [List.mem_range] at hi hj
  rw [UInt64.lt_iff_toNat_lt, toNat_ofNat_of_lt (by omega),
    toNat_ofNat_of_lt (by omega)]
  omega

/-- The keys from 1 to the key space are loaded, and no others. -/
theorem mem_loadPairs (h : k.keySpace.toNat < 2 ^ 64 - 1) (key : Key) :
    (∃ v, (key, v) ∈ loadPairs k) ↔ 0 < key ∧ key ≤ k.keySpace := by
  simp only [loadPairs, List.mem_map, List.mem_range, Prod.mk.injEq]
  rw [UInt64.lt_iff_toNat_lt, UInt64.le_iff_toNat_le]
  constructor
  · intro hmem
    obtain ⟨_, i, hi, rfl, _⟩ := hmem
    rw [toNat_ofNat_of_lt (by omega)]
    exact ⟨Nat.succ_pos i, hi⟩
  · intro hkey
    obtain ⟨hpos, hle⟩ := hkey
    have hpos : 0 < key.toNat := hpos
    refine ⟨_, key.toNat - 1, by omega, ?_, rfl⟩
    rw [Nat.sub_add_cancel hpos]
    exact UInt64.ofNat_toNat

theorem toNat_backendPages :
    k.backendPages.toNat = max 65536 (k.keySpace.toNat / 8 + 1024) := by
  have hlt := k.keySpace.toNat_lt
  have hsum : (k.keySpace / 8 + 1024).toNat = k.keySpace.toNat / 8 + 1024 := by
    rw [UInt64.toNat_add, UInt64.toNat_div]
    change (k.keySpace.toNat / 8 + 1024) % 2 ^ 64 = _
    omega
  have hmax : k.backendPages = if 64 * 1024 ≤ k.keySpace / 8 + 1024 then
      k.keySpace / 8 + 1024 else 64 * 1024 := rfl
  have hle : (64 * 1024 : UInt64) ≤ k.keySpace / 8 + 1024 ↔
      65536 ≤ k.keySpace.toNat / 8 + 1024 := by
    rw [UInt64.le_iff_toNat_le, hsum]
    rfl
  rw [hmax]
  split
  · rename_i hcase
    rw [hsum, max_eq_right (hle.mp hcase)]
  · rename_i hcase
    rw [max_eq_left (not_le.mp (hle.not.mp hcase)).le]
    rfl

/-- The mixed workload starts with the loaded keys. -/
theorem phase_loaded (h : k.keySpace.toNat < 2 ^ 64 - 1) :
    Phase k 0 (mapOf (bulkLoad (loadPairs k))) (k.keySpace + 1) .zero := by
  have hsorted := sorted_loadPairs h
  have hstored : ∀ key, mapOf (bulkLoad (loadPairs k)) key ≠ none ↔
      0 < key ∧ key ≤ k.keySpace := by
    intro key
    rw [← mem_loadPairs h, Option.ne_none_iff_exists']
    refine exists_congr fun v => ?_
    have heffect := foldl_effect_bulkLoad hsorted (m := fun _ => none)
      (fun _ _ => rfl) key v
    simpa [mapOf] using heffect
  have habove : k.keySpace < k.keySpace + 1 := by
    rw [UInt64.lt_iff_toNat_lt, UInt64.toNat_add]
    change _ < (k.keySpace.toNat + 1) % 2 ^ 64
    omega
  refine ⟨?_, habove, ?_, ?_, fun _ => ⟨rfl, rfl⟩, rfl⟩
  · intro key hkey
    exact ((hstored key).mp hkey).2.trans_lt habove
  · intro _ key hpos hle
    exact (hstored key).mpr ⟨hpos, hle⟩
  · have hlength := length_listing (m := mapOf (bulkLoad (loadPairs k)))
    rw [listing_bulkLoad hsorted, length_loadPairs] at hlength
    exact hlength.symm

end Load

/-! ## The whole program -/

/-- What the counters tell after `n` turns and of the tree in the end. -/
structure Reports (k : Args) (n : ℕ) (s : State) (c : Counts) : Prop where
  turns : c.cntRead + c.cntInsert + c.cntUpdate + c.cntDelete + c.cntRange = n
  hits : k.deleteRatio = 0 →
    c.hitRead = c.cntRead ∧ c.hitUpdate = c.cntUpdate
  balance : (s.leaves.flatMap Page.entries).length + c.hitDelete =
    k.keySpace.toNat + c.cntInsert

theorem inserts_append (ops ops' : List Op) :
    inserts (ops ++ ops') = inserts ops + inserts ops' := by
  simp [inserts]

/-- The backend of the benchmark has room for the load and, in the mixed
workload, for twice as many inserts and 28000 more.  The load is answered with
yes throughout; without deletes every read and update hits; and the tree ends
with the keys that were loaded or inserted but for the deletes that hit. -/
theorem mainOps_reports {c : TreeConfig} {k : Args} {draws : List Draw}
    (hcalm : Calm c (mainOps k draws)) (hslots : 0 < c.pageNum)
    (hbuckets : 0 < c.entryNum)
    (hbackend : c.backendPages = k.backendPages.toNat)
    (hinserts : inserts (workload k draws) ≤ 2 * k.keySpace.toNat + 28000)
    (hzk : ∀ d ∈ draws, d.zk < k.keySpace) :
    (∀ e ∈ (freshRun (mainOps k draws) c.initial).trace,
        e.failsAlloc = false) ∧
      EndsIn c (mainOps k draws) fun replies s =>
        replies.take k.keySpace.toNat =
            List.replicate k.keySpace.toNat (.done true) ∧
          Reports k draws.length s (counts .zero (workload k draws)
            (replies.drop k.keySpace.toNat)) := by
  have hpages := toNat_backendPages (k := k)
  have hfits : c.backendPages * 1024 ≤ 2 ^ 47 := c.backend_fits
  have hsize : k.keySpace.toNat < 2 ^ 60 := by omega
  have hload := inserts_bulkLoad (loadPairs k)
  rw [length_loadPairs] at hload
  have hroom : inserts (mainOps k draws) + 84 ≤ 28 * c.backendPages := by
    rw [mainOps, inserts_append]
    omega
  refine ⟨hcalm.never_fails hslots hbuckets hroom, ?_⟩
  refine (hcalm.tame hslots hbuckets hroom).ends.2.mono ?_
  intro replies s hend
  obtain ⟨first, last, rfl, hfirst, hlast⟩ :=
    Answered.append hend.replied.answered
  have hreplies := answered_bulkLoad (sorted_loadPairs (by omega))
    (fun _ _ => rfl) hfirst
  rw [length_loadPairs] at hreplies
  have hlength : first.length = k.keySpace.toNat := by
    rw [hreplies, List.length_replicate]
  have hcursor : (k.keySpace + 1).toNat = k.keySpace.toNat + 1 := by
    rw [UInt64.toNat_add]
    change (k.keySpace.toNat + 1) % 2 ^ 64 = _
    omega
  have hstart := phase_loaded (k := k) (by omega)
  have hbound : (k.keySpace + 1).toNat + inserts (workload k draws) <
      2 ^ 64 := by omega
  obtain ⟨_, hphase⟩ := hstart.run hzk hbound hlast
  obtain ⟨R, F, htree, hm⟩ := hend.tree
  obtain ⟨hlist, _⟩ := htree.list_leaves hm
  have hstored : (s.leaves.flatMap Page.entries).length =
      (stored (mapOf (mainOps k draws))).ncard := by
    rw [hlist]
    exact length_listing
  have hmap : mapOf (mainOps k draws) =
      (workload k draws).foldl Op.effect (mapOf (bulkLoad (loadPairs k))) :=
    List.foldl_append ..
  rw [← hlength, List.take_left, List.drop_left, hlength]
  refine ⟨hreplies, hphase.turns.trans (Nat.zero_add _), hphase.hits, ?_⟩
  rw [hstored, hmap]
  exact hphase.balance

/-- A fifth of each operation. -/
def smallArgs : Args where
  keySpace := 3
  readRatio := 20
  insertRatio := 20
  updateRatio := 20
  deleteRatio := 20
  scanLen := 2

/-- One turn of each operation, and a read that misses. -/
def smallDraws : List Draw :=
  [⟨7, 2, false⟩, ⟨25, 0, true⟩, ⟨145, 1, false⟩, ⟨61, 0, false⟩,
    ⟨99, 2, false⟩, ⟨100, 0, false⟩]

/-- A pool of three pages over the backend of the benchmark. -/
def benchConfig : TreeConfig :=
  { threeSlots with
    backendPages := 65536
    backend_fits := Nat.le_of_ble_eq_true rfl }

theorem mainOps_small_returns :
    (freshRun (mainOps smallArgs smallDraws) benchConfig.initial).result =
      .ok [.done true, .done true, .done true, .value (some 4),
        .done true, .done true, .done true, .pairs [(3, 4), (4, 5)],
        .value none] := by
  decide +kernel

theorem mainOps_reports_small :
    (∀ e ∈ (freshRun (mainOps smallArgs smallDraws) benchConfig.initial).trace,
        e.failsAlloc = false) ∧
      ∃ replies,
        (freshRun (mainOps smallArgs smallDraws) benchConfig.initial).result =
          .ok replies ∧
        replies.take 3 = List.replicate 3 (.done true) ∧
          Reports smallArgs 6
            (freshRun (mainOps smallArgs smallDraws) benchConfig.initial).state
            (counts .zero (workload smallArgs smallDraws)
              (replies.drop 3)) := by
  have hcalm : Calm benchConfig (mainOps smallArgs smallDraws) :=
    Or.inr (by decide)
  obtain ⟨hnever, hends⟩ := mainOps_reports hcalm (by decide) (by decide)
    (by decide) (by decide) (by decide)
  exact ⟨hnever, hends.of_returns ⟨_, mainOps_small_returns⟩⟩

end Newbench

end CachingDex
