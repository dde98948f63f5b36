import CachingDex.Traffic
import CachingDex.Lib.AscendingLoad

/-!
# Bulk loads

The benchmark fills its tree with keys in ascending order.  Such a load splits
no leaf but the rightmost one, so the leaves stay chained, and every leaf but
the last one ends with 29 of its 59 entries.

The first part holds after any run: the leaves from left to right list the
map that the run has made.
-/

namespace CachingDex

open Lib Lib.Traced

section Leaves

variable {R : Set ℕ} {s : State} {F : TreeForest} {m : KeyMap}

theorem Current.entriesAt {a : GlobalAddress} {p : Page}
    (h : Current R s F a p) (hleaf : p.type = .btreeLeaf) :
    F.entriesAt a = p.entries := by
  rw [Forest.entriesAt, h.shown, Page.node_of_leaf hleaf]
  rfl

/-- The addresses of the leaf pages, with what is known of the pages. -/
structure LeafList (R : Set ℕ) (s : State) (F : TreeForest)
    (l : List GlobalAddress) : Prop where
  pages : List.Forall₂ (Current R s F) l s.leaves
  spans : F.Spans ⊥ l ⊤
  every : ∀ {a lo hi entries next},
    F a = some (.leaf lo hi entries next) → a ∈ l

theorem Tree.exists_leafList (h : Tree R s F) : ∃ l, LeafList R s F l := by
  obtain ⟨l, hpages, hspans, hall⟩ := h.leaves
  exact ⟨l, hpages, hspans, hall⟩

namespace LeafList

variable {l : List GlobalAddress}

theorem leaf (h : LeafList R s F l) {a : GlobalAddress} {p : Page}
    (ha : a ∈ l) (hp : Current R s F a p) : p.type = .btreeLeaf := by
  obtain ⟨_, _, _, _, hleaf⟩ := h.spans.mem ha
  exact (hp.leaf_fields hleaf).1

theorem entries (h : LeafList R s F l) :
    s.leaves.flatMap Page.entries = l.flatMap F.entriesAt := by
  have hleaf : ∀ {a p}, a ∈ l → Current R s F a p → p.type = .btreeLeaf :=
    h.leaf
  have hpages := h.pages
  clear h
  generalize s.leaves = ps at hpages
  induction hpages with
  | nil => rfl
  | cons hp _ ih =>
      rw [List.flatMap_cons, List.flatMap_cons,
        hp.entriesAt (hleaf (by simp) hp),
        ih fun ha hq => hleaf (List.mem_cons_of_mem _ ha) hq]

theorem length (h : LeafList R s F l) (ht : Tree R s F) :
    s.leaves.length = s.leafNum := by
  have hnodup := (h.spans.nodup ht.search).1
  have hset : F.leaves = {a | a ∈ l} := by
    ext a
    constructor
    · intro ha
      obtain ⟨n, hn, hleaf⟩ := ha
      cases n with
      | leaf lo hi entries next => exact h.every hn
      | inner => cases hleaf
    · intro ha
      obtain ⟨_, _, _, _, hleaf⟩ := h.spans.mem ha
      exact ⟨_, hleaf, rfl⟩
  rw [← ht.shape.leaves_ncard, ← h.pages.length_eq, hset,
    ← List.toFinset_card_of_nodup hnodup, ← Set.ncard_coe_finset]
  congr 1
  ext a
  simp

end LeafList

/-- From left to right the leaf pages list the map of the tree. -/
theorem Tree.list_leaves (h : Tree R s F) (hm : Represents F m) :
    s.leaves.flatMap Page.entries = listing m ⊥ ⊤ ∧
      s.leaves.length = s.leafNum := by
  obtain ⟨l, hl⟩ := h.exists_leafList
  exact ⟨hl.entries.trans (hl.spans.listing h.search hl.every hm), hl.length h⟩

end Leaves

/-- After a tame run the leaves of the tree, wherever their pages are, list
what is stored in the order of the keys, and are as many as the tree
counts. -/
theorem tameRun_lists_map {c : TreeConfig} {ops : List Op}
    (h : TameRun c ops) :
    EndsIn c ops fun _ s =>
      s.leaves.flatMap Page.entries = listing (mapOf ops) ⊥ ⊤ ∧
        s.leaves.length = s.leafNum := by
  refine h.ends.2.mono ?_
  intro _ s hend
  obtain ⟨R, F, htree, hm⟩ := hend.tree
  exact htree.list_leaves hm

theorem tameRun_lists_map_mixed :
    let s := (freshRun mixedRun threeSlots.initial).state
    s.leaves.flatMap Page.entries = listing (mapOf mixedRun) ⊥ ⊤ ∧
      s.leaves.length = s.leafNum := by
  obtain ⟨_, _, hlists⟩ :=
    (tameRun_lists_map tameRun_mixed).of_returns mixedRun_returns
  exact hlists

/-! ## Ascending inserts -/

/-- Inserts of the pairs, one after the other. -/
def bulkLoad (entries : List (Key × Value)) : List Op :=
  entries.map fun e => .insert e.1 e.2

theorem inserts_bulkLoad (entries : List (Key × Value)) :
    inserts (bulkLoad entries) = entries.length := by
  induction entries with
  | nil => rfl
  | cons e entries ih =>
      have hcons : inserts (bulkLoad (e :: entries)) =
          1 + inserts (bulkLoad entries) := by
        simp [inserts, bulkLoad, Op.inserts]
      rw [hcons, ih, List.length_cons, Nat.add_comm]

/-- A load in ascending order adds its pairs to the map. -/
theorem foldl_effect_bulkLoad {entries : List (Key × Value)}
    (hsorted : SortedEntries entries) {m : KeyMap}
    (hm : ∀ e ∈ entries, m e.1 = none) (k : Key) (v : Value) :
    (bulkLoad entries).foldl Op.effect m k = some v ↔
      (k, v) ∈ entries ∨ m k = some v := by
  induction entries generalizing m with
  | nil => simp [bulkLoad]
  | cons e entries ih =>
      obtain ⟨hfirst, hrest⟩ := List.pairwise_cons.mp hsorted
      have hnone : ∀ e' ∈ entries,
          Function.update m e.1 (some e.2) e'.1 = none := by
        intro e' he'
        rw [Function.update_of_ne (hfirst e' he').ne']
        exact hm e' (List.mem_cons_of_mem _ he')
      have hstep := ih hrest hnone
      change (bulkLoad entries).foldl Op.effect
        (Function.update m e.1 (some e.2)) k = some v ↔ _
      rw [hstep, List.mem_cons]
      by_cases hk : k = e.1
      · subst hk
        have hmem := hm e (List.mem_cons_self ..)
        rw [Function.update_self, hmem]
        constructor
        · intro hcase
          rcases hcase with hcase | hcase
          · exact Or.inl (Or.inr hcase)
          · rw [Option.some.injEq] at hcase
            exact Or.inl (Or.inl (by rw [← hcase]))
        · intro hcase
          rcases hcase with (hcase | hcase) | hcase
          · exact Or.inr (by rw [← hcase])
          · exact Or.inl hcase
          · cases hcase
      · rw [Function.update_of_ne hk]
        have hne : (k, v) ≠ e := fun heq => hk (congrArg Prod.fst heq)
        simp [hne]

theorem listing_bulkLoad {entries : List (Key × Value)}
    (hsorted : SortedEntries entries) :
    listing (mapOf (bulkLoad entries)) ⊥ ⊤ = entries := by
  refine (eq_listing hsorted ?_).symm
  intro e
  have heffect := foldl_effect_bulkLoad hsorted (m := fun _ => none)
    (fun _ _ => rfl) e.1 e.2
  rw [mapOf, heffect]
  simp

section Load

variable {R : Set ℕ} {s : State} {F : TreeForest} {m : KeyMap}
  {C : Contract State Halt Event} {N : ℕ}

/-- A key above all keys of the tree is not stored. -/
theorem Represents.none_of_below (hm : Represents F m) {k : Key}
    (hk : F.Below k) : m k = none := by
  by_contra hsome
  obtain ⟨v, hv⟩ := Option.ne_none_iff_exists'.mp hsome
  obtain ⟨a, n, ha, hmem⟩ := (hm k v).mpr hv
  cases n with
  | inner => cases hmem
  | leaf lo hi entries next => exact lt_irrefl k (hk.entry ha (k, v) hmem)

/-- What an ascending load leaves of a tree within bounds. -/
structure LoadStep (C : Contract State Halt Event) (N : ℕ) (m : KeyMap)
    (entries : List (Key × Value)) (R' : Set ℕ) (s' : State)
    (F' : TreeForest) : Prop where
  tree : Tree R' s' F'
  represents : Represents F' ((bulkLoad entries).foldl Op.effect m)
  linked : F'.LeafLinked .null
  halfFull : F'.HalfFull 29 2

theorem runOps_load (hC : Inserts N C) (entries : List (Key × Value))
    (hsorted : SortedEntries entries) (h : Tree R s F) (hN : Within C N F s)
    (hm : Represents F m) (hle : leafCredit F + entries.length ≤ N)
    (hlinked : F.LeafLinked .null) (hhalf : F.HalfFull 29 2)
    (hbelow : ∀ e ∈ entries, F.Below e.1) :
    Meets C (runOps (bulkLoad entries)) s fun replies s' =>
      replies = List.replicate entries.length (.done true) ∧
        ∃ R' F', LoadStep C N m entries R' s' F' := by
  induction entries generalizing R F m s with
  | nil => exact meets_pure ⟨rfl, R, F, h, hm, hlinked, hhalf⟩
  | cons e entries ih =>
      obtain ⟨hfirst, hrest⟩ := List.pairwise_cons.mp hsorted
      have hk : F.Below e.1 := hbelow e (List.mem_cons_self ..)
      rw [List.length_cons] at hle
      change Meets C (Op.run (.insert e.1 e.2) >>= fun reply =>
        runOps (bulkLoad entries) >>= fun replies =>
          pure (reply :: replies)) s _
      apply Meets.bind
      apply Meets.bind
      refine (h.insert_step hC hN hm e.1 e.2).mono ?_
      intro ok s' hok
      obtain ⟨rfl, R', F', hstep⟩ := hok
      obtain ⟨F₁, root, old, hsearch, hgrown, hedit⟩ := hstep.edits
      obtain ⟨hhalf₁, hbelow₁⟩ :=
        (hhalf.mono one_le_two).splits hk hgrown.splits
      obtain ⟨hhalf', hbelow'⟩ := hhalf₁.put hbelow₁ hsearch hedit
      have hcredit := hstep.credit
      apply meets_pure
      apply Meets.bind
      refine (ih hrest hstep.tree (hstep.within (by omega)) hstep.represents
        (by omega) (hstep.chain.linked (hk.fullLast 59) hlinked) hhalf'
        fun e' he' => hbelow' e'.1 (hfirst e' he')).mono ?_
      intro replies t ht
      obtain ⟨rfl, R'', F'', hload⟩ := ht
      refine meets_pure ⟨?_, R'', F'', hload.tree, hload.represents,
        hload.linked, hload.halfFull⟩
      rw [hm.none_of_below hk]
      rfl

/-- A tree with the credit of one leaf is one leaf. -/
theorem Tree.lone_leaf (h : Tree R s F) (hcredit : leafCredit F = 29)
    {a next : GlobalAddress} {lo hi : Key} {entries : List (Key × Value)}
    (ha : F a = some (.leaf lo hi entries next)) : lo = ⊥ ∧ hi = ⊤ := by
  obtain ⟨l, hl⟩ := h.exists_leafList
  have hle : 29 * s.leafNum ≤ leafCredit F := h.shape.least_mul_le
  have hlength : l.length ≤ 1 := by
    rw [hl.pages.length_eq, hl.length h]
    omega
  have hmem := hl.every ha
  obtain ⟨b, rfl⟩ : ∃ b, l = [b] :=
    List.length_eq_one_iff.mp (by have := List.length_pos_of_mem hmem; omega)
  obtain rfl := List.mem_singleton.mp hmem
  obtain ⟨mid, _, _, hb, hmid⟩ := hl.spans
  rw [ha, Option.some.injEq, Node.leaf.injEq] at hb
  exact ⟨hb.1, hb.2.1.trans hmid⟩

theorem Tree.halfFull_of_empty (h : Tree R s F)
    (hm : Represents F fun _ => none) (hcredit : leafCredit F = 29) :
    F.HalfFull 29 2 ∧ ∀ k, F.Below k := by
  apply Forest.HalfFull.of_empty
  intro a lo hi entries next ha
  obtain ⟨hlo, hhi⟩ := h.lone_leaf hcredit ha
  refine ⟨hlo, hhi, List.eq_nil_iff_forall_not_mem.mpr ?_⟩
  intro e he
  have hnone := (hm e.1 e.2).mp ⟨a, _, ha, he⟩
  cases hnone

/-- The tree that an ascending load of a fresh tree ends in. -/
structure BulkLoaded (entries : List (Key × Value)) (s : State) : Prop where
  chain : LeafChain s
  listed : s.leaves.flatMap Page.entries = entries
  half : ∀ p ∈ s.leaves.dropLast, p.count = 29
  leafNum : s.leafNum = 1 + (entries.length - 31) / 29

theorem Tree.bulkLoaded (h : Tree R s F) {entries : List (Key × Value)}
    (hsorted : SortedEntries entries)
    (hm : Represents F (mapOf (bulkLoad entries)))
    (hlinked : F.LeafLinked .null) (hhalf : F.HalfFull 29 2) :
    BulkLoaded entries s := by
  obtain ⟨l, hl⟩ := h.exists_leafList
  obtain ⟨hlist, hcount⟩ := h.list_leaves hm
  rw [listing_bulkLoad hsorted] at hlist
  refine ⟨h.leafChain hlinked, hlist, ?_, ?_⟩
  · intro p hp
    rw [List.dropLast_eq_take] at hp
    have hpages := List.forall₂_take (s.leaves.length - 1) hl.pages
    rw [← hl.pages.length_eq, ← List.dropLast_eq_take] at hpages
    rw [← hl.pages.length_eq] at hp
    obtain ⟨i, hi, rfl⟩ := List.getElem_of_mem hp
    have hlt : i < l.dropLast.length := by
      rw [hpages.length_eq]
      exact hi
    have hcur := hpages.get hlt hi
    rw [List.get_eq_getElem, List.get_eq_getElem] at hcur
    have hmem : l.dropLast[i] ∈ l.dropLast := List.getElem_mem hlt
    have hleaf := hl.leaf (List.dropLast_subset l hmem) hcur
    have hlength := hhalf.length_entriesAt h.search hl.spans _ hmem
    rw [hcur.entriesAt hleaf, Page.length_entries hcur.formed.count_le]
      at hlength
    rw [← UInt8.toNat_inj]
    exact hlength
  · obtain ⟨rest, hsum, hle, hleast⟩ :=
      hhalf.length h.search hl.spans (by decide)
    have hnum : l.length = s.leafNum := by
      rw [hl.pages.length_eq, hcount]
    have hpos : l ≠ [] := by
      rintro rfl
      exact absurd (show (⊥ : Key) = ⊤ from hl.spans) (by decide)
    have hpos := List.length_pos_of_ne_nil hpos
    rw [← hl.entries, hlist] at hsum
    rcases Nat.lt_or_ge 1 l.length with hmany | hone
    · have hrest := hleast (Or.inr hmany)
      omega
    · omega

end Load

/-- An ascending load of a fresh tree stores every pair, chains the leaves in
order, and leaves all of them but the last one with 29 entries: a leaf more
for every 29 pairs, where the benchmark expects one for every 30. -/
theorem tameRun_bulkLoad {c : TreeConfig} {entries : List (Key × Value)}
    (h : TameRun c (bulkLoad entries)) (hsorted : SortedEntries entries) :
    EndsIn c (bulkLoad entries) fun replies s =>
      replies = List.replicate entries.length (.done true) ∧
        BulkLoaded entries s := by
  refine (h.endsIn ?_).2
  intro C hC hbackend
  unfold freshRun
  apply Meets.bind
  refine (construct_step hC.base h.slots h.buckets (Nat.le_add_right 29 _)
    hbackend).mono ?_
  intro _ s hs
  obtain ⟨R, F, htree, hm, hlinked, hcredit, hN⟩ := hs
  obtain ⟨hhalf, hbelow⟩ := htree.halfFull_of_empty hm hcredit
  have hinserts := inserts_bulkLoad entries
  refine (runOps_load hC entries hsorted htree hN hm (by omega) hlinked hhalf
    fun e _ => hbelow e.1).mono ?_
  intro replies s' hs'
  obtain ⟨hreplies, R', F', hload⟩ := hs'
  exact ⟨hreplies, hload.tree.bulkLoaded hsorted hload.represents hload.linked
    hload.halfFull⟩

/-- A run that returns has done so up to any operation. -/
theorem runOps_returns_of_append (ops later : List Op) (s : State)
    (h : ∃ replies, (runOps (ops ++ later) s).result = .ok replies) :
    ∃ replies, (runOps ops s).result = .ok replies := by
  induction ops generalizing s with
  | nil => exact ⟨[], rfl⟩
  | cons op ops ih =>
      obtain ⟨replies, hreplies⟩ := h
      rw [List.cons_append, runOps] at hreplies
      rw [runOps]
      rcases hrun : op.run s with ⟨result, s', trace⟩
      cases result with
      | error e =>
          rw [bind_of_error hrun] at hreplies
          cases hreplies
      | ok reply =>
          rw [bind_of_ok hrun] at hreplies ⊢
          rcases hrest : runOps (ops ++ later) s' with ⟨result', s'', trace'⟩
          cases result' with
          | error e =>
              dsimp only at hreplies
              rw [bind_of_error hrest] at hreplies
              cases hreplies
          | ok rest =>
              obtain ⟨rs, hrs⟩ := ih s' ⟨rest, by rw [hrest]⟩
              rcases hops : runOps ops s' with ⟨result', s'', trace'⟩
              rw [hops] at hrs
              obtain rfl : result' = .ok rs := hrs
              refine ⟨reply :: rs, ?_⟩
              dsimp only
              rw [bind_of_ok hops]
              rfl

theorem freshRun_returns_of_append {c : TreeConfig} (ops later : List Op)
    (h : ∃ replies, (freshRun (ops ++ later) c.initial).result =
      .ok replies) :
    ∃ replies, (freshRun ops c.initial).result = .ok replies := by
  obtain ⟨replies, hreplies⟩ := h
  rw [freshRun] at hreplies ⊢
  rcases hrun : construct c.initial with ⟨result, s, trace⟩
  cases result with
  | error e =>
      rw [bind_of_error hrun] at hreplies
      cases hreplies
  | ok _ =>
      rw [bind_of_ok hrun] at hreplies ⊢
      exact runOps_returns_of_append ops later s ⟨replies, hreplies⟩

/-- The pairs that `mixedRun` starts with. -/
def ninetyPairs : List (Key × Value) :=
  (List.range 90).map fun i => (UInt64.ofNat (i + 1), UInt64.ofNat i)

theorem tameRun_bulkLoad_ninety :
    ∃ replies,
      (freshRun (bulkLoad ninetyPairs) threeSlots.initial).result =
        .ok replies ∧
      replies = List.replicate ninetyPairs.length (.done true) ∧
        BulkLoaded ninetyPairs
          (freshRun (bulkLoad ninetyPairs) threeSlots.initial).state := by
  have hsorted : SortedEntries ninetyPairs := by
    unfold SortedEntries
    decide
  have htame : TameRun threeSlots (bulkLoad ninetyPairs) :=
    ⟨by decide, by decide, Or.inr ⟨by decide, by decide⟩⟩
  refine (tameRun_bulkLoad htame hsorted).of_returns ?_
  have hload : bulkLoad ninetyPairs = ascending 90 := by
    rw [bulkLoad, ninetyPairs, ascending, List.map_map]
    rfl
  rw [hload]
  exact freshRun_returns_of_append _ _ mixedRun_returns

end CachingDex
