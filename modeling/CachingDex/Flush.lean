import CachingDex.CacheInvariant
import CachingDex.MemoryNodes

/-!
# Writing everything back

`flush_all` writes a copy of every dirty page to the backend, with the
addresses of the children in place of tagged words.  In a pool that is in
order this trips no assertion and changes nothing else, and afterwards the
backend holds the whole tree without tagged words: a memory node that starts
at the root address reads the map of the tree.
-/

namespace CachingDex

open Lib Lib.Traced

/-! ## The copy that is written -/

section Copy

variable {s : State} {p : Page}

theorem type_fullyUnswizzle : (fullyUnswizzle s p).type = p.type := by
  unfold fullyUnswizzle
  split <;> rfl

theorem count_fullyUnswizzle : (fullyUnswizzle s p).count = p.count := by
  unfold fullyUnswizzle
  split <;> rfl

theorem remoteAddress_fullyUnswizzle :
    (fullyUnswizzle s p).remoteAddress = p.remoteAddress := by
  unfold fullyUnswizzle
  split <;> rfl

theorem child_fullyUnswizzle (htype : p.type = .btreeInner) {i : ℕ}
    (hi : i ≤ p.count.toNat) (hlt : i < 60) :
    (fullyUnswizzle s p).children[i]? =
      some (.remote (s.addressOf (p.child i))) := by
  have hget : p.children.get ⟨i, hlt⟩ = p.child i := by
    simp [Page.child, hlt, Vector.get]
  rw [fullyUnswizzle, if_neg (by simp [htype]),
    Vector.getElem?_eq_getElem hlt, Vector.getElem_ofFn]
  simp only [if_pos hi, hget]
  cases p.child i with
  | swizzled q => rfl
  | remote a => rfl

theorem slots_fullyUnswizzle (hp : p.Formed) :
    (fullyUnswizzle s p).slots =
      p.slots.map fun c => .remote (s.addressOf c) := by
  rcases hp.typed with hleaf | htype
  · rw [Page.slots_of_leaf hleaf,
      Page.slots_of_leaf (type_fullyUnswizzle.trans hleaf)]
    rfl
  · apply List.ext_getElem?
    intro i
    rw [List.getElem?_map,
      Page.slots_of_inner (type_fullyUnswizzle.trans htype),
      count_fullyUnswizzle, getElem?_live]
    have hcount := hp.count_le
    by_cases hi : i ≤ p.count.toNat
    · rw [Page.getElem?_slots hp htype hi, if_pos (by omega),
        child_fullyUnswizzle htype hi (by omega)]
      rfl
    · rw [Page.slots_of_inner htype, getElem?_live, if_neg (by omega),
        if_neg (by omega)]
      rfl

/-- The copy has no tagged words, so an empty bitmap is in order. -/
theorem formed_fullyUnswizzle (hp : p.Formed) :
    (fullyUnswizzle s p).Formed := by
  have hslots := slots_fullyUnswizzle (s := s) hp
  refine ⟨?_, ?_, ?_, ?_⟩
  · rw [type_fullyUnswizzle]
    exact hp.typed
  · rw [count_fullyUnswizzle]
    exact hp.count_le
  · unfold fullyUnswizzle
    split <;> exact hp.leaf_level
  · intro i
    have hnone : ¬ ∃ q, (fullyUnswizzle s p).slots[i]? =
        some (.swizzled q) := by
      intro h
      obtain ⟨q, hq⟩ := h
      rw [hslots, List.getElem?_map, Option.map_eq_some_iff] at hq
      obtain ⟨c, _, hc⟩ := hq
      cases hc
    refine iff_of_false ?_ hnone
    unfold fullyUnswizzle
    split
    · rename_i hleaf
      rw [hp.aligned, Page.slots_of_leaf hleaf]
      simp
    · simp

theorem node_fullyUnswizzle (hp : p.Formed) :
    (fullyUnswizzle s p).node ChildSlot.home = p.node s.addressOf := by
  have hslots := slots_fullyUnswizzle (s := s) hp
  rcases hp.typed with hleaf | htype
  · rw [fullyUnswizzle, if_pos hleaf, Page.node_of_leaf hleaf,
      Page.node_of_leaf hleaf]
  · have hnot : p.type ≠ .btreeLeaf := by
      rw [htype]
      decide
    rw [Page.node_of_inner (type_fullyUnswizzle.trans htype),
      Page.node_of_inner htype, hslots, List.map_map]
    rw [fullyUnswizzle, if_neg hnot]
    rfl

theorem bitmapCovers_of_formed (hp : p.Formed) : bitmapCovers p = true := by
  rw [bitmapCovers, decide_eq_true_eq]
  by_cases hleaf : p.type = .btreeLeaf
  · exact Or.inl hleaf
  · right
    intro i hi htag
    have htype := hp.typed.resolve_left hleaf
    rw [hp.aligned, Page.getElem?_slots hp htype (Nat.le_of_lt_succ hi)]
    cases hchild : p.child i with
    | swizzled q => exact ⟨q, rfl⟩
    | remote a =>
        rw [hchild] at htag
        cases htag

/-- The backend holds the node of a page once its copy is written. -/
theorem Image.of_flush {b : InMemoryBackend} (hp : p.Formed)
    (hrange : b.inRange p.remoteAddress = true) :
    Image (b.write p.remoteAddress (fullyUnswizzle s p).toImage)
      p.remoteAddress (p.node s.addressOf) := by
  have hformed := formed_fullyUnswizzle (s := s) hp
  rw [← node_fullyUnswizzle hp]
  refine Image.of_write (p := (fullyUnswizzle s p).toImage) hrange
    remoteAddress_fullyUnswizzle
    ⟨hformed.typed, hformed.count_le, hformed.leaf_level, hformed.aligned⟩ ?_
  intro c hc
  change c ∈ (fullyUnswizzle s p).slots at hc
  rw [slots_fullyUnswizzle hp, List.mem_map] at hc
  obtain ⟨_, _, rfl⟩ := hc
  rfl

end Copy

/-! ## One page -/

namespace State

/-- The dirty page in slot `i` is written back. -/
def flushSlot (s : State) (i : ℕ) : State :=
  { s.setPage (.slot i) { s.slotPage i with dirty := false } with
    scratch := { fullyUnswizzle s (s.slotPage i) with dirty := false }
    backend := s.backend.write (s.addr i)
      (fullyUnswizzle s (s.slotPage i)).toImage }

end State

section Page

variable {R : Set ℕ} {s : State} {F : TreeForest} {i : ℕ}

theorem slotPage_flushSlot : (s.flushSlot i).slotPage i =
    { s.slotPage i with dirty := false } :=
  State.setPage_self ..

theorem page_flushSlot_of_ne {p : PagePtr} (hp : p ≠ .slot i) :
    (s.flushSlot i).page p = s.page p := by
  rw [State.flushSlot]
  exact State.setPage_of_ne hp

theorem slotPage_flushSlot_of_ne {j : ℕ} (hj : j ≠ i) :
    (s.flushSlot i).slotPage j = s.slotPage j :=
  page_flushSlot_of_ne (by simpa using hj)

theorem sameBody_flushSlot (j : ℕ) :
    SameBody (s.slotPage j) ((s.flushSlot i).slotPage j) := by
  by_cases hj : j = i
  · subst hj
    rw [slotPage_flushSlot]
    rfl
  · rw [slotPage_flushSlot_of_ne hj]
    exact .refl _

theorem sameState_flushSlot (j : ℕ) :
    ((s.flushSlot i).slotPage j).posState = (s.slotPage j).posState ∧
      ((s.flushSlot i).slotPage j).parentPtr = (s.slotPage j).parentPtr := by
  by_cases hj : j = i
  · subst hj
    rw [slotPage_flushSlot]
    exact ⟨rfl, rfl⟩
  · rw [slotPage_flushSlot_of_ne hj]
    exact ⟨rfl, rfl⟩

theorem Backed.flushSlot {adrift : GlobalAddress → Prop}
    (h : Backed True adrift R s F) (hR : Cached ∅ R s F) (hi : i ∈ R) :
    Backed True adrift R (s.flushSlot i) F := by
  have hnode := hR.shown hi
  have hplaced := h.placed hnode
  have haddr : ∀ j, (s.flushSlot i).addr j = s.addr j := fun j =>
    (sameBody_flushSlot j).remoteAddress
  constructor
  · exact h.linked
  · exact h.level_lt
  · exact h.ordered
  · rw [State.flushSlot, InMemoryBackend.capacityBytes_write]
    exact h.capacity_le
  · intro a n hn
    exact (h.placed hn).write _
  · intro a n hn hclean
    by_cases ha : a = s.addr i
    · subst ha
      rw [hnode, Option.some.injEq] at hn
      subst hn
      exact Image.of_flush (hR.formed hi) hplaced.inRange
    · refine Image.write_of_ne (h.image hn ?_) (h.placed hn) hplaced ha _
      intro j hj hja
      have hne : j ≠ i := by
        rintro rfl
        exact ha hja.symm
      rw [← slotPage_flushSlot_of_ne hne]
      exact hclean j hj ((haddr j).trans hja)
  · intro _ j hj hdirty
    by_cases hji : j = i
    · exact hji ▸ hi
    · rw [slotPage_flushSlot_of_ne hji] at hdirty
      exact h.clean trivial hj hdirty

/-- Writing a page back keeps the cache in order. -/
theorem Ready.flushSlot (h : Ready True R s F) (hi : i ∈ R) :
    Ready True R (s.flushSlot i) F := by
  have hpos : ∀ j, ((s.flushSlot i).slotPage j).posState =
      (s.slotPage j).posState := fun j => (sameState_flushSlot j).1
  constructor
  · constructor
    · exact h.settled.pool.congr rfl rfl rfl rfl hpos
    · refine h.settled.cached.touch (fun j _ => sameBody_flushSlot j)
        (fun j _ _ => (sameState_flushSlot j).2) ?_
      rw [page_flushSlot_of_ne (by simp)]
      exact h.settled.cached.super_level
    · exact h.settled.backed.flushSlot h.settled.cached hi
    · refine h.settled.mapped.congr rfl rfl
        (fun j => (sameBody_flushSlot j).remoteAddress) ?_
      intro j hlocal
      rwa [hpos] at hlocal
  · intro j hj
    rw [hpos]
    exact h.hot j hj
  · exact h.pages

/-- The slots in `J` are clean, and nothing else has changed but the counts
of misses, the scratch buffer and the pages of the backend. -/
structure Flushed (J : Set ℕ) (s s' : State) : Prop where
  clean : ∀ {j}, j ∈ J → s'.slotPage j = { s.slotPage j with dirty := false }
  other : ∀ {p}, (∀ j ∈ J, p ≠ .slot j) → s'.page p = s.page p
  rest : s' = { s with
    page := s'.page, innerMiss := s'.innerMiss, leafMiss := s'.leafMiss,
    scratch := s'.scratch, backend := s'.backend }
  curOffset : s'.backend.curOffset = s.backend.curOffset
  capacity : s'.backend.capacityBytes = s.backend.capacityBytes

theorem Flushed.trans {J J' : Set ℕ} {s t u : State} (h : Flushed J s t)
    (h' : Flushed J' t u) : Flushed (J ∪ J') s u := by
  constructor
  · intro j hj
    by_cases hj' : j ∈ J'
    · rw [h'.clean hj']
      by_cases hfirst : j ∈ J
      · rw [h.clean hfirst]
      · have hsame : t.slotPage j = s.slotPage j := by
          apply h.other
          intro j' hmem heq
          exact hfirst (PagePtr.slot.inj heq ▸ hmem)
        rw [hsame]
    · have hsame : u.slotPage j = t.slotPage j := by
        apply h'.other
        intro j' hmem heq
        exact hj' (PagePtr.slot.inj heq ▸ hmem)
      rw [hsame, h.clean (hj.resolve_right hj')]
  · intro p hp
    rw [h'.other fun j hj => hp j (Or.inr hj),
      h.other fun j hj => hp j (Or.inl hj)]
  · rw [h'.rest, h.rest]
  · exact h'.curOffset.trans h.curOffset
  · exact h'.capacity.trans h.capacity

theorem Flushed.steady {J : Set ℕ} {s s' : State} (h : Flushed J s s') :
    Steady s s' := by
  have hrest := h.rest
  refine ⟨?_, ?_, ?_, ?_, h.curOffset, h.capacity, ?_, ?_⟩
  all_goals rw [hrest]
  exact id

theorem flushed_flushSlot : Flushed {i} s (s.flushSlot i) := by
  constructor
  · intro j hj
    obtain rfl := Set.mem_singleton_iff.mp hj
    exact slotPage_flushSlot
  · intro p hp
    exact page_flushSlot_of_ne (hp i rfl)
  · rfl
  · exact InMemoryBackend.curOffset_write
  · exact InMemoryBackend.capacityBytes_write

/-- A clean page counts as written back. -/
theorem flushed_of_clean (hclean : (s.slotPage i).dirty = false) :
    Flushed {i} s s := by
  refine ⟨?_, fun _ => rfl, rfl, rfl, rfl⟩
  intro j hj
  obtain rfl := Set.mem_singleton_iff.mp hj
  rw [← hclean]

theorem flushPage_meets {C : Contract State Halt Event}
    (hwritten : ∀ b, C.guarantee (.written b)) (h : Ready True R s F)
    (hi : i < s.allocator.pageNum) :
    Meets C (flushPage (.slot i)) s fun _ s' =>
      Ready True R s' F ∧ Flushed {i} s s' := by
  unfold flushPage
  apply Meets.bind
  apply meets_gets
  apply meets_onlyIf
  · intro hdirty
    have hmem := h.settled.backed.clean trivial hi hdirty
    have hformed := h.settled.cached.formed hmem
    have hstate : Ready True R (s.flushSlot i) F ∧
        Flushed {i} s (s.flushSlot i) :=
      ⟨h.flushSlot hmem, flushed_flushSlot⟩
    apply Meets.bind
    apply meets_check (bitmapCovers_of_formed hformed)
    apply Meets.bind
    apply meets_modify
    apply Meets.bind
    apply meets_gets
    apply Meets.bind
    rw [writeImage, if_pos rfl]
    apply meets_modify
    apply Meets.bind
    apply meets_emit_of (hwritten _)
    apply meets_modify
    have haddr : (fullyUnswizzle s (s.slotPage i)).remoteAddress = s.addr i :=
      remoteAddress_fullyUnswizzle
    rw [State.flushSlot, ← haddr] at hstate
    exact hstate
  · intro hclean
    exact ⟨h, flushed_of_clean hclean⟩

theorem flushFrom_meets {C : Contract State Halt Event}
    (hwritten : ∀ b, C.guarantee (.written b))
    (hindexed : ∀ indices, C.guarantee (.indexed indices)) (n : ℕ)
    (h : Ready True R s F) (hi : i + n ≤ s.allocator.pageNum) :
    Meets C (flushFrom n i) s fun _ s' =>
      Ready True R s' F ∧ Flushed {j | i ≤ j ∧ j < i + n} s s' := by
  induction n generalizing i s with
  | zero =>
      refine meets_pure ⟨h, ?_, fun _ => rfl, rfl, rfl, rfl⟩
      intro j hj
      exact absurd hj.2 (Nat.not_lt.mpr hj.1)
  | succ n ih =>
      unfold flushFrom
      apply Meets.bind
      apply meets_gets
      apply Meets.bind
      apply meets_emit_of (hindexed _)
      apply Meets.bind
      refine (flushPage_meets hwritten h (by omega)).mono ?_
      intro _ t ht
      obtain ⟨hready, hflushed⟩ := ht
      have hpages := hflushed.steady.pageNum
      refine (ih hready (by omega)).mono ?_
      intro _ u hu
      have hall := hflushed.trans hu.2
      have hslots : {i} ∪ {j | i + 1 ≤ j ∧ j < i + 1 + n} =
          {j | i ≤ j ∧ j < i + (n + 1)} := by
        ext j
        simp only [Set.mem_union, Set.mem_singleton_iff, Set.mem_ofPred_eq]
        omega
      rw [hslots] at hall
      exact ⟨hu.1, hall⟩

end Page

/-! ## The whole pool -/

section Pool

variable {R : Set ℕ} {s s' : State} {F : TreeForest} {m : KeyMap}

theorem Consistent.flushed {J : Set ℕ} (h : Consistent R s F)
    (hready : Ready True R s' F) (hs : Flushed J s s') :
    Consistent R s' F := by
  have hsteady := hs.steady
  have hbody : ∀ j, SameBody (s.slotPage j) (s'.slotPage j) ∧
      (s'.slotPage j).parentPtr = (s.slotPage j).parentPtr := by
    intro j
    by_cases hj : j ∈ J
    · rw [hs.clean hj]
      exact ⟨rfl, rfl⟩
    · have hsame : s'.slotPage j = s.slotPage j := by
        apply hs.other
        intro j' hmem heq
        exact hj (PagePtr.slot.inj heq ▸ hmem)
      rw [hsame]
      exact ⟨.refl _, rfl⟩
  obtain ⟨r, hr⟩ := h.rooted
  refine ⟨hready, ⟨r, hr.mem, ?_, ?_, ?_⟩, ?_, h.null_free⟩
  · rw [hs.other fun j _ heq => by cases heq]
    exact hr.word
  · exact (hbody r).2.trans hr.parent
  · rw [State.addr, (hbody r).1.remoteAddress, hsteady.root]
    exact hr.addr
  · rw [hsteady.root]
    exact h.search

/-- Writing everything back trips nothing and leaves the forest. -/
theorem Consistent.flushAll_meets {C : Contract State Halt Event}
    (hwritten : ∀ b, C.guarantee (.written b))
    (hindexed : ∀ indices, C.guarantee (.indexed indices))
    (h : Consistent R s F) :
    Meets C flushAll s fun _ s' =>
      Consistent R s' F ∧ Flushed {j | j < s.allocator.pageNum} s s' := by
  unfold flushAll
  apply Meets.bind
  apply meets_modify
  apply Meets.bind
  apply meets_gets
  have hcoherent : Settled True R { s with innerMiss := 0, leafMiss := 0 } F :=
    h.ready.settled.congr rfl rfl rfl rfl rfl rfl rfl
  have hready : Ready True R { s with innerMiss := 0, leafMiss := 0 } F :=
    ⟨hcoherent, h.ready.hot, h.ready.pages⟩
  refine (flushFrom_meets hwritten hindexed s.allocator.pageNum hready
    (i := 0) (by simp)).mono ?_
  intro _ s' hs'
  obtain ⟨hready', hflushed⟩ := hs'
  simp only [Nat.zero_le, true_and, Nat.zero_add] at hflushed
  have hall : Flushed {j | j < s.allocator.pageNum} s s' :=
    ⟨hflushed.clean, hflushed.other, hflushed.rest, hflushed.curOffset,
      hflushed.capacity⟩
  exact ⟨h.flushed hready' hall, hall⟩

/-- The page at an image holds the node it shows. -/
theorem Image.holds {b : InMemoryBackend} {a : GlobalAddress} {n : TreeNode}
    (h : Image b a n) : (b.store a.offset).Holds n := by
  have hshows := h.shows
  rcases h.formed.typed with hleaf | hinner
  · rw [Page.node_of_leaf hleaf] at hshows
    subst hshows
    exact ⟨hleaf, rfl, rfl, h.formed.count_le, rfl, rfl⟩
  · rw [Page.node_of_inner hinner] at hshows
    subst hshows
    refine ⟨hinner, rfl, rfl, h.formed.count_le, rfl, ?_⟩
    have hsame : ∀ c ∈ (b.store a.offset).slots,
        (ChildSlot.remote ∘ ChildSlot.home) c = id c := by
      intro c hc
      cases c with
      | remote a' => rfl
      | swizzled q => exact absurd (h.untagged hc) (by
          simp [ChildSlot.isSwizzled])
    rw [List.map_map, List.map_congr_left hsame, List.map_id]

/-- The backend holds the tree once every page in the pool is clean. -/
theorem Consistent.wellFormed (h : Consistent R s F)
    (hclean : ∀ i ∈ R, (s.slotPage i).dirty = false) :
    DsmImage.WellFormed (fun a => s.backend.store a.offset) s.root F where
  search := h.search
  holds hn := (h.ready.settled.backed.image hn
    fun i hi _ => hclean i hi).holds

/-- Nothing leaves the one node of the backend. -/
theorem Consistent.staysOn (h : Consistent R s F) (k : Key) :
    Btree.StaysOn F s.root k := by
  intro c hc
  obtain ⟨hoff, n, hn, _⟩ := hc
  obtain ⟨r, hr, _⟩ := h.search.root_node
  have hbacked := h.ready.settled.backed
  exact hoff ((hbacked.placed hn).nodeID.trans
    (hbacked.placed hr).nodeID.symm)

/-- What a memory node answers to a lookup in a map. -/
def lookupCode (m : KeyMap) (k : Key) (v : Value) (g : GlobalAddress) :
    ℤ × Value × GlobalAddress :=
  (m k).elim (2, v, g) fun w => (1, w, g)

theorem Consistent.lookup_backend (h : Consistent R s F)
    (hm : Represents F m) (hclean : ∀ i ∈ R, (s.slotPage i).dirty = false)
    (k : Key) (v : Value) (g : GlobalAddress) :
    Btree.Returns (fun fuel => Btree.lookup fuel s.root
      (fun offset => s.backend.store offset) k v g) (lookupCode m k v g) := by
  have hreads := Btree.lookup_readsMap (h.wellFormed hclean) hm k
  rw [lookupCode]
  cases hk : m k with
  | none => exact hreads.missing v g (h.staysOn k) hk
  | some w => exact hreads.found v g w (h.staysOn k) hk

end Pool

/-- Runs in which nothing may halt. -/
def flushContract : Contract State Halt Event where
  rely _ := True
  guarantee _ := True
  mayHalt _ _ := False

/-- A consistent state is written back without a failure, and no page that is
hot is dirty afterwards. -/
theorem Consistent.flushAll_returns {R : Set ℕ} {s : State} {F : TreeForest}
    (h : Consistent R s F) :
    (flushAll s).result = .ok () ∧ Consistent R (flushAll s).state F ∧
      Flushed {i | i < s.allocator.pageNum} s (flushAll s).state ∧
      ∀ i, (flushAll s).state.Hot i →
        ((flushAll s).state.slotPage i).dirty = false := by
  have hmeets := h.flushAll_meets (C := flushContract) (fun _ => trivial)
    fun _ => trivial
  obtain ⟨_, hpost⟩ := hmeets fun _ _ => trivial
  cases hresult : (flushAll s).result with
  | error e =>
      rw [hresult] at hpost
      exact hpost.elim
  | ok u =>
      rw [hresult] at hpost
      obtain ⟨hconsistent, hflushed⟩ := hpost
      refine ⟨rfl, hconsistent, hflushed, ?_⟩
      intro i hi
      have hlt := hi.1.trans_le hconsistent.ready.settled.pool.head_le
      rw [hflushed.steady.pageNum] at hlt
      rw [hflushed.clean hlt]

/-- Destroying the tree object after a tame run writes everything back: it
trips no assertion, leaves the pool as it was but for the dirty flags, no
tagged word is left in the backend, and a memory node that starts at the root
finds what the map has. -/
theorem tameRun_flushAll {c : TreeConfig} {ops : List Op}
    {replies : List Reply} (h : TameRun c ops)
    (hreplies : (freshRun ops c.initial).result = .ok replies) :
    let s := (freshRun ops c.initial).state
    let out := flushAll s
    out.result = .ok () ∧
      Flushed {i | i < s.allocator.pageNum} s out.state ∧
      (∀ path p, out.state.treePage path = some p → Stored out.state p) ∧
      ∀ k v g, Btree.Returns (fun fuel => Btree.lookup fuel s.root
          (fun offset => out.state.backend.store offset) k v g)
        (lookupCode (mapOf ops) k v g) := by
  intro s out
  obtain ⟨R, F, htree, hm⟩ := h.treeOf hreplies
  obtain ⟨hresult, htree', hflushed, hclean⟩ := htree.flushAll_returns
  refine ⟨hresult, hflushed, ?_, ?_⟩
  · intro path p hp
    rcases htree'.linksAgree.stored hp with ⟨i, hi, rfl, hdirty⟩ | hstored
    · rw [hclean i hi] at hdirty
      cases hdirty
    · exact hstored
  · intro k v g
    have hlookup := htree'.lookup_backend hm
      (fun i hi => hclean i (htree'.ready.mem_iff.mp hi)) k v g
    rwa [hflushed.steady.root] at hlookup

theorem tameRun_flushAll_mixed :
    let s := (freshRun mixedRun threeSlots.initial).state
    let out := flushAll s
    out.result = .ok () ∧
      Flushed {i | i < s.allocator.pageNum} s out.state ∧
      (∀ path p, out.state.treePage path = some p → Stored out.state p) ∧
      ∀ k v g, Btree.Returns (fun fuel => Btree.lookup fuel s.root
          (fun offset => out.state.backend.store offset) k v g)
        (lookupCode (mapOf mixedRun) k v g) := by
  obtain ⟨replies, hreplies⟩ := mixedRun_returns
  exact tameRun_flushAll tameRun_mixed hreplies

/-- The pages of the tree have addresses of their own, and once everything is
written back a memory node that starts at the root finds what the map has. -/
structure LosesNothing (m : KeyMap) (s : State) : Prop where
  apart : ∀ {path path' p p'}, s.treePage path = some p →
    s.treePage path' = some p' → p.remoteAddress = p'.remoteAddress →
      path = path'
  null_free : ∀ {path p}, s.treePage path = some p →
    p.remoteAddress ≠ .null
  flushes : (flushAll s).result = .ok ()
  found : ∀ k v g, Btree.Returns (fun fuel => Btree.lookup fuel s.root
      (fun offset => (flushAll s).state.backend.store offset) k v g)
    (lookupCode m k v g)

/-- As long as no allocation fails the tree answers like the map and loses
nothing of it, after every operation of the run. -/
theorem tameRun_losesNothing {c : TreeConfig} {ops before : List Op}
    (h : TameRun c ops) (hbefore : before <+: ops) :
    EndsIn c before fun replies s =>
      Answered (fun _ => none) before replies ∧
        LosesNothing (mapOf before) s := by
  refine (h.before hbefore).ends.2.mono ?_
  intro replies s hend
  obtain ⟨R, F, htree, hm⟩ := hend.tree
  obtain ⟨hresult, htree', hflushed, hclean⟩ := htree.flushAll_returns
  have hlinks := htree.linksAgree
  refine ⟨hend.replied.answered, hlinks.apart, hlinks.null_free, hresult, ?_⟩
  intro k v g
  have hlookup := htree'.lookup_backend hm
    (fun i hi => hclean i (htree'.ready.mem_iff.mp hi)) k v g
  rwa [hflushed.steady.root] at hlookup

theorem tameRun_losesNothing_mixed :
    ∃ replies, (freshRun mixedRun threeSlots.initial).result = .ok replies ∧
      Answered (fun _ => none) mixedRun replies ∧
        LosesNothing (mapOf mixedRun)
          (freshRun mixedRun threeSlots.initial).state :=
  (tameRun_losesNothing tameRun_mixed List.prefix_rfl).of_returns
    mixedRun_returns

/-- A backend with room for one node. -/
def spentBackend : TreeConfig :=
  { sixPages with
    backendPages := 2
    backend_fits := TreeConfig.twoPages_fit }

set_option maxRecDepth 100000 in
/-- The second node and the new root are given the null address.  Of what is
written there the root does not stay, and the walk for the first key ends at
a leaf of other keys. -/
theorem spentBackend_losesKeys :
    (fun r : Outcome State Halt Event (List Reply) =>
      r.result.toBool = true ∧
      (r.state.treePage []).map Page.remoteAddress = some .null ∧
      (r.state.treePage [1]).map Page.remoteAddress = some .null ∧
      (flushAll r.state).result.toBool = true ∧
      Btree.lookup 2 r.state.root
        (fun offset => (flushAll r.state).state.backend.store offset)
        1 0 .null = some (-1, 0, .null))
      (freshRun (ascending 60) spentBackend.initial) ∧
    mapOf (ascending 60) 1 = some 0 := by
  constructor
  · decide +kernel
  · decide

end CachingDex
