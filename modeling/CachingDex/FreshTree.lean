import CachingDex.Insertion

/-!
# Runs on a fresh tree

Building the tree object leaves one empty leaf as the root.  From there every
run of the tree's operations answers like a map and leaves a state that
stands for the map the operations have made, whatever the cache does and as
long as no split meets a bad draw and no allocation fails.
-/

namespace CachingDex

open Lib Lib.Traced

/-! ## Construction -/

section Construction

variable {s : State}

/-- Only `super_root_` changes, and keeps its level. -/
theorem Coherent.setSuper {tidy : Prop} {adrift : GlobalAddress → Prop}
    {loose H U R : Set ℕ} {F : TreeForest}
    (h : Coherent tidy adrift loose H U R s F) {p : Page}
    (hlevel : p.level = 255) :
    Coherent tidy adrift loose H U R (s.setPage .superRoot p) F := by
  have hpage : ∀ i, (s.setPage .superRoot p).slotPage i = s.slotPage i :=
    fun i => State.setPage_of_ne (by simp)
  refine ⟨h.pool.congr rfl rfl rfl rfl fun i => by rw [hpage], ?_,
    h.backed.congr rfl rfl
      (fun i _ => ⟨by rw [State.addr, hpage], by rw [hpage]⟩)
      fun i hd => by rwa [hpage] at hd,
    h.mapped.congr rfl rfl (fun i => by rw [State.addr, hpage])
      fun i hl => by rwa [hpage] at hl⟩
  refine h.cached.touch (fun i _ => ?_) (fun i _ _ => by rw [hpage]) ?_
  · rw [hpage]
    exact .refl _
  · rw [State.setPage_self]
    exact hlevel

variable {c : TreeConfig}

/-- Before the first page is allocated the forest is empty. -/
theorem coherent_initial (hpages : 0 < c.pageNum) (hentries : 0 < c.entryNum)
    {p : Page} (hlevel : p.level = 255) :
    Settled True ∅ (c.initial.setPage .superRoot p) fun _ => none := by
  have hpage : ∀ i, (c.initial.setPage .superRoot p).slotPage i = Page.zero :=
    fun i => State.setPage_of_ne (by simp)
  have hpagesOf : ∀ j, ((c.initial.setPage .superRoot p).hashTable.table
      j).pages = [] := by
    intro j
    change Bucket.empty.pages = []
    simp [Bucket.pages, Bucket.empty]
  refine ⟨?_, ?_, ?_, ?_⟩
  · constructor
    · exact Nat.zero_le _
    · change false = true ↔ 0 = c.pageNum
      simp only [Bool.false_eq_true, false_iff]
      omega
    · change 0 < (HashTable.new c.entryNum).bucketNum
      simp only [HashTable.new]
      split <;> omega
    · intro j _
      exact Nat.zero_le _
    · intro j q _ hq
      rw [hpagesOf] at hq
      cases hq
    · intro j _
      rw [hpagesOf]
      exact List.nodup_nil
    · intro j j' q _ _ hq
      rw [hpagesOf] at hq
      cases hq
    · exact List.nodup_nil
    · intro q hq
      cases hq
    · intro i hi
      exact hi.elim
    · intro i
      refine ⟨fun hi => hi.elim, fun hi => absurd hi.1 (Nat.not_lt_zero i)⟩
    · intro i hi
      exact absurd hi (Nat.not_lt_zero i)
  · constructor
    · rw [State.setPage_self]
      exact hlevel
    all_goals intros; contradiction
  · constructor
    · constructor <;> (intros; contradiction)
    · intros
      contradiction
    · intros
      contradiction
    · exact c.backend_fits
    · intros
      contradiction
    · intros
      contradiction
    · intro _ i _ hd
      rw [hpage] at hd
      cases hd
  · constructor
    · exact PageTable.inv_new _
    · intro a q hq
      change (PageTable.new _).get a = some q at hq
      rw [PageTable.get_new] at hq
      cases hq
    · intro i hi
      exact hi.elim

/-- An empty leaf shows a leaf over all keys. -/
theorem shows_construct (a : GlobalAddress) :
    Shows (BTreeLeaf.construct a) a (.leaf ⊥ ⊤ [] .null) := by
  have hslots : (BTreeLeaf.construct a).slots = [] :=
    Page.slots_of_leaf rfl
  refine ⟨rfl, ⟨Or.inl rfl, Nat.zero_le _, fun _ => rfl, ?_⟩, ?_, ?_⟩
  · intro i
    rw [hslots]
    simp [BTreeLeaf.construct, Page.zero]
  · intro x hx
    rw [hslots] at hx
    cases hx
  · rw [Page.node_of_leaf rfl]
    rfl

variable {C : Contract State Halt Event} {F : TreeForest} {a : GlobalAddress}
  {n : TreeNode}

/-- The root's image is loaded below `super_root_`. -/
theorem loadRoot_meets (hC : Tolerates True ∅ C) (h : Settled True ∅ s F)
    (hpages : 0 < s.allocator.pageNum) (hn : F a = some n)
    (hfree : ¬ F.IsChild a)
    (hword : (s.page .superRoot).child 0 = .remote a) (hroot : s.root = a) :
    Meets C (loadChild .superRoot 0) s fun _ s' => ∃ R' v,
      Ready True R' s' F ∧ Rooted R' s' v ∧ Steady s s' := by
  have himage := (h.backed.image hn fun i hi => hi.elim).page
  generalize hbuf : s.backend.store a.offset = buf at himage
  unfold loadChild
  apply Meets.bind
  apply meets_gets
  rw [hword]
  unfold loadFromBackend
  simp only [ne_eq, not_true_eq_false, decide_false]
  apply Meets.bind
  apply meets_gets
  apply Meets.bind
  apply meets_onlyIf (fun hfalse => by cases hfalse)
  intro _
  apply Meets.bind
  apply rawRemoteRead_meets (h.backed.placed hn).inRange
  rw [hbuf]
  apply Meets.bind
  apply meets_modify
  generalize hread : (if buf.type = .btreeLeaf then _ else _ : State) = u
  have hu : u.page = s.page ∧ u.allocator = s.allocator ∧
      u.dynamic = s.dynamic ∧ u.hashTable = s.hashTable ∧
      u.localPageSet = s.localPageSet ∧ u.pageTable = s.pageTable ∧
      u.backend = s.backend ∧ Steady s u := by
    rw [← hread]
    split_ifs <;> exact ⟨rfl, rfl, rfl, rfl, rfl, rfl, rfl,
      ⟨rfl, rfl, rfl, rfl, rfl, rfl, rfl, id⟩⟩
  obtain ⟨hpage, halloc, hdyn, htable, hlocal, hptable, hback, hsteady⟩ := hu
  have hcoh := h.congr hpage halloc hdyn htable hlocal hptable hback
  apply Meets.bind
  unfold cacheInsert
  apply Meets.bind
  refine (getEmptyPage_meets hC hcoh (.none ∅ u F)
    (by rw [halloc]; exact hpages)).mono ?_
  rintro q t ⟨R', v, rfl, hv, hkeeps, hcoht, _⟩
  obtain rfl : R' = ∅ := Set.subset_empty_iff.mp hkeeps.sub
  have hsuper : t.page .superRoot = s.page .superRoot := by
    rw [hkeeps.super, hpage]
  apply Meets.bind
  apply meets_modify
  apply Meets.bind
  apply meets_gets
  apply Meets.bind
  apply meets_modify
  rw [State.setPage_of_ne (by simp), hsuper]
  dsimp only
  rw [hword]
  apply Meets.bind
  apply upsertPageTable_meets hC
  · rw [State.setPage_of_ne (by simp), State.setPage_self]
    exact himage.address
  apply meets_pure
  apply Meets.bind
  apply meets_modify
  apply Meets.bind
  apply meets_gets
  have hlevel := h.cached.super_level
  apply Meets.bind
  apply meets_onlyIf
  · intro htrue
    simp [Page.setChild, hlevel] at htrue
  intro _
  apply Meets.bind
  apply meets_onlyIf (fun hfalse => by cases hfalse)
  intro _
  apply meets_pure
  -- on paper: the page is placed with its final state, then `super_root_` tags it
  let page : Page :=
    { buf with posState := .hot, parentPtr := some .superRoot }
  let g : State :=
    { t with
      page := Function.update t.page (.slot v) page
      pageTable := (t.pageTable.upsert a (.slot v)).1 }
  have hgv : g.slotPage v = page := Function.update_self ..
  have hgo : ∀ {p}, p ≠ .slot v → g.page p = t.page p := fun hp =>
    Function.update_of_ne hp ..
  have hgaddr : g.addr v = a := by
    rw [State.addr, hgv]
    exact himage.address
  have hplacing : Placing v t g := by
    refine ⟨hgo, ?_, rfl, rfl, rfl, rfl, ?_, rfl⟩
    · rw [hgv]
      exact Or.inl rfl
    · rw [hgaddr]
  have hplaced := hcoht.placeImage hv hplacing himage (by rw [hgv]; rfl) hn
    fun j hj => hj.elim
  rw [insert_empty_eq] at hplaced
  have hanchored := hplaced.anchor (by rw [hgv]) (by rw [hgaddr]; exact hfree)
  have hfinal := hanchored.setSuper
    (p := (s.page .superRoot).setChild 0 (.swizzled (.slot v))) hlevel
  generalize hlast : State.setPage _ (.slot v) _ = f
  have hf : f = g.setPage .superRoot
      ((s.page .superRoot).setChild 0 (.swizzled (.slot v))) := by
    rw [← hlast]
    simp only [State.setPage, g, page]
    congr 1
    funext p
    by_cases hpv : p = .slot v
    · subst hpv
      simp
    · by_cases hps : p = .superRoot
      · subst hps
        simp
      · simp [hpv, hps]
  have hfv : f.slotPage v = page := by
    rw [hf]
    exact (State.setPage_of_ne (by simp)).trans hgv
  rw [← hf] at hfinal
  have hfrest : f.root = t.root ∧ f.allocator = t.allocator ∧ Steady t f := by
    rw [hf]
    exact ⟨rfl, rfl, ⟨rfl, rfl, rfl, rfl, rfl, rfl, rfl, id⟩⟩
  have hall := (hsteady.trans hkeeps.steady).trans hfrest.2.2
  refine ⟨{v}, v, ⟨hfinal, ?_, ?_⟩, ⟨rfl, ?_, ?_, ?_⟩, hall⟩
  · rintro j rfl
    rw [hfv]
  · rw [hall.pageNum]
    exact hpages
  · rw [hf, State.setPage_self]
    simp [Page.child, Page.setChild]
  · rw [hfv]
  · rw [State.addr, hfv, hall.root, hroot]
    exact himage.address

theorem leafCredit_single (a z : GlobalAddress) :
    leafCredit (Function.update (fun _ => none) a (some (.leaf ⊥ ⊤ [] z))) =
      29 := by
  have hsum := Forest.weigh_update (w := Forest.credit 29)
    (F := (fun _ => none : TreeForest)) a (.leaf ⊥ ⊤ [] z)
  have hempty : Forest.weigh (Forest.credit 29)
      (fun _ => none : TreeForest) = 0 := by
    simp [Forest.weigh]
  rw [hempty] at hsum
  rw [leafCredit]
  simpa [Forest.credit] using hsum

/-- A fresh tree stores nothing, in a chain of one leaf. -/
theorem construct_step (hC : Tolerates True ∅ C) (hpages : 0 < c.pageNum)
    (hentries : 0 < c.entryNum) {N : ℕ} (hN : 29 ≤ N)
    (hbackend : C.rely .allocFailed → 1 + nodesFor (N / 29) ≤ c.backendPages) :
    Meets C construct c.initial fun _ s' => ∃ R F, Tree R s' F ∧
      Represents F (fun _ => none) ∧ F.LeafLinked .null ∧ leafCredit F = 29 ∧
        Within C N F s' := by
  unfold construct
  apply Meets.bind
  apply meets_modify
  have hinitial := coherent_initial hpages hentries
    (p := { BTreeInner.construct 255 .null with posState := .hot }) rfl
  generalize hs₁ : c.initial.setPage .superRoot
    { BTreeInner.construct 255 .null with posState := .hot } = s₁ at hinitial
  have hs₁' : s₁.backend = InMemoryBackend.new c.backendPages ∧
      s₁.height = 1 ∧ s₁.leafNum = 1 ∧ s₁.innerNum = 0 ∧
      s₁.allocator.pageNum = c.pageNum ∧
      (s₁.page .superRoot).level = 255 := by
    rw [← hs₁]
    exact ⟨rfl, rfl, rfl, rfl, rfl, by rw [State.setPage_self]; rfl⟩
  obtain ⟨hback, hheight, hleafNum, hinnerNum, hnum, hlevel⟩ := hs₁'
  unfold allocateLeaf backendWrite
  apply Meets.bind
  apply Meets.bind
  have hspare : Affords C 1 s₁ := by
    intro hrely
    have hle := hbackend hrely
    have hone : 1 ≤ nodesFor (N / 29) := by
      unfold nodesFor
      omega
    rw [hback]
    change pageSize + 1 * pageSize ≤ c.backendPages * pageSize
    have htwo := Nat.mul_le_mul_right pageSize
      (show 2 ≤ c.backendPages by omega)
    omega
  apply allocAddress_meets hspare
  intro hroom
  have hcur := InMemoryBackend.curOffset_alloc hroom
  have hcapacity := InMemoryBackend.capacityBytes_alloc (b := s₁.backend)
  have ha := hinitial.backed.allocated_of_room hroom
  have hanull : s₁.backend.alloc.1 ≠ .null := by
    refine InMemoryBackend.alloc_ne_null hinitial.backed.capacity_le ?_ hroom
    rw [hback]
    change 0 < pageSize
    decide
  have halloc := hinitial.allocated
  generalize s₁.backend.alloc.1 = a at ha hanull
  generalize s₁.backend.alloc.2 = b at ha halloc hcur hcapacity
  have hsearch : SearchTree (Function.update (fun _ => none) a
      (some (.leaf ⊥ ⊤ [] .null)) : TreeForest) 59 a :=
    .single (by decide) 59 a .null
  have hgraft := halloc.graftImage (a := a) (n := .leaf ⊥ ⊤ [] .null)
    (p := BTreeLeaf.construct a) rfl hsearch.linked (by decide)
    (fun _ => (hsearch.sound (Function.update_self ..)).ordered.imp le_of_lt)
    ha.placed (shows_construct a) fun j hj => hj.elim
  apply Meets.bind
  apply meets_modify
  apply meets_pure
  apply Meets.bind
  apply meets_modify
  apply Meets.bind
  apply meets_modify
  dsimp only
  have hrooted : Settled True ∅ { s₁ with
      backend := b.write a (BTreeLeaf.construct a), root := a } _ :=
    hgraft.congr rfl rfl rfl rfl rfl rfl rfl
  have hready := hrooted.setSuper (p := { (s₁.page .superRoot).setChild 0
    (.remote a) with count := 0 }) hlevel
  apply Meets.bind
  refine (loadRoot_meets hC hready (a := a)
    (n := .leaf ⊥ ⊤ [] .null) ?_ (Function.update_self ..) hsearch.not_child
    ?_ rfl).mono ?_
  · change 0 < s₁.allocator.pageNum
    rw [hnum]
    exact hpages
  · rw [State.setPage_self]
    simp [Page.child, Page.setChild]
  rintro q s' ⟨R', v, hready', hrooted, hsteady⟩
  have hroot : s'.root = a := hsteady.root
  refine meets_pure ⟨R', _, ⟨⟨hready', ⟨v, hrooted⟩, hroot ▸ hsearch, ?_⟩,
    ?_, ?_⟩, ?_, .single a .null, leafCredit_single a .null, ?_⟩
  · exact Function.update_of_ne hanull.symm ..
  · rw [hroot, hsteady.leafNum, hsteady.innerNum]
    change Forest.Shape _ 28 a s₁.leafNum s₁.innerNum
    rw [hleafNum, hinnerNum]
    exact .single 28 a rfl
  · intro n hn
    rw [hroot, Function.update_self, Option.some.injEq] at hn
    rw [← hn, hsteady.height]
    exact hheight
  · intro k v
    constructor
    · rintro ⟨d, m, hm, hmem⟩
      by_cases hd : d = a
      · subst hd
        rw [Function.update_self, Option.some.injEq] at hm
        subst hm
        simp [Node.entries] at hmem
      · rw [Function.update_of_ne hd] at hm
        cases hm
    · intro hnone
      cases hnone
  · have hoffset : s'.backend.curOffset = 2 * pageSize := by
      rw [hsteady.curOffset]
      change (b.write a _).curOffset = _
      rw [InMemoryBackend.curOffset_write, hcur, hback]
      rfl
    have hlimit : s'.backend.capacityBytes = c.backendPages * pageSize := by
      rw [hsteady.capacity]
      change (b.write a _).capacityBytes = _
      rw [InMemoryBackend.capacityBytes_write, hcapacity, hback]
      rfl
    refine ⟨(leafCredit_single a .null).trans_le hN, fun _ => ?_,
      fun hrely => ?_⟩
    · have hleaf : s'.leafNum = 1 := hsteady.leafNum.trans hleafNum
      have hinner : s'.innerNum = 0 := hsteady.innerNum.trans hinnerNum
      rw [Packed, hoffset, hleaf, hinner]
      rfl
    · rw [hlimit, Nat.mul_comm]
      exact Nat.mul_le_mul_right _ (hbackend hrely)

theorem construct_meets (hC : Runs C) (hpages : 0 < c.pageNum)
    (hentries : 0 < c.entryNum) :
    Meets C construct c.initial fun _ s' => ∃ R F, Tree R s' F ∧
      Represents F (fun _ => none) ∧ F.LeafLinked .null := by
  refine (construct_step hC.splits.base hpages hentries le_rfl
    fun hrely => absurd hrely hC.noFail).mono ?_
  rintro _ s' ⟨R, F, htree, hm, hlinked, _⟩
  exact ⟨R, F, htree, hm, hlinked⟩

end Construction

/-! ## Runs -/

/-- What a map answers to an operation.  Nothing is promised about the pairs
a scan returns. -/
def Op.Answers (m : KeyMap) : Op → Reply → Prop
  | .insert k _, r => r = .done (m k).isNone
  | .lookup k, r => r = .value (m k)
  | .update k _, r => r = .done (m k).isSome
  | .remove k, r => r = .done (m k).isSome
  | .rangeScan _ _, r => ∃ entries, r = .pairs entries

/-- The map after an operation. -/
def Op.effect (m : KeyMap) : Op → KeyMap
  | .insert k v => Function.update m k (some v)
  | .lookup _ => m
  | .update k v => if (m k).isSome then Function.update m k (some v) else m
  | .remove k => Function.update m k none
  | .rangeScan _ _ => m

/-- The replies are those of a map that starts as `m`. -/
def Answered (m : KeyMap) : List Op → List Reply → Prop
  | [], [] => True
  | op :: ops, r :: rs => op.Answers m r ∧ Answered (op.effect m) ops rs
  | _, _ => False

/-- The operations that act on a single key. -/
def Op.IsPoint : Op → Prop
  | .rangeScan _ _ => False
  | _ => True

theorem Op.Answers.unique {m : KeyMap} {op : Op} (hop : op.IsPoint)
    {r r' : Reply} (h : op.Answers m r) (h' : op.Answers m r') : r = r' := by
  cases op with
  | rangeScan => exact hop.elim
  | insert => exact h.trans h'.symm
  | lookup => exact h.trans h'.symm
  | update => exact h.trans h'.symm
  | remove => exact h.trans h'.symm

/-- Operations on single keys have one sequence of answers. -/
theorem Answered.unique {m : KeyMap} {ops : List Op} {rs rs' : List Reply}
    (hops : ∀ op ∈ ops, op.IsPoint) (h : Answered m ops rs)
    (h' : Answered m ops rs') : rs = rs' := by
  induction ops generalizing m rs rs' with
  | nil =>
      cases rs with
      | nil =>
          cases rs' with
          | nil => rfl
          | cons => exact h'.elim
      | cons => exact h.elim
  | cons op ops ih =>
      cases rs with
      | nil => exact h.elim
      | cons r rs =>
          cases rs' with
          | nil => exact h'.elim
          | cons r' rs' =>
              rw [h.1.unique (hops op (by simp)) h'.1,
                ih (fun op' hop' => hops op' (by simp [hop'])) h.2 h'.2]

section Run

variable {s : State} {m : KeyMap} {C : Contract State Halt Event}

/-- If the operation splits a leaf, it is the last one. -/
def Op.SplitsLast (F : TreeForest) : Op → Prop
  | .insert k _ => F.FullLast 59 k
  | _ => True

/-- One operation answers like the map, leaves the next one, and changes the
chain of leaves by at most one split. -/
theorem Op.run_after (hC : Runs C) {R : Set ℕ} {F : TreeForest}
    (htree : Tree R s F) (hm : Represents F m) (op : Op) :
    Meets C op.run s fun r s' =>
      op.Answers m r ∧ TreeAfter (op.SplitsLast F) F (op.effect m) s' := by
  have hbase := hC.splits.base
  cases op with
  | insert k v =>
      apply Meets.bind
      refine (htree.insert_meets hC hm k v).mono ?_
      rintro ok s' ⟨rfl, htree'⟩
      exact meets_pure ⟨rfl, htree'⟩
  | lookup k =>
      apply Meets.bind
      refine (htree.lookup_meets hbase hm k).mono ?_
      rintro o s' ⟨rfl, htree'⟩
      exact meets_pure ⟨rfl, htree'⟩
  | update k v =>
      apply Meets.bind
      refine (htree.update_meets hbase hm k v).mono ?_
      rintro ok s' ⟨rfl, htree'⟩
      exact meets_pure ⟨rfl, htree'⟩
  | remove k =>
      apply Meets.bind
      refine (htree.remove_meets hbase hm k).mono ?_
      rintro ok s' ⟨rfl, htree'⟩
      exact meets_pure ⟨rfl, htree'⟩
  | rangeScan k num =>
      obtain ⟨r, hr⟩ := htree.rooted
      apply Meets.bind
      refine (rangeScan_meets hbase (guides_covers htree.search k) htree.ready
        hr (SearchTree.covers_root htree.search k) num).mono ?_
      rintro entries s' ⟨R', v, hreached, rfl⟩
      exact meets_pure ⟨⟨_, rfl⟩, R', F,
        htree.retains hreached.ready hreached.retains, hm, .refl F⟩

/-- One operation answers like the map and leaves the next one. -/
theorem Op.run_meets (hC : Runs C) (h : TreeOf m s) (op : Op) :
    Meets C op.run s fun r s' => op.Answers m r ∧ TreeOf (op.effect m) s' := by
  obtain ⟨R, F, htree, hm⟩ := h
  refine (op.run_after hC htree hm).mono ?_
  rintro r s' ⟨hr, hafter⟩
  exact ⟨hr, hafter.treeOf⟩

/-- A run answers like the map and leaves a tree for the map it makes. -/
theorem runOps_meets (hC : Runs C) (ops : List Op) (h : TreeOf m s) :
    Meets C (runOps ops) s fun rs s' =>
      Answered m ops rs ∧ TreeOf (ops.foldl Op.effect m) s' := by
  induction ops generalizing m s with
  | nil => exact meets_pure ⟨trivial, h⟩
  | cons op ops ih =>
      unfold runOps
      apply Meets.bind
      refine (op.run_meets hC h).mono ?_
      rintro r s' ⟨hr, htree⟩
      apply Meets.bind
      refine (ih htree).mono ?_
      rintro rs t ⟨hrs, htree'⟩
      exact meets_pure ⟨⟨hr, hrs⟩, htree'⟩

/-- The map a sequence of operations makes of the empty one. -/
def mapOf (ops : List Op) : KeyMap :=
  ops.foldl Op.effect fun _ => none

theorem freshRun_meets (hC : Runs C) {c : TreeConfig} (hpages : 0 < c.pageNum)
    (hentries : 0 < c.entryNum) (ops : List Op) :
    Meets C (freshRun ops) c.initial fun rs s' =>
      Answered (fun _ => none) ops rs ∧ TreeOf (mapOf ops) s' := by
  unfold freshRun
  apply Meets.bind
  refine (construct_meets hC hpages hentries).mono ?_
  rintro _ s' ⟨R, F, htree, hm, _⟩
  exact runOps_meets hC ops ⟨R, F, htree, hm⟩

end Run

end CachingDex
