import CachingDex.CacheInvariant
import CachingDex.Lib.PathForest

/-!
# Consistent states, page by page

The invariant of the tree over its cache, said of the pages as they stand:
where the slots are, what the page table finds, which words are tagged, what
the backend has, and that the pages reached from the root are a search tree.
Such a state stands for a forest, the one its paths lead through, with which
it is coherent; and every state that is coherent with a search tree is one.
-/

namespace CachingDex

open Lib

/-- A page of the tree is in order by itself. -/
structure PageOrder (s : State) (p : Page) : Prop where
  typed : p.type = .btreeLeaf ∨ p.type = .btreeInner
  count_le : p.count.toNat ≤ 59
  leaf_level : p.type = .btreeLeaf → p.level = 0
  level_ne : p.level ≠ 255
  limits : p.minLimit < p.maxLimit
  keys_sorted : p.type = .btreeInner → p.separators.Pairwise (· < ·)
  keys_inside : p.type = .btreeInner → ∀ k ∈ p.separators,
    p.minLimit < k ∧ k < p.maxLimit
  entries_sorted : p.type = .btreeLeaf → SortedEntries p.entries
  entries_inside : p.type = .btreeLeaf → ∀ e ∈ p.entries,
    BTreeLeaf.rangeValid p e.1 = true
  placed : Placed s.backend p.remoteAddress

/-- The children of a page of the tree have the address, the level and the
limits of their slots. -/
structure ChildOrder (s : State) (p : Page) (i : ℕ) : Prop where
  address : ∀ {a}, p.child i = .remote a →
    (s.backend.store a.offset).remoteAddress = a
  level : (s.behind (p.child i)).level.toNat + 1 = p.level.toNat
  limits : newCheckLimitMatch p (s.behind (p.child i)) i = true

/-- Pool, page table, child words, backend and tree are in order. -/
structure Orderly (s : State) : Prop where
  pages : 0 < s.allocator.pageNum
  head_le : s.allocator.headIdx ≤ s.allocator.pageNum
  buckets : 0 < s.hashTable.bucketNum
  count_le : ∀ {j}, j < s.hashTable.bucketNum →
    (s.hashTable.table j).count ≤ 6
  capacity_le : s.backend.capacityBytes ≤ 2 ^ 47
  roles : SlotRoles s
  table : s.pageTable.Inv
  truth : TableTruth s
  links : LinksAgree s
  super_level : (s.page .superRoot).level = 255
  root_address : s.rootPage.remoteAddress = s.root
  page : ∀ {path p}, s.treePage path = some p → PageOrder s p
  child : ∀ {path p i}, s.treePage path = some p → p.type = .btreeInner →
    i ≤ p.count.toNat → ChildOrder s p i
  imaged : ∀ {path p}, s.treePage path = some p →
    (∃ i, s.Hot i ∧ p = s.slotPage i ∧ p.dirty = true) ∨
      Image s.backend p.remoteAddress (p.node s.addressOf)

section Pages

variable {s : State} {p : Page} {path : List ℕ} {i : ℕ}

theorem State.follow_append (path path' : List ℕ) (p : Page) :
    s.follow (path ++ path') p = (s.follow path p).bind (s.follow path') := by
  induction path generalizing p with
  | nil => rfl
  | cons i path ih =>
      simp only [List.cons_append, State.follow, ih]
      split <;> rfl

/-- The last step of a path goes to a child. -/
theorem State.treePage_concat :
    s.treePage (path ++ [i]) = (s.treePage path).bind fun p =>
      if p.type = .btreeInner ∧ i ≤ p.count.toNat then
        some (s.behind (p.child i))
      else none :=
  State.follow_append path [i] s.rootPage

theorem State.treePage_child (hp : s.treePage path = some p)
    (htype : p.type = .btreeInner) (hi : i ≤ p.count.toNat) :
    s.treePage (path ++ [i]) = some (s.behind (p.child i)) := by
  rw [State.treePage_concat, hp, Option.bind_some, if_pos ⟨htype, hi⟩]

theorem State.treePage_parent {q : Page}
    (hq : s.treePage (path ++ [i]) = some q) :
    ∃ p, s.treePage path = some p ∧ p.type = .btreeInner ∧
      i ≤ p.count.toNat ∧ q = s.behind (p.child i) := by
  rw [State.treePage_concat] at hq
  obtain ⟨p, hp, hq⟩ := Option.bind_eq_some_iff.mp hq
  split at hq
  · rename_i hi
    exact ⟨p, hp, hi.1, hi.2, (Option.some.inj hq).symm⟩
  · cases hq

/-- The node of an ordered page is in order by itself. -/
theorem PageOrder.sound (h : PageOrder s p) (w : ChildSlot → GlobalAddress) :
    (p.node w).Sound 59 := by
  rcases h.typed with hleaf | hinner
  · rw [Page.node_of_leaf hleaf]
    refine ⟨?_, h.entries_sorted hleaf, ?_, ?_⟩
    · simpa [Node.bounds, Node.keys, Node.lo, Node.hi] using h.limits
    · intro e he
      have hvalid := h.entries_inside hleaf e he
      rwa [BTreeLeaf.rangeValid, decide_eq_true_eq] at hvalid
    · rw [Node.size, Page.length_entries h.count_le]
      exact h.count_le
  · refine ⟨?_, ?_, ?_, ?_⟩
    · rw [Page.bounds_node hinner, List.pairwise_cons, List.pairwise_append]
      refine ⟨?_, h.keys_sorted hinner, List.pairwise_singleton _ _, ?_⟩
      · intro k hk
        rcases List.mem_append.mp hk with hk | hk
        · exact (h.keys_inside hinner k hk).1
        · rw [List.mem_singleton.mp hk]
          exact h.limits
      · intro k hk k' hk'
        rw [List.mem_singleton.mp hk']
        exact (h.keys_inside hinner k hk).2
    · rw [Page.node_of_inner hinner]
      exact List.Pairwise.nil
    · rw [Page.node_of_inner hinner]
      simp [Node.entries]
    · rw [Page.node_of_inner hinner, Node.size,
        Page.length_separators h.count_le]
      exact h.count_le

theorem PageOrder.level_lt (h : PageOrder s p) : p.level.toNat < 255 := by
  have hlt := p.level.toNat_lt
  have hne : p.level.toNat ≠ 255 := fun heq =>
    h.level_ne (UInt8.toNat_inj.mp heq)
  omega

end Pages

namespace Orderly

variable {s : State}

/-! ## The forest of an orderly state -/

/-- What stands at the end of a path of child positions. -/
def paths (s : State) : PathTree GlobalAddress Key Value :=
  fun path => (s.treePage path).map fun p =>
    (p.remoteAddress, p.node s.addressOf)

theorem paths_eq_some {path : List ℕ} {a : GlobalAddress} {n : TreeNode} :
    paths s path = some (a, n) ↔ ∃ p, s.treePage path = some p ∧
      p.remoteAddress = a ∧ p.node s.addressOf = n := by
  simp [paths]

/-- Every hot page stands at the end of a path. -/
theorem exists_path (h : Orderly s) {i : ℕ} (hi : s.Hot i) :
    ∃ path, s.treePage path = some (s.slotPage i) := by
  -- a parent is one level up, and no level reaches 256
  induction hn : 256 - (s.slotPage i).level.toNat using Nat.strong_induction_on
    generalizing i with
  | _ n ih =>
      by_cases hroot : (s.page .superRoot).child 0 = .swizzled (.slot i)
      · refine ⟨[], ?_⟩
        rw [State.treePage, State.follow, State.rootPage, hroot]
        rfl
      · obtain ⟨⟨j, k⟩, ⟨hj, htype, hk, hchild⟩, _⟩ :=
          h.links.parented hi hroot
        obtain ⟨i', heq, _, _, hup, _⟩ := h.links.tagged hj htype hk hchild
        obtain rfl : i = i' := by simpa using heq
        have hlevel : (s.slotPage i).level.toNat + 1 =
            (s.slotPage j).level.toNat := hup
        have hlt := (s.slotPage j).level.toNat_lt
        obtain ⟨path, hpath⟩ := ih _ (by omega) hj rfl
        exact ⟨path ++ [k], by
          rw [State.treePage_child hpath htype hk, hchild]; rfl⟩

/-- A page of the tree is hot, or it is an image in the backend. -/
theorem place (h : Orderly s) {path : List ℕ} {p : Page}
    (hp : s.treePage path = some p) :
    (∃ i, s.Hot i ∧ p = s.slotPage i) ∨
      p = s.backend.store p.remoteAddress.offset ∧
        Image s.backend p.remoteAddress (p.node s.addressOf) := by
  induction path using List.reverseRecOn generalizing p with
  | nil =>
      obtain ⟨r, hr, hword, _⟩ := h.links.root
      left
      refine ⟨r, hr, ?_⟩
      rw [State.treePage, State.follow, State.rootPage, hword] at hp
      exact (Option.some.inj hp).symm
  | append_singleton path i ih =>
      obtain ⟨q, hq, htype, hi, rfl⟩ := State.treePage_parent hp
      cases hchild : q.child i with
      | swizzled c =>
          rcases ih hq with ⟨j, hj, rfl⟩ | ⟨hstore, himage⟩
          · obtain ⟨k, rfl, hk, _⟩ := h.links.tagged hj htype hi hchild
            exact Or.inl ⟨k, hk, rfl⟩
          · have hslot := Page.getElem?_slots himage.formed
              (hstore ▸ htype) (hstore ▸ hi)
            rw [← hstore, hchild] at hslot
            have huntagged := himage.untagged
              (hstore ▸ List.mem_of_getElem? hslot)
            cases huntagged
      | remote a =>
          have haddr := (h.child hq htype hi).address hchild
          rw [hchild] at hp
          rcases h.imaged hp with ⟨j, hj, heq, _⟩ | himage
          · exact Or.inl ⟨j, hj, heq⟩
          · refine Or.inr ⟨?_, himage⟩
            exact congrArg (fun b : GlobalAddress => s.backend.store b.offset)
              haddr.symm

theorem formed_hot (h : Orderly s) {i : ℕ} (hi : s.Hot i) :
    (s.slotPage i).Formed := by
  obtain ⟨path, hpath⟩ := h.exists_path hi
  have hpage := h.page hpath
  refine ⟨hpage.typed, hpage.count_le, hpage.leaf_level, fun k => ?_⟩
  rw [h.links.bitmap hi]
  constructor
  · rintro ⟨htype, hk, htag⟩
    have hcount := hpage.count_le
    have hslot : (s.slotPage i).slots[k]? = some ((s.slotPage i).child k) := by
      rw [Page.slots_of_inner htype, getElem?_live, if_pos (by omega)]
      simp [Page.child, show k < 60 by omega]
    rw [hslot]
    cases hchild : (s.slotPage i).child k with
    | swizzled q => exact ⟨q, rfl⟩
    | remote a =>
        rw [hchild] at htag
        cases htag
  · rintro ⟨q, hq⟩
    obtain ⟨htype, hk, hchild⟩ := Page.le_count_of_slot hq
    exact ⟨htype, hk, by rw [hchild]; rfl⟩

theorem formed (h : Orderly s) {path : List ℕ} {p : Page}
    (hp : s.treePage path = some p) : p.Formed := by
  rcases h.place hp with ⟨i, hi, rfl⟩ | ⟨hstore, himage⟩
  · exact h.formed_hot hi
  · rw [hstore]
    exact himage.formed

/-- The children of the node of a page are where its words lead. -/
theorem children_node (h : Orderly s) {path : List ℕ} {p : Page}
    (hp : s.treePage path = some p) {i : ℕ} {c : GlobalAddress} :
    (p.node s.addressOf).children[i]? = some c ↔
      p.type = .btreeInner ∧ i ≤ p.count.toNat ∧
        c = (s.behind (p.child i)).remoteAddress := by
  have hword : p.type = .btreeInner → i ≤ p.count.toNat →
      s.addressOf (p.child i) = (s.behind (p.child i)).remoteAddress := by
    intro htype hi
    cases hchild : p.child i with
    | swizzled q => rfl
    | remote a => exact ((h.child hp htype hi).address hchild).symm
  rw [Page.node_children (h.formed hp), List.getElem?_map,
    Option.map_eq_some_iff]
  constructor
  · rintro ⟨w, hw, rfl⟩
    obtain ⟨htype, hi, hchild⟩ := Page.le_count_of_slot hw
    exact ⟨htype, hi, hchild ▸ hword htype hi⟩
  · rintro ⟨htype, hi, rfl⟩
    exact ⟨_, Page.getElem?_slots (h.formed hp) htype hi, hword htype hi⟩

/-- The paths of an orderly state lead through a search tree. -/
theorem inOrder (h : Orderly s) : (paths s).InOrder 59 s.root := by
  have hroot : s.treePage [] = some s.rootPage := rfl
  constructor
  · obtain ⟨r, hr, hword, _, hlo, hhi⟩ := h.links.root
    have hpage : s.rootPage = s.slotPage r := by
      rw [State.rootPage, hword]
      rfl
    refine ⟨s.rootPage.node s.addressOf,
      paths_eq_some.mpr ⟨_, hroot, h.root_address, rfl⟩, ?_, ?_⟩
    · rw [Page.node_lo, hpage, hlo]
    · rw [Page.node_hi, hpage, hhi]
  · intro path i c m hm
    obtain ⟨q, hq, rfl, _⟩ := paths_eq_some.mp hm
    obtain ⟨p, hp, htype, hi, rfl⟩ := State.treePage_parent hq
    exact ⟨_, _, paths_eq_some.mpr ⟨p, hp, rfl, rfl⟩,
      (h.children_node hp).mpr ⟨htype, hi, rfl⟩⟩
  · intro path i a c n hn hc
    obtain ⟨p, hp, rfl, rfl⟩ := paths_eq_some.mp hn
    obtain ⟨htype, hi, rfl⟩ := (h.children_node hp).mp hc
    have hchild := State.treePage_child hp htype hi
    have horder := h.child hp htype hi
    have hcount := (h.page hp).count_le
    have hlimits := horder.limits
    simp only [newCheckLimitMatch, decide_eq_true_eq] at hlimits
    refine ⟨_, paths_eq_some.mpr ⟨_, hchild, rfl, rfl⟩, ?_, ?_, ?_⟩
    · rw [Page.node_level (h.formed hchild), Page.node_level (h.formed hp)]
      exact horder.level
    · rw [Page.getElem?_bounds_lo htype hcount hi, Page.node_lo, hlimits.1]
    · rw [Page.getElem?_bounds_hi htype hcount hi, Page.node_hi, hlimits.2]
  · intro path a n hn hinner
    obtain ⟨p, hp, rfl, rfl⟩ := paths_eq_some.mp hn
    have hformed := h.formed hp
    have htype := hformed.typed.resolve_left fun hleaf => by
      rw [(Page.node_isLeaf hformed).mpr hleaf] at hinner
      cases hinner
    rw [Page.node_children hformed, List.length_map,
      Page.length_slots hformed htype, Page.node_of_inner htype]
    exact congrArg (· + 1) (Page.length_separators hformed.count_le).symm
  · intro path a n hn
    obtain ⟨p, hp, rfl, rfl⟩ := paths_eq_some.mp hn
    exact (h.page hp).sound s.addressOf
  · intro path path' a n n' hn hn'
    obtain ⟨p, hp, rfl, _⟩ := paths_eq_some.mp hn
    obtain ⟨p', hp', heq, _⟩ := paths_eq_some.mp hn'
    exact h.links.apart hp hp' heq.symm

/-- The node of a page stands in the forest under the address of the page. -/
theorem forest_iff (h : Orderly s) {a : GlobalAddress} {n : TreeNode} :
    (paths s).forest a = some n ↔ ∃ path p, s.treePage path = some p ∧
      p.remoteAddress = a ∧ p.node s.addressOf = n := by
  rw [h.inOrder.forest_iff]
  exact exists_congr fun path => paths_eq_some

theorem hot_lt (h : Orderly s) {i : ℕ} (hi : s.Hot i) :
    i < s.allocator.pageNum :=
  hi.1.trans_le h.head_le

/-! ## Coherence with the forest -/

theorem pool (h : Orderly s) : Pool ∅ {i | s.Hot i} s := by
  have hframes := h.roles.frames_nodup
  rw [State.frames, List.nodup_flatMap] at hframes
  have hframed : ∀ {j p}, j < s.hashTable.bucketNum →
      p ∈ (s.hashTable.table j).pages → ∃ i < s.allocator.headIdx,
        p = .slot i ∧ (s.slotPage i).posState = .cool := by
    intro j p hj hp
    exact h.roles.framed_iff.mp (State.mem_frames.mpr ⟨j, hj, hp⟩)
  have hapart : ∀ {j j'}, j < j' → j' < s.hashTable.bucketNum →
      List.Disjoint (s.hashTable.table j).pages
        (s.hashTable.table j').pages := by
    intro j j' hlt hj'
    have hdisjoint := List.pairwise_iff_getElem.mp hframes.2 j j'
      (by simp; omega) (by simpa using hj') hlt
    simpa [Function.onFun] using hdisjoint
  constructor
  · exact h.head_le
  · exact h.roles.dynamic_iff
  · exact h.buckets
  · exact h.count_le
  · intro j p hj hp
    obtain ⟨i, hi, rfl, hpos⟩ := hframed hj hp
    exact ⟨i, hi, rfl, Set.notMem_empty i, hpos⟩
  · intro j hj
    exact hframes.1 j (List.mem_range.mpr hj)
  · intro j j' p hj hj' hp hp'
    rcases lt_trichotomy j j' with hlt | heq | hlt
    · exact absurd hp' (hapart hlt hj' hp)
    · exact heq
    · exact absurd hp (hapart hlt hj hp')
  · exact h.roles.local_nodup
  · intro p hp
    obtain ⟨i, hi, rfl, hpos⟩ := h.roles.listed_iff.mp hp
    exact ⟨i, hi, rfl, Set.notMem_empty i, hpos⟩
  · intro i hi
    exact absurd hi (Set.notMem_empty i)
  · intro i
    constructor
    · intro hi
      exact ⟨hi.1, Set.notMem_empty i, Or.inl hi.2⟩
    · rintro ⟨hi, _, huse⟩
      refine ⟨hi, huse.resolve_right fun hpin => ?_⟩
      rcases h.roles.roles hi with hpos | hpos | hpos
      all_goals rw [hpos] at hpin; cases hpin
  · intro i hi _
    rcases h.roles.roles hi with hpos | hpos | hpos
    · exact Or.inl ⟨hi, hpos⟩
    · obtain ⟨j, hj, hmem⟩ := State.mem_frames.mp
        (h.roles.framed_iff.mpr ⟨i, hi, rfl, hpos⟩)
      exact Or.inr (Or.inr ⟨j, hj, hmem⟩)
    · exact Or.inr (Or.inl (h.roles.listed_iff.mpr ⟨i, hi, rfl, hpos⟩))

theorem cached (h : Orderly s) :
    Cached ∅ {i | s.Hot i} s (paths s).forest := by
  have htagged : ∀ {i k q}, s.Hot i → (s.slotPage i).Tags k q →
      ∃ j, q = .slot j ∧ s.Hot j ∧
        (s.slotPage j).parentPtr = some (.slot i) := by
    intro i k q hi htag
    obtain ⟨htype, hk, hchild⟩ := Page.le_count_of_slot htag
    obtain ⟨j, rfl, hj, hparent, _⟩ := h.links.tagged hi htype hk hchild
    exact ⟨j, rfl, hj, hparent⟩
  constructor
  · exact h.super_level
  · intro i hi
    exact h.formed_hot hi
  · intro i hi
    obtain ⟨path, hpath⟩ := h.exists_path hi
    exact h.forest_iff.mpr ⟨path, _, hpath, rfl, rfl⟩
  · intro i j hi hj heq
    have hget := h.truth.hot hi
    rw [heq, h.truth.hot hj, Option.some.injEq, PagePtr.slot.injEq] at hget
    exact hget.symm
  · intro i k q hi htag
    obtain ⟨j, rfl, hj, hparent⟩ := htagged hi htag
    exact ⟨j, hj, rfl, fun _ => hparent⟩
  · intro i hi _
    by_cases hroot : (s.page .superRoot).child 0 = .swizzled (.slot i)
    · obtain ⟨r, hr, hword, hparent, _⟩ := h.links.root
      rw [hroot, ChildSlot.swizzled.injEq, PagePtr.slot.injEq] at hword
      subst hword
      refine Or.inl ⟨hparent, ?_⟩
      have haddr : s.addr i = s.root := by
        have hpage : s.rootPage = s.slotPage i := by
          rw [State.rootPage, hroot]
          rfl
        rw [State.addr, ← hpage, h.root_address]
      rw [haddr]
      exact h.inOrder.searchTree.not_child
    · obtain ⟨⟨j, k⟩, ⟨hj, htype, hk, hchild⟩, _⟩ :=
        h.links.parented hi hroot
      have htag : (s.slotPage j).Tags k (.slot i) := by
        rw [Page.Tags, Page.getElem?_slots (h.formed_hot hj) htype hk]
        exact congrArg some hchild
      obtain ⟨i', heq, _, hparent⟩ := htagged hj htag
      obtain rfl : i = i' := by simpa using heq
      exact Or.inr ⟨j, hj, hparent, k, htag⟩

theorem backed (h : Orderly s) :
    Backed True (fun _ => False) {i | s.Hot i} s (paths s).forest := by
  have hF := h.inOrder.searchTree
  constructor
  · exact hF.linked
  · intro a n hn
    obtain ⟨path, p, hp, rfl, rfl⟩ := h.forest_iff.mp hn
    rw [Page.node_level (h.formed hp)]
    exact (h.page hp).level_lt
  · intro _ a n hn
    exact (hF.sound hn).ordered.imp le_of_lt
  · exact h.capacity_le
  · intro a n hn
    obtain ⟨path, p, hp, rfl, rfl⟩ := h.forest_iff.mp hn
    exact (h.page hp).placed
  · intro a n hn hclean
    obtain ⟨path, p, hp, rfl, rfl⟩ := h.forest_iff.mp hn
    rcases h.imaged hp with ⟨i, hi, rfl, hdirty⟩ | himage
    · rw [hclean i hi rfl] at hdirty
      cases hdirty
    · exact himage
  · intro _ i hi hdirty
    exact h.links.dirty hi hdirty

theorem mapped (h : Orderly s) : Mapped ∅ {i | s.Hot i} s := by
  refine ⟨h.table, ?_, fun hi => h.truth.hot hi⟩
  intro a q hq
  obtain ⟨i, hi, rfl, haddr, hpos⟩ := h.truth.found hq
  refine ⟨i, hi, rfl, Set.notMem_empty i, haddr, ?_⟩
  rcases hpos with hpos | hpos
  all_goals rw [hpos]; simp

/-- An orderly state is coherent with the forest of its paths. -/
theorem consistent (h : Orderly s) :
    Consistent {i | s.Hot i} s (paths s).forest := by
  obtain ⟨r, hr, hword, hparent, _⟩ := h.links.root
  refine ⟨⟨⟨h.pool, h.cached, h.backed, h.mapped⟩, fun i hi => hi.2, h.pages⟩,
    ⟨r, hr, hword, hparent, ?_⟩, h.inOrder.searchTree, ?_⟩
  · have hpage : s.rootPage = s.slotPage r := by
      rw [State.rootPage, hword]
      rfl
    rw [State.addr, ← hpage, h.root_address]
  · by_contra hsome
    obtain ⟨n, hn⟩ := Option.ne_none_iff_exists'.mp hsome
    obtain ⟨path, p, hp, hnull, _⟩ := h.forest_iff.mp hn
    exact h.links.null_free hp hnull

end Orderly

/-- A state that is coherent with a search tree is orderly. -/
theorem Consistent.orderly {R : Set ℕ} {s : State} {F : TreeForest}
    (h : Consistent R s F) : Orderly s := by
  have hready := h.ready
  have hsettled := hready.settled
  have hbacked := hsettled.backed
  constructor
  · exact hready.pages
  · exact hsettled.pool.head_le
  · exact hsettled.pool.buckets
  · exact hsettled.pool.count_le
  · exact hbacked.capacity_le
  · exact hready.slotRoles
  · exact hsettled.mapped.inv
  · exact hready.tableTruth
  · exact h.linksAgree
  · exact hsettled.cached.super_level
  · exact h.current_root.address
  · intro path p hp
    obtain ⟨a, ha, hcur⟩ := h.current_of_path hp
    have hformed := hcur.formed
    have hsound := h.search.sound hcur.shown
    have hlevel := hbacked.level_lt hcur.shown
    rw [Page.node_level hformed] at hlevel
    constructor
    · exact hformed.typed
    · exact hformed.count_le
    · exact hformed.leaf_level
    · intro heq
      rw [heq] at hlevel
      exact absurd hlevel (by decide)
    · have hlt := hsound.lo_lt_hi
      rwa [Page.node_lo, Page.node_hi] at hlt
    · intro htype
      have hsorted := hsound.keys_sorted
      rwa [Page.node_of_inner htype] at hsorted
    · intro htype k hk
      have hmem : k ∈ (p.node s.addressOf).keys := by
        rw [Page.node_of_inner htype]
        exact hk
      exact ⟨by simpa using hsound.lo_lt_key hmem,
        by simpa using hsound.key_lt_hi hmem⟩
    · intro htype
      have hsorted := hsound.entries_sorted
      rwa [Page.node_of_leaf htype] at hsorted
    · intro htype e he
      have hcovers := hsound.entries_covered e (by
        rw [Page.node_of_leaf htype]
        exact he)
      rw [BTreeLeaf.rangeValid, decide_eq_true_eq]
      rwa [Node.Covers, Page.node_lo, Page.node_hi] at hcovers
    · rw [hcur.address]
      exact hbacked.placed hcur.shown
  · intro path p i hp htype hi
    obtain ⟨a, ha, hcur⟩ := h.current_of_path hp
    obtain ⟨c, hc, hchild⟩ := hcur.child hsettled htype hi
    constructor
    · intro b hb
      have hword := Page.getElem?_slots hcur.formed htype hi
      rw [Page.node_children hcur.formed, List.getElem?_map, hword, hb] at hc
      obtain rfl : b = c := by simpa [State.addressOf] using hc
      have haddr := hchild.address
      rwa [hb] at haddr
    · obtain ⟨m, hm, hlevel⟩ := h.search.linked.child hcur.shown hc
      rw [hchild.shown, Option.some.injEq] at hm
      subst hm
      rwa [Page.node_level hchild.formed, Page.node_level hcur.formed]
        at hlevel
    · exact hcur.limits_match hchild h.search hc
  · exact h.imaged

/-- The orderly states are those that stand for a search tree. -/
theorem orderly_iff {s : State} : Orderly s ↔ ∃ R F, Consistent R s F :=
  ⟨fun h => ⟨_, _, h.consistent⟩, fun ⟨_, _, h⟩ => h.orderly⟩

end CachingDex
