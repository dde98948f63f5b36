import CachingDex.LeafOps
import CachingDex.Lib.LeafChain

/-!
# The tree as a map

Between two operations the forest is a search tree of a known shape below the
root address of the tree object, and what it stores is a map from keys to
values.  Lookups read that map, and updates and removes change it under their
key, whatever the cache does meanwhile.
-/

namespace CachingDex

open Lib Lib.Traced

abbrev KeyMap := Key → Option Value

/-- The forest stores the pairs of the map. -/
def Represents (F : TreeForest) (m : KeyMap) : Prop :=
  ∀ k v, F.Stored k v ↔ m k = some v

/-- A state between two operations: the cache is in order and the forest is a
search tree below the root address. -/
structure Consistent (R : Set ℕ) (s : State) (F : TreeForest) : Prop where
  ready : Ready True R s F
  rooted : ∃ r, Rooted R s r
  search : SearchTree F 59 s.root
  null_free : F .null = none

/-- A consistent state in which the tree object counts the nodes and levels,
and inner nodes are filled as splits leave them. -/
structure Tree (R : Set ℕ) (s : State) (F : TreeForest) : Prop
    extends Consistent R s F where
  shape : F.Shape 28 s.root s.leafNum s.innerNum
  height : ∀ {n}, F s.root = some n → s.height = n.level + 1

/-- The states a run can reach, with the map the tree stands for. -/
def TreeOf (m : KeyMap) (s : State) : Prop :=
  ∃ R F, Tree R s F ∧ Represents F m

/-- What an operation does to the chain of leaves of its forest.  `P` says
that the leaf it splits, if it splits one, is the last one. -/
structure ChainStep (P : Prop) (F F' : TreeForest) : Prop where
  linked : P → F.LeafLinked .null → F'.LeafLinked .null
  cut : F.LeafCut .null → F'.LeafCut .null
  cuts : ¬ P → F'.LeafCut .null

theorem ChainStep.refl (F : TreeForest) : ChainStep True F F :=
  ⟨fun _ h => h, id, fun h => absurd trivial h⟩

theorem ChainStep.of_edits {F F' : TreeForest} {k : Key}
    {entries entries' : List (Key × Value)}
    (h : Forest.EditsLeaf F F' k entries entries') : ChainStep True F F' :=
  ⟨fun _ => h.linked, h.cut, fun hnot => absurd trivial hnot⟩

/-- The state after an operation on a tree with forest `F`. -/
def TreeAfter (P : Prop) (F : TreeForest) (m : KeyMap) (s : State) : Prop :=
  ∃ R F', Tree R s F' ∧ Represents F' m ∧ ChainStep P F F'

theorem TreeAfter.treeOf {P : Prop} {F : TreeForest} {m : KeyMap} {s : State}
    (h : TreeAfter P F m s) : TreeOf m s := by
  obtain ⟨R, F', htree, hm, _⟩ := h
  exact ⟨R, F', htree, hm⟩

/-- Loading pages keeps the state consistent. -/
theorem Consistent.retains {R R' : Set ℕ} {s s' : State} {F : TreeForest}
    (h : Consistent R s F) (hready : Ready True R' s' F)
    (hs : Retains R R' s s') : Consistent R' s' F := by
  obtain ⟨r, hr⟩ := h.rooted
  refine ⟨hready, ⟨r, hr.retains hs⟩, ?_, h.null_free⟩
  rw [hs.steady.root]
  exact h.search

/-- The tree depends on the tree object beside the forest. -/
theorem Tree.of_steady {R R' : Set ℕ} {s s' : State} {F : TreeForest}
    (h : Tree R s F) (hconsistent : Consistent R' s' F)
    (hs : Steady s s') : Tree R' s' F := by
  refine ⟨hconsistent, ?_, ?_⟩
  · rw [hs.root, hs.leafNum, hs.innerNum]
    exact h.shape
  · rw [hs.root, hs.height]
    exact h.height

/-- Loading pages keeps the tree. -/
theorem Tree.retains {R R' : Set ℕ} {s s' : State} {F : TreeForest}
    (h : Tree R s F) (hready : Ready True R' s' F)
    (hs : Retains R R' s s') : Tree R' s' F :=
  h.of_steady (h.toConsistent.retains hready hs) hs.steady

/-! ## Edits of one leaf -/

/-- What an edit of the entries of a sorted leaf does under the key `k`. -/
structure EditSpec (k : Key) (entries entries' : List (Key × Value)) :
    Prop where
  sorted : SortedEntries entries'
  new : ∀ e ∈ entries', e.1 = k ∨ e ∈ entries
  kept : ∀ e ∈ entries, e.1 ≠ k → e ∈ entries'

theorem editSpec_refl {k : Key} {entries : List (Key × Value)}
    (h : SortedEntries entries) : EditSpec k entries entries :=
  ⟨h, fun _ he => Or.inr he, fun _ he _ => he⟩

theorem editSpec_put {k : Key} {entries : List (Key × Value)}
    (h : SortedEntries entries) (v : Value) :
    EditSpec k entries (putEntry k v entries) := by
  refine ⟨h.put k v, ?_, ?_⟩
  · intro e he
    rcases (mem_putEntry h).mp he with rfl | ⟨_, he⟩
    · exact Or.inl rfl
    · exact Or.inr he
  · intro e he hne
    exact (mem_putEntry h).mpr (Or.inr ⟨hne, he⟩)

theorem editSpec_drop {k : Key} {entries : List (Key × Value)}
    (h : SortedEntries entries) :
    EditSpec k entries (dropEntry k entries) := by
  refine ⟨h.dropKey k, ?_, ?_⟩
  · intro e he
    exact Or.inr ((mem_dropEntry h).mp he).2
  · intro e he hne
    exact (mem_dropEntry h).mpr ⟨hne, he⟩

/-- The map after an edit under `k` is the old one but under `k`. -/
theorem Represents.edits {F F' : TreeForest} {m : KeyMap} {k : Key}
    {entries entries' : List (Key × Value)} {root : GlobalAddress}
    (h : Represents F m) (hF : SearchTree F 59 root)
    (hedit : Forest.EditsLeaf F F' k entries entries')
    (hspec : EditSpec k entries entries') (hsize : entries'.length ≤ 59) :
    Represents F' (Function.update m k (findEntry k entries')) := by
  intro k' v
  rw [hedit.stored_iff hF hspec.sorted hspec.new hsize hspec.kept]
  by_cases hk : k' = k
  · subst hk
    simp [hspec.sorted.findEntry_eq_some]
  · rw [Function.update_of_ne hk]
    simp [hk, h k' v]

/-- The state after one of its leaves was edited. -/
theorem Consistent.edits {R R' : Set ℕ} {s s' : State} {F F' : TreeForest}
    {k : Key} {entries entries' : List (Key × Value)} (h : Consistent R s F)
    (hedit : Forest.EditsLeaf F F' k entries entries')
    (hspec : EditSpec k entries entries') (hsize : entries'.length ≤ 59)
    (hready : Ready True R' s' F') (hrooted : ∃ r, Rooted R' s' r)
    (hsteady : Steady s s') : Consistent R' s' F' := by
  refine ⟨hready, hrooted, ?_, ?_⟩
  · rw [hsteady.root]
    exact hedit.searchTree h.search hspec.sorted hspec.new hsize
  · by_contra hsome
    obtain ⟨n, hn⟩ := Option.ne_none_iff_exists'.mp hsome
    obtain ⟨n₀, hn₀, _⟩ := hedit.node_before hn
    rw [h.null_free] at hn₀
    cases hn₀

/-- A consistent state after one of the leaves of a tree was edited has the
counters of the tree. -/
theorem Tree.of_edits {R R' : Set ℕ} {s s' : State} {F F' : TreeForest}
    {k : Key} {entries entries' : List (Key × Value)} (h : Tree R s F)
    (hedit : Forest.EditsLeaf F F' k entries entries')
    (hconsistent : Consistent R' s' F') (hsteady : Steady s s') :
    Tree R' s' F' := by
  refine ⟨hconsistent, ?_, ?_⟩
  · rw [hsteady.root, hsteady.leafNum, hsteady.innerNum]
    exact h.shape.editsLeaf hedit
  · intro n hn
    rw [hsteady.root] at hn
    obtain ⟨n₀, hn₀, heq⟩ := hedit.node_before hn
    rw [hsteady.height, heq]
    exact h.height hn₀

/-- The tree after one of its leaves was edited. -/
theorem Tree.edits {R R' : Set ℕ} {s s' : State} {F F' : TreeForest}
    {k : Key} {entries entries' : List (Key × Value)} (h : Tree R s F)
    (hedit : Forest.EditsLeaf F F' k entries entries')
    (hspec : EditSpec k entries entries') (hsize : entries'.length ≤ 59)
    (hready : Ready True R' s' F') (hrooted : ∃ r, Rooted R' s' r)
    (hsteady : Steady s s') : Tree R' s' F' :=
  h.of_edits hedit (h.toConsistent.edits hedit hspec hsize hready hrooted
    hsteady) hsteady

section Programs

variable {s : State} {m : KeyMap} {C : Contract State Halt Event}

/-- A lookup reads the map and loads pages. -/
theorem Consistent.lookup_meets {R : Set ℕ} {F : TreeForest}
    (hC : Tolerates True ∅ C) (h : Consistent R s F) (hm : Represents F m)
    (k : Key) :
    Meets C (LeanStoreTree.lookup k) s fun o s' =>
      o = m k ∧ ∃ R', Ready True R' s' F ∧ Retains R R' s s' := by
  obtain ⟨r, hr⟩ := h.rooted
  refine (CachingDex.lookup_meets hC (guides_covers h.search k) h.ready hr
    (SearchTree.covers_root h.search k)).mono ?_
  rintro o s' ⟨R', v, hreached, rfl⟩
  obtain ⟨_, _, hcount, hsorted, hstored⟩ := hreached.stored h.search
  refine ⟨?_, R', hreached.ready, hreached.retains⟩
  rw [BTreeLeaf.find_eq hcount hsorted]
  apply Option.ext
  intro w
  rw [← hstored, hm]

theorem Tree.lookup_step {R : Set ℕ} {F : TreeForest}
    (hC : Tolerates True ∅ C) (h : Tree R s F) (hm : Represents F m)
    (k : Key) :
    Meets C (LeanStoreTree.lookup k) s fun o s' =>
      o = m k ∧ ∃ R', Tree R' s' F ∧ Steady s s' := by
  refine (h.toConsistent.lookup_meets hC hm k).mono ?_
  rintro o s' ⟨ho, R', hready, hretains⟩
  exact ⟨ho, R', h.retains hready hretains, hretains.steady⟩

theorem Tree.lookup_meets {R : Set ℕ} {F : TreeForest}
    (hC : Tolerates True ∅ C) (h : Tree R s F) (hm : Represents F m)
    (k : Key) :
    Meets C (LeanStoreTree.lookup k) s fun o s' =>
      o = m k ∧ TreeAfter True F m s' := by
  refine (h.lookup_step hC hm k).mono ?_
  rintro o s' ⟨ho, R', htree, _⟩
  exact ⟨ho, R', F, htree, hm, .refl F⟩

/-- What an edit of the source does to the entries of its leaf. -/
structure EditsAs (k : Key) (call : Page → NodeCall)
    (edit : Page → Bool × Page)
    (f : List (Key × Value) → List (Key × Value)) : Prop where
  safe : ∀ p : Page, p.count.toNat ≤ 59 → (call p).Safe
  edits : Edits edit
  result : ∀ p : Page, p.count.toNat ≤ 59 → SortedEntries p.entries →
    (edit p).1 = (findEntry k p.entries).isSome
  entries : ∀ p : Page, p.count.toNat ≤ 59 → SortedEntries p.entries →
    (edit p).2.entries = f p.entries
  spec : ∀ entries, SortedEntries entries → EditSpec k entries (f entries)

/-- What an operation leaves of a consistent state if it adds no entry and
splits no page. -/
structure LeafEdited (s : State) (F : TreeForest) (m : KeyMap) (R' : Set ℕ)
    (s' : State) (F' : TreeForest) : Prop where
  consistent : Consistent R' s' F'
  represents : Represents F' m
  steady : Steady s s'
  edits : ∃ k entries entries', Forest.EditsLeaf F F' k entries entries' ∧
    entries'.length ≤ entries.length

/-- The tree after an operation that adds no entry and splits no page. -/
structure EditStep (s : State) (F : TreeForest) (m : KeyMap) (R' : Set ℕ)
    (s' : State) (F' : TreeForest) : Prop where
  tree : Tree R' s' F'
  represents : Represents F' m
  steady : Steady s s'
  edits : ∃ k entries entries', Forest.EditsLeaf F F' k entries entries' ∧
    entries'.length ≤ entries.length

theorem LeafEdited.editStep {R R' : Set ℕ} {F F' : TreeForest} {s' : State}
    (h : LeafEdited s F m R' s' F') (htree : Tree R s F) :
    EditStep s F m R' s' F' := by
  obtain ⟨k, entries, entries', hedit, hless⟩ := h.edits
  exact ⟨htree.of_edits hedit h.consistent h.steady, h.represents, h.steady,
    k, entries, entries', hedit, hless⟩

theorem EditStep.after {F F' : TreeForest} {R' : Set ℕ} {s' : State}
    (h : EditStep s F m R' s' F') : TreeAfter True F m s' := by
  obtain ⟨k, entries, entries', hedit, _⟩ := h.edits
  exact ⟨R', F', h.tree, h.represents, .of_edits hedit⟩

theorem Consistent.editLeaf_meets {R : Set ℕ} {F : TreeForest}
    (hC : Tolerates True ∅ C) (h : Consistent R s F) (hm : Represents F m)
    {k : Key} {call : Page → NodeCall} {edit : Page → Bool × Page}
    {f : List (Key × Value) → List (Key × Value)}
    (hedit : EditsAs k call edit f)
    (hless : ∀ entries, SortedEntries entries →
      (f entries).length ≤ entries.length) :
    Meets C (LeanStoreTree.editLeaf k call edit) s fun ok s' =>
      ok = (m k).isSome ∧ ∃ entries R' F', SortedEntries entries ∧
        findEntry k entries = m k ∧
          LeafEdited s F (Function.update m k (findEntry k (f entries)))
            R' s' F' := by
  obtain ⟨r, hr⟩ := h.rooted
  refine (CachingDex.editLeaf_meets hC (guides_covers h.search k) h.ready hr
    (SearchTree.covers_root h.search k) hedit.safe hedit.edits).mono ?_
  rintro ok s' ⟨R', v, t, hreached, rfl, rfl, hready, hrooted⟩
  obtain ⟨hshown, hk, hcount, hsorted, hstored⟩ :=
    hreached.stored h.search
  have hfind : findEntry k (t.slotPage v).entries = m k := by
    apply Option.ext
    intro w
    rw [← hstored, hm]
  have hentries : (editedPage edit (t.slotPage v)).entries =
      f (t.slotPage v).entries := by
    rw [entries_editedPage, hedit.entries _ hcount hsorted]
  have hspec := hedit.spec _ hsorted
  have hlength : (f (t.slotPage v).entries).length ≤ 59 := by
    have honly := (hedit.edits.entriesOnly hcount).1
    rw [← hentries, Page.length_entries honly.2]
    exact honly.2
  have hleafEdit : Forest.EditsLeaf F
      (editedForest F t v (editedPage edit (t.slotPage v))) k
        (t.slotPage v).entries (f (t.slotPage v).entries) := by
    refine ⟨_, _, _, _, hshown, hk, ?_⟩
    rw [editedForest, hentries]
  have hsteady : Steady s (t.setPage (.slot v)
      (editedPage edit (t.slotPage v))) := by
    have hlast : Steady t (t.setPage (.slot v)
        (editedPage edit (t.slotPage v))) :=
      ⟨rfl, rfl, rfl, rfl, rfl, rfl, rfl, id⟩
    exact hreached.retains.steady.trans hlast
  refine ⟨?_, (t.slotPage v).entries, R', _, hsorted, hfind,
    h.edits hleafEdit hspec hlength hready ⟨r, hrooted⟩ hsteady,
    hm.edits h.search hleafEdit hspec hlength, hsteady, k, _, _, hleafEdit,
    hless _ hsorted⟩
  rw [hedit.result _ hcount hsorted, hfind]

theorem editsAs_update (k : Key) (v : Value) :
    EditsAs k (.leafUpdate · k) (fun p => BTreeLeaf.update p k v)
      fun entries =>
        if (findEntry k entries).isSome then putEntry k v entries
        else entries where
  safe _ := NodeCall.safe_leafUpdate
  edits := edits_update v
  result _ hcount hsorted := (BTreeLeaf.update_spec hcount hsorted).1
  entries _ hcount hsorted := (BTreeLeaf.update_spec hcount hsorted).2
  spec entries hsorted := by
    split
    · exact editSpec_put hsorted v
    · exact editSpec_refl hsorted

theorem editsAs_remove (k : Key) :
    EditsAs k (.leafRemove · k) (fun p => BTreeLeaf.remove p k)
      (dropEntry k) where
  safe _ := NodeCall.safe_leafRemove
  edits := edits_remove
  result _ hcount hsorted := (BTreeLeaf.remove_spec hcount hsorted).1
  entries _ hcount hsorted := (BTreeLeaf.remove_spec hcount hsorted).2
  spec _ hsorted := editSpec_drop hsorted

theorem findEntry_putEntry {entries : List (Key × Value)}
    (h : SortedEntries entries) (k : Key) (v : Value) :
    findEntry k (putEntry k v entries) = some v := by
  rw [(h.put k v).findEntry_eq_some]
  exact (mem_putEntry h).mpr (Or.inl rfl)

theorem findEntry_dropEntry {entries : List (Key × Value)}
    (h : SortedEntries entries) (k : Key) :
    findEntry k (dropEntry k entries) = none := by
  by_contra hsome
  obtain ⟨v, hv⟩ := Option.ne_none_iff_exists'.mp hsome
  rw [(h.dropKey k).findEntry_eq_some, mem_dropEntry h] at hv
  exact hv.1 rfl

/-- An update edits the leaf of its key if it has the key. -/
theorem Consistent.update_meets {R : Set ℕ} {F : TreeForest}
    (hC : Tolerates True ∅ C) (h : Consistent R s F) (hm : Represents F m)
    (k : Key) (v : Value) :
    Meets C (LeanStoreTree.update k v) s fun ok s' =>
      ok = (m k).isSome ∧ ∃ R' F', LeafEdited s F
        (if (m k).isSome then Function.update m k (some v) else m)
          R' s' F' := by
  refine (h.editLeaf_meets hC hm (editsAs_update k v) ?_).mono ?_
  · intro entries hsorted
    split_ifs with hsome
    · exact (hsorted.length_putEntry hsome v).le
    · exact le_rfl
  rintro ok s' ⟨hok, entries, R', F', hsorted, hfind, hstep⟩
  refine ⟨hok, R', F', ?_⟩
  rw [hfind] at hstep
  split
  · rename_i hsome
    rwa [if_pos hsome, findEntry_putEntry hsorted] at hstep
  · rename_i hnone
    rwa [if_neg hnone, hfind, Function.update_eq_self] at hstep

/-- A remove drops its key from the leaf. -/
theorem Consistent.remove_meets {R : Set ℕ} {F : TreeForest}
    (hC : Tolerates True ∅ C) (h : Consistent R s F) (hm : Represents F m)
    (k : Key) :
    Meets C (LeanStoreTree.remove k) s fun ok s' =>
      ok = (m k).isSome ∧
        ∃ R' F', LeafEdited s F (Function.update m k none) R' s' F' := by
  refine (h.editLeaf_meets hC hm (editsAs_remove k) fun entries _ =>
    length_dropEntry_le k entries).mono ?_
  rintro ok s' ⟨hok, entries, R', F', hsorted, _, hstep⟩
  rw [findEntry_dropEntry hsorted] at hstep
  exact ⟨hok, R', F', hstep⟩

theorem Tree.update_step {R : Set ℕ} {F : TreeForest}
    (hC : Tolerates True ∅ C) (h : Tree R s F) (hm : Represents F m)
    (k : Key) (v : Value) :
    Meets C (LeanStoreTree.update k v) s fun ok s' =>
      ok = (m k).isSome ∧ ∃ R' F', EditStep s F
        (if (m k).isSome then Function.update m k (some v) else m)
          R' s' F' := by
  refine (h.toConsistent.update_meets hC hm k v).mono ?_
  rintro ok s' ⟨hok, R', F', hstep⟩
  exact ⟨hok, R', F', hstep.editStep h⟩

theorem Tree.remove_step {R : Set ℕ} {F : TreeForest}
    (hC : Tolerates True ∅ C) (h : Tree R s F) (hm : Represents F m)
    (k : Key) :
    Meets C (LeanStoreTree.remove k) s fun ok s' =>
      ok = (m k).isSome ∧
        ∃ R' F', EditStep s F (Function.update m k none) R' s' F' := by
  refine (h.toConsistent.remove_meets hC hm k).mono ?_
  rintro ok s' ⟨hok, R', F', hstep⟩
  exact ⟨hok, R', F', hstep.editStep h⟩

/-- An update changes the map only where the key is present, and tells. -/
theorem Tree.update_meets {R : Set ℕ} {F : TreeForest}
    (hC : Tolerates True ∅ C) (h : Tree R s F) (hm : Represents F m)
    (k : Key) (v : Value) :
    Meets C (LeanStoreTree.update k v) s fun ok s' =>
      ok = (m k).isSome ∧
        TreeAfter True F
          (if (m k).isSome then Function.update m k (some v) else m) s' := by
  refine (h.update_step hC hm k v).mono ?_
  rintro ok s' ⟨hok, R', F', hstep⟩
  exact ⟨hok, hstep.after⟩

/-- A remove deletes its key and tells whether it was there. -/
theorem Tree.remove_meets {R : Set ℕ} {F : TreeForest}
    (hC : Tolerates True ∅ C) (h : Tree R s F) (hm : Represents F m)
    (k : Key) :
    Meets C (LeanStoreTree.remove k) s fun ok s' =>
      ok = (m k).isSome ∧
        TreeAfter True F (Function.update m k none) s' := by
  refine (h.remove_step hC hm k).mono ?_
  rintro ok s' ⟨hok, R', F', hstep⟩
  exact ⟨hok, hstep.after⟩

end Programs

end CachingDex
