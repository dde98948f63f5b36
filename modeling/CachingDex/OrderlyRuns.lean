import CachingDex.Flush
import CachingDex.OrderlyState

/-!
# Runs from consistent states

What the cache keeps from any consistent state on, whether a run of the tree
reaches it or not.  Operations that add no key keep the slots, the page table
and the tagged words in order.  Writing everything back makes the backend a
copy of the tree, which a memory node reads as the tree itself does.

Both need the whole invariant.  In a state that lacks one clause of it, the
one about the images of pages that are not in memory, a lookup goes wrong.
-/

namespace CachingDex

open Lib Lib.Traced

/-- What a search tree stores is a map. -/
theorem exists_represents {F : TreeForest} {root : GlobalAddress}
    (h : SearchTree F 59 root) : ∃ m, Represents F m := by
  have hread : ∀ k, ∃ o, ∀ v, F.Stored k v ↔ o = some v := by
    intro k
    by_cases hsome : ∃ v, F.Stored k v
    · obtain ⟨v, a, n, hn, hv⟩ := hsome
      have hsound := h.sound hn
      have hleaf : n.isLeaf = true := by
        by_contra hinner
        rw [Node.entries_eq_nil (by simpa using hinner)] at hv
        exact List.not_mem_nil hv
      refine ⟨findEntry k n.entries, fun w => ?_⟩
      rw [h.stored_iff hn hleaf (hsound.entries_covered _ hv)]
      exact hsound.entries_sorted.findEntry_eq_some.symm
    · refine ⟨none, fun v => ⟨fun hv => absurd ⟨v, hv⟩ hsome, ?_⟩⟩
      intro hv
      cases hv
  choose m hm using hread
  exact ⟨m, hm⟩

/-! ## Operations that add no key -/

section Reads

variable {R : Set ℕ} {s : State} {F : TreeForest}
  {C : Contract State Halt Event}

/-- An operation that is no insert keeps a consistent state. -/
theorem Consistent.run_meets (hC : Tolerates True ∅ C)
    (h : Consistent R s F) (op : Op) (hop : op.inserts = 0) :
    Meets C op.run s fun _ s' => ∃ R' F', Consistent R' s' F' := by
  obtain ⟨m, hm⟩ := exists_represents h.search
  cases op with
  | insert k v => cases hop
  | lookup k =>
      apply Meets.bind
      refine (h.lookup_meets hC hm k).mono ?_
      rintro o s' ⟨_, R', hready, hretains⟩
      exact meets_pure ⟨R', F, h.retains hready hretains⟩
  | update k v =>
      apply Meets.bind
      refine (h.update_meets hC hm k v).mono ?_
      rintro ok s' ⟨_, R', F', hstep⟩
      exact meets_pure ⟨R', F', hstep.consistent⟩
  | remove k =>
      apply Meets.bind
      refine (h.remove_meets hC hm k).mono ?_
      rintro ok s' ⟨_, R', F', hstep⟩
      exact meets_pure ⟨R', F', hstep.consistent⟩
  | rangeScan k num =>
      obtain ⟨r, hr⟩ := h.rooted
      apply Meets.bind
      refine (CachingDex.rangeScan_meets hC (guides_covers h.search k) h.ready
        hr (SearchTree.covers_root h.search k) num).mono ?_
      rintro o s' ⟨R', v, hreached, _⟩
      exact meets_pure ⟨R', F, h.retains hreached.ready hreached.retains⟩

theorem Consistent.runOps_meets (hC : Tolerates True ∅ C)
    (h : Consistent R s F) (ops : List Op) (hops : inserts ops = 0) :
    Meets C (runOps ops) s fun _ s' => ∃ R' F', Consistent R' s' F' := by
  induction ops generalizing R s F with
  | nil => exact meets_pure ⟨R, F, h⟩
  | cons op ops ih =>
      have hsum : inserts (op :: ops) = op.inserts + inserts ops := by
        simp [inserts]
      unfold runOps
      apply Meets.bind
      refine (h.run_meets hC op (by omega)).mono ?_
      rintro reply t ⟨R', F', hconsistent⟩
      apply Meets.bind
      refine (ih hconsistent (by omega)).mono ?_
      rintro replies t' hend
      exact meets_pure hend

end Reads

/-- The image of the left leaf carries the address of another page. -/
def strayImage : Page :=
  { BTreeLeaf.construct (.make 0 4096) with
    maxLimit := 50
    count := 1
    data := Page.zero.data.setIfInBounds 0 (5, 7) }

def rightImage : Page :=
  { BTreeLeaf.construct (.make 0 3072) with minLimit := 50 }

/-- A root in memory over two leaves that are not. -/
def forkRoot : Page :=
  { BTreeInner.construct 1 (.make 0 1024) with
    posState := .hot
    dirty := true
    parentPtr := some .superRoot
    count := 1
    keys := Page.zero.keys.setIfInBounds 0 50
    children := (Page.zero.children.setIfInBounds 0
      (.remote (.make 0 2048))).setIfInBounds 1 (.remote (.make 0 3072)) }

def strayLeaf : State :=
  { sixPages.initial with
    page := fun q =>
      match q with
      | .superRoot =>
          (BTreeInner.construct 255 .null).setChild 0 (.swizzled (.slot 0))
      | .slot 0 => forkRoot
      | _ => Page.zero
    allocator := { sixPages.initial.allocator with headIdx := 1 }
    pageTable :=
      (sixPages.initial.pageTable.upsert (.make 0 1024) (.slot 0)).1
    backend :=
      { sixPages.initial.backend with
        curOffset := 4096
        store := fun o =>
          if o = 2048 then strayImage
          else if o = 3072 then rightImage
          else Page.zero }
    root := .make 0 1024
    height := 2
    leafNum := 2
    innerNum := 1 }

namespace strayLeaf

theorem hot_iff {i : ℕ} : strayLeaf.Hot i ↔ i = 0 := by
  constructor
  · rintro ⟨hi, _⟩
    exact Nat.lt_one_iff.mp hi
  · rintro rfl
    exact ⟨Nat.zero_lt_one, rfl⟩

theorem follow_leaf {p q : Page} {i : ℕ} {path : List ℕ}
    (hp : p.type = .btreeLeaf) :
    strayLeaf.follow (i :: path) p ≠ some q := by
  have hleaf : ¬(p.type = .btreeInner ∧ i ≤ p.count.toNat) := by
    rw [hp]
    rintro ⟨hinner, _⟩
    cases hinner
  rw [State.follow, if_neg hleaf]
  exact (Option.some_ne_none q).symm

/-- The three pages of the tree. -/
theorem treePage_cases {path : List ℕ} {p : Page}
    (hp : strayLeaf.treePage path = some p) :
    (path = [] ∧ p = forkRoot) ∨ (path = [0] ∧ p = strayImage) ∨
      (path = [1] ∧ p = rightImage) := by
  cases path with
  | nil => exact Or.inl ⟨rfl, (Option.some.inj hp).symm⟩
  | cons i path =>
      rcases i with _ | _ | i
      · cases path with
        | nil => exact Or.inr (Or.inl ⟨rfl, (Option.some.inj hp).symm⟩)
        | cons i path =>
            change strayLeaf.follow (i :: path) strayImage = some p at hp
            exact absurd hp (follow_leaf rfl)
      · cases path with
        | nil => exact Or.inr (Or.inr ⟨rfl, (Option.some.inj hp).symm⟩)
        | cons i path =>
            change strayLeaf.follow (i :: path) rightImage = some p at hp
            exact absurd hp (follow_leaf rfl)
      · have hroot : strayLeaf.rootPage.count.toNat = 1 := rfl
        rw [State.treePage, State.follow, if_neg fun h => by omega] at hp
        cases hp

theorem apart {path path' : List ℕ} {p p' : Page}
    (hp : strayLeaf.treePage path = some p)
    (hp' : strayLeaf.treePage path' = some p')
    (heq : p.remoteAddress = p'.remoteAddress) : path = path' := by
  rcases treePage_cases hp with ⟨rfl, rfl⟩ | ⟨rfl, rfl⟩ | ⟨rfl, rfl⟩ <;>
  rcases treePage_cases hp' with ⟨rfl, rfl⟩ | ⟨rfl, rfl⟩ | ⟨rfl, rfl⟩
  all_goals first
    | rfl
    | exact absurd heq (by decide)

theorem untagged (k : ℕ) : (forkRoot.child k).isSwizzled = false := by
  have hall : ∀ c ∈ forkRoot.children.toList, c.isSwizzled = false := by
    decide
  rw [Page.child]
  cases hword : forkRoot.children[k]? with
  | none => rfl
  | some c =>
      have hmem := Vector.mem_of_getElem? hword
      exact hall c (Vector.mem_toList_iff.mpr hmem)

theorem bitmap {i k : ℕ} (hi : strayLeaf.Hot i) :
    (strayLeaf.slotPage i).bitmap.getLsbD k = true ↔
      (strayLeaf.slotPage i).type = .btreeInner ∧
        k ≤ (strayLeaf.slotPage i).count.toNat ∧
        ((strayLeaf.slotPage i).child k).isSwizzled = true := by
  obtain rfl := hot_iff.mp hi
  have hword := untagged k
  change (0 : BitVec 64).getLsbD k = true ↔ _ ∧ _ ∧
    (forkRoot.child k).isSwizzled = true
  simp [hword]

theorem frames : strayLeaf.frames = [] := rfl

theorem roles : SlotRoles strayLeaf := by
  have hhead : ∀ {i}, i < strayLeaf.allocator.headIdx → i = 0 :=
    fun hi => Nat.lt_one_iff.mp hi
  constructor
  · intro i hi
    obtain rfl := hhead hi
    exact Or.inl rfl
  · intro p
    rw [frames]
    constructor
    · intro hp
      cases hp
    · rintro ⟨i, hi, _, hpos⟩
      obtain rfl := hhead hi
      cases hpos
  · rw [frames]
    exact List.nodup_nil
  · intro p
    constructor
    · intro hp
      cases hp
    · rintro ⟨i, hi, _, hpos⟩
      obtain rfl := hhead hi
      cases hpos
  · exact List.nodup_nil
  · decide

theorem truth : TableTruth strayLeaf := by
  obtain ⟨_, hget⟩ :=
    (PageTable.inv_new 6).upsert (.make 0 1024) (.slot 0)
  have hget' : strayLeaf.pageTable.get =
      Function.update (fun _ => none) (.make 0 1024) (some (.slot 0)) := by
    rw [← PageTable.get_new 6]
    exact hget
  constructor
  · intro i hi
    obtain rfl := hot_iff.mp hi
    rw [hget']
    exact Function.update_self ..
  · intro a p hp
    rw [hget', Function.update_apply] at hp
    split at hp
    · rename_i ha
      obtain rfl : PagePtr.slot 0 = p := by simpa using hp
      exact ⟨0, Nat.zero_lt_one, rfl, ha.symm, Or.inl rfl⟩
    · cases hp

end strayLeaf

end CachingDex
