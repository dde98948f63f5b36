import CachingDex.Descent

/-!
# Reading and editing a leaf

An edit of a resident leaf keeps the state ready for a forest with other
entries at one address, whether or not the entries are in order.  In a search
tree the leaf that was reached covers the key, and the edits of the source
are those of a sorted association list.
-/

namespace CachingDex

open Lib Lib.Traced

section States

variable {tidy : Prop} {R : Set ℕ} {s : State} {F : TreeForest}

/-- The node of a leaf page with other entries. -/
theorem Page.EntriesOnly.node {p p' : Page} (h : p.EntriesOnly p')
    (hleaf : p.type = .btreeLeaf) (w : ChildSlot → GlobalAddress) :
    p'.node w =
      .leaf p.minLimit p.maxLimit p'.entries p.nextLeaf := by
  have htype : p'.type = .btreeLeaf := by
    rw [h.1]
    exact hleaf
  have hlimits : p'.minLimit = p.minLimit ∧ p'.maxLimit = p.maxLimit ∧
      p'.nextLeaf = p.nextLeaf := by
    rw [h.1]
    exact ⟨rfl, rfl, rfl⟩
  rw [Page.node_of_leaf htype, hlimits.1, hlimits.2.1, hlimits.2.2]

theorem Page.EntriesOnly.formed {p p' : Page} (h : p.EntriesOnly p')
    (hleaf : p.type = .btreeLeaf) (hp : p.Formed) : p'.Formed := by
  have htype : p'.type = .btreeLeaf := by
    rw [h.1]
    exact hleaf
  refine ⟨Or.inl htype, h.2, fun _ => ?_, fun i => ?_⟩
  · rw [h.1]
    exact hp.leaf_level hleaf
  · have hbits : p'.bitmap = p.bitmap := by rw [h.1]
    rw [hbits, Page.bitmap_of_leaf hp hleaf, Page.slots_of_leaf htype]
    simp

/-- The forest after the leaf in slot `v` was edited to `p'`. -/
def editedForest (F : TreeForest) (s : State) (v : ℕ) (p' : Page) :
    TreeForest :=
  Function.update F (s.addr v)
    (some (.leaf (s.slotPage v).minLimit (s.slotPage v).maxLimit p'.entries
      (s.slotPage v).nextLeaf))

/-- An edit of a resident leaf changes the entries at its address. -/
theorem Ready.editLeaf (h : Ready tidy R s F) {v : ℕ} (hv : v ∈ R)
    (hleaf : (s.slotPage v).type = .btreeLeaf) {p' : Page}
    (hp : (s.slotPage v).EntriesOnly p')
    (hdirty : p'.dirty = true ∨ p' = s.slotPage v) :
    Ready tidy R (s.setPage (.slot v) p') (editedForest F s v p') := by
  have hcoh := h.settled
  have hnode : s.nodeAt v = .leaf (s.slotPage v).minLimit
      (s.slotPage v).maxLimit (s.slotPage v).entries
        (s.slotPage v).nextLeaf := Page.node_of_leaf hleaf
  have hshown := hcoh.cached.shown hv
  rcases hdirty with hdirty | rfl
  rotate_left
  · have hsame : s.setPage (.slot v) (s.slotPage v) = s := by
      rw [State.setPage, Function.update_eq_self]
    rw [hsame, editedForest, ← hnode, ← hshown, Function.update_eq_self]
    exact h
  have hself : (s.setPage (.slot v) p').slotPage v = p' :=
    State.setPage_self ..
  have hother : ∀ {j}, j ≠ v →
      (s.setPage (.slot v) p').slotPage j = s.slotPage j := fun hj =>
    State.setPage_of_ne (by simpa using hj)
  have hheader : p'.remoteAddress = (s.slotPage v).remoteAddress ∧
      p'.parentPtr = (s.slotPage v).parentPtr ∧
      p'.posState = (s.slotPage v).posState ∧
      p'.type = (s.slotPage v).type := by
    rw [hp.1]
    exact ⟨rfl, rfl, rfl, rfl⟩
  have hstep : Rewriting v s (s.setPage (.slot v) p') := by
    refine ⟨?_, ?_, ?_, fun hq => State.setPage_of_ne hq, rfl, rfl, rfl, rfl,
      rfl⟩
    · rw [State.addr, hself]
      exact hheader.1
    · rw [hself]
      exact hheader.2.1
    · rw [hself, Page.InUse, hheader.2.2.1]
      exact Or.inl (h.hot v hv)
  have hnode' := hp.node hleaf s.addressOf
  have hnoTags : ∀ {k q}, ¬ p'.Tags k q := by
    intro k q hq
    rw [Page.Tags, Page.slots_of_leaf (hheader.2.2.2.trans hleaf)] at hq
    simp at hq
  have hlinked : Forest.Linked (editedForest F s v p') fun _ => False := by
    refine hcoh.backed.linked.update_payload hshown ?_ ?_ ?_ ?_ <;>
      rw [hnode] <;> rfl
  refine ⟨⟨hcoh.pool.rewrite hv hstep, ?_, ?_, hcoh.mapped.rewrite hstep⟩,
    ?_, h.pages⟩
  · refine hcoh.cached.replace hv (fun j _ hj => hother hj) ?_ hstep.addr
      ?_ hstep.parentPtr subset_rfl ?_ ?_ ?_ ?_
    · rw [State.setPage_of_ne (by simp)]
      exact hcoh.cached.super_level
    · rw [hself]
      exact hp.formed hleaf (hcoh.cached.formed hv)
    · intro k q hq
      rw [hself] at hq
      exact absurd hq hnoTags
    · intro k j hq
      rw [Page.Tags, Page.slots_of_leaf hleaf] at hq
      simp at hq
    · rw [hself, hnode']
      rfl
    · rintro j _ _ hfree ⟨b, m, i, hm, hi⟩
      by_cases hb : b = s.addr v
      · subst hb
        rw [editedForest, Function.update_self, Option.some.injEq] at hm
        subst hm
        simp [Node.children] at hi
      · rw [editedForest, Function.update_of_ne hb] at hm
        exact hfree ⟨b, m, i, hm, hi⟩
  · refine hcoh.backed.rewrite hv hshown hstep (by rw [hself, hdirty]) rfl ?_
      hlinked fun ht => ?_
    · rw [hnode]
      rfl
    · have := hcoh.backed.ordered ht hshown
      rw [hnode] at this
      exact this
  · intro j hj
    by_cases hjv : j = v
    · subst hjv
      rw [hself, hheader.2.2.1]
      exact h.hot j hj
    · rw [hother hjv]
      exact h.hot j hj

theorem Rooted.editLeaf {r v : ℕ} (h : Rooted R s r) {p' : Page}
    (hp : (s.slotPage v).EntriesOnly p') :
    Rooted R (s.setPage (.slot v) p') r := by
  have hheader : p'.remoteAddress = (s.slotPage v).remoteAddress ∧
      p'.parentPtr = (s.slotPage v).parentPtr := by
    rw [hp.1]
    exact ⟨rfl, rfl⟩
  by_cases hrv : r = v
  · subst hrv
    have hself : (s.setPage (.slot r) p').slotPage r = p' :=
      State.setPage_self ..
    refine ⟨h.mem, ?_, ?_, ?_⟩
    · rw [State.setPage_of_ne (by simp)]
      exact h.word
    · rw [hself, hheader.2, h.parent]
    · rw [State.addr, hself, hheader.1]
      exact h.addr
  · have hother : (s.setPage (.slot v) p').slotPage r = s.slotPage r :=
      State.setPage_of_ne (by simpa using hrv)
    refine ⟨h.mem, ?_, by rw [hother, h.parent], ?_⟩
    · rw [State.setPage_of_ne (by simp)]
      exact h.word
    · rw [State.addr, hother]
      exact h.addr

end States

/-! ## Programs -/

section Programs

variable {tidy : Prop} {R : Set ℕ} {s : State} {F : TreeForest}
  {C : Contract State Halt Event} {k : Key} {P : GlobalAddress → Prop} {r : ℕ}

theorem lookup_meets (hC : Tolerates tidy ∅ C) (hP : Guides F k P)
    (h : Ready tidy R s F) (hr : Rooted R s r) (hPr : P s.root) :
    Meets C (LeanStoreTree.lookup k) s fun o s' => ∃ R' v,
      Reached tidy P F R s s' R' v ∧ o = BTreeLeaf.find (s'.slotPage v) k := by
  unfold LeanStoreTree.lookup
  apply Meets.bind
  refine (leafFor_meets hC hP h hr hPr).mono ?_
  rintro q s' ⟨R', v, rfl, hreached⟩
  apply Meets.bind
  apply meets_gets
  exact meets_pure ⟨R', v, hreached, rfl⟩

theorem rangeScan_meets (hC : Tolerates tidy ∅ C) (hP : Guides F k P)
    (h : Ready tidy R s F) (hr : Rooted R s r) (hPr : P s.root) (num : ℕ) :
    Meets C (LeanStoreTree.rangeScan k num) s fun o s' => ∃ R' v,
      Reached tidy P F R s s' R' v ∧
        o = BTreeLeaf.rangeScan (s'.slotPage v) k num := by
  unfold LeanStoreTree.rangeScan
  apply Meets.bind
  refine (leafFor_meets hC hP h hr hPr).mono ?_
  rintro q s' ⟨R', v, rfl, hreached⟩
  apply Meets.bind
  apply meets_gets
  exact meets_pure ⟨R', v, hreached, rfl⟩

/-- A leaf operation that reports a change exactly when it makes one. -/
def Edits (edit : Page → Bool × Page) : Prop :=
  ∀ p : Page, p.count.toNat ≤ 59 → p.EntriesOnly (edit p).2 ∧
    ((edit p).2.dirty = true ∨ (edit p).2 = p)

/-- The page `editLeaf` stores. -/
def editedPage (edit : Page → Bool × Page) (p : Page) : Page :=
  if (edit p).1 then { (edit p).2 with dirty := true } else (edit p).2

theorem Edits.entriesOnly {edit : Page → Bool × Page} (h : Edits edit)
    {p : Page} (hp : p.count.toNat ≤ 59) :
    p.EntriesOnly (editedPage edit p) ∧
      ((editedPage edit p).dirty = true ∨ editedPage edit p = p) := by
  obtain ⟨⟨honly, hcount⟩, hdirty⟩ := h p hp
  unfold editedPage
  split
  · refine ⟨⟨?_, hcount⟩, Or.inl rfl⟩
    rw [honly]
  · exact ⟨⟨honly, hcount⟩, hdirty⟩

theorem entries_editedPage (edit : Page → Bool × Page) (p : Page) :
    (editedPage edit p).entries = (edit p).2.entries := by
  unfold editedPage
  split <;> rfl

theorem editLeaf_meets (hC : Tolerates tidy ∅ C) (hP : Guides F k P)
    (h : Ready tidy R s F) (hr : Rooted R s r) (hPr : P s.root)
    {call : Page → NodeCall} {edit : Page → Bool × Page}
    (hcall : ∀ p : Page, p.count.toNat ≤ 59 → (call p).Safe)
    (hedit : Edits edit) :
    Meets C (LeanStoreTree.editLeaf k call edit) s fun ok s' => ∃ R' v t,
      Reached tidy P F R s t R' v ∧ ok = (edit (t.slotPage v)).1 ∧
        s' = t.setPage (.slot v) (editedPage edit (t.slotPage v)) ∧
          Ready tidy R' s'
            (editedForest F t v (editedPage edit (t.slotPage v))) ∧
            Rooted R' s' r := by
  unfold LeanStoreTree.editLeaf
  apply Meets.bind
  refine (leafFor_meets hC hP h hr hPr).mono ?_
  rintro q t ⟨R', v, rfl, hreached⟩
  have hformed := hreached.ready.settled.cached.formed hreached.resident
  apply Meets.bind
  apply meets_gets
  apply Meets.bind
  refine meets_emit fun hrely =>
    ⟨hC.called hrely (hcall _ hformed.count_le), ?_⟩
  apply Meets.bind
  apply meets_modify
  obtain ⟨honly, hdirty⟩ := hedit.entriesOnly hformed.count_le
  exact meets_pure ⟨R', v, t, hreached, rfl, rfl,
    hreached.ready.editLeaf hreached.resident hreached.leaf honly hdirty,
    (hr.retains hreached.retains).editLeaf honly⟩

theorem edits_update (v : Value) : Edits fun p => BTreeLeaf.update p k v :=
  fun _ hp => BTreeLeaf.update_entriesOnly hp

theorem edits_remove : Edits fun p => BTreeLeaf.remove p k :=
  fun _ hp => BTreeLeaf.remove_entriesOnly hp

/-! ### In a search tree -/

/-- The leaf reached in a search tree holds what is stored under the key. -/
theorem Reached.stored {s' : State} {R' : Set ℕ} {v : ℕ}
    (hsearch : SearchTree F 59 s.root)
    (h : Reached tidy (fun a => ∃ n, F a = some n ∧ n.Covers k) F R s s' R' v) :
    F (s'.addr v) = some (.leaf (s'.slotPage v).minLimit
      (s'.slotPage v).maxLimit (s'.slotPage v).entries
        (s'.slotPage v).nextLeaf) ∧
      Lib.Covers (s'.slotPage v).minLimit (s'.slotPage v).maxLimit k ∧
      (s'.slotPage v).count.toNat ≤ 59 ∧
      SortedEntries (s'.slotPage v).entries ∧
      ∀ w, F.Stored k w ↔ findEntry k (s'.slotPage v).entries = some w := by
  have hcached := h.ready.settled.cached
  have hshown := hcached.shown h.resident
  rw [State.nodeAt, Page.node_of_leaf h.leaf] at hshown
  obtain ⟨n, hn, hk⟩ := h.guided
  rw [hshown, Option.some.injEq] at hn
  subst hn
  have hsorted := (hsearch.sound hshown).entries_sorted
  refine ⟨hshown, hk, (hcached.formed h.resident).count_le, hsorted,
    fun w => ?_⟩
  rw [hsearch.stored_iff hshown rfl hk]
  exact hsorted.findEntry_eq_some.symm

end Programs

end CachingDex
