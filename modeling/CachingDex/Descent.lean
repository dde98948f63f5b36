import CachingDex.Loading
import CachingDex.Lib.TreeShape

/-!
# The descent to a leaf

Every operation goes down from the root, loading one child after the other.
The descent keeps the state ready and ends at a resident leaf.  Which leaf
depends on the order of the keys, which the cache does not look at; here it
is described by any predicate on addresses that the lower bound of each node
passes on to a child.
-/

namespace CachingDex

open Lib Lib.Traced

/-- The root page is resident in slot `r` and cannot be demoted. -/
structure Rooted (R : Set ℕ) (s : State) (r : ℕ) : Prop where
  mem : r ∈ R
  word : (s.page .superRoot).child 0 = .swizzled (.slot r)
  parent : (s.slotPage r).parentPtr = some .superRoot
  addr : s.addr r = s.root

theorem Rooted.retains {R R' : Set ℕ} {s s' : State} {r : ℕ}
    (h : Rooted R s r) (hs : Retains R R' s s') : Rooted R' s' r := by
  obtain ⟨hr, hheader⟩ := hs.kept h.mem (Or.inr (Or.inl h.parent))
  refine ⟨hr, by rw [hs.super]; exact h.word, ?_, ?_⟩
  · rw [hheader]
    exact h.parent
  · rw [State.addr, hheader, hs.steady.root]
    exact h.addr

/-- Where `P` holds of a node it holds of the child picked for `k`. -/
def Guides (F : TreeForest) (k : Key) (P : GlobalAddress → Prop) : Prop :=
  ∀ {p : Page} {w : ChildSlot → GlobalAddress} {a c : GlobalAddress},
    p.Formed → p.type = .btreeInner → F a = some (p.node w) → P a →
      (p.node w).children[BTreeInner.lowerBound p k]? = some c → P c

section Programs

variable {tidy : Prop} {R : Set ℕ} {s : State} {F : TreeForest}
  {C : Contract State Halt Event}

/-- The child picked for a key exists. -/
theorem Ready.exists_child (h : Ready tidy R s F) {i : ℕ} (hi : i ∈ R)
    (htype : (s.slotPage i).type = .btreeInner) (k : Key) :
    ∃ a n, (s.nodeAt i).children[BTreeInner.lowerBound (s.slotPage i) k]? =
      some a ∧ F a = some n ∧
        n.level + 1 = (s.slotPage i).level.toNat := by
  have hcached := h.settled.cached
  have hF := h.settled.backed.linked
  have hle := BTreeInner.lowerBound_le (s.slotPage i) k
  have hslot := Page.getElem?_slots (hcached.formed hi) htype hle
  have hchild := hcached.child_of_slot hi hslot
  obtain ⟨n, hn, hlevel⟩ := hF.child (hcached.shown hi) hchild
  rw [hcached.level_nodeAt hi] at hlevel
  exact ⟨_, n, hchild, hn, hlevel⟩

/-- A leaf was reached: it is resident and `P` holds of its address. -/
structure Reached (tidy : Prop) (P : GlobalAddress → Prop) (F : TreeForest)
    (R : Set ℕ) (s s' : State) (R' : Set ℕ) (v : ℕ) : Prop where
  resident : v ∈ R'
  leaf : (s'.slotPage v).type = .btreeLeaf
  guided : P (s'.addr v)
  ready : Ready tidy R' s' F
  retains : Retains R R' s s'

theorem findLeaf_meets (hC : Tolerates tidy ∅ C) {k : Key}
    {P : GlobalAddress → Prop} (hP : Guides F k P) (fuel : ℕ)
    (h : Ready tidy R s F) {i : ℕ} (hi : i ∈ R) (hPi : P (s.addr i))
    (hfuel : (s.slotPage i).level.toNat < fuel) :
    Meets C (findLeaf k fuel (.slot i)) s fun q s' =>
      ∃ R' v, q = .slot v ∧ Reached tidy P F R s s' R' v := by
  induction fuel generalizing R s i with
  | zero => omega
  | succ fuel ih =>
      unfold findLeaf
      apply Meets.bind
      apply meets_gets
      apply meets_ite
      · intro htype
        obtain ⟨a, n, hchild, hn, hlevel⟩ := h.exists_child hi htype k
        have hcached := h.settled.cached
        have hPa : P a := hP (hcached.formed hi) htype (hcached.shown hi) hPi
          hchild
        apply Meets.bind
        refine (loadChild_meets hC h hi hchild).mono ?_
        rintro q s' ⟨R', v, rfl, hload⟩
        have hcached' := hload.ready.settled.cached
        have hnode : n = s'.nodeAt v := by
          have hshown := hcached'.shown hload.resident
          rw [hload.addr, hn, Option.some.injEq] at hshown
          exact hshown
        rw [hnode, hcached'.level_nodeAt hload.resident] at hlevel
        refine (ih hload.ready hload.resident (by rwa [hload.addr])
          (by omega)).mono ?_
        rintro q t ⟨R'', w, rfl, hreached⟩
        exact ⟨R'', w, rfl, hreached.resident, hreached.leaf,
          hreached.guided, hreached.ready,
          hload.retains.trans hreached.retains⟩
      · intro htype
        have hleaf : (s.slotPage i).type = .btreeLeaf :=
          (h.settled.cached.formed hi).typed.resolve_right htype
        exact meets_pure ⟨R, i, rfl, hi, hleaf, hPi, h, .refl R s⟩

/-- The word of `super_root_` leads to the root page. -/
theorem loadChild_superRoot_meets {r : ℕ} (hr : Rooted R s r)
    {Q : PagePtr → State → Prop} (hQ : Q (.slot r) s) :
    Meets C (loadChild .superRoot 0) s Q := by
  unfold loadChild
  apply Meets.bind
  apply meets_gets
  rw [hr.word]
  exact meets_pure hQ

theorem Ready.level_lt (h : Ready tidy R s F) {i : ℕ} (hi : i ∈ R) :
    (s.slotPage i).level.toNat < maxLevels := by
  have hlt := h.settled.backed.level_lt (h.settled.cached.shown hi)
  rw [h.settled.cached.level_nodeAt hi] at hlt
  exact hlt.trans (by decide)

theorem leafFor_meets (hC : Tolerates tidy ∅ C) {k : Key}
    {P : GlobalAddress → Prop} (hP : Guides F k P) (h : Ready tidy R s F)
    {r : ℕ} (hr : Rooted R s r) (hPr : P s.root) :
    Meets C (leafFor k) s fun q s' =>
      ∃ R' v, q = .slot v ∧ Reached tidy P F R s s' R' v := by
  unfold leafFor
  apply Meets.bind
  apply loadChild_superRoot_meets hr
  exact findLeaf_meets hC hP maxLevels h hr.mem (hr.addr ▸ hPr)
    (h.level_lt hr.mem)

end Programs

/-! ## In a search tree -/

/-- The lower bound of each node leads to the child that covers the key. -/
theorem guides_covers {F : TreeForest} {root : GlobalAddress}
    (h : SearchTree F 59 root) (k : Key) :
    Guides F k fun a => ∃ n, F a = some n ∧ n.Covers k := by
  rintro p w a c hformed htype hnode ⟨n, hn, hk⟩ hchild
  rw [hnode, Option.some.injEq] at hn
  subst hn
  have hsorted := (h.sound hnode).keys_sorted
  rw [Page.node_of_inner htype] at hsorted
  rw [BTreeInner.lowerBound_eq hformed.count_le hsorted] at hchild
  obtain ⟨m, hm, _⟩ := h.linked.child hnode hchild
  refine ⟨m, hm, h.covers_child hnode hk ?_ hm⟩
  rw [Page.node_of_inner htype] at hchild ⊢
  exact hchild

theorem SearchTree.covers_root {F : TreeForest} {root : GlobalAddress}
    (h : SearchTree F 59 root) (k : Key) :
    ∃ n, F root = some n ∧ n.Covers k := by
  obtain ⟨r, hr, hlo, hhi⟩ := h.root_node
  refine ⟨r, hr, ?_⟩
  rw [Node.Covers, hlo, hhi]
  exact covers_top k

end CachingDex
