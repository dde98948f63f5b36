import CachingDex.TreeState
import CachingDex.Lib.TreePath

/-!
# The tree as it stands

The pages of the tree, wherever they are: the page behind a tagged child word
is in the pool, the page behind an address is the backend's image of it.
Following child words from `super_root_` visits every node once, and what a
page shows there is its node in the forest.
-/

namespace CachingDex

open Lib

namespace State

/-- The page behind a child word. -/
def behind (s : State) : ChildSlot → Page
  | .remote a => s.backend.store a.offset
  | .swizzled q => s.page q

/-- The page a path of child positions leads to. -/
def follow (s : State) : List ℕ → Page → Option Page
  | [], p => some p
  | i :: path, p =>
      if p.type = .btreeInner ∧ i ≤ p.count.toNat then
        s.follow path (s.behind (p.child i))
      else none

def rootPage (s : State) : Page :=
  s.behind ((s.page .superRoot).child 0)

/-- The page of the tree at the end of a path from the root. -/
def treePage (s : State) (path : List ℕ) : Option Page :=
  s.follow path s.rootPage

/-- The leaf that the descent for a key reaches. -/
def route (s : State) (k : Key) : ℕ → Page → Option Page
  | 0, _ => none
  | fuel + 1, p =>
      if p.type = .btreeInner then
        s.route k fuel (s.behind (p.child (BTreeInner.lowerBound p k)))
      else some p

end State

/-- `p` is where the node at `a` is: its resident page, or else its image in
the backend. -/
structure Current (R : Set ℕ) (s : State) (F : TreeForest) (a : GlobalAddress)
    (p : Page) : Prop where
  shown : F a = some (p.node s.addressOf)
  formed : p.Formed
  address : p.remoteAddress = a
  place : (∃ i ∈ R, p = s.slotPage i) ∨
    (∀ i ∈ R, s.addr i ≠ a) ∧ ∀ c ∈ p.slots, c.isSwizzled = false

section Current

variable {tidy : Prop} {R : Set ℕ} {s : State} {F : TreeForest}
  {a : GlobalAddress} {p : Page}

theorem Coherent.current_resident (h : Settled tidy R s F) {i : ℕ}
    (hi : i ∈ R) : Current R s F (s.addr i) (s.slotPage i) :=
  ⟨h.cached.shown hi, h.cached.formed hi, rfl, Or.inl ⟨i, hi, rfl⟩⟩

theorem Coherent.current_image (h : Settled tidy R s F)
    (ha : ∀ i ∈ R, s.addr i ≠ a) {n : TreeNode} (hn : F a = some n) :
    Current R s F a (s.backend.store a.offset) := by
  have himage := h.backed.image hn fun i hi heq => absurd heq (ha i hi)
  refine ⟨?_, himage.formed, himage.address,
    Or.inr ⟨ha, fun c hc => himage.untagged hc⟩⟩
  rw [hn, himage.page.node_eq s]

/-- The children of a current page are current. -/
theorem Current.child (hp : Current R s F a p) (h : Settled tidy R s F)
    (htype : p.type = .btreeInner) {i : ℕ} (hi : i ≤ p.count.toNat) :
    ∃ c, (p.node s.addressOf).children[i]? = some c ∧
      Current R s F c (s.behind (p.child i)) := by
  have hlength := Page.length_slots hp.formed htype
  obtain ⟨w, hw⟩ : ∃ w, p.slots[i]? = some w :=
    ⟨_, List.getElem?_eq_getElem (by omega)⟩
  have hchild : (p.node s.addressOf).children[i]? = some (s.addressOf w) := by
    rw [Page.node_children hp.formed, List.getElem?_map, hw]
    rfl
  rw [(Page.le_count_of_slot hw).2.2]
  refine ⟨_, hchild, ?_⟩
  obtain ⟨m, hm, _⟩ := h.backed.linked.child hp.shown hchild
  rcases hp.place with ⟨i', hi', rfl⟩ | ⟨hout, huntagged⟩
  · cases w with
    | swizzled q =>
        obtain ⟨j, hj, rfl, _⟩ := h.cached.tagged hi' hw
        exact h.current_resident hj
    | remote c =>
        exact h.current_image (fun j hj => h.cached.not_resident
          h.backed.linked hi' hw j hj (Set.notMem_empty j)) hm
  · cases w with
    | swizzled q =>
        exact absurd (huntagged _ (List.mem_of_getElem? hw)) (by
          simp [ChildSlot.isSwizzled])
    | remote c =>
        refine h.current_image ?_ hm
        rintro j hj rfl
        rcases h.cached.parented hj (Set.notMem_empty j) with
          ⟨_, hfree⟩ | ⟨i', hi', _, k, hk⟩
        · exact hfree ⟨_, _, _, hp.shown, hchild⟩
        · obtain ⟨haddr, _⟩ := h.backed.linked.unique
            (h.cached.shown hi') hp.shown (h.cached.child_of_slot hi' hk)
            hchild
          exact hout i' hi' haddr

/-- Paths over pages are paths over addresses. -/
theorem Current.follow (hp : Current R s F a p) (h : Settled tidy R s F)
    {path : List ℕ} {q : Page} (hq : s.follow path p = some q) :
    ∃ b, F.follow path a = some b ∧ Current R s F b q := by
  induction path generalizing p a with
  | nil =>
      obtain rfl : p = q := Option.some.inj hq
      exact ⟨a, rfl, hp⟩
  | cons i path ih =>
      rw [State.follow] at hq
      split at hq
      · rename_i hi
        obtain ⟨c, hc, hcur⟩ := hp.child h hi.1 hi.2
        obtain ⟨b, hb, hbq⟩ := ih hcur hq
        refine ⟨b, ?_, hbq⟩
        rw [Forest.follow, hp.shown, Option.bind_some, hc]
        exact hb
      · cases hq

/-- A path over addresses is a path over pages. -/
theorem Current.exists_follow (hp : Current R s F a p)
    (h : Settled tidy R s F) {path : List ℕ} {b : GlobalAddress}
    (hb : F.follow path a = some b) :
    ∃ q, s.follow path p = some q ∧ Current R s F b q := by
  induction path generalizing p a with
  | nil =>
      obtain rfl : a = b := Option.some.inj hb
      exact ⟨p, rfl, hp⟩
  | cons i path ih =>
      obtain ⟨c, hc, hcb⟩ := Option.bind_eq_some_iff.mp hb
      rw [hp.shown, Option.bind_some, Page.node_children hp.formed,
        List.getElem?_map, Option.map_eq_some_iff] at hc
      obtain ⟨w, hw, rfl⟩ := hc
      obtain ⟨htype, hi, _⟩ := Page.le_count_of_slot hw
      obtain ⟨c', hc', hcur⟩ := hp.child h htype hi
      rw [Page.node_children hp.formed, List.getElem?_map, hw,
        Option.map_some, Option.some.injEq] at hc'
      subst hc'
      obtain ⟨q, hq, hbq⟩ := ih hcur hcb
      refine ⟨q, ?_, hbq⟩
      rw [State.follow, if_pos ⟨htype, hi⟩]
      exact hq

end Current

section Tree

variable {R : Set ℕ} {s : State} {F : TreeForest}

theorem Consistent.current_root (h : Consistent R s F) :
    Current R s F s.root s.rootPage := by
  obtain ⟨r, hr⟩ := h.rooted
  rw [State.rootPage, hr.word, ← hr.addr]
  exact h.ready.settled.current_resident hr.mem

theorem Consistent.current_of_path (h : Consistent R s F) {path : List ℕ}
    {p : Page} (hp : s.treePage path = some p) :
    ∃ a, F.follow path s.root = some a ∧ Current R s F a p :=
  h.current_root.follow h.ready.settled hp

theorem Consistent.path_of_follow (h : Consistent R s F) {path : List ℕ}
    {a : GlobalAddress} (ha : F.follow path s.root = some a) :
    ∃ p, s.treePage path = some p ∧ Current R s F a p :=
  h.current_root.exists_follow h.ready.settled ha

/-- The limits of a child are those of its slot. -/
theorem Current.limits_match {a c : GlobalAddress} {p q : Page}
    (hp : Current R s F a p) (hq : Current R s F c q)
    (hF : SearchTree F 59 s.root) {i : ℕ}
    (hi : (p.node s.addressOf).children[i]? = some c) :
    newCheckLimitMatch p q i = true := by
  obtain ⟨hlo, hhi⟩ := hF.limits hp.shown hi hq.shown
  have hslot := hi
  rw [Page.node_children hp.formed, List.getElem?_map,
    Option.map_eq_some_iff] at hslot
  obtain ⟨w, hw, _⟩ := hslot
  obtain ⟨htype, hle, _⟩ := Page.le_count_of_slot hw
  rw [Page.getElem?_bounds_lo htype hp.formed.count_le hle] at hlo
  rw [Page.getElem?_bounds_hi htype hp.formed.count_le hle] at hhi
  simp only [newCheckLimitMatch, decide_eq_true_eq]
  exact ⟨by simpa using hlo, by simpa using hhi⟩

/-- The descent by lower bound ends at a leaf that covers the key. -/
theorem Current.route {a : GlobalAddress} {p : Page} (hp : Current R s F a p)
    (h : Consistent R s F) {k : Key}
    (hk : (p.node s.addressOf).Covers k) {fuel : ℕ}
    (hfuel : (p.node s.addressOf).level < fuel) :
    ∃ b q, s.route k fuel p = some q ∧ q.type = .btreeLeaf ∧
      Current R s F b q ∧ (q.node s.addressOf).Covers k := by
  have hlinked := h.ready.settled.backed.linked
  induction fuel generalizing p a with
  | zero => omega
  | succ fuel ih =>
      rw [State.route]
      split
      · rename_i htype
        have hle := BTreeInner.lowerBound_le p k
        obtain ⟨c, hc, hcur⟩ := hp.child h.ready.settled htype hle
        have hlt := hlinked.level_lt hp.shown hc hcur.shown
        obtain ⟨m, hm, hmk⟩ := guides_covers h.search k hp.formed htype
          hp.shown ⟨_, hp.shown, hk⟩ hc
        rw [hcur.shown, Option.some.injEq] at hm
        exact ih hcur (hm ▸ hmk) (by omega)
      · rename_i htype
        exact ⟨a, p, rfl, hp.formed.typed.resolve_right htype, hp, hk⟩

end Tree

end CachingDex
