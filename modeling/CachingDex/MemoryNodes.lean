import CachingDex.TreeState

/-!
# The operations of a memory node

A memory node runs the operations of `Btree.h` on the pages it stores itself.
The descent starts at a root of this node and is given up at the first child
that another node stores.  In an image that holds a search tree the children
on the way to a key are the nodes whose intervals cover the key, so it is the
tree that decides where the descent ends and what each operation answers.

An insertion refuses a full leaf before it looks for the key.  The leaf
itself would overwrite a key that it holds; at a memory node such an
insertion is turned down as if the key had been new.
-/

namespace CachingDex

open Lib

/-- The pages of one memory node, by their offset from `dsm_base`. -/
abbrev Dsm := Fin (2 ^ 48) → Page

namespace Btree

/-- The end of a descent: a child on another node, or a leaf. -/
inductive Stop where
  | offNode (node : GlobalAddress)
  | leaf (node : GlobalAddress)
  deriving DecidableEq

/-- The `while` loop that the four operations share.  A tagged word is not an
address; no page of a memory node holds one. -/
def descend (dsm : Dsm) (k : Key) (nodeID : Fin (2 ^ 16)) :
    ℕ → GlobalAddress → Option Stop
  | 0, _ => none
  | fuel + 1, node =>
      let memNode := dsm node.offset
      if memNode.type = .btreeInner then
        match memNode.child (BTreeInner.lowerBound memNode k) with
        | .remote child =>
            if child.nodeID ≠ nodeID then some (.offNode child)
            else descend dsm k nodeID fuel child
        | .swizzled _ => none
      else some (.leaf node)

/-- The code with the values of `v_result` and `g_result`. -/
def lookup (fuel : ℕ) (root : GlobalAddress) (dsm : Dsm) (k : Key)
    (vResult : Value) (gResult : GlobalAddress) :
    Option (ℤ × Value × GlobalAddress) := do
  match ← descend dsm k root.nodeID fuel root with
  | .offNode node => return (0, vResult, node)
  | .leaf node =>
      let leaf := dsm node.offset
      if !BTreeLeaf.rangeValid leaf k then
        return (-1, vResult, gResult)
      else if BTreeLeaf.hit leaf k then
        return (1, (leaf.entry (BTreeLeaf.lowerBound leaf k)).2, gResult)
      else
        return (2, vResult, gResult)

/-- The code with the value of `root` and the pages. -/
def update (fuel : ℕ) (root : GlobalAddress) (dsm : Dsm) (k : Key)
    (v : Value) : Option (ℤ × GlobalAddress × Dsm) := do
  match ← descend dsm k root.nodeID fuel root with
  | .offNode _ => return (0, root, dsm)
  | .leaf node =>
      let leaf := dsm node.offset
      if !BTreeLeaf.rangeValid leaf k then
        return (-1, root, dsm)
      else if BTreeLeaf.hit leaf k then
        let pos := BTreeLeaf.lowerBound leaf k
        let leaf' :=
          { leaf with
            data := leaf.data.setIfInBounds pos ((leaf.entry pos).1, v) }
        return (1, leaf.remoteAddress,
          Function.update dsm node.offset leaf')
      else
        return (2, root, dsm)

def insert (fuel : ℕ) (root : GlobalAddress) (dsm : Dsm) (k : Key)
    (v : Value) : Option (ℤ × GlobalAddress × Dsm) := do
  match ← descend dsm k root.nodeID fuel root with
  | .offNode _ => return (0, root, dsm)
  | .leaf node =>
      let leaf := dsm node.offset
      if !BTreeLeaf.rangeValid leaf k || BTreeLeaf.isFull leaf then
        return (-1, root, dsm)
      else
        let (insertSuccess, leaf') := BTreeLeaf.insert leaf k v
        return (if insertSuccess then 1 else 2, leaf.remoteAddress,
          Function.update dsm node.offset leaf')

def remove (fuel : ℕ) (root : GlobalAddress) (dsm : Dsm) (k : Key) :
    Option (ℤ × GlobalAddress × Dsm) := do
  match ← descend dsm k root.nodeID fuel root with
  | .offNode _ => return (0, root, dsm)
  | .leaf node =>
      let leaf := dsm node.offset
      if !BTreeLeaf.rangeValid leaf k then
        return (-1, root, dsm)
      else
        let (flag, leaf') := BTreeLeaf.remove leaf k
        return (if flag then 1 else 2, leaf.remoteAddress,
          Function.update dsm node.offset leaf')

end Btree

/-! ## Images that hold a tree -/

/-- The page has the content of the node and no tagged slot. -/
def Page.Holds (p : Page) : TreeNode → Prop
  | .leaf lo hi entries next =>
      p.type = .btreeLeaf ∧ p.minLimit = lo ∧ p.maxLimit = hi ∧
        p.count.toNat ≤ 59 ∧ p.entries = entries ∧ p.nextLeaf = next
  | .inner _ lo hi keys children =>
      p.type = .btreeInner ∧ p.minLimit = lo ∧ p.maxLimit = hi ∧
        p.count.toNat ≤ 59 ∧ p.separators = keys ∧
          p.slots = children.map .remote

/-- The pages of all memory nodes. -/
abbrev DsmImage := GlobalAddress → Page

namespace DsmImage

/-- The pages of one node. -/
def dsm (image : DsmImage) (nodeID : Fin (2 ^ 16)) : Dsm :=
  fun offset => image ⟨nodeID, offset⟩

/-- The image with the pages of one node replaced. -/
def withDsm (image : DsmImage) (nodeID : Fin (2 ^ 16)) (dsm : Dsm) : DsmImage :=
  fun a => if a.nodeID = nodeID then dsm a.offset else image a

theorem withDsm_dsm (image : DsmImage) (nodeID : Fin (2 ^ 16)) :
    image.withDsm nodeID (image.dsm nodeID) = image := by
  funext a
  unfold withDsm dsm
  split
  · rename_i h
    rw [← h]
  · rfl

theorem withDsm_update (image : DsmImage) {a : GlobalAddress}
    {nodeID : Fin (2 ^ 16)} (ha : a.nodeID = nodeID) (p : Page) :
    image.withDsm nodeID (Function.update (image.dsm nodeID) a.offset p) =
      Function.update image a p := by
  subst ha
  funext b
  by_cases hb : b = a
  · subst hb
    simp [withDsm]
  · rw [Function.update_of_ne hb]
    unfold withDsm
    split
    · rename_i hnode
      have hoffset : b.offset ≠ a.offset := by
        intro hoffset
        obtain ⟨n, o⟩ := a
        obtain ⟨n', o'⟩ := b
        exact hb (by simp_all)
      rw [Function.update_of_ne hoffset, dsm, ← hnode]
    · rfl

theorem dsm_offset (image : DsmImage) {a : GlobalAddress}
    {nodeID : Fin (2 ^ 16)} (ha : a.nodeID = nodeID) :
    image.dsm nodeID a.offset = image a := by
  rw [dsm, ← ha]

/-- The image holds the tree of a forest, spread over any nodes. -/
structure WellFormed (image : DsmImage) (root : GlobalAddress)
    (F : TreeForest) : Prop where
  search : SearchTree F 59 root
  holds : ∀ {a n}, F a = some n → (image a).Holds n

/-- The image holds a tree that stores the pairs of a map. -/
def Stores (image : DsmImage) (root : GlobalAddress) (m : KeyMap) : Prop :=
  ∃ F, image.WellFormed root F ∧ Represents F m

end DsmImage

/-! ## What the operations are to answer -/

namespace Btree

/-- `c` is the first node on the way to `k` that is not stored where the root
is: the nodes above it that cover `k` all are. -/
def FirstOff (F : TreeForest) (root : GlobalAddress) (k : Key)
    (c : GlobalAddress) : Prop :=
  c.nodeID ≠ root.nodeID ∧ ∃ n, F c = some n ∧ n.Covers k ∧
    ∀ b m, F b = some m → m.Covers k → n.level < m.level →
      b.nodeID = root.nodeID

/-- The way to `k` does not leave the node of the root. -/
def StaysOn (F : TreeForest) (root : GlobalAddress) (k : Key) : Prop :=
  ∀ c, ¬ FirstOff F root k c

/-- The leaf that covers `k` has 59 entries. -/
def FullAt (F : TreeForest) (k : Key) : Prop :=
  ∃ a n, F a = some n ∧ n.isLeaf = true ∧ n.Covers k ∧
    n.entries.length = 59

/-- The run ends with `r` once it has enough fuel. -/
def Returns {α : Type} (run : ℕ → Option α) (r : α) : Prop :=
  ∃ least, ∀ fuel ≥ least, run fuel = some r

/-- What follows a run that ends is decided by its result. -/
theorem Returns.bind {α β : Type} {run : ℕ → Option α} {x : α}
    {f : α → Option β} {r : β} (h : Returns run x) (hf : f x = some r) :
    Returns (fun fuel => run fuel >>= f) r := by
  obtain ⟨least, hleast⟩ := h
  refine ⟨least, fun fuel hfuel => ?_⟩
  change run fuel >>= f = some r
  rw [hleast fuel hfuel]
  exact hf

theorem Returns.unique {α : Type} {run : ℕ → Option α} {r r' : α}
    (h : Returns run r) (h' : Returns run r') : r = r' := by
  obtain ⟨n, hn⟩ := h
  obtain ⟨n', hn'⟩ := h'
  have hr := hn (max n n') (le_max_left n n')
  rw [hn' (max n n') (le_max_right n n')] at hr
  exact (Option.some.inj hr).symm

/-- The run ends with `code` and the image then stores `m`. -/
def Leaves (image : DsmImage) (root : GlobalAddress)
    (run : ℕ → Option (ℤ × GlobalAddress × Dsm)) (code : ℤ) (m : KeyMap) :
    Prop :=
  ∃ root' dsm', Returns run (code, root', dsm') ∧
    (image.withDsm root.nodeID dsm').Stores root m

section Answers

variable (image : DsmImage) (root : GlobalAddress) (F : TreeForest) (m : KeyMap)
  (k : Key)

/-- `lookup` reads the map, or tells where to go on. -/
structure ReadsMap (run : Value → GlobalAddress →
    ℕ → Option (ℤ × Value × GlobalAddress)) : Prop where
  off : ∀ v g c, FirstOff F root k c → Returns (run v g) (0, v, c)
  found : ∀ v g w, StaysOn F root k → m k = some w →
    Returns (run v g) (1, w, g)
  missing : ∀ v g, StaysOn F root k → m k = none →
    Returns (run v g) (2, v, g)

/-- An operation changes the map.  With a present key it answers as in
`found`, with an absent one as in `missing`; a `refused` operation with an
absent key changes nothing. -/
structure AltersMap (run : ℕ → Option (ℤ × GlobalAddress × Dsm))
    (found missing : ℤ × KeyMap) (refused : Prop) : Prop where
  off : ∀ c, FirstOff F root k c → Returns run (0, root, image.dsm root.nodeID)
  found : StaysOn F root k → m k ≠ none →
    Leaves image root run found.1 found.2
  missing : StaysOn F root k → m k = none → ¬ refused →
    Leaves image root run missing.1 missing.2
  refused : StaysOn F root k → m k = none → refused →
    Returns run (-1, root, image.dsm root.nodeID)

/-- The four operations at the root answer as the map of the tree does. -/
structure AnswersAsMap (v : Value) : Prop where
  lookup : ReadsMap root F m k fun v g fuel =>
    lookup fuel root (image.dsm root.nodeID) k v g
  update : AltersMap image root F m k
    (fun fuel => update fuel root (image.dsm root.nodeID) k v)
    (1, Function.update m k (some v)) (2, m) False
  insert : AltersMap image root F m k
    (fun fuel => insert fuel root (image.dsm root.nodeID) k v)
    (2, Function.update m k (some v)) (1, Function.update m k (some v))
    (FullAt F k)
  remove : AltersMap image root F m k
    (fun fuel => remove fuel root (image.dsm root.nodeID) k)
    (1, Function.update m k none) (2, m) False

end Answers

/-! ## The descent -/

section Descent

variable {image : DsmImage} {root : GlobalAddress} {F : TreeForest} {k : Key}

theorem level_le_root (h : SearchTree F 59 root) {r : TreeNode}
    (hr : F root = some r) {a : GlobalAddress} (ha : F.Reach root a)
    {n : TreeNode} (hn : F a = some n) : n.level ≤ r.level := by
  induction ha generalizing n with
  | root =>
      rw [hr, Option.some.injEq] at hn
      rw [hn]
  | child hb hm hc ih =>
      exact (h.linked.level_lt hm hc hn).le.trans (ih hm)

/-- The page of an inner node leads to a child, which covers the key if the
node does. -/
theorem exists_step (h : SearchTree F 59 root) {a : GlobalAddress} {p : Page}
    {n : TreeNode} (hn : F a = some n) (hp : p.Holds n) (k : Key)
    (htype : p.type = .btreeInner) :
    ∃ c m, p.child (BTreeInner.lowerBound p k) = .remote c ∧
      F c = some m ∧ m.level + 1 = n.level ∧ n.lo ≤ m.lo ∧ m.hi ≤ n.hi ∧
        (n.Covers k → m.Covers k) := by
  cases n with
  | leaf lo hi entries next =>
      rw [hp.1] at htype
      cases htype
  | inner level lo hi keys children =>
      obtain ⟨_, _, _, hcount, hkeys, hslots⟩ := hp
      have hsorted := (h.sound hn).keys_sorted
      have hlower : BTreeInner.lowerBound p k = lowerIdx k keys := by
        rw [BTreeInner.lowerBound_eq hcount (by rw [hkeys]; exact hsorted),
          hkeys]
      have hlength := h.linked.children_length hn rfl
      have hin : lowerIdx k keys < children.length := by
        have := lowerIdx_le_length k keys
        simp only [Node.children, Node.keys] at hlength
        omega
      have hc : children[lowerIdx k keys]? =
          some children[lowerIdx k keys] := List.getElem?_eq_getElem hin
      obtain ⟨m, hm, hlevel⟩ := h.linked.child hn hc
      obtain ⟨hlo, hhi⟩ := h.child_within hn hc hm
      refine ⟨_, m, ?_, hm, hlevel, hlo, hhi, fun hk =>
        h.covers_child hn hk hc hm⟩
      have hslot : p.slots[lowerIdx k keys]? =
          some (.remote children[lowerIdx k keys]) := by
        rw [hslots, List.getElem?_map, hc]
        rfl
      rw [hlower]
      exact (Page.le_count_of_slot hslot).2.2

/-- The page of an inner node leads to the child that covers the key. -/
theorem exists_next (h : SearchTree F 59 root) {a : GlobalAddress} {p : Page}
    {n : TreeNode} (hn : F a = some n) (hp : p.Holds n) (hk : n.Covers k)
    (htype : p.type = .btreeInner) :
    ∃ c m, p.child (BTreeInner.lowerBound p k) = .remote c ∧
      F c = some m ∧ m.Covers k ∧ m.level + 1 = n.level := by
  obtain ⟨c, m, hchild, hm, hlevel, _, _, hcovers⟩ :=
    exists_step h hn hp k htype
  exact ⟨c, m, hchild, hm, hcovers hk, hlevel⟩

/-- What the descent finds: the first node off the starting one, or the leaf
that covers the key. -/
inductive Found (F : TreeForest) (root : GlobalAddress) (k : Key) :
    Stop → Prop where
  | offNode {c : GlobalAddress} (hc : FirstOff F root k c) :
      Found F root k (.offNode c)
  | leaf {a : GlobalAddress} {n : TreeNode} (hstays : StaysOn F root k)
      (hnode : a.nodeID = root.nodeID) (hn : F a = some n)
      (hleaf : n.isLeaf = true) (hk : n.Covers k) : Found F root k (.leaf a)

theorem descend_found (h : image.WellFormed root F) {fuel : ℕ}
    {a : GlobalAddress} {n : TreeNode} (hn : F a = some n) (hk : n.Covers k)
    (hnode : a.nodeID = root.nodeID)
    (habove : ∀ b m, F b = some m → m.Covers k → n.level < m.level →
      b.nodeID = root.nodeID) (hfuel : n.level < fuel) :
    ∃ stop, Found F root k stop ∧
      descend (image.dsm root.nodeID) k root.nodeID fuel a = some stop := by
  induction fuel generalizing a n with
  | zero => omega
  | succ fuel ih =>
      -- every node that covers the key and is not below this one stays
      have hat : ∀ b m, F b = some m → m.Covers k → n.level ≤ m.level →
          b.nodeID = root.nodeID := by
        intro b m hm hmk hle
        rcases hle.eq_or_lt with heq | hlt
        · rw [h.search.covers_unique hm hn heq.symm hmk hk]
          exact hnode
        · exact habove b m hm hmk hlt
      have hp := h.holds hn
      rw [descend, image.dsm_offset hnode]
      split
      · rename_i htype
        obtain ⟨c, m, hchild, hm, hmk, hlevel⟩ :=
          exists_next h.search hn hp hk htype
        have hhigher : ∀ b m', F b = some m' → m'.Covers k →
            m.level < m'.level → b.nodeID = root.nodeID :=
          fun b m' hm' hk' hlt => hat b m' hm' hk' (by omega)
        simp only [hchild]
        split
        · rename_i hoff
          exact ⟨_, .offNode ⟨hoff, m, hm, hmk, hhigher⟩, rfl⟩
        · rename_i hon
          exact ih hm hmk (not_not.mp hon) hhigher (by omega)
      · rename_i htype
        have hleaf : n.isLeaf = true := by
          cases n with
          | leaf => rfl
          | inner => exact absurd hp.1 htype
        refine ⟨_, .leaf ?_ hnode hn hleaf hk, rfl⟩
        intro c hc
        obtain ⟨hoff, m, hm, hmk, _⟩ := hc
        refine hoff (hat c m hm hmk ?_)
        rw [Node.level_eq_zero_of_isLeaf hleaf]
        exact Nat.zero_le _

/-- There is one place only where the descent can end. -/
theorem Found.unique (h : SearchTree F 59 root) {stop stop' : Stop}
    (hs : Found F root k stop) (hs' : Found F root k stop') :
    stop = stop' := by
  cases hs with
  | offNode hc =>
      cases hs' with
      | offNode hc' =>
          obtain ⟨hoff, n, hn, hnk, habove⟩ := hc
          obtain ⟨hoff', n', hn', hnk', habove'⟩ := hc'
          have hlevel : n.level = n'.level := by
            rcases Nat.lt_trichotomy n.level n'.level with hlt | heq | hlt
            · exact absurd (habove _ _ hn' hnk' hlt) hoff'
            · exact heq
            · exact absurd (habove' _ _ hn hnk hlt) hoff
          rw [h.covers_unique hn hn' hlevel hnk hnk']
      | leaf hstays => exact absurd hc (hstays _)
  | leaf hstays _ hn hleaf hnk =>
      cases hs' with
      | offNode hc => exact absurd hc (hstays _)
      | leaf _ _ hn' hleaf' hnk' =>
          have hlevel := (Node.level_eq_zero_of_isLeaf hleaf).trans
            (Node.level_eq_zero_of_isLeaf hleaf').symm
          rw [h.covers_unique hn hn' hlevel hnk hnk']

/-- The descent from the root ends, and at no other place. -/
theorem descend_returns (h : image.WellFormed root F) (k : Key) :
    ∃ stop, Found F root k stop ∧ Returns
      (fun fuel => descend (image.dsm root.nodeID) k root.nodeID fuel root)
        stop := by
  obtain ⟨r, hr, hk⟩ := SearchTree.covers_root h.search k
  have hrun : ∀ fuel, r.level < fuel → ∃ stop, Found F root k stop ∧
      descend (image.dsm root.nodeID) k root.nodeID fuel root =
        some stop := by
    intro fuel hfuel
    refine descend_found h hr hk rfl ?_ hfuel
    intro b m hm _ hlt
    have := level_le_root h.search hr (h.search.reach hm) hm
    omega
  obtain ⟨stop, hstop, _⟩ := hrun (r.level + 1) (Nat.lt_succ_self _)
  refine ⟨stop, hstop, r.level + 1, fun fuel hfuel => ?_⟩
  obtain ⟨stop', hstop', hend⟩ := hrun fuel hfuel
  rw [hstop.unique h.search hstop']
  exact hend

theorem descend_off (h : image.WellFormed root F) {c : GlobalAddress}
    (hc : FirstOff F root k c) : Returns
      (fun fuel => descend (image.dsm root.nodeID) k root.nodeID fuel root)
        (.offNode c) := by
  obtain ⟨stop, hstop, hend⟩ := descend_returns h k
  rw [hstop.unique h.search (.offNode hc)] at hend
  exact hend

end Descent

/-! ## What happens at the leaf -/

section Leaf

variable {image : DsmImage} {root : GlobalAddress} {F : TreeForest}
  {m : KeyMap} {k : Key} {v : Value}

/-- The page of the leaf that covers the key, at the node of the root. -/
structure AtLeaf (image : DsmImage) (root : GlobalAddress) (F : TreeForest)
    (m : KeyMap) (k : Key) (a : GlobalAddress) : Prop where
  node : a.nodeID = root.nodeID
  count_le : (image a).count.toNat ≤ 59
  sorted : SortedEntries (image a).entries
  shown : F a = some (.leaf (image a).minLimit (image a).maxLimit
    (image a).entries (image a).nextLeaf)
  leaf : (image a).type = .btreeLeaf
  covers : Lib.Covers (image a).minLimit (image a).maxLimit k
  find : findEntry k (image a).entries = m k

theorem atLeaf (h : image.WellFormed root F) (hm : Represents F m)
    {a start : GlobalAddress} {n : TreeNode} (hnode : a.nodeID = start.nodeID)
    (hn : F a = some n) (hleaf : n.isLeaf = true) (hk : n.Covers k) :
    AtLeaf image start F m k a := by
  have hp := h.holds hn
  have hsound := h.search.sound hn
  have hstored := fun w => h.search.stored_iff hn hleaf hk (v := w)
  cases n with
  | inner => cases hleaf
  | leaf lo hi entries next =>
      obtain ⟨htype, rfl, rfl, hcount, rfl, rfl⟩ := hp
      have hsorted : SortedEntries (image a).entries := hsound.entries_sorted
      refine ⟨hnode, hcount, hsorted, hn, htype, hk, ?_⟩
      apply Option.ext
      intro w
      rw [hsorted.findEntry_eq_some, ← hm k w]
      exact (hstored w).symm

namespace AtLeaf

variable {a : GlobalAddress}

theorem rangeValid (h : AtLeaf image root F m k a) :
    BTreeLeaf.rangeValid (image a) k = true := by
  rw [BTreeLeaf.rangeValid, decide_eq_true_eq]
  exact h.covers

theorem find_eq (h : AtLeaf image root F m k a) :
    BTreeLeaf.find (image a) k = m k := by
  rw [BTreeLeaf.find_eq h.count_le h.sorted, h.find]

theorem hit_iff (h : AtLeaf image root F m k a) :
    BTreeLeaf.hit (image a) k = true ↔ m k ≠ none := by
  rw [← h.find_eq, BTreeLeaf.find]
  split <;> simp_all

theorem not_hit (h : AtLeaf image root F m k a) (hnone : m k = none) :
    BTreeLeaf.hit (image a) k = false := by
  rw [← Bool.not_eq_true, h.hit_iff, not_not]
  exact hnone

theorem isFull_iff {start : GlobalAddress}
    (h : AtLeaf image start F m k a) (hF : SearchTree F 59 root) :
    BTreeLeaf.isFull (image a) = true ↔ FullAt F k := by
  have hlength := Page.length_entries h.count_le
  have hcount : BTreeLeaf.isFull (image a) = true ↔
      (image a).count.toNat = 59 := by
    rw [BTreeLeaf.isFull, decide_eq_true_eq, ← UInt8.toNat_inj]
    rfl
  rw [hcount]
  constructor
  · intro hfull
    exact ⟨a, _, h.shown, rfl, h.covers, hlength.trans hfull⟩
  · intro hfull
    obtain ⟨b, n, hn, hleaf, hk, hsize⟩ := hfull
    have hlevel := Node.level_eq_zero_of_isLeaf hleaf
    obtain rfl := hF.covers_unique hn h.shown hlevel hk h.covers
    rw [h.shown, Option.some.injEq] at hn
    subst hn
    exact hlength.symm.trans hsize

/-- Writing other entries under the key into the leaf stores another map. -/
theorem edited {start : GlobalAddress} (hA : AtLeaf image start F m k a)
    (h : image.WellFormed root F) (hm : Represents F m) {p : Page}
    (honly : (image a).EntriesOnly p)
    (hspec : EditSpec k (image a).entries p.entries) :
    ∃ F', Forest.EditsLeaf F F' k (image a).entries p.entries ∧
      DsmImage.WellFormed (image.withDsm start.nodeID
        (Function.update (image.dsm start.nodeID) a.offset p)) root F' ∧
      Represents F' (Function.update m k (findEntry k p.entries)) := by
  obtain ⟨hp, hcount⟩ := honly
  have hsize : p.entries.length ≤ 59 := by
    rw [Page.length_entries hcount]
    exact hcount
  have hedit : Forest.EditsLeaf F
      (Function.update F a (some (.leaf (image a).minLimit
        (image a).maxLimit p.entries (image a).nextLeaf))) k
      (image a).entries p.entries :=
    ⟨_, _, _, _, hA.shown, hA.covers, rfl⟩
  refine ⟨_, hedit, ⟨hedit.searchTree h.search hspec.sorted hspec.new hsize,
    ?_⟩, hm.edits h.search hedit hspec hsize⟩
  intro b n hn
  rw [image.withDsm_update hA.node]
  by_cases hb : b = a
  · subst hb
    rw [Function.update_self, Option.some.injEq] at hn
    subst hn
    rw [Function.update_self, hp]
    exact ⟨hA.leaf, rfl, rfl, hcount, rfl, rfl⟩
  · rw [Function.update_of_ne hb] at hn ⊢
    exact h.holds hn

theorem stores (hA : AtLeaf image root F m k a)
    (h : image.WellFormed root F) (hm : Represents F m) {p : Page}
    (honly : (image a).EntriesOnly p)
    (hspec : EditSpec k (image a).entries p.entries) :
    (image.withDsm root.nodeID (Function.update (image.dsm root.nodeID)
      a.offset p)).Stores root
        (Function.update m k (findEntry k p.entries)) := by
  obtain ⟨F', _, hF', hm'⟩ := hA.edited h hm honly hspec
  exact ⟨F', hF', hm'⟩

end AtLeaf

theorem descend_leaf (h : image.WellFormed root F) (hm : Represents F m)
    (hstays : StaysOn F root k) : ∃ a, AtLeaf image root F m k a ∧ Returns
      (fun fuel => descend (image.dsm root.nodeID) k root.nodeID fuel root)
        (.leaf a) := by
  obtain ⟨stop, hstop, hend⟩ := descend_returns h k
  cases hstop with
  | offNode hc => exact absurd hc (hstays _)
  | leaf _ hnode hn hleaf hk =>
      exact ⟨_, atLeaf h hm hnode hn hleaf hk, hend⟩

/-! ## The four operations -/

theorem lookup_readsMap (h : image.WellFormed root F)
    (hm : Represents F m) (k : Key) :
    ReadsMap root F m k fun v g fuel =>
      lookup fuel root (image.dsm root.nodeID) k v g := by
  constructor
  · intro v g c hc
    exact (descend_off h hc).bind rfl
  · intro v g w hstays hw
    obtain ⟨a, hA, hend⟩ := descend_leaf h hm hstays
    refine hend.bind ?_
    have hfind := hA.find_eq.trans hw
    rw [BTreeLeaf.find] at hfind
    split at hfind
    · rename_i hhit
      simp [image.dsm_offset hA.node, hA.rangeValid, hhit,
        Option.some.inj hfind]
    · cases hfind
  · intro v g hstays hnone
    obtain ⟨a, hA, hend⟩ := descend_leaf h hm hstays
    refine hend.bind ?_
    simp [image.dsm_offset hA.node, hA.rangeValid, hA.not_hit hnone]

theorem update_altersMap (h : image.WellFormed root F)
    (hm : Represents F m) (k : Key) (v : Value) :
    AltersMap image root F m k
      (fun fuel => update fuel root (image.dsm root.nodeID) k v)
      (1, Function.update m k (some v)) (2, m) False := by
  constructor
  · intro c hc
    exact (descend_off h hc).bind rfl
  · intro hstays hsome
    obtain ⟨a, hA, hend⟩ := descend_leaf h hm hstays
    have hhit := hA.hit_iff.mpr hsome
    have hspec := BTreeLeaf.update_spec hA.count_le hA.sorted (k := k)
      (v := v)
    obtain ⟨honly, _⟩ := BTreeLeaf.update_entriesOnly hA.count_le (k := k)
      (v := v)
    rw [hA.find, if_pos (Option.isSome_iff_ne_none.mpr hsome)] at hspec
    rw [BTreeLeaf.update, if_pos hhit] at hspec honly
    -- the flag that the leaf's own operation sets is not written here
    let p : Page := { image a with
      data := (image a).data.setIfInBounds (BTreeLeaf.lowerBound (image a) k)
        (((image a).entry (BTreeLeaf.lowerBound (image a) k)).1, v) }
    have hentries : p.entries = putEntry k v (image a).entries := hspec.2
    have hstores := hA.stores h hm (p := p) ⟨rfl, honly.2⟩
      (hentries ▸ editSpec_put hA.sorted v)
    rw [hentries, findEntry_putEntry hA.sorted] at hstores
    refine ⟨(image a).remoteAddress, _, hend.bind ?_, hstores⟩
    simp [image.dsm_offset hA.node, hA.rangeValid, hhit, p]
  · intro hstays hnone _
    obtain ⟨a, hA, hend⟩ := descend_leaf h hm hstays
    refine ⟨root, image.dsm root.nodeID, hend.bind ?_, ?_⟩
    · simp [image.dsm_offset hA.node, hA.rangeValid, hA.not_hit hnone]
    · rw [image.withDsm_dsm]
      exact ⟨F, h, hm⟩
  · intro _ _ hfalse
    exact hfalse.elim

theorem remove_altersMap (h : image.WellFormed root F)
    (hm : Represents F m) (k : Key) :
    AltersMap image root F m k
      (fun fuel => remove fuel root (image.dsm root.nodeID) k)
      (1, Function.update m k none) (2, m) False := by
  have hremove : StaysOn F root k → Leaves image root
      (fun fuel => remove fuel root (image.dsm root.nodeID) k)
      (if (m k).isSome then 1 else 2) (Function.update m k none) := by
    intro hstays
    obtain ⟨a, hA, hend⟩ := descend_leaf h hm hstays
    obtain ⟨hflag, hentries⟩ :=
      BTreeLeaf.remove_spec hA.count_le hA.sorted (k := k)
    obtain ⟨honly, _⟩ := BTreeLeaf.remove_entriesOnly hA.count_le (k := k)
    have hstores := hA.stores h hm honly
      (hentries ▸ editSpec_drop hA.sorted)
    rw [hentries, findEntry_dropEntry hA.sorted] at hstores
    refine ⟨(image a).remoteAddress, _, hend.bind ?_, hstores⟩
    simp [image.dsm_offset hA.node, hA.rangeValid, hflag, hA.find]
  constructor
  · intro c hc
    exact (descend_off h hc).bind rfl
  · intro hstays hsome
    have := hremove hstays
    rwa [if_pos (Option.isSome_iff_ne_none.mpr hsome)] at this
  · intro hstays hnone _
    have := hremove hstays
    rw [← hnone, Function.update_eq_self] at this
    rwa [hnone] at this
  · intro _ _ hfalse
    exact hfalse.elim

/-- What an insertion answers where the leaf has room. -/
theorem insert_leaves (h : image.WellFormed root F) (hm : Represents F m)
    (hstays : StaysOn F root k) (hroom : ¬ FullAt F k) (v : Value) :
    Leaves image root
      (fun fuel => insert fuel root (image.dsm root.nodeID) k v)
      (if (m k).isNone then 1 else 2) (Function.update m k (some v)) := by
  obtain ⟨a, hA, hend⟩ := descend_leaf h hm hstays
  have hnotFull : BTreeLeaf.isFull (image a) = false := by
    rw [← Bool.not_eq_true, hA.isFull_iff h.search]
    exact hroom
  have hlt : (image a).count.toNat < 59 := by
    rw [BTreeLeaf.isFull, decide_eq_false_iff_not, ← UInt8.toNat_inj]
      at hnotFull
    exact lt_of_le_of_ne hA.count_le hnotFull
  obtain ⟨hflag, hentries⟩ :=
    BTreeLeaf.insert_spec hA.count_le hA.sorted hlt (k := k) (v := v)
  obtain ⟨honly, _⟩ := BTreeLeaf.insert_entriesOnly hlt (k := k) (v := v)
  have hstores := hA.stores h hm honly
    (hentries ▸ editSpec_put hA.sorted v)
  rw [hentries, findEntry_putEntry hA.sorted] at hstores
  refine ⟨(image a).remoteAddress, _, hend.bind ?_, hstores⟩
  simp [image.dsm_offset hA.node, hA.rangeValid, hnotFull, hflag, hA.find]

/-- A full leaf turns every insertion down. -/
theorem insert_refuses (h : image.WellFormed root F) (hm : Represents F m)
    (hstays : StaysOn F root k) (hfull : FullAt F k) (v : Value) :
    Returns (fun fuel => insert fuel root (image.dsm root.nodeID) k v)
      (-1, root, image.dsm root.nodeID) := by
  obtain ⟨a, hA, hend⟩ := descend_leaf h hm hstays
  refine hend.bind ?_
  simp [image.dsm_offset hA.node, (hA.isFull_iff h.search).mpr hfull]

theorem insert_altersMap (h : image.WellFormed root F)
    (hm : Represents F m) (k : Key) (v : Value)
    (hroom : ¬ (StaysOn F root k ∧ FullAt F k ∧ m k ≠ none)) :
    AltersMap image root F m k
      (fun fuel => insert fuel root (image.dsm root.nodeID) k v)
      (2, Function.update m k (some v)) (1, Function.update m k (some v))
      (FullAt F k) := by
  constructor
  · intro c hc
    exact (descend_off h hc).bind rfl
  · intro hstays hsome
    have := insert_leaves h hm hstays (fun hfull =>
      hroom ⟨hstays, hfull, hsome⟩) v
    obtain ⟨w, hw⟩ := Option.ne_none_iff_exists'.mp hsome
    simpa [hw] using this
  · intro hstays hnone hnotFull
    simpa [hnone] using insert_leaves h hm hstays hnotFull v
  · intro hstays _ hfull
    exact insert_refuses h hm hstays hfull v

/-- The four operations answer as the map does if and only if no full leaf
at the node of the root holds the key already. -/
theorem answersAsMap_iff (h : image.WellFormed root F)
    (hm : Represents F m) (k : Key) (v : Value) :
    AnswersAsMap image root F m k v ↔
      ¬ (StaysOn F root k ∧ FullAt F k ∧ m k ≠ none) := by
  constructor
  · intro hanswers hcrowded
    obtain ⟨hstays, hfull, hsome⟩ := hcrowded
    obtain ⟨root', dsm', hreturns, _⟩ := hanswers.insert.found hstays hsome
    have heq := hreturns.unique (insert_refuses h hm hstays hfull v)
    simp at heq
  · intro hroom
    exact ⟨lookup_readsMap h hm k, update_altersMap h hm k v,
      insert_altersMap h hm k v hroom, remove_altersMap h hm k⟩

end Leaf

/-! ## Small images -/

/-- The only page of its tree, with the keys from 1 on. -/
def countingLeaf (count : UInt8) : Page :=
  { BTreeLeaf.construct (.make 0 1024) with
    data := Vector.ofFn fun i => (UInt64.ofNat (i + 1), 0)
    count := count }

def countingForest (count : UInt8) : TreeForest :=
  Function.update (fun _ => none) (.make 0 1024)
    (some (.leaf ⊥ ⊤ (countingLeaf count).entries .null))

def countingMap (count : UInt8) : KeyMap :=
  fun k => findEntry k (countingLeaf count).entries

section Counting

variable {count : UInt8} (hcount : count.toNat ≤ 59)
  (hsorted : SortedEntries (countingLeaf count).entries)
include hcount hsorted

theorem countingLeaf_wellFormed :
    DsmImage.WellFormed (fun _ => countingLeaf count) (.make 0 1024)
      (countingForest count) := by
  have hempty := SearchTree.single (A := GlobalAddress) (K := Key)
    (V := Value) (by decide) 59 (.make 0 1024) .null
  have hsound : (Node.leaf ⊥ ⊤ (countingLeaf count).entries .null :
      TreeNode).Sound 59 :=
    ⟨show List.Pairwise (· < ·) [(⊥ : Key), ⊤] by decide, hsorted,
      fun e _ => covers_top e.1, by
        change (countingLeaf count).entries.length ≤ 59
        rwa [Page.length_entries hcount]⟩
  constructor
  · have hF := hempty.update (Function.update_self ..) hsound rfl rfl rfl rfl
    rwa [Function.update_idem] at hF
  · intro a n hn
    rw [countingForest, Function.update_apply] at hn
    split at hn
    · obtain rfl := Option.some.inj hn
      exact ⟨rfl, rfl, rfl, hcount, rfl, rfl⟩
    · cases hn

theorem countingForest_represents :
    Represents (countingForest count) (countingMap count) := by
  intro k v
  have hF := (countingLeaf_wellFormed hcount hsorted).search
  rw [hF.stored_iff (Function.update_self ..) rfl (covers_top k),
    countingMap, hsorted.findEntry_eq_some]
  rfl

end Counting

theorem countingForest_staysOn (count : UInt8) (k : Key) :
    StaysOn (countingForest count) (.make 0 1024) k := by
  intro c hc
  obtain ⟨hoff, n, hn, _⟩ := hc
  rw [countingForest, Function.update_apply] at hn
  split at hn
  · rename_i heq
    exact hoff (by rw [heq])
  · cases hn

theorem countingForest_fullAt_iff {count : UInt8} (hcount : count.toNat ≤ 59)
    (k : Key) : FullAt (countingForest count) k ↔ count.toNat = 59 := by
  have hlength : (countingLeaf count).entries.length = count.toNat :=
    Page.length_entries hcount
  constructor
  · intro hfull
    obtain ⟨a, n, hn, _, _, hsize⟩ := hfull
    rw [countingForest, Function.update_apply] at hn
    split at hn
    · obtain rfl := Option.some.inj hn
      exact hlength.symm.trans hsize
    · cases hn
  · intro hfull
    exact ⟨_, _, Function.update_self .., rfl, covers_top k,
      hlength.trans hfull⟩

theorem countingLeaf_sorted_six :
    SortedEntries (countingLeaf 6).entries := by
  unfold SortedEntries
  decide +kernel

/-- The leaf of six keys after its upper half went to node 1, below a new root
on node 0. -/
def forkForest : TreeForest :=
  (countingForest 6).splitRoot .null (.make 0 1024)
    (.leaf ⊥ ⊤ (countingLeaf 6).entries .null) (.make 1 1024) (.make 0 2048)

def forkRoot : Page :=
  { BTreeInner.construct 1 (.make 0 2048) with
    count := 1
    keys := Vector.replicate 60 3
    children := (Vector.replicate 60 (.remote (.make 0 1024))).set 1
      (.remote (.make 1 1024)) }

def forkLower : Page :=
  { countingLeaf 3 with
    maxLimit := 3
    nextLeaf := .make 1 1024 }

def forkUpper : Page :=
  { BTreeLeaf.construct (.make 1 1024) with
    data := Vector.ofFn fun i => (UInt64.ofNat (i + 4), 0)
    count := 3
    minLimit := 3 }

def forkImage : DsmImage := fun a =>
  if a = .make 0 2048 then forkRoot
  else if a = .make 1 1024 then forkUpper
  else forkLower

theorem forkForest_split :
    Forest.RootSplit (countingForest 6) (.make 0 1024)
      (.leaf ⊥ ⊤ (countingLeaf 6).entries .null) (.make 1 1024)
      (.make 0 2048) where
  root := Function.update_self ..
  not_child := (countingLeaf_wellFormed (by decide)
    countingLeaf_sorted_six).search.not_child
  size := by decide
  fresh := Function.update_of_ne (by decide) ..
  fresh_root := Function.update_of_ne (by decide) ..
  ne := by decide

theorem forkImage_wellFormed :
    forkImage.WellFormed (.make 0 2048) forkForest := by
  have hF := (countingLeaf_wellFormed (by decide)
    countingLeaf_sorted_six).search
  constructor
  · exact forkForest_split.searchTree hF (by decide)
  · intro a n hn
    rcases Forest.splitRoot_cases hn with ⟨rfl, rfl⟩ | ⟨rfl, rfl⟩ | ⟨rfl, rfl⟩ |
      ⟨_, _, hne, hother⟩
    · exact ⟨by decide, by decide, by decide, by decide, by decide, by decide⟩
    · exact ⟨by decide, by decide, by decide, by decide, by decide, by decide⟩
    · exact ⟨by decide, by decide, by decide, by decide, by decide, by decide⟩
    · rw [countingForest, Function.update_of_ne hne] at hother
      cases hother

theorem forkForest_represents : Represents forkForest (countingMap 6) := by
  intro k v
  rw [forkForest, forkForest_split.stored_iff]
  exact countingForest_represents (by decide) countingLeaf_sorted_six k v

theorem forkForest_not_fullAt (k : Key) : ¬ FullAt forkForest k := by
  rintro ⟨a, n, hn, hleaf, _, hfull⟩
  rcases Forest.splitRoot_cases hn with ⟨_, rfl⟩ | ⟨_, rfl⟩ | ⟨_, rfl⟩ |
    ⟨_, _, hne, hother⟩
  · cases hleaf
  · revert hfull
    decide
  · revert hfull
    decide
  · rw [countingForest, Function.update_of_ne hne] at hother
    cases hother

/-- The way to 2 ends in the lower leaf. -/
theorem forkForest_staysOn : StaysOn forkForest (.make 0 2048) 2 := by
  rintro c ⟨hoff, n, hn, hcovers, _⟩
  rcases Forest.splitRoot_cases hn with ⟨rfl, _⟩ | ⟨_, rfl⟩ | ⟨rfl, _⟩ |
    ⟨_, _, hne, hother⟩
  · exact hoff rfl
  · exact absurd hcovers.lo_le (by decide)
  · exact hoff rfl
  · rw [countingForest, Function.update_of_ne hne] at hother
    cases hother

/-- The way to 5 leaves the root's node at the upper leaf. -/
theorem forkForest_firstOff :
    FirstOff forkForest (.make 0 2048) 5 (.make 1 1024) := by
  refine ⟨by decide, _, forkForest_split.splitRoot_right,
    Or.inr ⟨by decide, by decide⟩, ?_⟩
  intro b m hm _ hlevel
  rcases Forest.splitRoot_cases hm with ⟨rfl, _⟩ | ⟨_, rfl⟩ | ⟨rfl, _⟩ |
    ⟨_, _, hne, hother⟩
  · rfl
  · exact absurd hlevel (by decide)
  · rfl
  · rw [countingForest, Function.update_of_ne hne] at hother
    cases hother

/-- At the root's node the key 2 is answered and the key 5 sent on. -/
theorem answersAsMap_fork :
    (StaysOn forkForest (.make 0 2048) 2 ∧
      AnswersAsMap forkImage (.make 0 2048) forkForest (countingMap 6) 2 9) ∧
    FirstOff forkForest (.make 0 2048) 5 (.make 1 1024) ∧
      AnswersAsMap forkImage (.make 0 2048) forkForest (countingMap 6) 5 9 :=
  ⟨⟨forkForest_staysOn,
      (answersAsMap_iff forkImage_wellFormed forkForest_represents 2 9).mpr
        fun hcrowded => forkForest_not_fullAt 2 hcrowded.2.1⟩,
    forkForest_firstOff,
    (answersAsMap_iff forkImage_wellFormed forkForest_represents 5 9).mpr
      fun hcrowded => forkForest_not_fullAt 5 hcrowded.2.1⟩

set_option maxRecDepth 10000 in
theorem countingLeaf_sorted_full :
    SortedEntries (countingLeaf 59).entries := by
  unfold SortedEntries
  decide +kernel

/-- The key 5 is stored in a full leaf, and its value is not overwritten. -/
theorem full_leaf_keeps_value :
    DsmImage.WellFormed (fun _ => countingLeaf 59) (.make 0 1024)
        (countingForest 59) ∧
      Represents (countingForest 59) (countingMap 59) ∧
      countingMap 59 5 = some 0 ∧
      (∃ fuel dsm', insert fuel (.make 0 1024) (fun _ => countingLeaf 59) 5 9 =
        some (-1, .make 0 1024, dsm')) ∧
      ¬ AnswersAsMap (fun _ => countingLeaf 59) (.make 0 1024)
        (countingForest 59) (countingMap 59) 5 9 := by
  have hwell := countingLeaf_wellFormed (by decide) countingLeaf_sorted_full
  have hrep := countingForest_represents (by decide)
    countingLeaf_sorted_full
  have hstored : countingMap 59 5 = some 0 := by decide +kernel
  have hrefuses := insert_refuses hwell hrep
    (countingForest_staysOn 59 5)
    ((countingForest_fullAt_iff (by decide) 5).mpr (by decide)) 9
  refine ⟨hwell, hrep, hstored, ?_, ?_⟩
  · obtain ⟨least, hleast⟩ := hrefuses
    exact ⟨least, _, hleast least le_rfl⟩
  · intro hanswers
    obtain ⟨root', dsm', hreturns, _⟩ := hanswers.insert.found
      (countingForest_staysOn 59 5) (by rw [hstored]; exact Option.some_ne_none 0)
    have heq := hreturns.unique hrefuses
    simp at heq

end Btree

end CachingDex
