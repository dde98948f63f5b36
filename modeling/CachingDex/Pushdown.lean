import CachingDex.Flush

/-!
# Runs of pushed-down calls

Clients push calls of `Btree.h` to the memory nodes that store the pages.  A
call may start at any page of the tree: a write hands back the address of the
leaf it reached, and a later call may start there with another key.  Whatever
the order of the calls, each one does what the map of the tree says, or it is
turned down and changes nothing.
-/

namespace CachingDex

open Lib

namespace Btree

/-- A call with its arguments; a lookup may overwrite the last two. -/
inductive Call where
  | lookup (k : Key) (vResult : Value) (gResult : GlobalAddress)
  | update (k : Key) (v : Value)
  | insert (k : Key) (v : Value)
  | remove (k : Key)

/-- The code, the value, and the address handed back: `g_result` of a lookup,
`root` of the other calls. -/
abbrev Answer := ℤ × Value × GlobalAddress

namespace Call

def key : Call → Key
  | lookup k _ _ => k
  | update k _ => k
  | insert k _ => k
  | remove k => k

def isInsert : Call → Bool
  | insert _ _ => true
  | _ => false

/-- One call at the memory node that stores its start. -/
def run (start : GlobalAddress) (image : DsmImage) (fuel : ℕ) :
    Call → Option (Answer × DsmImage)
  | lookup k v g => do
      let answer ← Btree.lookup fuel start (image.dsm start.nodeID) k v g
      pure (answer, image)
  | update k v => do
      let (code, root, dsm) ←
        Btree.update fuel start (image.dsm start.nodeID) k v
      pure ((code, v, root), image.withDsm start.nodeID dsm)
  | insert k v => do
      let (code, root, dsm) ←
        Btree.insert fuel start (image.dsm start.nodeID) k v
      pure ((code, v, root), image.withDsm start.nodeID dsm)
  | remove k => do
      let (code, root, dsm) ←
        Btree.remove fuel start (image.dsm start.nodeID) k
      pure ((code, 0, root), image.withDsm start.nodeID dsm)

/-- The code and value of a call to a map, and the map after it. -/
def answer (m : KeyMap) : Call → (ℤ × Value) × KeyMap
  | lookup k v _ => ((m k).elim (2, v) fun w => (1, w), m)
  | update k v =>
      if (m k).isSome then ((1, v), Function.update m k (some v))
      else ((2, v), m)
  | insert k v =>
      ((if (m k).isNone then 1 else 2, v), Function.update m k (some v))
  | remove k =>
      ((if (m k).isSome then 1 else 2, 0), Function.update m k none)

/-- The address handed back where the way leads on to `c`. -/
def back (start c : GlobalAddress) : Call → GlobalAddress
  | lookup _ _ _ => c
  | _ => start

end Call

/-- Calls one after the other, each with its start. -/
def runCalls (fuel : ℕ) : List (GlobalAddress × Call) → DsmImage →
    Option (List Answer × DsmImage)
  | [], image => some ([], image)
  | (start, call) :: calls, image => do
      let (answer, image) ← call.run start image fuel
      let (answers, image) ← runCalls fuel calls image
      pure (answer :: answers, image)

/-! ## What a call may do -/

/-- The node at `a` covers the key. -/
def CoversAt (F : TreeForest) (a : GlobalAddress) (k : Key) : Prop :=
  ∃ n, F a = some n ∧ n.Covers k

/-- The page at `c` lies below that at `a`, and covers the key if that does. -/
structure Under (F : TreeForest) (c a : GlobalAddress) (k : Key) : Prop where
  level : ∃ m n, F c = some m ∧ F a = some n ∧ m.level < n.level
  covers : CoversAt F c k ↔ CoversAt F a k

/-- The level and the limits of a node. -/
def frame (n : TreeNode) : ℕ × Key × Key := (n.level, n.lo, n.hi)

/-- The forests have nodes at the same addresses, with the same frames. -/
def SameFrames (F F' : TreeForest) : Prop :=
  ∀ a, (F' a).map frame = (F a).map frame

section SameFrames

variable {F F' : TreeForest}

theorem SameFrames.symm (h : SameFrames F F') : SameFrames F' F :=
  fun a => (h a).symm

theorem SameFrames.node (h : SameFrames F F') {a : GlobalAddress}
    {n : TreeNode} (hn : F a = some n) :
    ∃ n', F' a = some n' ∧ n'.level = n.level ∧ n'.lo = n.lo ∧
      n'.hi = n.hi := by
  have ha := h a
  rw [hn, Option.map_some, Option.map_eq_some_iff] at ha
  obtain ⟨n', hn', heq⟩ := ha
  simp only [frame, Prod.mk.injEq] at heq
  exact ⟨n', hn', heq⟩

theorem SameFrames.isSome (h : SameFrames F F') (a : GlobalAddress) :
    (F' a).isSome = (F a).isSome := by
  have ha := congrArg Option.isSome (h a)
  simpa using ha

theorem SameFrames.covers (h : SameFrames F F') {a : GlobalAddress} {k : Key}
    (ha : CoversAt F a k) : CoversAt F' a k := by
  obtain ⟨n, hn, hk⟩ := ha
  obtain ⟨n', hn', _, hlo, hhi⟩ := h.node hn
  refine ⟨n', hn', ?_⟩
  rwa [Node.Covers, hlo, hhi]

theorem SameFrames.coversAt (h : SameFrames F F') (a : GlobalAddress)
    (k : Key) : CoversAt F' a k ↔ CoversAt F a k :=
  ⟨h.symm.covers, h.covers⟩

theorem SameFrames.under (h : SameFrames F F') {c a : GlobalAddress} {k : Key}
    (hc : Under F c a k) : Under F' c a k := by
  obtain ⟨m, n, hm, hn, hlt⟩ := hc.level
  obtain ⟨m', hm', hlevel, _⟩ := h.node hm
  obtain ⟨n', hn', hlevel', _⟩ := h.node hn
  constructor
  · exact ⟨m', n', hm', hn', by omega⟩
  · rw [h.coversAt, h.coversAt]
    exact hc.covers

theorem SameFrames.of_edits {k : Key} {entries entries' : List (Key × Value)}
    (h : Forest.EditsLeaf F F' k entries entries') : SameFrames F F' := by
  obtain ⟨a, lo, hi, next, ha, _, rfl⟩ := h.covers
  intro b
  by_cases hb : b = a
  · rw [hb, Function.update_self, ha]
    rfl
  · rw [Function.update_of_ne hb]

end SameFrames

/-- What a call may do: its way leads to a page of another node, its start
does not cover its key, it is an insertion into a full leaf, or it does what
the map says.  The codes are those of the source. -/
inductive CallStep (F : TreeForest) (m : KeyMap) (start : GlobalAddress)
    (call : Call) : Answer → TreeForest → KeyMap → Prop where
  | offNode {v : Value} {c : GlobalAddress} (hoff : c.nodeID ≠ start.nodeID)
      (hunder : Under F c start call.key) :
      CallStep F m start call (0, v, call.back start c) F m
  | wrongLeaf {v : Value} {g : GlobalAddress}
      (hcovers : ¬ CoversAt F start call.key) :
      CallStep F m start call (-1, v, g) F m
  | fullLeaf {v : Value} {g : GlobalAddress}
      (hcovers : CoversAt F start call.key) (hinsert : call.isInsert = true)
      (hfull : FullAt F call.key) : CallStep F m start call (-1, v, g) F m
  | answered {g : GlobalAddress} {F' : TreeForest}
      (hcovers : CoversAt F start call.key) (hsame : SameFrames F F') :
      CallStep F m start call
        ((call.answer m).1.1, (call.answer m).1.2, g) F' (call.answer m).2

/-- What a run of calls may do. -/
inductive Served : TreeForest → KeyMap → List (GlobalAddress × Call) →
    List Answer → TreeForest → KeyMap → Prop where
  | nil {F : TreeForest} {m : KeyMap} : Served F m [] [] F m
  | cons {F F₁ F' : TreeForest} {m m₁ m' : KeyMap} {start : GlobalAddress}
      {call : Call} {answer : Answer} {calls : List (GlobalAddress × Call)}
      {answers : List Answer} (head : CallStep F m start call answer F₁ m₁)
      (tail : Served F₁ m₁ calls answers F' m') :
      Served F m ((start, call) :: calls) (answer :: answers) F' m'

/-! ## The descent from any page -/

/-- Where the descent from a page ends: at a child on another node, or at a
leaf.  Either covers the key if the page does. -/
inductive Ends (F : TreeForest) (start : GlobalAddress) (k : Key) :
    Stop → Prop where
  | offNode {c : GlobalAddress} (hoff : c.nodeID ≠ start.nodeID)
      (hunder : Under F c start k) : Ends F start k (.offNode c)
  | leaf {a : GlobalAddress} {n : TreeNode} (hnode : a.nodeID = start.nodeID)
      (hn : F a = some n) (hleaf : n.isLeaf = true)
      (hcovers : n.Covers k ↔ CoversAt F start k) : Ends F start k (.leaf a)

section Descent

variable {image : DsmImage} {root : GlobalAddress} {F : TreeForest} {k : Key}

theorem coversAt_iff {a : GlobalAddress} {n : TreeNode} (hn : F a = some n)
    (k : Key) : CoversAt F a k ↔ n.Covers k := by
  constructor
  · intro h
    obtain ⟨n', hn', hk⟩ := h
    rw [hn, Option.some.injEq] at hn'
    exact hn' ▸ hk
  · intro h
    exact ⟨n, hn, h⟩

/-- A key in the interval of a child is in that of its parent. -/
theorem covers_of_within {n m : TreeNode} (hlo : n.lo ≤ m.lo)
    (hhi : m.hi ≤ n.hi) (hk : m.Covers k) : n.Covers k := by
  rcases hk with ⟨hbot, hkey⟩ | ⟨hlt, hle⟩
  · have hle : n.lo ≤ ⊥ := by rwa [← hkey, hbot] at hlo
    exact Or.inl ⟨hbot, hbot.trans (le_bot_iff.mp hle).symm⟩
  · exact Or.inr ⟨hlo.trans_lt hlt, hle.trans hhi⟩

theorem Under.trans {a b c : GlobalAddress} (hc : Under F c b k)
    (hb : Under F b a k) : Under F c a k := by
  obtain ⟨m, n, hm, hn, hlt⟩ := hc.level
  obtain ⟨n', r, hn', hr, hlt'⟩ := hb.level
  rw [hn, Option.some.injEq] at hn'
  subst hn'
  exact ⟨⟨m, r, hm, hr, hlt.trans hlt'⟩, hc.covers.trans hb.covers⟩

theorem Ends.of_step {a c : GlobalAddress} {stop : Stop}
    (h : Ends F c k stop) (hnode : c.nodeID = a.nodeID)
    (hunder : Under F c a k) : Ends F a k stop := by
  cases h with
  | offNode hoff hc => exact .offNode (hnode ▸ hoff) (hc.trans hunder)
  | leaf hn hleaf hsome hc =>
      exact .leaf (hn.trans hnode) hleaf hsome (hc.trans hunder.covers)

theorem descend_ends (h : image.WellFormed root F) {a : GlobalAddress}
    {n : TreeNode} (hn : F a = some n) (k : Key) :
    ∃ stop, Ends F a k stop ∧ ∀ fuel, n.level < fuel →
      descend (image.dsm a.nodeID) k a.nodeID fuel a = some stop := by
  induction hlevel : n.level generalizing a n with
  | zero =>
      have hp := h.holds hn
      have hnot : (image a).type ≠ .btreeInner := by
        intro htype
        obtain ⟨_, m, _, _, hm, _⟩ := exists_step h.search hn hp k htype
        omega
      have hleaf : n.isLeaf = true := by
        cases n with
        | leaf => rfl
        | inner => exact absurd hp.1 hnot
      refine ⟨_, .leaf rfl hn hleaf (coversAt_iff hn k).symm, ?_⟩
      intro fuel hfuel
      obtain ⟨fuel, rfl⟩ := Nat.exists_eq_succ_of_ne_zero hfuel.ne'
      rw [descend, image.dsm_offset rfl, if_neg hnot]
  | succ level ih =>
      have hp := h.holds hn
      have htype : (image a).type = .btreeInner := by
        cases n with
        | leaf => cases hlevel
        | inner => exact hp.1
      obtain ⟨c, m, hchild, hm, hstep, hlo, hhi, hdown⟩ :=
        exists_step h.search hn hp k htype
      have hunder : Under F c a k := by
        constructor
        · exact ⟨m, n, hm, hn, by omega⟩
        · rw [coversAt_iff hm, coversAt_iff hn]
          exact ⟨covers_of_within hlo hhi, hdown⟩
      have hnext : ∀ fuel, descend (image.dsm a.nodeID) k a.nodeID
          (fuel + 1) a = if c.nodeID ≠ a.nodeID then some (.offNode c)
            else descend (image.dsm a.nodeID) k a.nodeID fuel c := by
        intro fuel
        rw [descend, image.dsm_offset rfl]
        simp only [htype, if_true, hchild]
      by_cases hnode : c.nodeID = a.nodeID
      · obtain ⟨stop, hstop, hrun⟩ := ih hm (by omega)
        refine ⟨stop, hstop.of_step hnode hunder, ?_⟩
        intro fuel hfuel
        obtain ⟨fuel, rfl⟩ := Nat.exists_eq_succ_of_ne_zero (by omega : fuel ≠ 0)
        rw [hnext, if_neg (not_not.mpr hnode), ← hnode]
        exact hrun fuel (by omega)
      · refine ⟨_, .offNode hnode hunder, ?_⟩
        intro fuel hfuel
        obtain ⟨fuel, rfl⟩ := Nat.exists_eq_succ_of_ne_zero (by omega : fuel ≠ 0)
        rw [hnext, if_pos hnode]

end Descent

/-! ## One call -/

namespace Call

/-- What a call hands back that is turned down. -/
def refused (code : ℤ) (start : GlobalAddress) : Call → Answer
  | lookup _ v g => (code, v, g)
  | update _ v => (code, v, start)
  | insert _ v => (code, v, start)
  | remove _ => (code, 0, start)

/-- A call at the leaf where its descent ends, with the leaf it writes. -/
def atLeaf (start : GlobalAddress) (leaf : Page) : Call → Answer × Option Page
  | lookup k v g =>
      if BTreeLeaf.hit leaf k then
        ((1, (leaf.entry (BTreeLeaf.lowerBound leaf k)).2, g), none)
      else ((2, v, g), none)
  | update k v =>
      if BTreeLeaf.hit leaf k then
        let pos := BTreeLeaf.lowerBound leaf k
        ((1, v, leaf.remoteAddress), some { leaf with
          data := leaf.data.setIfInBounds pos ((leaf.entry pos).1, v) })
      else ((2, v, start), none)
  | insert k v =>
      if BTreeLeaf.isFull leaf then ((-1, v, start), none)
      else
        let inserted := BTreeLeaf.insert leaf k v
        ((if inserted.1 then 1 else 2, v, leaf.remoteAddress),
          some inserted.2)
  | remove k =>
      let removed := BTreeLeaf.remove leaf k
      ((if removed.1 then 1 else 2, 0, leaf.remoteAddress), some removed.2)

/-- The image with the leaf at `a` written, if it was. -/
def written (start a : GlobalAddress) (image : DsmImage) :
    Option Page → DsmImage
  | none => image
  | some leaf => image.withDsm start.nodeID
      (Function.update (image.dsm start.nodeID) a.offset leaf)

/-- What is left of a call after its descent. -/
def finish (start : GlobalAddress) (image : DsmImage) (call : Call) :
    Stop → Answer × DsmImage
  | .offNode c =>
      (match call with
        | lookup _ v _ => (0, v, c)
        | _ => call.refused 0 start, image)
  | .leaf a =>
      let leaf := image.dsm start.nodeID a.offset
      if BTreeLeaf.rangeValid leaf call.key then
        let done := call.atLeaf start leaf
        (done.1, written start a image done.2)
      else (call.refused (-1) start, image)

/-- The calls share their descent. -/
theorem run_eq (start : GlobalAddress) (image : DsmImage) (fuel : ℕ)
    (call : Call) :
    call.run start image fuel =
      (descend (image.dsm start.nodeID) call.key start.nodeID fuel start).map
        (call.finish start image) := by
  have hsame := image.withDsm_dsm start.nodeID
  cases call with
  | lookup k v g =>
      simp only [run, Btree.lookup, key]
      rcases descend (image.dsm start.nodeID) k start.nodeID fuel start
        with _ | c | a
      · rfl
      · rfl
      · by_cases hvalid : BTreeLeaf.rangeValid
          (image.dsm start.nodeID a.offset) k = true
        · by_cases hhit : BTreeLeaf.hit
            (image.dsm start.nodeID a.offset) k = true
          · simp [finish, key, atLeaf, written, hvalid, hhit]
          · simp [finish, key, atLeaf, written, hvalid, hhit]
        · simp [finish, key, refused, hvalid]
  | update k v =>
      simp only [run, Btree.update, key]
      rcases descend (image.dsm start.nodeID) k start.nodeID fuel start
        with _ | c | a
      · rfl
      · simp [finish, refused, hsame]
      · by_cases hvalid : BTreeLeaf.rangeValid
          (image.dsm start.nodeID a.offset) k = true
        · by_cases hhit : BTreeLeaf.hit
            (image.dsm start.nodeID a.offset) k = true
          · simp [finish, key, atLeaf, written, hvalid, hhit]
          · simp [finish, key, atLeaf, written, hvalid, hhit, hsame]
        · simp [finish, key, refused, hvalid, hsame]
  | insert k v =>
      simp only [run, Btree.insert, key]
      rcases descend (image.dsm start.nodeID) k start.nodeID fuel start
        with _ | c | a
      · rfl
      · simp [finish, refused, hsame]
      · by_cases hvalid : BTreeLeaf.rangeValid
          (image.dsm start.nodeID a.offset) k = true
        · by_cases hfull : BTreeLeaf.isFull
            (image.dsm start.nodeID a.offset) = true
          · simp [finish, key, atLeaf, written, hvalid, hfull, hsame]
          · simp [finish, key, atLeaf, written, hvalid, hfull]
        · simp [finish, key, refused, hvalid, hsame]
  | remove k =>
      simp only [run, Btree.remove, key]
      rcases descend (image.dsm start.nodeID) k start.nodeID fuel start
        with _ | c | a
      · rfl
      · simp [finish, refused, hsame]
      · by_cases hvalid : BTreeLeaf.rangeValid
          (image.dsm start.nodeID a.offset) k = true
        · simp [finish, key, atLeaf, written, hvalid]
        · simp [finish, key, refused, hvalid, hsame]

theorem returns_finish {start : GlobalAddress} {image : DsmImage} (call : Call)
    {stop : Stop} (h : Returns (fun fuel => descend (image.dsm start.nodeID)
      call.key start.nodeID fuel start) stop) :
    Returns (fun fuel => call.run start image fuel)
      (call.finish start image stop) := by
  obtain ⟨least, hleast⟩ := h
  refine ⟨least, fun fuel hfuel => ?_⟩
  change call.run start image fuel = _
  rw [run_eq]
  exact congrArg (Option.map _) (hleast fuel hfuel)

end Call

section Calls

variable {image : DsmImage} {root start a : GlobalAddress} {F : TreeForest}
  {m : KeyMap} {call : Call}

/-- The call may give this answer and leave this image. -/
def Serves (root : GlobalAddress) (F : TreeForest) (m : KeyMap)
    (start : GlobalAddress) (call : Call) (done : Answer × DsmImage) : Prop :=
  ∃ F' m', CallStep F m start call done.1 F' m' ∧
    done.2.WellFormed root F' ∧ Represents F' m'

/-- A write of the leaf that the map follows. -/
theorem AtLeaf.serves (hA : AtLeaf image start F m call.key a)
    (h : image.WellFormed root F) (hm : Represents F m)
    (hcovers : CoversAt F start call.key) {p : Page} {g : GlobalAddress}
    (honly : (image a).EntriesOnly p)
    (hspec : EditSpec call.key (image a).entries p.entries)
    (hmap : Function.update m call.key (findEntry call.key p.entries) =
      (call.answer m).2) :
    Serves root F m start call
      (((call.answer m).1.1, (call.answer m).1.2, g),
        Call.written start a image (some p)) := by
  obtain ⟨F', hedit, hF', hm'⟩ := hA.edited h hm honly hspec
  rw [hmap] at hm'
  exact ⟨F', _, .answered hcovers (.of_edits hedit), hF', hm'⟩

/-- An answer that writes nothing. -/
theorem serves_read (h : image.WellFormed root F) (hm : Represents F m)
    (hcovers : CoversAt F start call.key) (g : GlobalAddress)
    (hmap : (call.answer m).2 = m) :
    Serves root F m start call
      (((call.answer m).1.1, (call.answer m).1.2, g), image) := by
  have hstep : CallStep F m start call
      ((call.answer m).1.1, (call.answer m).1.2, g) F (call.answer m).2 :=
    .answered hcovers fun _ => rfl
  rw [hmap] at hstep
  exact ⟨F, m, hstep, h, hm⟩

/-- The leaf that covers the key serves the call, or is too full. -/
theorem AtLeaf.atLeaf_serves (hA : AtLeaf image start F m call.key a)
    (h : image.WellFormed root F) (hm : Represents F m)
    (hcovers : CoversAt F start call.key) :
    Serves root F m start call ((call.atLeaf start (image a)).1,
      Call.written start a image (call.atLeaf start (image a)).2) := by
  cases call with
  | lookup k v g =>
      have hreads := serves_read h hm hcovers g rfl
      have hfind : BTreeLeaf.find (image a) k = m k := hA.find_eq
      rw [BTreeLeaf.find] at hfind
      cases hk : m k with
      | none =>
          have hhit : BTreeLeaf.hit (image a) k = false := hA.not_hit hk
          simpa [Call.atLeaf, Call.answer, hk, hhit, Call.written] using hreads
      | some w =>
          have hhit : BTreeLeaf.hit (image a) k = true :=
            hA.hit_iff.mpr (show m k ≠ none by simp [hk])
          rw [hk, if_pos hhit, Option.some.injEq] at hfind
          simpa [Call.atLeaf, Call.answer, hk, hhit, hfind, Call.written]
            using hreads
  | update k v =>
      cases hk : m k with
      | none =>
          have hhit : BTreeLeaf.hit (image a) k = false := hA.not_hit hk
          have hanswer : Call.answer m (.update k v) = ((2, v), m) := by
            simp [Call.answer, hk]
          have hreads := serves_read h hm hcovers start (by rw [hanswer])
          rw [hanswer] at hreads
          simpa [Call.atLeaf, hhit, Call.written] using hreads
      | some w =>
          have hhit : BTreeLeaf.hit (image a) k = true :=
            hA.hit_iff.mpr (show m k ≠ none by simp [hk])
          have hspec := BTreeLeaf.update_spec hA.count_le hA.sorted (k := k)
            (v := v)
          obtain ⟨honly, _⟩ := BTreeLeaf.update_entriesOnly hA.count_le
            (k := k) (v := v)
          have hfind : findEntry k (image a).entries = m k := hA.find
          rw [hfind, hk, if_pos Option.isSome_some] at hspec
          rw [BTreeLeaf.update, if_pos hhit] at hspec honly
          -- the flag that the leaf's own operation sets is not written here
          let p : Page := { image a with
            data := (image a).data.setIfInBounds
              (BTreeLeaf.lowerBound (image a) k)
              (((image a).entry (BTreeLeaf.lowerBound (image a) k)).1, v) }
          have hentries : p.entries = putEntry k v (image a).entries := hspec.2
          have hanswer : Call.answer m (.update k v) =
              ((1, v), Function.update m k (some v)) := by
            simp [Call.answer, hk]
          have hpage : (image a).EntriesOnly p := ⟨rfl, honly.2⟩
          have hserves := hA.serves h hm hcovers
            (g := (image a).remoteAddress) hpage
            (hentries ▸ editSpec_put hA.sorted v)
            (by rw [hanswer, hentries, Call.key, findEntry_putEntry hA.sorted])
          rw [hanswer] at hserves
          simpa [Call.atLeaf, hhit] using hserves
  | insert k v =>
      cases hfull : BTreeLeaf.isFull (image a) with
      | true =>
          refine ⟨F, m, ?_, ?_, hm⟩
          · simp only [Call.atLeaf, hfull, if_true]
            exact .fullLeaf hcovers rfl ((hA.isFull_iff h.search).mp hfull)
          · simpa [Call.atLeaf, hfull, Call.written] using h
      | false =>
          have hlt : (image a).count.toNat < 59 := by
            rw [BTreeLeaf.isFull, decide_eq_false_iff_not, ← UInt8.toNat_inj]
              at hfull
            exact lt_of_le_of_ne hA.count_le hfull
          obtain ⟨hflag, hentries⟩ :=
            BTreeLeaf.insert_spec hA.count_le hA.sorted hlt (k := k) (v := v)
          obtain ⟨honly, _⟩ := BTreeLeaf.insert_entriesOnly hlt (k := k)
            (v := v)
          have hfind : findEntry k (image a).entries = m k := hA.find
          rw [hfind] at hflag
          have hserves := hA.serves h hm hcovers
            (g := (image a).remoteAddress) honly
            (hentries ▸ editSpec_put hA.sorted v)
            (by rw [hentries, Call.key, findEntry_putEntry hA.sorted]; rfl)
          simpa [Call.atLeaf, hfull, Call.answer, hflag] using hserves
  | remove k =>
      obtain ⟨hflag, hentries⟩ :=
        BTreeLeaf.remove_spec hA.count_le hA.sorted (k := k)
      obtain ⟨honly, _⟩ := BTreeLeaf.remove_entriesOnly hA.count_le (k := k)
      have hfind : findEntry k (image a).entries = m k := hA.find
      rw [hfind] at hflag
      have hserves := hA.serves h hm hcovers
        (g := (image a).remoteAddress) honly
        (hentries ▸ editSpec_drop hA.sorted)
        (by rw [hentries, Call.key, findEntry_dropEntry hA.sorted]; rfl)
      simpa [Call.atLeaf, Call.answer, hflag] using hserves

/-- A leaf that does not cover the key notices it. -/
theorem not_rangeValid (h : image.WellFormed root F) {n : TreeNode}
    (hn : F a = some n) (hleaf : n.isLeaf = true) {k : Key}
    (hk : ¬ n.Covers k) : BTreeLeaf.rangeValid (image a) k = false := by
  have hp := h.holds hn
  cases n with
  | inner => cases hleaf
  | leaf lo hi entries next =>
      obtain ⟨_, rfl, rfl, _⟩ := hp
      rw [BTreeLeaf.rangeValid, decide_eq_false_iff_not]
      exact hk

/-- A call that starts at a page of the tree returns, and is served or turned
down. -/
theorem Call.run_serves (h : image.WellFormed root F) (hm : Represents F m)
    {n : TreeNode} (hn : F start = some n) (call : Call) :
    ∃ done, Returns (fun fuel => call.run start image fuel) done ∧
      Serves root F m start call done := by
  obtain ⟨stop, hstop, hrun⟩ := descend_ends h hn call.key
  have hreturns := call.returns_finish
    ⟨n.level + 1, fun fuel hfuel => hrun fuel hfuel⟩
  refine ⟨_, hreturns, ?_⟩
  cases hstop with
  | offNode hoff hunder =>
      refine ⟨F, m, ?_, h, hm⟩
      cases call <;> exact .offNode hoff hunder
  | leaf hnode hleafNode hleaf hcovers =>
      rename_i b n'
      simp only [Call.finish, image.dsm_offset hnode]
      by_cases hk : n'.Covers call.key
      · have hA := Btree.atLeaf h hm hnode hleafNode hleaf hk
        rw [if_pos hA.rangeValid]
        exact hA.atLeaf_serves h hm (hcovers.mp hk)
      · rw [if_neg (by simp [not_rangeValid h hleafNode hleaf hk])]
        refine ⟨F, m, ?_, h, hm⟩
        have hnot : ¬ CoversAt F start call.key := fun hc => hk (hcovers.mpr hc)
        cases call <;> exact .wrongLeaf hnot

/-! ## Runs of calls -/

theorem CallStep.sameFrames {answer : Answer} {F' : TreeForest}
    {m' : KeyMap} (h : CallStep F m start call answer F' m') :
    SameFrames F F' := by
  cases h with
  | offNode => exact fun _ => rfl
  | wrongLeaf => exact fun _ => rfl
  | fullLeaf => exact fun _ => rfl
  | answered _ hsame => exact hsame

/-- Two runs that end, one after the other. -/
theorem Returns.then {α β : Type} {run : ℕ → Option α} {x : α}
    {rest : ℕ → α → Option β} {r : β} (h : Returns run x)
    (hrest : Returns (fun fuel => rest fuel x) r) :
    Returns (fun fuel => run fuel >>= rest fuel) r := by
  obtain ⟨n, hn⟩ := h
  obtain ⟨n', hn'⟩ := hrest
  refine ⟨max n n', fun fuel hfuel => ?_⟩
  change run fuel >>= rest fuel = some r
  rw [hn fuel ((le_max_left n n').trans hfuel)]
  exact hn' fuel ((le_max_right n n').trans hfuel)

/-- Calls that start at pages of the tree return in any order, and leave a
tree that stores the map they have made. -/
theorem runCalls_serves (h : image.WellFormed root F) (hm : Represents F m)
    (calls : List (GlobalAddress × Call))
    (hstarts : ∀ call ∈ calls, (F call.1).isSome) :
    ∃ answers image' F' m',
      Returns (fun fuel => runCalls fuel calls image) (answers, image') ∧
        Served F m calls answers F' m' ∧ image'.WellFormed root F' ∧
          Represents F' m' := by
  induction calls generalizing image F m with
  | nil => exact ⟨[], image, F, m, ⟨0, fun _ _ => rfl⟩, .nil, h, hm⟩
  | cons first calls ih =>
      obtain ⟨start, call⟩ := first
      obtain ⟨n, hn⟩ :=
        Option.isSome_iff_exists.mp (hstarts _ (List.mem_cons_self ..))
      obtain ⟨⟨answer, image₁⟩, hreturns, F₁, m₁, hstep, hF₁, hm₁⟩ :=
        Call.run_serves h hm hn call
      have hstarts' : ∀ call ∈ calls, (F₁ call.1).isSome := by
        intro call' hcall'
        rw [hstep.sameFrames.isSome]
        exact hstarts _ (List.mem_cons_of_mem _ hcall')
      obtain ⟨answers, image', F', m', hrest, hserved, hF', hm'⟩ :=
        ih hF₁ hm₁ hstarts'
      refine ⟨answer :: answers, image', F', m', ?_, .cons hstep hserved, hF',
        hm'⟩
      exact hreturns.then (hrest.bind rfl)

end Calls

/-- The answers of calls, as the tree before them decides.  A call is turned
down with 0 where its way leads to a page of another node, a lookup with the
address to go on from; with -1 where its start does not cover its key, and
insertions where the leaf is full.  The others answer as the map. -/
def Decided (F : TreeForest) : KeyMap → List (GlobalAddress × Call) →
    List Answer → KeyMap → Prop
  | m, [], [], m' => m' = m
  | m, (start, call) :: calls, answer :: answers, m' =>
      (answer.1 = 0 ∧ Decided F m calls answers m' ∧
          ∃ c, c.nodeID ≠ start.nodeID ∧ Under F c start call.key ∧
            answer.2.2 = call.back start c) ∨
        (answer.1 = -1 ∧ Decided F m calls answers m' ∧
          (¬ CoversAt F start call.key ∨ call.isInsert = true)) ∨
        ((answer.1, answer.2.1) = (call.answer m).1 ∧
          Decided F (call.answer m).2 calls answers m' ∧
            CoversAt F start call.key)
  | _, _, _, _ => False

section Runs

variable {F F' : TreeForest} {m m' : KeyMap}
  {calls : List (GlobalAddress × Call)} {answers : List Answer}

theorem Served.sameFrames (h : Served F m calls answers F' m') :
    SameFrames F F' := by
  induction h with
  | nil => exact fun _ => rfl
  | cons hstep _ ih => exact fun a => (ih a).trans (hstep.sameFrames a)

/-- No call moves a limit, so the tree before the first one decides. -/
theorem Served.decided {F₀ : TreeForest} (h : Served F m calls answers F' m')
    (hsame : SameFrames F F₀) : Decided F₀ m calls answers m' := by
  induction h with
  | nil => rfl
  | cons hstep _ ih =>
      have hrest := ih fun a => (hsame a).trans (hstep.sameFrames a).symm
      cases hstep with
      | offNode hoff hunder =>
          exact Or.inl ⟨rfl, hrest, _, hoff, hsame.under hunder, rfl⟩
      | wrongLeaf hnot =>
          have hnot' := fun hk => hnot (hsame.symm.covers hk)
          exact Or.inr (Or.inl ⟨rfl, hrest, Or.inl hnot'⟩)
      | fullLeaf _ hinsert _ =>
          exact Or.inr (Or.inl ⟨rfl, hrest, Or.inr hinsert⟩)
      | answered hcovers _ =>
          exact Or.inr (Or.inr ⟨rfl, hrest, hsame.covers hcovers⟩)

end Runs

/-- Calls that start at pages of the tree, in any order and at any memory
nodes, return as the tree before them decides, keep its levels and limits,
and leave a tree that stores the map they have made. -/
theorem runCalls_decided {image : DsmImage} {root : GlobalAddress}
    {F : TreeForest} {m : KeyMap} (h : image.WellFormed root F)
    (hm : Represents F m) (calls : List (GlobalAddress × Call))
    (hstarts : ∀ call ∈ calls, (F call.1).isSome) :
    ∃ answers image' F' m',
      Returns (fun fuel => runCalls fuel calls image) (answers, image') ∧
        Decided F m calls answers m' ∧ SameFrames F F' ∧
          image'.WellFormed root F' ∧ Represents F' m' := by
  obtain ⟨answers, image', F', m', hreturns, hserved, hF', hm'⟩ :=
    runCalls_serves h hm calls hstarts
  exact ⟨answers, image', F', m', hreturns, hserved.decided fun _ => rfl,
    hserved.sameFrames, hF', hm'⟩

/-- Calls at the root that stay on its node and that leave it, calls at the leaf
on the other node, and one at a leaf that does not hold its key. -/
def forkCalls : List (GlobalAddress × Call) :=
  [(.make 0 2048, .insert 2 9), (.make 0 2048, .lookup 5 0 .null),
    (.make 1 1024, .lookup 5 0 .null), (.make 1 1024, .remove 6),
    (.make 0 1024, .update 5 1), (.make 0 2048, .lookup 2 0 .null)]

theorem runCalls_decided_fork :
    ∃ answers image' F' m',
      Returns (fun fuel => runCalls fuel forkCalls forkImage)
          (answers, image') ∧
        Decided forkForest (countingMap 6) forkCalls answers m' ∧
          SameFrames forkForest F' ∧
            image'.WellFormed (.make 0 2048) F' ∧ Represents F' m' :=
  runCalls_decided forkImage_wellFormed forkForest_represents forkCalls
    (by decide +kernel)

/-! ## Calls at the root of a flushed tree -/

/-- Every call but the insertions turned down answers as the map that the
others have made. -/
def Continues : KeyMap → List Call → List Answer → KeyMap → Prop
  | m, [], [], m' => m' = m
  | m, call :: calls, answer :: answers, m' =>
      (answer.1 = -1 ∧ Continues m calls answers m' ∧ call.isInsert = true) ∨
        ((answer.1, answer.2.1) = (call.answer m).1 ∧
          Continues (call.answer m).2 calls answers m')
  | _, _, _, _ => False

theorem Decided.continues {F : TreeForest} {m m' : KeyMap}
    {root : GlobalAddress} {calls : List Call} {answers : List Answer}
    (h : Decided F m (calls.map (Prod.mk root)) answers m')
    (hcovers : ∀ k, CoversAt F root k)
    (hnode : ∀ a n, F a = some n → a.nodeID = root.nodeID) :
    Continues m calls answers m' := by
  induction calls generalizing m answers with
  | nil =>
      cases answers with
      | nil => exact h
      | cons => exact h.elim
  | cons call calls ih =>
      cases answers with
      | nil => exact h.elim
      | cons answer answers =>
          obtain ⟨_, _, c, hoff, hunder, _⟩ | ⟨hcode, hrest, hwhy⟩ |
            ⟨hcode, hrest, _⟩ := h
          · obtain ⟨_, _, hc, _⟩ := hunder.level
            exact absurd (hnode _ _ hc) hoff
          · have hinsert := hwhy.resolve_left (not_not.mpr (hcovers call.key))
            exact Or.inl ⟨hcode, ih hrest, hinsert⟩
          · exact Or.inr ⟨hcode, ih hrest⟩

end Btree

/-- After a tame run and a flush, calls pushed down to the one node of the
backend answer, in any order, as the map of the run goes on, but for
insertions into full leaves, which change nothing. -/
theorem tameRun_pushdown {c : TreeConfig} {ops : List Op}
    {replies : List Reply} (h : TameRun c ops)
    (hreplies : (freshRun ops c.initial).result = .ok replies)
    (calls : List Btree.Call) :
    let s := (flushAll (freshRun ops c.initial).state).state
    ∃ answers image' m',
      Btree.Returns (fun fuel => Btree.runCalls fuel
        (calls.map (Prod.mk s.root)) fun a => s.backend.store a.offset)
          (answers, image') ∧
        Btree.Continues (mapOf ops) calls answers m' ∧
          DsmImage.Stores image' s.root m' := by
  intro s
  obtain ⟨R, F, htree, hm⟩ := h.treeOf hreplies
  obtain ⟨_, htree', _, hclean⟩ := htree.flushAll_returns
  have hformed := htree'.wellFormed
    fun i hi => hclean i (htree'.ready.mem_iff.mp hi)
  obtain ⟨r, hr, _⟩ := htree'.search.root_node
  have hplaced := htree'.ready.settled.backed
  have hnode : ∀ a n, F a = some n → a.nodeID = s.root.nodeID := by
    intro a n hn
    exact (hplaced.placed hn).nodeID.trans (hplaced.placed hr).nodeID.symm
  obtain ⟨answers, image', F', m', hreturns, hserved, hF', hm'⟩ :=
    Btree.runCalls_serves hformed hm (calls.map (Prod.mk s.root)) (by
      intro call hcall
      obtain ⟨_, _, rfl⟩ := List.mem_map.mp hcall
      exact Option.isSome_iff_exists.mpr ⟨r, hr⟩)
  have hdecided := hserved.decided fun _ => rfl
  refine ⟨answers, image', m', hreturns, hdecided.continues ?_ hnode, F', hF',
    hm'⟩
  intro k
  obtain ⟨n, hn, hk⟩ := SearchTree.covers_root htree'.search k
  exact ⟨n, hn, hk⟩

/-- Calls to leaves on both ends of the tree. -/
def pushedCalls : List Btree.Call :=
  [.insert 200 9, .lookup 200 0 .null, .update 2 4, .remove 60,
    .lookup 60 0 .null]

theorem tameRun_pushdown_mixed :
    let s := (flushAll (freshRun mixedRun threeSlots.initial).state).state
    ∃ answers image' m',
      Btree.Returns (fun fuel => Btree.runCalls fuel
        (pushedCalls.map (Prod.mk s.root)) fun a => s.backend.store a.offset)
          (answers, image') ∧
        Btree.Continues (mapOf mixedRun) pushedCalls answers m' ∧
          DsmImage.Stores image' s.root m' := by
  obtain ⟨replies, hreplies⟩ := mixedRun_returns
  exact tameRun_pushdown tameRun_mixed hreplies pushedCalls

end CachingDex
