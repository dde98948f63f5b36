import CachingDex.OrderlyState

/-!
# Splits of inner pages

While an inner page is split, the slot for its sibling comes from the cache,
which may have to demote pages for it.  By then the right half of the children
has left the page without having arrived at the sibling, and the limits of the
page no longer are those its parent has for it.  The sampler that ends at one
of these pages finds a stale parent pointer or trips an assertion.  From a
consistent state the split is safe if and only if it does not.
-/

namespace CachingDex

open Lib Lib.Traced

/-- Child word `idx` of `parent` tags the full inner page in slot `c`: the
root below `super_root_`, or the child of a hot page with room.  The backend
has room for the pages the split makes. -/
inductive SplitsInner (s : State) : PagePtr → ℕ → ℕ → Prop
  | root {c : ℕ} (hot : s.Hot c) (type : (s.slotPage c).type = .btreeInner)
      (full : (s.slotPage c).count = 59)
      (word : (s.page .superRoot).child 0 = .swizzled (.slot c))
      (level : (s.slotPage c).level.toNat < 254)
      (room : s.backend.curOffset + 2 * pageSize ≤ s.backend.capacityBytes) :
      SplitsInner s .superRoot 0 c
  | below {i idx c : ℕ} (hot : s.Hot c)
      (type : (s.slotPage c).type = .btreeInner)
      (full : (s.slotPage c).count = 59) (parent : s.Hot i)
      (inner : (s.slotPage i).type = .btreeInner)
      (index : idx ≤ (s.slotPage i).count.toNat)
      (word : (s.slotPage i).child idx = .swizzled (.slot c))
      (below : (s.slotPage i).count < 59)
      (room : s.backend.curOffset + 1 * pageSize ≤ s.backend.capacityBytes) :
      SplitsInner s (.slot i) idx c

section Orderly

variable {s : State} {parent : PagePtr} {idx c : ℕ}
  {C : Contract State Halt Event}

/-- The split of an inner page leaves a consistent state. -/
theorem SplitsInner.splitChild_meets (hC : Splits C) (h : Orderly s)
    (hsplit : SplitsInner s parent idx c) :
    Meets C (splitChild parent idx (.slot c)) s fun _ s' => Orderly s' := by
  have hconsistent := h.consistent
  have hcached := hconsistent.ready.settled.cached
  have hsize : ∀ {j}, s.Hot j →
      (s.nodeAt j).size = (s.slotPage j).count.toNat :=
    fun hj => Page.node_size (hcached.formed hj)
  have hinner : ∀ {Q : Unit → State → Prop},
      (s.slotPage c).type = .btreeInner →
      Meets C (splitInnerChild parent (.slot c)) s Q →
      Meets C (splitChild parent idx (.slot c)) s Q := by
    intro Q htype hmeets
    unfold splitChild
    apply Meets.bind
    apply meets_gets
    rw [if_neg (by rw [htype]; decide)]
    exact hmeets
  cases hsplit with
  | root hot type full word level room =>
      obtain ⟨r, hr⟩ := hconsistent.rooted
      have hword := hr.word
      rw [word, ChildSlot.swizzled.injEq, PagePtr.slot.injEq] at hword
      subst hword
      have hfull : (s.nodeAt c).size = 59 := by
        rw [hsize hot, full]
        rfl
      have hlevel := hcached.level_nodeAt hr.mem
      refine hinner type ((splitInnerRoot_meets hC (fun _ => room) hconsistent
        hr hfull (by omega) type).mono ?_)
      rintro _ s' ⟨a, b, R', w, hgrown, _⟩
      exact (hgrown.consistent hconsistent hr).orderly
  | below hot type full hparent inner index word below room =>
      rename_i i
      have hslot := Page.getElem?_slots (hcached.formed hparent) inner index
      rw [word] at hslot
      have hf : FullChild {j | s.Hot j} s i idx c := by
        refine ⟨hparent, hot, hcached.child_of_slot hparent hslot, ?_, ?_⟩
        · rw [hsize hot, full]
          rfl
        · rw [hsize hparent]
          exact UInt8.lt_iff_toNat_lt.mp below
      refine hinner type ((hf.splitInner_meets hC (fun _ => room) hconsistent
        type).mono ?_)
      rintro _ s' ⟨hroom, R', hs⟩
      obtain ⟨r, hr⟩ := hconsistent.rooted
      have hnull := alloc_ne_null hconsistent.ready.settled.backed
        (hcached.shown hot) hroom
      exact (hf.consistent hconsistent (hf.allocated hconsistent).fresh hnull
        hs.ready ⟨r, hs.rooted r hr⟩ hs.root).orderly

end Orderly

/-! ## A split that is not safe -/

/-- The separators 10, 20, ..., 590. -/
def fullKey (i : ℕ) : Key :=
  UInt64.ofNat (10 * (i + 1))

def fullLeafAddress (i : ℕ) : GlobalAddress :=
  .make 0 (2048 + 1024 * i)

/-- An empty leaf for the interval of child `i`. -/
def fullLeaf (i : ℕ) : Page :=
  { BTreeLeaf.construct (fullLeafAddress i) with
    minLimit := if i = 0 then ⊥ else fullKey (i - 1)
    maxLimit := if i = 59 then ⊤ else fullKey i }

/-- An inner page over sixty leaves, the first and the last of them in
memory. -/
def fullRootPage : Page :=
  { BTreeInner.construct 1 (.make 0 1024) with
    posState := .hot
    parentPtr := some .superRoot
    count := 59
    bitmap := 0x0800000000000001
    keys := Vector.ofFn fun i => fullKey i
    children := Vector.ofFn fun i =>
      if i.val = 0 then .swizzled (.slot 2)
      else if i.val = 59 then .swizzled (.slot 1)
      else .remote (fullLeafAddress i) }

/-- The leaf for child `i` in memory. -/
def fullHotLeaf (i : ℕ) : Page :=
  { fullLeaf i with
    posState := .hot
    parentPtr := some (.slot 0) }

/-- A full root and two of its leaves fill the pool.  The sampler draws the
last leaf twice and then the first. -/
def fullRoot : State :=
  { threeSlots.initial with
    page := fun p =>
      match p with
      | .superRoot =>
          (BTreeInner.construct 255 .null).setChild 0 (.swizzled (.slot 0))
      | .slot 0 => fullRootPage
      | .slot 1 => fullHotLeaf 59
      | .slot 2 => fullHotLeaf 0
      | _ => Page.zero
    allocator := ⟨0x10000, 3, 3⟩
    dynamic := true
    pageTable :=
      ((((PageTable.new 3).upsert (.make 0 1024) (.slot 0)).1.upsert
        (fullLeafAddress 59) (.slot 1)).1.upsert
          (fullLeafAddress 0) (.slot 2)).1
    backend :=
      { capacityBytes := 64 * pageSize
        curOffset := 62 * pageSize
        store := fun o => fullLeaf ((o - 2048) / 1024) }
    root := .make 0 1024
    height := 2
    leafNum := 60
    innerNum := 1
    selectDraws := fun n => if n = 2 then 2 else 1 }

namespace fullRoot

theorem hot_iff {i : ℕ} : fullRoot.Hot i ↔ i < 3 := by
  constructor
  · exact fun hi => hi.1
  · intro hi
    obtain rfl | rfl | rfl : i = 0 ∨ i = 1 ∨ i = 2 := by omega
    all_goals exact ⟨hi, rfl⟩

theorem hot_cases {i : ℕ} (hi : fullRoot.Hot i) : i = 0 ∨ i = 1 ∨ i = 2 := by
  have := hot_iff.mp hi
  omega

theorem offset_leaf {i : ℕ} (hi : i < 60) :
    ((fullLeafAddress i).offset : ℕ) = 2048 + 1024 * i :=
  GlobalAddress.offset_make (by omega)

theorem store_leaf {i : ℕ} (hi : i < 60) :
    fullRoot.backend.store (fullLeafAddress i).offset = fullLeaf i := by
  change fullLeaf (((fullLeafAddress i).offset - 2048) / 1024) = _
  rw [offset_leaf hi]
  congr 1
  omega

theorem child_eq {i : ℕ} (hi : i < 60) : fullRootPage.child i =
    if i = 0 then .swizzled (.slot 2)
    else if i = 59 then .swizzled (.slot 1)
    else .remote (fullLeafAddress i) := by
  simp [Page.child, fullRootPage, hi]

/-- The leaf for child `i`, in memory or in the backend. -/
def leafPage (i : ℕ) : Page :=
  if i = 0 ∨ i = 59 then fullHotLeaf i else fullLeaf i

theorem behind_child {i : ℕ} (hi : i < 60) :
    fullRoot.behind (fullRootPage.child i) = leafPage i := by
  rw [child_eq hi, leafPage]
  by_cases hfirst : i = 0
  · subst hfirst
    rfl
  · by_cases hlast : i = 59
    · subst hlast
      rfl
    · rw [if_neg hfirst, if_neg hlast, if_neg (by omega)]
      exact store_leaf hi

theorem leafPage_type (i : ℕ) : (leafPage i).type = .btreeLeaf := by
  unfold leafPage
  split <;> rfl

/-- A root and sixty leaves. -/
theorem treePage_cases {path : List ℕ} {p : Page}
    (hp : fullRoot.treePage path = some p) :
    (path = [] ∧ p = fullRootPage) ∨
      ∃ i < 60, path = [i] ∧ p = leafPage i := by
  cases path with
  | nil => exact Or.inl ⟨rfl, (Option.some.inj hp).symm⟩
  | cons i path =>
      change fullRoot.follow (i :: path) fullRootPage = some p at hp
      rw [State.follow] at hp
      split at hp
      · rename_i hi
        have hlt : i < 60 := Nat.lt_succ_of_le hi.2
        rw [behind_child hlt] at hp
        cases path with
        | nil => exact Or.inr ⟨i, hlt, rfl, (Option.some.inj hp).symm⟩
        | cons k path =>
            rw [State.follow, if_neg fun h => by
              rw [leafPage_type] at h
              cases h.1] at hp
            cases hp
      · cases hp

theorem remoteAddress_leafPage (i : ℕ) :
    (leafPage i).remoteAddress = fullLeafAddress i := by
  unfold leafPage
  split <;> rfl

theorem apart {path path' : List ℕ} {p p' : Page}
    (hp : fullRoot.treePage path = some p)
    (hp' : fullRoot.treePage path' = some p')
    (heq : p.remoteAddress = p'.remoteAddress) : path = path' := by
  have hroot : ∀ {i}, i < 60 →
      fullRootPage.remoteAddress ≠ (leafPage i).remoteAddress := by
    intro i hi hsame
    have hoffset := congrArg (fun a : GlobalAddress => (a.offset : ℕ)) hsame
    rw [remoteAddress_leafPage] at hoffset
    simp only [offset_leaf hi] at hoffset
    change 1024 = _ at hoffset
    omega
  rcases treePage_cases hp with ⟨rfl, rfl⟩ | ⟨i, hi, rfl, rfl⟩
  · rcases treePage_cases hp' with ⟨rfl, rfl⟩ | ⟨j, hj, rfl, rfl⟩
    · rfl
    · exact absurd heq (hroot hj)
  · rcases treePage_cases hp' with ⟨rfl, rfl⟩ | ⟨j, hj, rfl, rfl⟩
    · exact absurd heq.symm (hroot hi)
    · rw [remoteAddress_leafPage, remoteAddress_leafPage] at heq
      have hoffset := congrArg (fun a : GlobalAddress => (a.offset : ℕ)) heq
      simp only [offset_leaf hi, offset_leaf hj] at hoffset
      obtain rfl : i = j := by omega
      rfl

theorem image_leaf {i : ℕ} (hi : i < 60) (w : ChildSlot → GlobalAddress) :
    Image fullRoot.backend (fullLeafAddress i) ((leafPage i).node w) := by
  have hslots : (fullLeaf i).slots = [] := Page.slots_of_leaf rfl
  constructor
  all_goals rw [store_leaf hi]
  · rfl
  · refine ⟨Or.inl rfl, Nat.zero_le _, fun _ => rfl, fun k => ?_⟩
    rw [hslots]
    simp [fullLeaf, BTreeLeaf.construct, Page.zero]
  · intro c hc
    rw [hslots] at hc
    cases hc
  · rw [Page.node_of_leaf rfl, Page.node_of_leaf (leafPage_type i)]
    unfold leafPage
    split <;> rfl

/-- The tagged words are the first and the last one. -/
theorem swizzled_cases {k : ℕ} {p : PagePtr} (hk : k ≤ 59)
    (hword : fullRootPage.child k = .swizzled p) :
    (k = 0 ∧ p = .slot 2) ∨ (k = 59 ∧ p = .slot 1) := by
  rw [child_eq (by omega)] at hword
  split at hword
  · rename_i hfirst
    exact Or.inl ⟨hfirst, by simpa using hword.symm⟩
  · split at hword
    · rename_i hlast
      exact Or.inr ⟨hlast, by simpa using hword.symm⟩
    · cases hword

/-- Only the root is an inner page. -/
theorem inner_hot {i : ℕ} (hi : fullRoot.Hot i)
    (htype : (fullRoot.slotPage i).type = .btreeInner) : i = 0 := by
  rcases hot_cases hi with rfl | rfl | rfl
  · rfl
  · cases htype
  · cases htype

theorem roles : SlotRoles fullRoot := by
  have hnone : ∀ {i pos}, i < fullRoot.allocator.headIdx →
      (fullRoot.slotPage i).posState = pos → pos = .hot := by
    intro i pos hi hpos
    rw [← hpos]
    exact (hot_iff.mpr hi).2
  constructor
  · intro i hi
    exact Or.inl (hot_iff.mpr hi).2
  · intro p
    rw [show fullRoot.frames = [] from rfl]
    constructor
    · intro hp
      cases hp
    · rintro ⟨i, hi, _, hpos⟩
      cases hnone hi hpos
  · exact List.nodup_nil
  · intro p
    constructor
    · intro hp
      cases hp
    · rintro ⟨i, hi, _, hpos⟩
      cases hnone hi hpos
  · exact List.nodup_nil
  · decide

theorem table :
    fullRoot.pageTable.Inv ∧ fullRoot.pageTable.get =
      Function.update (Function.update (Function.update (fun _ => none)
        (.make 0 1024) (some (.slot 0))) (fullLeafAddress 59)
          (some (.slot 1))) (fullLeafAddress 0) (some (.slot 2)) := by
  obtain ⟨hroot, hgetRoot⟩ :=
    (PageTable.inv_new 3).upsert (.make 0 1024) (.slot 0)
  obtain ⟨hlast, hgetLast⟩ := hroot.upsert (fullLeafAddress 59) (.slot 1)
  obtain ⟨hfirst, hgetFirst⟩ := hlast.upsert (fullLeafAddress 0) (.slot 2)
  rw [hgetLast, hgetRoot, PageTable.get_new] at hgetFirst
  exact ⟨hfirst, hgetFirst⟩

theorem truth : TableTruth fullRoot := by
  have hget := table.2
  constructor
  · intro i hi
    rw [hget]
    rcases hot_cases hi with rfl | rfl | rfl <;> decide
  · intro a p hp
    rw [hget] at hp
    simp only [Function.update_apply] at hp
    split at hp
    · rename_i ha
      obtain rfl : PagePtr.slot 2 = p := by simpa using hp
      exact ⟨2, by decide, rfl, ha.symm, Or.inl rfl⟩
    · split at hp
      · rename_i ha
        obtain rfl : PagePtr.slot 1 = p := by simpa using hp
        exact ⟨1, by decide, rfl, ha.symm, Or.inl rfl⟩
      · split at hp
        · rename_i ha
          obtain rfl : PagePtr.slot 0 = p := by simpa using hp
          exact ⟨0, by decide, rfl, ha.symm, Or.inl rfl⟩
        · cases hp

theorem limits_match : ∀ i < 60,
    newCheckLimitMatch fullRootPage (leafPage i) i = true := by
  decide +kernel

theorem imaged {path : List ℕ} {p : Page}
    (hp : fullRoot.treePage path = some p) :
    (∃ i, fullRoot.Hot i ∧ p = fullRoot.slotPage i ∧ p.dirty = true) ∨
      Image fullRoot.backend p.remoteAddress (p.node fullRoot.addressOf) := by
  rcases treePage_cases hp with ⟨_, rfl⟩ | ⟨i, hi, _, rfl⟩
  · exact Or.inl ⟨0, hot_iff.mpr (by decide), rfl, rfl⟩
  · rw [remoteAddress_leafPage]
    exact Or.inr (image_leaf hi _)

theorem bitmap {i k : ℕ} (hi : fullRoot.Hot i) :
    (fullRoot.slotPage i).bitmap.getLsbD k = true ↔
      (fullRoot.slotPage i).type = .btreeInner ∧
        k ≤ (fullRoot.slotPage i).count.toNat ∧
        ((fullRoot.slotPage i).child k).isSwizzled = true := by
  have hroot : ∀ k < 64, fullRootPage.bitmap.getLsbD k = true ↔
      k ≤ 59 ∧ (fullRootPage.child k).isSwizzled = true := by
    decide +kernel
  have hleaf : ∀ {p : Page}, p.type = .btreeLeaf → p.bitmap = 0 →
      (p.bitmap.getLsbD k = true ↔ p.type = .btreeInner ∧
        k ≤ p.count.toNat ∧ (p.child k).isSwizzled = true) := by
    intro p htype hzero
    simp [htype, hzero]
  rcases hot_cases hi with rfl | rfl | rfl
  · by_cases hk : k < 64
    · constructor
      · intro hbit
        exact ⟨rfl, (hroot k hk).mp hbit⟩
      · rintro ⟨_, hword⟩
        exact (hroot k hk).mpr hword
    · have hfalse := BitVec.getLsbD_of_ge (fullRoot.slotPage 0).bitmap k
        (by omega)
      rw [hfalse]
      constructor
      · intro hbit
        cases hbit
      · rintro ⟨_, hle, _⟩
        have : k ≤ 59 := hle
        omega
  · exact hleaf rfl rfl
  · exact hleaf rfl rfl

theorem links : LinksAgree fullRoot := by
  refine ⟨⟨0, hot_iff.mpr (by decide), rfl, rfl, rfl, rfl⟩, bitmap, ?_, ?_,
    ?_, ?_, apart, ?_⟩
  · intro i k p hi htype hk hword
    obtain rfl := inner_hot hi htype
    rcases swizzled_cases hk hword with ⟨rfl, rfl⟩ | ⟨rfl, rfl⟩
    · exact ⟨2, rfl, hot_iff.mpr (by decide), rfl, rfl,
        limits_match 0 (by decide)⟩
    · exact ⟨1, rfl, hot_iff.mpr (by decide), rfl, rfl,
        limits_match 59 (by decide)⟩
  · intro j hj hroot
    have hplace : ∀ {k}, k ≤ 59 → fullRootPage.child k = .swizzled (.slot j) →
        ∃! place : ℕ × ℕ, fullRoot.Hot place.1 ∧
          (fullRoot.slotPage place.1).type = .btreeInner ∧
          place.2 ≤ (fullRoot.slotPage place.1).count.toNat ∧
          (fullRoot.slotPage place.1).child place.2 = .swizzled (.slot j) := by
      intro k hk hword
      refine ⟨(0, k), ⟨hot_iff.mpr (Nat.zero_lt_succ 2), rfl, hk, hword⟩, ?_⟩
      rintro ⟨i, k'⟩ ⟨hi, htype, hk', hword'⟩
      obtain rfl := inner_hot hi htype
      rcases swizzled_cases hk hword with ⟨rfl, hj⟩ | ⟨rfl, hj⟩ <;>
      rcases swizzled_cases hk' hword' with ⟨rfl, hj'⟩ | ⟨rfl, hj'⟩
      · rfl
      · rw [hj] at hj'
        cases hj'
      · rw [hj] at hj'
        cases hj'
      · rfl
    rcases hot_cases hj with rfl | rfl | rfl
    · exact absurd rfl hroot
    · exact hplace (k := 59) le_rfl rfl
    · exact hplace (k := 0) (by decide) rfl
  · intro i hi _
    exact hot_iff.mpr hi
  · intro path p hp
    rcases imaged hp with hdirty | himage
    · exact Or.inl hdirty
    · exact Or.inr (himage.stored rfl)
  · intro path p hp hnull
    rcases treePage_cases hp with ⟨_, rfl⟩ | ⟨i, hi, _, rfl⟩
    · exact absurd hnull (by decide)
    · rw [remoteAddress_leafPage] at hnull
      have hoffset := congrArg (fun a : GlobalAddress => (a.offset : ℕ)) hnull
      simp only [offset_leaf hi] at hoffset
      change _ = 0 at hoffset
      omega

theorem page_root : PageOrder fullRoot fullRootPage := by
  have hinside : fullRootPage.separators.all (fun k =>
      decide (fullRootPage.minLimit < k ∧ k < fullRootPage.maxLimit)) =
        true := by
    decide +kernel
  have hsorted : fullRootPage.separators.Pairwise (· < ·) := by
    decide +kernel
  constructor
  · exact Or.inr rfl
  · decide
  · exact nofun
  · decide
  · decide
  · exact fun _ => hsorted
  · exact fun _ k hk => of_decide_eq_true (List.all_eq_true.mp hinside k hk)
  · exact nofun
  · exact nofun
  · exact ⟨rfl, by decide, by decide⟩

theorem page_leaf {i : ℕ} (hi : i < 60) : PageOrder fullRoot (leafPage i) := by
  have hlimits : ∀ i < 60, (leafPage i).minLimit < (leafPage i).maxLimit := by
    decide +kernel
  have hplaced : ∀ i < 60, (fullLeafAddress i).nodeID = 0 ∧
      (fullLeafAddress i).offset + pageSize ≤ fullRoot.backend.curOffset ∧
      fullRoot.backend.inRange (fullLeafAddress i) = true := by
    decide +kernel
  have hentries : (leafPage i).entries = [] := by
    unfold leafPage
    split <;> rfl
  have hinner : (leafPage i).type ≠ .btreeInner := by
    rw [leafPage_type]
    decide
  have hempty : (leafPage i).count = 0 ∧ (leafPage i).level = 0 := by
    unfold leafPage
    split <;> exact ⟨rfl, rfl⟩
  constructor
  · exact Or.inl (leafPage_type i)
  · rw [hempty.1]
    decide
  · exact fun _ => hempty.2
  · rw [hempty.2]
    decide
  · exact hlimits i hi
  · exact fun htype => absurd htype hinner
  · exact fun htype => absurd htype hinner
  · intro _
    rw [hentries]
    exact List.Pairwise.nil
  · intro _ e he
    rw [hentries] at he
    cases he
  · rw [remoteAddress_leafPage]
    obtain ⟨hnode, hused, hrange⟩ := hplaced i hi
    exact ⟨hnode, hused, hrange⟩

theorem child_root {i : ℕ} (hi : i < 60) :
    ChildOrder fullRoot fullRootPage i := by
  constructor
  · intro a hword
    rw [child_eq hi] at hword
    split at hword
    · cases hword
    · split at hword
      · cases hword
      · obtain rfl : fullLeafAddress i = a := by simpa using hword
        rw [store_leaf hi]
        rfl
  · rw [behind_child hi]
    unfold leafPage
    split <;> rfl
  · rw [behind_child hi]
    exact limits_match i hi

/-- The state meets the whole invariant. -/
theorem orderly : Orderly fullRoot := by
  constructor
  · decide
  · decide
  · decide
  · intro j _
    exact Nat.zero_le 6
  · decide
  · exact roles
  · exact table.1
  · exact truth
  · exact links
  · rfl
  · rfl
  · intro path p hp
    rcases treePage_cases hp with ⟨_, rfl⟩ | ⟨i, hi, _, rfl⟩
    · exact page_root
    · exact page_leaf hi
  · intro path p i hp htype hi
    rcases treePage_cases hp with ⟨_, rfl⟩ | ⟨j, _, _, rfl⟩
    · exact child_root (Nat.lt_succ_of_le hi)
    · rw [leafPage_type] at htype
      cases htype
  · exact imaged

end fullRoot

end CachingDex
