import CachingDex.Admission
import CachingDex.Sampling

/-!
# A cache in which everything agrees

The search for a slot may demote pages and evict cooling ones, while the page
table holds the marker of the load it is for.  `Interlinked` is what it asks
of the pages: bitmaps tell the tagged words, a tagged word and the page it
names agree about parent, level and limits, and cooling pages are clean.
`Agreement` adds the places of the slots.  Nothing is asked of what the pages
mean, nor of a slot in transit: one that a caller was given and has not put
to use, such as that of an earlier load.

The other groups compare a state of the search with the one it started in:
the slots in transit (`Held`), the pages and the image being loaded
(`Content`), the slots that were not in use (`Places`), and the entries of the
page table (`Entries`).  Each step of the search has one lemma for each group.
-/

namespace CachingDex

open Lib Lib.Traced

/-- The tagged word `k` of slot `i` and the page in slot `j` that it names
agree. -/
structure Agrees (s : State) (i k j : ℕ) : Prop where
  parentPtr : (s.slotPage j).parentPtr = some (.slot i)
  level : (s.slotPage j).level.toNat + 1 = (s.slotPage i).level.toNat
  limits : newCheckLimitMatch (s.slotPage i) (s.slotPage j) k = true
  lower : (s.slotPage i).minLimit ≤ (s.slotPage j).minLimit
  upper : (s.slotPage j).maxLimit ≤ (s.slotPage i).maxLimit

/-- The pages in use, those in the slots of `R`, agree, and cooling pages are
clean. -/
structure Interlinked (R : Set ℕ) (s : State) : Prop where
  super_level : (s.page .superRoot).level = 255
  formed : ∀ {i}, i ∈ R → (s.slotPage i).Formed
  tagged : ∀ {i k q}, i ∈ R → (s.slotPage i).Tags k q →
    ∃ j ∈ R, q = .slot j ∧ Agrees s i k j
  tagged_once : ∀ {i k k' q}, i ∈ R → (s.slotPage i).Tags k q →
    (s.slotPage i).Tags k' q → k = k'
  parented : ∀ {j}, j ∈ R → (s.slotPage j).parentPtr = none ∨
    (s.slotPage j).parentPtr = some .superRoot ∨
      ∃ i ∈ R, (s.slotPage j).parentPtr = some (.slot i) ∧
        ∃ k, (s.slotPage i).Tags k (.slot j)
  clean : ∀ {i}, s.Cooling i → (s.slotPage i).dirty = false

/-- The slots of the pool are accounted for as well: those in `R` are in use,
and those in `H` are in the hand of the search or in transit. -/
structure Agreement (H R : Set ℕ) (s : State) : Prop extends
    Interlinked R s where
  pool : Pool H R s
  table : s.pageTable.Inv
  fresh : ∀ {i}, s.allocator.headIdx ≤ i → (s.slotPage i).posState ≠ .hot

section Steps

variable {H H' R : Set ℕ} {s s' : State} {i j k c v : ℕ}

namespace Agreement

/-- Slots that are not in use change places. -/
theorem move (h : Agreement H R s) (hpool : Pool H' R s')
    (htable : s'.pageTable.Inv)
    (hpage : ∀ i ∈ R, s'.slotPage i = s.slotPage i)
    (hsuper : s'.page .superRoot = s.page .superRoot)
    (hclean : ∀ {i}, s'.Cooling i → (s'.slotPage i).dirty = false)
    (hfresh : ∀ {i}, s'.allocator.headIdx ≤ i →
      (s'.slotPage i).posState ≠ .hot) : Agreement H' R s' where
  pool := hpool
  table := htable
  super_level := hsuper ▸ h.super_level
  formed hi := by
    rw [hpage _ hi]
    exact h.formed hi
  tagged := by
    intro i k q hi hq
    rw [hpage i hi] at hq
    obtain ⟨j, hj, rfl, hagrees⟩ := h.tagged hi hq
    refine ⟨j, hj, rfl, ?_⟩
    constructor
    all_goals simp only [hpage i hi, hpage j hj]
    · exact hagrees.parentPtr
    · exact hagrees.level
    · exact hagrees.limits
    · exact hagrees.lower
    · exact hagrees.upper
  tagged_once := by
    intro i k k' q hi hq hq'
    rw [hpage i hi] at hq hq'
    exact h.tagged_once hi hq hq'
  parented := by
    intro j hj
    rw [hpage j hj]
    rcases h.parented hj with hnone | htop | ⟨i, hi, hparent, k, hk⟩
    · exact Or.inl hnone
    · exact Or.inr (Or.inl htop)
    · refine Or.inr (Or.inr ⟨i, hi, hparent, k, ?_⟩)
      rw [hpage i hi]
      exact hk
  clean := hclean
  fresh := hfresh

theorem not_cooling_hand (h : Agreement H R s) (hv : v ∈ H) :
    ¬ s.Cooling v := by
  rintro ⟨j, hj, hmem⟩
  obtain ⟨i, _, hi, hH, _⟩ := h.pool.framed hj hmem
  obtain rfl : v = i := by simpa using hi
  exact hH hv

/-- A tagged child is found under its one slot number. -/
theorem findIdx (h : Agreement H R s) (hi : i ∈ R)
    (htag : (s.slotPage i).Tags k (.slot j)) :
    BTreeInner.findIdx (s.slotPage i) (.swizzled (.slot j)) = some k := by
  obtain ⟨htype, hk, hchild⟩ := Page.le_count_of_slot htag
  obtain ⟨k', hk'⟩ := BTreeInner.findIdx_isSome hk hchild
  obtain ⟨hle, hchild'⟩ := BTreeInner.findIdx_eq_some hk'
  have htag' : (s.slotPage i).Tags k' (.slot j) := by
    rw [Page.Tags, Page.getElem?_slots (h.formed hi) htype hle, hchild']
  rw [hk', h.tagged_once hi htag' htag]

/-- The check of levels and limits passes for a tagged child. -/
theorem checkParentChildInfo (h : Agreement H R s) (hi : i ∈ R)
    (htag : (s.slotPage i).Tags k (.slot j)) :
    checkParentChildInfo (s.slotPage i) (s.slotPage j) (.slot j) = true := by
  obtain ⟨j', _, heq, hagrees⟩ := h.tagged hi htag
  obtain rfl : j = j' := by simpa using heq
  have hmatch : checkLimitMatch (s.slotPage i) (s.slotPage j)
      (.swizzled (.slot j)) = true := by
    simp only [checkLimitMatch, h.findIdx hi htag]
    exact hagrees.limits
  simp only [CachingDex.checkParentChildInfo, decide_eq_true_eq]
  refine Or.inr ⟨hagrees.level.symm, ?_, Or.inl hmatch⟩
  rintro (hlt | hlt)
  · exact absurd hlt (not_lt.mpr hagrees.lower)
  · exact absurd hlt (not_lt.mpr hagrees.upper)

/-- The slot a word names, and no other, has the page as parent. -/
theorem agrees (h : Agreement H R s) (hi : i ∈ R)
    (htag : (s.slotPage i).Tags k (.slot j)) : j ∈ R ∧ Agrees s i k j := by
  obtain ⟨j', hj', heq, hagrees⟩ := h.tagged hi htag
  obtain rfl : j = j' := by simpa using heq
  exact ⟨hj', hagrees⟩

/-- A page that no word names, and that names none, is taken out of use. -/
theorem take (h : Agreement H R s) (hc : c ∈ R)
    (horphan : (s.slotPage c).parentPtr = none)
    (hzero : (s.slotPage c).bitmap = 0) :
    Agreement (insert c H) (R \ {c}) s where
  pool := h.pool.take hc
  table := h.table
  super_level := h.super_level
  formed hi := h.formed hi.1
  tagged := by
    intro i k q hi hq
    obtain ⟨j, hj, rfl, hagrees⟩ := h.tagged hi.1 hq
    refine ⟨j, ⟨hj, ?_⟩, rfl, hagrees⟩
    rintro rfl
    have hparent := hagrees.parentPtr
    rw [horphan] at hparent
    cases hparent
  tagged_once hi := h.tagged_once hi.1
  parented := by
    intro j hj
    rcases h.parented hj.1 with hnone | htop | ⟨i, hi, hparent, k, hk⟩
    · exact Or.inl hnone
    · exact Or.inr (Or.inl htop)
    · refine Or.inr (Or.inr ⟨i, ⟨hi, ?_⟩, hparent, k, hk⟩)
      rintro rfl
      exact (h.formed hi).not_tags hzero hk
  clean := h.clean
  fresh := h.fresh

/-- A page in the hand is written back. -/
theorem writeBack (h : Agreement H R s) (hc : c ∈ H) :
    Agreement H R (s.writeBack c) := by
  have hcR : c ∉ R := fun hR => (h.pool.resident_iff.mp hR).2.1 hc
  have hother : ∀ {i}, i ≠ c → (s.writeBack c).slotPage i = s.slotPage i :=
    fun hi => State.page_writeBack_of_ne (by simpa using hi)
  have hself := State.slotPage_writeBack s c
  obtain ⟨hallocator, hdynamic, hhash, hlocal, htable⟩ := s.rest_writeBack c
  have hcooling : ∀ i, (s.writeBack c).Cooling i ↔ s.Cooling i := by
    intro i
    rw [State.Cooling, State.Cooling, hhash]
  have hpos : ∀ i, ((s.writeBack c).slotPage i).posState =
      (s.slotPage i).posState := by
    intro i
    by_cases hi : i = c
    · subst hi
      rw [hself]
    · rw [hother hi]
  refine h.move (h.pool.congr hallocator hdynamic hhash hlocal hpos)
    (htable ▸ h.table) (fun i hi => hother fun heq => hcR (heq ▸ hi))
    (State.page_writeBack_of_ne (by simp)) ?_ ?_
  · intro i hi
    by_cases heq : i = c
    · subst heq
      rw [hself]
    · rw [hother heq]
      exact h.clean ((hcooling i).mp hi)
  · intro i hi
    rw [hallocator] at hi
    rw [hpos]
    exact h.fresh hi

/-- The hand fills its slot. -/
theorem refill (h : Agreement H R s) (hv : v ∈ H) (p : Page) :
    Agreement H R (s.setPage (.slot v) p) := by
  have hother : ∀ {i}, i ≠ v →
      (s.setPage (.slot v) p).slotPage i = s.slotPage i :=
    fun hi => State.setPage_of_ne (by simpa using hi)
  refine h.move (h.pool.refill hv p) h.table (fun i hi => hother ?_)
    (State.setPage_of_ne (by simp)) (fun {i} hi => ?_) (fun {i} hi => ?_)
  · rintro rfl
    exact (h.pool.resident_iff.mp hi).2.1 hv
  · have hne : i ≠ v := by
      rintro rfl
      exact h.not_cooling_hand hv hi
    exact (congrArg Page.dirty (hother hne)).trans (h.clean hi)
  · have hne : i ≠ v := ((h.pool.hand_lt hv).trans_le hi).ne'
    rw [hother hne]
    exact h.fresh hi

/-- A slot in the hand goes onto the free list. -/
theorem release (h : Agreement H R s) (hv : v ∈ H) :
    Agreement (H \ {v}) R
      { s.setPage (.slot v) { s.slotPage v with posState := .local } with
        localPageSet := .slot v :: s.localPageSet } := by
  have hfilled := h.refill hv { s.slotPage v with posState := .local }
  exact hfilled.move (h.pool.release hv) hfilled.table (fun _ _ => rfl) rfl
    hfilled.clean hfilled.fresh

end Agreement

/-- The pages of the slots are the same but for their links. -/
def Relinked (s s' : State) : Prop :=
  ∀ i, ∃ bitmap children parentPtr, s'.slotPage i =
    { s.slotPage i with
      bitmap := bitmap
      children := children
      parentPtr := parentPtr }

theorem relinked_untag (s : State) {j c : ℕ} (hne : j ≠ c) (k : ℕ) :
    Relinked s (s.untag j k c) := by
  intro i
  by_cases hc : i = c
  · subst hc
    exact ⟨_, _, none, State.setPage_self ..⟩
  · by_cases hj : i = j
    · subst hj
      refine ⟨((s.slotPage i).unswizzle k (s.addr c)).bitmap,
        ((s.slotPage i).unswizzle k (s.addr c)).children,
        (s.slotPage i).parentPtr, ?_⟩
      exact (State.setPage_of_ne (by simpa using hc)).trans
        (State.setPage_self ..)
    · refine ⟨_, _, _, (State.setPage_of_ne (by simpa using hc)).trans
        (State.setPage_of_ne (by simpa using hj))⟩

/-- Limits, levels and tags of two pages agree after a relinking that keeps
the parent pointer. -/
theorem Agrees.relinked (h : Agrees s i k j) (hs : Relinked s s')
    (hparent : (s'.slotPage j).parentPtr = (s.slotPage j).parentPtr) :
    Agrees s' i k j := by
  obtain ⟨_, _, _, hi⟩ := hs i
  obtain ⟨_, _, _, hj⟩ := hs j
  refine ⟨hparent.trans h.parentPtr, ?_, ?_, ?_, ?_⟩
  · rw [hi, hj]
    exact h.level
  · rw [hi, hj]
    exact h.limits
  · rw [hi, hj]
    exact h.lower
  · rw [hi, hj]
    exact h.upper

/-- A tagged word becomes an address, and its page an orphan. -/
theorem Agreement.untag (h : Agreement H R s) (hj : j ∈ R)
    (htag : (s.slotPage j).Tags k (.slot c)) :
    Agreement H R (s.untag j k c) ∧
      ((s.untag j k c).slotPage c).parentPtr = none ∧
      ((s.untag j k c).slotPage c).bitmap = (s.slotPage c).bitmap := by
  obtain ⟨hc, hagrees⟩ := h.agrees hj htag
  have hne : j ≠ c := by
    rintro rfl
    have := hagrees.level
    omega
  have hlinked := relinked_untag s hne k
  have hself : (s.untag j k c).slotPage c =
      { s.slotPage c with parentPtr := none } := State.setPage_self ..
  have hparent : (s.untag j k c).slotPage j =
      (s.slotPage j).unswizzle k (s.addr c) :=
    (State.setPage_of_ne (by simpa using hne)).trans (State.setPage_self ..)
  have hother : ∀ {i}, i ≠ j → i ≠ c →
      (s.untag j k c).slotPage i = s.slotPage i := fun hij hic =>
    (State.setPage_of_ne (by simpa using hic)).trans
      (State.setPage_of_ne (by simpa using hij))
  have hsuper : (s.untag j k c).page .superRoot = s.page .superRoot :=
    (State.setPage_of_ne (by simp)).trans (State.setPage_of_ne (by simp))
  have hparentPtr : ∀ {i}, i ≠ c → ((s.untag j k c).slotPage i).parentPtr =
      (s.slotPage i).parentPtr := by
    intro i hi
    by_cases hij : i = j
    · subst hij
      rw [hparent]
      rfl
    · rw [hother hij hi]
  have hpos : ∀ i, ((s.untag j k c).slotPage i).posState =
      (s.slotPage i).posState := by
    intro i
    obtain ⟨_, _, _, hi⟩ := hlinked i
    rw [hi]
  have hof : ∀ {i k' q}, ((s.untag j k c).slotPage i).Tags k' q →
      (s.slotPage i).Tags k' q ∧ (i = j → k' ≠ k) := by
    intro i k' q hq
    by_cases hic : i = c
    · subst hic
      rw [hself] at hq
      exact ⟨hq, fun heq => absurd heq.symm hne⟩
    · by_cases hij : i = j
      · subst hij
        rw [hparent] at hq
        exact ⟨hq.of_unswizzle.2, fun _ => hq.of_unswizzle.1⟩
      · rw [hother hij hic] at hq
        exact ⟨hq, fun heq => absurd heq hij⟩
  refine ⟨⟨?_, h.pool.congr rfl rfl rfl rfl hpos, h.table, fun hi => ?_⟩,
    by rw [hself], by rw [hself]⟩
  rotate_left
  · rw [hpos]
    exact h.fresh hi
  constructor
  · exact hsuper ▸ h.super_level
  · intro i hi
    by_cases hic : i = c
    · subst hic
      have hformed := h.formed hi
      rw [hself]
      exact ⟨hformed.typed, hformed.count_le, hformed.leaf_level,
        hformed.aligned⟩
    · by_cases hij : i = j
      · subst hij
        rw [hparent]
        exact (h.formed hi).unswizzle htag _
      · rw [hother hij hic]
        exact h.formed hi
  · intro i k' q hi hq
    obtain ⟨hbefore, hold⟩ := hof hq
    obtain ⟨m, hm, rfl, hagrees'⟩ := h.tagged hi hbefore
    have hmc : m ≠ c := by
      rintro rfl
      have heq := hagrees'.parentPtr.symm.trans hagrees.parentPtr
      obtain rfl : i = j := by simpa using heq
      exact hold rfl (h.tagged_once hi hbefore htag)
    exact ⟨m, hm, rfl, hagrees'.relinked hlinked (hparentPtr hmc)⟩
  · intro i k₁ k₂ q hi h₁ h₂
    exact h.tagged_once hi (hof h₁).1 (hof h₂).1
  · intro i hi
    by_cases hic : i = c
    · subst hic
      rw [hself]
      exact Or.inl rfl
    rw [hparentPtr hic]
    rcases h.parented hi with hnone | htop | ⟨m, hm, hmp, k', hk'⟩
    · exact Or.inl hnone
    · exact Or.inr (Or.inl htop)
    · refine Or.inr (Or.inr ⟨m, hm, hmp, k', ?_⟩)
      by_cases hmc : m = c
      · subst hmc
        rw [hself]
        exact hk'
      · by_cases hmj : m = j
        · subst hmj
          rw [hparent]
          refine hk'.unswizzle ?_
          rintro rfl
          have heq := hk'.symm.trans htag
          simp only [Option.some.injEq, ChildSlot.swizzled.injEq,
            PagePtr.slot.injEq] at heq
          exact hic heq
        · rw [hother hmj hmc]
          exact hk'
  · intro i hi
    obtain ⟨_, _, _, hpage⟩ := hlinked i
    rw [hpage]
    exact h.clean hi

end Steps

/-! ## Cooling slots -/

section Cooling

variable {H R : Set ℕ} {s : State} {i j c v : ℕ} {f : Frame}

theorem pages_dropLast {b : Bucket} (hb : b.count ≠ 0) (hle : b.count ≤ 6)
    {idx : ℕ} {q : PagePtr} (hq : b.dropLast.pages[idx]? = some q) :
    b.pages[idx]? = some q := by
  rw [Bucket.pages_eq_append hb hle, List.getElem?_append_left]
  · exact hq
  · exact (List.getElem?_eq_some_iff.mp hq).1

theorem cooling_dropLast (hle : (s.hashTable.table j).count ≤ 6)
    (hb : (s.hashTable.table j).count ≠ 0)
    (hv : (s.setBucket j (s.hashTable.table j).dropLast).Cooling v) :
    s.Cooling v := by
  obtain ⟨j', hj', hmem⟩ := hv
  refine ⟨j', hj', ?_⟩
  change _ ∈ (Function.update s.hashTable.table j
    (s.hashTable.table j).dropLast j').pages at hmem
  by_cases heq : j' = j
  · subst heq
    rw [Function.update_self] at hmem
    obtain ⟨idx, hidx⟩ := List.getElem?_of_mem hmem
    exact List.mem_of_getElem? (pages_dropLast hb hle hidx)
  · rw [Function.update_of_ne heq] at hmem
    exact hmem

end Cooling

/-! ## Since the search began -/

/-- An image that a load accepts. -/
structure Loadable (a : GlobalAddress) (p : Page) : Prop where
  remoteAddress : p.remoteAddress = a
  posState : p.posState = .remote
  parentPtr : p.parentPtr = none

/-- Neither the image at `a` nor a page in use with this address is at the
level of `super_root_`. -/
def BelowSuper (a : GlobalAddress) (R : Set ℕ) (s : State) : Prop :=
  (s.image a).level ≠ 255 ∧
    ∀ i ∈ R, s.addr i = a → (s.slotPage i).level ≠ 255

/-- Slots in transit stay in the hand and as they were. -/
structure Held (T H : Set ℕ) (s₀ s : State) : Prop where
  idle : ∀ i ∈ T, (s₀.slotPage i).posState ≠ .hot
  sub : T ⊆ H
  page : ∀ i ∈ T, s.slotPage i = s₀.slotPage i

/-- The pages have kept their addresses and levels, and the image at `a` is
still one to load. -/
structure Content (a : GlobalAddress) (R₀ : Set ℕ) (s₀ s : State) :
    Prop where
  head_le : s₀.allocator.headIdx ≤ s.allocator.headIdx
  address : ∀ q, (s.page q).remoteAddress = (s₀.page q).remoteAddress
  level : ∀ q, (s.page q).level = (s₀.page q).level
  inRange : s.backend.inRange a = true
  image : Loadable a (s.image a)
  imageLevel : BelowSuper a R₀ s₀ → (s.image a).level ≠ 255
  imageKept : (∀ i ∈ R₀, s₀.addr i ≠ a) → s.image a = s₀.image a

/-- Slots that were in use are not handed out: at most `n` of them entered
the cooling table, each at the front of its bucket. -/
structure Places (n : ℕ) (R₀ : Set ℕ) (s₀ s : State) : Prop where
  old : ∀ {j idx v : ℕ}, j < s.hashTable.bucketNum →
    (s.hashTable.table j).pages[idx]? = some (.slot v) → n ≤ idx → v ∉ R₀
  cooled : ∀ {v}, s.Cooling v → s₀.Cooling v ∨ v ∈ R₀
  listed : ∀ {v}, .slot v ∈ s.localPageSet → v ∉ R₀

/-- The address `a` has kept its marker, and other addresses their entries
but for cooling pages that were evicted. -/
structure Entries (a : GlobalAddress) (s₀ s : State) : Prop where
  flag : s.pageTable.get a = some .ioFlag
  others : ∀ b, b ≠ a → s.pageTable.get b = s₀.pageTable.get b ∨
    ∃ v, s₀.Cooling v ∧ ¬ s.Cooling v ∧ s₀.addr v = b ∧
      s₀.pageTable.get b = some (.slot v) ∧ s.pageTable.get b = none

/-- A state of the search for a slot for the page at `a`, begun in `s₀` with
the slots of `R₀` in use and those of `T` in transit, after at most `n`
demotions. -/
structure Making (a : GlobalAddress) (T R₀ : Set ℕ) (s₀ : State) (n : ℕ)
    (H R : Set ℕ) (s : State) : Prop where
  start : Pool T R₀ s₀
  sub : R ⊆ R₀
  held : Held T H s₀ s
  agree : Agreement H R s
  content : Content a R₀ s₀ s
  places : Places n R₀ s₀ s
  entries : Entries a s₀ s

section Groups

variable {a : GlobalAddress} {T R₀ H R : Set ℕ} {s₀ s s' : State}
  {n i j k c v : ℕ} {f : Frame}

theorem Held.move {H' : Set ℕ} (h : Held T H s₀ s) (hsub : T ⊆ H')
    (hpage : ∀ i ∈ T, s'.slotPage i = s.slotPage i) : Held T H' s₀ s' :=
  ⟨h.idle, hsub, fun i hi => (hpage i hi).trans (h.page i hi)⟩

theorem Content.congr (h : Content a R₀ s₀ s)
    (hpage : ∀ q, (s'.page q).remoteAddress = (s.page q).remoteAddress ∧
      (s'.page q).level = (s.page q).level)
    (hbackend : s'.backend = s.backend)
    (hallocator : s'.allocator = s.allocator) : Content a R₀ s₀ s' := by
  have himage : s'.image a = s.image a := by
    rw [State.image, State.image, hbackend]
  constructor
  · rw [hallocator]
    exact h.head_le
  · exact fun q => (hpage q).1.trans (h.address q)
  · exact fun q => (hpage q).2.trans (h.level q)
  · rw [hbackend]
    exact h.inRange
  · rw [himage]
    exact h.image
  · rw [himage]
    exact h.imageLevel
  · rw [himage]
    exact h.imageKept

/-- Writing back a page that was in use: where it carries the address `a`,
its image is one to load. -/
theorem Content.writeBack (h : Content a R₀ s₀ s)
    (halone : ∀ i ∈ R₀, ((s₀.addr i).offset : ℕ) = a.offset → s₀.addr i = a)
    (hc : c ∈ R₀) : Content a R₀ s₀ (s.writeBack c) := by
  obtain ⟨hallocator, _⟩ := s.rest_writeBack c
  have hpages : Content a R₀ s₀ { s with page := (s.writeBack c).page } := by
    refine h.congr (fun q => ?_) rfl rfl
    by_cases hq : q = .slot c
    · subst hq
      dsimp only
      rw [show (s.writeBack c).page (.slot c) = _ from
        State.slotPage_writeBack s c]
      exact ⟨rfl, rfl⟩
    · dsimp only
      rw [State.page_writeBack_of_ne hq]
      exact ⟨rfl, rfl⟩
  have haddr : s.addr c = s₀.addr c := h.address (.slot c)
  have hbackend := State.backend_writeBack s c
  have hrest : ∀ {p : Page}, (s.writeBack c).image a = p →
      (s.writeBack c).backend.inRange a = true → Loadable a p →
      (BelowSuper a R₀ s₀ → p.level ≠ 255) →
      ((∀ i ∈ R₀, s₀.addr i ≠ a) → p = s₀.image a) →
      Content a R₀ s₀ (s.writeBack c) := by
    intro p himage hrange hload hlevel' hkept
    refine ⟨?_, hpages.address, hpages.level, hrange, ?_, ?_, ?_⟩
    · rw [hallocator]
      exact h.head_le
    · rw [himage]
      exact hload
    · rw [himage]
      exact hlevel'
    · rw [himage]
      exact hkept
  by_cases hdirty : (s.slotPage c).dirty = true
  rotate_left
  · rw [if_neg hdirty] at hbackend
    have himage : (s.writeBack c).image a = s.image a := by
      rw [State.image, State.image, hbackend]
    exact hrest himage (hbackend ▸ h.inRange) h.image h.imageLevel h.imageKept
  rw [if_pos hdirty] at hbackend
  have hrange : (s.writeBack c).backend.inRange a = true := by
    rw [hbackend, InMemoryBackend.inRange,
      InMemoryBackend.capacityBytes_write]
    exact h.inRange
  by_cases hsame : ((s.addr c).offset : ℕ) = a.offset
  · have ha : s.addr c = a := by
      rw [haddr] at hsame ⊢
      exact halone c hc hsame
    have himage : (s.writeBack c).image a = (s.slotPage c).toImage := by
      rw [State.image, hbackend, ha]
      exact InMemoryBackend.store_write_self h.inRange
    have hkept : (s.slotPage c).level = (s₀.slotPage c).level :=
      h.level (.slot c)
    refine hrest himage hrange ⟨ha, rfl, rfl⟩ (fun hbelow => ?_)
      fun hnone => absurd (haddr.symm.trans ha) (hnone c hc)
    change (s.slotPage c).level ≠ 255
    rw [hkept]
    exact hbelow.2 c hc (haddr.symm.trans ha)
  · have himage : (s.writeBack c).image a = s.image a := by
      rw [State.image, hbackend, State.image]
      exact InMemoryBackend.store_write_of_ne (Ne.symm hsame)
    exact hrest himage hrange h.image h.imageLevel h.imageKept

theorem Places.congr (h : Places n R₀ s₀ s)
    (hhash : s'.hashTable = s.hashTable)
    (hlocal : s'.localPageSet = s.localPageSet) : Places n R₀ s₀ s' where
  old := by
    rw [hhash]
    exact h.old
  cooled hv := by
    rw [State.Cooling, hhash] at hv
    exact h.cooled hv
  listed := by
    rw [hlocal]
    exact h.listed

theorem Entries.congr (h : Entries a s₀ s)
    (htable : s'.pageTable = s.pageTable)
    (hcooling : ∀ {v}, s₀.Cooling v → s'.Cooling v → s.Cooling v) :
    Entries a s₀ s' where
  flag := by
    rw [htable]
    exact h.flag
  others b hb := by
    rw [htable]
    rcases h.others b hb with hsame | ⟨v, hv, hout, hrest⟩
    · exact Or.inl hsame
    · exact Or.inr ⟨v, hv, fun hin => hout (hcooling hv hin), hrest⟩

namespace Making

/-- Parts of the state that the search does not look at. -/
theorem congr (h : Making a T R₀ s₀ n H R s) (hpage : s'.page = s.page)
    (hallocator : s'.allocator = s.allocator)
    (hdynamic : s'.dynamic = s.dynamic)
    (hhash : s'.hashTable = s.hashTable)
    (hlocal : s'.localPageSet = s.localPageSet)
    (htable : s'.pageTable = s.pageTable)
    (hbackend : s'.backend = s.backend) : Making a T R₀ s₀ n H R s' := by
  have hcooling : ∀ {v}, s'.Cooling v → s.Cooling v := by
    intro v hv
    rwa [State.Cooling, hhash] at hv
  refine ⟨h.start, h.sub, ?_, ?_, ?_, h.places.congr hhash hlocal,
    h.entries.congr htable fun _ => hcooling⟩
  · exact h.held.move h.held.sub fun i _ => by rw [State.slotPage, hpage]
  · refine h.agree.move ?_ (htable ▸ h.agree.table) ?_ ?_ ?_ ?_
    · exact h.agree.pool.congr hallocator hdynamic hhash hlocal
        fun i => by rw [State.slotPage, hpage]
    · exact fun i _ => by rw [State.slotPage, hpage]
    · rw [hpage]
    · intro i hi
      rw [State.slotPage, hpage]
      exact h.agree.clean (hcooling hi)
    · intro i hi
      rw [hallocator] at hi
      rw [State.slotPage, hpage]
      exact h.agree.fresh hi
  · exact h.content.congr (fun q => by rw [hpage]; exact ⟨rfl, rfl⟩) hbackend
      hallocator

theorem not_cooling_of_start (h : Making a T R₀ s₀ n H R s) (hv : v ∈ R₀) :
    ¬ s₀.Cooling v := by
  rintro ⟨j, hj, hmem⟩
  obtain ⟨i, _, hi, _, hcool⟩ := h.start.framed hj hmem
  obtain rfl : v = i := by simpa using hi
  have := (h.start.resident_iff.mp hv).2.2
  simp [Page.InUse, hcool] at this

/-- A slot in use at the start is not in transit. -/
theorem not_transit (h : Making a T R₀ s₀ n H R s) (hv : v ∈ R₀) : v ∉ T :=
  (h.start.resident_iff.mp hv).2.1

/-- The oldest page of a bucket leaves it: it was not in use at the start. -/
theorem evict (h : Making a T R₀ s₀ n H R s)
    (hj : j < s.hashTable.bucketNum) (hn : n < (s.hashTable.table j).count) :
    ∃ v, (s.hashTable.table j).last = .slot v ∧ v ∉ H ∧ v ∉ R₀ ∧
      s₀.Cooling v ∧ (s.slotPage v).dirty = false ∧
      (s.slotPage v).posState = .cool ∧
      Making a T R₀ s₀ n (insert v H) R
        (s.setBucket j (s.hashTable.table j).dropLast) := by
  have hb : (s.hashTable.table j).count ≠ 0 := by omega
  have hle := h.agree.pool.count_le hj
  obtain ⟨v, hlast, hH, hR, hcool, hv, hpool⟩ := h.agree.pool.evict hj hb
  have hpages := Bucket.pages_eq_append hb hle
  have hlength : (s.hashTable.table j).dropLast.pages.length =
      (s.hashTable.table j).count - 1 := by
    rw [Bucket.pages, List.length_map, live, List.length_take,
      Vector.length_toList]
    change min ((s.hashTable.table j).count - 1) 6 = _
    omega
  have hidx : (s.hashTable.table j).pages[(s.hashTable.table j).count - 1]? =
      some (.slot v) := by
    rw [hpages, List.getElem?_append_right (by omega), hlength, hlast]
    simp
  have hcooling : s.Cooling v := ⟨j, hj, List.mem_of_getElem? hidx⟩
  have hR₀ : v ∉ R₀ := h.places.old hj hidx (by omega)
  refine ⟨v, hlast, hH, hR₀, (h.places.cooled hcooling).resolve_right hR₀,
    h.agree.clean hcooling, hcool, h.start, h.sub,
    h.held.move (h.held.sub.trans (Set.subset_insert ..)) fun _ _ => rfl,
    ?_, ?_, ?_, ?_⟩
  · exact h.agree.move hpool h.agree.table (fun _ _ => rfl) rfl
      (fun hi => h.agree.clean (cooling_dropLast hle hb hi)) h.agree.fresh
  · exact h.content.congr (fun _ => ⟨rfl, rfl⟩) rfl rfl
  · constructor
    · intro j' idx v' hj' hq hge
      change (Function.update s.hashTable.table j
        (s.hashTable.table j).dropLast j').pages[idx]? = _ at hq
      by_cases heq : j' = j
      · subst heq
        rw [Function.update_self] at hq
        exact h.places.old hj (pages_dropLast hb hle hq) hge
      · rw [Function.update_of_ne heq] at hq
        exact h.places.old hj' hq hge
    · exact fun hv' => h.places.cooled (cooling_dropLast hle hb hv')
    · exact h.places.listed
  · exact h.entries.congr rfl fun _ hv' => cooling_dropLast hle hb hv'

/-- A slot that the search has in the hand goes onto the free list. -/
theorem release (h : Making a T R₀ s₀ n H R s) (hv : v ∈ H) (hT : v ∉ T)
    (hR₀ : v ∉ R₀) :
    Making a T R₀ s₀ n (H \ {v}) R
      { s.setPage (.slot v) { s.slotPage v with posState := .local } with
        localPageSet := .slot v :: s.localPageSet } := by
  have hfields : ∀ q, ((s.setPage (.slot v)
      { s.slotPage v with posState := .local }).page q).remoteAddress =
        (s.page q).remoteAddress ∧
      ((s.setPage (.slot v)
        { s.slotPage v with posState := .local }).page q).level =
          (s.page q).level := by
    intro q
    by_cases hq : q = .slot v
    · subst hq
      rw [State.setPage_self]
      exact ⟨rfl, rfl⟩
    · rw [State.setPage_of_ne hq]
      exact ⟨rfl, rfl⟩
  have hne : ∀ i ∈ T, i ≠ v := by
    rintro i hi rfl
    exact hT hi
  refine ⟨h.start, h.sub, ?_, h.agree.release hv,
    h.content.congr hfields rfl rfl, ⟨h.places.old, h.places.cooled, ?_⟩,
    h.entries.congr rfl fun _ hv' => hv'⟩
  · exact h.held.move (fun i hi => ⟨h.held.sub hi, hne i hi⟩)
      fun i hi => State.setPage_of_ne (by simpa using hne i hi)
  · intro w hw
    rcases List.mem_cons.mp hw with heq | hw
    · obtain rfl : w = v := by simpa using heq
      exact hR₀
    · exact h.places.listed hw

/-- The first slot of the free list is taken. -/
theorem pop (h : Making a T R₀ s₀ n H R s) {p : PagePtr} {rest : List PagePtr}
    (hlist : s.localPageSet = p :: rest) :
    ∃ v, p = .slot v ∧ v ∉ H ∧ v ∉ R₀ ∧ (s.slotPage v).posState = .local ∧
      Making a T R₀ s₀ n (insert v H) R { s with localPageSet := rest } := by
  obtain ⟨v, rfl, hH, _, _, hlocal, hpool⟩ := h.agree.pool.pop hlist
  have hmem : .slot v ∈ s.localPageSet := by simp [hlist]
  refine ⟨v, rfl, hH, h.places.listed hmem, hlocal, h.start, h.sub,
    h.held.move (h.held.sub.trans (Set.subset_insert ..)) fun _ _ => rfl,
    ?_, ?_,
    ⟨h.places.old, h.places.cooled, fun hw => h.places.listed ?_⟩,
    h.entries.congr rfl fun _ hv' => hv'⟩
  · exact h.agree.move hpool h.agree.table (fun _ _ => rfl) rfl
      h.agree.clean h.agree.fresh
  · exact h.content.congr (fun _ => ⟨rfl, rfl⟩) rfl rfl
  · rw [hlist]
    exact List.mem_cons_of_mem _ hw

/-- A tagged word lets go of its page. -/
theorem untag (h : Making a T R₀ s₀ n H R s) (hj : j ∈ R)
    (htag : (s.slotPage j).Tags k (.slot c)) :
    Making a T R₀ s₀ n H R (s.untag j k c) ∧
      ((s.untag j k c).slotPage c).parentPtr = none ∧
      ((s.untag j k c).slotPage c).bitmap = (s.slotPage c).bitmap := by
  obtain ⟨hagree, horphan, hbits⟩ := h.agree.untag hj htag
  have hne : j ≠ c := by
    rintro rfl
    have := (h.agree.agrees hj htag).2.level
    omega
  have hlinked := relinked_untag s hne k
  have hsuper : (s.untag j k c).page .superRoot = s.page .superRoot :=
    (State.setPage_of_ne (by simp)).trans (State.setPage_of_ne (by simp))
  have hflag : (s.untag j k c).page .ioFlag = s.page .ioFlag :=
    (State.setPage_of_ne (by simp)).trans (State.setPage_of_ne (by simp))
  have hstill : ∀ i ∈ T, (s.untag j k c).slotPage i = s.slotPage i := by
    intro i hi
    have hij : i ≠ j := by
      rintro rfl
      exact h.not_transit (h.sub hj) hi
    have hic : i ≠ c := by
      rintro rfl
      exact h.not_transit (h.sub (h.agree.agrees hj htag).1) hi
    exact (State.setPage_of_ne (by simpa using hic)).trans
      (State.setPage_of_ne (by simpa using hij))
  refine ⟨⟨h.start, h.sub, h.held.move h.held.sub hstill, hagree, ?_,
    h.places.congr rfl rfl, h.entries.congr rfl fun _ hv => hv⟩, horphan,
    hbits⟩
  refine h.content.congr (fun q => ?_) rfl rfl
  cases q with
  | superRoot =>
      rw [hsuper]
      exact ⟨rfl, rfl⟩
  | ioFlag =>
      rw [hflag]
      exact ⟨rfl, rfl⟩
  | slot i =>
      obtain ⟨_, _, _, hi⟩ := hlinked i
      rw [show (s.untag j k c).page (.slot i) = _ from hi]
      exact ⟨rfl, rfl⟩

/-- A slot that was not in use and has been handed out is in the hand, on the
free list, or in the cooling table. -/
theorem accounted (h : Making a T R₀ s₀ n H R s) (hv : v ∉ R₀)
    (hlt : v < s.allocator.headIdx) (hout : ¬ s.Cooling v) :
    v ∈ H ∨ .slot v ∈ s.localPageSet := by
  by_cases hH : v ∈ H
  · exact Or.inl hH
  · rcases h.agree.pool.accounted hlt hH with hR | hlisted | hcool
    · exact absurd (h.sub hR) hv
    · exact Or.inr hlisted
    · exact absurd hcool hout

end Making

end Groups

end CachingDex
