import CachingDex.PoolReset
import CachingDex.SlotSearch

/-!
# Both ends of a load

The search for a slot may give up, and a load that has a slot may find that
the image does not fit.  `LoadEffect` says what both ends have in common: the
entries of other addresses are those of before but for evicted pages, and
every slot that was taken is the loaded slot or free.  A loaded slot is in
transit until the caller links its page, so the state after a load is again
one for a load.
-/

namespace CachingDex

open Lib Lib.Traced

/-- Slot `v` holds the page that was loaded, or is free. -/
def Load.Accounts (load : Load) (s : State) (v : ℕ) : Prop :=
  (load.ret = 0 ∧ load.retPage = some (.slot v)) ∨
    (.slot v ∈ s.localPageSet ∧ (s.slotPage v).posState = .local)

/-- What a load of the page at `a` may do, whether it succeeds or not, where
the slots of `R` are in use and those of `T` in transit. -/
structure LoadEffect (T R : Set ℕ) (a : GlobalAddress) (s : State)
    (load : Load) (s' : State) : Prop where
  others : ∀ b, b ≠ a → s'.pageTable.get b = s.pageTable.get b ∨
    ∃ v, s.Cooling v ∧ ¬ s'.Cooling v ∧ s.addr v = b ∧
      s.pageTable.get b = some (.slot v) ∧ s'.pageTable.get b = none
  evicted : ∀ v, s.Cooling v → ¬ s'.Cooling v → load.Accounts s' v
  listed : ∀ v, .slot v ∈ s.localPageSet → load.Accounts s' v
  allocated : ∀ v, s.allocator.headIdx ≤ v → v < s'.allocator.headIdx →
    load.Accounts s' v
  imageKept : (∀ i ∈ R, s.addr i ≠ a) → s'.image a = s.image a
  transit : ∀ i ∈ T, s'.slotPage i = s.slotPage i

/-- A state in which a page may be loaded. -/
structure Receptive (T R : Set ℕ) (s : State) : Prop extends
    Agreement T R s where
  idle : ∀ i ∈ T, (s.slotPage i).posState ≠ .hot

/-- The slots in transit after the load. -/
def Load.transit (load : Load) (T : Set ℕ) : Set ℕ :=
  { v | load.ret = 0 ∧ load.retPage = some (.slot v) } ∪ T

section Exits

variable {a : GlobalAddress} {T R H : Set ℕ} {s t s' : State} {load : Load}
  {n v : ℕ} {R' : Set ℕ}

/-- The end of a load that accounts for the slots in the hand and on the free
list accounts for all it took. -/
theorem Making.effect (h : Making a T R s n H R' t)
    (hallocator : s'.allocator = t.allocator)
    (hhash : s'.hashTable = t.hashTable)
    (htable : s'.pageTable = t.pageTable) (himage : s'.image a = t.image a)
    (htransit : ∀ i ∈ T, s'.slotPage i = t.slotPage i)
    (hplaced : ∀ v, v ∉ T → v ∈ H ∨ .slot v ∈ t.localPageSet →
      load.Accounts s' v) :
    LoadEffect T R a s load s' := by
  have hcooling : ∀ v, s'.Cooling v ↔ t.Cooling v := by
    intro v
    rw [State.Cooling, State.Cooling, hhash]
  have hstart : ∀ {v}, s.Cooling v → v < s.allocator.headIdx ∧ v ∉ T ∧
      v ∉ R ∧ (s.slotPage v).posState = .cool := by
    intro v hv
    obtain ⟨j, hj, hmem⟩ := hv
    obtain ⟨i, hi, heq, hT, hcool⟩ := h.start.framed hj hmem
    obtain rfl : v = i := by simpa using heq
    exact ⟨hi, hT, fun hR => h.not_cooling_of_start hR ⟨j, hj, hmem⟩, hcool⟩
  constructor
  · intro b hb
    rw [htable]
    rcases h.entries.others b hb with hsame | ⟨v, hv, hout, hrest⟩
    · exact Or.inl hsame
    · exact Or.inr ⟨v, hv, fun hin => hout ((hcooling v).mp hin), hrest⟩
  · intro v hv hout
    obtain ⟨hlt, hT, hR, _⟩ := hstart hv
    exact hplaced v hT (h.accounted hR (hlt.trans_le h.content.head_le)
      fun hin => hout ((hcooling v).mpr hin))
  · intro v hv
    obtain ⟨i, hi, heq, hT, hlocal⟩ := h.start.listed hv
    obtain rfl : v = i := by simpa using heq
    have hR : v ∉ R := by
      intro hmem
      exact h.start.not_listed hmem hv
    refine hplaced v hT (h.accounted hR (hi.trans_le h.content.head_le) ?_)
    intro hin
    rcases h.places.cooled hin with hold | hmem
    · have hcool := (hstart hold).2.2.2
      rw [hlocal] at hcool
      cases hcool
    · exact hR hmem
  · intro v hge hlt
    rw [hallocator] at hlt
    have hR : v ∉ R := by
      intro hmem
      have := (h.start.resident_iff.mp hmem).1
      omega
    have hT : v ∉ T := by
      intro hmem
      have := h.start.hand_lt hmem
      omega
    refine hplaced v hT (h.accounted hR hlt ?_)
    intro hin
    rcases h.places.cooled hin with hold | hmem
    · have := (hstart hold).1
      omega
    · exact hR hmem
  · intro hnone
    rw [himage]
    exact h.content.imageKept hnone
  · exact fun i hi => (htransit i hi).trans (h.held.page i hi)

/-- The entry of the address itself may change. -/
theorem LoadEffect.setTable (h : LoadEffect T R a s load t)
    {pageTable : PageTable}
    (htable : ∀ b, b ≠ a → pageTable.get b = t.pageTable.get b) :
    LoadEffect T R a s load { t with pageTable := pageTable } where
  others b hb := by
    rw [htable b hb]
    exact h.others b hb
  evicted := h.evicted
  listed := h.listed
  allocated := h.allocated
  imageKept := h.imageKept
  transit := h.transit

theorem Receptive.setTable (h : Receptive T R s) {pageTable : PageTable}
    (htable : pageTable.Inv) :
    Receptive T R { s with pageTable := pageTable } :=
  ⟨h.toAgreement.move (h.pool.congr rfl rfl rfl rfl fun _ => rfl) htable
    (fun _ _ => rfl) rfl h.clean h.fresh, h.idle⟩

/-- The image in the slot that was found. -/
def State.fill (t : State) (v : ℕ) (p : Page) : State :=
  ({ t with scratch := p } : State).setPage (.slot v) p

variable {parent : PagePtr}

end Exits

/-! ## A crowded pool -/

/-- Every slot is handed out again, to pages that their callers make hot.  The
last one is an inner page over the page of slot 0. -/
def refill : List PoolCall :=
  (List.range 7).map (fun n =>
    .getEmptyPage (some { loadedPage (n + 7) with posState := .hot })) ++
    [.getEmptyPage (some
      { BTreeInner.construct 1 (loadedPage 14).remoteAddress with
        posState := .hot
        children := Vector.replicate 60
          (.remote (loadedPage 0).remoteAddress) })]

/-- All that is asked of a page without tagged words. -/
def Page.Untagged (p : Page) : Prop :=
  (p.type = .btreeLeaf ∨ p.type = .btreeInner) ∧ p.count.toNat ≤ 59 ∧
    (p.type = .btreeLeaf → p.level = 0) ∧ p.bitmap = 0 ∧
    (∀ c ∈ p.slots, c.isSwizzled = false) ∧
    (p.parentPtr = none ∨ p.parentPtr = some .superRoot)

instance (p : Page) : Decidable p.Untagged := by
  unfold Page.Untagged
  infer_instance

theorem Page.Untagged.not_tags {p : Page} (h : p.Untagged) {k : ℕ}
    {q : PagePtr} : ¬ p.Tags k q := by
  intro htag
  obtain ⟨_, _, _, _, hslots, _⟩ := h
  have hword := hslots _ (List.mem_of_getElem? htag)
  cases hword

theorem Page.Untagged.formed {p : Page} (h : p.Untagged) : p.Formed := by
  obtain ⟨htype, hcount, hleaf, hzero, _⟩ := id h
  refine ⟨htype, hcount, hleaf, fun i => ?_⟩
  rw [hzero]
  constructor
  · intro hbit
    simp at hbit
  · rintro ⟨q, hq⟩
    exact absurd hq h.not_tags

end CachingDex
