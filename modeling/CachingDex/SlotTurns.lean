import CachingDex.Lib.History
import CachingDex.Demotion

/-!
# Slots are handed out in turn

A slot that was handed out is handed out again only after it left the cooling
table.  The invariant behind this is `Turning`: the slots that may be handed
out next, those of the free list and those the allocator has not reached, are
home in the history of the pool.

The lemmas follow the programs of the cache manager from the cooling table
to `getEmptyPage`.  Each one moves at most one slot, which the postcondition
`Hands` says to be home and in the hand of the caller.
-/

namespace CachingDex

open Lib Lib.Traced

/-- A slot goes out when it is handed out and comes back when it is evicted
from the cooling table. -/
def slotExchange : Exchange PagePtr Event where
  out := .handedOut
  back := .evicted
  out_injective := fun _ _ h => Event.handedOut.inj h
  back_ne_out := fun _ _ h => Event.noConfusion h

/-- The state with the places of its pool as seen by a manager that has at
least one slot and one bucket: without buckets the index of a key is its
whole hash. -/
def State.spanned (s : State) : State :=
  { s with
    allocator := { s.allocator with pageNum := max 1 s.allocator.pageNum }
    hashTable :=
      { s.hashTable with
        bucketNum :=
          if s.hashTable.bucketNum = 0 then 2 ^ 64
          else s.hashTable.bucketNum } }

theorem Page.not_inUse {p : Page} {x : PosState} (hp : p.posState = x)
    (hhot : x ≠ .hot) (hpin : x ≠ .pin) : ¬ p.InUse := by
  rw [Page.InUse, hp, not_or]
  exact ⟨hhot, hpin⟩

/-- The next slots to hand out are home, and the pages in use are slots that
are neither in the hand nor waiting for the allocator. -/
structure Turning (log : List Event) (H : Set ℕ) (s : State) : Prop where
  pool : ∃ R, Pool H R s.spanned
  head_le : s.allocator.headIdx ≤ s.allocator.pageNum
  inTurn : slotExchange.InTurn log
  listed : ∀ {p}, p ∈ s.localPageSet → slotExchange.Home log p
  fresh : ∀ {i}, s.allocator.headIdx ≤ i →
    slotExchange.Home log (.slot i)
  inUse : ∀ {p}, (s.page p).InUse →
    ∃ i < s.allocator.headIdx, p = .slot i ∧ i ∉ H

/-- No slot, or one that is home and now in the hand. -/
def Hands (H : Set ℕ) : Option PagePtr → List Event → State → Prop
  | none, log, s => Turning log H s
  | some q, log, s => ∃ v, q = .slot v ∧ v ∉ H ∧
      slotExchange.Home log q ∧ Turning log (insert v H) s

/-- Indices were taken, or a page was written back. -/
def Event.Note : Event → Prop
  | .indexed _ => True
  | .written _ => True
  | _ => False

/-- The later history has only taken indices and written pages back. -/
def Noted (log log' : List Event) : Prop :=
  ∃ extra, log' = log ++ extra ∧ ∀ e ∈ extra, e.Note

theorem Noted.refl (log : List Event) : Noted log log :=
  ⟨[], by simp, by simp⟩

theorem Noted.trans {a b c : List Event} (h : Noted a b)
    (h' : Noted b c) : Noted a c := by
  obtain ⟨x, rfl, hx⟩ := h
  obtain ⟨y, rfl, hy⟩ := h'
  refine ⟨x ++ y, by simp, fun e he => ?_⟩
  rcases List.mem_append.mp he with he | he
  · exact hx e he
  · exact hy e he

theorem Noted.mem {a b : List Event} (h : Noted a b) {e : Event}
    (he : e ∈ b) (hne : ¬ e.Note) : e ∈ a := by
  obtain ⟨x, rfl, hx⟩ := h
  rcases List.mem_append.mp he with he | he
  · exact he
  · exact absurd (hx e he) hne

theorem Noted.not_handedOut {x : List Event}
    (hx : ∀ e ∈ x, e.Note) : ∀ e ∈ x, ∀ p, e ≠ slotExchange.out p := by
  intro e he p heq
  have hnote := hx e he
  rw [heq] at hnote
  exact hnote

theorem Noted.home {log log' : List Event} (h : Noted log log')
    {p : PagePtr} (hhome : slotExchange.Home log p) :
    slotExchange.Home log' p := by
  obtain ⟨x, rfl, hx⟩ := h
  exact hhome.append fun e he => Noted.not_handedOut hx e he p

/-- The places of the pool and the states of its pages are the same. -/
structure Undisturbed (s s' : State) : Prop where
  allocator : s'.allocator = s.allocator
  dynamic : s'.dynamic = s.dynamic
  hashTable : s'.hashTable = s.hashTable
  localPageSet : s'.localPageSet = s.localPageSet
  posState : ∀ p, (s'.page p).posState = (s.page p).posState

namespace Undisturbed

variable {s s' s'' : State}

theorem refl (s : State) : Undisturbed s s :=
  ⟨rfl, rfl, rfl, rfl, fun _ => rfl⟩

theorem trans (h : Undisturbed s s') (h' : Undisturbed s' s'') :
    Undisturbed s s'' where
  allocator := h'.allocator.trans h.allocator
  dynamic := h'.dynamic.trans h.dynamic
  hashTable := h'.hashTable.trans h.hashTable
  localPageSet := h'.localPageSet.trans h.localPageSet
  posState p := (h'.posState p).trans (h.posState p)

theorem inUse (h : Undisturbed s s') {p : PagePtr} :
    (s'.page p).InUse ↔ (s.page p).InUse := by
  rw [Page.InUse, Page.InUse, h.posState]

/-- A page keeps its state under a change of other fields. -/
theorem setPage (s : State) {p : PagePtr} {page : Page}
    (h : page.posState = (s.page p).posState) :
    Undisturbed s (s.setPage p page) where
  allocator := rfl
  dynamic := rfl
  hashTable := rfl
  localPageSet := rfl
  posState q := by
    by_cases hq : q = p
    · subst hq
      rw [State.setPage_self, h]
    · rw [State.setPage_of_ne hq]

end Undisturbed

namespace Turning

variable {log : List Event} {H : Set ℕ} {s s' : State}

theorem congr (h : Turning log H s) (hs : Undisturbed s s') :
    Turning log H s' where
  pool := by
    obtain ⟨R, hpool⟩ := h.pool
    refine ⟨R, hpool.congr ?_ hs.dynamic ?_ hs.localPageSet fun i =>
      hs.posState _⟩
    · simp only [State.spanned, hs.allocator]
    · simp only [State.spanned, hs.hashTable]
  head_le := by
    rw [hs.allocator]
    exact h.head_le
  inTurn := h.inTurn
  listed := by
    rw [hs.localPageSet]
    exact h.listed
  fresh := by
    rw [hs.allocator]
    exact h.fresh
  inUse := by
    intro p hp
    rw [hs.inUse] at hp
    rw [hs.allocator]
    exact h.inUse hp

/-- Other events leave the history in turn. -/
theorem emit (h : Turning log H s) {w : Event}
    (hw : ∀ p, w ≠ .handedOut p) : Turning (log ++ [w]) H s where
  pool := h.pool
  head_le := h.head_le
  inTurn := h.inTurn.append_of_ne hw
  listed hp := (h.listed hp).append_of_ne (hw _)
  fresh hi := (h.fresh hi).append_of_ne (hw _)
  inUse := h.inUse

theorem noted {log' : List Event} (h : Turning log H s)
    (hlog : Noted log log') : Turning log' H s where
  pool := h.pool
  head_le := h.head_le
  inTurn := by
    obtain ⟨x, rfl, hx⟩ := hlog
    exact h.inTurn.append (Noted.not_handedOut hx)
  listed hp := hlog.home (h.listed hp)
  fresh hi := hlog.home (h.fresh hi)
  inUse := h.inUse

theorem emit_indexed (h : Turning log H s) (indices : List (ℕ × ℕ)) :
    Turning (log ++ [.indexed indices]) H s :=
  h.noted ⟨_, rfl, by simp [Event.Note]⟩

/-- A slot in the hand is handed out. -/
theorem handOut (h : Turning log H s) {v : ℕ} (hv : v ∈ H)
    (hhome : slotExchange.Home log (.slot v)) :
    Turning (log ++ [.handedOut (.slot v)]) H s := by
  obtain ⟨R, hpool⟩ := h.pool
  refine ⟨⟨R, hpool⟩, h.head_le,
    Exchange.inTurn_append_out.mpr ⟨h.inTurn, hhome⟩, ?_, ?_, h.inUse⟩
  · intro p hp
    refine (h.listed hp).append_out ?_
    rintro rfl
    obtain ⟨i, _, hi, hH, _⟩ := hpool.listed hp
    obtain rfl : v = i := by simpa using hi
    exact hH hv
  · intro i hi
    refine (h.fresh hi).append_out ?_
    intro heq
    obtain rfl : v = i := by simpa using heq
    have hlt : v < s.allocator.headIdx := hpool.hand_lt hv
    omega

/-- A page in use is a resident slot. -/
theorem resident (h : Turning log H s) {p : PagePtr}
    (hp : (s.page p).InUse) :
    ∃ c R, p = .slot c ∧ c ∉ H ∧ c < s.allocator.headIdx ∧
      Pool H R s.spanned ∧ c ∈ R := by
  obtain ⟨c, hc, rfl, hcH⟩ := h.inUse hp
  obtain ⟨R, hpool⟩ := h.pool
  exact ⟨c, R, rfl, hcH, hc, hpool,
    hpool.resident_iff.mpr ⟨hc, hcH, hp⟩⟩

theorem inUse_insert (h : Turning log H s) {v : ℕ}
    (hv : ¬ (s.slotPage v).InUse) {p : PagePtr}
    (hp : (s.page p).InUse) :
    ∃ i < s.allocator.headIdx, p = .slot i ∧ i ∉ insert v H := by
  obtain ⟨i, hi, rfl, hiH⟩ := h.inUse hp
  refine ⟨i, hi, rfl, ?_⟩
  rintro (rfl | hmem)
  · exact hv hp
  · exact hiH hmem

/-- The oldest page of a bucket leaves the cooling table. -/
theorem evict (h : Turning log H s) {j : ℕ}
    (hj : j < s.spanned.hashTable.bucketNum)
    (hb : (s.hashTable.table j).count ≠ 0) :
    ∃ v, (s.hashTable.table j).last = .slot v ∧ v ∉ H ∧
      (s.slotPage v).posState = .cool ∧
      Turning (log ++ [.evicted (.slot v)]) (insert v H)
        (s.setBucket j (s.hashTable.table j).dropLast) := by
  obtain ⟨R, hpool⟩ := h.pool
  obtain ⟨v, hlast, hH, _, hcool, _, hpool'⟩ := hpool.evict hj hb
  have hlog := h.emit (w := .evicted (.slot v)) fun _ => Event.noConfusion
  refine ⟨v, hlast, hH, hcool, ⟨R, hpool'⟩, hlog.head_le, hlog.inTurn, hlog.listed,
    hlog.fresh, ?_⟩
  exact h.inUse_insert (Page.not_inUse hcool (by decide) (by decide))

/-- A page in use enters a bucket with room. -/
theorem frame (h : Turning log H s) {c j : ℕ}
    (hc : (s.slotPage c).InUse)
    (hj : j < s.spanned.hashTable.bucketNum)
    (hroom : (s.hashTable.table j).count < 6) {f : Frame}
    (hf : f.page = .slot c) :
    Turning log H ((s.setBucket j ((s.hashTable.table j).push f)).setPage
      (.slot c) { s.slotPage c with posState := .cool }) := by
  obtain ⟨c', R, hcc, hcH, hlt, hpool, hcR⟩ := h.resident hc
  obtain rfl : c = c' := by simpa using hcc
  have hpool' := (hpool.take hcR).frame (by simp) hj hroom hf
  rw [Set.insert_sdiff_self_of_notMem hcH] at hpool'
  refine ⟨⟨_, hpool'⟩, h.head_le, h.inTurn, h.listed, h.fresh, ?_⟩
  intro p hp
  by_cases heq : p = .slot c
  · subst heq
    rw [State.setPage_self] at hp
    exact absurd hp (Page.not_inUse (x := .cool) rfl (by decide) (by decide))
  · rw [State.setPage_of_ne heq] at hp
    exact h.inUse hp

/-- A slot in the hand goes onto the free list. -/
theorem release (h : Turning log (insert v H) s) (hv : v ∉ H)
    (hhome : slotExchange.Home log (.slot v)) :
    Turning log H
      { s.setPage (.slot v) { s.slotPage v with posState := .local } with
        localPageSet := .slot v :: s.localPageSet } := by
  obtain ⟨R, hpool⟩ := h.pool
  have hpool' := hpool.release (Set.mem_insert v H)
  rw [Set.insert_sdiff_self_of_notMem hv] at hpool'
  refine ⟨⟨R, hpool'⟩, h.head_le, h.inTurn, ?_, h.fresh, ?_⟩
  · intro p hp
    rcases List.mem_cons.mp hp with rfl | hp
    · exact hhome
    · exact h.listed hp
  · intro p hp
    have hp : ((s.setPage (.slot v)
        { s.slotPage v with posState := .local }).page p).InUse := hp
    by_cases heq : p = .slot v
    · subst heq
      rw [State.setPage_self] at hp
      exact absurd hp
        (Page.not_inUse (x := .local) rfl (by decide) (by decide))
    · rw [State.setPage_of_ne heq] at hp
      obtain ⟨i, hi, rfl, hiH⟩ := h.inUse hp
      exact ⟨i, hi, rfl, fun hmem => hiH (Or.inr hmem)⟩

/-- The first slot of the free list is taken. -/
theorem pop (h : Turning log H s) {p : PagePtr} {rest : List PagePtr}
    (hlist : s.localPageSet = p :: rest) :
    Hands H (some p) log { s with localPageSet := rest } := by
  obtain ⟨R, hpool⟩ := h.pool
  obtain ⟨v, rfl, hH, _, _, hpos, hpool'⟩ := hpool.pop hlist
  refine ⟨v, rfl, hH, h.listed (by simp [hlist]), ⟨R, hpool'⟩,
    h.head_le, h.inTurn, ?_, h.fresh, ?_⟩
  · intro q hq
    exact h.listed (by simp [hlist, show q ∈ rest from hq])
  · exact h.inUse_insert (Page.not_inUse hpos (by decide) (by decide))

/-- The allocator hands out its next slot. -/
theorem allocate (h : Turning log H s) {page : PagePtr} {last : Bool}
    {a : CacheAllocator}
    (ha : s.allocator.allocate = (some page, last, a)) :
    Hands H (some page) log
      { s with allocator := a, dynamic := s.dynamic || last } := by
  obtain ⟨R, hpool⟩ := h.pool
  unfold CacheAllocator.allocate at ha
  split at ha
  · simp at ha
  · rename_i hroom
    simp only [Prod.mk.injEq, Option.some.injEq] at ha
    obtain ⟨rfl, rfl, rfl⟩ := ha
    have hstill : s.dynamic = false := by
      rw [Bool.eq_false_iff]
      intro hdyn
      have := hpool.dynamic_iff.mp hdyn
      simp only [State.spanned] at this
      omega
    have hmax : max 1 s.allocator.pageNum = s.allocator.pageNum := by omega
    obtain ⟨hH, _, hpool'⟩ := hpool.allocate (b := s.dynamic ||
        decide (s.allocator.headIdx = s.allocator.pageNum - 1))
      (by simp only [State.spanned]; omega)
      (by
        simp only [hstill, Bool.false_or, decide_eq_true_eq, State.spanned,
          hmax]
        omega)
    refine ⟨s.allocator.headIdx, rfl, hH, h.fresh le_rfl, ⟨R, hpool'⟩,
      Nat.lt_of_not_le hroom, h.inTurn, h.listed, fun hi => h.fresh ((Nat.le_succ _).trans hi), ?_⟩
    intro p hp
    obtain ⟨i, hi, rfl, hiH⟩ := h.inUse hp
    refine ⟨i, Nat.lt_succ_of_lt hi, rfl, ?_⟩
    rintro (rfl | hmem)
    · exact lt_irrefl _ hi
    · exact hiH hmem

/-- The caller writes a page it holds: a slot in the hand or a page in use. -/
theorem write (h : Turning log H s) {c : ℕ}
    (hc : c ∈ H ∨ (s.slotPage c).InUse) (p : Page) :
    ∃ H', Turning log H' (s.setPage (.slot c) p) := by
  have hhand : ∃ R, Pool (insert c H) R s.spanned := by
    rcases hc with hc | hc
    · rw [Set.insert_eq_of_mem hc]
      exact h.pool
    · obtain ⟨c', R, hcc, _, _, hpool, hcR⟩ := h.resident hc
      obtain rfl : c = c' := by simpa using hcc
      exact ⟨_, hpool.take hcR⟩
  obtain ⟨R, hpool⟩ := hhand
  have hother : ∀ {q}, q ≠ .slot c → ((s.setPage (.slot c) p).page q).InUse →
      ∃ i < s.allocator.headIdx, q = .slot i ∧ i ∉ insert c H := by
    intro q hq hin
    rw [State.setPage_of_ne hq] at hin
    obtain ⟨i, hi, rfl, hiH⟩ := h.inUse hin
    refine ⟨i, hi, rfl, ?_⟩
    rintro (rfl | hmem)
    · exact hq rfl
    · exact hiH hmem
  by_cases hp : p.InUse
  · refine ⟨insert c H \ {c}, ⟨_, hpool.place (Set.mem_insert c H) hp⟩,
      h.head_le, h.inTurn, h.listed, h.fresh, ?_⟩
    intro q hin
    by_cases hq : q = .slot c
    · exact ⟨c, hpool.hand_lt (Set.mem_insert c H), hq, by simp⟩
    · obtain ⟨i, hi, rfl, hiH⟩ := hother hq hin
      exact ⟨i, hi, rfl, fun hmem => hiH hmem.1⟩
  · refine ⟨insert c H, ⟨R, hpool.refill (Set.mem_insert c H) p⟩,
      h.head_le, h.inTurn, h.listed, h.fresh, ?_⟩
    intro q hin
    by_cases hq : q = .slot c
    · subst hq
      rw [State.setPage_self] at hin
      exact absurd hin hp
    · exact hother hq hin

end Turning

/-! ## Programs that leave every slot in its place -/

/-- The program leaves all slots in their places and only computes
indices. -/
def Quiet {α : Type} (m : M α) : Prop :=
  ∀ (J : List Event → Prop) (log : List Event) (s : State),
    (∀ log', Noted log log' → J log') →
      Records J log m s fun _ log' s' => Noted log log' ∧ Undisturbed s s'

section Quiet

variable {α β : Type}

theorem quiet_pure (a : α) : Quiet (pure a : M α) :=
  fun _ log s _ => records_pure ⟨.refl log, .refl s⟩

theorem Quiet.bind {m : M α} {f : α → M β} (hm : Quiet m)
    (hf : ∀ a, Quiet (f a)) : Quiet (m >>= f) := by
  intro J log s hJ
  apply Records.bind
  refine (hm J log s hJ).mono ?_
  intro a log' s' hs
  refine (hf a J log' s' fun l hl => hJ l (hs.1.trans hl)).mono ?_
  intro b log'' s'' hs'
  exact ⟨hs.1.trans hs'.1, hs.2.trans hs'.2⟩

theorem quiet_gets (f : State → α) : Quiet (gets f) :=
  fun _ log s _ => records_gets ⟨.refl log, .refl s⟩

theorem quiet_modify {f : State → State} (hf : ∀ s, Undisturbed s (f s)) :
    Quiet (modify f) :=
  fun _ log s _ => records_modify ⟨.refl log, hf s⟩

theorem quiet_emit {w : Event} (hw : w.Note) : Quiet (emit w) :=
  fun _ _ s _ => records_emit ⟨⟨_, rfl, by simpa using hw⟩, .refl s⟩

theorem quiet_indexed (indices : List (ℕ × ℕ)) :
    Quiet (emit (.indexed indices)) :=
  quiet_emit trivial

theorem quiet_modifyPage (p : PagePtr) {f : Page → Page}
    (hf : ∀ page, (f page).posState = page.posState) :
    Quiet (modifyPage p f) :=
  quiet_modify fun s => .setPage s (hf (s.page p))

theorem quiet_halt (e : Halt) : Quiet (halt e : M α) :=
  fun _ log _ hJ => records_halt (hJ log (.refl log))

theorem quiet_check (c : Bool) (e : Halt) : Quiet (check c e) := by
  cases c with
  | true => exact quiet_pure ()
  | false => exact quiet_halt e

theorem quiet_onlyIf (c : Bool) {m : M Unit} (hm : Quiet m) :
    Quiet (onlyIf c m) := by
  cases c with
  | true => exact hm
  | false => exact quiet_pure ()

theorem writeImage_quiet (addr : GlobalAddress) (p : Page) :
    Quiet (writeImage addr p) := by
  unfold writeImage
  split
  · exact quiet_modify fun _ => ⟨rfl, rfl, rfl, rfl, fun _ => rfl⟩
  · exact quiet_halt .hang

theorem remoteWrite_quiet (addr : GlobalAddress) (p : PagePtr) :
    Quiet (remoteWrite addr p) := by
  apply Quiet.bind
  · exact quiet_modifyPage p fun _ => rfl
  · intro _
    apply Quiet.bind (quiet_gets _)
    intro page
    apply Quiet.bind (writeImage_quiet addr page)
    intro _
    exact quiet_emit trivial

theorem removeFromPageTable_quiet (p : PagePtr) :
    Quiet (removeFromPageTable p) := by
  apply Quiet.bind (quiet_gets _)
  intro bucket
  apply Quiet.bind (quiet_indexed _)
  intro _
  exact quiet_modify fun _ => ⟨rfl, rfl, rfl, rfl, fun _ => rfl⟩

theorem upsertPageTable_quiet (key : GlobalAddress) (p : PagePtr) :
    Quiet (upsertPageTable key p) := by
  apply Quiet.bind (quiet_gets _)
  intro bucket
  apply Quiet.bind (quiet_indexed _)
  intro _
  apply Quiet.bind (quiet_gets _)
  intro upserted
  apply Quiet.bind (quiet_gets _)
  intro page
  apply Quiet.bind
  · exact quiet_onlyIf _ (quiet_check _ _)
  · intro _
    exact quiet_modify fun _ => ⟨rfl, rfl, rfl, rfl, fun _ => rfl⟩

end Quiet

/-! ## The programs of the cache manager -/

section Programs

variable {log : List Event} {H : Set ℕ} {s : State}

/-- After a quiet program the slots are as before. -/
theorem Turning.quiet {α : Type} {m : M α} (h : Turning log H s)
    (hm : Quiet m) :
    Records slotExchange.InTurn log m s fun _ log' s' =>
      Turning log' H s' ∧ Undisturbed s s' := by
  refine (hm _ log s fun l hl => (h.noted hl).inTurn).mono ?_
  intro _ log' s' hs
  exact ⟨(h.noted hs.1).congr hs.2, hs.2⟩

/-- The same for a slot in the hand. -/
theorem Hands.quiet {α : Type} {m : M α} {r : Option PagePtr}
    (h : Hands H r log s) (hm : Quiet m) :
    Records slotExchange.InTurn log m s fun _ => Hands H r := by
  cases r with
  | none =>
      have hturning : Turning log H s := h
      refine (hturning.quiet hm).mono ?_
      intro _ _ _ hs
      exact hs.1
  | some q =>
      obtain ⟨v, rfl, hv, hhome, hturning⟩ := h
      refine (hm _ log s fun l hl => (hturning.noted hl).inTurn).mono ?_
      intro _ log' s' hs
      exact ⟨v, rfl, hv, hs.1.home hhome,
        (hturning.noted hs.1).congr hs.2⟩

theorem evictLast_turns (h : Turning log H s) {j : ℕ}
    (hj : j < s.spanned.hashTable.bucketNum) :
    Records slotExchange.InTurn log (evictLast j) s fun r log' s' =>
      Hands H r log' s' ∧ s'.page = s.page ∧
        s'.spanned.hashTable.bucketNum = s.spanned.hashTable.bucketNum ∧
        (s'.hashTable.table j).count < 6 ∧
        ∀ q, r = some q → (s.page q).posState = .cool := by
  unfold evictLast
  apply Records.bind
  apply records_gets
  split
  · rename_i hzero
    apply records_pure
    refine ⟨h, rfl, rfl, by omega, ?_⟩
    intro q hq
    cases hq
  · rename_i hne
    obtain ⟨R, hpool⟩ := h.pool
    have hle : (s.hashTable.table j).count ≤ 6 := hpool.count_le hj
    obtain ⟨v, hlast, hv, hcool, hturning⟩ := h.evict hj hne
    apply Records.bind
    apply records_gets
    apply Records.bind
    apply records_check h.inTurn
    apply Records.bind
    apply records_modify
    apply Records.bind
    rw [hlast]
    apply records_emit
    apply records_pure
    refine ⟨⟨v, rfl, hv, slotExchange.home_append_back _ _, hturning⟩, rfl,
      rfl, ?_, ?_⟩
    · change (Function.update s.hashTable.table j _ j).count < 6
      rw [Function.update_self]
      change _ - 1 < 6
      omega
    · intro q hq
      obtain rfl : PagePtr.slot v = q := by simpa using hq
      exact hcool

/-- The page that `coolDown` is about to mark is framed once it is. -/
theorem bucketInsert_turns (h : Turning log H s) {c j : ℕ}
    (hc : (s.slotPage c).InUse)
    (hj : j < s.spanned.hashTable.bucketNum) {f : Frame}
    (hf : f.page = .slot c) :
    Records slotExchange.InTurn log (bucketInsert j f) s fun r log' s' =>
      Hands H r log' (s'.setPage (.slot c)
        { s'.slotPage c with posState := .cool }) := by
  obtain ⟨c', R, hcc, hcH, hlt, hpool, hcR⟩ := h.resident hc
  obtain rfl : c = c' := by simpa using hcc
  unfold bucketInsert
  apply Records.bind
  apply records_gets
  dsimp only
  by_cases hfull : (s.hashTable.table j).count = 6
  · -- the oldest page leaves
    rw [decide_eq_true hfull, if_pos rfl]
    apply Records.bind
    refine (evictLast_turns h hj).mono ?_
    intro r log' t ht
    obtain ⟨hr, hpages, hbuckets, hroom, _⟩ := ht
    apply Records.bind
    apply records_modify
    apply records_pure
    have hc' : (t.slotPage c).InUse := by
      rw [State.slotPage, hpages]
      exact hc
    cases r with
    | none => exact hr.frame hc' (hbuckets ▸ hj) hroom hf
    | some q =>
        obtain ⟨v, rfl, hv, hhome, hturning⟩ := hr
        exact ⟨v, rfl, hv, hhome,
          hturning.frame hc' (hbuckets ▸ hj) hroom hf⟩
  · rw [decide_eq_false hfull, if_neg (by simp)]
    have hle : (s.hashTable.table j).count ≤ 6 := hpool.count_le hj
    apply Records.bind
    apply records_pure
    apply Records.bind
    apply records_modify
    apply records_pure
    exact h.frame hc hj (lt_of_le_of_ne hle hfull) hf

theorem bucketIdx_lt_spanned (s : State) (key : GlobalAddress) :
    s.hashTable.bucketIdx key < s.spanned.hashTable.bucketNum := by
  simp only [HashTable.bucketIdx, State.spanned]
  split_ifs with hzero
  · rw [hzero, Nat.mod_zero]
    exact UInt64.toNat_lt _
  · exact Nat.mod_lt _ (Nat.pos_of_ne_zero hzero)

theorem hashTableInsert_turns (h : Turning log H s) {c : ℕ}
    (hc : (s.slotPage c).InUse) (key : GlobalAddress) :
    Records slotExchange.InTurn log (hashTableInsert key (.slot c)) s
      fun r => Hands H r := by
  unfold hashTableInsert
  apply Records.bind
  apply records_gets
  apply Records.bind
  refine (h.quiet (quiet_onlyIf _ (remoteWrite_quiet _ _))).mono ?_
  intro _ log' t ht
  obtain ⟨hturning, hsame⟩ := ht
  have hc' : (t.slotPage c).InUse := hsame.inUse.mpr hc
  apply Records.bind
  apply records_gets
  apply Records.bind
  apply records_emit
  apply Records.bind
  have hindexed := hturning.emit_indexed
    [(t.hashTable.bucketIdx key, t.hashTable.bucketNum)]
  refine (bucketInsert_turns hindexed hc' (bucketIdx_lt_spanned t key)
    rfl).mono ?_
  intro r log'' t' hr
  apply Records.bind
  apply records_modify
  cases r with
  | none => exact records_pure hr
  | some victim =>
      apply Records.bind
      refine (hr.quiet (removeFromPageTable_quiet victim)).mono ?_
      intro _ _ _ hr'
      exact records_pure hr'

theorem insertLocalSet_turns {v : ℕ} (h : Turning log (insert v H) s)
    (hv : v ∉ H) (hhome : slotExchange.Home log (.slot v)) :
    Records slotExchange.InTurn log (insertLocalSet (.slot v)) s
      fun _ log' s' => Turning log' H s' := by
  unfold insertLocalSet
  apply Records.bind
  apply records_modify
  apply records_modify
  exact h.release hv hhome

theorem coolDown_turns (h : Turning log H s) {p : PagePtr}
    (hp : (s.page p).InUse) :
    Records slotExchange.InTurn log (coolDown p) s
      fun _ log' s' => Turning log' H s' := by
  obtain ⟨c, _, rfl, _⟩ := h.inUse hp
  unfold coolDown
  apply Records.bind
  apply records_gets
  apply Records.bind
  refine (h.quiet (quiet_onlyIf _ (remoteWrite_quiet _ _))).mono ?_
  intro _ log' t ht
  obtain ⟨hturning, hsame⟩ := ht
  have hc : (t.slotPage c).InUse := hsame.inUse.mpr hp
  apply Records.bind
  refine (hashTableInsert_turns hturning hc _).mono ?_
  intro r log'' t' hr
  cases r with
  | none => exact records_pure hr
  | some q =>
      obtain ⟨v, rfl, hv, hhome, hturning'⟩ := hr
      exact insertLocalSet_turns hturning' hv hhome

/-! ### Sampling -/

/-- The walk down the tagged children ends at a hot page. -/
theorem hot_of_recursiveIterate {fuel : ℕ} {p cur : PagePtr}
    {idx idx' : Option ℕ}
    (h : recursiveIterate s fuel p idx = .found cur idx') :
    (s.page cur).posState = .hot := by
  induction fuel generalizing p idx with
  | zero => simp [recursiveIterate] at h
  | succ fuel ih =>
      unfold recursiveIterate at h
      dsimp only at h
      split at h
      · split at h
        · cases h
        · split at h
          · exact ih h
          · cases h
      · split at h
        · rename_i hhot
          cases h
          exact hhot
        · cases h

theorem demote_turns (h : Turning log H s) (parent : PagePtr) (idx : ℕ)
    {cur : PagePtr} (hcur : (s.page cur).InUse) :
    Records slotExchange.InTurn log (demote parent idx cur) s
      fun _ log' s' => Turning log' H s' := by
  unfold demote
  apply Records.bind
  apply records_gets
  apply Records.bind
  have hunset : ∀ q : Page, (BTreeInner.unsetBitmap (q.setChild idx
      (.remote (s.page cur).remoteAddress)) idx).posState = q.posState :=
    fun _ => rfl
  refine (h.quiet (quiet_modifyPage parent hunset)).mono ?_
  intro _ log' t ht
  apply Records.bind
  have horphan : ∀ p : Page,
      ({ p with parentPtr := none } : Page).posState = p.posState :=
    fun _ => rfl
  refine (ht.1.quiet (quiet_modifyPage cur horphan)).mono ?_
  intro _ log'' t' ht'
  apply coolDown_turns ht'.1
  rw [ht'.2.inUse, ht.2.inUse]
  exact hcur

theorem sampleVictim_turns (h : Turning log H s) {cur : PagePtr}
    (hcur : (s.page cur).InUse) (idx : Option ℕ) :
    Records slotExchange.InTurn log (sampleVictim cur idx) s
      fun _ log' s' => Turning log' H s' := by
  have hemit : ∀ outcome, Turning (log ++ [.sampled cur outcome]) H s :=
    fun _ => h.emit fun _ => Event.noConfusion
  unfold sampleVictim
  apply Records.bind
  apply records_gets
  split
  · apply Records.bind
    apply records_emit
    apply Records.bind
    refine (coolDown_turns (hemit .orphan) hcur).mono ?_
    intro _ _ _ hs
    exact records_pure hs
  · rename_i parent _
    apply Records.bind
    apply records_gets
    split
    · apply Records.bind
      apply records_emit
      exact records_pure (hemit .superRootChild)
    · apply Records.bind
      apply records_check h.inTurn
      split
      · apply Records.bind
        apply records_emit
        apply Records.bind
        apply records_modify
        apply Records.bind
        apply records_modify
        apply records_pure
        have hsame : Undisturbed s
            (s.setPage cur { s.page cur with parentPtr := none }) :=
          .setPage s rfl
        exact (hemit .staleParent).congr
          (hsame.trans ⟨rfl, rfl, rfl, rfl, fun _ => rfl⟩)
      · split
        · apply Records.bind
          apply records_emit
          apply Records.bind
          refine (demote_turns (hemit .demoted) parent _ hcur).mono ?_
          intro _ _ _ hs
          exact records_pure hs
        · apply Records.bind
          apply records_emit
          exact records_halt (hemit .checkFailed).inTurn

theorem sampleRound_turns (h : Turning log H s) :
    Records slotExchange.InTurn log sampleRound s
      fun _ log' s' => Turning log' H s' := by
  unfold sampleRound randomSelect
  apply Records.bind
  apply Records.bind
  apply records_gets
  apply Records.bind
  apply records_emit
  apply Records.bind
  apply records_gets
  apply Records.bind
  apply records_modify
  apply records_pure
  have hrest : Undisturbed s
      { s with selectDraws := fun n => s.selectDraws (n + 1) } :=
    ⟨rfl, rfl, rfl, rfl, fun _ => rfl⟩
  have hdrawn := (h.emit_indexed
    (s.allocator.selectIndices (s.selectDraws 0))).congr hrest
  apply Records.bind
  apply records_gets
  split
  · apply Records.bind
    apply records_gets
    split
    · rename_i hwalk
      exact sampleVictim_turns hdrawn
        (Or.inl (hot_of_recursiveIterate hwalk)) _
    · exact records_pure hdrawn
    · exact records_halt hdrawn.inTurn
    · exact records_halt hdrawn.inTurn
  · exact records_pure hdrawn

theorem samplePage_turns (h : Turning log H s) :
    Records slotExchange.InTurn log samplePage s
      fun _ log' s' => Turning log' H s' := by
  unfold samplePage
  generalize 999 = n
  induction n generalizing log s with
  | zero => exact records_halt h.inTurn
  | succ n ih =>
      unfold sampleRounds
      apply Records.bind
      refine (sampleRound_turns h).mono ?_
      intro demoted log' t ht
      cases demoted with
      | true => exact records_pure ht
      | false => exact ih ht

theorem sampleMultiplePages_turns (h : Turning log H s) (n : ℕ) :
    Records slotExchange.InTurn log (sampleMultiplePages n) s
      fun _ log' s' => Turning log' H s' := by
  induction n generalizing log s with
  | zero => exact records_pure h
  | succ n ih =>
      unfold sampleMultiplePages
      apply Records.bind
      refine (samplePage_turns h).mono ?_
      intro _ log' t ht
      exact ih ht

/-! ### Slots for new pages -/

theorem probe_turns (h : Turning log H s) {n j : ℕ}
    (hj : ∀ i < n, j + i < s.spanned.hashTable.bucketNum) :
    Records slotExchange.InTurn log (probe n j) s fun r => Hands H r := by
  induction n generalizing j log s with
  | zero => exact records_pure h
  | succ n ih =>
      unfold probe
      apply Records.bind
      apply records_gets
      apply Records.bind
      apply records_emit
      apply Records.bind
      have hindexed := h.emit_indexed [(j, s.hashTable.bucketNum)]
      refine (evictLast_turns hindexed (hj 0 (Nat.succ_pos n))).mono ?_
      intro r log' t ht
      obtain ⟨hr, _, hbuckets, _⟩ := ht
      cases r with
      | none =>
          apply ih hr
          intro i hi
          have := hj (i + 1) (by omega)
          omega
      | some victim =>
          apply Records.bind
          refine (hr.quiet (removeFromPageTable_quiet victim)).mono ?_
          intro _ _ _ hr'
          exact records_pure hr'

theorem randomEvictToRemote_turns (h : Turning log H s) (n : ℕ) :
    Records slotExchange.InTurn log (randomEvictToRemote n) s
      fun r => Hands H r := by
  have hrest : Undisturbed s
      { s with bucketDraws := fun n => s.bucketDraws (n + 1) } :=
    ⟨rfl, rfl, rfl, rfl, fun _ => rfl⟩
  have hdrawn := (h.emit_indexed
    [(s.bucketDraws 0 % s.hashTable.bucketNum,
      s.hashTable.bucketNum)]).congr hrest
  unfold randomEvictToRemote randomBucketIdx
  apply Records.bind
  apply Records.bind
  apply records_gets
  apply Records.bind
  apply records_emit
  apply Records.bind
  apply records_modify
  apply Records.bind
  apply records_check hdrawn.inTurn
  apply records_pure
  apply Records.bind
  apply records_gets
  refine probe_turns hdrawn ?_
  simp only [State.spanned]
  split_ifs with hzero
  · simp [hzero]
  · intro i hi
    omega

theorem getLocalPageSet_turns (h : Turning log H s) :
    Records slotExchange.InTurn log getLocalPageSet s fun r => Hands H r := by
  unfold getLocalPageSet
  apply Records.bind
  apply records_gets
  cases hlist : s.localPageSet with
  | nil => exact records_pure h
  | cons p rest =>
      apply Records.bind
      apply records_modify
      exact records_pure (h.pop hlist)

theorem recyclePage_turns (h : Turning log H s) :
    Records slotExchange.InTurn log recyclePage s fun r => Hands H r := by
  unfold recyclePage
  apply Records.bind
  refine (getLocalPageSet_turns h).mono ?_
  intro r log' t hr
  cases r with
  | some page => exact records_pure hr
  | none =>
      apply Records.bind
      have hturning : Turning log' H t := hr
      refine (randomEvictToRemote_turns hturning _).mono ?_
      intro r' log'' t' hr'
      cases r' with
      | some page => exact records_pure hr'
      | none =>
          apply Records.bind
          have hturning' : Turning log'' H t' := hr'
          refine (sampleMultiplePages_turns hturning' _).mono ?_
          intro _ _ _ hs
          exact getLocalPageSet_turns hs

theorem allocatePage_turns (h : Turning log H s) :
    Records slotExchange.InTurn log allocatePage s fun r => Hands H r := by
  unfold allocatePage
  apply Records.bind
  apply records_gets
  apply Records.bind
  apply records_gets
  rcases hallocate : s.allocator.allocate with ⟨page, last, a⟩
  apply Records.bind
  apply records_modify
  cases page with
  | none => exact records_halt h.inTurn
  | some page =>
      apply Records.bind
      apply records_emit
      exact records_pure ((h.emit_indexed _).allocate hallocate)

theorem tryGetEmptyPage_turns (h : Turning log H s) :
    Records slotExchange.InTurn log tryGetEmptyPage s fun r => Hands H r := by
  unfold tryGetEmptyPage
  apply Records.bind
  apply records_gets
  split
  · apply Records.bind
    apply records_emit
    exact recyclePage_turns (h.emit fun _ => Event.noConfusion)
  · exact allocatePage_turns h

/-- The slot handed out is in the hand of the caller. -/
theorem getEmptyPage_turns (h : Turning log H s) :
    Records slotExchange.InTurn log getEmptyPage s fun p log' s' =>
      ∃ v, p = .slot v ∧ v ∉ H ∧ Turning log' (insert v H) s' := by
  unfold getEmptyPage
  apply Records.bind
  apply records_gets
  generalize s.allocator.pageNum + 1 = n
  induction n generalizing log s with
  | zero => exact records_halt h.inTurn
  | succ n ih =>
      unfold getEmptyPageLoop
      apply Records.bind
      refine (tryGetEmptyPage_turns h).mono ?_
      intro r log' t hr
      cases r with
      | none => exact ih hr
      | some page =>
          obtain ⟨v, rfl, hv, hhome, hturning⟩ := hr
          apply Records.bind
          apply records_emit
          apply records_pure
          exact ⟨v, rfl, hv, hturning.handOut (Set.mem_insert v H) hhome⟩

end Programs

end CachingDex
