import CachingDex.AllocatorCalls
import CachingDex.Sampling

/-!
# Finding a slot

`getEmptyPage` hands out a slot that no other place of the pool holds.  In
the warm-up phase the allocator has one left; in the dynamic phase every try
without success demotes a page, and the resident pages run out before the
tries do.
-/

namespace CachingDex

open Lib Lib.Traced

/-- A slot was found: it is in the hand of the running operation, nowhere
else, and in no entry of the page table. -/
def Obtains (tidy : Prop) (adrift : GlobalAddress → Prop) (loose : Set ℕ)
    (B : Set PagePtr) (F : TreeForest) (R : Set ℕ) (s : State)
    (q : PagePtr) (s' : State) : Prop :=
  ∃ R' v, q = .slot v ∧ v ∉ R' ∧ Keeps B R R' s s' ∧
    Coherent tidy adrift loose {v} {v} R' s' F ∧
      Window B adrift loose R' s' F

section Programs

variable {tidy : Prop} {adrift : GlobalAddress → Prop} {loose R : Set ℕ}
  {s : State} {F : TreeForest} {B : Set PagePtr} {C : Contract State Halt Event}

/-- A try that may not have found a slot, and then has demoted a page. -/
def Tries (tidy : Prop) (adrift : GlobalAddress → Prop) (loose : Set ℕ)
    (B : Set PagePtr) (F : TreeForest) (R : Set ℕ) (s : State)
    (r : Option PagePtr) (s' : State) : Prop :=
  match r with
  | some q => Obtains tidy adrift loose B F R s q s'
  | none => Shrinks tidy adrift loose B F R s True s'

theorem Obtains.trans {R' : Set ℕ} {s' t : State} {q : PagePtr}
    (h : Obtains tidy adrift loose B F R' s' q t)
    (hkeeps : Keeps B R R' s s') : Obtains tidy adrift loose B F R s q t := by
  obtain ⟨R'', v, hq, hv, hk, hcoh, hw⟩ := h
  exact ⟨R'', v, hq, hv, hkeeps.trans hk, hcoh, hw⟩

/-- A slot from the free list is a slot obtained. -/
theorem getLocalPageSet_obtains
    (h : Coherent tidy adrift loose ∅ ∅ R s F)
    (hwin : Window B adrift loose R s F) :
    Meets C getLocalPageSet s fun r s' =>
      match r with
      | some q => Obtains tidy adrift loose B F R s q s'
      | none => s' = s := by
  refine (getLocalPageSet_meets (B := B) h).mono ?_
  intro r s' hr
  cases r with
  | none => exact hr.1
  | some q =>
      obtain ⟨v, rfl, _, hR, hkeeps, hcoh⟩ := hr
      rw [insert_empty_eq] at hcoh
      exact ⟨R, v, rfl, hR, hkeeps, hcoh, hwin.keeps hkeeps⟩

theorem recyclePage_meets (hC : Tolerates tidy B C)
    (hexit : ∀ s, C.mayHalt .exit0 s)
    (h : Coherent tidy adrift loose ∅ ∅ R s F)
    (hwin : Window B adrift loose R s F) (hdynamic : s.dynamic = true)
    (hpos : 0 < s.allocator.pageNum) :
    Meets C recyclePage s (Tries tidy adrift loose B F R s) := by
  unfold recyclePage
  apply Meets.bind
  refine (getLocalPageSet_obtains h hwin).mono ?_
  intro r s' hr
  cases r with
  | some q => exact meets_pure hr
  | none =>
      obtain rfl : s' = s := hr
      apply Meets.bind
      refine (randomEvictToRemote_meets hC h probingLength).mono ?_
      rintro r t ⟨hkeeps, hr⟩
      cases r with
      | some q =>
          obtain ⟨v, rfl, _, hR, hcoh⟩ := hr
          rw [insert_empty_eq] at hcoh
          exact meets_pure ⟨R, v, rfl, hR, hkeeps, hcoh, hwin.keeps hkeeps⟩
      | none =>
          apply Meets.bind
          refine (sampleMultiplePages_meets hC hexit numPagesToSample hr.1
            (hwin.keeps hkeeps) (hkeeps.steady.dynamic hdynamic)
            (hkeeps.steady.pageNum ▸ hpos)).mono ?_
          rintro _ u ⟨R', hkeeps', hcoh, hw, hstrict⟩
          refine (getLocalPageSet_obtains hcoh hw).mono ?_
          intro r u' hr'
          cases r with
          | some q => exact Obtains.trans hr' (hkeeps.trans hkeeps')
          | none =>
              obtain rfl : u' = u := hr'
              exact ⟨R', hkeeps.trans hkeeps', hcoh, hw,
                fun _ => hstrict (by decide)⟩

/-- In the warm-up phase the allocator has a slot left. -/
theorem allocatePage_meets (hC : Tolerates tidy B C)
    (h : Coherent tidy adrift loose ∅ ∅ R s F)
    (hwin : Window B adrift loose R s F) (hdynamic : s.dynamic = false) :
    Meets C allocatePage s fun r s' =>
      ∃ q, r = some q ∧ Obtains tidy adrift loose B F R s q s' := by
  have hroom : s.allocator.headIdx < s.allocator.pageNum := by
    refine lt_of_le_of_ne h.pool.head_le fun heq => ?_
    rw [h.pool.dynamic_iff.mpr heq] at hdynamic
    cases hdynamic
  have hlast : (s.dynamic ||
      decide (s.allocator.headIdx = s.allocator.pageNum - 1)) = true ↔
        s.allocator.headIdx + 1 = s.allocator.pageNum := by
    rw [hdynamic, Bool.false_or, decide_eq_true_eq]
    omega
  obtain ⟨_, hR, hpool⟩ := h.pool.allocate hroom hlast
  have hkeeps : Keeps B R R s
      { s with
        allocator := { s.allocator with headIdx := s.allocator.headIdx + 1 }
        dynamic := s.dynamic ||
          decide (s.allocator.headIdx = s.allocator.pageNum - 1) } :=
    .of_pages ⟨rfl, rfl, rfl, rfl, rfl, rfl, rfl, by simp_all⟩ rfl
      fun _ _ => rfl
  unfold allocatePage
  apply Meets.bind
  apply meets_gets
  apply Meets.bind
  apply meets_gets
  rw [CacheAllocator.allocate_of_lt hroom]
  apply Meets.bind
  apply meets_modify
  rw [insert_empty_eq] at hpool
  apply Meets.bind
  apply meets_emit_of (hC.indexed _)
  refine meets_pure ⟨_, rfl, R, _, rfl, hR, hkeeps, ⟨hpool, ?_, ?_, ?_⟩,
    hwin.keeps hkeeps⟩
  · exact h.cached.congr (fun _ _ => rfl) rfl
  · exact h.backed.congr rfl rfl (fun _ _ => ⟨rfl, rfl⟩) fun _ hd => hd
  · refine ⟨h.mapped.inv, ?_, h.mapped.mapped⟩
    intro a q hq
    obtain ⟨i, hi, rfl, _, ha, hpos⟩ := h.mapped.maps hq
    exact ⟨i, Nat.lt_succ_of_lt hi, rfl, hi.ne, ha, hpos⟩

theorem tryGetEmptyPage_meets (hC : Tolerates tidy B C)
    (h : Coherent tidy adrift loose ∅ ∅ R s F)
    (hwin : Window B adrift loose R s F)
    (hpos : 0 < s.allocator.pageNum) :
    Meets C tryGetEmptyPage s (Tries tidy adrift loose B F R s) := by
  unfold tryGetEmptyPage
  apply Meets.bind
  apply meets_gets
  apply meets_ite
  · intro hdynamic
    apply Meets.bind
    apply meets_emit
    intro hrely
    exact ⟨hC.recycled,
      recyclePage_meets hC (hC.exit0 hrely) h hwin hdynamic hpos⟩
  · intro hdynamic
    refine (allocatePage_meets hC h hwin (by simpa using hdynamic)).mono ?_
    rintro r s' ⟨q, rfl, hq⟩
    exact hq

theorem getEmptyPageLoop_meets (hC : Tolerates tidy B C) (n : ℕ)
    (h : Coherent tidy adrift loose ∅ ∅ R s F)
    (hwin : Window B adrift loose R s F)
    (hpos : 0 < s.allocator.pageNum) (hn : R.ncard < n) :
    Meets C (getEmptyPageLoop n) s (Obtains tidy adrift loose B F R s) := by
  induction n generalizing R s with
  | zero => omega
  | succ n ih =>
      unfold getEmptyPageLoop
      apply Meets.bind
      refine (tryGetEmptyPage_meets hC h hwin hpos).mono ?_
      intro r s' hr
      cases r with
      | some q =>
          apply Meets.bind
          apply meets_emit
          intro _
          exact ⟨hC.handedOut q, meets_pure hr⟩
      | none =>
          obtain ⟨R', hkeeps, hcoh, hw, hstrict⟩ := hr
          have hlt : R'.ncard < R.ncard :=
            Set.ncard_lt_ncard
              (hkeeps.sub.ssubset_of_ne (hstrict trivial)) h.pool.finite
          refine (ih hcoh hw (hkeeps.steady.pageNum ▸ hpos)
            (by omega)).mono ?_
          intro q t hq
          exact hq.trans hkeeps

/-- A slot is found in every coherent state, unless the sampler gives up. -/
theorem getEmptyPage_meets (hC : Tolerates tidy B C)
    (h : Coherent tidy adrift loose ∅ ∅ R s F)
    (hwin : Window B adrift loose R s F)
    (hpos : 0 < s.allocator.pageNum) :
    Meets C getEmptyPage s (Obtains tidy adrift loose B F R s) := by
  unfold getEmptyPage
  apply Meets.bind
  apply meets_gets
  exact getEmptyPageLoop_meets hC _ h hwin hpos
    (Nat.lt_succ_of_le h.pool.ncard_le)

end Programs

end CachingDex
