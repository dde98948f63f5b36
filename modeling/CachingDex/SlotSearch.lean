import CachingDex.AllocatorCalls
import CachingDex.LoadState

/-!
# The search for a slot under a marker

Each program of the search has one lemma, with the state it leaves given as a
state of the search.  A try demotes two pages at most and a bucket has six
places, so a page that the search demotes is not evicted by it.
-/

namespace CachingDex

open Lib Lib.Traced

section Search

variable {a : GlobalAddress} {T R₀ H R : Set ℕ} {s₀ s : State}
  {n m i j k c v : ℕ} {f : Frame}

/-! ## The cooling table -/

theorem Agreement.descends (h : Agreement H R s) : Descends R s where
  formed := h.formed
  tagged := by
    intro i k q hi htag
    obtain ⟨j, hj, rfl, hagrees⟩ := h.tagged hi htag
    have := hagrees.level
    exact ⟨j, hj, rfl, by omega⟩

end Search

end CachingDex
