import CachingDex.PageTable
import CachingDex.Lib.SlotList

/-!
# The page table is a map

Freed frames keep their key, frames are reused across a chain of overflow
buckets and a bucket is unlinked when its count reaches zero.  The frames of
a chain in order are a row of keyed slots.  A key is put into the first free
frame of the chain, so no frame before the one in use has its key, and a
removal that looks at keys alone finds the frame in use if there is one.

The calls change the map under their key and nothing else, over any hash
function and any number of buckets.  Only the removal by key alone asks more
of its caller: a frame left behind under a key that is not in the table is
found all the same.
-/

namespace CachingDex

open Lib

/-- A frame as a keyed slot. -/
def PageFrame.slot (f : PageFrame) : GlobalAddress × Option PagePtr :=
  (f.pageId, f.bufferPage)

namespace PageTable

/-! ## The frames of a chain -/

def frames (chain : List PageBucket) : List PageFrame :=
  chain.flatMap fun b => b.frames.toList

/-- The chain as a row of keyed slots. -/
def row (chain : List PageBucket) : List (GlobalAddress × Option PagePtr) :=
  (frames chain).map PageFrame.slot

/-- Number of frames in use. -/
def used (b : PageBucket) : ℕ :=
  b.frames.toList.countP fun f => f.bufferPage.isSome

/-- The head bucket is there, a frame in use is the first one with its key,
counts are exact and no overflow bucket is empty. -/
structure ChainInv (chain : List PageBucket) : Prop where
  ne_nil : chain ≠ []
  firstHeld : FirstHeld (row chain)
  count_eq : ∀ b ∈ chain, b.count.toNat = used b
  overflow : ∀ b ∈ chain.tail, b.count ≠ 0

theorem row_append (c d : List PageBucket) : row (c ++ d) = row c ++ row d := by
  simp [row, frames]

theorem row_cons (b : PageBucket) (c : List PageBucket) :
    row (b :: c) = b.frames.toList.map PageFrame.slot ++ row c := by
  simp [row, frames]

/-- `get` reads the row. -/
theorem getChain_eq (chain : List PageBucket) (key : GlobalAddress) :
    getChain chain key = lookup (row chain) key := by
  have hholds : holds key =
      (fun f : GlobalAddress × Option PagePtr => decide (f.1 = key ∧
        f.2.isSome)) ∘ PageFrame.slot := by
    funext f
    simp only [holds, Function.comp, PageFrame.slot, Option.isSome_iff_ne_none]
  rw [lookup, row, List.find?_map, ← hholds, getChain]
  change ((frames chain).find? (holds key)).bind _ =
    (((frames chain).find? (holds key)).map PageFrame.slot).bind _
  cases (frames chain).find? (holds key) <;> rfl

/-! ## Frames found by a search -/

/-- Frame `i` of a bucket is the first of the chain in `p`. -/
structure Found (p : PageFrame → Bool) (front : List PageBucket)
    (b : PageBucket) (i : ℕ) (f : PageFrame) : Prop where
  index : b.frames.toList[i]? = some f
  holds : p f = true
  front_not : ∀ g ∈ frames front, p g = false
  before_not : ∀ g ∈ b.frames.toList.take i, p g = false

variable {p : PageFrame → Bool} {front back chain chain' : List PageBucket}
  {b : PageBucket} {i : ℕ} {f g : PageFrame} {key : GlobalAddress}
  {value : PagePtr}

/-- The slots before the frame that was found. -/
def before (front : List PageBucket) (b : PageBucket) (i : ℕ) :
    List (GlobalAddress × Option PagePtr) :=
  row front ++ (b.frames.toList.take i).map PageFrame.slot

/-- The slots after it. -/
def after (b : PageBucket) (i : ℕ) (back : List PageBucket) :
    List (GlobalAddress × Option PagePtr) :=
  (b.frames.toList.drop (i + 1)).map PageFrame.slot ++ row back

theorem found_of_findIdx? (front : List PageBucket)
    (h : b.frames.toList.findIdx? p = some i)
    (hfront : ∀ g ∈ frames front, p g = false) :
    ∃ f, Found p front b i f := by
  obtain ⟨hi, hp, hbefore⟩ := List.findIdx?_eq_some_iff_getElem.mp h
  refine ⟨_, List.getElem?_eq_getElem hi, hp, hfront, ?_⟩
  intro g hg
  obtain ⟨j, hj, rfl⟩ := List.mem_take_iff_getElem.mp hg
  have := hbefore j (by omega)
  simpa using this

theorem modifyFirst_found {change : PageBucket → ℕ → PageBucket}
    (h : modifyFirst p change chain = some chain') :
    ∃ front b back i f, chain = front ++ b :: back ∧
      chain' = front ++ change b i :: back ∧ Found p front b i f := by
  induction chain generalizing chain' with
  | nil => simp [modifyFirst] at h
  | cons b rest ih =>
      rw [modifyFirst] at h
      split at h
      · rename_i i hi
        obtain ⟨f, hf⟩ := found_of_findIdx? [] hi (by simp [frames])
        exact ⟨[], b, rest, i, f, rfl, by simpa using h.symm, hf⟩
      · rename_i hnone
        obtain ⟨rest', hrest, rfl⟩ := Option.map_eq_some_iff.mp h
        obtain ⟨front, b', back, i, f, rfl, rfl, hf⟩ := ih hrest
        refine ⟨b :: front, b', back, i, f, rfl, rfl, hf.index, hf.holds, ?_,
          hf.before_not⟩
        intro g hg
        rw [frames, List.flatMap_cons, List.mem_append] at hg
        rcases hg with hg | hg
        · simpa using List.findIdx?_eq_none_iff.mp hnone g hg
        · exact hf.front_not g hg

theorem modifyFirst_none {change : PageBucket → ℕ → PageBucket}
    (h : modifyFirst p change chain = none) :
    ∀ g ∈ frames chain, p g = false := by
  induction chain with
  | nil => simp [frames]
  | cons b rest ih =>
      rw [modifyFirst] at h
      split at h
      · cases h
      · rename_i hnone
        intro g hg
        rw [frames, List.flatMap_cons, List.mem_append] at hg
        rcases hg with hg | hg
        · simpa using List.findIdx?_eq_none_iff.mp hnone g hg
        · exact ih (Option.map_eq_none_iff.mp h) g hg

theorem Found.row_eq (h : Found p front b i f) (back : List PageBucket) :
    row (front ++ b :: back) =
      before front b i ++ f.slot :: after b i back := by
  obtain ⟨hi, hf⟩ := List.getElem?_eq_some_iff.mp h.index
  rw [row_append, row_cons, before, after]
  conv_lhs =>
    rw [← List.take_append_drop i b.frames.toList,
      List.drop_eq_getElem_cons hi, hf]
  simp

theorem Found.row_set (h : Found p front b i f) (back : List PageBucket)
    (c : UInt32) (g : PageFrame) :
    row (front ++ ⟨c, b.frames.setIfInBounds i g⟩ :: back) =
      before front b i ++ g.slot :: after b i back := by
  have hi := (List.getElem?_eq_some_iff.mp h.index).1
  have hset : (b.frames.setIfInBounds i g).toList = b.frames.toList.set i g :=
    Vector.toList_setIfInBounds
  rw [row_append, row_cons, before, after, hset,
    List.set_eq_take_append_cons_drop, if_pos hi]
  simp

theorem Found.used_set (h : Found p front b i f) (c : UInt32)
    (g : PageFrame) :
    used ⟨c, b.frames.setIfInBounds i g⟩ + (if f.bufferPage.isSome then 1
      else 0) = used b + if g.bufferPage.isSome then 1 else 0 := by
  obtain ⟨hi, hf⟩ := List.getElem?_eq_some_iff.mp h.index
  have hset : (b.frames.setIfInBounds i g).toList = b.frames.toList.set i g :=
    Vector.toList_setIfInBounds
  unfold used
  rw [hset, List.countP_set hi, hf]
  have hpos : f.bufferPage.isSome = true →
      0 < b.frames.toList.countP fun f => f.bufferPage.isSome := by
    intro hsome
    rw [List.countP_pos_iff]
    exact ⟨f, hf ▸ List.getElem_mem hi, hsome⟩
  cases hsome : f.bufferPage.isSome with
  | true =>
      have := hpos hsome
      simp only [if_true]
      split_ifs <;> omega
  | false =>
      simp only [Bool.false_eq_true, if_false]
      split_ifs <;> omega

theorem used_le (b : PageBucket) : used b ≤ 3 := by
  refine (List.countP_le_length).trans ?_
  simp

theorem toNat_add_one {c : UInt32} (h : c.toNat ≤ 3) :
    (c + 1).toNat = c.toNat + 1 := by
  rw [UInt32.toNat_add]
  change (c.toNat + 1) % 2 ^ 32 = _
  omega

/-- In front of the first free frame every slot is in use. -/
theorem Found.before_used (h : Found free front b i f) :
    ∀ s ∈ before front b i, s.2 ≠ none := by
  intro s hs
  have hused : ∀ g, free g = false → g.slot.2 ≠ none := by
    intro g hg
    simpa [free, PageFrame.slot] using hg
  rcases List.mem_append.mp hs with hs | hs
  · obtain ⟨g, hg, rfl⟩ := List.mem_map.mp hs
    exact hused g (h.front_not g hg)
  · obtain ⟨g, hg, rfl⟩ := List.mem_map.mp hs
    exact hused g (h.before_not g hg)

/-- Another bucket in the place of one. -/
theorem ChainInv.set_bucket (h : ChainInv (front ++ b :: back))
    {b' : PageBucket} (hrow : FirstHeld (row (front ++ b' :: back)))
    (hcount : b'.count.toNat = used b')
    (hne : front ≠ [] → b'.count ≠ 0) : ChainInv (front ++ b' :: back) := by
  refine ⟨by simp, hrow, ?_, ?_⟩
  · intro c hc
    rcases List.mem_append.mp hc with hc | hc
    · exact h.count_eq c (by simp [hc])
    · rcases List.mem_cons.mp hc with rfl | hc
      · exact hcount
      · exact h.count_eq c (by simp [hc])
  · intro c hc
    cases front with
    | nil => exact h.overflow c hc
    | cons b₀ front =>
        have hold := h.overflow
        simp only [List.cons_append, List.tail_cons, List.mem_append,
          List.mem_cons] at hc hold
        rcases hc with hc | rfl | hc
        · exact hold c (Or.inl hc)
        · exact hne (by simp)
        · exact hold c (Or.inr (Or.inr hc))

/-- A chain in order after a call on one of its keys, whose page is now
`x`. -/
structure Rewrites (chain chain' : List PageBucket) (key : GlobalAddress)
    (x : Option PagePtr) : Prop where
  inv : ChainInv chain'
  lookup_eq : lookup (row chain') = Function.update (lookup (row chain)) key x

theorem ChainInv.unchanged (h : ChainInv chain) (key : GlobalAddress) :
    Rewrites chain chain key (lookup (row chain) key) :=
  ⟨h, (Function.update_eq_self ..).symm⟩

/-- The frame of a key in use. -/
theorem Found.rewrites_replace (hf : Found p front b i f)
    (h : ChainInv (front ++ b :: back)) (hkey : f.pageId = key)
    (hused : f.bufferPage ≠ none) :
    Rewrites (front ++ b :: back)
      (front ++ replaceFrame key value b i :: back) key (some value) := by
  obtain ⟨old, hold⟩ := Option.ne_none_iff_exists'.mp hused
  have hslot : f.slot = (key, some old) := by
    rw [PageFrame.slot, hkey, hold]
  have hheld := h.firstHeld
  have hrow := hf.row_set back b.count ⟨key, some value⟩
  rw [hf.row_eq, hslot] at hheld
  refine ⟨h.set_bucket ?_ ?_ ?_, ?_⟩
  · rw [replaceFrame, hrow]
    exact hheld.replace (by simp)
  · have hset := hf.used_set b.count ⟨key, some value⟩
    rw [hold] at hset
    have := h.count_eq b (by simp)
    change b.count.toNat = used ⟨b.count, _⟩
    simp only [Option.isSome_some, if_true] at hset
    omega
  · intro hfront
    cases front with
    | nil => exact absurd rfl hfront
    | cons b₀ front => exact h.overflow b (by simp)
  · rw [replaceFrame, hrow, hf.row_eq, hslot]
    exact hheld.lookup_replace (some value)

/-- The first free frame takes a key that is not in the table. -/
theorem Found.rewrites_fill (hf : Found free front b i f)
    (h : ChainInv (front ++ b :: back))
    (hkey : lookup (row (front ++ b :: back)) key = none) :
    Rewrites (front ++ b :: back) (front ++ fillFrame key value b i :: back)
      key (some value) := by
  have hfree : f.bufferPage = none := by
    simpa [free] using hf.holds
  have hheld := h.firstHeld
  have hrow := hf.row_set back (b.count + 1) ⟨key, some value⟩
  have hbefore := hf.before_used
  have hcount : (b.count + 1).toNat = b.count.toNat + 1 :=
    toNat_add_one (by rw [h.count_eq b (by simp)]; exact used_le b)
  rw [hf.row_eq] at hheld hkey
  refine ⟨h.set_bucket ?_ ?_ ?_, ?_⟩
  · rw [fillFrame, hrow]
    exact hheld.fill hbefore hkey
  · have hset := hf.used_set (b.count + 1) ⟨key, some value⟩
    rw [hfree] at hset
    have := h.count_eq b (by simp)
    change (b.count + 1).toNat = used ⟨b.count + 1, _⟩
    simp only [Option.isSome_some, if_true, Option.isSome_none,
      Bool.false_eq_true, if_false] at hset
    omega
  · intro _ hzero
    have := congrArg UInt32.toNat hzero
    change (b.count + 1).toNat = 0 at this
    omega
  · rw [fillFrame, hrow, hf.row_eq]
    exact hheld.lookup_fill hfree hbefore hkey value

/-- A full chain gets one more bucket. -/
theorem ChainInv.rewrites_append (h : ChainInv chain)
    (hfull : ∀ g ∈ frames chain, free g = false)
    (hkey : lookup (row chain) key = none) :
    Rewrites chain (chain ++ [fillFrame key value .empty 0]) key
      (some value) := by
  have hspare : ∀ g ∈ row [PageBucket.empty], g.2 = none := by decide
  have hheld : FirstHeld (row (chain ++ [PageBucket.empty])) := by
    rw [row_append]
    exact h.firstHeld.append_free hspare
  have hsame : lookup (row (chain ++ [PageBucket.empty])) =
      lookup (row chain) := by
    funext a
    have : lookup (row chain ++ row [PageBucket.empty] ++ []) a =
        lookup (row chain ++ []) a := lookup_append_free hspare a
    simpa [row_append] using this
  obtain ⟨f, hf⟩ := found_of_findIdx? chain (p := free) (b := .empty) (i := 0)
    (by decide) hfull
  have hempty : f.bufferPage = none := by
    simpa [free] using hf.holds
  rw [hf.row_eq] at hheld hsame
  rw [← hsame] at hkey
  refine ⟨⟨by simp, ?_, ?_, ?_⟩, ?_⟩
  · rw [fillFrame, hf.row_set]
    exact hheld.fill hf.before_used hkey
  · intro c hc
    rcases List.mem_append.mp hc with hc | hc
    · exact h.count_eq c hc
    · rw [List.mem_singleton.mp hc]
      rfl
  · intro c hc
    rw [List.tail_append_of_ne_nil h.ne_nil] at hc
    rcases List.mem_append.mp hc with hc | hc
    · exact h.overflow c hc
    · rw [List.mem_singleton.mp hc]
      change PageBucket.empty.count + 1 ≠ 0
      decide
  · rw [fillFrame, hf.row_set, ← hsame]
    exact hheld.lookup_fill hempty hf.before_used hkey value

/-! ## Removals -/

/-- A removal frees the frame it found, or drops its bucket. -/
theorem removeFirst_found {hasPrev : Bool}
    (h : removeFirst p key hasPrev chain = some chain') :
    ∃ front b back i f, chain = front ++ b :: back ∧ Found p front b i f ∧
      chain' = if (freeFrame key b i).count = 0 ∧
          (hasPrev = true ∨ front ≠ []) then front ++ back
        else front ++ freeFrame key b i :: back := by
  induction chain generalizing hasPrev chain' with
  | nil => simp [removeFirst] at h
  | cons b rest ih =>
      rw [removeFirst] at h
      split at h
      · rename_i i hi
        obtain ⟨f, hf⟩ := found_of_findIdx? [] hi (by simp [frames])
        refine ⟨[], b, rest, i, f, rfl, hf, ?_⟩
        rw [← Option.some.injEq, ← h]
        simp [apply_ite]
      · rename_i hnone
        obtain ⟨rest', hrest, rfl⟩ := Option.map_eq_some_iff.mp h
        obtain ⟨front, b', back, i, f, rfl, hf, rfl⟩ := ih hrest
        refine ⟨b :: front, b', back, i, f, rfl, ⟨hf.index, hf.holds, ?_,
          hf.before_not⟩, ?_⟩
        · intro g hg
          rw [frames, List.flatMap_cons, List.mem_append] at hg
          rcases hg with hg | hg
          · simpa using List.findIdx?_eq_none_iff.mp hnone g hg
          · exact hf.front_not g hg
        · simp [apply_ite]

theorem removeFirst_none {hasPrev : Bool}
    (h : removeFirst p key hasPrev chain = none) :
    ∀ g ∈ frames chain, p g = false := by
  induction chain generalizing hasPrev with
  | nil => simp [frames]
  | cons b rest ih =>
      rw [removeFirst] at h
      split at h
      · split_ifs at h
      · rename_i hnone
        intro g hg
        rw [frames, List.flatMap_cons, List.mem_append] at hg
        rcases hg with hg | hg
        · simpa using List.findIdx?_eq_none_iff.mp hnone g hg
        · exact ih (Option.map_eq_none_iff.mp h) g hg

/-- Freeing the frame of a key in use takes the key out of the map. -/
theorem Found.rewrites_free (hf : Found p front b i f)
    (h : ChainInv (front ++ b :: back)) (hkey : f.pageId = key)
    (hused : f.bufferPage ≠ none) :
    Rewrites (front ++ b :: back)
      (if (freeFrame key b i).count = 0 ∧ (false = true ∨ front ≠ []) then
        front ++ back
      else front ++ freeFrame key b i :: back) key none := by
  obtain ⟨old, hold⟩ := Option.ne_none_iff_exists'.mp hused
  have hslot : f.slot = (key, some old) := by
    rw [PageFrame.slot, hkey, hold]
  have hheld := h.firstHeld
  have hrow := hf.row_set back (b.count - 1) ⟨key, none⟩
  have hset := hf.used_set (b.count - 1) ⟨key, none⟩
  rw [hold] at hset
  simp only [Option.isSome_some, if_true, Option.isSome_none,
    Bool.false_eq_true, if_false] at hset
  have hcount := h.count_eq b (by simp)
  have hpositive : (1 : UInt32) ≤ b.count := by
    rw [UInt32.le_iff_toNat_le]
    change 1 ≤ b.count.toNat
    omega
  have hcount' : (freeFrame key b i).count.toNat =
      used (freeFrame key b i) := by
    change (b.count - 1).toNat = used ⟨b.count - 1, _⟩
    rw [UInt32.toNat_sub_of_le _ _ hpositive]
    change b.count.toNat - 1 = _
    omega
  have hmap : lookup (row (front ++ freeFrame key b i :: back)) =
      Function.update (lookup (row (front ++ b :: back))) key none := by
    rw [hf.row_eq, hslot] at hheld
    rw [freeFrame, hrow, hf.row_eq, hslot]
    exact hheld.lookup_replace none
  have hheld' : FirstHeld (row (front ++ freeFrame key b i :: back)) := by
    rw [hf.row_eq, hslot] at hheld
    rw [freeFrame, hrow]
    exact hheld.replace (by simp)
  split
  · -- nothing in the bucket was in use but the frame that was freed
    rename_i hunlink
    have hfree : used (freeFrame key b i) = 0 := by
      rw [← hcount', hunlink.1]
      rfl
    have hfront : front ≠ [] := hunlink.2.resolve_left (by simp)
    have hdropped : ∀ s ∈ (freeFrame key b i).frames.toList.map
        PageFrame.slot, s.2 = none := by
      intro s hs
      obtain ⟨g, hg, rfl⟩ := List.mem_map.mp hs
      simpa [PageFrame.slot] using List.countP_eq_zero.mp hfree g hg
    refine ⟨⟨by simp [hfront], ?_, ?_, ?_⟩, ?_⟩
    · refine hheld'.sublist ?_
      rw [row_append, row_append, row_cons]
      exact (List.sublist_append_right _ _).append_left _
    · intro c hc
      refine h.count_eq c ?_
      rcases List.mem_append.mp hc with hc | hc <;> simp [hc]
    · intro c hc
      refine h.overflow c ?_
      rw [List.tail_append_of_ne_nil hfront] at hc ⊢
      rcases List.mem_append.mp hc with hc | hc <;> simp [hc]
    · rw [← hmap]
      funext a
      rw [row_append, row_append, row_cons, ← List.append_assoc,
        lookup_append_free hdropped]
  · rename_i hunlink
    refine ⟨h.set_bucket hheld' hcount' ?_, hmap⟩
    intro hfront hzero
    exact hunlink ⟨hzero, Or.inr hfront⟩

/-! ## The calls on one chain -/

section Chain

variable {new old : PagePtr}

theorem lookup_none_of_frames
    (h : ∀ g ∈ frames chain, g.pageId = key → g.bufferPage = none) :
    lookup (row chain) key = none := by
  rw [lookup_eq_none_iff]
  intro v hmem
  obtain ⟨g, hg, hslot⟩ := List.mem_map.mp hmem
  have hid : g.pageId = key := congrArg Prod.fst hslot
  have hpage : g.bufferPage = some v := congrArg Prod.snd hslot
  rw [h g hg hid] at hpage
  cases hpage

/-- The page that a frame in use holds is the one its key maps to. -/
theorem Found.lookup_eq (hf : Found p front b i f)
    (h : ChainInv (front ++ b :: back)) {v : PagePtr}
    (hkey : f.pageId = key) (hpage : f.bufferPage = some v) :
    lookup (row (front ++ b :: back)) key = some v := by
  rw [h.firstHeld.lookup_eq_some_iff, hf.row_eq]
  simp [PageFrame.slot, hkey, hpage]

theorem insertChain_spec (h : ChainInv chain) (key : GlobalAddress)
    (value : PagePtr) :
    Rewrites chain (insertChain chain key value).1 key
        ((lookup (row chain) key).or (some value)) ∧
      (insertChain chain key value).2 =
        ((lookup (row chain) key).isNone, lookup (row chain) key) := by
  unfold insertChain
  rw [getChain_eq]
  cases hkey : lookup (row chain) key with
  | some page =>
      refine ⟨?_, rfl⟩
      have := h.unchanged key
      rwa [hkey] at this
  | none =>
      dsimp only
      split
      · rename_i chain' hfill
        obtain ⟨front, b, back, i, f, rfl, rfl, hf⟩ := modifyFirst_found hfill
        exact ⟨hf.rewrites_fill h hkey, rfl⟩
      · rename_i hfull
        exact ⟨h.rewrites_append (modifyFirst_none hfull) hkey, rfl⟩

/-- A frame that `holds` found is the one in use for its key. -/
theorem holds_iff : holds key f = true ↔
    f.pageId = key ∧ f.bufferPage ≠ none := by
  simp [holds]

theorem lookup_none_of_not_holds
    (h : ∀ g ∈ frames chain, holds key g = false) :
    lookup (row chain) key = none := by
  apply lookup_none_of_frames
  intro g hg hid
  have := h g hg
  simpa [holds, hid] using this

theorem upsertChain_rewrites (h : ChainInv chain) (key : GlobalAddress)
    (value : PagePtr) :
    Rewrites chain (upsertChain chain key value).1 key (some value) ∧
      ((∃ page, lookup (row chain) key = some page ∧
          (upsertChain chain key value).2 = .replaced (some page)) ∨
        lookup (row chain) key = none ∧
          ((upsertChain chain key value).2 = .filled ∨
            (upsertChain chain key value).2 = .chained)) := by
  unfold upsertChain
  split
  · rename_i chain' hfound
    obtain ⟨front, b, back, i, f, rfl, rfl, hf⟩ := modifyFirst_found hfound
    obtain ⟨hid, hused⟩ := holds_iff.mp hf.holds
    obtain ⟨page, hpage⟩ := Option.ne_none_iff_exists'.mp hused
    have hlookup := hf.lookup_eq h hid hpage
    refine ⟨hf.rewrites_replace h hid hused, Or.inl ⟨page, hlookup, ?_⟩⟩
    rw [getChain_eq, hlookup]
  · rename_i habsent
    have hkey := lookup_none_of_not_holds (modifyFirst_none habsent)
    split
    · rename_i chain' hfill
      obtain ⟨front, b, back, i, f, rfl, rfl, hf⟩ := modifyFirst_found hfill
      exact ⟨hf.rewrites_fill h hkey, Or.inr ⟨hkey, Or.inl rfl⟩⟩
    · rename_i hfull
      exact ⟨h.rewrites_append (modifyFirst_none hfull) hkey,
        Or.inr ⟨hkey, Or.inr rfl⟩⟩

theorem updateChain_spec (h : ChainInv chain) (key : GlobalAddress)
    (value : PagePtr) :
    Rewrites chain (updateChain chain key value).1 key
        ((lookup (row chain) key).map fun _ => value) ∧
      (updateChain chain key value).2 =
        ((lookup (row chain) key).isSome, lookup (row chain) key) := by
  unfold updateChain
  rw [getChain_eq]
  split
  · rename_i chain' hfound
    obtain ⟨front, b, back, i, f, rfl, rfl, hf⟩ := modifyFirst_found hfound
    obtain ⟨hid, hused⟩ := holds_iff.mp hf.holds
    obtain ⟨page, hpage⟩ := Option.ne_none_iff_exists'.mp hused
    rw [hf.lookup_eq h hid hpage]
    exact ⟨hf.rewrites_replace h hid hused, rfl⟩
  · rename_i habsent
    have hkey := lookup_none_of_not_holds (modifyFirst_none habsent)
    have hsame := h.unchanged key
    rw [hkey] at hsame ⊢
    exact ⟨hsame, rfl⟩

theorem rmwChain_spec (h : ChainInv chain) (key : GlobalAddress)
    (new old : PagePtr) :
    Rewrites chain (rmwChain chain key new old).1 key
        (if lookup (row chain) key = some old then some new
          else lookup (row chain) key) ∧
      (rmwChain chain key new old).2 =
        decide (lookup (row chain) key = some old) := by
  unfold rmwChain
  split
  · rename_i chain' hfound
    obtain ⟨front, b, back, i, f, rfl, rfl, hf⟩ := modifyFirst_found hfound
    obtain ⟨hid, hpage⟩ := of_decide_eq_true hf.holds
    rw [hf.lookup_eq h hid hpage]
    simp only [if_true, decide_true, and_true]
    exact hf.rewrites_replace h hid (by rw [hpage]; simp)
  · rename_i habsent
    have hne : lookup (row chain) key ≠ some old := by
      intro hkey
      obtain ⟨g, hg, hslot⟩ := List.mem_map.mp (mem_of_lookup hkey)
      have hid : g.pageId = key := congrArg Prod.fst hslot
      have hpage : g.bufferPage = some old := congrArg Prod.snd hslot
      have := modifyFirst_none habsent g hg
      simp [hid, hpage] at this
    simp only [if_neg hne, decide_eq_false hne, and_true]
    exact h.unchanged key

theorem removeChain_spec (h : ChainInv chain) (key : GlobalAddress)
    (value : PagePtr) :
    (∃ chain', removeChain key value false chain = some chain' ∧
        lookup (row chain) key = some value ∧
        Rewrites chain chain' key none) ∨
      removeChain key value false chain = none ∧
        lookup (row chain) key ≠ some value := by
  unfold removeChain
  cases hremove : removeFirst (fun f => f.pageId = key ∧
      f.bufferPage = some value) key false chain with
  | some chain' =>
      obtain ⟨front, b, back, i, f, rfl, hf, rfl⟩ := removeFirst_found hremove
      obtain ⟨hid, hpage⟩ := of_decide_eq_true hf.holds
      exact Or.inl ⟨_, rfl, hf.lookup_eq h hid hpage,
        hf.rewrites_free h hid (by rw [hpage]; simp)⟩
  | none =>
      refine Or.inr ⟨rfl, fun hkey => ?_⟩
      obtain ⟨g, hg, hslot⟩ := List.mem_map.mp (mem_of_lookup hkey)
      have hid : g.pageId = key := congrArg Prod.fst hslot
      have hpage : g.bufferPage = some value := congrArg Prod.snd hslot
      have := removeFirst_none hremove g hg
      simp [hid, hpage] at this

/-- A removal by key alone finds a frame when the chain has one with the key,
and the right one when the key is in the table. -/
theorem removeKeyChain_spec (h : ChainInv chain) (key : GlobalAddress) :
    ((removeKeyChain key false chain).isSome ↔
        ∃ g ∈ frames chain, g.pageId = key) ∧
      ∀ chain', removeKeyChain key false chain = some chain' →
        lookup (row chain) key ≠ none → Rewrites chain chain' key none := by
  unfold removeKeyChain
  cases hremove : removeFirst (fun f => f.pageId = key) key false chain with
  | none =>
      refine ⟨⟨by simp, ?_⟩, by simp⟩
      rintro ⟨g, hg, hid⟩
      have := removeFirst_none hremove g hg
      simp [hid] at this
  | some chain' =>
      obtain ⟨front, b, back, i, f, rfl, hf, rfl⟩ := removeFirst_found hremove
      have hid : f.pageId = key := of_decide_eq_true hf.holds
      refine ⟨⟨fun _ => ⟨f, ?_, hid⟩, fun _ => rfl⟩, ?_⟩
      · rw [frames, List.flatMap_append, List.flatMap_cons]
        simp [List.mem_of_getElem? hf.index]
      · intro chain' hchain hkey
        rw [Option.some.injEq] at hchain
        subst hchain
        refine hf.rewrites_free h hid fun hfree => ?_
        -- the key's frame in use would lie behind a free frame of its key
        obtain ⟨v, hv⟩ := Option.ne_none_iff_exists'.mp hkey
        have hmem := mem_of_lookup hv
        have hheld := h.firstHeld
        rw [hf.row_eq] at hmem hheld
        have hnot : ∀ s ∈ before front b i, s.1 ≠ key := by
          intro s hs
          rcases List.mem_append.mp hs with hs | hs
          · obtain ⟨g, hg, rfl⟩ := List.mem_map.mp hs
            simpa [PageFrame.slot] using hf.front_not g hg
          · obtain ⟨g, hg, rfl⟩ := List.mem_map.mp hs
            simpa [PageFrame.slot] using hf.before_not g hg
        rcases List.mem_append.mp hmem with hm | hm
        · exact hnot _ hm rfl
        · rcases List.mem_cons.mp hm with heq | hm
          · have : f.bufferPage = some v := (congrArg Prod.snd heq).symm
            rw [hfree] at this
            cases this
          · exact (firstHeld_middle_iff.mp hheld).2.2 _ hm (by simp) hid

end Chain

/-! ## The calls on the table -/

/-- Every chain of the table is in order. -/
def Inv (t : PageTable) : Prop :=
  ∀ i, ChainInv (t.table i)

section Table

variable {hash : GlobalAddress → ℕ} {t : PageTable}

/-- A table of empty buckets. -/
def clear (bucketNum : ℕ) : PageTable where
  bucketNum := bucketNum
  table := fun _ => [.empty]

theorem inv_clear (n : ℕ) : (clear n).Inv := by
  intro i
  refine ⟨by simp [clear], ?_, ?_, by simp [clear]⟩
  · change FirstHeld (row [PageBucket.empty])
    exact List.pairwise_of_forall_mem_list fun a _ b hb hne =>
      absurd ((by decide : ∀ s ∈ row [PageBucket.empty], s.2 = none) b hb) hne
  · intro b hb
    rw [List.mem_singleton.mp hb]
    rfl

theorem getIn_clear (n : ℕ) : (clear n).getIn hash = fun _ => none := by
  funext a
  change getChain [PageBucket.empty] a = none
  rw [getChain_eq]
  exact lookup_none_of_frames fun g hg _ =>
    (by decide : ∀ g ∈ frames [PageBucket.empty], g.bufferPage = none) g hg

theorem getIn_eq (key : GlobalAddress) : t.getIn hash key =
    lookup (row (t.table (t.headOf hash key))) key :=
  getChain_eq _ _

/-- Rewriting the chain of a key changes the table under that key. -/
theorem Inv.setChain (h : t.Inv) {key : GlobalAddress}
    {chain : List PageBucket} {x : Option PagePtr}
    (hstep : Rewrites (t.table (t.headOf hash key)) chain key x) :
    (t.setChain (t.headOf hash key) chain).Inv ∧
      (t.setChain (t.headOf hash key) chain).getIn hash =
        Function.update (t.getIn hash) key x := by
  constructor
  · intro i
    by_cases hi : i = t.headOf hash key
    · subst hi
      simpa [PageTable.setChain] using hstep.inv
    · simpa [PageTable.setChain, Function.update_of_ne hi] using h i
  · funext a
    have hhead : (t.setChain (t.headOf hash key) chain).headOf hash a =
        t.headOf hash a := rfl
    rw [getIn_eq, hhead]
    by_cases hi : t.headOf hash a = t.headOf hash key
    · simp only [PageTable.setChain, hi, Function.update_self, hstep.lookup_eq]
      by_cases ha : a = key
      · subst ha
        simp
      · rw [Function.update_of_ne ha, Function.update_of_ne ha, getIn_eq, hi]
    · have ha : a ≠ key := by
        rintro rfl
        exact hi rfl
      simp only [PageTable.setChain, Function.update_of_ne hi,
        Function.update_of_ne ha, getIn_eq]

/-- The hash of the cache's own table. -/
def libraryHash (a : GlobalAddress) : ℕ :=
  (hashBytes a.val).toNat

theorem inv_new (entryNum : ℕ) : (new entryNum).Inv :=
  fun i => inv_clear entryNum i

theorem get_new (entryNum : ℕ) : (new entryNum).get = fun _ => none := by
  change (clear (new entryNum).bucketNum).getIn libraryHash = _
  exact getIn_clear _

theorem Inv.upsert (h : t.Inv) (key : GlobalAddress) (value : PagePtr) :
    (t.upsert key value).1.Inv ∧
      (t.upsert key value).1.get = Function.update t.get key (some value) := by
  have hstep :=
    (upsertChain_rewrites (h (t.headOf libraryHash key)) key value).1
  exact h.setChain hstep

theorem Inv.insert (h : t.Inv) (key : GlobalAddress) (value : PagePtr) :
    (t.insert key value).1.Inv ∧
      (t.insert key value).1.get =
        Function.update t.get key ((t.get key).or (some value)) ∧
      (t.insert key value).2 = ((t.get key).isNone, t.get key) := by
  obtain ⟨hstep, hreply⟩ :=
    insertChain_spec (h (t.headOf libraryHash key)) key value
  obtain ⟨hinv, hget⟩ := h.setChain hstep
  rw [← getIn_eq] at hget hreply
  exact ⟨hinv, hget, hreply⟩

theorem Inv.update (h : t.Inv) (key : GlobalAddress) (value : PagePtr) :
    (t.update key value).1.Inv ∧
      (t.update key value).1.get =
        Function.update t.get key ((t.get key).map fun _ => value) ∧
      (t.update key value).2 = ((t.get key).isSome, t.get key) := by
  obtain ⟨hstep, hreply⟩ :=
    updateChain_spec (h (t.headOf libraryHash key)) key value
  obtain ⟨hinv, hget⟩ := h.setChain hstep
  rw [← getIn_eq] at hget hreply
  exact ⟨hinv, hget, hreply⟩

theorem Inv.remove (h : t.Inv) (key : GlobalAddress) (value : PagePtr) :
    (t.remove key value).1.Inv ∧
      (t.remove key value).1.get = Function.update t.get key
        (if t.get key = some value then none else t.get key) ∧
      (t.remove key value).2 = decide (t.get key = some value) := by
  unfold PageTable.remove
  dsimp only
  rcases removeChain_spec (h (t.headOf libraryHash key)) key value with
    ⟨chain, hremove, hkey, hstep⟩ | ⟨hremove, hkey⟩
  · obtain ⟨hinv, hnew⟩ := h.setChain hstep
    rw [← getIn_eq] at hkey
    change removeChain key value false (t.table (t.bucketIdx key)) = _
      at hremove
    change t.get key = some value at hkey
    rw [hremove, if_pos hkey]
    exact ⟨hinv, hnew, (decide_eq_true hkey).symm⟩
  · rw [← getIn_eq] at hkey
    change removeChain key value false (t.table (t.bucketIdx key)) = _
      at hremove
    change t.get key ≠ some value at hkey
    rw [hremove, if_neg hkey, Function.update_eq_self]
    exact ⟨h, rfl, (decide_eq_false hkey).symm⟩

end Table

end PageTable

/-! ## The table as a map -/

/-- What a map from addresses to pages answers to a call. -/
def TableOp.answer (m : GlobalAddress → Option PagePtr) :
    TableOp → TableReply
  | .insert key _ => ((m key).isNone, m key)
  | .upsert key _ _ => ((m key).isNone, m key)
  | .update key _ _ => ((m key).isSome, m key)
  | .rmw key _ old => (decide (m key = some old), none)
  | .remove key value => (decide (m key = some value), none)
  | .removeKey key => ((m key).isSome, none)
  | .checkAndRemove key => ((m key).isSome, none)
  | .reset => (true, none)

/-- The map after a call. -/
def TableOp.effect (m : GlobalAddress → Option PagePtr) :
    TableOp → GlobalAddress → Option PagePtr
  | .insert key value => Function.update m key ((m key).or (some value))
  | .upsert key value _ => Function.update m key (some value)
  | .update key value _ => Function.update m key ((m key).map fun _ => value)
  | .rmw key new old =>
      Function.update m key (if m key = some old then some new else m key)
  | .remove key value =>
      Function.update m key (if m key = some value then none else m key)
  | .removeKey key => Function.update m key none
  | .checkAndRemove key => Function.update m key none
  | .reset => fun _ => none

def TableOp.answers (m : GlobalAddress → Option PagePtr) :
    List TableOp → List TableReply
  | [] => []
  | op :: ops => op.answer m :: TableOp.answers (op.effect m) ops

/-- The page behind the value has the key as its address. -/
def TableOp.Addressed : TableOp → Prop
  | .upsert key _ address => address = key
  | .update key _ address => address = key
  | _ => True

/-- The call with the page behind its value at its key. -/
def TableOp.atKey : TableOp → TableOp
  | .upsert key value _ => .upsert key value key
  | .update key value _ => .update key value key
  | op => op

theorem TableOp.addressed_atKey (op : TableOp) : op.atKey.Addressed := by
  cases op <;> trivial

theorem TableOp.eq_removeKey_of_atKey (op : TableOp) {key : GlobalAddress}
    (h : op.atKey = .removeKey key) : op = .removeKey key := by
  cases op <;> first | exact h | cases h

theorem TableOp.effect_atKey (op : TableOp)
    (m : GlobalAddress → Option PagePtr) : op.atKey.effect m = op.effect m := by
  cases op <;> rfl

/-- The call is not a removal by key alone. -/
def TableOp.ByValue : TableOp → Prop
  | .removeKey _ => False
  | _ => True

namespace PageTable

section Calls

variable {hash : GlobalAddress → ℕ} {t : PageTable}

/-- A removal of the key finds no frame left behind: the key is in the table,
or no frame of its chain has it. -/
def Known (hash : GlobalAddress → ℕ) (t : PageTable)
    (key : GlobalAddress) : Prop :=
  t.getIn hash key ≠ none ∨
    ∀ f ∈ frames (t.table (t.headOf hash key)), f.pageId ≠ key

/-- The removals by key alone in a history are of known keys. -/
def KnownRemovals (hash : GlobalAddress → ℕ) :
    PageTable → List TableOp → Prop
  | _, [] => True
  | t, op :: ops =>
      (∀ key, op = .removeKey key → t.Known hash key) ∧
        ∀ t' reply, t.call hash op = some (t', reply) →
          KnownRemovals hash t' ops

theorem Inv.removeKeyIn (h : t.Inv) {key : GlobalAddress}
    (hknown : t.Known hash key) :
    (t.removeKeyIn hash key).1.Inv ∧
      (t.removeKeyIn hash key).1.getIn hash =
        Function.update (t.getIn hash) key none ∧
      (t.removeKeyIn hash key).2 = (t.getIn hash key).isSome := by
  obtain ⟨hfound, hstep⟩ := removeKeyChain_spec (h (t.headOf hash key)) key
  unfold PageTable.removeKeyIn
  cases hremove : removeKeyChain key false (t.table (t.headOf hash key)) with
  | none =>
      rw [hremove] at hfound
      have hnone : t.getIn hash key = none := by
        rw [getIn_eq]
        apply lookup_none_of_frames
        intro g hg hid
        have := hfound.mpr ⟨g, hg, hid⟩
        cases this
      refine ⟨h, ?_, by simp [hnone]⟩
      rw [← hnone, Function.update_eq_self]
  | some chain =>
      rw [hremove] at hfound
      have hsome : t.getIn hash key ≠ none := by
        refine hknown.resolve_right fun hnot => ?_
        obtain ⟨g, hg, hid⟩ := hfound.mp rfl
        exact hnot g hg hid
      obtain ⟨hinv, hget⟩ := h.setChain
        (hstep chain hremove (by rwa [← getIn_eq]))
      exact ⟨hinv, hget, (Option.isSome_iff_ne_none.mpr hsome).symm⟩

/-- One call answers like the map and leaves the next one. -/
theorem Inv.call (h : t.Inv) {op : TableOp} (hop : op.Addressed)
    (hknown : ∀ key, op = .removeKey key → t.Known hash key) :
    ∃ t', t.call hash op = some (t', op.answer (t.getIn hash)) ∧ t'.Inv ∧
      t'.getIn hash = op.effect (t.getIn hash) := by
  cases op with
  | insert key value =>
      obtain ⟨hstep, hreply⟩ :=
        insertChain_spec (h (t.headOf hash key)) key value
      obtain ⟨hinv, hget⟩ := h.setChain hstep
      rw [← getIn_eq] at hreply hget
      refine ⟨_, ?_, hinv, hget⟩
      change some (t.setChain _ (insertChain _ key value).1,
        (insertChain _ key value).2) = _
      rw [hreply]
      rfl
  | upsert key value address =>
      obtain ⟨hstep, houtcome⟩ :=
        upsertChain_rewrites (h (t.headOf hash key)) key value
      obtain ⟨hinv, hget⟩ := h.setChain hstep
      refine ⟨_, ?_, hinv, hget⟩
      rw [← getIn_eq] at houtcome
      obtain rfl : address = key := hop
      rcases houtcome with ⟨page, hpage, houtcome⟩ | ⟨hnone, houtcome⟩
      · simp [PageTable.call, houtcome, TableOp.answer, hpage]
      · rcases houtcome with houtcome | houtcome <;>
          simp [PageTable.call, houtcome, TableOp.answer, hnone]
  | update key value address =>
      obtain ⟨hstep, hreply⟩ :=
        updateChain_spec (h (t.headOf hash key)) key value
      obtain ⟨hinv, hget⟩ := h.setChain hstep
      rw [← getIn_eq] at hreply hget
      refine ⟨_, ?_, hinv, hget⟩
      obtain rfl : address = key := hop
      simp [PageTable.call, hreply, TableOp.answer]
  | rmw key new old =>
      obtain ⟨hstep, hreply⟩ :=
        rmwChain_spec (h (t.headOf hash key)) key new old
      obtain ⟨hinv, hget⟩ := h.setChain hstep
      rw [← getIn_eq] at hreply hget
      refine ⟨_, ?_, hinv, hget⟩
      change some (t.setChain _ (rmwChain _ key new old).1,
        (rmwChain _ key new old).2, none) = _
      rw [hreply]
      rfl
  | remove key value =>
      rcases removeChain_spec (h (t.headOf hash key)) key value with
        ⟨chain, hremove, hkey, hstep⟩ | ⟨hremove, hkey⟩
      · obtain ⟨hinv, hget⟩ := h.setChain hstep
        rw [← getIn_eq] at hkey
        refine ⟨_, ?_, hinv, ?_⟩
        · simp only [PageTable.call, hremove, TableOp.answer, hkey]
          rfl
        · rw [hget, TableOp.effect, if_pos hkey]
      · rw [← getIn_eq] at hkey
        refine ⟨t, ?_, h, ?_⟩
        · simp only [PageTable.call, hremove, TableOp.answer,
            decide_eq_false hkey]
        · rw [TableOp.effect, if_neg hkey, Function.update_eq_self]
  | removeKey key =>
      obtain ⟨hinv, hget, hreply⟩ := h.removeKeyIn (hknown key rfl)
      refine ⟨_, ?_, hinv, hget⟩
      change some ((t.removeKeyIn hash key).1, (t.removeKeyIn hash key).2,
        none) = _
      rw [hreply]
      rfl
  | checkAndRemove key =>
      cases hkey : t.getIn hash key with
      | none =>
          refine ⟨t, ?_, h, ?_⟩
          · simp [PageTable.call, hkey, TableOp.answer]
          · rw [TableOp.effect, ← hkey, Function.update_eq_self]
      | some page =>
          obtain ⟨hinv, hget, hreply⟩ :=
            h.removeKeyIn (Or.inl (by rw [hkey]; simp))
          refine ⟨_, ?_, hinv, hget⟩
          simp [PageTable.call, hkey, TableOp.answer, hreply]
  | reset =>
      exact ⟨t.reset, rfl, inv_clear t.bucketNum, getIn_clear t.bucketNum⟩

/-- A history answers like the map it makes of the first one. -/
theorem Inv.calls (h : t.Inv) {ops : List TableOp}
    (hops : ∀ op ∈ ops, op.Addressed) (hknown : KnownRemovals hash t ops) :
    ∃ t', calls hash t ops = some (t', TableOp.answers (t.getIn hash) ops) ∧
      t'.Inv ∧ t'.getIn hash = ops.foldl TableOp.effect (t.getIn hash) := by
  induction ops generalizing t with
  | nil => exact ⟨t, rfl, h, rfl⟩
  | cons op ops ih =>
      obtain ⟨t', hcall, hinv, hget⟩ := h.call (hops op (by simp)) hknown.1
      obtain ⟨t'', hcalls, hinv', hget'⟩ :=
        ih hinv (fun op' hop' => hops op' (by simp [hop']))
          (hknown.2 t' _ hcall)
      rw [hget] at hcalls hget'
      refine ⟨t'', ?_, hinv', hget'⟩
      simp [PageTable.calls, hcall, hcalls, TableOp.answers]

theorem call_atKey {op : TableOp} {r : PageTable × TableReply}
    (h : t.call hash op = some r) : t.call hash op.atKey = some r := by
  cases op with
  | upsert key value address =>
      simp only [PageTable.call] at h
      split at h
      · cases h
      · simpa [TableOp.atKey, PageTable.call] using h
  | update key value address =>
      simp only [PageTable.call] at h
      split at h
      · cases h
      · simpa [TableOp.atKey, PageTable.call] using h
  | insert | rmw | remove | removeKey | checkAndRemove | reset => exact h

theorem knownRemovals_of_byValue {ops : List TableOp}
    (h : ∀ op ∈ ops, op.ByValue) : KnownRemovals hash t ops := by
  induction ops generalizing t with
  | nil => trivial
  | cons op ops ih =>
      refine ⟨?_, fun t' _ _ => ih fun op' hop' => h op' (by simp [hop'])⟩
      intro key hop
      subst hop
      exact absurd (h (.removeKey key) (by simp)) id

/-- Over any hash function, a history of calls on a table that starts empty
answers like a map, and the table reads as the map that the calls make. -/
theorem calls_as_map (hash : GlobalAddress → ℕ) (bucketNum : ℕ)
    (ops : List TableOp) (hops : ∀ op ∈ ops, op.Addressed)
    (hvalue : ∀ op ∈ ops, op.ByValue) :
    ∃ t, calls hash (clear bucketNum) ops =
        some (t, TableOp.answers (fun _ => none) ops) ∧
      t.getIn hash = ops.foldl TableOp.effect fun _ => none := by
  have hknown : KnownRemovals hash (clear bucketNum) ops :=
    knownRemovals_of_byValue hvalue
  obtain ⟨t, hcalls, _, hget⟩ := (inv_clear bucketNum).calls hops hknown
  rw [getIn_clear] at hcalls hget
  exact ⟨t, hcalls, hget⟩

/-- Four keys in one chain, a key freed and used again, and a removal that
reaches the key's frame in use behind frames left behind. -/
theorem calls_as_map_small :
    ∃ t, calls (fun _ => 0) (clear 1)
        [.insert (.make 0 1) (.slot 1), .insert (.make 0 2) (.slot 2),
          .insert (.make 0 3) (.slot 3), .upsert (.make 0 4) (.slot 4)
            (.make 0 4), .remove (.make 0 1) (.slot 1),
          .insert (.make 0 4) (.slot 5), .rmw (.make 0 2) (.slot 6)
            (.slot 2), .checkAndRemove (.make 0 2),
          .checkAndRemove (.make 0 2)] =
        some (t, [(true, none), (true, none), (true, none), (true, none),
          (true, none), (false, some (.slot 4)), (true, none), (true, none),
          (false, none)]) ∧
      t.getIn (fun _ => 0) (.make 0 4) = some (.slot 4) := by
  obtain ⟨t, hcalls, hget⟩ := calls_as_map (fun _ => 0) 1
    [.insert (.make 0 1) (.slot 1), .insert (.make 0 2) (.slot 2),
      .insert (.make 0 3) (.slot 3), .upsert (.make 0 4) (.slot 4)
        (.make 0 4), .remove (.make 0 1) (.slot 1),
      .insert (.make 0 4) (.slot 5), .rmw (.make 0 2) (.slot 6) (.slot 2),
      .checkAndRemove (.make 0 2), .checkAndRemove (.make 0 2)]
    (by simp [TableOp.Addressed]) (by simp [TableOp.ByValue])
  refine ⟨t, hcalls.trans ?_, ?_⟩
  · congr 1
  · rw [hget]
    rfl

/-! ## Removal by key alone -/

/-- Counts are exact and no overflow bucket is empty. -/
structure Counted (t : PageTable) : Prop where
  count_eq : ∀ i, ∀ b ∈ t.table i, b.count.toNat = used b
  overflow : ∀ i, ∀ b ∈ (t.table i).tail, b.count ≠ 0

/-- A removal of the key answers whether it is in the table, and changes
nothing when it is not. -/
structure RemovesKey (hash : GlobalAddress → ℕ) (t : PageTable)
    (key : GlobalAddress) : Prop where
  found : (t.removeKeyIn hash key).2 = (t.getIn hash key).isSome
  absent : t.getIn hash key = none → (t.removeKeyIn hash key).1 = t

/-- Along a history counts stay exact, no entry of another key is dropped and
every removal by key alone does what it promises. -/
def RemovesKeys (hash : GlobalAddress → ℕ) : PageTable → List TableOp → Prop
  | t, [] => t.Counted
  | t, op :: ops =>
      t.Counted ∧ (∀ key, op = .removeKey key → t.RemovesKey hash key) ∧
        ∀ t' reply, t.call hash op = some (t', reply) →
          t'.getIn hash = op.effect (t.getIn hash) ∧ RemovesKeys hash t' ops

theorem Inv.counted (h : t.Inv) : t.Counted :=
  ⟨fun i => (h i).count_eq, fun i => (h i).overflow⟩

theorem Inv.removesKey_iff (h : t.Inv) {key : GlobalAddress} :
    t.RemovesKey hash key ↔ t.Known hash key := by
  obtain ⟨hfound, _⟩ := removeKeyChain_spec (h (t.headOf hash key)) key
  constructor
  · rintro ⟨hreply, _⟩
    by_contra hunknown
    obtain ⟨hnone, hframe⟩ := not_or.mp hunknown
    push Not at hnone hframe
    obtain ⟨chain, hchain⟩ := Option.isSome_iff_exists.mp (hfound.mpr hframe)
    simp [PageTable.removeKeyIn, hchain, hnone] at hreply
  · intro hknown
    refine ⟨(h.removeKeyIn hknown).2.2, fun hnone => ?_⟩
    have hnot := hknown.resolve_left (by simp [hnone])
    have hremove : removeKeyChain key false (t.table (t.headOf hash key)) =
        none := by
      rw [← Option.not_isSome_iff_eq_none, hfound]
      push Not
      exact hnot
    simp [PageTable.removeKeyIn, hremove]

/-- Any call that returns keeps counts exact and changes the map under its
key alone. -/
theorem Inv.call_returns (h : t.Inv) {op : TableOp}
    (hknown : ∀ key, op = .removeKey key → t.Known hash key)
    {t' : PageTable} {reply : TableReply}
    (hcall : t.call hash op = some (t', reply)) :
    t'.Inv ∧ t'.getIn hash = op.effect (t.getIn hash) := by
  obtain ⟨t'', hcall', hinv, hget⟩ := h.call op.addressed_atKey (by
      intro key hop
      exact hknown key (op.eq_removeKey_of_atKey hop))
  rw [call_atKey hcall, Option.some.injEq, Prod.mk.injEq] at hcall'
  obtain ⟨rfl, -⟩ := hcall'
  exact ⟨hinv, hget.trans (op.effect_atKey _)⟩

/-- Along a history removals by key alone do what they promise just when
each one is of a key in the table, or of one that no frame of its chain has. -/
theorem removesKeys_iff_known (hash : GlobalAddress → ℕ) (bucketNum : ℕ)
    (ops : List TableOp) : RemovesKeys hash (clear bucketNum) ops ↔
      KnownRemovals hash (clear bucketNum) ops := by
  suffices h : ∀ t : PageTable, t.Inv →
      (RemovesKeys hash t ops ↔ KnownRemovals hash t ops) from
    h _ (inv_clear bucketNum)
  induction ops with
  | nil => exact fun t h => iff_of_true h.counted trivial
  | cons op ops ih =>
      intro t h
      constructor
      · rintro ⟨_, hremoves, hrest⟩
        have hknown : ∀ key, op = .removeKey key → t.Known hash key :=
          fun key hop => h.removesKey_iff.mp (hremoves key hop)
        refine ⟨hknown, fun t' reply hcall => ?_⟩
        exact (ih t' (h.call_returns hknown hcall).1).mp
          (hrest t' reply hcall).2
      · rintro ⟨hknown, hrest⟩
        refine ⟨h.counted,
          fun key hop => h.removesKey_iff.mpr (hknown key hop), ?_⟩
        intro t' reply hcall
        obtain ⟨hinv, hget⟩ := h.call_returns hknown hcall
        exact ⟨hget, (ih t' hinv).mpr (hrest t' reply hcall)⟩

/-- A key removed twice: its frame is free and still has the key. -/
theorem removed_twice :
    ¬ RemovesKeys (fun _ => 0) (clear 1)
        [.insert (.make 0 1) (.slot 1), .removeKey (.make 0 1),
          .removeKey (.make 0 1)] ∧
      ∃ t, calls (fun _ => 0) (clear 1)
          [.insert (.make 0 1) (.slot 1), .removeKey (.make 0 1),
            .removeKey (.make 0 1)] =
          some (t, [(true, none), (true, none), (true, none)]) ∧
        (t.table 0).map PageBucket.count = [4294967295] := by
  constructor
  · intro h
    have hfirst := h.2.2 _ _ rfl
    have hsecond := hfirst.2.2.2 _ _ rfl
    have hthird := (hsecond.2.2.1 (.make 0 1) rfl).found
    exact absurd hthird (by decide)
  · exact ⟨_, rfl, rfl⟩

end Calls

end PageTable

end CachingDex
