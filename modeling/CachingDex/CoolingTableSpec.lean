import CachingDex.CoolingTable

/-!
# The cooling table holds queues of pages

On words whose pages lie apart below 2 ^ 48 a bucket is a list of pages and
each call edits one such list: an insertion puts its page in front and drops
the last one of a full bucket, a promotion erases the page it finds, an
eviction drops the last page of the first bucket in its range that has one.
With the ledger of the calls this gives the promises of the interface along
every history.
-/

namespace CachingDex

open Lib

/-! ## Words -/

theorem toNat_and_addressHide (w : UInt64) :
    (w &&& addressHide).toNat = w.toNat % 2 ^ 48 := by
  rw [UInt64.toNat_and, show addressHide.toNat = 2 ^ 48 - 1 from rfl,
    Nat.and_two_pow_sub_one_eq_mod]

theorem toNat_shiftRight_48 (w : UInt64) :
    (w >>> 48).toNat = w.toNat / 2 ^ 48 := by
  rw [UInt64.toNat_shiftRight, Nat.shiftRight_eq_div_pow]
  rfl

/-- A small number over a masked one does not touch it. -/
theorem toNat_packed {fp : UInt64} (hfp : fp.toNat < 2 ^ 16)
    (value : UInt64) : (fp <<< 48 ||| (value &&& addressHide)).toNat =
      fp.toNat * 2 ^ 48 + value.toNat % 2 ^ 48 := by
  have hlow : value.toNat % 2 ^ 48 < 2 ^ 48 := Nat.mod_lt _ (by norm_num)
  have hshift : (fp <<< 48).toNat = fp.toNat <<< 48 := by
    rw [UInt64.toNat_shiftLeft]
    change (fp.toNat <<< 48) % 2 ^ 64 = _
    rw [Nat.shiftLeft_eq]
    omega
  rw [UInt64.toNat_or, toNat_and_addressHide, hshift,
    ← Nat.shiftLeft_add_eq_or_of_lt hlow, Nat.shiftLeft_eq]

namespace WordBucket

variable {b : WordBucket}

theorem length_words (h : b.count ≤ 6) : b.words.length = b.count :=
  length_live _ h

theorem words_push (h : b.count < 6) (payload : UInt64) :
    (b.push payload).words = payload :: b.words := by
  simp only [words, push]
  rw [live_moveUp_set b.frames payload (Nat.zero_le _) (by omega) (by omega)]
  rfl

theorem words_pop (h : b.count ≤ 6) :
    (⟨b.count - 1, b.frames⟩ : WordBucket).words = b.words.dropLast := by
  rw [List.dropLast_eq_take, length_words h, words, words,
    live_take _ (by omega)]

theorem words_remove (h : b.count ≤ 6) {idx : ℕ} (hidx : idx < b.count) :
    (b.remove idx).words = b.words.eraseIdx idx := by
  simp only [words, remove]
  rw [live_moveDown _ hidx h, live_set, List.eraseIdx_set_eq]

theorem getLast?_words (hpos : b.count ≠ 0) (h : b.count ≤ 6) :
    b.words.getLast? = some b.last := by
  rw [List.getLast?_eq_getElem?, length_words h, words, getElem?_live,
    if_pos (by omega), last]
  have : b.count - 1 < 6 := by omega
  simp [this]

theorem getElem?_words (h : b.count ≤ 6) {idx : ℕ} (hidx : idx < b.count) :
    b.words[idx]? = some ((b.frames[idx]?).getD 0) := by
  have : idx < 6 := by omega
  rw [words, getElem?_live, if_pos hidx]
  simp [this]

end WordBucket

namespace CoolTier

section Words

variable {hash : UInt64 → UInt64} {L : Layout} {t : CoolTier}

theorem toNat_fingerprint_lt (hash : UInt64 → UInt64) (key : UInt64) :
    (fingerprint hash key).toNat < 2 ^ 16 := by
  rw [fingerprint, UInt64.toNat_or, UInt64.toNat_shiftRight]
  apply Nat.or_lt_two_pow
  · have := (hash key).toNat_lt
    change (hash key).toNat >>> 49 < _
    rw [Nat.shiftRight_eq_div_pow]
    omega
  · decide

theorem payload_shiftRight (key : UInt64) (value : PagePtr) :
    payload hash L key value >>> 48 = fingerprint hash key := by
  have hfp := toNat_fingerprint_lt hash key
  apply UInt64.toNat_inj.mp
  rw [toNat_shiftRight_48, payload, toNat_packed hfp]
  omega

theorem payload_and (key : UInt64) {value : PagePtr} (h : L.Apart value) :
    payload hash L key value &&& addressHide = L.address value := by
  have hfp := toNat_fingerprint_lt hash key
  have := h.lt
  apply UInt64.toNat_inj.mp
  rw [toNat_and_addressHide, payload, toNat_packed hfp]
  omega

theorem unpack_payload (key : UInt64) {value : PagePtr} (h : L.Apart value) :
    unpack L (payload hash L key value) = value := by
  rw [unpack, payload_and key h, h.pageAt_address]

end Words

/-! ## What the calls promise -/

section Promises

variable (hash : UInt64 → UInt64) (L : Layout) (t : CoolTier)

/-- The pages of a bucket, front first. -/
def pages (i : ℕ) : List PagePtr :=
  (t.table i).words.map (unpack L)

/-- The address of a page, as a key. -/
def keyOf (p : PagePtr) : UInt64 :=
  (t.page p).remoteAddress.val

def Stored (p : PagePtr) : Prop :=
  ∃ i < t.bucketNum, p ∈ t.pages L i

/-- Live frame `f.2` of bucket `f.1` holds the page. -/
def Holds (f : ℕ × ℕ) (p : PagePtr) : Prop :=
  f.1 < t.bucketNum ∧ (t.pages L f.1)[f.2]? = some p

/-- Every page taken in is in one live frame or has been handed back once
since; a bucket has at most six pages, the newest first. -/
structure Settled (l : Ledger PagePtr) : Prop where
  unseen : ∀ p, l.backs p = none → ∀ f, ¬ t.Holds L f p
  accounted : ∀ p n, l.backs p = some n →
    (n = 0 ∧ ∃! f, t.Holds L f p) ∨ (n = 1 ∧ ∀ f, ¬ t.Holds L f p)
  capacity : ∀ i < t.bucketNum, (t.pages L i).length ≤ 6
  newest_first : ∀ i < t.bucketNum,
    (t.pages L i).Pairwise fun a b => l.lastTaken b < l.lastTaken a

/-- The page table after an eviction: only the victim's own entry is
dropped. -/
def DropsOwnEntry (t' : CoolTier) (victim : PagePtr) : Prop :=
  let key := (t.page victim).remoteAddress
  let m := t.pageTable.getIn (addressHash hash)
  t'.pageTable.getIn (addressHash hash) =
    if m key = some victim then Function.update m key none else m

/-- What an eviction, if there was one, did to the tables. -/
def Evicts (l : Ledger PagePtr) (t' : CoolTier) : Option PagePtr → Prop
  | none => t'.pageTable = t.pageTable
  | some victim =>
      (∃ i < t.bucketNum, (t.pages L i).getLast? = some victim ∧
        ∀ q ∈ t.pages L i, l.lastTaken victim ≤ l.lastTaken q) ∧
      t.DropsOwnEntry hash t' victim

end Promises

end CoolTier

/-- The calls of a caller that keeps to the rules: pages go in clean, under
their own address and not twice, and are asked for under their own address;
a probe starts at a bucket of the table. -/
def CoolOp.Allowed (L : Layout) (t : CoolTier) : CoolOp → Prop
  | .insert key p =>
      (t.page p).dirty = false ∧ key = t.keyOf p ∧ L.Apart p ∧ ¬ t.Stored L p
  | .tryPromote _ => True
  | .tryPromoteUsingValue key p => key = t.keyOf p ∧ L.Apart p
  | .randomEvictToRemote idx _ => idx < t.bucketNum

/-- The pages a call takes in and hands back, the last one first. -/
def CoolOp.entries (reply : CoolReply) : CoolOp → Ledger PagePtr
  | .insert _ p => .taken p :: reply.2.toList.map .back
  | .tryPromoteUsingValue _ p => if reply.1 then [.back p] else []
  | _ => reply.2.toList.map .back

/-- What a call answers and leaves. -/
def CoolOp.Promise (hash : UInt64 → UInt64) (L : Layout)
    (l : Ledger PagePtr) (t t' : CoolTier) (reply : CoolReply) :
    CoolOp → Prop
  | .insert key p =>
      let i := t.bucketIdx hash key
      let ps := t.pages L i
      reply.2 = (if ps.length = 6 then ps.getLast? else none) ∧
        t.Evicts hash L l t' reply.2 ∧
        t'.pages L = Function.update (t.pages L) i
          (p :: if ps.length = 6 then ps.dropLast else ps)
  | .tryPromote key =>
      (reply.1 = true ↔ ∃ q, t.Stored L q ∧ t.keyOf q = key) ∧
        (reply.1 = true ↔ reply.2 ≠ none) ∧
        ∀ p, reply.2 = some p → t.Stored L p ∧ t.keyOf p = key ∧
          (∀ q, t.Stored L q → t.keyOf q = key →
            l.lastTaken q ≤ l.lastTaken p) ∧
          ∀ i, t'.pages L i = (t.pages L i).erase p
  | .tryPromoteUsingValue _ p =>
      (reply.1 = true ↔ t.Stored L p) ∧
        ∀ i, t'.pages L i = (t.pages L i).erase p
  | .randomEvictToRemote idx probingLength =>
      t.Evicts hash L l t' reply.2 ∧
        (reply.2 = none ↔ ∀ i, idx ≤ i →
          i < min t.bucketNum (idx + probingLength) → t.pages L i = []) ∧
        ∀ i, t'.pages L i = match reply.2 with
          | none => t.pages L i
          | some victim => (t.pages L i).erase victim

namespace CoolTier

/-- Along a history every call that is allowed returns and keeps its
promises, and the table is settled throughout. -/
def Behaves (hash : UInt64 → UInt64) (L : Layout) :
    Ledger PagePtr → CoolTier → List CoolOp → Prop
  | l, t, [] => t.Settled L l
  | l, t, op :: ops =>
      t.Settled L l ∧ (op.Allowed L t → ∃ t' reply,
        t.call hash L op = some (t', reply) ∧
          op.Promise hash L l t t' reply ∧
          Behaves hash L (op.entries reply ++ l) t' ops)

/-! ## The words of the pages -/

section Shows

variable {hash : UInt64 → UInt64} {L : Layout} {t : CoolTier}
  {b : WordBucket} {ps : List PagePtr} {p : PagePtr} {idx i : ℕ}

/-- The word of a page's frame. -/
def wordOf (hash : UInt64 → UInt64) (L : Layout) (t : CoolTier)
    (p : PagePtr) : UInt64 :=
  payload hash L (t.keyOf p) p

/-- The bucket holds the words of the pages. -/
structure Shows (hash : UInt64 → UInt64) (L : Layout) (t : CoolTier)
    (b : WordBucket) (ps : List PagePtr) : Prop where
  count_le : b.count ≤ 6
  words_eq : b.words = ps.map (t.wordOf hash L)
  apart : ∀ p ∈ ps, L.Apart p

theorem Shows.length (h : Shows hash L t b ps) : ps.length = b.count := by
  rw [← WordBucket.length_words h.count_le, h.words_eq, List.length_map]

theorem Shows.congr (h : Shows hash L t b ps) {t' : CoolTier}
    (hkey : t'.keyOf = t.keyOf) : Shows hash L t' b ps := by
  refine ⟨h.count_le, ?_, h.apart⟩
  have : t'.wordOf hash L = t.wordOf hash L := by
    funext p
    rw [wordOf, wordOf, hkey]
  rw [this]
  exact h.words_eq

theorem Shows.unpack (h : Shows hash L t b ps) :
    b.words.map (unpack L) = ps := by
  rw [h.words_eq, List.map_map]
  conv_rhs => rw [← List.map_id ps]
  exact List.map_congr_left fun p hp => unpack_payload _ (h.apart p hp)

theorem Shows.push (h : Shows hash L t b ps) (hlt : ps.length < 6)
    (hp : L.Apart p) :
    Shows hash L t (b.push (payload hash L (t.keyOf p) p)) (p :: ps) := by
  have hcount : b.count < 6 := h.length ▸ hlt
  refine ⟨hcount, ?_, ?_⟩
  · rw [WordBucket.words_push hcount, h.words_eq]
    rfl
  · intro q hq
    rcases List.mem_cons.mp hq with rfl | hq
    · exact hp
    · exact h.apart q hq

theorem Shows.pop (h : Shows hash L t b ps) :
    Shows hash L t ⟨b.count - 1, b.frames⟩ ps.dropLast := by
  have hle := h.count_le
  refine ⟨?_, ?_, fun p hp => h.apart p (List.mem_of_mem_dropLast hp)⟩
  · change b.count - 1 ≤ 6
    omega
  · rw [WordBucket.words_pop hle, h.words_eq, List.map_dropLast]

theorem Shows.remove (h : Shows hash L t b ps) (hidx : idx < ps.length) :
    Shows hash L t (b.remove idx) (ps.eraseIdx idx) := by
  have hle := h.count_le
  rw [h.length] at hidx
  refine ⟨?_, ?_, fun p hp => h.apart p (List.mem_of_mem_eraseIdx hp)⟩
  · change b.count - 1 ≤ 6
    omega
  · rw [WordBucket.words_remove hle hidx, h.words_eq, List.eraseIdx_map]

theorem Shows.last (h : Shows hash L t b ps) (hpos : b.count ≠ 0) :
    ps.getLast? = some (CoolTier.unpack L b.last) := by
  have := WordBucket.getLast?_words hpos h.count_le
  rw [← h.unpack, List.getLast?_map, this, Option.map_some]

theorem Shows.frame (h : Shows hash L t b ps) (hidx : idx < ps.length) :
    CoolTier.unpack L ((b.frames[idx]?).getD 0) = ps[idx] := by
  have hword := WordBucket.getElem?_words h.count_le (h.length ▸ hidx)
  have hpage : ps[idx]? = some (CoolTier.unpack L ((b.frames[idx]?).getD 0)) := by
    rw [← h.unpack, List.getElem?_map, hword, Option.map_some]
  rw [List.getElem?_eq_getElem hidx, Option.some.injEq] at hpage
  exact hpage.symm

theorem findIdx?_congr {α : Type} {f g : α → Bool} {l : List α}
    (h : ∀ x ∈ l, f x = g x) : l.findIdx? f = l.findIdx? g := by
  induction l with
  | nil => rfl
  | cons x l ih =>
      rw [List.findIdx?_cons, List.findIdx?_cons, h x (by simp),
        ih fun y hy => h y (by simp [hy])]

/-- `match` finds the first page with the key. -/
theorem Shows.matchKey (h : Shows hash L t b ps) (key : UInt64) :
    t.matchKey L key (fingerprint hash key) b =
      ps.findIdx? fun p => t.keyOf p = key := by
  rw [CoolTier.matchKey, h.words_eq, List.findIdx?_map]
  apply findIdx?_congr
  intro p hp
  have hunpack : CoolTier.unpack L (t.wordOf hash L p) = p :=
    unpack_payload _ (h.apart p hp)
  have hfp : t.wordOf hash L p >>> 48 = fingerprint hash (t.keyOf p) :=
    payload_shiftRight _ _
  simp only [Function.comp, hunpack, hfp]
  change decide (_ ∧ t.keyOf p = key) = _
  by_cases hkey : t.keyOf p = key <;> simp [hkey]

/-- `match_value` finds the page. -/
theorem Shows.matchValue (h : Shows hash L t b ps) (hp : L.Apart p) :
    CoolTier.matchValue L (fingerprint hash (t.keyOf p)) p b =
      ps.findIdx? fun q => q = p := by
  rw [CoolTier.matchValue, h.words_eq, List.findIdx?_map]
  apply findIdx?_congr
  intro q hq
  have hq' := h.apart q hq
  have haddress : t.wordOf hash L q &&& addressHide = L.address q :=
    payload_and _ hq'
  have hfp : t.wordOf hash L q >>> 48 = fingerprint hash (t.keyOf q) :=
    payload_shiftRight _ _
  simp only [Function.comp, haddress, hfp]
  by_cases heq : q = p
  · simp [heq]
  · have : L.address q ≠ L.address p := by
      intro haddr
      apply heq
      rw [← hq'.pageAt_address, haddr, hp.pageAt_address]
    simp [heq, this]

end Shows

/-! ## The invariant -/

structure Intact (hash : UInt64 → UInt64) (L : Layout)
    (l : Ledger PagePtr) (t : CoolTier) : Prop where
  buckets : 0 < t.bucketNum
  shows : ∀ i, Shows hash L t (t.table i) (t.pages L i)
  placed : ∀ {i p}, p ∈ t.pages L i → i = t.bucketIdx hash (t.keyOf p)
  clean : ∀ {i p}, p ∈ t.pages L i → (t.page p).dirty = false
  kept : Kept l (t.pages L)
  table : t.pageTable.Inv

section Steps

variable {hash : UInt64 → UInt64} {L : Layout} {l l' : Ledger PagePtr}
  {t t' : CoolTier} {p v : PagePtr} {i : ℕ}

theorem bucketIdx_lt (h : 0 < t.bucketNum) (key : UInt64) :
    t.bucketIdx hash key < t.bucketNum :=
  Nat.mod_lt _ h

theorem Intact.stored_iff (h : Intact hash L l t) :
    t.Stored L p ↔ p ∈ t.pages L (t.bucketIdx hash (t.keyOf p)) := by
  constructor
  · rintro ⟨i, _, hp⟩
    exact h.placed hp ▸ hp
  · exact fun hp => ⟨_, bucketIdx_lt h.buckets _, hp⟩

theorem Intact.not_mem (h : Intact hash L l t) (hp : ¬ t.Stored L p) (i : ℕ) :
    p ∉ t.pages L i := by
  intro hmem
  exact hp (h.stored_iff.mpr (h.placed hmem ▸ hmem))

theorem pages_setBucket {b : WordBucket} {ps : List PagePtr}
    (h : Shows hash L t b ps) :
    (t.setBucket i b).pages L = Function.update (t.pages L) i ps := by
  funext j
  by_cases hj : j = i
  · subst hj
    rw [Function.update_self, ← h.unpack]
    simp [pages, setBucket]
  · rw [Function.update_of_ne hj]
    simp [pages, setBucket, Function.update_of_ne hj]

/-- Another list of pages in a bucket. -/
theorem Intact.setBucket (h : Intact hash L l t) {b : WordBucket}
    {ps : List PagePtr} (hb : Shows hash L t b ps)
    (hps : ∀ q ∈ ps, i = t.bucketIdx hash (t.keyOf q) ∧
      (t.page q).dirty = false)
    (hkept : Kept l' (Function.update (t.pages L) i ps)) :
    Intact hash L l' (t.setBucket i b) := by
  have hpages := pages_setBucket (i := i) hb
  have hmem : ∀ {j q}, q ∈ (t.setBucket i b).pages L j →
      (j = i ∧ q ∈ ps) ∨ q ∈ t.pages L j := by
    intro j q hq
    rw [hpages] at hq
    by_cases hj : j = i
    · subst hj
      rw [Function.update_self] at hq
      exact Or.inl ⟨rfl, hq⟩
    · rw [Function.update_of_ne hj] at hq
      exact Or.inr hq
  refine ⟨h.buckets, ?_, ?_, ?_, hpages ▸ hkept, h.table⟩
  · intro j
    rw [hpages]
    by_cases hj : j = i
    · subst hj
      rw [Function.update_self, CoolTier.setBucket]
      dsimp only
      rw [Function.update_self]
      exact hb.congr rfl
    · rw [Function.update_of_ne hj, CoolTier.setBucket]
      dsimp only
      rw [Function.update_of_ne hj]
      exact (h.shows j).congr rfl
  · intro j q hq
    rcases hmem hq with ⟨rfl, hin⟩ | hin
    · exact (hps q hin).1
    · exact h.placed hin
  · intro j q hq
    rcases hmem hq with ⟨_, hin⟩ | hin
    · exact (hps q hin).2
    · exact h.clean hin

theorem Intact.pages_erase (h : Intact hash L l t) (hp : p ∈ t.pages L i) :
    Function.update (t.pages L) i ((t.pages L i).erase p) =
      fun j => (t.pages L j).erase p := by
  funext j
  by_cases hj : j = i
  · rw [hj, Function.update_self]
  · rw [Function.update_of_ne hj, List.erase_of_not_mem]
    exact fun hmem => hj (h.kept.apart hmem hp)

/-- A bucket whose list lost a page. -/
theorem Intact.handBack (h : Intact hash L l t) (hp : p ∈ t.pages L i)
    {b : WordBucket} (hb : Shows hash L t b ((t.pages L i).erase p)) :
    Intact hash L (.back p :: l) (t.setBucket i b) := by
  refine h.setBucket hb ?_ (h.kept.handBack hp)
  intro q hq
  have hmem := List.mem_of_mem_erase hq
  exact ⟨h.placed hmem, h.clean hmem⟩

theorem Intact.evictLast (h : Intact hash L l t) (i : ℕ) :
    (t.pages L i = [] ∧ t.evictLast L i = some (t, none)) ∨
      ∃ v t', t.evictLast L i = some (t', some v) ∧
        (t.pages L i).getLast? = some v ∧ t'.page = t.page ∧
        t'.bucketNum = t.bucketNum ∧ t'.pageTable = t.pageTable ∧
        Intact hash L (.back v :: l) t' ∧
        t'.pages L = Function.update (t.pages L) i (t.pages L i).dropLast ∧
        (t.pages L i).dropLast = (t.pages L i).erase v := by
  have hshows := h.shows i
  unfold CoolTier.evictLast
  dsimp only
  by_cases hpos : (t.table i).count = 0
  · rw [if_pos hpos]
    refine Or.inl ⟨?_, rfl⟩
    exact List.length_eq_zero_iff.mp (hshows.length.trans hpos)
  · rw [if_neg hpos]
    have hlast := hshows.last hpos
    have hmem := List.mem_of_getLast? hlast
    rw [h.clean hmem]
    obtain ⟨front, hfront⟩ := List.getLast?_eq_some_iff.mp hlast
    have herase : (t.pages L i).dropLast =
        (t.pages L i).erase (unpack L (t.table i).last) := by
      have hnodup := h.kept.nodup i
      rw [hfront] at hnodup ⊢
      have hnot : unpack L (t.table i).last ∉ front := by
        intro hin
        exact (List.nodup_append.mp hnodup).2.2 _ hin _ (by simp) rfl
      rw [List.dropLast_concat, List.erase_append_right _ hnot]
      simp
    have hpop := hshows.pop
    have hpages := pages_setBucket (i := i) hpop
    rw [herase] at hpop
    exact Or.inr ⟨_, _, rfl, hlast, rfl, rfl, rfl, h.handBack hmem hpop,
      hpages, herase⟩

/-- Changes that leave the buckets, the addresses and the dirty flags. -/
theorem Intact.congr (h : Intact hash L l t)
    (hnum : t'.bucketNum = t.bucketNum) (htable : t'.table = t.table)
    (hkey : t'.keyOf = t.keyOf)
    (hclean : ∀ q, (t'.page q).dirty = (t.page q).dirty)
    (hpageTable : t'.pageTable.Inv) :
    Intact hash L l t' ∧ t'.pages L = t.pages L := by
  have hpages : t'.pages L = t.pages L := by
    funext j
    rw [pages, pages, htable]
  refine ⟨⟨hnum ▸ h.buckets, ?_, ?_, ?_, hpages ▸ h.kept, hpageTable⟩, hpages⟩
  · intro j
    rw [htable, hpages]
    exact (h.shows j).congr hkey
  · intro j q hq
    rw [hpages] at hq
    rw [hkey, CoolTier.bucketIdx, hnum]
    exact h.placed hq
  · intro j q hq
    rw [hpages] at hq
    rw [hclean]
    exact h.clean hq

theorem Intact.removeEntry (h : Intact hash L l t) (v : PagePtr) :
    Intact hash L l (t.removeEntry hash v) ∧
      (t.removeEntry hash v).pages L = t.pages L ∧
      t.DropsOwnEntry hash (t.removeEntry hash v) v := by
  have hcall : ∃ pageTable reply,
      t.pageTable.call (addressHash hash)
        (.remove (t.page v).remoteAddress v) = some (pageTable, reply) ∧
      pageTable.Inv ∧ pageTable.getIn (addressHash hash) =
        TableOp.effect (t.pageTable.getIn (addressHash hash))
          (.remove (t.page v).remoteAddress v) := by
    obtain ⟨pageTable, hcall, hinv, hget⟩ := h.table.call
      (show (TableOp.remove (t.page v).remoteAddress v).Addressed from trivial)
      (by simp)
    exact ⟨pageTable, _, hcall, hinv, hget⟩
  obtain ⟨pageTable, reply, hcall, hinv, hget⟩ := hcall
  have hremove : t.removeEntry hash v = { t with pageTable := pageTable } := by
    simp only [CoolTier.removeEntry, hcall]
  rw [hremove]
  have hstep : Intact hash L l { t with pageTable := pageTable } ∧
      CoolTier.pages L { t with pageTable := pageTable } = t.pages L :=
    h.congr rfl rfl rfl (fun _ => rfl) hinv
  obtain ⟨hintact, hpages⟩ := hstep
  refine ⟨hintact, hpages, ?_⟩
  unfold DropsOwnEntry
  dsimp only
  rw [hget, TableOp.effect]
  split_ifs
  · rfl
  · exact Function.update_eq_self _ _

theorem page_setBucket (b : WordBucket) : (t.setBucket i b).page = t.page :=
  rfl

theorem page_markCool_of_ne (h : v ≠ p) :
    (t.markCool p).page v = t.page v :=
  Function.update_of_ne h _ _

theorem Intact.markCool (h : Intact hash L l t) (p : PagePtr) :
    Intact hash L l (t.markCool p) ∧
      (t.markCool p).pages L = t.pages L := by
  have hsame : ∀ q, ((t.markCool p).page q).remoteAddress =
      (t.page q).remoteAddress ∧
        ((t.markCool p).page q).dirty = (t.page q).dirty := by
    intro q
    change (Function.update t.page p _ q).remoteAddress = _ ∧
      (Function.update t.page p _ q).dirty = _
    by_cases hq : q = p
    · rw [hq, Function.update_self]
      exact ⟨rfl, rfl⟩
    · rw [Function.update_of_ne hq]
      exact ⟨rfl, rfl⟩
  have hkey : (t.markCool p).keyOf = t.keyOf := by
    funext q
    rw [keyOf, keyOf, (hsame q).1]
  exact h.congr rfl rfl hkey (fun q => (hsame q).2) h.table

theorem dropsOwnEntry_congr {u : CoolTier} (hpage : u.page v = t.page v)
    (hpt : u.pageTable = t.pageTable) :
    u.DropsOwnEntry hash t' v ↔ t.DropsOwnEntry hash t' v := by
  rw [DropsOwnEntry, DropsOwnEntry, hpage, hpt]

/-- A page that is not stored goes to the front of its bucket. -/
theorem Intact.push (h : Intact hash L l t) (hnew : ¬ t.Stored L p)
    (hclean : (t.page p).dirty = false) (hp : L.Apart p)
    (hlt : (t.pages L (t.bucketIdx hash (t.keyOf p))).length < 6) :
    let i := t.bucketIdx hash (t.keyOf p)
    let t' := t.setBucket i
      ((t.table i).push (payload hash L (t.keyOf p) p))
    Intact hash L (.taken p :: l) t' ∧
      t'.pages L = Function.update (t.pages L) i (p :: t.pages L i) := by
  intro i t'
  have hb := (h.shows i).push hlt hp
  refine ⟨h.setBucket hb ?_ (h.kept.take (h.not_mem hnew) i),
    pages_setBucket hb⟩
  intro q hq
  rcases List.mem_cons.mp hq with rfl | hq
  · exact ⟨rfl, hclean⟩
  · exact ⟨h.placed hq, h.clean hq⟩

/-- The page evicted from a full bucket leaves room for a page that is not
stored. -/
theorem Intact.insert_full (h : Intact hash L l t) (hnew : ¬ t.Stored L p)
    (hclean : (t.page p).dirty = false) (hp : L.Apart p)
    (hfull : (t.table (t.bucketIdx hash (t.keyOf p))).count = 6) :
    ∃ v t', t.insert hash L (t.keyOf p) p = some (t', some v) ∧
      (t.pages L (t.bucketIdx hash (t.keyOf p))).getLast? = some v ∧
      t.DropsOwnEntry hash t' v ∧
      t'.pages L = Function.update (t.pages L)
        (t.bucketIdx hash (t.keyOf p))
        (p :: (t.pages L (t.bucketIdx hash (t.keyOf p))).dropLast) ∧
      Intact hash L (.taken p :: .back v :: l) t' := by
  have hcount := (h.shows (t.bucketIdx hash (t.keyOf p))).length
  obtain ⟨hnil, _⟩ | ⟨v, u, hevict, hlast, hpage, hnum, hpt, hintact, hpages,
    herase⟩ := h.evictLast (t.bucketIdx hash (t.keyOf p))
  · rw [hnil, hfull] at hcount
    simp at hcount
  · have hkey : u.keyOf p = t.keyOf p := by
      rw [keyOf, keyOf, hpage]
    have hidx : u.bucketIdx hash (u.keyOf p) =
        t.bucketIdx hash (t.keyOf p) := by
      rw [hkey, CoolTier.bucketIdx, CoolTier.bucketIdx, hnum]
    have hmem := List.mem_of_getLast? hlast
    have hvp : v ≠ p := by
      rintro rfl
      exact hnew (h.stored_iff.mpr hmem)
    have hnew' : ¬ u.Stored L p := by
      rw [hintact.stored_iff, hidx, hpages, Function.update_self]
      exact fun hin => hnew (h.stored_iff.mpr (List.mem_of_mem_dropLast hin))
    have hlt : (u.pages L (u.bucketIdx hash (u.keyOf p))).length < 6 := by
      rw [hidx, hpages, Function.update_self, List.length_dropLast]
      omega
    obtain ⟨hpush, hpages'⟩ := hintact.push hnew' (hpage ▸ hclean) hp hlt
    rw [hidx, hkey] at hpush hpages'
    obtain ⟨hcool, hcoolPages⟩ := hpush.markCool p
    obtain ⟨hfinal, hsame, hdrops⟩ := hcool.removeEntry v
    refine ⟨v, _, ?_, hlast, ?_, ?_, hfinal⟩
    · unfold CoolTier.insert bucketInsert
      simp only [hclean, Bool.false_eq_true, if_false, hfull, if_true, hevict,
        Option.bind_eq_bind, Option.bind_some, Option.pure_def]
    · refine (dropsOwnEntry_congr ?_ ?_).mp hdrops
      · rw [page_markCool_of_ne hvp, page_setBucket, hpage]
      · exact hpt
    · rw [hsame, hcoolPages, hpages', hpages, Function.update_self,
        Function.update_idem]

theorem Intact.insert_room (h : Intact hash L l t) (hnew : ¬ t.Stored L p)
    (hclean : (t.page p).dirty = false) (hp : L.Apart p)
    (hroom : (t.table (t.bucketIdx hash (t.keyOf p))).count ≠ 6) :
    ∃ t', t.insert hash L (t.keyOf p) p = some (t', none) ∧
      t'.pageTable = t.pageTable ∧
      t'.pages L = Function.update (t.pages L)
        (t.bucketIdx hash (t.keyOf p))
        (p :: t.pages L (t.bucketIdx hash (t.keyOf p))) ∧
      Intact hash L (.taken p :: l) t' := by
  have hshows := h.shows (t.bucketIdx hash (t.keyOf p))
  have hle := hshows.count_le
  obtain ⟨hpush, hpages⟩ := h.push hnew hclean hp
    (by rw [hshows.length]; omega)
  obtain ⟨hcool, hcoolPages⟩ := hpush.markCool p
  refine ⟨_, ?_, ?_, hcoolPages.trans hpages, hcool⟩
  · unfold CoolTier.insert bucketInsert
    simp only [hclean, Bool.false_eq_true, if_false, if_neg hroom,
      Option.bind_eq_bind, Option.bind_some, Option.pure_def]
  · rfl

theorem Intact.insert (h : Intact hash L l t) {key : UInt64}
    (hop : (CoolOp.insert key p).Allowed L t) :
    ∃ t' evicted, t.insert hash L key p = some (t', evicted) ∧
      (CoolOp.insert key p).Promise hash L l t t' (true, evicted) ∧
      Intact hash L ((CoolOp.insert key p).entries (true, evicted) ++ l)
        t' := by
  obtain ⟨hclean, rfl, hp, hnew⟩ := hop
  have hlength := (h.shows (t.bucketIdx hash (t.keyOf p))).length
  by_cases hfull : (t.table (t.bucketIdx hash (t.keyOf p))).count = 6
  · obtain ⟨v, t', hinsert, hlast, hdrops, hpages, hintact⟩ :=
      h.insert_full hnew hclean hp hfull
    have hsix := hlength.trans hfull
    refine ⟨t', _, hinsert, ⟨?_, ⟨?_, hdrops⟩, ?_⟩, hintact⟩
    · rw [if_pos hsix, hlast]
    · exact ⟨_, bucketIdx_lt h.buckets _, hlast,
        fun q hq => h.kept.oldest hlast hq⟩
    · rw [hpages, if_pos hsix]
  · obtain ⟨t', hinsert, hpt, hpages, hintact⟩ :=
      h.insert_room hnew hclean hp hfull
    have hsix : ¬ (t.pages L (t.bucketIdx hash (t.keyOf p))).length = 6 :=
      fun heq => hfull (hlength.symm.trans heq)
    refine ⟨t', _, hinsert, ⟨?_, hpt, ?_⟩, hintact⟩
    · rw [if_neg hsix]
    · rw [hpages, if_neg hsix]

/-! ## Promotions -/

/-- The page at the position of a match is handed back. -/
theorem Intact.removeAt (h : Intact hash L l t) {idx : ℕ}
    (hidx : idx < (t.pages L i).length) :
    let t' := t.setBucket i ((t.table i).remove idx)
    Intact hash L (.back (t.pages L i)[idx] :: l) t' ∧
      ∀ j, t'.pages L j = (t.pages L j).erase (t.pages L i)[idx] := by
  intro t'
  have hmem : (t.pages L i)[idx] ∈ t.pages L i := List.getElem_mem hidx
  have hremove := (h.shows i).remove hidx
  rw [← (h.kept.nodup i).erase_getElem idx hidx] at hremove
  refine ⟨h.handBack hmem hremove, fun j => ?_⟩
  rw [pages_setBucket hremove, h.pages_erase hmem]

theorem Intact.tryPromote (h : Intact hash L l t) (key : UInt64) :
    let r := t.tryPromote hash L key
    (CoolOp.tryPromote key).Promise hash L l t r.1 (r.2.isSome, r.2) ∧
      Intact hash L ((CoolOp.tryPromote key).entries (r.2.isSome, r.2) ++ l)
        r.1 := by
  have hshows := h.shows (t.bucketIdx hash key)
  have hhome : ∀ q, t.Stored L q → t.keyOf q = key →
      q ∈ t.pages L (t.bucketIdx hash key) := by
    rintro q hq rfl
    exact h.stored_iff.mp hq
  intro r
  have hr : r = t.tryPromote hash L key := rfl
  unfold CoolTier.tryPromote at hr
  dsimp only at hr
  rw [hshows.matchKey] at hr
  cases hfind : (t.pages L (t.bucketIdx hash key)).findIdx? fun p =>
      t.keyOf p = key with
  | none =>
      rw [hfind] at hr
      rw [hr]
      have hno : ¬ ∃ q, t.Stored L q ∧ t.keyOf q = key := by
        rintro ⟨q, hq, hkey⟩
        have := List.findIdx?_eq_none_iff.mp hfind q (hhome q hq hkey)
        simp [hkey] at this
      exact ⟨⟨by simpa using hno, by simp, by simp⟩, h⟩
  | some idx =>
      rw [hfind] at hr
      obtain ⟨hidx, hkey, hbefore⟩ := List.findIdx?_eq_some_iff_getElem.mp hfind
      dsimp only at hr
      rw [hshows.frame hidx] at hr
      rw [hr]
      obtain ⟨hintact, hpages⟩ := h.removeAt hidx
      have hmem := List.getElem_mem hidx
      have hkey' : t.keyOf (t.pages L (t.bucketIdx hash key))[idx] = key :=
        of_decide_eq_true hkey
      have hstored : t.Stored L (t.pages L (t.bucketIdx hash key))[idx] :=
        ⟨_, bucketIdx_lt h.buckets _, hmem⟩
      refine ⟨⟨?_, by simp, ?_⟩, hintact⟩
      · exact iff_of_true rfl ⟨_, hstored, hkey'⟩
      · intro p hp
        obtain rfl := Option.some.inj hp
        refine ⟨hstored, hkey', fun q hq hqkey => ?_, hpages⟩
        have hfound : (t.pages L (t.bucketIdx hash key)).find?
            (fun p => t.keyOf p = key) =
            some (t.pages L (t.bucketIdx hash key))[idx] :=
          List.find?_eq_some_iff_getElem.mpr
            ⟨hkey, idx, hidx, rfl, fun j hj => by simpa using hbefore j hj⟩
        exact h.kept.newest_of_find hfound (hhome q hq hqkey)
          (by simpa using hqkey)

theorem Intact.tryPromoteUsingValue (h : Intact hash L l t) {key : UInt64}
    (hop : (CoolOp.tryPromoteUsingValue key p).Allowed L t) :
    let r := t.tryPromoteUsingValue hash L key p
    (CoolOp.tryPromoteUsingValue key p).Promise hash L l t r.1 (r.2, none) ∧
      Intact hash L
        ((CoolOp.tryPromoteUsingValue key p).entries (r.2, none) ++ l)
        r.1 := by
  obtain ⟨rfl, hp⟩ := hop
  have hshows := h.shows (t.bucketIdx hash (t.keyOf p))
  intro r
  have hr : r = t.tryPromoteUsingValue hash L (t.keyOf p) p := rfl
  unfold CoolTier.tryPromoteUsingValue at hr
  dsimp only at hr
  rw [hshows.matchValue hp] at hr
  cases hfind : (t.pages L (t.bucketIdx hash (t.keyOf p))).findIdx? fun q =>
      q = p with
  | none =>
      rw [hfind] at hr
      rw [hr]
      have hno : ¬ t.Stored L p := by
        intro hq
        have := List.findIdx?_eq_none_iff.mp hfind p (h.stored_iff.mp hq)
        simp at this
      refine ⟨⟨by simpa using hno, fun j => ?_⟩, h⟩
      exact (List.erase_of_not_mem (h.not_mem hno j)).symm
  | some idx =>
      rw [hfind] at hr
      obtain ⟨hidx, hkey, _⟩ := List.findIdx?_eq_some_iff_getElem.mp hfind
      have hat : (t.pages L (t.bucketIdx hash (t.keyOf p)))[idx] = p :=
        of_decide_eq_true hkey
      rw [hr]
      obtain ⟨hintact, hpages⟩ := h.removeAt hidx
      rw [hat] at hintact hpages
      have hmem := List.getElem_mem hidx
      rw [hat] at hmem
      exact ⟨⟨iff_of_true rfl (h.stored_iff.mpr hmem), hpages⟩, hintact⟩

/-! ## Evictions -/

theorem Intact.probe (h : Intact hash L l t) (n i : ℕ)
    (hi : i + n ≤ t.bucketNum ∨ n = 0) :
    ∃ t' r, t.probe hash L n i = some (t', r) ∧ t.Evicts hash L l t' r ∧
      (r = none ↔ ∀ j, i ≤ j → j < i + n → t.pages L j = []) ∧
      (∀ j, t'.pages L j = match r with
        | none => t.pages L j
        | some victim => (t.pages L j).erase victim) ∧
      Intact hash L (r.toList.map .back ++ l) t' := by
  induction n generalizing i with
  | zero =>
      refine ⟨t, none, rfl, rfl, ?_, fun _ => rfl, h⟩
      exact iff_of_true rfl fun j hj hlt => by omega
  | succ n ih =>
      have hlt : i < t.bucketNum := by omega
      unfold CoolTier.probe
      obtain ⟨hnil, hevict⟩ | ⟨v, u, hevict, hlast, hpage, hnum, hpt, hintact,
        hpages, herase⟩ := h.evictLast i
      · obtain ⟨t', r, hprobe, hevicts, hnone, hpages, hintact⟩ :=
          ih (i + 1) (by omega)
        refine ⟨t', r, ?_, hevicts, hnone.trans ?_, hpages, hintact⟩
        · rw [hevict]
          exact hprobe
        · constructor
          · intro hall j hj hjn
            rcases Nat.eq_or_lt_of_le hj with rfl | hj
            · exact hnil
            · exact hall j hj (by omega)
          · exact fun hall j hj hjn => hall j (by omega) (by omega)
      · obtain ⟨hfinal, hsame, hdrops⟩ := hintact.removeEntry v
        have hmem := List.mem_of_getLast? hlast
        refine ⟨_, some v, ?_, ⟨⟨i, hlt, hlast, fun q hq =>
          h.kept.oldest hlast hq⟩, ?_⟩, ?_, ?_, hfinal⟩
        · rw [hevict]
          rfl
        · exact (dropsOwnEntry_congr (by rw [hpage]) hpt).mp hdrops
        · refine iff_of_false (by simp) fun hall => ?_
          rw [hall i le_rfl (by omega)] at hmem
          cases hmem
        · intro j
          rw [hsame, hpages, herase, h.pages_erase hmem]

theorem Intact.call (h : Intact hash L l t) {op : CoolOp}
    (hop : op.Allowed L t) :
    ∃ t' reply, t.call hash L op = some (t', reply) ∧
      op.Promise hash L l t t' reply ∧
      Intact hash L (op.entries reply ++ l) t' := by
  cases op with
  | insert key p =>
      obtain ⟨t', evicted, hcall, hrest⟩ := h.insert hop
      exact ⟨t', (true, evicted), by simp [CoolTier.call, hcall], hrest⟩
  | tryPromote key => exact ⟨_, _, rfl, h.tryPromote key⟩
  | tryPromoteUsingValue key p =>
      exact ⟨_, _, rfl, h.tryPromoteUsingValue hop⟩
  | randomEvictToRemote idx probingLength =>
      have hidx : idx < t.bucketNum := hop
      obtain ⟨t', r, hcall, hevicts, hnone, hpages, hintact⟩ :=
        h.probe (min t.bucketNum (idx + probingLength) - idx) idx (by omega)
      refine ⟨t', (r.isSome, r), ?_, ⟨hevicts, hnone.trans ?_, hpages⟩, hintact⟩
      · simp [CoolTier.call, CoolTier.randomEvictToRemote, hcall]
      · constructor
        · exact fun hall j hj hlt => hall j hj (by omega)
        · exact fun hall j hj hlt => hall j hj (by omega)

/-- A table in order is settled. -/
theorem Intact.settled (h : Intact hash L l t) : t.Settled L l := by
  refine ⟨?_, ?_, fun i _ => ?_, fun i _ => h.kept.newest i⟩
  · intro p hp f hf
    have := h.kept.held (List.mem_of_getElem? hf.2)
    rw [hp] at this
    cases this
  · intro p n hn
    by_cases hp : t.Stored L p
    · left
      have hmem := h.stored_iff.mp hp
      have hzero := h.kept.held hmem
      rw [hn, Option.some.injEq] at hzero
      obtain ⟨j, hj, hat⟩ := List.getElem_of_mem hmem
      refine ⟨hzero, (t.bucketIdx hash (t.keyOf p), j),
        ⟨bucketIdx_lt h.buckets _, List.getElem?_eq_some_iff.mpr ⟨hj, hat⟩⟩, ?_⟩
      rintro ⟨i', j'⟩ hf
      have hi' : i' = t.bucketIdx hash (t.keyOf p) :=
        h.placed (List.mem_of_getElem? hf.2)
      subst hi'
      obtain ⟨hj', hat'⟩ := List.getElem?_eq_some_iff.mp hf.2
      exact Prod.ext rfl
        ((h.kept.nodup _).getElem_inj_iff.mp (hat'.trans hat.symm))
    · right
      refine ⟨?_, fun f hf => hp ⟨f.1, hf.1, List.mem_of_getElem? hf.2⟩⟩
      have hgone := h.kept.gone (h.not_mem hp)
      rw [hn] at hgone
      simpa using hgone
  · rw [(h.shows i).length]
    exact (h.shows i).count_le

/-- A table of empty buckets. -/
def fresh (page : PagePtr → Page) (bucketNum : ℕ) (pageTable : PageTable)
    (backend : InMemoryBackend) : CoolTier where
  page := page
  bucketNum := bucketNum
  table := fun _ => .empty
  pageTable := pageTable
  backend := backend

theorem intact_fresh {page : PagePtr → Page} {bucketNum : ℕ}
    {pageTable : PageTable} {backend : InMemoryBackend}
    (hnum : 0 < bucketNum) (htable : pageTable.Inv) :
    Intact hash L [] (fresh page bucketNum pageTable backend) := by
  have hpages : (fresh page bucketNum pageTable backend).pages L =
      fun _ => [] := by
    funext i
    simp [pages, fresh, WordBucket.words, WordBucket.empty]
  refine ⟨hnum, fun i => ?_, ?_, ?_, hpages ▸ Kept.empty, htable⟩
  · rw [hpages]
    exact ⟨Nat.zero_le _, live_zero _, by simp⟩
  · intro i p hp
    rw [hpages] at hp
    cases hp
  · intro i p hp
    rw [hpages] at hp
    cases hp

/-- Over any hash function and any history of calls that keep to the rules,
no call of the cooling table loses a page or holds one twice, evictions are
first in, first out in every bucket, and promotions find what they are asked
for. -/
theorem fresh_behaves (hash : UInt64 → UInt64) (L : Layout)
    (page : PagePtr → Page) {bucketNum : ℕ} {pageTable : PageTable}
    (backend : InMemoryBackend) (hnum : 0 < bucketNum)
    (htable : pageTable.Inv) (ops : List CoolOp) :
    Behaves hash L [] (fresh page bucketNum pageTable backend) ops := by
  suffices h : ∀ (l : Ledger PagePtr) (t : CoolTier), Intact hash L l t →
      Behaves hash L l t ops from h _ _ (intact_fresh hnum htable)
  induction ops with
  | nil => exact fun l t h => h.settled
  | cons op ops ih =>
      intro l t h
      refine ⟨h.settled, fun hop => ?_⟩
      obtain ⟨t', reply, hcall, hpromise, hintact⟩ := h.call hop
      exact ⟨t', reply, hcall, hpromise, ih _ _ hintact⟩

/-- Slots in a row of memory after the null page. -/
def rowLayout : Layout where
  address
    | .superRoot => 0
    | .slot i => UInt64.ofNat (1024 * (i + 1))
    | .ioFlag => (1 : UInt64) <<< 63
  pageAt w := if w = 0 then .superRoot else .slot (w.toNat / 1024 - 1)

/-- Two copies of one page go in, the newer one is promoted and the older
one evicted, in a table of one bucket. -/
theorem fresh_behaves_small :
    Behaves (fun _ => 0) rowLayout []
        (fresh (fun _ => { BTreeLeaf.construct (.make 0 1024) with
          dirty := false }) 1 (.clear 1) (.new 2))
        [.insert 67108864 (.slot 0), .insert 67108864 (.slot 1),
          .tryPromote 67108864, .randomEvictToRemote 0 8] ∧
      (CoolOp.insert 67108864 (.slot 0)).Allowed rowLayout
        (fresh (fun _ => { BTreeLeaf.construct (.make 0 1024) with
          dirty := false }) 1 (.clear 1) (.new 2)) := by
  refine ⟨fresh_behaves _ _ _ _ (by decide) (PageTable.inv_clear 1) _, rfl,
    rfl, ⟨by decide, by decide⟩, ?_⟩
  rintro ⟨i, _, hmem⟩
  simp [pages, fresh, WordBucket.words, WordBucket.empty] at hmem

end Steps

end CoolTier

end CachingDex
