/-
# The sparse bitfield

`Bitfield` is an unbounded row of bits, all `false` until set, kept in pages of
2^15 bits; a page that is missing reads as all `false`, and clearing bits never
makes one. The pages hold 64-bit words, and ranges are set word by word under masks.

What a field is for is the set of its bits. Every operation is stated by what it does
to `get`, and two fields with the same bits are the same to every query here: they
are written to the same bytes (`serialize_congr`), whatever empty pages they keep,
and the bytes are read back to the same bits (`deserialize_serialize`).
-/
import HypercoreRs.Codec.Reader
import HypercoreRs.Storage.Record

open Std

namespace HypercoreRs
namespace Storage

def BITS_PER_PAGE : ℕ := 32768

def WORDS_PER_PAGE : ℕ := 512

/-- One page of bits, packed into words. -/
structure Page where
  words : List (BitVec 64)
  size : words.length = WORDS_PER_PAGE

namespace Page

def zero : Page := ⟨List.replicate WORDS_PER_PAGE 0, List.length_replicate⟩

def update (p : Page) (word : ℕ) (f : BitVec 64 → BitVec 64) : Page :=
  ⟨p.words.modify word f, by rw [List.length_modify, p.size]⟩

/-- Bit `b` of the page: position `b % 64` of word `b / 64`. -/
def bit (p : Page) (b : ℕ) : Bool := (p.words.getD (b / 64) 0 >>> (b % 64)) &&& 1 == 1

variable {p q : Page}

theorem ext_words (h : p.words = q.words) : p = q := by
  cases p
  cases q
  congr

theorem bit_eq (p : Page) (b : ℕ) : p.bit b = (p.words.getD (b / 64) 0).getLsbD (b % 64) := by
  unfold bit
  generalize p.words.getD (b / 64) 0 = w
  rw [Bool.eq_iff_iff, beq_iff_eq]
  constructor
  · intro h
    have := congrArg (fun v : BitVec 64 => v.getLsbD 0) h
    simpa using this
  · intro h
    apply BitVec.eq_of_getLsbD_eq
    intro i hi
    cases i with
    | zero => simpa using h
    | succ i => simp

theorem bit_zero (b : ℕ) : zero.bit b = false := by
  have hword : (List.replicate WORDS_PER_PAGE (0 : BitVec 64)).getD (b / 64) 0 = 0 := by
    by_cases hb : b / 64 < WORDS_PER_PAGE
    · rw [List.getD_eq_getElem _ _ (by rwa [List.length_replicate]), List.getElem_replicate]
    · rw [List.getD_eq_default _ _ (by rw [List.length_replicate]; omega)]
  rw [bit_eq, zero, hword]
  exact BitVec.getLsbD_zero

theorem bit_update (p : Page) {word : ℕ} (hword : word < WORDS_PER_PAGE)
    (f : BitVec 64 → BitVec 64) (b : ℕ) :
    (p.update word f).bit b =
      if b / 64 = word then (f (p.words.getD word 0)).getLsbD (b % 64) else p.bit b := by
  rw [bit_eq, bit_eq, update, List.getD_eq_getElem?_getD, List.getElem?_modify]
  by_cases hb : b / 64 = word
  · have hlt : word < p.words.length := by rw [p.size]; exact hword
    rw [if_pos hb, hb, List.getElem?_eq_getElem hlt, List.getD_eq_getElem _ _ hlt]
    simp
  · rw [if_neg hb, List.getD_eq_getElem?_getD]
    simp [Ne.symm hb]

/-- A page is its bits. -/
theorem eq_of_bit (h : ∀ b < BITS_PER_PAGE, p.bit b = q.bit b) : p = q := by
  apply ext_words
  have hsize : p.words.length = q.words.length := p.size.trans q.size.symm
  apply List.ext_getElem hsize
  intro i hp hq
  apply BitVec.eq_of_getLsbD_eq
  intro j hj
  have hi : i < WORDS_PER_PAGE := p.size ▸ hp
  have hb := h (i * 64 + j) (by unfold WORDS_PER_PAGE at hi; unfold BITS_PER_PAGE; omega)
  rw [bit_eq, bit_eq, show (i * 64 + j) / 64 = i by omega, show (i * 64 + j) % 64 = j by omega] at hb
  rwa [List.getD_eq_getElem _ _ hp, List.getD_eq_getElem _ _ hq] at hb

end Page

/-- A sparse, unbounded bitfield. -/
structure Bitfield where
  pages : ExtTreeMap ℕ Page

/-- A mask selecting bits `[lo, hi)` of a word. -/
def wordMask (lo hi : ℕ) : BitVec 64 :=
  let n := hi - lo
  if n = 0 then 0 else if n = 64 then BitVec.allOnes 64 else ((1#64 <<< n) - 1#64) <<< lo

theorem getLsbD_wordMask {lo hi : ℕ} (h : hi ≤ 64) {i : ℕ} (hi' : i < 64) :
    (wordMask lo hi).getLsbD i = decide (lo ≤ i ∧ i < hi) := by
  unfold wordMask
  dsimp only
  split_ifs with h0 h64
  · have : ¬ (lo ≤ i ∧ i < hi) := by omega
    simp [this]
  · have : lo ≤ i ∧ i < hi := by omega
    rw [BitVec.getLsbD_allOnes, decide_eq_true hi', decide_eq_true this]
  · have hmask : (1#64 <<< (hi - lo)) - 1#64 = BitVec.ofNat 64 (2 ^ (hi - lo) - 1) := by
      apply BitVec.eq_of_toNat_eq
      have hlt : 2 ^ (hi - lo) < 2 ^ 64 := Nat.pow_lt_pow_right (by decide) (by omega)
      have hpos : 0 < 2 ^ (hi - lo) := Nat.two_pow_pos _
      simp only [BitVec.toNat_sub, BitVec.toNat_shiftLeft, BitVec.toNat_ofNat, Nat.shiftLeft_eq]
      omega
    rw [hmask, BitVec.getLsbD_shiftLeft, BitVec.getLsbD_ofNat, Nat.testBit_two_pow_sub_one]
    rw [Bool.eq_iff_iff]
    simp only [Bool.and_eq_true, decide_eq_true_eq, Bool.not_eq_true', decide_eq_false_iff_not]
    omega

/-- The bits of the mask set or cleared in a word. -/
def setBits (value : Bool) (mask w : BitVec 64) : BitVec 64 :=
  if value then w ||| mask else w &&& ~~~mask

theorem getLsbD_setBits (value : Bool) (mask w : BitVec 64) {i : ℕ} (hi : i < 64) :
    (setBits value mask w).getLsbD i = if mask.getLsbD i then value else w.getLsbD i := by
  unfold setBits
  cases value with
  | true =>
    rw [if_pos rfl, BitVec.getLsbD_or]
    cases mask.getLsbD i <;> simp
  | false =>
    rw [if_neg (by decide), BitVec.getLsbD_and, BitVec.getLsbD_not, decide_eq_true hi]
    cases mask.getLsbD i <;> simp

namespace Bitfield

def new : Bitfield := ⟨∅⟩

/-- Whether bit `index` is set. -/
def get (f : Bitfield) (index : ℕ) : Bool :=
  f.pages[index / BITS_PER_PAGE]?.any fun p => p.bit (index % BITS_PER_PAGE)

/-- Change a page; a missing one is made only where `grow` says so. -/
def onPage (f : Bitfield) (page : ℕ) (grow : Bool) (change : Page → Page) : Bitfield :=
  match f.pages[page]? with
  | some p => ⟨f.pages.insert page (change p)⟩
  | none => if grow then ⟨f.pages.insert page (change .zero)⟩ else f

def set (f : Bitfield) (index : ℕ) (value : Bool) : Bitfield :=
  f.onPage (index / BITS_PER_PAGE) value fun p =>
    p.update (index % BITS_PER_PAGE / 64) (setBits value (1#64 <<< (index % BITS_PER_PAGE % 64)))

/-- Set the page-local bit range `[b, hi)`, one word at a time. -/
def pageSetRange (p : Page) (b hi : ℕ) (value : Bool) : Page :=
  if _h : b < hi then
    let word := b / 64
    let top := min hi ((word + 1) * 64)
    let mask := wordMask (b % 64) (top - word * 64)
    pageSetRange (p.update word (setBits value mask)) top hi value
  else p
termination_by hi - b

/-- Set every bit in `[start, end_)`, one page at a time. -/
def setRange (f : Bitfield) (start end_ : ℕ) (value : Bool) : Bitfield :=
  if _h : start < end_ then
    let page := start / BITS_PER_PAGE
    let base := page * BITS_PER_PAGE
    let chunkEnd := min end_ (base + BITS_PER_PAGE)
    setRange (f.onPage page value fun p => pageSetRange p (start - base) (chunkEnd - base) value)
      chunkEnd end_ value
  else f
termination_by end_ - start
decreasing_by
  unfold BITS_PER_PAGE
  omega

theorem get_new (i : ℕ) : new.get i = false := by
  simp [get, new]

variable {f : Bitfield}

/-- What a change of one page does to the bits, if growing a page is only asked for
where it matters. -/
theorem get_onPage {page : ℕ} {grow : Bool} {change : Page → Page} {i : ℕ}
    (hgrow : grow = false → (change .zero).bit (i % BITS_PER_PAGE) = false) :
    (f.onPage page grow change).get i =
      if i / BITS_PER_PAGE = page then
        (change (f.pages.getD page .zero)).bit (i % BITS_PER_PAGE)
      else f.get i := by
  unfold onPage
  rw [ExtTreeMap.getD_eq_getD_getElem?]
  cases hp : f.pages[page]? with
  | some p =>
    rw [get, Graph.getElem?_insert]
    split_ifs with hi
    · rfl
    · rfl
  | none =>
    dsimp only
    split_ifs with hg hi hi
    · rw [get, Graph.getElem?_insert, if_pos hi]
      rfl
    · rw [get, Graph.getElem?_insert, if_neg hi]
      rfl
    · rw [get, hi, hp, Option.getD_none, hgrow (Bool.eq_false_iff.mpr hg)]
      rfl
    · rfl

theorem bit_getD (f : Bitfield) (i : ℕ) :
    (f.pages.getD (i / BITS_PER_PAGE) .zero).bit (i % BITS_PER_PAGE) = f.get i := by
  rw [ExtTreeMap.getD_eq_getD_getElem?, get]
  cases f.pages[i / BITS_PER_PAGE]? with
  | none => exact Page.bit_zero _
  | some p => rfl

theorem get_set (f : Bitfield) (index : ℕ) (value : Bool) (i : ℕ) :
    (f.set index value).get i = if i = index then value else f.get i := by
  have hword : index % BITS_PER_PAGE / 64 < WORDS_PER_PAGE := by
    unfold BITS_PER_PAGE WORDS_PER_PAGE
    omega
  have hbit : ∀ p : Page, (p.update (index % BITS_PER_PAGE / 64)
      (setBits value (1#64 <<< (index % BITS_PER_PAGE % 64)))).bit (i % BITS_PER_PAGE) =
      if i % BITS_PER_PAGE = index % BITS_PER_PAGE then value else p.bit (i % BITS_PER_PAGE) := by
    intro p
    have hmod : i % BITS_PER_PAGE % 64 < 64 := Nat.mod_lt _ (by decide)
    have hmod' : index % BITS_PER_PAGE % 64 < 64 := Nat.mod_lt _ (by decide)
    rw [Page.bit_update p hword, getLsbD_setBits _ _ _ hmod, ← BitVec.twoPow_eq,
      BitVec.getLsbD_twoPow, decide_eq_true hmod', Bool.true_and, Page.bit_eq]
    simp only [decide_eq_true_eq]
    split_ifs with hw hbit hsame hsame
    · rfl
    · omega
    · omega
    · rw [hw]
    · omega
    · rfl
  rw [set, get_onPage]
  · rw [hbit]
    by_cases hi : i = index
    · rw [if_pos hi, hi, if_pos rfl, if_pos rfl]
    · rw [if_neg hi]
      split_ifs with hpage hmod
      · exact absurd (by rw [← Nat.div_add_mod i BITS_PER_PAGE, hpage, hmod, Nat.div_add_mod]) hi
      · rw [← hpage, bit_getD]
      · rfl
  · intro hvalue
    rw [hbit, Page.bit_zero]
    split_ifs
    · exact hvalue
    · rfl

theorem bit_pageSetRange (p : Page) {b hi : ℕ} (hhi : hi ≤ BITS_PER_PAGE) (value : Bool) (i : ℕ) :
    (pageSetRange p b hi value).bit i = if b ≤ i ∧ i < hi then value else p.bit i := by
  induction p, b using pageSetRange.induct hi value with
  | case1 p b hlt word top mask ih =>
    have htop : b < top ∧ top ≤ hi ∧ top ≤ (b / 64 + 1) * 64 := by
      dsimp only [top, word]
      omega
    have hword : b / 64 < WORDS_PER_PAGE := by
      unfold BITS_PER_PAGE at hhi
      unfold WORDS_PER_PAGE
      omega
    rw [pageSetRange, dif_pos hlt]
    refine ih.trans ?_
    rw [Page.bit_update p hword]
    by_cases hi₁ : top ≤ i ∧ i < hi
    · rw [if_pos hi₁, if_pos (by omega)]
    · rw [if_neg hi₁]
      by_cases hw : i / 64 = b / 64
      · have hmask : mask.getLsbD (i % 64) = decide (b ≤ i ∧ i < top) := by
          dsimp only [mask, word]
          rw [getLsbD_wordMask (by omega) (Nat.mod_lt _ (by decide))]
          congr 1
          rw [eq_iff_iff]
          omega
        have hbit : b ≤ i ∧ i < hi ↔ b ≤ i ∧ i < top := by
          have : i < (b / 64 + 1) * 64 := by omega
          dsimp only [top, word] at hi₁ ⊢
          omega
        rw [if_pos hw, getLsbD_setBits _ _ _ (Nat.mod_lt _ (by decide)), hmask, Page.bit_eq, hw]
        simp only [decide_eq_true_eq, hbit]
      · rw [if_neg hw, if_neg]
        dsimp only [top, word] at hi₁ htop
        omega
  | case2 p b hge =>
    rw [pageSetRange, dif_neg hge, if_neg (by omega)]

theorem get_setRange (f : Bitfield) (start end_ : ℕ) (value : Bool) (i : ℕ) :
    (f.setRange start end_ value).get i = if start ≤ i ∧ i < end_ then value else f.get i := by
  induction f, start using setRange.induct end_ value with
  | case1 f start hlt page base chunkEnd ih =>
    have hbase : base ≤ start ∧ start < base + BITS_PER_PAGE := by
      dsimp only [base, page]
      unfold BITS_PER_PAGE
      omega
    have hchunk : start < chunkEnd ∧ chunkEnd ≤ end_ ∧ chunkEnd ≤ base + BITS_PER_PAGE := by
      dsimp only [chunkEnd]
      omega
    have hlocal : chunkEnd - base ≤ BITS_PER_PAGE := by omega
    rw [setRange, dif_pos hlt]
    refine ih.trans ?_
    rw [get_onPage]
    · rw [bit_pageSetRange _ hlocal]
      by_cases hpage : i / BITS_PER_PAGE = page
      · have hi : base + i % BITS_PER_PAGE = i := by
          dsimp only [base]
          rw [← hpage, Nat.div_add_mod']
        have hmod : i % BITS_PER_PAGE < BITS_PER_PAGE := Nat.mod_lt _ (by decide)
        have hend : i < end_ → i < chunkEnd := by
          dsimp only [chunkEnd]
          omega
        rw [if_pos hpage, ← hpage, bit_getD]
        split_ifs <;> first | rfl | omega
      · have hout : ¬ (start ≤ i ∧ i < chunkEnd) := by
          intro h
          apply hpage
          dsimp only [base] at hbase hchunk
          exact Nat.div_eq_of_lt_le (by omega) (by rw [Nat.succ_mul]; omega)
        rw [if_neg hpage]
        split_ifs <;> first | rfl | omega
    · intro hvalue
      rw [bit_pageSetRange _ hlocal, Page.bit_zero, hvalue, ite_self]
  | case2 f start hge =>
    rw [setRange, dif_neg hge, if_neg (by omega)]

/-! ### The first unset bit -/

/-- The number of zeros below the lowest set bit. -/
def trailingZeros (w : BitVec 64) : ℕ := ((List.range 64).find? fun i => w.getLsbD i).getD 64

/-- The bits of the word of `b`, from `b` on, that equal `value`. -/
def maskedWord (p : Page) (value : Bool) (b : ℕ) : BitVec 64 :=
  let w := p.words.getD (b / 64) 0
  (if value then w else ~~~w) &&& (BitVec.allOnes 64 <<< (b % 64))

/-- First page-local offset from `b` on whose bit equals `value`. -/
def pageFindFirst (p : Page) (value : Bool) (b : ℕ) : Option ℕ :=
  if _h : b < BITS_PER_PAGE then
    if maskedWord p value b ≠ 0 then some (b / 64 * 64 + trailingZeros (maskedWord p value b))
    else pageFindFirst p value ((b / 64 + 1) * 64)
  else none
termination_by BITS_PER_PAGE - b
decreasing_by omega

/-- `find_first(false, position)` from `page` on, for at most `fuel` pages. -/
def findUnset (f : Bitfield) (position : ℕ) : ℕ → ℕ → Option ℕ
  | 0, _ => none
  | fuel + 1, page =>
    let lo := if page = position / BITS_PER_PAGE then position % BITS_PER_PAGE else 0
    match f.pages[page]? with
    | some p =>
      match pageFindFirst p false lo with
      | some off => some (page * BITS_PER_PAGE + off)
      | none => findUnset f position fuel (page + 1)
    | none => some (page * BITS_PER_PAGE + lo)

/-- The smallest unset index from `position` on. The fully-set pages are finitely
many, so the search ends. -/
def firstUnset (f : Bitfield) (position : ℕ) : Option ℕ :=
  f.findUnset position (f.pages.size + 1) (position / BITS_PER_PAGE)

theorem trailingZeros_spec {w : BitVec 64} (hw : w ≠ 0) :
    trailingZeros w < 64 ∧ w.getLsbD (trailingZeros w) = true ∧
      ∀ i < trailingZeros w, w.getLsbD i = false := by
  unfold trailingZeros
  cases hfind : (List.range 64).find? fun i => w.getLsbD i with
  | none =>
    refine absurd (BitVec.eq_of_getLsbD_eq fun i hi => ?_) hw
    rw [List.find?_eq_none] at hfind
    simpa using hfind i (List.mem_range.mpr hi)
  | some n =>
    obtain ⟨hset, hlt, hbelow⟩ := List.find?_range_eq_some.mp hfind
    exact ⟨List.mem_range.mp hlt, hset, fun i hi => by simpa using hbelow i hi⟩

/-- What the search of a page finds. -/
def FirstIn (p : Page) (value : Bool) (b : ℕ) : Option ℕ → Prop
  | some off => b ≤ off ∧ off < BITS_PER_PAGE ∧ p.bit off = value ∧
      ∀ i, b ≤ i → i < off → p.bit i ≠ value
  | none => ∀ i, b ≤ i → i < BITS_PER_PAGE → p.bit i ≠ value

/-- The masked word at an index of the page. -/
theorem getLsbD_maskedWord (p : Page) (value : Bool) {b i : ℕ} (hi : i / 64 = b / 64) :
    (maskedWord p value b).getLsbD (i % 64) = decide (b ≤ i ∧ p.bit i = value) := by
  have hmod : i % 64 < 64 := Nat.mod_lt _ (by decide)
  have hsub : i % 64 - b % 64 < 64 := by omega
  have hmask : (BitVec.allOnes 64 <<< (b % 64)).getLsbD (i % 64) = decide (b ≤ i) := by
    rw [BitVec.getLsbD_shiftLeft, BitVec.getLsbD_allOnes, decide_eq_true hmod, decide_eq_true hsub,
      Bool.true_and, Bool.and_true, ← decide_not]
    exact decide_eq_decide.mpr (by omega)
  rw [Page.bit_eq, hi, maskedWord, BitVec.getLsbD_and, hmask, Bool.and_comm, Bool.decide_and]
  cases value with
  | true => simp
  | false => simp [BitVec.getLsbD_not, hmod, -BitVec.getLsbD_eq_getElem]

theorem pageFindFirst_spec (p : Page) (value : Bool) (b : ℕ) :
    FirstIn p value b (pageFindFirst p value b) := by
  induction b using pageFindFirst.induct p value with
  | case1 b hlt hmasked =>
    obtain ⟨hz, hset, hbelow⟩ := trailingZeros_spec hmasked
    rw [pageFindFirst, dif_pos hlt, if_pos hmasked]
    generalize trailingZeros (maskedWord p value b) = z at *
    rw [show z = (b / 64 * 64 + z) % 64 by omega, getLsbD_maskedWord p value (by omega),
      decide_eq_true_eq] at hset
    refine ⟨hset.1, ?_, hset.2, fun i hbi hi hbit => ?_⟩
    · unfold BITS_PER_PAGE at hlt ⊢
      omega
    · have hzero := hbelow (i % 64) (by omega)
      rw [getLsbD_maskedWord p value (by omega)] at hzero
      exact of_decide_eq_false hzero ⟨hbi, hbit⟩
  | case2 b hlt hmasked ih =>
    rw [pageFindFirst, dif_pos hlt, if_neg hmasked]
    -- no bit of this word from `b` on has the value
    have hword : ∀ i, b ≤ i → i < (b / 64 + 1) * 64 → p.bit i ≠ value := by
      intro i hbi hi hbit
      have hzero := getLsbD_maskedWord p value (b := b) (i := i) (by omega)
      rw [not_ne_iff.mp hmasked, decide_eq_true ⟨hbi, hbit⟩] at hzero
      simp at hzero
    cases hnext : pageFindFirst p value ((b / 64 + 1) * 64) with
    | none =>
      rw [hnext] at ih
      intro i hbi hi
      by_cases hi' : i < (b / 64 + 1) * 64
      · exact hword i hbi hi'
      · exact ih i (by omega) hi
    | some off =>
      rw [hnext] at ih
      obtain ⟨hle, hoff, hbit, hmin⟩ := ih
      refine ⟨by omega, hoff, hbit, fun i hbi hi => ?_⟩
      by_cases hi' : i < (b / 64 + 1) * 64
      · exact hword i hbi hi'
      · exact hmin i (by omega) hi
  | case3 b hge =>
    rw [pageFindFirst, dif_neg hge]
    intro i hbi hi
    omega

variable {page off : ℕ}

theorem page_div_mod (hoff : off < BITS_PER_PAGE) :
    (page * BITS_PER_PAGE + off) / BITS_PER_PAGE = page ∧
      (page * BITS_PER_PAGE + off) % BITS_PER_PAGE = off := by
  unfold BITS_PER_PAGE at hoff ⊢
  omega

theorem get_page (f : Bitfield) (hoff : off < BITS_PER_PAGE) :
    f.get (page * BITS_PER_PAGE + off) = f.pages[page]?.any fun p => p.bit off := by
  rw [get, (page_div_mod hoff).1, (page_div_mod hoff).2]

/-- Pages in a row are no more than there are pages. -/
theorem card_pages {start k : ℕ} (h : ∀ page, start ≤ page → page < start + k → page ∈ f.pages) :
    k ≤ f.pages.size := by
  have hsub : List.range' start k ⊆ f.pages.keys := by
    intro page hpage
    rw [List.mem_range'_1] at hpage
    exact Graph.mem_keys.mpr (h page hpage.1 hpage.2)
  have hnodup : (List.range' start k).Nodup := List.nodup_range'
  have := (hnodup.subperm hsub).length_le
  rwa [List.length_range', ExtTreeMap.length_keys] at this

/-- By induction: the pages so far are there, and their bits from `position` on set. -/
theorem findUnset_spec (f : Bitfield) (position fuel page : ℕ) (hpage : position / BITS_PER_PAGE ≤ page)
    (hfuel : f.pages.size < fuel + (page - position / BITS_PER_PAGE))
    (hpages : ∀ page', position / BITS_PER_PAGE ≤ page' → page' < page → page' ∈ f.pages)
    (hset : ∀ i, position ≤ i → i < page * BITS_PER_PAGE → f.get i = true) :
    ∃ n, f.findUnset position fuel page = some n ∧ position ≤ n ∧ f.get n = false ∧
      ∀ i, position ≤ i → i < n → f.get i = true := by
  induction fuel generalizing page with
  | zero =>
    have hcard : page - position / BITS_PER_PAGE ≤ f.pages.size :=
      card_pages fun page' h₁ h₂ => hpages page' h₁ (by omega)
    omega
  | succ fuel ih =>
    rw [findUnset]
    -- the bits of this page that count start at `lo`
    obtain ⟨lo, hlo⟩ : ∃ lo, lo = if page = position / BITS_PER_PAGE then position % BITS_PER_PAGE else 0 :=
      ⟨_, rfl⟩
    have hstart : page * BITS_PER_PAGE + lo = max position (page * BITS_PER_PAGE) ∧ lo < BITS_PER_PAGE := by
      unfold BITS_PER_PAGE at *
      split_ifs at hlo <;> omega
    rw [← hlo]
    cases hp : f.pages[page]? with
    | none =>
      refine ⟨_, rfl, by omega, ?_, fun i hi hlt => hset i hi (by omega)⟩
      rw [get_page f hstart.2, hp]
      rfl
    | some p =>
      have hupto : ∀ {n}, n ≤ BITS_PER_PAGE → (∀ off, lo ≤ off → off < n → p.bit off ≠ false) →
          ∀ i, position ≤ i → i < page * BITS_PER_PAGE + n → f.get i = true := by
        intro n hn hbit i hi hlt
        by_cases hbelow : i < page * BITS_PER_PAGE
        · exact hset i hi hbelow
        · obtain ⟨off, rfl⟩ := Nat.exists_eq_add_of_le (Nat.not_lt.mp hbelow)
          rw [get_page f (by omega), hp]
          exact Bool.eq_true_of_not_eq_false (hbit off (by omega) (by omega))
      have hfirst := pageFindFirst_spec p false lo
      dsimp only
      cases hsearch : pageFindFirst p false lo with
      | some off =>
        rw [hsearch] at hfirst
        obtain ⟨hle, hoff, hbit, hmin⟩ := hfirst
        refine ⟨_, rfl, by omega, ?_, hupto hoff.le hmin⟩
        rw [get_page f hoff, hp]
        exact hbit
      | none =>
        rw [hsearch] at hfirst
        refine ih (page + 1) (by omega) (by omega) (fun page' h₁ h₂ => ?_) ?_
        · by_cases hlast : page' = page
          · rw [hlast, ExtTreeMap.mem_iff_isSome_getElem?, hp]
            rfl
          · exact hpages page' h₁ (by omega)
        · rw [Nat.succ_mul]
          exact hupto le_rfl hfirst

/-- The search finds the least unset index. -/
theorem firstUnset_spec (f : Bitfield) (position : ℕ) :
    ∃ n, f.firstUnset position = some n ∧ position ≤ n ∧ f.get n = false ∧
      ∀ i, position ≤ i → i < n → f.get i = true := by
  refine findUnset_spec f position _ _ le_rfl (by omega) (fun page' h₁ h₂ => by omega) fun i hi hlt => ?_
  have := Nat.div_mul_le_self position BITS_PER_PAGE
  omega

/-- The search depends on the bits only. -/
theorem firstUnset_congr {f g : Bitfield} (h : ∀ i, f.get i = g.get i) (position : ℕ) :
    f.firstUnset position = g.firstUnset position := by
  obtain ⟨n, hn, hle, hunset, hset⟩ := firstUnset_spec f position
  obtain ⟨m, hm, hle', hunset', hset'⟩ := firstUnset_spec g position
  rw [hn, hm]
  rcases Nat.lt_trichotomy n m with hlt | rfl | hlt
  · rw [h n, hset' n hle hlt] at hunset
    cases hunset
  · rfl
  · rw [← h m, hset m hle' hlt] at hunset'
    cases hunset'

/-! ### Bytes -/

def pageBytes (p : Page) : Bytes := p.words.flatMap fun w => leBytes 8 w.toNat

/-- A page that has a bit set. -/
def live (p : Page) : Bool := p.words.any (· ≠ 0)

/-- The non-zero pages, each after its number. -/
def serialize (f : Bitfield) : Bytes :=
  let pages := f.pages.toList.filter fun entry => live entry.2
  leBytes 8 pages.length ++ pages.flatMap fun entry => leBytes 8 entry.1 ++ pageBytes entry.2

def readWord (bytes : Bytes) : Option (BitVec 64 × Bytes) := do
  let (n, rest) ← readU64 bytes
  return (BitVec.ofNat 64 n, rest)

def readPage (bytes : Bytes) : Option ((ℕ × Page) × Bytes) := do
  let (index, rest) ← readU64 bytes
  let (words, rest) ← readTimes readWord WORDS_PER_PAGE rest
  if h : words.length = WORDS_PER_PAGE then return ((index, ⟨words, h⟩), rest) else none

/-- Rebuild a field; `none` on a buffer too short or too long. -/
def deserialize (bytes : Bytes) : Option Bitfield := do
  let (count, rest) ← readU64 bytes
  let (pages, rest) ← readTimes readPage count rest
  if rest = [] then return ⟨pages.foldl (fun acc entry => acc.insert entry.1 entry.2) ∅⟩ else none

/-- The field without its all-zero pages. -/
def compacted (f : Bitfield) : Bitfield := ⟨f.pages.filter fun _ p => live p⟩

variable {p : Page}

theorem live_eq_false : live p = false ↔ p = .zero := by
  rw [live, List.any_eq_false]
  constructor
  · intro h
    apply Page.ext_words
    rw [Page.zero, List.eq_replicate_iff]
    exact ⟨p.size, fun w hw => by simpa using h w hw⟩
  · rintro rfl w hw
    rw [Page.zero] at hw
    simp [List.eq_of_mem_replicate hw]

theorem exists_bit_of_live (h : live p = true) : ∃ b < BITS_PER_PAGE, p.bit b = true := by
  by_contra hnone
  push Not at hnone
  have hzero : p = .zero := by
    apply Page.eq_of_bit
    intro b hb
    rw [Page.bit_zero]
    exact Bool.eq_false_iff.mpr (hnone b hb)
  rw [live_eq_false.mpr hzero] at h
  cases h

/-- The page at a number, as every query sees it. -/
theorem getElem?_compacted (f : Bitfield) (page : ℕ) :
    f.compacted.pages[page]? =
      if live (f.pages.getD page .zero) then some (f.pages.getD page .zero) else none := by
  rw [compacted, ExtTreeMap.getElem?_filter', ExtTreeMap.getD_eq_getD_getElem?]
  cases f.pages[page]? with
  | none =>
    rw [Option.getD_none, live_eq_false.mpr rfl]
    rfl
  | some p =>
    rw [Option.getD_some, Option.filter_some]

/-- Fields with the same bits differ in empty pages only. -/
theorem compacted_congr {f g : Bitfield} (h : ∀ i, f.get i = g.get i) : f.compacted = g.compacted := by
  have hpage : ∀ page, f.pages.getD page .zero = g.pages.getD page .zero := by
    intro page
    apply Page.eq_of_bit
    intro b hb
    have := h (page * BITS_PER_PAGE + b)
    rwa [← bit_getD, ← bit_getD, (page_div_mod hb).1, (page_div_mod hb).2] at this
  have hpages : f.compacted.pages = g.compacted.pages := by
    apply ExtTreeMap.ext_getElem?
    intro page
    rw [getElem?_compacted, getElem?_compacted, hpage]
  exact congrArg Bitfield.mk hpages

theorem get_compacted (f : Bitfield) (i : ℕ) : f.compacted.get i = f.get i := by
  rw [get, getElem?_compacted, ← bit_getD]
  cases hlive : live (f.pages.getD (i / BITS_PER_PAGE) .zero) with
  | true => rfl
  | false =>
    rw [live_eq_false.mp hlive, Page.bit_zero]
    rfl

theorem serialize_eq (f : Bitfield) :
    f.serialize = leBytes 8 f.compacted.pages.toList.length ++
      f.compacted.pages.toList.flatMap fun entry => leBytes 8 entry.1 ++ pageBytes entry.2 := by
  rw [serialize, compacted, ExtTreeMap.toList_filter]

/-- What is written depends on the bits only. -/
theorem serialize_congr {f g : Bitfield} (h : ∀ i, f.get i = g.get i) :
    f.serialize = g.serialize := by
  rw [serialize_eq, serialize_eq, compacted_congr h]

theorem reads_readWord (w : BitVec 64) : Reads readWord (leBytes 8 w.toNat) w := by
  intro rest
  rw [readWord, (reads_readU64 w.isLt).bind]
  dsimp only
  rw [BitVec.ofNat_toNat, BitVec.setWidth_eq]
  rfl

theorem reads_readPage {index : ℕ} (hindex : index < 2 ^ 64) (p : Page) :
    Reads readPage (leBytes 8 index ++ pageBytes p) (index, p) := by
  intro rest
  have hwords := reads_readTimes fun w (_ : w ∈ p.words) => reads_readWord w
  rw [p.size] at hwords
  rw [readPage, List.append_assoc, (reads_readU64 hindex).bind]
  dsimp only
  rw [pageBytes, hwords.bind]
  dsimp only
  rw [dif_pos p.size]
  rfl

/-- A page in use has a number that its bits' indices bound. -/
theorem page_lt {n page : ℕ} (hbits : ∀ i, f.get i = true → i < n) (hp : f.compacted.pages[page]? = some p) :
    page * BITS_PER_PAGE < n := by
  rw [getElem?_compacted] at hp
  split_ifs at hp with hlive
  obtain ⟨b, hb, hbit⟩ := exists_bit_of_live hlive
  have hget : f.get (page * BITS_PER_PAGE + b) = true := by
    rw [← bit_getD, (page_div_mod hb).1, (page_div_mod hb).2, hbit]
  have := hbits _ hget
  omega

/-- A field of 64-bit indices is read back, without its empty pages. -/
theorem deserialize_serialize (hbits : ∀ i, f.get i = true → i < 2 ^ 64) :
    deserialize f.serialize = some f.compacted := by
  have hpage : ∀ entry ∈ f.compacted.pages.toList, entry.1 < 2 ^ 49 := by
    intro entry hentry
    have := page_lt hbits (ExtTreeMap.mem_toList_iff_getElem?_eq_some.mp hentry)
    unfold BITS_PER_PAGE at this
    omega
  have hcount : f.compacted.pages.toList.length < 2 ^ 64 := by
    have hsub : f.compacted.pages.keys ⊆ List.range (2 ^ 49) := by
      intro page hkey
      rw [← ExtTreeMap.map_fst_toList_eq_keys] at hkey
      obtain ⟨entry, hentry, rfl⟩ := List.mem_map.mp hkey
      exact List.mem_range.mpr (hpage entry hentry)
    have hnodup : f.compacted.pages.keys.Nodup :=
      (ExtTreeMap.distinct_keys (t := f.compacted.pages)).imp fun {a b} hab => by simpa using hab
    have hlen := (hnodup.subperm hsub).length_le
    rw [ExtTreeMap.length_keys, List.length_range] at hlen
    rw [ExtTreeMap.length_toList]
    omega
  have hpages : Reads (readTimes readPage f.compacted.pages.toList.length)
      (f.compacted.pages.toList.flatMap fun entry => leBytes 8 entry.1 ++ pageBytes entry.2)
      f.compacted.pages.toList := by
    apply reads_readTimes
    intro entry hentry
    exact reads_readPage ((hpage entry hentry).trans (by decide)) entry.2
  rw [serialize_eq, deserialize, (reads_readU64 hcount).bind]
  dsimp only
  rw [hpages.bind_nil]
  dsimp only
  rw [if_pos rfl, Graph.foldl_insert_toList]
  rfl

/-! ### The set of the bits -/

/-- A field with the bits of a set. -/
def ofSet (s : ExtTreeSet ℕ) : Bitfield := s.toList.foldl (fun f i => f.set i true) new

/-- The set of a field's bits. -/
def toSet (f : Bitfield) : ExtTreeSet ℕ :=
  ExtTreeSet.ofList (f.pages.toList.flatMap fun entry =>
    ((List.range BITS_PER_PAGE).filter fun b => entry.2.bit b).map fun b =>
      entry.1 * BITS_PER_PAGE + b)

theorem get_foldl_set : ∀ (l : List ℕ) (f : Bitfield) (i : ℕ),
    (l.foldl (fun f i => f.set i true) f).get i = (decide (i ∈ l) || f.get i)
  | [], f, i => by simp
  | j :: l, f, i => by
    rw [List.foldl_cons, get_foldl_set l, get_set]
    by_cases hi : i = j <;> simp [hi]

theorem get_ofSet (s : ExtTreeSet ℕ) (i : ℕ) : (ofSet s).get i = decide (i ∈ s) := by
  rw [ofSet, get_foldl_set, get_new, Bool.or_false]
  exact decide_eq_decide.mpr ExtTreeSet.mem_toList

/-- The bits that `set_range(start, end, false)` leaves of those of a set. -/
def unsetRange (s : ExtTreeSet ℕ) (start end_ : ℕ) :
    ExtTreeSet ℕ := s.filter ((ofSet s).setRange start end_ false).get

/-- It leaves no other bits. -/
theorem get_unsetRange (s : ExtTreeSet ℕ) (start end_ i : ℕ) :
    (ofSet (unsetRange s start end_)).get i = ((ofSet s).setRange start end_ false).get i := by
  rw [get_ofSet, Bool.eq_iff_iff, decide_eq_true_eq, unsetRange, Graph.mem_filter_set, and_iff_right_iff_imp,
    get_setRange, get_ofSet]
  split_ifs <;> simp

theorem mem_unsetRange {s : ExtTreeSet ℕ} {start end_ i : ℕ} :
    i ∈ unsetRange s start end_ ↔ i ∈ s ∧ ¬ (start ≤ i ∧ i < end_) := by
  rw [← decide_eq_true_iff (p := i ∈ unsetRange s start end_), ← get_ofSet, get_unsetRange,
    get_setRange, get_ofSet]
  split_ifs with h <;> simp [h]

theorem mem_toSet {i : ℕ} : i ∈ f.toSet ↔ f.get i = true := by
  rw [toSet, Graph.mem_ofList, List.mem_flatMap]
  constructor
  · rintro ⟨entry, hentry, hi⟩
    obtain ⟨b, hb, rfl⟩ := List.mem_map.mp hi
    obtain ⟨hlt, hbit⟩ := List.mem_filter.mp hb
    rw [get_page f (List.mem_range.mp hlt), ExtTreeMap.mem_toList_iff_getElem?_eq_some.mp hentry]
    exact hbit
  · intro hget
    rw [get] at hget
    obtain ⟨p, hp, hbit⟩ := Option.any_eq_true _ _ |>.mp hget
    refine ⟨(i / BITS_PER_PAGE, p), ExtTreeMap.mem_toList_iff_getElem?_eq_some.mpr hp, ?_⟩
    refine List.mem_map.mpr ⟨i % BITS_PER_PAGE, List.mem_filter.mpr ⟨?_, hbit⟩, Nat.div_add_mod' _ _⟩
    exact List.mem_range.mpr (Nat.mod_lt _ (by decide))

/-- Writing the bits of a set and reading them gives the set. -/
theorem deserialize_ofSet {s : ExtTreeSet ℕ} (hs : ∀ i ∈ s, i < 2 ^ 64) :
    ((deserialize (ofSet s).serialize).map toSet) = some s := by
  have hbits : ∀ i, (ofSet s).get i = true → i < 2 ^ 64 := by
    intro i hi
    rw [get_ofSet, decide_eq_true_eq] at hi
    exact hs i hi
  rw [deserialize_serialize hbits, Option.map_some]
  congr 1
  apply ExtTreeSet.ext_mem
  intro i
  rw [mem_toSet, get_compacted, get_ofSet, decide_eq_true_eq]

end Bitfield

end Storage
end HypercoreRs
