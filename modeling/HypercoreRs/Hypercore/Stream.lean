/-
# Streaming the bytes of a range

`byte_stream` is to yield the whole blocks that cover a range of bytes. It starts at the block
that the offset falls in and goes on while a budget lasts, which is the length of the range at the
start and pays for every block in full (`spend`).

The first block is paid for in full too, though the range begins somewhere inside of it: the
budget ends as many bytes short of the range's end as the first block has before the offset. A
block that begins in those last bytes of the range is missed (`byteStream_covers_iff`).
-/
import HypercoreRs.Hypercore.Gate
import HypercoreRs.Hypercore.Reopen
import HypercoreRs.Merkle.Seek

namespace HypercoreRs

open Std Merkle Command Storage

structure ByteStreamOptions where
  byteOffset : ℕ
  byteLength : Option ℕ

/-- The iterator over a log: the next block to consider, and the bytes still to be paid for. -/
structure ByteStream where
  next : ℕ
  budget : ℕ

/-- The stream over a range. A tree without its roots panics. -/
def Hypercore.byteStream {H Sig SK S : Type} (core : Hypercore H Sig SK S) (opts : ByteStreamOptions) :
    Option ByteStream := do
  let total ← core.byteLength
  let budget := opts.byteLength.getD (total - opts.byteOffset)
  let (startBlock, _) ← core.tree.seek opts.byteOffset
  return ⟨startBlock, budget⟩

namespace ByteStream

variable {H Sig SK S E : Type} (b : Backend S E H Sig) (core : Hypercore H Sig SK S)

/-- The loop of `next`, over at most as many blocks as are left. -/
def nextFrom : ℕ → ByteStream → Option (Except (CoreError E) Block × ByteStream)
  | 0, _ => none
  | left + 1, s =>
    if s.budget > 0 ∧ s.next < core.len then
      match core.block b s.next with
      | .ok (some bytes) => some (.ok bytes, ⟨s.next + 1, s.budget - bytes.length⟩)
      | .ok none => nextFrom left ⟨s.next + 1, s.budget⟩ -- absent: skipped
      | .error e => some (.error e, ⟨s.next + 1, s.budget⟩)
    else none

/-- The next item, and the stream after it. -/
def nextItem (s : ByteStream) : Option (Except (CoreError E) Block × ByteStream) :=
  nextFrom b core (core.len - s.next) s

/-- The first `n` items. -/
def items : ℕ → ByteStream → List (Except (CoreError E) Block)
  | 0, _ => []
  | n + 1, s =>
    match s.nextItem b core with
    | none => []
    | some (item, s') => item :: items n s'

/-- All items: no block is considered twice. -/
def collect (s : ByteStream) : List (Except (CoreError E) Block) := items b core (core.len - s.next) s

end ByteStream

/-! ### What a budget pays for -/

/-- The blocks a budget is spent on, one after another, each in full; the last need not be covered. -/
def spend : List Block → ℕ → List Block
  | [], _ => []
  | data :: B, budget => if budget = 0 then [] else data :: spend B (budget - data.length)

theorem spend_eq_take : ∀ (B : List Block) (budget : ℕ), spend B budget = B.take (spend B budget).length
  | [], _ => rfl
  | data :: B, budget => by
    rw [spend]
    split_ifs
    · rfl
    · rw [List.length_cons, List.take_succ_cons, ← spend_eq_take]

/-- A block is among them if the budget lasts beyond those before it. -/
theorem lt_length_spend : ∀ {B : List Block} {budget j : ℕ},
    j < (spend B budget).length ↔ j < B.length ∧ byteSize (B.take j) < budget
  | [], budget, j => by simp [spend]
  | data :: B, budget, 0 => by
    rw [spend]
    split_ifs with hzero
    · simp [hzero]
    · simp [byteSize, Nat.pos_of_ne_zero hzero]
  | data :: B, budget, j + 1 => by
    have hsize : byteSize ((data :: B).take (j + 1)) = data.length + byteSize (B.take j) := by
      rw [List.take_succ_cons, byteSize, List.map_cons, List.sum_cons]
      rfl
    rw [hsize, spend]
    split_ifs with hzero
    · simp [hzero]
    · rw [List.length_cons, Nat.add_lt_add_iff_right, lt_length_spend, List.length_cons]
      omega

namespace Hypercore

variable {K H Sig SK S E T : Type} {b : Backend S E H Sig} {core : Hypercore H Sig SK S}

variable (b) in
/-- The log is of the blocks `B`, and has them all. -/
structure Whole (hs : Hasher H) (B : List Block) (core : Hypercore H Sig SK S) : Prop where
  built : Built hs B core.tree
  blocks : ∀ (i : ℕ) (data : Block), B[i]? = some data → core.block b i = .ok (some data)

/-- A log from which no block was dropped is whole. -/
theorem Coherent.whole [DecidableEq H] {c : Crypto K H Sig SK} {st : Store S E} {w : Wire H Sig} {log : Log H}
    (h : Coherent c st w log core) (hfull : log.Full) : Whole (backend w st) c.hasher log.bytes core where
  built := h.built
  blocks i data hi := by rw [h.toKept.block, hfull.read, hi]

variable {hs : Hasher H} {B : List Block}

/-- The next item of a whole log is the next block, while the budget lasts. -/
theorem Whole.nextItem (h : Whole b hs B core) (s : ByteStream) : s.nextItem b core =
    match B.drop s.next with
    | [] => none
    | data :: _ => if s.budget = 0 then none else some (.ok data, ⟨s.next + 1, s.budget - data.length⟩) := by
  have hlen : core.len = B.length := h.built.length_eq
  unfold ByteStream.nextItem
  cases hdrop : B.drop s.next with
  | nil =>
    rw [hlen, ← List.length_drop, hdrop]
    rfl
  | cons data rest =>
    have hdata : B[s.next]? = some data := by
      rw [← Nat.add_zero s.next, ← List.getElem?_drop, hdrop, List.getElem?_cons_zero]
    have hlt : s.next < core.len := hlen ▸ (List.getElem?_eq_some_iff.mp hdata).1
    obtain ⟨left, hleft⟩ : ∃ left, core.len - s.next = left + 1 := ⟨_, (Nat.sub_one_add_one (by omega)).symm⟩
    rw [hleft, ByteStream.nextFrom]
    by_cases hzero : s.budget = 0
    · rw [if_neg (by omega)]
      exact (if_pos hzero).symm
    · rw [if_pos ⟨Nat.pos_of_ne_zero hzero, hlt⟩, h.blocks _ _ hdata]
      exact (if_neg hzero).symm

/-- The stream spends its budget on the blocks from its next one on. -/
theorem Whole.items (h : Whole b hs B core) : ∀ {n : ℕ} {s : ByteStream}, core.len - s.next ≤ n →
    s.items b core n = (spend (B.drop s.next) s.budget).map .ok
  | 0, s, hn => by
    have hdrop : B.drop s.next = [] := by
      rw [List.drop_eq_nil_iff, ← h.built.length_eq]
      exact Nat.sub_eq_zero_iff_le.mp (Nat.le_zero.mp hn)
    rw [hdrop]
    rfl
  | n + 1, s, hn => by
    rw [ByteStream.items, h.nextItem]
    cases hdrop : B.drop s.next with
    | nil => rfl
    | cons data rest =>
      have hrest : B.drop (s.next + 1) =
        rest := by rw [← List.drop_drop, hdrop, List.drop_one, List.tail_cons]
      dsimp only
      rw [spend]
      split_ifs
      · rfl
      · dsimp only
        have hn' : core.len - (s.next + 1) ≤ n := by omega
        rw [h.items hn', hrest, List.map_cons]

end Hypercore

/-! ### Covering a range -/

/-- Block `j` holds a byte of the range from `lo` to below `hi`. -/
def HoldsByte (B : List Block) (lo hi j : ℕ) : Prop :=
  ∃ x, lo ≤ x ∧ x < hi ∧ bytesBefore B j ≤ x ∧ x < bytesBefore B (j + 1)

namespace ByteStreamOptions

variable (opts : ByteStreamOptions) (B : List Block)

/-- The end of the range: no further than the log goes. -/
def rangeEnd : ℕ :=
  match opts.byteLength with
  | none => byteSize B
  | some n => min (opts.byteOffset + n) (byteSize B)

/-- The length asked for, or what is left of the log. -/
def length : ℕ := opts.byteLength.getD (byteSize B - opts.byteOffset)

/-- The block the offset falls in. -/
def first : ℕ := (scan B opts.byteOffset).1

/-- No block begins in the last bytes of the range, as many of them as the first block has before
the offset. -/
def NoneBeginsLate : Prop :=
  ∀ (j : ℕ) (data : Block), opts.first B < j → B[j]? = some data → data ≠ [] →
    bytesBefore B j < opts.byteOffset + opts.length B →
    bytesBefore B j + (scan B opts.byteOffset).2 < opts.byteOffset + opts.length B

variable {opts B}

theorem rangeEnd_eq (ho : opts.byteOffset < byteSize B) :
    opts.rangeEnd B = min (opts.byteOffset + opts.length B) (byteSize B) := by
  unfold rangeEnd length
  cases opts.byteLength with
  | some n => rfl
  | none =>
    rw [Option.getD_none, Nat.add_sub_cancel' ho.le, Nat.min_self]

end ByteStreamOptions

variable {B : List Block}

/-- The block at distance `i` from block `k` is paid for. -/
theorem lt_length_spend_drop {k budget i : ℕ} :
    i < (spend (B.drop k) budget).length ↔
      k + i < B.length ∧ bytesBefore B (k + i) < bytesBefore B k + budget := by
  rw [lt_length_spend, List.length_drop, bytesBefore_add]
  omega

theorem bytesBefore_mono (B : List Block) {n m : ℕ} (h : n ≤ m) : bytesBefore B n ≤ bytesBefore B m := by
  obtain ⟨d, rfl⟩ := Nat.exists_eq_add_of_le h
  rw [bytesBefore_add]
  exact Nat.le_add_right _ _

theorem bytesBefore_le (B : List Block) (n : ℕ) : bytesBefore B n ≤ byteSize B := by
  have hsplit := byteSize_append (B.take n) (B.drop n)
  rw [List.take_append_drop] at hsplit
  rw [bytesBefore, hsplit]
  exact Nat.le_add_right _ _

/-- A block that holds a byte of the range is one of the log, and not before the first. -/
theorem HoldsByte.bounds {lo hi j : ℕ} (h : HoldsByte B lo hi j) :
    j < B.length ∧ lo < bytesBefore B (j + 1) ∧ bytesBefore B j < hi := by
  obtain ⟨x, hlo, hhi, hbefore, hafter⟩ := h
  refine ⟨Nat.lt_of_not_le fun hle => ?_, by omega, by omega⟩
  have hall : bytesBefore B j = byteSize B := by rw [bytesBefore, List.take_of_length_le hle]
  have := bytesBefore_le B (j + 1)
  omega

namespace Hypercore

variable {H Sig SK S E : Type} {b : Backend S E H Sig} {core : Hypercore H Sig SK S}
variable {hs : Hasher H} {B : List Block}

/-- The stream over a range of a whole log. -/
theorem Whole.byteStream (h : Whole b hs B core) (opts : ByteStreamOptions) :
    core.byteStream opts = some ⟨opts.first B, opts.length B⟩ := by
  rw [Hypercore.byteStream, byteLength, h.built.byteLength, h.built.seek]
  rfl

/-- The blocks of a stream are consecutive blocks from the one on that the offset falls in. They
cover the range if and only if no block begins in its last bytes, as many as the first block has
before the offset. -/
theorem byteStream_covers_iff (h : Whole b hs B core) (opts : ByteStreamOptions)
    (ho : opts.byteOffset < byteSize B) :
    ∃ s blocks, core.byteStream opts = some s ∧ s.collect b core = blocks.map .ok ∧
      blocks = (B.drop (opts.first B)).take blocks.length ∧
      ((∀ j, HoldsByte B opts.byteOffset (opts.rangeEnd B) j →
        opts.first B ≤ j ∧ j < opts.first B + blocks.length) ↔ opts.NoneBeginsLate B) := by
  have hcollect : ByteStream.collect b core ⟨opts.first B, opts.length B⟩ =
      (spend (B.drop (opts.first B)) (opts.length B)).map .ok := h.items le_rfl
  refine ⟨_, _, h.byteStream opts, hcollect, spend_eq_take _ _, ?_⟩
  obtain ⟨k, hk, hlo, hhi⟩ := exists_bracket ho
  have hscan := scan_eq_of_bracket hk hlo hhi
  have hfirst : opts.first B = k := congrArg Prod.fst hscan
  unfold ByteStreamOptions.NoneBeginsLate
  rw [ByteStreamOptions.rangeEnd_eq ho, hfirst, hscan]
  constructor
  · intro hcovers j data hj hdata hne hrange
    have hnext := bytesBefore_succ hdata
    have hpos := List.length_pos_iff.mpr hne
    have hmono := bytesBefore_mono B (show k + 1 ≤ j from hj)
    have htotal := bytesBefore_le B (j + 1)
    -- the first byte of the block is in the range
    have hholds : HoldsByte B opts.byteOffset (min (opts.byteOffset + opts.length B) (byteSize B)) j :=
      ⟨bytesBefore B j, by omega, by omega, le_rfl, by omega⟩
    obtain ⟨hle, hlt⟩ := hcovers j hholds
    obtain ⟨i, rfl⟩ := Nat.exists_eq_add_of_le hle
    have hpaid := (lt_length_spend_drop.mp (Nat.lt_of_add_lt_add_left hlt)).2
    dsimp only
    omega
  · intro hlate j hholds
    obtain ⟨hlt, hafter, hbefore⟩ := hholds.bounds
    have hle : k ≤ j := by
      by_contra hlt
      have := bytesBefore_mono B (show j + 1 ≤ k by omega)
      omega
    obtain ⟨i, rfl⟩ := Nat.exists_eq_add_of_le hle
    refine ⟨hle, Nat.add_lt_add_left (lt_length_spend_drop.mpr ⟨hlt, ?_⟩) k⟩
    obtain ⟨x, hxlo, hxhi, hxbefore, hxafter⟩ := hholds
    rcases Nat.eq_zero_or_pos i with rfl | hpos
    · rw [Nat.add_zero]
      omega
    · have hdata : B[k + i]? = some B[k + i] := List.getElem?_eq_getElem hlt
      have hnext := bytesBefore_succ hdata
      have hne : B[k + i] ≠ [] := by
        intro hnil
        rw [hnil, List.length_nil] at hnext
        omega
      have hpaid := hlate (k + i) _ (by omega) hdata hne (by omega)
      dsimp only at hpaid
      omega

/-- A log of two blocks of two bytes each. -/
theorem exists_twoPairs : ∃ core, CoreOp.runAll Crypto.sums Store.memory Wire.bits Codec.plain
      ([.append [1, 2], .append [3, 4]] : List MemoryOp) memoryLog = .ok () core ∧
    Whole (backend Wire.bits Store.memory) Crypto.sums.hasher [[1, 2], [3, 4]] core := by
  have hreturned : returned (CoreOp.runAll Crypto.sums Store.memory Wire.bits Codec.plain
      ([.append [1, 2], .append [3, 4]] : List MemoryOp) memoryLog) = true := by decide +kernel
  obtain ⟨_, core, hrun⟩ := exists_of_returned hreturned
  have hcoh := (coherent_new () ∅ none).runAll Store.memory_lawful _ hrun
  refine ⟨core, hrun, hcoh.whole ?_⟩
  intro p hp
  fin_cases hp <;> rfl

/-- Of the bytes 1 and 2 the second is in the second block, which is not yielded. -/
theorem byteStream_misses_block : ∃ core s, CoreOp.runAll Crypto.sums Store.memory Wire.bits Codec.plain
      ([.append [1, 2], .append [3, 4]] : List MemoryOp) memoryLog = .ok () core ∧
    core.byteStream ⟨1, some 2⟩ = some s ∧
    s.collect (backend Wire.bits Store.memory) core = [.ok [1, 2]] ∧
    HoldsByte [[1, 2], [3, 4]] 1 3 1 ∧
    core.block (backend Wire.bits Store.memory) 1 = .ok (some [3, 4]) := by
  obtain ⟨core, hrun, hwhole⟩ := exists_twoPairs
  refine ⟨core, _, hrun, hwhole.byteStream _, hwhole.items le_rfl, ⟨2, ?_⟩, hwhole.blocks 1 [3, 4] rfl⟩
  decide

/-- Of the bytes 1 to 3 both blocks are. -/
theorem byteStream_covers_iff_longer : ∃ core s, ∃ blocks : List Block,
    CoreOp.runAll Crypto.sums Store.memory Wire.bits Codec.plain
      ([.append [1, 2], .append [3, 4]] : List MemoryOp) memoryLog = .ok () core ∧
    core.byteStream ⟨1, some 3⟩ = some s ∧
    s.collect (backend Wire.bits Store.memory) core = blocks.map .ok ∧
    ∀ j, HoldsByte [[1, 2], [3, 4]] 1 4 j → j < blocks.length := by
  obtain ⟨core, hrun, hwhole⟩ := exists_twoPairs
  obtain ⟨s, blocks, hs, hcollect, -, hiff⟩ := byteStream_covers_iff hwhole ⟨1, some 3⟩ (by decide)
  refine ⟨core, s, blocks, hrun, hs, hcollect, fun j hj => ?_⟩
  have hlate : (⟨1, some 3⟩ : ByteStreamOptions).NoneBeginsLate [[1, 2], [3, 4]] := by
    intro j data hj hdata _ _
    have hlt : j < 2 := (List.getElem?_eq_some_iff.mp hdata).1
    have hpos : 0 < j := hj
    obtain rfl : j = 1 := by omega
    decide
  exact (hiff.mpr hlate j hj).2.trans_eq (Nat.zero_add _)

end Hypercore
end HypercoreRs
