/-
# Flat-tree index arithmetic

The arithmetic of `flat.rs` over exact integers: a node of the tree is one
number, leaves are the even ones (block `k` is `2k`) and parents the odd ones.
The source reads a depth and an offset off a number with bit tricks and puts a
number back together from them; here every function is computed once in those
two coordinates (`index d o` covers the `2 ^ d` blocks from `o * 2 ^ d` on), and
nothing after this file looks at the bits again.

`fullRoots` splits `n` blocks into power-of-two subtrees greedily, the largest
first: one for each one of `n` (`fullRoots_eq`). What the proofs need of it is
`mem_fullRoots`: the roots are exactly the maximal nodes that lie within the first
`n` blocks.
-/
import Mathlib

namespace HypercoreRs
namespace Flat

/-- The zeros below the lowest set bit. -/
def trailingZeros (n : ℕ) : ℕ :=
  if n = 0 ∨ n % 2 = 1 then 0 else trailingZeros (n / 2) + 1

/-- Depth of a node (leaves = 0). -/
def depth (i : ℕ) : ℕ := trailingZeros (i + 1)

/-- Horizontal offset of a node within its depth. -/
def offset (i : ℕ) : ℕ :=
  if i % 2 = 0 then i / 2 else (((i + 1) >>> depth i) - 1) / 2

/-- Node index from a (depth, offset) pair. -/
def index (depth offset : ℕ) : ℕ := (1 + 2 * offset) * 2 ^ depth - 1

/-- Parent of node `i`. -/
def parent (i : ℕ) : ℕ := index (depth i + 1) (offset i >>> 1)

/-- Sibling of node `i`. -/
def sibling (i : ℕ) : ℕ := index (depth i) (offset i ^^^ 1)

/-- The (left, right) children of a parent node, or `none` for a leaf. -/
def children (i : ℕ) : Option (ℕ × ℕ) :=
  if i % 2 = 0 then none
  else
    let off := offset i * 2
    some (index (depth i - 1) off, index (depth i - 1) (off + 1))

/-- The half-open block range that node `i` covers. -/
def blockRange (i : ℕ) : ℕ × ℕ :=
  let count := 2 ^ depth i
  let first := offset i * count
  (first, first + count)

/-- The inner loop of `full_roots`: double `factor` while it fits. -/
def growFactor (index factor : ℕ) : ℕ :=
  -- the loop starts at 1; the test of `factor` only makes it total
  if 0 < factor ∧ factor * 2 ≤ index then growFactor index (factor * 2) else factor
termination_by index - factor

theorem growFactor_ge (index factor : ℕ) : factor ≤ growFactor index factor := by
  rw [growFactor]
  split_ifs with h
  · calc factor ≤ factor * 2 := by omega
      _ ≤ growFactor index (factor * 2) := growFactor_ge index (factor * 2)
  · exact le_rfl
termination_by index - factor

/-- The outer loop of `full_roots`: `index` blocks from `offset` on are left. -/
def rootsLoop (index offset : ℕ) : List ℕ :=
  if _h : index = 0 then []
  else
    let factor := growFactor index 1
    (offset * 2 + factor - 1) :: rootsLoop (index - factor) (offset + factor)
termination_by index
decreasing_by
  have := growFactor_ge index 1
  omega

/-- Root indices covering a tree of `idx` (twice the block count) units, one for
each complete power-of-two subtree. The source asserts that `idx` is even; every
caller passes a doubled length. -/
def fullRoots (idx : ℕ) : List ℕ := rootsLoop (idx / 2) 0

/-! ### Coordinates -/

theorem trailingZeros_mul : ∀ d o : ℕ, trailingZeros ((1 + 2 * o) * 2 ^ d) = d
  | 0, o => by
    rw [trailingZeros, if_pos]
    right
    omega
  | d + 1, o => by
    have hpos : 0 < (1 + 2 * o) * 2 ^ d := by positivity
    have hhalf : (1 + 2 * o) * 2 ^ (d + 1) / 2 = (1 + 2 * o) * 2 ^ d := by
      rw [pow_succ, ← mul_assoc]
      exact Nat.mul_div_cancel _ two_pos
    rw [trailingZeros, if_neg, hhalf, trailingZeros_mul d o]
    rw [pow_succ, ← mul_assoc]
    omega

theorem index_succ (d o : ℕ) : index d o + 1 = (1 + 2 * o) * 2 ^ d := by
  have hpos : 0 < (1 + 2 * o) * 2 ^ d := by positivity
  unfold index
  omega

@[simp]
theorem depth_index (d o : ℕ) : depth (index d o) = d := by
  rw [depth, index_succ, trailingZeros_mul]

@[simp]
theorem offset_index (d o : ℕ) : offset (index d o) = o := by
  have hshift : ((index d o + 1) >>> d - 1) / 2 = o := by
    rw [index_succ, Nat.shiftRight_eq_div_pow, Nat.mul_div_cancel _ (by positivity)]
    omega
  rw [offset, depth_index]
  split_ifs with heven
  · -- an even number is a leaf, and at depth zero the two formulas agree
    have hd : d = 0 := by
      cases d with
      | zero => rfl
      | succ d =>
        have hs := index_succ (d + 1) o
        rw [pow_succ, ← mul_assoc] at hs
        omega
    subst hd
    have hs := index_succ 0 o
    omega
  · exact hshift

theorem exists_index : ∀ i : ℕ, ∃ d o, i = index d o := by
  intro i
  obtain ⟨d, m, hodd, hm⟩ := Nat.exists_eq_two_pow_mul_odd (n := i + 1) (by omega)
  obtain ⟨o, ho⟩ := hodd
  refine ⟨d, o, ?_⟩
  have hs := index_succ d o
  have : i + 1 = (1 + 2 * o) * 2 ^ d := by
    rw [hm, ho]
    ring
  omega

theorem index_depth_offset (i : ℕ) : index (depth i) (offset i) = i := by
  obtain ⟨d, o, rfl⟩ := exists_index i
  rw [depth_index, offset_index]

@[simp]
theorem index_inj {d o d' o' : ℕ} : index d o = index d' o' ↔ d = d' ∧ o = o' := by
  refine ⟨fun h => ⟨?_, ?_⟩, fun ⟨hd, ho⟩ => hd ▸ ho ▸ rfl⟩
  · simpa using congrArg depth h
  · simpa using congrArg offset h

theorem index_zero (o : ℕ) : index 0 o = o * 2 := by
  have := index_succ 0 o
  omega

@[simp]
theorem parent_index (d o : ℕ) : parent (index d o) = index (d + 1) (o / 2) := by
  simp [parent, Nat.shiftRight_succ]

theorem xor_one (o : ℕ) : o ^^^ 1 = if o % 2 = 0 then o + 1 else o - 1 := by
  obtain ⟨k, rfl | rfl⟩ := Nat.even_or_odd' o
  · rw [if_pos (by omega), Nat.xor_one_of_even (by simp)]
  · rw [if_neg (by omega), Nat.xor_one_of_odd (by simp)]

@[simp]
theorem sibling_left (d o : ℕ) : sibling (index d (2 * o)) = index d (2 * o + 1) := by
  rw [sibling, depth_index, offset_index, xor_one, if_pos (by omega)]

@[simp]
theorem sibling_right (d o : ℕ) : sibling (index d (2 * o + 1)) = index d (2 * o) := by
  rw [sibling, depth_index, offset_index, xor_one, if_neg (by omega), Nat.add_sub_cancel]

@[simp]
theorem sibling_sibling (i : ℕ) : sibling (sibling i) = i := by
  obtain ⟨d, o, rfl⟩ := exists_index i
  obtain ⟨k, rfl | rfl⟩ := Nat.even_or_odd' o
  · rw [sibling_left, sibling_right]
  · rw [sibling_right, sibling_left]

@[simp]
theorem parent_sibling (i : ℕ) : parent (sibling i) = parent i := by
  obtain ⟨d, o, rfl⟩ := exists_index i
  obtain ⟨k, rfl | rfl⟩ := Nat.even_or_odd' o
  · rw [sibling_left, parent_index, parent_index, show (2 * k + 1) / 2 = 2 * k / 2 by omega]
  · rw [sibling_right, parent_index, parent_index, show (2 * k + 1) / 2 = 2 * k / 2 by omega]

/-- Two nodes of one parent are the same or siblings. -/
theorem eq_of_parent_eq {i j : ℕ} (h : parent i = parent j) : i = j ∨ i = sibling j := by
  obtain ⟨d, o, rfl⟩ := exists_index i
  obtain ⟨d', o', rfl⟩ := exists_index j
  rw [parent_index, parent_index, index_inj] at h
  obtain ⟨hd, ho⟩ := h
  obtain rfl : d = d' := by omega
  obtain ⟨k, rfl | rfl⟩ := Nat.even_or_odd' o'
  · rw [sibling_left, index_inj, index_inj]
    omega
  · rw [sibling_right, index_inj, index_inj]
    omega

/-- The children's ranges begin where the node's does, meet in its middle and end with it. -/
theorem child_ends (d o : ℕ) : 2 * o * 2 ^ d = o * 2 ^ (d + 1) ∧
    (2 * o + 1) * 2 ^ d = o * 2 ^ (d + 1) + 2 ^ d ∧
    (2 * o + 1 + 1) * 2 ^ d = (o + 1) * 2 ^ (d + 1) :=
  ⟨by ring, by ring, by ring⟩

theorem child_le {n d o : ℕ} (h : (o + 1) * 2 ^ (d + 1) ≤ n) :
    (2 * o + 1) * 2 ^ d ≤ n ∧ (2 * o + 1 + 1) * 2 ^ d ≤ n := by
  have hright := (child_ends d o).2.2.trans_le h
  exact ⟨(Nat.mul_le_mul_right _ (Nat.le_succ _)).trans hright, hright⟩

/-- A block under the parent is under the node or under its sibling. -/
theorem covers_child {d o b : ℕ} (hlo : o / 2 * 2 ^ (d + 1) ≤ b)
    (hhi : b < (o / 2 + 1) * 2 ^ (d + 1)) :
    (o * 2 ^ d ≤ b ∧ b < (o + 1) * 2 ^ d) ∨ ∃ o', sibling (index d o) = index d o' ∧ o' / 2 = o / 2 ∧
      o' * 2 ^ d ≤ b ∧ b < (o' + 1) * 2 ^ d := by
  obtain ⟨k, rfl | rfl⟩ := Nat.even_or_odd' o
  · have hk : 2 * k / 2 = k := by omega
    obtain ⟨hl, -, hr⟩ := child_ends d k
    rw [hk] at hlo hhi
    by_cases hb : b < (2 * k + 1) * 2 ^ d
    · exact Or.inl ⟨by omega, hb⟩
    · exact Or.inr ⟨2 * k + 1, sibling_left d k, by omega, by omega, by omega⟩
  · have hk : (2 * k + 1) / 2 = k := by omega
    obtain ⟨hl, -, hr⟩ := child_ends d k
    rw [hk] at hlo hhi
    by_cases hb : b < (2 * k + 1) * 2 ^ d
    · exact Or.inr ⟨2 * k, sibling_right d k, by omega, by omega, hb⟩
    · exact Or.inl ⟨by omega, by omega⟩

theorem index_lt_index {d o o' : ℕ} : index d o < index d o' ↔ o < o' := by
  have h := index_succ d o
  have h' := index_succ d o'
  have hmul : (1 + 2 * o) * 2 ^ d < (1 + 2 * o') * 2 ^ d ↔ 1 + 2 * o < 1 + 2 * o' :=
    Nat.mul_lt_mul_right (by positivity)
  omega

theorem blockRange_index (d o : ℕ) : blockRange (index d o) = (o * 2 ^ d, (o + 1) * 2 ^ d) := by
  simp [blockRange, add_mul]

theorem depth_lt_of_blockRange_le {i n k : ℕ} (h : (blockRange i).2 ≤ n) (hn : n < 2 ^ k) : depth i < k := by
  refine (Nat.pow_lt_pow_iff_right (a := 2) (by omega)).mp ?_
  calc 2 ^ depth i ≤ (blockRange i).2 := Nat.le_add_left _ _
    _ ≤ n := h
    _ < 2 ^ k := hn

/-- A parent ends where the later of its children ends. -/
theorem blockRange_parent_le {i n : ℕ} (h : (blockRange i).2 ≤ n)
    (hsib : (blockRange (sibling i)).2 ≤ n) : (blockRange (parent i)).2 ≤ n := by
  obtain ⟨d, o, rfl⟩ := exists_index i
  rw [parent_index, blockRange_index]
  rw [blockRange_index] at h
  have hend : (o / 2 + 1) * 2 ^ (d + 1) = (2 * (o / 2) + 2) * 2 ^ d := by ring
  obtain ⟨k, rfl | rfl⟩ := Nat.even_or_odd' o
  · rw [sibling_left, blockRange_index] at hsib
    calc (2 * k / 2 + 1) * 2 ^ (d + 1) = (2 * k + 1 + 1) * 2 ^ d := by
          rw [hend, Nat.mul_div_cancel_left k two_pos]
      _ ≤ n := hsib
  · calc ((2 * k + 1) / 2 + 1) * 2 ^ (d + 1) = (2 * k + 1 + 1) * 2 ^ d := by
          rw [hend, show (2 * k + 1) / 2 = k by omega]
      _ ≤ n := h

/-- The range of a node is within that of its parent. -/
theorem blockRange_parent (i : ℕ) : (blockRange (parent i)).1 ≤ (blockRange i).1 ∧
    (blockRange i).2 ≤ (blockRange (parent i)).2 := by
  obtain ⟨d, o, rfl⟩ := exists_index i
  rw [parent_index, blockRange_index, blockRange_index]
  have hhalf : o / 2 * 2 ≤ o ∧ o + 1 ≤ (o / 2 + 1) * 2 := by omega
  constructor
  · calc o / 2 * 2 ^ (d + 1) = o / 2 * 2 * 2 ^ d := by ring
      _ ≤ o * 2 ^ d := Nat.mul_le_mul_right _ hhalf.1
  · calc (o + 1) * 2 ^ d ≤ (o / 2 + 1) * 2 * 2 ^ d := Nat.mul_le_mul_right _ hhalf.2
      _ = (o / 2 + 1) * 2 ^ (d + 1) := by ring

/-- A block under a node is under its parent. -/
theorem covers_parent {d o b : ℕ} (hlo : o * 2 ^ d ≤ b) (hhi : b < (o + 1) * 2 ^ d) :
    o / 2 * 2 ^ (d + 1) ≤ b ∧ b < (o / 2 + 1) * 2 ^ (d + 1) := by
  have h := blockRange_parent (index d o)
  rw [parent_index, blockRange_index, blockRange_index] at h
  exact ⟨h.1.trans hlo, hhi.trans_le h.2⟩

/-- A parent begins where the earlier of its children begins, and a left sibling ends where
its right one begins. -/
theorem blockRange_children (i : ℕ) : if sibling i < i then
    (blockRange (parent i)).1 = (blockRange (sibling i)).1 ∧
      (blockRange (sibling i)).2 = (blockRange i).1
    else (blockRange (parent i)).1 = (blockRange i).1 := by
  obtain ⟨d, o, rfl⟩ := exists_index i
  rcases Nat.even_or_odd' o with ⟨c, rfl | rfl⟩
  · rw [sibling_left, if_neg (by rw [index_lt_index]; omega), parent_index, blockRange_index,
      blockRange_index, Nat.mul_div_cancel_left _ two_pos]
    show c * 2 ^ (d + 1) = 2 * c * 2 ^ d
    ring
  · have hhalf : (2 * c + 1) / 2 = c := by omega
    rw [sibling_right, if_pos (by rw [index_lt_index]; omega), parent_index, blockRange_index,
      blockRange_index, blockRange_index, hhalf]
    refine ⟨?_, rfl⟩
    show c * 2 ^ (d + 1) = 2 * c * 2 ^ d
    ring

/-- A node lies in the middle of its range. -/
theorem succ_eq_blockRange (i : ℕ) : i + 1 = (blockRange i).1 + (blockRange i).2 := by
  obtain ⟨d, o, rfl⟩ := exists_index i
  rw [blockRange_index, index_succ]
  ring

theorem blockRange_lt (i : ℕ) : (blockRange i).1 < (blockRange i).2 :=
  Nat.lt_add_of_pos_right (by positivity)

/-- The nodes within a length have indices below twice the length. -/
theorem index_lt_of_blockRange_le {i n : ℕ} (h : (blockRange i).2 ≤ n) : i < 2 * n := by
  have hsum := succ_eq_blockRange i
  have hlt := blockRange_lt i
  omega

theorem index_odd (d o : ℕ) : index (d + 1) o % 2 ≠ 0 := by
  have hs := index_succ (d + 1) o
  rw [pow_succ, ← mul_assoc] at hs
  omega

theorem children_index (d o : ℕ) :
    children (index (d + 1) o) = some (index d (2 * o), index d (2 * o + 1)) := by
  simp [children, index_odd, mul_comm]

@[simp]
theorem depth_sibling (i : ℕ) : depth (sibling i) = depth i := depth_index _ _

@[simp]
theorem depth_parent (i : ℕ) : depth (parent i) = depth i + 1 := depth_index _ _

theorem children_zero (o : ℕ) : children (index 0 o) = none := by
  rw [children, if_pos (by rw [index_zero]; omega)]

/-- Both children are one level down. -/
theorem depth_children {i l r : ℕ} (h : children i = some (l, r)) :
    depth l < depth i ∧ depth r < depth i := by
  obtain ⟨d, o, rfl⟩ := exists_index i
  cases d with
  | zero =>
    rw [children_zero] at h
    cases h
  | succ d =>
    rw [children_index] at h
    obtain ⟨rfl, rfl⟩ := Prod.mk.inj (Option.some.inj h)
    simp

/-- A right child rolls up to a smaller number. -/
theorem parent_lt_of_not_lt_sibling {i : ℕ} (h : ¬ i < sibling i) : parent i < i := by
  obtain ⟨d, o, rfl⟩ := exists_index i
  obtain ⟨k, rfl | rfl⟩ := Nat.even_or_odd' o
  · rw [sibling_left, index_lt_index] at h
    omega
  · rw [parent_index, show (2 * k + 1) / 2 = k by omega]
    have hp := index_succ (d + 1) k
    have hc := index_succ d (2 * k + 1)
    have hpos : 0 < 2 ^ d := by positivity
    have hdiff : (1 + 2 * (2 * k + 1)) * 2 ^ d = (1 + 2 * k) * 2 ^ (d + 1) + 2 ^ d := by ring
    omega

/-! ### The roots of a length -/

theorem growFactor_spec (n : ℕ) (hn : 0 < n) :
    ∃ k, growFactor n 1 = 2 ^ k ∧ 2 ^ k ≤ n ∧ n < 2 ^ (k + 1) := by
  -- the factor is a power of two that fits, and the loop stops at the last one
  have grow : ∀ k, 2 ^ k ≤ n →
      ∃ j, growFactor n (2 ^ k) = 2 ^ j ∧ 2 ^ j ≤ n ∧ n < 2 ^ (j + 1) := by
    intro k hk
    induction hm : n - 2 ^ k using Nat.strong_induction_on generalizing k with
    | _ m ih =>
      have hpos : 0 < 2 ^ k := by positivity
      rw [growFactor]
      split_ifs with h
      · rw [← pow_succ] at h ⊢
        have hlt : 2 ^ k < 2 ^ (k + 1) := Nat.pow_lt_pow_succ one_lt_two
        exact ih (n - 2 ^ (k + 1)) (by omega) (k + 1) h.2 rfl
      · refine ⟨k, rfl, hk, ?_⟩
        rw [pow_succ]
        omega
  exact grow 0 hn

theorem rootsLoop_zero (offset : ℕ) : rootsLoop 0 offset = [] := by
  rw [rootsLoop, dif_pos rfl]

/-- One round of the loop. The `offset` blocks already split off are a multiple
of a power of two above what is left, so the number pushed is the node that
starts there. -/
theorem rootsLoop_step {idx off K : ℕ} (hidx : 0 < idx) (hK : 2 ^ K ∣ off) (hlt : idx < 2 ^ K) :
    ∃ k m, off = m * 2 ^ (k + 1) ∧ 2 ^ k ≤ idx ∧ idx < 2 ^ (k + 1) ∧
      rootsLoop idx off = index k (2 * m) :: rootsLoop (idx - 2 ^ k) (off + 2 ^ k) := by
  obtain ⟨k, hk, hle, hup⟩ := growFactor_spec idx hidx
  have hkK : k + 1 ≤ K := by
    by_contra hc
    have : 2 ^ K ≤ 2 ^ k := Nat.pow_le_pow_right two_pos (by omega)
    omega
  obtain ⟨m, hm⟩ : 2 ^ (k + 1) ∣ off := (pow_dvd_pow 2 hkK).trans hK
  refine ⟨k, m, by rw [hm, mul_comm], hle, hup, ?_⟩
  rw [rootsLoop, dif_neg (by omega), hk]
  show (off * 2 + 2 ^ k - 1) :: _ = _
  congr 1
  have hs := index_succ k (2 * m)
  have hoff : off * 2 + 2 ^ k = (1 + 2 * (2 * m)) * 2 ^ k := by
    rw [hm]
    ring
  omega

/-- The largest power of two in a number is the last of its ones. -/
theorem bitIndices_of_le {k n : ℕ} (hle : 2 ^ k ≤ n) (hup : n < 2 ^ (k + 1)) :
    n.bitIndices = (n - 2 ^ k).bitIndices ++ [k] := by
  have hbelow : ∀ j ∈ (n - 2 ^ k).bitIndices, j < k := by
    intro j hj
    have hj' := Nat.two_pow_le_of_mem_bitIndices hj
    rw [pow_succ] at hup
    exact (Nat.pow_lt_pow_iff_right one_lt_two).mp (show 2 ^ j < 2 ^ k by omega)
  have hsorted : ((n - 2 ^ k).bitIndices ++ [k]).SortedLT := by
    refine (List.pairwise_append.mpr
      ⟨Nat.bitIndices_sorted.pairwise, List.pairwise_singleton _ _, ?_⟩).sortedLT
    exact fun j hj k' hk' => List.mem_singleton.mp hk' ▸ hbelow j hj
  rw [← Nat.bitIndices_sum_map_two_pow hsorted, List.map_append, List.sum_append,
    Nat.sum_map_two_pow_bitIndices]
  simp [hle]

/-- Ranges that follow one another from `a` to `b`. -/
def Tiles : ℕ → List (ℕ × ℕ) → ℕ → Prop
  | a, [], b => a = b
  | a, r :: rs, b => r.1 = a ∧ a < r.2 ∧ Tiles r.2 rs b

theorem Tiles.le : ∀ {rs : List (ℕ × ℕ)} {a b : ℕ}, Tiles a rs b → a ≤ b
  | [], _, _, h => Nat.le_of_eq h
  | _ :: _, _, _, h => h.2.1.le.trans (Tiles.le h.2.2)

theorem Tiles.le_of_mem {r : ℕ × ℕ} : ∀ {rs : List (ℕ × ℕ)} {a b : ℕ}, Tiles a rs b → r ∈ rs → a ≤ r.1
  | _ :: _, _, _, h, hmem => by
    rcases List.mem_cons.mp hmem with rfl | hmem
    · exact h.1.ge
    · exact h.2.1.le.trans (Tiles.le_of_mem h.2.2 hmem)

/-- The loop finds a node for every one of the blocks left, the largest first, and they tile
them. -/
theorem rootsLoop_eq : ∀ {idx off K : ℕ}, 2 ^ K ∣ off → idx < 2 ^ K →
    rootsLoop idx off = idx.bitIndices.reverse.map (fun k => index k ((off + idx) / 2 ^ k - 1)) ∧
      Tiles off ((rootsLoop idx off).map blockRange) (off + idx) := by
  intro idx
  induction idx using Nat.strong_induction_on with
  | _ idx ih =>
    intro off K hK hlt
    obtain rfl | hidx := Nat.eq_zero_or_pos idx
    · simp [rootsLoop_zero, Tiles]
    · obtain ⟨k, m, hoff, hle, hup, hstep⟩ := rootsLoop_step hidx hK hlt
      have hpos : 0 < 2 ^ k := by positivity
      have hkk : 2 ^ (k + 1) = 2 ^ k + 2 ^ k := by ring
      have hstart : 2 * m * 2 ^ k = off := by rw [hoff]; ring
      have hdvd : 2 ^ k ∣ off + 2 ^ k := Dvd.dvd.add ⟨2 * m, by rw [← hstart, mul_comm]⟩ dvd_rfl
      obtain ⟨heq, htiles⟩ := ih (idx - 2 ^ k) (by omega) hdvd (by omega)
      have hdiv : (off + idx) / 2 ^ k = 2 * m + 1 := by
        rw [← hstart, Nat.mul_comm, Nat.mul_add_div hpos]
        rw [Nat.div_eq_of_lt_le (k := 1) (by omega) (by omega)]
      rw [show off + 2 ^ k + (idx - 2 ^ k) = off + idx by omega] at heq htiles
      rw [hstep]
      constructor
      · rw [heq, bitIndices_of_le hle hup, List.reverse_append, List.reverse_singleton,
          List.singleton_append, List.map_cons,
          hdiv, Nat.add_sub_cancel]
      · rw [List.map_cons, blockRange_index, add_mul, one_mul, hstart]
        exact ⟨rfl, by omega, htiles⟩

theorem fullRoots_eq (n : ℕ) :
    fullRoots (n * 2) = n.bitIndices.reverse.map fun k => index k (n / 2 ^ k - 1) := by
  rw [fullRoots, Nat.mul_div_cancel _ two_pos]
  have hloop := (rootsLoop_eq (dvd_zero (2 ^ n)) n.lt_two_pow_self).1
  rwa [Nat.zero_add] at hloop

theorem fullRoots_tiles (n : ℕ) : Tiles 0 ((fullRoots (n * 2)).map blockRange) n := by
  rw [fullRoots, Nat.mul_div_cancel _ two_pos]
  have hloop := (rootsLoop_eq (dvd_zero (2 ^ n)) n.lt_two_pow_self).2
  rwa [Nat.zero_add] at hloop

theorem fullRoots_zero : fullRoots (0 * 2) = [] := rootsLoop_zero 0

/-- The roots of `n` blocks are the maximal nodes within them. -/
theorem mem_fullRoots {n d o : ℕ} : index d o ∈ fullRoots (n * 2) ↔
    (o + 1) * 2 ^ d ≤ n ∧ n < (o / 2 + 1) * 2 ^ (d + 1) := by
  have hpos : 0 < 2 ^ d := by positivity
  rw [← Nat.le_div_iff_mul_le hpos, ← Nat.div_lt_iff_lt_mul (by positivity), pow_succ,
    ← Nat.div_div_eq_div_mul,
    fullRoots_eq, List.mem_map]
  simp only [List.mem_reverse, Nat.mem_bitIndices, index_inj, Nat.testBit_eq_decide_div_mod_eq,
    decide_eq_true_eq]
  constructor
  · rintro ⟨k, hk, rfl, rfl⟩
    generalize n / 2 ^ k = q at *
    omega
  · intro h
    refine ⟨d, ?_, rfl, ?_⟩ <;>
    · generalize n / 2 ^ d = q at *
      omega

theorem blockRange_fullRoots {n i : ℕ} (h : i ∈ fullRoots (n * 2)) : (blockRange i).2 ≤ n := by
  obtain ⟨d, o, rfl⟩ := exists_index i
  rw [blockRange_index]
  exact (mem_fullRoots.mp h).1

/-- Above every node within `n` blocks there is a root. -/
theorem exists_root (n d o : ℕ) (h : (o + 1) * 2 ^ d ≤ n) :
    ∃ k, index (d + k) (o / 2 ^ k) ∈ fullRoots (n * 2) := by
  by_cases hmax : n < (o / 2 + 1) * 2 ^ (d + 1)
  · exact ⟨0, by simpa using mem_fullRoots.mpr ⟨h, hmax⟩⟩
  · have hpos : 0 < 2 ^ d := by positivity
    have hpow : 2 ^ (d + 1) = 2 ^ d + 2 ^ d := by ring
    have hle : 2 ^ (d + 1) ≤ n :=
      (Nat.le_mul_of_pos_left _ (Nat.succ_pos (o / 2))).trans (Nat.not_lt.mp hmax)
    obtain ⟨k, hk⟩ := exists_root n (d + 1) (o / 2) (Nat.not_lt.mp hmax)
    refine ⟨k + 1, ?_⟩
    rw [Nat.div_div_eq_div_mul, ← pow_succ'] at hk
    rwa [show d + (k + 1) = d + 1 + k by omega]
termination_by n - 2 ^ d

/-- The roots cover the blocks below `n`, and no other. -/
theorem lt_iff_covered {n b : ℕ} :
    b < n ↔ ∃ d o, index d o ∈ fullRoots (n * 2) ∧ o * 2 ^ d ≤ b ∧ b < (o + 1) * 2 ^ d := by
  refine ⟨fun hb => ?_, fun ⟨d, o, hroot, _, hlt⟩ => hlt.trans_le (mem_fullRoots.mp hroot).1⟩
  obtain ⟨k, hk⟩ := exists_root n 0 b (by omega)
  rw [Nat.zero_add] at hk
  refine ⟨k, b / 2 ^ k, hk, Nat.div_mul_le_self b _, ?_⟩
  exact Nat.lt_mul_of_div_lt (Nat.lt_succ_self _) (by positivity)

theorem mem_fullRoots_iff {n i : ℕ} :
    i ∈ fullRoots (n * 2) ↔ (blockRange i).2 ≤ n ∧ n < (blockRange (parent i)).2 := by
  obtain ⟨d, o, rfl⟩ := exists_index i
  rw [mem_fullRoots, parent_index, blockRange_index, blockRange_index]

theorem iterate_parent (d o : ℕ) : ∀ k, parent^[k] (index d o) = index (d + k) (o / 2 ^ k)
  | 0 => by simp
  | k + 1 => by
    rw [Function.iterate_succ_apply', iterate_parent d o k, parent_index, Nat.div_div_eq_div_mul,
      ← pow_succ, Nat.add_assoc]

theorem monotone_blockRange_parent (i : ℕ) : Monotone fun k => (blockRange (parent^[k] i)).2 :=
  monotone_nat_of_le_succ fun k => by
    rw [Function.iterate_succ_apply']
    exact (blockRange_parent _).2

/-- The nodes within `n` blocks are those under a root, and each is under one only. -/
theorem blockRange_le_iff {n i : ℕ} :
    (blockRange i).2 ≤ n ↔ ∃! root, root ∈ fullRoots (n * 2) ∧ ∃ k, parent^[k] i = root := by
  constructor
  · intro h
    obtain ⟨d, o, rfl⟩ := exists_index i
    rw [blockRange_index] at h
    obtain ⟨k, hk⟩ := exists_root n d o h
    rw [← iterate_parent] at hk
    refine ⟨_, ⟨hk, k, rfl⟩, ?_⟩
    -- of two roots above the node the lower would have its parent within the blocks
    have hnot : ∀ {j k}, parent^[j] (index d o) ∈ fullRoots (n * 2) →
        parent^[k] (index d o) ∈ fullRoots (n * 2) → ¬ j < k := by
      intro j k hj hk hlt
      have habove := monotone_blockRange_parent (index d o) (Nat.succ_le_of_lt hlt)
      dsimp only at habove
      rw [Function.iterate_succ_apply'] at habove
      exact absurd ((mem_fullRoots_iff.mp hj).2.trans_le habove) (Nat.not_lt.mpr (mem_fullRoots_iff.mp hk).1)
    rintro root ⟨hroot, j, rfl⟩
    rw [Nat.le_antisymm (Nat.not_lt.mp (hnot hk hroot)) (Nat.not_lt.mp (hnot hroot hk))]
  · rintro ⟨root, ⟨hroot, k, rfl⟩, -⟩
    exact (monotone_blockRange_parent i (Nat.zero_le k)).trans (mem_fullRoots_iff.mp hroot).1

/-- The roots determine the length. -/
theorem fullRoots_inj {n m : ℕ} (h : fullRoots (n * 2) = fullRoots (m * 2)) : n = m := by
  have hiff : ∀ b, b < n ↔ b < m := by
    intro b
    rw [lt_iff_covered, lt_iff_covered, h]
  have h1 := hiff n
  have h2 := hiff m
  omega

end Flat
end HypercoreRs
