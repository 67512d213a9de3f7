/-
# Flat-tree arithmetic in 64-bit words

The functions of `flat.rs` with the checks of 64-bit words, beside the exact ones. They
agree but at the top of the index range: the last index has no depth (`i + 1` does not
fit), and a node of depth 63, the root of all indices, has neither sibling nor parent.
`full_roots` never faults. Far below the top the laws of a binary tree hold for the
functions as they are (`index_laws`), and the roots of a length tile its blocks
(`fullRoots_tile`).
-/
import HypercoreRs.Merkle.Flat
import HypercoreRs.Word.Checked

namespace HypercoreRs
namespace Flat

open Word

def depth? (i : ℕ) : Option ℕ := (add 64 i 1).map trailingZeros

def offset? (i : ℕ) : Option ℕ :=
  if i % 2 = 0 then some (i / 2)
  else do
    let d ← depth? i
    let n ← add 64 i 1
    let m ← shiftRight 64 n d
    let o ← sub m 1
    return o / 2

def index? (depth offset : ℕ) : Option ℕ := do
  let twice ← mul 64 2 offset
  let odd ← add 64 1 twice
  let unit ← bit 64 depth
  let n ← mul 64 odd unit
  sub n 1

def parent? (i : ℕ) : Option ℕ := do
  let d ← depth? i
  let o ← offset? i
  index? (d + 1) (o >>> 1)

def sibling? (i : ℕ) : Option ℕ := do
  let d ← depth? i
  let o ← offset? i
  index? d (o ^^^ 1)

def children? (i : ℕ) : Option (Option (ℕ × ℕ)) :=
  if i % 2 = 0 then some none
  else do
    let d ← depth? i
    let o ← offset? i
    let off ← mul 64 o 2
    let below ← sub d 1
    let left ← index? below off
    let next ← add 64 off 1
    let right ← index? below next
    return some (left, right)

def blockRange? (i : ℕ) : Option (ℕ × ℕ) := do
  let d ← depth? i
  let count ← bit 64 d
  let o ← offset? i
  let first ← mul 64 o count
  let end_ ← add 64 first count
  return (first, end_)

/-- The inner loop of `full_roots`; a factor is doubled less than 64 times. -/
def growFactor? (index : ℕ) : ℕ → ℕ → Option ℕ
  | 0, factor => some factor
  | fuel + 1, factor => do
    let twice ← mul 64 factor 2
    if twice ≤ index then growFactor? index fuel twice else some factor

/-- The outer loop of `full_roots`; there are fewer rounds than blocks. -/
def rootsLoop? : ℕ → ℕ → ℕ → Option (List ℕ)
  | 0, _, _ => some []
  | fuel + 1, index, offset =>
    if index = 0 then some []
    else do
      let factor ← growFactor? index 64 1
      let twice ← mul 64 offset 2
      let sum ← add 64 twice factor
      let root ← sub sum 1
      let offset ← add 64 offset factor
      let index ← sub index factor
      let roots ← rootsLoop? fuel index offset
      return root :: roots

def fullRoots? (idx : ℕ) : Option (List ℕ) := rootsLoop? (idx / 2) (idx / 2) 0

/-! ### Depth and offset -/

theorem yields_depth? (i : ℕ) : Yields (depth? i) (i + 1 < 2 ^ 64) (depth i) :=
  (yields_add 64 i 1).map trailingZeros

theorem pow_depth_le (i : ℕ) : 2 ^ depth i ≤ i + 1 := by
  obtain ⟨d, o, rfl⟩ := exists_index i
  rw [depth_index, index_succ]
  exact Nat.le_mul_of_pos_left _ (by omega)

theorem depth_lt_of_lt {i n : ℕ} (h : i + 1 < 2 ^ n) : depth i < n :=
  (Nat.pow_lt_pow_iff_right (by norm_num)).mp ((pow_depth_le i).trans_lt h)

variable {i : ℕ}

theorem offset?_eq (h : i + 1 < 2 ^ 64) : offset? i = some (offset i) := by
  have hpos : 1 ≤ (i + 1) >>> depth i := by
    rw [Nat.shiftRight_eq_div_pow]
    exact (Nat.one_le_div_iff (by positivity)).mpr (pow_depth_le i)
  rw [offset?, offset]
  split_ifs
  · rfl
  · rw [(yields_depth? i).eq_some h, (yields_add 64 i 1).eq_some h]
    simp only [Option.bind_eq_bind, Option.bind_some]
    rw [(yields_shiftRight 64 (i + 1) (depth i)).eq_some (depth_lt_of_lt h)]
    simp only [Option.bind_some]
    rw [(yields_sub _ 1).eq_some hpos]
    rfl

/-! ### Numbers from coordinates -/

theorem yields_index? (d o : ℕ) :
    Yields (index? d o) ((1 + 2 * o) * 2 ^ d < 2 ^ 64) (index d o) := by
  have hpos : 1 ≤ (1 + 2 * o) * 2 ^ d := Nat.one_le_iff_ne_zero.mpr (by positivity)
  refine (((yields_mul 64 2 o).bind fun _ => (yields_add 64 1 (2 * o)).bind fun _ =>
    (yields_bit 64 d).bind fun _ => (yields_mul 64 (1 + 2 * o) (2 ^ d)).bind fun _ =>
      yields_sub ((1 + 2 * o) * 2 ^ d) 1)).congr ⟨fun h => h.2.2.2.1, fun h => ?_⟩
  have hodd : 1 + 2 * o < 2 ^ 64 := (Nat.le_mul_of_pos_right _ (by positivity)).trans_lt h
  have hunit : 2 ^ d < 2 ^ 64 := (Nat.le_mul_of_pos_left _ (by omega)).trans_lt h
  exact ⟨by omega, hodd, (Nat.pow_lt_pow_iff_right (by norm_num)).mp hunit, h, hpos⟩

/-- With two bits to spare above the depth, the number has room for the sibling and the
parent. -/
theorem room_above {d o : ℕ} (hd : d ≤ 62) (h : (1 + 2 * o) * 2 ^ d < 2 ^ 64) :
    (1 + 2 * (o ^^^ 1)) * 2 ^ d < 2 ^ 64 ∧ (1 + 2 * (o >>> 1)) * 2 ^ (d + 1) < 2 ^ 64 := by
  obtain ⟨e, he⟩ := Nat.exists_eq_add_of_le hd
  have htop : 2 ^ 64 = 4 * 2 ^ e * 2 ^ d := by
    calc 2 ^ 64 = 2 ^ (2 + e + d) := by rw [show 2 + e + d = 64 by omega]
      _ = 4 * 2 ^ e * 2 ^ d := by rw [pow_add, pow_add]; norm_num
  have hpos : 0 < 2 ^ d := by positivity
  rw [htop] at h ⊢
  have hlt : 1 + 2 * o < 4 * 2 ^ e := (Nat.mul_lt_mul_right hpos).mp h
  constructor
  · refine (Nat.mul_lt_mul_right hpos).mpr ?_
    rw [xor_one]
    split_ifs
    · omega
    · omega
  · rw [pow_succ, Nat.mul_comm (2 ^ d) 2, ← Nat.mul_assoc, Nat.shiftRight_eq_div_pow, pow_one]
    refine (Nat.mul_lt_mul_right hpos).mpr ?_
    omega

/-- Node 63 levels up is the root of all indices. -/
theorem offset_of_depth (h : i + 1 < 2 ^ 64) (hd : ¬ depth i ≤ 62) :
    depth i = 63 ∧ offset i = 0 := by
  have hlt := depth_lt_of_lt h
  have hd' : depth i = 63 := by omega
  refine ⟨hd', ?_⟩
  have hi := index_depth_offset i
  rw [hd'] at hi
  have hsucc := index_succ 63 (offset i)
  rw [hi] at hsucc
  by_contra hne
  have : 3 * 2 ^ 63 ≤ (1 + 2 * offset i) * 2 ^ 63 := Nat.mul_le_mul_right _ (by omega)
  omega

theorem succ_lt_of_depth_le (hi : i < 2 ^ 64) (hd : depth i ≤ 62) : i + 1 < 2 ^ 64 := by
  by_contra hlast
  have : i = index 64 0 := by
    rw [index]
    omega
  rw [this, depth_index] at hd
  omega

/-- Below the root of all indices the sibling and the parent are not the last index. -/
theorem succ_lt_above (hi : i < 2 ^ 64) (hd : depth i ≤ 62) :
    sibling i + 1 < 2 ^ 64 ∧ parent i + 1 < 2 ^ 64 := by
  have hsucc := succ_lt_of_depth_le hi hd
  rw [sibling, parent, index_succ, index_succ]
  refine room_above hd ?_
  rwa [← index_succ, index_depth_offset]

/-- A node computed from the coordinates of `i`, if it fits for all nodes but the root of all
indices. -/
theorem yields_coords? (e p : ℕ → ℕ) (hi : i < 2 ^ 64)
    (hroom : depth i ≤ 62 → index (e (depth i)) (p (offset i)) + 1 < 2 ^ 64)
    (htop : 2 ^ 64 ≤ index (e 63) (p 0) + 1) :
    Yields (do let d ← depth? i; let o ← offset? i; index? (e d) (p o)) (depth i ≤ 62)
      (index (e (depth i)) (p (offset i))) := by
  have hindex := yields_index? (e (depth i)) (p (offset i))
  rw [← index_succ] at hindex
  refine ((yields_depth? i).bind fun h => Yields.bind_of_eq (offset?_eq h) hindex).congr
    ⟨fun ⟨hsucc, h⟩ => ?_, fun hd => ⟨succ_lt_of_depth_le hi hd, hroom hd⟩⟩
  by_contra hd
  obtain ⟨hdepth, hoffset⟩ := offset_of_depth hsucc hd
  rw [hdepth, hoffset] at h
  omega

theorem yields_sibling? (hi : i < 2 ^ 64) : Yields (sibling? i) (depth i ≤ 62) (sibling i) :=
  yields_coords? id (· ^^^ 1) hi (fun hd => (succ_lt_above hi hd).1) (by decide)

theorem yields_parent? (hi : i < 2 ^ 64) : Yields (parent? i) (depth i ≤ 62) (parent i) :=
  yields_coords? (· + 1) (· >>> 1) hi (fun hd => (succ_lt_above hi hd).2) (by decide)

theorem yields_blockRange? (i : ℕ) : Yields (blockRange? i) (i + 1 < 2 ^ 64) (blockRange i) := by
  have hsucc := index_succ (depth i) (offset i)
  rw [index_depth_offset] at hsucc
  have hsum : offset i * 2 ^ depth i + 2 ^ depth i ≤ i + 1 := by
    rw [hsucc]
    calc offset i * 2 ^ depth i + 2 ^ depth i = (1 + offset i) * 2 ^ depth i := by ring
      _ ≤ (1 + 2 * offset i) * 2 ^ depth i := Nat.mul_le_mul_right _ (by omega)
  have hfirst : offset i * 2 ^ depth i ≤ i + 1 := (Nat.le_add_right _ _).trans hsum
  refine ((yields_depth? i).bind fun h => (yields_bit 64 (depth i)).bind fun _ =>
    Yields.bind_of_eq (offset?_eq h) ((yields_mul 64 (offset i) (2 ^ depth i)).bind fun _ =>
      (yields_add 64 (offset i * 2 ^ depth i) (2 ^ depth i)).bind_pure
      (offset i * 2 ^ depth i, ·))).congr ?_
  exact ⟨fun h => h.1, fun h => ⟨h, depth_lt_of_lt h, hfirst.trans_lt h, hsum.trans_lt h⟩⟩

/-! ### The roots of a length -/

theorem growFactor?_eq {index : ℕ} (hindex : index < 2 ^ 63) : ∀ {fuel factor : ℕ}, 0 < factor →
    factor * 2 < 2 ^ 64 → index < factor * 2 ^ fuel →
    growFactor? index fuel factor = some (growFactor index factor)
  | 0, factor, hpos, _, hfuel => by
    rw [pow_zero, Nat.mul_one] at hfuel
    rw [growFactor?, growFactor, if_neg (by omega)]
  | fuel + 1, factor, hpos, hfits, hfuel => by
    rw [growFactor?, (yields_mul 64 factor 2).eq_some hfits, growFactor]
    simp only [Option.bind_eq_bind, Option.bind_some]
    by_cases hle : factor * 2 ≤ index
    · rw [if_pos hle, if_pos ⟨hpos, hle⟩]
      refine growFactor?_eq hindex (by omega) (by omega) ?_
      rwa [Nat.mul_assoc, ← pow_succ']
    · rw [if_neg hle, if_neg fun h => hle h.2]

theorem rootsLoop?_eq : ∀ {fuel index offset : ℕ}, index ≤ fuel → offset + index < 2 ^ 63 →
    rootsLoop? fuel index offset = some (rootsLoop index offset)
  | 0, index, offset, hfuel, _ => by
    obtain rfl : index = 0 := by omega
    rw [rootsLoop?, rootsLoop_zero]
  | fuel + 1, index, offset, hfuel, hfits => by
    rw [rootsLoop?]
    by_cases hzero : index = 0
    · rw [if_pos hzero, hzero, rootsLoop_zero]
    · have hgrow : growFactor? index 64 1 = some (growFactor index 1) :=
        growFactor?_eq (by omega) one_pos (by norm_num) (by omega)
      have hge := growFactor_ge index 1
      obtain ⟨k, hk, hle, -⟩ := growFactor_spec index (by omega)
      have hle' : growFactor index 1 ≤ index := hk ▸ hle
      rw [if_neg hzero, hgrow, rootsLoop, dif_neg hzero]
      simp only [Option.bind_eq_bind, Option.bind_some]
      rw [(yields_mul 64 offset 2).eq_some (by omega), Option.bind_some,
        (yields_add 64 (offset * 2) _).eq_some (by omega), Option.bind_some,
        (yields_sub _ 1).eq_some (by omega), Option.bind_some,
        (yields_add 64 offset _).eq_some (by omega), Option.bind_some,
        (yields_sub index _).eq_some hle', Option.bind_some,
        rootsLoop?_eq (by omega) (by omega), Option.bind_some]
      rfl

theorem fullRoots?_eq {idx : ℕ} (h : idx < 2 ^ 64) : fullRoots? idx = some (fullRoots idx) :=
  rootsLoop?_eq le_rfl (by omega)

/-! ### The laws of the indices -/

variable {d o : ℕ}

/-- A node of the tree of `2 ^ 61` blocks is far from the last index. -/
theorem index_lt_of_room (h : (o + 1) * 2 ^ (d + 1) < 2 ^ 62) :
    d ≤ 62 ∧ index d o + 1 < 2 ^ 62 := by
  have hle : index d o + 1 < 2 ^ 62 := by
    rw [index_succ]
    calc (1 + 2 * o) * 2 ^ d ≤ (2 * o + 2) * 2 ^ d := Nat.mul_le_mul_right _ (by omega)
      _ = (o + 1) * 2 ^ (d + 1) := by ring
      _ < 2 ^ 62 := h
  have hdepth := depth_lt_of_lt hle
  rw [depth_index] at hdepth
  exact ⟨hdepth.le, hle⟩

theorem blockRange?_eq (h : (o + 1) * 2 ^ (d + 1) < 2 ^ 62) :
    blockRange? (index d o) = some (o * 2 ^ d, (o + 1) * 2 ^ d) := by
  have hlt := (index_lt_of_room h).2
  rw [(yields_blockRange? _).eq_some (by omega), blockRange_index]

theorem children?_eq (hl : index d (2 * o) + 1 < 2 ^ 62) (hr : index d (2 * o + 1) + 1 < 2 ^ 62)
    (hi : index (d + 1) o + 1 < 2 ^ 62) :
    children? (index (d + 1) o) = some (some (index d (2 * o), index d (2 * o + 1))) := by
  have hpos : 0 < 2 ^ d := by positivity
  have hdepth : depth? (index (d + 1) o) = some (d + 1) := by
    rw [(yields_depth? _).eq_some (by omega), depth_index]
  have hoffset : offset? (index (d + 1) o) = some o := by
    rw [offset?_eq (by omega), offset_index]
  have hodd : 1 + 2 * (2 * o + 1) < 2 ^ 62 := by
    rw [index_succ] at hr
    exact (Nat.le_mul_of_pos_right _ hpos).trans_lt hr
  rw [children?, if_neg (index_odd d o), hdepth, hoffset]
  simp only [Option.bind_eq_bind, Option.bind_some]
  rw [(yields_mul 64 o 2).eq_some (by omega), Option.bind_some,
    (yields_sub (d + 1) 1).eq_some (by omega), Option.bind_some,
    Nat.add_sub_cancel, Nat.mul_comm, (yields_index? _ _).eq_some (by rw [← index_succ]; omega),
    Option.bind_some,
    (yields_add 64 _ 1).eq_some (by omega), Option.bind_some,
    (yields_index? _ _).eq_some (by rw [← index_succ]; omega)]
  rfl

/-- Up to the tree of `2 ^ 61` blocks the functions on indices never fault and obey the laws
of a binary tree. -/
theorem index_laws (h : (o + 1) * 2 ^ (d + 1) < 2 ^ 62) :
    ∃ i, index? d o = some i ∧ depth? i = some d ∧
    offset? i = some o ∧ blockRange? i = some (o * 2 ^ d, (o + 1) * 2 ^ d) ∧
    (∃ s p, sibling? i = some s ∧ sibling? s = some i ∧ parent? i = some p ∧ parent? s = some p) ∧
    (0 < d → ∃ l r m, children? i = some (some (l, r)) ∧ parent? l = some i ∧ parent? r = some i ∧
      sibling? l = some r ∧ sibling? r = some l ∧
      blockRange? l = some (o * 2 ^ d, m) ∧ blockRange? r = some (m, (o + 1) * 2 ^ d) ∧
      Set.Ico (o * 2 ^ d) m ∪ Set.Ico m ((o + 1) * 2 ^ d) = Set.Ico (o * 2 ^ d) ((o + 1) * 2 ^ d) ∧
      Disjoint (Set.Ico (o * 2 ^ d) m) (Set.Ico m ((o + 1) * 2 ^ d))) := by
  obtain ⟨hd, hlt⟩ := index_lt_of_room h
  have hi : index d o < 2 ^ 64 := by omega
  have hdepth : depth (index d o) ≤ 62 := by rwa [depth_index]
  have hs : sibling (index d o) < 2 ^ 64 := by
    have := (succ_lt_above hi hdepth).1
    omega
  have hsdepth : depth (sibling (index d o)) ≤ 62 := by rwa [depth_sibling]
  refine ⟨index d o, (yields_index? d o).eq_some ?_, ?_, ?_, blockRange?_eq h, ?_, fun hpos => ?_⟩
  · rw [← index_succ]
    omega
  · rw [(yields_depth? _).eq_some (by omega), depth_index]
  · rw [offset?_eq (by omega), offset_index]
  · refine ⟨_, _, (yields_sibling? hi).eq_some hdepth, ?_, (yields_parent? hi).eq_some hdepth, ?_⟩
    · rw [(yields_sibling? hs).eq_some hsdepth, sibling_sibling]
    · rw [(yields_parent? hs).eq_some hsdepth, parent_sibling]
  · obtain ⟨d, rfl⟩ := Nat.exists_eq_succ_of_ne_zero hpos.ne'
    obtain ⟨hleft, hright⟩ := child_le (Nat.le_refl ((o + 1) * 2 ^ (d + 1 + 1)))
    replace hleft := hleft.trans_lt h
    replace hright := hright.trans_lt h
    obtain ⟨hstart, -, hend⟩ := child_ends d o
    obtain ⟨hld, hl⟩ := index_lt_of_room hleft
    have hr := (index_lt_of_room hright).2
    have hldepth : depth (index d (2 * o)) ≤ 62 := by rwa [depth_index]
    have hrdepth : depth (index d (2 * o + 1)) ≤ 62 := by rwa [depth_index]
    refine ⟨index d (2 * o), index d (2 * o + 1), (2 * o + 1) * 2 ^ d, ?_, ?_, ?_, ?_, ?_,
      ?_, ?_, ?_, ?_⟩
    · exact children?_eq hl hr hlt
    · rw [(yields_parent? (by omega)).eq_some hldepth, parent_index,
        Nat.mul_div_cancel_left o two_pos]
    · rw [(yields_parent? (by omega)).eq_some hrdepth, parent_index,
        show (2 * o + 1) / 2 = o by omega]
    · rw [(yields_sibling? (by omega)).eq_some hldepth, sibling_left]
    · rw [(yields_sibling? (by omega)).eq_some hrdepth, sibling_right]
    · rw [blockRange?_eq hleft, hstart]
    · rw [blockRange?_eq hright, hend]
    · exact Set.Ico_union_Ico_eq_Ico (hstart ▸ Nat.mul_le_mul_right _ (by omega))
        (hend ▸ Nat.mul_le_mul_right _ (by omega))
    · exact Set.Ico_disjoint_Ico_same

theorem index_laws_inner :
    ∃ i, index? 1 3 = some i ∧ depth? i = some 1 ∧ ∃ l r, children? i = some (some (l, r)) := by
  obtain ⟨i, hi, hdepth, -, -, -, hchildren⟩ :=
    index_laws (show (3 + 1) * 2 ^ (1 + 1) < 2 ^ 62 by norm_num)
  obtain ⟨l, r, m, h, -⟩ := hchildren one_pos
  exact ⟨i, hi, hdepth, l, r, h⟩

/-- The roots of a log of fewer than `2 ^ 62` blocks cover them in order, with a power of two
for each one of the length, and the nodes within them are those under exactly one root. -/
theorem fullRoots_tile {n : ℕ} (hn : n < 2 ^ 62) :
    ∃ roots ranges, fullRoots? (2 * n) = some roots ∧ roots.mapM blockRange? = some ranges ∧
    Tiles 0 ranges n ∧
      ranges.map (fun r => r.2 - r.1) = n.bitIndices.reverse.map (2 ^ ·) ∧
      (ranges.map fun r => r.2 - r.1).Pairwise (· > ·) ∧
      ∀ i r, blockRange? i = some r →
        (r.2 ≤ n ↔ ∃! root, root ∈ roots ∧ ∃ k, parent^[k] i = root) := by
  rw [Nat.mul_comm 2 n]
  have hranges :
    (fullRoots (n * 2)).mapM blockRange? = some ((fullRoots (n * 2)).map blockRange) := by
    refine (Yields.mapM fun i _ => yields_blockRange? i).eq_some fun i hi => ?_
    have := index_lt_of_blockRange_le (blockRange_fullRoots hi)
    omega
  have hsizes : ((fullRoots (n * 2)).map blockRange).map (fun r => r.2 - r.1) =
      n.bitIndices.reverse.map (2 ^ ·) := by
    rw [fullRoots_eq, List.map_map, List.map_map]
    refine List.map_congr_left fun k _ => ?_
    simp [blockRange]
  refine ⟨_, _, fullRoots?_eq (by omega), hranges, fullRoots_tiles n, hsizes, ?_, fun i r hr => ?_⟩
  · rw [hsizes, List.pairwise_map, List.pairwise_reverse]
    exact Nat.bitIndices_sorted.pairwise.imp fun hlt => Nat.pow_lt_pow_right one_lt_two hlt
  · obtain ⟨-, rfl⟩ := (yields_blockRange? i r).mp hr
    exact blockRange_le_iff

theorem fullRoots_tile_three :
    ∃ roots ranges, fullRoots? (2 * 3) = some roots ∧ roots.mapM blockRange? = some ranges ∧
    Tiles 0 ranges 3 := by
  obtain ⟨roots, ranges, hroots, hranges, htiles, -⟩ := fullRoots_tile (show 3 < 2 ^ 62 by norm_num)
  exact ⟨roots, ranges, hroots, hranges, htiles⟩

end Flat
end HypercoreRs
