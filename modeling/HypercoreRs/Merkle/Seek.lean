/-
# Seeking by bytes

`seek` finds the block that a byte offset falls in by descending the tree along the
committed sizes. What it is to find is said by the scan over the blocks (`scan`); blocks
may be empty, and the offset belongs to the block it lies strictly inside of.

A seek proof is the leaf, the siblings above it and the roots. The verifier adds up the
sizes of the left siblings and of the roots to the left, and that sum is the number of
bytes before the leaf's block (`bytesBefore`): every size entered the root hash, so none
can be forged (`climb_pins`), and no two blocks bracket one offset
(`scan_eq_of_bracket`).
-/
import HypercoreRs.Merkle.Inclusion
import HypercoreRs.Merkle.Layout

open Std

namespace HypercoreRs
namespace Merkle

variable {H : Type} (hs : Hasher H)

/-- A proof that a byte offset falls in a particular block: the leaf, its inclusion path
and every root. -/
structure SeekProof (H : Type) where
  bytes : ℕ
  leaf : Node H
  siblings : List (Node H)
  roots : List (Node H)

namespace MerkleTree

/-- Descend to the leaf that holds byte `bytes` of the subtree at `index`. A missing node
is a panic in the source. -/
def seekDescend (T : MerkleTree H) (index bytes : ℕ) : Option (ℕ × ℕ) :=
  match _h : Flat.children index with
  | none => some (index / 2, bytes)
  | some (l, r) =>
    match T.nodes[l]? with
    | none => none
    | some left =>
      if left.size > bytes then seekDescend T l bytes else seekDescend T r (bytes - left.size)
termination_by Flat.depth index
decreasing_by
  · exact (Flat.depth_children _h).1
  · exact (Flat.depth_children _h).2

/-- The loop of `seek` over the roots. -/
def seekRoots (T : MerkleTree H) : List (Node H) → ℕ → Option (ℕ × ℕ)
  | [], remaining => some (T.length, remaining)
  | root :: roots, remaining =>
    if root.size > remaining then T.seekDescend root.index remaining
    else seekRoots T roots (remaining - root.size)

/-- The block that byte `bytes` falls in, and the offset within it. -/
def seek (T : MerkleTree H) (bytes : ℕ) : Option (ℕ × ℕ) := do
  T.seekRoots (← T.roots) bytes

/-- A proof of where byte `bytes` falls, or `none` past the end. -/
def seekProof (T : MerkleTree H) (bytes : ℕ) : Option (SeekProof H) := do
  let (block, _) ← T.seek bytes
  if block ≥ T.length then none
  else
    let roots ← T.roots
    let siblings ← pathLoop T.nodes (rootSet roots) T.length (block * 2)
    let leaf ← T.nodes[block * 2]?
    return { bytes, leaf, siblings, roots }

end MerkleTree

/-- The climb of `SeekProof::verify`, with the sizes of the left siblings added up. -/
def seekClimb : Node H → ℕ → List (Node H) → Option (Node H × ℕ)
  | node, leftSum, [] => some (node, leftSum)
  | node, leftSum, sib :: siblings =>
    if sib.index ≠ Flat.sibling node.index then none
    else
      seekClimb (pairUp hs node.index node sib.index sib)
        (if sib.index < node.index then leftSum + sib.size else leftSum) siblings

/-- The loop over the roots: the sizes of those to the left of `idx`, and whether `idx` is
among them. -/
def scanRoots (idx : ℕ) : List (Node H) → ℕ → Bool → ℕ × Bool
  | [], sum, found => (sum, found)
  | r :: roots, sum, found =>
    if r.index = idx then scanRoots idx roots sum true
    else if r.index < idx then scanRoots idx roots (sum + r.size) found
    else scanRoots idx roots sum found

/-- Verify against the trusted root hash: the block and the offset within it. -/
def SeekProof.verify [DecidableEq H] (p : SeekProof H) (expectedRoot : H) : Option (ℕ × ℕ) :=
  if p.leaf.index % 2 ≠ 0 then none
  else
    match seekClimb hs p.leaf 0 p.siblings with
    | none => none
    | some (node, leftSum) =>
      let (rootLeftSum, found) := scanRoots node.index p.roots 0 false
      if !found then none
      else
        let cumulative := rootLeftSum + leftSum
        match substitute node.index node p.roots with
        | none => none
        | some roots =>
          if hs.treeHash roots ≠ expectedRoot then none
          else if p.bytes < cumulative then none
          else
            let offset := p.bytes - cumulative
            if offset ≥ p.leaf.size then none else some (p.leaf.index / 2, offset)

/-! ### The scan -/

/-- The linear scan for byte `o`: the block it falls in and the offset within it, or the
number of blocks and what is left of `o`. -/
def scan : List Block → ℕ → ℕ × ℕ
  | [], o => (0, o)
  | data :: B, o =>
    if o < data.length then (0, o)
    else
      let (b, off) := scan B (o - data.length)
      (b + 1, off)

theorem bytesBefore_cons (data : Block) (B : List Block) (n : ℕ) :
    bytesBefore (data :: B) (n + 1) = data.length + bytesBefore B n := by
  simp [bytesBefore, byteSize]

theorem scan_past : ∀ {B : List Block} {o : ℕ}, byteSize B ≤ o →
    scan B o = (B.length, o - byteSize B)
  | [], o, _ => rfl
  | data :: B, o, h => by
    have hsize : byteSize (data :: B) = data.length + byteSize B := List.sum_cons
    rw [hsize] at h ⊢
    rw [scan, if_neg (by omega), scan_past (B := B) (by omega)]
    show (B.length + 1, o - data.length - byteSize B) = (B.length + 1, o - (data.length + byteSize B))
    rw [Nat.sub_sub]

/-- The block whose bytes bracket `o` is the one the scan finds. -/
theorem scan_eq_of_bracket : ∀ {B : List Block} {b o : ℕ}, b < B.length →
    bytesBefore B b ≤ o → o < bytesBefore B (b + 1) → scan B o = (b, o - bytesBefore B b)
  | data :: B, 0, o, _, _, hhi => by
    rw [bytesBefore_cons, bytesBefore_zero] at hhi
    rw [scan, if_pos (by omega)]
    rfl
  | data :: B, b + 1, o, hb, hlo, hhi => by
    rw [bytesBefore_cons] at hlo hhi
    rw [List.length_cons] at hb
    rw [scan, if_neg (by omega), scan_eq_of_bracket (B := B) (b := b) (by omega) (by omega) (by omega),
      bytesBefore_cons]
    show (b + 1, o - data.length - bytesBefore B b) = (b + 1, o - (data.length + bytesBefore B b))
    rw [Nat.sub_sub]

/-- Some block brackets every offset below the total. -/
theorem exists_bracket : ∀ {B : List Block} {o : ℕ}, o < byteSize B →
    ∃ b < B.length, bytesBefore B b ≤ o ∧ o < bytesBefore B (b + 1)
  | [], o, h => absurd h (Nat.not_lt_zero o)
  | data :: B, o, h => by
    have hsize : byteSize (data :: B) = data.length + byteSize B := List.sum_cons
    by_cases hfirst : o < data.length
    · refine ⟨0, by simp, by rw [bytesBefore_zero]; omega, ?_⟩
      rw [bytesBefore_cons, bytesBefore_zero]
      omega
    · obtain ⟨b, hb, hlo, hhi⟩ := exists_bracket (B := B) (o := o - data.length) (by omega)
      refine ⟨b + 1, by simpa using hb, ?_, ?_⟩
      · rw [bytesBefore_cons]
        omega
      · rw [bytesBefore_cons]
        omega

variable {hs} {B : List Block} {T : MerkleTree H}

/-! ### Seeking -/

/-- The descent finds the block that brackets the offset. -/
theorem Built.seekDescend (h : Built hs B T) : ∀ {d o bytes : ℕ}, (o + 1) * 2 ^ d ≤ B.length →
    bytes < (nodeAt hs B d o).size →
    T.seekDescend (Flat.index d o) bytes = some (scan B (bytesBefore B (o * 2 ^ d) + bytes))
  | 0, o, bytes, hin, hbytes => by
    have hsize := bytesBefore_nodeAt hs B 0 o
    rw [pow_zero, Nat.mul_one] at hin
    rw [pow_zero, Nat.mul_one, Nat.mul_one] at hsize
    have hscan := scan_eq_of_bracket (B := B) (b := o) (o := bytesBefore B o + bytes) (by omega)
      (by omega) (by omega)
    rw [pow_zero, Nat.mul_one, hscan, Nat.add_sub_cancel_left, MerkleTree.seekDescend]
    split
    · rw [Flat.index_zero, Nat.mul_div_cancel _ two_pos]
    · rename_i l r hch
      rw [Flat.children_zero] at hch
      cases hch
  | d + 1, o, bytes, hin, hbytes => by
    have hstart := (Flat.child_ends d o).1
    obtain ⟨hleft, hright⟩ := Flat.child_le hin
    have hsize : (nodeAt hs B (d + 1) o).size =
        (nodeAt hs B d (2 * o)).size + (nodeAt hs B d (2 * o + 1)).size := rfl
    have hmid := bytesBefore_nodeAt hs B d (2 * o)
    rw [MerkleTree.seekDescend]
    split
    · rename_i hch
      rw [Flat.children_index] at hch
      cases hch
    · rename_i l r hch
      rw [Flat.children_index] at hch
      obtain ⟨rfl, rfl⟩ := Prod.mk.inj (Option.some.inj hch)
      rw [h.nodes, if_pos hleft]
      dsimp only
      split_ifs with hlt
      · rw [h.seekDescend hleft hlt, hstart]
      · rw [h.seekDescend hright (by omega), ← hmid, hstart]
        congr 2
        omega

/-- The loop over the roots, with the blocks below `off` passed. -/
theorem Built.seekRoots (h : Built hs B T) : ∀ {roots : List ℕ} {off : ℕ},
    Flat.Tiles off (roots.map Flat.blockRange) B.length → ∀ remaining,
    T.seekRoots (roots.map (nodeOf hs B)) remaining = some (scan B (bytesBefore B off + remaining))
  | [], _, rfl, remaining => by
    rw [List.map_nil, MerkleTree.seekRoots, bytesBefore_length, scan_past (Nat.le_add_right _ _),
      Nat.add_sub_cancel_left, h.length_eq]
  | i :: roots, _, ⟨rfl, _, hrest⟩, remaining => by
    have hsize := bytesBefore_nodeOf hs B i
    rw [List.map_cons, MerkleTree.seekRoots]
    split_ifs with hsz
    · have hin := hrest.le
      obtain ⟨d, o, rfl⟩ := Flat.exists_index i
      rw [Flat.blockRange_index] at hin ⊢
      rw [nodeOf_index] at hsz ⊢
      rw [index_nodeAt, h.seekDescend hin hsz]
    · rw [h.seekRoots hrest, ← hsize]
      congr 2
      omega

/-- `seek` is the scan. -/
theorem Built.seek (h : Built hs B T) (bytes : ℕ) : T.seek bytes = some (scan B bytes) := by
  rw [MerkleTree.seek, h.roots]
  refine (h.seekRoots (Flat.fullRoots_tiles B.length) bytes).trans ?_
  rw [bytesBefore_zero, Nat.zero_add]

/-! ### The sums of the verifier -/

variable {w : Node H}

theorem climb_of_seekClimb {t : ℕ} : ∀ {siblings : List (Node H)} {v : Node H} {s : ℕ},
    seekClimb hs v s siblings = some (w, t) → climb hs v siblings = some w
  | [], v, s, h => by
    obtain ⟨rfl, -⟩ := Prod.mk.inj (Option.some.inj h)
    rfl
  | sib :: siblings, v, s, h => by
    rw [seekClimb] at h
    rw [climb]
    by_cases hsib : sib.index ≠ Flat.sibling v.index
    · rw [if_pos hsib] at h
      cases h
    · rw [if_neg hsib] at h ⊢
      exact climb_of_seekClimb h

theorem seekClimb_of_climb : ∀ {siblings : List (Node H)} {v : Node H} (s : ℕ),
    climb hs v siblings = some w → ∃ t, seekClimb hs v s siblings = some (w, t)
  | [], v, s, h => ⟨s, by rw [← Option.some.inj h]; rfl⟩
  | sib :: siblings, v, s, h => by
    rw [climb] at h
    split_ifs at h with hsib
    rw [seekClimb, if_neg hsib]
    exact seekClimb_of_climb _ h

/-- Over nodes of the tree the left siblings are what lies between the two starts. -/
theorem seekClimb_sum {t : ℕ} : ∀ {siblings : List (Node H)} {v : Node H} {s : ℕ},
    (∀ u ∈ siblings, u = nodeOf hs B u.index) → seekClimb hs v s siblings = some (w, t) →
    t + bytesBefore B (Flat.blockRange w.index).1 = s + bytesBefore B (Flat.blockRange v.index).1
  | [], v, s, _, h => by
    obtain ⟨rfl, rfl⟩ := Prod.mk.inj (Option.some.inj h)
    rfl
  | sib :: siblings, v, s, hall, h => by
    rw [seekClimb] at h
    by_cases hsib : sib.index = Flat.sibling v.index
    · rw [if_neg (not_not.mpr hsib)] at h
      have hrest := seekClimb_sum (fun u hu => hall u (List.mem_cons_of_mem _ hu)) h
      have hstarts := Flat.blockRange_children v.index
      rw [index_pairUp] at hrest
      rw [hsib] at hrest
      split_ifs at hrest hstarts with hleft
      · -- the sibling is what lies between the parent's start and the node's
        have hsize := bytesBefore_nodeOf hs B (Flat.sibling v.index)
        have hsib' := hall sib List.mem_cons_self
        rw [hsib] at hsib'
        rw [← hsib', hstarts.2, ← hstarts.1] at hsize
        omega
      · rw [hrest, hstarts]
    · rw [if_pos hsib] at h
      cases h

theorem scanRoots_eq (idx : ℕ) : ∀ (roots : List (Node H)) (sum : ℕ) (found : Bool),
    scanRoots idx roots sum found =
      (sum + ((roots.filter (·.index < idx)).map (·.size)).sum,
        found || roots.any (·.index = idx))
  | [], sum, found => by simp [scanRoots]
  | r :: roots, sum, found => by
    rw [scanRoots]
    split_ifs with heq hlt
    · simp [scanRoots_eq idx roots, heq]
    · simp [scanRoots_eq idx roots, heq, hlt, Nat.add_assoc]
    · simp [scanRoots_eq idx roots, heq, hlt]

/-- Putting a node in its place changes nothing to the left of it. -/
theorem filter_substitute {idx : ℕ} {v : Node H} (hv : v.index = idx) :
    ∀ {roots roots' : List (Node H)}, substitute idx v roots = some roots' →
    roots'.filter (·.index < idx) = roots.filter (·.index < idx)
  | [], _, h => by cases h
  | r :: roots, roots', h => by
    rw [substitute] at h
    split_ifs at h with hr
    · obtain rfl := Option.some.inj h
      rw [List.filter_cons_of_neg (by simp [hv]), List.filter_cons_of_neg (by simp [hr])]
    · obtain ⟨rest, hrest, rfl⟩ := Option.map_eq_some_iff.mp h
      rw [List.filter_cons, List.filter_cons, filter_substitute hv hrest]

/-- The roots to the left of a root cover the bytes before it. -/
theorem sum_rootsBefore (hs : Hasher H) (B : List Block) {i : ℕ} : ∀ {roots : List ℕ} {off n : ℕ},
    Flat.Tiles off (roots.map Flat.blockRange) n → i ∈ roots →
    bytesBefore B off + ((roots.filter (· < i)).map fun j => (nodeOf hs B j).size).sum =
      bytesBefore B (Flat.blockRange i).1
  | j :: roots, _, _, ⟨rfl, _, hrest⟩, hi => by
    have hlater : ∀ i ∈ roots, j < i := by
      intro i hi
      have hstart := hrest.le_of_mem (List.mem_map_of_mem hi)
      have := Flat.succ_eq_blockRange i
      have := Flat.succ_eq_blockRange j
      have := Flat.blockRange_lt i
      have := Flat.blockRange_lt j
      omega
    rcases List.mem_cons.mp hi with rfl | hi
    · have hnone : roots.filter (· < i) = [] := by
        rw [List.filter_eq_nil_iff]
        intro j hj
        simpa using (hlater j hj).le
      rw [List.filter_cons_of_neg (by simp), hnone]
      rfl
    · rw [List.filter_cons_of_pos (by simpa using hlater i hi), List.map_cons, List.sum_cons,
        ← Nat.add_assoc, bytesBefore_nodeOf, sum_rootsBefore hs B hrest hi]

theorem scanRoots_rootsOf (hs : Hasher H) {i : ℕ} (hi : i ∈ Flat.fullRoots (B.length * 2)) :
    scanRoots i (rootsOf hs B) 0 false = (bytesBefore B (Flat.blockRange i).1, true) := by
  have hsum := sum_rootsBefore hs B (Flat.fullRoots_tiles B.length) hi
  rw [bytesBefore_zero, Nat.zero_add] at hsum
  have hany : (rootsOf hs B).any (·.index = i) = true := by
    rw [List.any_eq_true]
    exact ⟨nodeOf hs B i, List.mem_map_of_mem hi, by simp⟩
  rw [scanRoots_eq, hany, ← hsum, rootsOf, List.filter_map, List.map_map, Nat.zero_add]
  simp [Function.comp_def]

/-! ### The proofs -/

/-- The siblings of a tree's own proofs are nodes of the tree. -/
theorem Built.mem_pathLoop (h : Built hs B T) {roots : ExtTreeSet ℕ} :
    ∀ {fuel cur : ℕ} {siblings : List (Node H)},
    MerkleTree.pathLoop T.nodes roots fuel cur = some siblings →
    ∀ s ∈ siblings, s = nodeOf hs B s.index
  | 0, cur, siblings, hpath => by
    rw [MerkleTree.pathLoop] at hpath
    split_ifs at hpath
    obtain rfl := Option.some.inj hpath
    exact fun s hmem => absurd hmem List.not_mem_nil
  | fuel + 1, cur, siblings, hpath => by
    rw [MerkleTree.pathLoop] at hpath
    split_ifs at hpath
    · obtain rfl := Option.some.inj hpath
      exact fun s hmem => absurd hmem List.not_mem_nil
    · simp only [Option.bind_eq_bind, Option.bind_eq_some_iff, Option.pure_def,
        Option.some.injEq] at hpath
      obtain ⟨sib, hsib, rest, hrest, rfl⟩ := hpath
      intro s hmem
      rcases List.mem_cons.mp hmem with rfl | hmem
      · obtain ⟨d, o, hi⟩ := Flat.exists_index (Flat.sibling cur)
        rw [hi, h.nodes] at hsib
        split_ifs at hsib
        rw [← Option.some.inj hsib, index_nodeAt, nodeOf_index]
      · exact h.mem_pathLoop hrest s hmem

variable [DecidableEq H]

variable {p : SeekProof H}

/-- What an accepted seek proof went through. -/
theorem SeekProof.verify_iff {root : H} {b off : ℕ} :
    p.verify hs root = some (b, off) ↔ p.leaf.index % 2 = 0 ∧
      ∃ node leftSum, seekClimb hs p.leaf 0 p.siblings = some (node, leftSum) ∧
        ∃ rootLeftSum, scanRoots node.index p.roots 0 false = (rootLeftSum, true) ∧
          ∃ roots, substitute node.index node p.roots = some roots ∧ hs.treeHash roots = root ∧
            rootLeftSum + leftSum ≤ p.bytes ∧ p.bytes < rootLeftSum + leftSum + p.leaf.size ∧
            p.leaf.index / 2 = b ∧ p.bytes - (rootLeftSum + leftSum) = off := by
  rw [SeekProof.verify]
  by_cases heven : p.leaf.index % 2 = 0
  · rw [if_neg (not_not.mpr heven)]
    cases hclimb : seekClimb hs p.leaf 0 p.siblings with
    | none => simp
    | some r =>
      obtain ⟨node, leftSum⟩ := r
      cases hscan : scanRoots node.index p.roots 0 false with
      | mk rootLeftSum found =>
      cases hsub : substitute node.index node p.roots with
      | none => cases found <;> simp [hsub]
      | some roots =>
        cases found with
        | false => simp [hscan]
        | true =>
          simp only [hscan, Bool.not_true, Bool.false_eq_true, if_false, hsub]
          constructor
          · intro h
            split_ifs at h with hhash hlo hhi
            obtain ⟨hb, hoff⟩ := Prod.mk.inj (Option.some.inj h)
            exact ⟨heven, node, leftSum, rfl, rootLeftSum, hscan, roots, hsub, not_not.mp hhash,
              by omega, by omega, hb, hoff⟩
          · rintro ⟨-, node', leftSum', hc, rootLeftSum', hscan', roots', hsub', hhash, hlo, hhi, hb, hoff⟩
            obtain ⟨rfl, rfl⟩ := Prod.mk.inj (Option.some.inj hc)
            obtain ⟨rfl, -⟩ := Prod.mk.inj (hscan.symm.trans hscan')
            obtain rfl := Option.some.inj (hsub.symm.trans hsub')
            rw [if_neg (not_not.mpr hhash), if_neg (by omega), if_neg (by omega), hb, hoff]
  · simp [heven]

/-- An accepted proof says where the scan finds the offset. -/
theorem SeekProof.verify_sound (ideal : hs.Ideal) {r : ℕ × ℕ}
    (h : p.verify hs (hs.treeHash (rootsOf hs B)) = some r) : scan B p.bytes = r := by
  obtain ⟨b, off⟩ := r
  obtain ⟨heven, node, leftSum, hclimb, rootLeftSum, hscan, roots, hsub, hhash, hlo, hhi, rfl, rfl⟩ :=
    SeekProof.verify_iff.mp h
  obtain ⟨rfl, hroot, hin, hleaf, hsibs⟩ :=
    climb_accepted ideal (climb_of_seekClimb hclimb) hsub hhash
  have hindex : p.leaf.index = Flat.index 0 (p.leaf.index / 2) := by
    rw [Flat.index_zero]
    omega
  have hrange : Flat.blockRange p.leaf.index = (p.leaf.index / 2, p.leaf.index / 2 + 1) := by
    rw [hindex, Flat.blockRange_index, ← hindex, pow_zero, Nat.mul_one, Nat.mul_one]
  have hsum : rootLeftSum = bytesBefore B (Flat.blockRange node.index).1 := by
    have hgenuine := scanRoots_rootsOf hs hroot
    rw [scanRoots_eq] at hscan hgenuine
    rw [filter_substitute rfl hsub] at hgenuine
    rw [← (Prod.mk.inj hscan).1, (Prod.mk.inj hgenuine).1]
  have hbefore := seekClimb_sum hsibs hclimb
  have hsize := bytesBefore_nodeOf hs B p.leaf.index
  rw [← hleaf, hrange] at hsize
  rw [hrange] at hin hbefore
  dsimp only at hin hbefore hsize
  have hcumulative : rootLeftSum + leftSum = bytesBefore B (p.leaf.index / 2) := by omega
  rw [hcumulative] at hlo hhi ⊢
  exact scan_eq_of_bracket (by omega) hlo (by omega)

/-- The tree proves every offset it holds. -/
theorem Built.seekProof (h : Built hs B T) {o : ℕ} (ho : o < byteSize B) :
    ∃ p, T.seekProof o = some p ∧ p.bytes = o ∧
      p.verify hs (hs.treeHash (rootsOf hs B)) = some (scan B o) := by
  obtain ⟨b, hb, hlo, hhi⟩ := exists_bracket ho
  have hscan := scan_eq_of_bracket hb hlo hhi
  obtain ⟨siblings, hpath, r, hr, hclimb⟩ :=
    h.pathLoop T.length (d := 0) (o := b) (by omega) (by rw [h.length_eq]; omega)
  rw [Flat.index_zero] at hpath
  have hleaf : T.nodes[b * 2]? = some (nodeAt hs B 0 b) := by
    rw [← Flat.index_zero, h.nodes, if_pos (by omega)]
  have hrange : Flat.blockRange (nodeAt hs B 0 b).index = (b, b + 1) := by
    rw [index_nodeAt, Flat.blockRange_index, pow_zero, Nat.mul_one, Nat.mul_one]
  obtain ⟨leftSum, hseek⟩ := seekClimb_of_climb 0 hclimb
  refine ⟨⟨o, nodeAt hs B 0 b, siblings, rootsOf hs B⟩, ?_, rfl, ?_⟩
  · rw [MerkleTree.seekProof, h.seek, hscan]
    simp only [Option.bind_eq_bind, Option.bind_some]
    rw [if_neg (by rw [h.length_eq]; omega), h.roots]
    simp only [Option.bind_some, hpath, hleaf]
    rfl
  · have hbefore := seekClimb_sum (h.mem_pathLoop hpath) hseek
    have hsize := bytesBefore_nodeAt hs B 0 b
    have hindex : (nodeAt hs B 0 b).index = b * 2 := by rw [index_nodeAt, Flat.index_zero]
    rw [hrange, index_nodeOf] at hbefore
    rw [pow_zero, Nat.mul_one, Nat.mul_one] at hsize
    dsimp only at hbefore
    rw [hscan]
    refine SeekProof.verify_iff.mpr ⟨?_, nodeOf hs B r, leftSum, hseek,
      bytesBefore B (Flat.blockRange r).1, ?_, rootsOf hs B, ?_, rfl, ?_, ?_, ?_, ?_⟩
    · show (nodeAt hs B 0 b).index % 2 = 0
      omega
    · rw [index_nodeOf, scanRoots_rootsOf hs hr]
    · rw [index_nodeOf, substitute_rootsOf hr]
    · show bytesBefore B (Flat.blockRange r).1 + leftSum ≤ o
      omega
    · show o < bytesBefore B (Flat.blockRange r).1 + leftSum + (nodeAt hs B 0 b).size
      omega
    · show (nodeAt hs B 0 b).index / 2 = b
      omega
    · show o - (bytesBefore B (Flat.blockRange r).1 + leftSum) = o - bytesBefore B b
      omega

/-- **Seeking is exact.** `seek` finds what the scan over the blocks finds, and past the end
the number of blocks with what is left. Every offset within the tree has a proof that verifies
to what `seek` finds, and where the hash is collision free every proof that verifies against
the root hash, whoever made it, says what `seek` finds for its offset. -/
theorem seek_exact (hs : Hasher H) (B : List Block) :
    let T := MerkleTree.ofBlocks hs B
    ∃ root, T.rootHash hs = some root ∧
      (∀ o, T.seek o = some (scan B o)) ∧
      (∀ o, byteSize B ≤ o → T.seek o = some (B.length, o - byteSize B)) ∧
      (∀ o < byteSize B, ∃ p, T.seekProof o = some p ∧ p.bytes = o ∧
        p.verify hs root = T.seek o) ∧
      (hs.Ideal → ∀ (p : SeekProof H) (r : ℕ × ℕ), p.verify hs root = some r →
        T.seek p.bytes = some r) := by
  intro T
  have hT : Built hs B T := built_ofBlocks hs B
  refine ⟨hs.treeHash (rootsOf hs B), hT.rootHash, hT.seek, fun o ho => ?_, fun o ho => ?_,
    fun ideal p r hv => ?_⟩
  · rw [hT.seek, scan_past ho]
  · obtain ⟨p, hp, hbytes, hv⟩ := hT.seekProof ho
    exact ⟨p, hp, hbytes, by rw [hv, hT.seek]⟩
  · rw [hT.seek, SeekProof.verify_sound ideal hv]

/-- Byte 1 of `[7]`, an empty block and `[8, 9]` is the first of the last block. -/
theorem seek_exact_empty_between :
    (MerkleTree.ofBlocks Hasher.numbering [[7], [], [8, 9]]).seek 1 = some (2, 0) ∧
    ∃ root p, (MerkleTree.ofBlocks Hasher.numbering [[7], [], [8, 9]]).rootHash Hasher.numbering =
        some root ∧
      (MerkleTree.ofBlocks Hasher.numbering [[7], [], [8, 9]]).seekProof 1 = some p ∧
      p.verify Hasher.numbering root = some (2, 0) ∧
      ∀ q : SeekProof ℕ, q.bytes = 1 → q.verify Hasher.numbering root ≠ some (1, 0) := by
  obtain ⟨root, hroot, hseek, -, hproof, hsound⟩ :=
    seek_exact Hasher.numbering [[7], [], [8, 9]]
  have hone : (MerkleTree.ofBlocks Hasher.numbering [[7], [], [8, 9]]).seek 1 = some (2, 0) := hseek 1
  obtain ⟨p, hp, -, hv⟩ := hproof 1 (by decide)
  refine ⟨hone, root, p, hroot, hp, hv.trans hone, fun q hq hbad => ?_⟩
  have := hsound Hasher.numbering_ideal q _ hbad
  rw [hq, hone] at this
  exact absurd this (by decide)

end Merkle
end HypercoreRs
