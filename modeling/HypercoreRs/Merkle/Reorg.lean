/-
# Histories that part: the common ancestor and the reorg

Two trees that share a beginning have the same roots for it, so the length of what they
share is found by comparing the root hashes of prefixes, without a block in hand.
`lowest_common_ancestor` bisects: that is right because agreeing on a prefix is agreeing
on every shorter one (`agree_iff`, `bisect_greatest`). In a tree that has lost nodes the
comparison may fail where the blocks agree, and no longer in one stretch; but it succeeds
only where they do (`Held.agree`), and the search ends on a length at which it succeeded
(`bisect_holds`).

`reorg` keeps the shared prefix and takes over the other tree's nodes. Whatever the
ancestor was, a node that was kept lies within the other tree too, and is overwritten: a
reorg onto a whole tree leaves that tree (`reorg_eq`), from a damaged one as well. So
every tree that appends, truncations and reorgs make holds the nodes of its blocks, and
no other (`Made.represents`).
-/
import HypercoreRs.Merkle.Layout

open Std

namespace HypercoreRs
namespace Merkle

/-! ### Bisection -/

/-- The loop of a bisection for the last `a` between `lo` and `hi` with `p a`. -/
def bisect (p : ℕ → Bool) (lo hi : ℕ) : ℕ :=
  if lo < hi then
    let mid := (lo + hi + 1) / 2
    if p mid then bisect p mid hi else bisect p lo (mid - 1)
  else lo
termination_by hi - lo

/-- It stays between the bounds, and ends where `p` held. -/
theorem bisect_holds {p : ℕ → Bool} {lo hi : ℕ} (hle : lo ≤ hi) (hp : p lo = true) :
    lo ≤ bisect p lo hi ∧ bisect p lo hi ≤ hi ∧ p (bisect p lo hi) = true := by
  induction lo, hi using bisect.induct p with
  | case1 lo hi hlt mid hmid ih =>
    rw [bisect, if_pos hlt, if_pos hmid]
    obtain ⟨h1, h2, h3⟩ := ih (by omega) hmid
    exact ⟨(by omega : lo ≤ mid).trans h1, h2, h3⟩
  | case2 lo hi hlt mid hmid ih =>
    rw [bisect, if_pos hlt, if_neg hmid]
    obtain ⟨h1, h2, h3⟩ := ih (by omega) hp
    exact ⟨h1, h2.trans (by omega : mid - 1 ≤ hi), h3⟩
  | case3 lo hi hlt =>
    rw [bisect, if_neg hlt]
    exact ⟨le_rfl, hle, hp⟩

/-- If `p` holds below wherever it holds, it ends at the last one. -/
theorem bisect_greatest {p : ℕ → Bool} (hmono : ∀ a b, a ≤ b → p b = true → p a = true)
    {lo hi a : ℕ} (ha : a ≤ hi) (hlo : lo ≤ hi) (hp : p a = true) : a ≤ bisect p lo hi := by
  induction lo, hi using bisect.induct p with
  | case1 lo hi hlt mid hmid ih =>
    rw [bisect, if_pos hlt, if_pos hmid]
    exact ih ha (by omega)
  | case2 lo hi hlt mid hmid ih =>
    rw [bisect, if_pos hlt, if_neg hmid]
    refine ih ?_ (by omega)
    by_contra hc
    exact hmid (hmono mid a (by omega) hp)
  | case3 lo hi hlt =>
    rw [bisect, if_neg hlt]
    omega

variable {H : Type} (hs : Hasher H)

namespace MerkleTree

/-- Remove a stored node; returns whether there was one. -/
def removeNode (T : MerkleTree H) (index : ℕ) : MerkleTree H × Bool :=
  ({ T with nodes := T.nodes.erase index }, T.nodes.contains index)

/-- The tree without the nodes of a list of indices. -/
def removeNodes (T : MerkleTree H) (is : List ℕ) : MerkleTree H :=
  is.foldl (fun T i => (T.removeNode i).1) T

variable [DecidableEq H]

/-- Do the two trees have the same root hash for their first `a` blocks? A missing node is
read as a no. -/
def agree (T other : MerkleTree H) (a : ℕ) : Bool :=
  a = 0 ||
    match T.prefixRootHash hs a, other.prefixRootHash hs a with
    | some x, some y => x = y
    | _, _ => false

/-- The length of the longest prefix of blocks on which the two trees agree. -/
def lowestCommonAncestor (T other : MerkleTree H) : ℕ :=
  bisect (T.agree hs other) 0 (min T.length other.length)

/-- Follow `other`: keep the common prefix and take over its nodes; returns the length that
was kept. -/
def reorg (T other : MerkleTree H) : MerkleTree H × ℕ :=
  let ancestors := T.lowestCommonAncestor hs other
  let kept := (T.truncate ancestors).1
  ({ nodes := other.nodes.toList.foldl (fun nodes p => nodes.insert p.1 p.2) kept.nodes
     length := other.length }, ancestors)

end MerkleTree

/-! ### Trees that have lost nodes -/

/-- Every stored node is the node of a range within `B`. -/
structure Held (B : List Block) (T : MerkleTree H) : Prop where
  length_eq : T.length = B.length
  nodes : ∀ i v, T.nodes[i]? = some v → (Flat.blockRange i).2 ≤ B.length ∧ v = nodeOf hs B i

variable {hs} {A B : List Block} {T S : MerkleTree H}

theorem Built.getElem? (h : Built hs B T) (i : ℕ) : T.nodes[i]? =
    if (Flat.blockRange i).2 ≤ B.length then some (nodeOf hs B i) else none := by
  obtain ⟨d, o, rfl⟩ := Flat.exists_index i
  rw [h.nodes, Flat.blockRange_index, nodeOf_index]

theorem Built.held (h : Built hs B T) : Held hs B T where
  length_eq := h.length_eq
  nodes i v hv := by
    rw [h.getElem?] at hv
    split_ifs at hv with hi
    exact ⟨hi, (Option.some.inj hv).symm⟩

/-- The blocks determine the tree. -/
theorem Built.unique (h : Built hs B T) (h' : Built hs B S) : T = S := by
  obtain ⟨nodes, length⟩ := T
  obtain ⟨nodes', length'⟩ := S
  obtain rfl : nodes = nodes' := by
    apply ExtTreeMap.ext_getElem?
    intro i
    exact (h.getElem? i).trans (h'.getElem? i).symm
  obtain rfl : length = length' := h.length_eq.trans h'.length_eq.symm
  rfl

theorem Held.removeNodes : ∀ (is : List ℕ) {T : MerkleTree H}, Held hs B T →
    Held hs B (T.removeNodes is)
  | [], _, h => h
  | i :: is, T, h => by
    refine Held.removeNodes is (T := (T.removeNode i).1) ⟨h.length_eq, fun j v hv => ?_⟩
    rw [MerkleTree.removeNode, Graph.getElem?_erase] at hv
    split_ifs at hv
    exact h.nodes j v hv

/-- What roots a tree still has of a prefix are those of the blocks. -/
theorem Held.prefixRootHash (h : Held hs B T) {n : ℕ} {root : H}
    (hroot : T.prefixRootHash hs n = some root) :
    n ≤ B.length ∧ root = hs.treeHash (rootsOf hs (B.take n)) := by
  rw [MerkleTree.prefixRootHash, MerkleTree.prefixRoots] at hroot
  obtain ⟨roots, hroots, rfl⟩ := Option.map_eq_some_iff.mp hroot
  split_ifs at hroots with hn
  rw [h.length_eq, Nat.not_lt] at hn
  refine ⟨hn, congrArg hs.treeHash ?_⟩
  have hget : ∀ i ∈ Flat.fullRoots (n * 2), T.nodes[i]? = some (nodeOf hs (B.take n) i) := by
    intro i hi
    obtain ⟨v, -, hv⟩ := exists_of_mapM hroots hi
    obtain ⟨d, o, rfl⟩ := Flat.exists_index i
    rw [hv, (h.nodes _ v hv).2, nodeOf_index, nodeOf_index,
      nodeAt_take hs (Flat.mem_fullRoots.mp hi).1]
  rw [mapM_eq_some hget] at hroots
  rw [← Option.some.inj hroots, rootsOf, List.length_take_of_le hn]

/-- A node kept by a truncation ends within it. -/
theorem getElem?_truncate_eq_none (hT : Held hs A T) {n i : ℕ}
    (hi : ¬ (Flat.blockRange i).2 ≤ n) : (T.truncate n).1.nodes[i]? = none := by
  rw [MerkleTree.truncate]
  split_ifs with hge
  · cases hv : T.nodes[i]? with
    | none => rfl
    | some v =>
      have := (hT.nodes i v hv).1
      rw [hT.length_eq] at hge
      exact absurd (this.trans hge) hi
  · show (T.nodes.filter fun i _ => decide ((Flat.blockRange i).2 ≤ n))[i]? = none
    rw [ExtTreeMap.getElem?_filter']
    cases T.nodes[i]? with
    | none => rfl
    | some v => rw [Option.filter_some, if_neg (by simpa using hi)]

theorem Built.truncate_take (h : Built hs B T) (n : ℕ) : Built hs (B.take n) (T.truncate n).1 := by
  by_cases hn : n < B.length
  · exact (h.truncate hn).2
  · rw [MerkleTree.truncate_of_ge (by rw [h.length_eq]; omega), List.take_of_length_le (by omega)]
    exact h

/-- A stored node is a leaf over a block or made of two stored nodes. -/
theorem Built.children (h : Built hs B T) {i : ℕ} {v : Node H} (hv : T.nodes[i]? = some v) :
    match Flat.children i with
    | none => ∃ data, B[i / 2]? = some data ∧ v.hash = hs.leafHash data
    | some (l, r) => ∃ left right, T.nodes[l]? = some left ∧ T.nodes[r]? = some right ∧
        v.hash = hs.parentHash left right := by
  obtain ⟨d, o, rfl⟩ := Flat.exists_index i
  rw [h.nodes] at hv
  split_ifs at hv with hin
  obtain rfl := Option.some.inj hv
  cases d with
  | zero =>
    rw [Flat.children_zero, Flat.index_zero, Nat.mul_div_cancel _ two_pos]
    rw [pow_zero, Nat.mul_one] at hin
    refine ⟨_, List.getElem?_eq_getElem hin, ?_⟩
    rw [nodeAt, List.getD_eq_getElem _ _ hin]
    rfl
  | succ d =>
    rw [Flat.children_index]
    obtain ⟨hleft, hright⟩ := Flat.child_le hin
    exact ⟨_, _, by rw [h.nodes, if_pos hleft], by rw [h.nodes, if_pos hright], rfl⟩

theorem size_nodeOf (B : List Block) (i : ℕ) : (nodeOf hs B i).size =
    byteSize ((B.drop (Flat.blockRange i).1).take
      ((Flat.blockRange i).2 - (Flat.blockRange i).1)) := by
  have hrange := bytesBefore_nodeOf hs B i
  rw [← Nat.add_sub_cancel' (Flat.blockRange_lt i).le, bytesBefore_add] at hrange
  exact Nat.add_left_cancel hrange

variable [DecidableEq H]

/-- Trees agree on a prefix only if the blocks do. -/
theorem Held.agree (ideal : hs.Ideal) (hT : Held hs A T) (hS : Held hs B S) {a : ℕ}
    (h : T.agree hs S a = true) : a ≤ A.length ∧ a ≤ B.length ∧ A.take a = B.take a := by
  rw [MerkleTree.agree, Bool.or_eq_true, decide_eq_true_eq] at h
  obtain rfl | h := h
  · simp
  · split at h
    · rename_i x y hx hy
      obtain ⟨hA, rfl⟩ := hT.prefixRootHash hx
      obtain ⟨hB, rfl⟩ := hS.prefixRootHash hy
      exact ⟨hA, hB, rootsOf_inj ideal (ideal.tree (of_decide_eq_true h))⟩
    · cases h

/-- Whole trees agree on a prefix if and only if the blocks do. -/
theorem agree_iff (ideal : hs.Ideal) (hT : Built hs A T) (hS : Built hs B S) {a : ℕ} :
    T.agree hs S a = true ↔ a ≤ A.length ∧ a ≤ B.length ∧ A.take a = B.take a := by
  refine ⟨hT.held.agree ideal hS.held, fun ⟨hA, hB, heq⟩ => ?_⟩
  rw [MerkleTree.agree, hT.prefixRootHash hA, hS.prefixRootHash hB, heq]
  simp

/-- Trees that lost nodes: the ancestor is a common prefix. -/
theorem Held.lowestCommonAncestor (ideal : hs.Ideal) (hT : Held hs A T) (hS : Held hs B S) :
    T.lowestCommonAncestor hs S ≤ A.length ∧ T.lowestCommonAncestor hs S ≤ B.length ∧
      A.take (T.lowestCommonAncestor hs S) = B.take (T.lowestCommonAncestor hs S) :=
  hT.agree ideal hS (bisect_holds (Nat.zero_le _) (by simp [MerkleTree.agree])).2.2

/-- Whole trees: it is the longest one. -/
theorem lowestCommonAncestor_greatest (ideal : hs.Ideal) (hT : Built hs A T) (hS : Built hs B S) :
    IsGreatest {a | a ≤ A.length ∧ a ≤ B.length ∧ A.take a = B.take a}
      (T.lowestCommonAncestor hs S) := by
  refine ⟨hT.held.lowestCommonAncestor ideal hS.held, ?_⟩
  rintro a ⟨hA, hB, heq⟩
  refine bisect_greatest (fun b c hbc hc => ?_) ?_ (Nat.zero_le _)
    ((agree_iff ideal hT hS).mpr ⟨hA, hB, heq⟩)
  · -- agreement on a prefix is agreement on every shorter one
    obtain ⟨hcA, hcB, hceq⟩ := (agree_iff ideal hT hS).mp hc
    refine (agree_iff ideal hT hS).mpr ⟨by omega, by omega, ?_⟩
    calc A.take b = (A.take c).take b := by rw [List.take_take, min_eq_left hbc]
      _ = (B.take c).take b := by rw [hceq]
      _ = B.take b := by rw [List.take_take, min_eq_left hbc]
  · rw [hT.length_eq, hS.length_eq]
    exact le_min hA hB

/-- A reorg onto a whole tree leaves that tree, also from one that lost nodes. -/
theorem reorg_eq (hT : Held hs A T) (hS : Built hs B S) : (T.reorg hs S).1 = S := by
  obtain ⟨nodes, length⟩ := S
  rw [MerkleTree.reorg]
  have hnodes : ∀ n ≤ min T.length length,
      nodes.toList.foldl (fun acc p => acc.insert p.1 p.2) (T.truncate n).1.nodes = nodes := by
    intro n hn
    apply ExtTreeMap.ext_getElem?
    intro i
    rw [Graph.getElem?_foldl_insert_toList]
    by_cases hi : (Flat.blockRange i).2 ≤ B.length
    · have hget : nodes[i]? = some (nodeOf hs B i) := (hS.getElem? i).trans (if_pos hi)
      rw [hget, Option.some_or]
    · -- outside the other tree nothing was kept
      have hlen : length = B.length := hS.length_eq
      rw [getElem?_truncate_eq_none hT (by omega), Option.or_none]
  have hle := (bisect_holds (p := T.agree hs ⟨nodes, length⟩) (Nat.zero_le (min T.length length))
    (by simp [MerkleTree.agree])).2.1
  exact congrArg (MerkleTree.mk · length) (hnodes _ hle)

/-- **The common ancestor is the longest common prefix**, a common prefix also between trees
that lost nodes, and a reorg from any of them onto a whole tree gives that tree. -/
theorem ancestor_reorg (ideal : hs.Ideal) (A B : List Block) :
    IsGreatest {a | a ≤ A.length ∧ a ≤ B.length ∧ A.take a = B.take a}
      ((MerkleTree.ofBlocks hs A).lowestCommonAncestor hs (MerkleTree.ofBlocks hs B)) ∧
    (∀ is js,
      let a := ((MerkleTree.ofBlocks hs A).removeNodes is).lowestCommonAncestor hs
        ((MerkleTree.ofBlocks hs B).removeNodes js)
      a ≤ A.length ∧ a ≤ B.length ∧ A.take a = B.take a) ∧
    ∀ is, (((MerkleTree.ofBlocks hs A).removeNodes is).reorg hs (MerkleTree.ofBlocks hs B)).1 =
      MerkleTree.ofBlocks hs B := by
  have hA := built_ofBlocks hs A
  have hB := built_ofBlocks hs B
  refine ⟨lowestCommonAncestor_greatest ideal hA hB, fun is js => ?_, fun is => ?_⟩
  · exact (hA.held.removeNodes is).lowestCommonAncestor ideal (hB.held.removeNodes js)
  · exact reorg_eq (hA.held.removeNodes is) hB

/-- Two histories of three blocks that part after the first. -/
theorem ancestor_reorg_parted :
    (MerkleTree.ofBlocks Hasher.numbering [[1], [2], [3]]).lowestCommonAncestor Hasher.numbering
      (MerkleTree.ofBlocks Hasher.numbering [[1], [4], [3]]) = 1 := by
  obtain ⟨⟨-, -, heq⟩, hgreatest⟩ :=
    (ancestor_reorg Hasher.numbering_ideal [[1], [2], [3]] [[1], [4], [3]]).1
  have hone := hgreatest (a := 1) (by simp)
  by_contra hne
  have htwo := congrArg (List.take 2) heq
  rw [List.take_take, List.take_take, min_eq_left (by omega)] at htwo
  exact absurd htwo (by decide)

/-! ### The representation -/

variable (hs) in
/-- The trees that appends, truncations and reorgs onto such trees make, with their blocks. -/
inductive Made : List Block → MerkleTree H → Prop
  | new : Made [] MerkleTree.new
  | append {B : List Block} {T : MerkleTree H} (data : Block) : Made B T →
      Made (B ++ [data]) (T.append hs data).1
  | truncate {B : List Block} {T : MerkleTree H} (newLen : ℕ) : Made B T →
      Made (B.take newLen) (T.truncate newLen).1
  | reorg {A B : List Block} {T other : MerkleTree H} : Made A T → Made B other →
      Made B (T.reorg hs other).1

theorem Made.built (h : Made hs B T) : Built hs B T := by
  induction h with
  | new => exact built_new
  | append data _ ih => exact ih.append data
  | truncate newLen _ ih => exact ih.truncate_take newLen
  | reorg _ _ ihT ihS =>
    rw [reorg_eq ihT.held ihS]
    exact ihS

/-- **What a tree holds.** After any appends, truncations and reorgs the stored nodes are the
complete subtrees of the current blocks, each with its hash and size; a truncation leaves the
tree of the remaining blocks, and the root hash of a prefix is that of the prefix's tree. -/
theorem Made.represents (h : Made hs B T) :
    T.length = B.length ∧ (∀ i, i ∈ T.nodes ↔ (Flat.blockRange i).2 ≤ B.length) ∧
    (∀ i v, T.nodes[i]? = some v → v.index = i ∧
      v.size = byteSize ((B.drop (Flat.blockRange i).1).take
        ((Flat.blockRange i).2 - (Flat.blockRange i).1)) ∧
      match Flat.children i with
      | none => ∃ data, B[i / 2]? = some data ∧ v.hash = hs.leafHash data
      | some (l, r) => ∃ left right, T.nodes[l]? = some left ∧ T.nodes[r]? = some right ∧
          v.hash = hs.parentHash left right) ∧
    (∀ n, (T.truncate n).1 = MerkleTree.ofBlocks hs (B.take n)) ∧
    (∀ n ≤ B.length,
      T.prefixRootHash hs n = (MerkleTree.ofBlocks hs (B.take n)).rootHash hs) ∧
    T.byteLength = some (byteSize B) := by
  have hbuilt := h.built
  refine ⟨hbuilt.length_eq, fun i => ?_, fun i v hv => ⟨?_, ?_, hbuilt.children hv⟩, fun n => ?_,
    fun n hn => ?_, hbuilt.byteLength⟩
  · rw [ExtTreeMap.mem_iff_isSome_getElem?, hbuilt.getElem?]
    split_ifs with hi
    · simp [hi]
    · simp [hi]
  · rw [(hbuilt.held.nodes i v hv).2, index_nodeOf]
  · rw [(hbuilt.held.nodes i v hv).2, size_nodeOf]
  · exact (hbuilt.truncate_take n).unique (built_ofBlocks hs _)
  · rw [hbuilt.prefixRootHash hn, (built_ofBlocks hs (B.take n)).rootHash]

/-- Two blocks, one of them rewound, and the reorg onto another tree. -/
theorem made_represents_reorg :
    ((((MerkleTree.new.append Hasher.numbering [1]).1.append Hasher.numbering [2, 3]).1.truncate
      1).1.reorg Hasher.numbering (MerkleTree.new.append Hasher.numbering [4, 5]).1).1.byteLength =
        some 2 :=
  (Made.represents ((((Made.new.append [1]).append [2, 3]).truncate 1).reorg
    (Made.new.append [4, 5]))).2.2.2.2.2

end Merkle
end HypercoreRs
