/-
# Recovering lost nodes

A tree that has lost nodes is in repair mode: it reports which nodes its length implies
and it lacks (`missingNodes`), and refuses to be extended. A peer with the whole tree
proves a single node, at any depth, by the siblings above it and the roots; whatever
proof the root hash accepts is of the true node, since a climb that arrives at a true
root has met true nodes only (`climb_pins`). So a tree in repair only ever gains nodes
it once had, in whatever order and between whatever forged proofs, and the proofs of the
missing ones make it whole (`recovery`).
-/
import HypercoreRs.Merkle.Inclusion
import HypercoreRs.Merkle.Reorg

open Std

namespace HypercoreRs
namespace Merkle

variable {H : Type} (hs : Hasher H)

/-- A mutation was refused: the tree is in repair mode. -/
inductive InRepairMode where
  | inRepairMode
deriving DecidableEq

/-- A proof of a single node of the tree, leaf or interior: the node, the siblings from
it up to its containing root, and every root. -/
structure NodeProof (H : Type) where
  node : Node H
  siblings : List (Node H)
  roots : List (Node H)

/-- Verify against the trusted root hash: the node, if it is authentic. -/
def NodeProof.verify [DecidableEq H] (p : NodeProof H) (expectedRoot : H) : Option (Node H) :=
  match climb hs p.node p.siblings with
  | none => none
  | some node =>
    match substitute node.index node p.roots with
    | none => none
    | some roots => if hs.treeHash roots ≠ expectedRoot then none else some p.node

namespace MerkleTree

/-- The indices of the nodes that the length implies and that are missing. -/
def missingNodes (T : MerkleTree H) : List ℕ :=
  if T.length = 0 then []
  else (List.range (2 * T.length)).filter fun i =>
    (Flat.blockRange i).2 ≤ T.length && !T.nodes.contains i

def isIntact (T : MerkleTree H) : Bool := T.missingNodes.isEmpty

/-- The root nodes, or `none` if one is missing. -/
def tryRoots (T : MerkleTree H) : Option (List (Node H)) :=
  if T.length = 0 then some [] else (Flat.fullRoots (T.length * 2)).mapM (T.nodes[·]?)

/-- Append a block, unless the tree is in repair mode. -/
def tryAppend (T : MerkleTree H) (data : Block) : MerkleTree H × Except InRepairMode ℕ :=
  if !T.isIntact then (T, .error .inRepairMode)
  else
    let (T', block) := T.append hs data
    (T', .ok block)

/-- A proof of the node at `index`, or `none` if it is not a complete subtree or something on
its path is missing. -/
def nodeProof (T : MerkleTree H) (index : ℕ) : Option (NodeProof H) :=
  if T.length = 0 ∨ (Flat.blockRange index).2 > T.length then none
  else do
    let node ← T.nodes[index]?
    let roots ← T.tryRoots
    let siblings ← pathLoop T.nodes (rootSet roots) T.length index
    return { node, siblings, roots }

variable [DecidableEq H]

/-- Store a proven node; a proof that does not verify changes nothing. -/
def recoverNode (T : MerkleTree H) (proof : NodeProof H) (expectedRoot : H) : MerkleTree H × Bool :=
  match proof.verify hs expectedRoot with
  | some node => ({ T with nodes := T.nodes.insert node.index node }, true)
  | none => (T, false)

/-- Offer a sequence of proofs. -/
def recoverNodes (T : MerkleTree H) (proofs : List (NodeProof H)) (expectedRoot : H) :
    MerkleTree H :=
  proofs.foldl (fun T proof => (T.recoverNode hs proof expectedRoot).1) T

end MerkleTree

variable {hs} {B : List Block} {T D : MerkleTree H}

/-! ### What is missing -/

variable {i : ℕ}

theorem mem_missingNodes : i ∈ T.missingNodes ↔
    (Flat.blockRange i).2 ≤ T.length ∧ i ∉ T.nodes := by
  rw [MerkleTree.missingNodes]
  split_ifs with h0
  · have hpos : 0 < (Flat.blockRange i).2 := by
      obtain ⟨d, o, rfl⟩ := Flat.exists_index i
      rw [Flat.blockRange_index]
      positivity
    simp only [List.not_mem_nil, false_iff, not_and]
    omega
  · simp only [List.mem_filter, List.mem_range, Bool.and_eq_true, decide_eq_true_eq,
      Bool.not_eq_true', ← Bool.not_eq_true, ExtTreeMap.contains_iff_mem]
    exact ⟨fun h => h.2, fun h => ⟨Flat.index_lt_of_blockRange_le h.1, h⟩⟩

theorem isIntact_iff : T.isIntact = true ↔ ∀ i, (Flat.blockRange i).2 ≤ T.length → i ∈ T.nodes := by
  rw [MerkleTree.isIntact, List.isEmpty_iff, List.eq_nil_iff_forall_not_mem]
  simp only [mem_missingNodes, not_and, not_not]

/-- A tree that lacks nothing is whole. -/
theorem Held.built (h : Held hs B T) (hall : ∀ i, (Flat.blockRange i).2 ≤ B.length → i ∈ T.nodes) :
    Built hs B T where
  length_eq := h.length_eq
  nodes d o := by
    have hrange := Flat.blockRange_index d o
    split_ifs with hin
    · obtain ⟨v, hv⟩ := Option.isSome_iff_exists.mp (ExtTreeMap.mem_iff_isSome_getElem?.mp
        (hall (Flat.index d o) (by rw [hrange]; exact hin)))
      rw [hv, (h.nodes _ v hv).2, nodeOf_index]
    · cases hv : T.nodes[Flat.index d o]? with
      | none => rfl
      | some v =>
        have := (h.nodes _ v hv).1
        rw [hrange] at this
        exact absurd this hin

theorem Held.isIntact_iff (h : Held hs B D) (hT : Built hs B T) : D.isIntact = true ↔ D = T := by
  rw [Merkle.isIntact_iff, h.length_eq]
  refine ⟨fun hall => (h.built hall).unique hT, fun heq i hi => ?_⟩
  rw [heq, ExtTreeMap.mem_iff_isSome_getElem?, hT.getElem?, if_pos hi]
  rfl

/-! ### Proofs of nodes -/

variable [DecidableEq H]

variable {p : NodeProof H} {root : H} {v : Node H}

theorem NodeProof.verify_eq_some :
    p.verify hs root = some v ↔ v = p.node ∧ ∃ node, climb hs p.node p.siblings = some node ∧
      ∃ roots, substitute node.index node p.roots = some roots ∧ hs.treeHash roots = root := by
  rw [NodeProof.verify]
  cases hc : climb hs p.node p.siblings with
  | none => simp
  | some node =>
    cases hsub : substitute node.index node p.roots with
    | none => simp [hsub]
    | some roots =>
      by_cases hroot : hs.treeHash roots = root
      · simp [hsub, hroot, eq_comm]
      · simp [hsub, hroot]

/-- An accepted proof is of a node of the tree. -/
theorem NodeProof.verify_sound (ideal : hs.Ideal) (h : p.verify hs (hs.treeHash (rootsOf hs B)) = some v) :
    (Flat.blockRange v.index).2 ≤ B.length ∧ v = nodeOf hs B v.index := by
  obtain ⟨rfl, node, hclimb, roots, hsub, hhash⟩ := NodeProof.verify_eq_some.mp h
  obtain ⟨-, -, hin, hv, -⟩ := climb_accepted ideal hclimb hsub hhash
  exact ⟨hin, hv⟩

/-- The whole tree proves each of its nodes. -/
theorem Built.nodeProof (h : Built hs B T) (hi : (Flat.blockRange i).2 ≤ B.length) :
    ∃ p, T.nodeProof i = some p ∧
      p.verify hs (hs.treeHash (rootsOf hs B)) = some (nodeOf hs B i) := by
  obtain ⟨d, o, rfl⟩ := Flat.exists_index i
  have hin : (o + 1) * 2 ^ d ≤ B.length := by rwa [Flat.blockRange_index] at hi
  have hpos : 0 < (o + 1) * 2 ^ d := by positivity
  obtain ⟨siblings, hpath, r, hr, hclimb⟩ := h.pathLoop T.length hin
    (by rw [h.length_eq]; exact Nat.le_add_right _ _)
  have hnode : T.nodes[Flat.index d o]? = some (nodeOf hs B (Flat.index d o)) := by
    rw [h.nodes, if_pos hin, nodeOf_index]
  have hroots : T.tryRoots = some (rootsOf hs B) := h.roots
  refine ⟨⟨nodeOf hs B (Flat.index d o), siblings, rootsOf hs B⟩, ?_, ?_⟩
  · rw [MerkleTree.nodeProof, if_neg (by rw [h.length_eq]; omega), hroots]
    simp only [Option.bind_eq_bind, Option.bind_some, hpath, hnode]
    rfl
  · refine NodeProof.verify_eq_some.mpr ⟨rfl, nodeOf hs B r, ?_, rootsOf hs B, ?_, rfl⟩
    · rw [← hclimb, nodeOf_index]
    · rw [index_nodeOf, substitute_rootsOf hr]

/-! ### Recovery -/

/-- A recovered node is one the tree once had. -/
theorem Held.recoverNode (ideal : hs.Ideal) (h : Held hs B D) (p : NodeProof H) :
    Held hs B (D.recoverNode hs p (hs.treeHash (rootsOf hs B))).1 := by
  rw [MerkleTree.recoverNode]
  cases hv : p.verify hs (hs.treeHash (rootsOf hs B)) with
  | none => exact h
  | some node =>
    obtain ⟨hin, hnode⟩ := NodeProof.verify_sound ideal hv
    refine ⟨h.length_eq, fun i v hget => ?_⟩
    rw [Graph.getElem?_insert] at hget
    split_ifs at hget with hi
    · rw [← Option.some.inj hget, hi]
      exact ⟨hin, hnode⟩
    · exact h.nodes i v hget

omit [DecidableEq H] in
theorem mem_insert_nodes {nodes : ExtTreeMap ℕ (Node H)} {i j : ℕ} (h : i ∈ nodes) :
    i ∈ nodes.insert j v := Graph.mem_insert.mpr (Or.inr h)

/-- No node is lost. -/
theorem mem_recoverNode (h : i ∈ D.nodes) : i ∈ (D.recoverNode hs p root).1.nodes := by
  rw [MerkleTree.recoverNode]
  cases p.verify hs root with
  | none => exact h
  | some node => exact mem_insert_nodes h

theorem recoverNodes_cons (p : NodeProof H) (ps : List (NodeProof H)) (root : H) :
    D.recoverNodes hs (p :: ps) root = (D.recoverNode hs p root).1.recoverNodes hs ps root := rfl

theorem Held.recoverNodes (ideal : hs.Ideal) : ∀ (ps : List (NodeProof H)) {D : MerkleTree H},
    Held hs B D → Held hs B (D.recoverNodes hs ps (hs.treeHash (rootsOf hs B)))
  | [], _, h => h
  | p :: ps, _, h => by
    rw [recoverNodes_cons]
    exact Held.recoverNodes ideal ps (h.recoverNode ideal p)

/-- What is there stays, and what an accepted proof of the sequence is of is there at the end. -/
theorem mem_recoverNodes : ∀ (ps : List (NodeProof H)) {D : MerkleTree H},
    (i ∈ D.nodes ∨ ∃ p ∈ ps, ∃ v, p.verify hs root = some v ∧ v.index = i) →
    i ∈ (D.recoverNodes hs ps root).nodes
  | [], _, h => h.resolve_right (by simp)
  | p :: ps, D, h => by
    rw [recoverNodes_cons]
    refine mem_recoverNodes ps ?_
    obtain h | ⟨q, hq, v, hv, hi⟩ := h
    · exact Or.inl (mem_recoverNode h)
    · obtain rfl | hq := List.mem_cons.mp hq
      · left
        rw [MerkleTree.recoverNode, hv]
        exact Graph.mem_insert.mpr (Or.inl hi.symm)
      · exact Or.inr ⟨q, hq, v, hv, hi⟩

/-- A refused proof leaves the tree unchanged. -/
theorem recoverNode_refused (h : (D.recoverNode hs p root).2 = false) : (D.recoverNode hs p root).1 = D := by
  rw [MerkleTree.recoverNode] at h ⊢
  cases hv : p.verify hs root with
  | none => rfl
  | some node =>
    rw [hv] at h
    cases h

omit [DecidableEq H] in
theorem tryAppend_ok_iff (data : Block) :
    (∃ block, (D.tryAppend hs data).2 = .ok block) ↔ D.isIntact = true := by
  rw [MerkleTree.tryAppend]
  cases D.isIntact with
  | true => exact ⟨fun _ => rfl, fun _ => ⟨_, rfl⟩⟩
  | false => simp

/-- **Recovery is sound, complete and atomic.** Whatever nodes of the tree of `B` are lost and
whatever proofs are then offered, the copy holds nodes of the tree only, a refused proof changes
nothing, and once the whole tree's proofs of the missing nodes were among those offered the copy
is the tree. It can be appended to if and only if it is whole. -/
theorem recovery (ideal : hs.Ideal) (B : List Block) (is : List ℕ) :
    let T := MerkleTree.ofBlocks hs B
    let D := T.removeNodes is
    ∃ root, T.rootHash hs = some root ∧ (∀ i ∈ D.missingNodes, ∃ p, T.nodeProof i = some p) ∧
      ∀ ps : List (NodeProof H),
        let D' := D.recoverNodes hs ps root
        D'.length = T.length ∧ (∀ (i : ℕ) v, D'.nodes[i]? = some v → T.nodes[i]? = some v) ∧
        (∀ p, (D'.recoverNode hs p root).2 = false → (D'.recoverNode hs p root).1 = D') ∧
        ((∀ i ∈ D.missingNodes, ∃ p ∈ ps, T.nodeProof i = some p) → D' = T) ∧
        ∀ data, ((∃ block, (D'.tryAppend hs data).2 = .ok block) ↔ D'.isIntact = true) ∧
          (D'.isIntact = true ↔ D' = T) := by
  intro T D
  have hT : Built hs B T := built_ofBlocks hs B
  have hD : Held hs B D := hT.held.removeNodes is
  have hmissing : ∀ i ∈ D.missingNodes, (Flat.blockRange i).2 ≤ B.length := fun i hi => by
    have := (mem_missingNodes.mp hi).1
    rwa [hD.length_eq] at this
  refine ⟨_, hT.rootHash, fun i hi => ?_, fun ps => ?_⟩
  · obtain ⟨p, hp, -⟩ := hT.nodeProof (hmissing i hi)
    exact ⟨p, hp⟩
  · intro D'
    have hD' : Held hs B D' := hD.recoverNodes ideal ps
    refine ⟨hD'.length_eq.trans hT.length_eq.symm, fun i v hv => ?_, fun p => recoverNode_refused,
      fun hoffered => ?_, fun data => ⟨tryAppend_ok_iff data, hD'.isIntact_iff hT⟩⟩
    · obtain ⟨hi, rfl⟩ := hD'.nodes i v hv
      rw [hT.getElem?, if_pos hi]
    · refine (hD'.built fun i hi => mem_recoverNodes ps ?_).unique hT
      by_cases hin : i ∈ D.nodes
      · exact Or.inl hin
      · obtain ⟨p, hp, hproof⟩ := hoffered i (mem_missingNodes.mpr ⟨by rwa [hD.length_eq], hin⟩)
        obtain ⟨p', hp', hv⟩ := hT.nodeProof hi
        obtain rfl := Option.some.inj (hproof.symm.trans hp')
        exact Or.inr ⟨p, hp, _, hv, index_nodeOf hs B i⟩

/-- Three blocks, of which the parent of the first two and a leaf are lost. -/
theorem recovery_three : ∃ root p q,
    let T := MerkleTree.ofBlocks Hasher.numbering [[1], [2, 3], []]
    T.rootHash Hasher.numbering = some root ∧ T.nodeProof 1 = some p ∧ T.nodeProof 2 = some q ∧
      (T.removeNodes [1, 2]).recoverNodes Hasher.numbering [q, p] root = T := by
  obtain ⟨root, hroot, -, hrecover⟩ :=
    recovery Hasher.numbering_ideal [[1], [2, 3], []] [1, 2]
  have hT := built_ofBlocks Hasher.numbering [[1], [2, 3], []]
  obtain ⟨p, hp, -⟩ := hT.nodeProof (i := 1) (by decide +kernel)
  obtain ⟨q, hq, -⟩ := hT.nodeProof (i := 2) (by decide +kernel)
  refine ⟨root, p, q, hroot, hp, hq, (hrecover [q, p]).2.2.2.1 fun i hi => ?_⟩
  obtain ⟨hrange, hnot⟩ := mem_missingNodes.mp hi
  by_cases h1 : i = 1
  · exact ⟨p, by simp, h1 ▸ hp⟩
  by_cases h2 : i = 2
  · exact ⟨q, by simp, h2 ▸ hq⟩
  -- every other node is still there
  refine absurd (ExtTreeMap.mem_iff_isSome_getElem?.mpr ?_) hnot
  show (((MerkleTree.ofBlocks Hasher.numbering [[1], [2, 3], []]).nodes.erase 1).erase 2)[i]?.isSome
  rw [Graph.getElem?_erase, if_neg h2, Graph.getElem?_erase, if_neg h1, hT.getElem?, if_pos]
  · rfl
  · rwa [(hT.held.removeNodes [1, 2]).length_eq] at hrange

end Merkle
end HypercoreRs
