/-
# Inclusion proofs

`MerkleTree::proof` climbs from a block's leaf to the root above it and records
the siblings; `Proof::verify` recomputes the leaf from the data, climbs with the
recorded siblings, substitutes what it arrives at into the recorded roots and
compares the tree hash. Everything in a proof may be forged. What makes the
check sound is that the climbed node commits to the data at the block's number
(`climb_commits`: the sibling indices are checked, so the node stays on the
block's path), and that a matching tree hash forces the roots it was put into to
be the true ones.
-/
import HypercoreRs.Merkle.Tree

open Std

namespace HypercoreRs
namespace Merkle

variable {H : Type} (hs : Hasher H)

/-- A self-contained inclusion proof: the sibling nodes from a block's leaf up to
its containing root, plus every root of the tree. -/
structure Proof (H : Type) where
  block : ℕ
  leafSize : ℕ
  siblings : List (Node H)
  roots : List (Node H)

/-- The set of a list of roots' indices. -/
def rootSet (roots : List (Node H)) : ExtTreeSet ℕ := ExtTreeSet.ofList (roots.map (·.index))

/-- The climb of `proof`: the siblings from `cur` up to a root. A missing sibling
is a panic in the source. -/
def MerkleTree.pathLoop (nodes : ExtTreeMap ℕ (Node H)) (roots : ExtTreeSet ℕ) :
    ℕ → ℕ → Option (List (Node H))
  | 0, cur => if roots.contains cur then some [] else none
  | fuel + 1, cur =>
    if roots.contains cur then some []
    else do
      let sib ← nodes[Flat.sibling cur]?
      let siblings ← pathLoop nodes roots fuel (Flat.parent cur)
      return sib :: siblings

/-- An inclusion proof for `block`, or `none` if out of range. -/
def MerkleTree.proof (T : MerkleTree H) (block : ℕ) : Option (Proof H) :=
  if block ≥ T.length then none
  else do
    let roots ← T.roots
    -- a path is no longer than the tree
    let siblings ← pathLoop T.nodes (rootSet roots) T.length (block * 2)
    let leaf ← T.nodes[block * 2]?
    return { block, leafSize := leaf.size, siblings, roots }

/-- The climb of `verify`: each supplied node must be the path node's sibling. -/
def climb : Node H → List (Node H) → Option (Node H)
  | node, [] => some node
  | node, sib :: siblings =>
    if sib.index ≠ Flat.sibling node.index then none
    else climb (pairUp hs node.index node sib.index sib) siblings

/-- Replace the first root with index `idx`; `none` if there is none. -/
def substitute (idx : ℕ) (node : Node H) : List (Node H) → Option (List (Node H))
  | [] => none
  | r :: roots =>
    if r.index = idx then some (node :: roots) else (substitute idx node roots).map (r :: ·)

/-- Verify a proof for `data` against an expected tree hash. -/
def Proof.verify [DecidableEq H] (p : Proof H) (data : Block) (expectedRoot : H) : Bool :=
  if data.length ≠ p.leafSize then false
  else
    match climb hs (leafNode hs p.block data) p.siblings with
    | none => false
    | some node =>
      match substitute node.index node p.roots with
      | none => false
      | some roots => hs.treeHash roots = expectedRoot

variable {i : ℕ}

theorem mem_rootSet {roots : List (Node H)} :
    i ∈ rootSet roots ↔ i ∈ roots.map (·.index) := Graph.mem_ofList

variable {B : List Block}

theorem mem_rootSet_rootsOf : i ∈ rootSet (rootsOf hs B) ↔ i ∈ Flat.fullRoots (B.length * 2) := by
  rw [mem_rootSet, map_index_rootsOf]

variable {hs}

/-! ### Substituting a root -/

variable {v : Node H}

/-- The substituted node is among the roots, and no index changes. -/
theorem substitute_spec : ∀ {roots roots' : List (Node H)},
    substitute v.index v roots = some roots' →
    v ∈ roots' ∧ roots'.map (·.index) = roots.map (·.index)
  | [], _, h => by cases h
  | r :: roots, roots', h => by
    rw [substitute] at h
    split_ifs at h with hr
    · obtain rfl := Option.some.inj h
      exact ⟨List.mem_cons_self, by simp [hr]⟩
    · obtain ⟨rest, hrest, rfl⟩ := Option.map_eq_some_iff.mp h
      obtain ⟨hmem, hmap⟩ := substitute_spec hrest
      exact ⟨List.mem_cons_of_mem _ hmem, by simp [hmap]⟩

/-- A node equal to every root with its index changes nothing. -/
theorem substitute_self : ∀ {roots : List (Node H)}, v ∈ roots →
    (∀ r ∈ roots, r.index = v.index → r = v) → substitute v.index v roots = some roots
  | r :: roots, hmem, hsame => by
    rw [substitute]
    split_ifs with hr
    · rw [hsame r (by simp) hr]
    · have hv : v ∈ roots := (List.mem_cons.mp hmem).resolve_left fun h => hr (by rw [h])
      rw [substitute_self hv fun r hr => hsame r (by simp [hr]), Option.map_some]

theorem substitute_rootsOf (hi : i ∈ Flat.fullRoots (B.length * 2)) :
    substitute i (nodeOf hs B i) (rootsOf hs B) = some (rootsOf hs B) := by
  have h : substitute (nodeOf hs B i).index (nodeOf hs B i) (rootsOf hs B) = some (rootsOf hs B) := by
    apply substitute_self
    · exact List.mem_map.mpr ⟨i, hi, rfl⟩
    · intro r hr hidx
      obtain ⟨j, -, rfl⟩ := List.mem_map.mp hr
      rw [index_nodeOf, index_nodeOf] at hidx
      rw [hidx]
  rwa [index_nodeOf] at h

/-! ### An accepted proof -/

variable {data : Block} {w : Node H}

/-- Climbing stays on the path of the node it starts from, and keeps its
commitments. -/
theorem climb_commits (ideal : hs.Ideal) {b : ℕ} :
    ∀ {siblings : List (Node H)} {v : Node H} {d o : ℕ}, v.index = Flat.index d o →
    o * 2 ^ d ≤ b → b < (o + 1) * 2 ^ d → Commits hs v d o b data →
    climb hs v siblings = some w →
    ∃ d' o', w.index = Flat.index d' o' ∧ b < (o' + 1) * 2 ^ d' ∧ Commits hs w d' o' b data
  | [], v, d, o, hv, _, hhi, hc, h => by
    obtain rfl := Option.some.inj h
    exact ⟨d, o, hv, hhi, hc⟩
  | sib :: siblings, v, d, o, hv, hlo, hhi, hc, h => by
    rw [climb] at h
    split_ifs at h with hsib
    rw [not_not.mp hsib, hv] at h
    have hup : (pairUp hs (Flat.index d o) v (Flat.sibling (Flat.index d o)) sib).index =
        Flat.index (d + 1) (o / 2) := by rw [index_pairUp, Flat.parent_index]
    obtain ⟨hlo', hhi'⟩ := Flat.covers_parent hlo hhi
    exact climb_commits ideal hup hlo' hhi' (hc.pairUp ideal) h

/-- Pairing with the sibling loses nothing. -/
theorem pairUp_inj (ideal : hs.Ideal) {v w v' w' : Node H}
    (h : pairUp hs i v (Flat.sibling i) w = pairUp hs i v' (Flat.sibling i) w') :
    (v.hash = v'.hash ∧ v.size = v'.size) ∧ w.hash = w'.hash ∧ w.size = w'.size := by
  rw [pairUp, pairUp] at h
  split_ifs at h
  · obtain ⟨h1, h2, h3, h4⟩ := ideal.parent (congrArg Node.hash h)
    exact ⟨⟨h3, h4⟩, h1, h2⟩
  · obtain ⟨h1, h2, h3, h4⟩ := ideal.parent (congrArg Node.hash h)
    exact ⟨⟨h1, h2⟩, h3, h4⟩

omit hs in
theorem Node.eq_of {v w : Node H} (hi : v.index = w.index) (h : v.hash = w.hash ∧ v.size = w.size) :
    v = w := by
  obtain ⟨i, x, n⟩ := v
  obtain ⟨i', x', n'⟩ := w
  obtain ⟨rfl, rfl⟩ := h
  obtain rfl : i = i' := hi
  rfl

/-- A climb that arrives at a node of the tree over `B` starts from one, and has met
nothing but such nodes. -/
theorem climb_pins (ideal : hs.Ideal) (hw : w = nodeOf hs B w.index) :
    ∀ {siblings : List (Node H)} {v : Node H}, climb hs v siblings = some w →
    v = nodeOf hs B v.index ∧ ∀ s ∈ siblings, s = nodeOf hs B s.index
  | [], v, h => by
    obtain rfl := Option.some.inj h
    exact ⟨hw, by simp⟩
  | sib :: siblings, v, h => by
    rw [climb] at h
    split_ifs at h with hsib
    have hidx := not_not.mp hsib
    obtain ⟨hup, hrest⟩ := climb_pins ideal hw h
    rw [index_pairUp, hidx, ← pairUp_nodeOf] at hup
    obtain ⟨hv, hs'⟩ := pairUp_inj ideal hup
    have hsibling : sib = nodeOf hs B sib.index :=
      Node.eq_of (index_nodeOf hs B _).symm (hidx ▸ hs')
    refine ⟨Node.eq_of (index_nodeOf hs B _).symm hv, fun s hs => ?_⟩
    obtain rfl | hs := List.mem_cons.mp hs
    · exact hsibling
    · exact hrest s hs

/-- A climb stays above what it starts from. -/
theorem climb_covers : ∀ {siblings : List (Node H)} {v : Node H},
    climb hs v siblings = some w → (Flat.blockRange w.index).1 ≤ (Flat.blockRange v.index).1 ∧
      (Flat.blockRange v.index).2 ≤ (Flat.blockRange w.index).2
  | [], v, h => by
    obtain rfl := Option.some.inj h
    exact ⟨le_rfl, le_rfl⟩
  | sib :: siblings, v, h => by
    rw [climb] at h
    split_ifs at h with hsib
    obtain ⟨h1, h2⟩ := climb_covers h
    obtain ⟨h3, h4⟩ := Flat.blockRange_parent v.index
    rw [index_pairUp] at h1 h2
    exact ⟨h1.trans h3, h4.trans h2⟩

/-- A climb to a node that completes the roots of `B` to their hash has met nothing but nodes
of the tree, all within it. -/
theorem climb_accepted (ideal : hs.Ideal) {v node : Node H} {siblings roots roots' : List (Node H)}
    (hclimb : climb hs v siblings = some node) (hsub : substitute node.index node roots = some roots')
    (hhash : hs.treeHash roots' = hs.treeHash (rootsOf hs B)) :
    roots' = rootsOf hs B ∧ node.index ∈ Flat.fullRoots (B.length * 2) ∧
      (Flat.blockRange v.index).2 ≤ B.length ∧ v = nodeOf hs B v.index ∧
      ∀ s ∈ siblings, s = nodeOf hs B s.index := by
  obtain rfl := ideal.tree hhash
  have hnode := (substitute_spec hsub).1
  obtain ⟨d, o, hidx⟩ := Flat.exists_index node.index
  obtain ⟨hval, hin⟩ := mem_rootsOf hnode hidx
  refine ⟨rfl, ?_, ?_, climb_pins ideal ?_ hclimb⟩
  · obtain ⟨i, hi, rfl⟩ := List.mem_map.mp hnode
    rwa [index_nodeOf]
  · calc (Flat.blockRange v.index).2 ≤ (Flat.blockRange node.index).2 := (climb_covers hclimb).2
      _ = (o + 1) * 2 ^ d := by rw [hidx, Flat.blockRange_index]
      _ ≤ B.length := hin
  · rw [hidx, nodeOf_index]
    exact hval

variable [DecidableEq H]

variable {p : Proof H}

/-- What an accepted proof went through. -/
theorem Proof.verify_iff {root : H} :
    p.verify hs data root = true ↔ data.length = p.leafSize ∧
      ∃ node, climb hs (leafNode hs p.block data) p.siblings = some node ∧
        ∃ roots, substitute node.index node p.roots = some roots ∧ hs.treeHash roots = root := by
  rw [Proof.verify]
  split_ifs with hsize
  · simp [hsize]
  · cases hc : climb hs (leafNode hs p.block data) p.siblings with
    | none => simp
    | some node =>
      cases hsub : substitute node.index node p.roots with
      | none => simp [hsub]
      | some roots => simp [hsub, not_not.mp hsize]

/-- An accepted proof is of the block it names. -/
theorem Proof.verify_sound (ideal : hs.Ideal) (h : p.verify hs data (hs.treeHash (rootsOf hs B)) = true) :
    p.block < B.length ∧ B[p.block]? = some data := by
  obtain ⟨-, node, hclimb, roots, hsub, hhash⟩ := Proof.verify_iff.mp h
  have hleaf : (leafNode hs p.block data).index = Flat.index 0 p.block := (Flat.index_zero _).symm
  obtain ⟨d, o, hidx, hb, hcommit⟩ := climb_commits ideal hleaf (by omega) (by omega)
    (commits_leaf ideal p.block data) hclimb
  have hnode : node ∈ rootsOf hs B := ideal.tree hhash ▸ (substitute_spec hsub).1
  obtain ⟨hval, hin⟩ := mem_rootsOf hnode hidx
  have hlt : p.block < B.length := hb.trans_le hin
  refine ⟨hlt, ?_⟩
  have hget := hcommit B (by rw [hval])
  rw [List.getD_eq_getElem _ _ hlt] at hget
  rw [List.getElem?_eq_getElem hlt, hget]

/-! ### The proofs a tree makes -/

variable {T : MerkleTree H}

omit [DecidableEq H] in
/-- From a node within the tree the climb finds the siblings up to a root, and
climbing with them arrives there. -/
theorem Built.pathLoop (h : Built hs B T) :
    ∀ (fuel : ℕ) {d o : ℕ}, (o + 1) * 2 ^ d ≤ B.length → B.length ≤ fuel + 2 ^ d →
    ∃ siblings, MerkleTree.pathLoop T.nodes (rootSet (rootsOf hs B)) fuel (Flat.index d o) =
        some siblings ∧
      ∃ i ∈ Flat.fullRoots (B.length * 2), climb hs (nodeAt hs B d o) siblings = some (nodeOf hs B i) := by
  intro fuel
  induction fuel with
  | zero =>
    intro d o hin hfuel
    have hpos : 0 < 2 ^ d := by positivity
    -- no node is left above one as wide as the tree
    have hroot : Flat.index d o ∈ Flat.fullRoots (B.length * 2) := by
      refine Flat.mem_fullRoots.mpr ⟨hin, ?_⟩
      calc B.length ≤ 2 ^ d := by omega
        _ < 2 ^ (d + 1) := Nat.pow_lt_pow_succ one_lt_two
        _ ≤ (o / 2 + 1) * 2 ^ (d + 1) := Nat.le_mul_of_pos_left _ (Nat.succ_pos _)
    refine ⟨[], ?_, _, hroot, by rw [climb, nodeOf_index]⟩
    rw [MerkleTree.pathLoop, if_pos]
    exact (mem_rootSet_rootsOf hs).mpr hroot
  | succ fuel ih =>
    intro d o hin hfuel
    by_cases hroot : Flat.index d o ∈ Flat.fullRoots (B.length * 2)
    · refine ⟨[], ?_, _, hroot, by rw [climb, nodeOf_index]⟩
      rw [MerkleTree.pathLoop, if_pos]
      exact (mem_rootSet_rootsOf hs).mpr hroot
    · have hup : (o / 2 + 1) * 2 ^ (d + 1) ≤ B.length := by
        by_contra hc
        exact hroot (Flat.mem_fullRoots.mpr ⟨hin, Nat.not_le.mp hc⟩)
      have hpow : 2 ^ (d + 1) = 2 ^ d + 2 ^ d := by ring
      have hpos : 0 < 2 ^ d := by positivity
      obtain ⟨siblings, hpath, i, hi, hclimb⟩ := ih hup (by omega)
      have hsib := h.getElem?_sibling hup
      refine ⟨nodeOf hs B (Flat.sibling (Flat.index d o)) :: siblings, ?_, i, hi, ?_⟩
      · rw [MerkleTree.pathLoop, if_neg, hsib, Flat.parent_index, hpath]
        · rfl
        · exact fun hc => hroot ((mem_rootSet_rootsOf hs).mp hc)
      · rw [climb, index_nodeOf, index_nodeAt, if_neg (not_not.mpr rfl), ← nodeOf_index,
          pairUp_nodeOf, Flat.parent_index, nodeOf_index, hclimb]

/-- The tree proves each of its blocks. -/
theorem Built.proof (h : Built hs B T) (hi : B[i]? = some data) : ∃ p, T.proof i = some p ∧ p.block = i ∧
      p.verify hs data (hs.treeHash (rootsOf hs B)) = true := by
  have hlt : i < B.length := (List.getElem?_eq_some_iff.mp hi).1
  have hdata : nodeAt hs B 0 i = leafNode hs i data := by
    rw [nodeAt, List.getD_eq_getElem?_getD, hi, Option.getD_some]
  obtain ⟨siblings, hpath, r, hr, hclimb⟩ :=
    h.pathLoop T.length (d := 0) (o := i) (by omega) (by rw [h.length_eq]; omega)
  rw [Flat.index_zero] at hpath
  have hleaf : T.nodes[i * 2]? = some (leafNode hs i data) := by
    rw [← Flat.index_zero, h.nodes, if_pos (by omega), hdata]
  refine ⟨⟨i, data.length, siblings, rootsOf hs B⟩, ?_, rfl, ?_⟩
  · rw [MerkleTree.proof, if_neg (by rw [h.length_eq]; omega), h.roots]
    simp only [Option.bind_eq_bind, Option.bind_some, hpath, hleaf]
    rfl
  · refine Proof.verify_iff.mpr ⟨rfl, nodeOf hs B r, by rw [← hclimb, hdata], rootsOf hs B, ?_, rfl⟩
    show substitute (nodeOf hs B r).index (nodeOf hs B r) (rootsOf hs B) = some (rootsOf hs B)
    rw [index_nodeOf, substitute_rootsOf hr]

/-- A tree's proof carries every root of the tree, so it verifies only against a tree
of the same length. -/
theorem Built.length_of_verify (ideal : hs.Ideal) {B B' : List Block} (h : Built hs B T)
    (hp : T.proof i = some p) (hv : p.verify hs data (hs.treeHash (rootsOf hs B')) = true) :
    B.length = B'.length := by
  have hroots : p.roots = rootsOf hs B := by
    rw [MerkleTree.proof] at hp
    split_ifs at hp
    rw [h.roots] at hp
    simp only [Option.bind_eq_bind, Option.bind_some, Option.bind_eq_some_iff] at hp
    obtain ⟨siblings, -, leaf, -, hp⟩ := hp
    rw [← Option.some.inj hp]
  obtain ⟨-, node, -, roots, hsub, hhash⟩ := Proof.verify_iff.mp hv
  have hidx := (substitute_spec hsub).2
  rw [ideal.tree hhash, hroots, map_index_rootsOf, map_index_rootsOf] at hidx
  exact (Flat.fullRoots_inj hidx).symm

/-- **Inclusion proofs are complete and sound.** Every block of a tree has a
proof that verifies against the tree's root hash, and whatever verifies against
it is the block at the number the proof names. -/
theorem proof_complete_sound (ideal : hs.Ideal) (B : List Block) :
    ∃ root, (MerkleTree.ofBlocks hs B).rootHash hs = some root ∧
      (∀ i data, B[i]? = some data →
        ∃ p, (MerkleTree.ofBlocks hs B).proof i = some p ∧ p.verify hs data root = true) ∧
      ∀ (p : Proof H) (data : Block), p.verify hs data root = true →
        p.block < B.length ∧ B[p.block]? = some data := by
  have hbuilt := built_ofBlocks hs B
  refine ⟨_, hbuilt.rootHash, ?_, fun p data => Proof.verify_sound ideal⟩
  intro i data hi
  obtain ⟨p, hp, -, hv⟩ := hbuilt.proof hi
  exact ⟨p, hp, hv⟩

/-- The third of three blocks, a root of its own beside the first two. -/
theorem proof_complete_sound_three :
    ∃ root p, (MerkleTree.ofBlocks Hasher.numbering [[1], [2, 3], []]).rootHash Hasher.numbering =
        some root ∧
      (MerkleTree.ofBlocks Hasher.numbering [[1], [2, 3], []]).proof 1 = some p ∧
      p.verify Hasher.numbering [2, 3] root = true ∧ p.verify Hasher.numbering [2] root = false := by
  obtain ⟨root, hroot, hcomplete, hsound⟩ :=
    proof_complete_sound Hasher.numbering_ideal [[1], [2, 3], []]
  obtain ⟨p, hp, hv⟩ := hcomplete 1 [2, 3] rfl
  refine ⟨root, p, hroot, hp, hv, ?_⟩
  have hblock := (hsound p [2, 3] hv).2
  refine Bool.eq_false_iff.mpr fun hfalse => ?_
  have hother := (hsound p [2] hfalse).2
  rw [hblock] at hother
  exact absurd hother (by decide)

end Merkle
end HypercoreRs
