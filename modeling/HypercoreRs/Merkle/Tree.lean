/-
# The append-only Merkle tree

`MerkleTree` of `tree.rs`: a table of nodes by flat index and a length. Blocks
are appended from left to right; an append stores the leaf and rolls up every
parent it completes. BLAKE3 is a parameter: the three hashes are functions of
what each of them feeds the hasher (`Hasher`), and where a result needs that no
two inputs collide it says so (`Hasher.Ideal`).

What a tree is supposed to hold is said without the table: `nodeAt B d o` is the
node over the blocks `o * 2 ^ d` to `(o + 1) * 2 ^ d` of `B`. The invariant of
the table is that it holds this node for exactly the ranges within the length
(`Built`), and every `append` keeps it. The hash of a node pins down every block
under it (`Commits`), which is what the proofs of membership rest on.
-/
import HypercoreRs.Graph.Tables
import HypercoreRs.Merkle.Flat

open Std

namespace HypercoreRs
namespace Merkle

/-- A block is a string of bytes. -/
abbrev Block := List UInt8

/-- A tree node: its flat-tree `index`, its `hash`, and the total byte `size` of
the block range it covers. -/
structure Node (H : Type) where
  index : ℕ
  hash : H
  size : ℕ
deriving DecidableEq

/-- The three BLAKE3 hashes, each under its own prefix byte: a leaf hashes its
length and data, a parent the hash and size of both children, a tree the hash,
index and size of every root. -/
structure Hasher (H : Type) where
  leafHash : Block → H
  parent : H → ℕ → H → ℕ → H
  treeHash : List (Node H) → H

/-- An append-only flat-tree Merkle tree. -/
structure MerkleTree (H : Type) where
  nodes : ExtTreeMap ℕ (Node H)
  length : ℕ

variable {H : Type} (hs : Hasher H)

/-- No hash has two inputs. (The prefix bytes also keep the three apart; nothing
here needs it, since an index fixes the depth of its node.) -/
structure Hasher.Ideal : Prop where
  leaf : ∀ {a b}, hs.leafHash a = hs.leafHash b → a = b
  parent : ∀ {l m r n l' m' r' n'}, hs.parent l m r n = hs.parent l' m' r' n' →
    l = l' ∧ m = m' ∧ r = r' ∧ n = n'
  tree : ∀ {a b}, hs.treeHash a = hs.treeHash b → a = b

/-- Hashes that number their inputs: the assumption can be met. -/
def Hasher.numbering : Hasher ℕ where
  leafHash data := 3 * Encodable.encode (data.map UInt8.toNat)
  parent l m r n := 3 * Encodable.encode (l, m, r, n) + 1
  treeHash roots := 3 * Encodable.encode (roots.map fun r => (r.hash, r.index, r.size)) + 2

theorem Hasher.numbering_ideal : Hasher.numbering.Ideal where
  leaf {a b} h := by
    have henc : Encodable.encode (a.map UInt8.toNat) = Encodable.encode (b.map UInt8.toNat) := by
      simpa [Hasher.numbering] using h
    exact List.map_injective_iff.mpr (fun _ _ => UInt8.toNat_inj.mp)
      (Encodable.encode_injective henc)
  parent {l m r n l' m' r' n'} h := by
    have henc : Encodable.encode (l, m, r, n) = Encodable.encode (l', m', r', n') := by
      simp only [Hasher.numbering] at h
      omega
    simpa using Encodable.encode_injective henc
  tree {a b} h := by
    have henc : Encodable.encode (a.map fun r => (r.hash, r.index, r.size)) =
        Encodable.encode (b.map fun r => (r.hash, r.index, r.size)) := by
      simp only [Hasher.numbering] at h
      omega
    refine List.map_injective_iff.mpr ?_ (Encodable.encode_injective henc)
    intro ⟨i, x, n⟩ ⟨i', x', n'⟩ hr
    simp only [Prod.mk.injEq] at hr
    obtain ⟨rfl, rfl, rfl⟩ := hr
    rfl

def Hasher.parentHash (left right : Node H) : H :=
  hs.parent left.hash left.size right.hash right.size

/-- The leaf of a block. -/
def leafNode (block : ℕ) (data : Block) : Node H :=
  ⟨block * 2, hs.leafHash data, data.length⟩

/-- The node at `p` over two children. -/
def parentNode (p : ℕ) (left right : Node H) : Node H :=
  ⟨p, hs.parentHash left right, left.size + right.size⟩

/-- The parent of the node at `cur` and its sibling at `sib`: the smaller index
is the left child. -/
def pairUp (cur : ℕ) (node : Node H) (sib : ℕ) (sibNode : Node H) : Node H :=
  if sib < cur then parentNode hs (Flat.parent cur) sibNode node
  else parentNode hs (Flat.parent cur) node sibNode

namespace MerkleTree

def new : MerkleTree H := ⟨∅, 0⟩

/-- The climb of `append`, from the node just stored: while a left sibling is
already present, store the completed parent. -/
def rollUp (nodes : ExtTreeMap ℕ (Node H)) (right : Node H) : ExtTreeMap ℕ (Node H) :=
  if _h : right.index < Flat.sibling right.index then nodes
  else
    match nodes[Flat.sibling right.index]? with
    | none => nodes
    | some left =>
      let p := parentNode hs (Flat.parent right.index) left right
      rollUp (nodes.insert (Flat.parent right.index) p) p
termination_by right.index
decreasing_by exact Flat.parent_lt_of_not_lt_sibling _h

/-- Append a block; returns the tree and the block's number. -/
def append (T : MerkleTree H) (data : Block) : MerkleTree H × ℕ :=
  let block := T.length
  let leaf := leafNode hs block data
  ({ nodes := rollUp hs (T.nodes.insert (block * 2) leaf) leaf, length := T.length + 1 }, block)

/-- Rewind to the first `newLen` blocks, keeping the nodes within them; returns
whether the tree changed. -/
def truncate (T : MerkleTree H) (newLen : ℕ) : MerkleTree H × Bool :=
  if newLen ≥ T.length then (T, false)
  else
    ({ nodes := T.nodes.filter fun i _ => decide ((Flat.blockRange i).2 ≤ newLen), length := newLen }, true)

/-- The root nodes the tree would have if truncated to its first `len` blocks. -/
def prefixRoots (T : MerkleTree H) (len : ℕ) : Option (List (Node H)) :=
  if len > T.length then none else (Flat.fullRoots (len * 2)).mapM (T.nodes[·]?)

/-- The root hash the tree would have if truncated to its first `len` blocks. -/
def prefixRootHash (T : MerkleTree H) (len : ℕ) : Option H :=
  (T.prefixRoots len).map hs.treeHash

/-- The current root nodes; `none` where the source panics on a missing one. -/
def roots (T : MerkleTree H) : Option (List (Node H)) :=
  if T.length = 0 then some [] else (Flat.fullRoots (T.length * 2)).mapM (T.nodes[·]?)

/-- The signable hash over all roots. -/
def rootHash (T : MerkleTree H) : Option H := T.roots.map hs.treeHash

/-- The tree of a list of blocks. -/
def ofBlocks (B : List Block) : MerkleTree H :=
  B.foldl (fun T data => (T.append hs data).1) new

end MerkleTree

/-- The table of a list of nodes by index, the last one winning. -/
def tableOf (nodes : List (Node H)) : ExtTreeMap ℕ (Node H) :=
  nodes.foldl (fun table n => table.insert n.index n) ∅

variable {i : ℕ}

theorem mem_foldl_insert : ∀ {nodes : List (Node H)} {table : ExtTreeMap ℕ (Node H)},
    i ∈ nodes.foldl (fun table n => table.insert n.index n) table ↔
      i ∈ table ∨ i ∈ nodes.map (·.index)
  | [], _ => by simp
  | n :: nodes, table => by
    rw [List.foldl_cons, mem_foldl_insert, Graph.mem_insert, List.map_cons, List.mem_cons]
    tauto

variable {v : Node H}

theorem of_foldl_insert :
    ∀ {nodes : List (Node H)} {table : ExtTreeMap ℕ (Node H)},
    (nodes.foldl (fun table n => table.insert n.index n) table)[i]? = some v →
    table[i]? = some v ∨ v ∈ nodes ∧ v.index = i
  | [], _, h => Or.inl h
  | n :: nodes, table, h => by
    rw [List.foldl_cons] at h
    obtain h | ⟨hmem, hidx⟩ := of_foldl_insert h
    · rw [Graph.getElem?_insert] at h
      split_ifs at h with hi
      · obtain rfl := Option.some.inj h
        exact Or.inr ⟨by simp, hi.symm⟩
      · exact Or.inl h
    · exact Or.inr ⟨by simp [hmem], hidx⟩

variable {nodes : List (Node H)}

theorem mem_tableOf : i ∈ tableOf nodes ↔ i ∈ nodes.map (·.index) := by
  rw [tableOf, mem_foldl_insert]
  simp

theorem of_getElem?_tableOf (h : (tableOf nodes)[i]? = some v) : v ∈ nodes ∧ v.index = i :=
  (of_foldl_insert h).resolve_left (by simp)

/-! ### The node over a range of blocks -/

/-- The node at depth `d` and offset `o` of the tree over `B`. -/
def nodeAt (B : List Block) : ℕ → ℕ → Node H
  | 0, o => leafNode hs o (B.getD o [])
  | d + 1, o => parentNode hs (Flat.index (d + 1) o) (nodeAt B d (2 * o)) (nodeAt B d (2 * o + 1))

/-- The node at a flat index of the tree over `B`. -/
def nodeOf (B : List Block) (i : ℕ) : Node H := nodeAt hs B (Flat.depth i) (Flat.offset i)

/-- The roots of the tree over `B`. -/
def rootsOf (B : List Block) : List (Node H) :=
  (Flat.fullRoots (B.length * 2)).map (nodeOf hs B)

@[simp]
theorem nodeOf_index (B : List Block) (d o : ℕ) : nodeOf hs B (Flat.index d o) = nodeAt hs B d o := by
  rw [nodeOf, Flat.depth_index, Flat.offset_index]

@[simp]
theorem index_nodeAt (B : List Block) : ∀ d o, (nodeAt hs B d o).index = Flat.index d o
  | 0, o => (Flat.index_zero o).symm
  | _ + 1, _ => rfl

@[simp]
theorem index_nodeOf (B : List Block) (i : ℕ) : (nodeOf hs B i).index = i := by
  rw [nodeOf, index_nodeAt, Flat.index_depth_offset]

theorem map_index_rootsOf (B : List Block) :
    (rootsOf hs B).map (·.index) = Flat.fullRoots (B.length * 2) := by
  rw [rootsOf, List.map_map]
  exact (List.map_congr_left fun i _ => index_nodeOf hs B i).trans (List.map_id _)

/-- Blocks outside its range do not enter a node. -/
theorem nodeAt_congr {A B : List Block} : ∀ (d o : ℕ),
    (∀ b, o * 2 ^ d ≤ b → b < (o + 1) * 2 ^ d → A.getD b [] = B.getD b []) →
    nodeAt hs A d o = nodeAt hs B d o
  | 0, o, h => by rw [nodeAt, nodeAt, h o (by omega) (by omega)]
  | d + 1, o, h => by
    obtain ⟨hl, hm, hr⟩ := Flat.child_ends d o
    have hend : (o + 1) * 2 ^ (d + 1) = o * 2 ^ (d + 1) + 2 ^ d + 2 ^ d := by ring
    rw [nodeAt, nodeAt, nodeAt_congr d (2 * o) fun b h1 h2 => h b (by omega) (by omega),
      nodeAt_congr d (2 * o + 1) fun b h1 h2 => h b (by omega) (by omega)]

variable {d o : ℕ}

theorem nodeAt_append {B C : List Block} (h : (o + 1) * 2 ^ d ≤ B.length) :
    nodeAt hs (B ++ C) d o = nodeAt hs B d o := by
  apply nodeAt_congr
  intro b _ hb
  rw [List.getD_append _ _ _ _ (hb.trans_le h)]

variable {B : List Block}

theorem nodeAt_take {n d o : ℕ} (h : (o + 1) * 2 ^ d ≤ n) :
    nodeAt hs (B.take n) d o = nodeAt hs B d o := by
  apply nodeAt_congr
  intro b _ hb
  rw [List.getD_eq_getElem?_getD, List.getD_eq_getElem?_getD, List.getElem?_take,
    if_pos (hb.trans_le h)]

/-! ### What a hash commits to -/

/-- The hash of `v`, as that of the node at (`d`, `o`), admits no other block `b`
than `data`. -/
def Commits (v : Node H) (d o b : ℕ) (data : Block) : Prop :=
  ∀ B : List Block, v.hash = (nodeAt hs B d o).hash → B.getD b [] = data

variable {hs}

theorem commits_leaf (ideal : hs.Ideal) (b : ℕ) (data : Block) :
    Commits hs (leafNode hs b data) 0 b b data := by
  intro B h
  exact (ideal.leaf h).symm

/-- A parent commits to what either child commits to. -/
theorem Commits.pairUp {v w : Node H} {d o b : ℕ} {data : Block} (ideal : hs.Ideal)
    (h : Commits hs v d o b data) :
    Commits hs (pairUp hs (Flat.index d o) v (Flat.sibling (Flat.index d o)) w) (d + 1) (o / 2) b
      data := by
  intro B hB
  apply h B
  obtain ⟨k, rfl | rfl⟩ := Nat.even_or_odd' o
  · rw [Merkle.pairUp, Flat.sibling_left, if_neg (by rw [Flat.index_lt_index]; omega),
      Nat.mul_div_cancel_left k two_pos] at hB
    exact (ideal.parent hB).1
  · rw [Merkle.pairUp, Flat.sibling_right, if_pos (by rw [Flat.index_lt_index]; omega),
      show (2 * k + 1) / 2 = k by omega] at hB
    exact (ideal.parent hB).2.2.1

variable (hs) in
@[simp]
theorem index_pairUp (i : ℕ) (v : Node H) (j : ℕ) (w : Node H) :
    (pairUp hs i v j w).index = Flat.parent i := by
  rw [pairUp]
  split_ifs <;> rfl

theorem pairUp_comm (i : ℕ) (v w : Node H) :
    pairUp hs i v (Flat.sibling i) w = pairUp hs (Flat.sibling i) w i v := by
  obtain ⟨d, o, rfl⟩ := Flat.exists_index i
  obtain ⟨k, rfl | rfl⟩ := Nat.even_or_odd' o
  · have hlt : Flat.index d (2 * k) < Flat.index d (2 * k + 1) := Flat.index_lt_index.mpr (by omega)
    rw [pairUp, pairUp, Flat.sibling_left, if_neg hlt.not_gt, if_pos hlt, Flat.parent_index,
      Flat.parent_index, show (2 * k + 1) / 2 = 2 * k / 2 by omega]
  · have hlt : Flat.index d (2 * k) < Flat.index d (2 * k + 1) := Flat.index_lt_index.mpr (by omega)
    rw [pairUp, pairUp, Flat.sibling_right, if_pos hlt, if_neg hlt.not_gt, Flat.parent_index,
      Flat.parent_index, show (2 * k + 1) / 2 = 2 * k / 2 by omega]

/-- Pairing two nodes of the tree over `B` gives their parent there. -/
theorem pairUp_nodeOf (B : List Block) (i : ℕ) :
    pairUp hs i (nodeOf hs B i) (Flat.sibling i) (nodeOf hs B (Flat.sibling i)) =
      nodeOf hs B (Flat.parent i) := by
  obtain ⟨d, o, rfl⟩ := Flat.exists_index i
  obtain ⟨k, rfl | rfl⟩ := Nat.even_or_odd' o
  · have hlt : Flat.index d (2 * k) < Flat.index d (2 * k + 1) := Flat.index_lt_index.mpr (by omega)
    rw [pairUp, Flat.sibling_left, if_neg hlt.not_gt, Flat.parent_index,
      Nat.mul_div_cancel_left k two_pos, nodeOf_index, nodeOf_index, nodeOf_index, nodeAt]
  · have hlt : Flat.index d (2 * k) < Flat.index d (2 * k + 1) := Flat.index_lt_index.mpr (by omega)
    rw [pairUp, Flat.sibling_right, if_pos hlt, Flat.parent_index,
      show (2 * k + 1) / 2 = k by omega, nodeOf_index, nodeOf_index, nodeOf_index, nodeAt]

/-- A node of the tree over `A` commits to the blocks of `A` in its range. -/
theorem commits_nodeAt (ideal : hs.Ideal) (A : List Block) : ∀ (d o b : ℕ),
    o * 2 ^ d ≤ b → b < (o + 1) * 2 ^ d → Commits hs (nodeAt hs A d o) d o b (A.getD b [])
  | 0, o, b, h1, h2 => by
    obtain rfl : b = o := by omega
    exact commits_leaf ideal b _
  | d + 1, o, b, h1, h2 => by
    obtain ⟨hl, hm, hr⟩ := Flat.child_ends d o
    intro B hB
    obtain ⟨hleft, -, hright, -⟩ := ideal.parent hB
    by_cases hb : b < (2 * o + 1) * 2 ^ d
    · exact commits_nodeAt ideal A d (2 * o) b (by omega) hb B hleft
    · exact commits_nodeAt ideal A d (2 * o + 1) b (by omega) (by omega) B hright

/-! ### Appending keeps the table right -/

variable (hs)

/-- The table holds the node of every range within `B`, and no other. -/
structure Built (B : List Block) (T : MerkleTree H) : Prop where
  length_eq : T.length = B.length
  nodes : ∀ d o, T.nodes[Flat.index d o]? =
    if (o + 1) * 2 ^ d ≤ B.length then some (nodeAt hs B d o) else none

/-- A table during the climb after the last block of `B`: the nodes that end
there are stored up to depth `k`. -/
def Climbed (B : List Block) (k : ℕ) (nodes : ExtTreeMap ℕ (Node H)) : Prop :=
  ∀ d o, nodes[Flat.index d o]? =
    if (o + 1) * 2 ^ d < B.length ∨ (o + 1) * 2 ^ d = B.length ∧ d ≤ k then some (nodeAt hs B d o)
    else none

variable {hs}

/-- One round of the climb: with the right child stored, the left one is there. -/
theorem Climbed.step {k q : ℕ} {nodes : ExtTreeMap ℕ (Node H)} (h : Climbed hs B k nodes)
    (hq : (q + 1) * 2 ^ (k + 1) = B.length) :
    nodes[Flat.index k (2 * q)]? = some (nodeAt hs B k (2 * q)) ∧
      Climbed hs B (k + 1) (nodes.insert (Flat.index (k + 1) q) (nodeAt hs B (k + 1) q)) := by
  have hpos : 0 < 2 ^ k := by positivity
  have hleft : (2 * q + 1) * 2 ^ k + 2 ^ k = B.length := by rw [← hq]; ring
  refine ⟨by rw [h, if_pos (Or.inl (by omega))], fun d o => ?_⟩
  rw [Graph.getElem?_insert]
  by_cases hnew : Flat.index d o = Flat.index (k + 1) q
  · obtain ⟨rfl, rfl⟩ := Flat.index_inj.mp hnew
    rw [if_pos rfl, if_pos (Or.inr ⟨hq, le_rfl⟩)]
  · rw [if_neg hnew, h]
    -- the new node is the only one of its depth that ends there
    have hother : d = k + 1 → (o + 1) * 2 ^ d ≠ B.length := by
      intro hd ho
      subst hd
      rw [← hq] at ho
      have := Nat.eq_of_mul_eq_mul_right (by positivity) ho
      exact hnew (by rw [Nat.succ.inj this])
    congr 1
    rw [eq_iff_iff]
    have : d ≤ k + 1 ↔ d ≤ k ∨ d = k + 1 := by omega
    tauto

/-- The climb from the node that ends at the last block stores all that end there. -/
theorem rollUp_spec : ∀ {k o : ℕ} {nodes : ExtTreeMap ℕ (Node H)},
    Climbed hs B k nodes → (o + 1) * 2 ^ k = B.length →
    ∀ d o', (MerkleTree.rollUp hs nodes (nodeAt hs B k o))[Flat.index d o']? =
      if (o' + 1) * 2 ^ d ≤ B.length then some (nodeAt hs B d o') else none := by
  intro k o
  induction o using Nat.strong_induction_on generalizing k with
  | _ o ih =>
    intro nodes h ho d o'
    rw [MerkleTree.rollUp, index_nodeAt]
    obtain ⟨q, rfl | rfl⟩ := Nat.even_or_odd' o
    · rw [Flat.sibling_left, dif_pos (Flat.index_lt_index.mpr (by omega)), h]
      congr 1
      rw [eq_iff_iff]
      -- a left child ends the climb: nothing above it ends at the same block
      have habove : (o' + 1) * 2 ^ d = B.length → d ≤ k := by
        intro hd
        by_contra hk
        obtain ⟨j, rfl⟩ := Nat.exists_eq_add_of_lt (Nat.not_le.mp hk)
        have : (2 * q + 1) * 2 ^ k = 2 * ((o' + 1) * 2 ^ j) * 2 ^ k := by
          calc (2 * q + 1) * 2 ^ k = (o' + 1) * 2 ^ (k + j + 1) := ho.trans hd.symm
            _ = 2 * ((o' + 1) * 2 ^ j) * 2 ^ k := by ring
        have := Nat.eq_of_mul_eq_mul_right (by positivity) this
        omega
      omega
    · have hq : (q + 1) * 2 ^ (k + 1) = B.length := by rw [← ho]; ring
      obtain ⟨hleft, hnext⟩ := h.step hq
      rw [Flat.sibling_right, dif_neg (by rw [Flat.index_lt_index]; omega), hleft, Flat.parent_index,
        show (2 * q + 1) / 2 = q by omega]
      exact ih q (by omega) hnext hq d o'

theorem built_new : Built hs [] (MerkleTree.new : MerkleTree H) where
  length_eq := rfl
  nodes d o := by
    rw [if_neg]
    · exact ExtTreeMap.getElem?_empty
    · have : 0 < (o + 1) * 2 ^ d := by positivity
      simp

theorem Built.append {T : MerkleTree H} (h : Built hs B T) (data : Block) :
    Built hs (B ++ [data]) (T.append hs data).1 where
  length_eq := by simp [MerkleTree.append, h.length_eq]
  nodes := by
    have hlen : (B ++ [data]).length = B.length + 1 := by simp
    have hleaf : leafNode hs B.length data = nodeAt hs (B ++ [data]) 0 B.length := by
      simp [nodeAt]
    rw [MerkleTree.append]
    simp only [h.length_eq, hleaf]
    apply rollUp_spec
    · intro d o
      rw [← Flat.index_zero, Graph.getElem?_insert]
      by_cases hnew : Flat.index d o = Flat.index 0 B.length
      · obtain ⟨rfl, rfl⟩ := Flat.index_inj.mp hnew
        rw [if_pos rfl, if_pos (Or.inr ⟨by simp, le_rfl⟩)]
      · rw [if_neg hnew, h.nodes]
        have hiff : ((o + 1) * 2 ^ d < (B ++ [data]).length ∨
            (o + 1) * 2 ^ d = (B ++ [data]).length ∧ d ≤ 0) ↔ (o + 1) * 2 ^ d ≤ B.length := by
          rw [hlen]
          refine ⟨fun h => h.elim (by omega) fun ⟨h1, h2⟩ => ?_, fun h => Or.inl (by omega)⟩
          obtain rfl : d = 0 := by omega
          exact absurd (Flat.index_inj.mpr ⟨rfl, by omega⟩) hnew
        rw [if_congr hiff rfl rfl]
        split_ifs with hin
        · rw [nodeAt_append hs hin]
        · rfl
    · simp

theorem Built.appends {A : List Block} {T : MerkleTree H} (h : Built hs A T) : ∀ B : List Block,
    Built hs (A ++ B) (B.foldl (fun T data => (T.append hs data).1) T)
  | [] => by simpa using h
  | data :: B => by simpa using (h.append data).appends B

variable (hs) in
/-- The tree of `B` is built. -/
theorem built_ofBlocks (B : List Block) : Built hs B (MerkleTree.ofBlocks hs B) :=
  built_new.appends B

/-! ### Reading the roots -/

variable {α β : Type} {f : α → Option β}

theorem mapM_eq_some {g : α → β} : ∀ {l : List α},
    (∀ a ∈ l, f a = some (g a)) → l.mapM f = some (l.map g)
  | [], _ => rfl
  | a :: l, h => by
    rw [List.mapM_cons, h a (by simp), mapM_eq_some fun b hb => h b (by simp [hb])]
    rfl

theorem mapM_cons_eq_some {a : α} {l : List α} {l' : List β} (h : (a :: l).mapM f = some l') :
    ∃ b bs, f a = some b ∧ l.mapM f = some bs ∧ l' = b :: bs := by
  rw [List.mapM_cons] at h
  obtain ⟨b, hb, h⟩ := Option.bind_eq_some_iff.mp h
  obtain ⟨bs, hbs, h⟩ := Option.bind_eq_some_iff.mp h
  exact ⟨b, bs, hb, hbs, (Option.some.inj h).symm⟩

theorem exists_of_mapM {x : α} : ∀ {l : List α} {l' : List β},
    l.mapM f = some l' → x ∈ l → ∃ y ∈ l', f x = some y
  | a :: l, l', h, hx => by
    obtain ⟨b, bs, hb, hbs, rfl⟩ := mapM_cons_eq_some h
    obtain rfl | hx := List.mem_cons.mp hx
    · exact ⟨b, by simp, hb⟩
    · obtain ⟨y, hy, hxy⟩ := exists_of_mapM hbs hx
      exact ⟨y, by simp [hy], hxy⟩

theorem map_of_mapM {g : β → α} (hg : ∀ a b, f a = some b → g b = a) : ∀ {l : List α} {l' : List β},
    l.mapM f = some l' → l'.map g = l
  | [], l', h => by
    obtain rfl : [] = l' := by simpa using h
    rfl
  | a :: l, l', h => by
    obtain ⟨b, bs, hb, hbs, rfl⟩ := mapM_cons_eq_some h
    rw [List.map_cons, hg a b hb, map_of_mapM hg hbs]

theorem Built.getElem?_root {T : MerkleTree H} (h : Built hs B T) {n i : ℕ} (hn : n ≤ B.length)
    (hi : i ∈ Flat.fullRoots (n * 2)) : T.nodes[i]? = some (nodeOf hs B i) := by
  obtain ⟨d, o, rfl⟩ := Flat.exists_index i
  rw [h.nodes, if_pos ((Flat.mem_fullRoots.mp hi).1.trans hn), nodeOf_index]

/-- The sibling of a node is stored when their parent's range is within the tree. -/
theorem Built.getElem?_sibling {T : MerkleTree H} (h : Built hs B T)
    (hup : (o / 2 + 1) * 2 ^ (d + 1) ≤ B.length) :
    T.nodes[Flat.sibling (Flat.index d o)]? =
      some (nodeOf hs B (Flat.sibling (Flat.index d o))) := by
  have hend : (o / 2 + 1) * 2 ^ (d + 1) = (2 * (o / 2) + 2) * 2 ^ d := by ring
  obtain ⟨k, rfl | rfl⟩ := Nat.even_or_odd' o
  · rw [Flat.sibling_left, h.nodes, if_pos, nodeOf_index]
    calc (2 * k + 1 + 1) * 2 ^ d ≤ (2 * (2 * k / 2) + 2) * 2 ^ d := Nat.mul_le_mul_right _ (by omega)
      _ ≤ B.length := hend ▸ hup
  · rw [Flat.sibling_right, h.nodes, if_pos, nodeOf_index]
    calc (2 * k + 1) * 2 ^ d ≤ (2 * ((2 * k + 1) / 2) + 2) * 2 ^ d := Nat.mul_le_mul_right _ (by omega)
      _ ≤ B.length := hend ▸ hup

variable {n : ℕ}

theorem Built.prefixRoots {T : MerkleTree H} (h : Built hs B T) (hn : n ≤ B.length) :
    T.prefixRoots n = some (rootsOf hs (B.take n)) := by
  rw [MerkleTree.prefixRoots, if_neg (by rw [h.length_eq]; omega), rootsOf,
    List.length_take_of_le hn]
  rw [mapM_eq_some fun i hi => h.getElem?_root hn hi]
  congr 1
  apply List.map_congr_left
  intro i hi
  obtain ⟨d, o, rfl⟩ := Flat.exists_index i
  rw [nodeOf_index, nodeOf_index, nodeAt_take hs (Flat.mem_fullRoots.mp hi).1]

theorem Built.roots {T : MerkleTree H} (h : Built hs B T) : T.roots = some (rootsOf hs B) := by
  have hp := h.prefixRoots (n := B.length) le_rfl
  rw [List.take_length] at hp
  rw [MerkleTree.roots]
  split_ifs with h0
  · rw [rootsOf, ← h.length_eq, h0, Flat.fullRoots_zero]
    rfl
  · rw [← hp, MerkleTree.prefixRoots, if_neg (by rw [h.length_eq]; omega), h.length_eq]

theorem Built.rootHash {T : MerkleTree H} (h : Built hs B T) :
    T.rootHash hs = some (hs.treeHash (rootsOf hs B)) := by
  rw [MerkleTree.rootHash, h.roots, Option.map_some]

theorem Built.prefixRootHash {T : MerkleTree H} (h : Built hs B T) (hn : n ≤ B.length) :
    T.prefixRootHash hs n = some (hs.treeHash (rootsOf hs (B.take n))) := by
  rw [MerkleTree.prefixRootHash, h.prefixRoots hn, Option.map_some]

theorem Built.prefixRootHash_eq_some {T : MerkleTree H} (h : Built hs B T) {root : H} :
    T.prefixRootHash hs n = some root ↔
      n ≤ B.length ∧ hs.treeHash (rootsOf hs (B.take n)) = root := by
  by_cases hn : n ≤ B.length
  · rw [h.prefixRootHash hn, Option.some.injEq]
    exact ⟨fun heq => ⟨hn, heq⟩, fun heq => heq.2⟩
  · have hnone : T.prefixRootHash hs n = none := by
      rw [MerkleTree.prefixRootHash, MerkleTree.prefixRoots, if_pos (by rw [h.length_eq]; omega),
        Option.map_none]
    rw [hnone]
    exact ⟨nofun, fun heq => absurd heq.1 hn⟩

/-- A node among the roots of `B` is the node of its range, and the range is
within `B`. -/
theorem mem_rootsOf (h : v ∈ rootsOf hs B) (hi : v.index = Flat.index d o) :
    v = nodeAt hs B d o ∧ (o + 1) * 2 ^ d ≤ B.length := by
  obtain ⟨i, hroot, rfl⟩ := List.mem_map.mp h
  rw [index_nodeOf] at hi
  subst hi
  exact ⟨nodeOf_index hs B d o, (Flat.mem_fullRoots.mp hroot).1⟩

/-- The roots determine the blocks. -/
theorem rootsOf_inj (ideal : hs.Ideal) {A B : List Block} (h : rootsOf hs A = rootsOf hs B) :
    A = B := by
  have hlen : A.length = B.length := by
    apply Flat.fullRoots_inj
    rw [← map_index_rootsOf hs A, ← map_index_rootsOf hs B, h]
  apply List.ext_getElem hlen
  intro b hA hB
  obtain ⟨d, o, hroot, hlo, hhi⟩ := Flat.lt_iff_covered.mp hA
  have hnode : nodeAt hs A d o = nodeAt hs B d o := by
    have hmem : nodeOf hs A (Flat.index d o) ∈ rootsOf hs A := List.mem_map_of_mem hroot
    rw [h, nodeOf_index] at hmem
    exact (mem_rootsOf hmem (index_nodeAt hs A d o)).1
  have hdata := commits_nodeAt ideal A d o b hlo hhi B (congrArg Node.hash hnode)
  rw [List.getD_eq_getElem _ _ hA, List.getD_eq_getElem _ _ hB] at hdata
  exact hdata.symm

end Merkle
end HypercoreRs
