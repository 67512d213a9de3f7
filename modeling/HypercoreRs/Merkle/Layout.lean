/-
# Trees in a store

A tree is persisted as its length and its nodes in the order of their flat indices
(`serialize`), and read back node by node (`deserialize`). Reading inverts writing on
the trees whose numbers fit 64 bits (`deserialize_serialize`); it accepts any nodes for
any length, so what it returns need not be the tree of any blocks.

The two other things a log does with its tree are here too: truncating the tree of `B`
gives the tree of a prefix of `B` (`Built.truncate`), and the sizes of the roots add up
to the bytes of all the blocks (`Built.byteLength`).
-/
import HypercoreRs.Codec.Reader
import HypercoreRs.Merkle.Tree

open Std

namespace HypercoreRs
namespace Merkle

variable {H : Type}

namespace MerkleTree

section Serialize

variable (hash : Coded H)

def nodeBytes (n : Node H) : List UInt8 :=
  leBytes 8 n.index ++ (leBytes 8 n.size ++ hash.toBytes n.hash)

def readNode (bytes : List UInt8) : Option (Node H × List UInt8) := do
  let (index, rest) ← readU64 bytes
  let (size, rest) ← readU64 rest
  let (hash, rest) ← hash.read rest
  return (⟨index, hash, size⟩, rest)

/-- The length, the number of nodes, then the nodes. -/
def serialize (T : MerkleTree H) : List UInt8 :=
  leBytes 8 T.length ++
    (leBytes 8 T.nodes.size ++ (T.nodes.toList.map Prod.snd).flatMap (nodeBytes hash))

/-- Reconstruct a tree; `none` if the bytes are too few or too many. -/
def deserialize (bytes : List UInt8) : Option (MerkleTree H) := do
  let (length, rest) ← readU64 bytes
  let (count, rest) ← readU64 rest
  let (nodes, rest) ← readTimes (readNode hash) count rest
  if rest = [] then some ⟨tableOf nodes, length⟩ else none

/-- Every number of the tree is one of 64 bits, the flat index of its end included. -/
def fits (T : MerkleTree H) : Bool :=
  T.length * 2 < 2 ^ 64 && T.nodes.size < 2 ^ 64 &&
    T.nodes.toList.all fun (i, n) => n.index == i && i < 2 ^ 64 && n.size < 2 ^ 64

variable {hash}

theorem reads_readNode {n : Node H} (hindex : n.index < 2 ^ 64) (hsize : n.size < 2 ^ 64) :
    Reads (readNode hash) (nodeBytes hash n) n := by
  intro rest
  rw [readNode, nodeBytes, List.append_assoc, (reads_readU64 hindex).bind]
  dsimp only
  rw [List.append_assoc, (reads_readU64 hsize).bind]
  dsimp only
  rw [(hash.reads n.hash).bind]
  rfl

theorem tableOf_toList {table : ExtTreeMap ℕ (Node H)}
    (h : ∀ p ∈ table.toList, p.2.index = p.1) : tableOf (table.toList.map Prod.snd) = table := by
  have hfold : ∀ (l : List (ℕ × Node H)) (acc : ExtTreeMap ℕ (Node H)),
      (∀ p ∈ l, p.2.index = p.1) →
      (l.map Prod.snd).foldl (fun acc n => acc.insert n.index n) acc =
        l.foldl (fun acc p => acc.insert p.1 p.2) acc := by
    intro l
    induction l with
    | nil => intros; rfl
    | cons p l ih =>
      intro acc hl
      rw [List.map_cons, List.foldl_cons, List.foldl_cons, hl p List.mem_cons_self]
      exact ih _ fun q hq => hl q (List.mem_cons_of_mem p hq)
  rw [tableOf, hfold _ _ h, Graph.foldl_insert_toList]

/-- A tree that fits is read back as it was. -/
theorem deserialize_serialize {T : MerkleTree H} (h : T.fits = true) :
    deserialize hash (serialize hash T) = some T := by
  simp only [fits, Bool.and_eq_true, decide_eq_true_eq, List.all_eq_true, beq_iff_eq] at h
  obtain ⟨⟨hlength, hcount⟩, hnodes⟩ := h
  have hread : Reads (readTimes (readNode hash) T.nodes.size)
      ((T.nodes.toList.map Prod.snd).flatMap (nodeBytes hash)) (T.nodes.toList.map Prod.snd) := by
    have hsize : T.nodes.size = (T.nodes.toList.map Prod.snd).length := by
      rw [List.length_map, ExtTreeMap.length_toList]
    rw [hsize]
    apply reads_readTimes
    intro n hn
    obtain ⟨p, hp, rfl⟩ := List.mem_map.mp hn
    obtain ⟨⟨hindex, hlt⟩, hfit⟩ := hnodes p hp
    exact reads_readNode (hindex ▸ hlt) hfit
  rw [deserialize, serialize, (reads_readU64 (by omega)).bind]
  dsimp only
  rw [(reads_readU64 hcount).bind]
  dsimp only
  rw [hread.bind_nil]
  dsimp only
  rw [if_pos rfl, tableOf_toList fun p hp => (hnodes p hp).1.1]

variable (hash) in
/-- The layout of a persisted tree. -/
def layout : Layout (MerkleTree H) :=
  .of fits (serialize hash) (deserialize hash) fun _ h => deserialize_serialize h

end Serialize

/-- Total bytes of the blocks: the sum of the sizes of the roots; `none` where reading
the roots panics. -/
def byteLength (T : MerkleTree H) : Option ℕ := T.roots.map fun roots => (roots.map (·.size)).sum

end MerkleTree

variable {hs : Hasher H}

/-! ### Truncating -/

variable {B : List Block} {T : MerkleTree H}

theorem Built.truncate (h : Built hs B T) {n : ℕ} (hn : n < B.length) :
    (T.truncate n).2 = true ∧ Built hs (B.take n) (T.truncate n).1 := by
  have hlen := List.length_take_of_le hn.le
  have hcond : ¬ n ≥ T.length := by rw [h.length_eq]; omega
  rw [MerkleTree.truncate, if_neg hcond]
  refine ⟨rfl, hlen.symm, fun d o => ?_⟩
  dsimp only
  rw [ExtTreeMap.getElem?_filter', h.nodes, hlen, Flat.blockRange_index]
  split_ifs with hold hnew hnew
  · rw [Option.filter_some, if_pos (by simpa using hnew), nodeAt_take hs hnew]
  · rw [Option.filter_some, if_neg (by simpa using hnew)]
  · omega
  · rfl

theorem MerkleTree.truncate_of_ge {n : ℕ} (h : T.length ≤ n) :
    T.truncate n = (T, false) := if_pos h

/-! ### Sizes -/

/-- The bytes of a list of blocks. -/
def byteSize (B : List Block) : ℕ := (B.map List.length).sum

theorem byteSize_append (A B : List Block) : byteSize (A ++ B) = byteSize A + byteSize B := by
  rw [byteSize, List.map_append, List.sum_append]
  rfl

/-- The bytes of the first `n` blocks. -/
def bytesBefore (B : List Block) (n : ℕ) : ℕ := byteSize (B.take n)

theorem bytesBefore_zero (B : List Block) : bytesBefore B 0 = 0 := rfl

theorem bytesBefore_length (B : List Block) : bytesBefore B B.length = byteSize B := by
  rw [bytesBefore, List.take_length]

theorem bytesBefore_add (B : List Block) (n m : ℕ) :
    bytesBefore B (n + m) = bytesBefore B n + byteSize ((B.drop n).take m) := by
  rw [bytesBefore, List.take_add, byteSize_append]
  rfl

theorem bytesBefore_succ {j : ℕ} {data : Block} (hj : B[j]? = some data) :
    bytesBefore B (j + 1) = bytesBefore B j + data.length := by
  rw [bytesBefore_add, List.take_one, List.head?_drop, hj]
  rfl

variable (hs) in
/-- A node's size is the bytes from the beginning of its range to its end. -/
theorem bytesBefore_nodeAt (B : List Block) : ∀ d o : ℕ,
    bytesBefore B (o * 2 ^ d) + (nodeAt hs B d o).size = bytesBefore B ((o + 1) * 2 ^ d)
  | 0, o => by
    rw [pow_zero, Nat.mul_one, Nat.mul_one, bytesBefore_add, List.take_one, List.head?_drop]
    show _ + (B.getD o []).length = _
    rw [List.getD_eq_getElem?_getD]
    cases B[o]? <;> rfl
  | d + 1, o => by
    have hleft := bytesBefore_nodeAt B d (2 * o)
    have hright := bytesBefore_nodeAt B d (2 * o + 1)
    rw [← hleft, Nat.add_assoc] at hright
    obtain ⟨hstart, -, hend⟩ := Flat.child_ends d o
    rw [← hstart, ← hend]
    exact hright

variable (hs) in
theorem bytesBefore_nodeOf (B : List Block) (i : ℕ) :
    bytesBefore B (Flat.blockRange i).1 + (nodeOf hs B i).size =
      bytesBefore B (Flat.blockRange i).2 := by
  obtain ⟨d, o, rfl⟩ := Flat.exists_index i
  rw [nodeOf_index, Flat.blockRange_index, bytesBefore_nodeAt]

variable (hs) in
theorem bytesBefore_tiles (B : List Block) : ∀ {roots : List ℕ} {a b : ℕ},
    Flat.Tiles a (roots.map Flat.blockRange) b →
    bytesBefore B a + (roots.map fun i => (nodeOf hs B i).size).sum = bytesBefore B b
  | [], _, _, rfl => rfl
  | i :: roots, _, _, ⟨rfl, _, h⟩ => by
    rw [List.map_cons, List.sum_cons, ← Nat.add_assoc, bytesBefore_nodeOf, bytesBefore_tiles B h]

/-- The roots account for every block. -/
theorem Built.byteLength (h : Built hs B T) : T.byteLength = some (byteSize B) := by
  have hsum := bytesBefore_tiles hs B (Flat.fullRoots_tiles B.length)
  rw [bytesBefore_zero, Nat.zero_add, bytesBefore_length] at hsum
  rw [MerkleTree.byteLength, h.roots, Option.map_some, rootsOf, List.map_map]
  exact congrArg some hsum

end Merkle
end HypercoreRs
