/-
# Symbolic hashes and signatures, and a store in memory

What the logs assume of hashes, signatures and stores can be met by things that
compute. A `Digest` is the term that was hashed, so no two inputs collide; a
symbolic signature is the key and the message it is over; `Backend.memory` is the
in-memory store, whose writes never fail.
-/
import HypercoreRs.Hypercore.Replica
import Mathlib.Tactic.DeriveCountable

namespace HypercoreRs

open Std Merkle

/-- A hash, as the term it is the hash of. -/
inductive Digest where
  | leaf (data : List UInt8)
  | parent (left : Digest) (leftSize : ℕ) (right : Digest) (rightSize : ℕ)
  | noRoots
  | roots (index : ℕ) (hash : Digest) (size : ℕ) (rest : Digest)
deriving DecidableEq, Countable

deriving instance Countable for HeadMessage

/-- The term of a list of roots. -/
def Digest.ofRoots : List (Node Digest) → Digest
  | [] => .noRoots
  | n :: rest => .roots n.index n.hash n.size (ofRoots rest)

theorem Digest.ofRoots_inj : ∀ {a b : List (Node Digest)}, ofRoots a = ofRoots b → a = b
  | [], [], _ => rfl
  | ⟨i, x, n⟩ :: a, ⟨j, y, m⟩ :: b, h => by
    obtain ⟨rfl, rfl, rfl, hrest⟩ := Digest.roots.inj h
    rw [ofRoots_inj hrest]

def Merkle.Hasher.symbolic : Hasher Digest := ⟨.leaf, .parent, .ofRoots⟩

theorem Merkle.Hasher.symbolic_ideal : Hasher.symbolic.Ideal :=
  ⟨Digest.leaf.inj, Digest.parent.inj, Digest.ofRoots_inj⟩

/-- Signatures as the key and the message they are over. -/
def Crypto.symbolic {K SK : Type} [DecidableEq K] (publicOf : SK → K) :
    Crypto K Digest (K × HeadMessage Digest) SK where
  hasher := .symbolic
  validKey _ := true
  publicOf := publicOf
  sign sk m := (publicOf sk, m)
  verify pk m sig := sig = (pk, m)
  verify_sign _ _ := decide_eq_true rfl

/-- A store in memory. -/
structure MemoryStore (H Sig : Type) where
  blocks : ExtTreeMap ℕ Block
  tree : Option (MerkleTree H)
  presence : Option (ExtTreeSet ℕ)
  metadata : Option (Metadata H Sig)

namespace MemoryStore

variable {H Sig : Type}

def new : MemoryStore H Sig := ⟨∅, none, none, none⟩

def put : (k : StoreKey) → k.Value H Sig → MemoryStore H Sig → MemoryStore H Sig
  | .block i, bytes, s => { s with blocks := s.blocks.insert i bytes }
  | .tree, t, s => { s with tree := some t }
  | .presence, p, s => { s with presence := some p }
  | .metadata, m, s => { s with metadata := some m }

def get (s : MemoryStore H Sig) : (k : StoreKey) → Option (k.Value H Sig)
  | .block i => s.blocks[i]?
  | .tree => s.tree
  | .presence => s.presence
  | .metadata => s.metadata

theorem get_put (s : MemoryStore H Sig) : ∀ (k : StoreKey) (v : k.Value H Sig),
    (s.put k v).get k = some v
  | .block i, bytes => by
    show (s.blocks.insert i bytes)[i]? = some bytes
    rw [Graph.getElem?_insert, if_pos rfl]
  | .tree, _ => rfl
  | .presence, _ => rfl
  | .metadata, _ => rfl

theorem get_other (s : MemoryStore H Sig) : ∀ (k : StoreKey) (v : k.Value H Sig) (k' : StoreKey),
    k' ≠ k → (s.put k v).get k' = s.get k'
  | .block i, bytes, .block j, h => by
    show (s.blocks.insert i bytes)[j]? = s.blocks[j]?
    rw [Graph.getElem?_insert, if_neg fun hj => h (congrArg _ hj)]
  | .tree, _, .tree, h => absurd rfl h
  | .presence, _, .presence, h => absurd rfl h
  | .metadata, _, .metadata, h => absurd rfl h
  | .block _, _, .tree, _ => rfl
  | .block _, _, .presence, _ => rfl
  | .block _, _, .metadata, _ => rfl
  | .tree, _, .block _, _ => rfl
  | .tree, _, .presence, _ => rfl
  | .tree, _, .metadata, _ => rfl
  | .presence, _, .block _, _ => rfl
  | .presence, _, .tree, _ => rfl
  | .presence, _, .metadata, _ => rfl
  | .metadata, _, .block _, _ => rfl
  | .metadata, _, .tree, _ => rfl
  | .metadata, _, .presence, _ => rfl

end MemoryStore

/-- The in-memory store as a backend: no operation fails. -/
def Backend.memory (H Sig : Type) : Backend (MemoryStore H Sig) Empty H Sig where
  put k v s := .ok () (s.put k v)
  get s k := .ok (s.get k)

theorem Backend.memory_lawful {H Sig : Type} : (Backend.memory H Sig).Lawful where
  get_put s k v s' h := by
    obtain rfl : s.put k v = s' := by
      cases h
      rfl
    exact congrArg Except.ok (s.get_put k v)
  get_other s k v k' h := congrArg Except.ok (s.get_other k v k' h)

end HypercoreRs
