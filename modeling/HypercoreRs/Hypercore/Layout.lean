/-
# What a log keeps in its store

A log's blocks lie in a byte store under their numbers; its tree, its presence map and
its metadata lie under the last keys of the 64 bits, in the layouts of `encode_meta`,
`MerkleTree::serialize` and `Bitfield::serialize`. `Hypercore.backend` and
`Replica.backend` read and write a typed store through these layouts, and keep its
contract if the byte store keeps its own (`Backend.ofStore_lawful`).

The counters of the source are of 64 bits. A value with a number that does not fit them
is not written: the arithmetic that made it has panicked before. The presence map is the
set of its bits, which is all that a `Bitfield` is searched for and all it writes
(`Bitfield.firstUnset_congr`, `Bitfield.serialize_congr`).

`openFrom` reopens a log from whatever bytes lie under the three keys. Where computing
the root hash of the tree it read panics, so does it.
-/
import HypercoreRs.Hypercore.Replica
import HypercoreRs.Merkle.Layout
import HypercoreRs.Storage.Bitfield
import HypercoreRs.Storage.Store

namespace HypercoreRs

open Std Merkle Command Storage

/-- Fork, signed head and prologue. -/
def KEY_META : ℕ := 2 ^ 64 - 1

def KEY_TREE : ℕ := 2 ^ 64 - 2

def KEY_PRESENCE : ℕ := 2 ^ 64 - 3

def KEY_USERDATA : ℕ := 2 ^ 64 - 4

/-! ### The metadata -/

/-- Hashes and signatures as bytes. In the source they are arrays of 32 and 64 bytes
(`Wire.bits`); what is used of them is that they are read back. -/
structure Wire (H Sig : Type) where
  hash : Coded H
  sig : Coded Sig

section Tagged

variable {α : Type}

/-- An optional section: the tag 0 for none, 1 before what is there. -/
def tagged (bytes : α → List UInt8) : Option α → List UInt8
  | none => [0]
  | some a => 1 :: bytes a

def readTagged (read : List UInt8 → Option (α × List UInt8)) :
    List UInt8 → Option (Option α × List UInt8)
  | [] => none
  | tag :: rest =>
    if tag = 0 then some (none, rest)
    else if tag = 1 then (read rest).map fun (a, rest) => (some a, rest)
    else none

theorem reads_readTagged {read : List UInt8 → Option (α × List UInt8)} {bytes : α → List UInt8}
    {a : Option α} (h : ∀ x, a = some x → Reads read (bytes x) x) :
    Reads (readTagged read) (tagged bytes a) a := by
  intro rest
  cases a with
  | none => rfl
  | some x =>
    rw [tagged, List.cons_append, readTagged, if_neg (by decide), if_pos rfl, h x rfl rest]
    rfl

end Tagged

variable {K H Sig SK S E : Type} (w : Wire H Sig)

def headBytes (h : SignedHead H Sig) : List UInt8 :=
  leBytes 8 h.fork ++ (leBytes 8 h.length ++ (w.hash.toBytes h.root ++ w.sig.toBytes h.sig))

def readHead (bytes : List UInt8) : Option (SignedHead H Sig × List UInt8) := do
  let (fork, rest) ← readU64 bytes
  let (length, rest) ← readU64 rest
  let (root, rest) ← w.hash.read rest
  let (sig, rest) ← w.sig.read rest
  return (⟨fork, length, root, sig⟩, rest)

def SignedHead.fits (h : SignedHead H Sig) : Bool := h.fork < 2 ^ 64 && h.length < 2 ^ 64

def prologueBytes (p : Prologue H) : List UInt8 := leBytes 8 p.length ++ w.hash.toBytes p.hash

def readPrologue (bytes : List UInt8) : Option (Prologue H × List UInt8) := do
  let (length, rest) ← readU64 bytes
  let (hash, rest) ← w.hash.read rest
  return (⟨length, hash⟩, rest)

/-- `encode_meta_parts`: the fork, then the head and the prologue under their tags. -/
def encodeMeta (fork : ℕ) (head : Option (SignedHead H Sig)) (prologue : Option (Prologue H)) :
    List UInt8 :=
  leBytes 8 fork ++ (tagged (headBytes w) head ++ tagged (prologueBytes w) prologue)

/-- `none` on a malformed or truncated buffer, trailing bytes included. -/
def decodeMeta (bytes : List UInt8) :
    Option (ℕ × Option (SignedHead H Sig) × Option (Prologue H)) := do
  let (fork, rest) ← readU64 bytes
  let (head, rest) ← readTagged (readHead w) rest
  let (prologue, rest) ← readTagged (readPrologue w) rest
  if rest = [] then some (fork, head, prologue) else none

def encodeReplicaMeta (head : Option (SignedHead H Sig)) : List UInt8 := tagged (headBytes w) head

/-- `none` on a malformed buffer. What follows the head is not looked at. -/
def decodeReplicaMeta (bytes : List UInt8) : Option (Option (SignedHead H Sig)) :=
  (readTagged (readHead w) bytes).map Prod.fst

variable {w}

theorem reads_readHead {h : SignedHead H Sig} (hfits : h.fits = true) :
    Reads (readHead w) (headBytes w h) h := by
  simp only [SignedHead.fits, Bool.and_eq_true, decide_eq_true_eq] at hfits
  intro rest
  rw [readHead, headBytes, List.append_assoc, (reads_readU64 hfits.1).bind]
  dsimp only
  rw [List.append_assoc, (reads_readU64 hfits.2).bind]
  dsimp only
  rw [List.append_assoc, (w.hash.reads h.root).bind]
  dsimp only
  rw [(w.sig.reads h.sig).bind]
  rfl

theorem reads_readPrologue {p : Prologue H} (hfits : p.length < 2 ^ 64) :
    Reads (readPrologue w) (prologueBytes w p) p := by
  intro rest
  rw [readPrologue, prologueBytes, List.append_assoc, (reads_readU64 hfits).bind]
  dsimp only
  rw [(w.hash.reads p.hash).bind]
  rfl

variable {head : Option (SignedHead H Sig)}

theorem decodeMeta_encodeMeta {fork : ℕ} {prologue : Option (Prologue H)} (hfork : fork < 2 ^ 64)
    (hhead : ∀ h, head = some h → h.fits = true) (hprologue : ∀ p, prologue = some p → p.length < 2 ^ 64) :
    decodeMeta w (encodeMeta w fork head prologue) = some (fork, head, prologue) := by
  rw [decodeMeta, encodeMeta, (reads_readU64 hfork).bind]
  dsimp only
  rw [(reads_readTagged fun h hh => reads_readHead (hhead h hh)).bind]
  dsimp only
  rw [(reads_readTagged fun p hp => reads_readPrologue (hprologue p hp)).bind_nil]
  dsimp only
  rw [if_pos rfl]

theorem decodeReplicaMeta_encode (hhead : ∀ h, head = some h → h.fits = true) :
    decodeReplicaMeta w (encodeReplicaMeta w head) = some head := by
  have hread := (reads_readTagged fun h hh => reads_readHead (w := w) (hhead h hh)) []
  rw [List.append_nil] at hread
  rw [decodeReplicaMeta, encodeReplicaMeta, hread, Option.map_some]

/-- A replica takes the metadata of a writer as `headOf` does, unless the fork's first byte is 1. -/
theorem decodeReplicaMeta_encodeMeta {fork : ℕ} {prologue : Option (Prologue H)} (hfork : fork % 256 ≠ 1) :
    decodeReplicaMeta w (encodeMeta w fork head prologue) = Replica.headOf (.core fork head prologue) := by
  have hbyte : (UInt8.ofNat (fork % 256)).toNat = fork % 256 := by simp
  have htag : UInt8.ofNat (fork % 256) = 0 ↔ fork % 256 = 0 := by
    rw [← UInt8.toNat_inj, hbyte]
    rfl
  have hone : UInt8.ofNat (fork % 256) ≠ 1 := fun h => hfork (hbyte.symm.trans (congrArg UInt8.toNat h))
  rw [decodeReplicaMeta, encodeMeta, leBytes, List.cons_append, readTagged, Replica.headOf]
  simp only [htag, if_neg hone]
  split_ifs <;> rfl

/-- The numbers of a log's metadata are of 64 bits. -/
def metadataFits : Metadata H Sig → Bool
  | .core fork head prologue => fork < 2 ^ 64 && head.all (·.fits) &&
      prologue.all (·.length < 2 ^ 64)
  | .replica head => head.all (·.fits)

variable (w)

/-- The metadata of a writer. -/
def coreMetadata : Layout (Metadata H Sig) where
  write
    | .core fork head prologue =>
      if metadataFits (.core fork head prologue) then some (encodeMeta w fork head prologue) else none
    | .replica _ => none
  read bytes := (decodeMeta w bytes).map fun (fork, head, prologue) => .core fork head prologue
  read_write := by
    intro m bytes h
    cases m with
    | replica head => cases h
    | core fork head prologue =>
      dsimp only at h
      split_ifs at h with hfits
      obtain rfl := Option.some.inj h
      simp only [metadataFits, Bool.and_eq_true, decide_eq_true_eq, Option.all_eq_true] at hfits
      rw [decodeMeta_encodeMeta hfits.1.1 hfits.1.2 hfits.2, Option.map_some]

/-- The metadata of a replica. -/
def replicaMetadata : Layout (Metadata H Sig) where
  write
    | .core _ _ _ => none
    | .replica head => if metadataFits (.replica head) then some (encodeReplicaMeta w head) else none
  read bytes := (decodeReplicaMeta w bytes).map .replica
  read_write := by
    intro m bytes h
    cases m with
    | core fork head prologue => cases h
    | replica head =>
      dsimp only at h
      split_ifs at h with hfits
      obtain rfl := Option.some.inj h
      simp only [metadataFits, Option.all_eq_true] at hfits
      rw [decodeReplicaMeta_encode hfits, Option.map_some]

/-- The presence map, as the bits of a set. -/
def presenceLayout : Layout (ExtTreeSet ℕ) :=
  .of (fun s => s.toList.all (· < 2 ^ 64)) (fun s => (Bitfield.ofSet s).serialize)
    (fun bytes => (Bitfield.deserialize bytes).map Bitfield.toSet) fun s h => by
      simp only [List.all_eq_true, decide_eq_true_eq, ExtTreeSet.mem_toList] at h
      exact Bitfield.deserialize_ofSet h

/-! ### Typed stores over byte stores -/

/-- Errors of a typed store. `overflow` stands for the panic that a number beyond 64
bits has been before. -/
inductive LayoutError (E : Type) where
  | store (e : E)
  | overflow
  | malformed

/-- The number of a key. A block number is below the reserved keys. -/
def StoreKey.number : StoreKey → Option ℕ
  | .block i => if i < KEY_USERDATA then some i else none
  | .tree => some KEY_TREE
  | .presence => some KEY_PRESENCE
  | .metadata => some KEY_META

theorem StoreKey.number_block {i n : ℕ} (h : (StoreKey.block i).number = some n) :
    i = n ∧ n < KEY_USERDATA := by
  rw [number] at h
  split_ifs at h with hlt
  obtain rfl := Option.some.inj h
  exact ⟨rfl, hlt⟩

theorem StoreKey.number_inj {k k' : StoreKey} {n : ℕ} (h : k.number = some n)
    (h' : k'.number = some n) : k = k' := by
  -- a reserved key is no block number
  have hreserved : ∀ {j i : ℕ}, some j = some n → (StoreKey.block i).number = some n →
      KEY_USERDATA ≤ j → False := by
    intro j i hj hi hle
    have := (number_block hi).2
    rw [← Option.some.inj hj] at this
    omega
  cases k <;> cases k'
  case block.block i j => rw [(number_block h).1, (number_block h').1]
  case block.tree => exact (hreserved h' h (by decide)).elim
  case block.presence => exact (hreserved h' h (by decide)).elim
  case block.metadata => exact (hreserved h' h (by decide)).elim
  case tree.block => exact (hreserved h h' (by decide)).elim
  case presence.block => exact (hreserved h h' (by decide)).elim
  case metadata.block => exact (hreserved h h' (by decide)).elim
  all_goals first | rfl | exact absurd (h.trans h'.symm) (by decide)

/-- How the value of a key is laid out; only the metadata differ. -/
def StoreKey.layout (metadata : Layout (Metadata H Sig)) : (k : StoreKey) → Layout (k.Value H Sig)
  | .block _ => .of (fun _ => true) id some fun _ _ => rfl
  | .tree => MerkleTree.layout w.hash
  | .presence => presenceLayout
  | .metadata => metadata

/-- The typed store over a byte store. -/
def Backend.ofStore (st : Store S E) (metadata : Layout (Metadata H Sig)) :
    Backend S (LayoutError E) H Sig where
  put k v :=
    match k.number, (k.layout w metadata).write v with
    | some n, some bytes => zoom id (fun s _ => s) LayoutError.store (st.put n bytes)
    | _, _ => throw .overflow
  get s k :=
    match k.number with
    | none => .ok none
    | some n =>
      match st.get s n with
      | .error e => .error (.store e)
      | .ok none => .ok none
      | .ok (some bytes) =>
        match (k.layout w metadata).read bytes with
        | none => .error .malformed
        | some v => .ok (some v)

namespace Backend

variable {w} {st : Store S E} {metadata : Layout (Metadata H Sig)}

variable (w st metadata) in
/-- A write refuses, or puts the bytes of its value under the number of its key. -/
theorem ofStore_put_cases (k : StoreKey) (v : k.Value H Sig) :
    (ofStore w st metadata).put k v = throw .overflow ∨
      ∃ n bytes, k.number = some n ∧ (k.layout w metadata).write v = some bytes ∧
        (ofStore w st metadata).put k v =
          zoom id (fun s _ => s) LayoutError.store (st.put n bytes) := by
  unfold ofStore
  dsimp only
  cases hn : k.number with
  | none => exact Or.inl rfl
  | some n =>
    cases hbytes : (k.layout w metadata).write v with
    | none => exact Or.inl rfl
    | some bytes => exact Or.inr ⟨n, bytes, rfl, rfl, rfl⟩

variable {k : StoreKey} {v : k.Value H Sig} {s s' : S}

theorem ofStore_put_ok (h : (ofStore w st metadata).put k v s = .ok () s') :
    ∃ n bytes, k.number = some n ∧ (k.layout w metadata).write v = some bytes ∧
      st.put n bytes s = .ok () s' := by
  obtain hthrow | ⟨n, bytes, hn, hbytes, hput⟩ := ofStore_put_cases w st metadata k v
  · rw [hthrow] at h
    cases h
  · refine ⟨n, bytes, hn, hbytes, ?_⟩
    rw [hput] at h
    obtain ⟨t, hst, rfl⟩ := zoom_eq_ok.mp h
    exact hst

/-- Over a store that never fails, only what is beyond 64 bits is refused. -/
theorem ofStore_put_error {e : LayoutError E} (h : (ofStore w st metadata).put k v s = .error e s')
    (hnever : st.NeverFails) : e = .overflow := by
  obtain hthrow | ⟨n, bytes, -, -, hput⟩ := ofStore_put_cases w st metadata k v
  · rw [hthrow] at h
    cases h
    rfl
  · rw [hput] at h
    obtain ⟨s'', hs''⟩ := hnever s n bytes
    simp [zoom, hs''] at h

/-- A write touches the number of its key, if anything. -/
theorem ofStore_put_after (hst : st.Lawful) (k : StoreKey) (v : k.Value H Sig) (s : S) {n : ℕ}
    (hn : k.number ≠ some n) : st.get (after ((ofStore w st metadata).put k v) s) n = st.get s n := by
  obtain hthrow | ⟨m, bytes, hm, -, hput⟩ := ofStore_put_cases w st metadata k v
  · rw [hthrow]
    rfl
  · have hne : n ≠ m := fun h => hn (h ▸ hm)
    rw [← hst.put_other s m bytes n hne, hput]
    unfold after zoom
    rw [id]
    cases st.put m bytes s <;> rfl

/-- A value is read where its bytes are. -/
theorem ofStore_get_eq_some {s : S} :
    (ofStore w st metadata).get s k = .ok (some v) ↔ ∃ n bytes, k.number = some n ∧
      st.get s n = .ok (some bytes) ∧ (k.layout w metadata).read bytes = some v := by
  unfold ofStore
  dsimp only
  cases hn : k.number with
  | none => simp
  | some n =>
    cases hget : st.get s n with
    | error e => simp [hget]
    | ok bytes? =>
      cases bytes? with
      | none => simp [hget]
      | some bytes =>
        dsimp only
        cases hread : (k.layout w metadata).read bytes with
        | none => simp [hget, hread]
        | some v' => simp [hget, hread]

/-- The bytes a value was read from. -/
theorem bytes_of_get {s : S} {n : ℕ} (h : (ofStore w st metadata).get s k = .ok (some v))
    (hn : k.number = some n) :
    ∃ bytes, st.get s n = .ok (some bytes) ∧ (k.layout w metadata).read bytes = some v := by
  obtain ⟨m, bytes, hm, hget, hread⟩ := ofStore_get_eq_some.mp h
  obtain rfl := Option.some.inj (hn.symm.trans hm)
  exact ⟨bytes, hget, hread⟩

/-- What a key reads as depends on its number only. -/
theorem ofStore_get_congr (h : ∀ n, k.number = some n → st.get s' n = st.get s n) :
    (ofStore w st metadata).get s' k = (ofStore w st metadata).get s k := by
  unfold ofStore
  dsimp only
  cases hn : k.number with
  | none => rfl
  | some n =>
    dsimp only
    rw [h n hn]

theorem ofStore_lawful (hst : st.Lawful) : (ofStore w st metadata).Lawful where
  get_put s k v s' h := by
    obtain ⟨n, bytes, hn, hbytes, hput⟩ := ofStore_put_ok h
    exact ofStore_get_eq_some.mpr
      ⟨n, bytes, hn, hst.get_put s n bytes s' hput, (k.layout w metadata).read_write hbytes⟩
  get_other s k v k' hk := by
    apply ofStore_get_congr
    intro n hn
    exact ofStore_put_after hst k v s fun hkn => hk (StoreKey.number_inj hn hkn)

end Backend

/-! ### Reopening from bytes -/

/-- The root hash as the source computes it: `none` where it panics, for a missing root
or for a length whose flat index leaves 64 bits. -/
def Merkle.MerkleTree.rootHash64 (hs : Hasher H) (T : MerkleTree H) : Option H :=
  if T.length * 2 < 2 ^ 64 then T.rootHash hs else none

section Open

variable [DecidableEq H] (c : Crypto K H Sig SK) (st : Store S E)

/-- What is under a reserved key. -/
def storedBytes (store : S) (key : ℕ) : Except (CoreError (LayoutError E)) (Option (List UInt8)) :=
  match st.get store key with
  | .error e => .error (.storage (.store e))
  | .ok bytes => .ok bytes

namespace Hypercore

/-- The typed store of a writer. -/
def backend : Backend S (LayoutError E) H Sig := Backend.ofStore w st (coreMetadata w)

/-- `verify_head` with its panic: `none` where the root hash has none. The checks are made
from left to right. -/
def checkHead (core : Hypercore H Sig SK S) : Option Bool :=
  match core.head with
  | none => some (core.tree.length == 0)
  | some h =>
    if h.fork = core.fork ∧ h.length = core.len then
      (core.tree.rootHash64 c.hasher).map fun root =>
        h.root == root && verifySignedHead c (core.publicKey c) h
    else some false

/-- A read log, if its head checks. -/
def checked (core : Hypercore H Sig SK S) :
    Except (CoreError (LayoutError E)) (Hypercore H Sig SK S) :=
  match core.checkHead c with
  | none => .error .panicked
  | some false => .error .corrupt
  | some true => .ok core

/-- Reopen a persisted log from the bytes under its three keys. -/
def openFrom (author : SK) (store : S) :
    Except (CoreError (LayoutError E)) (Hypercore H Sig SK S) := do
  let metadata ← storedBytes st store KEY_META
  let tree ← storedBytes st store KEY_TREE
  let presence ← storedBytes st store KEY_PRESENCE
  match metadata, tree, presence with
  | some metadata, some tree, some presence =>
    match MerkleTree.deserialize w.hash tree, Bitfield.deserialize presence, decodeMeta w metadata with
    | some tree, some presence, some (fork, head, prologue) =>
      checked c { author, store, tree, presence := presence.toSet, head, fork, prologue }
    | _, _, _ => .error .corrupt
  | _, _, _ => .error .notPersisted

variable {w st}

/-- A log whose parts are read is reopened from them, if its head checks. -/
theorem openFrom_of_get {author : SK} {store : S} {fork : ℕ} {head : Option (SignedHead H Sig)}
    {prologue : Option (Prologue H)} {tree : MerkleTree H} {presence : ExtTreeSet ℕ}
    (hmeta : (backend w st).get store .metadata = .ok (some (.core fork head prologue)))
    (htree : (backend w st).get store .tree = .ok (some tree))
    (hpresence : (backend w st).get store .presence = .ok (some presence)) :
    openFrom w c st author store =
      checked c { author, store, tree, presence, head, fork, prologue } := by
  obtain ⟨m, hm, hmread⟩ := Backend.bytes_of_get hmeta rfl
  obtain ⟨t, ht, htread⟩ := Backend.bytes_of_get htree rfl
  obtain ⟨p, hp, hpread⟩ := Backend.bytes_of_get hpresence rfl
  obtain ⟨⟨_, _, _⟩, hdecode, hcore⟩ := Option.map_eq_some_iff.mp hmread
  obtain ⟨rfl, rfl, rfl⟩ := Metadata.core.inj hcore
  obtain ⟨field, hfield, rfl⟩ := Option.map_eq_some_iff.mp hpread
  have hdeserialize : MerkleTree.deserialize w.hash t = some tree := htread
  unfold openFrom storedBytes
  rw [hm, ht, hp]
  dsimp only [bind, Except.bind]
  rw [hdeserialize, hfield, hdecode]

end Hypercore

namespace Replica

/-- The typed store of a replica. -/
def backend : Backend S (LayoutError E) H Sig := Backend.ofStore w st (replicaMetadata w)

/-- The check of a persisted head, with its panic. The checks are made from left to right. -/
def checkHead (r : Replica K H Sig S) : Option Bool :=
  match r.head with
  | none => some true
  | some h =>
    if verifySignedHead c r.publicKey h = true ∧ r.tree.length = h.length then
      (r.tree.rootHash64 c.hasher).map fun root => root == h.root
    else some false

def checked (r : Replica K H Sig S) : Except (CoreError (LayoutError E)) (Replica K H Sig S) :=
  match r.checkHead c with
  | none => .error .panicked
  | some false => .error .corrupt
  | some true => .ok r

/-- Reopen a persisted replica from the bytes under its two keys. -/
def openFrom (publicKey : K) (store : S) :
    Except (CoreError (LayoutError E)) (Replica K H Sig S) := do
  let tree ← storedBytes st store KEY_TREE
  let metadata ← storedBytes st store KEY_META
  match tree, metadata with
  | some tree, some metadata =>
    match MerkleTree.deserialize w.hash tree, decodeReplicaMeta w metadata with
    | some tree, some head => checked c { publicKey, store, tree := atHead tree head, head }
    | _, _ => .error .corrupt
  | _, _ => .error .notPersisted

end Replica

end Open

/-! ### Hashes and signatures of the right width -/

/-- Sums in place of hashes, and the sum of a message in place of its signature: what the
layouts assume of hashes and signatures can be met by things that compute. -/
def Crypto.sums : Crypto Unit (BitVec 256) (BitVec 512) Unit where
  hasher :=
    { leafHash := fun data => BitVec.ofNat 256 (leNat data)
      parent := fun l m r n => 3 * l + BitVec.ofNat 256 m + 5 * r + BitVec.ofNat 256 n
      treeHash := fun roots => roots.foldl (fun sum n => 7 * sum + n.hash) 1 }
  validKey _ := true
  publicOf _ := ()
  sign _ m := BitVec.ofNat 512 (m.fork + 2 * m.length + 3 * m.root.toNat)
  verify _ m sig := sig == BitVec.ofNat 512 (m.fork + 2 * m.length + 3 * m.root.toNat)
  verify_sign _ _ := beq_self_eq_true _

def Wire.bits : Wire (BitVec 256) (BitVec 512) := ⟨Coded.bits 32, Coded.bits 64⟩

end HypercoreRs
