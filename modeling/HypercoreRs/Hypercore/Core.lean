/-
# Signed logs

`Hypercore` is one writer's log: its blocks in a byte store, a Merkle tree over
them, and a head (fork, length, root) that the writer signs after every append.
`append`, `recoverSignedSuffix` and `persist` write to a store that may fail at
any `put`, and what was written before the failure stays written.

Signatures and the store are parameters. `Crypto` holds the Merkle hashes and the
signature scheme, with the one law that what a secret key signs verifies under its
public key. `Backend` is a store; `Backend.Lawful` is its contract: a value put
successfully is read back, and no `put`, failed or not, touches another key.

What the log's methods can do to it is `Hypercore.Move`, one constructor for each
kind of change. `Hypercore.Intact` says the log is as its own methods make it: the
tree is the tree of the blocks, each block is present and readable, and the head is
signed over all of them. Every move keeps it (`Intact.move`).
-/
import HypercoreRs.Merkle.Inclusion
import HypercoreRs.Command.Within
import HypercoreRs.Codec.Varint

namespace HypercoreRs

open Std Merkle Command

/-! ### Heads and signatures -/

/-- What a writer signs: the domain tag and the layout of the bytes are left out. -/
structure HeadMessage (H : Type) where
  fork : ℕ
  length : ℕ
  root : H
deriving DecidableEq

/-- The author's signature over a tree head. -/
structure SignedHead (H Sig : Type) where
  fork : ℕ
  length : ℕ
  root : H
  sig : Sig
deriving DecidableEq

/-- The message a head's signature is over. -/
def SignedHead.message {H Sig : Type} (head : SignedHead H Sig) : HeadMessage H :=
  ⟨head.fork, head.length, head.root⟩

/-- The hashes and the signature scheme. A public key is its wire form `K`, of
which some are no key (`validKey`). -/
structure Crypto (K H Sig SK : Type) where
  hasher : Hasher H
  validKey : K → Bool
  publicOf : SK → K
  sign : SK → HeadMessage H → Sig
  verify : K → HeadMessage H → Sig → Bool
  verify_sign : ∀ sk m, verify (publicOf sk) m (sign sk m) = true

section Verify

variable {K H Sig SK : Type} [DecidableEq H] (c : Crypto K H Sig SK)

/-- Authenticate a head without accepting any blocks. -/
def verifySignedHead (publicKey : K) (head : SignedHead H Sig) : Bool :=
  c.verify publicKey head.message head.sig

/-- `data` is the block at `index` of the log owned by `publicKey`. -/
def verifyBlock (publicKey : K) (head : SignedHead H Sig) (index : ℕ) (data : Block)
    (proof : Merkle.Proof H) : Bool :=
  verifySignedHead c publicKey head && proof.block == index && proof.verify c.hasher data head.root

/-- A whole feed against its head, the tree recomputed from the blocks. -/
def verifyArchivedFeed (publicKey : K) (head : SignedHead H Sig) (blocks : List Block) : Bool :=
  let tree := MerkleTree.ofBlocks c.hasher blocks
  head.length == tree.length && tree.rootHash c.hasher == some head.root &&
    verifySignedHead c publicKey head

variable {c}

variable {publicKey : K} {head : SignedHead H Sig}

theorem verifyBlock_iff {index : ℕ} {data : Block} {proof : Merkle.Proof H} :
    verifyBlock c publicKey head index data proof = true ↔
      verifySignedHead c publicKey head = true ∧ proof.block = index ∧
        proof.verify c.hasher data head.root = true := by
  rw [verifyBlock, Bool.and_eq_true, Bool.and_eq_true, beq_iff_eq, and_assoc]

theorem verifyArchivedFeed_iff {blocks : List Block} :
    verifyArchivedFeed c publicKey head blocks = true ↔ head.length = blocks.length ∧
      head.root = c.hasher.treeHash (rootsOf c.hasher blocks) ∧
      verifySignedHead c publicKey head = true := by
  have hbuilt := built_ofBlocks c.hasher blocks
  rw [verifyArchivedFeed, Bool.and_eq_true, Bool.and_eq_true, beq_iff_eq, beq_iff_eq,
    hbuilt.rootHash, hbuilt.length_eq, Option.some.injEq, and_assoc, eq_comm (a := head.root)]

end Verify

/-! ### The store -/

/-- A commitment binding a log to a prefix of another. -/
structure Prologue (H : Type) where
  length : ℕ
  hash : H

/-- The metadata a log persists: a writer's, or a replica's. -/
inductive Metadata (H Sig : Type) where
  | core (fork : ℕ) (head : Option (SignedHead H Sig)) (prologue : Option (Prologue H))
  | replica (head : Option (SignedHead H Sig))

/-- The keys of a writer's store. The reserved ones are the last of the 64-bit
keys, which no block index reaches. -/
inductive StoreKey where
  | block (index : ℕ)
  | tree
  | presence
  | metadata
deriving DecidableEq

/-- What is stored under a key, as the reader of that key decodes it. -/
abbrev StoreKey.Value (H Sig : Type) : StoreKey → Type
  | block _ => Block
  | tree => MerkleTree H
  | presence => ExtTreeSet ℕ
  | metadata => Metadata H Sig

/-- A keyed store whose operations may fail. -/
structure Backend (S E H Sig : Type) where
  put : (k : StoreKey) → k.Value H Sig → EStateM E S Unit
  get : S → (k : StoreKey) → Except E (Option (k.Value H Sig))

/-- The contract of a backend. -/
structure Backend.Lawful {S E H Sig : Type} (b : Backend S E H Sig) : Prop where
  get_put : ∀ s k v s', b.put k v s = .ok () s' → b.get s' k = .ok (some v)
  get_other : ∀ s k v k', k' ≠ k → b.get (after (b.put k v) s) k' = b.get s k'

/-- Errors of a log. `panicked` stands for a panic of the source. -/
inductive CoreError (E : Type) where
  | storage (e : E)
  | codec (e : CodecError)
  | corrupt
  | notPersisted
  | noPrologue
  | prologueMismatch
  | panicked

namespace Backend

variable {S E H Sig : Type} (b : Backend S E H Sig)

/-- One `put` after another, up to the first that fails. -/
def putAll : List (Σ k : StoreKey, k.Value H Sig) → EStateM E S Unit
  | [] => pure ()
  | ⟨k, v⟩ :: rest => do
    b.put k v
    putAll rest

def getBlock (s : S) (index : ℕ) : Except E (Option Block) := b.get s (.block index)

/-- The blocks below `n` read in `s'` as they did in `s`. -/
def Keeps (n : ℕ) (s s' : S) : Prop := ∀ i < n, b.getBlock s' i = b.getBlock s i

/-- The blocks of `B` are stored under their numbers. -/
def Readable (s : S) (B : List Block) : Prop :=
  ∀ (i : ℕ) (data : Block), B[i]? = some data → b.getBlock s i = .ok (some data)

variable {b}

theorem Lawful.put (hb : b.Lawful) (k : StoreKey) (v : k.Value H Sig) (s : S) :
    Within (fun s s' => ∀ k', k' ≠ k → b.get s' k' = b.get s k') (b.put k v) s
      fun _ s' => b.get s' k = .ok (some v) := by
  have hother := hb.get_other s k v
  unfold after at hother
  unfold Within
  cases hput : b.put k v s with
  | ok u s' =>
    rw [hput] at hother
    exact ⟨hother, hb.get_put s k v s' hput⟩
  | error e s' =>
    rw [hput] at hother
    exact hother

/-- A row of writes touches its own keys only; when all succeed and the keys are
distinct, each value is there. -/
theorem Lawful.putAll (hb : b.Lawful) : ∀ (l : List (Σ k : StoreKey, k.Value H Sig)) (s : S),
    Within (fun s s' => ∀ k, (∀ p ∈ l, p.1 ≠ k) → b.get s' k = b.get s k) (b.putAll l) s
      fun _ s' => (l.map (·.1)).Nodup → ∀ p ∈ l, b.get s' p.1 = .ok (some p.2)
  | [], s => ⟨fun _ _ => rfl, fun _ p hp => absurd hp List.not_mem_nil⟩
  | ⟨k, v⟩ :: rest, s => by
    rw [Backend.putAll]
    apply Within.bind (Q := fun _ s' => b.get s' k = .ok (some v))
    · intro s₁ s₂ s₃ h₁ h₂ k' hk'
      rw [h₂ k' hk', h₁ k' hk']
    · refine (hb.put k v s).mono (fun s' h k' hk' => ?_) fun _ _ _ h => h
      exact h k' (hk' ⟨k, v⟩ List.mem_cons_self).symm
    · intro _ s' _ hget
      refine (hb.putAll rest s').mono (fun s'' h k' hk' => ?_) fun _ s'' h hrest hnodup p hp => ?_
      · exact h k' fun p hp => hk' p (List.mem_cons_of_mem _ hp)
      · rw [List.map_cons, List.nodup_cons] at hnodup
        obtain rfl | hp := List.mem_cons.mp hp
        · -- no later write of the row is to `k`
          rw [h k fun q hq hqk => hnodup.1 (List.mem_map.mpr ⟨q, hq, hqk⟩)]
          exact hget
        · exact hrest hnodup.2 p hp

theorem Keeps.refl (n : ℕ) (s : S) : b.Keeps n s s := fun _ _ => rfl

theorem Readable.keeps {s s' : S} {B : List Block} (h : b.Readable s B)
    (hk : b.Keeps B.length s s') : b.Readable s' B := by
  intro i data hi
  rw [hk i (List.getElem?_eq_some_iff.mp hi).1]
  exact h i data hi

/-- The stored blocks go on where `B` ends. -/
theorem Readable.append {s s' : S} {B more : List Block} (h : b.Readable s B)
    (hk : b.Keeps B.length s s') (hmore : ∀ (i : ℕ) (data : Block), more[i]? = some data →
      b.getBlock s' (B.length + i) = .ok (some data)) : b.Readable s' (B ++ more) := by
  intro i data hi
  by_cases hlt : i < B.length
  · rw [List.getElem?_append_left hlt] at hi
    exact h.keeps hk i data hi
  · rw [List.getElem?_append_right (by omega)] at hi
    have := hmore (i - B.length) data hi
    rwa [show B.length + (i - B.length) = i by omega] at this

end Backend

/-! ### The log -/

/-- A typed, signed, append-only log. -/
structure Hypercore (H Sig SK S : Type) where
  author : SK
  store : S
  tree : MerkleTree H
  /-- The blocks whose bytes are in the store. -/
  presence : ExtTreeSet ℕ
  head : Option (SignedHead H Sig)
  fork : ℕ
  prologue : Option (Prologue H)

namespace Hypercore

variable {K H Sig SK S E T : Type} [DecidableEq H]
variable (c : Crypto K H Sig SK) (b : Backend S E H Sig) (codec : Codec T)

/-- A fresh, empty log written by `author`. -/
def new (author : SK) (store : S) : Hypercore H Sig SK S :=
  { author, store, tree := .new, presence := ∅, head := none, fork := 0, prologue := none }

def publicKey (core : Hypercore H Sig SK S) : K := c.publicOf core.author

def len (core : Hypercore H Sig SK S) : ℕ := core.tree.length

def has (core : Hypercore H Sig SK S) (index : ℕ) : Bool :=
  index < core.len && core.presence.contains index

/-- The stored bytes of a block, or `none` if out of range or absent. -/
def block (core : Hypercore H Sig SK S) (index : ℕ) : Except (CoreError E) (Option Block) :=
  if core.has index then
    match b.getBlock core.store index with
    | .error e => .error (.storage e)
    | .ok none => .error .corrupt
    | .ok (some bytes) => .ok (some bytes)
  else .ok none

/-- The value at `index`, or `none` if out of range or absent. -/
def get (core : Hypercore H Sig SK S) (index : ℕ) : Except (CoreError E) (Option T) :=
  match core.block b index with
  | .error e => .error e
  | .ok none => .ok none
  | .ok (some bytes) =>
    match codec.decode bytes with
    | .error e => .error (.codec e)
    | .ok value => .ok (some value)

def proof (core : Hypercore H Sig SK S) (index : ℕ) : Option (Merkle.Proof H) :=
  core.tree.proof index

/-- Re-sign the current tree head; `none` where computing the root panics. -/
def resign (core : Hypercore H Sig SK S) : Option (Hypercore H Sig SK S) :=
  (core.tree.rootHash c.hasher).map fun root =>
    { core with head := some ⟨core.fork, core.len, root, c.sign core.author ⟨core.fork, core.len, root⟩⟩ }

/-- The writes of `l`, on the log's store. -/
def write (l : List (Σ k : StoreKey, k.Value H Sig)) :
    EStateM (CoreError E) (Hypercore H Sig SK S) Unit :=
  zoom (·.store) (fun s core => { core with store := s }) CoreError.storage (b.putAll l)

/-- Append a value; returns its block index. -/
def append (value : T) : EStateM (CoreError E) (Hypercore H Sig SK S) ℕ := do
  let bytes : Block := codec.encode value
  let index := (← MonadState.get).len
  write b [⟨.block index, bytes⟩]
  let core ← MonadState.get
  match resign c { core with tree := (core.tree.append c.hasher bytes).1
                             presence := core.presence.insert index } with
  | some signed =>
    set signed
    return index
  | none => throw .panicked

/-- Block `index`, which must be there. -/
def blockOrCorrupt (core : Hypercore H Sig SK S) (index : ℕ) : Except (CoreError E) Block :=
  match core.block b index with
  | .error e => .error e
  | .ok none => .error .corrupt
  | .ok (some bytes) => .ok bytes

/-- The blocks of `suffix` under the numbers from `start` on. -/
def suffixWrites : ℕ → List Block → List (Σ k : StoreKey, k.Value H Sig)
  | _, [] => []
  | start, bytes :: rest => ⟨.block start, bytes⟩ :: suffixWrites (start + 1) rest

/-- Recover an authenticated extension written by this same writer: the log is
promoted only after every write. -/
def recoverSignedSuffix (head : SignedHead H Sig) (suffix : List Block) :
    EStateM (CoreError E) (Hypercore H Sig SK S) Unit := do
  let core ← MonadState.get
  let start := core.len
  if head.fork ≠ core.fork ∨ start + suffix.length ≠ head.length then throw .corrupt
  else
    let stored ← reads id ((List.range start).mapM (core.blockOrCorrupt b))
    let blocks := stored ++ suffix
    if !verifyArchivedFeed c (core.publicKey c) head blocks then throw .corrupt
    else
      let tree := MerkleTree.ofBlocks c.hasher blocks
      let presence : ExtTreeSet ℕ := ExtTreeSet.ofList (List.range blocks.length)
      write b (suffixWrites start suffix ++ [⟨.tree, tree⟩, ⟨.presence, presence⟩,
        ⟨.metadata, .core core.fork (some head) core.prologue⟩])
      modify fun core => { core with tree, presence, head := some head }

/-- Flush what lives only in memory: the tree, the presence map and the metadata. -/
def persist : EStateM (CoreError E) (Hypercore H Sig SK S) Unit := do
  let core ← MonadState.get
  write b [⟨.tree, core.tree⟩, ⟨.presence, core.presence⟩,
    ⟨.metadata, .core core.fork core.head core.prologue⟩]

/-- Internal consistency and signature of the log's own head. -/
def verifyHead (core : Hypercore H Sig SK S) : Bool :=
  match core.head with
  | none => core.tree.length == 0
  | some h => h.fork == core.fork && h.length == core.len &&
      core.tree.rootHash c.hasher == some h.root && verifySignedHead c (core.publicKey c) h

/-- Reopen a persisted log. Metadata of another kind is malformed here. -/
def openCore (author : SK) (store : S) : Except (CoreError E) (Hypercore H Sig SK S) :=
  match b.get store .metadata, b.get store .tree, b.get store .presence with
  | .error e, _, _ => .error (.storage e)
  | _, .error e, _ => .error (.storage e)
  | _, _, .error e => .error (.storage e)
  | .ok (some m), .ok (some tree), .ok (some presence) =>
    match m with
    | .replica _ => .error .corrupt
    | .core fork head prologue =>
      let core := { author, store, tree, presence, head, fork, prologue }
      if verifyHead c core then .ok core else .error .corrupt
  | _, _, _ => .error .notPersisted

/-! ### What the methods can do -/

/-- `core'` is `core` with `data` appended and the head signed again. -/
def Extends (core : Hypercore H Sig SK S) (data : Block) (core' : Hypercore H Sig SK S) : Prop :=
  ∃ s, b.Keeps core.len core.store s ∧ b.getBlock s core.len = .ok (some data) ∧
    resign c { core with store := s, tree := (core.tree.append c.hasher data).1
                         presence := core.presence.insert core.len } = some core'

/-- `core'` is `core` with an authenticated suffix adopted under `head`. -/
def Adopts (core : Hypercore H Sig SK S) (head : SignedHead H Sig) (suffix : List Block)
    (core' : Hypercore H Sig SK S) : Prop :=
  ∃ s stored, (List.range core.len).mapM (core.blockOrCorrupt b) = .ok stored ∧
    verifyArchivedFeed c (core.publicKey c) head (stored ++ suffix) = true ∧
    b.Keeps core.len core.store s ∧
    (∀ (i : ℕ) (data : Block), suffix[i]? = some data → b.getBlock s (core.len + i) = .ok (some data)) ∧
    core' = { core with store := s, tree := MerkleTree.ofBlocks c.hasher (stored ++ suffix)
                        presence := ExtTreeSet.ofList (List.range (stored ++ suffix).length)
                        head := some head }

/-- One change of the log. -/
inductive Move : Hypercore H Sig SK S → Hypercore H Sig SK S → Prop
  /-- The store changed, but none of the log's blocks. -/
  | store {core : Hypercore H Sig SK S} {s : S} :
      b.Keeps core.len core.store s → Move core { core with store := s }
  | extend {core core' : Hypercore H Sig SK S} {data : Block} :
      Extends c b core data core' → Move core core'
  | adopt {core core' : Hypercore H Sig SK S} {head : SignedHead H Sig} {suffix : List Block} :
      Adopts c b core head suffix core' → Move core core'

/-- Any number of changes. -/
abbrev Moves : Hypercore H Sig SK S → Hypercore H Sig SK S → Prop := Relation.ReflTransGen (Move c b)

variable {c b codec} {core core' : Hypercore H Sig SK S}
variable {s : S} {data : Block} {i : ℕ}

section Reads

omit [DecidableEq H]

/-- A log reads alike from a store that keeps its blocks. -/
theorem block_store (hk : b.Keeps core.len core.store s) (i : ℕ) :
    ({ core with store := s } : Hypercore H Sig SK S).block b i = core.block b i := by
  unfold block
  by_cases hhas : core.has i = true
  · have hlt : i < core.len := of_decide_eq_true (Bool.and_eq_true_iff.mp hhas).1
    rw [if_pos hhas, if_pos (show ({ core with store := s } : Hypercore H Sig SK S).has i = true from hhas)]
    rw [hk i hlt]
  · rw [if_neg hhas, if_neg (show ¬ ({ core with store := s } : Hypercore H Sig SK S).has i = true from hhas)]

theorem blockOrCorrupt_store (hk : b.Keeps core.len core.store s) :
    ({ core with store := s } : Hypercore H Sig SK S).blockOrCorrupt b = core.blockOrCorrupt b := by
  funext i
  rw [blockOrCorrupt, blockOrCorrupt, block_store hk]

theorem Extends.of_store (hk : b.Keeps core.len core.store s)
    (h : Extends c b { core with store := s } data core') : Extends c b core data core' := by
  obtain ⟨s', hk', hget, hsign⟩ := h
  refine ⟨s', fun i hi => ?_, hget, hsign⟩
  rw [hk' i hi, hk i hi]

theorem mem_suffixWrites {p : Σ k : StoreKey, k.Value H Sig} : ∀ {suffix : List Block} {start : ℕ},
    p ∈ suffixWrites start suffix ↔
      ∃ (i : ℕ) (data : Block), suffix[i]? = some data ∧ p = ⟨.block (start + i), data⟩
  | [], start => by simp [suffixWrites]
  | bytes :: rest, start => by
    rw [suffixWrites, List.mem_cons, mem_suffixWrites]
    constructor
    · rintro (rfl | ⟨i, data, hi, rfl⟩)
      · exact ⟨0, bytes, rfl, rfl⟩
      · exact ⟨i + 1, data, hi, by rw [Nat.add_right_comm, Nat.add_assoc]⟩
    · rintro ⟨i, data, hi, rfl⟩
      cases i with
      | zero => exact Or.inl (by rw [Option.some.inj hi]; rfl)
      | succ i => exact Or.inr ⟨i, data, hi, by rw [Nat.add_right_comm, Nat.add_assoc]⟩

theorem nodup_suffixWrites : ∀ (suffix : List Block) (start : ℕ),
    ((suffixWrites start suffix : List (Σ k : StoreKey, k.Value H Sig)).map (·.1)).Nodup
  | [], _ => List.nodup_nil
  | bytes :: rest, start => by
    rw [suffixWrites, List.map_cons, List.nodup_cons]
    refine ⟨fun hmem => ?_, nodup_suffixWrites rest (start + 1)⟩
    obtain ⟨p, hp, hkey⟩ := List.mem_map.mp hmem
    obtain ⟨i, data, -, rfl⟩ := mem_suffixWrites.mp hp
    exact absurd (StoreKey.block.inj hkey) (by omega)

/-- The writes of a recovery are to different keys. -/
theorem nodup_recoverWrites (suffix : List Block) (start : ℕ) (tree : MerkleTree H)
    (presence : ExtTreeSet ℕ) (metadata : Metadata H Sig) :
    ((suffixWrites start suffix ++ [⟨.tree, tree⟩, ⟨.presence, presence⟩, ⟨.metadata, metadata⟩] :
      List (Σ k : StoreKey, k.Value H Sig)).map (·.1)).Nodup := by
  rw [List.map_append, List.nodup_append]
  refine ⟨nodup_suffixWrites suffix start, by simp, ?_⟩
  intro k hk k' hk' hkk
  obtain ⟨p, hp, rfl⟩ := List.mem_map.mp hk
  obtain ⟨j, _, -, rfl⟩ := mem_suffixWrites.mp hp
  rw [← hkk] at hk'
  simp at hk'

theorem block_eq_some : core.block b i = .ok (some data) ↔
    core.has i = true ∧ b.getBlock core.store i = .ok (some data) := by
  rw [block]
  split_ifs with h
  · cases hget : b.getBlock core.store i with
    | error e => simp
    | ok bytes? => cases bytes? <;> simp [h]
  · simp [h]

theorem block_of_len_le (h : core.len ≤ i) : core.block b i = .ok none := by
  rw [block, if_neg]
  intro hhas
  have hlt : i < core.len := of_decide_eq_true (Bool.and_eq_true_iff.mp hhas).1
  omega

/-- A value is what its block decodes to. -/
theorem get_eq_some {value : T} : core.get b codec i = .ok (some value) ↔
    ∃ bytes, core.block b i = .ok (some bytes) ∧ codec.decode bytes = .ok value := by
  rw [get]
  cases core.block b i with
  | error e => simp
  | ok bytes? =>
    cases bytes? with
    | none => simp
    | some bytes => cases hd : codec.decode bytes <;> simp [hd]

theorem lt_of_get {value : T} (h : core.get b codec i = .ok (some value)) : i < core.len := by
  obtain ⟨bytes, hbytes, -⟩ := get_eq_some.mp h
  by_contra hge
  rw [block_of_len_le (Nat.le_of_not_lt hge)] at hbytes
  cases hbytes

/-- An append adds one block and changes no other. -/
theorem Extends.block (h : Extends c b core data core') (i : ℕ) :
    core'.block b i = if i = core.len then .ok (some data) else core.block b i := by
  obtain ⟨s, hk, hget, hsign⟩ := h
  obtain ⟨root, -, rfl⟩ := Option.map_eq_some_iff.mp hsign
  split_ifs with hi
  · subst hi
    refine block_eq_some.mpr ⟨?_, hget⟩
    rw [has, Bool.and_eq_true, decide_eq_true_eq]
    exact ⟨Nat.lt_succ_self _, Graph.mem_insert_set.mpr (Or.inl rfl)⟩
  · rw [← block_store hk i, Hypercore.block, Hypercore.block]
    congr 1
    rw [has, has, eq_iff_iff, Bool.and_eq_true, Bool.and_eq_true, decide_eq_true_eq, decide_eq_true_eq]
    show i < core.len + 1 ∧ i ∈ core.presence.insert core.len ↔ i < core.len ∧ i ∈ core.presence
    rw [Graph.mem_insert_set]
    constructor
    · rintro ⟨hlt, hmem⟩
      exact ⟨by omega, hmem.resolve_left hi⟩
    · rintro ⟨hlt, hmem⟩
      exact ⟨by omega, Or.inr hmem⟩

end Reads

/-- Writes beyond the log's blocks leave the log as it is but for its store. -/
theorem within_write (hb : b.Lawful) {l : List (Σ k : StoreKey, k.Value H Sig)}
    (hl : ∀ p ∈ l, ∀ i < core.len, p.1 ≠ .block i) :
    Within (Moves c b) (write b l) core fun _ core' =>
      ∃ s, core' = { core with store := s } ∧ b.Keeps core.len core.store s ∧
        ((l.map (·.1)).Nodup → ∀ p ∈ l, b.get s p.1 = .ok (some p.2)) := by
  refine Within.zoom (hb.putAll l core.store) (fun s hs => ?_) fun _ s hs hget => ?_
  · exact Relation.ReflTransGen.single (Move.store fun i hi => hs _ fun p hp => hl p hp i hi)
  · exact ⟨s, rfl, fun i hi => hs _ fun p hp => hl p hp i hi, hget⟩

theorem within_append (hb : b.Lawful) (value : T) (core : Hypercore H Sig SK S) :
    Within (Moves c b) (append c b codec value) core fun index core' =>
      index = core.len ∧ Extends c b core (codec.encode value) core' := by
  unfold append
  apply Within.get
  refine Within.seq (within_write hb ?_) fun _ core₁ _ hw => ?_
  · intro p hp i hi
    rw [List.mem_singleton.mp hp]
    exact fun h => absurd (StoreKey.block.inj h) (by omega)
  · obtain ⟨s, rfl, hk, hget⟩ := hw
    apply Within.get
    cases hsign : resign c { core with
        store := s, tree := (core.tree.append c.hasher (codec.encode value)).1
        presence := core.presence.insert core.len } with
    | none => exact Within.fail _
    | some signed =>
      have hext : Extends c b { core with store := s } (codec.encode value) signed :=
        ⟨s, Backend.Keeps.refl _ _, hget (by simp) _ List.mem_cons_self, hsign⟩
      refine Within.assign (.single (Move.extend hext)) ?_
      exact Within.ret ⟨rfl, hext.of_store hk⟩

theorem within_persist (hb : b.Lawful) (core : Hypercore H Sig SK S) :
    Within (Moves c b) (persist b) core fun _ core' =>
      ∃ s, core' = { core with store := s } ∧ b.Keeps core.len core.store s := by
  unfold persist
  apply Within.get
  refine (within_write hb ?_).mono (fun _ h => h) fun _ core' _ h => ?_
  · simp
  · obtain ⟨s, h, hk, -⟩ := h
    exact ⟨s, h, hk⟩

theorem within_recoverSignedSuffix (hb : b.Lawful) (head : SignedHead H Sig) (suffix : List Block)
    (core : Hypercore H Sig SK S) :
    Within (Moves c b) (recoverSignedSuffix c b head suffix) core fun _ core' =>
      head.length = core.len + suffix.length ∧ Adopts c b core head suffix core' := by
  unfold recoverSignedSuffix
  apply Within.get
  dsimp only
  split_ifs with hhead
  · exact Within.fail _
  · push Not at hhead
    refine Within.look fun stored hread => ?_
    split_ifs with hfeed
    · exact Within.fail _
    · rw [Bool.not_eq_true', Bool.not_eq_false] at hfeed
      refine Within.seq (within_write hb ?_) fun _ core₁ _ hw => ?_
      · intro p hp i hi
        rw [List.mem_append, mem_suffixWrites] at hp
        obtain ⟨j, data, -, rfl⟩ | hp := hp
        · exact fun h => absurd (StoreKey.block.inj h) (by omega)
        · obtain rfl | rfl | rfl : _ ∨ _ ∨ _ := by simpa using hp
          all_goals exact (nomatch ·)
      · obtain ⟨s, rfl, hk, hget⟩ := hw
        have hsuffix : ∀ (i : ℕ) (data : Block), suffix[i]? = some data →
            b.getBlock s (core.len + i) = .ok (some data) := by
          intro i data hi
          exact hget (nodup_recoverWrites suffix core.len _ _ _) _
            (List.mem_append_left _ (mem_suffixWrites.mpr ⟨i, data, hi, rfl⟩))
        have hread' : (List.range core.len).mapM
            (({ core with store := s } : Hypercore H Sig SK S).blockOrCorrupt b) = .ok stored := by
          rw [blockOrCorrupt_store hk, hread]
        refine Within.modify (.single (Move.adopt ⟨s, stored, hread', hfeed, Backend.Keeps.refl _ _,
          hsuffix, rfl⟩)) ⟨hhead.2.symm, s, stored, hread, hfeed, hk, hsuffix, rfl⟩

/-! ### The blocks of the log -/

variable {head : SignedHead H Sig} {suffix : List Block}

/-- A recovery adds the suffix and changes no block that was there. -/
theorem Adopts.block (h : Adopts c b core head suffix core') (i : ℕ) :
    core'.block b i = if i < core.len then core.block b i else .ok suffix[i - core.len]? := by
  obtain ⟨s, stored, hread, -, hk, hget, rfl⟩ := h
  obtain ⟨hlen, hstored⟩ := mapM_ok hread
  rw [List.length_range] at hlen
  have hbuilt := (built_ofBlocks c.hasher (stored ++ suffix)).length_eq
  rw [List.length_append, hlen] at hbuilt
  -- every block of the longer log is marked present
  have hhas : ∀ j < core.len + suffix.length, ({ core with
      store := s, tree := MerkleTree.ofBlocks c.hasher (stored ++ suffix)
      presence := ExtTreeSet.ofList (List.range (stored ++ suffix).length)
      head := some head } : Hypercore H Sig SK S).has j = true := by
    intro j hj
    rw [has, Bool.and_eq_true, decide_eq_true_eq]
    refine ⟨hj.trans_eq hbuilt.symm, Graph.mem_ofList.mpr (List.mem_range.mpr ?_)⟩
    rwa [List.length_append, hlen]
  split_ifs with hi
  · obtain ⟨v, -, hv⟩ := hstored i i (List.getElem?_range hi)
    have hblock : core.block b i = .ok (some v) := by
      unfold blockOrCorrupt at hv
      cases hb : core.block b i with
      | error e => rw [hb] at hv; cases hv
      | ok bytes? =>
        rw [hb] at hv
        cases bytes? with
        | none => cases hv
        | some bytes => rw [Except.ok.inj hv]
    rw [hblock]
    refine block_eq_some.mpr ⟨hhas i (by omega), ?_⟩
    exact (hk i hi).trans (block_eq_some.mp hblock).2
  · cases hsuf : suffix[i - core.len]? with
    | none =>
      apply block_of_len_le
      show (MerkleTree.ofBlocks c.hasher (stored ++ suffix)).length ≤ i
      rw [List.getElem?_eq_none_iff] at hsuf
      omega
    | some data =>
      have hlt := (List.getElem?_eq_some_iff.mp hsuf).1
      refine block_eq_some.mpr ⟨hhas i (by omega), ?_⟩
      have := hget _ data hsuf
      rwa [show core.len + (i - core.len) = i by omega] at this

theorem Adopts.len_eq (h : Adopts c b core head suffix core') : core'.len = core.len + suffix.length := by
  obtain ⟨s, stored, hread, -, -, -, rfl⟩ := h
  obtain ⟨hlen, -⟩ := mapM_ok hread
  rw [List.length_range] at hlen
  show (MerkleTree.ofBlocks c.hasher (stored ++ suffix)).length = _
  rw [(built_ofBlocks c.hasher (stored ++ suffix)).length_eq, List.length_append, hlen]

theorem openCore_ok {author : SK} {store : S} (h : openCore c b author store = .ok core) :
    core.author = author ∧ core.verifyHead c = true := by
  unfold openCore at h
  split at h
  all_goals try cases h
  split at h
  · cases h
  · dsimp only at h
    split_ifs at h with hv
    obtain rfl := Except.ok.inj h
    exact ⟨rfl, hv⟩

/-! ### Intact logs -/

variable (c b) in
/-- The log's tree is the tree of the blocks `B`, which its store holds. -/
structure Stored (B : List Block) (core : Hypercore H Sig SK S) : Prop where
  built : Built c.hasher B core.tree
  readable : b.Readable core.store B
  present : ∀ i < B.length, i ∈ core.presence

variable (c b) in
/-- The log is as its own methods make it: its head is signed over all of it. -/
structure Intact (B : List Block) (core : Hypercore H Sig SK S) : Prop extends Stored c b B core where
  headless : core.head = none → B = []
  signed : ∀ h, core.head = some h → h.length = B.length ∧
    h.root = c.hasher.treeHash (rootsOf c.hasher B) ∧ verifySignedHead c (core.publicKey c) h = true

variable {B : List Block}

section Blocks

omit [DecidableEq H]

theorem stored_new (author : SK) (store : S) :
    Stored c b [] (new author store : Hypercore H Sig SK S) :=
  ⟨built_new, fun i data hi => by simp at hi, fun i hi => absurd hi (Nat.not_lt_zero i)⟩

theorem Intact.len_eq (h : Intact c b B core) : core.len = B.length :=
  h.built.length_eq

theorem Intact.block (h : Intact c b B core) (hi : B[i]? = some data) : core.block b i = .ok (some data) := by
  have hlt : i < B.length := (List.getElem?_eq_some_iff.mp hi).1
  have hhas : core.has i = true := by
    rw [has, Bool.and_eq_true, decide_eq_true_eq, h.len_eq]
    exact ⟨hlt, h.present i hlt⟩
  exact block_eq_some.mpr ⟨hhas, h.readable i data hi⟩

theorem Intact.store (h : Intact c b B core) (hk : b.Keeps core.len core.store s) :
    Intact c b B { core with store := s } := by
  rw [h.len_eq] at hk
  exact ⟨⟨h.built, h.readable.keeps hk, h.present⟩, h.headless, h.signed⟩

theorem Intact.extend (h : Intact c b B core) (he : Extends c b core data core') :
    Intact c b (B ++ [data]) core' := by
  obtain ⟨s, hk, hget, hsign⟩ := he
  have hbuilt := h.built.append data
  rw [resign, hbuilt.rootHash, Option.map_some] at hsign
  obtain rfl := Option.some.inj hsign
  rw [h.len_eq] at hk hget
  refine ⟨⟨hbuilt, h.readable.append hk fun i data' hi => ?_, fun i hi => ?_⟩, (nomatch ·), ?_⟩
  · cases i with
    | zero => rw [← Option.some.inj hi]; exact hget
    | succ i => simp at hi
  · rw [List.length_append, List.length_singleton] at hi
    refine Graph.mem_insert_set.mpr ?_
    obtain rfl | hlt := Nat.eq_or_lt_of_le (Nat.le_of_lt_succ hi)
    · exact Or.inl h.len_eq.symm
    · exact Or.inr (h.present i hlt)
  · intro head hhead
    obtain rfl := Option.some.inj hhead
    exact ⟨hbuilt.length_eq, rfl, c.verify_sign _ _⟩

/-- An intact log reads its own blocks when it checks a longer feed. -/
theorem Intact.stored {B stored : List Block} (h : Intact c b B core)
    (hread : (List.range core.len).mapM (core.blockOrCorrupt b) = .ok stored) : stored = B := by
  obtain ⟨hlen, hstored⟩ := mapM_ok hread
  rw [List.length_range, h.len_eq] at hlen
  apply List.ext_getElem? 
  intro i
  by_cases hi : i < B.length
  · have hrange : (List.range core.len)[i]? = some i := by
      rw [h.len_eq, List.getElem?_range hi]
    obtain ⟨v, hv, hblock⟩ := hstored i i hrange
    have hB : B[i]? = some (B.get ⟨i, hi⟩) := List.getElem?_eq_getElem hi
    rw [blockOrCorrupt, h.block hB] at hblock
    rw [hv, hB, ← Except.ok.inj hblock]
  · rw [List.getElem?_eq_none (by omega), List.getElem?_eq_none (by omega)]

end Blocks

/-- A log that passes its own check is intact if its blocks are there. -/
theorem Stored.intact (h : Stored c b B core) (hv : core.verifyHead c = true) :
    Intact c b B core := by
  refine ⟨h, fun hnone => ?_, fun head hsome => ?_⟩
  · rw [verifyHead, hnone, beq_iff_eq, h.built.length_eq] at hv
    exact List.length_eq_zero_iff.mp hv
  · rw [verifyHead, hsome] at hv
    simp only [Bool.and_eq_true, beq_iff_eq] at hv
    obtain ⟨⟨⟨-, hlen⟩, hroot⟩, hsig⟩ := hv
    rw [h.built.rootHash, Option.some.injEq] at hroot
    exact ⟨hlen.trans h.built.length_eq, hroot.symm, hsig⟩

theorem Intact.adopt (h : Intact c b B core) (ha : Adopts c b core head suffix core') :
    Intact c b (B ++ suffix) core' := by
  obtain ⟨s, stored, hread, hfeed, hk, hget, rfl⟩ := ha
  obtain rfl := h.stored hread
  rw [h.len_eq] at hk hget
  obtain ⟨hlen, hroot, hsig⟩ := verifyArchivedFeed_iff.mp hfeed
  refine ⟨⟨built_ofBlocks c.hasher _, h.readable.append hk hget, fun i hi => ?_⟩, (nomatch ·), ?_⟩
  · exact Graph.mem_ofList.mpr (List.mem_range.mpr hi)
  · intro head' hhead
    obtain rfl := Option.some.inj hhead
    exact ⟨hlen, hroot, hsig⟩

theorem Intact.move (h : Intact c b B core) (hm : Move c b core core') :
    ∃ more, Intact c b (B ++ more) core' := by
  cases hm with
  | store hk => exact ⟨[], by rw [List.append_nil]; exact h.store hk⟩
  | extend he => exact ⟨_, h.extend he⟩
  | adopt ha => exact ⟨_, h.adopt ha⟩

theorem Move.author_eq (hm : Move c b core core') : core'.author = core.author := by
  cases hm with
  | store hk => rfl
  | extend he =>
    obtain ⟨s, -, -, hsign⟩ := he
    obtain ⟨root, -, rfl⟩ := Option.map_eq_some_iff.mp hsign
    rfl
  | adopt ha =>
    obtain ⟨s, stored, -, -, -, -, rfl⟩ := ha
    rfl

end Hypercore
end HypercoreRs
