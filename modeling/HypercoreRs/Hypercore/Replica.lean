/-
# Verify-only replicas

A `Replica` follows another writer's log without its secret key: `addBlock` takes
the next block only with a proof against a head the writer signed, and the head is
kept once the replica's own tree matches it. A replica may run ahead of the head it
last matched: each block was verified against the longer head it came with.

`Replica.Move` says what the methods can do. `Replica.Intact` is what they keep:
the tree is the tree of the stored blocks, and the verified head, if any, is signed
and matches a prefix of them (`Intact.move`).
-/
import HypercoreRs.Hypercore.Core

namespace HypercoreRs

open Std Merkle Command

/-- A verify-only replica of a log. -/
structure Replica (K H Sig S : Type) where
  publicKey : K
  store : S
  tree : MerkleTree H
  head : Option (SignedHead H Sig)

namespace Replica

variable {K H Sig SK S E T : Type} [DecidableEq H]
variable (c : Crypto K H Sig SK) (b : Backend S E H Sig) (codec : Codec T)

def new (publicKey : K) (store : S) : Replica K H Sig S := { publicKey, store, tree := .new, head := none }

def len (r : Replica K H Sig S) : ℕ := r.tree.length

/-- The signed head fully replicated up to, if any. -/
def verifiedHead (r : Replica K H Sig S) : Option (SignedHead H Sig) := r.head

/-- The head after `head`'s block has been folded into `tree`. -/
def promote (r : Replica K H Sig S) (tree : MerkleTree H) (head : SignedHead H Sig) :
    Option (SignedHead H Sig) :=
  if tree.length == head.length && tree.rootHash c.hasher == some head.root then some head else r.head

/-- The writes of `l`, on the replica's store. -/
def write (l : List (Σ k : StoreKey, k.Value H Sig)) : EStateM (CoreError E) (Replica K H Sig S) Unit :=
  zoom (·.store) (fun s r => { r with store := s }) CoreError.storage (b.putAll l)

/-- Verify the next block against `head`, then append it; returns whether it was
accepted. -/
def addBlock (head : SignedHead H Sig) (index : ℕ) (enc : Block) (proof : Merkle.Proof H) :
    EStateM (CoreError E) (Replica K H Sig S) Bool := do
  let r ← MonadState.get
  if index ≠ r.tree.length then return false
  else if !verifyBlock c r.publicKey head index enc proof then return false
  else
    write b [⟨.block index, enc⟩]
    let tree := (r.tree.append c.hasher enc).1
    modify fun r => { r with tree, head := r.promote c tree head }
    return true

/-- The raw verified bytes of a block. -/
def block (r : Replica K H Sig S) (index : ℕ) : Except (CoreError E) (Option Block) :=
  if index ≥ r.tree.length then .ok none
  else
    match b.getBlock r.store index with
    | .error e => .error (.storage e)
    | .ok bytes => .ok bytes

/-- The value at `index`, or `none`. -/
def get (r : Replica K H Sig S) (index : ℕ) : Except (CoreError E) (Option T) :=
  if index ≥ r.tree.length then .ok none
  else
    match b.getBlock r.store index with
    | .error e => .error (.storage e)
    | .ok none => .error .corrupt
    | .ok (some bytes) =>
      match codec.decode bytes with
      | .error e => .error (.codec e)
      | .ok value => .ok (some value)

def proof (r : Replica K H Sig S) (index : ℕ) : Option (Merkle.Proof H) := r.tree.proof index

def persist : EStateM (CoreError E) (Replica K H Sig S) Unit := do
  let r ← MonadState.get
  write b [⟨.tree, r.tree⟩, ⟨.metadata, .replica r.head⟩]

/-- A persisted head must be signed by the writer and match the persisted tree. -/
def verifyHead (r : Replica K H Sig S) : Bool :=
  match r.head with
  | none => true
  | some h => verifySignedHead c r.publicKey h && r.tree.length == h.length &&
      r.tree.rootHash c.hasher == some h.root

/-- The persisted tree, at the verified head if it ran ahead of it. -/
def atHead (tree : MerkleTree H) : Option (SignedHead H Sig) → MerkleTree H
  | some h => if tree.length > h.length then (tree.truncate h.length).1 else tree
  | none => tree

/-- The head that the metadata are read as. Those of a writer begin with the fork, and its first
byte is taken for the tag of the head: 0 for none. After a 1 the bytes that follow are taken for a
head, which nobody signed. -/
def headOf : Metadata H Sig → Option (Option (SignedHead H Sig))
  | .replica head => some head
  | .core fork _ _ => if fork % 256 = 0 then some none else none

/-- Reopen a persisted replica, at its verified head. -/
def openReplica (publicKey : K) (store : S) : Except (CoreError E) (Replica K H Sig S) :=
  match b.get store .tree, b.get store .metadata with
  | .error e, _ => .error (.storage e)
  | _, .error e => .error (.storage e)
  | .ok (some tree), .ok (some m) =>
    match headOf m with
    | none => .error .corrupt
    | some head =>
      let r := { publicKey, store, tree := atHead tree head, head }
      if verifyHead c r then .ok r else .error .corrupt
  | _, _ => .error .notPersisted

/-! ### What the methods can do -/

/-- `r'` is `r` with the block `data` accepted under `head`. -/
def Accepts (r : Replica K H Sig S) (head : SignedHead H Sig) (data : Block)
    (r' : Replica K H Sig S) : Prop :=
  ∃ s proof, verifyBlock c r.publicKey head r.len data proof = true ∧
    b.Keeps r.len r.store s ∧ b.getBlock s r.len = .ok (some data) ∧
    r' = { r with store := s, tree := (r.tree.append c.hasher data).1
                  head := r.promote c (r.tree.append c.hasher data).1 head }

/-- One change of the replica. -/
inductive Move : Replica K H Sig S → Replica K H Sig S → Prop
  /-- The store changed, but none of the replica's blocks. -/
  | store {r : Replica K H Sig S} {s : S} : b.Keeps r.len r.store s → Move r { r with store := s }
  | accept {r r' : Replica K H Sig S} {head : SignedHead H Sig} {data : Block} :
      Accepts c b r head data r' → Move r r'

/-- Any number of changes. -/
abbrev Moves : Replica K H Sig S → Replica K H Sig S → Prop := Relation.ReflTransGen (Move c b)

variable {c b codec} {r r' : Replica K H Sig S}
variable {i : ℕ} {data : Block} {s : S}

section Reads

omit [DecidableEq H]

theorem block_eq_some : r.block b i = .ok (some data) ↔
    i < r.len ∧ b.getBlock r.store i = .ok (some data) := by
  rw [block, len]
  split_ifs with h
  · simp [h]
  · cases hget : b.getBlock r.store i with
    | error e => simp
    | ok bytes? => simp [Nat.lt_of_not_le h]

theorem block_of_len_le (h : r.len ≤ i) : r.block b i = .ok none := by
  exact if_pos h

theorem block_store (hk : b.Keeps r.len r.store s) (i : ℕ) :
    ({ r with store := s } : Replica K H Sig S).block b i = r.block b i := by
  rw [block, block]
  split_ifs with h
  · rfl
  · rw [hk i (Nat.lt_of_not_le h)]

theorem get_store (hk : b.Keeps r.len r.store s) (i : ℕ) :
    ({ r with store := s } : Replica K H Sig S).get b codec i = r.get b codec i := by
  unfold get
  split_ifs with hi
  · rfl
  · rw [hk i (Nat.lt_of_not_le hi)]

/-- A value is what its block decodes to. -/
theorem get_eq_some {value : T} : r.get b codec i = .ok (some value) ↔
    ∃ bytes, r.block b i = .ok (some bytes) ∧ codec.decode bytes = .ok value := by
  rw [get, block]
  split_ifs with h
  · simp
  · cases b.getBlock r.store i with
    | error e => simp
    | ok bytes? =>
      cases bytes? with
      | none => simp
      | some bytes => cases hd : codec.decode bytes <;> simp [hd]

theorem lt_of_get {value : T} (h : r.get b codec i = .ok (some value)) : i < r.len := by
  obtain ⟨bytes, hbytes, -⟩ := get_eq_some.mp h
  exact (block_eq_some.mp hbytes).1

end Reads

theorem within_write (hb : b.Lawful) {l : List (Σ k : StoreKey, k.Value H Sig)}
    (hl : ∀ p ∈ l, ∀ i < r.len, p.1 ≠ .block i) :
    Within (Moves c b) (write b l) r fun _ r' =>
      ∃ s, r' = { r with store := s } ∧ b.Keeps r.len r.store s ∧
        ((l.map (·.1)).Nodup → ∀ p ∈ l, b.get s p.1 = .ok (some p.2)) := by
  refine Within.zoom (hb.putAll l r.store) (fun s hs => ?_) fun _ s hs hget => ?_
  · exact Relation.ReflTransGen.single (Move.store fun i hi => hs _ fun p hp => hl p hp i hi)
  · exact ⟨s, rfl, fun i hi => hs _ fun p hp => hl p hp i hi, hget⟩

theorem within_persist (hb : b.Lawful) (r : Replica K H Sig S) :
    Within (Moves c b) (persist b) r fun _ r' =>
      ∃ s, r' = { r with store := s } ∧ b.Keeps r.len r.store s := by
  unfold persist
  apply Within.get
  refine (within_write hb ?_).mono (fun _ h => h) fun _ r' _ h => ?_
  · simp
  · obtain ⟨s, h, hk, -⟩ := h
    exact ⟨s, h, hk⟩

/-- An accepted block is the next one, verified; a refused one leaves no trace. -/
theorem within_addBlock (hb : b.Lawful) (head : SignedHead H Sig) (index : ℕ) (enc : Block)
    (proof : Merkle.Proof H) (r : Replica K H Sig S) :
    Within (Moves c b) (addBlock c b head index enc proof) r fun accepted r' =>
      if accepted then index = r.len ∧ Accepts c b r head enc r' else r' = r := by
  unfold addBlock
  apply Within.get
  split_ifs with hindex hverify
  · exact Within.ret rfl
  · exact Within.ret rfl
  · rw [not_not] at hindex
    rw [Bool.not_eq_true', Bool.not_eq_false] at hverify
    subst hindex
    refine Within.seq (within_write hb ?_) fun _ r₁ _ hw => ?_
    · intro p hp i hi
      rw [List.mem_singleton.mp hp]
      exact fun h => absurd (StoreKey.block.inj h) (Nat.ne_of_gt hi)
    · obtain ⟨s, rfl, hk, hget⟩ := hw
      have hblock : b.getBlock s r.len = .ok (some enc) := hget (by simp) _ List.mem_cons_self
      have hacc : Accepts c b { r with store := s } head enc _ :=
        ⟨s, proof, hverify, Backend.Keeps.refl _ _, hblock, rfl⟩
      refine Within.update (.single (Move.accept hacc)) ?_
      exact Within.ret ⟨rfl, s, proof, hverify, hk, hblock, rfl⟩

variable {head : SignedHead H Sig} {enc : Block} {proof : Merkle.Proof H}

/-- A block that verifies and comes next is taken, if the store takes it. -/
theorem addBlock_next (hput : ∀ k v s, ∃ s', b.put k v s = .ok () s')
    (hv : verifyBlock c r.publicKey head r.len enc proof = true) :
    ∃ r', addBlock c b head r.len enc proof r = .ok true r' ∧ r'.len = r.len + 1 ∧
      r'.publicKey = r.publicKey := by
  obtain ⟨s, hs⟩ := hput (.block r.len) enc r.store
  have hall : b.putAll [⟨.block r.len, enc⟩] r.store = .ok () s := bind_eq_ok.mpr ⟨(), s, hs, rfl⟩
  have hwrite : write b [⟨.block r.len, enc⟩] r = .ok () { r with store := s } := by
    unfold write zoom
    rw [hall]
  have hadd : addBlock c b head r.len enc proof r = .ok true
      { r with store := s, tree := (r.tree.append c.hasher enc).1
               head := r.promote c (r.tree.append c.hasher enc).1 head } := by
    refine bind_eq_ok.mpr ⟨r, r, rfl, ?_⟩
    have hnext : ¬ r.len ≠ r.tree.length := not_not.mpr rfl
    rw [if_neg hnext, hv]
    exact bind_eq_ok.mpr ⟨(), _, hwrite, rfl⟩
  exact ⟨_, hadd, rfl, rfl⟩

/-- A block that is not the next one or does not verify is refused. -/
theorem addBlock_refused {index : ℕ}
    (h : index ≠ r.len ∨ verifyBlock c r.publicKey head index enc proof = false) :
    addBlock c b head index enc proof r = .ok false r := by
  refine bind_eq_ok.mpr ⟨r, r, rfl, ?_⟩
  by_cases hindex : index ≠ r.tree.length
  · rw [if_pos hindex]
    rfl
  · have hverify := h.resolve_left hindex
    rw [if_neg hindex, hverify]
    rfl

/-! ### The blocks of the replica -/

/-- An accepted block is added and no other changed. -/
theorem Accepts.block (h : Accepts c b r head data r') (i : ℕ) :
    r'.block b i = if i = r.len then .ok (some data) else r.block b i := by
  obtain ⟨s, proof, -, hk, hget, rfl⟩ := h
  split_ifs with hi
  · subst hi
    exact block_eq_some.mpr ⟨Nat.lt_succ_self _, hget⟩
  · rw [← block_store hk i, Replica.block, Replica.block]
    congr 1
    rw [eq_iff_iff]
    show i ≥ r.len + 1 ↔ i ≥ r.len
    omega

/-- What opens was read from the store, and its head checks. -/
theorem openReplica_eq_ok {w : K} {store : S} : openReplica c b w store = .ok r ↔
    ∃ tree m head, b.get store .tree = .ok (some tree) ∧ b.get store .metadata = .ok (some m) ∧
      headOf m = some head ∧ r = ⟨w, store, atHead tree head, head⟩ ∧ r.verifyHead c = true := by
  constructor
  · intro h
    unfold openReplica at h
    split at h
    all_goals try cases h
    next tree m htree hmeta =>
    split at h
    · cases h
    · next head hhead =>
      dsimp only at h
      split_ifs at h with hv
      obtain rfl := Except.ok.inj h
      exact ⟨tree, m, head, htree, hmeta, hhead, rfl, hv⟩
  · rintro ⟨tree, m, head, htree, hmeta, hhead, rfl, hv⟩
    unfold openReplica
    rw [htree, hmeta]
    dsimp only
    rw [hhead]
    exact if_pos hv

theorem openReplica_ok {w : K} {store : S} (h : openReplica c b w store = .ok r) :
    r.publicKey = w ∧ r.verifyHead c = true := by
  obtain ⟨_, _, _, -, -, -, rfl, hv⟩ := openReplica_eq_ok.mp h
  exact ⟨rfl, hv⟩

/-! ### Intact replicas -/

variable (c b) in
/-- The replica's tree is the tree of the blocks `B`, which its store holds. -/
structure Stored (B : List Block) (r : Replica K H Sig S) : Prop where
  built : Built c.hasher B r.tree
  readable : b.Readable r.store B

variable (c b) in
/-- The verified head is signed by the writer and matches a prefix of the blocks. -/
structure Intact (B : List Block) (r : Replica K H Sig S) : Prop extends Stored c b B r where
  vouched : ∀ h, r.head = some h → h.length ≤ B.length ∧
    h.root = c.hasher.treeHash (rootsOf c.hasher (B.take h.length)) ∧
    verifySignedHead c r.publicKey h = true

variable {B : List Block}

section Blocks

omit [DecidableEq H]

theorem stored_new (publicKey : K) (store : S) :
    Stored c b [] (new publicKey store : Replica K H Sig S) :=
  ⟨built_new, fun i data hi => by simp at hi⟩

theorem Stored.len_eq (h : Stored c b B r) : r.len = B.length := h.built.length_eq

theorem Stored.block (h : Stored c b B r) (hi : B[i]? = some data) : r.block b i = .ok (some data) := by
  have hlt : i < B.length := (List.getElem?_eq_some_iff.mp hi).1
  exact block_eq_some.mpr ⟨by rw [h.len_eq]; exact hlt, h.readable i data hi⟩

theorem Stored.store (h : Stored c b B r) (hk : b.Keeps r.len r.store s) :
    Stored c b B { r with store := s } := by
  rw [h.len_eq] at hk
  exact ⟨h.built, h.readable.keeps hk⟩

end Blocks

/-- A replica that passes the check on opening is intact if its blocks are there. -/
theorem Stored.intact (h : Stored c b B r) (hv : r.verifyHead c = true) : Intact c b B r := by
  refine ⟨h, fun head hsome => ?_⟩
  rw [verifyHead, hsome] at hv
  simp only [Bool.and_eq_true, beq_iff_eq] at hv
  obtain ⟨⟨hsig, hlen⟩, hroot⟩ := hv
  rw [h.built.rootHash, Option.some.injEq] at hroot
  rw [h.built.length_eq] at hlen
  rw [← hlen, List.take_length]
  exact ⟨le_rfl, hroot.symm, hsig⟩

theorem Stored.accept (h : Stored c b B r) (ha : Accepts c b r head data r') :
    Stored c b (B ++ [data]) r' := by
  obtain ⟨s, proof, -, hk, hget, rfl⟩ := ha
  rw [h.len_eq] at hk hget
  refine ⟨h.built.append data, h.readable.append hk fun i data' hi => ?_⟩
  cases i with
  | zero => rw [← Option.some.inj hi]; exact hget
  | succ i => simp at hi

/-- A head the replica holds after accepting a block is the block's, matched by the
whole tree, or the one it held. -/
theorem promote_eq_some {tree : MerkleTree H} (h : Built c.hasher B tree) {head h' : SignedHead H Sig}
    (hp : r.promote c tree head = some h') :
    h' = head ∧ head.length = B.length ∧ head.root = c.hasher.treeHash (rootsOf c.hasher B) ∨
      r.head = some h' := by
  rw [promote] at hp
  split_ifs at hp with hmatch
  · rw [Bool.and_eq_true, beq_iff_eq, beq_iff_eq, h.rootHash, h.length_eq, Option.some.injEq] at hmatch
    exact Or.inl ⟨(Option.some.inj hp).symm, hmatch.1.symm, hmatch.2.symm⟩
  · exact Or.inr hp

theorem Intact.accept (h : Intact c b B r) (ha : Accepts c b r head data r') :
    Intact c b (B ++ [data]) r' := by
  have hstored := h.toStored.accept ha
  refine ⟨hstored, fun h' hhead => ?_⟩
  obtain ⟨s, proof, hverify, hk, hget, rfl⟩ := ha
  obtain ⟨rfl, hlen, hroot⟩ | hold := promote_eq_some hstored.built hhead
  · rw [hlen, List.take_length]
    exact ⟨le_rfl, hroot, (verifyBlock_iff.mp hverify).1⟩
  · obtain ⟨hle, hroot, hsig⟩ := h.vouched h' hold
    rw [List.take_append_of_le_length hle]
    exact ⟨hle.trans (by simp), hroot, hsig⟩

theorem Intact.move (h : Intact c b B r) (hm : Move c b r r') :
    ∃ more, Intact c b (B ++ more) r' := by
  cases hm with
  | store hk => exact ⟨[], by rw [List.append_nil]; exact ⟨h.toStored.store hk, h.vouched⟩⟩
  | accept ha => exact ⟨_, h.accept ha⟩

theorem Move.publicKey_eq (hm : Move c b r r') : r'.publicKey = r.publicKey := by
  cases hm with
  | store hk => rfl
  | accept ha =>
    obtain ⟨s, proof, -, -, -, rfl⟩ := ha
    rfl

theorem Moves.publicKey_eq (hm : Moves c b r r') : r'.publicKey = r.publicKey := by
  induction hm with
  | refl => rfl
  | tail _ hstep ih => exact hstep.publicKey_eq.trans ih

end Replica
end HypercoreRs
