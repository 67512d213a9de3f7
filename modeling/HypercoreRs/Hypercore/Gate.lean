/-
# Replicas of an author that rewrites

An author that appends, commits and truncates signs a head at every step, and under
each head it can hand out any block of its log with a proof. A replica may hear these
in any order. A proof ties a block to the head it came with and to nothing else, so
`addBlock` alone takes blocks of different forks one after another.

`verifyUpgrade` is the gate before it: a replica that asks it before each block, unless
it is still empty, always holds a prefix of a log whose head the author signed
(`gated_follows`).
-/
import HypercoreRs.Hypercore.Coherent
import HypercoreRs.Hypercore.Reorg

namespace HypercoreRs

open Std Merkle Command Storage

section Author

variable {K H Sig SK S E T : Type} [DecidableEq H]
variable (c : Crypto K H Sig SK) (st : Store S E) (w : Wire H Sig) (codec : Codec T)

/-- An append, a commit or a truncation. -/
def CoreOp.IsWrite : CoreOp T H Sig SK S → Prop
  | .append _ => True
  | .commit _ => True
  | .truncate _ => True
  | _ => False

/-- The log before, between and after the calls of a run, failed calls included. -/
def moments : List (CoreOp T H Sig SK S) → Hypercore H Sig SK S → List (Hypercore H Sig SK S)
  | [], core => [core]
  | op :: rest, core => core :: moments rest (after (op.run c st w codec) core)

/-- A block with its head and its proof, as a replica is offered it. -/
structure Offer (H Sig : Type) where
  head : SignedHead H Sig
  index : ℕ
  enc : Block
  proof : Merkle.Proof H

/-- What an author can offer of its block `i` at one moment. -/
def Hypercore.offers (core : Hypercore H Sig SK S) (i : ℕ) : Option (Offer H Sig) := do
  let head ← core.head
  let enc ← (core.block (Hypercore.backend w st) i).toOption.join
  let proof ← core.proof i
  return ⟨head, i, enc, proof⟩

/-- Block list of the log. -/
def Hypercore.blockList (core : Hypercore H Sig SK S) : List Block :=
  Hypercore.readable st w core core.len

end Author

namespace Replica

variable {K H Sig S E : Type} [DecidableEq H] {SK : Type}
variable (c : Crypto K H Sig SK) (b : Backend S E H Sig)

/-- The replica after an offer, failed or not. -/
def offered (r : Replica K H Sig S) (offer : Offer H Sig) : Replica K H Sig S :=
  after (addBlock c b offer.head offer.index offer.enc offer.proof) r

/-- Before each offer the replica is empty or an upgrade proof to the offered head verifies. -/
def Gated : List (Offer H Sig) → Replica K H Sig S → Prop
  | [], _ => True
  | offer :: rest, r => (r.len = 0 ∨ ∃ proof, r.verifyUpgrade c offer.head proof = true) ∧
      Gated rest (r.offered c b offer)

end Replica

section Follow

variable {K H Sig SK S E T S' E' : Type}
variable {c : Crypto K H Sig SK} {st : Store S E} {w : Wire H Sig} {codec : Codec T}
variable {b : Backend S' E' H Sig} {log : Log H} {core : Hypercore H Sig SK S}

/-- Every block of the log is held. -/
def Log.Full (log : Log H) : Prop := ∀ p ∈ log.blocks, p.2 = true

theorem Log.Full.read (h : log.Full) (i : ℕ) : log.read i = log.bytes[i]? := by
  rw [Log.read, Log.bytes, List.getElem?_map]
  cases hi : log.blocks[i]? with
  | none => rfl
  | some p =>
    have hheld := h p (List.mem_of_getElem? hi)
    obtain ⟨data, held⟩ := p
    exact if_pos hheld

theorem Log.Full.write (h : log.Full) (more : List Block) : (log.write more).Full := by
  intro p hp
  obtain hp | hp := List.mem_append.mp hp
  · exact h p hp
  · obtain ⟨data, -, rfl⟩ := List.mem_map.mp hp
    rfl

theorem Log.Full.commit (h : log.Full) (batch : Batch) : (log.commit batch).Full := by
  unfold Log.commit
  split_ifs
  · exact h.write batch.encoded
  · exact h

theorem Log.Full.truncate (h : log.Full) (n : ℕ) : (log.truncate n).Full := by
  unfold Log.truncate
  split_ifs
  · exact h
  · exact fun p hp => h p (List.mem_of_mem_take hp)

variable [DecidableEq H]

theorem filterMap_getElem?_range {α : Type} (l : List α) :
    (List.range l.length).filterMap (fun i => l[i]?) = l := by
  induction l with
  | nil => rfl
  | cons a l ih =>
    rw [List.length_cons, List.range_succ_eq_map, List.filterMap_cons, List.filterMap_map]
    exact congrArg (a :: ·) ih

namespace Hypercore

omit [DecidableEq H] in
theorem Kept.blockList_eq (h : Kept c st w log core) (hfull : log.Full) :
    core.blockList st w = log.bytes := by
  have hread : ∀ i, (core.blockOrMismatch st w i).toOption = log.bytes[i]? := by
    intro i
    rw [blockOrMismatch, h.block, hfull.read]
    cases log.bytes[i]? <;> rfl
  rw [blockList, readable, h.len_eq, ← Log.length_bytes]
  simp only [hread, filterMap_getElem?_range]

/-- Writing keeps a log coherent and full, whether or not the store fails. -/
theorem Coherent.after_write (hst : st.Lawful) (h : Coherent c st w log core) (hfull : log.Full)
    {op : CoreOp T H Sig SK S} (hop : op.IsWrite) :
    ∃ log' : Log H, Coherent c st w log' (after (op.run c st w codec) core) ∧ log'.Full := by
  have hfail : ∀ core', (∃ s, core' = { core with store := s } ∧ st.Above core.len core.store s) →
      ∃ log' : Log H, Coherent c st w log' core' ∧ log'.Full := by
    intro core' hstore
    obtain ⟨s, rfl, hs⟩ := hstore
    exact ⟨log, h.above hs, hfull⟩
  cases op with
  | append value =>
    refine (h.ends_append codec hst value).drop.always (fun _ core' h' => ?_) fun _ => hfail
    obtain ⟨i, -, hcoh, -⟩ := h'
    exact ⟨_, hcoh, hfull.write _⟩
  | commit batch =>
    refine (h.ends_commit hst batch).drop.always (fun _ core' h' => ?_) fun _ => hfail
    obtain ⟨ok, hcoh, -⟩ := h'
    exact ⟨_, hcoh, hfull.commit batch⟩
  | truncate n =>
    refine (h.ends_truncate n).drop.always (P := fun core' => ∃ log' : Log H,
      Coherent c st w log' core' ∧ log'.Full) (fun _ core' h' => ?_) fun _ _ => False.elim
    obtain ⟨ok, hcoh, -⟩ := h'
    exact ⟨_, hcoh, hfull.truncate n⟩
  | appendAll _ | clear _ _ | sweep _ | setUserData _ _ | copyPrologue _ | recoverSignedSuffix _ _
  | purge | reopen _ => exact hop.elim

/-- At every moment of a run of writes the author's log is coherent and full. -/
theorem Coherent.moments (hst : st.Lawful) : ∀ {ops : List (CoreOp T H Sig SK S)} {log : Log H}
    {core core' : Hypercore H Sig SK S}, Coherent c st w log core → log.Full →
    (∀ op ∈ ops, op.IsWrite) → core' ∈ moments c st w codec ops core →
    ∃ log' : Log H, Coherent c st w log' core' ∧ log'.Full
  | [], log, core, core', h, hfull, _, hmem => by
    rw [List.mem_singleton.mp hmem]
    exact ⟨log, h, hfull⟩
  | op :: rest, log, core, core', h, hfull, hops, hmem => by
    obtain rfl | hmem := List.mem_cons.mp hmem
    · exact ⟨log, h, hfull⟩
    · obtain ⟨log', h', hfull'⟩ := h.after_write hst hfull (hops op List.mem_cons_self)
      exact Coherent.moments hst h' hfull' (fun op' hop' => hops op' (List.mem_cons_of_mem op hop')) hmem

/-- An offer of a coherent and full log names one of its blocks, under a head over all of them. -/
theorem Coherent.offers (h : Coherent c st w log core) (hfull : log.Full) {i : ℕ}
    {offer : Offer H Sig} (hoffer : core.offers st w i = some offer) :
    core.head.isSome ∧ core.blockList st w = log.bytes ∧ log.bytes[offer.index]? = some offer.enc ∧
      offer.head.length = log.bytes.length ∧
      offer.head.root = c.hasher.treeHash (rootsOf c.hasher log.bytes) := by
  obtain ⟨head, hhead, hrest⟩ := Option.bind_eq_some_iff.mp hoffer
  obtain ⟨enc, hblock, hrest⟩ := Option.bind_eq_some_iff.mp hrest
  obtain ⟨proof, -, hpure⟩ := Option.bind_eq_some_iff.mp hrest
  obtain rfl := Option.some.inj hpure
  have hverified := h.verified
  rw [verifyHead, hhead, h.built.rootHash, h.len_eq, ← Log.length_bytes] at hverified
  simp only [Bool.and_eq_true, beq_iff_eq, Option.some.injEq] at hverified
  rw [h.toKept.block, hfull.read] at hblock
  exact ⟨by rw [hhead]; rfl, h.toKept.blockList_eq hfull, hblock, hverified.1.1.2, hverified.1.2.symm⟩

end Hypercore

namespace Replica

variable {r : Replica K H Sig S'} {A B : List Block}

/-- An offer adds the next block or none. -/
theorem Stored.offered_cases (hb : b.Lawful) (h : Stored c b A r) (offer : Offer H Sig) :
    Stored c b A (r.offered c b offer) ∨
      offer.index = A.length ∧ Stored c b (A ++ [offer.enc]) (r.offered c b offer) := by
  refine (ends_addBlock hb offer.head offer.index offer.enc offer.proof r).always
    (P := fun r' => Stored c b A r' ∨ offer.index = A.length ∧ Stored c b (A ++ [offer.enc]) r')
    (fun accepted r' hadd => ?_) fun e r' hfail => ?_
  · obtain ⟨hiff, heffect⟩ := hadd
    cases accepted with
    | false => exact Or.inl (heffect ▸ h)
    | true => exact Or.inr ⟨(hiff.mp rfl).1.trans h.len_eq, h.accept heffect⟩
  · obtain ⟨-, s, rfl, hk⟩ := hfail
    exact Or.inl (h.store hk)

theorem Stored.offered_all (hb : b.Lawful) : ∀ {offers : List (Offer H Sig)}
    {r : Replica K H Sig S'} {A : List Block}, Stored c b A r →
    ∃ A', Stored c b A' (offers.foldl (Replica.offered c b) r)
  | [], _, A, h => ⟨A, h⟩
  | offer :: rest, r, A, h => by
    rw [List.foldl_cons]
    obtain h' | ⟨-, h'⟩ := h.offered_cases hb offer
    · exact Stored.offered_all hb h'
    · exact Stored.offered_all hb h'

/-- An offer that verifies only for the blocks of `L` leaves a beginning of `L`. -/
theorem Stored.offered_begins (hb : b.Lawful) {L : List Block} (h : Stored c b A r) (hA : A <+: L)
    {offer : Offer H Sig}
    (hL : verifyBlock c r.publicKey offer.head offer.index offer.enc offer.proof = true →
      L[offer.index]? = some offer.enc) :
    (r.offered c b offer).publicKey = r.publicKey ∧ ∃ A', Stored c b A' (r.offered c b offer) ∧ A' <+: L := by
  refine (ends_addBlock hb offer.head offer.index offer.enc offer.proof r).always
    (P := fun r' => r'.publicKey = r.publicKey ∧ ∃ A', Stored c b A' r' ∧ A' <+: L)
    (fun accepted r' hadd => ?_) fun e r' hfail => ?_
  · obtain ⟨hiff, heffect⟩ := hadd
    cases accepted with
    | false => exact ⟨congrArg publicKey heffect, A, heffect ▸ h, hA⟩
    | true =>
      obtain ⟨hindex, hverify⟩ := hiff.mp rfl
      have hnext := hL (hindex ▸ hverify)
      rw [hindex, h.len_eq] at hnext
      obtain ⟨hlt, hget⟩ := List.getElem?_eq_some_iff.mp hnext
      exact ⟨heffect.publicKey_eq, _, h.accept heffect, hget ▸ List.concat_get_prefix hA hlt⟩
  · obtain ⟨-, s, rfl, hk⟩ := hfail
    exact ⟨rfl, A, h.store hk, hA⟩

theorem Stored.offers_begin (hb : b.Lawful) {L : List Block} : ∀ {offers : List (Offer H Sig)}
    {r : Replica K H Sig S'} {A : List Block}, Stored c b A r → A <+: L →
    (∀ offer ∈ offers, verifyBlock c r.publicKey offer.head offer.index offer.enc offer.proof = true →
      L[offer.index]? = some offer.enc) →
    ∃ A', Stored c b A' (offers.foldl (offered c b) r) ∧ A' <+: L
  | [], r, A, h, hA, _ => ⟨A, h, hA⟩
  | offer :: rest, r, A, h, hA, hL => by
    obtain ⟨hkey, A', h', hA'⟩ := h.offered_begins hb hA (hL offer List.mem_cons_self)
    exact h'.offers_begin hb hA' fun offer' hmem => hkey ▸ hL offer' (List.mem_cons_of_mem offer hmem)

/-- The gate holds only for heads of logs that extend what the replica holds. -/
theorem prefix_of_verifyUpgrade (ideal : c.hasher.Ideal) (h : Stored c b A r)
    {newHead : SignedHead H Sig} (hroot : newHead.root = c.hasher.treeHash (rootsOf c.hasher B))
    {proof : UpgradeProof H} (hv : r.verifyUpgrade c newHead proof = true) : A <+: B := by
  rw [verifyUpgrade, h.built.roots, Option.any_some, hroot] at hv
  obtain ⟨-, -, hprefix, -⟩ := UpgradeProof.verify_sound ideal (Bool.and_eq_true_iff.mp hv).2
  exact hprefix

variable (c st w codec) in
/-- `A` begins the block list of a head signed in the run. -/
def Begins (ops : List (CoreOp T H Sig SK S)) (start : Hypercore H Sig SK S) (A : List Block) : Prop :=
  ∃ core ∈ moments c st w codec ops start, core.head.isSome ∧ A <+: core.blockList st w

variable {ops : List (CoreOp T H Sig SK S)} {start : Hypercore H Sig SK S}

/-- What a gated replica holds after a genuine offer begins a signed log. -/
theorem Stored.gated (ideal : c.hasher.Ideal) (hst : st.Lawful) (hb : b.Lawful)
    (hstart : Hypercore.Coherent c st w log start) (hfull : log.Full) (hops : ∀ op ∈ ops, op.IsWrite)
    (h : Stored c b A r) {offer : Offer H Sig}
    (hgenuine : ∃ core ∈ moments c st w codec ops start, core.offers st w offer.index = some offer)
    (hgate : r.len = 0 ∨ ∃ proof, r.verifyUpgrade c offer.head proof = true) :
    ∃ A', Stored c b A' (r.offered c b offer) ∧ Begins c st w codec ops start A' := by
  obtain ⟨core, hmem, hoffer⟩ := hgenuine
  obtain ⟨log', hcoh, hfull'⟩ := hstart.moments hst hfull hops hmem
  obtain ⟨hsome, hlist, hblock, -, hroot⟩ := hcoh.offers hfull' hoffer
  have hprefix : A <+: log'.bytes := by
    obtain hzero | ⟨proof, hv⟩ := hgate
    · rw [List.eq_nil_of_length_eq_zero (h.len_eq.symm.trans hzero)]
      exact List.nil_prefix
    · exact prefix_of_verifyUpgrade ideal h hroot hv
  obtain hsame | ⟨hindex, hnext⟩ := h.offered_cases hb offer
  · exact ⟨A, hsame, core, hmem, hsome, hlist ▸ hprefix⟩
  · refine ⟨_, hnext, core, hmem, hsome, ?_⟩
    obtain ⟨tail, htail⟩ := hprefix
    rw [hlist]
    rw [hindex, ← htail, List.getElem?_append_right le_rfl, Nat.sub_self] at hblock
    cases tail with
    | nil => cases hblock
    | cons data tail =>
      obtain rfl := Option.some.inj hblock
      exact ⟨tail, by rw [← htail, List.append_assoc, List.singleton_append]⟩

theorem Stored.gated_all (ideal : c.hasher.Ideal) (hst : st.Lawful) (hb : b.Lawful)
    (hstart : Hypercore.Coherent c st w log start) (hfull : log.Full) (hops : ∀ op ∈ ops, op.IsWrite) :
    ∀ {offers : List (Offer H Sig)} {r : Replica K H Sig S'} {A : List Block}, Stored c b A r →
    (offers ≠ [] ∨ Begins c st w codec ops start A) →
    (∀ offer ∈ offers, ∃ core ∈ moments c st w codec ops start,
      core.offers st w offer.index = some offer) → Gated c b offers r →
    ∃ A', Stored c b A' (offers.foldl (offered c b) r) ∧ Begins c st w codec ops start A'
  | [], r, A, h, hbegins, _, _ => by
    obtain hne | hbegins := hbegins
    · exact absurd rfl hne
    · exact ⟨A, h, hbegins⟩
  | offer :: rest, r, A, h, _, hgenuine, hgated => by
    obtain ⟨A', h', hbegins'⟩ := h.gated ideal hst hb hstart hfull hops
      (hgenuine offer List.mem_cons_self) hgated.1
    rw [List.foldl_cons]
    exact Stored.gated_all ideal hst hb hstart hfull hops h' (Or.inr hbegins')
      (fun o ho => hgenuine o (List.mem_cons_of_mem offer ho)) hgated.2

theorem gated_follows (ideal : c.hasher.Ideal) (hst : st.Lawful) (hb : b.Lawful) (author : SK)
    (store : S) (prologue : Option (Prologue H)) (ops : List (CoreOp T H Sig SK S))
    (hops : ∀ op ∈ ops, op.IsWrite) (publicKey : K) (replicaStore : S') (offers : List (Offer H Sig))
    (hgenuine : ∀ offer ∈ offers, ∃ core ∈ moments c st w codec ops
      { Hypercore.new author store with prologue }, core.offers st w offer.index = some offer)
    (hsome : offers ≠ []) (hgated : Gated c b offers (new publicKey replicaStore)) :
    ∃ A, Holds b (offers.foldl (offered c b) (new publicKey replicaStore)) A ∧
      Begins c st w codec ops { Hypercore.new author store with prologue } A := by
  have hfull : (Log.fresh prologue).Full := fun _ hp => absurd hp List.not_mem_nil
  obtain ⟨A, hA, hbegins⟩ := (stored_new publicKey replicaStore).gated_all ideal hst hb
    (Hypercore.coherent_new author store prologue) hfull hops (Or.inl hsome) hgenuine hgated
  exact ⟨A, hA.holds, hbegins⟩

end Replica
end Follow

/-! ### An author with symbolic hashes and signatures -/

/-- Some encoding of symbolic hashes and signatures. -/
noncomputable def Wire.symbolic : Wire Digest (Unit × HeadMessage Digest) :=
  ⟨.ofCountable _, .ofCountable _⟩

/-- An author in memory, and what it can be asked for. -/
noncomputable abbrev symbolicMoments (ops : List (CoreOp Block Digest (Unit × HeadMessage Digest) Unit
    (ExtTreeMap ℕ (List UInt8)))) :
    List (Hypercore Digest (Unit × HeadMessage Digest) Unit (ExtTreeMap ℕ (List UInt8))) :=
  moments (Crypto.symbolic id) Store.memory Wire.symbolic Codec.plain ops
    { Hypercore.new () ∅ with prologue := none }

/-- Block `i` as offered at moment `k` of a run. -/
noncomputable def offerAt (ops : List (CoreOp Block Digest (Unit × HeadMessage Digest) Unit
    (ExtTreeMap ℕ (List UInt8)))) (k i : ℕ) : Option (Offer Digest (Unit × HeadMessage Digest)) :=
  (symbolicMoments ops)[k]?.bind fun core => core.offers Store.memory Wire.symbolic i

theorem offerAt_genuine {ops : List (CoreOp Block Digest (Unit × HeadMessage Digest) Unit
    (ExtTreeMap ℕ (List UInt8)))} {k i : ℕ} {offer : Offer Digest (Unit × HeadMessage Digest)}
    (h : offerAt ops k i = some offer) : ∃ core ∈ symbolicMoments ops,
      core.offers Store.memory Wire.symbolic offer.index = some offer := by
  obtain ⟨core, hcore, hoffer⟩ := Option.bind_eq_some_iff.mp h
  have hindex : offer.index = i := by
    obtain ⟨head, -, hrest⟩ := Option.bind_eq_some_iff.mp hoffer
    obtain ⟨enc, -, hrest⟩ := Option.bind_eq_some_iff.mp hrest
    obtain ⟨proof, -, hpure⟩ := Option.bind_eq_some_iff.mp hrest
    rw [← Option.some.inj hpure]
  exact ⟨core, List.mem_of_getElem? hcore, hindex ▸ hoffer⟩

/-- Two blocks are written, and both written over. -/
def forkedRun : List (CoreOp Block Digest (Unit × HeadMessage Digest) Unit (ExtTreeMap ℕ (List UInt8))) :=
  [.append [1], .append [2], .truncate 0, .append [3], .append [4]]

/-- A replica in memory after some offers. -/
def replicaAfter (offers : List (Offer Digest (Unit × HeadMessage Digest))) :
    Replica Unit Digest (Unit × HeadMessage Digest) (MemoryStore Digest (Unit × HeadMessage Digest)) :=
  offers.foldl (Replica.offered (Crypto.symbolic id) (Backend.memory _ _))
    (Replica.new () MemoryStore.new)

theorem holds_replicaAfter {offers : List (Offer Digest (Unit × HeadMessage Digest))} {B : List Block}
    (h : (replicaAfter offers).readAll (Backend.memory _ _) = B.map some) :
    Replica.Holds (Backend.memory _ _) (replicaAfter offers) B := by
  obtain ⟨A, hA⟩ : ∃ A, Replica.Stored (Crypto.symbolic id) (Backend.memory _ _) A (replicaAfter offers) :=
    (Replica.stored_new () MemoryStore.new).offered_all Backend.memory_lawful
  exact hA.holds_of_readAll h

/-- Offered block 0 of the first history and block 1 of the second, a replica takes both. -/
theorem offered_mixes_forks : ∃ offers : List (Offer Digest (Unit × HeadMessage Digest)),
    (∀ offer ∈ offers, ∃ core ∈ symbolicMoments forkedRun,
      core.offers Store.memory Wire.symbolic offer.index = some offer) ∧
    Replica.Holds (Backend.memory _ _) (replicaAfter offers) [[1], [4]] ∧
    ¬ Replica.Begins (Crypto.symbolic id) Store.memory Wire.symbolic Codec.plain forkedRun
      { Hypercore.new () ∅ with prologue := none } [[1], [4]] := by
  have hblocks : ((offerAt forkedRun 2 0).bind fun first => (offerAt forkedRun 5 1).map fun second =>
      (replicaAfter [first, second]).readAll (Backend.memory _ _)) =
      some [some [1], some [4]] := by decide +kernel
  have hlists : (symbolicMoments forkedRun).map (·.blockList Store.memory Wire.symbolic) =
      [[], [[1]], [[1], [2]], [], [[3]], [[3], [4]]] := by decide +kernel
  obtain ⟨first, hfirst, hrest⟩ := Option.bind_eq_some_iff.mp hblocks
  obtain ⟨second, hsecond, hheld⟩ := Option.map_eq_some_iff.mp hrest
  refine ⟨[first, second], fun offer hoffer => ?_, holds_replicaAfter hheld, fun hbegins => ?_⟩
  · obtain rfl | hoffer := List.mem_cons.mp hoffer
    · exact offerAt_genuine hfirst
    · exact List.mem_singleton.mp hoffer ▸ offerAt_genuine hsecond
  · obtain ⟨core, hcore, -, hprefix⟩ := hbegins
    have hmem : core.blockList Store.memory Wire.symbolic ∈
        [[], [[1]], [[1], [2]], [], [[3]], [[3], [4]]] := hlists ▸ List.mem_map_of_mem hcore
    revert hprefix hmem
    generalize core.blockList Store.memory Wire.symbolic = l
    intro hprefix hmem
    have hnone : ∀ l ∈ ([[], [[1]], [[1], [2]], [], [[3]], [[3], [4]]] : List (List Block)),
        ¬ [[1], [4]] <+: l := by decide
    exact hnone l hmem hprefix

/-- Two blocks are written, and the second written over. -/
def rewrittenTail : List (CoreOp Block Digest (Unit × HeadMessage Digest) Unit (ExtTreeMap ℕ (List UInt8))) :=
  [.append [1], .append [2], .truncate 1, .append [3]]

theorem gated_follows_rewritten : ∃ first second : Offer Digest (Unit × HeadMessage Digest),
    offerAt rewrittenTail 2 0 = some first ∧ offerAt rewrittenTail 4 1 = some second ∧
    ∃ A, Replica.Holds (Backend.memory _ _) (replicaAfter [first, second]) A ∧
      Replica.Begins (Crypto.symbolic id) Store.memory Wire.symbolic Codec.plain rewrittenTail
        { Hypercore.new () ∅ with prologue := none } A := by
  have hgate : ((offerAt rewrittenTail 2 0).bind fun first => (offerAt rewrittenTail 4 1).bind fun second =>
      (symbolicMoments rewrittenTail)[4]?.bind fun core => (core.tree.upgradeProof 1 2).map
        ((replicaAfter [first]).verifyUpgrade (Crypto.symbolic id) second.head)) = some true := by
    decide +kernel
  obtain ⟨first, hfirst, hrest⟩ := Option.bind_eq_some_iff.mp hgate
  obtain ⟨second, hsecond, hrest⟩ := Option.bind_eq_some_iff.mp hrest
  obtain ⟨core, -, hrest⟩ := Option.bind_eq_some_iff.mp hrest
  obtain ⟨proof, -, hverify⟩ := Option.map_eq_some_iff.mp hrest
  refine ⟨first, second, hfirst, hsecond, ?_⟩
  refine Replica.gated_follows Merkle.Hasher.symbolic_ideal Store.memory_lawful Backend.memory_lawful ()
    ∅ none rewrittenTail ?_ () MemoryStore.new [first, second] ?_ (List.cons_ne_nil _ _)
    ⟨Or.inl rfl, Or.inr ⟨proof, hverify⟩, trivial⟩
  · intro op hop
    fin_cases hop <;> trivial
  · intro offer hoffer
    obtain rfl | hoffer := List.mem_cons.mp hoffer
    · exact offerAt_genuine hfirst
    · exact List.mem_singleton.mp hoffer ▸ offerAt_genuine hsecond

end HypercoreRs
