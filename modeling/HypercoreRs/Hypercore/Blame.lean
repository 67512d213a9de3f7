/-
# An honest author is never to blame

Two heads an author signed at one fork that no log contains together are evidence
against it: `conflictingHeads` finds them at one length, a `ForkProof` shows two
different blocks under one number.

What the writing operations do, whether they succeed or fail, comes down to four steps:
something else than the log changes, the tree grows by a block, the tree is cut under
the next fork, or the head is signed (`Step`). For each fork there is then one list of
blocks, growing while the fork lasts, that every head signed at the fork begins
(`Own`), and two beginnings of one list are no evidence. It is what all replicas of the
fork hold beginnings of (`replicas_follow_fork`).
-/
import HypercoreRs.Hypercore.Gate

namespace HypercoreRs

open Std Merkle Command Storage Relation

/-- Evidence that one author committed two different blocks under one number. -/
structure ForkProof (H Sig : Type) where
  headA : SignedHead H Sig
  headB : SignedHead H Sig
  index : ℕ
  dataA : Block
  dataB : Block
  proofA : Merkle.Proof H
  proofB : Merkle.Proof H

section Evidence

variable {K H Sig SK : Type} [DecidableEq H] (c : Crypto K H Sig SK)

/-- Two signed heads of one fork and one length with different roots. -/
def conflictingHeads (publicKey : K) (a b : SignedHead H Sig) : Bool :=
  a.fork == b.fork && a.length == b.length && a.root != b.root &&
    verifySignedHead c publicKey a && verifySignedHead c publicKey b

def ForkProof.verify (p : ForkProof H Sig) (publicKey : K) : Bool :=
  p.headA.fork == p.headB.fork &&
    verifyBlock c publicKey p.headA p.index p.dataA p.proofA &&
    verifyBlock c publicKey p.headB p.index p.dataB p.proofB && p.dataA != p.dataB

end Evidence

/-- An honest author makes any calls but those that take over a foreign head or start again
empty. -/
def CoreOp.IsHonest {T H Sig SK S : Type} : CoreOp T H Sig SK S → Prop
  | .recoverSignedSuffix _ _ => False
  | .purge => False
  | _ => True

namespace Hypercore

variable {K H Sig SK S E T : Type}

/-- One change of the log. -/
inductive Step (c : Crypto K H Sig SK) : Hypercore H Sig SK S → Hypercore H Sig SK S → Prop
  /-- Neither tree nor fork nor head. -/
  | keep {core core' : Hypercore H Sig SK S} : core'.tree = core.tree → core'.fork = core.fork →
      core'.head = core.head → Step c core core'
  | grow {core core' : Hypercore H Sig SK S} (data : Block) :
      core'.tree = (core.tree.append c.hasher data).1 → core'.fork = core.fork →
      core'.head = core.head → Step c core core'
  | cut {core core' : Hypercore H Sig SK S} (n : ℕ) : n < core.len →
      core'.tree = (core.tree.truncate n).1 → core'.fork = core.fork + 1 →
      core'.head = core.head → Step c core core'
  | sign {core core' : Hypercore H Sig SK S} : resign c core = some core' → Step c core core'

variable {c : Crypto K H Sig SK} {st : Store S E} {w : Wire H Sig} {codec : Codec T}
variable {core core' : Hypercore H Sig SK S}

/-! ### The operations, step by step -/

/-- The relation allows every change but of tree, fork and head. -/
def Lenient (r : Hypercore H Sig SK S → Hypercore H Sig SK S → Prop) : Prop :=
  ∀ {core core' : Hypercore H Sig SK S}, core'.tree = core.tree → core'.fork = core.fork →
    core'.head = core.head → r core core'

theorem lenient_step : Lenient (S := S) (Step c) := fun htree hfork hhead => .keep htree hfork hhead

variable {r : Hypercore H Sig SK S → Hypercore H Sig SK S → Prop}

/-- Whatever is done to the store. -/
theorem steps_store (hr : Lenient r) {ε α : Type} (conv : ε → CoreError (LayoutError E))
    (x : EStateM ε S α) (core : Hypercore H Sig SK S) :
    Within (ReflTransGen r) (zoom (·.store) (fun s core => { core with store := s }) conv x) core
      fun _ core' => ∃ s, core' = { core with store := s } :=
  Within.zoom (Within.any x core.store) (fun _ _ => .single (hr rfl rfl rfl)) fun _ s _ _ => ⟨s, rfl⟩

theorem steps_resigned (core : Hypercore H Sig SK S) :
    Within (ReflTransGen (Step c)) (resigned c : EStateM (CoreError (LayoutError E)) _ _) core
      fun _ _ => True := by
  unfold resigned
  apply Within.get
  cases hsign : resign c core with
  | none => exact Within.fail _
  | some core' => exact ⟨.single (.sign hsign), trivial⟩

theorem steps_append (value : T) (core : Hypercore H Sig SK S) :
    Within (ReflTransGen (Step c)) (append c (backend w st) codec value) core fun _ _ => True := by
  unfold append
  apply Within.get
  refine Within.seq (steps_store lenient_step _ _ core) fun _ core₁ _ h₁ => ?_
  obtain ⟨s, rfl⟩ := h₁
  apply Within.get
  dsimp only
  split
  · next signed hsign =>
    refine Within.assign ?_ (Within.ret trivial)
    refine ReflTransGen.head (.grow (codec.encode value) ?_ ?_ ?_) (.single (.sign hsign)) <;> rfl
  · exact Within.fail _

theorem steps_grow : ∀ (l : List Block) (core : Hypercore H Sig SK S),
    ReflTransGen (Step c) core (l.foldl (Hypercore.grow c) core)
  | [], _ => .refl
  | data :: rest, core => by
    have hstep : Step c core (Hypercore.grow c core data) := .grow data rfl rfl rfl
    rw [List.foldl_cons]
    exact .head hstep (steps_grow rest _)

theorem steps_commit (batch : Batch) (core : Hypercore H Sig SK S) :
    Within (ReflTransGen (Step c)) (commit c st w batch) core fun _ _ => True := by
  unfold commit
  apply Within.get
  split_ifs
  · exact Within.ret trivial
  · exact Within.ret trivial
  · refine Within.seq (steps_store lenient_step _ _ core) fun _ core₁ _ _ => ?_
    refine Within.update (steps_grow batch.encoded core₁) ?_
    refine Within.seq (steps_resigned _) fun _ core₂ _ _ => ?_
    exact Within.get (Within.ret trivial)

theorem steps_appendAll (values : List T) (core : Hypercore H Sig SK S) :
    Within (ReflTransGen (Step c)) (appendAll c st w codec values) core fun _ _ => True := by
  unfold appendAll
  apply Within.get
  split_ifs
  · exact Within.ret trivial
  · refine Within.seq (steps_commit _ core) fun _ core₁ _ _ => ?_
    exact Within.get (Within.ret trivial)

theorem steps_truncate (n : ℕ) (core : Hypercore H Sig SK S) :
    Within (ReflTransGen (Step c))
      (truncate c n : EStateM (CoreError (LayoutError E)) _ _) core fun _ _ => True := by
  unfold truncate
  apply Within.get
  split_ifs with hpro hge
  · exact Within.ret trivial
  · exact Within.ret trivial
  · refine Within.assign (.single (.cut n (Nat.lt_of_not_le hge) rfl rfl rfl)) ?_
    exact Within.seq (steps_resigned _) fun _ _ _ _ => Within.ret trivial

/-- A loop takes the steps of its rounds. -/
theorem steps_sumOver {f : ℕ → EStateM (CoreError (LayoutError E)) (Hypercore H Sig SK S) ℕ}
    (hf : ∀ i core, Within (ReflTransGen r) (f i) core fun _ _ => True) :
    ∀ (l : List ℕ) (core : Hypercore H Sig SK S),
    Within (ReflTransGen r) (sumOver f l) core fun _ _ => True
  | [], _ => Within.ret trivial
  | i :: rest, core => by
    rw [sumOver]
    refine Within.seq (hf i core) fun _ core₁ _ _ => ?_
    exact Within.seq (steps_sumOver hf rest core₁) fun _ _ _ _ => Within.ret trivial

theorem steps_clear (hr : Lenient r) (start end_ : ℕ) (core : Hypercore H Sig SK S) :
    Within (ReflTransGen r) (clear st start end_) core fun _ _ => True := by
  unfold clear
  apply Within.get
  refine steps_sumOver (fun i core => ?_) _ core
  unfold clearBlock
  apply Within.get
  split_ifs
  · refine Within.update (.single (hr rfl rfl rfl)) ?_
    exact Within.seq (steps_store hr _ _ _) fun _ _ _ _ => Within.ret trivial
  · exact Within.ret trivial

theorem steps_sweep (hr : Lenient r) (keep : ℕ → Bool) (core : Hypercore H Sig SK S) :
    Within (ReflTransGen r) (sweep st keep) core fun _ _ => True := by
  unfold sweep
  apply Within.get
  refine steps_sumOver (fun i core => ?_) _ core
  unfold sweepBlock
  apply Within.get
  split_ifs
  · refine Within.seq (steps_store hr _ _ _) fun _ core₁ _ _ => ?_
    exact Within.update (.single (hr rfl rfl rfl)) (Within.ret trivial)
  · exact Within.ret trivial

theorem steps_setUserData (hr : Lenient r) (key value : List UInt8) (core : Hypercore H Sig SK S) :
    Within (ReflTransGen r) (setUserData st key value) core fun _ _ => True := by
  unfold setUserData
  apply Within.get
  refine Within.look fun _ _ => ?_
  exact (steps_store hr _ _ core).mono (fun _ h => h) fun _ _ _ _ => trivial

theorem steps_copyBlocks (source : Hypercore H Sig SK S) : ∀ (l : List ℕ) (core : Hypercore H Sig SK S),
    Within (ReflTransGen (Step c)) (copyBlocks c st w source l) core fun _ _ => True
  | [], _ => Within.ret trivial
  | i :: rest, core => by
    rw [copyBlocks]
    refine Within.seq (Q := fun _ _ => True) ?_ fun _ core₁ _ _ => steps_copyBlocks source rest core₁
    unfold copyBlock
    refine Within.look fun enc _ => ?_
    refine Within.seq (steps_store lenient_step _ _ core) fun _ core₁ _ _ => ?_
    exact Within.modify (.single (.grow enc rfl rfl rfl)) trivial

variable [DecidableEq H]

theorem steps_copyPrologue (source core : Hypercore H Sig SK S) :
    Within (ReflTransGen (Step c)) (copyPrologue c st w source) core fun _ _ => True := by
  unfold copyPrologue
  apply Within.get
  cases core.prologue with
  | none => exact Within.fail _
  | some pr =>
    dsimp only
    split_ifs
    · exact Within.fail _
    · exact Within.fail _
    · refine Within.seq (steps_copyBlocks source _ core) fun _ core₁ _ _ => ?_
      exact Within.seq (steps_resigned core₁) fun _ _ _ _ => Within.ret trivial

/-- What is opened from what was persisted just before is the same log. -/
theorem steps_reopen (hr : Lenient r) (hst : st.Lawful) (author : SK) (core : Hypercore H Sig SK S) :
    Within (ReflTransGen r) (reopen c st w author) core fun _ _ => True := by
  unfold reopen
  have hpersist : Within (ReflTransGen r) (persist (backend w st)) core
      fun _ core' => ∃ s, core' = { core with store := s } ∧ Persisted st w core s := by
    refine within_iff.mpr ((ends_persist hst core).mono (fun _ core' h => ?_) fun _ core' h => ?_)
    · obtain ⟨s, rfl, -, hpersisted⟩ := h
      exact ⟨.single (hr rfl rfl rfl), s, rfl, hpersisted⟩
    · obtain ⟨s, rfl, -⟩ := h
      exact .single (hr rfl rfl rfl)
  refine Within.seq hpersist fun _ core₁ _ h₁ => ?_
  obtain ⟨s, rfl, hpersisted⟩ := h₁
  apply Within.get
  refine Within.look fun opened hopen => ?_
  rw [hpersisted.openFrom] at hopen
  obtain ⟨rfl, -⟩ := checked_ok hopen
  exact ⟨.single (hr rfl rfl rfl), trivial⟩

/-- Any of the calls, failed or not. -/
theorem steps_op (hst : st.Lawful) {op : CoreOp T H Sig SK S} (hop : op.IsHonest)
    (core : Hypercore H Sig SK S) :
    ReflTransGen (Step c) core (after (op.run c st w codec) core) := by
  have hdrop : ∀ {α : Type} {x : EStateM (CoreError (LayoutError E)) (Hypercore H Sig SK S) α},
      Within (ReflTransGen (Step c)) x core (fun _ _ => True) →
      ReflTransGen (Step c) core (after (do let _ ← x) core) := fun h =>
    (Within.seq h fun _ _ _ _ => Within.ret (Q := fun _ _ => True) trivial).after
  cases op with
  | append value => exact hdrop (steps_append value core)
  | appendAll values => exact hdrop (steps_appendAll values core)
  | commit batch => exact hdrop (steps_commit batch core)
  | truncate n => exact hdrop (steps_truncate n core)
  | clear start end_ => exact hdrop (steps_clear lenient_step start end_ core)
  | sweep keep => exact hdrop (steps_sweep lenient_step keep core)
  | setUserData key value => exact (steps_setUserData lenient_step key value core).after
  | copyPrologue source => exact hdrop (steps_copyPrologue source core)
  | reopen author => exact (steps_reopen lenient_step hst author core).after
  | recoverSignedSuffix _ _ | purge => exact hop.elim

/-! ### One list for each fork -/

variable (c) in
/-- The head is over a beginning of the list of its fork. -/
def Over (L : ℕ → List Block) (h : SignedHead H Sig) : Prop :=
  h.length ≤ (L h.fork).length ∧ h.root = c.hasher.treeHash (rootsOf c.hasher ((L h.fork).take h.length))

variable (c) in
/-- The tree is of the list of the current fork, the head over a list, and no fork to
come has a list yet. -/
structure Own (L : ℕ → List Block) (core : Hypercore H Sig SK S) : Prop where
  built : Built c.hasher (L core.fork) core.tree
  heads : ∀ h, core.head = some h → Over c L h
  unused : ∀ f, core.fork < f → L f = []

variable {h : SignedHead H Sig}

omit [DecidableEq H] in
theorem Over.mono {L L' : ℕ → List Block} (ho : Over c L h) (hL : ∀ f, L f <+: L' f) : Over c L' h := by
  obtain ⟨hle, hroot⟩ := ho
  refine ⟨hle.trans (hL h.fork).length_le, hroot.trans ?_⟩
  obtain ⟨tail, htail⟩ := hL h.fork
  rw [← htail, List.take_append_of_le_length hle]

variable {L : ℕ → List Block}

omit [DecidableEq H] in
/-- A step lets the lists grow. -/
theorem Own.step (h : Own c L core) (hstep : Step c core core') :
    ∃ L', (∀ f, L f <+: L' f) ∧ Own c L' core' := by
  cases hstep with
  | keep htree hfork hhead =>
    refine ⟨L, fun f => List.prefix_rfl, ?_, ?_, ?_⟩
    · rw [htree, hfork]
      exact h.built
    · rw [hhead]
      exact h.heads
    · rw [hfork]
      exact h.unused
  | grow data htree hfork hhead =>
    have hle : ∀ f, L f <+: Function.update L core.fork (L core.fork ++ [data]) f := by
      intro f
      by_cases hf : f = core.fork
      · rw [hf, Function.update_self]
        exact List.prefix_append _ _
      · rw [Function.update_of_ne hf]
    refine ⟨_, hle, ?_, fun head hsome => (h.heads head (hhead ▸ hsome)).mono hle, fun f hf => ?_⟩
    · rw [htree, hfork, Function.update_self]
      exact h.built.append data
    · rw [hfork] at hf
      rw [Function.update_of_ne (Nat.ne_of_gt hf), h.unused f hf]
  | cut n hn htree hfork hhead =>
    have hle : ∀ f, L f <+: Function.update L (core.fork + 1) ((L core.fork).take n) f := by
      intro f
      by_cases hf : f = core.fork + 1
      · rw [hf, h.unused _ (Nat.lt_succ_self _)]
        exact List.nil_prefix
      · rw [Function.update_of_ne hf]
    refine ⟨_, hle, ?_, fun head hsome => (h.heads head (hhead ▸ hsome)).mono hle, fun f hf => ?_⟩
    · rw [htree, hfork, Function.update_self]
      have hlt : n < (L core.fork).length := hn.trans_eq h.built.length_eq
      exact (h.built.truncate hlt).2
    · rw [hfork] at hf
      rw [Function.update_of_ne (Nat.ne_of_gt hf), h.unused f (by omega)]
  | sign hsign =>
    obtain ⟨root, hroot, rfl⟩ := Option.map_eq_some_iff.mp hsign
    refine ⟨L, fun f => List.prefix_rfl, h.built, fun head hsome => ?_, h.unused⟩
    obtain rfl := Option.some.inj hsome
    have hlen : core.len = (L core.fork).length := h.built.length_eq
    refine ⟨hlen.le, ?_⟩
    rw [h.built.rootHash] at hroot
    dsimp only
    rw [hlen, List.take_length, Option.some.inj hroot]

omit [DecidableEq H] in
theorem Own.steps (h : Own c L core) (hsteps : ReflTransGen (Step c) core core') :
    ∃ L', (∀ f, L f <+: L' f) ∧ Own c L' core' := by
  induction hsteps with
  | refl => exact ⟨L, fun f => List.prefix_rfl, h⟩
  | tail _ hstep ih =>
    obtain ⟨L₁, hle₁, h₁⟩ := ih
    obtain ⟨L₂, hle₂, h₂⟩ := h₁.step hstep
    exact ⟨L₂, fun f => (hle₁ f).trans (hle₂ f), h₂⟩

/-- The heads of a whole run are over the lists at its end. -/
theorem Own.run (hst : st.Lawful) : ∀ {ops : List (CoreOp T H Sig SK S)} {L : ℕ → List Block}
    {core : Hypercore H Sig SK S}, Own c L core → (∀ op ∈ ops, op.IsHonest) →
    ∃ L', (∀ f, L f <+: L' f) ∧
      ∀ core' ∈ moments c st w codec ops core, ∀ h, core'.head = some h → Over c L' h
  | [], L, core, h, _ => by
    refine ⟨L, fun f => List.prefix_rfl, fun core' hmem head hhead => ?_⟩
    rw [List.mem_singleton.mp hmem] at hhead
    exact h.heads head hhead
  | op :: rest, L, core, h, hops => by
    have hsteps : ReflTransGen (Step c) core (after (op.run c st w codec) core) :=
      steps_op hst (hops op List.mem_cons_self) core
    obtain ⟨L₁, hle₁, h₁⟩ := h.steps hsteps
    obtain ⟨L₂, hle₂, hheads⟩ := Own.run hst h₁ fun op' hop' => hops op' (List.mem_cons_of_mem op hop')
    refine ⟨L₂, fun f => (hle₁ f).trans (hle₂ f), fun core' hmem head hhead => ?_⟩
    rcases List.mem_cons.mp hmem with rfl | hmem
    · exact (h.heads head hhead).mono fun f => (hle₁ f).trans (hle₂ f)
    · exact hheads core' hmem head hhead

/-! ### No evidence -/

/-- Heads over beginnings of the same lists do not conflict. -/
theorem Over.not_conflicting {a b : SignedHead H Sig} (ha : Over c L a) (hb : Over c L b) (publicKey : K) :
    conflictingHeads c publicKey a b = false := by
  by_contra hconflict
  rw [Bool.not_eq_false] at hconflict
  simp only [conflictingHeads, Bool.and_eq_true, beq_iff_eq, bne_iff_ne] at hconflict
  obtain ⟨⟨⟨⟨hfork, hlength⟩, hroot⟩, -⟩, -⟩ := hconflict
  apply hroot
  rw [ha.2, hb.2, hfork, hlength]

/-- The block proved under a head is the one in the list of its fork. -/
theorem Over.block_eq (ideal : c.hasher.Ideal) (ho : Over c L h) {publicKey : K} {index : ℕ} {data : Block}
    {proof : Merkle.Proof H} (hv : verifyBlock c publicKey h index data proof = true) :
    (L h.fork)[index]? = some data := by
  obtain ⟨-, rfl, hverify⟩ := verifyBlock_iff.mp hv
  rw [ho.2] at hverify
  obtain ⟨hlt, hdata⟩ := Proof.verify_sound ideal hverify
  rw [List.length_take] at hlt
  rwa [List.getElem?_take_of_lt (by omega)] at hdata

theorem Over.not_forked (ideal : c.hasher.Ideal) {p : ForkProof H Sig} (ha : Over c L p.headA)
    (hb : Over c L p.headB) (publicKey : K) : p.verify c publicKey = false := by
  by_contra hverify
  rw [Bool.not_eq_false] at hverify
  simp only [ForkProof.verify, Bool.and_eq_true, beq_iff_eq, bne_iff_ne] at hverify
  obtain ⟨⟨⟨hfork, hA⟩, hB⟩, hne⟩ := hverify
  have hdataA := ha.block_eq ideal hA
  have hdataB := hb.block_eq ideal hB
  rw [hfork, hdataB] at hdataA
  exact hne (Option.some.inj hdataA).symm

/-- Heads that an honest author signed, whenever and at whatever fork, are no evidence
against it. -/
theorem honest_never_blamed (ideal : c.hasher.Ideal) (hst : st.Lawful) (author : SK) (store : S)
    (prologue : Option (Prologue H)) (ops : List (CoreOp T H Sig SK S))
    (hops : ∀ op ∈ ops, op.IsHonest) (publicKey : K) {coreA coreB : Hypercore H Sig SK S}
    (hA : coreA ∈ moments c st w codec ops { new author store with prologue })
    (hB : coreB ∈ moments c st w codec ops { new author store with prologue })
    {a b : SignedHead H Sig} (ha : coreA.head = some a) (hb : coreB.head = some b) :
    conflictingHeads c publicKey a b = false ∧
      ∀ p : ForkProof H Sig, p.headA = a → p.headB = b → p.verify c publicKey = false := by
  have hown : Own c (fun _ => []) ({ new author store with prologue } : Hypercore H Sig SK S) :=
    ⟨built_new, nofun, fun _ _ => rfl⟩
  obtain ⟨L, -, hheads⟩ := hown.run hst hops
  have hoverA := hheads coreA hA a ha
  have hoverB := hheads coreB hB b hb
  refine ⟨hoverA.not_conflicting hoverB publicKey, fun p hpA hpB => ?_⟩
  subst hpA hpB
  exact hoverA.not_forked ideal hoverB publicKey

/-- The two heads of length 2 of a log whose blocks were written over. -/
theorem honest_never_blamed_forked : ∃ coreA coreB a b,
    (symbolicMoments forkedRun)[2]? = some coreA ∧ (symbolicMoments forkedRun)[5]? = some coreB ∧
    coreA.head = some a ∧ coreB.head = some b ∧
    conflictingHeads (Crypto.symbolic id) () a b = false ∧
    ∀ p : ForkProof Digest (Unit × HeadMessage Digest), p.headA = a → p.headB = b →
      p.verify (Crypto.symbolic id) () = false := by
  have hA : ((symbolicMoments forkedRun)[2]?.bind (·.head)).isSome = true := by decide +kernel
  have hB : ((symbolicMoments forkedRun)[5]?.bind (·.head)).isSome = true := by decide +kernel
  obtain ⟨a, ha⟩ := Option.isSome_iff_exists.mp hA
  obtain ⟨b, hb⟩ := Option.isSome_iff_exists.mp hB
  obtain ⟨coreA, hcoreA, ha⟩ := Option.bind_eq_some_iff.mp ha
  obtain ⟨coreB, hcoreB, hb⟩ := Option.bind_eq_some_iff.mp hb
  have hops : ∀ op ∈ forkedRun, op.IsHonest := by
    intro op hop
    fin_cases hop <;> trivial
  exact ⟨coreA, coreB, a, b, hcoreA, hcoreB, ha, hb,
    honest_never_blamed Merkle.Hasher.symbolic_ideal Store.memory_lawful () ∅ none forkedRun hops ()
      (List.mem_of_getElem? hcoreA) (List.mem_of_getElem? hcoreB) ha hb⟩

/-! ### Replicas of one fork -/

variable (codec) in
/-- Whatever they are offered under heads of one fork that the author signed: all replicas
hold beginnings of one list. -/
theorem replicas_follow_fork {S' E' : Type} {replica : Backend S' E' H Sig} (hreplica : replica.Lawful)
    (ideal : c.hasher.Ideal) (hst : st.Lawful) (author : SK) (store : S) (prologue : Option (Prologue H))
    (ops : List (CoreOp T H Sig SK S)) (hops : ∀ op ∈ ops, op.IsHonest) (publicKey : K) (fork : ℕ) :
    ∃ L, ∀ (replicaStore : S') (offers : List (Offer H Sig)),
      (∀ offer ∈ offers, offer.head.fork = fork ∧ (verifySignedHead c publicKey offer.head = true →
        ∃ core ∈ moments c st w codec ops { new author store with prologue }, core.head = some offer.head)) →
      ∃ A, Replica.Holds replica
        (offers.foldl (Replica.offered c replica) (.new publicKey replicaStore)) A ∧ A <+: L := by
  have hown : Own c (fun _ => []) ({ new author store with prologue } : Hypercore H Sig SK S) :=
    ⟨built_new, fun _ h => (by cases h), fun _ _ => rfl⟩
  obtain ⟨L, -, hheads⟩ := hown.run hst hops
  refine ⟨L fork, fun replicaStore offers hoffers => ?_⟩
  obtain ⟨A, hA, hle⟩ := (Replica.stored_new publicKey replicaStore).offers_begin hreplica
    List.nil_prefix fun offer hmem hv => by
      obtain ⟨hfork, hsigned⟩ := hoffers offer hmem
      obtain ⟨core, hcore, hhead⟩ := hsigned (verifyBlock_iff.mp hv).1
      exact hfork ▸ (hheads core hcore _ hhead).block_eq ideal hv
  exact ⟨A, hA.holds, hle⟩

/-- The first history of a log whose blocks were written over. -/
theorem replicas_follow_fork_first : ∃ (L A : List Block) (offer : Offer Digest (Unit × HeadMessage Digest)),
    offerAt forkedRun 2 0 = some offer ∧ offer.head.fork = 0 ∧
      Replica.Holds (Backend.memory _ _) (replicaAfter [offer]) A ∧ A <+: L ∧ A.length = 1 := by
  have hzero : (offerAt forkedRun 2 0).map (fun offer => (offer.head.fork, (replicaAfter [offer]).len)) =
      some (0, 1) := by decide +kernel
  obtain ⟨offer, hoffer, hvalues⟩ := Option.map_eq_some_iff.mp hzero
  obtain ⟨hfork, hlen⟩ := Prod.mk.inj hvalues
  obtain ⟨L, hL⟩ := replicas_follow_fork (c := Crypto.symbolic id) (w := Wire.symbolic) Codec.plain
    Backend.memory_lawful Merkle.Hasher.symbolic_ideal Store.memory_lawful () ∅ none forkedRun
    (fun op hop => by fin_cases hop <;> trivial) () 0
  obtain ⟨core, hcore, hoffers⟩ := offerAt_genuine hoffer
  simp only [Hypercore.offers, Option.bind_eq_bind, Option.bind_eq_some_iff] at hoffers
  obtain ⟨head, hhead, enc, -, proof, -, hpure⟩ := hoffers
  obtain ⟨A, hA, hle⟩ := hL MemoryStore.new [offer] (List.forall_mem_singleton.mpr
    ⟨hfork, fun _ => ⟨core, hcore, by rw [hhead, ← Option.some.inj hpure]⟩⟩)
  exact ⟨L, A, offer, hoffer, hfork, hA, hle, hA.1.symm.trans hlen⟩

/-! ### Evidence against two histories -/

variable {log log' : Log H} {b : SignedHead H Sig}

/-- What can be proved under the head of a coherent log is what the log was given. -/
theorem proved_iff (ideal : c.hasher.Ideal) (hcore : Coherent c st w log core)
    (hh : core.head = some h) {i : ℕ} {data : Block} :
    (∃ proof, verifyBlock c (core.publicKey c) h i data proof = true) ↔ log.bytes[i]? = some data := by
  have hverified := hcore.verified
  rw [verifyHead, hh, hcore.built.rootHash] at hverified
  simp only [Bool.and_eq_true, beq_iff_eq, Option.some.injEq] at hverified
  obtain ⟨⟨-, hroot⟩, hsig⟩ := hverified
  constructor
  · rintro ⟨proof, hv⟩
    obtain ⟨-, rfl, hverify⟩ := verifyBlock_iff.mp hv
    exact (Proof.verify_sound ideal (hroot ▸ hverify)).2
  · intro hi
    obtain ⟨proof, -, hblock, hverify⟩ := hcore.built.proof hi
    exact ⟨proof, verifyBlock_iff.mpr ⟨hsig, hblock, hroot ▸ hverify⟩⟩

/-- One key, written with in two places: its heads of one fork are evidence exactly if
the two histories differ under some number. -/
theorem blamed_iff_diverged (ideal : c.hasher.Ideal) (hcore : Coherent c st w log core)
    (hcore' : Coherent c st w log' core') (hkey : core'.publicKey c = core.publicKey c)
    (hh : core.head = some h) (hb : core'.head = some b) (hfork : h.fork = b.fork) :
    (∃ p : ForkProof H Sig, p.headA = h ∧ p.headB = b ∧ p.verify c (core.publicKey c) = true) ↔
      ∃ (i : ℕ) (x y : Block), log.bytes[i]? = some x ∧ log'.bytes[i]? = some y ∧ x ≠ y := by
  simp only [← proved_iff ideal hcore hh, ← proved_iff ideal hcore' hb, hkey]
  constructor
  · rintro ⟨⟨_, _, i, x, y, proofA, proofB⟩, rfl, rfl, hverify⟩
    simp only [ForkProof.verify, Bool.and_eq_true, bne_iff_ne] at hverify
    exact ⟨i, x, y, ⟨proofA, hverify.1.1.2⟩, ⟨proofB, hverify.1.2⟩, hverify.2⟩
  · rintro ⟨i, x, y, ⟨proofA, hvA⟩, ⟨proofB, hvB⟩, hne⟩
    refine ⟨⟨h, b, i, x, y, proofA, proofB⟩, rfl, rfl, ?_⟩
    simp [ForkProof.verify, hfork, hvA, hvB, hne]

/-- A second device with the key writes another block. -/
theorem blamed_iff_diverged_second : ∃ (core core' : _) (p : ForkProof Digest (Unit × HeadMessage Digest)),
    CoreOp.runAll (Crypto.symbolic id) Store.memory Wire.symbolic Codec.plain [.append [2]]
    (new () ∅) = .ok () core ∧
    CoreOp.runAll (Crypto.symbolic id) Store.memory Wire.symbolic Codec.plain [.append [3]]
      (new () ∅) = .ok () core' ∧
    core.head = some p.headA ∧ core'.head = some p.headB ∧ p.verify (Crypto.symbolic id) () = true := by
  have hreturned : ∀ data : Block, data ∈ [[2], [3]] → returned (CoreOp.runAll (Crypto.symbolic id)
      Store.memory Wire.symbolic Codec.plain [.append data] (new () ∅)) = true := by decide +kernel
  obtain ⟨_, core, hrun⟩ := exists_of_returned (hreturned [2] (by decide))
  obtain ⟨_, core', hrun'⟩ := exists_of_returned (hreturned [3] (by decide))
  have h := (coherent_new () ∅ none).runAll Store.memory_lawful _ hrun
  have h' := (coherent_new () ∅ none).runAll Store.memory_lawful _ hrun'
  obtain ⟨a, ha, hfork, -⟩ := h.exists_head (h.len_eq ▸ Nat.one_pos)
  obtain ⟨b, hb, hfork', -⟩ := h'.exists_head (h'.len_eq ▸ Nat.one_pos)
  obtain ⟨p, rfl, rfl, hverify⟩ := (blamed_iff_diverged Merkle.Hasher.symbolic_ideal h h' rfl ha hb
    (by rw [hfork, hfork', h.fork_eq, h'.fork_eq]; rfl)).mpr ⟨0, [2], [3], rfl, rfl, by decide⟩
  exact ⟨core, core', p, hrun, hrun', ha, hb, hverify⟩

end Hypercore
end HypercoreRs
