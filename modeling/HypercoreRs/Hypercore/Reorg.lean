/-
# Following a reorg

An author that truncates signs on under a higher fork, and a replica that holds blocks
of the old history has to come after. `verifyUpgrade` ties a longer head to what the
replica holds; `reorg` follows a head of a higher fork, keeping a prefix both histories
share and dropping the rest, to be fetched again with `addBlock`.

`Reached` are the replicas their own methods can produce: their tree is the tree of the
blocks they hold, and their verified head, if any, vouches for a prefix of these. On
them a reorg is followed only where the prefix it names is shared, and fetching the
rest then ends at the new head (`feed_spec`).
-/
import HypercoreRs.Command.Ends
import HypercoreRs.Hypercore.Symbolic
import HypercoreRs.Merkle.Layout
import HypercoreRs.Merkle.Upgrade

namespace HypercoreRs

open Std Merkle Command

namespace Replica

variable {K H Sig SK S E : Type} [DecidableEq H]
variable (c : Crypto K H Sig SK) (b : Backend S E H Sig)

/-- Whether `newHead` is an append-only extension of the replica. The trees of replicas
hold their roots, so reading them does not panic. -/
def verifyUpgrade (r : Replica K H Sig S) (newHead : SignedHead H Sig) (proof : UpgradeProof H) : Bool :=
  proof.oldLen == r.tree.length && proof.newLen == newHead.length &&
    decide (newHead.length > r.tree.length) && verifySignedHead c r.publicKey newHead &&
    r.tree.roots.any fun roots => proof.verify c.hasher roots newHead.root

/-- The last check of `verify_reorg`: that the replica's first `ancestors` blocks are
those of `newHead`. -/
def sharesPrefix (r : Replica K H Sig S) (newHead : SignedHead H Sig) (ancestors : ℕ)
    (proof : Option (UpgradeProof H)) : Bool :=
  match r.tree.prefixRoots ancestors with
  | none => false
  | some anchor =>
    if ancestors = newHead.length then
      r.tree.prefixRootHash c.hasher ancestors == some newHead.root
    else if ancestors = 0 then true
    else
      match proof with
      | none => false
      | some p => p.oldLen == ancestors && p.newLen == newHead.length &&
          p.verify c.hasher anchor newHead.root

/-- Whether `newHead` is a rewrite to follow that shares the first `ancestors` blocks. -/
def verifyReorg (r : Replica K H Sig S) (newHead : SignedHead H Sig) (ancestors : ℕ)
    (proof : Option (UpgradeProof H)) : Bool :=
  match r.head with
  | none => false
  | some cur =>
    if newHead.fork ≤ cur.fork then false
    else if !verifySignedHead c r.publicKey newHead then false
    else if ancestors > r.tree.length ∨ ancestors > newHead.length then false
    else r.sharesPrefix c newHead ancestors proof

/-- Follow a reorg: keep the first `ancestors` blocks. A refused one changes nothing. -/
def reorg (r : Replica K H Sig S) (newHead : SignedHead H Sig) (ancestors : ℕ)
    (proof : Option (UpgradeProof H)) : Replica K H Sig S × Bool :=
  if !r.verifyReorg c newHead ancestors proof then (r, false)
  else
    let tree := (r.tree.truncate ancestors).1
    let head := if tree.length == newHead.length && tree.rootHash c.hasher == some newHead.root
      then some newHead else none
    ({ r with tree, head }, true)

/-- Offer the blocks of `rest` from number `i` on, each with its proof in the tree `T`;
returns whether all were accepted. -/
def feed (head : SignedHead H Sig) (T : MerkleTree H) :
    ℕ → List Block → EStateM (CoreError E) (Replica K H Sig S) Bool
  | _, [] => pure true
  | i, enc :: rest =>
    match T.proof i with
    | none => pure false
    | some proof => do
      if ← addBlock c b head i enc proof then feed head T (i + 1) rest else pure false

/-- The replicas of `publicKey`'s log that the methods produce. -/
inductive Reached (publicKey : K) : Replica K H Sig S → Prop
  | new (store : S) : Reached publicKey (new publicKey store)
  | addBlock {r : Replica K H Sig S} (head : SignedHead H Sig) (index : ℕ) (enc : Block)
      (proof : Merkle.Proof H) : Reached publicKey r →
      Reached publicKey (after (addBlock c b head index enc proof) r)
  | reorg {r : Replica K H Sig S} (newHead : SignedHead H Sig) (ancestors : ℕ)
      (proof : Option (UpgradeProof H)) : Reached publicKey r →
      Reached publicKey (r.reorg c newHead ancestors proof).1
  | persist {r : Replica K H Sig S} : Reached publicKey r → Reached publicKey (after (persist b) r)
  | reopen {r r₁ r₂ : Replica K H Sig S} : Reached publicKey r → persist b r = .ok () r₁ →
      openReplica c b publicKey r₁.store = .ok r₂ → Reached publicKey r₂

/-- The replica holds the blocks `A`, and reads them. -/
def Holds (r : Replica K H Sig S) (A : List Block) : Prop :=
  r.len = A.length ∧ ∀ i, r.block b i = .ok A[i]?

variable {c b} {r r' : Replica K H Sig S} {A B : List Block}

/-! ### What the methods keep -/

section Blocks

omit [DecidableEq H]

theorem Stored.holds (h : Stored c b A r) : Holds b r A := by
  refine ⟨h.len_eq, fun i => ?_⟩
  cases hi : A[i]? with
  | some data => exact h.block hi
  | none =>
    rw [List.getElem?_eq_none_iff] at hi
    exact block_of_len_le (by rw [h.len_eq]; exact hi)

/-- The blocks a replica holds are determined. -/
theorem Holds.unique (h : Holds b r A) (h' : Holds b r B) : A = B := by
  apply List.ext_getElem?
  intro i
  exact Except.ok.inj ((h.2 i).symm.trans (h'.2 i))

variable (b) in
/-- The blocks the replica reads below its length. -/
def readAll (r : Replica K H Sig S) : List (Option Block) :=
  (List.range r.len).map fun i => (r.block b i).toOption.join

theorem Stored.holds_of_readAll (h : Stored c b A r) (hread : r.readAll b = B.map some) :
    Holds b r B := by
  have hall : r.readAll b = A.map some := by
    unfold readAll
    rw [h.len_eq]
    apply List.ext_getElem?
    intro i
    by_cases hi : i < A.length
    · simp [h.holds.2, Except.toOption, hi]
    · simp [hi]
  rw [hall] at hread
  rw [← List.map_injective_iff.mpr (Option.some_injective _) hread]
  exact h.holds

/-- The first `n` blocks of a replica, under a head that vouches for them or none. -/
theorem Stored.take (h : Stored c b A r) {n : ℕ} (hn : n ≤ A.length) (head : Option (SignedHead H Sig)) :
    Stored c b (A.take n) { r with tree := (r.tree.truncate n).1, head := head } := by
  refine ⟨?_, fun i data hi => h.readable i data ?_⟩
  · rcases Nat.lt_or_ge n A.length with hlt | hge
    · exact (h.built.truncate hlt).2
    · obtain rfl : n = A.length := by omega
      rw [List.take_length]
      have : r.tree.truncate A.length = (r.tree, false) :=
        MerkleTree.truncate_of_ge (by rw [h.built.length_eq])
      rw [this]
      exact h.built
  · rw [List.getElem?_take] at hi
    split_ifs at hi
    exact hi

end Blocks

variable {newHead : SignedHead H Sig} {ancestors : ℕ} {proof : Option (UpgradeProof H)}

theorem sharesPrefix_iff (h : Stored c b A r) (hA : ancestors ≤ A.length) :
    r.sharesPrefix c newHead ancestors proof = true ↔
      (ancestors = newHead.length →
        newHead.root = c.hasher.treeHash (rootsOf c.hasher (A.take ancestors))) ∧
      (ancestors ≠ newHead.length → ancestors ≠ 0 → ∃ p, proof = some p ∧ p.oldLen = ancestors ∧
        p.newLen = newHead.length ∧
        p.verify c.hasher (rootsOf c.hasher (A.take ancestors)) newHead.root = true) := by
  rw [sharesPrefix, h.built.prefixRoots hA, h.built.prefixRootHash hA]
  dsimp only
  split_ifs with hcut hzero
  · rw [beq_iff_eq, Option.some.injEq]
    exact ⟨fun hroot => ⟨fun _ => hroot.symm, fun hne => absurd hcut hne⟩,
      fun hall => (hall.1 hcut).symm⟩
  · exact iff_of_true rfl ⟨fun heq => absurd heq hcut, fun _ hne => absurd hzero hne⟩
  · cases proof with
    | none =>
      refine iff_of_false (by simp) fun hall => ?_
      obtain ⟨p, hp, -⟩ := hall.2 hcut hzero
      cases hp
    | some p =>
      dsimp only
      rw [Bool.and_eq_true, Bool.and_eq_true, beq_iff_eq, beq_iff_eq, and_assoc]
      refine ⟨fun hp => ⟨fun heq => absurd heq hcut, fun _ _ => ⟨p, rfl, hp⟩⟩, fun hall => ?_⟩
      obtain ⟨p', hp', hverify⟩ := hall.2 hcut hzero
      obtain rfl := Option.some.inj hp'
      exact hverify

/-- The gate of a reorg, on a replica that holds `A`. -/
theorem verifyReorg_iff (h : Stored c b A r) :
    r.verifyReorg c newHead ancestors proof = true ↔
      (∃ cur, r.head = some cur ∧ cur.fork < newHead.fork) ∧
      verifySignedHead c r.publicKey newHead = true ∧ ancestors ≤ A.length ∧
      ancestors ≤ newHead.length ∧ r.sharesPrefix c newHead ancestors proof = true := by
  unfold verifyReorg
  cases r.head with
  | none => simp
  | some cur =>
    have hfork : (∃ cur', some cur = some cur' ∧ cur'.fork < newHead.fork) ↔
        ¬ newHead.fork ≤ cur.fork := by simp
    have hlen : ¬ (ancestors > r.tree.length ∨ ancestors > newHead.length) ↔
        ancestors ≤ A.length ∧ ancestors ≤ newHead.length := by
      rw [h.built.length_eq, not_or, Nat.not_lt, Nat.not_lt]
    rw [hfork, ← and_assoc (a := ancestors ≤ A.length), ← hlen]
    dsimp only
    split_ifs with h₁ h₂ h₃
    · simp [h₁]
    · simp only [Bool.not_eq_true'] at h₂
      simp [h₂]
    · simp [h₃]
    · rw [Bool.not_eq_true', Bool.not_eq_false] at h₂
      simp [h₁, h₂, h₃]

/-- A followed reorg leaves the named prefix, under the new head if that is all of it. -/
theorem Stored.reorg (h : Stored c b A r) (hv : r.verifyReorg c newHead ancestors proof = true) :
    ∃ head, r.reorg c newHead ancestors proof =
        ({ r with tree := (r.tree.truncate ancestors).1, head := head }, true) ∧
      Intact c b (A.take ancestors) { r with tree := (r.tree.truncate ancestors).1, head := head } ∧
      (ancestors = newHead.length → head = some newHead) := by
  obtain ⟨-, hsig, hA, -, hshared⟩ := (verifyReorg_iff h).mp hv
  have hcut := ((sharesPrefix_iff h hA).mp hshared).1
  have hlen : (A.take ancestors).length = ancestors := List.length_take_of_le hA
  have hbuilt : Built c.hasher (A.take ancestors) (r.tree.truncate ancestors).1 :=
    (h.take hA none).built
  have hreorg : r.reorg c newHead ancestors proof = ({ r with
      tree := (r.tree.truncate ancestors).1
      head := if ancestors == newHead.length &&
        some (c.hasher.treeHash (rootsOf c.hasher (A.take ancestors))) == some newHead.root
        then some newHead else none }, true) := by
    rw [Replica.reorg, hv, Bool.not_true, if_neg (by decide)]
    dsimp only
    rw [hbuilt.rootHash, hbuilt.length_eq, hlen]
  refine ⟨_, hreorg, ⟨h.take hA _, fun head hhead => ?_⟩, fun heq => ?_⟩
  · dsimp only at hhead
    split_ifs at hhead with hmatch
    rw [Bool.and_eq_true, beq_iff_eq, beq_iff_eq, Option.some.injEq] at hmatch
    obtain rfl := Option.some.inj hhead
    rw [hlen, ← hmatch.1, ← hmatch.2, List.take_take, Nat.min_self]
    exact ⟨le_rfl, rfl, hsig⟩
  · rw [if_pos]
    rw [Bool.and_eq_true, beq_iff_eq, beq_iff_eq, ← hcut heq]
    exact ⟨heq, rfl⟩

theorem reorg_refused (hv : r.verifyReorg c newHead ancestors proof = false) :
    r.reorg c newHead ancestors proof = (r, false) := by
  rw [Replica.reorg, hv]
  rfl

variable {publicKey : K}

/-- A replica reopened from what an intact one persisted holds the same blocks, down to
its verified head. -/
theorem Intact.reopen (hb : b.Lawful) (h : Intact c b A r) {r₁ r₂ : Replica K H Sig S}
    (hpersist : persist b r = .ok () r₁) (hopen : openReplica c b publicKey r₁.store = .ok r₂) :
    ∃ A', Intact c b A' r₂ := by
  obtain ⟨-, s, rfl, hk, hget⟩ := ((within_write (c := c) hb (r := r)
    (l := [⟨.tree, r.tree⟩, ⟨.metadata, .replica r.head⟩]) (by simp)).ok hpersist)
  have hget := hget (by simp)
  have htree : b.get s .tree = .ok (some r.tree) := hget ⟨.tree, r.tree⟩ (by simp)
  have hmeta : b.get s .metadata = .ok (some (.replica r.head)) :=
    hget ⟨.metadata, .replica r.head⟩ (by simp)
  have hverify := (openReplica_ok hopen).2
  have hstored : Stored c b A { r with store := s } := h.toStored.store hk
  obtain ⟨tree, m, head, htree', hmeta', hhead, rfl, -⟩ := openReplica_eq_ok.mp hopen
  obtain rfl := Option.some.inj (Except.ok.inj (htree.symm.trans htree'))
  obtain rfl := Option.some.inj (Except.ok.inj (hmeta.symm.trans hmeta'))
  obtain rfl := Option.some.inj hhead
  unfold atHead at hverify ⊢
  cases hhead : r.head with
  | none =>
    rw [hhead] at hverify
    exact ⟨A, Stored.intact ⟨hstored.built, hstored.readable⟩ hverify⟩
  | some head =>
    obtain ⟨hle, -⟩ := h.vouched head hhead
    rw [hhead] at hverify
    dsimp only at hverify ⊢
    have htake := hstored.take hle (some head)
    refine ⟨A.take head.length, Stored.intact ⟨?_, htake.readable⟩ hverify⟩
    split_ifs with hlonger
    · exact htake.built
    · have : r.tree.truncate head.length = (r.tree, false) :=
        MerkleTree.truncate_of_ge (Nat.le_of_not_lt hlonger)
      have hbuilt := htake.built
      dsimp only at hbuilt ⊢
      rwa [this] at hbuilt

/-- Every reached replica is intact. -/
theorem Reached.intact (hb : b.Lawful) (h : Reached c b publicKey r) :
    (∃ A, Intact c b A r) ∧ r.publicKey = publicKey := by
  induction h with
  | new store => exact ⟨⟨[], (stored_new publicKey store).intact rfl⟩, rfl⟩
  | @addBlock r head index enc proof _ ih =>
    obtain ⟨⟨A, hA⟩, hkey⟩ := ih
    have hmoves := (within_addBlock (c := c) hb head index enc proof r).after
    refine ⟨?_, hmoves.publicKey_eq.trans hkey⟩
    generalize after (Replica.addBlock c b head index enc proof) r = r' at hmoves
    induction hmoves with
    | refl => exact ⟨A, hA⟩
    | tail _ hstep ih =>
      obtain ⟨A', hA'⟩ := ih
      obtain ⟨more, hmore⟩ := hA'.move hstep
      exact ⟨_, hmore⟩
  | @reorg r newHead ancestors proof _ ih =>
    obtain ⟨⟨A, hA⟩, hkey⟩ := ih
    cases hv : r.verifyReorg c newHead ancestors proof with
    | false =>
      rw [reorg_refused hv]
      exact ⟨⟨A, hA⟩, hkey⟩
    | true =>
      obtain ⟨head, heq, hintact, -⟩ := hA.toStored.reorg hv
      rw [heq]
      exact ⟨⟨_, hintact⟩, hkey⟩
  | @persist r _ ih =>
    obtain ⟨⟨A, hA⟩, hkey⟩ := ih
    have hmoves := (within_persist (c := c) hb r).after
    refine ⟨?_, hmoves.publicKey_eq.trans hkey⟩
    generalize after (Replica.persist b) r = r' at hmoves
    induction hmoves with
    | refl => exact ⟨A, hA⟩
    | tail _ hstep ih =>
      obtain ⟨A', hA'⟩ := ih
      obtain ⟨more, hmore⟩ := hA'.move hstep
      exact ⟨_, hmore⟩
  | reopen _ hpersist hopen ih =>
    obtain ⟨⟨A, hA⟩, -⟩ := ih
    exact ⟨hA.reopen hb hpersist hopen, (openReplica_ok hopen).1⟩

/-! ### Following a reorg -/

/-- What a followed reorg keeps is shared. -/
theorem shared_of_verifyReorg (ideal : c.hasher.Ideal) (h : Stored c b A r)
    (hlength : newHead.length = B.length)
    (hroot : newHead.root = c.hasher.treeHash (rootsOf c.hasher B))
    (hv : r.verifyReorg c newHead ancestors proof = true) :
    ancestors ≤ A.length ∧ ancestors ≤ B.length ∧ A.take ancestors = B.take ancestors := by
  obtain ⟨-, -, hA, hB, hshared⟩ := (verifyReorg_iff h).mp hv
  obtain ⟨hcut, hproper⟩ := (sharesPrefix_iff h hA).mp hshared
  rw [hlength] at hB
  refine ⟨hA, hB, ?_⟩
  have hlen : (A.take ancestors).length = ancestors := List.length_take_of_le hA
  by_cases hall : ancestors = newHead.length
  · have hroots : rootsOf c.hasher B = rootsOf c.hasher (A.take ancestors) :=
      ideal.tree (hroot.symm.trans (hcut hall))
    rw [← rootsOf_inj ideal hroots, hall, hlength, List.take_length]
  · by_cases hzero : ancestors = 0
    · rw [hzero, List.take_zero, List.take_zero]
    · obtain ⟨p, -, hold, hnew, hverify⟩ := hproper hall hzero
      rw [hroot] at hverify
      obtain ⟨-, -, hprefix, -⟩ := UpgradeProof.verify_sound ideal hverify
      rw [List.prefix_iff_eq_take.mp hprefix, hlen]

variable (b) in
/-- The store failed a write. -/
def StoreFailed (e : CoreError E) : Prop :=
  ∃ k v s e' s', b.put k v s = .error e' s' ∧ e = .storage e'

omit [DecidableEq H] in
/-- Storing the next block: when it fails, the blocks before it are as they were. -/
theorem ends_writeNext (hb : b.Lawful) (r : Replica K H Sig S) (enc : Block) :
    Ends (write b [⟨.block r.len, enc⟩]) r
      (fun _ r' => ∃ s, r' = { r with store := s } ∧ b.Keeps r.len r.store s ∧
        b.getBlock s r.len = .ok (some enc))
      fun e r' => StoreFailed b e ∧ ∃ s, r' = { r with store := s } ∧ b.Keeps r.len r.store s := by
  have hput : Ends (b.putAll [⟨.block r.len, enc⟩]) r.store
      (fun _ s => b.Keeps r.len r.store s ∧ b.getBlock s r.len = .ok (some enc))
      fun e s => b.Keeps r.len r.store s ∧ ∃ k v s₀ s', b.put k v s₀ = .error e s' := by
    have hkeeps : b.Keeps r.len r.store (after (b.put (.block r.len) enc) r.store) := fun i hi =>
      hb.get_other _ _ _ _ fun h => absurd (StoreKey.block.inj h) (Nat.ne_of_lt hi)
    refine Ends.bind (Q := fun _ s => b.Keeps r.len r.store s ∧ b.getBlock s r.len = .ok (some enc)) ?_
      fun _ _ h => Ends.pure h
    unfold Ends
    unfold after at hkeeps
    cases hput : b.put (.block r.len) enc r.store with
    | ok u s =>
      rw [hput] at hkeeps
      exact ⟨hkeeps, hb.get_put _ _ _ _ hput⟩
    | error e s =>
      rw [hput] at hkeeps
      exact ⟨hkeeps, _, _, _, _, hput⟩
  exact Ends.zoom hput (fun _ s h => ⟨s, rfl, h⟩)
    fun e s ⟨hk, k, v, s₀, s', he⟩ => ⟨⟨k, v, s₀, e, s', he, rfl⟩, s, rfl, hk⟩

/-- A block is accepted exactly if it comes next and its proof verifies, unless the store
fails. -/
theorem ends_addBlock (hb : b.Lawful) (head : SignedHead H Sig) (index : ℕ) (enc : Block)
    (proof : Merkle.Proof H) (r : Replica K H Sig S) :
    Ends (addBlock c b head index enc proof) r
      (fun accepted r' => (accepted = true ↔
          index = r.len ∧ verifyBlock c r.publicKey head r.len enc proof = true) ∧
        if accepted then Accepts c b r head enc r' else r' = r)
      fun e r' => StoreFailed b e ∧ ∃ s, r' = { r with store := s } ∧ b.Keeps r.len r.store s := by
  unfold addBlock
  apply Ends.get
  split_ifs with hindex hverify
  · exact Ends.pure ⟨⟨Bool.noConfusion, fun h => absurd h.1 hindex⟩, rfl⟩
  · rw [not_not] at hindex
    subst hindex
    rw [Bool.not_eq_true'] at hverify
    exact Ends.pure ⟨⟨Bool.noConfusion, fun h => absurd h.2 (Bool.not_eq_true _ ▸ hverify)⟩, rfl⟩
  · rw [not_not] at hindex
    subst hindex
    rw [Bool.not_eq_true', Bool.not_eq_false] at hverify
    refine Ends.bind (ends_writeNext hb r enc) fun _ r₁ hw => ?_
    obtain ⟨s, rfl, hk, hget⟩ := hw
    exact Ends.update (Ends.pure
      ⟨⟨fun _ => ⟨rfl, hverify⟩, fun _ => rfl⟩, s, proof, hverify, hk, hget, rfl⟩)

variable {head : SignedHead H Sig} {enc : Block}

/-- The head becomes the verified one with the last of its blocks. -/
theorem Accepts.head_eq (h : Accepts c b r head enc r') (hbuilt : Built c.hasher B r'.tree)
    (hlength : head.length = B.length) (hroot : head.root = c.hasher.treeHash (rootsOf c.hasher B)) :
    r'.head = some head := by
  obtain ⟨s, proof, -, -, -, rfl⟩ := h
  show r.promote c _ head = some head
  rw [promote, hbuilt.rootHash, hbuilt.length_eq, hroot, hlength, if_pos]
  simp

theorem Accepts.publicKey_eq (h : Accepts c b r head enc r') : r'.publicKey = r.publicKey := by
  obtain ⟨s, proof, -, -, -, rfl⟩ := h
  rfl

/-- Fetching the rest of a signed history ends at its head. -/
theorem feed_spec (hb : b.Lawful) {T : MerkleTree H} (hT : Built c.hasher B T)
    (hlength : head.length = B.length)
    (hroot : head.root = c.hasher.treeHash (rootsOf c.hasher B)) :
    ∀ {rest : List Block} {i : ℕ} {r : Replica K H Sig S}, Stored c b (B.take i) r → i ≤ B.length →
    rest = B.drop i → verifySignedHead c r.publicKey head = true →
    (i = B.length → r.head = some head) →
    Ends (feed c b head T i rest) r
      (fun ok r' => ok = true ∧ Stored c b B r' ∧ r'.head = some head) fun e _ => StoreFailed b e
  | [], i, r, h, hi, hrest, _, hdone => by
    have hall : i = B.length := by
      have := congrArg List.length hrest
      rw [List.length_nil, List.length_drop] at this
      omega
    rw [hall, List.take_length] at h
    exact Ends.pure ⟨rfl, h, hdone hall⟩
  | enc :: rest, i, r, h, hi, hrest, hsig, _ => by
    have hlt : i < B.length := by
      have := congrArg List.length hrest
      rw [List.length_cons, List.length_drop] at this
      omega
    rw [List.drop_eq_getElem_cons hlt, List.cons.injEq] at hrest
    obtain ⟨rfl, hrest⟩ := hrest
    have hlen : r.len = i := by rw [h.len_eq, List.length_take_of_le hi]
    obtain ⟨proof, hproof, hblock, hverify⟩ := hT.proof (List.getElem?_eq_getElem hlt)
    have hv : verifyBlock c r.publicKey head r.len B[i] proof = true :=
      verifyBlock_iff.mpr ⟨hsig, hblock.trans hlen.symm, hroot ▸ hverify⟩
    rw [feed, hproof]
    subst hlen
    refine Ends.andThen (ends_addBlock hb head r.len B[r.len] proof r) (fun _ _ h => h.1)
      fun ok r₁ h₁ => ?_
    obtain ⟨haccepted, hacc⟩ := h₁
    obtain rfl := haccepted.mpr ⟨rfl, hv⟩
    rw [if_pos rfl] at hacc
    have hnext := h.accept hacc
    rw [List.take_append_getElem hlt] at hnext
    rw [if_pos rfl]
    refine feed_spec hb hT hlength hroot hnext (by omega) hrest (hacc.publicKey_eq ▸ hsig) fun hall => ?_
    rw [hall, List.take_length] at hnext
    exact hacc.head_eq hnext.built hlength hroot

/-- Following a reorg is safe and complete. -/
theorem reorg_spec (ideal : c.hasher.Ideal) (hb : b.Lawful) {publicKey : K}
    (hr : Reached c b publicKey r) (hA : Holds b r A) {cur newHead : SignedHead H Sig}
    (hcur : r.head = some cur) (hsigned : verifySignedHead c publicKey newHead = true)
    (hlength : newHead.length = B.length)
    (hroot : newHead.root = c.hasher.treeHash (rootsOf c.hasher B)) (ancestors : ℕ)
    (proof : Option (UpgradeProof H)) :
    ((r.reorg c newHead ancestors proof).2 = true →
      cur.fork < newHead.fork ∧ ancestors ≤ min A.length B.length ∧
      A.take ancestors = B.take ancestors ∧
      Holds b (r.reorg c newHead ancestors proof).1 (A.take ancestors) ∧
      ∀ T, Built c.hasher B T →
        Ends (feed c b newHead T ancestors (B.drop ancestors)) (r.reorg c newHead ancestors proof).1
          (fun ok r' => ok = true ∧ Holds b r' B ∧ r'.verifiedHead = some newHead ∧
            r'.tree.rootHash c.hasher = some newHead.root)
          fun e _ => StoreFailed b e) ∧
    ((r.reorg c newHead ancestors proof).2 = false → (r.reorg c newHead ancestors proof).1 = r) ∧
    (cur.fork < newHead.fork → ancestors ≤ min A.length B.length →
      A.take ancestors = B.take ancestors →
      ∀ T more, Built c.hasher (B ++ more) T → (B ++ more).length < 2 ^ 64 →
      (0 < ancestors → ancestors < B.length → proof = T.upgradeProof ancestors B.length) →
      (r.reorg c newHead ancestors proof).2 = true) := by
  obtain ⟨⟨A', hintact⟩, hkey⟩ := hr.intact hb
  obtain rfl := hintact.toStored.holds.unique hA
  have hstored := hintact.toStored
  refine ⟨fun htrue => ?_, fun hfalse => ?_, fun hfork hle htake T more hT hbound hproof => ?_⟩
  · have hv : r.verifyReorg c newHead ancestors proof = true := by
      by_contra hv
      rw [reorg_refused (Bool.not_eq_true _ ▸ hv)] at htrue
      cases htrue
    obtain ⟨⟨cur', hcur', hfork⟩, -⟩ := (verifyReorg_iff hstored).mp hv
    obtain rfl := Option.some.inj (hcur.symm.trans hcur')
    obtain ⟨hleA, hleB, hshared⟩ := shared_of_verifyReorg ideal hstored hlength hroot hv
    obtain ⟨head, heq, hkept, hall⟩ := hstored.reorg hv
    rw [heq]
    refine ⟨hfork, le_min hleA hleB, hshared, hkept.toStored.holds, fun T hT => ?_⟩
    rw [hshared] at hkept
    refine (feed_spec hb hT hlength hroot hkept.toStored hleB rfl (hkey ▸ hsigned) fun hend =>
      hall (hend.trans hlength.symm)).mono (fun ok r' h => ?_) fun _ _ h => h
    obtain ⟨hok, hB, hhead⟩ := h
    exact ⟨hok, hB.holds, hhead, by rw [hB.built.rootHash, hroot]⟩
  · cases hv : r.verifyReorg c newHead ancestors proof with
    | false => rw [reorg_refused hv]
    | true =>
      obtain ⟨head, heq, -⟩ := hstored.reorg hv
      rw [heq] at hfalse
      cases hfalse
  · have hA' : ancestors ≤ A'.length := hle.trans (min_le_left _ _)
    have hB' : ancestors ≤ B.length := hle.trans (min_le_right _ _)
    have hshared : r.sharesPrefix c newHead ancestors proof = true := by
      rw [sharesPrefix_iff hstored hA', htake, hlength]
      refine ⟨fun hend => ?_, fun hend hzero => ?_⟩
      · rw [hend, List.take_length, hroot]
      · obtain ⟨p, hp, hverify⟩ := hT.upgradeProof hbound (Nat.pos_of_ne_zero hzero)
          (Nat.lt_of_le_of_ne hB' hend) (by simp)
        rw [List.take_append_of_le_length hB', List.take_left] at hverify
        obtain ⟨hold, hnew, -⟩ := UpgradeProof.verify_sound ideal hverify
        rw [List.length_take_of_le hB'] at hold
        exact ⟨p, (hproof (Nat.pos_of_ne_zero hzero) (Nat.lt_of_le_of_ne hB' hend)).trans hp, hold, hnew,
          hroot ▸ hverify⟩
    have hv := (verifyReorg_iff hstored).mpr
      ⟨⟨cur, hcur, hfork⟩, hkey ▸ hsigned, hA', hlength ▸ hB', hshared⟩
    obtain ⟨head, heq, -⟩ := hstored.reorg hv
    rw [heq]

/-- The head an author with symbolic signatures signs over `B`. -/
def symbolicHead (fork : ℕ) (B : List Block) : SignedHead Digest (Unit × HeadMessage Digest) :=
  let root := Hasher.symbolic.treeHash (rootsOf Hasher.symbolic B)
  ⟨fork, B.length, root, (), fork, B.length, root⟩

/-- A replica in memory that was fed two blocks. -/
def fedTwo (first second : Merkle.Proof Digest) :
    Replica Unit Digest (Unit × HeadMessage Digest) (MemoryStore Digest (Unit × HeadMessage Digest)) :=
  after (addBlock (Crypto.symbolic id) (Backend.memory _ _) (symbolicHead 0 [[1], [2]]) 1 [2] second)
    (after (addBlock (Crypto.symbolic id) (Backend.memory _ _) (symbolicHead 0 [[1], [2]]) 0 [1] first)
      (new () MemoryStore.new))

/-- It follows a rewrite of the second block. -/
theorem reorg_spec_rewritten : ∃ r proof, Reached (Crypto.symbolic id) (Backend.memory _ _) () r ∧
    Holds (Backend.memory _ _) r [[1], [2]] ∧
    (MerkleTree.ofBlocks Hasher.symbolic [[1], [3], [4]]).upgradeProof 1 3 = some proof ∧
    (r.reorg (Crypto.symbolic id) (symbolicHead 1 [[1], [3], [4]]) 1 (some proof)).2 = true ∧
    Holds (Backend.memory _ _)
      (r.reorg (Crypto.symbolic id) (symbolicHead 1 [[1], [3], [4]]) 1 (some proof)).1 [[1]] := by
  have hfed : (((MerkleTree.ofBlocks Hasher.symbolic [[1], [2]]).proof 0).bind fun first =>
      ((MerkleTree.ofBlocks Hasher.symbolic [[1], [2]]).proof 1).map fun second =>
        ((fedTwo first second).readAll (Backend.memory _ _),
          decide ((fedTwo first second).head = some (symbolicHead 0 [[1], [2]])))) =
      some ([some [1], some [2]], true) := by decide +kernel
  have hproof : ((MerkleTree.ofBlocks Hasher.symbolic [[1], [3], [4]]).upgradeProof 1 3).isSome = true := by
    decide +kernel
  have hsigned : verifySignedHead (Crypto.symbolic id) () (symbolicHead 1 [[1], [3], [4]]) = true := by
    decide +kernel
  obtain ⟨first, -, hrest⟩ := Option.bind_eq_some_iff.mp hfed
  obtain ⟨second, -, hfed⟩ := Option.map_eq_some_iff.mp hrest
  obtain ⟨hread, hhead⟩ := Prod.mk.inj hfed
  obtain ⟨proof, hproof⟩ := Option.isSome_iff_exists.mp hproof
  have hreached : Reached (Crypto.symbolic id) (Backend.memory _ _) () (fedTwo first second) :=
    .addBlock _ _ _ _ (.addBlock _ _ _ _ (.new _))
  obtain ⟨⟨A, hA⟩, -⟩ := hreached.intact Backend.memory_lawful
  have hholds : Holds (Backend.memory _ _) (fedTwo first second) [[1], [2]] :=
    hA.toStored.holds_of_readAll hread
  obtain ⟨hsafe, -, hcomplete⟩ := reorg_spec Hasher.symbolic_ideal Backend.memory_lawful hreached hholds
    (of_decide_eq_true hhead) hsigned rfl rfl 1 (some proof)
  have hfollowed := hcomplete (by decide) (by decide) rfl _ [] (built_ofBlocks Hasher.symbolic _) (by decide)
    fun _ _ => hproof.symm
  exact ⟨_, proof, hreached, hholds, hproof, hfollowed, (hsafe hfollowed).2.2.2.1⟩

end Replica
end HypercoreRs
