/-
# Logs that reopen

On a store that never fails a log is always as it is stored. Reopening the store of a writer's
log gives the log back, and reopening that of a replica gives the replica up to its verified head
(`Saved`); a log that was never persisted is still empty. An append or an accepted block breaks
this until the log is persisted, and a recovered suffix is persisted with the log.
-/
import HypercoreRs.Command.Ends
import HypercoreRs.Hypercore.Replica
import HypercoreRs.Merkle.Layout

namespace HypercoreRs

open Std Merkle Command

/-! ### Stores that never fail -/

section Store

variable {S E H Sig : Type} {b : Backend S E H Sig}

/-- Every write and every read succeeds. -/
structure Backend.NeverFails (b : Backend S E H Sig) : Prop where
  put : ∀ (k : StoreKey) (v : k.Value H Sig) (s : S), ∃ s', b.put k v s = .ok () s'
  get : ∀ (s : S) (k : StoreKey), ∃ v, b.get s k = .ok v

theorem Backend.NeverFails.putAll (hn : b.NeverFails) :
    ∀ (l : List (Σ k : StoreKey, k.Value H Sig)) (s : S),
    ∃ s', b.putAll l s = .ok () s'
  | [], s => ⟨s, rfl⟩
  | ⟨k, v⟩ :: rest, s => by
    obtain ⟨s₁, h₁⟩ := hn.put k v s
    obtain ⟨s₂, h₂⟩ := hn.putAll rest s₁
    exact ⟨s₂, bind_eq_ok.mpr ⟨(), s₁, h₁, h₂⟩⟩

/-- A row of writes to different keys: each value is there and no other key changed. -/
theorem Backend.NeverFails.ends_putAll (hn : b.NeverFails) (hb : b.Lawful)
    {l : List (Σ k : StoreKey, k.Value H Sig)} (hl : (l.map (·.1)).Nodup) (s : S) :
    Ends (b.putAll l) s (fun _ s' => (∀ k, (∀ p ∈ l, p.1 ≠ k) → b.get s' k = b.get s k) ∧
      ∀ p ∈ l, b.get s' p.1 = .ok (some p.2)) fun _ _ => False := by
  obtain ⟨s', hs⟩ := hn.putAll l s
  obtain ⟨hother, hget⟩ := (hb.putAll l s).ok hs
  unfold Ends
  rw [hs]
  exact ⟨hother, hget hl⟩

end Store

/-! ### A writer's log -/

namespace Hypercore

variable {K H Sig SK S E T : Type} [DecidableEq H]
variable {c : Crypto K H Sig SK} {b : Backend S E H Sig} {codec : Codec T}
  {core core' : Hypercore H Sig SK S}

variable (c b) in
/-- The log is the one its store reopens to, or it is new and its store has none. -/
def Saved (core : Hypercore H Sig SK S) : Prop :=
  openCore c b core.author core.store = .ok core ∨
    openCore c b core.author core.store = .error .notPersisted ∧ core = .new core.author core.store

theorem saved_of_open {author : SK} {store : S} (h : openCore c b author store = .ok core) :
    Saved c b core := by
  have hsame : core.author = author ∧ core.store = store := by
    unfold openCore at h
    split at h
    all_goals try cases h
    split at h
    · cases h
    · dsimp only at h
      split_ifs at h
      obtain rfl := Except.ok.inj h
      exact ⟨rfl, rfl⟩
  obtain ⟨rfl, rfl⟩ := hsame
  exact Or.inl h

/-- A log whose parts are all stored reopens if it passes its own check. -/
theorem openCore_eq (htree : b.get core.store .tree = .ok (some core.tree))
    (hpresence : b.get core.store .presence = .ok (some core.presence))
    (hmetadata : b.get core.store .metadata = .ok (some (.core core.fork core.head core.prologue)))
    (hv : core.verifyHead c = true) : openCore c b core.author core.store = .ok core := by
  unfold openCore
  rw [hmetadata, htree, hpresence]
  exact if_pos hv

variable (hb : b.Lawful) (hn : b.NeverFails)
include hb hn

omit [DecidableEq H] in
theorem ends_write_all {l : List (Σ k : StoreKey, k.Value H Sig)} (hl : (l.map (·.1)).Nodup) :
    Ends (write b l) core (fun _ core' => ∃ s, core' = { core with store := s } ∧
      (∀ k, (∀ p ∈ l, p.1 ≠ k) → b.get s k = b.get core.store k) ∧
      ∀ p ∈ l, b.get s p.1 = .ok (some p.2)) fun _ _ => False :=
  Ends.zoom (hn.ends_putAll hb hl core.store) (fun _ s h => ⟨s, rfl, h⟩) fun _ _ h => h

theorem ends_persist_saved (hv : core.verifyHead c = true) :
    Ends (persist b) core
      (fun _ core' => (∃ s, core' = { core with store := s } ∧ b.Keeps core.len core.store s) ∧
      Saved c b core') fun _ _ => False := by
  unfold persist
  apply Ends.get
  refine (ends_write_all hb hn (by simp)).mono (fun _ core' h => ?_) fun _ _ h => h
  obtain ⟨s, rfl, hother, hget⟩ := h
  refine ⟨⟨s, rfl, fun i _ => hother _ (by simp)⟩, Or.inl (openCore_eq ?_ ?_ ?_ hv)⟩
  · exact hget ⟨.tree, core.tree⟩ (by simp)
  · exact hget ⟨.presence, core.presence⟩ (by simp)
  · exact hget ⟨.metadata, .core core.fork core.head core.prologue⟩ (by simp)

/-- An append to a built log succeeds, and its head passes the log's own check. -/
theorem ends_append_verified {B : List Block} (hB : Built c.hasher B core.tree) (value : T) :
    Ends (append c b codec value) core (fun _ core' => Extends c b core (codec.encode value) core' ∧
      core'.verifyHead c = true) fun _ _ => False := by
  unfold append
  apply Ends.get
  refine Ends.bind (ends_write_all hb hn (by simp)) fun _ core₁ h₁ => ?_
  obtain ⟨s, rfl, hother, hget⟩ := h₁
  apply Ends.get
  split
  · rename_i signed hsign
    have hkeeps : b.Keeps core.len core.store s := fun i hi => hother _ (by simp; omega)
    refine Ends.assign (Ends.pure ⟨⟨s, hkeeps, hget _ List.mem_cons_self, hsign⟩, ?_⟩)
    obtain ⟨root, hroot, rfl⟩ := Option.map_eq_some_iff.mp hsign
    have hverify := c.verify_sign core.author ⟨core.fork, core.len + 1, root⟩
    rw [verifyHead]
    simp only [Bool.and_eq_true, beq_iff_eq]
    exact ⟨⟨⟨trivial, rfl⟩, hroot⟩, hverify⟩
  · rename_i hsign
    rw [resign, (hB.append (codec.encode value)).rootHash] at hsign
    cases hsign

/-- A recovery that fails changes nothing; one that succeeds is stored. -/
theorem ends_recoverSignedSuffix_saved (head : SignedHead H Sig) (suffix : List Block) :
    Ends (recoverSignedSuffix c b head suffix) core
      (fun _ core' => Adopts c b core head suffix core' ∧
      Saved c b core') fun _ core' => core' = core := by
  refine (Ends.and_ok (Q := fun _ core' => Saved c b core') ?_ fun _ core' hok =>
    ((within_recoverSignedSuffix hb head suffix core).ok hok).2.2).mono (fun _ _ h => ⟨h.2, h.1⟩)
    fun _ _ h => h
  unfold recoverSignedSuffix
  apply Ends.get
  dsimp only
  split_ifs with hhead
  · exact Ends.throw rfl
  · push Not at hhead
    refine Ends.bind
      (Ends.reads (Q := fun stored core' => core' = core) (fun _ _ => rfl) fun _ _ => rfl)
      fun stored core' h => ?_
    subst h
    split_ifs with hfeed
    · exact Ends.throw rfl
    · rw [Bool.not_eq_true', Bool.not_eq_false] at hfeed
      obtain ⟨hlen, hroot, hsig⟩ := verifyArchivedFeed_iff.mp hfeed
      have hbuilt := built_ofBlocks c.hasher (stored ++ suffix)
      refine Ends.andThen (ends_write_all hb hn (nodup_recoverWrites suffix core'.len _ _ _))
        (fun _ _ h => h.elim) fun _ core₁ h₁ => Ends.modify ?_
      obtain ⟨s, rfl, -, hget⟩ := h₁
      refine Or.inl (openCore_eq ?_ ?_ ?_ ?_)
      · exact hget ⟨.tree, MerkleTree.ofBlocks c.hasher (stored ++ suffix)⟩ (by simp)
      · exact hget ⟨.presence, ExtTreeSet.ofList (List.range (stored ++ suffix).length)⟩ (by simp)
      · exact hget ⟨.metadata, .core core'.fork (some head) core'.prologue⟩ (by simp)
      · simp only [verifyHead, Bool.and_eq_true, beq_iff_eq]
        refine ⟨⟨⟨hhead.1, hlen.trans hbuilt.length_eq.symm⟩, ?_⟩, hsig⟩
        rw [hbuilt.rootHash, hroot]

end Hypercore

/-! ### A replica -/

namespace Replica

variable {K H Sig SK S E : Type} [DecidableEq H]
variable {c : Crypto K H Sig SK} {b : Backend S E H Sig} {r r' : Replica K H Sig S} {B : List Block}

/-- The blocks the verified head vouches for: all of them while there is no head. -/
def vouchedLen (r : Replica K H Sig S) : ℕ :=
  match r.head with
  | some h => h.length
  | none => r.len

/-- The replica cut back to its verified head. -/
def cutBack (r : Replica K H Sig S) : Replica K H Sig S := { r with tree := atHead r.tree r.head }

variable (c b) in
/-- The replica's store reopens to what the verified head vouches for, or the replica is new and
its store has none. -/
def Saved (r : Replica K H Sig S) : Prop :=
  openReplica c b r.publicKey r.store = .ok r.cutBack ∨
    openReplica c b r.publicKey r.store = .error .notPersisted ∧ r = .new r.publicKey r.store

omit [DecidableEq H] in
/-- Cutting back keeps the blocks up to the verified head. -/
theorem Intact.cutBack (h : Intact c b B r) : Stored c b (B.take r.vouchedLen) r.cutBack := by
  have hread : ∀ n, b.Readable r.store (B.take n) := fun n i data hi => by
    rw [List.getElem?_take] at hi
    split_ifs at hi
    exact h.readable i data hi
  refine ⟨?_, hread _⟩
  unfold Replica.cutBack atHead vouchedLen
  cases hhead : r.head with
  | none =>
    dsimp only
    rw [h.toStored.len_eq, List.take_length]
    exact h.built
  | some head =>
    dsimp only
    have hle := (h.vouched head hhead).1
    rw [h.built.length_eq]
    split_ifs with hlt
    · exact (h.built.truncate hlt).2
    · rw [List.take_of_length_le (Nat.le_of_not_lt hlt)]
      exact h.built

theorem Intact.verifyHead_cutBack (h : Intact c b B r) : r.cutBack.verifyHead c = true := by
  have hcut := h.cutBack
  have hsame : r.cutBack.head = r.head := rfl
  rw [verifyHead, hsame]
  cases hhead : r.head with
  | none => rfl
  | some head =>
    obtain ⟨hle, hroot, hsig⟩ := h.vouched head hhead
    have hvouched : r.vouchedLen = head.length := by rw [vouchedLen, hhead]
    rw [hvouched] at hcut
    have hlen := hcut.built.length_eq
    rw [List.length_take_of_le hle] at hlen
    simp only [Bool.and_eq_true, beq_iff_eq]
    exact ⟨⟨hsig, hlen⟩, by rw [hcut.built.rootHash, hroot]⟩

omit [DecidableEq H] in
/-- A replica at its verified head is cut back to itself. -/
theorem cutBack_of_level (h : ∀ head, r.head = some head → r.len = head.length) :
    r.cutBack = r := by
  have htree : r.cutBack.tree = r.tree := by
    unfold cutBack atHead
    cases hhead : r.head with
    | none => rfl
    | some head =>
      have hlen : r.tree.length = head.length := h head hhead
      exact if_neg (by omega)
  rw [show r.cutBack = { r with tree := r.cutBack.tree } from rfl, htree]

theorem saved_of_open {w : K} {store : S} (h : openReplica c b w store = .ok r) : Saved c b r := by
  have hv := openReplica_ok h
  have hsame : r.store = store := by
    obtain ⟨_, _, _, -, -, -, rfl, -⟩ := openReplica_eq_ok.mp h
    rfl
  have hlevel : ∀ head, r.head = some head → r.len = head.length := by
    intro head hhead
    have hcheck := hv.2
    rw [verifyHead, hhead] at hcheck
    simp only [Bool.and_eq_true, beq_iff_eq] at hcheck
    exact hcheck.1.2
  refine Or.inl ?_
  rw [cutBack_of_level hlevel, hv.1, hsame, h]

/-- A replica whose parts are stored reopens at its verified head. -/
theorem openReplica_eq (htree : b.get r.store .tree = .ok (some r.tree))
    (hmetadata : b.get r.store .metadata = .ok (some (.replica r.head)))
    (hv : r.cutBack.verifyHead c = true) : openReplica c b r.publicKey r.store = .ok r.cutBack :=
  openReplica_eq_ok.mpr ⟨_, _, _, htree, hmetadata, rfl, rfl, hv⟩

variable (hb : b.Lawful) (hn : b.NeverFails)
include hb hn

omit [DecidableEq H] in
theorem ends_write_all {l : List (Σ k : StoreKey, k.Value H Sig)} (hl : (l.map (·.1)).Nodup) :
    Ends (write b l) r (fun _ r' => ∃ s, r' = { r with store := s } ∧
      (∀ k, (∀ p ∈ l, p.1 ≠ k) → b.get s k = b.get r.store k) ∧
      ∀ p ∈ l, b.get s p.1 = .ok (some p.2)) fun _ _ => False :=
  Ends.zoom (hn.ends_putAll hb hl r.store) (fun _ s h => ⟨s, rfl, h⟩) fun _ _ h => h

theorem ends_persist_saved (hB : Intact c b B r) :
    Ends (persist b) r
      (fun _ r' => (∃ s, r' = { r with store := s } ∧ b.Keeps r.len r.store s) ∧ Saved c b r')
      fun _ _ => False := by
  unfold persist
  apply Ends.get
  refine (ends_write_all hb hn (by simp)).mono (fun _ r' h => ?_) fun _ _ h => h
  obtain ⟨s, rfl, hother, hget⟩ := h
  refine ⟨⟨s, rfl, fun i _ => hother _ (by simp)⟩,
    Or.inl (openReplica_eq ?_ ?_ hB.verifyHead_cutBack)⟩
  · exact hget ⟨.tree, r.tree⟩ (by simp)
  · exact hget ⟨.metadata, .replica r.head⟩ (by simp)

theorem ends_addBlock_stored (head : SignedHead H Sig) (index : ℕ) (enc : Block)
    (proof : Merkle.Proof H) :
    Ends (addBlock c b head index enc proof) r (fun accepted r' =>
      if accepted then index = r.len ∧ Accepts c b r head enc r' else r' = r) fun _ _ => False := by
  refine (Ends.and_ok (Q := fun _ _ => True) ?_ fun _ r' hok =>
    ((within_addBlock hb head index enc proof r).ok hok).2).mono (fun _ _ h => h.2) fun _ _ h => h
  unfold addBlock
  apply Ends.get
  split_ifs
  · exact Ends.pure trivial
  · exact Ends.pure trivial
  · exact Ends.bind (ends_write_all hb hn (by simp)) fun _ _ _ => Ends.update (Ends.pure trivial)

end Replica
end HypercoreRs
