/-
# Rooms on stores that never fail

A `Disk` is what the factories of two sessions share: a store for each writer, and the writers it
lists. On a disk whose stores never fail every call leaves the logs as they are stored
(`Durable`): the local log and each replica reopen from their stores, and a writer without a
replica has nothing persisted.

A call that fails there has changed nothing the room holds, or has taken in a block that is no
entry (`ends_perform_durable`): blocks are persisted before they are decoded. A message that
succeeds moves the DAG by entries that are held (`Grown`).
-/
import HypercoreRs.Hypercore.Saved
import HypercoreRs.Room.Serve

namespace HypercoreRs

open Std Merkle Command

/-- What moves the DAG under some entries moves it under more. -/
theorem Dag.Moves.of_held {K : Type} [LinearOrder K] {held held' : NodeId K → Entry K → Prop} {d d' : Dag K}
    (h : Dag.Moves held d d') (hh : ∀ n e, held n e → held' n e) : Dag.Moves held' d d' := by
  induction h with
  | refl => exact .refl
  | tail _ hm ih =>
    refine ih.tail ?_
    cases hm with
    | deliver hheld hadd => exact .deliver (hheld.imp_left (hh _ _)) hadd
    | buffer hpending => exact .buffer fun p hp => (hpending p hp).imp_left (hh _ _)

/-- A store for each writer, and the writers the disk lists. -/
structure Disk (K S : Type) where
  store : K → S
  known : K → Prop

/-- The factory hands out the stores of the disk, and lists its writers. The store of the local
writer `own` is opened first, and may be listed from then on. -/
structure StoreFactory.HandsOut {K F S : Type} (factory : StoreFactory K F S) (own : K) (disk : Disk K S) :
    Prop where
  opens : ∀ w f, ∃ f', factory.openStore w f = .ok (disk.store w) f'
  lists : ∀ w f, w ≠ own → (w ∈ factory.knownWriters f ↔ disk.known w)

namespace Room

variable {K H Sig SK S E F P St : Type} [LinearOrder K] [DecidableEq H]
variable (env : Env K H Sig SK S E F P St) {disk : Disk K S}
  {room room' room₀ room₁ room₂ : Room K H Sig SK S F P}

/-- What a room that was opened over `disk` leaves on it. -/
def leaves (room : Room K H Sig SK S F P) (disk : Disk K S) : Disk K S where
  store w :=
    if w = room.localKey then room.localCore.store
    else
      match room.remotes[w]? with
      | some r => r.store
      | none => disk.store w
  known w := disk.known w ∨ w ∈ room.remotes

/-- The logs are as they are stored, and the writers without a replica have nothing stored. -/
structure Durable (disk : Disk K S) (room : Room K H Sig SK S F P) : Prop where
  sound : Sound env room
  core : Hypercore.Saved env.crypto env.backend room.localCore
  remotes : ∀ (w : K) (r : Replica K H Sig S), room.remotes[w]? = some r →
    Replica.Saved env.crypto env.backend r ∧ env.crypto.validKey w = true
  unopened : ∀ w, w ≠ room.localKey → w ∉ room.remotes →
    Replica.openReplica env.crypto env.backend w (disk.store w) = .error .notPersisted
  valid : ∀ w, w ≠ room.localKey → disk.known w → env.crypto.validKey w = true

/-- A block of the room is no entry. -/
def Undecoded (room : Room K H Sig SK S F P) : Prop :=
  ∃ n bytes, room.blockAt env n = .ok (some bytes) ∧ ∀ e, env.codec.decode bytes ≠ .ok e

/-- `room'` holds what `room` does, and its DAG moved by entries it holds. -/
structure Grown (room room' : Room K H Sig SK S F P) : Prop where
  localKey : room'.localKey = room.localKey
  held : ∀ n e, room.Held env n e → room'.Held env n e
  dag : Dag.Moves (room'.Held env) room.toDag room'.toDag

variable {env}

omit [DecidableEq H] in
theorem Grown.trans {room'' : Room K H Sig SK S F P} (h : Grown env room room')
    (h' : Grown env room' room'') : Grown env room room'' :=
  ⟨h'.localKey.trans h.localKey, fun n e he => h'.held n e (h.held n e he),
    (h.dag.of_held h'.held).trans h'.dag⟩

omit [DecidableEq H] in
theorem SameHoldings.grown (h : SameHoldings env room room') : Grown env room room' := by
  refine ⟨h.localKey, fun n e he => ?_, ?_⟩
  · rwa [h.held]
  · rw [h.dag]

omit [DecidableEq H] in
/-- Delivering held entries is growth. -/
theorem grown_dag {d : Dag K} (h : Dag.Moves (room.Held env) room.toDag d) :
    Grown env room { room with toDag := d } := ⟨rfl, fun _ _ he => he, h⟩

omit [DecidableEq H] in
theorem grown_drain (h : SameData room.drainPending room') : Grown env room room' :=
  (grown_dag (Dag.moves_drainPending room.toDag)).trans h.holdings.grown

/-! ### What keeps the logs -/

theorem Moves.author_eq (h : Moves env room room') : room'.localCore.author = room.localCore.author := by
  induction h with
  | refl => rfl
  | tail _ hm ih =>
    refine Eq.trans ?_ ih
    cases hm with
    | other hsame => exact congrArg _ hsame.localCore
    | core hstep => exact hstep.author_eq
    | replica _ _ => rfl
    | join _ _ => rfl
    | dag _ => rfl
    | own _ => rfl
    | repin _ => rfl

variable {w : K}

omit [DecidableEq H] in
theorem leaves_remote (hw : w ≠ room.localKey) {r : Replica K H Sig S} (hr : room.remotes[w]? = some r) :
    (room.leaves disk).store w = r.store := by
  rw [leaves]
  dsimp only
  rw [if_neg hw, hr]

omit [DecidableEq H] in
theorem leaves_unopened (hw : w ≠ room.localKey) (hnot : w ∉ room.remotes) :
    (room.leaves disk).store w = disk.store w := by
  rw [leaves]
  dsimp only
  rw [if_neg hw, ExtTreeMap.getElem?_eq_none hnot]

theorem Durable.of_sameLogs (h : Durable env disk room) (hs : SameLogs room room') :
    Durable env disk room' := by
  obtain ⟨⟨hauthor, hcore, hremotes⟩, hsaved, hreplicas, hunopened, hvalid⟩ := h
  obtain ⟨hkey, hlocal, hrem⟩ := hs
  rw [← hlocal] at hauthor hcore hsaved
  rw [← hrem] at hremotes hreplicas hunopened
  rw [← hkey] at hauthor hremotes hunopened hvalid
  exact ⟨⟨hauthor, hcore, hremotes⟩, hsaved, hreplicas, hunopened, hvalid⟩

/-- A replica that moved and is stored again. -/
theorem Durable.replica (h : Durable env disk room) {r r' : Replica K H Sig S}
    (hr : room.remotes[w]? = some r) (hmoves : Replica.Moves env.crypto env.backend r r')
    (hsaved : Replica.Saved env.crypto env.backend r') :
    Durable env disk { room with remotes := room.remotes.insert w r' } := by
  refine ⟨h.sound.moves (moves_replica hr hmoves), h.core, fun w' r'' hget => ?_,
    fun w' hw hnot => ?_, h.valid⟩
  · rw [Graph.getElem?_insert] at hget
    split_ifs at hget with heq
    · obtain rfl := Option.some.inj hget
      exact ⟨hsaved, heq ▸ (h.remotes w r hr).2⟩
    · exact h.remotes w' r'' hget
  · exact h.unopened w' hw fun hin => hnot (Graph.mem_insert.mpr (Or.inr hin))

/-- A local log that moved and is stored again. -/
theorem Durable.local_core (h : Durable env disk room) {core : Hypercore H Sig SK S}
    (hmoves : Hypercore.Moves env.crypto env.backend room.localCore core)
    (hsaved : Hypercore.Saved env.crypto env.backend core) :
    Durable env disk { room with localCore := core } :=
  ⟨h.sound.moves (moves_core hmoves), hsaved, h.remotes, h.unopened, h.valid⟩

/-! ### Opening a replica -/

omit [DecidableEq H] in
theorem ends_openStore_disk {own : K} (hout : env.factory.HandsOut own disk) (w : K) :
    Ends (openStore env w) room (fun store room' => store = disk.store w ∧ SameLogs room room')
      fun _ _ => False := by
  have hopen : Ends (env.factory.openStore w) room.factory (fun store _ => store = disk.store w)
      fun _ _ => False := by
    obtain ⟨f, hf⟩ := hout.opens w room.factory
    unfold Ends
    rw [hf]
  exact Ends.zoom hopen (fun _ _ hs => ⟨hs, rfl, rfl, rfl⟩) fun _ _ h => h

/-- A new replica is over a store without a log. -/
theorem ends_ensureReplica_durable (hout : env.factory.HandsOut room.localKey disk)
    (h : Durable env disk room) (hw : w ≠ room.localKey) :
    Ends (ensureReplica env w) room (fun _ room' => Durable env disk room') fun _ room' => room' = room := by
  unfold ensureReplica
  apply Ends.get
  split_ifs with hin hkey
  · exact Ends.pure h
  · exact Ends.throw rfl
  · refine Ends.andThen (ends_openStore_disk hout w) (fun _ _ h => h.elim) fun store room' h' => ?_
    obtain ⟨rfl, hsame⟩ := h'
    have h₁ := h.of_sameLogs hsame
    rw [← hsame.localKey] at hw
    rw [← hsame.remotes] at hin
    refine Ends.modify ⟨h₁.sound.move (.join hw hin), h₁.core, fun w' r hget => ?_,
      fun w' hw' hnot => ?_, h₁.valid⟩
    · rw [Graph.getElem?_insert] at hget
      split_ifs at hget with heq
      · obtain rfl := Option.some.inj hget
        refine ⟨Or.inr ⟨h₁.unopened w hw hin, rfl⟩, ?_⟩
        simpa [heq] using hkey
      · exact h₁.remotes w' r hget
    · exact h₁.unopened w' hw' fun hin' => hnot (Graph.mem_insert.mpr (Or.inr hin'))

/-! ### The calls -/

omit [DecidableEq H] in
/-- In an intact log a recovered entry that cannot be read is a block that is no entry. -/
theorem undecoded_of_recovered (h : Sound env room) {i : ℕ} (hi : i < room.localCore.len) {e : CoreError E}
    (he : recoveredEntry env room.localCore i = .error e) : Undecoded env room := by
  obtain ⟨B, hB⟩ := h.core
  obtain ⟨data, hdata⟩ : ∃ data, B[i]? = some data := ⟨_, List.getElem?_eq_getElem (hB.len_eq ▸ hi)⟩
  have hblock := hB.block hdata
  refine ⟨⟨room.localKey, i⟩, data, by rw [blockAt, if_pos rfl]; exact hblock, fun e' he' => ?_⟩
  have hget : room.localCore.get env.backend env.codec i = .ok (some e') :=
    Hypercore.get_eq_some.mpr ⟨data, hblock, he'⟩
  rw [recoveredEntry_eq_some.mpr hget] at he
  cases he

variable (env) in
/-- What an append of `op` sends: the new head, and the new block with a proof that verifies. -/
def Sends (op : Block) (room : Room K H Sig SK S F P) (out : List (Outbound K H Sig)) : Prop :=
  ∃ head proof, out = [⟨.head room.localKey head, .gossip⟩, ⟨.block room.localKey head room.localCore.len
      (env.codec.encode ⟨room.lin.heads.toList, op⟩) proof, .clients⟩] ∧
    verifyBlock env.crypto room.localKey head room.localCore.len
      (env.codec.encode ⟨room.lin.heads.toList, op⟩)
      proof = true

/-- The block that was appended to an intact log can be read back and proved. -/
theorem Sound.sends (h : Sound env room) {op : Block} {core : Hypercore H Sig SK S} {s : S}
    (hext : Hypercore.Extends env.crypto env.backend room.localCore
      (env.codec.encode ⟨room.lin.heads.toList, op⟩) core)
    (hk : env.backend.Keeps core.len core.store s) : (∃ out, Replies env room { core with store := s } out) ∧
      ∀ out, Replies env room { core with store := s } out → Sends env op room out := by
  obtain ⟨B, hB⟩ := h.core
  have hcore := (hB.extend hext).store hk
  have hlast : (B ++ [env.codec.encode ⟨room.lin.heads.toList, op⟩])[room.localCore.len]? =
      some (env.codec.encode ⟨room.lin.heads.toList, op⟩) := by
    rw [hB.len_eq, List.getElem?_concat_length]
  have hblock := hcore.block hlast
  obtain ⟨proof, hproof, hindex, hverify⟩ := hcore.built.proof hlast
  constructor
  · obtain ⟨head, hhead⟩ := Option.ne_none_iff_exists'.mp fun hnone => absurd (hcore.headless hnone) (by simp)
    exact ⟨_, head, _, proof, hhead, hblock, hproof, rfl⟩
  · rintro _ ⟨head, bytes, proof', hhead, hbytes, hproof', rfl⟩
    obtain rfl := Option.some.inj (Except.ok.inj (hbytes.symm.trans hblock))
    obtain rfl := Option.some.inj (hproof'.symm.trans hproof)
    obtain ⟨-, hroot, hsig⟩ := hcore.signed head hhead
    have hauthor : Hypercore.publicKey env.crypto { core with store := s } = room.localKey :=
      (congrArg env.crypto.publicOf (Hypercore.Move.extend hext).author_eq).trans h.author
    rw [hauthor] at hsig
    exact ⟨head, _, rfl, verifyBlock_iff.mpr ⟨hsig, hindex, hroot ▸ hverify⟩⟩

/-- An append whose entry is written and persisted goes through and sends the block. `Q` is to be
shown of how else it ends: refused, or with the error of the append or of `persist`. -/
theorem ends_localAppend_sound (h : Sound env room) (op : Block) {C : Hypercore H Sig SK S → Prop}
    {Q : RoomError E → Room K H Sig SK S F P → Prop}
    (hrefuses : Refuses room → Q .recoveringOwnFeed room ∧ Q .ownFeedPending room)
    (hwrites : ¬ Refuses room →
      Ends (Hypercore.append env.crypto env.backend env.codec ⟨room.lin.heads.toList, op⟩) room.localCore
        (fun _ core => Hypercore.Extends env.crypto env.backend room.localCore
            (env.codec.encode ⟨room.lin.heads.toList, op⟩) core ∧
          Ends (Hypercore.persist env.backend) core
            (fun _ core' =>
              (∃ s, core' = { core with store := s } ∧ env.backend.Keeps core.len core.store s) ∧
              C core') fun e core' => Q (.hypercore e) { room with localCore := core' })
        fun e core => Q (.hypercore e) { room with localCore := core }) :
    Ends (localAppend env op) room (fun out room' => Sends env op room out ∧
      ∃ core, Hypercore.Moves env.crypto env.backend room.localCore core ∧ C core ∧
        SameLogs { room with localCore := core } room') Q := by
  refine (ends_localAppend_of op
    (A := fun core' => ∃ core s, Hypercore.Extends env.crypto env.backend room.localCore
      (env.codec.encode ⟨room.lin.heads.toList, op⟩) core ∧ env.backend.Keeps core.len core.store s ∧
      core' = { core with store := s } ∧ C core')
    hrefuses (fun hready => ?_) fun core' e hA hno => ?_).mono (fun out room' h' => ?_) fun _ _ h' => h'
  · refine (hwrites hready).mono
      (fun _ core hx => hx.2.mono (fun _ core' hy => ?_) fun _ _ h' => h') fun _ _ h' => h'
    obtain ⟨⟨s, rfl, hk⟩, hC⟩ := hy
    exact ⟨core, s, hx.1, hk, rfl, hC⟩
  · obtain ⟨core, s, hext, hk, rfl, -⟩ := hA
    obtain ⟨⟨out, hout⟩, -⟩ := h.sends hext hk
    exact absurd hout (hno out)
  · obtain ⟨-, _, ⟨core, s, hext, hk, rfl, hC⟩, hreplies, rfl⟩ := h'
    have hsame := sameData_touch_advance env (room.withOwn { core with store := s } op)
    exact ⟨(h.sends hext hk).2 out hreplies, _,
      (Relation.ReflTransGen.single (.extend hext)).tail (.store hk), hC,
      hsame.localKey, hsame.localCore, hsame.remotes⟩

section Calls

variable (hb : env.backend.Lawful) (hn : env.backend.NeverFails)
  (hout : env.factory.HandsOut room.localKey disk) (h : Durable env disk room)
include hb hn hout h

/-- A block that is accepted is persisted, whether it is an entry or not. -/
theorem ends_ingestRemoteBlock_durable (hw : w ≠ room.localKey) (head : SignedHead H Sig)
    (index : ℕ) (bytes : Block) (proof : Merkle.Proof H) :
    Ends (ingestRemoteBlock env w head index bytes proof) room (fun _ room' => Durable env disk room')
      fun _ room' => Durable env disk room' ∧ (SameHoldings env room room' ∨ Undecoded env room') := by
  unfold ingestRemoteBlock
  refine Ends.bind (Q := fun _ room₁ => Durable env disk room₁ ∧ SameHoldings env room room₁) ?_
    fun _ room₁ h₁ => ?_
  · refine (Ends.and_ok (ends_ensureReplica_durable hout h hw) fun _ _ hok =>
      ((within_ensureReplica hw).ok hok).2).mono (fun _ _ h => h) fun _ room' h' => ?_
    subst h'
    exact ⟨h, Or.inl ⟨rfl, fun _ => rfl, rfl⟩⟩
  · obtain ⟨h₁, hsame⟩ := h₁
    have hw₁ : w ≠ room₁.localKey := hsame.localKey ▸ hw
    refine Ends.bind (Q := fun accepted room₂ => ∃ r r', room₁.remotes[w]? = some r ∧
      room₂ = { room₁ with remotes := room₁.remotes.insert w r' } ∧
      if accepted then index = r.len ∧ Replica.Accepts env.crypto env.backend r head bytes r' else r' = r) ?_
      fun accepted room₂ h₂ => ?_
    · unfold onReplica
      apply Ends.get
      cases hr : room₁.remotes[w]? with
      | none => exact Ends.throw ⟨h₁, Or.inl hsame⟩
      | some r =>
        exact Ends.zoom (Replica.ends_addBlock_stored hb hn head index bytes proof)
          (fun accepted r' hacc => ⟨r, r', rfl, rfl, hacc⟩) fun _ _ h => h.elim
    · obtain ⟨r, r', hr, rfl, hacc⟩ := h₂
      cases accepted with
      | false =>
        obtain rfl : r' = r := hacc
        refine Ends.pure ?_
        rw [Graph.insert_of_getElem? hr]
        exact h₁
      | true =>
        obtain ⟨rfl, hacc⟩ : index = r.len ∧ _ := hacc
        have hgain := gains_accepts hw₁ hr hacc
        obtain ⟨-, -, B, hB⟩ := h₁.sound.remotes w r hr
        have hr' : (room₁.remotes.insert w r')[w]? = some r' := by rw [Graph.getElem?_insert, if_pos rfl]
        refine Ends.bind (Q := fun _ room₃ => Durable env disk room₃ ∧
          ∀ m, room₃.blockAt env m = ({ room₁ with remotes := room₁.remotes.insert w r' } :
            Room K H Sig SK S F P).blockAt env m) ?_ fun _ room₃ h₃ => ?_
        · unfold onReplica
          apply Ends.get
          dsimp only
          rw [hr']
          refine Ends.zoom (Replica.ends_persist_saved hb hn (hB.accept hacc))
            (fun _ r'' hper => ?_) fun _ _ h => h.elim
          obtain ⟨⟨s, rfl, hk⟩, hsaved⟩ := hper
          have hmoves : Replica.Moves env.crypto env.backend r { r' with store := s } :=
            (Relation.ReflTransGen.single (.accept hacc)).tail (.store hk)
          refine ⟨?_, (same_of_replica hr' (Replica.block_store hk)).blocks⟩
          have hdone := h₁.replica hr hmoves hsaved
          rwa [← Graph.insert_insert _ w r'] at hdone
        · obtain ⟨h₃, hblocks⟩ := h₃
          refine Ends.bind (Ends.reads (Q := fun _ room' => room' = room₃) (fun _ _ => rfl) fun e he => ?_)
            fun e room' heq => ?_
          · refine ⟨h₃, Or.inr ⟨⟨w, r.len⟩, bytes, ?_, fun e' he' => ?_⟩⟩
            · rw [hblocks, hgain.blocks, if_pos rfl]
            · rw [he] at he'
              cases he'
          · subst heq
            exact Ends.update (Ends.pure (h₃.of_sameLogs ⟨rfl, rfl, rfl⟩))

omit hout in
/-- The suffix is recovered and stored before its entries are read. -/
theorem ends_completeOwnRecovery_durable (target : SignedHead H Sig) (suffix : List Block) :
    Ends (completeOwnRecovery env target suffix) room
      (fun _ room' => Durable env disk room' ∧ Grown env room room')
      fun _ room' => Durable env disk room' ∧ (SameHoldings env room room' ∨ Undecoded env room') := by
  have hdurable : ∀ {core}, Hypercore.Adopts env.crypto env.backend room.localCore target suffix core ∧
      Hypercore.Saved env.crypto env.backend core → Durable env disk { room with localCore := core } :=
    fun hA => h.local_core (.single (.adopt hA.1)) hA.2
  refine (ends_completeOwnRecovery_of (fun core => Held env { room with localCore := core })
    ((Hypercore.ends_recoverSignedSuffix_saved hb hn target suffix).mono (fun _ _ hA => hA)
      fun _ core hsame => ?_)
    (fun core _ i _ e he => (held_own rfl).mpr (recoveredEntry_eq_some.mp he))
      fun core d _ hA _ hbad => ?_).mono
    (fun _ room' h' => ?_) fun _ _ h' => h'
  · subst hsame
    exact ⟨h, Or.inl ⟨rfl, fun _ => rfl, rfl⟩⟩
  · obtain ⟨i, hi, e, he⟩ := hbad
    have hlt : i < core.len := by
      have := (List.mem_range'_1.mp hi).2
      have := hA.1.len_eq
      omega
    have hbad : Undecoded env { room with localCore := core } :=
      undecoded_of_recovered (hdurable hA).sound hlt he
    exact ⟨(hdurable hA).of_sameLogs ⟨rfl, rfl, rfl⟩, Or.inr hbad⟩
  · obtain ⟨core, d, hA, hmoves, -, rfl⟩ := h'
    have hgrown : Grown env room (room.withAdopted core d) :=
      ⟨rfl, fun n e he => (held_adopts hA.1 n e).mpr (Or.inl he), hmoves⟩
    have hsame := sameData_touch_advance env (room.withAdopted core d).drainPending
    exact ⟨(hdurable hA).of_sameLogs ⟨hsame.localKey, hsame.localCore, hsame.remotes⟩,
      hgrown.trans (grown_drain hsame)⟩

omit hout in
/-- On intact logs an append that is not refused succeeds, is stored and sent. -/
theorem ends_localAppend_durable (op : Block) :
    Ends (localAppend env op) room (fun out room' => Durable env disk room' ∧ Sends env op room out)
      fun _ room' => room' = room ∧ Refuses room := by
  obtain ⟨B, hB⟩ := h.sound.core
  have happend := ends_localAppend_sound h.sound op (C := Hypercore.Saved env.crypto env.backend)
    (Q := fun _ room' => room' = room ∧ Refuses room)
    (fun hrefuses => ⟨⟨rfl, hrefuses⟩, rfl, hrefuses⟩) fun _ => ?_
  · refine happend.mono (fun out room' h' => ?_) fun _ _ h' => h'
    obtain ⟨hsends, core, hmoves, hsaved, hlogs⟩ := h'
    exact ⟨(h.local_core hmoves hsaved).of_sameLogs hlogs, hsends⟩
  · refine (Hypercore.ends_append_verified hb hn hB.built _).mono (fun _ core h' => ?_) fun _ _ h' => h'.elim
    exact ⟨h'.1, (Hypercore.ends_persist_saved hb hn h'.2).mono (fun _ _ h'' => h'') fun _ _ h'' => h''.elim⟩

variable [DecidableEq Sig]

omit hout in
theorem ends_recoverOwnBlock_durable
    (head : SignedHead H Sig) (index : ℕ) (bytes : Block) (proof : Merkle.Proof H) :
    Ends (recoverOwnBlock env head index bytes proof) room
      (fun _ room' => Durable env disk room' ∧ Grown env room room')
      fun _ room' => Durable env disk room' ∧ (SameHoldings env room room' ∨ Undecoded env room') := by
  have hkeep : ∀ rec, Durable env disk { room with ownRecovery := rec } ∧
      SameHoldings env room { room with ownRecovery := rec } := fun rec =>
    ⟨h.of_sameLogs ⟨rfl, rfl, rfl⟩, rfl, fun _ => rfl, rfl⟩
  have hfail : ∀ rec, Durable env disk { room with ownRecovery := rec } ∧
      (SameHoldings env room { room with ownRecovery := rec } ∨
        Undecoded env { room with ownRecovery := rec }) :=
    fun rec => ⟨(hkeep rec).1, Or.inl (hkeep rec).2⟩
  refine ends_recoverOwnBlock_of (fun _ => ⟨h, (hkeep _).2.grown⟩) (fun _ => hfail _) fun _ _ => ?_
  refine (ends_beginOwnRecovery head).mono (fun _ room₁ h₁ => ?_) fun _ room' h' => ?_
  · obtain ⟨rec, rfl⟩ := h₁
    refine ⟨⟨(hkeep _).1, (hkeep _).2.grown⟩, fun _ => hfail _, fun target blocks _ =>
      ⟨⟨(hkeep _).1, (hkeep _).2.grown⟩, fun suffix => ?_⟩⟩
    have hrec := hkeep (some (target, blocks.insert index bytes))
    exact (ends_completeOwnRecovery_durable hb hn hrec.1 _ _).mono
      (fun _ _ h' => ⟨h'.1, hrec.2.grown.trans h'.2⟩)
      fun _ _ h' => ⟨h'.1, h'.2.imp_left hrec.2.trans⟩
  · subst h'
    exact hfail _

theorem ends_onInbound_durable (peer : K) (msg : SyncMessage K H Sig) :
    Ends (onInbound env peer msg) room (fun _ room' => Durable env disk room' ∧ Grown env room room')
      fun _ room' => Durable env disk room' ∧ (SameHoldings env room room' ∨ Undecoded env room') := by
  have hstay : SameHoldings env room room := ⟨rfl, fun _ => rfl, rfl⟩
  refine ends_onInbound_of peer (fun _ _ => ⟨h, hstay.grown⟩) (fun _ => ⟨h, Or.inl hstay⟩) (fun head _ => ?_)
    (fun head i bytes proof _ => ends_recoverOwnBlock_durable hb hn h head i bytes proof)
    fun w head index bytes proof _ hw => ?_
  · refine (ends_checkOwnHead head).mono (fun _ room' h' => ?_) fun _ room' h' => ?_
    · obtain ⟨rec, rfl⟩ := h'
      exact ⟨h.of_sameLogs ⟨rfl, rfl, rfl⟩, rfl, fun _ _ he => he, .refl⟩
    · subst h'
      exact ⟨h, Or.inl hstay⟩
  · refine (Ends.and_ok (ends_ingestRemoteBlock_durable hb hn hout h hw head index bytes proof)
      fun _ _ hok => ((within_ingestRemoteBlock hb hw head index bytes proof).ok hok).2).mono
      (fun accepted room' h' => ?_) fun _ _ h' => h'
    cases accepted with
    | false => exact ⟨h'.1, SameHoldings.grown h'.2⟩
    | true =>
      obtain ⟨hdurable, e, he, hgain, hkey, hdag⟩ := h'
      have hheld : room'.Held env ⟨w, index⟩ e := (hgain.held_iff _ e).mpr (Or.inr ⟨rfl, he⟩)
      have hgrown : Grown env room room' := by
        refine ⟨hkey, fun n e' he' => (hgain.held_iff n e').mpr (Or.inl he'), ?_⟩
        rw [hdag]
        exact Dag.moves_tryAddNode hheld
      have hsame := sameData_advance env room'.drainPending
      exact ⟨hdurable.of_sameLogs ⟨hsame.localKey, hsame.localCore, hsame.remotes⟩,
        hgrown.trans (grown_drain hsame)⟩

/-- **A call on stores that never fail leaves the logs as they are stored.** Where it fails, it has
changed nothing the room holds, or it has taken in a block that is no entry. -/
theorem ends_perform_durable (c : Call K H Sig) :
    Ends (perform env c) room (fun _ room' => Durable env disk room')
      fun _ room' => Durable env disk room' ∧ (SameHoldings env room room' ∨ Undecoded env room') := by
  have hstay : Durable env disk room ∧ (SameHoldings env room room ∨ Undecoded env room) :=
    ⟨h, Or.inl ⟨rfl, fun _ => rfl, rfl⟩⟩
  cases c with
  | inbound peer msg =>
    exact (ends_onInbound_durable hb hn hout h peer msg).mono (fun _ _ h => h.1) fun _ _ h => h
  | append op =>
    refine (ends_localAppend_durable hb hn h op).mono (fun _ _ h => h.1) fun _ room' h' => ?_
    obtain ⟨rfl, -⟩ := h'
    exact hstay
  | checkpoint =>
    refine ends_checkpoint_of (fun _ => ?_) fun _ => h
    refine (ends_localAppend_durable hb hn h []).mono (fun _ _ h => h.1) fun _ room' h' => ?_
    obtain ⟨rfl, -⟩ := h'
    exact hstay

theorem Durable.perform (c : Call K H Sig) : Durable env disk (after (perform env c) room) :=
  (ends_perform_durable hb hn hout h c).always (fun _ _ h => h) fun _ _ h => h.1

end Calls

end Room
end HypercoreRs
