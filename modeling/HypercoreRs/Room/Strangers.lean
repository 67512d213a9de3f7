/-
# What a stranger leaves behind

A message without a valid signature of the writer it names, or a block its replica
refuses, should leave no trace in a room (`NoTrace`). Each of them is refused before
anything changes, but for one: a block of a writer the room has not seen makes the
room open a store and keep an empty replica before the block is verified.

So such a message leaves no trace exactly if it does not open a store
(`no_trace_iff`).
-/
import HypercoreRs.Command.Ends
import HypercoreRs.Room.Runs

namespace HypercoreRs

open Std Merkle Command

namespace Room

variable {K H Sig SK S E F P St : Type} [LinearOrder K] [DecidableEq H]
variable (env : Env K H Sig SK S E F P St) {room room' room₀ : Room K H Sig SK S F P}

/-- The message has no valid signature of the writer it names, or is a block that the
writer's replica refuses: not the next one, or without a proof. Only heads and blocks
are signed at all. -/
def Unauthentic (room : Room K H Sig SK S F P) : SyncMessage K H Sig → Prop
  | .head w head => verifySignedHead env.crypto w head = false
  | .have_ _ _ => True
  | .want _ _ _ => True
  | .block w head i bytes proof => verifySignedHead env.crypto w head = false ∨
      w ≠ room.localKey ∧
        (i ≠ room.writerLen w ∨ verifyBlock env.crypto w head i bytes proof = false)

/-- The replicas, the stores opened, the logs, the DAG with its pending entries, the
recovery and the projections are the same. -/
structure NoTrace (room room' : Room K H Sig SK S F P) : Prop where
  remotes : room'.remotes = room.remotes
  factory : room'.factory = room.factory
  localCore : room'.localCore = room.localCore
  dag : room'.toDag = room.toDag
  ownRecovery : room'.ownRecovery = room.ownRecovery
  finalizedProj : room'.finalizedProj = room.finalizedProj
  liveProj : room'.liveProj = room.liveProj
  finalizedLen : room'.finalizedLen = room.finalizedLen
  finalizedSincePoll : room'.finalizedSincePoll = room.finalizedSincePoll

/-- The message is a block of a writer the room has not seen, under a valid key, and
the factory does not just fail to open a store for it. -/
def OpensStore (room : Room K H Sig SK S F P) : SyncMessage K H Sig → Prop
  | .block w _ _ _ _ => w ≠ room.localKey ∧ w ∉ room.remotes ∧ env.crypto.validKey w = true ∧
      ∀ e, env.factory.openStore w room.factory ≠ .error e room.factory
  | _ => False

/-! ### The keys of the logs -/

/-- The local log is the local writer's, and each replica the one of its writer. -/
structure Keyed (room : Room K H Sig SK S F P) : Prop where
  author : env.crypto.publicOf room.localCore.author = room.localKey
  remotes : ∀ (w : K) (r : Replica K H Sig S), room.remotes[w]? = some r → r.publicKey = w

variable {env}

variable {w : K} {r : Replica K H Sig S}

omit [DecidableEq H] in
theorem Keyed.insert (h : Keyed env room) (hr : r.publicKey = w) :
    Keyed env { room with remotes := room.remotes.insert w r } := by
  refine ⟨h.author, fun w' r' hget => ?_⟩
  change (room.remotes.insert w r)[w']? = some r' at hget
  rw [Graph.getElem?_insert] at hget
  split_ifs at hget with heq
  · obtain rfl := Option.some.inj hget
    exact hr.trans heq.symm
  · exact h.remotes w' r' hget

theorem Keyed.move (h : Keyed env room) (hm : Move env room room') : Keyed env room' := by
  cases hm with
  | other hsame =>
    refine ⟨?_, ?_⟩
    · rw [hsame.localCore, hsame.localKey]
      exact h.author
    · rw [hsame.remotes]
      exact h.remotes
  | core hstep => exact ⟨(congrArg _ hstep.author_eq).trans h.author, h.remotes⟩
  | replica hr hstep => exact h.insert (hstep.publicKey_eq.trans (h.remotes _ _ hr))
  | join hw hin => exact h.insert rfl
  | dag _ => exact ⟨h.author, h.remotes⟩
  | own _ => exact ⟨h.author, h.remotes⟩
  | repin _ => exact ⟨h.author, h.remotes⟩

theorem Keyed.moves (h : Keyed env room) (hm : Moves env room room') : Keyed env room' := by
  induction hm with
  | refl => exact h
  | tail _ hstep ih => exact ih.move hstep

theorem Opened.keyed (h : Opened env room) : Keyed env room := by
  refine ⟨h.author, fun w r hr => ?_⟩
  obtain ⟨-, f, s, f', -, hopen⟩ := h.remotes w r hr
  exact (Replica.openReplica_ok hopen).1

theorem Reached.keyed [DecidableEq Sig] (hb : env.backend.Lawful) {cfg : RoomConfig K SK} {f : F} {p : P}
    (hopen : openRoom env cfg f p = .ok room₀) (h : Reached env room₀ room) : Keyed env room := by
  obtain ⟨base, hbase, -, hmoves, -⟩ := openRoom_ok hopen
  exact (hbase.toOpened.keyed.moves hmoves).moves (h.moves hb)

/-! ### Refusals -/

/-- The command ends where it began. -/
def Still {ε σ α : Type} (x : EStateM ε σ α) (s : σ) : Prop :=
  Ends x s (fun _ s' => s' = s) fun _ s' => s' = s

theorem Still.after_eq {ε σ α : Type} {x : EStateM ε σ α} {s : σ} (h : Still x s) : after x s = s :=
  h.always (fun _ _ hs => hs) fun _ _ hs => hs

section Own

variable [DecidableEq Sig]

variable {head : SignedHead H Sig}
  (h : verifySignedHead env.crypto (room.localCore.publicKey env.crypto) head = false)
include h

theorem still_beginOwnRecovery : Still (beginOwnRecovery env head) room := by
  unfold beginOwnRecovery
  apply Ends.get
  rw [h]
  exact Ends.throw rfl

theorem still_checkOwnHead : Still (checkOwnHead env head) room :=
  ends_checkOwnHead_of (fun _ => still_beginOwnRecovery h) (fun _ => rfl) fun _ => rfl

theorem still_recoverOwnBlock {index : ℕ} {bytes : Block} {proof : Merkle.Proof H} :
    Still (recoverOwnBlock env head index bytes proof) room := by
  refine ends_recoverOwnBlock_of (fun _ => rfl) (fun _ => rfl) fun _ hverify => ?_
  rw [verifyBlock, h] at hverify
  cases hverify

end Own

variable {head : SignedHead H Sig} {index : ℕ} {bytes : Block} {proof : Merkle.Proof H}

theorem onReplica_refused (hr : room.remotes[w]? = some r)
    (h : index ≠ r.len ∨ verifyBlock env.crypto r.publicKey head index bytes proof = false) :
    onReplica w (Replica.addBlock env.crypto env.backend head index bytes proof) room =
      .ok false room := by
  refine bind_eq_ok.mpr ⟨room, room, rfl, ?_⟩
  rw [hr]
  refine zoom_eq_ok.mpr ⟨r, Replica.addBlock_refused h, ?_⟩
  rw [Graph.insert_of_getElem? hr]

omit [DecidableEq H] in
variable (env) in
/-- A replica that is there stays; a new one needs a valid key and a store. -/
theorem ensureReplica_eq (w : K) (room : Room K H Sig SK S F P) : ensureReplica env w room =
    if room.remotes.contains w then .ok () room
    else if !env.crypto.validKey w then .error .badWriterKey room
    else match env.factory.openStore w room.factory with
      | .ok store f => .ok () { room with factory := f
                                          remotes := room.remotes.insert w (Replica.new w store) }
      | .error e f => .error (.storeOpen e) { room with factory := f } := by
  have hget : ensureReplica env w room = (if room.remotes.contains w then pure ()
      else if !env.crypto.validKey w then throw .badWriterKey
      else do
        let store ← openStore env w
        modify fun room => { room with remotes := room.remotes.insert w (Replica.new w store) } :
      EStateM (RoomError E) (Room K H Sig SK S F P) Unit) room := rfl
  rw [hget]
  split_ifs
  · rfl
  · rfl
  · cases hopen : env.factory.openStore w room.factory with
    | ok store f =>
      refine bind_eq_ok.mpr ⟨store, { room with factory := f }, ?_, rfl⟩
      rw [openStore, zoom, hopen]
    | error e f =>
      refine bind_eq_error.mpr (Or.inl ?_)
      rw [openStore, zoom, hopen]

/-- A refused block leaves what `ensureReplica` left. -/
theorem ingest_refused (hensure : ensureReplica env w room = .ok () room') (hr : room'.remotes[w]? = some r)
    (h : index ≠ r.len ∨ verifyBlock env.crypto r.publicKey head index bytes proof = false) :
    ingestRemoteBlock env w head index bytes proof room = .ok false room' :=
  bind_eq_ok.mpr ⟨(), room', hensure, bind_eq_ok.mpr ⟨false, room', onReplica_refused hr h, rfl⟩⟩

/-- The replica of a writer has the writer's length and key. -/
theorem Keyed.refuses (h : Keyed env room) (hw : w ≠ room.localKey) (hr : room.remotes[w]? = some r)
    (hmsg : Unauthentic env room (.block w head index bytes proof)) :
    index ≠ r.len ∨ verifyBlock env.crypto r.publicKey head index bytes proof = false := by
  have hlen : room.writerLen w = r.len := by
    rw [writerLen, if_neg hw, hr]
  rw [h.remotes w r hr, ← hlen]
  obtain hsig | ⟨-, hrefused⟩ := hmsg
  · right
    rw [verifyBlock, hsig]
    rfl
  · exact hrefused

/-- So does a new, empty one. -/
theorem refuses_new (hw : w ≠ room.localKey) (hin : w ∉ room.remotes) (store : S)
    (hmsg : Unauthentic env room (.block w head index bytes proof)) :
    index ≠ (Replica.new w store : Replica K H Sig S).len ∨
      verifyBlock env.crypto w head index bytes proof = false := by
  have hlen : room.writerLen w = 0 := by
    rw [writerLen, if_neg hw, ExtTreeMap.getElem?_eq_none hin]
  obtain hsig | ⟨-, hrefused⟩ := hmsg
  · right
    rw [verifyBlock, hsig]
    rfl
  · rw [hlen] at hrefused
    exact hrefused

/-! ### The trace -/

variable [DecidableEq Sig]

theorem onInbound_block (peer : K) (hw : w ≠ room.localKey)
    (h : ingestRemoteBlock env w head index bytes proof room = .ok false room') :
    onInbound env peer (.block w head index bytes proof) room = .ok [] room' := by
  refine bind_eq_ok.mpr ⟨room, room, rfl, ?_⟩
  dsimp only
  rw [if_neg hw]
  exact bind_eq_ok.mpr ⟨false, room', h, rfl⟩

theorem onInbound_block_error {peer w : K} (hw : w ≠ room.localKey) {e : RoomError E}
    (h : ensureReplica env w room = .error e room') :
    onInbound env peer (.block w head index bytes proof) room = .error e room' := by
  refine bind_eq_error.mpr (Or.inr ⟨room, room, rfl, ?_⟩)
  dsimp only
  rw [if_neg hw]
  exact bind_eq_error.mpr (Or.inl (bind_eq_error.mpr (Or.inl h)))

/-- A message that is not a block of another writer is refused where it came. -/
theorem still_onInbound (h : Keyed env room) (peer : K) {msg : SyncMessage K H Sig}
    (hmsg : Unauthentic env room msg)
    (hown : ∀ w head i bytes proof, msg = .block w head i bytes proof → w = room.localKey) :
    Still (onInbound env peer msg) room := by
  have hkey : room.localCore.publicKey env.crypto = room.localKey := h.author
  refine ends_onInbound_of peer (fun _ _ => rfl) (fun _ => rfl) (fun head hm => ?_)
    (fun head i bytes proof hm => ?_)
    fun w head i bytes proof hm hw => absurd (hown w head i bytes proof hm) hw
  · subst hm
    exact still_checkOwnHead (by rw [hkey]; exact hmsg)
  · subst hm
    exact still_recoverOwnBlock (by rw [hkey]; exact hmsg.resolve_right fun hother => hother.1 rfl)

omit [DecidableEq H] [DecidableEq Sig] in
theorem NoTrace.refl : NoTrace room room := ⟨rfl, rfl, rfl, rfl, rfl, rfl, rfl, rfl, rfl⟩

/-- A block of another writer leaves no trace, unless the writer is new and its store
is opened. -/
theorem block_no_trace_iff (h : Keyed env room) {peer w : K} (hw : w ≠ room.localKey)
    (hmsg : Unauthentic env room (.block w head index bytes proof)) :
    NoTrace room (after (onInbound env peer (.block w head index bytes proof)) room) ↔
      ¬ OpensStore env room (.block w head index bytes proof) := by
  by_cases hin : w ∈ room.remotes
  · -- a known writer's replica refuses the block
    obtain ⟨r, hr⟩ := ExtTreeMap.mem_iff_isSome_getElem?.mp hin |> Option.isSome_iff_exists.mp
    have hensure : ensureReplica env w room = .ok () room := by
      rw [ensureReplica_eq, if_pos (show room.remotes.contains w = true from hin)]
    have hrun := onInbound_block peer hw (ingest_refused hensure hr (h.refuses hw hr hmsg))
    rw [after, hrun]
    exact iff_of_true .refl fun hopens => hopens.2.1 hin
  · have hnot : ¬ room.remotes.contains w = true := hin
    by_cases hkey : env.crypto.validKey w = true
    · have hensure := ensureReplica_eq env w room
      rw [if_neg hnot, hkey] at hensure
      cases hopen : env.factory.openStore w room.factory with
      | ok store f =>
        -- the new replica stays
        rw [hopen] at hensure
        have hr : (room.remotes.insert w (Replica.new w store))[w]? = some (Replica.new w store) := by
          rw [Graph.getElem?_insert, if_pos rfl]
        have hrun := onInbound_block peer hw
          (ingest_refused hensure hr (refuses_new hw hin store hmsg))
        rw [after, hrun]
        refine iff_of_false (fun htrace => hin ?_) (not_not.mpr ⟨hw, hin, hkey, fun e he => ?_⟩)
        · rw [← htrace.remotes]
          exact ExtTreeMap.mem_insert_self
        · rw [hopen] at he
          cases he
      | error e f =>
        rw [hopen] at hensure
        rw [after, onInbound_block_error hw hensure]
        constructor
        · intro htrace hopens
          have hf : f = room.factory := htrace.factory
          exact hopens.2.2.2 e (hf ▸ hopen)
        · intro hnone
          obtain rfl : f = room.factory := by
            by_contra hne
            refine hnone ⟨hw, hin, hkey, fun e' he' => ?_⟩
            rw [hopen] at he'
            exact hne (EStateM.Result.error.inj he').2
          exact .refl
    · -- no replica without a valid key
      have hensure : ensureReplica env w room = .error .badWriterKey room := by
        rw [ensureReplica_eq, if_neg hnot, Bool.not_eq_true _ |>.mp hkey]
        rfl
      rw [after, onInbound_block_error hw hensure]
      exact iff_of_true .refl fun hopens => hkey hopens.2.2.1

/-- **An unauthenticated message leaves no trace exactly if it opens no store.** In
every room reached from an opened one by any calls, failed ones included. -/
theorem no_trace_iff (hb : env.backend.Lawful) {cfg : RoomConfig K SK} {f : F} {p : P}
    (hopen : openRoom env cfg f p = .ok room₀) (h : Reached env room₀ room) (peer : K)
    {msg : SyncMessage K H Sig} (hmsg : Unauthentic env room msg) :
    NoTrace room (after (onInbound env peer msg) room) ↔ ¬ OpensStore env room msg := by
  have hkeyed := h.keyed hb hopen
  by_cases hother : ∃ w head i bytes proof, msg = .block w head i bytes proof ∧ w ≠ room.localKey
  · obtain ⟨w, head, i, bytes, proof, rfl, hw⟩ := hother
    exact block_no_trace_iff hkeyed hw hmsg
  · have hown : ∀ w head i bytes proof, msg = .block w head i bytes proof → w = room.localKey := by
      intro w head i bytes proof heq
      by_contra hw
      exact hother ⟨w, head, i, bytes, proof, heq, hw⟩
    rw [(still_onInbound hkeyed peer hmsg hown).after_eq]
    refine iff_of_true .refl fun hopens => ?_
    cases msg with
    | block w head i bytes proof => exact hopens.1 (hown w head i bytes proof rfl)
    | head w head => exact hopens
    | have_ w length => exact hopens
    | want w start end_ => exact hopens

/-- A block of writer 1 under a head that writer 2 signed. -/
def forgedBlock : SyncMessage WriterKey Digest (WriterKey × HeadMessage Digest) :=
  .block 1 ⟨0, 1, .noRoots, (2, ⟨0, 1, .noRoots⟩)⟩ 0 [] ⟨0, 0, [], []⟩

theorem unauthentic_forged (room : MemoryRoom) : Unauthentic inMemory room forgedBlock :=
  Or.inl (by decide)

/-- In a room that has a block of writer 1, a forged one leaves no trace. -/
theorem no_trace_known_writer : ∃ room₀ room,
    openRoom inMemory ⟨0, [], .original⟩ () () = .ok room₀ ∧ Reached inMemory room₀ room ∧
    Unauthentic inMemory room forgedBlock ∧ 1 ∈ room.remotes ∧
    NoTrace room (after (onInbound inMemory 9 forgedBlock) room) := by
  have hrun : (openedAfter inMemory [signedBlock 1 [entryCodec.encode ⟨[], [7]⟩] 0]).any
      (fun room => room.remotes.contains (1 : WriterKey)) = true := by
    decide +kernel
  obtain ⟨room, hroom, hin⟩ := (Option.any_eq_true _ _).mp hrun
  obtain ⟨room₀, hopen, hreach⟩ := openedAfter_reached hroom
  exact ⟨room₀, room, hopen, hreach, unauthentic_forged room, hin,
    (no_trace_iff Backend.memory_lawful hopen hreach 9 (unauthentic_forged room)).mpr
      fun hopens => hopens.2.1 hin⟩

/-- In a fresh room the same forged block leaves a replica of writer 1. -/
theorem forged_block_leaves_replica : ∃ room,
    openRoom inMemory ⟨0, [], .original⟩ () () = .ok room ∧ Unauthentic inMemory room forgedBlock ∧
    ¬ NoTrace room (after (onInbound inMemory 9 forgedBlock) room) := by
  have hrun : (openedAfter inMemory []).any (fun room => !room.remotes.contains (1 : WriterKey) &&
      (after (onInbound inMemory 9 forgedBlock) room).remotes.contains (1 : WriterKey)) = true := by
    decide +kernel
  obtain ⟨room, hroom, hcheck⟩ := (Option.any_eq_true _ _).mp hrun
  obtain ⟨hbefore, hafter⟩ := (Bool.and_eq_true _ _).mp hcheck
  cases hopen : openRoom inMemory ⟨0, [], .original⟩ () () with
  | error e =>
    rw [openedAfter, hopen] at hroom
    cases hroom
  | ok room₀ =>
    rw [openedAfter, hopen] at hroom
    obtain rfl : room₀ = room := Option.some.inj hroom
    refine ⟨room₀, rfl, unauthentic_forged room₀, fun htrace => ?_⟩
    rw [htrace.remotes] at hafter
    rw [hafter] at hbefore
    cases hbefore

end Room
end HypercoreRs
