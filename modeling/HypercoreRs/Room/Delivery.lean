/-
# Causal delivery is complete, but for a local append

A room's DAG should hold every held entry whose causal past is held, and `pending`
the rest (`CausallyComplete`). Messages keep this from any state, since each ends
with `drainPending`. `localAppend` does not drain: an entry that waited only for the
node just appended goes on waiting. So an append keeps the DAG complete exactly when
every waiting entry waits for something else (`Quiet`), and along runs of quiet
appends the order depends only on the blocks held (`delivery_complete`).
-/
import HypercoreRs.Room.Runs

namespace HypercoreRs

open Std Merkle Command

namespace Room

variable {K H Sig SK S E F P St : Type} [LinearOrder K]
variable {env env' : Env K H Sig SK S E F P St} {room room' room₀ room₀' : Room K H Sig SK S F P}

variable (env) in
/-- The DAG holds the causally deliverable entries and `pending` the others. -/
structure CausallyComplete (room : Room K H Sig SK S F P) : Prop where
  delivered : ∀ n, n ∈ room.lin.deps ↔ Dag.Deliverable (room.Held env) n
  waiting : ∀ n e, (n, e) ∈ room.pending ↔ room.Held env n e ∧ ¬ Dag.Deliverable (room.Held env) n
  once : (room.pending.map Prod.fst).Nodup

/-- Every waiting entry waits for something other than the next own node. -/
def Quiet (room : Room K H Sig SK S F P) : Prop :=
  ∀ p ∈ room.pending, ∃ m, Dag.Needs p.1 p.2.heads m ∧ m ∉ room.lin.deps ∧
    m ≠ ⟨room.localKey, room.localCore.len⟩

variable {init : Linearizer K}

theorem Complete.causallyComplete (h0 : Linearizer.Run [] init) (h : Complete env init room) :
    CausallyComplete env room :=
  ⟨h.1.mem_iff h0 h.2, h.1.mem_pending_iff h0 h.2, h.1.nodup⟩

/-- In a causally complete room nothing that waits could be delivered. -/
theorem CausallyComplete.closed (h0 : Linearizer.Run [] init) (h : CausallyComplete env room)
    (ha : Accounts env init room) : room.toDag.Closed := by
  intro p hp lin hadd
  obtain ⟨acc, hadds, -⟩ := ha.adds
  obtain ⟨hheld, hnot⟩ := (h.waiting p.1 p.2).mp hp
  have hneeds := (Dag.add_ok_iff (hadds.run h0).valid.wf (ha.waits p hp).2).mp ⟨lin, hadd⟩
  exact hnot (.intro hheld fun m hm => (h.delivered m).mp (hneeds m hm))

/-! ### One append -/

/-- The heads an append references are in the DAG. -/
theorem mem_of_heads {L : Linearizer K} {n : NodeId K} (h : n ∈ L.heads) : n ∈ L.deps := by
  rw [Linearizer.heads, Graph.mem_ofList, List.mem_filter] at h
  exact Graph.mem_keys.mp h.1

/-- The entry an append writes. -/
def ownEntry (room : Room K H Sig SK S F P) (op : Block) : Entry K := ⟨room.lin.heads.toList, op⟩

variable {op : Block}

theorem Appended.held_iff (hcodec : env.codec.Faithful) (h : Appended env op room room')
    (hfits : (room.ownEntry op).Fits) (n : NodeId K) (e : Entry K) :
    room'.Held env n e ↔ room.Held env n e ∨
      n = ⟨room.localKey, room.localCore.len⟩ ∧ e = room.ownEntry op := by
  rw [h.gains.held_iff, show env.codec.decode (env.codec.encode ⟨room.lin.heads.toList, op⟩) =
    .ok (room.ownEntry op) from hcodec _ hfits, Except.ok.injEq, eq_comm (a := room.ownEntry op)]

/-- An append accounts for its own entry, and leaves nothing to deliver exactly in a
quiet room. -/
theorem Appended.complete_iff (h0 : Linearizer.Run [] init) (hcodec : env.codec.Faithful)
    (ha : Accounts env init room) (h : Appended env op room room') (hfits : (room.ownEntry op).Fits) :
    Accounts env init room' ∧ (room'.toDag.Closed ↔ Quiet room) := by
  have hnew : ∀ e', ¬ room.Held env ⟨room.localKey, room.localCore.len⟩ e' := by
    rintro e' ⟨bytes, hbytes, -⟩
    rw [h.gains.fresh] at hbytes
    cases hbytes
  have hneeds : ∀ m, Dag.Needs ⟨room.localKey, room.localCore.len⟩ (room.ownEntry op).heads m →
      m ∈ room.lin.deps := by
    rintro m (⟨hpos, rfl⟩ | hm)
    · exact h.pred hpos
    · exact mem_of_heads (ExtTreeSet.mem_toList.mp hm)
  have hheld : room'.Held env = fun m e => room.Held env m e ∨
      m = ⟨room.localKey, room.localCore.len⟩ ∧ e = room.ownEntry op := by
    funext m e
    exact propext (h.held_iff hcodec hfits m e)
  have hacc := Dag.Accounted.append h0 ha hnew hneeds
  have hclosed := Dag.Accounted.closed_append_iff h0 ha hnew hneeds
  have hdag : room'.toDag = { room.toDag with
      lin := (room.lin.add ⟨room.localKey, room.localCore.len⟩ (room.ownEntry op).heads).1
      payloads := room.payloads.insert ⟨room.localKey, room.localCore.len⟩ (room.ownEntry op).payload } :=
    h.dag
  rw [← hdag] at hacc hclosed
  rw [Accounts, hheld]
  exact ⟨hacc, hclosed⟩

/-- An append in a quiet room keeps the DAG complete. -/
theorem Appended.complete (h0 : Linearizer.Run [] init) (hcodec : env.codec.Faithful)
    (hc : Complete env init room) (h : Appended env op room room')
    (hop : (room.ownEntry op).Fits ∧ Quiet room) : Complete env init room' := by
  obtain ⟨hacc, hclosed⟩ := h.complete_iff h0 hcodec hc.1 hop.1
  exact ⟨hacc, hclosed.mpr hop.2⟩

/-! ### Runs -/

variable [DecidableEq H] [DecidableEq Sig]

/-- The op a call appends, if any. -/
def Call.appends (room : Room K H Sig SK S F P) : Call K H Sig → Option Block
  | .inbound _ _ => none
  | .append op => some op
  | .checkpoint => if room.needsCheckpoint then some [] else none

variable (env) in
/-- The rooms reached from `room₀` by successful calls whose appends are made in quiet
rooms. The counts an entry is written with are 64-bit values in the source. -/
inductive QuietRun (room₀ : Room K H Sig SK S F P) :
    Room K H Sig SK S F P → Prop
  | start : QuietRun room₀ room₀
  | call {room room' : Room K H Sig SK S F P} {c : Call K H Sig} {out : List (Outbound K H Sig)} :
      QuietRun room₀ room → perform env c room = .ok out room' →
      (∀ op ∈ c.appends room, (room.ownEntry op).Fits ∧ Quiet room) → QuietRun room₀ room'

theorem Complete.call (hb : env.backend.Lawful) (hcodec : env.codec.Faithful) (h0 : Linearizer.Run [] init)
    (hc : Complete env init room) {c : Call K H Sig} {out : List (Outbound K H Sig)}
    (hcall : perform env c room = .ok out room')
    (hquiet : ∀ op ∈ c.appends room, (room.ownEntry op).Fits ∧ Quiet room) :
    Complete env init room' := by
  cases c with
  | inbound peer msg => exact ((within_onInbound hb peer msg room).ok hcall).2 init h0 hc
  | append op =>
    exact ((within_localAppend hb op room).ok hcall).2.complete h0 hcodec hc (hquiet op rfl)
  | checkpoint =>
    have hdone := ((within_checkpoint hb room).ok hcall).2
    split_ifs at hdone with hneeds
    · exact hdone.complete h0 hcodec hc (hquiet [] (if_pos hneeds))
    · exact hdone ▸ hc

theorem QuietRun.complete (hb : env.backend.Lawful) (hcodec : env.codec.Faithful) {cfg : RoomConfig K SK}
    {f : F} {p : P} (hopen : openRoom env cfg f p = .ok room₀) (h : QuietRun env room₀ room) :
    Complete env (startLin cfg.indexers) room := by
  induction h with
  | start =>
    obtain ⟨base, -, -, -, hc⟩ := openRoom_ok hopen
    exact hc
  | call _ hcall hquiet ih => exact ih.call hb hcodec (run_startLin _) hcall hquiet

/-- The start depends on the set of indexers only. -/
theorem startLin_congr {ix ix' : List K} (h : ∀ k, k ∈ ix ↔ k ∈ ix') : startLin ix = startLin ix' := by
  have hset : ExtTreeSet.ofList ix = ExtTreeSet.ofList ix' := by
    refine ExtTreeSet.ext_mem fun k => ?_
    rw [Graph.mem_ofList, Graph.mem_ofList, h k]
  have hempty : ix.isEmpty = ix'.isEmpty := by
    rw [Bool.eq_iff_iff, List.isEmpty_iff, List.isEmpty_iff, List.eq_nil_iff_forall_not_mem,
      List.eq_nil_iff_forall_not_mem]
    exact forall_congr' fun k => not_congr (h k)
  unfold startLin
  rw [hempty]
  split_ifs
  · rfl
  · show Linearizer.withIndexers ix = Linearizer.withIndexers ix'
    unfold Linearizer.withIndexers
    rw [hset]

/-- **Causal delivery is complete along quiet runs.** In every room reached from an
opened one by successful calls whose appends are made in quiet rooms, the DAG holds
the deliverable entries and `pending` the rest. There an append leaves the room
complete exactly when it is made in a quiet room. And a second such room with the same
indexers and the same blocks has the same order and the same finalized list. -/
theorem delivery_complete (hb : env.backend.Lawful) (hcodec : env.codec.Faithful)
    {cfg : RoomConfig K SK} {f : F} {p : P} (hopen : openRoom env cfg f p = .ok room₀)
    (h : QuietRun env room₀ room) :
    CausallyComplete env room ∧
    (∀ op out room', localAppend env op room = .ok out room' → (room.ownEntry op).Fits →
      (CausallyComplete env room' ↔ Quiet room)) ∧
    ∀ {env' : Env K H Sig SK S E F P St} {cfg' : RoomConfig K SK} {f' : F} {p' : P}
      {room₀' room' : Room K H Sig SK S F P}, env'.backend.Lawful → env'.codec = env.codec →
      openRoom env' cfg' f' p' = .ok room₀' → QuietRun env' room₀' room' →
      (∀ k, k ∈ cfg.indexers ↔ k ∈ cfg'.indexers) →
      (∀ n bytes, room.blockAt env n = .ok (some bytes) ↔ room'.blockAt env' n = .ok (some bytes)) →
      room.order = room'.order ∧ room.lin.finalized = room'.lin.finalized := by
  have h0 := run_startLin cfg.indexers
  have hc := h.complete hb hcodec hopen
  refine ⟨hc.causallyComplete h0, fun op out room' happ hfits => ?_, ?_⟩
  · obtain ⟨hacc, hclosed⟩ :=
      ((within_localAppend hb op room).ok happ).2.complete_iff h0 hcodec hc.1 hfits
    rw [← hclosed]
    exact ⟨fun h => h.closed h0 hacc, fun h => Complete.causallyComplete h0 ⟨hacc, h⟩⟩
  · intro env' cfg' f' p' room₀' room' hb' hcod hopen' h' hix hblocks
    have hc' := h'.complete hb' (hcod ▸ hcodec) hopen'
    rw [← startLin_congr hix] at hc'
    have hheld : room'.Held env' = room.Held env := by
      funext n e
      unfold Held
      rw [hcod]
      exact propext (exists_congr fun bytes => and_congr_left fun _ => (hblocks n bytes).symm)
    have hacc' := hc'.1
    rw [Accounts, hheld] at hacc'
    have hunique : ∀ n e e', room.Held env n e → room.Held env n e' → e = e' :=
      fun _ _ _ => held_unique
    have hlin : room.lin = room'.lin := Dag.Accounted.lin_eq h0 hunique hc.1 hc.2 hacc' hc'.2
    exact ⟨congrArg Linearizer.order hlin, congrArg Linearizer.finalized hlin⟩

/-! ### An entry that waits for an own one -/

/-- The room of `room₀` after a message and an append, if both succeed. -/
def afterAppend (msg : SyncMessage WriterKey Digest (WriterKey × HeadMessage Digest)) (op : Block)
    (room₀ : MemoryRoom) : Option (MemoryRoom × MemoryRoom) :=
  match onInbound inMemory 9 msg room₀ with
  | .ok _ room₁ =>
    match localAppend inMemory op room₁ with
    | .ok _ room => some (room₁, room)
    | .error _ _ => none
  | .error _ _ => none

theorem afterAppend_eq_some {msg : SyncMessage WriterKey Digest (WriterKey × HeadMessage Digest)}
    {room₀ room₁ room : MemoryRoom} (h : afterAppend msg op room₀ = some (room₁, room)) :
    (∃ out, perform inMemory (.inbound 9 msg) room₀ = .ok out room₁) ∧
      ∃ out, perform inMemory (.append op) room₁ = .ok out room := by
  unfold afterAppend at h
  split at h
  · rename_i out r₁ hin
    split at h
    · rename_i out' r happ
      obtain ⟨rfl, rfl⟩ := Prod.mk.inj (Option.some.inj h)
      exact ⟨⟨out, hin⟩, ⟨out', happ⟩⟩
    · cases h
  · cases h

/-- The runs of a room in memory that is opened, takes one message and appends one op,
such that the two rooms after them pass `check`. -/
theorem exists_afterAppend (msg? : Option (SyncMessage WriterKey Digest (WriterKey × HeadMessage Digest)))
    (op : Block) (check : MemoryRoom → MemoryRoom → Bool)
    (h : ((openRoom inMemory ⟨0, [], .original⟩ () ()).toOption.any fun room₀ => msg?.any fun msg =>
      (afterAppend msg op room₀).any fun p => check p.1 p.2) = true) :
    ∃ room₀ room₁ room msg, openRoom inMemory ⟨0, [], .original⟩ () () = .ok room₀ ∧
      (∃ out, perform inMemory (.inbound 9 msg) room₀ = .ok out room₁) ∧
      (∃ out, perform inMemory (.append op) room₁ = .ok out room) ∧ check room₁ room = true := by
  obtain ⟨room₀, hopen, h⟩ := exists_of_any h
  obtain ⟨msg, -, h⟩ := (Option.any_eq_true _ _).mp h
  obtain ⟨⟨room₁, room⟩, hrun, hcheck⟩ := (Option.any_eq_true _ _).mp h
  obtain ⟨hin, happ⟩ := afterAppend_eq_some hrun
  exact ⟨room₀, room₁, room, msg, hopen, hin, happ, hcheck⟩

/-- An entry of writer 1 that references nothing arrives, then an op is appended: both
are delivered. -/
theorem delivery_complete_memory : ∃ room₀ room,
    openRoom inMemory ⟨0, [], .original⟩ () () = .ok room₀ ∧ QuietRun inMemory room₀ room ∧
    room.order.length = 2 ∧ CausallyComplete inMemory room := by
  obtain ⟨room₀, room₁, room, msg, hopen, ⟨_, hin⟩, ⟨_, happ⟩, hcheck⟩ := exists_afterAppend
    (signedBlock 1 [entryCodec.encode ⟨[], [7]⟩] 0) [42]
    (fun room₁ room => room₁.pending = [] ∧ (room₁.ownEntry [42]).Fits ∧ room.order.length = 2)
    (by decide +kernel)
  obtain ⟨hempty, hfits, hlen⟩ := of_decide_eq_true hcheck
  have hquiet : Quiet room₁ := by
    rw [Quiet, hempty]
    exact fun p hp => absurd hp List.not_mem_nil
  have hrun : QuietRun inMemory room₀ room := by
    refine (QuietRun.start.call hin fun op hop => (nomatch hop)).call happ fun op hop => ?_
    obtain rfl : [42] = op := Option.some.inj hop
    exact ⟨hfits, hquiet⟩
  exact ⟨room₀, room, hopen, hrun, hlen,
    (delivery_complete Backend.memory_lawful entryCodec_faithful hopen hrun).1⟩

/-- An entry of writer 1 that references the local writer's next entry arrives, then
that entry is appended: the first one goes on waiting. -/
theorem append_leaves_waiting : ∃ room₀ room,
    openRoom inMemory ⟨0, [], .original⟩ () () = .ok room₀ ∧ Succeeded inMemory room₀ room ∧
    ¬ CausallyComplete inMemory room := by
  obtain ⟨room₀, room₁, room, msg, hopen, ⟨_, hin⟩, ⟨_, happ⟩, hcheck⟩ := exists_afterAppend
    (signedBlock 1 [entryCodec.encode ⟨[⟨0, 0⟩], [7]⟩] 0) [42]
    (fun _ room => ⟨0, 0⟩ ∈ room.lin.deps ∧
      (⟨1, 0⟩, ⟨[⟨0, 0⟩], [7]⟩) ∈ room.pending) (by decide +kernel)
  obtain ⟨hown, hwait⟩ := of_decide_eq_true hcheck
  refine ⟨room₀, room, hopen, (Succeeded.start.call hin).call happ, fun hc => ?_⟩
  obtain ⟨hheld, hnot⟩ := (hc.waiting _ _).mp hwait
  refine hnot (.intro hheld ?_)
  rintro m (⟨hpos, -⟩ | hm)
  · exact absurd hpos (Nat.lt_irrefl 0)
  · rw [List.mem_singleton.mp hm]
    exact (hc.delivered _).mp hown

end Room
end HypercoreRs
