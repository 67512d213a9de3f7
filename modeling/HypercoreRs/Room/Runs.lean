/-
# Opening a room, and its runs

A run of a room starts with `openRoom` and goes on with calls of `onInbound`,
`localAppend`, `checkpoint` and `reconfigure`, each of which may fail, and with polls
(`Reached`). Opening checks the head of every log it reopens (`Opened`), then offers
every stored entry to an empty DAG; the rest of a run is moves (`Reached.moves`).
After opening, the DAG accounts for every entry the room holds (`openRoom_ok`).
-/
import HypercoreRs.Hypercore.Symbolic
import HypercoreRs.Room.Moves

namespace HypercoreRs

open Std Merkle Command

/-- A log that can be reopened from a writer's store is there: its tree is the tree of
blocks the store holds. -/
structure Env.Kept {K H Sig SK S E F P St : Type} [LinearOrder K] [DecidableEq H]
    (env : Env K H Sig SK S E F P St) : Prop where
  core : ∀ w f s f', env.factory.openStore w f = .ok s f' → ∀ identity core,
    Hypercore.openCore env.crypto env.backend identity s = .ok core →
    ∃ B, Hypercore.Stored env.crypto env.backend B core
  replica : ∀ w f s f', env.factory.openStore w f = .ok s f' → ∀ r,
    Replica.openReplica env.crypto env.backend w s = .ok r →
    ∃ B, Replica.Stored env.crypto env.backend B r

namespace Room

variable {K H Sig SK S E F P St : Type} [LinearOrder K] [DecidableEq H]
variable (env : Env K H Sig SK S E F P St)

section Calls

variable [DecidableEq Sig]

/-- The calls a driver makes on a room. -/
inductive Call (K H Sig : Type) where
  | inbound (peer : K) (msg : SyncMessage K H Sig)
  | append (op : Block)
  | checkpoint

def perform : Call K H Sig → EStateM (RoomError E) (Room K H Sig SK S F P) (List (Outbound K H Sig))
  | .inbound peer msg => onInbound env peer msg
  | .append op => localAppend env op
  | .checkpoint => checkpoint env

/-- The rooms reached from `room₀` by calls, reconfigurations and polls, whether they succeed
or fail. -/
inductive Reached (room₀ : Room K H Sig SK S F P) : Room K H Sig SK S F P → Prop
  | start : Reached room₀ room₀
  | call {room : Room K H Sig SK S F P} (c : Call K H Sig) :
      Reached room₀ room → Reached room₀ (after (perform env c) room)
  | reconfigure {room : Room K H Sig SK S F P} (through : ℕ) (indexers : List K) :
      Reached room₀ room → Reached room₀ (after (reconfigure env through indexers) room)
  | poll {room : Room K H Sig SK S F P} : Reached room₀ room → Reached room₀ (pollFinalized room).2

variable {env} {room₀ room : Room K H Sig SK S F P}

theorem moves_perform (hb : env.backend.Lawful) (c : Call K H Sig) (room : Room K H Sig SK S F P) :
    Moves env room (after (perform env c) room) := by
  cases c with
  | inbound peer msg => exact (within_onInbound hb peer msg room).after
  | append op => exact (within_localAppend hb op room).after
  | checkpoint => exact (within_checkpoint hb room).after

theorem Reached.moves (hb : env.backend.Lawful) (h : Reached env room₀ room) : Moves env room₀ room := by
  induction h with
  | start => exact .refl
  | call c _ ih => exact ih.trans (moves_perform hb c _)
  | reconfigure through indexers _ ih => exact ih.trans (moves_reconfigure through indexers _)
  | poll _ ih => exact ih.tail (.other ⟨rfl, rfl, rfl, rfl⟩)

variable (env) in
/-- One call after the other. -/
def performAll (cs : List (Call K H Sig)) (room : Room K H Sig SK S F P) : Room K H Sig SK S F P :=
  cs.foldl (fun room c => after (perform env c) room) room

theorem reached_performAll : ∀ (cs : List (Call K H Sig)) {room : Room K H Sig SK S F P},
    Reached env room₀ room → Reached env room₀ (performAll env cs room)
  | [], _, h => h
  | c :: cs, _, h => reached_performAll cs (h.call c)

variable (env) in
/-- The rooms reached from `room₀` by successful calls. -/
inductive Succeeded (room₀ : Room K H Sig SK S F P) :
    Room K H Sig SK S F P → Prop
  | start : Succeeded room₀ room₀
  | call {room room' : Room K H Sig SK S F P} {c : Call K H Sig} {out : List (Outbound K H Sig)} :
      Succeeded room₀ room → perform env c room = .ok out room' → Succeeded room₀ room'

end Calls

variable {env} {room room' : Room K H Sig SK S F P}

/-! ### Opening -/

variable (env) in
/-- `r` was reopened from a store of `w`. -/
def Reopened (w : K) (r : Replica K H Sig S) : Prop :=
  ∃ f s f', env.factory.openStore w f = .ok s f' ∧
    Replica.openReplica env.crypto env.backend w s = .ok r

variable (env) in
/-- The local log is new, or was reopened from the store of its writer. -/
def OpenedCore (core : Hypercore H Sig SK S) : Prop :=
  (∃ store, core = .new core.author store) ∨ ∃ f s f',
    env.factory.openStore (env.crypto.publicOf core.author) f = .ok s f' ∧
    Hypercore.openCore env.crypto env.backend core.author s = .ok core

variable (env) in
/-- Where the logs of an opened room come from. -/
structure Opened (room : Room K H Sig SK S F P) : Prop where
  author : env.crypto.publicOf room.localCore.author = room.localKey
  core : OpenedCore env room.localCore
  remotes : ∀ (w : K) (r : Replica K H Sig S), room.remotes[w]? = some r →
    w ≠ room.localKey ∧ Reopened env w r

/-- The linearizer a room starts from. -/
def startLin (indexers : List K) : Linearizer K :=
  .initial (if indexers.isEmpty then none else some indexers)

theorem run_startLin (indexers : List K) : Linearizer.Run [] (startLin indexers) :=
  Linearizer.run_initial _

variable (env) in
/-- A room whose logs are open and whose DAG is still empty. -/
structure Unreplayed (cfg : RoomConfig K SK)
    (room : Room K H Sig SK S F P) : Prop extends Opened env room where
  localKey : room.localKey = env.crypto.publicOf cfg.identity
  dag : room.toDag = ⟨startLin cfg.indexers, ∅, []⟩

/-- Any two rooms: opening is not bound by moves. -/
abbrev Anyhow : Room K H Sig SK S F P → Room K H Sig SK S F P → Prop :=
  Relation.ReflTransGen fun _ _ => True

variable {cfg : RoomConfig K SK}

theorem within_openRemote (w : K) (h : Unreplayed env cfg room) :
    Within Anyhow (openRemote env w) room fun _ room' => Unreplayed env cfg room' := by
  unfold openRemote
  apply Within.get
  split_ifs with hown hkey
  · exact Within.ret h
  · exact Within.fail _
  · refine Within.seq ((within_openStore w).mono (fun _ _ => .single trivial) fun _ _ _ h => h)
      fun store room₁ _ hopen => ?_
    obtain ⟨f, hf, rfl⟩ := hopen
    split
    · rename_i r hr
      refine Within.modify (.single trivial) ⟨⟨h.author, h.core, fun w' r' hget => ?_⟩, h.localKey, h.dag⟩
      rw [Graph.getElem?_insert] at hget
      split_ifs at hget with heq
      · obtain rfl := Option.some.inj hget
        subst heq
        exact ⟨hown, room.factory, store, f, hf, hr⟩
      · exact h.remotes w' r' hget
    · exact Within.ret ⟨⟨h.author, h.core, h.remotes⟩, h.localKey, h.dag⟩
    · exact Within.fail _

theorem within_openRemotes : ∀ (ws : List K) {room : Room K H Sig SK S F P},
    Unreplayed env cfg room →
    Within Anyhow (openRemotes env ws) room fun _ room' => Unreplayed env cfg room'
  | [], _, h => Within.ret h
  | w :: ws, _, h =>
    Within.seq (within_openRemote w h) fun _ _ _ h' => within_openRemotes ws h'

variable {core : Hypercore H Sig SK S}

omit [LinearOrder K] in
theorem openLocal_ok {identity : SK} {f f' : F} (h : openLocal env identity f = .ok core f') :
    core.author = identity ∧ OpenedCore env core := by
  obtain ⟨store, f₁, hstore, hcore | ⟨-, store', _, -, rfl⟩⟩ := openLocal_cases h
  · obtain ⟨rfl, -⟩ := Hypercore.openCore_ok hcore
    exact ⟨rfl, Or.inr ⟨f, store, f₁, hstore, hcore⟩⟩
  · exact ⟨rfl, Or.inl ⟨store', rfl⟩⟩

/-! ### Replaying -/

omit [DecidableEq H] in
theorem nodup_writers (rs : ExtTreeMap K (Replica K H Sig S)) : (rs.toList.map Prod.fst).Nodup := by
  rw [List.Nodup, List.pairwise_map]
  refine (ExtTreeMap.distinct_keys_toList (t := rs)).imp fun {a b} hab heq => hab ?_
  rw [heq]
  exact compare_self

/-- The logs are the same. -/
structure SameLogs (room room' : Room K H Sig SK S F P) : Prop where
  localKey : room'.localKey = room.localKey
  localCore : room'.localCore = room.localCore
  remotes : room'.remotes = room.remotes

omit [DecidableEq H] in
theorem accounted_empty (init : Linearizer K) (payloads : ExtTreeMap (NodeId K) (List UInt8)) :
    Dag.Accounted init (fun _ _ => False) ⟨init, payloads, []⟩ :=
  ⟨⟨[], .start, fun _ hp => absurd hp List.not_mem_nil⟩, fun _ hp => absurd hp List.not_mem_nil,
    List.nodup_nil, fun _ _ h => h.elim⟩

omit [DecidableEq H] in
/-- The entries of a room are those of its own log and those of its replicas. -/
theorem held_iff_logs (hown : ∀ w r, room.remotes[w]? = some r → w ≠ room.localKey) (m : NodeId K)
    (e : Entry K) : room.Held env m e ↔
      (False ∨ ∃ i ∈ List.range room.localCore.len, m = ⟨room.localKey, i⟩ ∧
        room.localCore.get env.backend env.codec i = .ok (some e)) ∨
      ∃ p ∈ room.remotes.toList, m.key = p.1 ∧ p.2.get env.backend env.codec m.seq = .ok (some e) := by
  rw [false_or]
  by_cases hkey : m.key = room.localKey
  · rw [held_own hkey]
    constructor
    · intro he
      exact Or.inl ⟨m.seq, List.mem_range.mpr (Hypercore.lt_of_get he), NodeId.ext' hkey rfl, he⟩
    · rintro (⟨i, -, rfl, he⟩ | ⟨p, hp, hpk, -⟩)
      · exact he
      · have hget := ExtTreeMap.mem_toList_iff_getElem?_eq_some.mp hp
        exact absurd (hpk.symm.trans hkey) (hown _ _ hget)
  · rw [held_remote hkey]
    constructor
    · rintro ⟨r, hr, he⟩
      exact Or.inr ⟨(m.key, r), ExtTreeMap.mem_toList_iff_getElem?_eq_some.mpr hr, rfl, he⟩
    · rintro (⟨i, -, rfl, -⟩ | ⟨⟨w, r⟩, hp, rfl, he⟩)
      · exact absurd rfl hkey
      · exact ⟨r, ExtTreeMap.mem_toList_iff_getElem?_eq_some.mp hp, he⟩

/-- Replaying accounts for every entry the reopened logs hold. -/
theorem within_replay (h : Unreplayed env cfg room) :
    Within (Moves env) (replay env) room fun _ room' =>
      SameLogs room room' ∧ Complete env (startLin cfg.indexers) room' := by
  have hown : ∀ w r, room.remotes[w]? = some r → w ≠ room.localKey := fun w r hr => (h.remotes w r hr).1
  refine (ends_replay_of (room.Held env) (fun i e he => (held_own rfl).mpr he) fun w r hr i e he =>
    (held_remote (hown w r hr)).mpr ⟨r, hr, he⟩).mono (fun _ room' h' => ?_) fun _ room' h' => ?_
  · obtain ⟨d₁, d₂, rfl, hmoves, -, hoff, hall⟩ := h'
    have hsame := sameData_polled env (drainPending { room with toDag := d₂ })
    refine ⟨(moves_dag hmoves).trans (moves_drain hsame),
      ⟨hsame.localKey, hsame.localCore, hsame.remotes⟩, complete_drain ?_ hsame⟩
    have hstart := accounted_empty (startLin cfg.indexers) ∅
    rw [← h.dag] at hstart
    have hlocal := hoff _ _ (run_startLin cfg.indexers) hstart List.nodup_range fun _ _ _ => id
    refine (hall _ _ (run_startLin cfg.indexers) hlocal (nodup_writers _) fun p hp i e he => ?_).congr
      fun m e => (held_iff_logs hown m e).symm
    obtain he | ⟨j, -, heq, -⟩ := he
    · exact he
    · have hget := ExtTreeMap.mem_toList_iff_getElem?_eq_some.mp hp
      exact hown p.1 p.2 hget (congrArg NodeId.key heq)
  · obtain ⟨d, rfl, hmoves, -⟩ := h'
    exact moves_dag hmoves

theorem unreplayed_fresh {f f' : F} {p : P} (h : openLocal env cfg.identity f = .ok core f') :
    Unreplayed env cfg (fresh env cfg core f' p) := by
  obtain ⟨hauthor, hcore⟩ := openLocal_ok h
  refine ⟨⟨congrArg _ hauthor, hcore, fun w r hr => ?_⟩, ?_, ?_⟩
  · change (∅ : ExtTreeMap K (Replica K H Sig S))[w]? = some r at hr
    rw [ExtTreeMap.getElem?_empty] at hr
    cases hr
  · rfl
  · unfold fresh startLin
    cases cfg.indexers <;> rfl

/-- An opened room: its logs are as they were opened, and its DAG is complete. -/
theorem openRoom_ok {f : F} {p : P} (h : openRoom env cfg f p = .ok room) :
    ∃ base, Unreplayed env cfg base ∧ SameLogs base room ∧ Moves env base room ∧
      Complete env (startLin cfg.indexers) room := by
  obtain ⟨core, f', base, hlocal, hremotes, hreplay⟩ := openRoom_eq_ok h
  have hbase := ((within_openRemotes _ (unreplayed_fresh hlocal)).ok hremotes).2
  obtain ⟨hmoves, hsame, hcomplete⟩ := (within_replay hbase).ok hreplay
  exact ⟨base, hbase, hsame, hmoves, hcomplete⟩

/-! ### Rooms in memory -/

/-- Rooms over symbolic hashes and signatures and stores in memory. -/
abbrev MemoryEnv : Type := Env WriterKey Digest (WriterKey × HeadMessage Digest) ℕ
  (MemoryStore Digest (WriterKey × HeadMessage Digest)) Empty Unit Unit Unit

abbrev MemoryRoom : Type := Room WriterKey Digest (WriterKey × HeadMessage Digest) ℕ
  (MemoryStore Digest (WriterKey × HeadMessage Digest)) Unit Unit

/-- Each writer in a new store, and no domain state. -/
def inMemory : MemoryEnv where
  crypto := .symbolic fun sk => Fin.ofNat _ sk
  backend := .memory _ _
  codec := entryCodec
  factory := ⟨fun _ => pure .new, fun _ => []⟩
  projection := ⟨fun p _ _ => p, fun _ => (), fun p _ => p⟩

/-- New stores have nothing to reopen. -/
theorem inMemory_kept : inMemory.Kept := by
  refine ⟨fun w f s f' hs identity core hcore => ?_, fun w f s f' hs r hr => ?_⟩
  · cases hs
    cases hcore
  · cases hs
    cases hr

/-- What a call returned, where a check of it passes. -/
theorem exists_of_any {ε α : Type} {x : Except ε α} {p : α → Bool} (h : x.toOption.any p = true) :
    ∃ a, x = .ok a ∧ p a = true := by
  cases x with
  | error e => cases h
  | ok a => exact ⟨a, rfl, h⟩

/-- The message that sends block `i` of the log `B` of `sk` under the head of the
whole of `B`. -/
def signedBlock (sk : ℕ) (B : List Block) (i : ℕ) :
    Option (SyncMessage WriterKey Digest (WriterKey × HeadMessage Digest)) := do
  let tree := MerkleTree.ofBlocks .symbolic B
  let root ← tree.rootHash .symbolic
  let bytes ← B[i]?
  let proof ← tree.proof i
  return .block (inMemory.crypto.publicOf sk)
    ⟨0, B.length, root, inMemory.crypto.sign sk ⟨0, B.length, root⟩⟩ i bytes proof

theorem signedBlock_eq_some {sk : ℕ} {B : List Block} {i : ℕ}
    {msg : SyncMessage WriterKey Digest (WriterKey × HeadMessage Digest)}
    (h : signedBlock sk B i = some msg) :
    ∃ head bytes proof, msg = .block (inMemory.crypto.publicOf sk) head i bytes proof := by
  obtain ⟨_, -, h⟩ := Option.bind_eq_some_iff.mp h
  obtain ⟨bytes, -, h⟩ := Option.bind_eq_some_iff.mp h
  obtain ⟨proof, -, h⟩ := Option.bind_eq_some_iff.mp h
  exact ⟨_, bytes, proof, (Option.some.inj h).symm⟩

/-- A room of the secret key 0 after these messages of writer 9. -/
def openedAfter (env : MemoryEnv)
    (msgs : List (Option (SyncMessage WriterKey Digest (WriterKey × HeadMessage Digest)))) :
    Option MemoryRoom :=
  match openRoom env ⟨0, [], .original⟩ () () with
  | .ok room => some (performAll env (msgs.filterMap fun m => m.map (Call.inbound 9)) room)
  | .error _ => none

theorem openedAfter_reached {env : MemoryEnv}
    {msgs : List (Option (SyncMessage WriterKey Digest (WriterKey × HeadMessage Digest)))}
    {room : MemoryRoom} (h : openedAfter env msgs = some room) :
    ∃ room₀, openRoom env ⟨0, [], .original⟩ () () = .ok room₀ ∧ Reached env room₀ room := by
  unfold openedAfter at h
  split at h
  · rename_i room₀ hopen
    obtain rfl := Option.some.inj h
    exact ⟨room₀, hopen, reached_performAll _ .start⟩
  · cases h

end Room
end HypercoreRs
