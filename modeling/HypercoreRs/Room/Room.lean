/-
# The room

A room is one multiwriter log: the local writer's hypercore, a verify-only replica
of every other writer seen, and the causal DAG over their entries. It is a pure
state machine: `onInbound` takes a peer's message and returns the replies, and
`localAppend` and `checkpoint` write to the local log.

An entry whose causal dependencies are missing waits in `pending`, which
`drainPending` retries until nothing moves. A head of the local writer that is
ahead of the local log starts a recovery of the missing blocks from peers.

The finalized order is folded into one projection and the rest of the order into
another (`advance`). A failed operation leaves behind what it did before it failed.
-/
import HypercoreRs.Hypercore.Replica
import HypercoreRs.Room.Dag

namespace HypercoreRs

open Std Merkle Command

/-- The messages peers exchange. -/
inductive SyncMessage (K H Sig : Type) where
  /-- Advert: the writer advanced to `head.length`. -/
  | head (writer : K) (head : SignedHead H Sig)
  /-- Anti-entropy: the sender holds the writer up to `length`. -/
  | have_ (writer : K) (length : ℕ)
  /-- Request: the writer's blocks from `start` up to `end_`. -/
  | want (writer : K) (start end_ : ℕ)
  /-- Data: one block with the head and the proof that make it self-verifying. -/
  | block (writer : K) (head : SignedHead H Sig) (index : ℕ) (bytes : Block) (proof : Merkle.Proof H)

/-- Where a message should be delivered. -/
inductive Fanout (K : Type) where
  | gossip
  | peer (id : K)
  | clients

structure Outbound (K H Sig : Type) where
  msg : SyncMessage K H Sig
  fanout : Fanout K

/-- A newly finalized mutation, with its 1-based position in the finalized order. -/
structure Finalized (K : Type) where
  node : NodeId K
  payload : Block
  version : ℕ

/-- Errors of a room. `panicked` stands for a panic of the source. -/
inductive RoomError (E : Type) where
  | hypercore (e : CoreError E)
  | codec (e : CodecError)
  | badWriterKey
  | recoveringOwnFeed
  | ownFeedPending
  | storeOpen (msg : String)
  | panicked

/-- A room's provenance: hosted here, or pulled from a peer and evicted after some
idle time. -/
inductive Origin where
  | original
  | replicated (deleteOnStaleAfter : Option ℕ)
deriving DecidableEq

structure RoomConfig (K SK : Type) where
  identity : SK
  indexers : List K
  origin : Origin

/-- The domain fold. A refused op leaves the state as it was, and no caller looks
at the refusal. -/
structure Projection (K P St : Type) where
  apply : P → NodeId K → Block → P
  snapshot : P → St
  resetTo : P → St → P

/-- One store for each writer; the errors are as the room renders them. -/
structure StoreFactory (K F S : Type) where
  openStore : K → EStateM String F S
  knownWriters : F → List K

/-- What a room is built over. -/
structure Env (K H Sig SK S E F P St : Type) where
  crypto : Crypto K H Sig SK
  backend : Backend S E H Sig
  codec : Codec (Entry K)
  factory : StoreFactory K F S
  projection : Projection K P St

/-- A single room. -/
structure Room (K H Sig SK S F P : Type) [LinearOrder K] extends Dag K where
  localKey : K
  origin : Origin
  /-- The one writer this node owns. -/
  localCore : Hypercore H Sig SK S
  /-- The own head being recovered, with the blocks received so far. -/
  ownRecovery : Option (SignedHead H Sig × ExtTreeMap ℕ Block)
  /-- Verify-only replicas of every other writer seen. -/
  remotes : ExtTreeMap K (Replica K H Sig S)
  factory : F
  finalizedProj : P
  liveProj : P
  finalizedLen : ℕ
  finalizedSincePoll : List (Finalized K)
  /-- The projection as the room opened, with nothing folded. -/
  genesisProj : P
  lastActivity : ℕ

namespace Room

variable {K H Sig SK S E F P St : Type} [LinearOrder K] [DecidableEq H] [DecidableEq Sig]
variable (env : Env K H Sig SK S E F P St)

def order (room : Room K H Sig SK S F P) : List (NodeId K) := room.lin.order

def writerLen (room : Room K H Sig SK S F P) (writer : K) : ℕ :=
  if writer = room.localKey then room.localCore.len
  else
    match room.remotes[writer]? with
    | some r => r.len
    | none => 0

/-- The activity counter is a 64-bit one and wraps. -/
def touch (room : Room K H Sig SK S F P) : Room K H Sig SK S F P :=
  { room with lastActivity := (room.lastActivity + 1) % 2 ^ 64 }

/-! ### The DAG and its folds -/

def tryAddNode (room : Room K H Sig SK S F P) (node : NodeId K) (entry : Entry K) :
    Room K H Sig SK S F P :=
  { room with toDag := room.toDag.tryAddNode node entry }

def drainPending (room : Room K H Sig SK S F P) : Room K H Sig SK S F P :=
  { room with toDag := room.toDag.drainPending }

/-- A fold step: an empty payload is a checkpoint, which no projection sees. -/
def foldNode (room : Room K H Sig SK S F P) (p : P) (node : NodeId K) : P :=
  let payload := room.payloads.getD node []
  if payload.isEmpty then p else env.projection.apply p node payload

/-- Extend the finalized fold by what is newly finalized. -/
def advanceFinalized (room : Room K H Sig SK S F P) : Room K H Sig SK S F P :=
  let fin := room.lin.finalized
  if fin.length > room.finalizedLen then
    let fresh := fin.drop room.finalizedLen
    { room with
      finalizedProj := fresh.foldl (room.foldNode env) room.finalizedProj
      finalizedSincePoll := room.finalizedSincePoll ++ fresh.mapIdx fun i node =>
        ⟨node, room.payloads.getD node [], room.finalizedLen + i + 1⟩
      finalizedLen := fin.length }
  else room

/-- Recompute the derived state: the finalized fold, then the live fold on top. -/
def advance (room : Room K H Sig SK S F P) : Room K H Sig SK S F P :=
  let room := room.advanceFinalized env
  let base := env.projection.resetTo room.liveProj (env.projection.snapshot room.finalizedProj)
  { room with liveProj := (room.lin.order.drop room.finalizedLen).foldl (room.foldNode env) base }

/-- What a reconfiguration kept of the finalized order, and how much of it was dropped. -/
structure Reconfigured where
  kept : ℕ
  dropped : ℕ

/-- How far two orders agree. -/
def agreement (before after : List (NodeId K)) : ℕ :=
  ((before.zip after).takeWhile fun p => p.1 = p.2).length

/-- The room under the linearizer `lin`. Where nodes are finalized no more, the finalized
state is folded anew up to what still stands. -/
def rollBack (room : Room K H Sig SK S F P) (lin : Linearizer K) : Room K H Sig SK S F P :=
  let kept := agreement room.lin.finalized lin.finalized
  let room := { room with lin }
  if room.finalizedLen - kept > 0 then
    { room with finalizedProj := (lin.finalized.take kept).foldl (room.foldNode env) room.genesisProj
                finalizedLen := kept }
  else room

/-- Pin the first `through` nodes of the confirmed order and confirm what follows with
`indexers` alone. -/
def reconfigure (through : ℕ) (indexers : List K) :
    EStateM (ReconfigureError K) (Room K H Sig SK S F P) Reconfigured := do
  let room ← MonadState.get
  match room.lin.reconfigure through indexers with
  | (_, .error e) => throw e
  | (lin, .ok ()) =>
    let kept := agreement room.lin.finalized lin.finalized
    set ((room.rollBack env lin).advance env)
    return ⟨kept, room.finalizedLen - kept⟩

/-- Take the finalized mutations since the last call. -/
def pollFinalized : StateM (Room K H Sig SK S F P) (List (Finalized K)) :=
  fun room => (room.finalizedSincePoll, { room with finalizedSincePoll := [] })

/-! ### Writing -/

/-- A command on the local log. -/
def onLocal {α : Type} (x : EStateM (CoreError E) (Hypercore H Sig SK S) α) :
    EStateM (RoomError E) (Room K H Sig SK S F P) α :=
  zoom (·.localCore) (fun core room => { room with localCore := core }) .hypercore x

/-- A command on the replica of `writer`, which must be there. -/
def onReplica {α : Type} (writer : K) (x : EStateM (CoreError E) (Replica K H Sig S) α) :
    EStateM (RoomError E) (Room K H Sig SK S F P) α := do
  let room ← MonadState.get
  match room.remotes[writer]? with
  | none => throw .panicked
  | some r =>
    zoom (fun _ => r) (fun r room => { room with remotes := room.remotes.insert writer r }) .hypercore x

/-- Open the store of `writer`. -/
def openStore (writer : K) : EStateM (RoomError E) (Room K H Sig SK S F P) S :=
  zoom (·.factory) (fun f room => { room with factory := f }) .storeOpen (env.factory.openStore writer)

/-- Append a local op; returns the advert and the new block. -/
def localAppend (op : Block) :
    EStateM (RoomError E) (Room K H Sig SK S F P) (List (Outbound K H Sig)) := do
  let room ← MonadState.get
  let seq := room.localCore.len
  if room.ownRecovery.isSome then throw .recoveringOwnFeed
  else if seq > 0 ∧ !room.lin.contains ⟨room.localKey, seq - 1⟩ then throw .ownFeedPending
  else
    let heads := room.lin.heads.toList
    let _ ← onLocal (Hypercore.append env.crypto env.backend env.codec ⟨heads, op⟩)
    onLocal (Hypercore.persist env.backend)
    let node : NodeId K := ⟨room.localKey, seq⟩
    -- an error here is a debug assertion in the source: a release build goes on
    modify fun room => { room with lin := (room.lin.add node heads).1
                                   payloads := room.payloads.insert node op }
    modify fun room => room.touch.advance env
    let room ← MonadState.get
    match room.localCore.head with
    | none => throw .panicked
    | some head =>
      let bytes? ← reads .hypercore (room.localCore.block env.backend seq)
      match bytes?, room.localCore.proof seq with
      | some bytes, some proof =>
        return [⟨.head room.localKey head, .gossip⟩,
          ⟨.block room.localKey head seq bytes proof, .clients⟩]
      | _, _ => throw .panicked

/-- An indexer with another writer's op waiting to be finalized has something to
reference, unless its own latest entry is already the only head. -/
def needsCheckpoint (room : Room K H Sig SK S F P) : Bool :=
  let indexing := match room.lin.indexers with
    | some indexers => indexers.contains room.localKey
    | none => room.origin == .original
  let heads := room.lin.heads
  let referenced := 0 < room.localCore.len && heads.size == 1 &&
    heads.contains ⟨room.localKey, room.localCore.len - 1⟩
  room.ownRecovery.isNone && indexing && !referenced &&
    (room.order.drop room.finalizedLen).any fun n =>
      n.key ≠ room.localKey && !(room.payloads.getD n []).isEmpty

/-- Append a reference-only empty block, if one is needed. -/
def checkpoint : EStateM (RoomError E) (Room K H Sig SK S F P) (List (Outbound K H Sig)) := do
  let room ← MonadState.get
  if room.needsCheckpoint then localAppend env [] else return []

/-! ### Own-feed recovery -/

/-- Start, or go on with, the recovery of an authenticated longer own feed. -/
def beginOwnRecovery (head : SignedHead H Sig) :
    EStateM (RoomError E) (Room K H Sig SK S F P) Unit := do
  let room ← MonadState.get
  if !verifySignedHead env.crypto (room.localCore.publicKey env.crypto) head ||
      head.fork != room.localCore.fork then throw (.hypercore .corrupt)
  else
    match room.ownRecovery with
    | none => set { room with ownRecovery := some (head, ∅) }
    | some (target, _) =>
      if head.length < target.length then return
      else if head.length = target.length then
        if head = target then return else throw (.hypercore .corrupt)
      else set { room with ownRecovery := some (head, ∅) }

/-- Read entries by `read` and offer them to the DAG as the nodes of `key`. -/
def offerEntries (key : K) (read : ℕ → Except (CoreError E) (Option (Entry K))) :
    List ℕ → EStateM (RoomError E) (Room K H Sig SK S F P) Unit
  | [] => return
  | i :: is => do
    let entry? ← reads .hypercore (read i)
    modify fun room => match entry? with
      | some entry => room.tryAddNode ⟨key, i⟩ entry
      | none => room
    offerEntries key read is

/-- An own entry just recovered must be there. -/
def recoveredEntry (core : Hypercore H Sig SK S) (index : ℕ) : Except (CoreError E) (Option (Entry K)) :=
  match core.get env.backend env.codec index with
  | .ok none => .error .corrupt
  | entry => entry

/-- Adopt the recovered suffix and deliver its entries. -/
def completeOwnRecovery (target : SignedHead H Sig) (suffix : List Block) :
    EStateM (RoomError E) (Room K H Sig SK S F P) Unit := do
  let room ← MonadState.get
  let start := room.localCore.len
  onLocal (Hypercore.recoverSignedSuffix env.crypto env.backend target suffix)
  modify fun room => { room with ownRecovery := none }
  let room ← MonadState.get
  offerEntries room.localKey (recoveredEntry env room.localCore)
    (List.range' start (room.localCore.len - start))
  modify fun room => room.drainPending.touch.advance env

/-- One block of the own feed, received back from a peer. -/
def recoverOwnBlock (head : SignedHead H Sig) (index : ℕ) (bytes : Block) (proof : Merkle.Proof H) :
    EStateM (RoomError E) (Room K H Sig SK S F P) Unit := do
  let room ← MonadState.get
  if head.length ≤ room.localCore.len then return
  else if index ≥ head.length ∨
      !verifyBlock env.crypto (room.localCore.publicKey env.crypto) head index bytes proof then
    throw (.hypercore .corrupt)
  else
    beginOwnRecovery env head
    let room ← MonadState.get
    match room.ownRecovery with
    | none => throw .panicked
    | some (target, blocks) =>
      if head ≠ target ∨ index < room.localCore.len then return
      else
        let blocks := blocks.insert index bytes
        set { room with ownRecovery := some (target, blocks) }
        let start := room.localCore.len
        -- every missing block has arrived, or the recovery waits
        match (List.range' start (target.length - start)).mapM (blocks[·]?) with
        | none => return
        | some suffix => completeOwnRecovery env target suffix

/-! ### Replication -/

/-- Make sure there is a replica of `writer`. -/
def ensureReplica (writer : K) : EStateM (RoomError E) (Room K H Sig SK S F P) Unit := do
  let room ← MonadState.get
  if room.remotes.contains writer then return
  else if !env.crypto.validKey writer then throw .badWriterKey
  else
    let store ← openStore env writer
    modify fun room => { room with remotes := room.remotes.insert writer (Replica.new writer store) }

/-- Verify and store one remote block, then try to deliver it; returns whether the
replica accepted it. -/
def ingestRemoteBlock (writer : K) (head : SignedHead H Sig) (index : ℕ) (bytes : Block)
    (proof : Merkle.Proof H) : EStateM (RoomError E) (Room K H Sig SK S F P) Bool := do
  ensureReplica env writer
  let accepted ← onReplica writer (Replica.addBlock env.crypto env.backend head index bytes proof)
  if !accepted then return false
  else
    onReplica writer (Replica.persist env.backend)
    let entry ← reads .codec (env.codec.decode bytes)
    modify fun room => (room.tryAddNode ⟨writer, index⟩ entry).touch
    return true

/-- The blocks of one log as messages to `peer`; a block without its bytes or its
proof is skipped. -/
def serve (writer peer : K) (head : SignedHead H Sig)
    (block : ℕ → Except (CoreError E) (Option Block)) (proof : ℕ → Option (Merkle.Proof H)) :
    List ℕ → Except (CoreError E) (List (Outbound K H Sig))
  | [] => .ok []
  | i :: is => do
    let bytes? ← block i
    let rest ← serve writer peer head block proof is
    match bytes?, proof i with
    | some bytes, some p => return ⟨.block writer head i bytes p, .peer peer⟩ :: rest
    | _, _ => return rest

/-- The reply to a request: the own log, or a replicated one up to its verified
head. -/
def serveWant (room : Room K H Sig SK S F P) (peer writer : K) (start end_ : ℕ) :
    Except (CoreError E) (List (Outbound K H Sig)) :=
  if writer = room.localKey then
    match room.localCore.head with
    | none => .ok []
    | some head => serve writer peer head (room.localCore.block env.backend) room.localCore.proof
        (List.range' start (min end_ room.localCore.len - start))
  else
    match room.remotes[writer]? with
    | none => .ok []
    | some r =>
      match r.verifiedHead with
      | none => .ok []
      | some head => serve writer peer head (r.block env.backend) r.proof
          (List.range' start (min end_ head.length - start))

/-- A head of the local writer: a longer one starts a recovery, another one of the
same length is a fork. -/
def checkOwnHead (head : SignedHead H Sig) : EStateM (RoomError E) (Room K H Sig SK S F P) Unit := do
  let room ← MonadState.get
  if head.length > room.localCore.len then beginOwnRecovery env head
  else if head.length == room.localCore.len && room.localCore.head.any (· ≠ head) &&
      verifySignedHead env.crypto (room.localCore.publicKey env.crypto) head then
    throw (.hypercore .corrupt)
  else return

/-- The request that follows an advert of `length` blocks of `writer`. -/
def wantFrom (room : Room K H Sig SK S F P) (peer writer : K) (length : ℕ) : List (Outbound K H Sig) :=
  if length > room.writerLen writer then
    [⟨.want writer (room.writerLen writer) length, .peer peer⟩]
  else []

/-- Handle one message from `peer`; returns what to send. -/
def onInbound (peer : K) (msg : SyncMessage K H Sig) :
    EStateM (RoomError E) (Room K H Sig SK S F P) (List (Outbound K H Sig)) := do
  let room ← MonadState.get
  match msg with
  | .head writer head =>
    if writer = room.localKey then checkOwnHead env head else pure ()
    let room ← MonadState.get
    return room.wantFrom peer writer head.length
  | .have_ writer length => return room.wantFrom peer writer length
  | .want writer start end_ => reads .hypercore (room.serveWant env peer writer start end_)
  | .block writer head index bytes proof =>
    if writer = room.localKey then
      recoverOwnBlock env head index bytes proof
      return []
    else
      let accepted ← ingestRemoteBlock env writer head index bytes proof
      if accepted then
        modify fun room => room.drainPending.advance env
        return [⟨.block writer head index bytes proof, .clients⟩]
      else return []

/-- What the room advertises: its own head, and every replica with a verified head. -/
def announce (room : Room K H Sig SK S F P) : List (Outbound K H Sig) :=
  let own := match room.localCore.head with
    | some head => ⟨.head room.localKey head, .gossip⟩
    | none => ⟨.have_ room.localKey 0, .gossip⟩
  own :: room.remotes.toList.filterMap fun (writer, r) =>
    match r.verifiedHead with
    | some head => if head.length > 0 then some ⟨.have_ writer head.length, .gossip⟩ else none
    | none => none

/-! ### Opening -/

/-- The local log: reopened if it was persisted, fresh otherwise. -/
def openLocal (identity : SK) : EStateM (RoomError E) F (Hypercore H Sig SK S) := do
  let key := env.crypto.publicOf identity
  let store ← zoom id (fun f _ => f) .storeOpen (env.factory.openStore key)
  match Hypercore.openCore env.crypto env.backend identity store with
  | .ok core => return core
  | .error .notPersisted =>
    let store ← zoom id (fun f _ => f) .storeOpen (env.factory.openStore key)
    return Hypercore.new identity store
  | .error e => throw (.hypercore e)

/-- Reopen the replica of one known writer, if it was persisted. -/
def openRemote (writer : K) : EStateM (RoomError E) (Room K H Sig SK S F P) Unit := do
  let room ← MonadState.get
  if writer = room.localKey then return
  else if !env.crypto.validKey writer then throw .badWriterKey
  else
    let store ← openStore env writer
    match Replica.openReplica env.crypto env.backend writer store with
    | .ok r => modify fun room => { room with remotes := room.remotes.insert writer r }
    | .error .notPersisted => return
    | .error e => throw (.hypercore e)

def openRemotes : List K → EStateM (RoomError E) (Room K H Sig SK S F P) Unit
  | [] => return
  | writer :: writers => do
    openRemote env writer
    openRemotes writers

/-- Offer the entries of the replicas, writer by writer. -/
def replayRemotes : List (K × Replica K H Sig S) → EStateM (RoomError E) (Room K H Sig SK S F P) Unit
  | [] => return
  | (writer, r) :: rest => do
    offerEntries writer (r.get env.backend env.codec) (List.range r.len)
    replayRemotes rest

/-- Rebuild the DAG and the projections from the reopened logs. -/
def replay : EStateM (RoomError E) (Room K H Sig SK S F P) Unit := do
  let room ← MonadState.get
  offerEntries room.localKey (room.localCore.get env.backend env.codec) (List.range room.localCore.len)
  replayRemotes env room.remotes.toList
  modify fun room => { room.drainPending.advance env with finalizedSincePoll := [] }

/-- The room over its local log, before anything else is reopened. -/
def fresh (cfg : RoomConfig K SK) (core : Hypercore H Sig SK S) (factory : F) (projection : P) :
    Room K H Sig SK S F P where
  localKey := env.crypto.publicOf cfg.identity
  origin := cfg.origin
  localCore := core
  ownRecovery := none
  remotes := ∅
  factory := factory
  lin := if cfg.indexers.isEmpty then .new else .withIndexers cfg.indexers
  payloads := ∅
  pending := []
  finalizedProj := projection
  liveProj := projection
  finalizedLen := 0
  finalizedSincePoll := []
  genesisProj := projection
  lastActivity := 0

/-- Open a room with this identity, indexer set, storage and projection. -/
def openRoom (cfg : RoomConfig K SK) (factory : F) (projection : P) :
    Except (RoomError E) (Room K H Sig SK S F P) :=
  match openLocal env cfg.identity factory with
  | .error e _ => .error e
  | .ok core factory =>
    let room := fresh env cfg core factory projection
    match (do openRemotes env (env.factory.knownWriters factory); replay env) room with
    | .error e _ => .error e
    | .ok _ room => .ok room

end Room
end HypercoreRs
