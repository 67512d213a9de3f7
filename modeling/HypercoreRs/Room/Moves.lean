/-
# What a room's operations can do

Every operation of a room, on a lawful store, is a sequence of a few kinds of
change (`Room.Move`): a move of the local log, a move of one replica, a new empty
replica, a move of the DAG over what the room holds, the delivery of an own entry,
another base for the linearizer, and changes of nothing but the derived state. This
holds whether the operation succeeds or fails (`within_onInbound`,
`within_localAppend`, `within_checkpoint`, `moves_reconfigure`), so an invariant of
the moves is an invariant of every run.

Along the way each operation's success is pinned down as far as causal delivery
needs it: the blocks it added, and how they were offered to the DAG.
-/
import HypercoreRs.Room.Calls

namespace HypercoreRs

open Std Merkle Command

namespace Room

variable {K H Sig SK S E F P St : Type} [LinearOrder K] [DecidableEq H]
variable (env : Env K H Sig SK S E F P St)

/-- The stored bytes of the block behind a node. -/
def blockAt (room : Room K H Sig SK S F P) (n : NodeId K) : Except (CoreError E) (Option Block) :=
  if n.key = room.localKey then room.localCore.block env.backend n.seq
  else
    match room.remotes[n.key]? with
    | some r => r.block env.backend n.seq
    | none => .ok none

/-- The room holds the block of `n`, and it decodes to `e`. -/
def Held (room : Room K H Sig SK S F P) (n : NodeId K) (e : Entry K) : Prop :=
  ∃ bytes, room.blockAt env n = .ok (some bytes) ∧ env.codec.decode bytes = .ok e

/-- One change of a room. -/
inductive Move : Room K H Sig SK S F P → Room K H Sig SK S F P → Prop
  | other {room room' : Room K H Sig SK S F P} : SameData room room' → Move room room'
  | core {room : Room K H Sig SK S F P} {core : Hypercore H Sig SK S} :
      Hypercore.Move env.crypto env.backend room.localCore core → Move room { room with localCore := core }
  | replica {room : Room K H Sig SK S F P} {w : K} {r r' : Replica K H Sig S} :
      room.remotes[w]? = some r → Replica.Move env.crypto env.backend r r' →
      Move room { room with remotes := room.remotes.insert w r' }
  | join {room : Room K H Sig SK S F P} {w : K} {s : S} : w ≠ room.localKey → w ∉ room.remotes →
      Move room { room with remotes := room.remotes.insert w (Replica.new w s) }
  | dag {room : Room K H Sig SK S F P} {d : Dag K} :
      Dag.Move (room.Held env) room.toDag d → Move room { room with toDag := d }
  /-- A local append delivers its own node; the payload is kept even if that failed. -/
  | own {room : Room K H Sig SK S F P} {n : NodeId K} {heads : List (NodeId K)} {op : Block} :
      n.key = room.localKey → Move room { room with lin := (room.lin.add n heads).1
                                                    payloads := room.payloads.insert n op }
  | repin {room : Room K H Sig SK S F P} {lin : Linearizer K} {through : ℕ} {indexers : List K} :
      room.lin.reconfigure through indexers = (lin, .ok ()) → Move room { room with lin }

/-- Any number of changes. -/
abbrev Moves : Room K H Sig SK S F P → Room K H Sig SK S F P → Prop := Relation.ReflTransGen (Move env)

variable {env} {room room' : Room K H Sig SK S F P}

theorem Moves.localKey_eq (h : Moves env room room') : room'.localKey = room.localKey := by
  induction h with
  | refl => rfl
  | tail _ hm ih =>
    refine Eq.trans ?_ ih
    cases hm with
    | other hsame => exact hsame.localKey
    | core _ => rfl
    | replica _ _ => rfl
    | join _ _ => rfl
    | dag _ => rfl
    | own _ => rfl
    | repin _ => rfl

/-! ### Moves of a part -/

variable {core : Hypercore H Sig SK S}

theorem moves_core (h : Hypercore.Moves env.crypto env.backend room.localCore core) :
    Moves env room { room with localCore := core } := by
  induction h with
  | refl => exact .refl
  | tail _ hstep ih => exact ih.tail (Move.core hstep)

variable {w : K} {r r' : Replica K H Sig S}

theorem moves_replica (hr : room.remotes[w]? = some r) (h : Replica.Moves env.crypto env.backend r r') :
    Moves env room { room with remotes := room.remotes.insert w r' } := by
  induction h with
  | refl => rw [Graph.insert_of_getElem? hr]
  | @tail r₁ r₂ _ hstep ih =>
    refine ih.tail ?_
    have hget : (room.remotes.insert w r₁)[w]? = some r₁ := by rw [Graph.getElem?_insert, if_pos rfl]
    have hmove : Move env { room with remotes := room.remotes.insert w r₁ }
        { room with remotes := (room.remotes.insert w r₁).insert w r₂ } := .replica hget hstep
    rwa [Graph.insert_insert] at hmove

theorem moves_dag {d : Dag K} (h : Dag.Moves (room.Held env) room.toDag d) :
    Moves env room { room with toDag := d } := by
  induction h with
  | refl => exact .refl
  | tail _ hstep ih => exact ih.tail (Move.dag hstep)

/-- A reconfiguration pins a base and folds anew. -/
theorem moves_reconfigure (through : ℕ) (indexers : List K) (room : Room K H Sig SK S F P) :
    Moves env room (after (reconfigure env through indexers) room) := by
  refine (ends_reconfigure through indexers room).always (fun _ room' h => ?_) fun _ room' h => h ▸ .refl
  obtain ⟨lin, hlin, rfl⟩ := h
  have hpinned : Moves env room { room with lin } := .single (.repin hlin)
  exact (hpinned.tail (.other (sameData_rollBack env room lin))).tail (.other (sameData_advance env _))

theorem within_onReplica {α : Type} {x : EStateM (CoreError E) (Replica K H Sig S) α}
    {Q : Replica K H Sig S → α → Replica K H Sig S → Prop}
    (hx : ∀ r, Within (Replica.Moves env.crypto env.backend) x r (Q r)) :
    Within (Moves env) (onReplica w x) room fun a room' =>
      ∃ r r', room.remotes[w]? = some r ∧ room' = { room with remotes := room.remotes.insert w r' } ∧
        Q r a r' := by
  unfold onReplica
  apply Within.get
  cases hr : room.remotes[w]? with
  | none => exact Within.fail _
  | some r =>
    exact Within.zoom (hx r) (fun _ h => moves_replica hr h) fun _ r' _ hQ => ⟨r, r', rfl, rfl, hQ⟩

theorem within_openStore (w : K) :
    Within (Moves env) (openStore env w) room fun store room' =>
      ∃ f, env.factory.openStore w room.factory = .ok store f ∧ room' = { room with factory := f } := by
  have hopen : Within (fun _ _ => True) (env.factory.openStore w) room.factory
      fun store f => env.factory.openStore w room.factory = .ok store f := by
    unfold Command.Within
    cases env.factory.openStore w room.factory <;> simp
  exact Within.zoom hopen (fun _ _ => .single (.other ⟨rfl, rfl, rfl, rfl⟩)) fun _ f _ h => ⟨f, h, rfl⟩

/-! ### The blocks a room holds -/

variable {n : NodeId K} {bytes data : Block} {e : Entry K} {head : SignedHead H Sig}
variable {room₁ : Room K H Sig SK S F P}

section Holdings

omit [DecidableEq H]

variable (env) in
/-- `room'` holds the blocks of `room` and the new block `bytes` of `n`. -/
structure Gains (room : Room K H Sig SK S F P) (n : NodeId K)
    (bytes : Block) (room' : Room K H Sig SK S F P) : Prop where
  fresh : room.blockAt env n = .ok none
  blocks : ∀ m, room'.blockAt env m = if m = n then .ok (some bytes) else room.blockAt env m

theorem Gains.held_iff (h : Gains env room n bytes room') (m : NodeId K) (e : Entry K) : room'.Held env m e ↔
      room.Held env m e ∨ m = n ∧ env.codec.decode bytes = .ok e := by
  unfold Held
  rw [h.blocks m]
  by_cases hm : m = n
  · subst hm
    rw [if_pos rfl, h.fresh]
    simp
  · rw [if_neg hm]
    simp [hm]

theorem held_unique {e e' : Entry K} (h : room.Held env n e) (h' : room.Held env n e') :
    e = e' := by
  obtain ⟨bytes, hb, hd⟩ := h
  obtain ⟨bytes', hb', hd'⟩ := h'
  rw [hb] at hb'
  obtain rfl : bytes = bytes' := Option.some.inj (Except.ok.inj hb')
  rw [hd] at hd'
  exact Except.ok.inj hd'

theorem held_own (hn : n.key = room.localKey) : room.Held env n e ↔
    room.localCore.get env.backend env.codec n.seq = .ok (some e) := by
  rw [Hypercore.get_eq_some, Held, blockAt, if_pos hn]

theorem held_remote (hn : n.key ≠ room.localKey) : room.Held env n e ↔
    ∃ r, room.remotes[n.key]? = some r ∧ r.get env.backend env.codec n.seq = .ok (some e) := by
  unfold Held blockAt
  rw [if_neg hn]
  cases hr : room.remotes[n.key]? with
  | none => simp
  | some r => simp [Replica.get_eq_some]

/-- A block appended to the local log is the room's. -/
theorem gains_extends (h : Hypercore.Extends env.crypto env.backend room.localCore data core)
    (hn : n = ⟨room.localKey, room.localCore.len⟩) :
    Gains env room n data { room with localCore := core } := by
  subst hn
  refine ⟨?_, fun m => ?_⟩
  · rw [blockAt, if_pos rfl]
    exact Hypercore.block_of_len_le le_rfl
  · show (if m.key = room.localKey then core.block env.backend m.seq else _) = _
    simp only [h.block, blockAt, NodeId.ext'_iff]
    by_cases hkey : m.key = room.localKey
    · simp [hkey]
    · simp [hkey]

variable (env) in
/-- `room'` holds what `room` does, and orders it alike. -/
structure SameHoldings (room room' : Room K H Sig SK S F P) : Prop where
  localKey : room'.localKey = room.localKey
  blocks : ∀ n, room'.blockAt env n = room.blockAt env n
  dag : room'.toDag = room.toDag

theorem SameHoldings.trans {room'' : Room K H Sig SK S F P} (h : SameHoldings env room room')
    (h' : SameHoldings env room' room'') : SameHoldings env room room'' :=
  ⟨h'.localKey.trans h.localKey, fun n => (h'.blocks n).trans (h.blocks n), h'.dag.trans h.dag⟩

theorem SameData.holdings (h : SameData room room') : SameHoldings env room room' := by
  refine ⟨h.localKey, fun n => ?_, h.dag⟩
  rw [blockAt, blockAt, h.localKey, h.localCore, h.remotes]

theorem Gains.of_same (h : SameHoldings env room room₁) (hg : Gains env room₁ n bytes room') :
    Gains env room n bytes room' := by
  refine ⟨h.blocks n ▸ hg.fresh, fun m => ?_⟩
  rw [hg.blocks m, h.blocks m]

theorem Gains.then_same (hg : Gains env room n bytes room₁)
    (h : ∀ m, room'.blockAt env m = room₁.blockAt env m) : Gains env room n bytes room' :=
  ⟨hg.fresh, fun m => (h m).trans (hg.blocks m)⟩

/-- A replica whose blocks read alike leaves the room's blocks alike. -/
theorem same_of_replica (hr : room.remotes[w]? = some r)
    (h : ∀ i, r'.block env.backend i = r.block env.backend i) :
    SameHoldings env room { room with remotes := room.remotes.insert w r' } := by
  refine ⟨rfl, fun n => ?_, rfl⟩
  unfold blockAt
  dsimp only
  rw [Graph.getElem?_insert]
  by_cases hkey : n.key = w
  · rw [if_pos hkey, hkey, hr]
    dsimp only
    rw [h n.seq]
  · rw [if_neg hkey]

theorem same_of_core (h : ∀ i, core.block env.backend i = room.localCore.block env.backend i) :
    SameHoldings env room { room with localCore := core } := by
  refine ⟨rfl, fun n => ?_, rfl⟩
  unfold blockAt
  dsimp only
  rw [h n.seq]

theorem SameHoldings.held (h : SameHoldings env room room') : room'.Held env = room.Held env := by
  funext n e
  rw [Held, Held, h.blocks n]

end Holdings

/-- A block a replica accepts is the room's. -/
theorem gains_accepts (hw : w ≠ room.localKey) (hr : room.remotes[w]? = some r)
    (h : Replica.Accepts env.crypto env.backend r head data r') :
    Gains env room ⟨w, r.len⟩ data { room with remotes := room.remotes.insert w r' } := by
  refine ⟨?_, fun m => ?_⟩
  · rw [blockAt, if_neg hw]
    dsimp only
    rw [hr]
    exact Replica.block_of_len_le le_rfl
  · simp only [blockAt, NodeId.ext'_iff, Graph.getElem?_insert]
    by_cases hkey : m.key = w
    · subst hkey
      simp [hw, hr, h.block]
    · simp [hkey]

/-- Draining and recomputing the derived state is a move of the DAG. -/
theorem moves_drain (hsame : SameData room.drainPending room') : Moves env room room' :=
  (moves_dag (Dag.moves_drainPending room.toDag)).tail (.other hsame)

/-! ### Ingesting a block -/

theorem within_ensureReplica (hw : w ≠ room.localKey) :
    Within (Moves env) (ensureReplica env w) room fun _ room' => SameHoldings env room room' := by
  unfold ensureReplica
  apply Within.get
  split_ifs with hin hkey
  · exact Within.ret ⟨rfl, fun _ => rfl, rfl⟩
  · exact Within.fail _
  · refine Within.seq (within_openStore w) fun store room₁ _ hopen => ?_
    obtain ⟨f, -, rfl⟩ := hopen
    have hnone : room.remotes[w]? = none := ExtTreeMap.getElem?_eq_none hin
    refine Within.modify (.single (Move.join hw hin)) ⟨rfl, fun n => ?_, rfl⟩
    unfold blockAt
    dsimp only
    rw [Graph.getElem?_insert]
    by_cases hn : n.key = w
    · -- an empty replica holds nothing
      rw [if_pos hn, hn, hnone]
      dsimp only
      rw [Replica.block_of_len_le (Nat.zero_le n.seq)]
    · rw [if_neg hn]

/-- An accepted block is new to the room and was offered to the DAG; a refused one
changes nothing the room holds. -/
theorem within_ingestRemoteBlock (hb : env.backend.Lawful) (hw : w ≠ room.localKey) (head : SignedHead H Sig)
    (index : ℕ) (bytes : Block) (proof : Merkle.Proof H) :
    Within (Moves env) (ingestRemoteBlock env w head index bytes proof) room fun accepted room' =>
      if accepted then ∃ e, env.codec.decode bytes = .ok e ∧ Gains env room ⟨w, index⟩ bytes room' ∧
        room'.localKey = room.localKey ∧ room'.toDag = room.toDag.tryAddNode ⟨w, index⟩ e
      else SameHoldings env room room' := by
  unfold ingestRemoteBlock
  refine Within.seq (within_ensureReplica hw) fun _ room₁ _ hsame => ?_
  have hw₁ : w ≠ room₁.localKey := hsame.localKey ▸ hw
  refine Within.seq (within_onReplica fun r => Replica.within_addBlock hb head index bytes proof r)
    fun accepted room₂ _ hadd => ?_
  obtain ⟨r, r', hr, rfl, hacc⟩ := hadd
  cases accepted with
  | false =>
    obtain rfl : r' = r := hacc
    refine Within.ret (hsame.trans (same_of_replica hr fun _ => rfl))
  | true =>
    obtain ⟨rfl, hacc⟩ : index = r.len ∧ _ := hacc
    have hgain := (gains_accepts hw₁ hr hacc).of_same hsame
    refine Within.seq (within_onReplica fun r => Replica.within_persist hb r) fun _ room₃ _ hper => ?_
    obtain ⟨r₁, r₂, hr₁, rfl, s, rfl, hk⟩ := hper
    have hper : SameHoldings env _ _ := same_of_replica hr₁ (Replica.block_store hk)
    refine Within.look fun e he => ?_
    have hgain' := hgain.then_same hper.blocks
    have hheld : Room.Held env _ ⟨w, r.len⟩ e := (hgain'.held_iff ⟨w, r.len⟩ e).mpr (Or.inr ⟨rfl, he⟩)
    refine Within.update (.tail (moves_dag (Dag.moves_tryAddNode hheld)) (.other ⟨rfl, rfl, rfl, rfl⟩)) ?_
    refine Within.ret ⟨e, he, hgain'.then_same fun _ => rfl, hsame.localKey, ?_⟩
    show room₁.toDag.tryAddNode _ e = _
    rw [hsame.dag]

/-! ### Offering entries to the DAG -/

variable (env) in
/-- The DAG accounts for what the room holds. -/
def Accounts (init : Linearizer K) (room : Room K H Sig SK S F P) : Prop :=
  Dag.Accounted init (room.Held env) room.toDag

variable (env) in
/-- The DAG accounts for what the room holds, and nothing is left to deliver. -/
def Complete (init : Linearizer K) (room : Room K H Sig SK S F P) : Prop :=
  Accounts env init room ∧ room.toDag.Closed

variable {init : Linearizer K}

omit [DecidableEq H] in
theorem SameHoldings.accounts (h : SameHoldings env room room') (ha : Accounts env init room) :
    Accounts env init room' := by
  rw [Accounts, h.held, h.dag]
  exact ha

omit [DecidableEq H] in
theorem SameHoldings.complete (h : SameHoldings env room room') (hc : Complete env init room) :
    Complete env init room' := by
  refine ⟨h.accounts hc.1, ?_⟩
  rw [h.dag]
  exact hc.2

variable {key : K} {read : ℕ → Except (CoreError E) (Option (Entry K))} {i : ℕ}

omit [DecidableEq H] in
/-- Draining what is accounted for completes it. -/
theorem complete_drain (h : Accounts env init room) (hsame : SameData room.drainPending room') :
    Complete env init room' := by
  have hd : Complete env init room.drainPending := ⟨Dag.Accounted.drain h, Dag.closed_drainPending _⟩
  exact hsame.holdings.complete hd

/-! ### Recovering the own feed -/

omit [DecidableEq H] [LinearOrder K] in
theorem recoveredEntry_eq_some :
    recoveredEntry env core i = .ok (some e) ↔
      core.get env.backend env.codec i = .ok (some e) := by
  rw [recoveredEntry]
  split
  · rename_i h
    simp [h]
  · rfl

/-- The entries of an adopted suffix are the ones the room holds beyond the old log. -/
theorem held_adopts {suffix : List Block}
    (h : Hypercore.Adopts env.crypto env.backend room.localCore head suffix core) (n : NodeId K)
    (e : Entry K) :
    ({ room with localCore := core } : Room K H Sig SK S F P).Held env n e ↔
      room.Held env n e ∨ ∃ i ∈ List.range' room.localCore.len (core.len - room.localCore.len),
        n = ⟨room.localKey, i⟩ ∧ recoveredEntry env core i = .ok (some e) := by
  by_cases hkey : n.key = room.localKey
  · have hnew : ({ room with localCore := core } : Room K H Sig SK S F P).Held env n e ↔
        core.get env.backend env.codec n.seq = .ok (some e) := held_own hkey
    rw [hnew, held_own hkey, Hypercore.get_eq_some, Hypercore.get_eq_some, h.block, h.len_eq]
    by_cases hlt : n.seq < room.localCore.len
    · rw [if_pos hlt]
      refine ⟨Or.inl, ?_⟩
      rintro (he | ⟨i, hi, rfl, -⟩)
      · exact he
      · exact absurd (List.mem_range'_1.mp hi).1 (Nat.not_le.mpr hlt)
    · rw [if_neg hlt, Hypercore.block_of_len_le (Nat.le_of_not_lt hlt)]
      constructor
      · rintro ⟨bytes, hbytes, hdec⟩
        have hsuf : suffix[n.seq - room.localCore.len]? = some bytes := Except.ok.inj hbytes
        have hin := (List.getElem?_eq_some_iff.mp hsuf).1
        refine Or.inr ⟨n.seq, List.mem_range'_1.mpr ⟨by omega, by omega⟩, NodeId.ext' hkey rfl, ?_⟩
        rw [recoveredEntry_eq_some, Hypercore.get_eq_some]
        exact ⟨bytes, by rw [h.block, if_neg hlt, hsuf], hdec⟩
      · rintro (⟨bytes, hbytes, -⟩ | ⟨i, -, rfl, hi⟩)
        · cases hbytes
        · rw [recoveredEntry_eq_some, Hypercore.get_eq_some, h.block, if_neg hlt] at hi
          exact hi
  · have hnew : ({ room with localCore := core } : Room K H Sig SK S F P).Held env n e ↔
        room.Held env n e := by
      unfold Held blockAt
      rw [if_neg hkey, if_neg hkey]
    rw [hnew]
    refine ⟨Or.inl, ?_⟩
    rintro (he | ⟨i, -, rfl, -⟩)
    · exact he
    · exact absurd rfl hkey

theorem within_completeOwnRecovery (hb : env.backend.Lawful) (target : SignedHead H Sig)
    (suffix : List Block) (room : Room K H Sig SK S F P) :
    Within (Moves env) (completeOwnRecovery env target suffix) room fun _ room' =>
      ∀ init, Linearizer.Run [] init → Accounts env init room → Complete env init room' := by
  have hmove : ∀ {core d}, Hypercore.Moves env.crypto env.backend room.localCore core →
      Dag.Moves (Held env { room with localCore := core }) room.toDag d →
      Moves env room (room.withAdopted core d) := by
    intro core d hcore hdag
    have hcore : Moves env room (room.withAdopted core room.toDag) :=
      (moves_core hcore).tail (.other ⟨rfl, rfl, rfl, rfl⟩)
    exact hcore.trans (moves_dag hdag)
  refine (ends_completeOwnRecovery_of (fun core => Held env { room with localCore := core })
    (A := fun core => Hypercore.Moves env.crypto env.backend room.localCore core ∧
      Hypercore.Adopts env.crypto env.backend room.localCore target suffix core) ?_
    (fun core _ i _ e he => (held_own rfl).mpr (recoveredEntry_eq_some.mp he))
    fun core d _ h hdag _ => hmove h.1 hdag).mono (fun _ room' h => ?_) fun _ _ h => h
  · exact Ends.mono (Hypercore.within_recoverSignedSuffix hb target suffix _) (fun _ _ h => ⟨h.1, h.2.2⟩)
      fun _ _ h => moves_core h
  · obtain ⟨core, d, ⟨hcore, hadopt⟩, hdag, hoff, rfl⟩ := h
    refine ⟨(hmove hcore hdag).trans (moves_drain (sameData_touch_advance env _)), fun init hinit hacc => ?_⟩
    refine complete_drain ?_ (sameData_touch_advance env _)
    refine (hoff init _ hinit hacc List.nodup_range' fun i hi e he => ?_).congr
      fun n e => (held_adopts hadopt n e).symm
    -- the suffix starts where the log ended
    exact absurd (Hypercore.lt_of_get ((held_own rfl).mp he)) (Nat.not_lt.mpr (List.mem_range'_1.mp hi).1)

section Recovery

variable [DecidableEq Sig]

theorem within_beginOwnRecovery (head : SignedHead H Sig) (room : Room K H Sig SK S F P) :
    Within (Moves env) (beginOwnRecovery env head) room fun _ room' => ∃ r, room' =
      { room with ownRecovery := r } := by
  refine (ends_beginOwnRecovery head).mono (fun _ room' h => ?_) fun _ room' h => h ▸ .refl
  obtain ⟨r, rfl⟩ := h
  exact ⟨.single (.other ⟨rfl, rfl, rfl, rfl⟩), r, rfl⟩

/-- An own block changes nothing the room holds, until the last missing one: then
the suffix is adopted and delivered. -/
theorem within_recoverOwnBlock (hb : env.backend.Lawful) (head : SignedHead H Sig) (index : ℕ)
    (bytes : Block) (proof : Merkle.Proof H) (room : Room K H Sig SK S F P) :
    Within (Moves env) (recoverOwnBlock env head index bytes proof) room fun _ room' =>
      ∀ init, Linearizer.Run [] init → Complete env init room → Complete env init room' := by
  have hsame : ∀ r, SameData room { room with ownRecovery := r } := fun _ => ⟨rfl, rfl, rfl, rfl⟩
  have hstay : ∀ r, Moves env room { room with ownRecovery := r } ∧ ∀ init, Linearizer.Run [] init →
      Complete env init room → Complete env init { room with ownRecovery := r } :=
    fun r => ⟨.single (.other (hsame r)), fun _ _ hc => (hsame r).holdings.complete hc⟩
  refine ends_recoverOwnBlock_of (fun _ => hstay _) (fun _ => .refl) fun _ _ => ?_
  refine (ends_beginOwnRecovery head).mono (fun _ room₁ h => ?_) fun _ room' h => h ▸ .refl
  obtain ⟨r, rfl⟩ := h
  refine ⟨hstay r, fun _ => (hstay r).1, fun target blocks _ => ⟨hstay _, fun suffix => ?_⟩⟩
  refine Ends.mono (within_completeOwnRecovery hb target suffix _)
    (fun _ room' h => ⟨(hstay _).1.trans h.1, ?_⟩)
    fun _ _ h => (hstay _).1.trans h
  exact fun init hinit hc => h.2 init hinit ((hstay _).2 init hinit hc).1

theorem within_checkOwnHead (head : SignedHead H Sig) (room : Room K H Sig SK S F P) :
    Within (Moves env) (checkOwnHead env head) room fun _ room' => ∃ r, room' =
      { room with ownRecovery := r } :=
  ends_checkOwnHead_of (fun _ => within_beginOwnRecovery head room) (fun _ => .refl) fun _ => ⟨.refl, _, rfl⟩

end Recovery

/-! ### The three calls -/

variable (env) in
/-- `room'` is `room` after appending `op` to the local log: the entry was new, its
predecessor was delivered, and it went to the DAG. -/
structure Appended (op : Block) (room room' : Room K H Sig SK S F P) : Prop where
  gains : Gains env room ⟨room.localKey, room.localCore.len⟩
    (env.codec.encode ⟨room.lin.heads.toList, op⟩) room'
  localKey : room'.localKey = room.localKey
  pred : 0 < room.localCore.len → ⟨room.localKey, room.localCore.len - 1⟩ ∈ room.lin.deps
  dag : room'.toDag = { room.toDag with
    lin := (room.lin.add ⟨room.localKey, room.localCore.len⟩ room.lin.heads.toList).1
    payloads := room.payloads.insert ⟨room.localKey, room.localCore.len⟩ op }

theorem within_localAppend (hb : env.backend.Lawful) (op : Block) (room : Room K H Sig SK S F P) :
    Within (Moves env) (localAppend env op) room fun _ room' => Appended env op room room' := by
  have hmove : ∀ core, Hypercore.Moves env.crypto env.backend room.localCore core →
      Moves env room ((room.withOwn core op).touch.advance env) := fun core h =>
    ((moves_core h).tail (.own rfl)).tail (.other (sameData_touch_advance env (room.withOwn core op)))
  refine (ends_localAppend_of op
    (A := fun core' => ∃ core, Hypercore.Extends env.crypto env.backend room.localCore
      (env.codec.encode ⟨room.lin.heads.toList, op⟩) core ∧
      Hypercore.Moves env.crypto env.backend room.localCore core' ∧
      ∃ s, core' = { core with store := s } ∧ env.backend.Keeps core.len core.store s)
    (fun _ => ⟨.refl, .refl⟩) (fun _ => ?_) fun core _ h _ => ?_).mono (fun _ room' h => ?_) fun _ _ h => h
  · refine Ends.mono (Hypercore.within_append hb _ _) (fun _ core h₁ => ?_) fun _ _ h₁ => moves_core h₁
    exact Ends.mono (Hypercore.within_persist hb core)
      (fun _ _ h₂ => ⟨core, h₁.2.2, h₁.1.trans h₂.1, h₂.2⟩) fun _ _ h₂ => moves_core (h₁.1.trans h₂)
  · obtain ⟨_, -, h, -⟩ := h
    exact hmove core h
  · obtain ⟨hready, _, ⟨core, hext, hmoves, s, rfl, hk⟩, -, rfl⟩ := h
    have hadv := sameData_touch_advance env (room.withOwn { core with store := s } op)
    have hper : SameHoldings env { room with localCore := core } { room with
        localCore := { core with store := s } } := same_of_core (Hypercore.block_store hk)
    have hold : SameHoldings env _ _ := hadv.holdings
    exact ⟨hmove _ hmoves,
      { gains := ((gains_extends hext rfl).then_same hper.blocks).then_same hold.blocks
        localKey := hadv.localKey
        pred := fun hpos => by_contra fun hmiss => hready (Or.inr ⟨hpos, hmiss⟩)
        dag := hadv.dag }⟩

theorem within_checkpoint (hb : env.backend.Lawful) (room : Room K H Sig SK S F P) :
    Within (Moves env) (checkpoint env) room fun _ room' =>
      if room.needsCheckpoint then Appended env [] room room' else room' = room := by
  refine ends_checkpoint_of (fun hneeds => ?_) fun hneeds => ?_
  · simp only [hneeds, if_true]
    exact within_localAppend hb [] room
  · simp only [hneeds, Bool.false_eq_true, if_false, and_true]
    exact .refl

/-- A message never loses an account of what the room holds. -/
theorem within_onInbound [DecidableEq Sig] (hb : env.backend.Lawful) (peer : K)
    (msg : SyncMessage K H Sig) (room : Room K H Sig SK S F P) :
    Within (Moves env) (onInbound env peer msg) room fun _ room' =>
      ∀ init, Linearizer.Run [] init → Complete env init room → Complete env init room' := by
  refine ends_onInbound_of peer (fun _ _ => ⟨.refl, fun _ _ h => h⟩) (fun _ => .refl) (fun head _ => ?_)
    (fun head i bytes proof _ => within_recoverOwnBlock hb head i bytes proof room)
    fun w head i bytes proof _ hw => ?_
  · refine Ends.mono (within_checkOwnHead head room) (fun _ _ h => ⟨h.1, fun init _ hc => ?_⟩) fun _ _ h => h
    obtain ⟨-, r, rfl⟩ := h
    exact SameHoldings.complete ⟨rfl, fun _ => rfl, rfl⟩ hc
  · refine Ends.mono (within_ingestRemoteBlock hb hw head i bytes proof)
      (fun accepted room₁ h => ?_) fun _ _ h => h
    obtain ⟨hmoves, hing⟩ := h
    cases accepted with
    | false => exact ⟨hmoves, fun init _ hc => SameHoldings.complete hing hc⟩
    | true =>
      obtain ⟨e, he, hgain, -, hdag⟩ := hing
      refine ⟨hmoves.trans (moves_drain (sameData_advance env _)), fun init hinit hc =>
        complete_drain ?_ (sameData_advance env _)⟩
      have hoffer := hc.1.offer hinit (n := ⟨w, i⟩) (e := e) fun e' he' => by
        obtain ⟨bytes', hb', -⟩ := he'
        rw [hgain.fresh] at hb'
        cases hb'
      rw [Accounts, hdag]
      refine hoffer.congr fun m e' => ?_
      rw [hgain.held_iff, he]
      simp [eq_comm]

end Room
end HypercoreRs
