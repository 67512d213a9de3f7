/-
# The folds of a room

A room keeps two projections: one folds the finalized order, by its new suffix each time it
grows, and one the rest of the order on top of it. A reconfiguration may shrink the finalized
order; then the first fold starts anew from the projection the room was opened with.

A domain that is a function of its state (`Projection.Folds`) is folded along any run as if
the whole order were folded at once, and until the first reconfiguration the mutations handed
out are the finalized nodes gained since the room was opened (`fold_law`). What carries the
folds over a call is that it recomputes them at its end, from what it left them as
(`Recomputed`), and that no payload of a delivered node changes (`Carries`).
-/
import HypercoreRs.Autobase.Driver
import HypercoreRs.Hypercore.Steps
import HypercoreRs.Room.Runs

namespace HypercoreRs

open Std Merkle Command

namespace Linearizer

variable {K : Type} [LinearOrder K] {L : Linearizer K}

/-- Only delivered nodes are finalized. -/
theorem Built.finalized_sub (h : Built L) : ∀ n ∈ L.finalized, n ∈ L.deps := by
  intro n hn
  cases hix : L.indexers with
  | none =>
    have hbase : L.finalized = L.base := by
      rw [finalized, confirmedView, majority, hix]
      rfl
    exact h.pinned.sub n (hbase ▸ hn)
  | some ix =>
    obtain ⟨removed, emitted, hd, -⟩ := driven_finalized h.keeps.1 h.pinned hix
    exact hd.sub h.pinned n hn

end Linearizer

/-! ### The DAG keeps its payloads -/

namespace Dag

variable {K : Type} [LinearOrder K] {d d' : Dag K}

/-- The delivered and the waiting nodes are among those of `bound`. -/
structure Among (bound : NodeId K → Prop) (d : Dag K) : Prop where
  built : Linearizer.Built d.lin
  delivered : ∀ n ∈ d.lin.deps, bound n
  waiting : ∀ p ∈ d.pending, bound p.1

/-- `d'` has the nodes of `d`, with their payloads. -/
structure Extended (d d' : Dag K) : Prop where
  deps : ∀ n ∈ d.lin.deps, n ∈ d'.lin.deps
  payloads : ∀ n ∈ d.lin.deps, d'.payloads[n]? = d.payloads[n]?

theorem Extended.refl (d : Dag K) : Extended d d := ⟨fun _ h => h, fun _ _ => rfl⟩

theorem Extended.trans {d'' : Dag K} (h : Extended d d') (h' : Extended d' d'') : Extended d d'' :=
  ⟨fun n hn => h'.deps n (h.deps n hn), fun n hn => (h'.payloads n (h.deps n hn)).trans (h.payloads n hn)⟩

theorem Among.mono {bound bound' : NodeId K → Prop} (h : Among bound d) (hb : ∀ n, bound n → bound' n) :
    Among bound' d :=
  ⟨h.built, fun n hn => hb n (h.delivered n hn), fun p hp => hb p.1 (h.waiting p hp)⟩

variable {bound : NodeId K → Prop}

/-- A node that is not there is added, with its payload, whether it is accepted or not. -/
theorem Among.insert (h : Among bound d) {n : NodeId K} (hn : bound n) (hnew : n ∉ d.lin.deps)
    (heads : List (NodeId K)) (payload : Block) :
    Among bound { d with lin := (d.lin.add n heads).1, payloads := d.payloads.insert n payload } ∧
      Extended d { d with lin := (d.lin.add n heads).1, payloads := d.payloads.insert n payload } := by
  refine ⟨⟨h.built.add n heads, fun m hm => ?_, h.waiting⟩,
    fun m hm => Linearizer.mem_add_of_mem hm, fun m hm => ?_⟩
  · obtain rfl | hm := Linearizer.mem_add hm
    · exact hn
    · exact h.delivered m hm
  · have hne : m ≠ n := fun he => hnew (he ▸ hm)
    dsimp only
    rw [Graph.getElem?_insert, if_neg hne]

theorem Among.move (h : Among bound d) (hm : Move (fun n _ => bound n) d d') :
    Among bound d' ∧ Extended d d' := by
  cases hm with
  | @deliver n e lin hheld hadd =>
    have hn : bound n := hheld.elim id fun hp => h.waiting (n, e) hp
    have hnew : n ∉ d.lin.deps := (Linearizer.add_eq_ok.mp hadd).1
    have hins := h.insert hn hnew e.heads e.payload
    rw [hadd] at hins
    exact hins
  | buffer hpending =>
    refine ⟨⟨h.built, h.delivered, fun p hp => ?_⟩, fun _ hn => hn, fun _ _ => rfl⟩
    exact (hpending p hp).elim id (h.waiting p)

theorem Among.moves (h : Among bound d) (hm : Moves (fun n _ => bound n) d d') :
    Among bound d' ∧ Extended d d' := by
  induction hm with
  | refl => exact ⟨h, .refl d⟩
  | tail _ hstep ih =>
    obtain ⟨hamong, hext⟩ := ih.1.move hstep
    exact ⟨hamong, ih.2.trans hext⟩

end Dag

/-- The domain is a function of its state: an op takes one state to the next by `step`, and a
snapshot that is restored is the state again. -/
structure Projection.Folds {K P St : Type} (projection : Projection K P St)
    (step : St → NodeId K → Block → St) : Prop where
  apply : ∀ p n op, projection.snapshot (projection.apply p n op) = step (projection.snapshot p) n op
  reset : ∀ p q, projection.snapshot (projection.resetTo p (projection.snapshot q)) = projection.snapshot q

/-- The state after the ops of `nodes`; an empty payload is no op. -/
def foldState {K St : Type} [LinearOrder K] (step : St → NodeId K → Block → St)
    (payloads : ExtTreeMap (NodeId K) Block) (s : St) (nodes : List (NodeId K)) : St :=
  nodes.foldl (fun s n => if (payloads.getD n []).isEmpty then s else step s n (payloads.getD n [])) s

variable {K St : Type}

theorem foldState_append [LinearOrder K] (step : St → NodeId K → Block → St)
    (payloads : ExtTreeMap (NodeId K) Block) (s : St) (l l' : List (NodeId K)) :
    foldState step payloads s (l ++ l') = foldState step payloads (foldState step payloads s l) l' :=
  List.foldl_append

theorem foldState_congr [LinearOrder K] (step : St → NodeId K → Block → St)
    {payloads payloads' : ExtTreeMap (NodeId K) Block} (s : St) {nodes : List (NodeId K)}
    (h : ∀ n ∈ nodes, payloads'.getD n [] = payloads.getD n []) :
    foldState step payloads' s nodes = foldState step payloads s nodes := by
  refine List.foldl_ext _ _ s fun s n hn => ?_
  rw [h n hn]

namespace Room

variable {K H Sig SK S E F P St : Type} [LinearOrder K]
variable {env : Env K H Sig SK S E F P St} {room room' room₀ : Room K H Sig SK S F P}

/-! ### What a call leaves of the folds -/

/-- An own node is one of the local log. -/
def Logged (room : Room K H Sig SK S F P) (n : NodeId K) : Prop :=
  n.key = room.localKey → n.seq < room.localCore.len

/-- The room's own nodes are those of its log. -/
def Tidy (room : Room K H Sig SK S F P) : Prop := room.toDag.Among room.Logged

/-- The folds are left as they are, and so are the payloads of the delivered nodes. -/
structure Carries (room room' : Room K H Sig SK S F P) : Prop where
  tidy : Tidy room'
  extended : room.toDag.Extended room'.toDag
  localKey : room'.localKey = room.localKey
  genesisProj : room'.genesisProj = room.genesisProj
  finalizedProj : room'.finalizedProj = room.finalizedProj
  liveProj : room'.liveProj = room.liveProj
  finalizedLen : room'.finalizedLen = room.finalizedLen
  finalizedSincePoll : room'.finalizedSincePoll = room.finalizedSincePoll

variable {room'' : Room K H Sig SK S F P}

theorem Carries.trans (h : Carries room room') (h' : Carries room' room'') :
    Carries room room'' where
  tidy := h'.tidy
  extended := h.extended.trans h'.extended
  localKey := h'.localKey.trans h.localKey
  genesisProj := h'.genesisProj.trans h.genesisProj
  finalizedProj := h'.finalizedProj.trans h.finalizedProj
  liveProj := h'.liveProj.trans h.liveProj
  finalizedLen := h'.finalizedLen.trans h.finalizedLen
  finalizedSincePoll := h'.finalizedSincePoll.trans h.finalizedSincePoll

theorem Carries.touch (h : Carries room room') : Carries room room'.touch :=
  ⟨h.tidy, h.extended, h.localKey, h.genesisProj, h.finalizedProj, h.liveProj, h.finalizedLen,
    h.finalizedSincePoll⟩

theorem Tidy.carries (h : Tidy room) : Carries room room := ⟨h, .refl _, rfl, rfl, rfl, rfl, rfl, rfl⟩

theorem Tidy.carries_remotes (h : Tidy room) (remotes : ExtTreeMap K (Replica K H Sig S)) (factory : F) :
    Carries room { room with remotes, factory } := ⟨h, .refl _, rfl, rfl, rfl, rfl, rfl, rfl⟩

theorem Tidy.carries_recovery (h : Tidy room) (recovery : Option (SignedHead H Sig × ExtTreeMap ℕ Block)) :
    Carries room { room with ownRecovery := recovery } := ⟨h, .refl _, rfl, rfl, rfl, rfl, rfl, rfl⟩

variable {core : Hypercore H Sig SK S}

theorem Tidy.carries_core (h : Tidy room) (hlen : room.localCore.len ≤ core.len) :
    Carries room { room with localCore := core } :=
  ⟨Dag.Among.mono h fun _ hn hkey => (hn hkey).trans_le hlen, .refl _, rfl, rfl, rfl, rfl, rfl, rfl⟩

theorem Tidy.carries_dag (h : Tidy room) {d : Dag K}
    (hd : Dag.Moves (fun n _ => room.Logged n) room.toDag d) :
    Carries room { room with toDag := d } := by
  obtain ⟨hamong, hext⟩ := Dag.Among.moves h hd
  exact ⟨hamong, hext, rfl, rfl, rfl, rfl, rfl, rfl⟩

theorem Tidy.advance (h : Tidy room) : Tidy (room.advance env) := by
  have hsame := sameData_advance env room
  have hlogged : (room.advance env).Logged = room.Logged := by
    funext n
    rw [Logged, Logged, hsame.localKey, hsame.localCore]
  rw [Tidy, hlogged, hsame.dag]
  exact h

variable (env) in
/-- The folds are as they were and so is what they are over, or they were recomputed. -/
def Recomputed (room room' : Room K H Sig SK S F P) : Prop :=
  (Carries room room' ∧ room'.lin = room.lin ∧ room'.payloads = room.payloads) ∨
    ∃ room₁, Carries room room₁ ∧ room' = room₁.advance env

variable (env) in
/-- The same, with the DAG grown and the folds not recomputed yet: a call that fails stops there. -/
def Stopped (room room' : Room K H Sig SK S F P) : Prop :=
  Carries room room' ∨ ∃ room₁, Carries room room₁ ∧ room' = room₁.advance env

theorem Stopped.tidy (h : Stopped env room room') : Tidy room' := by
  obtain hc | ⟨room₁, hc, rfl⟩ := h
  · exact hc.tidy
  · exact hc.tidy.advance

theorem Carries.stopped (h : Carries room room') (h' : Stopped env room' room'') :
    Stopped env room room'' := by
  obtain hc | ⟨room₁, hc, rfl⟩ := h'
  · exact Or.inl (h.trans hc)
  · exact Or.inr ⟨room₁, h.trans hc, rfl⟩

theorem Recomputed.stopped (h : Recomputed env room room') : Stopped env room room' := h.imp_left And.left

theorem Recomputed.tidy (h : Recomputed env room room') : Tidy room' := h.stopped.tidy

/-- An own entry is new to the DAG: its number is the length of the log. -/
theorem Tidy.not_mem_next (h : Tidy room) :
    (⟨room.localKey, room.localCore.len⟩ : NodeId K) ∉ room.lin.deps :=
  fun hmem => absurd (h.delivered _ hmem rfl) (lt_irrefl _)

theorem Tidy.carries_own (h : Tidy room) (hlen : core.len = room.localCore.len + 1) (op : Block) :
    Carries room (room.withOwn core op) := by
  have hgrown : room.toDag.Among fun n => n.key = room.localKey → n.seq < core.len :=
    Dag.Among.mono h fun n hn hkey => (hn hkey).trans_le (by omega)
  obtain ⟨hamong, hext⟩ := hgrown.insert (n := ⟨room.localKey, room.localCore.len⟩)
    (fun _ => by rw [hlen]; exact Nat.lt_succ_self _) h.not_mem_next room.lin.heads.toList op
  exact ⟨hamong, hext, rfl, rfl, rfl, rfl, rfl, rfl⟩

variable (env) in
/-- `room'` is `room` after appending `op`: the own entry before it was delivered, the log is
one longer, and the new entry was delivered on the heads. -/
def Extends (op : Block) (room room' : Room K H Sig SK S F P) : Prop :=
  (0 < room.localCore.len → ⟨room.localKey, room.localCore.len - 1⟩ ∈ room.lin.deps) ∧
    ∃ core, core.len = room.localCore.len + 1 ∧ room' = (room.withOwn core op).touch.advance env

theorem Extends.recomputed {op : Block} (h : Extends env op room room') (htidy : Tidy room) :
    Recomputed env room room' := by
  obtain ⟨-, core, hlen, rfl⟩ := h
  exact Or.inr ⟨_, (htidy.carries_own hlen op).touch, rfl⟩

theorem ends_localAppend (h : Tidy room) (op : Block) :
    Ends (localAppend env op) room (fun _ room' => Extends env op room room')
      fun _ room' => Stopped env room room' := by
  refine (ends_localAppend_of op (A := fun core => core.len = room.localCore.len + 1)
    (fun _ => ⟨Or.inl h.carries, Or.inl h.carries⟩) (fun _ => ?_) fun core _ hlen _ => ?_).mono
    (fun _ room' h' => ?_)
    fun _ _ h' => h'
  · refine (Hypercore.tree_append _ _).mono (fun _ core hsigned => ?_) fun _ core hsame =>
      Or.inl (h.carries_core hsame.len.ge)
    exact Hypercore.tree_persist.mono (fun _ core' hsame => hsame.len.trans hsigned.len) fun _ core' hsame =>
      Or.inl (h.carries_core (by rw [hsame.len, hsigned.len]; exact Nat.le_succ _))
  · exact Or.inr ⟨_, (h.carries_own hlen op).touch, rfl⟩
  · obtain ⟨hready, core, hlen, -, rfl⟩ := h'
    exact ⟨fun hpos => by_contra fun hmiss => hready (Or.inr ⟨hpos, hmiss⟩), core, hlen, rfl⟩

theorem ends_checkpoint (h : Tidy room) :
    Ends (checkpoint env) room (fun _ room' => Recomputed env room room')
      fun _ room' => Stopped env room room' :=
  ends_checkpoint_of (fun _ => (ends_localAppend h []).mono (fun _ _ h' => h'.recomputed h) fun _ _ h' => h')
    fun _ => Or.inl ⟨h.carries, rfl, rfl⟩

section Calls

variable [DecidableEq H]

theorem ends_completeOwnRecovery (h : Tidy room) (target : SignedHead H Sig) (suffix : List Block) :
    Ends (completeOwnRecovery env target suffix) room
      (fun _ room' => ∃ room₁, Carries room room₁ ∧ room' = room₁.advance env)
      fun _ room' => Stopped env room room' := by
  have hadopted : ∀ {core d}, room.localCore.len ≤ core.len →
      Dag.Moves (fun n _ => Logged { room with localCore := core } n) room.toDag d →
      Carries room (room.withAdopted core d) := fun {core _} hlen hmoves =>
    have hcore := (h.carries_core hlen).trans ((h.carries_core hlen).tidy.carries_recovery none)
    hcore.trans (hcore.tidy.carries_dag hmoves)
  refine (ends_completeOwnRecovery_of (fun core n _ => Logged { room with localCore := core } n)
    (A := fun core => room.localCore.len ≤ core.len) ?_ (fun core hlen i hi _ _ _ => ?_)
    fun core d _ hlen hmoves _ => Or.inl (hadopted hlen hmoves)).mono (fun _ room' h' => ?_) fun _ _ h' => h'
  · exact (Hypercore.tree_recoverSignedSuffix _ target suffix).mono (fun _ _ hrec => hrec.len_le)
      fun _ _ hsame => Or.inl (h.carries_core hsame.len.ge)
  · have := (List.mem_range'_1.mp hi).2
    show i < core.len
    omega
  · obtain ⟨core, d, hlen, hmoves, -, rfl⟩ := h'
    have hoff := hadopted hlen hmoves
    exact ⟨_, (hoff.trans (hoff.tidy.carries_dag (Dag.moves_drainPending _))).touch, rfl⟩

variable [DecidableEq Sig]

theorem ends_recoverOwnBlock (h : Tidy room) (head : SignedHead H Sig) (index : ℕ) (bytes : Block)
    (proof : Merkle.Proof H) :
    Ends (recoverOwnBlock env head index bytes proof) room (fun _ room' => Recomputed env room room')
      fun _ room' => Stopped env room room' := by
  have hrec := h.carries_recovery
  have hstop : Stopped env room room := Or.inl h.carries
  refine ends_recoverOwnBlock_of (fun _ => Or.inl ⟨h.carries, rfl, rfl⟩) (fun _ => hstop) fun _ _ => ?_
  refine (ends_beginOwnRecovery head).mono (fun _ room₁ h₁ => ?_) fun _ _ h₁ => h₁ ▸ hstop
  obtain ⟨r, rfl⟩ := h₁
  refine ⟨Or.inl ⟨hrec r, rfl, rfl⟩, fun _ => Or.inl (hrec r), fun target blocks _ =>
    ⟨Or.inl ⟨hrec _, rfl, rfl⟩, fun suffix => ?_⟩⟩
  refine (ends_completeOwnRecovery (hrec _).tidy _ _).mono (fun _ room' h' => ?_) fun _ _ h' =>
    (hrec _).stopped h'
  obtain ⟨room₂, h₂, rfl⟩ := h'
  exact Or.inr ⟨room₂, (hrec _).trans h₂, rfl⟩

theorem ends_onInbound (h : Tidy room) (peer : K) (msg : SyncMessage K H Sig) :
    Ends (onInbound env peer msg) room (fun _ room' => Recomputed env room room')
      fun _ room' => Stopped env room room' := by
  have hstop : Stopped env room room := Or.inl h.carries
  refine ends_onInbound_of peer (fun _ _ => Or.inl ⟨h.carries, rfl, rfl⟩) (fun _ => hstop) (fun head _ => ?_)
    (fun head i bytes proof _ => ends_recoverOwnBlock h head i bytes proof)
    fun w head i bytes proof _ hw => ?_
  · refine (ends_checkOwnHead head).mono (fun _ room' h' => ?_) fun _ _ h' => h' ▸ hstop
    obtain ⟨r, rfl⟩ := h'
    exact Or.inl ⟨h.carries_recovery r, rfl, rfl⟩
  · refine (ends_ingestRemoteBlock_of w head i bytes proof).mono (fun accepted room' h' => ?_)
      fun _ room' h' => ?_
    · cases accepted with
      | false =>
        obtain ⟨remotes, factory, rfl⟩ := h'
        exact Or.inl ⟨h.carries_remotes remotes factory, rfl, rfl⟩
      | true =>
        -- the block is not an own one
        obtain ⟨_, e, ⟨remotes, factory, rfl⟩, -, rfl⟩ := h'
        have hremotes := h.carries_remotes remotes factory
        have hadd := hremotes.trans (hremotes.tidy.carries_dag
          (Dag.moves_tryAddNode (n := ⟨w, i⟩) (e := e) fun hkey => absurd hkey hw))
        exact Or.inr ⟨_, hadd.touch.trans (hadd.touch.tidy.carries_dag (Dag.moves_drainPending _)), rfl⟩
    · obtain ⟨remotes, factory, rfl⟩ := h'
      exact Or.inl (h.carries_remotes remotes factory)

theorem ends_perform (h : Tidy room) (c : Call K H Sig) :
    Ends (perform env c) room (fun _ room' => Recomputed env room room')
      fun _ room' => Stopped env room room' := by
  cases c with
  | inbound peer msg => exact ends_onInbound h peer msg
  | append op => exact (ends_localAppend h op).mono (fun _ _ h' => h'.recomputed h) fun _ _ h' => h'
  | checkpoint => exact ends_checkpoint h

/-- A call carries the folds along or recomputes them, whether it succeeds or fails. -/
theorem Tidy.stopped (h : Tidy room) (c : Call K H Sig) : Stopped env room (after (perform env c) room) :=
  (ends_perform h c).always (fun _ _ h' => h'.stopped) fun _ _ h' => h'

theorem Tidy.perform (h : Tidy room) (c : Call K H Sig) :
    Tidy (after (perform env c) room) := (h.stopped c).tidy

end Calls

/-! ### One recomputation -/

variable {step : St → NodeId K → Block → St}

variable (env step) in
/-- The folds are those of the whole order, from `genesis` on. -/
structure Folded (genesis : P) (room : Room K H Sig SK S F P) : Prop where
  len : room.finalizedLen = room.lin.finalized.length
  finalized : env.projection.snapshot room.finalizedProj =
    foldState step room.payloads (env.projection.snapshot genesis) room.lin.finalized
  live : env.projection.snapshot room.liveProj = foldState step room.payloads
    (env.projection.snapshot room.finalizedProj) (room.order.drop room.finalizedLen)

variable (env step) in
/-- The finalized fold is that of the first nodes of the finalized order. -/
structure FoldedFront (genesis : P) (room : Room K H Sig SK S F P) : Prop where
  len : room.finalizedLen ≤ room.lin.finalized.length
  finalized : env.projection.snapshot room.finalizedProj = foldState step room.payloads
    (env.projection.snapshot genesis) (room.lin.finalized.take room.finalizedLen)

/-- The mutations a room hands out for the finalized nodes from number `k` on. -/
def mutations (room : Room K H Sig SK S F P) (k : ℕ) : List (Finalized K) :=
  (room.lin.finalized.drop k).mapIdx fun i n => ⟨n, room.payloads.getD n [], k + i + 1⟩

theorem snapshot_foldl (hproj : env.projection.Folds step) (room : Room K H Sig SK S F P) :
    ∀ (nodes : List (NodeId K)) (p : P), env.projection.snapshot (nodes.foldl (room.foldNode env) p) =
      foldState step room.payloads (env.projection.snapshot p) nodes
  | [], _ => rfl
  | n :: nodes, p => by
    rw [List.foldl_cons, snapshot_foldl hproj room nodes, foldNode, foldState, foldState, List.foldl_cons]
    split_ifs
    · rfl
    · rw [hproj.apply]

variable {genesis : P}

/-- What is newly finalized is folded and handed out. -/
theorem advanceFinalized_spec (hproj : env.projection.Folds step) (h : FoldedFront env step genesis room) :
    (room.advanceFinalized env).finalizedLen = room.lin.finalized.length ∧
      env.projection.snapshot (room.advanceFinalized env).finalizedProj =
        foldState step room.payloads (env.projection.snapshot genesis) room.lin.finalized ∧
      (room.advanceFinalized env).finalizedSincePoll =
        room.finalizedSincePoll ++ room.mutations room.finalizedLen := by
  unfold advanceFinalized
  dsimp only
  split_ifs with hmore
  · refine ⟨rfl, ?_, rfl⟩
    rw [snapshot_foldl hproj, h.finalized, ← foldState_append, List.take_append_drop]
  · have hlen : room.finalizedLen = room.lin.finalized.length := by
      have := h.len
      omega
    refine ⟨hlen, ?_, ?_⟩
    · rw [h.finalized, hlen, List.take_length]
    · rw [mutations, hlen, List.drop_length, List.mapIdx_nil, List.append_nil]

variable (env) in
theorem advanceFinalized_same (room : Room K H Sig SK S F P) :
    (room.advanceFinalized env).toDag = room.toDag ∧
      (room.advanceFinalized env).genesisProj = room.genesisProj := by
  unfold advanceFinalized
  dsimp only
  split_ifs <;> exact ⟨rfl, rfl⟩

/-- A recomputation folds the whole order and hands out what is new. -/
theorem FoldedFront.advance (hproj : env.projection.Folds step) (h : FoldedFront env step genesis room) :
    Folded env step genesis (room.advance env) ∧ (room.advance env).finalizedSincePoll =
      room.finalizedSincePoll ++ room.mutations room.finalizedLen := by
  obtain ⟨hlen, hfin, hqueue⟩ := advanceFinalized_spec hproj h
  obtain ⟨hdag, -⟩ := advanceFinalized_same env room
  have hlin : (room.advanceFinalized env).lin = room.lin := congrArg Dag.lin hdag
  have hpay : (room.advanceFinalized env).payloads = room.payloads := congrArg Dag.payloads hdag
  refine ⟨⟨?_, ?_, ?_⟩, hqueue⟩
  · show (room.advanceFinalized env).finalizedLen = (room.advanceFinalized env).lin.finalized.length
    rw [hlen, hlin]
  · show env.projection.snapshot (room.advanceFinalized env).finalizedProj = foldState step
      (room.advanceFinalized env).payloads _ (room.advanceFinalized env).lin.finalized
    rw [hfin, hlin, hpay]
  · unfold Room.advance
    dsimp only
    rw [snapshot_foldl hproj, hproj.reset]
    rfl

theorem genesisProj_advance (room : Room K H Sig SK S F P) :
    (room.advance env).genesisProj = room.genesisProj := (advanceFinalized_same env room).2

theorem lin_advance (room : Room K H Sig SK S F P) : (room.advance env).lin = room.lin :=
  congrArg Dag.lin (sameData_advance env room).dag

theorem mutations_advance (room : Room K H Sig SK S F P) (k : ℕ) :
    (room.advance env).mutations k = room.mutations k := by
  have hdag := (sameData_advance env room).dag
  rw [mutations, mutations, congrArg Dag.lin hdag, congrArg Dag.payloads hdag]

/-! ### One step of a run -/

/-- The payloads of the finalized nodes stay. -/
theorem Carries.payload_eq (h : Carries room room') (htidy : Tidy room) {n : NodeId K}
    (hn : n ∈ room.lin.finalized) : room'.payloads.getD n [] = room.payloads.getD n [] := by
  rw [ExtTreeMap.getD_eq_getD_getElem?, ExtTreeMap.getD_eq_getD_getElem?,
    h.extended.payloads n (htidy.built.finalized_sub n hn)]

/-- Before its recomputation a call leaves the fold of what was finalized before it. -/
theorem Folded.front (h : Folded env step genesis room) (htidy : Tidy room) (hcarries : Carries room room')
    (hgrow : room.lin.finalized <+: room'.lin.finalized) :
    FoldedFront env step genesis room' := by
  have hlen : room'.finalizedLen = room.lin.finalized.length := hcarries.finalizedLen.trans h.len
  refine ⟨hlen ▸ hgrow.length_le, ?_⟩
  rw [hlen, ← List.prefix_iff_eq_take.mp hgrow, hcarries.finalizedProj, h.finalized]
  exact (foldState_congr step _ fun n hn => hcarries.payload_eq htidy hn).symm

/-- The mutations from `k` on, once the finalized order has grown. -/
theorem mutations_grown {k : ℕ} (htidy : Tidy room) (hcarries : Carries room room')
    (hgrow : room.lin.finalized <+: room'.lin.finalized) (hk : k ≤ room.lin.finalized.length) :
    room'.mutations k = room.mutations k ++ room'.mutations room.lin.finalized.length := by
  obtain ⟨more, hmore⟩ := hgrow
  rw [mutations, mutations, mutations, ← hmore, List.drop_append_of_le_length hk, List.mapIdx_append,
    List.drop_append_of_le_length le_rfl, List.drop_length, List.nil_append, List.length_drop]
  congr 1
  · refine List.mapIdx_eq_mapIdx_iff.mpr fun i hi => ?_
    have hmem : (room.lin.finalized.drop k)[i] ∈ room.lin.finalized :=
      List.mem_of_mem_drop (List.getElem_mem hi)
    rw [hcarries.payload_eq htidy hmem]
  · refine List.mapIdx_eq_mapIdx_iff.mpr fun i hi => ?_
    rw [Finalized.mk.injEq]
    exact ⟨rfl, rfl, by omega⟩

variable (env step) in
/-- The law: the folds are those of the order, and unless the room was reconfigured what was
handed out and what is queued are the finalized nodes from number `k` on. -/
structure Lawful (genesis : P) (k : ℕ) (room : Room K H Sig SK S F P) (drained : List (Finalized K))
    (reconfigured : Bool) : Prop where
  tidy : Tidy room
  genesisProj : room.genesisProj = genesis
  folded : Folded env step genesis room
  handed : reconfigured = false → k ≤ room.lin.finalized.length ∧
    drained ++ room.finalizedSincePoll = room.mutations k

section Steps

variable {genesis : P} {k : ℕ} {drained : List (Finalized K)} {reconfigured : Bool}

theorem Lawful.recomputed (hproj : env.projection.Folds step)
    (h : Lawful env step genesis k room drained reconfigured) (hrec : Recomputed env room room')
    (hgrow : room.lin.finalized <+: room'.lin.finalized) :
    Lawful env step genesis k room' drained reconfigured := by
  obtain ⟨hc, hlin, hpay⟩ | ⟨room₁, hc, rfl⟩ := hrec
  · refine ⟨hc.tidy, hc.genesisProj.trans h.genesisProj, ⟨?_, ?_, ?_⟩, fun hr => ?_⟩
    · rw [hc.finalizedLen, hlin, h.folded.len]
    · rw [hc.finalizedProj, hlin, hpay, h.folded.finalized]
    · rw [hc.liveProj, hc.finalizedProj, hc.finalizedLen, hpay, order, hlin]
      exact h.folded.live
    · rw [hc.finalizedSincePoll, mutations, hlin, hpay]
      exact h.handed hr
  · rw [lin_advance] at hgrow
    obtain ⟨hfolded, hqueue⟩ := (h.folded.front h.tidy hc hgrow).advance hproj
    refine ⟨hc.tidy.advance, ?_, hfolded, fun hr => ?_⟩
    · rw [genesisProj_advance, hc.genesisProj, h.genesisProj]
    · obtain ⟨hk, hhanded⟩ := h.handed hr
      refine ⟨by rw [lin_advance]; exact hk.trans hgrow.length_le, ?_⟩
      rw [hqueue, mutations_advance, mutations_grown h.tidy hc hgrow hk, ← hhanded, hc.finalizedSincePoll,
        hc.finalizedLen, h.folded.len, List.append_assoc]

theorem Lawful.poll (h : Lawful env step genesis k room drained reconfigured) :
    Lawful env step genesis k { room with finalizedSincePoll := [] } (drained ++ room.finalizedSincePoll)
      reconfigured where
  tidy := h.tidy
  genesisProj := h.genesisProj
  folded := ⟨h.folded.len, h.folded.finalized, h.folded.live⟩
  handed hr := by
    obtain ⟨hk, hhanded⟩ := h.handed hr
    exact ⟨hk, (List.append_nil _).trans hhanded⟩

/-- Two orders agree up to their agreement. -/
theorem take_agreement : ∀ before after : List (NodeId K),
    agreement before after ≤ after.length ∧ agreement before after ≤ before.length ∧
      after.take (agreement before after) = before.take (agreement before after)
  | [], after => ⟨Nat.zero_le _, le_rfl, rfl⟩
  | a :: before, [] => ⟨le_rfl, Nat.zero_le _, rfl⟩
  | a :: before, b :: after => by
    obtain ⟨hafter, hbefore, htake⟩ := take_agreement before after
    unfold agreement at hafter hbefore htake ⊢
    rw [List.zip_cons_cons, List.takeWhile_cons]
    by_cases hab : a = b
    · subst hab
      rw [decide_eq_true rfl, if_pos rfl, List.length_cons, List.take_succ_cons, List.take_succ_cons, htake]
      exact ⟨Nat.succ_le_succ hafter, Nat.succ_le_succ hbefore, rfl⟩
    · rw [decide_eq_false hab, if_neg Bool.false_ne_true]
      exact ⟨Nat.zero_le _, Nat.zero_le _, rfl⟩

variable {through : ℕ} {indexers : List K}

/-- Up to what still stands the finalized fold is that of the new order. -/
theorem Lawful.rollBack (hproj : env.projection.Folds step)
    (h : Lawful env step genesis k room drained reconfigured) (lin : Linearizer K) :
    FoldedFront env step genesis (room.rollBack env lin) := by
  obtain ⟨hafter, hbefore, htake⟩ := take_agreement room.lin.finalized lin.finalized
  have hlen := h.folded.len
  unfold Room.rollBack
  dsimp only
  split_ifs with hdropped
  · refine ⟨hafter, ?_⟩
    dsimp only
    rw [snapshot_foldl hproj, h.genesisProj]
  · have hall : agreement room.lin.finalized lin.finalized = room.finalizedLen := by omega
    rw [hall, hlen, List.take_length] at htake
    refine ⟨hall ▸ hafter, ?_⟩
    dsimp only
    rw [hlen, htake, h.folded.finalized]

variable (env) in
theorem genesisProj_rollBack (room : Room K H Sig SK S F P) (lin : Linearizer K) :
    (room.rollBack env lin).genesisProj = room.genesisProj := by
  unfold Room.rollBack
  dsimp only
  split_ifs <;> rfl

/-- A room under reconfigured indexers has the nodes it had. -/
theorem Tidy.rollBack (h : Tidy room) {lin : Linearizer K}
    (hlin : room.lin.reconfigure through indexers = (lin, .ok ())) : Tidy (room.rollBack env lin) := by
  obtain ⟨hkey, hcore, -, hdag⟩ := sameData_rollBack env room lin
  have hbuilt : Linearizer.Built lin := by
    have hb := h.built.reconfigure through indexers
    rwa [hlin] at hb
  rw [Tidy, hdag]
  refine ⟨hbuilt, fun n hn => ?_, fun p hp => ?_⟩
  · rw [Logged, hkey, hcore]
    exact h.delivered n (Linearizer.deps_reconfigure hlin ▸ hn)
  · rw [Logged, hkey, hcore]
    exact h.waiting p hp

theorem Lawful.reconfigure (hproj : env.projection.Folds step)
    (h : Lawful env step genesis k room drained reconfigured) (through : ℕ) (indexers : List K) :
    Ends (Room.reconfigure env through indexers) room
      (fun _ room' => Lawful env step genesis k room' drained true) fun _ _ => True := by
  refine (ends_reconfigure through indexers room).mono (fun _ room' h' => ?_) fun _ _ _ => trivial
  obtain ⟨lin, hlin, rfl⟩ := h'
  obtain ⟨hfolded, -⟩ := (h.rollBack hproj lin).advance hproj
  exact ⟨(h.tidy.rollBack hlin).advance,
    by rw [genesisProj_advance, genesisProj_rollBack, h.genesisProj], hfolded, fun hf => nomatch hf⟩

end Steps

/-! ### Opening -/

theorem ends_replay (h : Tidy room) (hremotes : ∀ w r, room.remotes[w]? = some r → w ≠ room.localKey) :
    Ends (replay env) room (fun _ room' => ∃ room₁, Carries room room₁ ∧
      room' = { room₁.advance env with finalizedSincePoll := [] }) fun _ _ => True := by
  refine (ends_replay_of (fun n _ => room.Logged n) (fun i e he _ => Hypercore.lt_of_get he)
    fun w r hr _ _ _ hkey =>
    absurd hkey (hremotes w r hr)).mono (fun _ room' h' => ?_) fun _ _ _ => trivial
  obtain ⟨_, d, rfl, hmoves, -⟩ := h'
  have hoff := h.carries_dag hmoves
  exact ⟨_, hoff.trans (hoff.tidy.carries_dag (Dag.moves_drainPending _)), rfl⟩

variable (env) in
/-- The linearizer a room starts from has no nodes. -/
theorem tidy_fresh (cfg : RoomConfig K SK) (core : Hypercore H Sig SK S) (f : F) (p : P) :
    Tidy (fresh env cfg core f p) := by
  unfold Tidy fresh
  split_ifs
  · exact ⟨.new, fun n hn => absurd hn (by simp [Linearizer.new]), fun _ hp => absurd hp List.not_mem_nil⟩
  · exact ⟨.withIndexers _, fun n hn => absurd hn (by simp [Linearizer.withIndexers, Linearizer.new]),
      fun _ hp => absurd hp List.not_mem_nil⟩

variable [DecidableEq H] {cfg : RoomConfig K SK} {f : F} {p : P}

/-- An opened room has replayed its logs and recomputed its folds. -/
theorem openRoom_replayed (hopen : openRoom env cfg f p = .ok room) :
    ∃ core f' room₁, Carries (fresh env cfg core f' p) room₁ ∧
      room = { room₁.advance env with finalizedSincePoll := [] } := by
  obtain ⟨core, f', base, hlocal, hremotes, hreplay⟩ := openRoom_eq_ok hopen
  have hbase := ((within_openRemotes _ (unreplayed_fresh hlocal)).ok hremotes).2
  obtain ⟨remotes, factory, rfl⟩ := openRemotes_ok hremotes
  have hfresh := (tidy_fresh env cfg core f' p).carries_remotes remotes factory
  obtain ⟨room₁, hc, rfl⟩ := (ends_replay hfresh.tidy fun w r hr => (hbase.remotes w r hr).1).ok hreplay
  exact ⟨core, f', room₁, hfresh.trans hc, rfl⟩

theorem tidy_openRoom (hopen : openRoom env cfg f p = .ok room) : Tidy room := by
  obtain ⟨core, f', room₁, hc, rfl⟩ := openRoom_replayed hopen
  exact hc.tidy.advance

/-- An opened room has folded all that is finalized, and handed out nothing. -/
theorem lawful_openRoom (hproj : env.projection.Folds step) (hopen : openRoom env cfg f p = .ok room) :
    Lawful env step p room.finalizedLen room [] false := by
  obtain ⟨core, f', room₁, hc, rfl⟩ := openRoom_replayed hopen
  have hfront : FoldedFront env step p room₁ := by
    refine ⟨hc.finalizedLen ▸ Nat.zero_le _, ?_⟩
    rw [hc.finalizedLen, hc.finalizedProj]
    rfl
  obtain ⟨hfolded, -⟩ := hfront.advance hproj
  refine ⟨hc.tidy.advance, ?_, ⟨hfolded.len, hfolded.finalized, hfolded.live⟩, fun _ => ⟨?_, ?_⟩⟩
  · show (room₁.advance env).genesisProj = p
    rw [genesisProj_advance, hc.genesisProj]
    rfl
  · exact hfolded.len.le
  · show [] = (room₁.advance env).mutations (room₁.advance env).finalizedLen
    rw [mutations, hfolded.len, List.drop_length, List.mapIdx_nil]

/-! ### Runs -/

variable [DecidableEq Sig]

variable (env) in
/-- The rooms reached from `room₀` by successful calls and reconfigurations, with the
mutations polled so far and whether there was a reconfiguration. The calls only extend the
finalized order. -/
inductive FoldRun (room₀ : Room K H Sig SK S F P) :
    Room K H Sig SK S F P → List (Finalized K) → Bool → Prop
  | start : FoldRun room₀ room₀ [] false
  | call {room room' : Room K H Sig SK S F P} {drained : List (Finalized K)} {reconfigured : Bool}
      {c : Call K H Sig} {out : List (Outbound K H Sig)} : FoldRun room₀ room drained reconfigured →
      perform env c room = .ok out room' → room.lin.finalized <+: room'.lin.finalized →
      FoldRun room₀ room' drained reconfigured
  | reconfigure {room room' : Room K H Sig SK S F P} {drained : List (Finalized K)} {reconfigured : Bool}
      {through : ℕ} {indexers : List K} {r : Reconfigured} : FoldRun room₀ room drained reconfigured →
      Room.reconfigure env through indexers room = .ok r room' → FoldRun room₀ room' drained true
  | poll {room room' : Room K H Sig SK S F P} {drained polled : List (Finalized K)} {reconfigured : Bool} :
      FoldRun room₀ room drained reconfigured → pollFinalized room = (polled, room') →
      FoldRun room₀ room' (drained ++ polled) reconfigured

theorem FoldRun.lawful (hproj : env.projection.Folds step) (hopen : openRoom env cfg f p = .ok room₀)
    {drained : List (Finalized K)} {reconfigured : Bool} (h : FoldRun env room₀ room drained reconfigured) :
    Lawful env step p room₀.finalizedLen room drained reconfigured := by
  induction h with
  | start => exact lawful_openRoom hproj hopen
  | call _ hcall hgrow ih => exact ih.recomputed hproj ((ends_perform ih.tidy _).ok hcall) hgrow
  | reconfigure _ hcall ih => exact (ih.reconfigure hproj _ _).ok hcall
  | poll _ hpoll ih =>
    cases hpoll
    exact ih.poll

/-- **The folds of a room are those of its order.** In every run the finalized length is that
of the finalized order, the finalized state is the fold of exactly these nodes from the state
the room was opened with, and the live state goes on with the rest of the order. Until the
first reconfiguration, what was polled and what is queued are the finalized nodes gained since
the room was opened, with consecutive versions. -/
theorem fold_law (hproj : env.projection.Folds step) {cfg : RoomConfig K SK} {f : F} {p : P}
    (hopen : openRoom env cfg f p = .ok room₀) {drained : List (Finalized K)} {reconfigured : Bool}
    (h : FoldRun env room₀ room drained reconfigured) :
    room.finalizedLen = room.lin.finalized.length ∧
      env.projection.snapshot room.finalizedProj =
        foldState step room.payloads (env.projection.snapshot p) room.lin.finalized ∧
      env.projection.snapshot room.liveProj = foldState step room.payloads
        (env.projection.snapshot room.finalizedProj) (room.order.drop room.lin.finalized.length) ∧
      (reconfigured = false → drained ++ room.finalizedSincePoll =
        (room.lin.finalized.drop room₀.lin.finalized.length).mapIdx fun i n =>
          ⟨n, room.payloads.getD n [], room₀.lin.finalized.length + i + 1⟩) := by
  have hlaw := h.lawful hproj hopen
  have hstart := (lawful_openRoom hproj hopen).folded.len
  refine ⟨hlaw.folded.len, hlaw.folded.finalized, ?_, fun hr => ?_⟩
  · rw [← hlaw.folded.len]
    exact hlaw.folded.live
  · rw [← hstart]
    exact (hlaw.handed hr).2

/-! ### A domain that lists its ops -/

abbrev LoggingRoom : Type := Room WriterKey Digest (WriterKey × HeadMessage Digest) ℕ
  (MemoryStore Digest (WriterKey × HeadMessage Digest)) Unit (List Block)

/-- Rooms in memory whose state is the list of the ops folded. -/
def logging : Env WriterKey Digest (WriterKey × HeadMessage Digest) ℕ
    (MemoryStore Digest (WriterKey × HeadMessage Digest)) Empty Unit (List Block) (List Block) where
  crypto := inMemory.crypto
  backend := inMemory.backend
  codec := inMemory.codec
  factory := inMemory.factory
  projection := ⟨fun log _ op => log ++ [op], id, fun _ log => log⟩

theorem logging_folds : logging.projection.Folds fun log _ op => log ++ [op] :=
  ⟨fun _ _ _ => rfl, fun _ _ => rfl⟩

/-- The room after a successful command. -/
def okRoom {ε α : Type} : EStateM.Result ε LoggingRoom α → Option LoggingRoom
  | .ok _ room => some room
  | .error _ _ => none

theorem okRoom_eq_some {ε α : Type} {r : EStateM.Result ε LoggingRoom α} {room : LoggingRoom}
    (h : okRoom r = some room) : ∃ a, r = .ok a room := by
  cases r with
  | ok a s => exact ⟨a, by rw [Option.some.inj h]⟩
  | error e s => cases h

/-- The room after one op, after a poll and another op, and after its indexers are replaced
behind the first op. -/
def loggedRooms (room₀ : LoggingRoom) : Option (LoggingRoom × LoggingRoom × LoggingRoom) := do
  let room₁ ← okRoom (perform logging (.append [1]) room₀)
  let room₂ ← okRoom (perform logging (.append [2]) (pollFinalized room₁).2)
  let room₃ ← okRoom (reconfigure logging 1 [5] room₂)
  return (room₁, room₂, room₃)

theorem loggedRooms_run {room₀ room₁ room₂ room₃ : LoggingRoom}
    (h : loggedRooms room₀ = some (room₁, room₂, room₃))
    (hgrow₁ : room₀.lin.finalized <+: room₁.lin.finalized)
    (hgrow₂ : room₁.lin.finalized <+: room₂.lin.finalized) :
    FoldRun logging room₀ room₃ ([] ++ room₁.finalizedSincePoll) true := by
  unfold loggedRooms at h
  obtain ⟨r₁, hfirst, h⟩ := Option.bind_eq_some_iff.mp h
  obtain ⟨r₂, hsecond, h⟩ := Option.bind_eq_some_iff.mp h
  obtain ⟨r₃, hthird, h⟩ := Option.bind_eq_some_iff.mp h
  cases h
  obtain ⟨_, hfirst⟩ := okRoom_eq_some hfirst
  obtain ⟨_, hsecond⟩ := okRoom_eq_some hsecond
  obtain ⟨_, hthird⟩ := okRoom_eq_some hthird
  exact (((FoldRun.start.call hfirst hgrow₁).poll rfl).call hsecond hgrow₂).reconfigure hthird

/-- A room of its only indexer: once it is replaced, the second op is live but finalized no
more. -/
theorem fold_law_logged : ∃ room₀ room drained, openRoom logging ⟨0, [0], .original⟩ () [] = .ok room₀ ∧
    FoldRun logging room₀ room drained true ∧ room.lin.finalized = [⟨0, 0⟩] ∧
    room.order = [⟨0, 0⟩, ⟨0, 1⟩] ∧ room.finalizedProj = [[1]] ∧ room.liveProj = [[1], [2]] := by
  have hcheck : ((openRoom logging ⟨0, [0], .original⟩ () []).toOption.any fun room₀ =>
      (loggedRooms room₀).any fun p =>
        decide (room₀.lin.finalized <+: p.1.lin.finalized ∧ p.1.lin.finalized <+: p.2.1.lin.finalized ∧
          p.2.2.lin.finalized = [⟨0, 0⟩] ∧ p.2.2.order = [⟨0, 0⟩, ⟨0, 1⟩] ∧
          p.2.2.payloads.getD ⟨0, 0⟩ [] = [1] ∧ p.2.2.payloads.getD ⟨0, 1⟩ [] = [2])) = true := by
    decide +kernel
  obtain ⟨room₀, hopen, hcheck⟩ := exists_of_any hcheck
  obtain ⟨⟨room₁, room₂, room₃⟩, hrooms, hcheck⟩ := (Option.any_eq_true _ _).mp hcheck
  obtain ⟨hgrow₁, hgrow₂, hfin, horder, hpay₀, hpay₁⟩ := of_decide_eq_true hcheck
  have hrun := loggedRooms_run hrooms hgrow₁ hgrow₂
  obtain ⟨-, hfinal, hlive, -⟩ := fold_law logging_folds hopen hrun
  rw [hfin, foldState, List.foldl_cons, List.foldl_nil, hpay₀] at hfinal
  rw [hfin, horder, hfinal] at hlive
  refine ⟨room₀, room₃, _, hopen, hrun, hfin, horder, hfinal, hlive.trans ?_⟩
  show foldState _ _ _ [⟨0, 1⟩] = _
  rw [foldState, List.foldl_cons, List.foldl_nil, hpay₁]
  rfl

end Room
end HypercoreRs
