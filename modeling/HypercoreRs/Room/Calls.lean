/-
# How the calls of a room end

One rule for each operation of a room: from how the commands it is made of end, how the
operation ends. The rules do not know what is to be shown, so an invariant of a room is carried
over the calls by giving them its own conditions, and no other proof looks into the operations.

Opening a room is inverted in the same way (`openLocal_cases`, `openRoom_eq_ok`), and so is the
replay of its logs: what it offers to the DAG, and that it read every entry (`ends_replay_of`).
-/
import HypercoreRs.Room.Room

namespace HypercoreRs

open Std Merkle Command

namespace Room

variable {K H Sig SK S E F P St : Type} [LinearOrder K]
variable {env : Env K H Sig SK S E F P St} {room : Room K H Sig SK S F P}
variable {Q : Room K H Sig SK S F P → Prop} {stops : RoomError E → Room K H Sig SK S F P → Prop}

/-- The logs and the DAG are the same. -/
structure SameData (room room' : Room K H Sig SK S F P) : Prop where
  localKey : room'.localKey = room.localKey
  localCore : room'.localCore = room.localCore
  remotes : room'.remotes = room.remotes
  dag : room'.toDag = room.toDag

variable (env) in
theorem sameData_advance (room : Room K H Sig SK S F P) : SameData room (room.advance env) := by
  unfold advance advanceFinalized
  dsimp only
  split_ifs
  · exact ⟨rfl, rfl, rfl, rfl⟩
  · exact ⟨rfl, rfl, rfl, rfl⟩

variable (env) in
/-- Rolling back to another linearizer changes only what is folded. -/
theorem sameData_rollBack (room : Room K H Sig SK S F P) (lin : Linearizer K) :
    SameData { room with lin } (room.rollBack env lin) := by
  unfold rollBack
  dsimp only
  split_ifs
  · exact ⟨rfl, rfl, rfl, rfl⟩
  · exact ⟨rfl, rfl, rfl, rfl⟩

/-- A reconfiguration that fails changes nothing. -/
theorem ends_reconfigure (through : ℕ) (indexers : List K) (room : Room K H Sig SK S F P) :
    Ends (reconfigure env through indexers) room (fun _ room' => ∃ lin,
      room.lin.reconfigure through indexers = (lin, .ok ()) ∧ room' = (room.rollBack env lin).advance env)
      fun _ room' => room' = room := by
  unfold reconfigure
  apply Ends.get
  split
  · exact Ends.throw rfl
  · rename_i lin hlin
    exact Ends.assign (Ends.pure ⟨lin, hlin, rfl⟩)

variable (env) in
theorem sameData_touch_advance (room : Room K H Sig SK S F P) :
    SameData room (room.touch.advance env) := by
  have h := sameData_advance env room.touch
  exact ⟨h.localKey, h.localCore, h.remotes, h.dag⟩

variable (env) in
theorem sameData_polled (room : Room K H Sig SK S F P) :
    SameData room { room.advance env with finalizedSincePoll := [] } := by
  have h := sameData_advance env room
  exact ⟨h.localKey, h.localCore, h.remotes, h.dag⟩

/-! ### Appending -/

/-- The room refuses to append: its feed is being recovered, or its last entry is not delivered. -/
def Refuses (room : Room K H Sig SK S F P) : Prop :=
  room.ownRecovery.isSome = true ∨
    0 < room.localCore.len ∧ ⟨room.localKey, room.localCore.len - 1⟩ ∉ room.lin.deps

/-- The room with the local log `core` and the entry just appended to it delivered. -/
def withOwn (room : Room K H Sig SK S F P) (core : Hypercore H Sig SK S) (op : Block) :
    Room K H Sig SK S F P :=
  { room with
    localCore := core
    lin := (room.lin.add ⟨room.localKey, room.localCore.len⟩ room.lin.heads.toList).1
    payloads := room.payloads.insert ⟨room.localKey, room.localCore.len⟩ op }

variable (env) in
/-- What an append that left the log `core` sends: the new head, and the new block with its proof. -/
def Replies (room : Room K H Sig SK S F P) (core : Hypercore H Sig SK S)
    (out : List (Outbound K H Sig)) : Prop :=
  ∃ head bytes proof, core.head = some head ∧ core.block env.backend room.localCore.len = .ok (some bytes) ∧
    core.proof room.localCore.len = some proof ∧
    out = [⟨.head room.localKey head, .gossip⟩,
      ⟨.block room.localKey head room.localCore.len bytes proof, .clients⟩]

/-- An append is refused, or it writes its entry and the log, delivers the entry, and reads back
what it sends. -/
theorem ends_localAppend_of (op : Block) {A : Hypercore H Sig SK S → Prop}
    (hrefuses : Refuses room → stops .recoveringOwnFeed room ∧ stops .ownFeedPending room)
    (hwrites : ¬ Refuses room →
      Ends (Hypercore.append env.crypto env.backend env.codec ⟨room.lin.heads.toList, op⟩) room.localCore
        (fun _ core => Ends (Hypercore.persist env.backend) core (fun _ core' => A core')
          fun e core' => stops (.hypercore e) { room with localCore := core' })
        fun e core => stops (.hypercore e) { room with localCore := core })
    (hmute : ∀ core e, A core → (∀ out, ¬ Replies env room core out) →
      stops e ((room.withOwn core op).touch.advance env)) :
    Ends (localAppend env op) room
      (fun out room' => ¬ Refuses room ∧ ∃ core, A core ∧ Replies env room core out ∧
      room' = (room.withOwn core op).touch.advance env) stops := by
  unfold localAppend
  apply Ends.get
  dsimp only
  split_ifs with hrec hmiss
  · exact Ends.throw (hrefuses (Or.inl hrec)).1
  · refine Ends.throw (hrefuses (Or.inr ⟨hmiss.1, fun hin => ?_⟩)).2
    rw [Linearizer.contains, ExtTreeMap.contains_iff_mem.mpr hin] at hmiss
    exact Bool.noConfusion hmiss.2
  · have hready : ¬ Refuses room := by
      rintro (hsome | ⟨hpos, hnot⟩)
      · exact hrec hsome
      · refine hmiss ⟨hpos, ?_⟩
        rw [Bool.not_eq_true', Linearizer.contains, ← Bool.not_eq_true, ExtTreeMap.contains_iff_mem]
        exact hnot
    refine Ends.focus (hwrites hready) (fun _ _ h => h) fun _ _ hpersist => ?_
    refine Ends.focus hpersist (fun _ _ h => h) fun _ core hcore => ?_
    apply Ends.update
    apply Ends.update
    change Ends _ ((room.withOwn core op).touch.advance env) _ _
    apply Ends.get
    have hsame := sameData_touch_advance env (room.withOwn core op)
    have hlocal : ((room.withOwn core op).touch.advance env).localCore = core := hsame.localCore
    have hkey : ((room.withOwn core op).touch.advance env).localKey = room.localKey := hsame.localKey
    rw [hlocal, hkey]
    cases hhead : core.head with
    | none =>
      refine Ends.throw (hmute core _ hcore ?_)
      rintro out ⟨_, _, _, h, -⟩
      cases hhead.symm.trans h
    | some head =>
      refine Ends.look (fun e he => hmute core _ hcore ?_) fun bytes? hbytes => ?_
      · rintro out ⟨_, _, _, -, h, -⟩
        cases he.symm.trans h
      · split
        · rename_i bytes proof hproof
          exact Ends.pure ⟨hready, core, hcore, ⟨head, bytes, proof, hhead, hbytes, hproof, rfl⟩, rfl⟩
        · rename_i hnone
          refine Ends.throw (hmute core _ hcore ?_)
          rintro out ⟨_, bytes, proof, -, h, h', -⟩
          exact hnone bytes proof (Except.ok.inj (hbytes.symm.trans h)) h'

variable (env) in
theorem checkpoint_eq (room : Room K H Sig SK S F P) :
    checkpoint env room = if room.needsCheckpoint then localAppend env [] room else .ok [] room := by
  show (if room.needsCheckpoint then localAppend env [] else return []) room = _
  split_ifs <;> rfl

theorem ends_checkpoint_of {Q : List (Outbound K H Sig) → Room K H Sig SK S F P → Prop}
    (happend : room.needsCheckpoint = true → Ends (localAppend env []) room Q stops)
    (hstay : room.needsCheckpoint = false → Q [] room) : Ends (checkpoint env) room Q stops := by
  unfold checkpoint
  apply Ends.get
  split_ifs with hneeds
  · exact happend hneeds
  · exact Ends.pure (hstay (Bool.eq_false_iff.mpr hneeds))

/-! ### Replicas -/

/-- The replicas and the stores may have changed, and nothing else. -/
def OnRemotes (room room' : Room K H Sig SK S F P) : Prop :=
  ∃ remotes factory, room' = { room with remotes, factory }

theorem ends_ensureReplica (w : K) : Ends (ensureReplica env w) room (fun _ room' => OnRemotes room room')
    fun _ room' => OnRemotes room room' := by
  unfold ensureReplica
  apply Ends.get
  split_ifs
  · exact Ends.pure ⟨_, _, rfl⟩
  · exact Ends.throw ⟨_, _, rfl⟩
  · exact Ends.focus (Ends.any _ _) (fun _ f _ => ⟨_, f, rfl⟩) fun _ _ _ => Ends.modify ⟨_, _, rfl⟩

variable {room₁ : Room K H Sig SK S F P}

theorem ends_onReplica {α : Type} (w : K) (x : EStateM (CoreError E) (Replica K H Sig S) α)
    (h : OnRemotes room room₁) :
    Ends (onReplica w x) room₁ (fun _ room' => OnRemotes room room') fun _ room' => OnRemotes room room' := by
  unfold onReplica
  apply Ends.get
  split
  · exact Ends.throw h
  · obtain ⟨remotes, factory, rfl⟩ := h
    exact Ends.zoom (Ends.any _ _) (fun _ _ _ => ⟨_, _, rfl⟩) fun _ _ _ => ⟨_, _, rfl⟩

/-- An accepted block is offered to the DAG. -/
theorem ends_ingestRemoteBlock_of [DecidableEq H] (w : K) (head : SignedHead H Sig) (index : ℕ)
    (bytes : Block) (proof : Merkle.Proof H) :
    Ends (ingestRemoteBlock env w head index bytes proof) room (fun accepted room' =>
      if accepted then ∃ room₁ e, OnRemotes room room₁ ∧ env.codec.decode bytes = .ok e ∧
        room' = (room₁.tryAddNode ⟨w, index⟩ e).touch
      else OnRemotes room room') fun _ room' => OnRemotes room room' := by
  unfold ingestRemoteBlock
  refine Ends.bind (ends_ensureReplica w) fun _ room₁ h₁ => ?_
  refine Ends.bind (ends_onReplica w _ h₁) fun accepted room₂ h₂ => ?_
  cases accepted with
  | false => exact Ends.pure h₂
  | true =>
    rw [if_neg (by simp)]
    refine Ends.bind (ends_onReplica w _ h₂) fun _ room₃ h₃ => ?_
    exact Ends.look (fun _ _ => h₃) fun e he => Ends.update (Ends.pure ⟨room₃, e, h₃, he, rfl⟩)

section Remotes

variable [DecidableEq H]

theorem ends_openRemote (w : K) (h : OnRemotes room room₁) :
    Ends (openRemote env w) room₁ (fun _ room' => OnRemotes room room') fun _ _ => True := by
  unfold openRemote
  apply Ends.get
  obtain ⟨remotes, factory, rfl⟩ := h
  split_ifs
  · exact Ends.pure ⟨_, _, rfl⟩
  · exact Ends.throw trivial
  · refine Ends.focus (Ends.any _ _) (fun _ _ _ => trivial) fun _ f _ => ?_
    split
    · exact Ends.modify ⟨_, _, rfl⟩
    · exact Ends.pure ⟨_, _, rfl⟩
    · exact Ends.throw trivial

theorem ends_openRemotes : ∀ (ws : List K) {room₁ : Room K H Sig SK S F P}, OnRemotes room room₁ →
    Ends (openRemotes env ws) room₁ (fun _ room' => OnRemotes room room') fun _ _ => True
  | [], _, h => Ends.pure h
  | w :: ws, _, h => Ends.bind (ends_openRemote w h) fun _ _ h' => ends_openRemotes ws h'

theorem openRemotes_ok {ws : List K} (h : openRemotes env ws room = .ok () room₁) : OnRemotes room room₁ :=
  (ends_openRemotes ws ⟨_, _, rfl⟩).ok h

end Remotes

/-! ### Offering entries to the DAG -/

/-- `d'` is `d` after the entries that `read` finds at `is` were offered as nodes of
`key`: it accounts for them and for all that `d` did. -/
def Offered (key : K) (read : ℕ → Except (CoreError E) (Option (Entry K))) (is : List ℕ)
    (d d' : Dag K) : Prop :=
  ∀ init held, Linearizer.Run [] init → Dag.Accounted init held d → is.Nodup →
    (∀ i ∈ is, ∀ e, ¬ held ⟨key, i⟩ e) →
    Dag.Accounted init (fun m e => held m e ∨ ∃ i ∈ is, m = ⟨key, i⟩ ∧ read i = .ok (some e)) d'

variable {key : K} {read : ℕ → Except (CoreError E) (Option (Entry K))} {i : ℕ} {is : List ℕ} {d d' : Dag K}

theorem Offered.skip (hread : read i = .ok none) (h : Offered key read is d d') :
    Offered key read (i :: is) d d' := by
  intro init held hinit hacc hnodup hfresh
  refine (h init held hinit hacc (List.nodup_cons.mp hnodup).2 fun j hj =>
    hfresh j (List.mem_cons_of_mem _ hj)).congr fun m e => or_congr_right ⟨?_, ?_⟩
  · rintro ⟨j, hj, hm⟩
    exact ⟨j, List.mem_cons_of_mem _ hj, hm⟩
  · rintro ⟨j, hj, rfl, hm⟩
    obtain rfl | hj := List.mem_cons.mp hj
    · rw [hread] at hm
      cases hm
    · exact ⟨j, hj, rfl, hm⟩

theorem Offered.cons {entry : Entry K} (hread : read i = .ok (some entry))
    (h : Offered key read is (d.tryAddNode ⟨key, i⟩ entry) d') : Offered key read (i :: is) d d' := by
  intro init held hinit hacc hnodup hfresh
  rw [List.nodup_cons] at hnodup
  have hoffer := hacc.offer (e := entry) hinit (hfresh i List.mem_cons_self)
  refine (h init _ hinit hoffer hnodup.2 fun j hj e he => ?_).congr fun m e => ?_
  · obtain he | ⟨heq, -⟩ := he
    · exact hfresh j (List.mem_cons_of_mem _ hj) e he
    · obtain rfl : j = i := congrArg NodeId.seq heq
      exact hnodup.1 hj
  · constructor
    · rintro ((he | ⟨rfl, rfl⟩) | ⟨j, hj, hm⟩)
      · exact Or.inl he
      · exact Or.inr ⟨i, List.mem_cons_self, rfl, hread⟩
      · exact Or.inr ⟨j, List.mem_cons_of_mem _ hj, hm⟩
    · rintro (he | ⟨j, hj, rfl, hm⟩)
      · exact Or.inl (Or.inl he)
      · obtain rfl | hj := List.mem_cons.mp hj
        · rw [hread] at hm
          exact Or.inl (Or.inr ⟨rfl, (Option.some.inj (Except.ok.inj hm)).symm⟩)
        · exact Or.inr ⟨j, hj, rfl, hm⟩

/-- Offering stops at the first entry that cannot be read. -/
theorem ends_offerEntries_of (held : NodeId K → Entry K → Prop) :
    ∀ (is : List ℕ) (room : Room K H Sig SK S F P),
    (∀ i ∈ is, ∀ e, read i = .ok (some e) → held ⟨key, i⟩ e) →
    Ends (offerEntries key read is) room
      (fun _ room' => ∃ d, room' = { room with toDag := d } ∧ Dag.Moves held room.toDag d ∧
        Offered key read is room.toDag d ∧ ∀ i ∈ is, ∃ e?, read i = .ok e?)
      fun _ room' => ∃ d, room' = { room with toDag := d } ∧ Dag.Moves held room.toDag d ∧
        ∃ i ∈ is, ∃ e, read i = .error e
  | [], room, _ => by
    refine Ends.pure ⟨room.toDag, rfl, .refl, fun init held _ hacc _ _ => hacc.congr fun m e => ?_,
      fun _ hi => absurd hi List.not_mem_nil⟩
    simp
  | i :: is, room, hheld => by
    unfold offerEntries
    refine Ends.look (fun e he => ⟨room.toDag, rfl, .refl, i, List.mem_cons_self, e, he⟩) fun e? hread => ?_
    have hrest : ∀ j ∈ is, ∀ e, read j = .ok (some e) → held ⟨key, j⟩ e :=
      fun j hj => hheld j (List.mem_cons_of_mem _ hj)
    apply Ends.update
    cases e? with
    | none =>
      refine (ends_offerEntries_of held is room hrest).mono (fun _ _ h => ?_) fun _ _ h => ?_
      · obtain ⟨d, rfl, hmoves, hoff, hall⟩ := h
        exact ⟨d, rfl, hmoves, hoff.skip hread, List.forall_mem_cons.mpr ⟨⟨_, hread⟩, hall⟩⟩
      · obtain ⟨d, rfl, hmoves, j, hj, he⟩ := h
        exact ⟨d, rfl, hmoves, j, List.mem_cons_of_mem _ hj, he⟩
    | some entry =>
      have hadd := Dag.moves_tryAddNode (d := room.toDag) (hheld i List.mem_cons_self entry hread)
      refine (ends_offerEntries_of held is (room.tryAddNode ⟨key, i⟩ entry) hrest).mono
        (fun _ _ h => ?_) fun _ _ h => ?_
      · obtain ⟨d, rfl, hmoves, hoff, hall⟩ := h
        exact ⟨d, rfl, hadd.trans hmoves, hoff.cons hread, List.forall_mem_cons.mpr ⟨⟨_, hread⟩, hall⟩⟩
      · obtain ⟨d, rfl, hmoves, j, hj, he⟩ := h
        exact ⟨d, rfl, hadd.trans hmoves, j, List.mem_cons_of_mem _ hj, he⟩

variable (env) in
/-- `d'` is `d` after the entries of the replicas `rs` were offered. -/
def OfferedAll (rs : List (K × Replica K H Sig S)) (d d' : Dag K) : Prop :=
  ∀ init held, Linearizer.Run [] init → Dag.Accounted init held d → (rs.map Prod.fst).Nodup →
    (∀ p ∈ rs, ∀ i e, ¬ held ⟨p.1, i⟩ e) →
    Dag.Accounted init (fun m e => held m e ∨ ∃ p ∈ rs, m.key = p.1 ∧
      p.2.get env.backend env.codec m.seq = .ok (some e)) d'

variable {r : Replica K H Sig S}

theorem OfferedAll.cons {w : K} {rs : List (K × Replica K H Sig S)} {d d₁ d₂ : Dag K}
    (h₁ : Offered w (r.get env.backend env.codec) (List.range r.len) d d₁) (h₂ : OfferedAll env rs d₁ d₂) :
    OfferedAll env ((w, r) :: rs) d d₂ := by
  intro init held hinit hacc hnodup hfresh
  rw [List.map_cons, List.nodup_cons] at hnodup
  have hfirst := h₁ init held hinit hacc List.nodup_range fun i _ e => hfresh _ List.mem_cons_self i e
  refine (h₂ init _ hinit hfirst hnodup.2 fun p hp i e he => ?_).congr fun m e => ?_
  · obtain he | ⟨j, -, heq, -⟩ := he
    · exact hfresh p (List.mem_cons_of_mem _ hp) i e he
    · have hpw : p.1 = w := congrArg NodeId.key heq
      exact hnodup.1 (List.mem_map.mpr ⟨p, hp, hpw⟩)
  · rw [or_assoc]
    refine or_congr_right ⟨?_, ?_⟩
    · rintro (⟨i, -, rfl, he⟩ | ⟨p, hp, hm⟩)
      · exact ⟨(w, r), List.mem_cons_self, rfl, he⟩
      · exact ⟨p, List.mem_cons_of_mem _ hp, hm⟩
    · rintro ⟨p, hp, hkey, he⟩
      obtain rfl | hp := List.mem_cons.mp hp
      · exact Or.inl ⟨m.seq, List.mem_range.mpr (Replica.lt_of_get he), NodeId.ext' hkey rfl, he⟩
      · exact Or.inr ⟨p, hp, hkey, he⟩

theorem ends_replayRemotes_of (held : NodeId K → Entry K → Prop) : ∀ (rs : List (K × Replica K H Sig S))
    (room : Room K H Sig SK S F P),
    (∀ p ∈ rs, ∀ i e, p.2.get env.backend env.codec i = .ok (some e) → held ⟨p.1, i⟩ e) →
    Ends (replayRemotes env rs) room
      (fun _ room' => ∃ d, room' = { room with toDag := d } ∧ Dag.Moves held room.toDag d ∧
        OfferedAll env rs room.toDag d ∧
        ∀ p ∈ rs, ∀ i < p.2.len, ∃ e?, p.2.get env.backend env.codec i = .ok e?)
      fun _ room' => ∃ d, room' = { room with toDag := d } ∧ Dag.Moves held room.toDag d ∧
        ∃ p ∈ rs, ∃ i < p.2.len, ∃ e, p.2.get env.backend env.codec i = .error e
  | [], room, _ => by
    refine Ends.pure ⟨room.toDag, rfl, .refl, fun init held _ hacc _ _ => hacc.congr fun m e => ?_,
      fun _ hp => absurd hp List.not_mem_nil⟩
    simp
  | (w, r) :: rs, room, hheld => by
    unfold replayRemotes
    refine Ends.andThen (ends_offerEntries_of held _ room fun i _ e he => hheld _ List.mem_cons_self i e he)
      (fun _ _ h => ?_) fun _ room₁ h₁ => ?_
    · obtain ⟨d, rfl, hmoves, i, hi, he⟩ := h
      exact ⟨d, rfl, hmoves, (w, r), List.mem_cons_self, i, List.mem_range.mp hi, he⟩
    · obtain ⟨d, rfl, hmoves, hoff, hreads⟩ := h₁
      refine (ends_replayRemotes_of held rs { room with toDag := d } fun p hp =>
        hheld p (List.mem_cons_of_mem _ hp)).mono (fun _ room₂ h₂ => ?_) fun _ _ h => ?_
      · obtain ⟨d', rfl, hmoves', hoff', hall⟩ := h₂
        refine ⟨d', rfl, hmoves.trans hmoves', hoff'.cons hoff,
          List.forall_mem_cons.mpr ⟨fun i hi => ?_, hall⟩⟩
        exact hreads i (List.mem_range.mpr hi)
      · obtain ⟨d', rfl, hmoves', p, hp, h⟩ := h
        exact ⟨d', rfl, hmoves.trans hmoves', p, List.mem_cons_of_mem _ hp, h⟩

variable (env) in
/-- Every entry of the logs can be read. -/
structure ReadsAll (room : Room K H Sig SK S F P) : Prop where
  own : ∀ i < room.localCore.len, ∃ e?, room.localCore.get env.backend env.codec i = .ok e?
  remotes : ∀ (w : K) (r : Replica K H Sig S), room.remotes[w]? = some r →
    ∀ i < r.len, ∃ e?, r.get env.backend env.codec i = .ok e?

/-- A replay returns exactly if every entry can be read. -/
theorem ends_replay_of (held : NodeId K → Entry K → Prop)
    (hown : ∀ i e, room.localCore.get env.backend env.codec i = .ok (some e) → held ⟨room.localKey, i⟩ e)
    (hremotes : ∀ w r, room.remotes[w]? = some r →
      ∀ i e, r.get env.backend env.codec i = .ok (some e) → held ⟨w, i⟩ e) :
    Ends (replay env) room
      (fun _ room' => ∃ d₁ d,
        room' = { (drainPending { room with toDag := d }).advance env with finalizedSincePoll := [] } ∧
        Dag.Moves held room.toDag d ∧ ReadsAll env room ∧
        Offered room.localKey (room.localCore.get env.backend env.codec)
          (List.range room.localCore.len) room.toDag d₁ ∧
        OfferedAll env room.remotes.toList d₁ d)
      fun _ room' => ∃ d, room' = { room with toDag := d } ∧ Dag.Moves held room.toDag d ∧
        ¬ ReadsAll env room := by
  unfold replay
  apply Ends.get
  refine Ends.andThen (ends_offerEntries_of held _ room fun i _ e he => hown i e he) (fun _ _ h => ?_)
    fun _ room₁ h₁ => ?_
  · obtain ⟨d, rfl, hmoves, i, hi, e, he⟩ := h
    refine ⟨d, rfl, hmoves, fun hall => ?_⟩
    obtain ⟨e?, he?⟩ := hall.own i (List.mem_range.mp hi)
    cases he?.symm.trans he
  · obtain ⟨d₁, rfl, hmoves₁, hoff, hreads⟩ := h₁
    refine Ends.andThen (ends_replayRemotes_of held _ _ fun p hp i e he => ?_) (fun _ _ h => ?_)
      fun _ room₂ h₂ => ?_
    · exact hremotes p.1 p.2 (ExtTreeMap.mem_toList_iff_getElem?_eq_some.mp hp) i e he
    · obtain ⟨d, rfl, hmoves, p, hp, i, hi, e, he⟩ := h
      refine ⟨d, rfl, hmoves₁.trans hmoves, fun hall => ?_⟩
      obtain ⟨e?, he?⟩ := hall.remotes p.1 p.2 (ExtTreeMap.mem_toList_iff_getElem?_eq_some.mp hp) i hi
      cases he?.symm.trans he
    · obtain ⟨d₂, rfl, hmoves₂, hoff₂, hall⟩ := h₂
      refine Ends.modify ⟨d₁, d₂, rfl, hmoves₁.trans hmoves₂, ⟨fun i hi => ?_, fun w r hr => ?_⟩, hoff, hoff₂⟩
      · exact hreads i (List.mem_range.mpr hi)
      · exact hall (w, r) (ExtTreeMap.mem_toList_iff_getElem?_eq_some.mpr hr)

/-! ### The own feed -/

/-- The room with the local log `core` it recovered and the DAG `d`. -/
def withAdopted (room : Room K H Sig SK S F P) (core : Hypercore H Sig SK S) (d : Dag K) :
    Room K H Sig SK S F P :=
  { room with
    localCore := core
    ownRecovery := none
    toDag := d }

section Messages

variable [DecidableEq H]

/-- A recovery ends with the new entries offered to the DAG. -/
theorem ends_completeOwnRecovery_of {target : SignedHead H Sig} {suffix : List Block}
    (held : Hypercore H Sig SK S → NodeId K → Entry K → Prop) {A : Hypercore H Sig SK S → Prop}
    (hrec : Ends (Hypercore.recoverSignedSuffix env.crypto env.backend target suffix) room.localCore
      (fun _ core => A core) fun e core => stops (.hypercore e) { room with localCore := core })
    (hheld : ∀ core, A core → ∀ i ∈ List.range' room.localCore.len (core.len - room.localCore.len), ∀ e,
      recoveredEntry env core i = .ok (some e) → held core ⟨room.localKey, i⟩ e)
    (hstop : ∀ core d e, A core → Dag.Moves (held core) room.toDag d →
      (∃ i ∈ List.range' room.localCore.len (core.len - room.localCore.len), ∃ e,
        recoveredEntry env core i = .error e) →
      stops e (room.withAdopted core d)) :
    Ends (completeOwnRecovery env target suffix) room
      (fun _ room' => ∃ core d, A core ∧ Dag.Moves (held core) room.toDag d ∧
        Offered room.localKey (recoveredEntry env core)
          (List.range' room.localCore.len (core.len - room.localCore.len)) room.toDag d ∧
        room' = (room.withAdopted core d).drainPending.touch.advance env) stops := by
  unfold completeOwnRecovery
  apply Ends.get
  refine Ends.focus hrec (fun _ _ h => h) fun _ core hA => ?_
  apply Ends.update
  apply Ends.get
  refine Ends.andThen (ends_offerEntries_of (held core) _ _ (hheld core hA)) (fun e _ h => ?_) fun _ _ h => ?_
  · obtain ⟨d, rfl, hmoves, i, hi, he⟩ := h
    exact hstop core d e hA hmoves ⟨i, hi, he⟩
  · obtain ⟨d, rfl, hmoves, hoff, -⟩ := h
    exact Ends.modify ⟨core, d, hA, hmoves, hoff, rfl⟩

variable [DecidableEq Sig]

theorem ends_beginOwnRecovery (head : SignedHead H Sig) :
    Ends (beginOwnRecovery env head) room (fun _ room' => ∃ r, room' = { room with ownRecovery := r })
      fun _ room' => room' = room := by
  unfold beginOwnRecovery
  apply Ends.get
  split_ifs
  · exact Ends.throw rfl
  · split
    · exact Ends.set ⟨_, rfl⟩
    · split_ifs
      · exact Ends.pure ⟨_, rfl⟩
      · exact Ends.pure ⟨_, rfl⟩
      · exact Ends.throw rfl
      · exact Ends.set ⟨_, rfl⟩

theorem ends_checkOwnHead_of {head : SignedHead H Sig}
    (hbegin : room.localCore.len < head.length →
      Ends (beginOwnRecovery env head) room (fun _ room' => Q room') stops)
    (hfail : ∀ e, stops e room) (hstay : head.length ≤ room.localCore.len → Q room) :
    Ends (checkOwnHead env head) room (fun _ room' => Q room') stops := by
  unfold checkOwnHead
  apply Ends.get
  split_ifs with hlonger
  · exact hbegin hlonger
  · exact Ends.throw (hfail _)
  · exact Ends.pure (hstay (Nat.le_of_not_lt hlonger))

theorem ends_checkOwnHead (head : SignedHead H Sig) :
    Ends (checkOwnHead env head) room (fun _ room' => ∃ r, room' = { room with ownRecovery := r })
      fun _ room' => room' = room :=
  ends_checkOwnHead_of (fun _ => ends_beginOwnRecovery head) (fun _ => rfl) fun _ => ⟨_, rfl⟩

/-- A block of the own feed is taken in once its head has begun or goes on with a recovery, and
the last one completes it. -/
theorem ends_recoverOwnBlock_of {head : SignedHead H Sig} {index : ℕ} {bytes : Block} {proof : Merkle.Proof H}
    (hstay : head.length ≤ room.localCore.len → Q room) (hfail : ∀ e, stops e room)
    (hbegin : room.localCore.len < head.length →
      verifyBlock env.crypto (room.localCore.publicKey env.crypto) head index bytes proof = true →
      Ends (beginOwnRecovery env head) room
        (fun _ room₁ => Q room₁ ∧
          (∀ e, stops e room₁) ∧ ∀ target blocks, room₁.ownRecovery = some (target, blocks) →
          Q { room₁ with ownRecovery := some (target, blocks.insert index bytes) } ∧ ∀ suffix,
            Ends (completeOwnRecovery env target suffix)
              { room₁ with ownRecovery := some (target, blocks.insert index bytes) }
              (fun _ room' => Q room') stops)
        stops) :
    Ends (recoverOwnBlock env head index bytes proof) room (fun _ room' => Q room') stops := by
  unfold recoverOwnBlock
  apply Ends.get
  split_ifs with hshort hbad
  · exact Ends.pure (hstay hshort)
  · exact Ends.throw (hfail _)
  · rw [not_or, Bool.not_eq_true', Bool.not_eq_false] at hbad
    refine Ends.bind (hbegin (Nat.lt_of_not_le hshort) hbad.2) fun _ room₁ h₁ => ?_
    obtain ⟨hdone, hfail₁, hcollect⟩ := h₁
    apply Ends.get
    split
    · exact Ends.throw (hfail₁ _)
    · rename_i target blocks hsome
      obtain ⟨hwait, hcomplete⟩ := hcollect target blocks hsome
      split_ifs
      · exact Ends.pure hdone
      · apply Ends.assign
        dsimp only
        split
        · exact Ends.pure hwait
        · exact hcomplete _

/-- A message is about the own feed, or a block of another writer, or is answered. -/
theorem ends_onInbound_of (peer : K) {msg : SyncMessage K H Sig}
    (hstay : (∀ head, msg ≠ .head room.localKey head) →
      (∀ head i bytes proof, msg ≠ .block room.localKey head i bytes proof) → Q room)
      (hfail : ∀ e, stops e room)
    (hhead : ∀ head, msg = .head room.localKey head →
      Ends (checkOwnHead env head) room (fun _ room' => Q room') stops)
    (hown : ∀ head i bytes proof, msg = .block room.localKey head i bytes proof →
      Ends (recoverOwnBlock env head i bytes proof) room (fun _ room' => Q room') stops)
    (hother : ∀ w head i bytes proof, msg = .block w head i bytes proof → w ≠ room.localKey →
      Ends (ingestRemoteBlock env w head i bytes proof) room
        (fun accepted room' => Q (if accepted then room'.drainPending.advance env else room')) stops) :
    Ends (onInbound env peer msg) room (fun _ room' => Q room') stops := by
  unfold onInbound
  apply Ends.get
  cases msg with
  | head w head =>
    dsimp only
    split_ifs with hw
    · subst hw
      exact Ends.bind (hhead head rfl) fun _ _ h => Ends.get (Ends.pure h)
    · exact Ends.get (Ends.pure (hstay (fun _ h => hw (SyncMessage.head.inj h).1) nofun))
  | have_ w length => exact Ends.pure (hstay nofun nofun)
  | want w start end_ => exact Ends.reads (fun _ _ => hstay nofun nofun) fun _ _ => hfail _
  | block w head i bytes proof =>
    dsimp only
    split_ifs with hw
    · subst hw
      exact Ends.bind (hown head i bytes proof rfl) fun _ _ h => Ends.pure h
    · refine Ends.bind (hother w head i bytes proof rfl hw) fun accepted room' h => ?_
      cases accepted with
      | false => exact Ends.pure h
      | true => exact Ends.update (Ends.pure h)

end Messages

/-! ### Opening -/

section Opening

variable [DecidableEq H] {core : Hypercore H Sig SK S} {cfg : RoomConfig K SK} {f f' : F} {p : P}

omit [LinearOrder K] in
/-- The local log is the one persisted, or a new one where nothing is. -/
theorem openLocal_cases {identity : SK} (h : openLocal env identity f = .ok core f') :
    ∃ store f₁, env.factory.openStore (env.crypto.publicOf identity) f = .ok store f₁ ∧
      (Hypercore.openCore env.crypto env.backend identity store = .ok core ∨
        Hypercore.openCore env.crypto env.backend identity store = .error .notPersisted ∧
          ∃ store' f₂, env.factory.openStore (env.crypto.publicOf identity) f₁ = .ok store' f₂ ∧
            core = .new identity store') := by
  unfold openLocal at h
  obtain ⟨store, f₁, hstore, h⟩ := bind_eq_ok.mp h
  obtain ⟨_, hstore, rfl⟩ := zoom_eq_ok.mp hstore
  refine ⟨store, _, hstore, ?_⟩
  cases hcore : Hypercore.openCore env.crypto env.backend identity store with
  | ok core' =>
    rw [hcore] at h
    cases h
    exact Or.inl rfl
  | error e =>
    rw [hcore] at h
    cases e with
    | notPersisted =>
      obtain ⟨store', f₂, hstore', h⟩ := bind_eq_ok.mp h
      obtain ⟨f₃, hopen, -⟩ := zoom_eq_ok.mp hstore'
      cases h
      exact Or.inr ⟨rfl, store', f₃, hopen, rfl⟩
    | storage e => cases h
    | codec e => cases h
    | corrupt => cases h
    | noPrologue => cases h
    | prologueMismatch => cases h
    | panicked => cases h

/-- An opened room has opened its local log and its replicas, and replayed them. -/
theorem openRoom_eq_ok (h : openRoom env cfg f p = .ok room) :
    ∃ core f' base, openLocal env cfg.identity f = .ok core f' ∧
      openRemotes env (env.factory.knownWriters f') (fresh env cfg core f' p) = .ok () base ∧
      replay env base = .ok () room := by
  unfold openRoom at h
  split at h
  · cases h
  · rename_i core f' hlocal
    dsimp only at h
    split at h
    · cases h
    · rename_i room' hrun
      obtain rfl := Except.ok.inj h
      obtain ⟨_, base, hremotes, hreplay⟩ := bind_eq_ok.mp hrun
      exact ⟨core, f', base, hlocal, hremotes, hreplay⟩

/-- What opening a room does once its local log is open. -/
theorem openRoom_of_ends {R : Prop} (hlocal : openLocal env cfg.identity f = .ok core f')
    (h : Ends (openRemotes env (env.factory.knownWriters f') >>= fun _ => replay env)
      (fresh env cfg core f' p)
      (fun _ room => Q room) fun _ _ => R) :
    (∃ room, openRoom env cfg f p = .ok room ∧ Q room) ∨ (∃ e, openRoom env cfg f p = .error e) ∧ R := by
  unfold openRoom
  rw [hlocal]
  dsimp only
  cases hrun : (openRemotes env (env.factory.knownWriters f') >>= fun _ => replay env)
    (fresh env cfg core f' p) with
  | ok u room => exact Or.inl ⟨room, rfl, h.ok hrun⟩
  | error e room => exact Or.inr ⟨⟨e, rfl⟩, h.error hrun⟩

end Opening

end Room
end HypercoreRs
