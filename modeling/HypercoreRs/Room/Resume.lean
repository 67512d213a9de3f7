/-
# Resuming where the room stopped

The DAG of a running room was built in the order in which messages arrived, with entries that
waited for others, and with own entries recovered from peers. The DAG of a room that is opened
again is built writer by writer from what the stores hold. Both end at the same fixpoint of causal
delivery, if every block is an entry and no entry referenced an own one before it was written
(`Grounded`): then the running room is complete along the whole run, since an own append never
frees a waiting entry (`Grounded.quiet`).

Replicas that ran ahead of their verified head are cut back by a restart. Without any, the two
rooms hold the same blocks, and so the same nodes, payloads, order and finalized list
(`resume_equal`).
-/
import HypercoreRs.Room.Archive
import HypercoreRs.Room.Delivery
import HypercoreRs.Room.Restart

namespace HypercoreRs

open Std Merkle Command

/-! ### The payloads of the DAG -/

namespace Dag

variable {K : Type} [LinearOrder K] {held held' : NodeId K → Entry K → Prop} {d d' : Dag K}

/-- What is delivered has the payload of an entry that is held, and what waits is held. -/
structure Paid (held : NodeId K → Entry K → Prop) (d : Dag K) : Prop where
  delivered : ∀ n ∈ d.lin.deps, ∃ e, held n e ∧ d.payloads[n]? = some e.payload
  waiting : ∀ p ∈ d.pending, held p.1 p.2

theorem Paid.of_held (h : Paid held d) (hh : ∀ n e, held n e → held' n e) : Paid held' d := by
  refine ⟨fun n hn => ?_, fun p hp => hh _ _ (h.waiting p hp)⟩
  obtain ⟨e, he, hpay⟩ := h.delivered n hn
  exact ⟨e, hh n e he, hpay⟩

/-- A held entry is added, with its payload, whether it is accepted or not. -/
theorem Paid.insert (h : Paid held d) {n : NodeId K} {e : Entry K} (he : held n e) (heads : List (NodeId K)) :
    Paid held { d with lin := (d.lin.add n heads).1, payloads := d.payloads.insert n e.payload } := by
  refine ⟨fun m hm => ?_, h.waiting⟩
  dsimp only
  rw [Graph.getElem?_insert]
  by_cases hmn : m = n
  · subst hmn
    exact ⟨e, he, if_pos rfl⟩
  · rw [if_neg hmn]
    exact h.delivered m ((Linearizer.mem_add hm).resolve_left hmn)

theorem Paid.moves (h : Paid held d) (hm : Moves held d d') : Paid held d' := by
  induction hm with
  | refl => exact h
  | tail _ hstep ih =>
    cases hstep with
    | @deliver n e lin hheld hadd =>
      have hins := ih.insert (hheld.elim id fun hp => ih.waiting (n, e) hp) e.heads
      rwa [hadd] at hins
    | buffer hpending => exact ⟨ih.delivered, fun p hp => (hpending p hp).elim id (ih.waiting p)⟩

end Dag

namespace Room

variable {K H Sig SK S E F F' P St : Type} [LinearOrder K]
variable (env : Env K H Sig SK S E F P St) {disk : Disk K S} {room room' room₀ : Room K H Sig SK S F P}

/-- Every block is an entry, and every own node an entry references is in the local log. -/
def Grounded (room : Room K H Sig SK S F P) : Prop :=
  ∀ n bytes, room.blockAt env n = .ok (some bytes) →
    ∃ e, env.codec.decode bytes = .ok e ∧ ∀ m ∈ e.heads, m.key = room.localKey → m.seq < room.localCore.len

variable {env}

theorem Grounded.decodable (h : Grounded env room) : Decodable env room := by
  intro n bytes _ hblock
  obtain ⟨e, he, -⟩ := h n bytes hblock
  exact ⟨e, he⟩

theorem Grounded.not_undecoded (h : Grounded env room) : ¬ Undecoded env room := by
  rintro ⟨n, bytes, hblock, hnot⟩
  obtain ⟨e, he, -⟩ := h n bytes hblock
  exact hnot e he

/-- In a grounded room no entry waits for the next own node. -/
theorem Grounded.quiet (h : Grounded env room) {init : Linearizer K} (h0 : Linearizer.Run [] init)
    (hc : Complete env init room) : Quiet room := by
  intro p hp
  obtain ⟨acc, hadds, -⟩ := hc.1.adds
  obtain ⟨hheld, hnew⟩ := hc.1.waits p hp
  -- something it needs is missing
  obtain ⟨m, hneeds, hmiss⟩ : ∃ m, Dag.Needs p.1 p.2.heads m ∧ m ∉ room.lin.deps := by
    by_contra hall
    push Not at hall
    obtain ⟨lin, hadd⟩ := (Dag.add_ok_iff (hadds.run h0).valid.wf hnew).mpr hall
    exact hc.2 p hp lin hadd
  refine ⟨m, hneeds, hmiss, fun hnext => ?_⟩
  subst hnext
  obtain ⟨bytes, hblock, hdec⟩ := hheld
  obtain ⟨e, he, hrefs⟩ := h p.1 bytes hblock
  obtain rfl : p.2 = e := Except.ok.inj (hdec.symm.trans he)
  obtain ⟨hpos, heq⟩ | hm := hneeds
  · -- its predecessor would be the next own node, but it is a node of the local log itself
    obtain ⟨hkey, hseq⟩ : p.1.key = room.localKey ∧ p.1.seq - 1 = room.localCore.len :=
      ⟨(congrArg NodeId.key heq).symm, (congrArg NodeId.seq heq).symm⟩
    rw [blockAt, if_pos hkey, Hypercore.block_of_len_le (by omega)] at hblock
    cases hblock
  · exact absurd (hrefs _ hm rfl) (Nat.lt_irrefl _)

variable [DecidableEq H]

/-- A DAG with no nodes has no payloads to keep. -/
theorem paid_unreplayed {cfg : RoomConfig K SK} (h : Unreplayed env cfg room)
    {held : NodeId K → Entry K → Prop} : room.toDag.Paid held := by
  have hempty : (startLin cfg.indexers).deps = ∅ := by
    unfold startLin
    split_ifs <;> rfl
  rw [h.dag]
  refine ⟨fun n hn => ?_, fun _ hp => absurd hp List.not_mem_nil⟩
  rw [hempty] at hn
  exact absurd hn ExtTreeMap.not_mem_empty

/-! ### Runs -/

section Runs

variable [DecidableEq Sig]

variable (env) in
/-- The rooms reached from `room₀` by calls, failed ones included, through grounded rooms. The
counts an entry is written with are 64-bit values in the source. -/
inductive GroundedRun (room₀ : Room K H Sig SK S F P) : Room K H Sig SK S F P → Prop
  | start : Grounded env room₀ → GroundedRun room₀ room₀
  | call {room : Room K H Sig SK S F P} (c : Call K H Sig) : GroundedRun room₀ room →
      (∀ op ∈ c.appends room, (room.ownEntry op).Fits) → Grounded env (after (perform env c) room) →
      GroundedRun room₀ (after (perform env c) room)

theorem GroundedRun.grounded (h : GroundedRun env room₀ room) : Grounded env room := by
  cases h with
  | start h => exact h
  | call _ _ _ h => exact h

theorem GroundedRun.reached (h : GroundedRun env room₀ room) : Reached env room₀ room := by
  induction h with
  | start _ => exact .start
  | call c _ _ _ ih => exact ih.call c

omit [DecidableEq Sig] [DecidableEq H] in
/-- An own entry that fits has its payload. -/
theorem Appended.paid (hcodec : env.codec.Faithful) {op : Block} (h : Appended env op room room')
    (hfits : (room.ownEntry op).Fits) (hpaid : room.toDag.Paid (room.Held env)) :
    room'.toDag.Paid (room'.Held env) := by
  have hheld := h.held_iff hcodec hfits
  have hown := (hheld ⟨room.localKey, room.localCore.len⟩ (room.ownEntry op)).mpr (Or.inr ⟨rfl, rfl⟩)
  have hgrown := hpaid.of_held fun n e he => (hheld n e).mpr (Or.inl he)
  rw [h.dag]
  exact hgrown.insert hown room.lin.heads.toList

variable (env) in
/-- What a grounded run keeps. -/
structure Resumable (disk : Disk K S) (init : Linearizer K)
    (room : Room K H Sig SK S F P) : Prop where
  durable : Durable env disk room
  complete : Complete env init room
  paid : room.toDag.Paid (room.Held env)

variable {init : Linearizer K}

omit [DecidableEq Sig] in
theorem Resumable.same (h : Resumable env disk init room) (hd : Durable env disk room')
    (hs : SameHoldings env room room') : Resumable env disk init room' := by
  refine ⟨hd, hs.complete h.complete, ?_⟩
  rw [hs.held, hs.dag]
  exact h.paid

variable {c : Call K H Sig}

/-- A call that succeeds keeps the payloads. -/
theorem paid_call (hb : env.backend.Lawful) (hn : env.backend.NeverFails) (hcodec : env.codec.Faithful)
    (hout : env.factory.HandsOut room.localKey disk) (hd : Durable env disk room)
    (hpaid : room.toDag.Paid (room.Held env)) {out : List (Outbound K H Sig)}
    (hfits : ∀ op ∈ c.appends room, (room.ownEntry op).Fits) (hok : perform env c room = .ok out room') :
    room'.toDag.Paid (room'.Held env) := by
  cases c with
  | inbound peer msg =>
    have hgrown := ((ends_onInbound_durable hb hn hout hd peer msg).ok hok).2
    exact (hpaid.of_held hgrown.held).moves hgrown.dag
  | append op => exact ((within_localAppend hb op room).ok hok).2.paid hcodec (hfits op rfl) hpaid
  | checkpoint =>
    have hdone := ((within_checkpoint hb room).ok hok).2
    split_ifs at hdone with hneeds
    · exact hdone.paid hcodec (hfits [] (if_pos hneeds)) hpaid
    · exact hdone ▸ hpaid

theorem Resumable.call (hb : env.backend.Lawful) (hn : env.backend.NeverFails)
    (hcodec : env.codec.Faithful) (h0 : Linearizer.Run [] init)
    (hout : env.factory.HandsOut room.localKey disk) (h : Resumable env disk init room)
    (hground : Grounded env room) (hfits : ∀ op ∈ c.appends room, (room.ownEntry op).Fits)
    (hafter : Grounded env (after (perform env c) room)) :
    Resumable env disk init (after (perform env c) room) := by
  have hends := ends_perform_durable hb hn hout h.durable c
  unfold after at hafter ⊢
  cases hc : perform env c room with
  | ok out room' =>
    refine ⟨hends.ok hc, ?_, paid_call hb hn hcodec hout h.durable h.paid hfits hc⟩
    exact h.complete.call hb hcodec h0 hc fun op hop => ⟨hfits op hop, hground.quiet h0 h.complete⟩
  | error e room' =>
    rw [hc] at hafter
    obtain ⟨hd, hsame | hbad⟩ := hends.error hc
    · exact h.same hd hsame
    · exact absurd hbad hafter.not_undecoded

/-- Every room of a grounded run is complete and as it is stored. -/
theorem GroundedRun.resumable (hb : env.backend.Lawful) (hn : env.backend.NeverFails)
    (hcodec : env.codec.Faithful) (hkept : env.Kept) {cfg : RoomConfig K SK}
    (hout : env.factory.HandsOut (env.crypto.publicOf cfg.identity) disk)
    (hlists : ListsAll env (env.crypto.publicOf cfg.identity) disk) {f : F} {p : P}
    (hopen : openRoom env cfg f p = .ok room₀) (h : GroundedRun env room₀ room) :
    Resumable env disk (startLin cfg.indexers) room := by
  obtain ⟨hdurable, hkey, -, base, hbase, hgrown⟩ := durable_openRoom hkept hout hlists hopen
  rw [← hkey] at hout
  induction h with
  | start _ =>
    obtain ⟨-, -, -, -, hc⟩ := openRoom_ok hopen
    refine ⟨hdurable, hc, ((paid_unreplayed hbase).of_held hgrown.held).moves hgrown.dag⟩
  | call c hrun hfits hafter ih =>
    rw [← (hrun.reached.moves hb).localKey_eq] at hout
    exact ih.call hb hn hcodec (run_startLin _) hout hrun.grounded hfits hafter

end Runs

/-! ### Resuming -/

/-- A restart of a level room finds the blocks the room held. -/
theorem Durable.blockAt_restarted (h : Durable env disk room) (hlevel : Level room)
    {factory' : StoreFactory K F' S} {base room' : Room K H Sig SK S F' P}
    (hl : Loaded (env.over factory') room.localKey room.localCore (room.leaves disk)
      (room.leaves disk).known base)
    (hsame : SameLogs base room') (n : NodeId K) :
    room'.blockAt (env.over factory') n = room.blockAt env n := by
  unfold blockAt
  rw [hsame.localKey, hsame.localCore, hsame.remotes, hl.localKey, hl.localCore]
  split_ifs with hkey
  · rfl
  · cases hr : room.remotes[n.key]? with
    | none =>
      have hbase : base.remotes[n.key]? = none := by
        rw [Option.eq_none_iff_forall_ne_some]
        intro r' hr'
        obtain ⟨r, hsome, -⟩ := (h.loaded_remotes hl _ _).mp hr'
        cases hr.symm.trans hsome
      rw [hbase]
    | some r =>
      obtain ⟨-, hpublic, -⟩ := h.sound.remotes _ r hr
      obtain hopen | ⟨hopen, hnew⟩ := (h.remotes _ r hr).1
      · rw [Replica.cutBack_of_level fun head hhead => hlevel _ r head hr hhead, hpublic] at hopen
        rw [(h.loaded_remotes hl _ _).mpr ⟨r, hr, hopen⟩]
        rfl
      · -- a replica that was never persisted is empty
        have hbase : base.remotes[n.key]? = none := by
          rw [Option.eq_none_iff_forall_ne_some]
          intro r' hr'
          obtain ⟨_, hsome, hopen'⟩ := (h.loaded_remotes hl _ _).mp hr'
          cases hr.symm.trans hsome
          rw [hpublic, hopen'] at hopen
          cases hopen
        rw [hbase, hnew]
        exact (Replica.block_of_len_le (Nat.zero_le _)).symm

/-- **A room resumes where it stopped.** On stores that never fail, let every block be an entry and
no entry reference an own one that was not yet written when it arrived, through a whole run with
failed calls included. If no replica is past its verified head at the end, the room opens again
over the stores it leaves, with the same nodes, dependencies, payloads, order and finalized list. -/
theorem resume_equal [DecidableEq Sig] (hb : env.backend.Lawful) (hn : env.backend.NeverFails)
    (hcodec : env.codec.Faithful) (hkept : env.Kept) {cfg : RoomConfig K SK}
    (hout : env.factory.HandsOut (env.crypto.publicOf cfg.identity) disk)
    (hlists : ListsAll env (env.crypto.publicOf cfg.identity) disk) {f : F} {p : P}
    (hopen : openRoom env cfg f p = .ok room₀) (h : GroundedRun env room₀ room)
    (hlevel : Level room) {cfg' : RoomConfig K SK} (hid : cfg'.identity = cfg.identity)
    (hix : ∀ k, k ∈ cfg'.indexers ↔ k ∈ cfg.indexers) {factory' : StoreFactory K F' S}
    (hback : factory'.HandsOut room.localKey (room.leaves disk)) (f' : F') (p' : P) :
    ∃ room', openRoom (env.over factory') cfg' f' p' = .ok room' ∧ room'.lin.deps = room.lin.deps ∧
      (∀ n ∈ room.lin.deps, room'.payloads[n]? = room.payloads[n]?) ∧ room'.order = room.order ∧
      room'.lin.finalized = room.lin.finalized := by
  obtain ⟨hdurable, hc, hpaid⟩ := h.resumable hb hn hcodec hkept hout hlists hopen
  obtain ⟨-, hkey, hauthor, -⟩ := durable_openRoom hkept hout hlists hopen
  rw [← hid] at hkey hauthor
  have hmoves := h.reached.moves hb
  obtain ⟨base, room', hok, hbase, hsame, hgrown, -⟩ | ⟨-, hbad⟩ := hdurable.restart
    (hmoves.localKey_eq.trans hkey) (hmoves.author_eq.trans hauthor) hback f' p'
  · obtain ⟨-, -, -, -, hc'⟩ := openRoom_ok hok
    rw [startLin_congr hix] at hc'
    have hl := hbase.loaded
    rw [show (env.over factory').crypto.publicOf cfg'.identity = room.localKey from
      (hmoves.localKey_eq.trans hkey).symm] at hl
    have hheld : room'.Held (env.over factory') = room.Held env := by
      funext n e
      rw [Held, Held, hdurable.blockAt_restarted hlevel hl hsame]
      rfl
    have hacc' := hc'.1
    rw [Accounts, hheld] at hacc'
    have hunique : ∀ n e e', room.Held env n e → room.Held env n e' → e = e' := fun _ _ _ => held_unique
    have hlin : room.lin = room'.lin :=
      Dag.Accounted.lin_eq (run_startLin cfg.indexers) hunique hc.1 hc.2 hacc' hc'.2
    have hpaid' := ((paid_unreplayed hbase.toUnreplayed).of_held hgrown.held).moves hgrown.dag
    rw [hheld] at hpaid'
    refine ⟨room', hok, by rw [hlin], fun n hn => ?_, by rw [order, order, hlin], by rw [hlin]⟩
    obtain ⟨e, he, hpay⟩ := hpaid.delivered n hn
    obtain ⟨e', he', hpay'⟩ := hpaid'.delivered n (hlin ▸ hn)
    rw [hpay, hpay', hunique n e e' he he']
  · exact absurd h.grounded.decodable hbad

/-! ### A room that resumes, in memory -/

variable (env) in
/-- The check of one block of a grounded room. -/
def groundedBlock (room : Room K H Sig SK S F P) :
    Except (CoreError E) (Option Block) → Bool
  | .ok (some bytes) =>
    match env.codec.decode bytes with
    | .ok e => e.heads.all fun m => m.key ≠ room.localKey || m.seq < room.localCore.len
    | .error _ => false
  | _ => true

variable (env) in
/-- The check of all blocks of the logs. -/
def groundedLogs (room : Room K H Sig SK S F P) : Bool :=
  ((List.range room.localCore.len).all fun i =>
      groundedBlock env room (room.localCore.block env.backend i)) &&
    room.remotes.toList.all fun p =>
      (List.range p.2.len).all fun i => groundedBlock env room (p.2.block env.backend i)

omit [DecidableEq H] in
theorem grounded_of_logs (h : groundedLogs env room = true) : Grounded env room := by
  obtain ⟨hown, hremotes⟩ := Bool.and_eq_true_iff.mp h
  have hcheck : ∀ n bytes, room.blockAt env n = .ok (some bytes) →
      groundedBlock env room (.ok (some bytes)) = true := by
    intro n bytes hblock
    rw [blockAt] at hblock
    split_ifs at hblock with hkey
    · rw [← hblock]
      have hlt : n.seq < room.localCore.len := by
        by_contra hge
        rw [Hypercore.block_of_len_le (Nat.le_of_not_lt hge)] at hblock
        cases hblock
      exact List.all_eq_true.mp hown n.seq (List.mem_range.mpr hlt)
    · cases hr : room.remotes[n.key]? with
      | none =>
        rw [hr] at hblock
        cases hblock
      | some r =>
        rw [hr] at hblock
        dsimp only at hblock
        rw [← hblock]
        have hall := List.all_eq_true.mp hremotes (n.key, r)
          (ExtTreeMap.mem_toList_iff_getElem?_eq_some.mpr hr)
        exact List.all_eq_true.mp hall n.seq (List.mem_range.mpr (Replica.block_eq_some.mp hblock).1)
  intro n bytes hblock
  have hbytes := hcheck n bytes hblock
  rw [groundedBlock] at hbytes
  cases hdec : env.codec.decode bytes with
  | error e =>
    rw [hdec] at hbytes
    cases hbytes
  | ok e =>
    rw [hdec] at hbytes
    refine ⟨e, rfl, fun m hm hkey => ?_⟩
    have href := List.all_eq_true.mp hbytes m hm
    simpa [hkey] using href

/-- The room of `room₀` after a message and an append. -/
def afterBoth (msg : SyncMessage WriterKey Digest (WriterKey × HeadMessage Digest)) (op : Block)
    (room₀ : MemoryRoom) : MemoryRoom × MemoryRoom :=
  let room₁ := after (perform inMemory (.inbound 9 msg)) room₀
  (room₁, after (perform inMemory (.append op)) room₁)

/-- An entry of writer 1 arrives and an op is appended; the room opens again with both in order. -/
theorem resume_equal_memory : ∃ room₀ room room', openRoom inMemory ⟨0, [], .original⟩ () () = .ok room₀ ∧
    GroundedRun inMemory room₀ room ∧ Level room ∧
    openRoom (inMemory.over (leftBy room)) ⟨0, [], .original⟩ () () = .ok room' ∧ room.order.length = 2 ∧
    room'.order = room.order := by
  have hrun : ((openRoom inMemory ⟨0, [], .original⟩ () ()).toOption.any fun room₀ =>
      (signedBlock 1 [entryCodec.encode ⟨[], [7]⟩] 0).any fun msg =>
        let p := afterBoth msg [42] room₀
        groundedLogs inMemory room₀ && groundedLogs inMemory p.1 && groundedLogs inMemory p.2 &&
          decide ((p.1.ownEntry [42]).Fits ∧ Level p.2 ∧ p.2.order.length = 2)) = true := by
    decide +kernel
  obtain ⟨room₀, hopen, hrun⟩ := exists_of_any hrun
  obtain ⟨msg, -, hrun⟩ := (Option.any_eq_true _ _).mp hrun
  simp only [Bool.and_eq_true, decide_eq_true_eq] at hrun
  obtain ⟨⟨⟨h₀, h₁⟩, h₂⟩, hfits, hlevel, hlen⟩ := hrun
  have hgrounded : GroundedRun inMemory room₀ (afterBoth msg [42] room₀).2 := by
    refine .call (.append [42])
      (.call (.inbound 9 msg) (.start (grounded_of_logs h₀)) (fun _ hop => by cases hop)
      (grounded_of_logs h₁)) (fun op hop => ?_) (grounded_of_logs h₂)
    obtain rfl : [42] = op := Option.some.inj hop
    exact hfits
  obtain ⟨room', hok, -, -, horder, -⟩ := resume_equal Backend.memory_lawful Backend.memory_neverFails
    entryCodec_faithful inMemory_kept (inMemory_handsOut _) (inMemory_listsAll _) hopen hgrounded hlevel rfl
    (fun _ => Iff.rfl) (leftBy_handsOut _) () ()
  exact ⟨room₀, _, room', hopen, hgrounded, hlevel, hok, hlen, horder⟩

end Room
end HypercoreRs
