/-
# Checkpoints

A checkpoint is a local append without an op: its entry references every head, so it sees
whatever is delivered and is the only head (`WF.heads_iff_top`). A room whose latest entry
does so needs no checkpoint (`Covered`), and stays in want of none until an entry of another
writer is delivered: of the own entries delivered meanwhile, by an append or by a recovery,
the latest sees all the others. Where that entry is not the last of the local log, an append
is refused (`Rests`).

While the own feed is recovered no checkpoint is made. The one that is withheld is made when
the recovery is over (`checkpoint_withheld`).
-/
import HypercoreRs.Room.Fold
import HypercoreRs.Room.Recovery

namespace HypercoreRs

open Std Merkle Command

namespace Linearizer

variable {K : Type} [LinearOrder K] {L M N : Linearizer K}

/-- Only delivered nodes are ordered. -/
theorem Built.order_sub (h : Built L) : ∀ n ∈ L.order, n ∈ L.deps := by
  intro n hn
  have hplain := (plainOrder_spec h.keeps.1).2.1
  unfold order at hn
  dsimp only at hn
  split_ifs at hn
  · exact (hplain n).mp hn
  · rcases List.mem_append.mp hn with hn | hn
    · exact h.finalized_sub n hn
    · rw [(topoKeyOrder_spec h.keeps.1 fun x hx => by simpa using (List.mem_filter.mp
        (Graph.mem_ofList.mp hx)).2).2.1, Graph.mem_ofList, List.mem_filter] at hn
      exact Graph.mem_keys.mp hn.1

/-- `M` has the nodes of `L`, with the same dependencies. -/
def Retains (L M : Linearizer K) : Prop := ∀ n ∈ L.deps, n ∈ M.deps ∧ M.depsOf n = L.depsOf n

theorem Retains.refl (L : Linearizer K) : Retains L L := fun _ hn => ⟨hn, rfl⟩

theorem Retains.trans (h : Retains L M) (h' : Retains M N) : Retains L N := by
  intro n hn
  obtain ⟨hm, hdeps⟩ := h n hn
  exact ⟨(h' n hm).1, (h' n hm).2.trans hdeps⟩

theorem Retains.of_deps_eq (h : M.deps = L.deps) : Retains L M := by
  intro n hn
  rw [depsOf, depsOf, h]
  exact ⟨hn, rfl⟩

theorem retains_add (L : Linearizer K) (node : NodeId K) (heads : List (NodeId K)) :
    Retains L (L.add node heads).1 := by
  cases hadd : (L.add node heads).2 with
  | error e =>
    rw [add_eq_error hadd]
    exact .refl L
  | ok u =>
    have hok : L.add node heads = ((L.add node heads).1, .ok ()) := Prod.ext rfl hadd
    obtain ⟨hnew, -, -, heq⟩ := add_eq_ok.mp hok
    rw [← heq]
    intro n hn
    have hne : n ≠ node := fun h => hnew (h ▸ hn)
    rw [mem_attach, depsOf_attach, if_neg hne]
    exact ⟨Or.inr hn, rfl⟩

theorem Retains.past (h : Retains L M) (hL : L.WF) {a b : NodeId K} (ha : a ∈ L.deps) (hab : L.Past a b) :
    M.Past a b := by
  induction hab with
  | refl => exact Relation.ReflTransGen.refl
  | @tail c d hac hcd ih =>
    refine ih.tail ?_
    show d ∈ M.depsOf c
    rw [(h c (Past.mem hL hac ha)).2]
    exact hcd

/-- A node added on the heads sees every node. -/
theorem add_heads_top (hL : L.WF) {node : NodeId K} (ha : L.add node L.heads.toList = (M, .ok ())) :
    node ∈ M.deps ∧ ∀ n ∈ M.deps, M.Past node n := by
  have hretains : Retains L M := by
    have := retains_add L node L.heads.toList
    rwa [ha] at this
  obtain ⟨hnew, -, -, rfl⟩ := add_eq_ok.mp ha
  refine ⟨mem_attach.mpr (Or.inl rfl), fun n hn => ?_⟩
  rcases mem_attach.mp hn with rfl | hn
  · exact Relation.ReflTransGen.refl
  · obtain ⟨z, hz, hzn⟩ := hL.exists_head hn
    have hzd := ((mem_heads hL).mp hz).1
    refine (hretains.past hL hzd hzn).head ?_
    show z ∈ (L.attach node (depSet node L.heads.toList)).depsOf node
    rw [depsOf_attach, if_pos rfl, mem_depSet]
    exact ⟨fun he => hnew (he ▸ hzd), Or.inl (ExtTreeSet.mem_toList.mpr hz)⟩

/-- The last node of a writer sees every node, if one of the writer's nodes sees all that is
not the writer's. -/
theorem WF.top_of_writer (hL : L.WF) {node : NodeId K} (hnode : node ∈ L.deps)
    (hsees : ∀ n ∈ L.deps, n.key ≠ node.key → L.Past node n) :
    ∀ n ∈ L.deps, L.Past ⟨node.key, L.nextSeq.getD node.key 0 - 1⟩ n := by
  have hpos := (hL.seq node).mp hnode
  have hlast : (⟨node.key, L.nextSeq.getD node.key 0 - 1⟩ : NodeId K) ∈ L.deps :=
    (hL.seq _).mpr (Nat.sub_lt (Nat.zero_lt_of_lt hpos) one_pos)
  intro n hn
  by_cases hkey : n.key = node.key
  · have hlt := (hL.seq n).mp hn
    have := Past.of_le hL (k := node.key) (s := n.seq) (t := L.nextSeq.getD node.key 0 - 1)
      (by rw [hkey] at hlt; omega) hlast
    rwa [show (⟨node.key, n.seq⟩ : NodeId K) = n from NodeId.ext' hkey.symm rfl] at this
  · exact (Past.of_le hL (by omega) hlast).trans (hsees n hn hkey)

end Linearizer

namespace Room

variable {K H Sig SK S E F P St : Type} [LinearOrder K]
variable {env : Env K H Sig SK S E F P St} {room room' room₀ : Room K H Sig SK S F P}

/-! ### What a checkpoint is needed for -/

/-- The latest own entry. -/
def latest (room : Room K H Sig SK S F P) : NodeId K := ⟨room.localKey, room.localCore.len - 1⟩

/-- The latest own entry is delivered and sees every delivered node. -/
structure Covered (room : Room K H Sig SK S F P) : Prop where
  pos : 0 < room.localCore.len
  delivered : room.latest ∈ room.lin.deps
  sees : ∀ n ∈ room.lin.deps, room.lin.Past room.latest n

theorem Tidy.wf (h : Tidy room) : room.lin.WF := h.built.keeps.1

/-- The room finds everything referenced exactly if it is covered. -/
theorem Tidy.covered_iff (h : Tidy room) : Covered room ↔
    (0 < room.localCore.len && room.lin.heads.size == 1 && room.lin.heads.contains room.latest) = true := by
  rw [Bool.and_eq_true, Bool.and_eq_true, and_assoc, decide_eq_true_iff, beq_iff_eq,
    ExtTreeSet.contains_iff_mem, Graph.size_eq_one_iff, h.wf.heads_iff_top]
  exact ⟨fun hc => ⟨hc.pos, hc.delivered, hc.sees⟩, fun ⟨hpos, hmem, hsees⟩ => ⟨hpos, hmem, hsees⟩⟩

theorem Tidy.not_needsCheckpoint (h : Tidy room) (hc : Covered room) : room.needsCheckpoint = false := by
  have hreferenced := h.covered_iff.mp hc
  unfold latest at hreferenced
  rw [needsCheckpoint]
  simp only [hreferenced, Bool.not_true, Bool.and_false, Bool.false_and]

/-- A checkpoint that is needed has something to reference. -/
theorem Tidy.exists_unseen (h : Tidy room) (hneeds : room.needsCheckpoint = true) :
    room.localCore.len = 0 ∨ ∃ n ∈ room.lin.deps, room.lin.sees room.latest n = false := by
  by_contra hall
  obtain ⟨hlen, hnone⟩ := not_or.mp hall
  have hsees : ∀ n ∈ room.lin.deps, room.lin.Past room.latest n := by
    intro n hn
    by_contra hnot
    exact hnone ⟨n, hn, Bool.eq_false_iff.mpr fun hs => hnot ((h.wf.sees_iff _ _).mp hs)⟩
  have hpending : ∃ n, n ∈ room.order := by
    unfold needsCheckpoint at hneeds
    simp only [Bool.and_eq_true, List.any_eq_true] at hneeds
    obtain ⟨-, n, hn, -⟩ := hneeds
    exact ⟨n, List.mem_of_mem_drop hn⟩
  obtain ⟨n, hn⟩ := hpending
  have hnd := h.built.order_sub n hn
  have hlatest : room.latest ∈ room.lin.deps := by
    by_contra hmiss
    exact hmiss (Linearizer.Past.eq_of_not_mem (hsees n hnd) hmiss ▸ hnd)
  rw [h.not_needsCheckpoint ⟨Nat.pos_of_ne_zero hlen, hlatest, hsees⟩] at hneeds
  cases hneeds

/-- An append is delivered: it is the writer's next entry, and its heads are there. -/
theorem Tidy.add_own (h : Tidy room)
    (hprev : 0 < room.localCore.len → ⟨room.localKey, room.localCore.len - 1⟩ ∈ room.lin.deps) :
    ∃ M, room.lin.add ⟨room.localKey, room.localCore.len⟩ room.lin.heads.toList = (M, .ok ()) := by
  refine ⟨_, Linearizer.add_eq_ok.mpr ⟨h.not_mem_next, ?_, fun x hx => ?_, rfl⟩⟩
  · have hnot := mt (h.wf.seq ⟨room.localKey, room.localCore.len⟩).mpr h.not_mem_next
    rcases Nat.eq_zero_or_pos room.localCore.len with hzero | hpos
    · dsimp only at hnot ⊢
      omega
    · have hlt := (h.wf.seq _).mp (hprev hpos)
      dsimp only at hnot hlt ⊢
      omega
  · exact ((Linearizer.mem_heads h.wf).mp (ExtTreeSet.mem_toList.mp hx)).1

/-- After an append its entry is the latest, and sees everything. -/
theorem Extends.covered {op : Block} (h : Extends env op room room') (htidy : Tidy room) :
    Covered room' ∧ room'.latest = ⟨room.localKey, room.localCore.len⟩ ∧
      room'.localCore.len = room.localCore.len + 1 := by
  obtain ⟨hprev, core, hlen, rfl⟩ := h
  have hsame := sameData_touch_advance env (room.withOwn core op)
  obtain ⟨M, hadd⟩ := htidy.add_own hprev
  have hlin : ((room.withOwn core op).touch.advance env).lin = M := by
    rw [hsame.dag]
    show (room.lin.add ⟨room.localKey, room.localCore.len⟩ room.lin.heads.toList).1 = M
    rw [hadd]
  have hcore : ((room.withOwn core op).touch.advance env).localCore.len = room.localCore.len + 1 := by
    rw [hsame.localCore]
    exact hlen
  have hlatest : ((room.withOwn core op).touch.advance env).latest =
      ⟨room.localKey, room.localCore.len⟩ := by
    rw [latest, hcore, hsame.localKey]
    rfl
  obtain ⟨hmem, htop⟩ := Linearizer.add_heads_top htidy.wf hadd
  refine ⟨⟨by omega, ?_, ?_⟩, hlatest, hcore⟩
  · rw [hlin, hlatest]
    exact hmem
  · rw [hlin, hlatest]
    exact htop

/-! ### Runs -/

section Runs

variable [DecidableEq H] [DecidableEq Sig]

omit [DecidableEq Sig] in
theorem Move.retains (h : Move env room room') : room.lin.Retains room'.lin := by
  cases h with
  | other hsame =>
    rw [hsame.dag]
    exact .refl _
  | core _ => exact .refl _
  | replica _ _ => exact .refl _
  | join _ _ => exact .refl _
  | dag hmove =>
    cases hmove with
    | @deliver n e lin _ hadd =>
      have := Linearizer.retains_add room.lin n e.heads
      rwa [hadd] at this
    | buffer _ => exact .refl _
  | @own n heads _ _ => exact Linearizer.retains_add room.lin n heads
  | repin hlin => exact .of_deps_eq (Linearizer.deps_reconfigure hlin)

omit [DecidableEq Sig] in
theorem Moves.retains (h : Moves env room room') : room.lin.Retains room'.lin := by
  induction h with
  | refl => exact .refl _
  | tail _ hmove ih => exact ih.trans hmove.retains

theorem Reached.tidy (h₀ : Tidy room₀) (h : Reached env room₀ room) : Tidy room := by
  induction h with
  | start => exact h₀
  | call c _ ih => exact ih.perform c
  | reconfigure through indexers _ ih =>
    refine (ends_reconfigure through indexers _).always (fun _ room' h' => ?_) fun _ room' h' => h' ▸ ih
    obtain ⟨lin, hlin, rfl⟩ := h'
    exact (ih.rollBack hlin).advance
  | poll _ ih => exact ih

/-! ### Nothing more to reference -/

omit [DecidableEq H] [DecidableEq Sig] in
/-- Where the latest own entry is not delivered, every append is refused. -/
theorem ends_localAppend_pending (hpos : 0 < room.localCore.len) (hmiss : room.latest ∉ room.lin.deps)
    (op : Block) : Ends (localAppend env op) room (fun _ _ => False) fun _ room' => room' = room := by
  refine (ends_localAppend_of op (A := fun _ => False) (fun _ => ⟨rfl, rfl⟩)
    (fun hready => absurd (Or.inr ⟨hpos, hmiss⟩) hready) fun _ _ h _ => h.elim).mono
    (fun _ _ h => ?_) fun _ _ h => h
  obtain ⟨-, _, h, -⟩ := h
  exact h

omit [DecidableEq H] [DecidableEq Sig] in
theorem checkpoint_refused (hpos : 0 < room.localCore.len) (hmiss : room.latest ∉ room.lin.deps) :
    after (checkpoint env) room = room := by
  have hends : Ends (checkpoint env) room (fun _ room' => room' = room) fun _ room' => room' = room :=
    ends_checkpoint_of
    (fun _ => (ends_localAppend_pending hpos hmiss []).mono (fun _ _ h => h.elim) fun _ _ h => h)
      fun _ => rfl
  exact hends.always (fun _ _ h => h) fun _ _ h => h

omit [DecidableEq H] [DecidableEq Sig] in
theorem checkpoint_of_not_needs (h : room.needsCheckpoint = false) : checkpoint env room = .ok [] room := by
  rw [checkpoint_eq, h]
  rfl

variable (env) in
/-- No checkpoint is needed, and none is appended until an entry of another writer is
delivered. -/
def Rests (room : Room K H Sig SK S F P) : Prop :=
  room.needsCheckpoint = false ∧ ∀ room', Reached env room room' →
    (∀ n ∈ room'.lin.deps, n.key ≠ room'.localKey → n ∈ room.lin.deps) →
    after (checkpoint env) room' = room'

theorem Covered.rests (hb : env.backend.Lawful) (htidy : Tidy room) (h : Covered room) : Rests env room := by
  refine ⟨htidy.not_needsCheckpoint h, fun room' hrun hothers => ?_⟩
  have htidy' := hrun.tidy htidy
  have hmoves := hrun.moves hb
  have hkey := hmoves.localKey_eq
  have hretains := hmoves.retains
  have hL := htidy'.wf
  have hnode := (hretains _ h.delivered).1
  have htop := hL.top_of_writer hnode fun n hn hne =>
    hretains.past htidy.wf h.delivered (h.sees n (hothers n hn (hkey ▸ hne)))
  have hnext := (hL.seq _).mp hnode
  have hlast : (⟨room.latest.key, room'.lin.nextSeq.getD room.latest.key 0 - 1⟩ : NodeId K) ∈
      room'.lin.deps := (hL.seq _).mpr (Nat.sub_lt (Nat.zero_lt_of_lt hnext) one_pos)
  have hlogged : room'.lin.nextSeq.getD room.latest.key 0 - 1 < room'.localCore.len :=
    htidy'.delivered _ hlast hkey.symm
  by_cases hmem : room'.latest ∈ room'.lin.deps
  · -- the last own entry of the DAG is the last of the log
    have hlt := (hL.seq _).mp hmem
    have hlatest : room'.latest = ⟨room.latest.key, room'.lin.nextSeq.getD room.latest.key 0 - 1⟩ := by
      have hkeys : room'.latest.key = room.latest.key := hkey
      have hseq : room'.latest.seq = room'.localCore.len - 1 := rfl
      rw [hkeys] at hlt
      refine NodeId.ext' hkeys ?_
      show room'.latest.seq = room'.lin.nextSeq.getD room.latest.key 0 - 1
      omega
    have hcovered : Covered room' := ⟨by omega, hmem, by rw [hlatest]; exact htop⟩
    unfold after
    rw [checkpoint_of_not_needs (htidy'.not_needsCheckpoint hcovered)]
  · exact checkpoint_refused (by omega) hmem

/-- **A checkpoint adds something, and is not repeated.** In every room reached, a checkpoint is
needed only if the latest own entry, if there is one, does not see all that is delivered. The
entry of a successful append sees every delivered node and is the only head. After it, and after
a checkpoint that appended an entry, no checkpoint is needed, and none is appended until an entry
of another writer is delivered; a checkpoint that appended nothing leaves the room as it was, in
need of none. -/
theorem checkpoint_adds (hb : env.backend.Lawful) {cfg : RoomConfig K SK} {f : F} {p : P}
    (hopen : openRoom env cfg f p = .ok room₀) (h : Reached env room₀ room) :
    (room.needsCheckpoint = true → room.localCore.len = 0 ∨
      ∃ n ∈ room.lin.deps, room.lin.sees ⟨room.localKey, room.localCore.len - 1⟩ n = false) ∧
    (∀ op out room', localAppend env op room = .ok out room' →
      room'.localCore.len = room.localCore.len + 1 ∧
      (∀ n ∈ room'.lin.deps, room'.lin.sees ⟨room.localKey, room.localCore.len⟩ n = true) ∧
      (∀ n, n ∈ room'.lin.heads ↔ n = ⟨room.localKey, room.localCore.len⟩) ∧ Rests env room') ∧
    ∀ out room', checkpoint env room = .ok out room' →
      if room.needsCheckpoint then room'.localCore.len = room.localCore.len + 1 ∧ Rests env room'
      else out = [] ∧ room' = room := by
  have htidy := h.tidy (tidy_openRoom hopen)
  have happend : ∀ op out room', localAppend env op room = .ok out room' → Tidy room' ∧ Covered room' ∧
      room'.latest = ⟨room.localKey, room.localCore.len⟩ ∧ room'.localCore.len = room.localCore.len + 1 := by
    intro op out room' hok
    have hext := (ends_localAppend htidy op).ok hok
    exact ⟨(hext.recomputed htidy).tidy, hext.covered htidy⟩
  refine ⟨htidy.exists_unseen, fun op out room' hok => ?_, fun out room' hok => ?_⟩
  · obtain ⟨htidy', hcovered, hlatest, hlen⟩ := happend op out room' hok
    rw [← hlatest, htidy'.wf.heads_iff_top]
    exact ⟨hlen, fun n hn => (htidy'.wf.sees_iff _ _).mpr (hcovered.sees n hn),
      ⟨hcovered.delivered, hcovered.sees⟩, hcovered.rests hb htidy'⟩
  · split_ifs with hneeds
    · have hok' : localAppend env [] room = .ok out room' := by
        rwa [checkpoint_eq, if_pos hneeds] at hok
      obtain ⟨htidy', hcovered, -, hlen⟩ := happend [] out room' hok'
      exact ⟨hlen, hcovered.rests hb htidy'⟩
    · rw [checkpoint_of_not_needs (by simpa using hneeds)] at hok
      cases hok
      exact ⟨rfl, rfl⟩

/-- An op of writer 1 arrives at the only indexer. -/
theorem checkpoint_adds_indexer : ∃ (room₀ room room' : MemoryRoom)
    (out : List (Outbound WriterKey Digest (WriterKey × HeadMessage Digest))),
    openRoom inMemory ⟨0, [0], .original⟩ () () = .ok room₀ ∧ Reached inMemory room₀ room ∧
    room.needsCheckpoint = true ∧ checkpoint inMemory room = .ok out room' ∧
    room'.localCore.len = 1 ∧ Rests inMemory room' := by
  have hcheck : ((openRoom inMemory ⟨0, [0], .original⟩ () ()).toOption.any fun room₀ =>
      (signedBlock 1 [entryCodec.encode ⟨[], [7]⟩] 0).any fun msg =>
        let room := after (perform inMemory (.inbound 9 msg)) room₀
        room.needsCheckpoint && decide (room.localCore.len = 0) && returned
          (checkpoint inMemory room)) = true := by
    decide +kernel
  obtain ⟨room₀, hopen, hcheck⟩ := exists_of_any hcheck
  obtain ⟨msg, -, hcheck⟩ := (Option.any_eq_true _ _).mp hcheck
  simp only [Bool.and_eq_true, decide_eq_true_eq] at hcheck
  obtain ⟨⟨hneeds, hlen⟩, hreturned⟩ := hcheck
  obtain ⟨out, room', hok⟩ := exists_of_returned hreturned
  have hrun : Reached inMemory room₀ _ := Reached.start.call (.inbound 9 msg)
  have hrests := (checkpoint_adds Backend.memory_lawful hopen hrun).2.2 out room' hok
  rw [if_pos hneeds, hlen] at hrests
  exact ⟨room₀, _, room', out, hopen, hrun, hneeds, hok, hrests⟩

/-- An op of writer 1 arrives at the only indexer while its own feed is recovered: no checkpoint
is made, and nothing is appended. The recovery delivers own entries only, and then the
checkpoint is made. -/
theorem checkpoint_withheld : ∃ room₀ room₁ room₂ : MemoryRoom,
    openRoom inMemory ⟨0, [0], .original⟩ () () = .ok room₀ ∧ Reached inMemory room₀ room₁ ∧
    checkpoint inMemory room₁ = .ok [] room₁ ∧ Reached inMemory room₁ room₂ ∧
    (∀ n ∈ room₂.lin.deps, n.key ≠ room₂.localKey → n ∈ room₁.lin.deps) ∧
    (after (checkpoint inMemory) room₂).localCore.len = room₂.localCore.len + 1 := by
  have hcheck : ((openRoom inMemory ⟨0, [0], .original⟩ () ()).toOption.any fun room₀ =>
      (signedBlock 1 [entryCodec.encode ⟨[], [7]⟩] 0).any fun other => (signedBlock 0 ownFeed 0).any
      fun first =>
        (signedBlock 0 ownFeed 1).any fun second =>
          let room₁ := performAll inMemory [.inbound 9 other, .inbound 9 first] room₀
          let room₂ := after (perform inMemory (.inbound 9 second)) room₁
          decide (room₁.needsCheckpoint = false ∧
            (∀ n ∈ room₂.lin.deps.keys, n.key ≠ room₂.localKey → n ∈ room₁.lin.deps) ∧
            (after (checkpoint inMemory) room₂).localCore.len = room₂.localCore.len + 1)) = true := by
    decide +kernel
  obtain ⟨room₀, hopen, hcheck⟩ := exists_of_any hcheck
  obtain ⟨other, -, hcheck⟩ := (Option.any_eq_true _ _).mp hcheck
  obtain ⟨first, -, hcheck⟩ := (Option.any_eq_true _ _).mp hcheck
  obtain ⟨second, -, hcheck⟩ := (Option.any_eq_true _ _).mp hcheck
  obtain ⟨hneeds, hothers, hlen⟩ := of_decide_eq_true hcheck
  exact ⟨room₀, _, _, hopen, (Reached.start.call (.inbound 9 other)).call (.inbound 9 first),
    checkpoint_of_not_needs hneeds, Reached.start.call (.inbound 9 second),
    fun n hn => hothers n (Graph.mem_keys.mpr hn), hlen⟩

end Runs

end Room
end HypercoreRs
