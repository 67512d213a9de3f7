/-
# Replication safety

A writer `w` that signed heads of one history only, `L`, is followed faithfully,
whatever messages arrive in whatever order (`replica_safe`): the replica of `w`
holds a prefix of `L`, its verified head is one that `w` signed over such a prefix,
and each delivered node of `w` has the payload and the heads of its block of `L`.

An accepted block came with a proof against a head of `w`, so it is the block of
`L` at that number (`OneHistory.block_eq`). Everything else about `w` in a room is
read from its replica: an entry that is delivered or waits was held when it was
offered. `Follows` says this, and every move keeps it.
-/
import HypercoreRs.Autobase.Base
import HypercoreRs.Room.Runs

namespace HypercoreRs

open Std Merkle Command

/-- The first `k` blocks of a history. -/
def firstBlocks (L : ℕ → Block) (k : ℕ) : List Block := (List.range k).map L

theorem length_firstBlocks (L : ℕ → Block) (k : ℕ) : (firstBlocks L k).length = k := by
  rw [firstBlocks, List.length_map, List.length_range]

theorem getElem?_firstBlocks (L : ℕ → Block) (k i : ℕ) :
    (firstBlocks L k)[i]? = if i < k then some (L i) else none := by
  rw [firstBlocks, List.getElem?_map]
  split_ifs with hi
  · rw [List.getElem?_range hi, Option.map_some]
  · rw [List.getElem?_eq_none (by rw [List.length_range]; omega), Option.map_none]

theorem firstBlocks_succ (L : ℕ → Block) (k : ℕ) : firstBlocks L (k + 1) = firstBlocks L k ++ [L k] := by
  rw [firstBlocks, List.range_succ, List.map_append]
  rfl

namespace Room

variable {K H Sig SK S E F P St : Type} [LinearOrder K] [DecidableEq H]
variable {env : Env K H Sig SK S E F P St} {room room' room₀ : Room K H Sig SK S F P}

variable (env) in
/-- Every head `w`'s key ever signed, and so every head that verifies under it, is of
the one history `L`; so is what was stored of `w` before. -/
structure OneHistory (w : K) (L : ℕ → Block) (signed : HeadMessage H → Prop) : Prop where
  unforgeable : ∀ m sig, env.crypto.verify w m sig = true → signed m
  roots : ∀ m, signed m → m.root = env.crypto.hasher.treeHash
    (rootsOf env.crypto.hasher (firstBlocks L m.length))
  kept : ∀ r, Reopened env w r → ∃ k, Replica.Stored env.crypto env.backend (firstBlocks L k) r

section Follow

variable {w : K} {L : ℕ → Block} {signed : HeadMessage H → Prop}

omit [LinearOrder K] in
/-- A block that verifies under `w`'s key is the block of `L` at its number. -/
theorem OneHistory.block_eq (hw : OneHistory env w L signed) (ideal : env.crypto.hasher.Ideal)
    {head : SignedHead H Sig} {i : ℕ} {data : Block} {proof : Merkle.Proof H}
    (hv : verifyBlock env.crypto w head i data proof = true) : data = L i := by
  obtain ⟨hsig, rfl, hproof⟩ := verifyBlock_iff.mp hv
  have hroot := hw.roots _ (hw.unforgeable _ _ hsig)
  change head.root = _ at hroot
  rw [hroot] at hproof
  obtain ⟨hlt, hget⟩ := Proof.verify_sound ideal hproof
  rw [length_firstBlocks] at hlt
  rw [getElem?_firstBlocks, if_pos hlt] at hget
  exact (Option.some.inj hget).symm

variable (env) in
/-- The replica holds the first `k` blocks of `L`, and its head is one of `w`'s. -/
structure FollowsLog (w : K) (L : ℕ → Block) (k : ℕ) (r : Replica K H Sig S) : Prop where
  key : r.publicKey = w
  stored : Replica.Stored env.crypto env.backend (firstBlocks L k) r
  head : ∀ h, r.verifiedHead = some h → verifySignedHead env.crypto w h = true ∧ h.length ≤ k

variable {k : ℕ}

omit [LinearOrder K] in
theorem FollowsLog.move (hw : OneHistory env w L signed) (ideal : env.crypto.hasher.Ideal)
    {r r' : Replica K H Sig S} (h : FollowsLog env w L k r)
    (hm : Replica.Move env.crypto env.backend r r') : ∃ k', k ≤ k' ∧ FollowsLog env w L k' r' := by
  cases hm with
  | store hk => exact ⟨k, le_rfl, h.key, h.stored.store hk, h.head⟩
  | @accept _ head data ha =>
    have hstored := h.stored.accept ha
    obtain ⟨s, proof, hv, hk, hget, rfl⟩ := ha
    rw [h.stored.len_eq, length_firstBlocks, h.key] at hv
    obtain rfl : data = L k := hw.block_eq ideal hv
    rw [← firstBlocks_succ] at hstored
    refine ⟨k + 1, Nat.le_succ k, h.key, hstored, fun h' hhead => ?_⟩
    obtain ⟨rfl, hlen, -⟩ | hold := Replica.promote_eq_some hstored.built hhead
    · rw [length_firstBlocks] at hlen
      exact ⟨(verifyBlock_iff.mp hv).1, hlen.le⟩
    · obtain ⟨hsig, hle⟩ := h.head h' hold
      exact ⟨hsig, hle.trans (Nat.le_succ k)⟩

variable (env) in
/-- The entry of `w` at `i` is of a block of `L` that the room has. -/
def Genuine (room : Room K H Sig SK S F P) (w : K) (L : ℕ → Block) (k i : ℕ) (e : Entry K) : Prop :=
  w ∈ room.remotes ∧ i < k ∧ env.codec.decode (L i) = .ok e

variable (env) in
/-- The room follows `w` along `L`, up to block `k`. -/
structure Follows (w : K) (L : ℕ → Block) (k : ℕ) (room : Room K H Sig SK S F P) : Prop where
  remote : w ≠ room.localKey
  run : ∃ acc, Linearizer.Run acc room.lin
  replica : ∀ r, room.remotes[w]? = some r → FollowsLog env w L k r
  nodes : ∀ i, ⟨w, i⟩ ∈ room.lin.deps → ∃ e, Genuine env room w L k i e ∧
    room.lin.depsOf ⟨w, i⟩ = Linearizer.depSet ⟨w, i⟩ e.heads ∧
    room.payloads[(⟨w, i⟩ : NodeId K)]? = some e.payload
  waits : ∀ p ∈ room.pending, p.1.key = w → Genuine env room w L k p.1.seq p.2

variable {n : NodeId K} {e : Entry K}

omit [DecidableEq H] in
/-- An entry of `w` that the room holds is genuine. -/
theorem Follows.held (h : Follows env w L k room) (hn : n.key = w) (he : room.Held env n e) :
    Genuine env room w L k n.seq e := by
  subst hn
  obtain ⟨r, hr, hget⟩ := (held_remote h.remote).mp he
  obtain ⟨bytes, hbytes, hdec⟩ := Replica.get_eq_some.mp hget
  have hstored := (h.replica r hr).stored
  have hlt : n.seq < k := by
    have := (Replica.block_eq_some.mp hbytes).1
    rwa [hstored.len_eq, length_firstBlocks] at this
  have hblock : r.block env.backend n.seq = .ok (some (L n.seq)) := by
    refine hstored.block ?_
    rw [getElem?_firstBlocks, if_pos hlt]
  rw [hblock] at hbytes
  obtain rfl := Option.some.inj (Except.ok.inj hbytes)
  exact ⟨ExtTreeMap.mem_iff_isSome_getElem?.mpr (by rw [hr]; rfl), hlt, hdec⟩

omit [DecidableEq H] in
/-- Delivering an entry that is genuine if it is of `w`. -/
theorem Follows.deliver (h : Follows env w L k room) {lin : Linearizer K}
    (he : n.key = w → Genuine env room w L k n.seq e) (hadd : room.lin.add n e.heads = (lin, .ok ())) :
    Follows env w L k { room with lin, payloads := room.payloads.insert n e.payload } := by
  obtain ⟨acc, hrun⟩ := h.run
  refine ⟨h.remote, ⟨_, hrun.add hadd⟩, h.replica, fun i hi => ?_, h.waits⟩
  obtain ⟨-, -, -, rfl⟩ := Linearizer.add_eq_ok.mp hadd
  dsimp only
  rw [Linearizer.depsOf_attach, Graph.getElem?_insert]
  by_cases hn : ⟨w, i⟩ = n
  · subst hn
    rw [if_pos rfl, if_pos rfl]
    exact ⟨e, he rfl, rfl, rfl⟩
  · rw [if_neg hn, if_neg hn]
    exact h.nodes i ((Linearizer.mem_attach.mp hi).resolve_left hn)

omit [DecidableEq H] in
/-- Delivering an own entry changes nothing about `w`. -/
theorem Follows.own (h : Follows env w L k room) {heads : List (NodeId K)} {op : Block}
    (hn : n.key = room.localKey) :
    Follows env w L k { room with lin := (room.lin.add n heads).1
                                  payloads := room.payloads.insert n op } := by
  have hne : ∀ i, (⟨w, i⟩ : NodeId K) ≠ n := fun i hi => h.remote ((congrArg NodeId.key hi).trans hn)
  have hpay : ∀ i, (room.payloads.insert n op)[(⟨w, i⟩ : NodeId K)]? =
      room.payloads[(⟨w, i⟩ : NodeId K)]? := by
    intro i
    rw [Graph.getElem?_insert, if_neg (hne i)]
  obtain ⟨acc, hrun⟩ := h.run
  cases hadd : room.lin.add n heads with
  | mk lin res =>
    cases res with
    | error err =>
      have hsame : (room.lin.add n heads).1 = room.lin := Linearizer.add_eq_error (congrArg Prod.snd hadd)
      rw [hadd] at hsame
      dsimp only at hsame
      subst hsame
      refine ⟨h.remote, ⟨acc, hrun⟩, h.replica, fun i hi => ?_, h.waits⟩
      dsimp only
      rw [hpay]
      exact h.nodes i hi
    | ok u =>
      refine ⟨h.remote, ⟨_, hrun.add hadd⟩, h.replica, fun i hi => ?_, h.waits⟩
      obtain ⟨-, -, -, rfl⟩ := Linearizer.add_eq_ok.mp hadd
      dsimp only
      rw [hpay, Linearizer.depsOf_attach, if_neg (hne i)]
      exact h.nodes i ((Linearizer.mem_attach.mp hi).resolve_left (hne i))

omit [DecidableEq H] in
/-- Nor does another base: the nodes and what they depend on stay. -/
theorem Follows.repinned (h : Follows env w L k room) {lin : Linearizer K} {through : ℕ} {indexers : List K}
    (hlin : room.lin.reconfigure through indexers = (lin, .ok ())) : Follows env w L k { room with lin } := by
  obtain ⟨acc, hrun⟩ := h.run
  have hdeps := Linearizer.deps_reconfigure hlin
  refine ⟨h.remote, ⟨acc, hrun.reconfigure hlin⟩, h.replica, fun i hi => ?_, h.waits⟩
  dsimp only at hi ⊢
  rw [Linearizer.depsOf, hdeps]
  exact h.nodes i (hdeps ▸ hi)

omit [DecidableEq H] in
/-- A room with other replicas follows `w` if its replica of `w` does. -/
theorem Follows.replicas {k k' : ℕ} (h : Follows env w L k room) (hk : k ≤ k')
    {remotes : ExtTreeMap K (Replica K H Sig S)} (hmem : w ∈ room.remotes → w ∈ remotes)
    (hr : ∀ r, remotes[w]? = some r → FollowsLog env w L k' r) :
    Follows env w L k' { room with remotes } := by
  have hgen : ∀ {i e}, Genuine env room w L k i e → Genuine env { room with remotes } w L k' i e :=
    fun ⟨hin, hlt, hdec⟩ => ⟨hmem hin, hlt.trans_le hk, hdec⟩
  refine ⟨h.remote, h.run, hr, fun i hi => ?_, fun p hp hpw => hgen (h.waits p hp hpw)⟩
  obtain ⟨e, he, hrest⟩ := h.nodes i hi
  exact ⟨e, hgen he, hrest⟩

theorem Follows.move (hw : OneHistory env w L signed) (ideal : env.crypto.hasher.Ideal)
    (h : Follows env w L k room) (hm : Move env room room') : ∃ k', Follows env w L k' room' := by
  cases hm with
  | other hsame =>
    refine ⟨k, ?_⟩
    obtain ⟨hkey, -, hrem, hdag⟩ := hsame
    obtain ⟨h1, h2, h3, h4, h5⟩ := h
    unfold Genuine at h4 h5
    constructor
    · rwa [hkey]
    · rwa [hdag]
    · rwa [hrem]
    · unfold Genuine
      rwa [hdag, hrem]
    · unfold Genuine
      rwa [hdag, hrem]
  | core hstep => exact ⟨k, h.remote, h.run, h.replica, h.nodes, h.waits⟩
  | @replica w' r r' hr hstep =>
    have hmem : w ∈ room.remotes → w ∈ room.remotes.insert w' r' :=
      fun hin => Graph.mem_insert.mpr (Or.inr hin)
    by_cases heq : w' = w
    · subst heq
      obtain ⟨k', hk, hlog⟩ := (h.replica r hr).move hw ideal hstep
      refine ⟨k', h.replicas hk hmem fun r'' hget => ?_⟩
      rw [Graph.getElem?_insert, if_pos rfl] at hget
      exact Option.some.inj hget ▸ hlog
    · refine ⟨k, h.replicas le_rfl hmem fun r'' hget => ?_⟩
      rw [Graph.getElem?_insert, if_neg (Ne.symm heq)] at hget
      exact h.replica r'' hget
  | @join w' s hw' hin =>
    by_cases heq : w' = w
    · -- nothing of `w` was there
      subst heq
      refine ⟨0, h.remote, h.run, fun r hget => ?_, fun i hi => ?_, fun p hp hpw => ?_⟩
      · change (room.remotes.insert w' (Replica.new w' s))[w']? = some r at hget
        rw [Graph.getElem?_insert, if_pos rfl] at hget
        obtain rfl := Option.some.inj hget
        exact ⟨rfl, Replica.stored_new w' s, fun _ => (nomatch ·)⟩
      · obtain ⟨e, he, -⟩ := h.nodes i hi
        exact absurd he.1 hin
      · exact absurd (h.waits p hp hpw).1 hin
    · refine ⟨k, h.replicas le_rfl (fun hin => Graph.mem_insert.mpr (Or.inr hin)) fun r hget => ?_⟩
      rw [Graph.getElem?_insert, if_neg (Ne.symm heq)] at hget
      exact h.replica r hget
  | @dag d hstep =>
    refine ⟨k, ?_⟩
    cases hstep with
    | deliver hoffer hadd =>
      exact h.deliver (fun hn => hoffer.elim (h.held hn) fun hp => h.waits _ hp hn) hadd
    | buffer hp =>
      refine ⟨h.remote, h.run, h.replica, h.nodes, fun p hmem hpw => ?_⟩
      exact (hp p hmem).elim (h.held hpw) fun hp => h.waits p hp hpw
  | own hn => exact ⟨k, h.own hn⟩
  | repin hlin => exact ⟨k, h.repinned hlin⟩

theorem Follows.moves (hw : OneHistory env w L signed) (ideal : env.crypto.hasher.Ideal)
    (h : Follows env w L k room) (hm : Moves env room room') : ∃ k', Follows env w L k' room' := by
  induction hm with
  | refl => exact ⟨k, h⟩
  | tail _ hstep ih =>
    obtain ⟨k', h'⟩ := ih
    exact h'.move hw ideal hstep

/-- Before its DAG is filled, an opened room follows `w`. -/
theorem Unreplayed.follows (hw : OneHistory env w L signed) {cfg : RoomConfig K SK}
    (h : Unreplayed env cfg room) (hremote : w ≠ room.localKey) : ∃ k, Follows env w L k room := by
  have hlin : room.lin = startLin cfg.indexers := congrArg Dag.lin h.dag
  have hnone : ∀ n, n ∉ room.lin.deps := by
    intro n hn
    rw [hlin, (run_startLin cfg.indexers).valid.holds.mem] at hn
    exact absurd hn List.not_mem_nil
  have hempty : room.pending = [] := congrArg Dag.pending h.dag
  have hlog : ∃ k, ∀ r, room.remotes[w]? = some r → FollowsLog env w L k r := by
    cases hr : room.remotes[w]? with
    | none => exact ⟨0, fun r hr => (nomatch hr)⟩
    | some r =>
      obtain ⟨-, hre⟩ := h.remotes w r hr
      obtain ⟨k, hstored⟩ := hw.kept r hre
      obtain ⟨f, s, f', -, hopen⟩ := hre
      obtain ⟨hkey, hv⟩ := Replica.openReplica_ok hopen
      refine ⟨k, fun r' hr' => ?_⟩
      obtain rfl := Option.some.inj hr'
      refine ⟨hkey, hstored, fun head hhead => ?_⟩
      obtain ⟨hle, -, hsig⟩ := (hstored.intact hv).vouched head hhead
      rw [length_firstBlocks] at hle
      exact ⟨hkey ▸ hsig, hle⟩
  obtain ⟨k, hlog⟩ := hlog
  refine ⟨k, hremote, ⟨[], hlin ▸ run_startLin cfg.indexers⟩, hlog, fun i hi => absurd hi (hnone _), ?_⟩
  rw [hempty]
  exact fun p hp => absurd hp List.not_mem_nil

variable [DecidableEq Sig]

/-- **Replication is safe against arbitrary peers.** In every room reached by any
calls from an opened one, with whatever messages, the replica of `w` holds the first
`k` blocks of `L`; its verified head is one `w` signed, over a prefix of them; and
every ordered node of `w` is of one of these blocks, with its payload and heads. -/
theorem replica_safe (ideal : env.crypto.hasher.Ideal) (hb : env.backend.Lawful)
    (hw : OneHistory env w L signed) {cfg : RoomConfig K SK}
    (hremote : w ≠ env.crypto.publicOf cfg.identity) {f : F} {p : P}
    (hopen : openRoom env cfg f p = .ok room₀) (h : Reached env room₀ room) :
    ∃ k, (∀ r, room.remotes[w]? = some r → r.len = k ∧
        (∀ i, r.block env.backend i = .ok (if i < k then some (L i) else none)) ∧
        ∀ head, r.verifiedHead = some head → signed head.message ∧ head.length ≤ k ∧
          head.root = env.crypto.hasher.treeHash
            (rootsOf env.crypto.hasher (firstBlocks L head.length))) ∧
      ∀ i, ⟨w, i⟩ ∈ room.order → w ∈ room.remotes ∧ i < k ∧ ∃ e, env.codec.decode (L i) = .ok e ∧
        room.payloads[(⟨w, i⟩ : NodeId K)]? = some e.payload ∧
        room.lin.depsOf ⟨w, i⟩ = Linearizer.depSet ⟨w, i⟩ e.heads := by
  obtain ⟨base, hbase, -, hmoves, -⟩ := openRoom_ok hopen
  obtain ⟨k₀, hstart⟩ := hbase.follows hw (hbase.localKey ▸ hremote)
  obtain ⟨k, hfollows⟩ := hstart.moves hw ideal (hmoves.trans (h.moves hb))
  refine ⟨k, fun r hr => ?_, fun i hi => ?_⟩
  · have hlog := hfollows.replica r hr
    have hlen : r.len = k := hlog.stored.len_eq.trans (length_firstBlocks L k)
    refine ⟨hlen, fun i => ?_, fun head hhead => ?_⟩
    · split_ifs with hi
      · refine hlog.stored.block ?_
        rw [getElem?_firstBlocks, if_pos hi]
      · exact Replica.block_of_len_le (by omega)
    · obtain ⟨hsig, hle⟩ := hlog.head head hhead
      have hsigned := hw.unforgeable _ _ hsig
      exact ⟨hsigned, hle, hw.roots _ hsigned⟩
  · obtain ⟨acc, hrun⟩ := hfollows.run
    have hmem := ((Linearizer.order_view hrun.valid.wf hrun.valid.base).2.1 _).mp hi
    obtain ⟨e, ⟨hin, hlt, hdec⟩, hdeps, hpay⟩ := hfollows.nodes i hmem
    exact ⟨hin, hlt, e, hdec, hpay, hdeps⟩

end Follow

/-! ### A writer that keeps to one history -/

/-- The history of writer 1: its entry `i` says `i`. -/
def countingLog (i : ℕ) : Block := entryCodec.encode ⟨[], [UInt8.ofNat i]⟩

/-- Signatures under which writer 1 never signed a head of anything else. -/
def countingCrypto : Crypto WriterKey Digest (WriterKey × HeadMessage Digest) ℕ where
  hasher := .symbolic
  validKey _ := true
  publicOf _ := 0
  sign _ m := (0, m)
  verify pk m sig := if pk = 1 then
    m.root = Hasher.symbolic.treeHash (rootsOf .symbolic (firstBlocks countingLog m.length))
    else sig = (pk, m)
  verify_sign _ m := by
    have hne : ¬ (0 : WriterKey) = 1 := by decide +kernel
    rw [if_neg hne]
    exact decide_eq_true rfl

def countingEnv : MemoryEnv := { inMemory with crypto := countingCrypto }

theorem countingEnv_oneHistory : OneHistory countingEnv 1 countingLog fun m =>
    m.root = Hasher.symbolic.treeHash (rootsOf .symbolic (firstBlocks countingLog m.length)) where
  unforgeable m sig hv := by
    have hv' : decide (m.root = Hasher.symbolic.treeHash
      (rootsOf .symbolic (firstBlocks countingLog m.length))) = true := hv
    exact of_decide_eq_true hv'
  roots _ h := h
  kept r h := by
    obtain ⟨f, s, f', hs, hr⟩ := h
    cases hs
    cases hr

/-- Two blocks of writer 1 arrive, the second one twice and before the first. -/
theorem replica_safe_counting : ∃ room₀ room,
    openRoom countingEnv ⟨0, [], .original⟩ () () = .ok room₀ ∧ Reached countingEnv room₀ room ∧
    ⟨1, 1⟩ ∈ room.order ∧ room.payloads[(⟨1, 1⟩ : NodeId WriterKey)]? = some [1] := by
  have hrun : (openedAfter countingEnv [signedBlock 1 (firstBlocks countingLog 2) 1,
      signedBlock 1 (firstBlocks countingLog 2) 0, signedBlock 1 (firstBlocks countingLog 2) 1]).any
      (fun room => ⟨1, 1⟩ ∈ room.order) = true := by
    decide +kernel
  obtain ⟨room, hroom, hcheck⟩ := (Option.any_eq_true _ _).mp hrun
  obtain ⟨room₀, hopen, hreach⟩ := openedAfter_reached hroom
  have hmem := of_decide_eq_true hcheck
  obtain ⟨k, -, hnodes⟩ := replica_safe Hasher.symbolic_ideal Backend.memory_lawful
    countingEnv_oneHistory (by decide +kernel) hopen hreach
  obtain ⟨-, -, e, hdec, hpay, -⟩ := hnodes 1 hmem
  have hread : entryCodec.decode (countingLog 1) = .ok ⟨[], [1]⟩ := by decide +kernel
  rw [show countingEnv.codec.decode (countingLog 1) = .ok ⟨[], [1]⟩ from hread] at hdec
  obtain rfl := Except.ok.inj hdec
  exact ⟨room₀, room, hopen, hreach, hmem, hpay⟩

end Room
end HypercoreRs
