/-
# What a room serves

A room advertises its own head and, for every replica with a verified head, that
head's length (`announce`); a peer then asks for the blocks. `Sound` is the
invariant of every run: the local log and every replica are intact.

The proofs of a replica come from its tree, the head it serves with them is the last
one its whole tree matched. A replica that took in a block of a longer transfer has
a tree longer than that head, and none of its proofs is a proof against it. So what
a room serves verifies exactly when no replica is in that state (`serves_iff_settled`).
-/
import HypercoreRs.Room.Runs

namespace HypercoreRs

open Std Merkle Command

namespace Room

variable {K H Sig SK S E F P St : Type} [LinearOrder K] [DecidableEq H]
variable (env : Env K H Sig SK S E F P St) {room room' room₀ : Room K H Sig SK S F P}

/-! ### The logs of a room are intact -/

/-- The local log is the local writer's, every replica another writer's, and all
are intact. -/
structure Sound (room : Room K H Sig SK S F P) : Prop where
  author : env.crypto.publicOf room.localCore.author = room.localKey
  core : ∃ B, Hypercore.Intact env.crypto env.backend B room.localCore
  remotes : ∀ (w : K) (r : Replica K H Sig S), room.remotes[w]? = some r →
    w ≠ room.localKey ∧ r.publicKey = w ∧ ∃ B, Replica.Intact env.crypto env.backend B r

variable {env}

theorem Opened.sound (h : Opened env room) (hkept : env.Kept) : Sound env room := by
  refine ⟨h.author, ?_, fun w r hr => ?_⟩
  · obtain ⟨store, hcore⟩ | ⟨f, s, f', hs, hcore⟩ := h.core
    · rw [hcore]
      exact ⟨[], (Hypercore.stored_new _ store).intact rfl⟩
    · obtain ⟨B, hB⟩ := hkept.core _ _ _ _ hs _ _ hcore
      exact ⟨B, hB.intact (Hypercore.openCore_ok hcore).2⟩
  · obtain ⟨hw, f, s, f', hs, hopen⟩ := h.remotes w r hr
    obtain ⟨hk, hv⟩ := Replica.openReplica_ok hopen
    obtain ⟨B, hB⟩ := hkept.replica _ _ _ _ hs _ hopen
    exact ⟨hw, hk, B, hB.intact hv⟩

theorem Sound.move (h : Sound env room) (hm : Move env room room') : Sound env room' := by
  cases hm with
  | other hsame =>
    refine ⟨?_, ?_, ?_⟩
    · rw [hsame.localCore, hsame.localKey]; exact h.author
    · rw [hsame.localCore]; exact h.core
    · rw [hsame.remotes, hsame.localKey]; exact h.remotes
  | core hstep =>
    obtain ⟨B, hB⟩ := h.core
    obtain ⟨more, hmore⟩ := hB.move hstep
    exact ⟨(congrArg _ hstep.author_eq).trans h.author, ⟨_, hmore⟩, h.remotes⟩
  | @replica w r r' hr hstep =>
    refine ⟨h.author, h.core, fun w' r'' hget => ?_⟩
    change (room.remotes.insert w r')[w']? = some r'' at hget
    rw [Graph.getElem?_insert] at hget
    split_ifs at hget with heq
    · obtain rfl := Option.some.inj hget
      obtain ⟨hw, hk, B, hB⟩ := h.remotes w r hr
      obtain ⟨more, hmore⟩ := hB.move hstep
      exact ⟨heq ▸ hw, hstep.publicKey_eq.trans (hk.trans heq.symm), _, hmore⟩
    · exact h.remotes w' r'' hget
  | @join w s hw hin =>
    refine ⟨h.author, h.core, fun w' r hget => ?_⟩
    change (room.remotes.insert w (Replica.new w s))[w']? = some r at hget
    rw [Graph.getElem?_insert] at hget
    split_ifs at hget with heq
    · obtain rfl := Option.some.inj hget
      exact ⟨heq ▸ hw, heq.symm, [], Replica.stored_new w s, fun _ => (nomatch ·)⟩
    · exact h.remotes w' r hget
  | dag _ => exact ⟨h.author, h.core, h.remotes⟩
  | own _ => exact ⟨h.author, h.core, h.remotes⟩
  | repin _ => exact ⟨h.author, h.core, h.remotes⟩

theorem Sound.moves (h : Sound env room) (hm : Moves env room room') : Sound env room' := by
  induction hm with
  | refl => exact h
  | tail _ hstep ih => exact ih.move hstep

variable [DecidableEq Sig]

/-- Every room a run reaches is sound. -/
theorem Reached.sound (hb : env.backend.Lawful) (hkept : env.Kept) {cfg : RoomConfig K SK} {f : F} {p : P}
    (hopen : openRoom env cfg f p = .ok room₀) (h : Reached env room₀ room) : Sound env room := by
  obtain ⟨base, hbase, -, hmoves, -⟩ := openRoom_ok hopen
  exact ((hbase.toOpened.sound hkept).moves hmoves).moves (h.moves hb)

/-! ### Adverts and replies -/

/-- The room advertises `n` blocks of `w`. -/
def Advertises (room : Room K H Sig SK S F P) (w : K) (n : ℕ) : Prop :=
  0 < n ∧ ∃ o ∈ room.announce, o.msg = .have_ w n ∨ ∃ head, o.msg = .head w head ∧ head.length = n

variable (env) in
/-- `o` sends `peer` the block `i` of `w` that the room holds, and it verifies. -/
def Serves (room : Room K H Sig SK S F P) (peer w : K) (i : ℕ) (o : Outbound K H Sig) : Prop :=
  ∃ head bytes proof, o = ⟨.block w head i bytes proof, .peer peer⟩ ∧
    room.blockAt env ⟨w, i⟩ = .ok (some bytes) ∧
    verifyBlock env.crypto w head i bytes proof = true

/-- Deliver the blocks of a reply to a replica. -/
def feed {S' E' : Type} (c : Crypto K H Sig SK) (b : Backend S' E' H Sig) :
    List (Outbound K H Sig) → EStateM (CoreError E') (Replica K H Sig S') Unit
  | [] => pure ()
  | ⟨.block _ head index bytes proof, _⟩ :: rest => do
    let _ ← Replica.addBlock c b head index bytes proof
    feed c b rest
  | _ :: rest => feed c b rest

variable (env) in
/-- A reply with exactly the blocks from `start` to `n`, each of which verifies.
Delivered in order, they bring a replica that holds `start` blocks to `n`, if its
store takes every write. -/
structure GoodReply (room : Room K H Sig SK S F P) (peer w : K)
    (start n : ℕ) (reply : List (Outbound K H Sig)) : Prop where
  blocks : List.Forall₂ (Serves env room peer w) (List.range' start (n - start)) reply
  fills : ∀ {S' E' : Type} (b : Backend S' E' H Sig), (∀ k v s, ∃ s', b.put k v s = .ok () s') →
    ∀ r : Replica K H Sig S', r.publicKey = w → r.len = start →
      ∃ r', feed env.crypto b reply r = .ok () r' ∧ r'.len = n

variable (env) in
/-- Whatever is advertised is served, from any start. -/
def ServesAll (room : Room K H Sig SK S F P) : Prop :=
  ∀ w n, room.Advertises w n → ∀ peer start, start < n →
    ∃ reply, onInbound env peer (.want w start n) room = .ok reply room ∧
      GoodReply env room peer w start n reply

/-- No replica runs ahead of its verified head. -/
def Settled (room : Room K H Sig SK S F P) : Prop :=
  ∀ (w : K) (r : Replica K H Sig S) (head : SignedHead H Sig), room.remotes[w]? = some r →
    r.verifiedHead = some head → 0 < head.length → r.len = head.length

instance (room : Room K H Sig SK S F P) : Decidable (Settled room) :=
  decidable_of_iff (∀ p ∈ room.remotes.toList, ∀ head ∈ p.2.verifiedHead,
      0 < head.length → p.2.len = head.length) <| by
    constructor
    · intro h w r head hr hhead
      exact h (w, r) (ExtTreeMap.mem_toList_iff_getElem?_eq_some.mpr hr) head hhead
    · intro h p hp head hhead
      exact h p.1 p.2 head (ExtTreeMap.mem_toList_iff_getElem?_eq_some.mp hp) hhead

/-! ### Serving -/

omit [DecidableEq H] [DecidableEq Sig] [LinearOrder K] in
/-- A reply to a range that is all there has every block of it. -/
theorem serve_eq (w peer : K) (head : SignedHead H Sig) (block : ℕ → Except (CoreError E) (Option Block))
    (proof : ℕ → Option (Merkle.Proof H)) (R : ℕ → Outbound K H Sig → Prop) : ∀ (is : List ℕ),
    (∀ i ∈ is, ∃ bytes p, block i = .ok (some bytes) ∧ proof i = some p ∧
      R i ⟨.block w head i bytes p, .peer peer⟩) →
    ∃ reply, serve w peer head block proof is = .ok reply ∧ List.Forall₂ R is reply
  | [], _ => ⟨[], rfl, .nil⟩
  | i :: is, h => by
    obtain ⟨bytes, p, hblock, hproof, hR⟩ := h i List.mem_cons_self
    obtain ⟨rest, hrest, hall⟩ :=
      serve_eq w peer head block proof R is fun j hj => h j (List.mem_cons_of_mem _ hj)
    refine ⟨_ :: rest, ?_, .cons hR hall⟩
    rw [serve, hblock, hproof, hrest]
    rfl

variable {peer w : K}

omit [DecidableEq Sig] in
/-- A row of blocks that verify fills a replica up to its end. -/
theorem feed_served {S' E' : Type} {b : Backend S' E' H Sig} (hput : ∀ k v s, ∃ s', b.put k v s = .ok () s') :
    ∀ (count : ℕ) {reply : List (Outbound K H Sig)} {r : Replica K H Sig S'}, r.publicKey = w →
    List.Forall₂ (Serves env room peer w) (List.range' r.len count) reply →
    ∃ r', feed env.crypto b reply r = .ok () r' ∧ r'.len = r.len + count
  | 0, _, r, _, hall => by
    rw [List.range'_zero, List.forall₂_nil_left_iff] at hall
    subst hall
    exact ⟨r, rfl, rfl⟩
  | count + 1, reply, r, hkey, hall => by
    rw [List.range'_succ, List.forall₂_cons_left_iff] at hall
    obtain ⟨o, rest, ⟨head, bytes, proof, rfl, -, hv⟩, hall, rfl⟩ := hall
    obtain ⟨r₁, hadd, hlen, hkey₁⟩ := Replica.addBlock_next hput (hkey ▸ hv)
    rw [← hlen] at hall
    obtain ⟨r', hfeed, hlen'⟩ := feed_served hput count (hkey₁.trans hkey) hall
    refine ⟨r', bind_eq_ok.mpr ⟨true, r₁, hadd, hfeed⟩, ?_⟩
    rw [hlen', hlen]
    omega

theorem onInbound_want (peer w : K) (start n : ℕ) (room : Room K H Sig SK S F P) :
    onInbound env peer (.want w start n) room =
      reads .hypercore (room.serveWant env peer w start n) room := rfl

/-- A range whose blocks are held and verify gets a good reply. -/
theorem goodReply {start n : ℕ} (head : SignedHead H Sig)
    (block : ℕ → Except (CoreError E) (Option Block)) (proof : ℕ → Option (Merkle.Proof H))
    (hstart : start < n) (hwant : room.serveWant env peer w start n =
      serve w peer head block proof (List.range' start (n - start)))
    (hblocks : ∀ i < n, ∃ bytes p, block i = .ok (some bytes) ∧ proof i = some p ∧
      room.blockAt env ⟨w, i⟩ = .ok (some bytes) ∧
      verifyBlock env.crypto w head i bytes p = true) :
    ∃ reply, onInbound env peer (.want w start n) room = .ok reply room ∧
      GoodReply env room peer w start n reply := by
  obtain ⟨reply, hserve, hall⟩ := serve_eq w peer head block proof (Serves env room peer w)
      (List.range' start (n - start)) fun i hi => by
    rw [List.mem_range'_1] at hi
    obtain ⟨bytes, p, hblock, hproof, hat, hv⟩ := hblocks i (by omega)
    exact ⟨bytes, p, hblock, hproof, head, bytes, p, rfl, hat, hv⟩
  refine ⟨reply, ?_, hall, fun b hput r hkey hlen => ?_⟩
  · rw [onInbound_want, hwant, hserve]
    rfl
  · subst hlen
    obtain ⟨r', hfeed, hlen'⟩ := feed_served hput (n - r.len) hkey hall
    exact ⟨r', hfeed, by omega⟩

variable {start : ℕ} {head : SignedHead H Sig}

/-- The local log is always served. -/
theorem Sound.serves_own (h : Sound env room) {peer : K} (hhead : room.localCore.head = some head)
    (hstart : start < head.length) :
    ∃ reply, onInbound env peer (.want room.localKey start head.length) room = .ok reply room ∧
      GoodReply env room peer room.localKey start head.length reply := by
  obtain ⟨B, hB⟩ := h.core
  obtain ⟨hlen, hroot, hsig⟩ := hB.signed head hhead
  refine goodReply head (room.localCore.block env.backend) room.localCore.proof hstart ?_ fun i hi => ?_
  · rw [serveWant, if_pos rfl, hhead, hB.len_eq, hlen, Nat.min_self]
  · have hi' : i < B.length := hlen ▸ hi
    have hdata : B[i]? = some (B.get ⟨i, hi'⟩) := List.getElem?_eq_getElem hi'
    obtain ⟨p, hp, hpi, hv⟩ := hB.built.proof hdata
    refine ⟨_, p, hB.block hdata, hp, ?_, ?_⟩
    · rw [blockAt, if_pos rfl]
      exact hB.block hdata
    · rw [← h.author]
      exact verifyBlock_iff.mpr ⟨hsig, hpi, hroot ▸ hv⟩

variable {r : Replica K H Sig S}

/-- A replica at its verified head is served. -/
theorem Sound.serves_remote (h : Sound env room) (hr : room.remotes[w]? = some r)
    (hhead : r.verifiedHead = some head)
    (hat : r.len = head.length) (hstart : start < head.length) :
    ∃ reply, onInbound env peer (.want w start head.length) room = .ok reply room ∧
      GoodReply env room peer w start head.length reply := by
  obtain ⟨hw, hkey, B, hB⟩ := h.remotes w r hr
  obtain ⟨-, hroot, hsig⟩ := hB.vouched head hhead
  have hlen : head.length = B.length := hat.symm.trans hB.toStored.len_eq
  rw [hlen, List.take_length] at hroot
  refine goodReply head (r.block env.backend) r.proof hstart ?_ fun i hi => ?_
  · rw [serveWant, if_neg hw, hr]
    dsimp only
    rw [hhead]
    dsimp only
    rw [Nat.min_self]
  · have hi' : i < B.length := hlen ▸ hi
    have hdata : B[i]? = some (B.get ⟨i, hi'⟩) := List.getElem?_eq_getElem hi'
    obtain ⟨p, hp, hpi, hv⟩ := hB.built.proof hdata
    refine ⟨_, p, hB.toStored.block hdata, hp, ?_, ?_⟩
    · rw [blockAt, if_neg hw]
      dsimp only
      rw [hr]
      exact hB.toStored.block hdata
    · exact verifyBlock_iff.mpr ⟨hkey ▸ hsig, hpi, hroot ▸ hv⟩

omit [DecidableEq H] [DecidableEq Sig] in
theorem advertises_remote {w : K} (hr : room.remotes[w]? = some r) (hhead : r.verifiedHead = some head)
    (hpos : 0 < head.length) :
    room.Advertises w head.length := by
  refine ⟨hpos, ⟨.have_ w head.length, .gossip⟩, List.mem_cons_of_mem _ ?_, Or.inl rfl⟩
  refine List.mem_filterMap.mpr ⟨(w, r), ExtTreeMap.mem_toList_iff_getElem?_eq_some.mpr hr, ?_⟩
  dsimp only
  rw [hhead]
  exact if_pos hpos

omit [DecidableEq H] [DecidableEq Sig] in
/-- What is advertised is the own head, or the verified head of a replica. -/
theorem advertises_cases {w : K} {n : ℕ} (h : room.Advertises w n) :
    (w = room.localKey ∧ ∃ head, room.localCore.head = some head ∧ head.length = n) ∨
      ∃ r head, room.remotes[w]? = some r ∧ r.verifiedHead = some head ∧ head.length = n := by
  obtain ⟨hpos, o, ho, hmsg⟩ := h
  obtain rfl | ho := List.mem_cons.mp ho
  · left
    cases hhead : room.localCore.head with
    | none =>
      rw [hhead] at hmsg
      obtain hmsg | ⟨head, hmsg, -⟩ := hmsg
      · obtain ⟨-, rfl⟩ := SyncMessage.have_.inj hmsg
        exact absurd hpos (Nat.lt_irrefl 0)
      · cases hmsg
    | some head =>
      rw [hhead] at hmsg
      obtain hmsg | ⟨head', hmsg, hn⟩ := hmsg
      · cases hmsg
      · obtain ⟨hw, rfl⟩ := SyncMessage.head.inj hmsg
        exact ⟨hw.symm, head, rfl, hn⟩
  · right
    obtain ⟨⟨w', r⟩, hr, ho⟩ := List.mem_filterMap.mp ho
    have hget := ExtTreeMap.mem_toList_iff_getElem?_eq_some.mp hr
    dsimp only at ho
    cases hhead : r.verifiedHead with
    | none =>
      rw [hhead] at ho
      cases ho
    | some head =>
      rw [hhead] at ho
      dsimp only at ho
      split_ifs at ho
      obtain rfl := Option.some.inj ho
      obtain hmsg | ⟨head', hmsg, -⟩ := hmsg
      · obtain ⟨rfl, hn⟩ := SyncMessage.have_.inj hmsg
        exact ⟨r, head, hget, hhead, hn⟩
      · cases hmsg

/-- A replica ahead of its verified head serves no block that verifies. -/
theorem Sound.settled (ideal : env.crypto.hasher.Ideal) (h : Sound env room)
    (hall : ServesAll env room) : Settled room := by
  intro w r head hr hhead hpos
  obtain ⟨hw, -, B, hB⟩ := h.remotes w r hr
  obtain ⟨hle, hroot, -⟩ := hB.vouched head hhead
  obtain ⟨reply, hreply, hgood⟩ := hall w head.length (advertises_remote hr hhead hpos) w 0 hpos
  -- the reply is of the replica's own proofs
  obtain ⟨reply', hserve, hown⟩ := serve_eq w w head (r.block env.backend) r.proof
      (fun i o => ∃ bytes p, o = ⟨.block w head i bytes p, .peer w⟩ ∧ r.proof i = some p)
      (List.range' 0 head.length) fun i hi => by
    have hlt : i < B.length := by
      rw [List.mem_range'_1] at hi
      omega
    have hdata : B[i]? = some (B.get ⟨i, hlt⟩) := List.getElem?_eq_getElem hlt
    obtain ⟨p, hp, -⟩ := hB.built.proof hdata
    exact ⟨_, p, hB.toStored.block hdata, hp, _, p, rfl, hp⟩
  have hwant : room.serveWant env w w 0 head.length = .ok reply' := by
    rw [serveWant, if_neg hw, hr]
    dsimp only
    rw [hhead]
    dsimp only
    rw [Nat.min_self, Nat.sub_zero, hserve]
  rw [onInbound_want, hwant] at hreply
  obtain rfl : reply' = reply := by
    cases hreply
    rfl
  have hblocks := hgood.blocks
  obtain ⟨n, hn⟩ : ∃ n, head.length = n + 1 := ⟨head.length - 1, by omega⟩
  rw [hn, Nat.sub_zero, List.range'_succ, List.forall₂_cons_left_iff] at hblocks
  rw [hn, List.range'_succ, List.forall₂_cons_left_iff] at hown
  obtain ⟨o, rest, ⟨bytes, p, rfl, hp⟩, -, rfl⟩ := hown
  obtain ⟨o', rest', ⟨head', bytes', p', ho, -, hv⟩, -, heq⟩ := hblocks
  rw [← (List.cons.inj heq).1] at ho
  obtain ⟨-, rfl, -, rfl, rfl⟩ := SyncMessage.block.inj (congrArg Outbound.msg ho)
  have hverify := (verifyBlock_iff.mp hv).2.2
  rw [hroot] at hverify
  have hlen := hB.built.length_of_verify ideal hp hverify
  rw [List.length_take, Nat.min_eq_left hle] at hlen
  exact hB.toStored.len_eq.trans hlen

/-- **What a room serves verifies exactly when no replica is ahead of its verified
head.** In every room reached from an opened one by any calls, failed ones included. -/
theorem serves_iff_settled (ideal : env.crypto.hasher.Ideal) (hb : env.backend.Lawful)
    (hkept : env.Kept) {cfg : RoomConfig K SK} {f : F} {p : P} (hopen : openRoom env cfg f p = .ok room₀)
    (h : Reached env room₀ room) :
    ServesAll env room ↔ Settled room := by
  have hsound := h.sound hb hkept hopen
  refine ⟨hsound.settled ideal, fun hsettled w n hadv peer start hstart => ?_⟩
  obtain ⟨rfl, head, hhead, rfl⟩ | ⟨r, head, hr, hhead, rfl⟩ := advertises_cases hadv
  · exact hsound.serves_own hhead hstart
  · exact hsound.serves_remote hr hhead (hsettled w r head hr hhead (by omega)) hstart

/-! ### A relay in memory -/

/-- Four entries of writer 1. -/
def relayed : List Block := [7, 8, 9, 10].map fun b => entryCodec.encode ⟨[], [b]⟩

/-- With two blocks and the head of two, the relay is settled and serves both. -/
theorem serves_settled_relay : ∃ room₀ room, openRoom inMemory ⟨0, [], .original⟩ () () = .ok room₀ ∧
    Reached inMemory room₀ room ∧ Settled room ∧ room.Advertises 1 2 ∧ ServesAll inMemory room := by
  have hrun : (openedAfter inMemory [signedBlock 1 (relayed.take 2) 0, signedBlock 1 (relayed.take 2) 1]).any
      (fun room => Settled room ∧ ∃ r ∈ room.remotes[(1 : WriterKey)]?,
        ∃ head ∈ r.verifiedHead, head.length = 2) = true := by
    decide +kernel
  obtain ⟨room, hroom, hcheck⟩ := (Option.any_eq_true _ _).mp hrun
  obtain ⟨hsettled, r, hr, head, hhead, hlen⟩ := of_decide_eq_true hcheck
  obtain ⟨room₀, hopen, hreach⟩ := openedAfter_reached hroom
  refine ⟨room₀, room, hopen, hreach, hsettled, ?_, ?_⟩
  · have hadv := advertises_remote hr hhead (by omega)
    rwa [hlen] at hadv
  · exact (serves_iff_settled Hasher.symbolic_ideal Backend.memory_lawful inMemory_kept hopen
      hreach).mpr hsettled

/-- The first block of the reply for `w` does not verify. -/
def misserves (room : Room K H Sig SK S F P) (env : Env K H Sig SK S E F P St) (peer w : K) (n : ℕ) : Bool :=
  match room.serveWant env peer w 0 n with
  | .ok (⟨.block w head i bytes p, _⟩ :: _) => !verifyBlock env.crypto w head i bytes p
  | _ => false

/-- After the first two blocks under the head of two and the third under the head of
four, the relay advertises two blocks and serves them with proofs of three. -/
theorem ahead_relay_misserves : ∃ room₀ room, openRoom inMemory ⟨0, [], .original⟩ () () = .ok room₀ ∧
    Reached inMemory room₀ room ∧ ¬ ServesAll inMemory room := by
  have hrun : (openedAfter inMemory [signedBlock 1 (relayed.take 2) 0, signedBlock 1 (relayed.take 2) 1,
      signedBlock 1 relayed 2]).any (fun room => room.misserves inMemory 9 1 2 = true ∧
        ∃ r ∈ room.remotes[(1 : WriterKey)]?, ∃ head ∈ r.verifiedHead, head.length = 2) = true := by
    decide +kernel
  obtain ⟨room, hroom, hcheck⟩ := (Option.any_eq_true _ _).mp hrun
  obtain ⟨hbad, r, hr, head, hhead, hlen⟩ := of_decide_eq_true hcheck
  obtain ⟨room₀, hopen, hreach⟩ := openedAfter_reached hroom
  refine ⟨room₀, room, hopen, hreach, fun hall => ?_⟩
  have hadv := advertises_remote hr hhead (by omega)
  rw [hlen] at hadv
  obtain ⟨reply, hreply, hgood⟩ := hall 1 2 hadv 9 0 (by omega)
  rw [onInbound_want] at hreply
  have hwant : room.serveWant inMemory 9 1 0 2 = .ok reply := by
    cases hs : room.serveWant inMemory 9 1 0 2 with
    | error e => rw [hs] at hreply; cases hreply
    | ok reply' => rw [hs] at hreply; cases hreply; rfl
  have hblocks := hgood.blocks
  rw [show List.range' 0 (2 - 0) = [0, 1] from rfl, List.forall₂_cons_left_iff] at hblocks
  obtain ⟨o, rest, ⟨head', bytes, p, rfl, -, hv⟩, -, rfl⟩ := hblocks
  rw [misserves, hwant] at hbad
  dsimp only at hbad
  rw [hv] at hbad
  cases hbad

end Room
end HypercoreRs
