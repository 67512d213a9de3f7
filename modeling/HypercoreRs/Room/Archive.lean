/-
# Archives

`snapshotFeeds` archives every feed of a room: the writer's key, its signed head and
all its blocks, from which `verifyArchivedFeed` is to authenticate the feed again
without the room.

A replica in the middle of a transfer holds more blocks than its verified head
signs, and all of them go into the archive with that head. So an archive verifies
exactly when every replica with a verified head is at it (`archive_verifies_iff_level`).
-/
import HypercoreRs.Room.Serve

namespace HypercoreRs

open Std Merkle Command

/-- One writer's feed in an archive. -/
structure FeedSnapshot (K H Sig : Type) where
  writer : K
  head : SignedHead H Sig
  blocks : List Block

namespace Room

variable {K H Sig SK S E F P St : Type} [LinearOrder K] [DecidableEq H]
variable (env : Env K H Sig SK S E F P St) {room room₀ : Room K H Sig SK S F P}

/-- The blocks at the given indices; a missing one is skipped. -/
def collectBlocks (block : ℕ → Except (CoreError E) (Option Block)) :
    List ℕ → Except (CoreError E) (List Block)
  | [] => .ok []
  | i :: is => do
    let bytes? ← block i
    let rest ← collectBlocks block is
    return bytes?.toList ++ rest

/-- The archive of one log, if it has a head. -/
def snapshotFeed (writer : K) (head? : Option (SignedHead H Sig)) (len : ℕ)
    (block : ℕ → Except (CoreError E) (Option Block)) :
    Except (CoreError E) (List (FeedSnapshot K H Sig)) :=
  match head? with
  | none => .ok []
  | some head => do
    let blocks ← collectBlocks block (List.range len)
    return [⟨writer, head, blocks⟩]

def snapshotRemotes : List (K × Replica K H Sig S) →
    Except (CoreError E) (List (FeedSnapshot K H Sig))
  | [] => .ok []
  | (writer, r) :: rest => do
    let feed ← snapshotFeed writer r.verifiedHead r.len (r.block env.backend)
    let feeds ← snapshotRemotes rest
    return feed ++ feeds

/-- The archive of every feed: the local one, then the replicas in the order of
their writers. -/
def snapshotFeeds (room : Room K H Sig SK S F P) : Except (RoomError E) (List (FeedSnapshot K H Sig)) :=
  .mapError .hypercore do
    let own ← snapshotFeed room.localKey room.localCore.head room.localCore.len
      (room.localCore.block env.backend)
    let others ← snapshotRemotes env room.remotes.toList
    return own ++ others

/-- Every feed passes the check of an archive under its writer's key. -/
def Verifies (c : Crypto K H Sig SK) (feeds : List (FeedSnapshot K H Sig)) : Prop :=
  ∀ feed ∈ feeds, verifyArchivedFeed c feed.writer feed.head feed.blocks = true

/-- Every replica with a verified head is exactly at it. -/
def Level (room : Room K H Sig SK S F P) : Prop :=
  ∀ (w : K) (r : Replica K H Sig S) (head : SignedHead H Sig), room.remotes[w]? = some r →
    r.verifiedHead = some head → r.len = head.length

instance (room : Room K H Sig SK S F P) : Decidable (Level room) :=
  decidable_of_iff (∀ p ∈ room.remotes.toList, ∀ head ∈ p.2.verifiedHead, p.2.len = head.length) <| by
    constructor
    · intro h w r head hr hhead
      exact h (w, r) (ExtTreeMap.mem_toList_iff_getElem?_eq_some.mpr hr) head hhead
    · intro h p hp head hhead
      exact h p.1 p.2 head (ExtTreeMap.mem_toList_iff_getElem?_eq_some.mp hp) hhead

/-! ### Collecting -/

variable {env}

variable {block : ℕ → Except (CoreError E) (Option Block)} {B : List Block}

theorem collectBlocks_eq {is : List ℕ} (h : List.Forall₂ (fun i bytes => block i = .ok (some bytes)) is B) :
    collectBlocks block is = .ok B := by
  induction h with
  | nil => rfl
  | cons hi _ ih =>
    rw [collectBlocks, hi, ih]
    rfl

omit [LinearOrder K] [DecidableEq H] in
/-- A log whose blocks are all there is archived whole. -/
theorem snapshotFeed_eq {w : K} {head : SignedHead H Sig}
    (h : ∀ (i : ℕ) (bytes : Block), B[i]? = some bytes → block i = .ok (some bytes)) :
    snapshotFeed w (some head) B.length block = .ok [⟨w, head, B⟩] := by
  have hall : List.Forall₂ (fun i bytes => block i = .ok (some bytes)) (List.range B.length) B := by
    refine List.forall₂_iff_get.mpr ⟨List.length_range, fun i hi hB => ?_⟩
    rw [List.get_eq_getElem, List.getElem_range]
    exact h i _ (List.getElem?_eq_getElem hB)
  rw [snapshotFeed, collectBlocks_eq hall]
  rfl

variable {c : Crypto K H Sig SK}

omit [LinearOrder K] in
theorem verifies_append {feeds feeds' : List (FeedSnapshot K H Sig)} :
    Verifies c (feeds ++ feeds') ↔ Verifies c feeds ∧ Verifies c feeds' :=
  List.forall_mem_append

/-- The archive of the local log verifies. -/
theorem Sound.snapshot_own (h : Sound env room) :
    ∃ feeds, snapshotFeed room.localKey room.localCore.head room.localCore.len
      (room.localCore.block env.backend) = .ok feeds ∧ Verifies env.crypto feeds := by
  obtain ⟨B, hB⟩ := h.core
  cases hhead : room.localCore.head with
  | none => exact ⟨[], rfl, fun _ => (nomatch ·)⟩
  | some head =>
    obtain ⟨hlen, hroot, hsig⟩ := hB.signed head hhead
    refine ⟨_, hB.len_eq ▸ snapshotFeed_eq fun i bytes hi => hB.block hi, fun feed hfeed => ?_⟩
    obtain rfl := List.mem_singleton.mp hfeed
    rw [← h.author]
    exact verifyArchivedFeed_iff.mpr ⟨hlen, hroot, hsig⟩

omit [LinearOrder K] in
/-- The archive of a replica verifies exactly if the replica is at its head: the head
is signed, and its root is the root of the blocks up to its length. -/
theorem snapshot_replica {b : Backend S E H Sig} {w : K} {r : Replica K H Sig S} (hw : r.publicKey = w)
    (hB : Replica.Intact c b B r) :
    ∃ feeds, snapshotFeed w r.verifiedHead r.len (r.block b) = .ok feeds ∧
      (Verifies c feeds ↔ ∀ head, r.verifiedHead = some head → r.len = head.length) := by
  cases hhead : r.verifiedHead with
  | none => exact ⟨[], rfl, ⟨fun _ _ => (nomatch ·), fun _ _ => (nomatch ·)⟩⟩
  | some head =>
    obtain ⟨-, hroot, hsig⟩ := hB.vouched head hhead
    rw [hw] at hsig
    have hlen := hB.toStored.len_eq
    refine ⟨_, hlen ▸ snapshotFeed_eq fun i bytes hi => hB.toStored.block hi, ?_⟩
    constructor
    · rintro hall _ ⟨⟩
      exact hlen.trans (verifyArchivedFeed_iff.mp (hall _ List.mem_cons_self)).1.symm
    · intro hat feed hfeed
      obtain rfl := List.mem_singleton.mp hfeed
      have heq : head.length = B.length := (hat head rfl).symm.trans hlen
      rw [heq, List.take_length] at hroot
      exact verifyArchivedFeed_iff.mpr ⟨heq, hroot, hsig⟩

omit [LinearOrder K] in
theorem snapshot_remotes : ∀ {rs : List (K × Replica K H Sig S)},
    (∀ p ∈ rs, p.2.publicKey = p.1 ∧ ∃ B, Replica.Intact env.crypto env.backend B p.2) →
    ∃ feeds, snapshotRemotes env rs = .ok feeds ∧ (Verifies env.crypto feeds ↔
      ∀ p ∈ rs, ∀ head, p.2.verifiedHead = some head → p.2.len = head.length)
  | [], _ => ⟨[], rfl, ⟨fun _ _ => (nomatch ·), fun _ _ => (nomatch ·)⟩⟩
  | (w, r) :: rs, h => by
    obtain ⟨hw, B, hB⟩ := h (w, r) List.mem_cons_self
    obtain ⟨feed, hfeed, hiff⟩ := snapshot_replica hw hB
    obtain ⟨feeds, hfeeds, hiffs⟩ := snapshot_remotes fun p hp => h p (List.mem_cons_of_mem _ hp)
    refine ⟨feed ++ feeds, ?_, ?_⟩
    · rw [snapshotRemotes, hfeed, hfeeds]
      rfl
    · rw [verifies_append, hiff, hiffs, List.forall_mem_cons]

/-- **An archive verifies exactly when no replica is past its verified head.** In every
room reached from an opened one by any calls, failed ones included, and every such
room has an archive. -/
theorem archive_verifies_iff_level [DecidableEq Sig] (hb : env.backend.Lawful) (hkept : env.Kept)
    {cfg : RoomConfig K SK} {f : F} {p : P} (hopen : openRoom env cfg f p = .ok room₀)
    (h : Reached env room₀ room) :
    ∃ feeds, room.snapshotFeeds env = .ok feeds ∧ (Verifies env.crypto feeds ↔ Level room) := by
  have hsound := h.sound hb hkept hopen
  obtain ⟨own, hown, hverifies⟩ := hsound.snapshot_own
  have hremotes : ∀ q ∈ room.remotes.toList,
      q.2.publicKey = q.1 ∧ ∃ B, Replica.Intact env.crypto env.backend B q.2 := fun q hq =>
    (hsound.remotes q.1 q.2 (ExtTreeMap.mem_toList_iff_getElem?_eq_some.mp hq)).2
  obtain ⟨others, hothers, hiff⟩ := snapshot_remotes hremotes
  refine ⟨own ++ others, ?_, ?_⟩
  · rw [snapshotFeeds, hown, hothers]
    rfl
  · rw [verifies_append, and_iff_right hverifies, hiff]
    constructor
    · intro hall w r head hr
      exact hall (w, r) (ExtTreeMap.mem_toList_iff_getElem?_eq_some.mpr hr) head
    · intro hlevel q hq head
      exact hlevel q.1 q.2 head (ExtTreeMap.mem_toList_iff_getElem?_eq_some.mp hq)

/-- A relay with two blocks and the head of two archives both. -/
theorem archive_verifies_level_relay : ∃ room₀ room,
    openRoom inMemory ⟨0, [], .original⟩ () () = .ok room₀ ∧ Reached inMemory room₀ room ∧ Level room ∧
    ∃ feeds, room.snapshotFeeds inMemory = .ok feeds ∧ Verifies inMemory.crypto feeds := by
  have hrun : (openedAfter inMemory [signedBlock 1 (relayed.take 2) 0, signedBlock 1 (relayed.take 2) 1]).any
      (fun room => decide (Level room)) = true := by
    decide +kernel
  obtain ⟨room, hroom, hlevel⟩ := (Option.any_eq_true _ _).mp hrun
  obtain ⟨room₀, hopen, hreach⟩ := openedAfter_reached hroom
  obtain ⟨feeds, hfeeds, hiff⟩ := archive_verifies_iff_level Backend.memory_lawful inMemory_kept hopen hreach
  exact ⟨room₀, room, hopen, hreach, of_decide_eq_true hlevel, feeds, hfeeds,
    hiff.mpr (of_decide_eq_true hlevel)⟩

/-- Two blocks under the head of two and the third under the head of four: the archive
has three blocks under the head of two. -/
theorem ahead_relay_archive_fails : ∃ room₀ room feeds,
    openRoom inMemory ⟨0, [], .original⟩ () () = .ok room₀ ∧ Reached inMemory room₀ room ∧
    room.snapshotFeeds inMemory = .ok feeds ∧ ¬ Verifies inMemory.crypto feeds := by
  have hrun : (openedAfter inMemory [signedBlock 1 (relayed.take 2) 0, signedBlock 1 (relayed.take 2) 1,
      signedBlock 1 relayed 2]).any (fun room => (room.snapshotFeeds inMemory).toOption.any
        (·.any fun feed => !verifyArchivedFeed inMemory.crypto feed.writer feed.head feed.blocks)) =
        true := by
    decide +kernel
  obtain ⟨room, hroom, hcheck⟩ := (Option.any_eq_true _ _).mp hrun
  obtain ⟨room₀, hopen, hreach⟩ := openedAfter_reached hroom
  cases hfeeds : room.snapshotFeeds inMemory with
  | error e =>
    rw [hfeeds] at hcheck
    cases hcheck
  | ok feeds =>
    rw [hfeeds] at hcheck
    obtain ⟨feed, hmem, hbad⟩ := List.any_eq_true.mp hcheck
    refine ⟨room₀, room, feeds, hopen, hreach, hfeeds, fun hall => ?_⟩
    rw [hall feed hmem] at hbad
    cases hbad

end Room
end HypercoreRs
