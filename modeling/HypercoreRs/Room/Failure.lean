/-
# Local appends that fail

A local append writes the block of the new entry, then the three values `persist` flushes, and
delivers the entry only after that. Where the first write fails the room is as it was, and takes
the next append once its store works again. Where one of the other three fails the log has grown
and the DAG has not (`Stranded`): the room takes its last entry for one that is still to be
delivered, and refuses every append from then on.
-/
import HypercoreRs.Room.Checkpoint
import HypercoreRs.Room.Durable

namespace HypercoreRs

open Std Merkle Command

/-! ### Stores that work again -/

namespace Backend

variable {S E H Sig : Type} {b : Backend S E H Sig} {s s' : S}

theorem putAll_singleton (k : StoreKey) (v : k.Value H Sig) : b.putAll [⟨k, v⟩] = b.put k v := by
  rw [putAll]
  exact bind_pure _

variable (b) in
/-- Whatever is written to the store from now on is written. -/
def Works (s : S) : Prop := ∀ l, returned (b.putAll l s) = true

theorem Works.put (h : b.Works s) {k : StoreKey} {v : k.Value H Sig} (hput : b.put k v s = .ok () s') :
    b.Works s' := by
  intro l
  obtain ⟨_, s'', hrun⟩ := exists_of_returned (h (⟨k, v⟩ :: l))
  obtain ⟨_, s₁, hfirst, hrest⟩ := bind_eq_ok.mp hrun
  rw [hput] at hfirst
  obtain ⟨-, rfl⟩ := EStateM.Result.ok.inj hfirst
  rw [hrest]
  rfl

/-- A store that refuses a row of writes does not work. -/
theorem not_works {l : List (Σ k : StoreKey, k.Value H Sig)} {e : E} (herror : b.putAll l s = .error e s') :
    ¬ b.Works s := by
  intro hworks
  have hreturned := hworks l
  rw [herror] at hreturned
  cases hreturned

variable (b) in
/-- `s'` holds what `s` does, and works. -/
structure Repaired (s s' : S) : Prop where
  reads : ∀ k, b.get s' k = b.get s k
  works : b.Works s'

end Backend

/-! ### The writes of an append -/

namespace Hypercore

variable {K H Sig SK S E T : Type} {c : Crypto K H Sig SK} {b : Backend S E H Sig} {codec : Codec T}
variable {core core' : Hypercore H Sig SK S}

/-- A row of writes, none of them to a block of the log. -/
theorem ends_write_row (hb : b.Lawful) {l : List (Σ k : StoreKey, k.Value H Sig)}
    (hl : ∀ p ∈ l, ∀ i < core.len, p.1 ≠ .block i) :
    Ends (write b l) core
      (fun _ core' => ∃ s, core' = { core with store := s } ∧ b.Keeps core.len core.store s ∧
        ((l.map (·.1)).Nodup → ∀ p ∈ l, b.get s p.1 = .ok (some p.2)) ∧ b.putAll l core.store = .ok () s)
      fun e core' => ∃ e' s, e = .storage e' ∧ core' = { core with store := s } ∧
        b.Keeps core.len core.store s ∧ b.putAll l core.store = .error e' s := by
  have hrow := Ends.and_error (Ends.and_ok (within_iff.mp (hb.putAll l core.store)) fun _ _ h => h)
    fun _ _ h => h
  refine Ends.zoom hrow (fun _ s hs => ?_) fun e s hs => ?_
  · exact ⟨s, rfl, fun i hi => hs.1.1 _ fun p hp => hl p hp i hi, hs.1.2, hs.2⟩
  · exact ⟨e, s, rfl, rfl, fun i hi => hs.1 _ fun p hp => hl p hp i hi, hs.2⟩

/-- An append to a built log fails with the write of its block only. -/
theorem ends_append_put (hb : b.Lawful) {B : List Block} (hB : Built c.hasher B core.tree) (value : T) :
    Ends (append c b codec value) core
      (fun _ core' => Extends c b core (codec.encode value) core' ∧
        b.put (.block core.len) (codec.encode value) core.store = .ok () core'.store)
      fun e core' => ∃ e' s, e = .storage e' ∧ core' = { core with store := s } ∧
        b.Keeps core.len core.store s ∧
        b.put (.block core.len) (codec.encode value) core.store = .error e' s := by
  unfold append
  apply Ends.get
  refine Ends.andThen (ends_write_row hb ?_) (fun _ _ h => ?_) fun _ core₁ h₁ => ?_
  · intro p hp i hi
    rw [List.mem_singleton.mp hp]
    exact fun h => absurd (StoreKey.block.inj h) (by omega)
  · rwa [Backend.putAll_singleton] at h
  · obtain ⟨s, rfl, hk, hget, hput⟩ := h₁
    rw [Backend.putAll_singleton] at hput
    apply Ends.get
    split
    · rename_i signed hsign
      have hext : Extends c b { core with store := s } (codec.encode value) signed :=
        ⟨s, Backend.Keeps.refl _ _, hget (by simp) _ List.mem_cons_self, hsign⟩
      refine Ends.assign (Ends.pure ⟨hext.of_store hk, ?_⟩)
      obtain ⟨root, -, rfl⟩ := Option.map_eq_some_iff.mp hsign
      exact hput
    · rename_i hsign
      rw [resign, (hB.append (codec.encode value)).rootHash] at hsign
      cases hsign

theorem ends_persist_put (hb : b.Lawful) (core : Hypercore H Sig SK S) :
    Ends (persist b) core
      (fun _ core' => ∃ s, core' = { core with store := s } ∧ b.Keeps core.len core.store s)
      fun e core' => ∃ e' s, e = .storage e' ∧ core' = { core with store := s } ∧
        b.Keeps core.len core.store s ∧ ¬ b.Works core.store := by
  unfold persist
  apply Ends.get
  refine (ends_write_row hb (by simp)).mono (fun _ _ h => ?_) fun _ _ h => ?_
  · obtain ⟨s, heq, hk, -, -⟩ := h
    exact ⟨s, heq, hk⟩
  · obtain ⟨e', s, herror, heq, hk, hput⟩ := h
    exact ⟨e', s, herror, heq, hk, Backend.not_works hput⟩

end Hypercore

namespace Room

variable {K H Sig SK S E F P St : Type} [LinearOrder K] [DecidableEq H] [DecidableEq Sig]
variable {env : Env K H Sig SK S E F P St} {room room' room₀ : Room K H Sig SK S F P}

/-! ### How a local append ends -/

/-- The room over another store for its own log. -/
def withStore (room : Room K H Sig SK S F P) (s : S) : Room K H Sig SK S F P :=
  { room with localCore := { room.localCore with store := s } }

variable (env) in
/-- The block of the entry that is to hold `op` cannot be written. -/
def Unwritten (room : Room K H Sig SK S F P) (op : Block) : Prop :=
  ∃ e s, env.backend.put (.block room.localCore.len) (env.codec.encode ⟨room.lin.heads.toList, op⟩)
    room.localCore.store = .error e s

/-- `room'` is `room` with one entry more in its log, which its DAG knows nothing of. -/
def Stranded (room room' : Room K H Sig SK S F P) : Prop :=
  ∃ core, core.len = room.localCore.len + 1 ∧ room' = { room with localCore := core }

variable (env) in
/-- How the append of `op` to `room` fails. -/
inductive Fails (room : Room K H Sig SK S F P) (op : Block) : RoomError E → Room K H Sig SK S F P → Prop
  | recovering : Refuses room → Fails room op .recoveringOwnFeed room
  | pending : Refuses room → Fails room op .ownFeedPending room
  /-- The block is not written. -/
  | block {e : E} {s : S} : ¬ Refuses room → ¬ env.backend.Works room.localCore.store →
      Unwritten env room op →
      env.backend.Keeps room.localCore.len room.localCore.store s →
      Fails room op (.hypercore (.storage e)) (room.withStore s)
  /-- The block is written, and `persist` fails. -/
  | persist {e : E} {room' : Room K H Sig SK S F P} : ¬ Refuses room →
      ¬ env.backend.Works room.localCore.store → ¬ Unwritten env room op → Stranded room room' →
      Fails room op (.hypercore (.storage e)) room'

omit [DecidableEq Sig] in
theorem ends_localAppend_fails (hb : env.backend.Lawful) (h : Sound env room) (op : Block) :
    Ends (localAppend env op) room (fun _ _ => True) (Fails env room op) := by
  obtain ⟨B, hB⟩ := h.core
  refine (ends_localAppend_sound h op (C := fun _ => True)
    (fun hrefuses => ⟨.recovering hrefuses, .pending hrefuses⟩)
    fun hready => ?_).mono (fun _ _ _ => trivial) fun _ _ h' => h'
  refine (Hypercore.ends_append_put hb hB.built _).mono (fun _ core happend => ?_) fun e core hfail => ?_
  · obtain ⟨hext, hput⟩ := happend
    have hwritten : ¬ Unwritten env room op := by
      rintro ⟨e, s, herror⟩
      rw [hput] at herror
      cases herror
    refine ⟨hext, (Hypercore.ends_persist_put hb core).mono (fun _ _ h' => ⟨h', trivial⟩)
      fun e core' hfail => ?_⟩
    obtain ⟨e', s, rfl, rfl, -, hbroken⟩ := hfail
    have hlen : core.len = room.localCore.len + 1 := by
      rw [(hB.extend hext).len_eq, hB.len_eq, List.length_append, List.length_singleton]
    exact .persist hready (fun hworks => hbroken (hworks.put hput)) hwritten
      ⟨{ core with store := s }, hlen, rfl⟩
  · obtain ⟨e', s, rfl, rfl, hk, hput⟩ := hfail
    rw [← Backend.putAll_singleton] at hput
    exact .block hready (Backend.not_works hput) ⟨e', s, by rwa [← Backend.putAll_singleton]⟩ hk

omit [DecidableEq Sig] in
/-- Over a store that works an append is refused or succeeds. -/
theorem returned_localAppend (hb : env.backend.Lawful) (h : Sound env room)
    (hready : ¬ Refuses room) (hworks : env.backend.Works room.localCore.store) (op : Block) :
    returned (localAppend env op room) = true := by
  have hends := ends_localAppend_fails hb h op
  cases hrun : localAppend env op room with
  | ok out room' => rfl
  | error e room' =>
    cases hends.error hrun with
    | recovering hrefuses => exact absurd hrefuses hready
    | pending hrefuses => exact absurd hrefuses hready
    | block _ hbroken _ _ => exact absurd hworks hbroken
    | persist _ hbroken _ _ => exact absurd hworks hbroken

omit [DecidableEq H] [DecidableEq Sig] in
/-- A stranded room refuses every append. -/
theorem Stranded.not_returned (h : Stranded room room') (htidy : Tidy room) (op : Block) :
    returned (localAppend env op room') = false := by
  obtain ⟨core, hlen, rfl⟩ := h
  have hmiss : (⟨room.localKey, core.len - 1⟩ : NodeId K) ∉ room.lin.deps := by
    rw [hlen]
    exact htidy.not_mem_next
  have hends : Ends (localAppend env op) { room with localCore := core } (fun _ _ => False) fun _ _ => True :=
    (ends_localAppend_pending (hlen ▸ Nat.succ_pos _) hmiss op).mono (fun _ _ h => h) fun _ _ _ => trivial
  cases hrun : localAppend env op { room with localCore := core } with
  | ok out room' => exact (hends.ok hrun).elim
  | error e room' => rfl

/-! ### A failed append changes nothing -/

variable (env) in
/-- The log, the DAG, the order and both states are as they were. -/
structure Unchanged (room room' : Room K H Sig SK S F P) : Prop where
  len : room'.localCore.len = room.localCore.len
  head : room'.localCore.head = room.localCore.head
  dag : room'.toDag = room.toDag
  order : room'.order = room.order
  finalized : env.projection.snapshot room'.finalizedProj = env.projection.snapshot room.finalizedProj
  live : env.projection.snapshot room'.liveProj = env.projection.snapshot room.liveProj

variable (env) in
/-- Once its store works again, the room takes every append. -/
def Recovers (room : Room K H Sig SK S F P) : Prop :=
  ∀ s op, env.backend.Repaired room.localCore.store s →
  returned (localAppend env op (room.withStore s)) = true

/-- **A failed append leaves the room as it was exactly when it failed with its block.** In
every room a run reaches, whichever write of the append failed. -/
theorem failed_append_iff (hb : env.backend.Lawful) (hkept : env.Kept) {cfg : RoomConfig K SK} {f : F} {p : P}
    (hopen : openRoom env cfg f p = .ok room₀) (h : Reached env room₀ room) {op : Block} {e : E}
    (herror : localAppend env op room = .error (.hypercore (.storage e)) room') :
    Unchanged env room room' ∧ Recovers env room' ↔ Unwritten env room op := by
  have hsound := h.sound hb hkept hopen
  cases (ends_localAppend_fails hb hsound op).error herror with
  | block hready _ hunwritten hk =>
    refine ⟨fun _ => hunwritten, fun _ => ⟨⟨rfl, rfl, rfl, rfl, rfl, rfl⟩, fun s op' hrepaired => ?_⟩⟩
    have hk' := fun i (hi : i < room.localCore.len) => (hrepaired.reads (.block i)).trans (hk i hi)
    exact returned_localAppend hb (hsound.moves (moves_core (.single (.store hk')))) hready
      hrepaired.works op'
  | persist _ _ hwritten hstranded =>
    refine ⟨fun hsame => ?_, fun hunwritten => absurd hunwritten hwritten⟩
    obtain ⟨core, hlen, rfl⟩ := hstranded
    exact absurd (hlen.symm.trans hsame.1.len) (Nat.succ_ne_self _)

/-! ### A store that fills up -/

/-- The store in memory, with room for a number of writes only, or for any. -/
def limited (H Sig : Type) : Backend (MemoryStore H Sig × Option ℕ) Unit H Sig where
  put k v s :=
    match s.2 with
    | none => .ok () (s.1.put k v, none)
    | some 0 => .error () s
    | some (left + 1) => .ok () (s.1.put k v, some left)
  get s k := .ok (s.1.get k)

theorem limited_lawful {H Sig : Type} : (limited H Sig).Lawful where
  get_put := by
    rintro ⟨m, left⟩ k v s' hput
    match left with
    | none | some (_ + 1) =>
      cases hput
      exact congrArg Except.ok (m.get_put k v)
    | some 0 => cases hput
  get_other := by
    rintro ⟨m, left⟩ k v k' hk
    match left with
    | none | some (_ + 1) => exact congrArg Except.ok (m.get_other k v k' hk)
    | some 0 => rfl

/-- Without a limit every write succeeds. -/
theorem limited_works {H Sig : Type} : ∀ (l : List (Σ k : StoreKey, k.Value H Sig)) (m : MemoryStore H Sig),
    returned ((limited H Sig).putAll l (m, none)) = true
  | [], _ => rfl
  | ⟨k, v⟩ :: l, m => limited_works l (m.put k v)

theorem limited_repaired {H Sig : Type} (s : MemoryStore H Sig × Option ℕ) :
    (limited H Sig).Repaired s (s.1, none) := ⟨fun _ => rfl, fun l => limited_works l s.1⟩

/-- Rooms in memory whose stores take `space` writes. -/
def onLimited (space : ℕ) : Env WriterKey Digest (WriterKey × HeadMessage Digest) ℕ
    (MemoryStore Digest (WriterKey × HeadMessage Digest) × Option ℕ) Unit Unit Unit Unit where
  crypto := inMemory.crypto
  backend := limited _ _
  codec := inMemory.codec
  factory := ⟨fun _ => pure (.new, some space), fun _ => []⟩
  projection := inMemory.projection

theorem onLimited_kept (space : ℕ) : (onLimited space).Kept := by
  refine ⟨fun w f s f' hs identity core hcore => ?_, fun w f s f' hs r hr => ?_⟩
  · cases hs
    cases hcore
  · cases hs
    cases hr

/-- The lengths of the log of a new room before and after its first append, where it fails with
its store. -/
def lensAtFailure (space : ℕ) : Option (ℕ × ℕ) :=
  match openRoom (onLimited space) ⟨0, [], .original⟩ () () with
  | .ok room =>
    match localAppend (onLimited space) [1] room with
    | .error (.hypercore (.storage _)) room' => some (room.localCore.len, room'.localCore.len)
    | _ => none
  | .error _ => none

theorem exists_of_lensAtFailure {space n n' : ℕ} (h : lensAtFailure space = some (n, n')) : ∃ room room',
    openRoom (onLimited space) ⟨0, [], .original⟩ () () = .ok room ∧
      localAppend (onLimited space) [1] room = .error (.hypercore (.storage ())) room' ∧
      Fails (onLimited space) room [1] (.hypercore (.storage ())) room' ∧
      room.localCore.len = n ∧ room'.localCore.len = n' := by
  unfold lensAtFailure at h
  split at h
  · rename_i room hopen
    split at h
    · rename_i room' herror
      obtain ⟨hlen, hlen'⟩ := Prod.mk.inj (Option.some.inj h)
      have hsound := Reached.sound limited_lawful (onLimited_kept space) hopen .start
      exact ⟨room, room', hopen, herror,
        (ends_localAppend_fails limited_lawful hsound [1]).error herror, hlen, hlen'⟩
    · cases h
  · cases h

/-- A store without space for the block: the append fails, and the next succeeds once there is. -/
theorem failed_append_iff_full : ∃ room room',
    openRoom (onLimited 0) ⟨0, [], .original⟩ () () = .ok room ∧
    localAppend (onLimited 0) [1] room = .error (.hypercore (.storage ())) room' ∧
    Unchanged (onLimited 0) room room' ∧ Recovers (onLimited 0) room' ∧
    (onLimited 0).backend.Repaired room'.localCore.store (room'.localCore.store.1, none) := by
  obtain ⟨room, room', hopen, herror, hfails, hlen, hlen'⟩ :=
    exists_of_lensAtFailure (show lensAtFailure 0 = some (0, 0) by decide +kernel)
  have hunwritten : Unwritten (onLimited 0) room [1] := by
    cases hfails with
    | block _ _ hunwritten _ => exact hunwritten
    | persist _ _ _ hstranded =>
      obtain ⟨core, hgrown, rfl⟩ := hstranded
      exact absurd (hgrown.symm.trans hlen') (Nat.succ_ne_zero _)
  obtain ⟨hsame, hrecovers⟩ :=
    (failed_append_iff limited_lawful (onLimited_kept 0) hopen .start herror).mpr hunwritten
  exact ⟨room, room', hopen, herror, hsame, hrecovers, limited_repaired _⟩

/-- With this space the first append to a new room fails, its log is one entry longer, its DAG is
not, and no later append succeeds, although the store works again. -/
def Strands (space : ℕ) : Prop :=
  ∃ room room', openRoom (onLimited space) ⟨0, [], .original⟩ () () = .ok room ∧
    localAppend (onLimited space) [1] room = .error (.hypercore (.storage ())) room' ∧
    room'.localCore.len = room.localCore.len + 1 ∧ room'.toDag = room.toDag ∧
    (onLimited space).backend.Repaired room'.localCore.store (room'.localCore.store.1, none) ∧
    ∀ s op, returned (localAppend (onLimited space) op (room'.withStore s)) = false

theorem strands_of_lens {space : ℕ} (hlens : lensAtFailure space = some (0, 1)) : Strands space := by
  obtain ⟨room, room', hopen, herror, hfails, hlen, hlen'⟩ := exists_of_lensAtFailure hlens
  cases hfails with
  | block _ _ _ _ => exact absurd (hlen.symm.trans hlen') Nat.zero_ne_one
  | persist _ _ _ hstranded =>
    obtain ⟨core, hgrown, rfl⟩ := hstranded
    refine ⟨room, _, hopen, herror, hgrown, rfl, limited_repaired _, fun s op => ?_⟩
    exact Stranded.not_returned ⟨{ core with store := s }, hgrown, rfl⟩ (tidy_openRoom hopen) op

/-- Space for one, two or three of the four writes of an append strands its entry. -/
theorem failed_append_strands : Strands 1 ∧ Strands 2 ∧ Strands 3 := by
  refine ⟨strands_of_lens ?_, strands_of_lens ?_, strands_of_lens ?_⟩
  · decide +kernel
  · decide +kernel
  · decide +kernel

end Room
end HypercoreRs
