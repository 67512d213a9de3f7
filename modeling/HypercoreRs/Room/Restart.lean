/-
# Restarting a room

A room that stops leaves its logs on the disk it was opened over, and `openRoom` reads them back.
On stores that never fail every log reopens, a replica at its verified head. What can stop a
restart is the replay: it decodes every block, and a block is persisted before it is decoded for
the first time. So one signed block that is no entry, sent by any writer, keeps the room from
opening again; and nothing else does (`restart_iff_decodable`).
-/
import HypercoreRs.Room.Durable

namespace HypercoreRs

open Std Merkle Command

/-- The same surroundings with another factory. -/
def Env.over {K H Sig SK S E F F' P St : Type} (env : Env K H Sig SK S E F P St)
    (factory : StoreFactory K F' S) : Env K H Sig SK S E F' P St :=
  ⟨env.crypto, env.backend, env.codec, factory, env.projection⟩

theorem Backend.memory_neverFails {H Sig : Type} : (Backend.memory H Sig).NeverFails :=
  ⟨fun _ _ _ => ⟨_, rfl⟩, fun _ _ => ⟨_, rfl⟩⟩

namespace Room

variable {K H Sig SK S E F F' P St : Type} [LinearOrder K] [DecidableEq H]
variable (env : Env K H Sig SK S E F P St) {disk : Disk K S}
  {room room' room₀ : Room K H Sig SK S F P}

/-- The writer's store has no replica in it, or one that reopens. -/
def Reopens (disk : Disk K S) (w : K) : Prop :=
  env.crypto.validKey w = true ∧
    ∀ e, Replica.openReplica env.crypto env.backend w (disk.store w) = .error e → e = .notPersisted

/-- A writer that is not listed has nothing persisted. -/
def ListsAll (own : K) (disk : Disk K S) : Prop :=
  ∀ w, w ≠ own → ¬ disk.known w →
    Replica.openReplica env.crypto env.backend w (disk.store w) = .error .notPersisted

/-- The local log is `core`, and the replicas are those of the stores of the writers in `done`. -/
structure Loaded (own : K) (core : Hypercore H Sig SK S) (disk : Disk K S) (done : K → Prop)
    (room : Room K H Sig SK S F P) : Prop where
  localKey : room.localKey = own
  localCore : room.localCore = core
  remotes : ∀ (w : K) (r : Replica K H Sig S), room.remotes[w]? = some r ↔
    done w ∧ w ≠ own ∧ Replica.openReplica env.crypto env.backend w (disk.store w) = .ok r

variable {env}

/-! ### Opening the logs -/

omit [LinearOrder K] in
/-- A log that is as it is stored reopens as it is. -/
theorem openLocal_of_saved {core : Hypercore H Sig SK S}
    (hout : env.factory.HandsOut (env.crypto.publicOf core.author) disk)
    (hstore : disk.store (env.crypto.publicOf core.author) = core.store)
    (hsaved : Hypercore.Saved env.crypto env.backend core) (f : F) :
    ∃ f', openLocal env core.author f = .ok core f' := by
  have hopens : ∀ f, ∃ f', zoom id (fun f _ => f) RoomError.storeOpen
      (env.factory.openStore (env.crypto.publicOf core.author)) f =
        (.ok core.store f' : EStateM.Result (RoomError E) F S) := by
    intro f
    obtain ⟨f', hf⟩ := hout.opens (env.crypto.publicOf core.author) f
    exact ⟨f', zoom_eq_ok.mpr ⟨f', by rw [← hstore]; exact hf, rfl⟩⟩
  obtain ⟨f₁, hf₁⟩ := hopens f
  obtain hcore | ⟨hcore, hnew⟩ := hsaved
  · refine ⟨f₁, bind_eq_ok.mpr ⟨core.store, f₁, hf₁, ?_⟩⟩
    rw [hcore]
    rfl
  · obtain ⟨f₂, hf₂⟩ := hopens f₁
    refine ⟨f₂, bind_eq_ok.mpr ⟨core.store, f₁, hf₁, ?_⟩⟩
    rw [hcore]
    exact bind_eq_ok.mpr ⟨core.store, f₂, hf₂, by rw [← hnew]; rfl⟩

variable {own : K} {core : Hypercore H Sig SK S} {done : K → Prop}

theorem ends_openRemote_loaded (hout : env.factory.HandsOut own disk)
    (h : Loaded env own core disk done room) (w : K) :
    Ends (openRemote env w) room
      (fun _ room' => Loaded env own core disk (fun w' => done w' ∨ w' = w) room' ∧
        (w ≠ own → Reopens env disk w))
      fun _ _ => w ≠ own ∧ ¬ Reopens env disk w := by
  -- a writer without a replica adds none
  have hskip : ∀ {room' : Room K H Sig SK S F P}, SameLogs room room' →
      (∀ r, w ≠ own → Replica.openReplica env.crypto env.backend w (disk.store w) ≠ .ok r) →
      Loaded env own core disk (fun w' => done w' ∨ w' = w) room' := by
    intro room' hsame hnone
    refine ⟨hsame.localKey.trans h.localKey, hsame.localCore.trans h.localCore, fun w' r => ?_⟩
    rw [hsame.remotes, h.remotes]
    constructor
    · rintro ⟨hdone, hr⟩
      exact ⟨Or.inl hdone, hr⟩
    · rintro ⟨hdone | rfl, hne, hr⟩
      · exact ⟨hdone, hne, hr⟩
      · exact absurd hr (hnone r hne)
  unfold openRemote
  apply Ends.get
  rw [h.localKey]
  split_ifs with hw hkey
  · exact Ends.pure ⟨hskip ⟨rfl, rfl, rfl⟩ fun _ hne => absurd hw hne, fun hne => absurd hw hne⟩
  · refine Ends.throw ⟨hw, fun hopens => ?_⟩
    rw [hopens.1] at hkey
    cases hkey
  · rw [Bool.not_eq_true', Bool.not_eq_false] at hkey
    refine Ends.andThen (ends_openStore_disk hout w) (fun _ _ h => h.elim) fun store room' h' => ?_
    obtain ⟨rfl, hsame⟩ := h'
    split
    · rename_i r hr
      refine Ends.modify
        ⟨⟨hsame.localKey.trans h.localKey, hsame.localCore.trans h.localCore, fun w' r' => ?_⟩,
        fun _ => ⟨hkey, fun e he => ?_⟩⟩
      · rw [Graph.getElem?_insert, hsame.remotes]
        split_ifs with heq
        · subst heq
          rw [hr, Option.some.injEq, Except.ok.injEq]
          exact ⟨fun heq => ⟨Or.inr rfl, hw, heq⟩, fun h => h.2.2⟩
        · rw [h.remotes, or_iff_left heq]
      · cases he.symm.trans hr
    · rename_i hr
      refine Ends.pure ⟨hskip hsame fun r _ h => ?_, fun _ => ⟨hkey, fun e he => ?_⟩⟩
      · cases h.symm.trans hr
      · exact Except.error.inj (he.symm.trans hr)
    · rename_i e hne hr
      exact Ends.throw ⟨hw, fun hopens => hne (hopens.2 e hr)⟩

theorem ends_openRemotes_loaded (hout : env.factory.HandsOut own disk) :
    ∀ (ws : List K) {done : K → Prop}
    {room : Room K H Sig SK S F P}, Loaded env own core disk done room →
    Ends (openRemotes env ws) room
      (fun _ room' => Loaded env own core disk (fun w => done w ∨ w ∈ ws) room' ∧
        ∀ w ∈ ws, w ≠ own → Reopens env disk w)
      fun _ _ => ∃ w ∈ ws, w ≠ own ∧ ¬ Reopens env disk w
  | [], done, room, h => by
    refine Ends.pure
      ⟨⟨h.localKey, h.localCore, fun w r => ?_⟩, fun _ hw => absurd hw List.not_mem_nil⟩
    rw [h.remotes, or_iff_left List.not_mem_nil]
  | w :: ws, done, room, h => by
    unfold openRemotes
    refine Ends.andThen (ends_openRemote_loaded hout h w) (fun _ _ h => ⟨w, List.mem_cons_self, h⟩)
      fun _ room₁ h₁ => ?_
    refine (ends_openRemotes_loaded hout ws h₁.1).mono
      (fun _ room₂ h₂ => ⟨⟨h₂.1.localKey, h₂.1.localCore, fun w' r => ?_⟩,
      fun w' hw' hne => ?_⟩) fun _ _ h => ?_
    · rw [h₂.1.remotes, List.mem_cons, or_assoc]
    · obtain rfl | hw' := List.mem_cons.mp hw'
      · exact h₁.2 hne
      · exact h₂.2 w' hw' hne
    · obtain ⟨w', hw', h⟩ := h
      exact ⟨w', List.mem_cons_of_mem _ hw', h⟩

/-! ### Replaying them -/

omit [DecidableEq H] in
/-- A replay returns exactly if every entry can be read. -/
theorem ends_replay_reads (hown : ∀ w r, room.remotes[w]? = some r → w ≠ room.localKey) :
    Ends (replay env) room
      (fun _ room' => SameLogs room room' ∧ Grown env room room' ∧ ReadsAll env room)
      fun _ _ => ¬ ReadsAll env room := by
  refine (ends_replay_of (room.Held env) (fun i e he => (held_own rfl).mpr he) fun w r hr i e he =>
    (held_remote (hown w r hr)).mpr ⟨r, hr, he⟩).mono (fun _ room' h => ?_) fun _ _ h => ?_
  · obtain ⟨_, d, rfl, hmoves, hreads, -⟩ := h
    have hsame := sameData_polled env (drainPending { room with toDag := d })
    exact ⟨⟨hsame.localKey, hsame.localCore, hsame.remotes⟩,
      (grown_dag hmoves).trans (grown_drain hsame), hreads⟩
  · obtain ⟨_, -, -, hbad⟩ := h
    exact hbad

/-! ### Opening a room over a disk -/

variable (env) in
/-- What opening a room over a disk reads: its own log, and the replicas of the listed writers. -/
structure OpenedFrom (cfg : RoomConfig K SK) (disk : Disk K S) (log : Hypercore H Sig SK S)
    (base : Room K H Sig SK S F P) : Prop extends Unreplayed env cfg base where
  loaded : Loaded env (env.crypto.publicOf cfg.identity) log disk disk.known base

theorem loaded_fresh (cfg : RoomConfig K SK) (disk : Disk K S) (core : Hypercore H Sig SK S) (f : F)
    (p : P) : Loaded env (env.crypto.publicOf cfg.identity) core disk (fun _ => False)
    (fresh env cfg core f p) := by
  refine ⟨rfl, rfl, fun w r => ?_⟩
  change (∅ : ExtTreeMap K (Replica K H Sig S))[w]? = some r ↔ _
  rw [ExtTreeMap.getElem?_empty]
  exact ⟨(nomatch ·), fun h => h.1.elim⟩

variable {cfg : RoomConfig K SK}

/-- Opening a room whose own log opens fails only at a replica that does not reopen, or at an entry
that cannot be read. -/
theorem openRoom_cases (hout : env.factory.HandsOut (env.crypto.publicOf cfg.identity) disk)
    {f f' : F} (hlocal : openLocal env cfg.identity f = .ok core f') (p : P) :
    (∃ room, openRoom env cfg f p = .ok room ∧ ∃ base, OpenedFrom env cfg disk core base ∧
      SameLogs base room ∧
      Grown env base room ∧ ReadsAll env base ∧
      ∀ w, disk.known w → w ≠ env.crypto.publicOf cfg.identity → Reopens env disk w) ∨
    (∃ e, openRoom env cfg f p = .error e) ∧
      ((∃ w, disk.known w ∧ w ≠ env.crypto.publicOf cfg.identity ∧ ¬ Reopens env disk w) ∨
        ∃ base, OpenedFrom env cfg disk core base ∧ ¬ ReadsAll env base) := by
  have hfresh := unreplayed_fresh (p := p) hlocal
  have hremotes := Ends.and_ok (ends_openRemotes_loaded hout (env.factory.knownWriters f')
    (loaded_fresh cfg disk core f' p)) fun _ _ hok => ((within_openRemotes _ hfresh).ok hok).2
  refine openRoom_of_ends hlocal (Ends.andThen hremotes (fun _ _ h => ?_) fun _ base h => ?_)
  · obtain ⟨w, hw, hne, hbad⟩ := h
    exact Or.inl ⟨w, (hout.lists w f' hne).mp hw, hne, hbad⟩
  · obtain ⟨⟨hloaded, hreopens⟩, hunreplayed⟩ := h
    have hbase : OpenedFrom env cfg disk core base := by
      refine ⟨hunreplayed, hloaded.localKey, hloaded.localCore, fun w r => ?_⟩
      rw [hloaded.remotes, false_or]
      exact and_congr_left fun h => hout.lists w f' h.1
    refine (ends_replay_reads fun w r hr => (hunreplayed.remotes w r hr).1).mono
      (fun _ room' h => ?_)
      fun _ _ h => Or.inr ⟨base, hbase, h⟩
    exact ⟨base, hbase, h.1, h.2.1, h.2.2,
      fun w hw hne => hreopens w ((hout.lists w f' hne).mpr hw) hne⟩

omit [LinearOrder K] in
/-- The local log a room is opened with is as it is stored. -/
theorem openLocal_saved {identity : SK}
    (hout : env.factory.HandsOut (env.crypto.publicOf identity) disk) {f f' : F}
    (h : openLocal env identity f = .ok core f') : Hypercore.Saved env.crypto env.backend core := by
  have hopens : ∀ {f f' s}, env.factory.openStore (env.crypto.publicOf identity) f = .ok s f' →
      s = disk.store (env.crypto.publicOf identity) := by
    intro f f' s hs
    obtain ⟨f₁, hf₁⟩ := hout.opens (env.crypto.publicOf identity) f
    cases hf₁.symm.trans hs
    rfl
  obtain ⟨store, f₁, hstore, hcore | ⟨hcore, store', f₂, hstore', rfl⟩⟩ := openLocal_cases h
  · exact Hypercore.saved_of_open hcore
  · rw [hopens hstore, ← hopens hstore'] at hcore
    exact Or.inr ⟨hcore, rfl⟩

/-- A room that was opened over a disk that lists all its logs is as it is stored. -/
theorem durable_openRoom (hkept : env.Kept)
    (hout : env.factory.HandsOut (env.crypto.publicOf cfg.identity) disk)
    (hlists : ListsAll env (env.crypto.publicOf cfg.identity) disk) {f : F} {p : P}
    (hopen : openRoom env cfg f p = .ok room₀) :
    Durable env disk room₀ ∧ room₀.localKey = env.crypto.publicOf cfg.identity ∧
      room₀.localCore.author = cfg.identity ∧ ∃ base, Unreplayed env cfg base ∧
      Grown env base room₀ := by
  cases hlocal : openLocal env cfg.identity f with
  | error e f' =>
    unfold openRoom at hopen
    rw [hlocal] at hopen
    cases hopen
  | ok core f' =>
    obtain ⟨room, hok, base, hbase, hsame, hgrown, -, hreopens⟩ | ⟨⟨e, herr⟩, -⟩ :=
    openRoom_cases hout hlocal p
    · rw [hopen] at hok
      obtain rfl := Except.ok.inj hok
      have hkey := hbase.localKey
      have hauthor : room₀.localCore.author = cfg.identity := by
        rw [hsame.localCore, hbase.loaded.localCore]
        exact (openLocal_ok hlocal).1
      refine ⟨Durable.of_sameLogs ?_ hsame, hsame.localKey.trans hkey, hauthor, base,
        hbase.toUnreplayed, hgrown⟩
      refine ⟨hbase.toOpened.sound hkept, ?_, fun w r hr => ?_, fun w hw hnot => ?_,
        fun w hw hknown => ?_⟩
      · rw [hbase.loaded.localCore]
        exact openLocal_saved hout hlocal
      · obtain ⟨hknown, hw, hr⟩ := (hbase.loaded.remotes w r).mp hr
        exact ⟨Replica.saved_of_open hr, (hreopens w hknown hw).1⟩
      · rw [hkey] at hw
        by_cases hknown : disk.known w
        · cases hr : Replica.openReplica env.crypto env.backend w (disk.store w) with
          | ok r =>
            have hin := (hbase.loaded.remotes w r).mpr ⟨hknown, hw, hr⟩
            exact absurd (ExtTreeMap.mem_iff_isSome_getElem?.mpr (by rw [hin]; rfl)) hnot
          | error e => rw [(hreopens w hknown hw).2 e hr]
        · exact hlists w hw hknown
      · exact (hreopens w hknown (hkey ▸ hw)).1
    · rw [hopen] at herr
      cases herr

section Runs

variable [DecidableEq Sig]

/-- Every room of a run is as it is stored. -/
theorem Reached.durable (hb : env.backend.Lawful) (hn : env.backend.NeverFails)
    (hout : env.factory.HandsOut room₀.localKey disk) (h₀ : Durable env disk room₀)
    (h : Reached env room₀ room) : Durable env disk room := by
  induction h with
  | start => exact h₀
  | call c hreach ih =>
    rw [← (hreach.moves hb).localKey_eq] at hout
    exact ih.perform hb hn hout c
  | @reconfigure room through indexers _ ih =>
    refine (ends_reconfigure through indexers room).always (fun _ room' h => ?_)
      fun _ room' h => h ▸ ih
    obtain ⟨lin, -, rfl⟩ := h
    have hrolled := sameData_rollBack env room lin
    have hsame := sameData_advance env (room.rollBack env lin)
    exact ih.of_sameLogs
      ⟨hsame.localKey.trans hrolled.localKey, hsame.localCore.trans hrolled.localCore,
      hsame.remotes.trans hrolled.remotes⟩
  | poll _ ih => exact ih.of_sameLogs ⟨rfl, rfl, rfl⟩

end Runs

/-! ### Restarting -/

/-- How many blocks of `w` a restart reads. -/
def vouchedLen (room : Room K H Sig SK S F P) (w : K) : ℕ :=
  if w = room.localKey then room.localCore.len
  else
    match room.remotes[w]? with
    | some r => r.vouchedLen
    | none => 0

variable (env) in
/-- Every own block is an entry, and every block of a replica up to its verified head. -/
def Decodable (room : Room K H Sig SK S F P) : Prop :=
  ∀ n bytes, n.seq < room.vouchedLen n.key → room.blockAt env n = .ok (some bytes) →
    ∃ e, env.codec.decode bytes = .ok e

variable (env) in
/-- An entry read from its block. -/
def entryOf (data : Block) : Except (CoreError E) (Option (Entry K)) :=
  match env.codec.decode data with
  | .error e => .error (.codec e)
  | .ok e => .ok (some e)

variable {B : List Block}

omit [LinearOrder K] [DecidableEq H] in
/-- Entries read from the blocks `B` can all be read if the blocks are entries. -/
theorem reads_iff {read : ℕ → Except (CoreError E) (Option (Entry K))}
    (hread : ∀ (i : ℕ) (data : Block), B[i]? = some data → read i = entryOf env data) :
    (∀ i < B.length, ∃ e?, read i = .ok e?) ↔
      ∀ (i : ℕ) (data : Block), B[i]? = some data → ∃ e, env.codec.decode data = .ok e := by
  constructor
  · intro h i data hi
    obtain ⟨e?, he?⟩ := h i (List.getElem?_eq_some_iff.mp hi).1
    rw [hread i data hi, entryOf] at he?
    cases hdec : env.codec.decode data with
    | ok e => exact ⟨e, rfl⟩
    | error e =>
      rw [hdec] at he?
      cases he?
  · intro h i hi
    have hdata := List.getElem?_eq_getElem hi
    obtain ⟨e, he⟩ := h i _ hdata
    exact ⟨some e, by rw [hread i _ hdata, entryOf, he]⟩

variable (env) in
omit [LinearOrder K] [DecidableEq H] in
theorem get_of_intact (hB : Hypercore.Intact env.crypto env.backend B core) (i : ℕ) (data : Block)
    (hi : B[i]? = some data) : core.get env.backend env.codec i = entryOf env data := by
  rw [Hypercore.get, hB.block hi, entryOf]
  dsimp only
  cases env.codec.decode data <;> rfl

variable (env) in
omit [LinearOrder K] [DecidableEq H] in
theorem get_of_stored {r : Replica K H Sig S} (hB : Replica.Stored env.crypto env.backend B r)
    (i : ℕ) (data : Block) (hi : B[i]? = some data) :
    r.get env.backend env.codec i = entryOf env data := by
  have hlen : r.tree.length = B.length := hB.len_eq
  have hlt := (List.getElem?_eq_some_iff.mp hi).1
  rw [Replica.get, if_neg (by omega), hB.readable i data hi, entryOf]
  dsimp only
  cases env.codec.decode data <;> rfl


section Restart

variable {factory' : StoreFactory K F' S} {base : Room K H Sig SK S F' P}

/-- The replicas of a restarted room are those that were persisted. -/
theorem Durable.loaded_remotes (h : Durable env disk room)
    (hl : Loaded (env.over factory') room.localKey room.localCore (room.leaves disk)
      (room.leaves disk).known base)
    (w : K) (r' : Replica K H Sig S) : base.remotes[w]? = some r' ↔
      ∃ r, room.remotes[w]? = some r ∧ Replica.openReplica env.crypto env.backend w r.store =
      .ok r' := by
  rw [hl.remotes]
  by_cases hin : w ∈ room.remotes
  · obtain ⟨r, hr⟩ := Option.isSome_iff_exists.mp (ExtTreeMap.mem_iff_isSome_getElem?.mp hin)
    have hne := (h.sound.remotes w r hr).1
    rw [hr, leaves_remote hne hr]
    constructor
    · rintro ⟨-, -, hopen⟩
      exact ⟨r, rfl, hopen⟩
    · rintro ⟨_, ⟨⟩, hopen⟩
      exact ⟨Or.inr hin, hne, hopen⟩
  · rw [ExtTreeMap.getElem?_eq_none hin]
    refine ⟨fun ⟨_, hne, hopen⟩ => ?_, fun ⟨_, hr, _⟩ => (nomatch hr)⟩
    rw [leaves_unopened hne hin] at hopen
    cases hopen.symm.trans (h.unopened w hne hin)

/-- Every store a durable room leaves reopens. -/
theorem Durable.reopens (h : Durable env disk room) {w : K} (hne : w ≠ room.localKey)
    (hknown : (room.leaves disk).known w) : Reopens (env.over factory') (room.leaves disk) w := by
  by_cases hin : w ∈ room.remotes
  · obtain ⟨r, hr⟩ := Option.isSome_iff_exists.mp (ExtTreeMap.mem_iff_isSome_getElem?.mp hin)
    obtain ⟨hsaved, hvalid⟩ := h.remotes w r hr
    refine ⟨hvalid, fun e he => ?_⟩
    rw [leaves_remote hne hr] at he
    obtain rfl := (h.sound.remotes w r hr).2.1
    obtain hopen | ⟨hopen, -⟩ := hsaved
    · cases he.symm.trans hopen
    · exact Except.error.inj (he.symm.trans hopen)
  · refine ⟨h.valid w hne (hknown.resolve_right hin), fun e he => ?_⟩
    rw [leaves_unopened hne hin] at he
    exact Except.error.inj (he.symm.trans (h.unopened w hne hin))

omit [DecidableEq H] in
theorem blockAt_own (room : Room K H Sig SK S F P) (i : ℕ) :
    room.blockAt env ⟨room.localKey, i⟩ = room.localCore.block env.backend i := if_pos rfl

omit [DecidableEq H] in
theorem blockAt_remote {w : K} (hw : w ≠ room.localKey) {r : Replica K H Sig S}
    (hr : room.remotes[w]? = some r) (i : ℕ) : room.blockAt env ⟨w, i⟩ = r.block env.backend i := by
  rw [blockAt, if_neg hw]
  dsimp only
  rw [hr]

/-- A restarted room can read its logs exactly if their blocks are entries. -/
theorem Durable.reads_iff_decodable (h : Durable env disk room)
    (hl : Loaded (env.over factory') room.localKey room.localCore (room.leaves disk)
      (room.leaves disk).known base) :
    ReadsAll (env.over factory') base ↔ Decodable env room := by
  obtain ⟨B, hB⟩ := h.sound.core
  have hown := reads_iff (get_of_intact env hB)
  rw [← hB.len_eq] at hown
  constructor
  · rintro ⟨hreads, hremotes⟩ ⟨w, i⟩ bytes hlt hblock
    dsimp only at hlt
    rw [vouchedLen] at hlt
    split_ifs at hlt with hw
    · subst hw
      rw [hl.localCore] at hreads
      obtain ⟨data, hdata⟩ : ∃ data, B[i]? = some data :=
        ⟨_, List.getElem?_eq_getElem (hB.len_eq ▸ hlt)⟩
      rw [blockAt_own, hB.block hdata] at hblock
      obtain rfl : data = bytes := Option.some.inj (Except.ok.inj hblock)
      exact hown.mp hreads i data hdata
    · cases hr : room.remotes[w]? with
      | none =>
        rw [hr] at hlt
        exact absurd hlt (Nat.not_lt_zero i)
      | some r =>
        rw [hr] at hlt
        obtain ⟨-, rfl, B', hB'⟩ := h.sound.remotes w r hr
        have hcut := hB'.cutBack
        rw [blockAt_remote hw hr] at hblock
        obtain hopen | ⟨-, hnew⟩ := (h.remotes r.publicKey r hr).1
        · have hbase := hremotes _ r.cutBack ((h.loaded_remotes hl _ _).mpr ⟨r, hr, hopen⟩)
          rw [hcut.len_eq] at hbase
          have hdecoded := (reads_iff (get_of_stored env hcut)).mp hbase
          have hlen : i < B'.length := hB'.toStored.len_eq ▸ (Replica.block_eq_some.mp hblock).1
          have hdata := List.getElem?_eq_getElem hlen
          rw [hB'.toStored.block hdata] at hblock
          obtain rfl : B'[i] = bytes := Option.some.inj (Except.ok.inj hblock)
          refine hdecoded i _ ?_
          rw [List.getElem?_take, if_pos hlt, hdata]
        · rw [hnew] at hlt
          exact absurd hlt (Nat.not_lt_zero i)
  · intro hdec
    refine ⟨?_, fun w r' hr' => ?_⟩
    · rw [hl.localCore]
      refine hown.mpr fun i data hi => ?_
      refine hdec ⟨room.localKey, i⟩ data ?_ ((blockAt_own room i).trans (hB.block hi))
      rw [vouchedLen, if_pos rfl, hB.len_eq]
      exact (List.getElem?_eq_some_iff.mp hi).1
    · obtain ⟨r, hr, hopen⟩ := (h.loaded_remotes hl w r').mp hr'
      obtain ⟨hw, rfl, B', hB'⟩ := h.sound.remotes w r hr
      obtain hx | ⟨hx, -⟩ := (h.remotes r.publicKey r hr).1
      · rw [hopen] at hx
        cases hx
        have hcut := hB'.cutBack
        rw [hcut.len_eq]
        refine (reads_iff (get_of_stored env hcut)).mpr fun i data hi => ?_
        rw [List.getElem?_take] at hi
        split_ifs at hi with hlt
        refine hdec ⟨r.publicKey, i⟩ data ?_
          ((blockAt_remote hw hr i).trans (hB'.toStored.block hi))
        rw [vouchedLen, if_neg hw, hr]
        exact hlt
      · rw [hopen] at hx
        cases hx

/-- The room reopens over what it leaves exactly if its blocks are entries. -/
theorem Durable.restart (h : Durable env disk room) {cfg : RoomConfig K SK}
    (hkey : room.localKey = env.crypto.publicOf cfg.identity)
    (hauthor : room.localCore.author = cfg.identity)
    (hback : factory'.HandsOut room.localKey (room.leaves disk)) (f' : F') (p' : P) :
    (∃ base room', openRoom (env.over factory') cfg f' p' = .ok room' ∧
      OpenedFrom (env.over factory') cfg (room.leaves disk) room.localCore base ∧
      SameLogs base room' ∧
      Grown (env.over factory') base room' ∧ Decodable env room) ∨
    (∃ e, openRoom (env.over factory') cfg f' p' = .error e) ∧ ¬ Decodable env room := by
  have hkey' : (env.over factory').crypto.publicOf cfg.identity = room.localKey := hkey.symm
  have hout : (env.over factory').factory.HandsOut
      ((env.over factory').crypto.publicOf cfg.identity) (room.leaves disk) :=
    hkey'.symm ▸ hback
  have hstore : (room.leaves disk).store ((env.over factory').crypto.publicOf cfg.identity) =
      room.localCore.store :=
    if_pos hkey'
  have hlocal : ∃ f₁, openLocal (env.over factory') cfg.identity f' = .ok room.localCore f₁ := by
    rw [← hauthor] at hout hstore ⊢
    exact openLocal_of_saved hout hstore h.core f'
  obtain ⟨f₁, hlocal⟩ := hlocal
  obtain ⟨room', hok, base, hbase, hsame, hgrown, hreads, -⟩ | ⟨herr, hbad⟩ :=
    openRoom_cases hout hlocal p'
  · have hl := hbase.loaded
    rw [hkey'] at hl
    exact Or.inl ⟨base, room', hok, hbase, hsame, hgrown, (h.reads_iff_decodable hl).mp hreads⟩
  · refine Or.inr ⟨herr, fun hdec => ?_⟩
    obtain ⟨w, hknown, hne, hbad⟩ | ⟨base, hbase, hbad⟩ := hbad
    · exact hbad (h.reopens (fun he => hne (he.trans hkey)) hknown)
    · have hl := hbase.loaded
      rw [hkey'] at hl
      exact hbad ((h.reads_iff_decodable hl).mpr hdec)

end Restart

/-- **A room restarts exactly if its blocks are entries.** On stores that never fail, any room
reached from an opened one, by calls that succeed or fail, opens again over the stores it leaves
if and only if every own block and every block up to the verified head of a replica is an entry. -/
theorem restart_iff_decodable [DecidableEq Sig] (hb : env.backend.Lawful)
    (hn : env.backend.NeverFails) (hkept : env.Kept) {cfg : RoomConfig K SK}
    (hout : env.factory.HandsOut (env.crypto.publicOf cfg.identity) disk)
    (hlists : ListsAll env (env.crypto.publicOf cfg.identity) disk) {f : F} {p : P}
    (hopen : openRoom env cfg f p = .ok room₀) (h : Reached env room₀ room) {cfg' : RoomConfig K SK}
    (hid : cfg'.identity = cfg.identity) {factory' : StoreFactory K F' S}
    (hback : factory'.HandsOut room.localKey (room.leaves disk)) (f' : F') (p' : P) :
    (∃ room', openRoom (env.over factory') cfg' f' p' = .ok room') ↔ Decodable env room := by
  obtain ⟨hdurable, hkey, hauthor, -⟩ := durable_openRoom hkept hout hlists hopen
  rw [← hkey] at hout
  rw [← hid] at hkey hauthor
  have hmoves := h.moves hb
  obtain ⟨_, room', hok, -, -, -, hdec⟩ | ⟨⟨e, herr⟩, hdec⟩ :=
    (h.durable hb hn hout hdurable).restart
    (hmoves.localKey_eq.trans hkey) (hmoves.author_eq.trans hauthor) hback f' p'
  · exact iff_of_true ⟨room', hok⟩ hdec
  · refine iff_of_false (fun ⟨room', hok⟩ => ?_) hdec
    cases hok.symm.trans herr

/-! ### Restarts in memory -/

/-- A factory that hands out the stores of the disk and lists the writers `ws`. -/
def drawers (disk : Disk K S) (ws : List K) :
    StoreFactory K Unit S := ⟨fun w => pure (disk.store w), fun _ => ws⟩

/-- An empty store for every writer. -/
def blankDisk : Disk WriterKey (MemoryStore Digest (WriterKey × HeadMessage Digest)) :=
  ⟨fun _ => .new, fun _ => False⟩

theorem inMemory_handsOut (own : WriterKey) : inMemory.factory.HandsOut own blankDisk :=
  ⟨fun _ f => ⟨f, rfl⟩, fun _ _ _ => List.mem_nil_iff _⟩

theorem inMemory_listsAll (own : WriterKey) : ListsAll inMemory own blankDisk := fun _ _ _ => rfl

/-- The stores a room in memory leaves. -/
def leftBy (room : MemoryRoom) :
    StoreFactory WriterKey Unit (MemoryStore Digest (WriterKey × HeadMessage Digest)) :=
  drawers (room.leaves blankDisk) room.remotes.keys

theorem leftBy_handsOut (room : MemoryRoom) :
    (leftBy room).HandsOut room.localKey (room.leaves blankDisk) := by
  refine ⟨fun _ f => ⟨f, rfl⟩, fun w _ _ => ?_⟩
  show w ∈ room.remotes.keys ↔ False ∨ w ∈ room.remotes
  rw [false_or, Graph.mem_keys]

/-- The room in memory opens again over the stores it leaves. -/
def restarts (room : MemoryRoom) : Bool :=
  match openRoom (inMemory.over (leftBy room)) ⟨0, [], .original⟩ () () with
  | .ok _ => true
  | .error _ => false

theorem restarts_iff {room : MemoryRoom} : restarts room = true ↔
    ∃ room', openRoom (inMemory.over (leftBy room)) ⟨0, [], .original⟩ () () = .ok room' := by
  unfold restarts
  cases openRoom (inMemory.over (leftBy room)) ⟨0, [], .original⟩ () () <;> simp

/-- A room that took in an entry of writer 1 restarts. -/
theorem restart_of_entry : ∃ room₀ room, openRoom inMemory ⟨0, [], .original⟩ () () = .ok room₀ ∧
    Reached inMemory room₀ room ∧ room.writerLen 1 = 1 ∧ restarts room = true ∧
    Decodable inMemory room := by
  have hrun : (openedAfter inMemory [signedBlock 1 [entryCodec.encode ⟨[], [7]⟩] 0]).any
      (fun room => decide (room.writerLen 1 = 1) && restarts room) = true := by
    decide +kernel
  obtain ⟨room, hroom, hcheck⟩ := (Option.any_eq_true _ _).mp hrun
  obtain ⟨hlen, hrestarts⟩ := Bool.and_eq_true_iff.mp hcheck
  obtain ⟨room₀, hopen, hreach⟩ := openedAfter_reached hroom
  refine ⟨room₀, room, hopen, hreach, of_decide_eq_true hlen, hrestarts, ?_⟩
  exact (restart_iff_decodable Backend.memory_lawful Backend.memory_neverFails inMemory_kept
    (inMemory_handsOut _)
    (inMemory_listsAll _) hopen hreach rfl (leftBy_handsOut room) () ()).mp
    (restarts_iff.mp hrestarts)

/-- A room that took in a block of writer 1 that is no entry does not. -/
theorem garbage_stops_restart :
    ∃ room₀ room, openRoom inMemory ⟨0, [], .original⟩ () () = .ok room₀ ∧
    Reached inMemory room₀ room ∧ (leftBy room).HandsOut room.localKey (room.leaves blankDisk) ∧
    ¬ ∃ room', openRoom (inMemory.over (leftBy room)) ⟨0, [], .original⟩ () () = .ok room' := by
  have hrun :
    (openedAfter inMemory [signedBlock 1 [[255]] 0]).any (fun room => !restarts room) = true := by
    decide +kernel
  obtain ⟨room, hroom, hcheck⟩ := (Option.any_eq_true _ _).mp hrun
  obtain ⟨room₀, hopen, hreach⟩ := openedAfter_reached hroom
  refine ⟨room₀, room, hopen, hreach, leftBy_handsOut room, fun h => ?_⟩
  rw [restarts_iff.mpr h] at hcheck
  cases hcheck


end Room
end HypercoreRs
