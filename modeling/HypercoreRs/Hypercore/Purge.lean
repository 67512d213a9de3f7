/-
# Starting again empty

`purge` deletes the blocks below the current length and the reserved keys, and the log starts
again, without blocks or head and at fork 0.

Two things outlive it. Blocks past the end of the log stay in the store: those of a tail that was
cut off, which `truncate` leaves to be reclaimed later, and those of writes that failed
(`Tailless`). And the heads signed before are still signed: the forks and lengths are gone
through once more, and whatever non-empty log was signed, another one can be signed now at the
same fork and length (`regrowth`).
-/
import HypercoreRs.Hypercore.Batch

namespace HypercoreRs

open Std Merkle Command Storage Relation

/-- Nothing is stored under any 64-bit key. -/
def Storage.Store.Erased {S E : Type} (st : Store S E) (s : S) : Prop := ∀ n < 2 ^ 64, st.get s n = .ok none

namespace Hypercore

variable {K H Sig SK S E T : Type}
variable {c : Crypto K H Sig SK} {st : Store S E} {w : Wire H Sig} {codec : Codec T}
variable {log : Log H} {core core' : Hypercore H Sig SK S}

variable (st) in
/-- No block is stored past the end of the log. -/
def Tailless (core : Hypercore H Sig SK S) : Prop :=
  ∀ n, core.len ≤ n → n < KEY_USERDATA → st.get core.store n = .ok none

/-- One of the logs has the head. -/
def Heads (cores : List (Hypercore H Sig SK S)) (h : SignedHead H Sig) : Prop :=
  ∃ core ∈ cores, core.head = some h

variable {n : ℕ}

theorem mem_purged (hn : n < 2 ^ 64) : n ∈ core.purged ↔ n < core.len ∨ KEY_USERDATA ≤ n := by
  simp only [purged, List.mem_append, List.mem_range, List.mem_cons, List.not_mem_nil, or_false,
    KEY_META, KEY_TREE, KEY_PRESENCE, KEY_USERDATA]
  omega

/-! ### Every head is over blocks that a store has numbers for -/

variable (c) in
/-- The tree is of blocks below the reserved keys, and so is what the head was signed over. -/
structure Sized (core : Hypercore H Sig SK S) : Prop where
  built : ∃ B, Built c.hasher B core.tree
  fits : core.len ≤ KEY_USERDATA
  head : ∀ h, core.head = some h → h.length ≤ KEY_USERDATA ∧
    ∃ B : List Block, B.length = h.length ∧ h.root = c.hasher.treeHash (rootsOf c.hasher B)

theorem sized_new (author : SK) (store : S) (prologue : Option (Prologue H)) :
    Sized c ({ new author store with prologue } : Hypercore H Sig SK S) where
  built := ⟨[], built_new⟩
  fits := Nat.zero_le _
  head := nofun

variable (c) in
/-- What keeps a log sized. -/
def KeepsSized (core core' : Hypercore H Sig SK S) : Prop := Sized c core → Sized c core'

theorem lenient_keepsSized : Lenient (S := S) (KeepsSized c) := by
  intro core core' htree _ hhead h
  refine ⟨htree ▸ h.built, ?_, hhead ▸ h.head⟩
  rw [len, htree]
  exact h.fits

theorem Sized.store (h : Sized c core) (s : S) : Sized c { core with store := s } := ⟨h.built, h.fits, h.head⟩

theorem Sized.steps (h : Sized c core) (hsteps : ReflTransGen (KeepsSized c) core core') : Sized c core' := by
  induction hsteps with
  | refl => exact h
  | tail _ hstep ih => exact hstep ih

/-- The head that a sized tree signs. -/
theorem Sized.signedHead (hb : ∃ B, Built c.hasher B core.tree) (hfits : core.len ≤ KEY_USERDATA)
    (hhead : core.head = core.signedHead c) : Sized c core := by
  refine ⟨hb, hfits, fun h hsome => ?_⟩
  obtain ⟨B, hB⟩ := hb
  rw [hhead, Hypercore.signedHead, hB.rootHash] at hsome
  obtain rfl := Option.some.inj hsome
  exact ⟨hfits, B, hB.length_eq.symm, rfl⟩

theorem Sized.written {blocks : List Block} (h : Sized c core) (hw : Written c st w core blocks core') :
    Sized c core' := by
  by_cases hne : blocks = []
  · subst hne
    exact lenient_keepsSized hw.tree hw.fork (hw.head.trans (if_pos rfl)) h
  · obtain ⟨B, hB⟩ := h.built
    refine .signedHead ⟨_, hw.tree ▸ hB.appends blocks⟩ ?_ (hw.head.trans (if_neg hne))
    rw [hw.len]
    exact hw.stores.fits hne

theorem ends_resigned_sized (hb : ∃ B, Built c.hasher B core.tree) (hfits : core.len ≤ KEY_USERDATA) :
    Ends (resigned c : EStateM (CoreError (LayoutError E)) _ _) core (fun _ core' => Sized c core')
      fun _ _ => False := by
  obtain ⟨core', hsign⟩ := exists_resign hb
  unfold resigned
  apply Ends.get
  rw [hsign]
  have hhead := head_of_resign hsign
  obtain ⟨root, -, rfl⟩ := Option.map_eq_some_iff.mp hsign
  exact Ends.set (.signedHead hb hfits hhead)

theorem Sized.ends_truncate (h : Sized c core) (n : ℕ) :
    Ends (truncate c n : EStateM (CoreError (LayoutError E)) _ _) core (fun _ core' => Sized c core')
      fun _ core' => Sized c core' := by
  unfold truncate
  apply Ends.get
  split_ifs with hpro hge
  · exact Ends.pure h
  · exact Ends.pure h
  · obtain ⟨B, hB⟩ := h.built
    have hlt : n < B.length := (Nat.lt_of_not_le hge).trans_eq hB.length_eq
    have hcut := (hB.truncate hlt).2
    apply Ends.assign
    refine Ends.andThen (ends_resigned_sized ⟨_, hcut⟩ ?_) (fun _ _ h' => h'.elim)
      fun _ _ h' => Ends.pure h'
    rw [len, hcut.length_eq, List.length_take]
    have := h.fits
    rw [len, hB.length_eq] at this
    omega

/-- Copied blocks get the next numbers. -/
theorem Sized.ends_copyBlocks (hst : st.Lawful) (source : Hypercore H Sig SK S) :
    ∀ (n : ℕ) {core : Hypercore H Sig SK S}, Sized c core →
    Ends (copyBlocks c st w source (List.range' core.len n)) core (fun _ core' => Sized c core')
      fun _ core' => Sized c core'
  | 0, core, h => Ends.pure h
  | n + 1, core, h => by
    rw [List.range'_succ, copyBlocks]
    refine Ends.bind (Q := fun _ core' => Sized c core' ∧ core'.len = core.len + 1) ?_ fun _ core₁ h₁ => ?_
    · unfold copyBlock
      refine Ends.bind (Ends.reads (Q := fun _ core' => core' = core) (fun _ _ => rfl) fun _ _ => h)
        fun enc core₁ h₁ => ?_
      subst h₁
      refine Ends.andThen (ends_write_block hst core₁.len enc core₁) (fun _ core' h' => ?_)
        fun _ core' h' => Ends.modify ?_
      · obtain ⟨-, s, rfl, -⟩ := h'
        exact h.store s
      · obtain ⟨s, rfl, hs⟩ := h'
        obtain ⟨B, hB⟩ := h.built
        exact ⟨⟨⟨_, hB.append enc⟩, hs.fits (List.cons_ne_nil _ _), h.head⟩, rfl⟩
    · have hrest := Sized.ends_copyBlocks hst source n h₁.1
      rwa [h₁.2] at hrest

variable [DecidableEq H]

theorem Sized.ends_copyPrologue (hst : st.Lawful) (h : Sized c core) (source : Hypercore H Sig SK S) :
    Ends (copyPrologue c st w source) core (fun _ core' => Sized c core') fun _ core' => Sized c core' := by
  unfold copyPrologue
  apply Ends.get
  cases core.prologue with
  | none => exact Ends.throw h
  | some pr =>
    dsimp only
    split_ifs with hempty hroot
    · exact Ends.throw h
    · exact Ends.throw h
    · have hcopy := h.ends_copyBlocks (w := w) hst source pr.length
      rw [not_not.mp hempty, ← List.range_eq_range'] at hcopy
      refine Ends.bind hcopy fun _ core₁ h₁ => ?_
      exact Ends.andThen (ends_resigned_sized h₁.built h₁.fits) (fun _ _ h' => h'.elim)
        fun _ _ h' => Ends.pure h'

theorem Sized.ends_recover (hst : st.Lawful) (h : Sized c core) (head : SignedHead H Sig)
    (suffix : List Block) :
    Ends (recoverSignedSuffix c (backend w st) head suffix) core (fun _ core' => Sized c core')
      fun _ core' => Sized c core' := by
  have hb : (backend w st : Backend S (LayoutError E) H Sig).Lawful := Backend.ofStore_lawful hst
  refine (ends_recoverSignedSuffix c hb head suffix).mono (fun _ core' h' => ?_) fun _ core' h' => ?_
  · obtain ⟨-, s, stored, hread, hfeed, -, hsuffix, rfl⟩ := h'
    obtain ⟨hlength, hroot, -⟩ := verifyArchivedFeed_iff.mp hfeed
    have hbuilt := built_ofBlocks c.hasher (stored ++ suffix)
    have hstored : stored.length = core.len := by rw [(mapM_ok hread).1, List.length_range]
    have hfits : (stored ++ suffix).length ≤ KEY_USERDATA := by
      rw [List.length_append, hstored]
      rcases eq_or_ne suffix [] with rfl | hne
      · exact h.fits
      · have hpos := List.length_pos_iff.mpr hne
        have hlast := List.getElem?_eq_getElem (l := suffix) (i := suffix.length - 1) (by omega)
        obtain ⟨n, -, hnum, -⟩ := Backend.ofStore_get_eq_some.mp (hsuffix _ _ hlast)
        have := StoreKey.number_block hnum
        omega
    refine ⟨⟨_, hbuilt⟩, hbuilt.length_eq.trans_le hfits, fun h hsome => ?_⟩
    obtain rfl := Option.some.inj hsome
    exact ⟨hlength.trans_le hfits, _, hlength.symm, hroot⟩
  · obtain ⟨s, rfl, -⟩ := h'
    exact h.store s

omit [DecidableEq H] in
theorem Sized.ends_commit (hst : st.Lawful) (h : Sized c core) (batch : Batch) :
    Ends (commit c st w batch) core (fun _ core' => Sized c core') fun _ core' => Sized c core' := by
  by_cases hbase : batch.base = core.len
  · refine (ends_commit_written hst h.built hbase).mono (fun _ core' h' => h.written h'.2)
      fun _ core' h' => ?_
    obtain ⟨-, s, rfl, -⟩ := h'
    exact h.store s
  · exact Ends.of_ok (commit_stale hbase) h

/-- Any call, failed or not. -/
theorem Sized.op (hst : st.Lawful) (h : Sized c core) (op : CoreOp T H Sig SK S) :
    Sized c (after (op.run c st w codec) core) := by
  have hdrop : ∀ {α : Type} {x : EStateM (CoreError (LayoutError E)) (Hypercore H Sig SK S) α},
      Ends x core (fun _ core' => Sized c core') (fun _ core' => Sized c core') →
      Sized c (after (do let _ ← x) core) := fun hx =>
    hx.drop.always (fun _ _ h' => h'.elim fun _ h' => h') fun _ _ h' => h'
  have hsteps : ∀ {α : Type} {x : EStateM (CoreError (LayoutError E)) (Hypercore H Sig SK S) α},
      Within (ReflTransGen (KeepsSized c)) x core (fun _ _ => True) →
      Ends x core (fun _ core' => Sized c core') (fun _ core' => Sized c core') := fun hx =>
    (within_iff.mp hx).mono (fun _ _ h' => h.steps h'.1) fun _ _ h' => h.steps h'
  cases op with
  | append value =>
    refine hdrop ((ends_append_written codec hst h.built value).mono (fun _ _ h' => h.written h')
      fun _ core' h' => ?_)
    obtain ⟨-, s, rfl, -⟩ := h'
    exact h.store s
  | appendAll values =>
    refine hdrop ?_
    unfold appendAll
    apply Ends.get
    split_ifs
    · exact Ends.pure h
    · exact Ends.bind (h.ends_commit hst _) fun _ _ h' => Ends.get (Ends.pure h')
  | commit batch => exact hdrop (h.ends_commit hst batch)
  | truncate n => exact hdrop (h.ends_truncate n)
  | clear start end_ => exact hdrop (hsteps (steps_clear lenient_keepsSized start end_ core))
  | sweep keep => exact hdrop (hsteps (steps_sweep lenient_keepsSized keep core))
  | setUserData key value =>
    exact (hsteps (steps_setUserData lenient_keepsSized key value core)).always (fun _ _ h' => h')
      fun _ _ h' => h'
  | copyPrologue source => exact hdrop (h.ends_copyPrologue hst source)
  | recoverSignedSuffix head suffix =>
    exact (h.ends_recover hst head suffix).always (fun _ _ h' => h') fun _ _ h' => h'
  | purge =>
    refine (ends_purge (c := c) (w := w) hst core).always (fun _ core' h' => ?_) fun _ core' h' => ?_
    · obtain ⟨-, s, rfl, -⟩ := h'
      exact sized_new core.author s none
    · obtain ⟨s, rfl⟩ := h'
      exact h.store s
  | reopen author =>
    exact (hsteps (steps_reopen lenient_keepsSized hst author core)).always (fun _ _ h' => h')
      fun _ _ h' => h'

theorem Sized.moments (hst : st.Lawful) :
    ∀ {ops : List (CoreOp T H Sig SK S)} {core core' : Hypercore H Sig SK S},
    Sized c core → core' ∈ moments c st w codec ops core → Sized c core'
  | [], core, core', h, hmem => List.mem_singleton.mp hmem ▸ h
  | op :: rest, core, core', h, hmem => by
    rcases List.mem_cons.mp hmem with rfl | hmem
    · exact h
    · exact (h.op hst op).moments hst hmem

/-! ### The same fork and length once more -/

/-- Go through `f` forks with the value `v`, and append it `n` times. -/
def regrowth (v : T) (n : ℕ) : ℕ → List (CoreOp T H Sig SK S)
  | 0 => List.replicate n (.append v)
  | f + 1 => .append v :: .truncate 0 :: regrowth v n f

/-- An append to a log that has room, on a store that never fails. -/
theorem Coherent.ends_append_room (hst : st.Lawful) (hnever : st.NeverFails)
    (h : Coherent c st w log core) (hroom : log.blocks.length < KEY_USERDATA) (v : T) :
    Ends ((CoreOp.append v).run c st w codec) core
      (fun _ core' => Coherent c st w (log.write [codec.encode v]) core' ∧ core'.author = core.author)
      fun _ _ => False := by
  have happend := (h.ends_append codec hst v).and_error
    fun e core' herror => ((ends_append_written codec hst ⟨_, h.built⟩ v).error herror).1 hnever
  refine happend.drop.mono (fun _ _ h' => ?_) fun _ _ h' => ?_
  · obtain ⟨_, -, hcoh, -, hauthor⟩ := h'
    exact ⟨hcoh, hauthor⟩
  · have := h'.2
    rw [h.len_eq] at this
    omega

theorem Coherent.ends_appends (hst : st.Lawful) (hnever : st.NeverFails) (v : T) :
    ∀ (n : ℕ) {log : Log H} {core : Hypercore H Sig SK S}, Coherent c st w log core →
    log.blocks.length + n ≤ KEY_USERDATA →
    Ends (CoreOp.runAll c st w codec (List.replicate n (.append v))) core
      (fun _ core' => Coherent c st w (log.write (List.replicate n (codec.encode v))) core' ∧
        core'.author = core.author)
      fun _ _ => False
  | 0, log, core, h, _ => by
    refine Ends.pure ⟨?_, rfl⟩
    rw [List.replicate_zero, Log.write, List.map_nil, List.append_nil]
    exact h
  | n + 1, log, core, h, hroom => by
    refine Ends.bind (h.ends_append_room hst hnever (by omega) v) fun _ core₁ h₁ => ?_
    have hroom₁ : (log.write [codec.encode v]).blocks.length + n ≤ KEY_USERDATA := by
      simp only [Log.write, List.length_append, List.length_map, List.length_singleton]
      omega
    refine (Coherent.ends_appends hst hnever v n h₁.1 hroom₁).mono (fun _ core' h' => ?_) fun _ _ h' => h'
    rw [Log.write_write] at h'
    exact ⟨h'.1, h'.2.trans h₁.2⟩

variable (codec) in
/-- The log is at fork `f` and has `n` equal blocks. -/
theorem Coherent.ends_regrowth (hst : st.Lawful) (hnever : st.NeverFails) (v : T) (hn : n ≤ KEY_USERDATA) :
    ∀ (f t : ℕ) {core : Hypercore H Sig SK S},
    Coherent c st w ⟨[], t, none⟩ core →
    Ends (CoreOp.runAll c st w codec (regrowth v n f)) core
      (fun _ core' => Coherent c st w ⟨(List.replicate n (codec.encode v)).map (·, true), t + f, none⟩ core' ∧
        core'.author = core.author)
      fun _ _ => False
  | 0, t, core, h => h.ends_appends hst hnever v n (by simpa using hn)
  | f + 1, t, core, h => by
    refine Ends.bind (h.ends_append_room hst hnever (by simp [KEY_USERDATA]) v) fun _ core₁ h₁ => ?_
    refine Ends.bind (h₁.1.ends_truncate 0).drop fun _ core₂ h₂ => ?_
    obtain ⟨_, hcoh, -, hauthor⟩ := h₂
    have hcut : (Log.write (⟨[], t, none⟩ : Log H) [codec.encode v]).truncate 0 = ⟨[], t + 1, none⟩ := by
      simp [Log.truncate, Log.write]
    rw [hcut] at hcoh
    refine (Coherent.ends_regrowth hst hnever v hn f (t + 1) hcoh).mono (fun _ core' h' => ?_)
      fun _ _ h' => h'
    rw [Nat.add_right_comm] at h'
    exact ⟨h'.1, h'.2.trans (hauthor.trans h₁.2)⟩

/-! ### What is left after a purge -/

variable (c st w codec) in
/-- `before` are the moments of a run of a new log, failed calls included, and `core` is the last. -/
def History (before : List (Hypercore H Sig SK S)) (core : Hypercore H Sig SK S) : Prop :=
  ∃ (author : SK) (store : S) (prologue : Option (Prologue H)) (ops : List (CoreOp T H Sig SK S)),
    before = moments c st w codec ops { new author store with prologue } ∧ before.getLast? = some core

omit [DecidableEq H] in
/-- The store of a purged log is empty if the log had no tail. -/
theorem erased_iff {s : S} (hgone : ∀ n ∈ core.purged, st.get s n = .ok none)
    (hsame : ∀ n ∉ core.purged, st.get s n = st.get core.store n) : st.Erased s ↔ core.Tailless st := by
  constructor
  · intro h n hlen hn
    have hn64 : n < 2 ^ 64 := by
      rw [KEY_USERDATA] at hn
      omega
    have hleft : n ∉ core.purged := by
      rw [mem_purged hn64]
      omega
    exact (hsame n hleft).symm.trans (h n hn64)
  · intro h n hn
    by_cases hmem : n ∈ core.purged
    · exact hgone n hmem
    · refine (hsame n hmem).trans ?_
      rw [mem_purged hn, not_or] at hmem
      exact h n (by omega) (by omega)

variable (c st w codec) in
/-- No head that the log signs from here on, whatever is called, conflicts with one of `before`. -/
def StaysHonest (before : List (Hypercore H Sig SK S)) (core : Hypercore H Sig SK S) : Prop :=
  ∀ (ops : List (CoreOp T H Sig SK S)) (a b : SignedHead H Sig), Heads before a →
    Heads (moments c st w codec ops core) b → conflictingHeads c (core.publicKey c) a b = false

variable (c) in
/-- No head of `before` that the key vouches for is over a block. -/
def SignedNothing (publicKey : K) (before : List (Hypercore H Sig SK S)) : Prop :=
  ∀ a, Heads before a → verifySignedHead c publicKey a = true → a.length = 0

theorem conflictingHeads_iff {publicKey : K} {a b : SignedHead H Sig} :
    conflictingHeads c publicKey a b = true ↔ a.fork = b.fork ∧ a.length = b.length ∧ a.root ≠ b.root ∧
      verifySignedHead c publicKey a = true ∧ verifySignedHead c publicKey b = true := by
  simp only [conflictingHeads, Bool.and_eq_true, beq_iff_eq, bne_iff_ne, and_assoc]

variable {before : List (Hypercore H Sig SK S)}

/-- Heads over no block do not conflict. -/
theorem SignedNothing.staysHonest (hst : st.Lawful) (hbefore : ∀ core ∈ before, Sized c core)
    (hcore : Sized c core) (h : SignedNothing c (core.publicKey c) before) :
    StaysHonest c st w codec before core := by
  intro ops a b ha hb
  by_contra hconflict
  rw [Bool.not_eq_false, conflictingHeads_iff] at hconflict
  obtain ⟨-, hlength, hroot, hverify, -⟩ := hconflict
  have hempty := h a ha hverify
  obtain ⟨coreA, hA, ha⟩ := ha
  obtain ⟨coreB, hB, hb⟩ := hb
  obtain ⟨-, A, hlenA, hrootA⟩ := (hbefore coreA hA).head a ha
  obtain ⟨-, B, hlenB, hrootB⟩ := (hcore.moments hst hB).head b hb
  obtain rfl : A = [] := List.length_eq_zero_iff.mp (hlenA.trans hempty)
  obtain rfl : B = [] := List.length_eq_zero_iff.mp (hlenB.trans (hlength.symm.trans hempty))
  exact hroot (hrootA.trans hrootB.symm)

/-- A run that succeeds ends at one of its moments. -/
theorem mem_moments_of_runAll : ∀ {ops : List (CoreOp T H Sig SK S)} {core core' : Hypercore H Sig SK S},
    CoreOp.runAll c st w codec ops core = .ok () core' → core' ∈ moments c st w codec ops core
  | [], core, core', hrun => by
    cases hrun
    exact List.mem_singleton_self _
  | op :: rest, core, core', hrun => by
    obtain ⟨_, core₁, hop, hrest⟩ := bind_eq_ok.mp hrun
    have hafter : after (op.run c st w codec) core = core₁ := by rw [after, hop]
    exact List.mem_cons_of_mem core (hafter ▸ mem_moments_of_runAll hrest)

variable (codec) in
/-- A log that starts again signs `n` equal blocks at fork `f`. -/
theorem Coherent.heads_regrowth (hst : st.Lawful) (hnever : st.NeverFails) (v : T) (hpos : 0 < n)
    (hn : n ≤ KEY_USERDATA) (f : ℕ) (h : Coherent c st w (.fresh none) core) :
    ∃ b, Heads (HypercoreRs.moments c st w codec (regrowth v n f) core) b ∧ b.fork = f ∧ b.length = n ∧
      b.root = c.hasher.treeHash (rootsOf c.hasher (List.replicate n (codec.encode v))) ∧
      verifySignedHead c (core.publicKey c) b = true := by
  obtain ⟨_, core', hrun, hcoh, hauthor⟩ := (h.ends_regrowth codec hst hnever v hn f 0).exists_ok
  have hbytes : (⟨(List.replicate n (codec.encode v)).map (·, true), 0 + f, none⟩ : Log H).bytes =
      List.replicate n (codec.encode v) := by simp [Log.bytes]
  have hbuilt := hcoh.built
  rw [hbytes] at hbuilt
  have hlen : core'.len = n := hbuilt.length_eq.trans List.length_replicate
  obtain ⟨b, hhead, hfork, hlength, hroot, hsig⟩ := hcoh.exists_head (hlen ▸ hpos)
  rw [hbytes] at hroot
  refine ⟨b, ⟨core', mem_moments_of_runAll hrun, hhead⟩, ?_, hlength.trans hlen, hroot, ?_⟩
  · rw [hfork, hcoh.fork_eq, Nat.zero_add]
  · rwa [publicKey, hauthor] at hsig

/-- Whatever was signed over a block, another head can be signed for. -/
theorem StaysHonest.signedNothing (ideal : c.hasher.Ideal) (hst : st.Lawful) (hnever : st.NeverFails)
    (hvalues : ∃ v v' : T, codec.encode v ≠ codec.encode v') (hbefore : ∀ core ∈ before, Sized c core)
    (hcore : Coherent c st w (.fresh none) core) (h : StaysHonest c st w codec before core) :
    SignedNothing c (core.publicKey c) before := by
  intro a ha hverify
  by_contra hpos
  have hpos : 0 < a.length := Nat.pos_of_ne_zero hpos
  have hn : a.length ≤ KEY_USERDATA := by
    obtain ⟨coreA, hA, ha⟩ := ha
    exact ((hbefore coreA hA).head a ha).1
  -- the head would be over `a.length` copies of any value
  have hroot : ∀ v : T,
      a.root = c.hasher.treeHash (rootsOf c.hasher (List.replicate a.length (codec.encode v))) := by
    intro v
    by_contra hne
    obtain ⟨b, hb, hfork, hlength, hroot, hsig⟩ := hcore.heads_regrowth codec hst hnever v hpos hn a.fork
    have hhonest := h (regrowth v a.length a.fork) a b ha hb
    rw [← Bool.not_eq_true, conflictingHeads_iff] at hhonest
    exact hhonest ⟨hfork.symm, hlength.symm, fun heq => hne (heq.trans hroot), hverify, hsig⟩
  obtain ⟨v, v', hne⟩ := hvalues
  have hsame := rootsOf_inj ideal (ideal.tree ((hroot v).symm.trans (hroot v')))
  exact hne (List.replicate_right_injective hpos.ne' hsame)

/-- A purge leaves nothing in the store if and only if no block was stored past the end of the
log. The author stays honest if nothing had been signed before; where something had, a store that
takes what is written lets it sign a conflicting head. -/
theorem purge_clean_iff (hst : st.Lawful) {before : List (Hypercore H Sig SK S)}
    (h : History c st w codec before core) (hpurge : purge st core = .ok () core') :
    (st.Erased core'.store ↔ core.Tailless st) ∧
    (SignedNothing c (core.publicKey c) before → StaysHonest c st w codec before core') ∧
    (c.hasher.Ideal → st.NeverFails → (∃ v v' : T, codec.encode v ≠ codec.encode v') →
      StaysHonest c st w codec before core' → SignedNothing c (core.publicKey c) before) := by
  have hsized : ∀ core ∈ before, Sized c core := by
    intro core hmem
    obtain ⟨author, store, prologue, ops, rfl, -⟩ := h
    exact (sized_new author store prologue).moments hst hmem
  obtain ⟨hcoh, s, rfl, hgone, hsame⟩ := (ends_purge (c := c) (w := w) hst core).ok hpurge
  refine ⟨erased_iff hgone hsame, fun hnothing => ?_, fun ideal hnever hvalues hhonest => ?_⟩
  · exact hnothing.staysHonest hst hsized (sized_new core.author s none)
  · exact (hhonest.signedNothing ideal hst hnever hvalues hsized hcoh :)

/-- The two heads are there and conflict. -/
def headsConflict (a b : Option (SignedHead (BitVec 256) (BitVec 512))) : Bool :=
  match a, b with
  | some a, some b => conflictingHeads Crypto.sums () a b
  | _, _ => false

theorem exists_of_headsConflict {a b : Option (SignedHead (BitVec 256) (BitVec 512))}
    (h : headsConflict a b = true) :
    ∃ a' b', a = some a' ∧ b = some b' ∧ conflictingHeads Crypto.sums () a' b' = true := by
  unfold headsConflict at h
  split at h
  · exact ⟨_, _, rfl, rfl, h⟩
  · cases h

/-- A block that was cut off is still there after a purge, and the first block of the log that
starts again conflicts with the one it had. -/
theorem purge_leaves_evidence :
    (∃ core, CoreOp.runAll Crypto.sums Store.memory Wire.bits Codec.plain
        ([.append [1], .append [2], .truncate 1, .purge] : List MemoryOp) memoryLog = .ok () core ∧
      Store.memory.get core.store 1 ≠ .ok none) ∧
    ∃ core core' a b, CoreOp.runAll Crypto.sums Store.memory Wire.bits Codec.plain
        ([.append [1]] : List MemoryOp) memoryLog = .ok () core ∧ core.head = some a ∧
      CoreOp.runAll Crypto.sums Store.memory Wire.bits Codec.plain
        ([.purge, .append [2]] : List MemoryOp) core = .ok () core' ∧ core'.head = some b ∧
      conflictingHeads Crypto.sums () a b = true := by
  have hleft : returnedIn (fun core => core.store[1]?.isSome)
      (CoreOp.runAll Crypto.sums Store.memory Wire.bits Codec.plain
        ([.append [1], .append [2], .truncate 1, .purge] : List MemoryOp) memoryLog) = true := by
    decide +kernel
  have hagain : returnedIn
      (fun core => returnedIn (fun core' => headsConflict core.head core'.head)
        (CoreOp.runAll Crypto.sums Store.memory Wire.bits Codec.plain
          ([.purge, .append [2]] : List MemoryOp) core))
      (CoreOp.runAll Crypto.sums Store.memory Wire.bits Codec.plain
        ([.append [1]] : List MemoryOp) memoryLog) = true := by decide +kernel
  obtain ⟨_, core, hcore, hsome⟩ := exists_of_returnedIn hleft
  obtain ⟨_, core₁, hcore₁, hagain⟩ := exists_of_returnedIn hagain
  obtain ⟨_, core₂, hcore₂, hconflict⟩ := exists_of_returnedIn hagain
  obtain ⟨a, b, ha, hb, hconflict⟩ := exists_of_headsConflict hconflict
  refine ⟨⟨core, hcore, fun hnone => ?_⟩, core₁, core₂, a, b, hcore₁, ha, hcore₂, hb, hconflict⟩
  rw [Except.ok.inj hnone] at hsome
  cases hsome

/-- A log in memory, with symbolic hashes and signatures. -/
abbrev symbolicLog : Hypercore Digest (Unit × HeadMessage Digest) Unit (ExtTreeMap ℕ (List UInt8)) :=
  { new () ∅ with prologue := none }

/-- One block is signed and purged: nothing is left in the store, but the author can still be
brought to sign a conflicting head. -/
theorem purge_clean_iff_one : ∃ core core',
    CoreOp.runAll (Crypto.symbolic id) Store.memory Wire.symbolic Codec.plain [.append [1]] symbolicLog =
      .ok () core ∧ purge Store.memory core = .ok () core' ∧ Store.memory.Erased core'.store ∧
    ¬ StaysHonest (Crypto.symbolic id) Store.memory Wire.symbolic Codec.plain [symbolicLog, core] core' := by
  have hreturned : returnedIn (fun core => returned (purge Store.memory core))
      (CoreOp.runAll (Crypto.symbolic id) Store.memory Wire.symbolic Codec.plain [.append [1]]
        symbolicLog) = true := by decide +kernel
  obtain ⟨_, core, hrun, hpurged⟩ := exists_of_returnedIn hreturned
  obtain ⟨_, core', hpurge⟩ := exists_of_returned hpurged
  obtain ⟨_, core₁, hop, hnil⟩ := bind_eq_ok.mp hrun
  cases hnil
  have hhistory :
    History (Crypto.symbolic id) Store.memory Wire.symbolic Codec.plain [symbolicLog, core] core :=
    ⟨(), ∅, none, [.append [1]], by rw [moments, moments, after, hop], rfl⟩
  obtain ⟨hiff, -, hsigned⟩ := purge_clean_iff Store.memory_lawful hhistory hpurge
  have hcoh := (coherent_new () ∅ none).runAll Store.memory_lawful [.append [1]] hrun
  obtain ⟨_, _, happend, hpure⟩ := bind_eq_ok.mp hop
  cases hpure
  have hwritten := (ends_append_written Codec.plain Store.memory_lawful ⟨[], built_new⟩ [1]).ok happend
  refine ⟨core, core', hrun, hpurge, hiff.mpr fun n hlen _ => ?_, fun hhonest => ?_⟩
  · rw [hwritten.len] at hlen
    exact hwritten.stores.rest n (Or.inr hlen)
  · obtain ⟨head, hhead, -, hlength, -, hsig⟩ := hcoh.exists_head (hwritten.len ▸ Nat.succ_pos _)
    have hnothing := hsigned Hasher.symbolic_ideal Store.memory_neverFails ⟨[1], [2], by decide⟩ hhonest
    have hempty := hnothing head ⟨core, List.mem_cons_of_mem _ (List.mem_singleton_self _), hhead⟩ hsig
    rw [hlength, hwritten.len] at hempty
    cases hempty

end Hypercore
end HypercoreRs
