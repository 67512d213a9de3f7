/-
# Work that was not saved

Blocks go to the store at once, the tree, the presence map and the head only when the log is
persisted. When the process ends after calls that were not persisted, the log is opened as it was
saved, and the blocks it says it has must still be under their numbers.

They are, as long as no call writes or deletes under a number of the saved presence map
(`Spares`). An append after a truncation does, and so do `clear` and `sweep`: then the opened log
has blocks that are gone, or others than its tree was built from.
-/
import HypercoreRs.Hypercore.Batch

namespace HypercoreRs

open Std Merkle Command Storage Relation

/-- The calls that change the log in memory and the blocks in the store, and leave what was
persisted of it. -/
def CoreOp.IsUnsaved {T H Sig SK S : Type} : CoreOp T H Sig SK S → Prop
  | .append _ => True
  | .appendAll _ => True
  | .commit _ => True
  | .truncate _ => True
  | .clear _ _ => True
  | .sweep _ => True
  | _ => False

/-- Such a call may write or delete block `i`. -/
def CoreOp.Reaches {T H Sig SK S : Type} (core : Hypercore H Sig SK S) (i : ℕ) :
    CoreOp T H Sig SK S → Prop
  | .append _ => i = core.len
  | .appendAll values => core.len ≤ i ∧ i < core.len + values.length
  | .commit batch => batch.base = core.len ∧ core.len ≤ i ∧ i < core.len + batch.encoded.length
  | .clear start end_ => i ∈ core.presence ∧ start ≤ i ∧ i < min end_ core.len
  | .sweep keep => i ∈ core.presence ∧ i < core.len ∧ keep i = false
  | _ => False

namespace Hypercore

variable {K H Sig SK S E T : Type}
variable {c : Crypto K H Sig SK} {st : Store S E} {w : Wire H Sig} {codec : Codec T}
variable {log : Log H} {saved core core' core₁ core₂ : Hypercore H Sig SK S}

/-! ### What a call reaches -/

variable (st) in
/-- `core'` holds blocks below the reserved keys only, and its store reads as that of `core`
but for block numbers with `p`. -/
structure Confined (p : ℕ → Prop) (core core' : Hypercore H Sig SK S) : Prop where
  fits : ∀ i ∈ core'.presence, i < KEY_USERDATA
  same : ∀ n, KEY_USERDATA ≤ n ∨ ¬ p n → st.get core'.store n = st.get core.store n

variable (c) in
/-- The tree is that of some blocks, and no block is held under a reserved key. -/
structure Fits (core : Hypercore H Sig SK S) : Prop where
  built : ∃ B, Built c.hasher B core.tree
  fits : ∀ i ∈ core.presence, i < KEY_USERDATA

theorem Written.confined {blocks : List Block} (h : Written c st w core blocks core') (hf : Fits c core) :
    Confined st (fun n => core.len ≤ n ∧ n < core.len + blocks.length) core core' where
  fits i hi := by
    obtain hi | hi := (h.presence i).mp hi
    · exact hf.fits i hi
    · have := h.stores.fits (List.ne_nil_of_length_pos (by omega))
      omega
  same n hn := h.stores.between n (by omega)

variable {s : S}

theorem confined_of_between {hi : ℕ} (h : st.Between core.len hi core.store s) (hf : Fits c core) :
    Confined st (fun n => core.len ≤ n ∧ n < hi) core { core with store := s } where
  fits := hf.fits
  same n hn := h n (by omega)

variable (st) in
/-- `core'` has lost blocks with `p` at most, and nothing else was deleted. -/
structure Drops (p : ℕ → Prop) (core core' : Hypercore H Sig SK S) : Prop where
  presence : ∀ i ∈ core'.presence, i ∈ core.presence
  same : ∀ n, ¬ (n ∈ core.presence ∧ p n) → st.get core'.store n = st.get core.store n

theorem Drops.refl (p : ℕ → Prop) (core : Hypercore H Sig SK S) : Drops st p core core :=
  ⟨fun _ hi => hi, fun _ _ => rfl⟩

variable {p : ℕ → Prop}

theorem Drops.trans (h₁ : Drops st p core core₁) (h₂ : Drops st p core₁ core₂) :
    Drops st p core core₂ where
  presence i hi := h₁.presence i (h₂.presence i hi)
  same n hn := by
    rw [h₂.same n fun h => hn ⟨h₁.presence n h.1, h.2⟩, h₁.same n hn]

theorem Drops.confined (h : Drops st p core core') (hf : Fits c core) :
    Confined st (fun n => n ∈ core.presence ∧ p n) core core' where
  fits i hi := hf.fits i (h.presence i hi)
  same n hn := by
    refine h.same n fun hin => hn.elim (fun hge => ?_) fun hnot => hnot hin
    exact absurd (hf.fits n hin.1) (by omega)

/-- A loop of drops. -/
theorem drops_sumOver {f : ℕ → EStateM (CoreError (LayoutError E)) (Hypercore H Sig SK S) ℕ} :
    ∀ (l : List ℕ) (core : Hypercore H Sig SK S),
    (∀ i ∈ l, ∀ core, Ends (f i) core (fun _ core' => Drops st p core core')
      fun _ core' => Drops st p core core') →
    Ends (sumOver f l) core (fun _ core' => Drops st p core core') fun _ core' => Drops st p core core'
  | [], core, _ => Ends.pure (.refl p core)
  | i :: rest, core, hf => by
    rw [sumOver]
    refine Ends.bind (hf i List.mem_cons_self core) fun _ core₁ h₁ => ?_
    have hrest := drops_sumOver rest core₁ fun j hj => hf j (List.mem_cons_of_mem i hj)
    exact Ends.bind (hrest.mono (fun _ _ h => h₁.trans h) fun _ _ h => h₁.trans h) fun _ _ h => Ends.pure h

variable {i : ℕ}

theorem drops_erase (hin : i ∈ core.presence) (hi : p i) (hs : st.Only i core.store s) :
    Drops st p core { core with store := s } ∧
      Drops st p core { core with store := s, presence := core.presence.erase i } := by
  have hsame : ∀ n, ¬ (n ∈ core.presence ∧ p n) → st.get s n = st.get core.store n := by
    intro n hn
    refine hs n fun heq => hn ?_
    exact heq ▸ ⟨hin, hi⟩
  exact ⟨⟨fun _ h => h, hsame⟩, ⟨fun j hj => (Graph.mem_erase_set.mp hj).2, hsame⟩⟩

theorem drops_clearBlock (hst : st.Lawful) (hi : p i) (core : Hypercore H Sig SK S) :
    Ends (clearBlock st i) core (fun _ core' => Drops st p core core')
      fun _ core' => Drops st p core core' := by
  unfold clearBlock
  apply Ends.get
  split_ifs with hin
  · have hmem : i ∈ core.presence := ExtTreeSet.contains_iff_mem.mp hin
    apply Ends.update
    refine Ends.bind ((ends_discard hst i _).mono (fun _ core' h => ?_) fun _ core' h => ?_)
      fun _ _ h => Ends.pure h
    · obtain ⟨s, rfl, hs, -⟩ := h
      exact (drops_erase hmem hi hs).2
    · obtain ⟨s, rfl, hs⟩ := h
      exact (drops_erase hmem hi hs).2
  · exact Ends.pure (.refl p core)

theorem drops_sweepBlock (hst : st.Lawful) {keep : ℕ → Bool} (hi : keep i = false → p i)
    (core : Hypercore H Sig SK S) :
    Ends (sweepBlock st keep i) core (fun _ core' => Drops st p core core')
      fun _ core' => Drops st p core core' := by
  unfold sweepBlock
  apply Ends.get
  split_ifs with hin
  · rw [Bool.and_eq_true, Bool.not_eq_true'] at hin
    have hmem : i ∈ core.presence := ExtTreeSet.contains_iff_mem.mp hin.1
    refine Ends.bind (Q := fun _ core' => ∃ s, core' = { core with store := s } ∧ st.Only i core.store s)
      ((ends_discard hst i core).mono (fun _ core' h => ?_) fun _ core' h => ?_) fun _ core' h => ?_
    · obtain ⟨s, rfl, hs, -⟩ := h
      exact ⟨s, rfl, hs⟩
    · obtain ⟨s, rfl, hs⟩ := h
      exact (drops_erase hmem (hi hin.2) hs).1
    · obtain ⟨s, rfl, hs⟩ := h
      exact Ends.update (Ends.pure (drops_erase hmem (hi hin.2) hs).2)
  · exact Ends.pure (.refl p core)

theorem drops_truncate (st : Store S E) (n : ℕ) (core : Hypercore H Sig SK S) :
    Ends (truncate c n : EStateM (CoreError (LayoutError E)) _ _) core
      (fun _ core' => Drops st (fun _ => False) core core')
      fun _ core' => Drops st (fun _ => False) core core' := by
  have hcut : Drops st (fun _ => False) core { core with
      tree := (core.tree.truncate n).1, fork := core.fork + 1
      presence := Bitfield.unsetRange core.presence n core.len } :=
    ⟨fun i hi => (Bitfield.mem_unsetRange.mp hi).1, fun _ _ => rfl⟩
  unfold truncate
  apply Ends.get
  split_ifs
  · exact Ends.pure (.refl _ core)
  · exact Ends.pure (.refl _ core)
  · apply Ends.assign
    refine Ends.bind (Q := fun _ core' => Drops st (fun _ => False) core core') ?_ fun _ _ h => Ends.pure h
    unfold resigned
    apply Ends.get
    split
    · rename_i signed hsign
      obtain ⟨root, -, rfl⟩ := Option.map_eq_some_iff.mp hsign
      exact Ends.set ⟨hcut.presence, hcut.same⟩
    · exact Ends.throw hcut

theorem Confined.mono {p q : ℕ → Prop} (h : Confined st p core core') (hpq : ∀ n, p n → q n) :
    Confined st q core core' :=
  ⟨h.fits, fun n hn => h.same n (hn.imp_right fun hq hp => hq (hpq n hp))⟩

variable {op : CoreOp T H Sig SK S}

theorem isHonest_of_isUnsaved (h : op.IsUnsaved) : op.IsHonest := by
  cases op <;> trivial

variable [DecidableEq H]

omit [DecidableEq H] in
variable (codec) in
theorem confined_append (hst : st.Lawful) (hf : Fits c core) (value : T) :
    Ends (append c (backend w st) codec value) core
      (fun _ core' => Confined st (fun n => core.len ≤ n ∧ n < core.len + 1) core core')
      fun _ core' => Confined st (fun n => core.len ≤ n ∧ n < core.len + 1) core core' := by
  refine (ends_append_written codec hst hf.built value).mono (fun _ _ h => h.confined hf) fun _ _ h => ?_
  obtain ⟨-, s, rfl, hbetween⟩ := h
  exact confined_of_between hbetween hf

omit [DecidableEq H] in
theorem confined_commit (hst : st.Lawful) (hf : Fits c core) {batch : Batch} (hbase : batch.base = core.len) :
    Ends (commit c st w batch) core
      (fun _ core' => Confined st (fun n => core.len ≤ n ∧ n < core.len + batch.encoded.length) core core')
      fun _ core' => Confined st (fun n => core.len ≤ n ∧ n < core.len + batch.encoded.length)
        core core' := by
  refine (ends_commit_written hst hf.built hbase).mono (fun _ _ h => h.2.confined hf) fun _ _ h => ?_
  obtain ⟨-, s, rfl, hbetween⟩ := h
  exact confined_of_between hbetween hf

/-- An unsaved call, failed or not, touches the blocks it reaches and no reserved key. -/
theorem confined_op (codec : Codec T) (hst : st.Lawful) (hf : Fits c core) (hop : op.IsUnsaved) :
    Confined st (fun n => op.Reaches core n) core (after (op.run c st w codec) core) := by
  have hdrop : ∀ {α : Type} {x : EStateM (CoreError (LayoutError E)) (Hypercore H Sig SK S) α} {p : ℕ → Prop},
      Ends x core (fun _ core' => Confined st p core core') (fun _ core' => Confined st p core core') →
      (∀ n, p n → op.Reaches core n) →
      Confined st (fun n => op.Reaches core n) core (after (do let _ ← x) core) := by
    intro α x p hx hp
    exact hx.drop.always (fun _ _ h => h.elim fun _ h => h.mono hp) fun _ _ h => h.mono hp
  have hdrops : ∀ {x : EStateM (CoreError (LayoutError E)) (Hypercore H Sig SK S) ℕ} {p : ℕ → Prop},
      Ends x core (fun _ core' => Drops st p core core') (fun _ core' => Drops st p core core') →
      Ends x core (fun _ core' => Confined st (fun n => n ∈ core.presence ∧ p n) core core')
        fun _ core' => Confined st (fun n => n ∈ core.presence ∧ p n) core core' :=
    fun h => h.mono (fun _ _ h => h.confined hf) fun _ _ h => h.confined hf
  cases op with
  | append value =>
    refine hdrop (confined_append codec hst hf value) fun n hn => ?_
    exact (by omega : n = core.len)
  | appendAll values =>
    refine hdrop (p := fun n => core.len ≤ n ∧ n < core.len + values.length) ?_ fun _ hn => hn
    unfold appendAll
    apply Ends.get
    split_ifs
    · exact Ends.pure ⟨hf.fits, fun _ _ => rfl⟩
    · rw [encoded_foldl_stage, batch, List.nil_append]
      have hbase : (⟨core.len, values.map codec.encode⟩ : Batch).base = core.len := rfl
      have hcommit := confined_commit (w := w) hst hf hbase
      rw [List.length_map] at hcommit
      exact Ends.bind hcommit fun _ _ h => Ends.get (Ends.pure h)
  | commit batch =>
    by_cases hbase : batch.base = core.len
    · exact hdrop (confined_commit hst hf hbase) fun _ hn => ⟨hbase, hn⟩
    · refine hdrop (p := fun _ => False) ?_ fun _ hn => hn.elim
      exact Ends.of_ok (commit_stale hbase) ⟨hf.fits, fun _ _ => rfl⟩
  | truncate newLen =>
    refine hdrop (p := fun _ => False) ((drops_truncate st newLen core).mono (fun _ _ h => ?_)
      fun _ _ h => ?_) fun _ hn => hn.elim
    · exact (h.confined hf).mono fun _ hn => hn.2
    · exact (h.confined hf).mono fun _ hn => hn.2
  | clear start end_ =>
    refine hdrop (hdrops ?_) fun _ hn => hn
    unfold clear
    apply Ends.get
    refine drops_sumOver _ core fun i hi core₁ => drops_clearBlock hst ?_ core₁
    rw [List.mem_range'_1] at hi
    omega
  | sweep keep =>
    refine hdrop (hdrops ?_) fun _ hn => hn
    unfold sweep
    apply Ends.get
    refine drops_sumOver _ core fun i hi core₁ => drops_sweepBlock hst (fun hkeep => ?_) core₁
    exact ⟨List.mem_range.mp hi, hkeep⟩
  | _ => exact hop.elim

/-! ### Runs of unsaved calls -/

/-- The call leaves the blocks alone that `saved` says it has. -/
def Spares (saved core : Hypercore H Sig SK S) (op : CoreOp T H Sig SK S) : Prop :=
  ∀ i ∈ saved.presence, ¬ op.Reaches core i

variable (c st w) in
/-- The store opens as a log that reads every block it says it has, as its tree has it. -/
def Recoverable (author : SK) (s : S) : Prop :=
  ∃ core, openFrom w c st author s = .ok core ∧ ∀ i, core.has i = true →
    ∃ data node, core.block (backend w st) i = .ok (some data) ∧
      core.tree.nodes[i * 2]? = some node ∧ node.hash = c.hasher.leafHash data

variable (c st w codec) in
/-- The logs that unsaved calls lead to from `saved`, failed or not, each made where it has `P`. -/
inductive Unsaved (P : Hypercore H Sig SK S → CoreOp T H Sig SK S → Prop) (saved : Hypercore H Sig SK S) :
    Hypercore H Sig SK S → Prop
  | saved : Unsaved P saved saved
  | call {core : Hypercore H Sig SK S} {op : CoreOp T H Sig SK S} : Unsaved P saved core → op.IsUnsaved →
      P core op → Unsaved P saved (after (op.run c st w codec) core)

theorem Fits.call (hst : st.Lawful) (h : Fits c core) (hop : op.IsUnsaved) :
    Fits c (after (op.run c st w codec) core) :=
  ⟨built_of_steps (steps_op hst (isHonest_of_isUnsaved hop) core) h.built,
    (confined_op codec hst h hop).fits⟩

/-- What is persisted of a log is not touched by unsaved calls, and its blocks are not by those
that spare them. -/
theorem Unsaved.same {P : Hypercore H Sig SK S → CoreOp T H Sig SK S → Prop} (hst : st.Lawful)
    (h₀ : Fits c saved) (h : Unsaved c st w codec P saved core) :
    Fits c core ∧ ∀ n, KEY_USERDATA ≤ n ∨ (∀ core op, P core op → ¬ op.Reaches core n) →
      st.get core.store n = st.get saved.store n := by
  induction h with
  | saved => exact ⟨h₀, fun _ _ => rfl⟩
  | @call core op _ hop hP ih =>
    have hconfined := confined_op (w := w) codec hst ih.1 hop
    refine ⟨ih.1.call hst hop, fun n hn => ?_⟩
    rw [hconfined.same n (hn.imp_right fun hspares => hspares core op hP), ih.2 n hn]

/-! ### Opening again -/

/-- A block that is held has a number below the reserved keys. -/
theorem Coherent.fits (h : Coherent c st w log core) : Fits c core := by
  refine ⟨⟨_, h.built⟩, fun i hi => ?_⟩
  obtain ⟨data, hdata⟩ := Option.isSome_iff_exists.mp ((h.present i).mp hi)
  obtain ⟨n, -, hnum, -⟩ := Backend.ofStore_get_eq_some.mp (h.stored i data hdata)
  obtain ⟨rfl, hlt⟩ := StoreKey.number_block hnum
  exact hlt

/-- What was persisted opens as the log it was, over whatever blocks the store has now. -/
theorem Coherent.opens (hst : st.Lawful) (h : Coherent c st w log core)
    (hsave : persist (backend w st) core = .ok () saved)
    (hs : ∀ n, KEY_USERDATA ≤ n → st.get s n = st.get saved.store n) :
    Hypercore.openFrom w c st core.author s = .ok { core with store := s } := by
  obtain ⟨s₀, rfl, -, hpersisted⟩ := (ends_persist hst core).ok hsave
  have hfits : core.tree.rootHash64 c.hasher = core.tree.rootHash c.hasher := by
    obtain ⟨bytes, hbytes⟩ := tree_written hsave
    exact MerkleTree.rootHash64_of_write hbytes
  have habove : st.Above 0 s₀ s := fun n hn => hs n (by omega)
  have hhead : ({ core with store := s } : Hypercore H Sig SK S).checkHead c = some true := h.checkHead hfits
  rw [(hpersisted.above habove).openFrom]
  unfold checked
  rw [hhead]

/-- A saved log can be recovered if each of its blocks is still one with the hash of its leaf. -/
theorem Coherent.recoverable_iff (hst : st.Lawful) (h : Coherent c st w log core)
    (hsave : persist (backend w st) core = .ok () saved)
    (hs : ∀ n, KEY_USERDATA ≤ n → st.get s n = st.get saved.store n) :
    Recoverable c st w core.author s ↔ ∀ i data, log.read i = some data →
      ∃ data', (backend w st).getBlock s i = .ok (some data') ∧
        c.hasher.leafHash data' = c.hasher.leafHash data := by
  have hopen := h.opens hst hsave hs
  have hhas : ∀ i, core.has i = true ↔ ∃ data, log.read i = some data := by
    intro i
    simp only [has, Bool.and_eq_true, decide_eq_true_eq, ExtTreeSet.contains_iff_mem, h.present,
      Option.isSome_iff_exists, h.len_eq]
    refine ⟨fun hi => hi.2, fun hi => ⟨?_, hi⟩⟩
    obtain ⟨data, hi⟩ := hi
    exact Log.read_lt hi
  have hleaf : ∀ i data, log.read i = some data →
      core.tree.nodes[i * 2]? = some (leafNode c.hasher i data) := by
    intro i data hi
    have hbyte := Log.getElem?_bytes hi
    have hnode := h.built.nodes 0 i
    have hlt := (List.getElem?_eq_some_iff.mp hbyte).1
    rwa [if_pos (by omega), nodeAt, List.getD_eq_getElem?_getD, hbyte, Option.getD_some,
      Flat.index_zero] at hnode
  constructor
  · rintro ⟨core', hopen', hreads⟩ i data hi
    rw [hopen] at hopen'
    obtain rfl := Except.ok.inj hopen'
    obtain ⟨data', node, hblock, hnode, hhash⟩ := hreads i ((hhas i).mpr ⟨data, hi⟩)
    refine ⟨data', (block_eq_some.mp hblock).2, ?_⟩
    obtain rfl := Option.some.inj ((hleaf i data hi).symm.trans hnode)
    exact hhash.symm
  · intro hblocks
    refine ⟨_, hopen, fun i hi => ?_⟩
    obtain ⟨data, hdata⟩ := (hhas i).mp hi
    obtain ⟨data', hblock, hhash⟩ := hblocks i data hdata
    exact ⟨data', _, block_eq_some.mpr ⟨hi, hblock⟩, hleaf i data hdata, hhash.symm⟩

/-- Work that spares the saved blocks and is lost leaves a log that opens and reads them. -/
theorem unsaved_recoverable (hst : st.Lawful) (author : SK) (store : S) (prologue : Option (Prologue H))
    (before : List (CoreOp T H Sig SK S))
    (hrun : CoreOp.runAll c st w codec before { new author store with prologue } = .ok () core)
    (hsave : persist (backend w st) core = .ok () saved)
    (h : Unsaved c st w codec (Spares saved) saved core') :
    Recoverable c st w core.author core'.store := by
  have hcoh := Coherent.runAll hst before (coherent_new author store prologue) hrun
  obtain ⟨s, rfl, htouch, -⟩ := (ends_persist hst core).ok hsave
  have hfits : Fits c { core with store := s } := ⟨hcoh.fits.built, hcoh.fits.fits⟩
  obtain ⟨-, hsame⟩ := h.same hst hfits
  refine (hcoh.recoverable_iff hst hsave fun n hn => hsame n (Or.inl hn)).mpr fun i data hi => ?_
  refine ⟨data, ?_, rfl⟩
  have hmem : i ∈ core.presence := (hcoh.present i).mpr (Option.isSome_of_eq_some hi)
  rw [getBlock_congr fun _ => hsame i (Or.inr fun _ _ hspares => hspares i hmem), htouch.getBlock]
  exact hcoh.stored i data hi

/-- The store under number 0 after unsaved calls on a log of one saved block. -/
def zeroAfter (ops : List MemoryOp) : Option (Option (List UInt8)) :=
  match (do persistedOne; CoreOp.runAll Crypto.sums Store.memory Wire.bits Codec.plain ops) memoryLog with
  | .ok _ core => some core.store[0]?
  | .error _ _ => none

theorem zeroAfter_replaced : zeroAfter [.truncate 0, .append [2]] = some (some [2]) := by decide +kernel

theorem zeroAfter_dropped : zeroAfter [.clear 0 1] = some none := by decide +kernel

/-- A run of unsaved calls. -/
theorem Unsaved.runAll : ∀ {ops : List (CoreOp T H Sig SK S)} {core core' : Hypercore H Sig SK S},
    Unsaved c st w codec (fun _ _ => True) saved core → (∀ op ∈ ops, op.IsUnsaved) →
    CoreOp.runAll c st w codec ops core = .ok () core' →
    Unsaved c st w codec (fun _ _ => True) saved core'
  | [], core, core', h, _, hrun => by
    cases hrun
    exact h
  | op :: rest, core, core', h, hops, hrun => by
    obtain ⟨_, core₁, hop, hrest⟩ := bind_eq_ok.mp hrun
    have hcall := h.call (hops op List.mem_cons_self) trivial
    rw [after, hop] at hcall
    exact hcall.runAll (fun op' hop' => hops op' (List.mem_cons_of_mem op hop')) hrest

/-- Number 0 must hold bytes with the hash of the saved block. -/
theorem recoverable_zeroAfter {ops : List MemoryOp} {bytes : Option (List UInt8)}
    {saved : Hypercore (BitVec 256) (BitVec 512) Unit (ExtTreeMap ℕ (List UInt8))}
    (hsaved : persistedOne memoryLog = .ok () saved) (hops : ∀ op ∈ ops, op.IsUnsaved)
    (hzero : zeroAfter ops = some bytes) :
    ∃ core, CoreOp.runAll Crypto.sums Store.memory Wire.bits Codec.plain ops saved = .ok () core ∧
      (Recoverable Crypto.sums Store.memory Wire.bits () core.store →
        ∃ data, bytes = some data ∧ Crypto.sums.hasher.leafHash data = Crypto.sums.hasher.leafHash [1]) := by
  unfold zeroAfter at hzero
  split at hzero
  · rename_i core hrun
    obtain ⟨_, saved', hsaved', hcalls⟩ := bind_eq_ok.mp hrun
    rw [hsaved] at hsaved'
    obtain ⟨-, rfl⟩ := EStateM.Result.ok.inj hsaved'
    refine ⟨core, hcalls, fun hrec => ?_⟩
    obtain ⟨_, first, hfirst, hsave⟩ := bind_eq_ok.mp hsaved
    have hcoh := (coherent_new () ∅ none).runAll (w := Wire.bits) Store.memory_lawful _ hfirst
    obtain ⟨s, rfl, -⟩ := (ends_persist Store.memory_lawful first).ok hsave
    have hfits : Fits Crypto.sums { first with store := s } := ⟨hcoh.fits.built, hcoh.fits.fits⟩
    obtain ⟨-, hsame⟩ := (Unsaved.saved.runAll hops hcalls).same Store.memory_lawful hfits
    obtain ⟨data, hblock, hhash⟩ := (hcoh.recoverable_iff Store.memory_lawful hsave
      fun n hn => hsame n (Or.inl hn)).mp hrec 0 [1] rfl
    refine ⟨data, ?_, hhash⟩
    obtain ⟨n, stored, hnum, hget, hread⟩ := Backend.ofStore_get_eq_some.mp hblock
    obtain ⟨rfl, -⟩ := StoreKey.number_block hnum
    obtain rfl : stored = data := Option.some.inj hread
    rw [← Option.some.inj hzero]
    exact Except.ok.inj hget
  · cases hzero

/-- A saved block is cut off and another one written in its place, or it is dropped: the log that
opens has a block with another hash than its leaf, or one that is gone. -/
theorem unsaved_work_corrupts : ∃ saved, persistedOne memoryLog = .ok () saved ∧
    (∃ core, CoreOp.runAll Crypto.sums Store.memory Wire.bits Codec.plain
        ([.truncate 0, .append [2]] : List MemoryOp) saved = .ok () core ∧
      ¬ Recoverable Crypto.sums Store.memory Wire.bits () core.store) ∧
    ∃ core, CoreOp.runAll Crypto.sums Store.memory Wire.bits Codec.plain
        ([.clear 0 1] : List MemoryOp) saved = .ok () core ∧
      ¬ Recoverable Crypto.sums Store.memory Wire.bits () core.store := by
  have hreturned : returned (persistedOne memoryLog) = true := by decide +kernel
  obtain ⟨_, saved, hsaved⟩ := exists_of_returned hreturned
  obtain ⟨replaced, hreplaced, hhash⟩ := recoverable_zeroAfter hsaved
    (fun op hop => by fin_cases hop <;> trivial) zeroAfter_replaced
  obtain ⟨dropped, hdropped, hgone⟩ := recoverable_zeroAfter hsaved
    (fun op hop => by fin_cases hop; trivial) zeroAfter_dropped
  refine ⟨saved, hsaved, ⟨replaced, hreplaced, fun hrec => ?_⟩, dropped, hdropped, fun hrec => ?_⟩
  · obtain ⟨data, hdata, hsame⟩ := hhash hrec
    rw [← Option.some.inj hdata] at hsame
    exact absurd hsame (by decide)
  · obtain ⟨data, hdata, -⟩ := hgone hrec
    cases hdata

/-- A block written after the saved one, and both cut off again. -/
theorem unsaved_recoverable_cut : ∃ saved core, persistedOne memoryLog = .ok () saved ∧
    CoreOp.runAll Crypto.sums Store.memory Wire.bits Codec.plain
      ([.append [2], .truncate 0] : List MemoryOp) saved = .ok () core ∧
    Recoverable Crypto.sums Store.memory Wire.bits () core.store := by
  have hends : returnedIn (fun core => !core.presence.contains core.len) (persistedOne memoryLog) = true := by
    decide +kernel
  have hreturned : returned ((do
      persistedOne
      CoreOp.runAll Crypto.sums Store.memory Wire.bits Codec.plain
        ([.append [2], .truncate 0] : List MemoryOp)) memoryLog) = true := by decide +kernel
  obtain ⟨_, core, hrun⟩ := exists_of_returned hreturned
  obtain ⟨_, saved, hsaved, hcalls⟩ := bind_eq_ok.mp hrun
  obtain ⟨_, first, hfirst, hsave⟩ := bind_eq_ok.mp hsaved
  obtain ⟨_, core₁, happend, hrest⟩ := bind_eq_ok.mp hcalls
  obtain ⟨_, core₂, htruncate, hdone⟩ := bind_eq_ok.mp hrest
  cases hdone
  rw [hsaved, returnedIn, Bool.not_eq_true'] at hends
  have hspares : Spares saved saved (.append [2] : MemoryOp) := by
    rintro i hi rfl
    rw [ExtTreeSet.contains_iff_mem.mpr hi] at hends
    cases hends
  have hstart : Unsaved Crypto.sums Store.memory Wire.bits Codec.plain (Spares saved) saved saved := .saved
  have h₁ := hstart.call (show (.append [2] : MemoryOp).IsUnsaved from trivial) hspares
  rw [after, happend] at h₁
  have h₂ := h₁.call (show (.truncate 0 : MemoryOp).IsUnsaved from trivial) fun _ _ hnone => hnone
  rw [after, htruncate] at h₂
  exact ⟨saved, core, hsaved, hcalls,
    unsaved_recoverable Store.memory_lawful () ∅ none [.append [1]] hfirst hsave h₂⟩

end Hypercore
end HypercoreRs
