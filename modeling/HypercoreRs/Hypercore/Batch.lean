/-
# Batches and failed writes

A batch is written block by block, folded into the tree and signed once; single appends write,
fold and sign one block after another. Either way the log ends as `Written` says, and that
determines the tree, the head, the presence map and the whole store, whatever the store held
under the numbers before.

A write of several blocks that fails leaves the log in memory as it was, and the numbers below
its length: the log reads as before.

Both are about every log that calls can lead to, failed calls included (`Reached`). What such a
log keeps is that its tree is that of some blocks, so that signing it cannot panic.
-/
import HypercoreRs.Hypercore.Blame
import HypercoreRs.Hypercore.Reopen

namespace HypercoreRs

open Std Merkle Command Storage Relation

namespace Hypercore

variable {K H Sig SK S E T : Type}
variable {c : Crypto K H Sig SK} {st : Store S E} {w : Wire H Sig} {codec : Codec T}
variable {core core' core₁ core₂ : Hypercore H Sig SK S}

/-! ### The tree of a log -/

/-- A step keeps the tree one of blocks. -/
theorem Step.built (h : Step c core core') (hb : ∃ B, Built c.hasher B core.tree) :
    ∃ B, Built c.hasher B core'.tree := by
  obtain ⟨B, hb⟩ := hb
  cases h with
  | keep htree _ _ => exact ⟨B, htree ▸ hb⟩
  | grow data htree _ _ => exact ⟨B ++ [data], htree ▸ hb.append data⟩
  | cut n hn htree _ _ => exact ⟨B.take n, htree ▸ (hb.truncate (hb.length_eq ▸ hn)).2⟩
  | sign hsign =>
    obtain ⟨root, -, rfl⟩ := Option.map_eq_some_iff.mp hsign
    exact ⟨B, hb⟩

theorem built_of_steps (h : ReflTransGen (Step c) core core') (hb : ∃ B, Built c.hasher B core.tree) :
    ∃ B, Built c.hasher B core'.tree := by
  induction h with
  | refl => exact hb
  | tail _ hstep ih => exact hstep.built ih

/-! ### What a row of blocks makes of a log -/

variable (c) in
/-- The head a log signs. -/
def signedHead (core : Hypercore H Sig SK S) : Option (SignedHead H Sig) :=
  (core.tree.rootHash c.hasher).map fun root =>
    ⟨core.fork, core.len, root, c.sign core.author ⟨core.fork, core.len, root⟩⟩

theorem signedHead_congr (htree : core'.tree = core.tree) (hfork : core'.fork = core.fork)
    (hauthor : core'.author = core.author) : core'.signedHead c = core.signedHead c := by
  simp only [signedHead, len, htree, hfork, hauthor]

theorem head_of_resign (h : resign c core = some core') : core'.head = core'.signedHead c := by
  obtain ⟨root, hroot, rfl⟩ := Option.map_eq_some_iff.mp h
  simp only [signedHead, len, hroot, Option.map_some]

variable (c st w) in
/-- `core'` is `core` with `blocks` at its end, under one head. -/
structure Written (core : Hypercore H Sig SK S) (blocks : List Block) (core' : Hypercore H Sig SK S) :
    Prop where
  tree : core'.tree = blocks.foldl (fun T data => (T.append c.hasher data).1) core.tree
  presence : ∀ i, i ∈ core'.presence ↔ i ∈ core.presence ∨ core.len ≤ i ∧ i < core.len + blocks.length
  fork : core'.fork = core.fork
  author : core'.author = core.author
  head : core'.head = if blocks = [] then core.head else core'.signedHead c
  stores : Stores st w core.len blocks core.store core'.store

theorem length_foldl_append (blocks : List Block) (T : MerkleTree H) :
    (blocks.foldl (fun T data => (T.append c.hasher data).1) T).length = T.length + blocks.length := by
  induction blocks generalizing T with
  | nil => rfl
  | cons data rest ih =>
    rw [List.foldl_cons, ih, List.length_cons]
    simp only [MerkleTree.append]
    omega

variable {blocks : List Block}

theorem Written.len (h : Written c st w core blocks core') :
    core'.len = core.len + blocks.length := by
  rw [Hypercore.len, h.tree, length_foldl_append, Hypercore.len]

theorem Written.refl (core : Hypercore H Sig SK S) : Written c st w core [] core where
  tree := rfl
  presence i := by simp
  fork := rfl
  author := rfl
  head := (if_pos rfl).symm
  stores := .nil _ _

theorem Written.trans {l l' : List Block} (h : Written c st w core l core₁)
    (h' : Written c st w core₁ l' core₂) : Written c st w core (l ++ l') core₂ where
  tree := by rw [h'.tree, h.tree, List.foldl_append]
  presence i := by
    rw [h'.presence, h.presence, h.len, List.length_append, or_assoc]
    refine or_congr_right ?_
    omega
  fork := h'.fork.trans h.fork
  author := h'.author.trans h.author
  head := by
    rw [h'.head, h.head]
    rcases eq_or_ne l' [] with rfl | hl'
    · -- nothing was signed after the first row
      have htree : core₂.tree = core₁.tree := h'.tree
      rw [if_pos rfl, List.append_nil, signedHead_congr htree h'.fork h'.author]
    · rw [if_neg hl', if_neg fun hnil => hl' (List.append_eq_nil_iff.mp hnil).2]
  stores := h.stores.append (h.len ▸ h'.stores)

variable {l : List Block}

/-- What is written determines the log, whatever was stored before. -/
theorem Written.unique (h₁ : Written c st w core l core₁) (h₂ : Written c st w core l core₂) :
    core₁.tree = core₂.tree ∧ core₁.head = core₂.head ∧ core₁.fork = core₂.fork ∧
      core₁.presence = core₂.presence ∧ ∀ n, st.get core₁.store n = st.get core₂.store n := by
  have htree : core₁.tree = core₂.tree := h₁.tree.trans h₂.tree.symm
  have hfork : core₁.fork = core₂.fork := h₁.fork.trans h₂.fork.symm
  refine ⟨htree, ?_, hfork, ExtTreeSet.ext_mem fun i => ?_, fun n => ?_⟩
  · rw [h₁.head, h₂.head, signedHead_congr htree hfork (h₁.author.trans h₂.author.symm)]
  · rw [h₁.presence, h₂.presence]
  · by_cases hn : core.len ≤ n ∧ n < core.len + l.length
    · have hsome := List.getElem?_eq_getElem (l := l) (i := n - core.len) (by omega)
      have hget : ∀ {s : S}, Stores st w core.len l core.store s →
          st.get s n = .ok (some l[n - core.len]) := by
        intro s hs
        obtain ⟨m, bytes, hm, hget, hread⟩ := Backend.ofStore_get_eq_some.mp (hs.stored _ _ hsome)
        obtain ⟨rfl, -⟩ := StoreKey.number_block hm
        obtain rfl : bytes = _ := Option.some.inj hread
        rwa [show core.len + (n - core.len) = n by omega] at hget
      rw [hget h₁.stores, hget h₂.stores]
    · rw [h₁.stores.rest n (by omega), h₂.stores.rest n (by omega)]

variable {i : ℕ}

/-- The blocks before are read as before. -/
theorem Written.block_lt (h : Written c st w core blocks core') (hi : i < core.len) :
    core'.block (backend w st) i = core.block (backend w st) i := by
  have hhas : core'.has i = core.has i := by
    rw [Bool.eq_iff_iff]
    simp only [has, Bool.and_eq_true, decide_eq_true_eq, ExtTreeSet.contains_iff_mem, h.presence, h.len]
    constructor
    · rintro ⟨-, hmem | hge⟩
      · exact ⟨hi, hmem⟩
      · omega
    · rintro ⟨-, hmem⟩
      exact ⟨by omega, Or.inl hmem⟩
  rw [block, block, hhas, above_getBlock h.stores.above hi]

/-- The blocks written are read as they were given. -/
theorem Written.block_new (h : Written c st w core blocks core') {j : ℕ} {data : Block}
    (hj : blocks[j]? = some data) :
    core'.block (backend w st) (core.len + j) = .ok (some data) := by
  have hlt := (List.getElem?_eq_some_iff.mp hj).1
  refine block_eq_some.mpr ⟨?_, h.stores.stored j data hj⟩
  simp only [has, Bool.and_eq_true, decide_eq_true_eq, ExtTreeSet.contains_iff_mem, h.presence, h.len]
  exact ⟨by omega, Or.inr ⟨by omega, by omega⟩⟩

variable {b : Backend S E H Sig}

theorem get_congr (h : core'.block b i = core.block b i) :
    core'.get b codec i = core.get b codec i := by
  rw [Hypercore.get, Hypercore.get, h]

variable {batch : Batch}

/-- A batch is read as the log is once it is committed. -/
theorem Written.batchGet (hbase : batch.base = core.len) (h : Written c st w core batch.encoded core')
    (hi : i < core.len + batch.encoded.length) :
    core.batchGet st w codec batch i = core'.get (backend w st) codec i := by
  rw [Hypercore.batchGet, hbase]
  split_ifs with hlt
  · exact (get_congr (h.block_lt hlt)).symm
  · have hsome := List.getElem?_eq_getElem (l := batch.encoded) (i := i - core.len) (by omega)
    have hblock := h.block_new hsome
    rw [show core.len + (i - core.len) = i by omega] at hblock
    cases hd : codec.decode batch.encoded[i - core.len] <;> simp only [hsome, Hypercore.get, hblock, hd]

theorem exists_resign (hb : ∃ B, Built c.hasher B core.tree) : ∃ core', resign c core = some core' := by
  obtain ⟨B, hb⟩ := hb
  rw [resign, hb.rootHash]
  exact ⟨_, rfl⟩

theorem foldl_grow : ∀ (l : List Block) (core : Hypercore H Sig SK S),
    (l.foldl (grow c) core).tree = l.foldl (fun T data => (T.append c.hasher data).1) core.tree ∧
      (∀ i, i ∈ (l.foldl (grow c) core).presence ↔
        i ∈ core.presence ∨ core.len ≤ i ∧ i < core.len + l.length) ∧
      (l.foldl (grow c) core).fork = core.fork
  | [], core => ⟨rfl, fun i => by simp, rfl⟩
  | data :: rest, core => by
    obtain ⟨htree, hpresence, hfork⟩ := foldl_grow rest (grow c core data)
    refine ⟨htree, fun i => ?_, hfork⟩
    have hlen : (grow c core data).len = core.len + 1 := rfl
    have hinsert : i ∈ (grow c core data).presence ↔ i = core.len ∨ i ∈ core.presence := Graph.mem_insert_set
    rw [List.foldl_cons, hpresence, hlen, List.length_cons, hinsert, or_comm (a := i = core.len), or_assoc]
    refine or_congr_right ?_
    omega

/-- Blocks that are stored, taken in and signed are written. -/
theorem written_of_resign {s : S} (hs : Stores st w core.len l core.store s) (hl : l ≠ [])
    (h : resign c (l.foldl (grow c) { core with store := s }) = some core') :
    Written c st w core l core' := by
  have hhead := head_of_resign h
  obtain ⟨root, -, rfl⟩ := Option.map_eq_some_iff.mp h
  obtain ⟨htree, hpresence, hfork⟩ := foldl_grow (c := c) l { core with store := s }
  obtain ⟨hstore, hauthor⟩ := foldl_grow_store (c := c) l { core with store := s }
  refine ⟨htree, hpresence, hfork, hauthor, ?_, ?_⟩
  · rw [if_neg hl]
    exact hhead
  · dsimp only
    rw [hstore]
    exact hs

/-- A batch opened at another length is refused. -/
theorem commit_stale (h : batch.base ≠ core.len) : commit c st w batch core = .ok none core := by
  have hends : Ends (commit c st w batch) core (fun r core' => r = none ∧ core' = core) fun _ _ => False := by
    unfold commit
    apply Ends.get
    rw [if_pos h]
    exact Ends.pure ⟨rfl, rfl⟩
  obtain ⟨_, _, hok, rfl, rfl⟩ := hends.exists_ok
  exact hok

variable [DecidableEq H]

/-! ### The logs that calls lead to -/

variable (c st w codec) in
/-- The logs that calls lead to, failed or not. -/
inductive Reached : Hypercore H Sig SK S → Prop
  | fresh (author : SK) (store : S) (prologue : Option (Prologue H)) :
      Reached { new author store with prologue }
  | call {core : Hypercore H Sig SK S} (op : CoreOp T H Sig SK S) :
      Reached core → Reached (after (op.run c st w codec) core)

theorem Reached.built (hst : st.Lawful) (h : Reached c st w codec core) :
    ∃ B, Built c.hasher B core.tree := by
  induction h with
  | fresh author store prologue => exact ⟨[], built_new⟩
  | @call core op _ ih =>
    by_cases hop : op.IsHonest
    · exact built_of_steps (steps_op hst hop core) ih
    · cases op with
      | recoverSignedSuffix head suffix =>
        refine Ends.always (P := fun core' => ∃ B, Built c.hasher B core'.tree)
          (tree_recoverSignedSuffix (b := backend w st) c head suffix)
          (fun _ core' h' => ?_) fun _ core' h' => ?_
        · obtain ⟨blocks, -, -, htree⟩ := h'.feed
          exact ⟨blocks, htree ▸ built_ofBlocks c.hasher blocks⟩
        · exact h'.tree ▸ ih
      | purge =>
        refine Ends.always (P := fun core' => ∃ B, Built c.hasher B core'.tree)
          (ends_purge (c := c) (w := w) hst core) (fun _ core' h' => ?_) fun _ core' h' => ?_
        · exact ⟨_, h'.1.built⟩
        · obtain ⟨s, rfl⟩ := h'
          exact ih
      | _ => exact absurd trivial hop

/-- A run leads from one reached log to another. -/
theorem Reached.runAll : ∀ {ops : List (CoreOp T H Sig SK S)} {core core' : Hypercore H Sig SK S},
    Reached c st w codec core → CoreOp.runAll c st w codec ops core = .ok () core' →
    Reached c st w codec core'
  | [], core, core', h, hrun => by
    cases hrun
    exact h
  | op :: rest, core, core', h, hrun => by
    obtain ⟨_, core₁, hop, hrest⟩ := bind_eq_ok.mp hrun
    have hcall := h.call op
    rw [after, hop] at hcall
    exact hcall.runAll hrest

/-! ### The two ways to write -/

variable (c st w codec) in
/-- The values appended one after another. -/
def appendEach : List T → EStateM (CoreError (LayoutError E)) (Hypercore H Sig SK S) Unit
  | [] => pure ()
  | value :: rest => do
    let _ ← append c (backend w st) codec value
    appendEach rest

omit [DecidableEq H] in
/-- One block written to the store of a log. -/
theorem ends_write_block (hst : st.Lawful) (i : ℕ) (data : Block) (core : Hypercore H Sig SK S) :
    Ends (write (backend w st) [⟨.block i, data⟩]) core
      (fun _ core' => ∃ s, core' = { core with store := s } ∧ Stores st w i [data] core.store s)
      fun _ core' => (st.NeverFails → KEY_USERDATA ≤ i) ∧
        ∃ s, core' = { core with store := s } ∧ st.Between i (i + 1) core.store s := by
  refine Ends.zoom (Ends.bind (ends_put_block hst i data core.store) fun _ s hs => Ends.pure hs)
    (fun _ s hs => ⟨s, rfl, hs⟩) fun _ s hs => ⟨fun hnever => (hs.1 hnever).2, s, rfl, hs.2⟩

omit [DecidableEq H] in
variable (codec) in
/-- An append writes its block, or leaves the log as it was. -/
theorem ends_append_written (hst : st.Lawful) (hb : ∃ B, Built c.hasher B core.tree) (value : T) :
    Ends (append c (backend w st) codec value) core
      (fun _ core' => Written c st w core [codec.encode value] core')
      fun _ core' => (st.NeverFails → KEY_USERDATA ≤ core.len) ∧
        ∃ s, core' = { core with store := s } ∧ st.Between core.len (core.len + 1) core.store s := by
  unfold append
  apply Ends.get
  refine Ends.bind (ends_write_block hst core.len (codec.encode value) core) fun _ core₁ h₁ => ?_
  obtain ⟨s, rfl, hs⟩ := h₁
  apply Ends.get
  obtain ⟨B, hB⟩ := hb
  have hgrown : ∃ B, Built c.hasher B (grow c { core with store := s } (codec.encode value)).tree :=
    ⟨_, hB.append _⟩
  obtain ⟨core', hsign⟩ := exists_resign hgrown
  have hsign' : resign c { core with
      store := s, tree := (core.tree.append c.hasher (codec.encode value)).1
      presence := core.presence.insert core.len } = some core' := hsign
  dsimp only
  rw [hsign']
  exact Ends.assign (Ends.pure (written_of_resign hs (List.cons_ne_nil _ _) hsign))

variable (codec) in
omit [DecidableEq H] in
/-- Values appended one after another. -/
theorem ends_appendEach (hst : st.Lawful) : ∀ (values : List T) {core : Hypercore H Sig SK S},
    (∃ B, Built c.hasher B core.tree) →
    Ends (appendEach c st w codec values) core
      (fun _ core' => Written c st w core (values.map codec.encode) core')
      fun _ _ => st.NeverFails → KEY_USERDATA < core.len + values.length
  | [], core, _ => Ends.pure (.refl core)
  | value :: rest, core, hb => by
    rw [appendEach]
    refine Ends.andThen (ends_append_written codec hst hb value) (fun _ _ h hnever => ?_) fun _ core₁ h₁ => ?_
    · have := h.1 hnever
      rw [List.length_cons]
      omega
    · have hb₁ : ∃ B, Built c.hasher B core₁.tree := by
        obtain ⟨B, hB⟩ := hb
        exact ⟨_, h₁.tree ▸ hB.appends _⟩
      refine (ends_appendEach hst rest hb₁).mono (fun _ core₂ h₂ => h₁.trans h₂) fun _ _ h hnever => ?_
      have := h hnever
      rw [h₁.len] at this
      rw [List.length_cons]
      rw [List.length_singleton] at this
      omega

omit [DecidableEq H] in
/-- A batch opened at the length of the log is written, or leaves the log as it was. -/
theorem ends_commit_written (hst : st.Lawful) (hb : ∃ B, Built c.hasher B core.tree)
    (hbase : batch.base = core.len) :
    Ends (commit c st w batch) core
      (fun r core' => r = some core'.len ∧ Written c st w core batch.encoded core')
      fun _ core' => (st.NeverFails → KEY_USERDATA < core.len + batch.encoded.length) ∧
        ∃ s, core' = { core with store := s } ∧
          st.Between core.len (core.len + batch.encoded.length) core.store s := by
  unfold commit
  apply Ends.get
  rw [if_neg (not_not.mpr hbase)]
  split_ifs with hempty
  · rw [List.isEmpty_iff.mp hempty]
    exact Ends.pure ⟨rfl, .refl core⟩
  · have hne : batch.encoded ≠ [] := fun h => hempty (List.isEmpty_iff.mpr h)
    have hput := ends_putStaged (w := w) hst core.len batch.encoded 0 core.store (by omega)
    refine Ends.bind (Ends.zoom hput (fun _ s hs => ?_)
      fun _ s hs => ⟨fun hnever => (hs.1 hnever).2, s, rfl, hs.2⟩)
      (Q := fun _ core' => ∃ s, core' = { core with store := s } ∧
        Stores st w core.len batch.encoded core.store s) fun _ core₁ h₁ => ?_
    · exact ⟨s, rfl, hs⟩
    · obtain ⟨s, rfl, hs⟩ := h₁
      apply Ends.update
      have hb' : ∃ B, Built c.hasher B (batch.encoded.foldl (grow c) { core with store := s }).tree := by
        obtain ⟨B, hB⟩ := hb
        rw [(foldl_grow _ _).1]
        exact ⟨_, hB.appends _⟩
      obtain ⟨core', hsign⟩ := exists_resign hb'
      unfold resigned
      refine Ends.bind (Q := fun _ core₂ => core₂ = core') ?_ fun _ core₂ h₂ => ?_
      · apply Ends.get
        rw [hsign]
        exact Ends.set rfl
      · subst h₂
        apply Ends.get
        exact Ends.pure ⟨rfl, written_of_resign hs hne hsign⟩

/-- Committing the staged values ends as appending them does. -/
theorem commit_eq_appends (hst : st.Lawful) (h : Reached c st w codec core) (values : List T) :
    (∀ r core₁ core₂, commit c st w (values.foldl (stage codec) core.batch) core = .ok r core₁ →
      appendEach c st w codec values core = .ok () core₂ →
      r = some core₂.len ∧ core₁.tree = core₂.tree ∧ core₁.head = core₂.head ∧
        core₁.fork = core₂.fork ∧ core₁.presence = core₂.presence ∧
        ∀ n, st.get core₁.store n = st.get core₂.store n) ∧
    (st.NeverFails → core.len + values.length ≤ KEY_USERDATA →
      (∃ r core₁, commit c st w (values.foldl (stage codec) core.batch) core = .ok r core₁) ∧
      ∃ core₂, appendEach c st w codec values core = .ok () core₂) ∧
    (∀ r core₁, commit c st w (values.foldl (stage codec) core.batch) core = .ok r core₁ →
      ∀ i < core.len + values.length,
        core.batchGet st w codec (values.foldl (stage codec) core.batch) i =
          core₁.get (backend w st) codec i) ∧
    ∀ batch : Batch, batch.base ≠ core.len → commit c st w batch core = .ok none core := by
  have hb := h.built hst
  have hstaged : values.foldl (stage codec) core.batch = ⟨core.len, values.map codec.encode⟩ :=
    encoded_foldl_stage codec values core.batch
  have hbase : (⟨core.len, values.map codec.encode⟩ : Batch).base = core.len := rfl
  have hcommit := ends_commit_written (w := w) hst hb hbase
  have happend := ends_appendEach (w := w) codec hst values hb
  rw [hstaged]
  refine ⟨fun r core₁ core₂ h₁ h₂ => ?_, fun hnever hfits => ⟨?_, ?_⟩, fun r core₁ h₁ i hi => ?_,
    fun batch hbase => commit_stale hbase⟩
  · obtain ⟨hr, hw₁⟩ := hcommit.ok h₁
    have hw₂ := happend.ok h₂
    exact ⟨by rw [hr, hw₁.len, hw₂.len], hw₁.unique hw₂⟩
  · obtain ⟨r, core₁, hok, -⟩ := (hcommit.mono (fun _ _ h => h) fun _ _ hfail => by
      have := hfail.1 hnever
      rw [List.length_map] at this
      omega).exists_ok
    exact ⟨r, core₁, hok⟩
  · obtain ⟨_, core₂, hok, -⟩ := (happend.mono (fun _ _ h => h) fun _ _ hfail => by
      have := hfail hnever
      omega).exists_ok
    exact ⟨core₂, hok⟩
  · exact (hcommit.ok h₁).2.batchGet rfl (by rwa [List.length_map])

/-- A log in memory whose second block was cut off and whose first was dropped: the store still
has the bytes of the second under the number of the next. -/
def cutRun : List MemoryOp := [.append [1], .append [2], .truncate 1, .clear 0 1]

theorem commit_eq_appends_cut : ∃ core, CoreOp.runAll Crypto.sums Store.memory Wire.bits Codec.plain cutRun
      memoryLog = .ok () core ∧
    ∃ r core₁ core₂, commit Crypto.sums Store.memory Wire.bits
        ([[3], [4, 4]].foldl (stage Codec.plain) core.batch) core = .ok r core₁ ∧
      appendEach Crypto.sums Store.memory Wire.bits Codec.plain [[3], [4, 4]] core = .ok () core₂ ∧
      r = some core₂.len ∧ core₁.tree = core₂.tree ∧ core₁.head = core₂.head ∧
      core₁.presence = core₂.presence ∧ core₁.store[1]? = core₂.store[1]? := by
  have hreturned : returned (CoreOp.runAll Crypto.sums Store.memory Wire.bits Codec.plain cutRun
      memoryLog) = true := by decide +kernel
  obtain ⟨_, core, hrun⟩ := exists_of_returned hreturned
  have hreached : Reached Crypto.sums Store.memory Wire.bits Codec.plain core :=
    (Reached.fresh () ∅ none).runAll hrun
  have hlen : core.len = 1 := by
    have h := (coherent_new () ∅ none).runAll Store.memory_lawful cutRun hrun
    exact h.len_eq
  obtain ⟨hsame, hreturn, -⟩ := commit_eq_appends Store.memory_lawful hreached [[3], [4, 4]]
  obtain ⟨⟨r, core₁, h₁⟩, core₂, h₂⟩ := hreturn Store.memory_neverFails (by rw [hlen]; decide)
  obtain ⟨hr, htree, hhead, -, hpresence, hstore⟩ := hsame r core₁ core₂ h₁ h₂
  exact ⟨core, hrun, r, core₁, core₂, h₁, h₂, hr, htree, hhead, hpresence, Except.ok.inj (hstore 1)⟩

/-! ### Failed writes -/

omit [DecidableEq H] in
/-- A log over another store that keeps its blocks reads as before. -/
theorem Rewrites.reads (h : Rewrites b core core') (i : ℕ) :
    core'.block b i = core.block b i ∧ core'.get b codec i = core.get b codec i := by
  obtain ⟨s, rfl, hkeeps⟩ := h
  have hblock := block_store hkeeps i
  exact ⟨hblock, get_congr hblock⟩

/-- A write of several blocks that fails leaves the log as it was, and a recovered suffix follows
the blocks before it under exactly the given head. -/
theorem failed_write_unchanged (hst : st.Lawful) (h : Reached c st w codec core) :
    (∀ batch e core', commit c st w batch core = .error e core' →
      (∃ s, core' = { core with store := s }) ∧
        ∀ i, core'.block (backend w st) i = core.block (backend w st) i ∧
          core'.get (backend w st) codec i = core.get (backend w st) codec i) ∧
    ∀ head suffix,
      (∀ e core', recoverSignedSuffix c (backend w st) head suffix core = .error e core' →
        (∃ s, core' = { core with store := s }) ∧
          ∀ i, core'.block (backend w st) i = core.block (backend w st) i ∧
            core'.get (backend w st) codec i = core.get (backend w st) codec i) ∧
      ∀ core', recoverSignedSuffix c (backend w st) head suffix core = .ok () core' →
        core'.head = some head ∧ core'.verifyHead c = true ∧
          core'.len = core.len + suffix.length ∧
          ∀ i, core'.block (backend w st) i =
            if i < core.len then core.block (backend w st) i else .ok suffix[i - core.len]? := by
  have hb : (backend w st : Backend S (LayoutError E) H Sig).Lawful := Backend.ofStore_lawful hst
  refine ⟨fun batch e core' hfail => ?_, fun head suffix => ⟨fun e core' hfail => ?_, fun core' hok => ?_⟩⟩
  · have hbase : batch.base = core.len := by
      by_contra hbase
      rw [commit_stale hbase] at hfail
      cases hfail
    obtain ⟨-, s, rfl, hbetween⟩ := (ends_commit_written hst (h.built hst) hbase).error hfail
    have hrewrites : Rewrites (backend w st) core { core with store := s } :=
      ⟨s, rfl, fun i hi => above_getBlock (between_above hbetween) hi⟩
    exact ⟨⟨s, rfl⟩, hrewrites.reads⟩
  · have hrewrites := (ends_recoverSignedSuffix c hb head suffix).error hfail
    exact ⟨hrewrites.imp fun s hs => hs.1, hrewrites.reads⟩
  · obtain ⟨hfork, hadopt⟩ := (ends_recoverSignedSuffix c hb head suffix).ok hok
    have hhead : core'.head = some head := by
      obtain ⟨s, stored, -, -, -, -, rfl⟩ := hadopt
      rfl
    exact ⟨hhead, hadopt.verifyHead c hfork, hadopt.len_eq, hadopt.block⟩

/-- A log over a store that takes two writes. -/
def shortStore : Hypercore (BitVec 256) (BitVec 512) Unit (ExtTreeMap ℕ (List UInt8) × ℕ) :=
  { new () (∅, 2) with prologue := none }

/-- Its first block is written, and of a batch of two the first. -/
theorem failed_write_unchanged_metered : ∃ core core' e,
    CoreOp.runAll Crypto.sums metered Wire.bits Codec.plain [.append [1]] shortStore = .ok () core ∧
    commit Crypto.sums metered Wire.bits ⟨1, [[2], [3]]⟩ core = .error e core' ∧
    core'.len = core.len ∧ core'.head = core.head ∧
    core'.block (backend Wire.bits metered) 0 = core.block (backend Wire.bits metered) 0 := by
  have hfails : returned ((do
      CoreOp.runAll Crypto.sums metered Wire.bits Codec.plain [.append [1]]
      commit Crypto.sums metered Wire.bits ⟨1, [[2], [3]]⟩) shortStore) = false := by decide +kernel
  have hone : returned (CoreOp.runAll Crypto.sums metered Wire.bits Codec.plain [.append [1]]
      shortStore) = true := by decide +kernel
  obtain ⟨_, core, hrun⟩ := exists_of_returned hone
  obtain ⟨e, core', herror⟩ := exists_of_not_returned hfails
  have hcommit : commit Crypto.sums metered Wire.bits ⟨1, [[2], [3]]⟩ core = .error e core' := by
    obtain hfirst | ⟨_, core₁, hfirst, hsecond⟩ := bind_eq_error.mp herror
    · rw [hrun] at hfirst
      cases hfirst
    · rw [hrun] at hfirst
      cases hfirst
      exact hsecond
  have hreached : Reached Crypto.sums metered Wire.bits Codec.plain core :=
    (Reached.fresh () (∅, 2) none).runAll hrun
  obtain ⟨⟨s, hs⟩, hreads⟩ := (failed_write_unchanged metered_lawful hreached).1 _ e core' hcommit
  exact ⟨core, core', e, hrun, hcommit, by rw [hs]; rfl, by rw [hs], (hreads 0).1⟩

end Hypercore
end HypercoreRs
