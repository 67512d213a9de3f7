/-
# Moving a log under another key

A log bound to a prologue is empty until `copy_prologue` has copied the committed blocks from
another log, one after another. A copy that fails after its first block leaves a log with some of
the blocks and no head over them, into which nothing can be copied any more; it leaves the log as
it was exactly if it fails before (`copyPrologue_unharmed_iff`).

Once the prologue is copied every call keeps it. What can break it is a block that is appended
before: a run of calls keeps the log empty or true to its prologue exactly if what is appended to
an empty log begins with the committed blocks itself (`prologue_kept_iff`).
-/
import HypercoreRs.Hypercore.Batch

namespace HypercoreRs

open Std Merkle Command Storage Relation

namespace Hypercore

variable {K H Sig SK S E T : Type} [DecidableEq H]
variable (c : Crypto K H Sig SK) (st : Store S E) (w : Wire H Sig) (codec : Codec T)

/-- The log satisfies its commitment. -/
def verifyPrologue (core : Hypercore H Sig SK S) : Bool :=
  match core.prologue with
  | none => true
  | some pr => core.tree.prefixRootHash c.hasher pr.length == some pr.hash

/-! ### A copy that fails -/

/-- The writes that put `blocks` under the numbers of a list. -/
def blockWrites (l : List ℕ) (blocks : List Block) : List (Σ k : StoreKey, k.Value H Sig) :=
  List.zipWith (fun i enc => ⟨.block i, enc⟩) l blocks

/-- `source` has all the blocks `pr` commits to, and the store takes them. -/
def Completes (source : Hypercore H Sig SK S) (pr : Prologue H) (s : S) : Prop :=
  source.tree.prefixRootHash c.hasher pr.length = some pr.hash ∧
    ∃ blocks, (List.range pr.length).mapM (source.blockOrMismatch st w) = .ok blocks ∧
      ∃ s', (backend w st).putAll (blockWrites (List.range pr.length) blocks) s = .ok () s'

/-- `core'` is what `core` was, and an empty log can still be given its prologue. -/
structure Unharmed (pr : Prologue H) (core core' : Hypercore H Sig SK S) : Prop where
  len : core'.len = core.len
  root : core'.tree.rootHash c.hasher = core.tree.rootHash c.hasher
  head : core'.head = core.head
  presence : core'.presence = core.presence
  retry : core.len = 0 → ∀ source, Completes c st w source pr core'.store →
    returned (copyPrologue c st w source core') = true

/-- `core'` is `core` over another store. -/
def Restored (core core' : Hypercore H Sig SK S) : Prop := ∃ s, core' = { core with store := s }

/-- Block `i` can be read from `source` and is taken by the store. -/
def Copies (source core : Hypercore H Sig SK S) (i : ℕ) : Prop :=
  ∃ enc s, source.blockOrMismatch st w i = .ok enc ∧
    (backend w st).put (.block i) enc core.store = .ok () s

/-- A copy from `source` comes past its first block. -/
def CopiesFirst (pr : Prologue H) (source core : Hypercore H Sig SK S) : Prop :=
  core.len = 0 ∧ source.tree.prefixRootHash c.hasher pr.length = some pr.hash ∧ 0 < pr.length ∧
    Copies st w source core 0

variable {c st w codec} {core core' source : Hypercore H Sig SK S}

section Copy

omit [DecidableEq H]

/-- One block is copied, or the log is as it was. -/
theorem ends_copyBlock (source : Hypercore H Sig SK S) (i : ℕ) (core : Hypercore H Sig SK S) :
    Ends (copyBlock c st w source i) core
      (fun _ core' => core'.len = core.len + 1 ∧ ∃ enc, source.blockOrMismatch st w i = .ok enc ∧
        (backend w st).put (.block i) enc core.store = .ok () core'.store)
      fun _ core' => ¬ Copies st w source core i ∧ Restored core core' := by
  unfold copyBlock
  refine Ends.bind (Q := fun enc core' => core' = core ∧ source.blockOrMismatch st w i = .ok enc)
    (Ends.reads (fun enc henc => ⟨rfl, henc⟩) fun e he => ⟨?_, core.store, rfl⟩) fun enc core₁ h₁ => ?_
  · rintro ⟨enc, s, henc, -⟩
    rw [he] at henc
    cases henc
  · obtain ⟨rfl, henc⟩ := h₁
    have hput : Ends ((backend w st).putAll [⟨.block i, enc⟩]) core₁.store
        (fun _ s => (backend w st).put (.block i) enc core₁.store = .ok () s)
        fun _ _ => ∀ s, (backend w st).put (.block i) enc core₁.store ≠ .ok () s := by
      refine Ends.andThen (Ends.self _ _) (fun e s' herror s hok => ?_)
        fun _ s hs => Ends.pure hs
      rw [herror] at hok
      cases hok
    refine Ends.bind (Q := fun _ core' => (backend w st).put (.block i) enc core₁.store = .ok () core'.store ∧
        core' = { core₁ with store := core'.store })
      (Ends.zoom hput (fun _ s hs => ⟨hs, rfl⟩) fun _ s hs => ⟨?_, s, rfl⟩) fun _ core₂ h₂ => ?_
    · rintro ⟨enc', s', henc', hs'⟩
      rw [henc] at henc'
      obtain rfl := Except.ok.inj henc'
      exact hs s' hs'
    · obtain ⟨hstore, hcore⟩ := h₂
      refine Ends.modify ⟨?_, enc, henc, hstore⟩
      rw [hcore]
      rfl

/-- A log only grows while blocks are copied. -/
theorem ends_copyBlocks_len (source : Hypercore H Sig SK S) : ∀ (l : List ℕ) (core : Hypercore H Sig SK S),
    Ends (copyBlocks c st w source l) core (fun _ core' => core.len ≤ core'.len)
      fun _ core' => core.len ≤ core'.len
  | [], core => Ends.pure le_rfl
  | i :: rest, core => by
    rw [copyBlocks]
    refine Ends.bind ((ends_copyBlock source i core).mono (fun _ _ h => h.1) fun _ _ h => ?_)
      fun _ core₁ h₁ => ?_
    · obtain ⟨-, s, rfl⟩ := h
      exact le_rfl
    · exact (ends_copyBlocks_len source rest core₁).mono (fun _ _ h => by omega) fun _ _ h => by omega

/-- Blocks that can be read and written are copied. -/
theorem copyBlocks_returned (source : Hypercore H Sig SK S) : ∀ {l : List ℕ} {core : Hypercore H Sig SK S}
    {blocks : List Block} {s : S}, l.mapM (source.blockOrMismatch st w) = .ok blocks →
    (backend w st).putAll (blockWrites l blocks) core.store = .ok () s →
    Ends (copyBlocks c st w source l) core (fun _ _ => True) fun _ _ => False
  | [], core, _, _, _, _ => Ends.pure trivial
  | i :: rest, core, blocks, s, hread, hput => by
    obtain ⟨enc, blocks, henc, hrest, rfl⟩ := mapM_cons_ok hread
    obtain ⟨_, s₁, hfirst, hputs⟩ := bind_eq_ok.mp hput
    rw [copyBlocks]
    refine Ends.bind ((ends_copyBlock source i core).mono (fun _ _ h => h.2) fun _ _ h => ?_)
      fun _ core₁ h₁ => ?_
    · exact h.1 ⟨enc, s₁, henc, hfirst⟩
    · obtain ⟨enc', henc', hstore⟩ := h₁
      rw [henc] at henc'
      obtain rfl := Except.ok.inj henc'
      rw [hfirst] at hstore
      obtain ⟨-, rfl⟩ := EStateM.Result.ok.inj hstore
      exact copyBlocks_returned source hrest hputs

/-- Copied blocks leave a tree of blocks. -/
theorem built_copyBlocks {l : List ℕ} (hb : ∃ B, Built c.hasher B core.tree)
    (h : copyBlocks c st w source l core = .ok () core') : ∃ B, Built c.hasher B core'.tree :=
  built_of_steps ((steps_copyBlocks source l core).ok h).1 hb

theorem ends_resigned_built (hb : ∃ B, Built c.hasher B core.tree) :
    Ends (resigned c : EStateM (CoreError (LayoutError E)) _ _) core (fun _ _ => True) fun _ _ => False := by
  obtain ⟨core', hsign⟩ := exists_resign hb
  unfold resigned
  apply Ends.get
  rw [hsign]
  exact Ends.set trivial

end Copy

variable {pr : Prologue H}

/-- A copy from a complete source into an empty log succeeds. -/
theorem copyPrologue_returned (hb : ∃ B, Built c.hasher B core.tree) (hpro : core.prologue = some pr)
    (hempty : core.len = 0) (h : Completes c st w source pr core.store) :
    returned (copyPrologue c st w source core) = true := by
  obtain ⟨hroot, blocks, hread, s, hput⟩ := h
  have hends : Ends (copyPrologue c st w source) core (fun _ _ => True) fun _ _ => False := by
    unfold copyPrologue
    apply Ends.get
    rw [hpro]
    dsimp only
    rw [if_neg (not_not.mpr hempty), if_neg (not_not.mpr hroot)]
    refine Ends.bind ((copyBlocks_returned source hread hput).and_ok (fun _ _ hok => hok))
      fun _ core₁ h₁ => ?_
    refine Ends.bind (ends_resigned_built (built_copyBlocks hb h₁.2)) fun _ _ _ => Ends.pure trivial
  obtain ⟨_, _, hok, -⟩ := hends.exists_ok
  rw [hok]
  rfl

/-- A copy that fails came past its first block, or left the log as it was. -/
theorem ends_copyPrologue_cases (hb : ∃ B, Built c.hasher B core.tree) (hpro : core.prologue = some pr)
    (source : Hypercore H Sig SK S) :
    Ends (copyPrologue c st w source) core (fun _ _ => True) fun _ core' =>
      CopiesFirst c st w pr source core ∧ core.len < core'.len ∨
        ¬ CopiesFirst c st w pr source core ∧ Restored core core' := by
  unfold copyPrologue
  apply Ends.get
  rw [hpro]
  dsimp only
  split_ifs with hempty hroot
  · exact Ends.throw (Or.inr ⟨fun h => hempty h.1, core.store, rfl⟩)
  · exact Ends.throw (Or.inr ⟨fun h => hroot h.2.1, core.store, rfl⟩)
  · have hsign :
      ∀ {core₁ : Hypercore H Sig SK S} {F : CoreError (LayoutError E) → Hypercore H Sig SK S → Prop}
        {n : ℕ}, (∃ B, Built c.hasher B core₁.tree) →
        Ends (do resigned c; return n) core₁ (fun _ _ => True) F := fun hb =>
      Ends.andThen (ends_resigned_built hb) (fun _ _ h => h.elim)
        fun _ _ _ => Ends.pure trivial
    cases hlen : pr.length with
    | zero =>
      rw [List.range_zero]
      exact Ends.bind (Q := fun _ core₁ => core₁ = core) (Ends.pure rfl) fun _ core₁ h₁ => hsign (h₁ ▸ hb)
    | succ n =>
      have hfirst : Copies st w source core 0 → CopiesFirst c st w pr source core := fun h =>
        ⟨not_not.mp hempty, not_not.mp hroot, by omega, h⟩
      refine Ends.bind (Q := fun _ core₁ => ∃ B, Built c.hasher B core₁.tree) ?_ fun _ core₁ h₁ => ?_
      · refine (Ends.and_ok (Q := fun _ _ => True) ?_ fun _ _ hok => built_copyBlocks hb hok).mono
          (fun _ _ h => h.2)
          fun _ _ h => h
        rw [List.range_succ_eq_map, copyBlocks]
        refine Ends.andThen (ends_copyBlock source 0 core) (fun _ core' h => ?_)
          fun _ core₁ h₁ => ?_
        · exact Or.inr ⟨fun hcopies => h.1 hcopies.2.2.2, h.2⟩
        · obtain ⟨hlen₁, enc, henc, hput⟩ := h₁
          refine (ends_copyBlocks_len source _ core₁).mono (fun _ _ _ => trivial)
            fun _ _ h => Or.inl ⟨?_, by omega⟩
          exact hfirst ⟨enc, _, henc, hput⟩
      · exact hsign h₁

/-- A copy that fails leaves the log as it was, and open to another, exactly if it fails before
its first block is stored. -/
theorem copyPrologue_unharmed_iff (hst : st.Lawful) (h : Reached c st w codec core) {pr : Prologue H}
    (hpro : core.prologue = some pr) {source : Hypercore H Sig SK S} {e : CoreError (LayoutError E)}
    (hfail : copyPrologue c st w source core = .error e core') :
    Unharmed c st w pr core core' ↔ ¬ CopiesFirst c st w pr source core := by
  have hb := h.built hst
  obtain ⟨hcopies, hlen⟩ | ⟨hnot, s, rfl⟩ := (ends_copyPrologue_cases hb hpro source).error hfail
  · exact ⟨fun hun => absurd hun.len (by omega), fun hnot => absurd hcopies hnot⟩
  · refine ⟨fun _ => hnot, fun _ => ⟨rfl, rfl, rfl, rfl, fun hempty source' hcomplete => ?_⟩⟩
    exact copyPrologue_returned hb hpro hempty hcomplete

/-- Nothing is copied into a log that is not empty. -/
theorem not_returned_of_len (hpro : core.prologue = some pr) (hlen : core.len ≠ 0)
    (source : Hypercore H Sig SK S) : returned (copyPrologue c st w source core) = false := by
  have hends : Ends (copyPrologue c st w source) core (fun _ _ => False) fun _ _ => True := by
    unfold copyPrologue
    apply Ends.get
    rw [hpro]
    dsimp only
    rw [if_pos hlen]
    exact Ends.throw trivial
  cases hrun : copyPrologue c st w source core with
  | ok n core' => exact (hends.ok hrun).elim
  | error e core' => rfl

/-- The commitment to two blocks. -/
def twoBlocks : Prologue (BitVec 256) :=
  ⟨2, ((MerkleTree.ofBlocks Crypto.sums.hasher [[1], [2]]).rootHash Crypto.sums.hasher).getD 0⟩

/-- A log in memory that is bound to it. -/
abbrev boundLog : Hypercore (BitVec 256) (BitVec 512) Unit (ExtTreeMap ℕ (List UInt8)) :=
  { new () ∅ with prologue := some twoBlocks }

/-- A log of the two blocks, of which block `i` is dropped again. -/
abbrev lacking (i : ℕ) : List MemoryOp := [.append [1], .append [2], .clear i (i + 1)]

/-- A copy from it into a log bound to the two blocks: the error, and the log it leaves. -/
def copyLacking (i : ℕ) : Option (Hypercore (BitVec 256) (BitVec 512) Unit (ExtTreeMap ℕ (List UInt8))) :=
  match CoreOp.runAll Crypto.sums Store.memory Wire.bits Codec.plain (lacking i) memoryLog with
  | .error _ _ => none
  | .ok _ source =>
    match copyPrologue Crypto.sums Store.memory Wire.bits source boundLog with
    | .ok _ _ => none
    | .error _ core => some core

theorem exists_of_copyLacking {i : ℕ} {core : Hypercore _ _ _ _} (h : copyLacking i = some core) :
    ∃ source e, CoreOp.runAll Crypto.sums Store.memory Wire.bits Codec.plain (lacking i) memoryLog =
        .ok () source ∧
      copyPrologue Crypto.sums Store.memory Wire.bits source boundLog = .error e core := by
  unfold copyLacking at h
  split at h
  · cases h
  · rename_i source hrun
    split at h
    · cases h
    · rename_i e core' hcopy
      cases h
      exact ⟨source, e, hrun, hcopy⟩

/-- A source that lacks its second block leaves one block without a head, and nothing can be
copied after it. -/
theorem failed_copy_half_done : ∃ source core e,
    CoreOp.runAll Crypto.sums Store.memory Wire.bits Codec.plain (lacking 1) memoryLog = .ok () source ∧
    copyPrologue Crypto.sums Store.memory Wire.bits source boundLog = .error e core ∧
    boundLog.len = 0 ∧ core.len = 1 ∧ core.head = none ∧
    ∀ other, returned (copyPrologue Crypto.sums Store.memory Wire.bits other core) = false := by
  have hrun : (copyLacking 1).map (fun core => (core.len, core.head.isNone, core.prologue.isSome)) =
      some (1, true, true) := by decide +kernel
  obtain ⟨core, hcore, hend⟩ := Option.map_eq_some_iff.mp hrun
  obtain ⟨hlen, hhead, hpro⟩ : core.len = 1 ∧ core.head.isNone = true ∧ core.prologue.isSome = true := by
    simpa using hend
  obtain ⟨source, e, hsource, hcopy⟩ := exists_of_copyLacking hcore
  obtain ⟨pr, hpr⟩ := Option.isSome_iff_exists.mp hpro
  exact ⟨source, core, e, hsource, hcopy, rfl, hlen, Option.isNone_iff_eq_none.mp hhead,
    not_returned_of_len hpr (by omega)⟩

/-- One that lacks its first block does no harm. -/
theorem copyPrologue_unharmed_iff_first : ∃ source core e,
    CoreOp.runAll Crypto.sums Store.memory Wire.bits Codec.plain (lacking 0) memoryLog = .ok () source ∧
    copyPrologue Crypto.sums Store.memory Wire.bits source boundLog = .error e core ∧
    Unharmed Crypto.sums Store.memory Wire.bits twoBlocks boundLog core := by
  have hrun : (copyLacking 0).map (·.len) = some 0 := by decide +kernel
  obtain ⟨core, hcore, hlen⟩ := Option.map_eq_some_iff.mp hrun
  obtain ⟨source, e, hsource, hcopy⟩ := exists_of_copyLacking hcore
  have hreached : Reached Crypto.sums Store.memory Wire.bits Codec.plain boundLog :=
    .fresh () ∅ (some twoBlocks)
  have hiff := copyPrologue_unharmed_iff Store.memory_lawful hreached rfl hcopy
  refine ⟨source, core, e, hsource, hcopy, hiff.mpr ?_⟩
  obtain ⟨-, hlt⟩ | ⟨hnot, -⟩ := (ends_copyPrologue_cases ⟨[], built_new⟩ rfl source).error hcopy
  · omega
  · exact hnot

/-! ### Keeping the prologue -/

variable (c) in
/-- The log is empty, or satisfies its commitment. -/
def Bound (core : Hypercore H Sig SK S) : Prop := core.len = 0 ∨ core.verifyPrologue c = true

variable (codec) in
/-- The blocks a call appends. -/
def appended (core : Hypercore H Sig SK S) : CoreOp T H Sig SK S → List Block
  | .append value => [codec.encode value]
  | .appendAll values => values.map codec.encode
  | .commit batch => if batch.base = core.len then batch.encoded else []
  | _ => []

variable (c codec) in
/-- What is appended to an empty log begins with the blocks it is bound to. -/
def Guarded (core : Hypercore H Sig SK S) (op : CoreOp T H Sig SK S) : Prop :=
  core.len = 0 → appended codec core op ≠ [] → ∀ pr, core.prologue = some pr →
    (MerkleTree.ofBlocks c.hasher (appended codec core op)).prefixRootHash c.hasher pr.length = some pr.hash

variable (c st w codec) in
/-- A source of a copy is a log that calls led to. -/
def Sourced : CoreOp T H Sig SK S → Prop
  | .copyPrologue source => ∃ author store prologue, ∃ ops : List (CoreOp T H Sig SK S),
      CoreOp.runAll c st w codec ops { new author store with prologue } = .ok () source
  | _ => True

variable (c st w codec) in
/-- The log is empty or true to its prologue before and after each call. -/
def AllBound : List (CoreOp T H Sig SK S) → Hypercore H Sig SK S → Prop
  | [], core => Bound c core
  | op :: rest, core => Bound c core ∧ AllBound rest (after (op.run c st w codec) core)

variable (c st w codec) in
/-- Each call is guarded where it is made. -/
def AllGuarded : List (CoreOp T H Sig SK S) → Hypercore H Sig SK S → Prop
  | [], _ => True
  | op :: rest, core => Guarded c codec core op ∧ AllGuarded rest (after (op.run c st w codec) core)

/-- `B` begins with the blocks `pr` commits to. -/
def Commits (hs : Hasher H) (pr : Prologue H) (B : List Block) : Prop :=
  pr.length ≤ B.length ∧ hs.treeHash (rootsOf hs (B.take pr.length)) = pr.hash

variable {hs : Hasher H} {B : List Block}

omit [DecidableEq H] in
theorem Commits.append (h : Commits hs pr B) (more : List Block) : Commits hs pr (B ++ more) := by
  refine ⟨?_, ?_⟩
  · rw [List.length_append]
    exact h.1.trans (Nat.le_add_right _ _)
  · rw [List.take_append_of_le_length h.1]
    exact h.2

omit [DecidableEq H] in
theorem Commits.take (h : Commits hs pr B) {n : ℕ} (hn : pr.length ≤ n) : Commits hs pr (B.take n) := by
  refine ⟨?_, ?_⟩
  · rw [List.length_take]
    exact le_min hn h.1
  · rw [List.take_take, min_eq_left hn]
    exact h.2

variable (c) in
/-- The same of a log. -/
def BoundLog (log : Log H) : Prop :=
  log.bytes = [] ∨ ∀ pr, log.prologue = some pr → Commits c.hasher pr log.bytes

variable {log : Log H}

theorem Kept.bound_iff (h : Kept c st w log core) : Bound c core ↔ BoundLog c log := by
  refine or_congr ?_ ?_
  · rw [h.len_eq, ← Log.length_bytes, List.length_eq_zero_iff]
  · rw [verifyPrologue, h.prologue_eq]
    cases log.prologue with
    | none => simp
    | some pr =>
      simp only [beq_iff_eq, h.built.prefixRootHash_eq_some, Option.some.injEq, forall_eq']
      rfl

omit [DecidableEq H] in
/-- What a copy takes over is the beginning of its source. -/
theorem Kept.readable_eq {source : Hypercore H Sig SK S} (h : Kept c st w log source) : ∀ {n : ℕ},
    (∀ i < n, ∃ enc, source.blockOrMismatch st w i = .ok enc) →
    readable st w source n = log.bytes.take n
  | 0, _ => rfl
  | n + 1, hall => by
    obtain ⟨enc, henc⟩ := hall n (Nat.lt_succ_self n)
    have hread : log.read n = some enc := by
      have hblock := henc
      rw [blockOrMismatch, h.block] at hblock
      cases hr : log.read n with
      | none =>
        rw [hr] at hblock
        cases hblock
      | some data =>
        rw [hr] at hblock
        exact congrArg some (Except.ok.inj hblock)
    have hrest := h.readable_eq (n := n) fun i hi => hall i (Nat.lt_succ_of_lt hi)
    unfold readable at hrest ⊢
    rw [List.range_succ, List.filterMap_append, hrest, List.filterMap_cons, henc, List.take_add_one,
      Log.getElem?_bytes hread]
    rfl

omit [DecidableEq H] in
/-- Writing keeps a log bound exactly if what comes first begins with the committed blocks. -/
theorem boundLog_write {more : List Block} (h : BoundLog c log) (hmore : more ≠ []) :
    BoundLog c (log.write more) ↔
      (log.bytes = [] → ∀ pr, log.prologue = some pr → Commits c.hasher pr more) := by
  have hpro : (log.write more).prologue = log.prologue := rfl
  have hne : (log.write more).bytes ≠ [] := by
    rw [Log.bytes_write]
    exact List.append_ne_nil_of_right_ne_nil _ hmore
  rw [BoundLog, or_iff_right hne, hpro, Log.bytes_write]
  constructor
  · intro hafter hempty pr hpr
    have := hafter pr hpr
    rwa [hempty, List.nil_append] at this
  · intro hfirst pr hpr
    by_cases hempty : log.bytes = []
    · rw [hempty, List.nil_append]
      exact hfirst hempty pr hpr
    · exact (h.resolve_left hempty pr hpr).append more

variable {op : CoreOp T H Sig SK S}

omit [DecidableEq H] in
/-- The effect of a call that appends. -/
theorem effect_isAppend (h : Kept c st w log core) (hop : op.IsAppend) :
    op.effect st w codec log = log.write (appended codec core op) := by
  cases op with
  | append value => rfl
  | appendAll values => rfl
  | commit batch =>
    rw [CoreOp.effect, Log.commit, appended, ← h.len_eq]
    split_ifs
    · rfl
    · rw [Log.write_nil]
  | _ => exact hop.elim

/-- The other calls keep a log bound. -/
theorem boundLog_effect (hst : st.Lawful) (h : Coherent c st w log core) (hbound : BoundLog c log)
    (hop : op.IsHonest) (hsource : Sourced c st w codec op) (happend : ¬ op.IsAppend)
    (hrun : op.run c st w codec core = .ok () core') : BoundLog c (op.effect st w codec log) := by
  have hdrop : ∀ p, BoundLog c (log.drop p) := fun p => by
    rw [BoundLog, Log.bytes_drop]
    exact hbound
  cases op with
  | append value => exact absurd trivial happend
  | appendAll values => exact absurd trivial happend
  | commit batch => exact absurd trivial happend
  | truncate n =>
    rw [CoreOp.effect, Log.truncate]
    split_ifs with hrefused
    · exact hbound
    · rw [not_or] at hrefused
      refine hbound.imp (fun hempty => ?_) fun hcommits pr hpr => ?_
      · rw [Log.bytes, List.map_take]
        exact List.take_eq_nil_of_eq_nil hempty
      · have hle : pr.length ≤ n := by
          have hany := hrefused.1
          rw [show log.prologue = some pr from hpr, Option.any_some, decide_eq_true_eq] at hany
          omega
        have hcut := (hcommits pr hpr).take hle
        rwa [Log.bytes, ← List.map_take] at hcut
  | clear start end_ => exact hdrop _
  | sweep keep => exact hdrop _
  | setUserData key value => exact hbound
  | copyPrologue source =>
    obtain ⟨author, store, prologue, ops, hran⟩ := hsource
    have hsrc := Coherent.runAll hst ops (coherent_new author store prologue) hran
    obtain ⟨n, core₁, hcopy, -⟩ := bind_eq_ok.mp hrun
    obtain ⟨pr, hpr, rfl, hempty, hroot, hall, -⟩ := (h.ends_copyPrologue hst source).ok hcopy
    have hbytes : log.bytes = [] := by
      rw [← List.length_eq_zero_iff, Log.length_bytes, ← h.len_eq]
      exact hempty
    refine Or.inr fun pr' hpr' => ?_
    obtain rfl : pr = pr' := Option.some.inj (hpr.symm.trans hpr')
    rw [CoreOp.effect, hpr, Option.map_some, Option.getD_some, Log.bytes_write, hbytes, List.nil_append,
      hsrc.toKept.readable_eq hall]
    exact Commits.take (hsrc.built.prefixRootHash_eq_some.mp hroot) le_rfl
  | recoverSignedSuffix head suffix => exact hop.elim
  | purge => exact hop.elim
  | reopen author => exact hbound

/-- One call keeps the log bound exactly if it is guarded. -/
theorem Coherent.bound_step (hst : st.Lawful) (h : Coherent c st w log core) (hbound : Bound c core)
    (hop : op.IsHonest) (hsource : Sourced c st w codec op) (hrun : op.run c st w codec core = .ok () core') :
    Bound c core' ↔ Guarded c codec core op := by
  have hafter := (h.ends_op hst op).ok hrun
  have hlog := h.toKept.bound_iff.mp hbound
  rw [hafter.toKept.bound_iff]
  by_cases happend : op.IsAppend
  · rw [effect_isAppend h.toKept happend]
    rcases eq_or_ne (appended codec core op) [] with hnil | hmore
    · rw [hnil, Log.write_nil]
      exact ⟨fun _ _ hne => absurd hnil hne, fun _ => hlog⟩
    · rw [boundLog_write hlog hmore, Guarded, ← List.length_eq_zero_iff, Log.length_bytes, ← h.len_eq,
        h.prologue_eq]
      have hbuilt := built_ofBlocks c.hasher (appended codec core op)
      simp only [hbuilt.prefixRootHash_eq_some]
      exact ⟨fun hfirst hempty _ => hfirst hempty, fun hguard hempty => hguard hempty hmore⟩
  · refine ⟨fun _ _ hne => absurd ?_ hne, fun _ => boundLog_effect hst h hlog hop hsource happend hrun⟩
    cases op <;> first | rfl | exact absurd trivial happend

theorem AllBound.bound {ops : List (CoreOp T H Sig SK S)} (h : AllBound c st w codec ops core) :
    Bound c core := by
  cases ops with
  | nil => exact h
  | cons op rest => exact h.1

/-- A run. -/
theorem Coherent.allBound_iff (hst : st.Lawful) : ∀ {ops : List (CoreOp T H Sig SK S)} {log : Log H}
    {core core' : Hypercore H Sig SK S}, Coherent c st w log core → Bound c core →
    (∀ op ∈ ops, op.IsHonest ∧ Sourced c st w codec op) →
    CoreOp.runAll c st w codec ops core = .ok () core' →
    (AllBound c st w codec ops core ↔ AllGuarded c st w codec ops core)
  | [], log, core, core', _, hbound, _, _ => ⟨fun _ => trivial, fun _ => hbound⟩
  | op :: rest, log, core, core', h, hbound, hops, hrun => by
    obtain ⟨_, core₁, hop, hrest⟩ := bind_eq_ok.mp hrun
    obtain ⟨honest, hsource⟩ := hops op List.mem_cons_self
    have hstep := h.bound_step hst hbound honest hsource hop
    rw [AllBound, AllGuarded, after, hop, and_iff_right hbound, ← hstep]
    constructor
    · intro hall
      have hiff := Coherent.allBound_iff hst ((h.ends_op hst op).ok hop) hall.bound
        (fun op' hop' => hops op' (List.mem_cons_of_mem op hop')) hrest
      exact ⟨hall.bound, hiff.mp hall⟩
    · rintro ⟨hbound₁, hguarded⟩
      have hiff := Coherent.allBound_iff hst ((h.ends_op hst op).ok hop) hbound₁
        (fun op' hop' => hops op' (List.mem_cons_of_mem op hop')) hrest
      exact hiff.mpr hguarded

/-- A run of successful calls keeps a log empty or true to its prologue exactly if nothing else
than the committed blocks is appended to it while it is empty. -/
theorem prologue_kept_iff (hst : st.Lawful) (author : SK) (store : S) (pr : Prologue H)
    (ops : List (CoreOp T H Sig SK S)) (hops : ∀ op ∈ ops, op.IsHonest ∧ Sourced c st w codec op)
    (hrun : CoreOp.runAll c st w codec ops (withPrologue author store pr) = .ok () core) :
    AllBound c st w codec ops (withPrologue author store pr) ↔
      AllGuarded c st w codec ops (withPrologue author store pr) :=
  (coherent_new author store (some pr)).allBound_iff hst (Or.inl rfl) hops hrun

/-- A block is appended before the prologue is copied. -/
theorem append_breaks_prologue : ∃ core,
    CoreOp.runAll Crypto.sums Store.memory Wire.bits Codec.plain ([.append [9]] : List MemoryOp)
      (withPrologue () ∅ twoBlocks) = .ok () core ∧
    core.len = 1 ∧ core.verifyPrologue Crypto.sums = false := by
  have hrun : returnedIn (fun core => core.len == 1 && !core.verifyPrologue Crypto.sums)
      (CoreOp.runAll Crypto.sums Store.memory Wire.bits Codec.plain ([.append [9]] : List MemoryOp)
        (withPrologue () ∅ twoBlocks)) = true := by decide +kernel
  obtain ⟨_, core, hcore, hbroken⟩ := exists_of_returnedIn hrun
  rw [Bool.and_eq_true, beq_iff_eq, Bool.not_eq_true'] at hbroken
  exact ⟨core, hcore, hbroken⟩

/-- A log of the two blocks. -/
def fullSource : Hypercore (BitVec 256) (BitVec 512) Unit (ExtTreeMap ℕ (List UInt8)) :=
  after (CoreOp.runAll Crypto.sums Store.memory Wire.bits Codec.plain
    ([.append [1], .append [2]] : List MemoryOp)) memoryLog

/-- They are copied, and the log goes on. -/
def migratedRun : List MemoryOp := [.copyPrologue fullSource, .append [3], .truncate 1, .truncate 2]

theorem prologue_kept_iff_migrated :
    AllBound Crypto.sums Store.memory Wire.bits Codec.plain migratedRun (withPrologue () ∅ twoBlocks) := by
  have hsource : returned (CoreOp.runAll Crypto.sums Store.memory Wire.bits Codec.plain
      ([.append [1], .append [2]] : List MemoryOp) memoryLog) = true := by decide +kernel
  have hrun : returned (CoreOp.runAll Crypto.sums Store.memory Wire.bits Codec.plain migratedRun
      (withPrologue () ∅ twoBlocks)) = true := by decide +kernel
  have hcopied : (after ((CoreOp.copyPrologue fullSource : MemoryOp).run Crypto.sums Store.memory Wire.bits
      Codec.plain) (withPrologue () ∅ twoBlocks)).len ≠ 0 := by decide +kernel
  obtain ⟨_, core, hrun⟩ := exists_of_returned hrun
  obtain ⟨_, source, hsource⟩ := exists_of_returned hsource
  have hops : ∀ op ∈ migratedRun, op.IsHonest ∧
      Sourced Crypto.sums Store.memory Wire.bits Codec.plain op := by
    intro op hop
    fin_cases hop
    · refine ⟨trivial, (), ∅, none, [.append [1], .append [2]], ?_⟩
      rw [fullSource, after, hsource]
    all_goals exact ⟨trivial, trivial⟩
  refine (prologue_kept_iff Store.memory_lawful () ∅ twoBlocks migratedRun hops hrun).mpr ?_
  refine ⟨fun _ hne => absurd rfl hne, fun hempty => absurd hempty hcopied, fun _ hne => absurd rfl hne,
    fun _ hne => absurd rfl hne, trivial⟩

end Hypercore
end HypercoreRs
