/-
# The log and its three structures

A writer keeps the same log three times: in the Merkle tree, in the presence map and
in the byte store, and signs a head over it. `Log` is what all of them are about: the
blocks in order, each held or dropped, and the number of truncations. `Coherent` says
that they agree with it.

Each operation has its effect on the `Log`, and ends in a log coherent with that; so
the whole of a run is coherent with the effects of its operations, whatever the store
held before (`Coherent.runAll`).
-/
import HypercoreRs.Hypercore.Steps
import HypercoreRs.Hypercore.Writer

namespace HypercoreRs

open Std Merkle Command Storage

/-- A log: its blocks, each with whether it is held, and how often it was cut short. -/
structure Log (H : Type) where
  blocks : List (Block × Bool)
  truncations : ℕ
  prologue : Option (Prologue H)

namespace Log

variable {H : Type} (log : Log H)

def fresh (prologue : Option (Prologue H)) : Log H := ⟨[], 0, prologue⟩

/-- The bytes of every block, held or not. -/
def bytes : List Block := log.blocks.map Prod.fst

/-- Block `i`, if it is held. -/
def read (i : ℕ) : Option Block :=
  log.blocks[i]?.bind fun (data, held) => if held then some data else none

/-- Write blocks at the end. -/
def write (more : List Block) : Log H :=
  { log with blocks := log.blocks ++ more.map fun data => (data, true) }

/-- Drop the blocks with `p`. -/
def drop (p : ℕ → Bool) : Log H :=
  { log with blocks := log.blocks.mapIdx fun i (data, held) => (data, held && !p i) }

/-- Cut the log down to `n` blocks, unless that is no cut or cuts into the prologue. -/
def truncate (n : ℕ) : Log H :=
  if log.prologue.any (n < ·.length) ∨ n ≥ log.blocks.length then log
  else { log with blocks := log.blocks.take n, truncations := log.truncations + 1 }

/-- Write a batch, unless it was opened at another length. -/
def commit (batch : Batch) : Log H :=
  if batch.base = log.blocks.length then log.write batch.encoded else log

variable {log}

@[simp] theorem length_bytes : log.bytes.length = log.blocks.length := List.length_map _

@[simp] theorem bytes_write (more : List Block) : (log.write more).bytes = log.bytes ++ more := by
  simp [bytes, write, Function.comp_def]

@[simp] theorem length_write (more : List Block) :
    (log.write more).blocks.length = log.blocks.length + more.length := by
  simp [write]

@[simp] theorem bytes_drop (p : ℕ → Bool) : (log.drop p).bytes = log.bytes := by
  apply List.ext_getElem?
  intro i
  simp only [bytes, drop, List.getElem?_map, List.getElem?_mapIdx, Option.map_map]
  rfl

@[simp] theorem write_nil : log.write [] = log := by
  simp [write]

theorem write_write (l l' : List Block) : (log.write l).write l' = log.write (l ++ l') := by
  simp [write]

theorem read_write (more : List Block) (i : ℕ) : (log.write more).read i =
    if i < log.blocks.length then log.read i else more[i - log.blocks.length]? := by
  unfold read write
  dsimp only
  split_ifs with hi
  · rw [List.getElem?_append_left hi]
  · rw [List.getElem?_append_right (by omega), List.getElem?_map]
    cases more[i - log.blocks.length]? <;> rfl

theorem read_drop (p : ℕ → Bool) (i : ℕ) :
    (log.drop p).read i = if p i then none else log.read i := by
  unfold read drop
  dsimp only
  rw [List.getElem?_mapIdx]
  cases log.blocks[i]? with
  | none => simp
  | some block =>
    obtain ⟨data, held⟩ := block
    cases held <;> cases p i <;> rfl

theorem drop_drop (p q : ℕ → Bool) : (log.drop p).drop q = log.drop fun i => p i || q i := by
  unfold drop
  dsimp only
  rw [List.mapIdx_mapIdx]
  congr 2
  funext i block
  obtain ⟨data, held⟩ := block
  simp [Bool.and_assoc]

theorem drop_congr {p q : ℕ → Bool} (h : ∀ i < log.blocks.length, p i = q i) :
    log.drop p = log.drop q := by
  unfold drop
  congr 1
  apply List.ext_getElem?
  intro i
  rw [List.getElem?_mapIdx, List.getElem?_mapIdx]
  by_cases hi : i < log.blocks.length
  · rw [h i hi]
  · rw [List.getElem?_eq_none (by omega)]
    rfl

variable {i : ℕ}

/-- Blocks that are not held are not dropped. -/
theorem drop_eq_self {p : ℕ → Bool} (h : ∀ i, p i = true → log.read i = none) : log.drop p = log := by
  unfold drop
  have hblocks : (log.blocks.mapIdx fun i (block : Block × Bool) => (block.1, block.2 && !p i)) =
      log.blocks := by
    apply List.ext_getElem?
    intro i
    rw [List.getElem?_mapIdx]
    cases hi : log.blocks[i]? with
    | none => rfl
    | some block =>
      obtain ⟨data, held⟩ := block
      cases held with
      | false => rfl
      | true =>
        have hkeep : p i = false := by
          rw [Bool.eq_false_iff]
          intro hp
          have := h i hp
          rw [read, hi] at this
          cases this
        rw [Option.map_some, hkeep]
        rfl
  simp only [hblocks]

variable {data : Block}

theorem read_lt (h : log.read i = some data) : i < log.blocks.length := by
  by_contra hi
  rw [read, List.getElem?_eq_none (by omega)] at h
  cases h

/-- A held block is one of the bytes. -/
theorem getElem?_bytes (h : log.read i = some data) : log.bytes[i]? = some data := by
  obtain ⟨⟨data', held⟩, hi, hread⟩ := Option.bind_eq_some_iff.mp h
  dsimp only at hread
  split_ifs at hread
  rw [bytes, List.getElem?_map, hi, Option.map_some, ← Option.some.inj hread]

end Log

namespace Hypercore

variable {K H Sig SK S E T : Type} [DecidableEq H]
variable (c : Crypto K H Sig SK) (st : Store S E) (w : Wire H Sig) (codec : Codec T)

/-- The tree, the presence map and the store agree with the log. -/
structure Kept (log : Log H) (core : Hypercore H Sig SK S) : Prop where
  built : Built c.hasher log.bytes core.tree
  present : ∀ i, i ∈ core.presence ↔ (log.read i).isSome
  stored : ∀ i data, log.read i = some data →
    (backend w st).getBlock core.store i = .ok (some data)
  fork_eq : core.fork = log.truncations
  prologue_eq : core.prologue = log.prologue

/-- And the head is signed over all of it. -/
structure Coherent (log : Log H) (core : Hypercore H Sig SK S) : Prop extends
    Kept c st w log core where
  verified : core.verifyHead c = true

variable {c st w codec} {log : Log H} {core core' : Hypercore H Sig SK S} {s : S} {p : ℕ → Bool}

/-! ### Logs that are kept -/

section Kept

omit [DecidableEq H]

section

variable (h : Kept c st w log core)
include h

theorem Kept.len_eq : core.len = log.blocks.length :=
  h.built.length_eq.trans Log.length_bytes

/-- The log stays kept while its held blocks read the same. -/
theorem Kept.store (hs : ∀ i data, log.read i = some data →
    (backend w st).getBlock s i = (backend w st).getBlock core.store i) :
    Kept c st w log { core with store := s } where
  built := h.built
  present := h.present
  stored i data hi := (hs i data hi).trans (h.stored i data hi)
  fork_eq := h.fork_eq
  prologue_eq := h.prologue_eq

theorem Kept.grow {data : Block}
    (hdata : (backend w st).getBlock core.store core.len = .ok (some data)) :
    Kept c st w (log.write [data]) (Hypercore.grow c core data) where
  built := by
    rw [Log.bytes_write]
    exact h.built.append data
  present i := by
    show i ∈ core.presence.insert core.len ↔ _
    rw [Graph.mem_insert_set, h.present, Log.read_write, h.len_eq]
    obtain hlt | rfl | hgt := Nat.lt_trichotomy i log.blocks.length
    · rw [if_pos hlt]
      exact ⟨fun hi => hi.resolve_left (by omega), Or.inr⟩
    · simp
    · have hnone : log.read i = none := by
        rw [Log.read, List.getElem?_eq_none (by omega)]
        rfl
      rw [if_neg (by omega), hnone, List.getElem?_eq_none (by simp; omega)]
      simp
      omega
  stored i data' hi := by
    rw [Log.read_write] at hi
    split_ifs at hi with hlt
    · exact h.stored i data' hi
    · have hzero : i - log.blocks.length = 0 := by
        have := (List.getElem?_eq_some_iff.mp hi).1
        simpa using this
      rw [hzero] at hi
      obtain rfl := Option.some.inj hi
      have hi : i = core.len := by rw [h.len_eq]; omega
      rw [hi]
      exact hdata
  fork_eq := h.fork_eq
  prologue_eq := h.prologue_eq

theorem Kept.truncate {n : ℕ} (hn : n < core.len) (hpro : ¬ log.prologue.any (n < ·.length)) :
    Kept c st w (log.truncate n)
      { core with tree := (core.tree.truncate n).1
                  presence := Bitfield.unsetRange core.presence n core.len
                  fork := core.fork + 1 } := by
  have hlen := h.len_eq
  have hcut : log.truncate n =
      { log with blocks := log.blocks.take n, truncations := log.truncations + 1 } := by
    rw [Log.truncate, if_neg]
    rintro (h' | h')
    · exact hpro h'
    · omega
  have hread : ∀ i, (log.truncate n).read i = if i < n then log.read i else none := by
    intro i
    rw [hcut, Log.read, Log.read, List.getElem?_take]
    split_ifs <;> rfl
  refine ⟨?_, fun i => ?_, fun i data hi => ?_, ?_, ?_⟩
  · have hbytes : (log.truncate n).bytes = log.bytes.take n := by
      rw [hcut, Log.bytes, Log.bytes, List.map_take]
    rw [hbytes]
    exact (h.built.truncate (by rwa [Log.length_bytes, ← hlen])).2
  · rw [hread, Bitfield.mem_unsetRange, h.present]
    split_ifs with hlt
    · exact ⟨And.left, fun hi => ⟨hi, by omega⟩⟩
    · refine iff_of_false (fun ⟨hi, hout⟩ => ?_) (by simp)
      obtain ⟨data, hdata⟩ := Option.isSome_iff_exists.mp hi
      have := Log.read_lt hdata
      omega
  · rw [hread] at hi
    split_ifs at hi with hlt
    exact h.stored i data hi
  · rw [hcut]
    exact congrArg (· + 1) h.fork_eq
  · rw [hcut]
    exact h.prologue_eq

/-- A kept log reads its held blocks. -/
theorem Kept.block (i : ℕ) : core.block (backend w st) i = .ok (log.read i) := by
  cases hread : log.read i with
  | some data =>
    refine block_eq_some.mpr ⟨?_, h.stored i data hread⟩
    rw [has, Bool.and_eq_true, decide_eq_true_eq, h.len_eq]
    exact ⟨Log.read_lt hread, (h.present i).mpr (by rw [hread]; rfl)⟩
  | none =>
    rw [Hypercore.block, if_neg]
    intro hhas
    have := (h.present i).mp (Bool.and_eq_true_iff.mp hhas).2
    rw [hread] at this
    cases this

/-- A log all of whose blocks can be read holds them all. -/
theorem Kept.stored_eq {stored : List Block}
    (hread : (List.range core.len).mapM (core.blockOrCorrupt (backend w st)) = .ok stored) :
    stored = log.bytes ∧ ∀ i < log.blocks.length, log.read i = stored[i]? := by
  obtain ⟨hlen, hstored⟩ := mapM_ok hread
  rw [List.length_range, h.len_eq] at hlen
  have hheld : ∀ i < log.blocks.length, log.read i = stored[i]? ∧ (log.read i).isSome := by
    intro i hi
    obtain ⟨data, hdata, hblock⟩ := hstored i i (List.getElem?_range (h.len_eq ▸ hi))
    rw [blockOrCorrupt, h.block] at hblock
    cases hread : log.read i with
    | none =>
      rw [hread] at hblock
      cases hblock
    | some data' =>
      rw [hread] at hblock
      rw [hdata, Except.ok.inj hblock]
      exact ⟨rfl, rfl⟩
  refine ⟨List.ext_getElem? fun i => ?_, fun i hi => (hheld i hi).1⟩
  by_cases hi : i < log.blocks.length
  · obtain ⟨heq, hsome⟩ := hheld i hi
    obtain ⟨data, hdata⟩ := Option.isSome_iff_exists.mp hsome
    rw [← heq, hdata, Log.getElem?_bytes hdata]
  · rw [List.getElem?_eq_none (by omega), List.getElem?_eq_none (by rw [Log.length_bytes]; omega)]

/-- An adopted suffix, all of the log before it held. -/
theorem Kept.adopt {suffix stored : List Block} (head : SignedHead H Sig)
    (hread : (List.range core.len).mapM (core.blockOrCorrupt (backend w st)) = .ok stored)
    (hkeep : ∀ i < core.len, (backend w st).getBlock s i = (backend w st).getBlock core.store i)
    (hsuffix : ∀ (j : ℕ) (data : Block), suffix[j]? = some data →
      (backend w st).getBlock s (core.len + j) = .ok (some data)) :
    Kept c st w (log.write suffix) { core with
      store := s, tree := MerkleTree.ofBlocks c.hasher (stored ++ suffix)
      presence := ExtTreeSet.ofList (List.range (stored ++ suffix).length), head := some head } := by
  obtain ⟨rfl, hheld⟩ := h.stored_eq hread
  have hread' : ∀ i, (log.write suffix).read i = (log.bytes ++ suffix)[i]? := by
    intro i
    rw [Log.read_write]
    split_ifs with hi
    · rw [hheld i hi, List.getElem?_append_left (by rwa [Log.length_bytes])]
    · rw [List.getElem?_append_right (by rw [Log.length_bytes]; omega), Log.length_bytes]
  refine ⟨?_, fun i => ?_, fun i data hi => ?_, h.fork_eq, h.prologue_eq⟩
  · rw [Log.bytes_write]
    exact built_ofBlocks c.hasher _
  · rw [hread', Graph.mem_ofList, List.mem_range, Option.isSome_iff_exists]
    exact ⟨fun hi => ⟨_, List.getElem?_eq_getElem hi⟩,
      fun ⟨data, hdata⟩ => (List.getElem?_eq_some_iff.mp hdata).1⟩
  · rw [Log.read_write] at hi
    split_ifs at hi with hlt
    · exact (hkeep i (h.len_eq ▸ hlt)).trans (h.stored i data hi)
    · have := hsuffix _ data hi
      rwa [h.len_eq, Nat.add_sub_cancel' (Nat.le_of_not_lt hlt)] at this

/-- One block copied to the end. -/
theorem Kept.ends_copyBlock (hst : st.Lawful)
    (source : Hypercore H Sig SK S) {i : ℕ} (hi : core.len = i) :
    Ends (copyBlock c st w source i) core
      (fun _ core' => ∃ enc, source.blockOrMismatch st w i = .ok enc ∧
        Kept c st w (log.write [enc]) core' ∧ core'.len = i + 1 ∧ core'.author = core.author)
      fun _ _ => True := by
  subst hi
  unfold copyBlock
  refine Ends.look (fun _ _ => trivial) fun enc henc => ?_
  refine Ends.andThen (ends_write hst _ core) (fun _ _ _ => trivial) fun _ core₂ h₂ => ?_
  obtain ⟨s, rfl, htouch, hget⟩ := h₂
  have habove : st.Above core.len core.store s := htouch.above
  have hkept : Kept c st w log { core with store := s } :=
    h.store fun _ _ hr => above_getBlock habove (h.len_eq ▸ Log.read_lt hr)
  have hdata : (backend w st).getBlock s core.len = .ok (some enc) :=
    hget (List.nodup_singleton _) _ List.mem_cons_self
  exact Ends.modify ⟨enc, henc, hkept.grow hdata, rfl, rfl⟩

end

/-- Blocks that are in the store already are taken in one after another. -/
theorem Kept.grow_all : ∀ {l : List Block} {log : Log H} {core : Hypercore H Sig SK S},
    Kept c st w log core →
    (∀ (j : ℕ) (data : Block), l[j]? = some data →
      (backend w st).getBlock core.store (core.len + j) = .ok (some data)) →
    Kept c st w (log.write l) (l.foldl (Hypercore.grow c) core)
  | [], log, core, h, _ => by rwa [Log.write_nil]
  | data :: rest, log, core, h, hl => by
    have hgrow := h.grow (hl 0 data rfl)
    have hrest := hgrow.grow_all (l := rest) fun j data' hj => by
      have := hl (j + 1) data' hj
      rwa [← Nat.add_assoc, Nat.add_right_comm] at this
    rw [Log.write_write] at hrest
    exact hrest

theorem foldl_grow_store : ∀ (l : List Block) (core : Hypercore H Sig SK S),
    (l.foldl (Hypercore.grow c) core).store = core.store ∧
      (l.foldl (Hypercore.grow c) core).author = core.author
  | [], _ => ⟨rfl, rfl⟩
  | data :: rest, core => foldl_grow_store rest (Hypercore.grow c core data)

theorem Kept.ends_copyBlocks (hst : st.Lawful) (source : Hypercore H Sig SK S) :
    ∀ (l : List ℕ) {log : Log H} {core : Hypercore H Sig SK S},
    l = List.range' core.len l.length → Kept c st w log core →
    Ends (copyBlocks c st w source l) core
      (fun _ core' => Kept c st w
          (log.write (l.filterMap fun i => (source.blockOrMismatch st w i).toOption)) core' ∧
        core'.author = core.author ∧ ∀ i ∈ l, ∃ enc, source.blockOrMismatch st w i = .ok enc)
      fun _ _ => True
  | [], log, core, _, h => by
    rw [copyBlocks, List.filterMap_nil, Log.write_nil]
    exact Ends.pure ⟨h, rfl, nofun⟩
  | i :: rest, log, core, hl, h => by
    rw [List.length_cons, List.range'_succ, List.cons.injEq] at hl
    obtain ⟨rfl, hrest⟩ := hl
    rw [copyBlocks]
    refine Ends.bind (h.ends_copyBlock hst source rfl) fun _ core₁ h₁ => ?_
    obtain ⟨enc, henc, hkept, hlen, hauthor⟩ := h₁
    refine (Kept.ends_copyBlocks hst source rest (by rwa [hlen]) hkept).mono (fun _ core₂ h₂ => ?_)
      fun _ _ _ => trivial
    rw [Log.write_write] at h₂
    rw [List.filterMap_cons, henc]
    refine ⟨h₂.1, h₂.2.1.trans hauthor, fun i hi => ?_⟩
    obtain rfl | hi := List.mem_cons.mp hi
    · exact ⟨enc, henc⟩
    · exact h₂.2.2 i hi

end Kept

/-! ### Coherent logs -/

theorem Coherent.store (h : Coherent c st w log core) (hs : ∀ i data, log.read i = some data →
      (backend w st).getBlock s i = (backend w st).getBlock core.store i) :
    Coherent c st w log { core with store := s } := ⟨h.toKept.store hs, h.verified⟩

/-- Blocks written past the end leave the log as it is. -/
theorem Coherent.above (h : Coherent c st w log core) (hs : st.Above core.len core.store s) :
    Coherent c st w log { core with store := s } :=
  h.store fun _ _ hi => above_getBlock hs (h.len_eq ▸ Log.read_lt hi)

theorem coherent_new (author : SK) (store : S) (prologue : Option (Prologue H)) :
    Coherent c st w (.fresh prologue)
      { (new author store : Hypercore H Sig SK S) with prologue := prologue } where
  built := built_new
  present i := by simp [new, Log.fresh, Log.read]
  stored i data hi := by simp [Log.fresh, Log.read] at hi
  fork_eq := rfl
  prologue_eq := rfl
  verified := rfl

/-! ### Signing -/

/-- Signing a kept log makes it coherent, and never panics. -/
theorem Kept.resign (h : Kept c st w log core) :
    ∃ head, Hypercore.resign c core = some { core with head := some head } ∧
      Coherent c st w log { core with head := some head } := by
  have hroot := h.built.rootHash
  rw [Hypercore.resign, hroot, Option.map_some]
  refine ⟨_, rfl, ⟨h.built, h.present, h.stored, h.fork_eq, h.prologue_eq⟩, ?_⟩
  simp only [verifyHead, beq_self_eq_true, Bool.true_and, hroot, len]
  exact c.verify_sign _ _

theorem Kept.ends_resigned (h : Kept c st w log core) :
    Ends (resigned c : EStateM (CoreError (LayoutError E)) _ _) core
      (fun _ core' => Coherent c st w log core' ∧ core'.store = core.store ∧
        core'.author = core.author)
      fun _ _ => False := by
  obtain ⟨head, hsign, hcoh⟩ := h.resign
  unfold resigned
  apply Ends.get
  rw [hsign]
  exact Ends.set ⟨hcoh, rfl, rfl⟩

/-! ### Cutting and dropping -/

theorem Coherent.ends_truncate (h : Coherent c st w log core) (n : ℕ) :
    Ends (truncate c n : EStateM (CoreError (LayoutError E)) _ _) core
      (fun _ core' => Coherent c st w (log.truncate n) core' ∧ core'.store = core.store ∧
        core'.author = core.author)
      fun _ _ => False := by
  unfold truncate
  apply Ends.get
  split_ifs with hpro hge
  · rw [h.prologue_eq] at hpro
    rw [Log.truncate, if_pos (Or.inl hpro)]
    exact Ends.pure ⟨h, rfl, rfl⟩
  · rw [h.len_eq] at hge
    rw [Log.truncate, if_pos (Or.inr hge)]
    exact Ends.pure ⟨h, rfl, rfl⟩
  · rw [h.prologue_eq] at hpro
    apply Ends.assign
    exact Ends.bind (h.toKept.truncate (Nat.lt_of_not_le hge) hpro).ends_resigned
      fun _ _ h' => Ends.pure h'

/-- Dropping one block: its bit is erased and its bytes are deleted, in either order. -/
theorem Coherent.discard (h : Coherent c st w log core) {i : ℕ} (hs : st.Only i core.store s)
    (hp : p i = true) :
    Coherent c st w (log.drop fun j => j == i && p j)
      { core with store := s, presence := core.presence.erase i } := by
  have hread : ∀ j, (log.drop fun j => j == i && p j).read j = if j = i then none else log.read j := by
    intro j
    rw [Log.read_drop]
    by_cases hj : j = i
    · subst hj
      simp [hp]
    · simp [hj]
  refine ⟨⟨by rw [Log.bytes_drop]; exact h.built, fun j => ?_, fun j data hj => ?_, h.fork_eq,
    h.prologue_eq⟩, h.verified⟩
  · rw [hread]
    show j ∈ core.presence.erase i ↔ _
    rw [Graph.mem_erase_set, h.present]
    split_ifs with hj <;> simp [hj]
  · rw [hread] at hj
    split_ifs at hj with hji
    rw [← h.stored j data hj]
    exact getBlock_congr fun _ => hs j hji

/-- A block that is not present is not held. -/
theorem Coherent.absent (h : Coherent c st w log core) {i : ℕ} (hi : p i = true → ¬ i ∈ core.presence) :
    Coherent c st w (log.drop fun j => j == i && p j) core := by
  rwa [Log.drop_eq_self]
  intro j hj
  rw [Bool.and_eq_true, beq_iff_eq] at hj
  obtain ⟨rfl, hp⟩ := hj
  simpa using mt (h.present j).mpr (hi hp)

/-- Dropping the blocks of a list that have `p`, one after another. -/
theorem Coherent.ends_sumOver {f : ℕ → EStateM (CoreError (LayoutError E)) (Hypercore H Sig SK S) ℕ}
    (hf : ∀ {log : Log H} {core : Hypercore H Sig SK S} (i : ℕ), Coherent c st w log core →
      Ends (f i) core (fun _ core' => Coherent c st w (log.drop fun j => j == i && p j) core' ∧
        core'.author = core.author) fun _ _ => True) :
    ∀ (l : List ℕ) {log : Log H} {core : Hypercore H Sig SK S}, Coherent c st w log core →
    Ends (sumOver f l) core
      (fun _ core' => Coherent c st w (log.drop fun j => l.contains j && p j) core' ∧
        core'.author = core.author)
      fun _ _ => True
  | [], log, core, h => by
    rw [sumOver]
    refine Ends.pure ⟨?_, rfl⟩
    rwa [Log.drop_eq_self fun i hi => ?_]
    simp at hi
  | i :: rest, log, core, h => by
    rw [sumOver]
    refine Ends.bind (hf i h) fun _ core₁ h₁ => ?_
    refine Ends.bind (Coherent.ends_sumOver hf rest h₁.1) fun _ core₂ h₂ => Ends.pure ⟨?_, h₂.2.trans h₁.2⟩
    have hdrop : (log.drop fun j => j == i && p j).drop (fun j => rest.contains j && p j) =
        log.drop fun j => (i :: rest).contains j && p j := by
      rw [Log.drop_drop]
      congr 1
      funext j
      rw [List.contains_cons, Bool.and_or_distrib_right]
    rw [← hdrop]
    exact h₂.1

/-! ### Purging and reopening -/

omit [DecidableEq H] in
theorem ends_discardAll (hst : st.Lawful) : ∀ (l : List ℕ) (core : Hypercore H Sig SK S),
    Ends (discardAll st l) core
      (fun _ core' => ∃ s, core' = { core with store := s } ∧ (∀ n ∈ l, st.get s n = .ok none) ∧
        ∀ n ∉ l, st.get s n = st.get core.store n)
      fun _ core' => ∃ s, core' = { core with store := s }
  | [], core => Ends.pure ⟨core.store, rfl, nofun, fun _ _ => rfl⟩
  | i :: rest, core => by
    rw [discardAll]
    refine Ends.andThen (ends_discard hst i core) (fun _ _ h => ?_)
      fun _ core₁ h₁ => ?_
    · obtain ⟨s, rfl, -⟩ := h
      exact ⟨s, rfl⟩
    · obtain ⟨s₁, rfl, honly, hgone⟩ := h₁
      refine (ends_discardAll hst rest _).mono (fun _ core' h => ?_) fun _ core' h => h
      obtain ⟨s, rfl, hrest, hsame⟩ := h
      refine ⟨s, rfl, fun n hn => ?_, fun n hn => ?_⟩
      · by_cases hn' : n ∈ rest
        · exact hrest n hn'
        · obtain rfl := (List.mem_cons.mp hn).resolve_right hn'
          exact (hsame n hn').trans hgone
      · rw [List.mem_cons, not_or] at hn
        exact (hsame n hn.2).trans (honly n hn.1)

/-- What `purge` deletes: the numbers of the blocks, and the reserved keys. -/
def purged (core : Hypercore H Sig SK S) : List ℕ :=
  List.range core.len ++ [KEY_META, KEY_TREE, KEY_PRESENCE, KEY_USERDATA]

theorem ends_purge (hst : st.Lawful) (core : Hypercore H Sig SK S) :
    Ends (purge st) core
      (fun _ core' => Coherent c st w (.fresh none) core' ∧ ∃ s, core' = new core.author s ∧
        (∀ n ∈ core.purged, st.get s n = .ok none) ∧ ∀ n ∉ core.purged, st.get s n = st.get core.store n)
      fun _ core' => ∃ s, core' = { core with store := s } := by
  unfold purge
  apply Ends.get
  refine Ends.bind (ends_discardAll hst _ core) fun _ core₁ h₁ => ?_
  obtain ⟨s, rfl, hgone, hsame⟩ := h₁
  exact Ends.modify ⟨coherent_new core.author s none, s, rfl, hgone, hsame⟩

variable (st w) in
/-- The store holds the tree, the presence map and the metadata of the log. -/
structure Persisted (core : Hypercore H Sig SK S) (s : S) : Prop where
  tree : (backend w st).get s .tree = .ok (some core.tree)
  presence : (backend w st).get s .presence = .ok (some core.presence)
  metadata : (backend w st).get s .metadata = .ok (some (.core core.fork core.head core.prologue))

omit [DecidableEq H] in
theorem ends_persist (hst : st.Lawful) (core : Hypercore H Sig SK S) :
    Ends (persist (backend w st)) core
      (fun _ core' => ∃ s, core' = { core with store := s } ∧
        Touches st [.tree, .presence, .metadata] core.store s ∧ Persisted st w core s)
      fun _ core' => ∃ s, core' = { core with store := s } ∧
        Touches st [.tree, .presence, .metadata] core.store s := by
  unfold persist
  apply Ends.get
  refine (ends_write hst _ core).mono (fun _ core' h => ?_) fun _ core' h => h
  obtain ⟨s, rfl, htouch, hget⟩ := h
  have hget := hget (by simp)
  exact ⟨s, rfl, htouch, hget ⟨.tree, core.tree⟩ (by simp), hget ⟨.presence, core.presence⟩ (by simp),
    hget ⟨.metadata, .core core.fork core.head core.prologue⟩ (by simp)⟩

omit [DecidableEq H] in
/-- What is under the reserved keys does not matter to the blocks. -/
theorem Touches.getBlock {s s' : S} (h : Touches st [.tree, .presence, .metadata] s s') (i : ℕ) :
    (backend w st : Backend S (LayoutError E) H Sig).getBlock s' i = (backend w st).getBlock s i := by
  refine getBlock_congr fun hlt => h i fun k hk hnum => ?_
  obtain rfl | rfl | rfl : _ ∨ _ ∨ _ := by simpa using hk
  all_goals
    rw [← Option.some.inj hnum] at hlt
    exact absurd hlt (by decide)

theorem Persisted.openFrom (h : Persisted st w core s) (author : SK) :
    openFrom w c st author s = checked c { core with author := author, store := s } :=
  openFrom_of_get c h.metadata h.tree h.presence

theorem verifyHead_of_checkHead (h : core.checkHead c = some true) : core.verifyHead c = true := by
  unfold checkHead at h
  unfold verifyHead
  cases hhead : core.head with
  | none =>
    rw [hhead] at h
    exact Option.some.inj h
  | some head =>
    rw [hhead] at h
    dsimp only at h
    split_ifs at h with heq
    · obtain ⟨root, hroot, hsig⟩ := Option.map_eq_some_iff.mp h
      unfold MerkleTree.rootHash64 at hroot
      split_ifs at hroot
      rw [Bool.and_eq_true, beq_iff_eq] at hsig
      simp only [Bool.and_eq_true, beq_iff_eq]
      exact ⟨⟨⟨heq.1, heq.2⟩, by rw [hroot, hsig.1]⟩, hsig.2⟩
    · cases h

theorem checked_ok (h : (checked c core : Except (CoreError (LayoutError E)) _) = .ok core') :
    core' = core ∧ core.checkHead c = some true := by
  unfold checked at h
  split at h
  · cases h
  · cases h
  · next hcheck => exact ⟨(Except.ok.inj h).symm, hcheck⟩

/-! ### The calls -/

variable (codec) in
theorem encoded_foldl_stage : ∀ (values : List T) (batch : Batch),
    values.foldl (stage codec) batch = ⟨batch.base, batch.encoded ++ values.map codec.encode⟩
  | [], batch => by simp
  | value :: rest, batch => by
    rw [List.foldl_cons, encoded_foldl_stage rest, stage]
    simp

variable (st w) in
/-- The blocks of `source` below `n` that it can hand over. -/
def readable (source : Hypercore H Sig SK S) (n : ℕ) : List Block :=
  (List.range n).filterMap fun i => (source.blockOrMismatch st w i).toOption

section Calls

variable (hst : st.Lawful) (h : Coherent c st w log core)
include hst h

variable (codec) in
/-- An append writes its block: where that fails the append does, and where it succeeds the
log goes on with the block. -/
theorem Coherent.append_cases (value : T) :
    (∃ s core', (backend w st).put (.block core.len) (codec.encode value) core.store = .ok () s ∧
      append c (backend w st) codec value core = .ok core.len core' ∧
      Coherent c st w (log.write [codec.encode value]) core' ∧
      st.Above core.len core.store core'.store ∧ core'.author = core.author) ∨
    ∃ e s, (backend w st).put (.block core.len) (codec.encode value) core.store = .error e s ∧
      append c (backend w st) codec value core = .error (.storage e) { core with store := s } ∧
      st.Above core.len core.store s := by
  have hends := ends_put (w := w) hst (.block core.len) (codec.encode value) core.store
  cases hput : (backend w st).put (.block core.len) (codec.encode value) core.store with
  | error e s =>
    refine Or.inr ⟨e, s, rfl, ?_, (hends.error hput).above⟩
    simp only [append, write, zoom, Backend.putAll, bind, EStateM.bind, MonadState.get, getThe,
      MonadStateOf.get, EStateM.get, hput]
  | ok u s =>
    obtain ⟨htouch, hdata⟩ := hends.ok hput
    have habove : st.Above core.len core.store s := htouch.above
    obtain ⟨head, hsign, hcoh⟩ := ((h.above habove).toKept.grow hdata).resign
    have hsigned : resign c { core with
        store := s, tree := (core.tree.append c.hasher (codec.encode value)).1
        presence := core.presence.insert core.len } = some _ := hsign
    refine Or.inl ⟨s, _, rfl, ?_, hcoh, habove, rfl⟩
    simp only [append, write, zoom, Backend.putAll, bind, EStateM.bind, MonadState.get, getThe,
      MonadStateOf.get, EStateM.get, hput, pure, EStateM.pure, hsigned]
    rfl

variable (codec) in
theorem Coherent.ends_append (value : T) :
    Ends (append c (backend w st) codec value) core
      (fun i core' => i = core.len ∧ Coherent c st w (log.write [codec.encode value]) core' ∧
        st.Above core.len core.store core'.store ∧ core'.author = core.author)
      fun _ core' => ∃ s, core' = { core with store := s } ∧ st.Above core.len core.store s := by
  unfold Ends
  rcases h.append_cases codec hst value with ⟨s, core', -, happend, hcore'⟩ | ⟨e, s, -, happend, habove⟩
  · rw [happend]
    exact ⟨rfl, hcore'⟩
  · rw [happend]
    exact ⟨s, rfl, habove⟩

theorem Coherent.ends_commit_refused (batch : Batch) :
    Ends (commit c st w batch) core
      (fun _ core' => Coherent c st w (log.commit batch) core' ∧
        st.Above core.len core.store core'.store ∧ core'.author = core.author ∧
        (core' = core ∨ core.len < core'.len))
      fun e core' => (∃ e', e = .storage e' ∧ (st.NeverFails → e' = .overflow)) ∧
        ∃ s, core' = { core with store := s } ∧ st.Above core.len core.store s := by
  unfold commit
  apply Ends.get
  split_ifs with hbase hempty
  · rw [Log.commit, if_neg (h.len_eq ▸ hbase)]
    exact Ends.pure ⟨h, fun _ _ => rfl, rfl, Or.inl rfl⟩
  · rw [Log.commit, if_pos (h.len_eq ▸ not_not.mp hbase), List.isEmpty_iff.mp hempty, Log.write_nil]
    exact Ends.pure ⟨h, fun _ _ => rfl, rfl, Or.inl rfl⟩
  · rw [Log.commit, if_pos (h.len_eq ▸ not_not.mp hbase)]
    have hput := ends_putStaged (w := w) hst core.len batch.encoded 0 core.store (by omega)
    refine Ends.bind (Ends.zoom hput (fun _ s hs => ?_)
      fun e s hs => ⟨⟨e, rfl, fun hnever => (hs.1 hnever).1⟩, s, rfl, between_above hs.2⟩)
      (Q := fun _ core' => ∃ s, core' = { core with store := s } ∧ st.Above core.len core.store s ∧
        Kept c st w (log.write batch.encoded) (batch.encoded.foldl (Hypercore.grow c) core'))
      fun _ core₁ hw => ?_
    · refine ⟨s, rfl, hs.above, (h.above hs.above).toKept.grow_all fun j data hj => ?_⟩
      exact hs.stored j data hj
    · obtain ⟨s, rfl, habove, hkept⟩ := hw
      apply Ends.update
      obtain ⟨hstore, hauthor⟩ := foldl_grow_store (c := c) batch.encoded { core with store := s }
      refine Ends.andThen hkept.ends_resigned (fun _ _ h => h.elim) fun _ core₃ h₃ => ?_
      apply Ends.get
      refine Ends.pure ⟨h₃.1, ?_, h₃.2.2.trans hauthor, Or.inr ?_⟩
      · rw [h₃.2.1, hstore]
        exact habove
      · have hpos : 0 < batch.encoded.length :=
          List.length_pos_iff.mpr fun h => hempty (List.isEmpty_iff.mpr h)
        rw [h₃.1.len_eq, h.len_eq, Log.length_write]
        omega

theorem Coherent.ends_commit (batch : Batch) :
    Ends (commit c st w batch) core
      (fun _ core' => Coherent c st w (log.commit batch) core' ∧
        st.Above core.len core.store core'.store ∧ core'.author = core.author ∧
        (core' = core ∨ core.len < core'.len))
      fun _ core' => ∃ s, core' = { core with store := s } ∧ st.Above core.len core.store s :=
  (h.ends_commit_refused hst batch).mono (fun _ _ h => h) fun _ _ h => h.2

variable (codec) in
theorem Coherent.ends_appendAll (values : List T) :
    Ends (appendAll c st w codec values) core
      (fun _ core' => Coherent c st w (log.write (values.map codec.encode)) core' ∧
        st.Above core.len core.store core'.store ∧ core'.author = core.author ∧
        (core' = core ∨ core.len < core'.len))
      fun _ core' => ∃ s, core' = { core with store := s } ∧ st.Above core.len core.store s := by
  unfold appendAll
  apply Ends.get
  split_ifs with hempty
  · rw [List.isEmpty_iff.mp hempty, List.map_nil, Log.write_nil]
    exact Ends.pure ⟨h, fun _ _ => rfl, rfl, Or.inl rfl⟩
  · have hcommit := h.ends_commit hst (values.foldl (stage codec) core.batch)
    rw [encoded_foldl_stage, batch, List.nil_append, Log.commit, if_pos h.len_eq] at hcommit
    rw [encoded_foldl_stage, batch, List.nil_append]
    refine Ends.bind hcommit fun _ core₁ h₁ => ?_
    apply Ends.get
    exact Ends.pure h₁

theorem Coherent.ends_clearBlock (i : ℕ) :
    Ends (clearBlock st i) core
      (fun _ core' => Coherent c st w (log.drop fun j => j == i && true) core' ∧
        core'.author = core.author)
      fun _ _ => True := by
  unfold clearBlock
  apply Ends.get
  split_ifs with hpresent
  · apply Ends.update
    refine Ends.andThen (ends_discard hst i _) (fun _ _ _ => trivial) fun _ core₁ hd => ?_
    obtain ⟨s, rfl, honly, -⟩ := hd
    exact Ends.pure ⟨h.discard honly (p := fun _ => true) rfl, rfl⟩
  · exact Ends.pure ⟨h.absent (p := fun _ => true) fun _ => hpresent, rfl⟩

theorem Coherent.ends_sweepBlock (keep : ℕ → Bool) (i : ℕ) :
    Ends (sweepBlock st keep i) core
      (fun _ core' => Coherent c st w (log.drop fun j => j == i && !keep j) core' ∧
        core'.author = core.author)
      fun _ _ => True := by
  unfold sweepBlock
  apply Ends.get
  split_ifs with hdrop
  · rw [Bool.and_eq_true] at hdrop
    refine Ends.andThen (ends_discard hst i core) (fun _ _ _ => trivial) fun _ core₁ hd => ?_
    obtain ⟨s, rfl, honly, -⟩ := hd
    apply Ends.update
    exact Ends.pure ⟨h.discard honly hdrop.2, rfl⟩
  · exact Ends.pure ⟨h.absent fun hkeep hi => hdrop (Bool.and_eq_true_iff.mpr ⟨hi, hkeep⟩), rfl⟩

theorem Coherent.ends_clear (start end_ : ℕ) :
    Ends (clear st start end_) core
      (fun _ core' => Coherent c st w (log.drop fun i => start ≤ i && i < end_) core' ∧
        core'.author = core.author)
      fun _ _ => True := by
  unfold clear
  apply Ends.get
  refine (Coherent.ends_sumOver (fun i h => h.ends_clearBlock hst i) _ h).mono (fun _ core' h' => ?_)
    fun _ _ _ => trivial
  have hdrop : (log.drop fun i => start ≤ i && i < end_) = log.drop fun j =>
      (List.range' start (min end_ core.len - start)).contains j && true := by
    apply Log.drop_congr
    intro i hi
    have hlen := h.len_eq
    rw [Bool.eq_iff_iff]
    simp only [Bool.and_eq_true, decide_eq_true_eq, List.contains_iff_mem, List.mem_range'_1, and_true]
    omega
  rw [hdrop]
  exact h'

theorem Coherent.ends_sweep (keep : ℕ → Bool) :
    Ends (sweep st keep) core
      (fun _ core' => Coherent c st w (log.drop fun i => !keep i) core' ∧ core'.author = core.author)
      fun _ _ => True := by
  unfold sweep
  apply Ends.get
  refine (Coherent.ends_sumOver (fun i h => h.ends_sweepBlock hst keep i) _ h).mono
    (fun _ core' h' => ?_) fun _ _ _ => trivial
  have hdrop : (log.drop fun i => !keep i) =
      log.drop fun j => (List.range core.len).contains j && !keep j := by
    apply Log.drop_congr
    intro i hi
    have : (List.range core.len).contains i = true := by
      rw [List.contains_iff_mem, List.mem_range, h.len_eq]
      exact hi
    rw [this, Bool.true_and]
  rw [hdrop]
  exact h'

theorem Coherent.ends_setUserData (key value : List UInt8) :
    Ends (setUserData st key value) core
      (fun _ core' => Coherent c st w log core' ∧ core'.author = core.author)
      fun _ core' => Coherent c st w log core' := by
  have hput : ∀ s, st.Only KEY_USERDATA core.store s → Coherent c st w log { core with store := s } := by
    intro s honly
    exact h.store fun i data _ => getBlock_congr fun hi => honly i (by omega)
  unfold setUserData
  apply Ends.get
  refine Ends.look (fun _ _ => h) fun data _ => ?_
  exact Ends.zoom (Ends.of_after fun n hn => hst.put_other _ KEY_USERDATA _ n hn)
    (fun _ s honly => ⟨hput s honly, rfl⟩) fun _ s honly => hput s honly

theorem Coherent.ends_copyPrologue (source : Hypercore H Sig SK S) :
    Ends (copyPrologue c st w source) core
      (fun n core' => ∃ pr, log.prologue = some pr ∧ pr.length = n ∧ core.len = 0 ∧
        source.tree.prefixRootHash c.hasher n = some pr.hash ∧
        (∀ i < n, ∃ enc, source.blockOrMismatch st w i = .ok enc) ∧
        Coherent c st w (log.write (readable st w source n)) core' ∧ core'.author = core.author)
      fun _ _ => True := by
  unfold copyPrologue
  apply Ends.get
  rw [h.prologue_eq]
  cases hpro : log.prologue with
  | none => exact Ends.throw trivial
  | some pr =>
    dsimp only
    split_ifs with hempty hmatch
    · exact Ends.throw trivial
    · exact Ends.throw trivial
    · have hrange : List.range pr.length = List.range' core.len (List.range pr.length).length := by
        rw [List.length_range, not_not.mp hempty, List.range_eq_range']
      refine Ends.bind (h.toKept.ends_copyBlocks hst source _ hrange) fun _ core₁ h₁ => ?_
      refine Ends.andThen h₁.1.ends_resigned (fun _ _ h => h.elim) fun _ core₂ h₂ => ?_
      refine Ends.pure ⟨pr, rfl, rfl, not_not.mp hempty, not_not.mp hmatch, fun i hi => ?_, h₂.1,
        h₂.2.2.trans h₁.2.1⟩
      exact h₁.2.2 i (List.mem_range.mpr hi)

theorem Coherent.ends_recover (head : SignedHead H Sig) (suffix : List Block) :
    Ends (recoverSignedSuffix c (backend w st) head suffix) core
      (fun _ core' => Coherent c st w (log.write suffix) core' ∧ core'.author = core.author)
      fun _ _ => True := by
  have hb : (backend w st : Backend S (LayoutError E) H Sig).Lawful := Backend.ofStore_lawful hst
  refine (ends_recoverSignedSuffix c hb head suffix).mono (fun _ core' hadopt => ?_) fun _ _ _ => trivial
  have hverify := Adopts.verifyHead c hadopt.1 hadopt.2
  obtain ⟨-, s, stored, hread, -, hkeeps, hsuffix, rfl⟩ := hadopt
  exact ⟨⟨h.toKept.adopt head hread hkeeps hsuffix, hverify⟩, rfl⟩

theorem Coherent.ends_reopen (author : SK) :
    Ends (reopen c st w author) core
      (fun _ core' => Coherent c st w log core' ∧ core'.author = author)
      fun _ _ => True := by
  unfold reopen
  refine Ends.andThen (ends_persist hst core) (fun _ _ _ => trivial)
    fun _ core₁ h₁ => ?_
  obtain ⟨s, rfl, htouch, hpersisted⟩ := h₁
  apply Ends.get
  refine Ends.look (fun _ _ => trivial) fun opened hopen => Ends.set ?_
  rw [hpersisted.openFrom] at hopen
  obtain ⟨rfl, hcheck⟩ := checked_ok hopen
  have hkept := h.toKept.store (s := s) fun i _ _ => htouch.getBlock i
  exact ⟨⟨⟨hkept.built, hkept.present, hkept.stored, hkept.fork_eq, hkept.prologue_eq⟩,
    verifyHead_of_checkHead hcheck⟩, rfl⟩

end Calls

/-! ### Runs -/

end Hypercore

/-- One call on a log. `reopen` stands for a `persist`, and an `open` of the store it wrote. -/
inductive CoreOp (T H Sig SK S : Type) where
  | append (value : T)
  | appendAll (values : List T)
  | commit (batch : Batch)
  | truncate (newLen : ℕ)
  | clear (start end_ : ℕ)
  | sweep (keep : ℕ → Bool)
  | setUserData (key value : List UInt8)
  | copyPrologue (source : Hypercore H Sig SK S)
  | recoverSignedSuffix (head : SignedHead H Sig) (suffix : List Block)
  | purge
  | reopen (author : SK)

namespace CoreOp

variable {K H Sig SK S E T : Type} [DecidableEq H]
variable (c : Crypto K H Sig SK) (st : Store S E) (w : Wire H Sig) (codec : Codec T)

/-- The call on the log, its answer left out. -/
def run : CoreOp T H Sig SK S → EStateM (CoreError (LayoutError E)) (Hypercore H Sig SK S) Unit
  | append value => do let _ ← Hypercore.append c (Hypercore.backend w st) codec value
  | appendAll values => do let _ ← Hypercore.appendAll c st w codec values
  | commit batch => do let _ ← Hypercore.commit c st w batch
  | truncate newLen => do let _ ← Hypercore.truncate c newLen
  | clear start end_ => do let _ ← Hypercore.clear st start end_
  | sweep keep => do let _ ← Hypercore.sweep st keep
  | setUserData key value => Hypercore.setUserData st key value
  | copyPrologue source => do let _ ← Hypercore.copyPrologue c st w source
  | recoverSignedSuffix head suffix => Hypercore.recoverSignedSuffix c (Hypercore.backend w st) head suffix
  | purge => Hypercore.purge st
  | reopen author => Hypercore.reopen c st w author

/-- What the call does to the log when it succeeds. -/
def effect (log : Log H) : CoreOp T H Sig SK S → Log H
  | append value => log.write [codec.encode value]
  | appendAll values => log.write (values.map codec.encode)
  | commit batch => log.commit batch
  | truncate newLen => log.truncate newLen
  | clear start end_ => log.drop fun i => start ≤ i && i < end_
  | sweep keep => log.drop fun i => !keep i
  | copyPrologue source =>
    log.write (Hypercore.readable st w source ((log.prologue.map (·.length)).getD 0))
  | recoverSignedSuffix _ suffix => log.write suffix
  | purge => .fresh none
  | setUserData _ _ => log
  | reopen _ => log

/-- One call after another, up to the first that fails. -/
def runAll : List (CoreOp T H Sig SK S) →
    EStateM (CoreError (LayoutError E)) (Hypercore H Sig SK S) Unit
  | [] => pure ()
  | op :: rest => do
    op.run c st w codec
    runAll rest

end CoreOp

namespace Hypercore

variable {K H Sig SK S E T : Type} [DecidableEq H]
variable {c : Crypto K H Sig SK} {st : Store S E} {w : Wire H Sig} {codec : Codec T}
variable {log : Log H} {core core' : Hypercore H Sig SK S}

omit [DecidableEq H] in
/-- A command whose answer is dropped ends as the command does. -/
theorem ends_drop {α ε : Type} {x : EStateM ε (Hypercore H Sig SK S) α}
    {P : Hypercore H Sig SK S → Prop} {Q : α → Hypercore H Sig SK S → Prop}
    {F : ε → Hypercore H Sig SK S → Prop} (h : Ends x core Q F) (hQ : ∀ a core', Q a core' → P core') :
    Ends (do let _ ← x) core (fun _ core' => P core') fun _ _ => True :=
  h.drop.mono (fun _ core' ⟨a, ha⟩ => hQ a core' ha) fun _ _ _ => trivial

/-- One call. -/
theorem Coherent.ends_op (hst : st.Lawful) (h : Coherent c st w log core)
    (op : CoreOp T H Sig SK S) :
    Ends (op.run c st w codec) core (fun _ core' => Coherent c st w (op.effect st w codec log) core')
      fun _ _ => True := by
  cases op with
  | append value => exact ends_drop (h.ends_append codec hst value) fun _ _ h => h.2.1
  | appendAll values => exact ends_drop (h.ends_appendAll codec hst values) fun _ _ h => h.1
  | commit batch => exact ends_drop (h.ends_commit hst batch) fun _ _ h => h.1
  | truncate newLen => exact ends_drop (h.ends_truncate newLen) fun _ _ h => h.1
  | clear start end_ => exact ends_drop (h.ends_clear hst start end_) fun _ _ h => h.1
  | sweep keep => exact ends_drop (h.ends_sweep hst keep) fun _ _ h => h.1
  | setUserData key value =>
    exact (h.ends_setUserData hst key value).mono (fun _ _ h => h.1) fun _ _ _ => trivial
  | copyPrologue source =>
    refine ends_drop (h.ends_copyPrologue hst source) fun n _ h => ?_
    obtain ⟨pr, hpro, rfl, -, -, -, hcoh, -⟩ := h
    rw [CoreOp.effect, hpro, Option.map_some, Option.getD_some]
    exact hcoh
  | recoverSignedSuffix head suffix =>
    exact (h.ends_recover hst head suffix).mono (fun _ _ h => h.1) fun _ _ _ => trivial
  | purge => exact (ends_purge hst core).mono (fun _ _ h => h.1) fun _ _ _ => trivial
  | reopen author => exact (h.ends_reopen hst author).mono (fun _ _ h => h.1) fun _ _ _ => trivial

/-- A run. -/
theorem Coherent.runAll (hst : st.Lawful) : ∀ (ops : List (CoreOp T H Sig SK S)) {log : Log H}
    {core core' : Hypercore H Sig SK S}, Coherent c st w log core →
    CoreOp.runAll c st w codec ops core = .ok () core' →
    Coherent c st w (ops.foldl (CoreOp.effect st w codec) log) core'
  | [], log, core, core', h, hrun => by
    cases hrun
    exact h
  | op :: rest, log, core, core', h, hrun => by
    obtain ⟨_, core₁, hop, hrest⟩ := bind_eq_ok.mp hrun
    exact Coherent.runAll hst rest ((h.ends_op hst op).ok hop) hrest

/-- A coherent log that is not empty has a head over all of it. -/
theorem Coherent.exists_head (h : Coherent c st w log core) (hpos : 0 < core.len) :
    ∃ head, core.head = some head ∧ head.fork = core.fork ∧ head.length = core.len ∧
      head.root = c.hasher.treeHash (rootsOf c.hasher log.bytes) ∧
      verifySignedHead c (core.publicKey c) head = true := by
  have hverified := h.verified
  unfold verifyHead at hverified
  cases hhead : core.head with
  | none =>
    rw [hhead, beq_iff_eq] at hverified
    exact absurd hverified hpos.ne'
  | some head =>
    rw [hhead, h.built.rootHash] at hverified
    simp only [Bool.and_eq_true, beq_iff_eq, Option.some.injEq] at hverified
    obtain ⟨⟨⟨hfork, hlength⟩, hroot⟩, hsig⟩ := hverified
    exact ⟨head, rfl, hfork, hlength, hroot.symm, hsig⟩

/-- A coherent log proves its blocks against its own head. -/
theorem Coherent.verifyBlock (h : Coherent c st w log core) {i : ℕ} {data : Block}
    (hi : log.read i = some data) : ∃ head proof, core.head = some head ∧
      core.proof i = some proof ∧ verifyBlock c (core.publicKey c) head i data proof = true := by
  have hlt := Log.read_lt hi
  obtain ⟨head, hhead, -, -, hroot, hsig⟩ := h.exists_head (by rw [h.len_eq]; omega)
  obtain ⟨proof, hproof, hblock, hverify⟩ := h.built.proof (Log.getElem?_bytes hi)
  exact ⟨head, proof, hhead, hproof, verifyBlock_iff.mpr ⟨hsig, hblock, hroot ▸ hverify⟩⟩

omit [DecidableEq H] in
/-- Reading a value fails only where its bytes do not decode. -/
theorem Kept.get_ne_corrupt (h : Kept c st w log core) (i : ℕ) :
    core.get (backend w st) codec i ≠ .error .corrupt := by
  rw [Hypercore.get, h.block]
  cases log.read i with
  | none =>
    intro h
    cases h
  | some bytes =>
    dsimp only
    intro h
    cases hdec : codec.decode bytes <;>
      · rw [hdec] at h
        cases h

theorem runAll_coherent (hst : st.Lawful) (author : SK) (store : S) (prologue : Option (Prologue H))
    (ops : List (CoreOp T H Sig SK S))
    (hrun : CoreOp.runAll c st w codec ops { new author store with prologue } = .ok () core)
    (hlog : log = ops.foldl (CoreOp.effect st w codec) (.fresh prologue)) :
    core.verifyHead c = true ∧ core.len = log.blocks.length ∧
      (∀ i, core.block (backend w st) i = .ok (log.read i)) ∧
      (∀ i, core.get (backend w st) codec i ≠ .error .corrupt) ∧
      (∀ i data, log.read i = some data → ∃ head proof, core.head = some head ∧
        core.proof i = some proof ∧ verifyBlock c (core.publicKey c) head i data proof = true) ∧
      core.byteLength = some (byteSize log.bytes) ∧ core.fork = log.truncations := by
  have h := (coherent_new author store prologue).runAll hst ops hrun
  rw [← hlog] at h
  exact ⟨h.verified, h.len_eq, h.toKept.block, h.toKept.get_ne_corrupt,
    fun i data hi => h.verifyBlock hi, h.built.byteLength, h.fork_eq⟩

/-- A log is written, cut, written again, cleared in part and reopened. -/
def rewrittenRun : List (CoreOp Block (BitVec 256) (BitVec 512) Unit (ExtTreeMap ℕ (List UInt8))) :=
  [.append [1], .appendAll [[2, 2], [3]], .truncate 2, .commit ⟨2, [[4], []]⟩, .clear 0 1,
    .setUserData [7] [8], .sweep (· ≠ 2), .reopen ()]

theorem runAll_coherent_rewritten :
    ∃ core, CoreOp.runAll Crypto.sums Store.memory Wire.bits Codec.plain rewrittenRun
        { new () ∅ with prologue := none } = .ok () core ∧
      core.verifyHead Crypto.sums = true ∧
      core.block (backend Wire.bits Store.memory) 1 = .ok (some [2, 2]) ∧
      core.block (backend Wire.bits Store.memory) 2 = .ok none ∧
      core.byteLength = some 4 ∧ core.fork = 1 := by
  have hreturned : returned (CoreOp.runAll Crypto.sums Store.memory Wire.bits Codec.plain rewrittenRun
      { new () ∅ with prologue := none }) = true := by decide +kernel
  obtain ⟨_, core, hrun⟩ := exists_of_returned hreturned
  obtain ⟨hverified, -, hblock, -, -, hbytes, hfork⟩ :=
    runAll_coherent Store.memory_lawful () ∅ none rewrittenRun hrun rfl
  exact ⟨core, hrun, hverified, hblock 1, hblock 2, hbytes, hfork⟩

/-- The set bits of the presence map are the blocks that can be read. -/
theorem Coherent.get_presence (h : Coherent c st w log core) (i : ℕ) :
    (Bitfield.ofSet core.presence).get i = true ↔ ∃ data, core.block (backend w st) i = .ok (some data) := by
  simp only [h.toKept.block, Bitfield.get_ofSet, decide_eq_true_eq, h.present, Except.ok.injEq,
    Option.isSome_iff_exists]

/-- **The contiguous length counts the blocks that can be read from the first one on**, in every
log that a run of operations leads to. -/
theorem le_contiguousLength_iff (hst : st.Lawful) (author : SK) (store : S) (prologue : Option (Prologue H))
    (ops : List (CoreOp T H Sig SK S))
    (hrun : CoreOp.runAll c st w codec ops { new author store with prologue } = .ok () core) (n : ℕ) :
    n ≤ core.contiguousLength ↔
      n ≤ core.len ∧ ∀ i < n, ∃ data, core.block (backend w st) i = .ok (some data) := by
  have h := (coherent_new author store prologue).runAll hst ops hrun
  obtain ⟨k, hk, -, hunset, hset⟩ := Bitfield.firstUnset_spec (Bitfield.ofSet core.presence) 0
  rw [contiguousLength, hk, Option.getD_some, Nat.le_min, and_comm]
  simp only [← h.get_presence]
  refine and_congr_right fun _ => ⟨fun hn i hi => hset i (Nat.zero_le i) (hi.trans_le hn), fun hall => ?_⟩
  by_contra hlt
  exact absurd (hall k (Nat.lt_of_not_le hlt)) (by rw [hunset]; decide)

/-- Three blocks, of which the last is cut off, written again and cleared. -/
def cutClearedRun : List (CoreOp Block (BitVec 256) (BitVec 512) Unit (ExtTreeMap ℕ (List UInt8))) :=
  [.appendAll [[1], [2], [3]], .truncate 2, .append [4], .clear 2 3]

theorem le_contiguousLength_cleared :
    ∃ core, CoreOp.runAll Crypto.sums Store.memory Wire.bits Codec.plain cutClearedRun
        { new () ∅ with prologue := none } = .ok () core ∧ core.len = 3 ∧ core.contiguousLength = 2 := by
  have hreturned : returned (CoreOp.runAll Crypto.sums Store.memory Wire.bits Codec.plain cutClearedRun
      { new () ∅ with prologue := none }) = true := by decide +kernel
  obtain ⟨_, core, hrun⟩ := exists_of_returned hreturned
  have h := (coherent_new () ∅ none).runAll Store.memory_lawful _ hrun
  have hlen : core.len = 3 := h.len_eq
  have hcount := le_contiguousLength_iff Store.memory_lawful () ∅ none cutClearedRun hrun
  refine ⟨core, hrun, hlen, Nat.le_antisymm ?_ ((hcount 2).mpr ⟨by omega, fun i hi => ?_⟩)⟩
  · by_contra hlt
    obtain ⟨data, hdata⟩ := ((hcount 3).mp (by omega)).2 2 (by decide)
    rw [h.toKept.block] at hdata
    cases hdata
  · rw [h.toKept.block]
    interval_cases i <;> exact ⟨_, rfl⟩

end Hypercore
end HypercoreRs
