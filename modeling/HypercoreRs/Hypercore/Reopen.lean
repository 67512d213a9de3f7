/-
# Persisting and reopening

A log is written to its store as three values, one after the other, and opened again
from them if its head checks against its tree. `Coherent.openFrom` and
`Intact.openFrom` are the way there and back: what was persisted is reopened as it was.
-/
import HypercoreRs.Hypercore.Coherent
import HypercoreRs.Hypercore.Reorg

namespace HypercoreRs

open Std Merkle Command Storage

variable {K H Sig SK S E T : Type} {st : Store S E} {w : Wire H Sig}

/-! ### What was written fits -/

/-- Values that were written have a layout. -/
theorem Backend.written_of_putAll {metadata : Layout (Metadata H Sig)} :
    ∀ {l : List (Σ k : StoreKey, k.Value H Sig)} {s s' : S},
    (ofStore w st metadata).putAll l s = .ok () s' →
    ∀ p ∈ l, ∃ bytes, (p.1.layout w metadata).write p.2 = some bytes
  | ⟨k, v⟩ :: rest, s, s', h, p, hp => by
    obtain ⟨_, s₁, hput, hrest⟩ := bind_eq_ok.mp h
    rcases List.mem_cons.mp hp with rfl | hp
    · obtain ⟨n, bytes, -, hbytes, -⟩ := ofStore_put_ok hput
      exact ⟨bytes, hbytes⟩
    · exact written_of_putAll hrest p hp

/-- A tree that was written is below the bound of its flat indices. -/
theorem MerkleTree.rootHash64_of_write {hs : Hasher H} {T : MerkleTree H} {bytes : List UInt8}
    (h : (MerkleTree.layout w.hash).write T = some bytes) : T.rootHash64 hs = T.rootHash hs := by
  have hfits : T.fits = true := Layout.fits_of_write h
  rw [MerkleTree.fits, Bool.and_eq_true, Bool.and_eq_true, decide_eq_true_eq] at hfits
  exact if_pos hfits.1.1

variable [DecidableEq H] {c : Crypto K H Sig SK} {codec : Codec T}

namespace Hypercore

variable {log : Log H} {core core₁ : Hypercore H Sig SK S}

/-- The three values a log is persisted as, in the order they are written. -/
def parts (core : Hypercore H Sig SK S) : List (Σ k : StoreKey, k.Value H Sig) :=
  [⟨.tree, core.tree⟩, ⟨.presence, core.presence⟩,
    ⟨.metadata, .core core.fork core.head core.prologue⟩]

omit [DecidableEq H] in
theorem persist_eq (b : Backend S E H Sig) (core : Hypercore H Sig SK S) :
    persist b core = write b core.parts core := rfl

omit [DecidableEq H] in
/-- Persisting wrote the tree. -/
theorem tree_written (h : persist (backend w st) core = .ok () core₁) :
    ∃ bytes, (MerkleTree.layout w.hash).write core.tree = some bytes := by
  rw [persist_eq] at h
  obtain ⟨s, hput, -⟩ := zoom_eq_ok.mp h
  exact Backend.written_of_putAll hput ⟨.tree, core.tree⟩ List.mem_cons_self

/-- The head of a coherent log whose tree fits passes the check on opening. -/
theorem Coherent.checkHead (h : Coherent c st w log core)
    (hfits : core.tree.rootHash64 c.hasher = core.tree.rootHash c.hasher) :
    core.checkHead c = some true := by
  have hverified := h.verified
  unfold verifyHead at hverified
  unfold Hypercore.checkHead
  rw [hfits]
  cases hhead : core.head with
  | none =>
    rw [hhead] at hverified
    exact congrArg some hverified
  | some head =>
    rw [hhead, h.built.rootHash] at hverified
    simp only [Bool.and_eq_true, beq_iff_eq, Option.some.injEq] at hverified
    obtain ⟨⟨⟨hfork, hlength⟩, hroot⟩, hsig⟩ := hverified
    dsimp only
    rw [if_pos ⟨hfork, hlength⟩, h.built.rootHash, Option.map_some, hroot, hsig, beq_self_eq_true]
    rfl

/-- What was persisted is reopened as it was. -/
theorem Coherent.openFrom (hst : st.Lawful) (h : Coherent c st w log core)
    (hpersist : persist (backend w st) core = .ok () core₁) :
    Hypercore.openFrom w c st core.author core₁.store = .ok core₁ ∧
      ∃ s, core₁ = { core with store := s } ∧
        Touches st [.tree, .presence, .metadata] core.store s := by
  obtain ⟨s, rfl, htouch, hpersisted⟩ := (ends_persist hst core).ok hpersist
  have hfits : core.tree.rootHash64 c.hasher = core.tree.rootHash c.hasher := by
    obtain ⟨bytes, hbytes⟩ := tree_written hpersist
    exact MerkleTree.rootHash64_of_write hbytes
  refine ⟨?_, s, rfl, htouch⟩
  have hcoh : Coherent c st w log { core with store := s } := h.store fun i _ _ => htouch.getBlock i
  rw [hpersisted.openFrom]
  unfold checked
  rw [hcoh.checkHead hfits]

omit [DecidableEq H] in
theorem getUserData_store {s : S} (htouch : Touches st [.tree, .presence, .metadata] core.store s)
    (key : List UInt8) :
    ({ core with store := s } : Hypercore H Sig SK S).getUserData st key = core.getUserData st key := by
  have hbytes : st.get s KEY_USERDATA = st.get core.store KEY_USERDATA := by
    apply htouch
    simp [StoreKey.number, KEY_USERDATA, KEY_TREE, KEY_PRESENCE, KEY_META]
  unfold getUserData loadUserData storedBytes
  rw [hbytes]

end Hypercore

namespace Replica

variable {A : List Block} {r r₁ : Replica K H Sig S} {publicKey : K}

/-- A replica whose parts are read is reopened from them, if its head checks. -/
theorem openFrom_of_get {store : S} {head : Option (SignedHead H Sig)} {tree : MerkleTree H}
    (htree : (backend w st).get store .tree = .ok (some tree))
    (hmeta : (backend w st).get store .metadata = .ok (some (.replica head))) :
    openFrom w c st publicKey store = checked c { publicKey, store, tree := atHead tree head, head } := by
  obtain ⟨t, ht, htread⟩ := Backend.bytes_of_get htree rfl
  obtain ⟨m, hm, hmread⟩ := Backend.bytes_of_get hmeta rfl
  obtain ⟨_, hdecode, hreplica⟩ := Option.map_eq_some_iff.mp hmread
  obtain rfl := Metadata.replica.inj hreplica
  have hdeserialize : MerkleTree.deserialize w.hash t = some tree := htread
  unfold openFrom storedBytes
  rw [hm, ht]
  dsimp only [bind, Except.bind]
  rw [hdeserialize, hdecode]

/-- The head of an intact replica that is not behind its blocks checks against them. -/
theorem Intact.checkHead (h : Intact c (backend w st) A r)
    (hfits : r.tree.rootHash64 c.hasher = r.tree.rootHash c.hasher)
    (hahead : ∀ head, r.head = some head → r.len ≤ head.length) : r.checkHead c = some true := by
  unfold Replica.checkHead
  rw [hfits]
  cases hhead : r.head with
  | none => rfl
  | some head =>
    obtain ⟨hle, hroot, hsig⟩ := h.vouched head hhead
    have hlen : r.tree.length = head.length :=
      Nat.le_antisymm (hahead head hhead) (h.built.length_eq ▸ hle)
    have hall : head.length = A.length := hlen.symm.trans h.built.length_eq
    dsimp only
    rw [if_pos ⟨hsig, hlen⟩, h.built.rootHash, Option.map_some, hroot, hall, List.take_length,
      beq_self_eq_true]

/-- What was persisted is reopened as it was, if the blocks do not run ahead of the
verified head. -/
theorem Intact.openFrom (hst : st.Lawful) (h : Intact c (backend w st) A r)
    (hpersist : persist (backend w st) r = .ok () r₁)
    (hahead : ∀ head, r.head = some head → r.len ≤ head.length) :
    Replica.openFrom w c st r.publicKey r₁.store = .ok r₁ ∧
      ∃ s, r₁ = { r with store := s } ∧ (backend w st).Keeps r.len r.store s := by
  have hlawful : (backend w st : Backend S (LayoutError E) H Sig).Lawful := Backend.ofStore_lawful hst
  have hwritten : write (backend w st) [⟨.tree, r.tree⟩, ⟨.metadata, .replica r.head⟩] r = .ok () r₁ :=
    hpersist
  obtain ⟨s, hput, rfl⟩ := zoom_eq_ok.mp hwritten
  obtain ⟨bytes, hbytes⟩ := Backend.written_of_putAll hput ⟨.tree, r.tree⟩ List.mem_cons_self
  obtain ⟨hframe, hget⟩ := (hlawful.putAll _ r.store).ok hput
  have hget := hget (by simp)
  have hkeeps : (backend w st).Keeps r.len r.store s := fun i _ => hframe _ (by simp)
  have hat : atHead r.tree r.head = r.tree := by
    unfold atHead
    cases hhead : r.head with
    | none => rfl
    | some head => exact if_neg (Nat.not_lt.mpr (hahead head hhead))
  have hcheck := Intact.checkHead (r := { r with store := s })
    ⟨h.toStored.store hkeeps, h.vouched⟩ (MerkleTree.rootHash64_of_write hbytes) hahead
  refine ⟨?_, s, rfl, hkeeps⟩
  rw [openFrom_of_get (hget ⟨.tree, r.tree⟩ (by simp)) (hget ⟨.metadata, .replica r.head⟩ (by simp)), hat]
  unfold checked
  rw [hcheck]

theorem checked_ok {r r' : Replica K H Sig S}
    (h : (checked c r : Except (CoreError (LayoutError E)) _) = .ok r') :
    r' = r ∧ r.checkHead c = some true := by
  unfold checked at h
  split at h
  · cases h
  · cases h
  · next hcheck => exact ⟨(Except.ok.inj h).symm, hcheck⟩

/-- The check passes if the head verifies and the flat index of the end does not overflow. -/
theorem checkHead_iff : r.checkHead c = some true ↔
    r.verifyHead c = true ∧ (r.head.isSome = true → r.len * 2 < 2 ^ 64) := by
  unfold checkHead verifyHead MerkleTree.rootHash64 len
  cases hhead : r.head with
  | none => simp
  | some head =>
    simp only [Bool.and_eq_true, beq_iff_eq, Option.isSome_some, forall_const]
    split_ifs with heq hlt
    · simp only [heq, true_and, and_iff_left (heq.2 ▸ hlt)]
      simp
    · exact iff_of_false (fun h => by cases h) fun h => hlt h.2
    · exact iff_of_false (fun h => by cases h) fun h => heq h.1.1

/-- What opens was read from the two keys, and its head checks. -/
theorem openFrom_ok {store : S} (h : openFrom w c st publicKey store = .ok r) :
    ∃ tree head, (backend w st).get store .tree = .ok (some tree) ∧
      (backend w st).get store .metadata = .ok (some (.replica head)) ∧
      r = { publicKey, store, tree := atHead tree head, head } ∧ r.checkHead c = some true := by
  unfold openFrom storedBytes at h
  cases htree : st.get store KEY_TREE with
  | error e =>
    rw [htree] at h
    cases h
  | ok tree? =>
    cases hmeta : st.get store KEY_META with
    | error e =>
      rw [htree, hmeta] at h
      cases h
    | ok meta? =>
      rw [htree, hmeta] at h
      dsimp only [bind, Except.bind] at h
      split at h
      · split at h
        · next tree head hdeserialize hdecode =>
          obtain ⟨rfl, hcheck⟩ := checked_ok h
          refine ⟨tree, head, ?_, ?_, rfl, hcheck⟩
          · exact Backend.ofStore_get_eq_some.mpr ⟨_, _, rfl, htree, hdeserialize⟩
          · refine Backend.ofStore_get_eq_some.mpr ⟨_, _, rfl, hmeta, ?_⟩
            exact Option.map_eq_some_iff.mpr ⟨head, hdecode, rfl⟩
        · cases h
      · cases h

/-- A replica is reopened from its bytes as it is from the values they are read as, unless the
flat index of its end overflows. -/
theorem openFrom_iff_openReplica {store : S} : openFrom w c st publicKey store = .ok r ↔
    openReplica c (backend w st) publicKey store = .ok r ∧ (r.head.isSome = true → r.len * 2 < 2 ^ 64) := by
  constructor
  · intro h
    obtain ⟨tree, head, htree, hmeta, hr, hcheck⟩ := openFrom_ok h
    obtain ⟨hverify, hfits⟩ := checkHead_iff.mp hcheck
    exact ⟨openReplica_eq_ok.mpr ⟨tree, _, head, htree, hmeta, rfl, hr, hverify⟩, hfits⟩
  · rintro ⟨hopen, hfits⟩
    obtain ⟨tree, m, head, htree, hmeta, hhead, rfl, hverify⟩ := openReplica_eq_ok.mp hopen
    -- these bytes are read as the metadata of a replica
    obtain ⟨bytes, -, hread⟩ := Backend.bytes_of_get hmeta rfl
    obtain ⟨head', -, rfl⟩ := Option.map_eq_some_iff.mp hread
    obtain rfl := Option.some.inj hhead
    rw [openFrom_of_get htree hmeta, checked, checkHead_iff.mpr ⟨hverify, hfits⟩]

end Replica

/-! ### The way there and back -/

/-- Persisting and opening again gives back the log, and the replica if its blocks do not
run ahead of its verified head. -/
theorem persist_open (codec : Codec T) (hst : st.Lawful) :
    (∀ (author : SK) (store : S) (prologue : Option (Prologue H)) (ops : List (CoreOp T H Sig SK S))
      (core core₁ : Hypercore H Sig SK S),
      CoreOp.runAll c st w codec ops { Hypercore.new author store with prologue } = .ok () core →
      Hypercore.persist (Hypercore.backend w st) core = .ok () core₁ →
      ∃ core₂, Hypercore.openFrom w c st core.author core₁.store = .ok core₂ ∧
        core₂.len = core.len ∧ core₂.fork = core.fork ∧ core₂.head = core.head ∧
        core₂.prologue = core.prologue ∧ core₂.tree = core.tree ∧
        (∀ key, core₂.getUserData st key = core.getUserData st key) ∧
        (∀ i, core₂.has i = core.has i ∧
          core₂.block (Hypercore.backend w st) i = core.block (Hypercore.backend w st) i ∧
          core₂.get (Hypercore.backend w st) codec i = core.get (Hypercore.backend w st) codec i ∧
          core₂.proof i = core.proof i) ∧
        core₂.contiguousLength = core.contiguousLength) ∧
    (∀ (publicKey : K) (r r₁ : Replica K H Sig S), Replica.Reached c (Replica.backend w st) publicKey r →
      (∀ head, r.head = some head → r.len ≤ head.length) →
      Replica.persist (Replica.backend w st) r = .ok () r₁ →
      ∃ r₂, Replica.openFrom w c st publicKey r₁.store = .ok r₂ ∧
        r₂.len = r.len ∧ r₂.verifiedHead = r.verifiedHead ∧ r₂.tree = r.tree ∧
        ∀ i, r₂.block (Replica.backend w st) i = r.block (Replica.backend w st) i ∧
          r₂.get (Replica.backend w st) codec i = r.get (Replica.backend w st) codec i ∧
          r₂.proof i = r.proof i) := by
  constructor
  · intro author store prologue ops core core₁ hrun hpersist
    have hcoh := (Hypercore.coherent_new author store prologue).runAll hst ops hrun
    obtain ⟨hopen, s, rfl, htouch⟩ := hcoh.openFrom hst hpersist
    have hblock : ∀ i, ({ core with store := s } : Hypercore H Sig SK S).block (Hypercore.backend w st) i =
        core.block (Hypercore.backend w st) i :=
      Hypercore.block_store fun i _ => htouch.getBlock i
    refine ⟨_, hopen, rfl, rfl, rfl, rfl, rfl, Hypercore.getUserData_store htouch, fun i => ?_, rfl⟩
    refine ⟨rfl, hblock i, ?_, rfl⟩
    rw [Hypercore.get, Hypercore.get, hblock i]
  · intro publicKey r r₁ hr hahead hpersist
    obtain ⟨⟨A, hA⟩, hkey⟩ := hr.intact (Backend.ofStore_lawful hst)
    obtain ⟨hopen, s, rfl, hkeeps⟩ := hA.openFrom hst hpersist hahead
    rw [hkey] at hopen
    exact ⟨_, hopen, rfl, rfl, rfl, fun i =>
      ⟨Replica.block_store hkeeps i, Replica.get_store hkeeps i, rfl⟩⟩

/-- A replica in memory that was fed one block, under the head its author signed over it. -/
def Replica.fedOne (proof : Merkle.Proof (BitVec 256)) :
    Replica Unit (BitVec 256) (BitVec 512) (ExtTreeMap ℕ (List UInt8)) :=
  let root := Crypto.sums.hasher.treeHash (rootsOf Crypto.sums.hasher [[1]])
  after (addBlock Crypto.sums (backend Wire.bits Store.memory)
    ⟨0, 1, root, Crypto.sums.sign () ⟨0, 1, root⟩⟩ 0 [1] proof) (new () ∅)

/-- A log is written, cut, written again and cleared in part. -/
def Hypercore.clearedRun :
    List (CoreOp Block (BitVec 256) (BitVec 512) Unit (ExtTreeMap ℕ (List UInt8))) :=
  [.append [1], .append [2, 2], .truncate 1, .append [3], .setUserData [7] [8], .clear 0 1]

/-- And persisted. -/
def Hypercore.clearedPersisted : EStateM (CoreError (LayoutError Empty))
    (Hypercore (BitVec 256) (BitVec 512) Unit (ExtTreeMap ℕ (List UInt8))) Unit := do
  CoreOp.runAll Crypto.sums Store.memory Wire.bits Codec.plain clearedRun
  persist (backend Wire.bits Store.memory)

theorem persist_open_cleared :
    (∃ core core₁ core₂, CoreOp.runAll Crypto.sums Store.memory Wire.bits Codec.plain
        Hypercore.clearedRun { Hypercore.new () ∅ with prologue := none } = .ok () core ∧
      Hypercore.persist (Hypercore.backend Wire.bits Store.memory) core = .ok () core₁ ∧
      Hypercore.openFrom Wire.bits Crypto.sums Store.memory core.author core₁.store = .ok core₂ ∧
      core₂.len = core.len ∧ core₂.tree = core.tree) ∧
    ∃ proof r₁ r₂, Replica.persist (Replica.backend Wire.bits Store.memory) (Replica.fedOne proof) =
        .ok () r₁ ∧
      Replica.openFrom Wire.bits Crypto.sums Store.memory () r₁.store = .ok r₂ ∧
      r₂.len = (Replica.fedOne proof).len ∧ r₂.verifiedHead = (Replica.fedOne proof).verifiedHead := by
  have hwritten : returned (Hypercore.clearedPersisted { Hypercore.new () ∅ with prologue := none }) =
      true := by decide +kernel
  have hfed : ((MerkleTree.ofBlocks Crypto.sums.hasher [[1]]).proof 0).map (fun proof =>
      returned (Replica.persist (Replica.backend Wire.bits Store.memory) (Replica.fedOne proof)) &&
      (Replica.fedOne proof).head.all ((Replica.fedOne proof).len ≤ ·.length)) = some true := by
    decide +kernel
  obtain ⟨_, core₁, hall⟩ := exists_of_returned hwritten
  obtain ⟨_, core, hrun, hpersist⟩ := bind_eq_ok.mp hall
  obtain ⟨proof, -, hproof⟩ := Option.map_eq_some_iff.mp hfed
  obtain ⟨hreturned, hahead⟩ := Bool.and_eq_true_iff.mp hproof
  obtain ⟨_, r₁, hreplica⟩ := exists_of_returned hreturned
  have hsame := persist_open (c := Crypto.sums) (w := Wire.bits) Codec.plain Store.memory_lawful
  obtain ⟨core₂, hopen, hlen, -, -, -, htree, -⟩ :=
    (hsame.1 () ∅ none Hypercore.clearedRun core core₁ hrun hpersist)
  obtain ⟨r₂, hopen₂, hlen₂, hhead₂, -⟩ := hsame.2 () (Replica.fedOne proof) r₁
    (.addBlock _ _ _ _ (.new _))
    (fun head hhead => of_decide_eq_true ((Option.all_eq_true _ _).mp hahead head hhead)) hreplica
  exact ⟨⟨core, core₁, core₂, hrun, hpersist, hopen, hlen, htree⟩,
    proof, r₁, r₂, hreplica, hopen₂, hlen₂, hhead₂⟩

/-! ### A persist that is cut -/

/-- An append or a commit. -/
def CoreOp.IsAppend : CoreOp T H Sig SK S → Prop
  | .append _ => True
  | .appendAll _ => True
  | .commit _ => True
  | _ => False

namespace Hypercore

variable {log : Log H} {core core₁ core₂ : Hypercore H Sig SK S}

variable (st w) in
/-- The first `k` writes of a persist. -/
def persistFirst (k : ℕ) : EStateM (CoreError (LayoutError E)) (Hypercore H Sig SK S) Unit := do
  let core ← MonadState.get
  write (backend w st) (core.parts.take k)

variable (st w) in
/-- The two logs have the same length, head and blocks. -/
def SameLog (core core' : Hypercore H Sig SK S) : Prop :=
  core'.len = core.len ∧ core'.head = core.head ∧
    ∀ i, core'.block (backend w st) i = core.block (backend w st) i

variable (st w c) in
/-- A persist of `core` cut after any of its writes opens as `old` or as `core`. -/
def CutSafe (old core : Hypercore H Sig SK S) : Prop :=
  ∀ k core', persistFirst st w k core = .ok () core' →
    ∃ opened, openFrom w c st core.author core'.store = .ok opened ∧
      (SameLog st w old opened ∨ SameLog st w core opened)

variable (st) in
/-- `core'` is `core` with blocks appended, or with nothing changed but what its store
holds past its end. -/
structure Grown (core core' : Hypercore H Sig SK S) : Prop where
  above : st.Above core.len core.store core'.store
  author_eq : core'.author = core.author
  same_or_longer : core' = { core with store := core'.store } ∨ core.len < core'.len

omit [DecidableEq H] in
theorem Grown.refl (core : Hypercore H Sig SK S) : Grown st core core := ⟨fun _ _ => rfl, rfl, Or.inl rfl⟩

omit [DecidableEq H] in
theorem Grown.len_le (h : Grown st core core₁) : core.len ≤ core₁.len := by
  rcases h.same_or_longer with hsame | hlt
  · rw [hsame]
    exact Nat.le_refl core.tree.length
  · exact hlt.le

omit [DecidableEq H] in
theorem Grown.trans (h₁ : Grown st core core₁) (h₂ : Grown st core₁ core₂) : Grown st core core₂ where
  above := above_trans h₁.above h₂.above h₁.len_le
  author_eq := h₂.author_eq.trans h₁.author_eq
  same_or_longer := by
    rcases h₁.same_or_longer with hsame | hlt
    · rcases h₂.same_or_longer with hsame' | hlt'
      · refine Or.inl ?_
        rw [hsame', hsame]
      · rw [hsame] at hlt'
        exact Or.inr hlt'
    · exact Or.inr (hlt.trans_le h₂.len_le)

omit [DecidableEq H] in
/-- Blocks written past the end leave what was persisted. -/
theorem Persisted.above {s s' : S} {lo : ℕ} (h : Persisted st w core s) (hs : st.Above lo s s') :
    Persisted st w core s' := by
  have hget : ∀ k : StoreKey, (∀ i, k ≠ .block i) →
      (backend w st : Backend S (LayoutError E) H Sig).get s' k = (backend w st).get s k := by
    intro k hk
    apply Backend.ofStore_get_congr
    intro n hn
    refine hs n (Or.inr ?_)
    cases k with
    | block i => exact absurd rfl (hk i)
    | tree | presence | metadata =>
      rw [← Option.some.inj hn]
      decide
  refine ⟨?_, ?_, ?_⟩
  · rw [hget .tree nofun]
    exact h.tree
  · rw [hget .presence nofun]
    exact h.presence
  · rw [hget .metadata nofun]
    exact h.metadata

/-- An append or a commit, failed or not. -/
theorem Coherent.after_append (hst : st.Lawful) (h : Coherent c st w log core)
    {op : CoreOp T H Sig SK S} (hop : op.IsAppend) :
    Grown st core (after (op.run c st w codec) core) ∧
      ∃ log' : Log H, Coherent c st w log' (after (op.run c st w codec) core) := by
  have hfail : ∀ core', (∃ s, core' = { core with store := s } ∧ st.Above core.len core.store s) →
      Grown st core core' ∧ ∃ log' : Log H, Coherent c st w log' core' := by
    intro core' hstore
    obtain ⟨s, rfl, hs⟩ := hstore
    exact ⟨⟨hs, rfl, Or.inl rfl⟩, log, h.above hs⟩
  have hmore : ∀ {core'}, (core' = core ∨ core.len < core'.len) →
      (core' = { core with store := core'.store } ∨ core.len < core'.len) := by
    intro core' hcases
    refine hcases.imp_left fun hsame => ?_
    rw [hsame]
  cases op with
  | append value =>
    refine (h.ends_append codec hst value).drop.always (fun _ core' h' => ?_) fun _ => hfail
    obtain ⟨i, -, hcoh, habove, hauthor⟩ := h'
    refine ⟨⟨habove, hauthor, Or.inr ?_⟩, _, hcoh⟩
    rw [hcoh.len_eq, h.len_eq, Log.length_write]
    exact Nat.lt_succ_self _
  | appendAll values =>
    refine (h.ends_appendAll codec hst values).drop.always (fun _ core' h' => ?_) fun _ => hfail
    obtain ⟨n, hcoh, habove, hauthor, hcases⟩ := h'
    exact ⟨⟨habove, hauthor, hmore hcases⟩, _, hcoh⟩
  | commit batch =>
    refine (h.ends_commit hst batch).drop.always (fun _ core' h' => ?_) fun _ => hfail
    obtain ⟨ok, hcoh, habove, hauthor, hcases⟩ := h'
    exact ⟨⟨habove, hauthor, hmore hcases⟩, _, hcoh⟩
  | truncate _ | clear _ _ | sweep _ | setUserData _ _ | copyPrologue _ | recoverSignedSuffix _ _
  | purge | reopen _ => exact hop.elim

theorem Coherent.after_appends (hst : st.Lawful) : ∀ {ops : List (CoreOp T H Sig SK S)} {log : Log H}
    {core : Hypercore H Sig SK S}, Coherent c st w log core → (∀ op ∈ ops, op.IsAppend) →
    Grown st core (ops.foldl (fun core op => after (op.run c st w codec) core) core) ∧
      ∃ log' : Log H, Coherent c st w log'
        (ops.foldl (fun core op => after (op.run c st w codec) core) core)
  | [], log, core, h, _ => ⟨.refl core, log, h⟩
  | op :: rest, log, core, h, hops => by
    rw [List.foldl_cons]
    have hstep : Grown st core (after (op.run c st w codec) core) ∧ _ :=
      h.after_append hst (hops op List.mem_cons_self)
    obtain ⟨hgrown, log', h'⟩ := hstep
    obtain ⟨hgrown', hcoh⟩ :=
      Coherent.after_appends hst h' fun op' hop' => hops op' (List.mem_cons_of_mem op hop')
    exact ⟨hgrown.trans hgrown', hcoh⟩

omit [DecidableEq H] in
theorem persistFirst_eq (k : ℕ) (core : Hypercore H Sig SK S) :
    persistFirst st w k core = write (backend w st) (core.parts.take k) core := rfl

omit [DecidableEq H] in
/-- A persist that succeeds wrote the tree first. -/
theorem persistFirst_one (h : persist (backend w st) core = .ok () core₁) :
    ∃ core', persistFirst st w 1 core = .ok () core' := by
  rw [persist_eq] at h
  obtain ⟨s, hput, -⟩ := zoom_eq_ok.mp h
  obtain ⟨_, s₁, hfirst, -⟩ := bind_eq_ok.mp hput
  rw [persistFirst_eq]
  refine ⟨{ core with store := s₁ }, zoom_eq_ok.mpr ⟨s₁, ?_, rfl⟩⟩
  exact bind_eq_ok.mpr ⟨(), s₁, hfirst, rfl⟩

omit [DecidableEq H] in
/-- What a cut persist leaves: the values it wrote, and the rest as it was. -/
theorem persistFirst_ok (hst : st.Lawful) {k : ℕ} (h : persistFirst st w k core = .ok () core₁) :
    ∃ s, core₁ = { core with store := s } ∧ Touches st [.tree, .presence, .metadata] core.store s ∧
      (∀ p ∈ core.parts.take k, (backend w st).get s p.1 = .ok (some p.2)) ∧
      ∀ key, (∀ p ∈ core.parts.take k, p.1 ≠ key) →
        (backend w st).get s key = (backend w st : Backend S (LayoutError E) H Sig).get core.store key := by
  rw [persistFirst_eq] at h
  obtain ⟨s, hput, hs⟩ := zoom_eq_ok.mp h
  obtain ⟨hframe, hget⟩ := ((Backend.ofStore_lawful hst).putAll _ core.store).ok hput
  have htouch := (ends_putAll hst _ core.store).ok hput
  have hnodup : (core.parts.map (·.1)).Nodup := by simp [parts]
  refine ⟨s, hs, fun n hn => htouch n fun key hkey => hn key ?_, hget ?_, hframe⟩
  · obtain ⟨p, hp, rfl⟩ := List.mem_map.mp hkey
    have : p.1 ∈ core.parts.map (·.1) := List.mem_map_of_mem (List.mem_of_mem_take hp)
    exact this
  · rw [List.map_take]
    exact hnodup.sublist (List.take_sublist _ _)

omit [DecidableEq H] in
/-- A persist of what is persisted leaves it persisted, wherever it is cut. -/
theorem Persisted.persistFirst (hst : st.Lawful) {k : ℕ} (h : Persisted st w core core.store)
    (hcut : Hypercore.persistFirst st w k core = .ok () core₁) :
    ∃ s, core₁ = { core with store := s } ∧ Touches st [.tree, .presence, .metadata] core.store s ∧
      Persisted st w core s := by
  obtain ⟨s, hs, htouch, hget, hframe⟩ := persistFirst_ok hst hcut
  have hpart : ∀ p ∈ core.parts, (backend w st).get core.store p.1 = .ok (some p.2) →
      (backend w st).get s p.1 = .ok (some p.2) := by
    intro p hp hold
    by_cases hwritten : p ∈ core.parts.take k
    · exact hget p hwritten
    · rw [hframe p.1, hold]
      intro q hq hkey
      -- the keys of the parts are distinct
      have hinj : ∀ p ∈ core.parts, ∀ q ∈ core.parts, q.1 = p.1 → q = p := by
        intro p hp q hq
        simp only [parts, List.mem_cons, List.not_mem_nil, or_false] at hp hq
        rcases hp with rfl | rfl | rfl <;> rcases hq with rfl | rfl | rfl <;> intro h <;> trivial
      exact hwritten (hinj p hp q (List.mem_of_mem_take hq) hkey ▸ hq)
  exact ⟨s, hs, htouch, hpart ⟨.tree, core.tree⟩ (by simp [parts]) h.tree,
    hpart ⟨.presence, core.presence⟩ (by simp [parts]) h.presence,
    hpart ⟨.metadata, .core core.fork core.head core.prologue⟩ (by simp [parts]) h.metadata⟩

/-- A persisted log opens as it is. -/
theorem Coherent.open_persisted (h : Coherent c st w log core) {s : S} (hp : Persisted st w core s)
    (hs : ∀ i data, log.read i = some data →
      (backend w st).getBlock s i = (backend w st).getBlock core.store i)
    (hfits : core.tree.rootHash64 c.hasher = core.tree.rootHash c.hasher) :
    Hypercore.openFrom w c st core.author s = .ok { core with store := s } := by
  have hcoh : Coherent c st w log { core with store := s } := h.store hs
  rw [hp.openFrom]
  unfold checked
  rw [hcoh.checkHead hfits]

/-- The tree of a longer log does not open under the old head. -/
theorem open_mixed {s : S} (h : core.verifyHead c = true) (hlt : core.len < core₁.len)
    (htree : (backend w st).get s .tree = .ok (some core₁.tree))
    (hpresence : (backend w st).get s .presence = .ok (some core.presence))
    (hmeta : (backend w st).get s .metadata = .ok (some (.core core.fork core.head core.prologue)))
    (author : SK) : Hypercore.openFrom w c st author s = .error .corrupt := by
  rw [openFrom_of_get c hmeta htree hpresence]
  unfold checked Hypercore.checkHead
  unfold verifyHead at h
  unfold len at hlt
  cases hhead : core.head with
  | none =>
    rw [hhead, beq_iff_eq] at h
    have hne : (core₁.tree.length == 0) = false := by
      rw [beq_eq_false_iff_ne]
      omega
    simp only [hne]
  | some head =>
    rw [hhead] at h
    simp only [Bool.and_eq_true, beq_iff_eq] at h
    have hne : ¬ (head.fork = core.fork ∧ head.length = core₁.tree.length) := by
      have hlength : head.length = core.tree.length := h.1.1.2
      omega
    unfold len
    simp only [if_neg hne]

theorem cutSafe_iff (hst : st.Lawful) (author : SK) (store : S) (prologue : Option (Prologue H))
    (before ops : List (CoreOp T H Sig SK S)) {core₃ : Hypercore H Sig SK S}
    (hrun : CoreOp.runAll c st w codec before { new author store with prologue } = .ok () core)
    (hold : persist (backend w st) core = .ok () core₁) (hops : ∀ op ∈ ops, op.IsAppend)
    (happend : core₂ = ops.foldl (fun core op => after (op.run c st w codec) core) core₁)
    (hnew : persist (backend w st) core₂ = .ok () core₃) :
    CutSafe st w c core₁ core₂ ↔ core₂.len = core₁.len := by
  have hcoh := (coherent_new author store prologue).runAll hst before hrun
  obtain ⟨s, rfl, htouch, hpersisted⟩ := (ends_persist hst core).ok hold
  have hcoh₁ : Coherent c st w _ { core with store := s } := hcoh.store fun i _ _ => htouch.getBlock i
  obtain ⟨bytes, hbytes⟩ := tree_written hold
  have hfits : core.tree.rootHash64 c.hasher = core.tree.rootHash c.hasher :=
    MerkleTree.rootHash64_of_write hbytes
  have hgrown : Grown st { core with store := s } core₂ := happend ▸ (hcoh₁.after_appends hst hops).1
  have hpersisted₂ : Persisted st w core core₂.store := hpersisted.above hgrown.above
  constructor
  · intro hsafe
    rcases hgrown.same_or_longer with hsame | hlt
    · rw [hsame]
      rfl
    · -- the new tree alone was written
      exfalso
      obtain ⟨core', hcut⟩ := persistFirst_one hnew
      obtain ⟨s', rfl, -, hget, hframe⟩ := persistFirst_ok hst hcut
      have htree := hget ⟨.tree, core₂.tree⟩ List.mem_cons_self
      have hpresence := (hframe .presence (by simp [parts])).trans hpersisted₂.presence
      have hmeta := (hframe .metadata (by simp [parts])).trans hpersisted₂.metadata
      obtain ⟨opened, hopen, -⟩ := hsafe 1 _ hcut
      rw [open_mixed hcoh.verified hlt htree hpresence hmeta] at hopen
      cases hopen
  · intro hlen k core' hcut
    have hsame : core₂ = { core with store := core₂.store } := by
      rcases hgrown.same_or_longer with hsame | hlt
      · exact hsame
      · omega
    generalize core₂.store = s₂ at hsame hgrown hpersisted₂
    subst hsame
    have habove : st.Above core.len s s₂ := hgrown.above
    have hcoh₂ : Coherent c st w _ { core with store := s₂ } := hcoh₁.above habove
    have hagain : Persisted st w { core with store := s₂ } s₂ :=
      ⟨hpersisted₂.tree, hpersisted₂.presence, hpersisted₂.metadata⟩
    obtain ⟨s', rfl, htouch', hp⟩ := hagain.persistFirst hst hcut
    refine ⟨_, hcoh₂.open_persisted hp (fun i _ _ => htouch'.getBlock i) hfits,
      Or.inr ⟨rfl, rfl, fun i => ?_⟩⟩
    exact block_store (fun i _ => htouch'.getBlock i) i

/-- A log in memory. -/
abbrev memoryLog : Hypercore (BitVec 256) (BitVec 512) Unit (ExtTreeMap ℕ (List UInt8)) :=
  { new () ∅ with prologue := none }

abbrev MemoryOp : Type := CoreOp Block (BitVec 256) (BitVec 512) Unit (ExtTreeMap ℕ (List UInt8))

/-- One block, persisted. -/
def persistedOne : EStateM (CoreError (LayoutError Empty))
    (Hypercore (BitVec 256) (BitVec 512) Unit (ExtTreeMap ℕ (List UInt8))) Unit := do
  CoreOp.runAll Crypto.sums Store.memory Wire.bits Codec.plain ([.append [1]] : List MemoryOp)
  persist (backend Wire.bits Store.memory)

/-- And a second one. -/
def appendedTwo : EStateM (CoreError (LayoutError Empty))
    (Hypercore (BitVec 256) (BitVec 512) Unit (ExtTreeMap ℕ (List UInt8))) Unit := do
  persistedOne
  (CoreOp.append [2] : MemoryOp).run Crypto.sums Store.memory Wire.bits Codec.plain

/-- The persist of the second block is cut after the tree: the log does not open. -/
theorem cut_persist_corrupt : ∃ core₁ core₂, persistedOne memoryLog = .ok () core₁ ∧
    (CoreOp.append [2] : MemoryOp).run Crypto.sums Store.memory Wire.bits Codec.plain core₁ = .ok () core₂ ∧
    ¬ CutSafe Store.memory Wire.bits Crypto.sums core₁ core₂ := by
  have hcorrupt : returnedIn
      (fun core => !(openFrom Wire.bits Crypto.sums Store.memory core.author core.store).toOption.isSome)
      ((do appendedTwo; persistFirst Store.memory Wire.bits 1) memoryLog) = true := by decide +kernel
  cases hrun : (do appendedTwo; persistFirst Store.memory Wire.bits 1) memoryLog with
  | error e core' =>
    rw [hrun] at hcorrupt
    cases hcorrupt
  | ok u core' =>
    rw [hrun] at hcorrupt
    obtain ⟨_, core₂, hrun₂, hcut⟩ := bind_eq_ok.mp hrun
    obtain ⟨_, core₁, hrun₁, happend⟩ := bind_eq_ok.mp hrun₂
    refine ⟨core₁, core₂, hrun₁, happend, fun hsafe => ?_⟩
    obtain ⟨opened, hopen, -⟩ := hsafe 1 core' hcut
    obtain ⟨s, -, rfl⟩ := zoom_eq_ok.mp (persistFirst_eq 1 core₂ ▸ hcut)
    rw [returnedIn, hopen] at hcorrupt
    cases hcorrupt

/-- A commit that is refused between two persists. -/
def refusedCommit : EStateM (CoreError (LayoutError Empty))
    (Hypercore (BitVec 256) (BitVec 512) Unit (ExtTreeMap ℕ (List UInt8))) Unit := do
  persistedOne
  (CoreOp.commit ⟨7, [[5]]⟩ : MemoryOp).run Crypto.sums Store.memory Wire.bits Codec.plain

theorem cutSafe_iff_refused : ∃ core₁ core₂, persistedOne memoryLog = .ok () core₁ ∧
    refusedCommit memoryLog = .ok () core₂ ∧
    CutSafe Store.memory Wire.bits Crypto.sums core₁ core₂ := by
  have hone : returnedIn (·.len == 1) (persistedOne memoryLog) = true := by decide +kernel
  have htwo : returnedIn (·.len == 1) (refusedCommit memoryLog) = true := by decide +kernel
  have hagain : returned ((do refusedCommit; persist (backend Wire.bits Store.memory)) memoryLog) = true := by
    decide +kernel
  obtain ⟨_, core₃, hrun₃⟩ := exists_of_returned hagain
  obtain ⟨_, core₂, hrun₂, hnew⟩ := bind_eq_ok.mp hrun₃
  obtain ⟨_, core₁, hrun₁, hcommit⟩ := bind_eq_ok.mp hrun₂
  obtain ⟨_, core, hrun, hold⟩ := bind_eq_ok.mp hrun₁
  refine ⟨core₁, core₂, hrun₁, hrun₂, ?_⟩
  rw [cutSafe_iff Store.memory_lawful () ∅ none [.append [1]] [.commit ⟨7, [[5]]⟩] hrun hold
    (fun op hop => List.mem_singleton.mp hop ▸ trivial) (by rw [List.foldl_cons, after, hcommit]; rfl) hnew]
  rw [hrun₁, returnedIn, beq_iff_eq] at hone
  rw [hrun₂, returnedIn, beq_iff_eq] at htwo
  rw [hone, htwo]

end Hypercore
end HypercoreRs
