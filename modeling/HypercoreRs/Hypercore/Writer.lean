/-
# The writer's operations

The methods of `Hypercore` beyond those a room calls: batches, truncation, dropping
stored blocks, adopting a prologue, application data and purging, over a byte store
that may fail at any operation. What was done before a failure stays done, except
where the source undoes it (`putStaged`).

For each operation there is one lemma that says how it ends: the log it leaves when
it returns and the log it leaves when it fails. They speak of the store by its byte
keys, so that what no operation touches can be read off: a write of blocks leaves
everything below its first block and above the last block number alone
(`Store.Above`).
-/
import HypercoreRs.Command.Ends
import HypercoreRs.Hypercore.Layout

namespace HypercoreRs

open Std Merkle Command Storage

/-- Only block numbers from `lo` on read otherwise in `s'` than in `s`. -/
def Storage.Store.Above {S E : Type} (st : Store S E) (lo : ℕ) (s s' : S) : Prop :=
  ∀ n, n < lo ∨ KEY_USERDATA ≤ n → st.get s' n = st.get s n

/-- Only block numbers in `[lo, hi)` read otherwise in `s'` than in `s`. -/
def Storage.Store.Between {S E : Type} (st : Store S E) (lo hi : ℕ) (s s' : S) : Prop :=
  ∀ n, n < lo ∨ hi ≤ n ∨ KEY_USERDATA ≤ n → st.get s' n = st.get s n

/-- A staged, uncommitted batch: the length it was opened at and its encoded blocks. -/
structure Batch where
  base : ℕ
  encoded : List Block

/-- A truncation from one length down to another. -/
structure Truncation where
  from_ : ℕ
  to_ : ℕ

/-- Application data by key, as `encode_user_data` lays it out: the number of entries,
then each key and value behind its length. -/
def encodeUserData (data : ExtTreeMap (List UInt8) (List UInt8)) : List UInt8 :=
  leBytes 8 data.size ++ data.toList.flatMap fun (k, v) =>
    leBytes 8 k.length ++ (k ++ (leBytes 8 v.length ++ v))

def readUserEntry (bytes : List UInt8) : Option ((List UInt8 × List UInt8) × List UInt8) := do
  let (klen, rest) ← readU64 bytes
  let (k, rest) ← takeBytes klen rest
  let (vlen, rest) ← readU64 rest
  let (v, rest) ← takeBytes vlen rest
  return ((k, v), rest)

def decodeUserData (bytes : List UInt8) : Option (ExtTreeMap (List UInt8) (List UInt8)) := do
  let (count, rest) ← readU64 bytes
  let (entries, rest) ← readTimes readUserEntry count rest
  if rest = [] then some (entries.foldl (fun data (k, v) => data.insert k v) ∅) else none

namespace Hypercore

variable {K H Sig SK S E T : Type} [DecidableEq H]
variable (c : Crypto K H Sig SK) (st : Store S E) (w : Wire H Sig) (codec : Codec T)

/-! ### The operations -/

/-- A fresh, empty log bound to a prologue. -/
def withPrologue (author : SK) (store : S) (prologue : Prologue H) : Hypercore H Sig SK S :=
  { (new author store : Hypercore H Sig SK S) with prologue := some prologue }

def byteLength (core : Hypercore H Sig SK S) : Option ℕ := core.tree.byteLength

/-- Length of the run of present blocks from the first one on. -/
def contiguousLength (core : Hypercore H Sig SK S) : ℕ :=
  min (((Bitfield.ofSet core.presence).firstUnset 0).getD 0) core.len

/-- Re-sign the current head. -/
def resigned : EStateM (CoreError (LayoutError E)) (Hypercore H Sig SK S) Unit := do
  match resign c (← MonadState.get) with
  | some signed => set signed
  | none => throw .panicked

/-- Delete a block's bytes. -/
def discard (i : ℕ) : EStateM (CoreError (LayoutError E)) (Hypercore H Sig SK S) Unit :=
  zoom (·.store) (fun s core => { core with store := s }) (CoreError.storage ∘ LayoutError.store)
    (st.delete i)

/-- The log with one more block in its tree and its presence map. -/
def grow (core : Hypercore H Sig SK S) (enc : Block) : Hypercore H Sig SK S :=
  { core with tree := (core.tree.append c.hasher enc).1, presence := core.presence.insert core.len }

/-- Rewind to the first `newLen` blocks under the next fork; not into the prologue. -/
def truncate (newLen : ℕ) :
    EStateM (CoreError (LayoutError E)) (Hypercore H Sig SK S) (Option Truncation) := do
  let core ← MonadState.get
  if core.prologue.any (newLen < ·.length) then return none
  else if newLen ≥ core.len then return none
  else
    set { core with tree := (core.tree.truncate newLen).1
                    presence := Bitfield.unsetRange core.presence newLen core.len
                    fork := core.fork + 1 }
    resigned c
    return some ⟨core.len, newLen⟩

/-- An empty batch on the current log. -/
def batch (core : Hypercore H Sig SK S) : Batch := ⟨core.len, []⟩

/-- Stage a value. -/
def stage (batch : Batch) (value : T) : Batch :=
  { batch with encoded := batch.encoded ++ [codec.encode value] }

/-- Read through a batch: what is below its base from the log, the rest from what is staged. -/
def batchGet (core : Hypercore H Sig SK S) (batch : Batch) (index : ℕ) :
    Except (CoreError (LayoutError E)) (Option T) :=
  if index < batch.base then core.get (backend w st) codec index
  else
    match batch.encoded[index - batch.base]? with
    | none => .ok none
    | some enc =>
      match codec.decode enc with
      | .error e => .error (.codec e)
      | .ok value => .ok (some value)

/-- Undo the writes of a batch; a deletion that fails is ignored. -/
def rollback (written : List ℕ) (s : S) : S := written.foldl (fun s i => after (st.delete i) s) s

/-- Write the staged blocks from number `start + done` on. If one fails, the `done` written
before it are deleted again. -/
def putStaged (start : ℕ) : ℕ → List Block → EStateM (LayoutError E) S Unit
  | _, [] => pure ()
  | done, enc :: rest => do
    onError ((backend w st).put (.block (start + done)) enc) (rollback st (List.range' start done))
    putStaged start (done + 1) rest

/-- Apply every staged block under one head; `none` if the log moved under the batch. -/
def commit (batch : Batch) :
    EStateM (CoreError (LayoutError E)) (Hypercore H Sig SK S) (Option ℕ) := do
  let core ← MonadState.get
  if batch.base ≠ core.len then return none
  else if batch.encoded.isEmpty then return some core.len
  else
    zoom (·.store) (fun s core => { core with store := s }) CoreError.storage
      (putStaged st w core.len 0 batch.encoded)
    modify fun core => batch.encoded.foldl (grow c) core
    resigned c
    return some (← MonadState.get).len

/-- Append every value under one head; returns the new length. -/
def appendAll (values : List T) :
    EStateM (CoreError (LayoutError E)) (Hypercore H Sig SK S) ℕ := do
  let core ← MonadState.get
  if values.isEmpty then return core.len
  else
    let _ ← commit c st w (values.foldl (stage codec) core.batch)
    return (← MonadState.get).len

/-- The sum of what the numbers of a list give, one after another. -/
def sumOver {ε σ : Type} (f : ℕ → EStateM ε σ ℕ) : List ℕ → EStateM ε σ ℕ
  | [] => pure 0
  | i :: rest => do
    let n ← f i
    let m ← sumOver f rest
    return n + m

/-- `clear` at one block: its presence bit goes first, then its bytes. -/
def clearBlock (i : ℕ) : EStateM (CoreError (LayoutError E)) (Hypercore H Sig SK S) ℕ := do
  let core ← MonadState.get
  if core.presence.contains i then
    modify fun core => { core with presence := core.presence.erase i }
    discard st i
    return 1
  else return 0

/-- Drop the stored bytes of the present blocks in `[start, end_)`; returns how many. -/
def clear (start end_ : ℕ) : EStateM (CoreError (LayoutError E)) (Hypercore H Sig SK S) ℕ := do
  let core ← MonadState.get
  sumOver (clearBlock st) (List.range' start (min end_ core.len - start))

/-- `sweep` at one block: its bytes go first, then its presence bit. -/
def sweepBlock (keep : ℕ → Bool) (i : ℕ) :
    EStateM (CoreError (LayoutError E)) (Hypercore H Sig SK S) ℕ := do
  let core ← MonadState.get
  if core.presence.contains i && !keep i then
    discard st i
    modify fun core => { core with presence := core.presence.erase i }
    return 1
  else return 0

/-- Drop the bytes of every present block that is not kept; returns how many. -/
def sweep (keep : ℕ → Bool) : EStateM (CoreError (LayoutError E)) (Hypercore H Sig SK S) ℕ := do
  let core ← MonadState.get
  sumOver (sweepBlock st keep) (List.range core.len)

/-- The application data in the store. -/
def loadUserData (core : Hypercore H Sig SK S) :
    Except (CoreError (LayoutError E)) (ExtTreeMap (List UInt8) (List UInt8)) :=
  match storedBytes st core.store KEY_USERDATA with
  | .error e => .error e
  | .ok none => .ok ∅
  | .ok (some bytes) =>
    match decodeUserData bytes with
    | none => .error .corrupt
    | some data => .ok data

def setUserData (key value : List UInt8) :
    EStateM (CoreError (LayoutError E)) (Hypercore H Sig SK S) Unit := do
  let core ← MonadState.get
  let data ← reads id (core.loadUserData st)
  zoom (·.store) (fun s core => { core with store := s }) (CoreError.storage ∘ LayoutError.store)
    (st.put KEY_USERDATA (encodeUserData (data.insert key value)))

def getUserData (core : Hypercore H Sig SK S) (key : List UInt8) :
    Except (CoreError (LayoutError E)) (Option (List UInt8)) :=
  match core.loadUserData st with
  | .error e => .error e
  | .ok data => .ok data[key]?

/-- Block `index` of the source of a prologue. -/
def blockOrMismatch (source : Hypercore H Sig SK S) (index : ℕ) :
    Except (CoreError (LayoutError E)) Block :=
  match source.block (backend w st) index with
  | .error e => .error e
  | .ok none => .error .prologueMismatch
  | .ok (some enc) => .ok enc

/-- Adopt block `i` of `source`. -/
def copyBlock (source : Hypercore H Sig SK S) (i : ℕ) :
    EStateM (CoreError (LayoutError E)) (Hypercore H Sig SK S) Unit := do
  let enc ← reads id (source.blockOrMismatch st w i)
  write (backend w st) [⟨.block i, enc⟩]
  modify fun core => { core with tree := (core.tree.append c.hasher enc).1
                                 presence := core.presence.insert i }

/-- Adopt the blocks of `source` with the numbers of a list, one after another. -/
def copyBlocks (source : Hypercore H Sig SK S) :
    List ℕ → EStateM (CoreError (LayoutError E)) (Hypercore H Sig SK S) Unit
  | [] => pure ()
  | i :: rest => do
    copyBlock c st w source i
    copyBlocks source rest

/-- Adopt the committed prefix from `source` and sign it; returns its length. -/
def copyPrologue (source : Hypercore H Sig SK S) :
    EStateM (CoreError (LayoutError E)) (Hypercore H Sig SK S) ℕ := do
  let core ← MonadState.get
  match core.prologue with
  | none => throw .noPrologue
  | some pr =>
    if core.len ≠ 0 then throw .prologueMismatch
    else if source.tree.prefixRootHash c.hasher pr.length ≠ some pr.hash then throw .prologueMismatch
    else
      copyBlocks c st w source (List.range pr.length)
      resigned c
      return pr.length

/-- Delete what is under the numbers of a list, one after another. -/
def discardAll : List ℕ → EStateM (CoreError (LayoutError E)) (Hypercore H Sig SK S) Unit
  | [] => pure ()
  | i :: rest => do
    discard st i
    discardAll rest

/-- Delete the blocks and the metadata, and start again empty. -/
def purge : EStateM (CoreError (LayoutError E)) (Hypercore H Sig SK S) Unit := do
  let core ← MonadState.get
  discardAll st (List.range core.len ++ [KEY_META, KEY_TREE, KEY_PRESENCE, KEY_USERDATA])
  modify fun core => new core.author core.store

/-- Persist the log, drop it, and open its store again with `author`'s key. -/
def reopen (author : SK) : EStateM (CoreError (LayoutError E)) (Hypercore H Sig SK S) Unit := do
  persist (backend w st)
  let core ← MonadState.get
  let core' ← reads id (openFrom w c st author core.store)
  set core'

/-! ### What they do to the store -/

variable {c st w codec} {core core' : Hypercore H Sig SK S}

omit [DecidableEq H]

variable {s s' : S} {i : ℕ}

theorem getBlock_congr (h : i < KEY_USERDATA → st.get s' i = st.get s i) :
    (backend w st).getBlock s' i = (backend w st).getBlock s i := by
  apply Backend.ofStore_get_congr
  intro n hn
  obtain ⟨rfl, hlt⟩ := StoreKey.number_block hn
  exact h hlt

variable {lo : ℕ}

theorem above_getBlock (h : st.Above lo s s') (hi : i < lo) :
    (backend w st).getBlock s' i = (backend w st).getBlock s i :=
  getBlock_congr fun _ => h i (Or.inl hi)

/-- Only the numbers of the keys in `ks` read otherwise in `s'` than in `s`. -/
def Touches (st : Store S E) (ks : List StoreKey) (s s' : S) : Prop :=
  ∀ n, (∀ k ∈ ks, k.number ≠ some n) → st.get s' n = st.get s n

theorem ends_put (hst : st.Lawful) (k : StoreKey) (v : k.Value H Sig) (s : S) :
    Ends ((backend w st).put k v) s
      (fun _ s' => Touches st [k] s s' ∧ (backend w st).get s' k = .ok (some v))
      fun _ s' => Touches st [k] s s' := by
  refine Ends.and_ok (Ends.of_after fun n hn => ?_) ?_
  · exact Backend.ofStore_put_after hst k v s (hn k List.mem_cons_self)
  · intro _ s' hput
    exact (Backend.ofStore_lawful hst).get_put s k v s' hput

theorem ends_putAll (hst : st.Lawful) :
    ∀ (l : List (Σ k : StoreKey, k.Value H Sig)) (s : S),
    Ends ((backend w st).putAll l) s (fun _ s' => Touches st (l.map (·.1)) s s')
      fun _ s' => Touches st (l.map (·.1)) s s'
  | [], _ => Ends.pure fun _ _ => rfl
  | ⟨k, v⟩ :: rest, s => by
    rw [Backend.putAll, List.map_cons]
    refine Ends.bind (Q := fun _ s' => Touches st [k] s s') ?_ fun _ s' hk => ?_
    · refine (ends_put hst k v s).mono (fun _ s' h => h.1) fun _ s' h n hn => ?_
      exact h n fun k' hk' => hn k' (List.mem_cons.mpr (Or.inl (List.mem_singleton.mp hk')))
    · have htrans : ∀ s'', Touches st (rest.map (·.1)) s' s'' →
          Touches st (k :: rest.map (·.1)) s s'' := by
        intro s'' h n hn
        rw [h n fun k' hk' => hn k' (List.mem_cons_of_mem k hk')]
        exact hk n fun k' hk' => hn k' (List.mem_cons.mpr (Or.inl (List.mem_singleton.mp hk')))
      exact (ends_putAll hst rest s').mono (fun _ => htrans) fun _ => htrans

/-- Writes change the store of the log and nothing else of it. -/
theorem ends_write (hst : st.Lawful) (l : List (Σ k : StoreKey, k.Value H Sig))
    (core : Hypercore H Sig SK S) :
    Ends (write (backend w st) l) core
      (fun _ core' => ∃ s, core' = { core with store := s } ∧ Touches st (l.map (·.1)) core.store s ∧
        ((l.map (·.1)).Nodup → ∀ p ∈ l, (backend w st).get s p.1 = .ok (some p.2)))
      fun _ core' => ∃ s, core' = { core with store := s } ∧ Touches st (l.map (·.1)) core.store s := by
  refine Ends.zoom (Ends.and_ok (ends_putAll hst l core.store) fun _ s' hput => ?_)
    (fun _ s h => ⟨s, rfl, h⟩) fun _ s h => ⟨s, rfl, h⟩
  exact ((Backend.ofStore_lawful hst).putAll l core.store |>.ok hput).2

theorem Touches.between (h : Touches st [.block i] s s') : st.Between i (i + 1) s s' := by
  intro n hn
  refine h n fun k hk hnum => ?_
  obtain rfl := List.mem_singleton.mp hk
  obtain ⟨rfl, hlt⟩ := StoreKey.number_block hnum
  omega

theorem between_above {lo hi : ℕ} (h : st.Between lo hi s s') : st.Above lo s s' :=
  fun n hn => h n (hn.imp_right Or.inr)

variable {s₁ s₂ s₃ : S}

theorem between_trans {lo mid hi : ℕ} (h₁ : st.Between lo mid s₁ s₂) (h₂ : st.Between lo hi s₂ s₃)
    (hle : mid ≤ hi) : st.Between lo hi s₁ s₃ := by
  intro n hn
  rw [h₂ n hn, h₁ n (by omega)]

theorem Touches.above (h : Touches st [.block i] s s') : st.Above i s s' :=
  between_above h.between

theorem above_trans {lo lo' : ℕ} (h₁ : st.Above lo s₁ s₂) (h₂ : st.Above lo' s₂ s₃) (hle : lo ≤ lo') :
    st.Above lo s₁ s₃ := by
  intro n hn
  rw [h₂ n (by omega), h₁ n hn]

/-- Undoing writes of blocks leaves the rest alone, whether or not it succeeds. -/
theorem between_rollback (hst : st.Lawful) {lo hi : ℕ} : ∀ (written : List ℕ) (s : S),
    (∀ i ∈ written, lo ≤ i ∧ i < hi ∧ i < KEY_USERDATA) → st.Between lo hi s (rollback st written s)
  | [], _, _ => fun _ _ => rfl
  | i :: rest, s, h => by
    have hin := h i List.mem_cons_self
    have hdel : st.Between lo hi s (after (st.delete i) s) := by
      intro n hn
      exact hst.delete_other s i n (by omega)
    exact between_trans hdel
      (between_rollback hst rest _ fun j hj => h j (List.mem_cons_of_mem i hj)) le_rfl

variable (st w) in
/-- `blocks` is what is stored from `lo` on, and nothing else reads otherwise than before. -/
structure Stores (lo : ℕ) (blocks : List Block) (s s' : S) : Prop where
  stored : ∀ (j : ℕ) (data : Block), blocks[j]? = some data →
    (backend w st).getBlock s' (lo + j) = .ok (some data)
  rest : ∀ n, n < lo ∨ lo + blocks.length ≤ n → st.get s' n = st.get s n

theorem Stores.nil (lo : ℕ) (s : S) : Stores st w lo [] s s where
  stored j data hj := by simp at hj
  rest _ _ := rfl

variable {blocks : List Block}

/-- Only numbers below the reserved keys hold blocks. -/
theorem Stores.fits (h : Stores st w lo blocks s s') (hne : blocks ≠ []) :
    lo + blocks.length ≤ KEY_USERDATA := by
  have hpos : 0 < blocks.length := List.length_pos_iff.mpr hne
  have hlast := List.getElem?_eq_getElem (l := blocks) (i := blocks.length - 1) (by omega)
  obtain ⟨n, -, hnum, -⟩ := Backend.ofStore_get_eq_some.mp (h.stored _ _ hlast)
  have := StoreKey.number_block hnum
  omega

theorem Stores.between (h : Stores st w lo blocks s s') :
    st.Between lo (lo + blocks.length) s s' := by
  intro n hn
  rcases eq_or_ne blocks [] with rfl | hne
  · exact h.rest n (Nat.lt_or_ge n lo)
  · have := h.fits hne
    exact h.rest n (by omega)

theorem Stores.above (h : Stores st w lo blocks s s') :
    st.Above lo s s' := between_above h.between

/-- One row of blocks after another. -/
theorem Stores.append {l l' : List Block} (h : Stores st w lo l s₁ s₂)
    (h' : Stores st w (lo + l.length) l' s₂ s₃) : Stores st w lo (l ++ l') s₁ s₃ where
  stored j data hj := by
    by_cases hlt : j < l.length
    · rw [List.getElem?_append_left hlt] at hj
      have hsame := h'.rest (lo + j) (Or.inl (by omega))
      rw [getBlock_congr fun _ => hsame]
      exact h.stored j data hj
    · rw [List.getElem?_append_right (by omega)] at hj
      have := h'.stored (j - l.length) data hj
      rwa [show lo + l.length + (j - l.length) = lo + j by omega] at this
  rest n hn := by
    rw [List.length_append] at hn
    rw [h'.rest n (by omega), h.rest n (by omega)]

/-- One block is stored, or its write fails; a store that never fails takes what is below the
reserved keys. -/
theorem ends_put_block (hst : st.Lawful) (i : ℕ) (data : Block) (s : S) :
    Ends ((backend w st).put (.block i) data) s (fun _ s' => Stores st w i [data] s s')
      fun e s' => (st.NeverFails → e = .overflow ∧ KEY_USERDATA ≤ i) ∧ st.Between i (i + 1) s s' := by
  have hfails : ∀ e s', (backend w st).put (.block i) data s = .error e s' → st.NeverFails →
      e = .overflow ∧ KEY_USERDATA ≤ i := by
    intro e s' hfail hnever
    refine ⟨Backend.ofStore_put_error hfail hnever, Nat.le_of_not_lt fun hlt => ?_⟩
    -- below the reserved keys the write goes to the store, which takes it
    have hstore : (backend w st).put (.block i) data =
        zoom id (fun s _ => s) LayoutError.store (st.put i data) := by
      simp only [backend, Backend.ofStore, StoreKey.number, if_pos hlt]
      rfl
    obtain ⟨s'', hs''⟩ := hnever s i data
    rw [hstore] at hfail
    simp [zoom, hs''] at hfail
  have hput := (ends_put (w := w) hst (.block i) data s).and_error hfails
  refine hput.mono (fun _ s' h => ⟨fun j data' hj => ?_, fun n hn => ?_⟩) fun _ _ h => ⟨h.2, h.1.between⟩
  · have hj0 : j = 0 := by
      have := (List.getElem?_eq_some_iff.mp hj).1
      simpa using this
    subst hj0
    obtain rfl := Option.some.inj hj
    exact h.2
  · refine h.1 n fun k hk hnum => ?_
    obtain rfl := List.mem_singleton.mp hk
    have := StoreKey.number_block hnum
    simp only [List.length_singleton] at hn
    omega

/-- A batch is written, or what was written of it is undone. -/
theorem ends_putStaged (hst : st.Lawful) (start : ℕ) : ∀ (blocks : List Block) (done : ℕ) (s : S),
    (0 < done → start + done ≤ KEY_USERDATA) →
    Ends (putStaged st w start done blocks) s
      (fun _ s' => Stores st w (start + done) blocks s s')
      fun e s' => (st.NeverFails → e = .overflow ∧ KEY_USERDATA < start + done + blocks.length) ∧
        st.Between start (start + done + blocks.length) s s'
  | [], _, _, _ => Ends.pure (.nil _ _)
  | enc :: rest, done, s, hdone => by
    have hlen : start + done + (enc :: rest).length = start + (done + 1) + rest.length := by
      rw [List.length_cons]
      omega
    rw [putStaged, hlen]
    have hput := ends_put_block (w := w) hst (start + done) enc s
    refine Ends.bind (hput.onError fun _ s' hfail => ⟨fun hnever => ?_, ?_⟩) fun _ s₁ h₁ => ?_
    · have := hfail.1 hnever
      exact ⟨this.1, by omega⟩
    · refine between_trans (fun n hn => hfail.2 n (by omega)) ?_ (Nat.le_add_right _ rest.length)
      apply between_rollback hst
      intro i hi
      rw [List.mem_range'_1] at hi
      omega
    · have hfits : start + done + 1 ≤ KEY_USERDATA := h₁.fits (List.cons_ne_nil enc [])
      refine (ends_putStaged hst start rest (done + 1) s₁ fun _ => hfits).mono
        (fun _ s' h => h₁.append h) fun _ s' h => ⟨h.1, ?_⟩
      exact between_trans (fun n hn => h₁.between n (by rw [List.length_singleton]; omega)) h.2
        (Nat.le_add_right (start + (done + 1)) rest.length)

/-- Deleting touches one number. -/
theorem ends_discard (hst : st.Lawful) (i : ℕ) (core : Hypercore H Sig SK S) :
    Ends (discard st i) core (fun _ core' => ∃ s, core' = { core with store := s } ∧
        st.Only i core.store s ∧ st.get s i = .ok none)
      fun _ core' => ∃ s, core' = { core with store := s } ∧ st.Only i core.store s := by
  refine Ends.zoom (Ends.and_ok (Ends.of_after fun n hn => hst.delete_other core.store i n hn)
    fun _ s' hdel => hst.get_delete core.store i s' hdel) (fun _ s h => ⟨s, rfl, h⟩)
    fun _ s h => ⟨s, rfl, h⟩

end Hypercore
end HypercoreRs
