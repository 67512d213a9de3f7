/-
# The log store

`LogStore` keeps a `u64`-keyed map in a file it only appends to: a `put` or a
`delete` appends a record, and where dead bytes exceed half of a file of some size
`compact` rewrites it with the live records only. `LogStore::open` replays the file.

The file is abstract (`SyncFile`). What the store needs of one is `Faithful`: reads
give the bytes that are there, and a call that writes changes them as it says, or,
where it fails, by a beginning of its bytes. Over any such file the store stands for
a row of records (`Stands`): every operation ends, failed or not, with the bytes of
that row and a part of one more record, or inside a compaction (`put_within`,
`delete_within`, `compact_within`), and where it succeeds stands for the map it was
to make. Over the file in memory no operation fails, and the store is the map
(`runAll_refines`).
-/
import HypercoreRs.Command.Within
import HypercoreRs.Storage.Record

open Std

namespace HypercoreRs
namespace Storage

open Command

/-- A synchronous random-access byte file. -/
structure SyncFile (F E : Type) where
  size : F → Except E ℕ
  /-- The `len` bytes that start at `offset`. -/
  readAt (file : F) (offset len : ℕ) : Except E Bytes
  writeAt (offset : ℕ) (buf : Bytes) : EStateM E F Unit
  truncate (size : ℕ) : EStateM E F Unit
  flush : EStateM E F Unit

def MIN_COMPACT : ℕ := 4096

/-- A log-structured store over a file. -/
structure LogStore (F : Type) where
  file : F
  index : ExtTreeMap U64 Slot
  end_ : ℕ
  dead : ℕ

/-- The condition of `maybe_compact`. -/
def Due (end_ dead : ℕ) : Prop := end_ > MIN_COMPACT ∧ min (dead * 2) (2 ^ 64 - 1) > end_

instance (end_ dead : ℕ) : Decidable (Due end_ dead) := by unfold Due; infer_instance

namespace LogStore

variable {F E : Type} (io : SyncFile F E)

/-- A call on the store's file. -/
def onFile (x : EStateM E F Unit) : EStateM E (LogStore F) Unit :=
  zoom LogStore.file (fun file s => { s with file := file }) id x

def readAll (file : F) (size : ℕ) : Except E Bytes :=
  if size > 0 then io.readAt file 0 size else pure []

/-- Replay the file's records to rebuild the index; a partial trailing record is
dropped from the file. -/
def openLog (file : F) : Except E (LogStore F) := do
  let size ← io.size file
  let buf ← readAll io file size
  let t := scan buf buf.length Scan.start
  if t.pos < size then
    match io.truncate t.pos file with
    | .ok _ file => pure ⟨file, t.index, t.pos, t.dead⟩
    | .error e _ => throw e
  else pure ⟨file, t.index, t.pos, t.dead⟩

def readValue (file : F) (slot : Slot) : Except E Bytes :=
  if slot.len > 0 then io.readAt file slot.offset slot.len else pure []

/-- One live record of the rewritten file. -/
def rewrite (acc : Bytes × ExtTreeMap U64 Slot) (p : U64 × Bytes) : Bytes × ExtTreeMap U64 Slot :=
  (acc.1 ++ encodeRecord p.1 KIND_PUT p.2,
    acc.2.insert p.1 ⟨acc.1.length + HDR, p.2.length % 2 ^ 32⟩)

def writeFresh (fresh : Bytes) : EStateM E (LogStore F) Unit :=
  if fresh ≠ [] then onFile (io.writeAt 0 fresh) else pure ()

/-- The second half of `compact`: the file is replaced by `fresh`. -/
def install (fresh : Bytes) (newIndex : ExtTreeMap U64 Slot) : EStateM E (LogStore F) Unit := do
  onFile (io.truncate 0)
  writeFresh io fresh
  onFile io.flush
  modify fun s => { s with index := newIndex, end_ := fresh.length, dead := 0 }

/-- Rewrite the file with only the live records. -/
def compact : EStateM E (LogStore F) Unit := do
  let s ← get
  -- the live values are read from where they stand before they are overwritten
  let live ← reads id (s.index.toList.mapM fun p => do return (p.1, ← readValue io s.file p.2))
  let built := live.foldl rewrite ([], ∅)
  install io built.1 built.2

def maybeCompact : EStateM E (LogStore F) Unit := do
  let s ← get
  if Due s.end_ s.dead then compact io else pure ()

def put (key : U64) (value : Bytes) : EStateM E (LogStore F) Unit := do
  let s ← get
  let bytes := encodeRecord key KIND_PUT value
  onFile (io.writeAt s.end_ bytes)
  modify fun s =>
    { s with
      index := s.index.insert key ⟨s.end_ + HDR, value.length % 2 ^ 32⟩
      dead := s.dead + reclaimed s.index[key]?
      end_ := s.end_ + bytes.length }
  onFile io.flush
  maybeCompact io

def get (s : LogStore F) (key : U64) : Except E (Option Bytes) :=
  match s.index[key]? with
  | none => pure none
  | some slot => some <$> readValue io s.file slot

/-- The deletion of a key the index has at `old`. -/
def tombstone (key : U64) (old : Slot) : EStateM E (LogStore F) Unit := do
  modify fun s => { s with index := s.index.erase key }
  let s ← MonadState.get
  let bytes := encodeRecord key KIND_DEL []
  onFile (io.writeAt s.end_ bytes)
  modify fun s => { s with end_ := s.end_ + bytes.length, dead := s.dead + (HDR + old.len + HDR) }
  onFile io.flush
  maybeCompact io

def delete (key : U64) : EStateM E (LogStore F) Unit := do
  let s ← MonadState.get
  match s.index[key]? with
  | none => pure ()
  | some old => tombstone io key old

variable {s : LogStore F}

variable {io} in
theorem delete_some {key : U64} {old : Slot} (h : s.index[key]? = some old) :
    delete io key s = tombstone io key old s := by
  show (match s.index[key]? with | none => pure () | some old => tombstone io key old) s = _
  rw [h]

variable {io} in
theorem delete_none {key : U64} (h : s.index[key]? = none) : delete io key s = .ok () s := by
  show (match s.index[key]? with | none => pure () | some old => tombstone io key old) s = _
  rw [h]
  rfl

def len (s : LogStore F) : Except E ℕ := pure s.index.size

def contains (s : LogStore F) (key : U64) : Except E Bool := do return (← s.get io key).isSome

end LogStore

/-! ### Files -/

/-- The bytes after a write, with zeros in a gap before it. -/
def writeBytes (offset : ℕ) (buf data : Bytes) : Bytes :=
  let data := data ++ List.replicate (offset + buf.length - data.length) 0
  data.take offset ++ buf ++ data.drop (offset + buf.length)

theorem writeBytes_end (buf data : Bytes) : writeBytes data.length buf data = data ++ buf := by
  simp [writeBytes]

/-- The file in memory. -/
structure MemFile where
  data : Bytes
  deriving DecidableEq

/-- Slicing beyond the end of the data. -/
inductive OutOfRange where
  | slice
  deriving DecidableEq

def memFile : SyncFile MemFile OutOfRange where
  size file := .ok file.data.length
  readAt file offset len :=
    if offset ≤ file.data.length then
      let bytes := slice file.data offset len
      .ok (bytes ++ List.replicate (len - bytes.length) 0)
    else .error .slice
  writeAt offset buf := modify fun file => ⟨writeBytes offset buf file.data⟩
  truncate size := modify fun file => ⟨file.data.take size⟩
  flush := pure ()

/-- What the store needs of a file that holds the bytes `view`. -/
structure Faithful {F E : Type} (io : SyncFile F E) (view : F → Bytes) : Prop where
  size : ∀ file, io.size file = .ok (view file).length
  readAt : ∀ {file offset len}, offset + len ≤ (view file).length →
    io.readAt file offset len = .ok (slice (view file) offset len)
  writeAt : ∀ offset buf file,
    Command.Within (fun file file' => ∃ n, view file' = writeBytes offset (buf.take n) (view file))
      (io.writeAt offset buf) file fun _ file' => view file' = writeBytes offset buf (view file)
  truncate : ∀ size file,
    Command.Within (fun file file' => view file' = view file ∨ view file' = (view file).take size)
      (io.truncate size) file fun _ file' => view file' = (view file).take size
  flush : ∀ file, Command.Within (fun file file' => view file' = view file) io.flush file
    fun _ file' => view file' = view file

theorem memFile_faithful : Faithful memFile MemFile.data where
  size _ := rfl
  readAt := by
    intro file offset len h
    have hlen : (slice file.data offset len).length = len := by
      rw [slice, List.length_take, List.length_drop]
      omega
    dsimp only [memFile]
    rw [if_pos (by omega), hlen, Nat.sub_self, List.replicate_zero, List.append_nil]
  writeAt offset buf file := ⟨⟨buf.length, by rw [List.take_length]⟩, rfl⟩
  truncate size file := ⟨.inr rfl, rfl⟩
  flush file := ⟨rfl, rfl⟩

/-! ### The row of records a store stands for -/

/-- The live records of a map, as `compact` writes them. -/
def liveRecords (m : ExtTreeMap U64 Bytes) : List Record := m.toList.map fun p => .put p.1 p.2

theorem values_liveRecords (m : ExtTreeMap U64 Bytes) : values (liveRecords m) = m := by
  rw [values, liveRecords, List.foldl_map]
  exact Graph.foldl_insert_toList m

/-- The file is the bytes of `recs`, and the rest of the store is what replaying
them gives. -/
structure Stands {F : Type} (view : F → Bytes) (s : LogStore F) (recs : List Record) : Prop where
  fits : ∀ r ∈ recs, r.Fits
  file : view s.file = encodeAll recs
  index : s.index = (replay recs).index
  end_ : s.end_ = (replay recs).pos
  dead : s.dead = (replay recs).dead

section Within

variable {F E : Type} {io : SyncFile F E} {view : F → Bytes} (hio : Faithful io view)
  {s : LogStore F} {recs : List Record} (h : Stands view s recs)

namespace Stands

include h

theorem end_eq : s.end_ = (view s.file).length := by
  rw [h.end_, (replayed recs).pos, h.file]

/-- The index and the map have the same keys. -/
theorem map_index : s.index.map (fun _ slot => slot.value (encodeAll recs)) = values recs := by
  apply ExtTreeMap.ext_getElem?
  intro key
  rw [ExtTreeMap.getElem?_map, h.index]
  exact (replayed recs).points key

theorem len_eq : (s.len : Except E ℕ) = .ok (values recs).size := by
  rw [LogStore.len, ← h.map_index, ExtTreeMap.size_map]
  rfl

theorem dead_add : s.dead + liveSize (values recs) = s.end_ := by
  rw [h.dead, h.end_, (replayed recs).live, (replayed recs).pos]

include hio

/-- A value is read where the index points. -/
theorem readValue {key : U64} {slot : Slot} (hslot : s.index[key]? = some slot) :
    LogStore.readValue io s.file slot = .ok (slot.value (encodeAll recs)) := by
  rw [h.index] at hslot
  have hbound := (replayed recs).bound hslot
  unfold LogStore.readValue
  split_ifs with hlen
  · rw [hio.readAt (by rwa [h.file]), h.file]
    rfl
  · rw [Slot.value, slice, Nat.le_zero.mp (Nat.not_lt.mp hlen), List.take_zero]
    rfl

theorem get_eq (key : U64) : s.get io key = .ok (values recs)[key]? := by
  rw [← (replayed recs).points key, ← h.index, LogStore.get]
  cases hslot : s.index[key]? with
  | none => rfl
  | some slot =>
    dsimp only
    rw [h.readValue hio hslot]
    rfl

theorem contains_eq (key : U64) : s.contains io key = .ok (values recs)[key]?.isSome := by
  rw [LogStore.contains, h.get_eq hio]
  rfl

/-- `compact` reads the map. -/
theorem live_eq :
    (s.index.toList.mapM fun p => do return (p.1, ← LogStore.readValue io s.file p.2)) =
      .ok (values recs).toList := by
  have hread : ∀ p ∈ s.index.toList,
      (do return (p.1, ← LogStore.readValue io s.file p.2) : Except E (U64 × Bytes)) =
        .ok (p.1, p.2.value (encodeAll recs)) := by
    intro p hp
    rw [h.readValue hio (ExtTreeMap.mem_toList_iff_getElem?_eq_some.mp hp)]
    rfl
  have hmap : ∀ l : List (U64 × Slot), (∀ p ∈ l,
      (do return (p.1, ← LogStore.readValue io s.file p.2) : Except E (U64 × Bytes)) =
        .ok (p.1, p.2.value (encodeAll recs))) →
      (l.mapM fun p => do return (p.1, ← LogStore.readValue io s.file p.2)) =
        .ok (l.map fun p => (p.1, p.2.value (encodeAll recs))) := by
    intro l
    induction l with
    | nil => intro _; rfl
    | cons p l ih =>
      intro hl
      rw [List.mapM_cons, hl p List.mem_cons_self, ih fun q hq => hl q (List.mem_cons_of_mem _ hq)]
      rfl
  rw [hmap _ hread, ← h.map_index, ExtTreeMap.toList_map]

end Stands

/-- Replaying the live records meets no key twice. -/
theorem dead_liveRecords (m : ExtTreeMap U64 Bytes) : (replay (liveRecords m)).dead = 0 := by
  have hlive := (replayed (liveRecords m)).live
  have hlength : (encodeAll (liveRecords m)).length = liveSize m := by
    rw [encodeAll, List.length_flatMap, liveRecords, List.map_map, liveSize]
    congr 2
    funext p
    exact length_encodeRecord p.1 KIND_PUT p.2
  rw [values_liveRecords, hlength] at hlive
  omega

/-- What `compact` builds are the bytes and the index of the live records. -/
theorem foldl_rewrite : ∀ (l : List (U64 × Bytes)) (recs : List Record),
    (∀ p ∈ l, p.2.length < 2 ^ 32) →
    l.foldl LogStore.rewrite (encodeAll recs, (replay recs).index) =
      (encodeAll (recs ++ l.map fun p => .put p.1 p.2),
        (replay (recs ++ l.map fun p => .put p.1 p.2)).index)
  | [], recs, _ => by simp
  | p :: l, recs, hfits => by
    have hstep : LogStore.rewrite (encodeAll recs, (replay recs).index) p =
        (encodeAll (recs ++ [.put p.1 p.2]), (replay (recs ++ [.put p.1 p.2])).index) := by
      rw [encodeAll_append, encodeAll_singleton, replay_concat, LogStore.rewrite,
        Nat.mod_eq_of_lt (hfits p List.mem_cons_self), ← (replayed recs).pos]
      rfl
    rw [List.foldl_cons, hstep, foldl_rewrite l _ fun q hq => hfits q (List.mem_cons_of_mem _ hq),
      List.map_cons, List.append_assoc]
    rfl

theorem liveRecords_fit (h : ∀ r ∈ recs, r.Fits) : ∀ r ∈ liveRecords (values recs), r.Fits := by
  intro r hr
  obtain ⟨p, hp, rfl⟩ := List.mem_map.mp hr
  exact length_values h (ExtTreeMap.mem_toList_iff_getElem?_eq_some.mp hp)

/-- A call on the file, as seen from the store. -/
theorem onFile_within {C Q' : LogStore F → Prop} {x : EStateM E F Unit} {R : F → F → Prop}
    {Q : Unit → F → Prop} (hx : Command.Within R x s.file Q)
    (hR : ∀ file, R s.file file → C { s with file := file })
    (hQ : ∀ file, Q () file → Q' { s with file := file }) :
    Command.Within (fun _ s' => C s') (LogStore.onFile x) s fun _ s' => Q' s' :=
  hx.zoom hR fun _ file _ => hQ file

theorem writeBytes_nil (buf : Bytes) : writeBytes 0 buf [] = buf := writeBytes_end buf []

include hio in
theorem install_within {C : LogStore F → Prop} (fresh : Bytes) (newIndex : ExtTreeMap U64 Slot)
    (hold : ∀ s', view s'.file = view s.file → C s')
    (hnew : ∀ s', (∃ n, view s'.file = fresh.take n) → C s') :
    Command.Within (fun _ s' => C s') (LogStore.install io fresh newIndex) s fun _ s' =>
      view s'.file = fresh ∧ s'.index = newIndex ∧ s'.end_ = fresh.length ∧ s'.dead = 0 := by
  have htruncate : Command.Within (fun _ s' => C s') (LogStore.onFile (io.truncate 0)) s
      fun _ s' => view s'.file = [] := by
    refine onFile_within (hio.truncate 0 s.file) (fun file hfile => ?_) fun file hfile => hfile
    rcases hfile with hfile | hfile
    · exact hold _ hfile
    · exact hnew _ ⟨0, hfile⟩
  have hwrite : ∀ s₁ : LogStore F, view s₁.file = [] →
      Command.Within (fun _ s' => C s') (LogStore.writeFresh io fresh) s₁
        fun _ s' => view s'.file = fresh := by
    intro s₁ hs₁
    unfold LogStore.writeFresh
    split_ifs with hfresh
    · refine onFile_within (hio.writeAt 0 fresh s₁.file) (fun file hfile => ?_) fun file hfile => ?_
      · obtain ⟨n, hfile⟩ := hfile
        rw [hs₁, writeBytes_nil] at hfile
        exact hnew _ ⟨n, hfile⟩
      · rwa [hs₁, writeBytes_nil] at hfile
    · rw [not_not] at hfresh
      have hview : view s₁.file = fresh := by rw [hs₁, hfresh]
      exact ⟨hnew s₁ ⟨0, hs₁⟩, hview⟩
  have hflush : ∀ s₁ : LogStore F, view s₁.file = fresh →
      Command.Within (fun _ s' => C s') (LogStore.onFile io.flush) s₁
        fun _ s' => view s'.file = fresh := by
    intro s₁ hs₁
    refine onFile_within (hio.flush s₁.file) (fun file hfile => hnew _ ⟨fresh.length, ?_⟩)
      fun file hfile => hfile.trans hs₁
    rw [List.take_length]
    exact hfile.trans hs₁
  unfold LogStore.install
  apply htruncate.andThen
  intro _ s₁ hs₁
  apply (hwrite s₁ hs₁).andThen
  intro _ s₂ hs₂
  apply (hflush s₂ hs₂).andThen
  intro _ s₃ hs₃
  refine Within.modify (hnew _ ⟨fresh.length, ?_⟩) ⟨hs₃, rfl, rfl, rfl⟩
  rw [List.take_length]
  exact hs₃

include hio h

/-- A compaction replaces the file by the live records. -/
theorem compact_eq : LogStore.compact io s = LogStore.install io
    (encodeAll (liveRecords (values recs))) (replay (liveRecords (values recs))).index s := by
  have hbuilt : (values recs).toList.foldl LogStore.rewrite ([], ∅) =
      (encodeAll (liveRecords (values recs)), (replay (liveRecords (values recs))).index) :=
    foldl_rewrite (values recs).toList [] fun p hp =>
      length_values h.fits (ExtTreeMap.mem_toList_iff_getElem?_eq_some.mp hp)
  have hread : LogStore.compact io s =
      (LogStore.install io ((values recs).toList.foldl LogStore.rewrite ([], ∅)).1
        ((values recs).toList.foldl LogStore.rewrite ([], ∅)).2) s := by
    show (reads id (s.index.toList.mapM fun p => do
      return (p.1, ← LogStore.readValue io s.file p.2)) >>= _ : EStateM E (LogStore F) Unit) s = _
    rw [h.live_eq hio]
    rfl
  rw [hread, hbuilt]

/-- A compaction ends with the old file or with a beginning of the live records. -/
theorem compact_within :
    Command.Within (fun _ s' => view s'.file = view s.file ∨
        ∃ n, view s'.file = (encodeAll (liveRecords (values recs))).take n)
      (LogStore.compact io) s fun _ s' => Stands view s' (liveRecords (values recs)) := by
  refine Within.congr ?_ (compact_eq hio h)
  refine (install_within hio _ _ (fun _ => .inl) fun _ => .inr).mono (fun _ h => h) ?_
  intro _ s' _ ⟨hfile, hindex, hend, hdead⟩
  refine ⟨liveRecords_fit h.fits, hfile, hindex, ?_, ?_⟩
  · rw [hend, (replayed _).pos]
  · rw [hdead, dead_liveRecords]

end Within

/-! ### The mutations -/

/-- The methods that change a store. -/
inductive Mutation where
  | put (key : U64) (value : Bytes)
  | delete (key : U64)
  | compact
  deriving DecidableEq

namespace Mutation

def run {F E : Type} (io : SyncFile F E) : Mutation → EStateM E (LogStore F) Unit
  | put key value => LogStore.put io key value
  | delete key => LogStore.delete io key
  | compact => LogStore.compact io

/-- What the mutation is to do to the map. -/
def apply (m : ExtTreeMap U64 Bytes) : Mutation → ExtTreeMap U64 Bytes
  | put key value => m.insert key value
  | delete key => m.erase key
  | compact => m

/-- A value put is shorter than 2^32 bytes. -/
def Fits : Mutation → Prop
  | put _ value => value.length < 2 ^ 32
  | _ => True

/-- The mutation of this store rewrites the file. -/
def Rewrites {F : Type} (s : LogStore F) : Mutation → Prop
  | put key value => Due (s.end_ + (HDR + value.length)) (s.dead + reclaimed s.index[key]?)
  | delete key =>
    match s.index[key]? with
    | none => False
    | some old => Due (s.end_ + HDR) (s.dead + (HDR + old.len + HDR))
  | compact => True

/-- What a mutation of a store that stands for `recs` can leave in the file: the old
records, with one cut short after them; records of the new map; or, where it
rewrites, a beginning of the live records. -/
inductive Leaves {F : Type} (s : LogStore F) (recs : List Record) (x : Mutation) (bytes : Bytes) :
    Prop
  | before (tail : Bytes) (htail : Torn tail) (h : bytes = encodeAll recs ++ tail)
  | after (recs' : List Record) (hfits : ∀ r ∈ recs', r.Fits)
      (hvalues : values recs' = x.apply (values recs)) (h : bytes = encodeAll recs')
  | inside (n : ℕ) (hx : x.Rewrites s)
      (h : bytes = (encodeAll (liveRecords (x.apply (values recs)))).take n)

end Mutation

section Within

variable {F E : Type} {io : SyncFile F E} {view : F → Bytes} (hio : Faithful io view)
  {s : LogStore F} {recs : List Record} (h : Stands view s recs)
  {r : Record} {x : Mutation} {key : U64} {value : Bytes}

theorem fits_concat (h : ∀ r ∈ recs, r.Fits) (hr : r.Fits) : ∀ r' ∈ recs ++ [r], r'.Fits := by
  intro r' hr'
  rcases List.mem_append.mp hr' with hr' | hr'
  · exact h r' hr'
  · rw [List.mem_singleton.mp hr']
    exact hr

include h

/-- What `put` keeps beside the file, once the record is written. -/
theorem Stands.put (hvalue : value.length < 2 ^ 32) {file : F}
    (hfile : view file = encodeAll (recs ++ [.put key value])) :
    Stands view
      { file := file
        index := s.index.insert key ⟨s.end_ + HDR, value.length % 2 ^ 32⟩
        end_ := s.end_ + (encodeRecord key KIND_PUT value).length
        dead := s.dead + reclaimed s.index[key]? } (recs ++ [.put key value]) := by
  refine ⟨fits_concat h.fits hvalue, hfile, ?_, ?_, ?_⟩
  · rw [replay_concat, h.end_, h.index, Nat.mod_eq_of_lt hvalue]
    rfl
  · rw [replay_concat, h.end_, length_encodeRecord]
    rfl
  · rw [replay_concat, h.dead, h.index]
    rfl

/-- What `delete` keeps beside the file, once the tombstone is written. -/
theorem Stands.delete {old : Slot} (hold : s.index[key]? = some old) {file : F}
    (hfile : view file = encodeAll (recs ++ [.del key])) :
    Stands view
      { file := file
        index := s.index.erase key
        end_ := s.end_ + (encodeRecord key KIND_DEL []).length
        dead := s.dead + (HDR + old.len + HDR) } (recs ++ [.del key]) := by
  refine ⟨fits_concat h.fits (r := .del key) trivial, hfile, ?_, ?_, ?_⟩
  · rw [replay_concat, h.index]
    rfl
  · rw [replay_concat, h.end_, length_encodeRecord]
    rfl
  · rw [h.index] at hold
    rw [replay_concat, h.dead]
    dsimp only [Record.scan]
    rw [hold, reclaimed, Option.elim_some]
    omega

/-- A key the index lacks, the map lacks. -/
theorem Stands.erase_eq (hold : s.index[key]? = none) : (values recs).erase key = values recs := by
  apply Graph.erase_of_getElem?
  rw [← (replayed recs).points key, ← h.index, hold]
  rfl

include hio

theorem maybeCompact_within :
    Command.Within (fun _ s' => view s'.file = view s.file ∨ Due s.end_ s.dead ∧
        ∃ n, view s'.file = (encodeAll (liveRecords (values recs))).take n)
      (LogStore.maybeCompact io) s
      fun _ s' => ∃ recs', Stands view s' recs' ∧ values recs' = values recs := by
  unfold LogStore.maybeCompact
  apply Within.get
  split_ifs with hdue
  · refine (compact_within hio h).mono (fun s' hs' => hs'.imp id fun hn => ⟨hdue, hn⟩) ?_
    exact fun _ s' _ hs' => ⟨_, hs', values_liveRecords _⟩
  · exact ⟨.inl rfl, recs, h, rfl⟩

/-- The end of `put` and `delete`, once the record is written and counted. -/
theorem finish_within :
    Command.Within (fun _ s' => view s'.file = view s.file ∨ Due s.end_ s.dead ∧
        ∃ n, view s'.file = (encodeAll (liveRecords (values recs))).take n)
      (LogStore.onFile io.flush >>= fun _ => LogStore.maybeCompact io) s
      fun _ s' => ∃ recs', Stands view s' recs' ∧ values recs' = values recs := by
  refine Within.andThen (Q := fun _ s₁ => Stands view s₁ recs ∧ view s₁.file = view s.file ∧
    s₁.end_ = s.end_ ∧ s₁.dead = s.dead) ?_ ?_
  · refine onFile_within (hio.flush s.file) (fun file hfile => .inl hfile) fun file hfile => ?_
    exact ⟨⟨h.fits, hfile.trans h.file, h.index, h.end_, h.dead⟩, hfile, rfl, rfl⟩
  · intro _ s₁ ⟨hs₁, hfile, hend, hdead⟩
    rw [← hfile, ← hend, ← hdead]
    exact maybeCompact_within hio hs₁

/-- Writing a record at the end, whatever is counted with it. -/
theorem append_within (hr : r.Fits) (hx : r.apply (values recs) = x.apply (values recs))
    (s₀ : LogStore F) (hs₀ : s₀.file = s.file) :
    Command.Within (fun _ s' => x.Leaves s recs (view s'.file))
      (LogStore.onFile (io.writeAt s.end_ r.encode)) s₀
      fun _ s' => ∃ file, s' = { s₀ with file := file } ∧ view file = encodeAll (recs ++ [r]) := by
  have hend : s.end_ = (encodeAll recs).length := by rw [h.end_eq, h.file]
  refine onFile_within (hio.writeAt s.end_ r.encode s₀.file) (fun file hfile => ?_)
    fun file hfile => ⟨file, rfl, ?_⟩
  · obtain ⟨n, hfile⟩ := hfile
    rw [hs₀, h.file, hend, writeBytes_end] at hfile
    by_cases hn : n < r.encode.length
    · refine .before (r.encode.take n) ⟨r, hr, r.encode.drop n, ?_, ?_⟩ hfile
      · rw [ne_eq, List.drop_eq_nil_iff]
        omega
      · rw [List.take_append_drop]
    · rw [List.take_of_length_le (by omega)] at hfile
      exact .after (recs ++ [r]) (fits_concat h.fits hr) (by rw [values_concat, hx])
        (by simpa using hfile)
  · rw [hs₀, h.file, hend, writeBytes_end] at hfile
    simpa using hfile

omit h in
/-- The end of `put` and `delete`, as what the mutation leaves. -/
theorem finish_leaves (hx : r.apply (values recs) = x.apply (values recs)) {s₀ : LogStore F}
    (h : Stands view s₀ (recs ++ [r])) (hdue : Due s₀.end_ s₀.dead → x.Rewrites s) :
    Command.Within (fun _ s' => x.Leaves s recs (view s'.file))
      (LogStore.onFile io.flush >>= fun _ => LogStore.maybeCompact io) s₀
      fun _ s' => ∃ recs', Stands view s' recs' ∧ values recs' = x.apply (values recs) := by
  have hvalues : values (recs ++ [r]) = x.apply (values recs) := by rw [values_concat, hx]
  refine (finish_within hio h).mono (fun s' hs' => ?_) fun _ s' _ hs' => ?_
  · rcases hs' with hfile | ⟨hs', n, hfile⟩
    · exact .after _ h.fits hvalues (hfile.trans h.file)
    · rw [hvalues] at hfile
      exact .inside n (hdue hs') hfile
  · rwa [← hvalues]

theorem put_within (hvalue : value.length < 2 ^ 32) :
    Command.Within (fun _ s' => (Mutation.put key value).Leaves s recs (view s'.file))
      (LogStore.put io key value) s
      fun _ s' => ∃ recs', Stands view s' recs' ∧ values recs' = (values recs).insert key value := by
  have hfits := fits_concat h.fits (r := .put key value) hvalue
  unfold LogStore.put
  apply Within.get
  apply (append_within hio h (r := .put key value) hvalue (x := .put key value) rfl s rfl).andThen
  rintro _ _ ⟨file, rfl, hfile⟩
  refine Within.andThen (Q := fun _ s' => Stands view s' (recs ++ [.put key value]) ∧
    s'.end_ = s.end_ + (HDR + value.length) ∧ s'.dead = s.dead + reclaimed s.index[key]?)
    (Within.modify (.after _ hfits (values_concat _ _) hfile) ⟨h.put hvalue hfile, ?_, rfl⟩) ?_
  · rw [length_encodeRecord]
  · intro _ s' ⟨hs', hend, hdead⟩
    apply finish_leaves hio (r := .put key value) rfl hs'
    rw [hend, hdead]
    exact id

theorem delete_within :
    Command.Within (fun _ s' => (Mutation.delete key).Leaves s recs (view s'.file))
      (LogStore.delete io key) s
      fun _ s' => ∃ recs', Stands view s' recs' ∧ values recs' = (values recs).erase key := by
  have hfits := fits_concat h.fits (r := .del key) trivial
  cases hold : s.index[key]? with
  | none =>
    have herase := (h.erase_eq hold).symm
    unfold Command.Within
    rw [LogStore.delete_none hold]
    exact ⟨.after recs h.fits herase h.file, recs, h, herase⟩
  | some old =>
    refine Within.congr ?_ (LogStore.delete_some hold)
    unfold LogStore.tombstone
    have hrewrites : (Mutation.delete key).Rewrites s ↔
        Due (s.end_ + HDR) (s.dead + (HDR + old.len + HDR)) := by
      rw [Mutation.Rewrites, hold]
    refine Within.andThen (Q := fun _ s' => s' = { s with index := s.index.erase key })
      (Within.modify (.before [] torn_nil (by rw [List.append_nil]; exact h.file)) rfl) ?_
    rintro _ _ rfl
    apply Within.get
    apply (append_within hio h (r := .del key) trivial (x := .delete key) rfl
      { s with index := s.index.erase key } rfl).andThen
    rintro _ _ ⟨file, rfl, hfile⟩
    refine Within.andThen (Q := fun _ s' => Stands view s' (recs ++ [.del key]) ∧
      s'.end_ = s.end_ + HDR ∧ s'.dead = s.dead + (HDR + old.len + HDR))
      (Within.modify (.after _ hfits (values_concat _ _) hfile) ⟨h.delete hold hfile, ?_, rfl⟩) ?_
    · rw [length_encodeRecord]
      rfl
    · intro _ s' ⟨hs', hend, hdead⟩
      apply finish_leaves hio (r := .del key) rfl hs'
      rw [hend, hdead]
      exact hrewrites.mpr

/-- Every mutation leaves what it may leave, and makes the map it is to make. -/
theorem Mutation.run_within (hx : x.Fits) :
    Command.Within (fun _ s' => x.Leaves s recs (view s'.file)) (x.run io) s
      fun _ s' => ∃ recs', Stands view s' recs' ∧ values recs' = x.apply (values recs) := by
  cases x with
  | put key value => exact put_within hio h hx
  | delete key => exact delete_within hio h
  | compact =>
    refine (compact_within hio h).mono (fun s' hs' => ?_) fun _ s' _ hs' => ?_
    · rcases hs' with hfile | ⟨n, hfile⟩
      · exact .after recs h.fits rfl (hfile.trans h.file)
      · exact .inside n trivial hfile
    · exact ⟨_, hs', values_liveRecords _⟩

end Within

/-! ### Over the file in memory -/

variable {recs : List Record}

/-- Opening a file that ends in a record cut short gives the row before it. -/
theorem openLog_torn (hfits : ∀ r ∈ recs, r.Fits) {tail : Bytes} (htail : Torn tail) :
    ∃ s, LogStore.openLog memFile ⟨encodeAll recs ++ tail⟩ = .ok s ∧ Stands MemFile.data s recs := by
  have hbuf : LogStore.readAll memFile ⟨encodeAll recs ++ tail⟩ (encodeAll recs ++ tail).length =
      .ok (encodeAll recs ++ tail) := by
    unfold LogStore.readAll
    split_ifs with hlen
    · rw [memFile_faithful.readAt (by simp), slice, List.drop_zero, List.take_length]
    · rw [List.eq_nil_of_length_eq_zero (Nat.le_zero.mp (Nat.not_lt.mp hlen))]
      rfl
  have hopen : LogStore.openLog memFile ⟨encodeAll recs ++ tail⟩ =
      .ok ⟨⟨encodeAll recs⟩, (replay recs).index, (replay recs).pos, (replay recs).dead⟩ := by
    show (LogStore.readAll memFile ⟨encodeAll recs ++ tail⟩ (encodeAll recs ++ tail).length >>= _) = _
    rw [hbuf]
    show (if (scan _ _ _).pos < (encodeAll recs ++ tail).length then _ else _) = _
    rw [scan_encodeAll hfits htail, (replayed recs).pos, List.length_append]
    split_ifs with htruncate
    · show Except.ok _ = _
      dsimp only
      rw [List.take_left]
    · have htail : tail = [] := List.eq_nil_of_length_eq_zero (by omega)
      rw [htail, List.append_nil]
      rfl
  exact ⟨_, hopen, hfits, rfl, rfl, rfl, rfl⟩

/-- An empty file is no records. -/
theorem openLog_nil : ∃ s, LogStore.openLog memFile ⟨[]⟩ = .ok s ∧ Stands MemFile.data s [] := by
  have hnone : ∀ r ∈ ([] : List Record), r.Fits := by simp
  exact openLog_torn hnone torn_nil

section Memory

variable {s : LogStore MemFile} {recs : List Record}

theorem compact_succeeds (h : Stands MemFile.data s recs) :
    ∃ s', LogStore.compact memFile s = .ok () s' := by
  rw [compact_eq memFile_faithful h]
  by_cases hfresh : encodeAll (liveRecords (values recs)) = []
  · rw [hfresh]
    exact ⟨_, rfl⟩
  · have hwrite : LogStore.writeFresh memFile (encodeAll (liveRecords (values recs))) =
        LogStore.onFile (memFile.writeAt 0 (encodeAll (liveRecords (values recs)))) := if_pos hfresh
    unfold LogStore.install
    rw [hwrite]
    exact ⟨_, rfl⟩

theorem maybeCompact_succeeds (h : Stands MemFile.data s recs) :
    ∃ s', LogStore.maybeCompact memFile s = .ok () s' := by
  show ∃ s', (if Due s.end_ s.dead then LogStore.compact memFile else pure ()) s = .ok () s'
  split_ifs
  · exact compact_succeeds h
  · exact ⟨s, rfl⟩

/-- No mutation fails. -/
theorem Mutation.run_succeeds (h : Stands MemFile.data s recs) {x : Mutation} (hx : x.Fits) :
    ∃ s', x.run memFile s = .ok () s' := by
  have hwrite : ∀ bytes, writeBytes s.end_ bytes s.file.data = encodeAll recs ++ bytes := by
    intro bytes
    rw [h.end_eq, h.file, writeBytes_end]
  cases x with
  | put key value =>
    have hput : MemFile.data ⟨writeBytes s.end_ (encodeRecord key KIND_PUT value) s.file.data⟩ =
        encodeAll (recs ++ [.put key value]) := (hwrite _).trans (by simp [Record.encode])
    exact maybeCompact_succeeds (h.put hx hput)
  | delete key =>
    cases hold : s.index[key]? with
    | none => exact ⟨s, LogStore.delete_none hold⟩
    | some old =>
      have hdelete : MemFile.data ⟨writeBytes s.end_ (encodeRecord key KIND_DEL []) s.file.data⟩ =
          encodeAll (recs ++ [.del key]) := (hwrite _).trans (by simp [Record.encode])
      rw [Mutation.run, LogStore.delete_some hold]
      exact maybeCompact_succeeds (h.delete hold hdelete)
  | compact => exact compact_succeeds h

end Memory

/-- What is done to a store in memory over its lifetime. -/
inductive Op where
  | mutate (x : Mutation)
  | reopen
  deriving DecidableEq

namespace Op

def run (s : LogStore MemFile) : Op → Except OutOfRange (LogStore MemFile)
  | mutate x =>
    match x.run memFile s with
    | .ok _ s' => .ok s'
    | .error e _ => .error e
  | reopen => LogStore.openLog memFile s.file

def apply (m : ExtTreeMap U64 Bytes) : Op → ExtTreeMap U64 Bytes
  | mutate x => x.apply m
  | reopen => m

def Fits : Op → Prop
  | mutate x => x.Fits
  | reopen => True

end Op

/-- A row of operations on a store opened over an empty file. -/
def runAll (ops : List Op) : Except OutOfRange (LogStore MemFile) := do
  let s ← LogStore.openLog memFile ⟨[]⟩
  ops.foldlM Op.run s

/-- The map a row of operations makes. -/
def mapOf (ops : List Op) : ExtTreeMap U64 Bytes := ops.foldl Op.apply ∅

/-- The store answers as the map, and its file and its counts are the map's records. -/
structure Refines (s : LogStore MemFile) (m : ExtTreeMap U64 Bytes) : Prop where
  get : ∀ key : U64, s.get memFile key = .ok m[key]?
  contains : ∀ key : U64, s.contains memFile key = .ok (m.contains key)
  len : s.len = (.ok m.size : Except OutOfRange ℕ)
  file : ∃ recs : List Record, (∀ r ∈ recs, r.Fits) ∧ s.file.data = encodeAll recs
  end_ : s.end_ = s.file.data.length
  live : s.dead ≤ s.end_ ∧ s.end_ - s.dead = liveSize m

variable {s : LogStore MemFile}

theorem Stands.refines (h : Stands MemFile.data s recs) : Refines s (values recs) where
  get := h.get_eq memFile_faithful
  contains key := by
    rw [h.contains_eq memFile_faithful]
    simp
  len := h.len_eq
  file := ⟨recs, h.fits, h.file⟩
  end_ := h.end_eq
  live := by
    have := h.dead_add
    omega

theorem Op.run_stands (h : Stands MemFile.data s recs) {op : Op} (hop : op.Fits) :
    ∃ s' recs', op.run s = .ok s' ∧ Stands MemFile.data s' recs' ∧
      values recs' = op.apply (values recs) := by
  cases op with
  | mutate x =>
    obtain ⟨s', hs'⟩ := Mutation.run_succeeds h (x := x) hop
    obtain ⟨-, recs', hrecs', hvalues⟩ := (Mutation.run_within memFile_faithful h hop).ok hs'
    refine ⟨s', recs', ?_, hrecs', hvalues⟩
    rw [Op.run, hs']
  | reopen =>
    obtain ⟨s', hs', hstands⟩ := openLog_torn h.fits torn_nil
    refine ⟨s', recs, ?_, hstands, rfl⟩
    rw [List.append_nil, ← h.file] at hs'
    exact hs'

theorem foldlM_stands (h : Stands MemFile.data s recs) :
    ∀ {ops : List Op}, (∀ op ∈ ops, op.Fits) →
    ∃ s' recs', ops.foldlM Op.run s = .ok s' ∧ Stands MemFile.data s' recs' ∧
      values recs' = ops.foldl Op.apply (values recs) := by
  intro ops
  induction ops generalizing s recs with
  | nil =>
    intro _
    exact ⟨s, recs, rfl, h, rfl⟩
  | cons op ops ih =>
    intro hops
    obtain ⟨s₁, recs₁, hrun, hs₁, hvalues⟩ := Op.run_stands h (hops op List.mem_cons_self)
    obtain ⟨s', recs', hrest, hs', hvalues'⟩ :=
      ih hs₁ fun op' hop' => hops op' (List.mem_cons_of_mem _ hop')
    refine ⟨s', recs', ?_, hs', ?_⟩
    · rw [List.foldlM_cons, hrun]
      exact hrest
    · rw [hvalues', hvalues, List.foldl_cons]

/-- Every row of operations succeeds and leaves a store that stands for records of
the map the row makes. -/
theorem runAll_stands {ops : List Op} (hops : ∀ op ∈ ops, op.Fits) :
    ∃ s recs, runAll ops = .ok s ∧ Stands MemFile.data s recs ∧ values recs = mapOf ops := by
  obtain ⟨s₀, hs₀, hstands⟩ := openLog_nil
  obtain ⟨s, recs, hrun, hs, hvalues⟩ := foldlM_stands hstands hops
  refine ⟨s, recs, ?_, hs, hvalues⟩
  show (LogStore.openLog memFile ⟨[]⟩ >>= _) = _
  rw [hs₀]
  exact hrun

/-- A store in memory is the map its operations make. -/
theorem runAll_refines (ops : List Op) (hops : ∀ op ∈ ops, op.Fits) :
    ∃ s, runAll ops = .ok s ∧ Refines s (mapOf ops) := by
  obtain ⟨s, recs, hrun, hs, hvalues⟩ := runAll_stands hops
  exact ⟨s, hrun, hvalues ▸ hs.refines⟩

/-- A put, an overwrite, a deletion, a compaction and a reopening. -/
theorem runAll_refines_five :
    ∃ s, runAll [.mutate (.put 1 [97]), .mutate (.put 1 [98, 99]), .mutate (.delete 2),
        .mutate .compact, .reopen] = .ok s ∧
      Refines s (mapOf [.mutate (.put 1 [97]), .mutate (.put 1 [98, 99]), .mutate (.delete 2),
        .mutate .compact, .reopen]) :=
  runAll_refines _ (by
    intro op hop
    simp only [List.mem_cons, List.not_mem_nil, or_false] at hop
    rcases hop with rfl | rfl | rfl | rfl | rfl <;> simp [Op.Fits, Mutation.Fits])

end Storage
end HypercoreRs
