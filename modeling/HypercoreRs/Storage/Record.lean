/-
# The records of a log store

A log store's file is a row of records `[key: 8][kind: 1][len: 4][value]`. Opening
it replays the row into an index `key → (offset, len)` of the values and a count of
the dead bytes, the bytes of superseded records and of tombstones, and stops at the
first place where no complete record of a known kind stands.

Over the bytes stands the row of records itself. Replaying the bytes of a row, with
the beginning of one more record after it, is replaying the row (`scan_encodeAll`);
the index then points at the values of the map the row spells (`Replayed`), and the
bytes that are not dead are the bytes of that map's records.
-/
import HypercoreRs.Codec.LittleEndian
import HypercoreRs.Graph.Tables

open Std

namespace HypercoreRs
namespace Storage

abbrev U64 := Fin (2 ^ 64)

instance U64.neZero : NeZero (2 ^ 64) := inferInstance

instance U64.transOrd : TransOrd U64 := inferInstance

abbrev Bytes := List UInt8

/-- The size of a record's header, `key(8) + kind(1) + len(4)`. -/
def HDR : ℕ := 13

def KIND_PUT : UInt8 := 0

def KIND_DEL : UInt8 := 1

def encodeRecord (key : U64) (kind : UInt8) (value : Bytes) : Bytes :=
  leBytes 8 key.val ++ [kind] ++ leBytes 4 (value.length % 2 ^ 32) ++ value

/-- `bytes[offset..offset + len]` -/
def slice (bytes : Bytes) (offset len : ℕ) : Bytes := (bytes.drop offset).take len

/-- Where a value stands in the file. -/
structure Slot where
  offset : ℕ
  len : ℕ
  deriving DecidableEq

/-- The value that stands there. -/
def Slot.value (bytes : Bytes) (slot : Slot) : Bytes := slice bytes slot.offset slot.len

/-- The bytes a replaced record takes. -/
def reclaimed (old : Option Slot) : ℕ := old.elim 0 fun slot => HDR + slot.len

/-! ### Replaying bytes -/

/-- The variables of the replay loop of `LogStore::open`. -/
structure Scan where
  index : ExtTreeMap U64 Slot
  dead : ℕ
  pos : ℕ

def Scan.start : Scan := ⟨∅, 0, 0⟩

/-- One round of the loop; `none` where the loop is left. -/
def Scan.next (buf : Bytes) (t : Scan) : Option Scan :=
  if t.pos + HDR ≤ buf.length then
    let key : U64 := Fin.ofNat (2 ^ 64) (leNat (slice buf t.pos 8))
    let len := leNat (slice buf (t.pos + 9) 4)
    if t.pos + HDR + len > buf.length then none -- truncated tail
    else if buf[t.pos + 8]? = some KIND_PUT then
      some
        { index := t.index.insert key ⟨t.pos + HDR, len⟩
          dead := t.dead + reclaimed t.index[key]?
          pos := t.pos + (HDR + len) }
    else if buf[t.pos + 8]? = some KIND_DEL then
      some
        { index := t.index.erase key
          dead := t.dead + reclaimed t.index[key]? + HDR -- the tombstone is reclaimable too
          pos := t.pos + (HDR + len) }
    else none -- corrupt
  else none

/-- The loop, for at most `fuel` rounds. -/
def scan (buf : Bytes) : ℕ → Scan → Scan
  | 0, t => t
  | fuel + 1, t =>
    match t.next buf with
    | some t' => scan buf fuel t'
    | none => t

/-! ### The row of records -/

/-- What a mutation appends. -/
inductive Record where
  | put (key : U64) (value : Bytes)
  | del (key : U64)

namespace Record

def encode : Record → Bytes
  | put key value => encodeRecord key KIND_PUT value
  | del key => encodeRecord key KIND_DEL []

/-- The record's length field can hold the length. -/
def Fits : Record → Prop
  | put _ value => value.length < 2 ^ 32
  | del _ => True

/-- What the record does to the map the store stands for. -/
def apply (m : ExtTreeMap U64 Bytes) : Record → ExtTreeMap U64 Bytes
  | put key value => m.insert key value
  | del key => m.erase key

/-- What replaying the record does. -/
def scan (t : Scan) : Record → Scan
  | put key value =>
    { index := t.index.insert key ⟨t.pos + HDR, value.length⟩
      dead := t.dead + reclaimed t.index[key]?
      pos := t.pos + (HDR + value.length) }
  | del key =>
    { index := t.index.erase key
      dead := t.dead + reclaimed t.index[key]? + HDR
      pos := t.pos + (HDR + 0) }

end Record

/-- The bytes of a row of records. -/
def encodeAll (recs : List Record) : Bytes := recs.flatMap Record.encode

/-- The map a row of records spells. -/
def values (recs : List Record) : ExtTreeMap U64 Bytes := recs.foldl Record.apply ∅

@[simp] theorem encodeAll_append (recs recs' : List Record) :
    encodeAll (recs ++ recs') = encodeAll recs ++ encodeAll recs' := List.flatMap_append

@[simp] theorem encodeAll_singleton (r : Record) : encodeAll [r] = r.encode := by
  simp [encodeAll]

@[simp] theorem values_concat (recs : List Record) (r : Record) :
    values (recs ++ [r]) = r.apply (values recs) := by
  simp [values]

/-! ### Reading a record back -/

theorem length_encodeRecord (key : U64) (kind : UInt8) (value : Bytes) :
    (encodeRecord key kind value).length = HDR + value.length := by
  simp [encodeRecord, HDR]
  omega

theorem slice_append (pre rest : Bytes) (i n : ℕ) :
    slice (pre ++ rest) (pre.length + i) n = slice rest i n := by
  rw [slice, slice, List.drop_append, List.drop_eq_nil_of_le (by omega), List.nil_append,
    Nat.add_sub_cancel_left]

theorem slice_middle (pre v post : Bytes) : slice (pre ++ (v ++ post)) pre.length v.length = v := by
  rw [slice, List.drop_left, List.take_left]

theorem slice_within {bytes post : Bytes} {offset len : ℕ} (h : offset + len ≤ bytes.length) :
    slice (bytes ++ post) offset len = slice bytes offset len := by
  rw [slice, slice, List.drop_append_of_le_length (by omega), List.take_append_of_le_length]
  rw [List.length_drop]
  omega

/-- What the replay reads of a header, and where the value stands. -/
theorem read_header (key : U64) (kind : UInt8) (value rest : Bytes) :
    slice (encodeRecord key kind value ++ rest) 0 8 = leBytes 8 key.val ∧
    (encodeRecord key kind value ++ rest)[8]? = some kind ∧
    slice (encodeRecord key kind value ++ rest) 9 4 = leBytes 4 (value.length % 2 ^ 32) := by
  have hkey : (leBytes 8 key.val).length = 8 := length_leBytes _ _
  have hlen : (leBytes 4 (value.length % 2 ^ 32)).length = 4 := length_leBytes _ _
  unfold encodeRecord
  generalize leBytes 8 key.val = key' at hkey
  generalize leBytes 4 (value.length % 2 ^ 32) = len' at hlen
  refine ⟨?_, ?_, ?_⟩
  · have := slice_middle [] key' ([kind] ++ (len' ++ (value ++ rest)))
    simpa [hkey] using this
  · simp [hkey]
  · have := slice_middle (key' ++ [kind]) len' (value ++ rest)
    simpa [hkey, hlen] using this

/-- The record at the replay's position is read back. -/
theorem Scan.next_encode {r : Record} (hr : r.Fits) (pre rest : Bytes) {t : Scan}
    (ht : t.pos = pre.length) : t.next (pre ++ (r.encode ++ rest)) = some (r.scan t) := by
  have hread : ∀ (key : U64) (kind : UInt8) (value : Bytes), value.length < 2 ^ 32 →
      slice (pre ++ (encodeRecord key kind value ++ rest)) t.pos 8 = leBytes 8 key.val ∧
      (pre ++ (encodeRecord key kind value ++ rest))[t.pos + 8]? = some kind ∧
      leNat (slice (pre ++ (encodeRecord key kind value ++ rest)) (t.pos + 9) 4) = value.length ∧
      t.pos + HDR + value.length ≤ (pre ++ (encodeRecord key kind value ++ rest)).length := by
    intro key kind value hvalue
    obtain ⟨hkey, hkind, hlen⟩ := read_header key kind value rest
    rw [ht]
    refine ⟨(slice_append pre _ 0 8).trans hkey, ?_, ?_, ?_⟩
    · rw [List.getElem?_append_right (by omega), Nat.add_sub_cancel_left, hkind]
    · rw [slice_append, hlen, Nat.mod_eq_of_lt hvalue, leNat_leBytes (by simpa using hvalue)]
    · rw [List.length_append, List.length_append, length_encodeRecord]
      omega
  have hof : ∀ key : U64, Fin.ofNat (2 ^ 64) (leNat (leBytes 8 key.val)) = key := by
    intro key
    rw [leNat_leBytes (by simp)]
    exact Fin.ofNat_val_eq_self key
  cases r with
  | put key value =>
    obtain ⟨hkey, hkind, hlen, hle⟩ := hread key KIND_PUT value hr
    rw [Record.encode, Record.scan, Scan.next, if_pos (by omega)]
    dsimp only
    rw [hlen, if_neg (by omega), if_pos hkind, hkey, hof]
  | del key =>
    obtain ⟨hkey, hkind, hlen, hle⟩ := hread key KIND_DEL [] (by decide)
    have hput : ¬ (pre ++ (encodeRecord key KIND_DEL [] ++ rest))[t.pos + 8]? = some KIND_PUT := by
      rw [hkind]
      decide
    rw [Record.encode, Record.scan, Scan.next, if_pos (by omega)]
    dsimp only
    rw [hlen, if_neg (by omega), if_neg hput, if_pos hkind, hkey, hof]
    rfl

/-- A record cut short, or nothing at all. -/
def Torn (tail : Bytes) : Prop := ∃ r : Record, r.Fits ∧ ∃ rest, rest ≠ [] ∧ r.encode = tail ++ rest

theorem Record.length_encode (r : Record) : HDR ≤ r.encode.length := by
  cases r <;> simp only [Record.encode, length_encodeRecord] <;> omega

theorem torn_nil : Torn [] := by
  refine ⟨.del 0, trivial, (Record.del 0).encode, ?_, rfl⟩
  intro h
  have := Record.length_encode (.del 0)
  rw [h] at this
  exact absurd this (by decide)

variable {tail : Bytes}

/-- The replay stops at a record cut short. -/
theorem Scan.next_torn (htail : Torn tail) (pre : Bytes) {t : Scan} (ht : t.pos = pre.length) :
    t.next (pre ++ tail) = none := by
  obtain ⟨r, hr, rest, hrest, he⟩ := htail
  have hread : ∀ (key : U64) (kind : UInt8) (value : Bytes), value.length < 2 ^ 32 →
      encodeRecord key kind value = tail ++ rest → t.next (pre ++ tail) = none := by
    intro key kind value hvalue he
    have hlength := congrArg List.length he
    have hpos := List.length_pos_of_ne_nil hrest
    rw [length_encodeRecord, List.length_append] at hlength
    unfold Scan.next
    by_cases hheader : t.pos + HDR ≤ (pre ++ tail).length
    · -- a whole header is there, and the length it gives goes beyond the bytes that are
      rw [if_pos hheader]
      apply if_pos
      rw [ht, List.length_append] at hheader
      obtain ⟨-, -, hlen⟩ := read_header key kind value []
      rw [List.append_nil, he, slice_within (by dsimp only [HDR] at hheader; omega)] at hlen
      rw [ht, slice_append, hlen, Nat.mod_eq_of_lt hvalue, leNat_leBytes (by simpa using hvalue),
        List.length_append]
      omega
    · exact if_neg hheader
  cases r with
  | put key value => exact hread key KIND_PUT value hr he
  | del key => exact hread key KIND_DEL [] (by decide) he

theorem Record.pos_scan (r : Record) (t : Scan) : (r.scan t).pos = t.pos + r.encode.length := by
  cases r <;> simp [Record.scan, Record.encode, length_encodeRecord]

/-- Replaying a row of records. -/
def replay (recs : List Record) : Scan := recs.foldl Record.scan Scan.start

@[simp] theorem replay_concat (recs : List Record) (r : Record) :
    replay (recs ++ [r]) = r.scan (replay recs) := by
  simp [replay]

/-- Replaying the bytes of a row of records, with one cut short after it, is
replaying the row. -/
theorem scan_append (htail : Torn tail) : ∀ (recs : List Record) (pre : Bytes)
    (t : Scan) (fuel : ℕ), (∀ r ∈ recs, r.Fits) → t.pos = pre.length → recs.length ≤ fuel →
    scan (pre ++ (encodeAll recs ++ tail)) fuel t = recs.foldl Record.scan t
  | [], pre, t, fuel, _, ht, _ => by
    cases fuel with
    | zero => rfl
    | succ fuel =>
      rw [scan]
      have hstop := Scan.next_torn htail pre ht
      simp only [encodeAll, List.flatMap_nil, List.nil_append, hstop, List.foldl_nil]
  | r :: recs, pre, t, 0, _, _, hfuel => by simp at hfuel
  | r :: recs, pre, t, fuel + 1, hfits, ht, hfuel => by
    have hcons : pre ++ (encodeAll (r :: recs) ++ tail) =
        pre ++ (r.encode ++ (encodeAll recs ++ tail)) := by
      rw [encodeAll, List.flatMap_cons, List.append_assoc]
      rfl
    have hnext := Scan.next_encode (hfits r List.mem_cons_self) pre (encodeAll recs ++ tail) ht
    rw [hcons, scan, hnext, List.foldl_cons, ← List.append_assoc]
    apply scan_append htail recs _ _ fuel
    · intro r' hr'
      exact hfits r' (List.mem_cons_of_mem _ hr')
    · rw [Record.pos_scan, ht, List.length_append]
    · rw [List.length_cons] at hfuel
      omega

theorem length_le_encodeAll : ∀ recs : List Record, recs.length ≤ (encodeAll recs).length
  | [] => Nat.le_refl 0
  | r :: recs => by
    have hr := Record.length_encode r
    have ih := length_le_encodeAll recs
    simp only [encodeAll, List.flatMap_cons, List.length_cons, List.length_append, HDR] at hr ih ⊢
    omega

variable {recs : List Record}

theorem scan_encodeAll (hfits : ∀ r ∈ recs, r.Fits) (htail : Torn tail) :
    scan (encodeAll recs ++ tail) (encodeAll recs ++ tail).length Scan.start = replay recs := by
  have hlen := length_le_encodeAll recs
  apply scan_append htail recs [] Scan.start _ hfits rfl
  rw [List.length_append]
  omega

/-- Any beginning of the bytes of a row is the bytes of a beginning of the row and a
record cut short. -/
theorem take_encodeAll : ∀ {recs : List Record}, (∀ r ∈ recs, r.Fits) → ∀ n : ℕ,
    ∃ j tail, Torn tail ∧ (encodeAll recs).take n = encodeAll (recs.take j) ++ tail
  | [], _, n => ⟨0, [], torn_nil, by simp [encodeAll]⟩
  | r :: recs, hfits, n => by
    have hcons : encodeAll (r :: recs) = r.encode ++ encodeAll recs := rfl
    rw [hcons]
    by_cases hn : n < r.encode.length
    · refine ⟨0, r.encode.take n, ⟨r, hfits r List.mem_cons_self, r.encode.drop n, ?_, ?_⟩, ?_⟩
      · rw [ne_eq, List.drop_eq_nil_iff]
        omega
      · rw [List.take_append_drop]
      · rw [List.take_append_of_le_length (by omega), List.take_zero]
        rfl
    · obtain ⟨j, tail, htail, hj⟩ := take_encodeAll
        (fun r' hr' => hfits r' (List.mem_cons_of_mem _ hr')) (n - r.encode.length)
      refine ⟨j + 1, tail, htail, ?_⟩
      rw [List.take_append, List.take_of_length_le (by omega), hj, List.take_succ_cons]
      rw [← List.append_assoc]
      rfl

/-! ### What the replay leaves -/

/-- The bytes of the records of a map. -/
def liveSize (m : ExtTreeMap U64 Bytes) : ℕ := (m.toList.map fun p => HDR + p.2.length).sum

@[simp] theorem liveSize_empty : liveSize ∅ = 0 := by
  rw [liveSize, ExtTreeMap.toList_eq_nil_iff.mpr rfl, List.map_nil, List.sum_nil]

theorem liveSize_eq (m : ExtTreeMap U64 Bytes) (key : U64) :
    liveSize m = (m[key]?.elim 0 fun v : Bytes => HDR + v.length) + liveSize (m.erase key) :=
  Graph.sum_toList m _ key

theorem liveSize_insert (m : ExtTreeMap U64 Bytes) (key : U64) (value : Bytes) :
    liveSize (m.insert key value) = HDR + value.length + liveSize (m.erase key) := by
  rw [liveSize_eq _ key, Graph.getElem?_insert, if_pos rfl, Option.elim_some, Graph.insert_erase]

/-- The index points at the values of `m` among `bytes`, and what is not dead is the
records of `m`. -/
structure Replayed (bytes : Bytes) (t : Scan) (m : ExtTreeMap U64 Bytes) : Prop where
  pos : t.pos = bytes.length
  bound : ∀ {key : U64} {slot : Slot}, t.index[key]? = some slot →
    slot.offset + slot.len ≤ bytes.length
  points : ∀ key : U64, t.index[key]?.map (Slot.value bytes) = m[key]?
  live : t.dead + liveSize m = bytes.length

namespace Replayed

variable {bytes : Bytes} {t : Scan} {m : ExtTreeMap U64 Bytes}

theorem start : Replayed [] Scan.start ∅ where
  pos := rfl
  bound := by
    intro key slot h
    simp [Scan.start] at h
  points := by simp [Scan.start]
  live := by simp [Scan.start]

/-- What replacing a record reclaims is the size of the record. -/
theorem reclaimed_eq (h : Replayed bytes t m) (key : U64) :
    reclaimed t.index[key]? = m[key]?.elim 0 fun v : Bytes => HDR + v.length := by
  rw [← h.points key]
  cases hslot : t.index[key]? with
  | none => rfl
  | some slot =>
    have hbound := h.bound hslot
    simp only [reclaimed, Option.elim_some, Option.map_some, Slot.value, slice, List.length_take,
      List.length_drop]
    omega

/-- A further record keeps the values where they are. -/
theorem slice_append_right (h : Replayed bytes t m) (key : U64) (post : Bytes) :
    t.index[key]?.map (Slot.value (bytes ++ post)) = m[key]? := by
  rw [← h.points key]
  cases hslot : t.index[key]? with
  | none => rfl
  | some slot =>
    rw [Option.map_some, Option.map_some, Slot.value, Slot.value, slice_within (h.bound hslot)]

theorem record (h : Replayed bytes t m) {r : Record} :
    Replayed (bytes ++ r.encode) (r.scan t) (r.apply m) := by
  have hlive := h.live
  have hpos : (r.scan t).pos = (bytes ++ r.encode).length := by
    rw [Record.pos_scan, h.pos, List.length_append]
  cases r with
  | put key value =>
    refine ⟨hpos, ?_, ?_, ?_⟩
    · intro key' slot hslot
      rw [Record.scan, Graph.getElem?_insert] at hslot
      rw [Record.encode, List.length_append, length_encodeRecord]
      split_ifs at hslot with hkey
      · obtain rfl := Option.some.inj hslot
        rw [h.pos]
        dsimp only
        omega
      · have := h.bound hslot
        omega
    · intro key'
      rw [Record.scan, Record.apply, Graph.getElem?_insert, Graph.getElem?_insert]
      split_ifs with hkey
      · have hvalue : slice (bytes ++ encodeRecord key KIND_PUT value) (t.pos + HDR) value.length =
            value := by
          have := slice_middle (bytes ++ (leBytes 8 key.val ++ [KIND_PUT] ++
            leBytes 4 (value.length % 2 ^ 32))) value []
          rw [h.pos]
          simpa [encodeRecord, HDR] using this
        rw [Option.map_some, Record.encode, Slot.value, hvalue]
      · exact h.slice_append_right key' _
    · have hsplit := liveSize_eq m key
      rw [Record.scan, Record.apply, liveSize_insert, Record.encode, List.length_append,
        length_encodeRecord, h.reclaimed_eq]
      dsimp only
      omega
  | del key =>
    refine ⟨hpos, ?_, ?_, ?_⟩
    · intro key' slot hslot
      rw [Record.scan, Graph.getElem?_erase] at hslot
      rw [List.length_append]
      split_ifs at hslot with hkey
      have := h.bound hslot
      omega
    · intro key'
      rw [Record.scan, Record.apply, Graph.getElem?_erase, Graph.getElem?_erase]
      split_ifs with hkey
      · rfl
      · exact h.slice_append_right key' _
    · have hsplit := liveSize_eq m key
      rw [Record.scan, Record.apply, Record.encode, List.length_append, length_encodeRecord,
        h.reclaimed_eq, List.length_nil]
      dsimp only
      omega

end Replayed

/-- Replaying a row of records leaves an index of the map the row spells. -/
theorem replayed (recs : List Record) : Replayed (encodeAll recs) (replay recs) (values recs) := by
  induction recs using List.reverseRecOn with
  | nil => exact Replayed.start
  | append_singleton recs r ih =>
    rw [encodeAll_append, encodeAll_singleton, values_concat, replay_concat]
    exact ih.record

/-- The values of a row whose records fit are short. -/
theorem length_values (hfits : ∀ r ∈ recs, r.Fits) {key : U64} {value : Bytes}
    (h : (values recs)[key]? = some value) : value.length < 2 ^ 32 := by
  induction recs using List.reverseRecOn with
  | nil => simp [values] at h
  | append_singleton recs r ih =>
    have hrecs : ∀ r' ∈ recs, r'.Fits := fun r' hr' => hfits r' (List.mem_append_left _ hr')
    have hr : r.Fits := hfits r (by simp)
    rw [values_concat] at h
    cases r with
    | put key' value' =>
      rw [Record.apply, Graph.getElem?_insert] at h
      split_ifs at h with hkey
      · obtain rfl := Option.some.inj h
        exact hr
      · exact ih hrecs h
    | del key' =>
      rw [Record.apply, Graph.getElem?_erase] at h
      split_ifs at h with hkey
      exact ih hrecs h

end Storage
end HypercoreRs
