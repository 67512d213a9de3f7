/-
# Failed writes of the log store

A write to the file may fail having written nothing (`Sparing`). `put` writes its record
before it touches the index, so one that fails in that write changes nothing. Every other
call comes too late: after it the record is in the file and in the index, or a compaction
has emptied the file. `delete` takes the key out of the index before it writes, so the store
in memory forgets a key that the file still has. `failed_write_iff` says so.
-/
import HypercoreRs.Command.Ends
import HypercoreRs.Storage.Crash

namespace HypercoreRs
namespace Storage

open Std Command

variable {F E : Type}

/-- A write that fails has written nothing. -/
def Sparing (io : SyncFile F E) (view : F → Bytes) : Prop :=
  ∀ offset buf file e file', io.writeAt offset buf file = .error e file' → view file' = view file

section Observed

variable (view : F → Bytes)

/-- The store as it reads while its file works. -/
def LogStore.seen (s : LogStore F) : LogStore MemFile := ⟨⟨view s.file⟩, s.index, s.end_, s.dead⟩

/-- What is under a key once the file is opened again. -/
def reopened (bytes : Bytes) (key : U64) : Except OutOfRange (Option Bytes) := do
  let s ← LogStore.openLog memFile ⟨bytes⟩
  s.get memFile key

/-- `s'` reads as `s` does, also opened again. -/
structure Unchanged (s s' : LogStore F) : Prop where
  get : ∀ key, (s'.seen view).get memFile key = (s.seen view).get memFile key
  contains : ∀ key, (s'.seen view).contains memFile key = (s.seen view).contains memFile key
  len : ((s'.seen view).len : Except OutOfRange ℕ) = (s.seen view).len
  reopened : ∀ key, reopened (view s'.file) key = reopened (view s.file) key

end Observed

/-- The mutation is a put, and the write of its record fails. -/
def Mutation.Unwritten (io : SyncFile F E) (s : LogStore F) : Mutation → Prop
  | put key value => ∃ e file, io.writeAt s.end_ (encodeRecord key KIND_PUT value) s.file = .error e file
  | _ => False

variable {io : SyncFile F E} {view : F → Bytes} {s s' : LogStore F} {recs : List Record} {key : U64} {e : E}

theorem Stands.seen (h : Stands view s recs) : Stands MemFile.data (s.seen view) recs :=
  ⟨h.fits, h.file, h.index, h.end_, h.dead⟩

theorem unwritten_unchanged (hio : Sparing io view) {x : Mutation} (h : x.run io s = .error e s')
    (hx : x.Unwritten io s) : Unchanged view s s' := by
  cases x with
  | put key value =>
    obtain ⟨e', file, hwrite⟩ := hx
    have hput : LogStore.put io key value s = .error e' { s with file := file } := by
      show EStateM.bind (LogStore.onFile _) _ s = _
      rw [EStateM.bind, LogStore.onFile, zoom, hwrite]
      rfl
    obtain ⟨-, rfl⟩ := EStateM.Result.error.inj (hput.symm.trans h)
    have hview : view file = view s.file := hio _ _ _ _ _ hwrite
    have hseen : LogStore.seen view { s with file := file } = s.seen view := by
      rw [LogStore.seen, hview]
      rfl
    exact ⟨fun _ => by rw [hseen], fun _ => by rw [hseen], by rw [hseen], fun _ => by rw [hview]⟩
  | delete key => exact hx.elim
  | compact => exact hx.elim

/-! ### What the others leave -/

theorem ends_onFile_index (x : EStateM E F Unit) : Ends (LogStore.onFile x) s
    (fun _ s' => s'.index = s.index) fun _ s' => s'.index = s.index :=
  (Ends.any x s.file).zoom (fun _ _ _ => rfl) fun _ _ _ => rfl

/-- A compaction that fails has not touched the index. -/
theorem ends_finish_index : Ends (LogStore.onFile io.flush >>= fun _ => LogStore.maybeCompact io) s
    (fun _ _ => True) fun _ s' => s'.index = s.index := by
  have hfile : ∀ {x : EStateM E F Unit} {s₁ : LogStore F}, s₁.index = s.index →
      Ends (LogStore.onFile x) s₁ (fun _ s' => s'.index = s.index) fun _ s' => s'.index = s.index :=
    fun {x} _ hs₁ => hs₁ ▸ ends_onFile_index x
  refine .bind (hfile rfl) fun _ s₁ hs₁ => ?_
  unfold LogStore.maybeCompact
  refine .get ?_
  split_ifs
  · unfold LogStore.compact LogStore.install LogStore.writeFresh
    refine .get (.bind (.reads (Q := fun _ s' => s'.index = s.index) (fun _ _ => hs₁)
      fun _ _ => hs₁) fun _ _ h => ?_)
    refine .bind (hfile h) fun _ _ h => .bind ?_ fun _ _ h => .bind (hfile h) fun _ _ _ => .modify trivial
    split_ifs
    · exact hfile h
    · exact .pure h
  · exact .pure trivial

theorem ends_tombstone_index (old : Slot) : Ends (LogStore.tombstone io key old) s (fun _ _ => True)
    fun _ s' => s'.index = s.index.erase key := by
  unfold LogStore.tombstone
  refine .update (.get (.bind (ends_onFile_index _) fun _ s₁ hs₁ => .update ?_))
  exact ends_finish_index.mono (fun _ _ h => h) fun _ _ h => h.trans hs₁

/-- What a beginning of the live records spells is in the map. -/
theorem of_getElem?_values_take {m : ExtTreeMap U64 Bytes} {j : ℕ} {value : Bytes}
    (h : (values ((liveRecords m).take j))[key]? = some value) : m[key]? = some value := by
  rw [values, liveRecords, ← List.map_take, List.foldl_map] at h
  have hkeys : m.toList.Pairwise fun p q => p.1 ≠ q.1 :=
    (ExtTreeMap.distinct_keys_toList (t := m)).imp fun {a b} hab => by simpa using hab
  have hfind := h.symm.trans (Graph.getElem?_foldl_insert (m.toList.take j) ∅ key
    (hkeys.sublist (List.take_sublist _ _)))
  rw [ExtTreeMap.getElem?_empty, Option.or_none, eq_comm, Option.map_eq_some_iff] at hfind
  obtain ⟨p, hp, rfl⟩ := hfind
  have hkey : p.1 = key := by simpa using List.find?_some hp
  exact hkey ▸ ExtTreeMap.mem_toList_iff_getElem?_eq_some.mp
    (List.mem_of_mem_take (List.mem_of_find?_eq_some hp))

/-- A put that fails after its first write has counted the record, and leaves values of the new
map in the file. -/
theorem ends_put (hio : Faithful io view) (h : Stands view s recs) {value : Bytes}
    (hvalue : value.length < 2 ^ 32) :
    Ends (LogStore.put io key value) s (fun _ _ => True) fun _ s' =>
      (Mutation.put key value).Unwritten io s ∨
      s'.index.size = ((values recs).insert key value).size ∧ ∃ recs', (∀ r ∈ recs', r.Fits) ∧
        (∃ tail, Torn tail ∧ view s'.file = encodeAll recs' ++ tail) ∧
        ∀ v, (values recs')[key]? = some v → v = value := by
  unfold LogStore.put
  refine .get (.bind (Q := fun _ s₁ => ∃ file, s₁ = { s with file := file } ∧
    view file = encodeAll (recs ++ [.put key value])) ?_ ?_)
  · refine ((within_iff.mp (hio.writeAt _ _ _)).and_error fun e file h => h).zoom
      (fun _ file hfile => ⟨file, rfl, ?_⟩) fun e file h => .inl ⟨e, file, h.2⟩
    rw [hfile.2, h.end_eq, h.file, writeBytes_end, encodeAll_append, encodeAll_singleton]
    rfl
  · rintro _ _ ⟨file, rfl, hfile⟩
    have hput := h.put hvalue hfile
    have hget : (values (recs ++ [.put key value]))[key]? = some value := by
      rw [values_concat]
      exact ExtTreeMap.getElem?_insert_self
    refine .update (((within_iff.mp (finish_within hio hput)).and_error
      fun e s' => ends_finish_index.error).mono (fun _ _ _ => trivial)
        fun _ s' ⟨hs', hindex⟩ => .inr ⟨?_, ?_⟩)
    · have hlen : (Except.ok _ : Except OutOfRange ℕ) = _ := hput.len_eq
      rw [hindex]
      exact (Except.ok.inj hlen).trans (congrArg ExtTreeMap.size (values_concat _ _))
    · rcases hs' with hs' | ⟨-, n, hs'⟩
      · refine ⟨_, hput.fits, ⟨[], torn_nil, ?_⟩, fun v hv => Option.some.inj (hv.symm.trans hget)⟩
        rw [List.append_nil, hs', hput.file]
      · have hfits := liveRecords_fit hput.fits
        obtain ⟨j, tail, htail, htake⟩ := take_encodeAll hfits n
        refine ⟨_, fun r hr => hfits r (List.mem_of_mem_take hr), ⟨tail, htail, hs'.trans htake⟩,
          fun v hv => ?_⟩
        exact Option.some.inj ((of_getElem?_values_take hv).symm.trans hget)

theorem reopened_eq (hfits : ∀ r ∈ recs, r.Fits) {tail : Bytes} (htail : Torn tail) (key : U64) :
    reopened (encodeAll recs ++ tail) key = .ok (values recs)[key]? := by
  obtain ⟨s, hopen, hs⟩ := opens hfits htail
  rw [reopened, hopen]
  exact hs key

/-- A put whose record is not written changes nothing, whatever the store. Another mutation
that fails though it is to change the map of the records changes something. -/
theorem failed_write_iff {x : Mutation} (h : x.run io s = .error e s') :
    (Sparing io view → x.Unwritten io s → Unchanged view s s') ∧
      (Faithful io view → ∀ recs, Stands view s recs → x.Fits → x.apply (values recs) ≠ values recs →
        Unchanged view s s' → x.Unwritten io s) := by
  refine ⟨fun hio => unwritten_unchanged hio h, fun hio recs hs hfits hne hsame => ?_⟩
  cases x with
  | put key value =>
    refine ((ends_put hio hs hfits).error h).resolve_right ?_
    rintro ⟨hsize, recs', hfits', ⟨tail, htail, hfile⟩, hvalue⟩
    -- as many keys as before, so the key was there, and is there in the file
    have hlen := hsame.len.trans hs.seen.len_eq
    have hcount := hsize.symm.trans (Except.ok.inj hlen)
    have hkey : key ∈ values recs := by
      rw [ExtTreeMap.size_insert] at hcount
      split_ifs at hcount with hkey
      · exact hkey
      · omega
    obtain ⟨old, hold⟩ := Option.isSome_iff_exists.mp (ExtTreeMap.mem_iff_isSome_getElem?.mp hkey)
    have hback := hsame.reopened key
    rw [hfile, hs.file, reopened_eq hfits' htail, ← List.append_nil (encodeAll recs),
      reopened_eq hs.fits torn_nil, hold] at hback
    obtain rfl := hvalue old (Except.ok.inj hback)
    exact hne (Graph.insert_of_getElem? hold)
  | delete key =>
    cases hold : s.index[key]? with
    | none => exact (hne (hs.erase_eq hold)).elim
    | some old =>
      have hindex := (ends_tombstone_index old).error ((LogStore.delete_some hold).symm.trans h)
      have hget := (hsame.get key).trans (hs.seen.get_eq memFile_faithful key)
      have hnone : (s'.seen view).index[key]? = none := by
        show s'.index[key]? = none
        rw [hindex, Graph.getElem?_erase, if_pos rfl]
      rw [LogStore.get, hnone] at hget
      exact (hne (Graph.erase_of_getElem? (Except.ok.inj hget).symm)).elim
  | compact => exact (hne rfl).elim

/-- A file in memory that carries out `fuse` more calls and then none. -/
def sparingFile : SyncFile CrashFile CrashError :=
  { crashFile with
    writeAt := fun offset buf => crashCall (fun file => writeBytes offset buf file.data) CrashFile.data }

theorem sparingFile_sparing : Sparing sparingFile CrashFile.data := by
  rintro offset buf ⟨data, fuse, torn⟩ e file' h
  cases fuse with
  | zero =>
    cases h
    rfl
  | succ fuse => cases h

theorem failed_second_put :
    (Mutation.put 2 [98]).Unwritten sparingFile (onePut.onCrash 0 0) ∧
      Unchanged CrashFile.data (onePut.onCrash 0 0) (onePut.onCrash 0 0) := by
  have hx : (Mutation.put 2 [98]).Unwritten sparingFile (onePut.onCrash 0 0) := ⟨_, _, rfl⟩
  have hrun : (Mutation.put 2 [98]).run sparingFile (onePut.onCrash 0 0) =
      .error .crash (onePut.onCrash 0 0) := rfl
  exact ⟨hx, (failed_write_iff hrun).1 sparingFile_sparing hx⟩

/-- A deletion whose tombstone is not written: the store no longer reads the key, the file
opened again does. And a put whose flush fails: it is read all the same. -/
theorem failed_delete_changes :
    runAll [.mutate (.put 1 [97])] = .ok onePut ∧
    (∃ s', LogStore.delete sparingFile 1 (onePut.onCrash 0 0) = .error .crash s' ∧
      (s'.seen CrashFile.data).get memFile 1 = .ok none ∧
      reopened s'.file.data 1 = .ok (some [97]) ∧ ¬ Unchanged CrashFile.data (onePut.onCrash 0 0) s') ∧
    ∃ s', LogStore.put sparingFile 2 [98] (onePut.onCrash 1 0) = .error .crash s' ∧
      (s'.seen CrashFile.data).get memFile 2 = .ok (some [98]) ∧
      ¬ Unchanged CrashFile.data (onePut.onCrash 1 0) s' := by
  refine ⟨runAll_onePut, ⟨_, rfl, rfl, rfl, fun h => ?_⟩, ⟨_, rfl, rfl, fun h => ?_⟩⟩
  · exact absurd (Except.ok.inj (h.get 1)) (by decide)
  · exact absurd (Except.ok.inj (h.get 2)) (by decide)

end Storage
end HypercoreRs
