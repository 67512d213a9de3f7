/-
# Crashes of the log store

A crash cuts the row of calls a mutation makes on its file: after any call, or
inside a write, with any beginning of its bytes written. `crashFile` is a file that
dies so: it carries out as many calls as its fuse says and of the next one, where it
is a write, the first `torn` bytes.

A mutation that only appends survives every cut with the map from before it or the
map after it. `compact` does not: it truncates the file before it writes the live
records back, so a cut there leaves an empty store, and a `put` or `delete` that
compacts inherits that. `crashSafe_iff` says exactly when: no rewriting, or nothing
to lose.
-/
import HypercoreRs.Storage.LogStore

open Std

namespace HypercoreRs
namespace Storage

open Command

/-- A file that carries out `fuse` more calls, and of a write after them `torn` bytes. -/
structure CrashFile where
  data : Bytes
  fuse : ℕ
  torn : ℕ

inductive CrashError where
  | crash
  | outOfRange
  deriving DecidableEq

/-- A call that changes the data to `whole`, or to `cut` where the file dies in it. -/
def crashCall (whole cut : CrashFile → Bytes) : EStateM CrashError CrashFile Unit := fun file =>
  match file.fuse with
  | 0 => .error .crash { file with data := cut file }
  | fuse + 1 => .ok () { file with data := whole file, fuse := fuse }

def crashFile : SyncFile CrashFile CrashError where
  size file := .ok file.data.length
  readAt file offset len :=
    if offset + len ≤ file.data.length then .ok (slice file.data offset len) else .error .outOfRange
  writeAt offset buf :=
    crashCall (fun file => writeBytes offset buf file.data)
      fun file => writeBytes offset (buf.take file.torn) file.data
  truncate size := crashCall (fun file => file.data.take size) CrashFile.data
  flush := crashCall CrashFile.data CrashFile.data

theorem crashCall_within {whole cut : CrashFile → Bytes} {R : CrashFile → CrashFile → Prop}
    {Q : Unit → CrashFile → Prop} {file : CrashFile}
    (hwhole : ∀ file', file'.data = whole file → R file file' ∧ Q () file')
    (hcut : ∀ file', file'.data = cut file → R file file') :
    Command.Within R (crashCall whole cut) file Q := by
  unfold Command.Within crashCall
  cases file.fuse with
  | zero => exact hcut _ rfl
  | succ fuse => exact hwhole _ rfl

theorem crashFile_faithful : Faithful crashFile CrashFile.data where
  size _ := rfl
  readAt h := if_pos h
  writeAt offset buf file :=
    crashCall_within (fun _ h => ⟨⟨buf.length, by rw [h, List.take_length]⟩, h⟩) fun _ h =>
      ⟨file.torn, h⟩
  truncate size file := crashCall_within (fun _ h => ⟨.inr h, h⟩) fun _ h => .inl h
  flush file := crashCall_within (fun _ h => ⟨h, h⟩) fun _ h => h

/-- The store, its file about to die. -/
def LogStore.onCrash (s : LogStore MemFile) (fuse torn : ℕ) : LogStore CrashFile :=
  ⟨⟨s.file.data, fuse, torn⟩, s.index, s.end_, s.dead⟩

/-- The bytes that survive the mutation. -/
def survivor (s : LogStore MemFile) (x : Mutation) (fuse torn : ℕ) : Bytes :=
  (after (x.run crashFile) (s.onCrash fuse torn)).file.data

def Contents (s : LogStore MemFile) (m : ExtTreeMap U64 Bytes) : Prop :=
  ∀ key : U64, s.get memFile key = .ok m[key]?

/-- However the mutation of a store of `m` is cut, the surviving file opens to the map
before it or the map after it. -/
def CrashSafe (s : LogStore MemFile) (m : ExtTreeMap U64 Bytes) (x : Mutation) : Prop :=
  ∀ fuse torn, ∃ s', LogStore.openLog memFile ⟨survivor s x fuse torn⟩ = .ok s' ∧
    (Contents s' m ∨ Contents s' (x.apply m))

/-! ### What survives -/

section Survivor

variable {s : LogStore MemFile} {recs : List Record} {x : Mutation}

theorem leaves_survivor (h : Stands MemFile.data s recs) (hx : x.Fits) (fuse torn : ℕ) :
    x.Leaves (s.onCrash fuse torn) recs (survivor s x fuse torn) := by
  have hstands : Stands CrashFile.data (s.onCrash fuse torn) recs :=
    ⟨h.fits, h.file, h.index, h.end_, h.dead⟩
  exact (Mutation.run_within crashFile_faithful hstands hx).after

/-- Any beginning of the records of one entry at most is the records of none or of it. -/
theorem values_take {m : ExtTreeMap U64 Bytes} (hm : (liveRecords m).length ≤ 1) (j : ℕ) :
    values ((liveRecords m).take j) = ∅ ∨ values ((liveRecords m).take j) = m := by
  cases j with
  | zero => exact .inl rfl
  | succ j =>
    right
    rw [List.take_of_length_le (by omega), values_liveRecords]

theorem length_liveRecords (m : ExtTreeMap U64 Bytes) : (liveRecords m).length = m.size := by
  rw [liveRecords, List.length_map, ExtTreeMap.length_toList]

/-- From the empty map a mutation makes one entry at most. -/
theorem size_apply_empty (x : Mutation) : (x.apply ∅).size ≤ 1 := by
  cases x with
  | put key value =>
    rw [Mutation.apply, ExtTreeMap.size_insert]
    simp
  | delete key =>
    rw [Mutation.apply, Graph.erase_of_getElem? (by simp)]
    simp
  | compact => simp [Mutation.apply]

/-- A rewriting from or to the empty map has nothing to lose. -/
theorem values_inside {m : ExtTreeMap U64 Bytes} (hm : m = ∅ ∨ x.apply m = ∅) (j : ℕ) :
    values ((liveRecords (x.apply m)).take j) = m ∨
      values ((liveRecords (x.apply m)).take j) = x.apply m := by
  have hsize : (liveRecords (x.apply m)).length ≤ 1 := by
    rw [length_liveRecords]
    rcases hm with rfl | hm
    · exact size_apply_empty x
    · simp [hm]
  rcases values_take hsize j with hj | hj
  · rcases hm with hm | hm
    · exact .inl (hj.trans hm.symm)
    · exact .inr (hj.trans hm.symm)
  · exact .inr hj

/-- A file of records, and of one cut short, opens to the map the records spell. -/
theorem opens {recs : List Record} (hfits : ∀ r ∈ recs, r.Fits) {tail : Bytes} (htail : Torn tail) :
    ∃ s', LogStore.openLog memFile ⟨encodeAll recs ++ tail⟩ = .ok s' ∧ Contents s' (values recs) := by
  obtain ⟨s', hopen, hs'⟩ := openLog_torn hfits htail
  exact ⟨s', hopen, hs'.get_eq memFile_faithful⟩

theorem liveRecords_apply_fit (hfits : ∀ r ∈ recs, r.Fits) (hx : x.Fits) :
    ∀ r ∈ liveRecords (x.apply (values recs)), r.Fits := by
  cases x with
  | put key value =>
    have := liveRecords_fit (fits_concat hfits (r := .put key value) hx)
    rwa [values_concat] at this
  | delete key =>
    have := liveRecords_fit (fits_concat hfits (r := .del key) trivial)
    rwa [values_concat] at this
  | compact => exact liveRecords_fit hfits

theorem crashSafe_of (h : Stands MemFile.data s recs) (hx : x.Fits)
    (hsafe : ¬ x.Rewrites s ∨ values recs = ∅ ∨ x.apply (values recs) = ∅) :
    CrashSafe s (values recs) x := by
  intro fuse torn
  cases leaves_survivor h hx fuse torn with
  | before tail htail hbytes =>
    obtain ⟨s', hopen, hs'⟩ := opens h.fits htail
    exact ⟨s', hbytes ▸ hopen, .inl hs'⟩
  | after recs' hfits hvalues hbytes =>
    obtain ⟨s', hopen, hs'⟩ := opens hfits torn_nil
    rw [List.append_nil] at hopen
    exact ⟨s', hbytes ▸ hopen, .inr (hvalues ▸ hs')⟩
  | inside n hrewrites hbytes =>
    have hfits := liveRecords_apply_fit h.fits hx
    have hempty := hsafe.resolve_left (not_not_intro hrewrites)
    obtain ⟨j, tail, htail, htake⟩ := take_encodeAll hfits n
    obtain ⟨s', hopen, hs'⟩ := opens (fun r hr => hfits r (List.mem_of_mem_take hr)) htail
    rw [← htake, ← hbytes] at hopen
    refine ⟨s', hopen, ?_⟩
    rcases values_inside hempty j with hj | hj
    · exact .inl (hj ▸ hs')
    · exact .inr (hj ▸ hs')

end Survivor

/-! ### The cut after the truncation -/

section Cut

/-- With one call left, replacing the file empties it. -/
theorem install_cut (s : LogStore CrashFile) (hfuse : s.file.fuse = 1) (htorn : s.file.torn = 0)
    (fresh : Bytes) (newIndex : ExtTreeMap U64 Slot) :
    (after (LogStore.install crashFile fresh newIndex) s).file.data = [] := by
  obtain ⟨⟨data, fuse, torn⟩, index, end_, dead⟩ := s
  obtain rfl : fuse = 1 := hfuse
  obtain rfl : torn = 0 := htorn
  by_cases hfresh : fresh = []
  · rw [hfresh]
    rfl
  · have hwrite : LogStore.writeFresh crashFile fresh =
        LogStore.onFile (crashFile.writeAt 0 fresh) := if_pos hfresh
    unfold LogStore.install
    rw [hwrite]
    rfl

variable {s : LogStore CrashFile} {recs : List Record}

theorem compact_cut (h : Stands CrashFile.data s recs) (hfuse : s.file.fuse = 1)
    (htorn : s.file.torn = 0) : (after (LogStore.compact crashFile) s).file.data = [] := by
  rw [after, compact_eq crashFile_faithful h]
  exact install_cut s hfuse htorn _ _

theorem maybeCompact_cut (h : Stands CrashFile.data s recs) (hfuse : s.file.fuse = 1)
    (htorn : s.file.torn = 0) (hdue : Due s.end_ s.dead) :
    (after (LogStore.maybeCompact crashFile) s).file.data = [] := by
  have heq : LogStore.maybeCompact crashFile s = LogStore.compact crashFile s := by
    show (if Due s.end_ s.dead then LogStore.compact crashFile else pure ()) s = _
    rw [if_pos hdue]
  rw [after, heq]
  exact compact_cut h hfuse htorn

/-- A mutation that rewrites the file has a cut that leaves it empty. -/
theorem survivor_nil {s : LogStore MemFile} (h : Stands MemFile.data s recs) {x : Mutation}
    (hx : x.Fits) (hrewrites : x.Rewrites s) : ∃ fuse, survivor s x fuse 0 = [] := by
  have hwrite : ∀ bytes, writeBytes s.end_ bytes s.file.data = encodeAll recs ++ bytes := by
    intro bytes
    rw [h.end_eq, h.file, writeBytes_end]
  have hstands : ∀ fuse, Stands CrashFile.data (s.onCrash fuse 0) recs :=
    fun _ => ⟨h.fits, h.file, h.index, h.end_, h.dead⟩
  cases x with
  | put key value =>
    -- the write of the record, its flush and the truncation are carried out
    refine ⟨3, ?_⟩
    have hfile : CrashFile.data ⟨writeBytes s.end_ (encodeRecord key KIND_PUT value) s.file.data,
        1, 0⟩ = encodeAll (recs ++ [.put key value]) := (hwrite _).trans (by simp [Record.encode])
    refine maybeCompact_cut ((hstands 3).put hx hfile) rfl rfl ?_
    rw [length_encodeRecord]
    exact hrewrites
  | delete key =>
    refine ⟨3, ?_⟩
    cases hold : s.index[key]? with
    | none =>
      rw [Mutation.Rewrites, hold] at hrewrites
      exact hrewrites.elim
    | some old =>
      rw [Mutation.Rewrites, hold] at hrewrites
      have hfile : CrashFile.data ⟨writeBytes s.end_ (encodeRecord key KIND_DEL []) s.file.data,
          1, 0⟩ = encodeAll (recs ++ [.del key]) := (hwrite _).trans (by simp [Record.encode])
      have hcut := maybeCompact_cut ((hstands 3).delete hold hfile) rfl rfl (by
        rw [length_encodeRecord]
        exact hrewrites)
      rw [survivor, after, Mutation.run,
        LogStore.delete_some (show (s.onCrash 3 0).index[key]? = some old from hold)]
      exact hcut
  | compact => exact ⟨1, compact_cut (hstands 1) rfl rfl⟩

end Cut

/-- A mutation of a store in memory is safe under every crash if and only if it does
not rewrite the file, or has the empty map before it or after it. -/
theorem crashSafe_iff (ops : List Op) (hops : ∀ op ∈ ops, op.Fits) (s : LogStore MemFile)
    (hs : runAll ops = .ok s) (x : Mutation) (hx : x.Fits) :
    CrashSafe s (mapOf ops) x ↔ ¬ x.Rewrites s ∨ mapOf ops = ∅ ∨ x.apply (mapOf ops) = ∅ := by
  obtain ⟨s', recs, hs', hstands, hvalues⟩ := runAll_stands hops
  obtain rfl : s' = s := Except.ok.inj (hs'.symm.trans hs)
  rw [← hvalues]
  refine ⟨fun hsafe => ?_, crashSafe_of hstands hx⟩
  by_cases hrewrites : x.Rewrites s'
  · right
    obtain ⟨fuse, hnil⟩ := survivor_nil hstands hx hrewrites
    obtain ⟨s₁, hopen, hcontents⟩ := hsafe fuse 0
    obtain ⟨s₂, hopen', hs₂⟩ := openLog_nil
    rw [hnil, hopen'] at hopen
    obtain rfl := Except.ok.inj hopen
    have hempty : ∀ {m : ExtTreeMap U64 Bytes}, Contents s₂ m → m = ∅ := by
      intro m hm
      apply ExtTreeMap.ext_getElem?
      intro key
      have := (hm key).symm.trans (hs₂.get_eq memFile_faithful key)
      exact Except.ok.inj this
    exact hcontents.imp hempty hempty
  · exact .inl hrewrites

/-- The store after one put. -/
def onePut : LogStore MemFile :=
  ⟨⟨encodeRecord 1 KIND_PUT [97]⟩, (∅ : ExtTreeMap U64 Slot).insert 1 ⟨13, 1⟩, 14, 0⟩

theorem runAll_onePut : runAll [.mutate (.put 1 [97])] = .ok onePut := by rfl

theorem fits_onePut : ∀ op ∈ [Op.mutate (.put 1 [97])], op.Fits := by
  intro op hop
  rw [List.mem_singleton.mp hop]
  show 1 < 2 ^ 32
  decide

/-- A second put, of a store far too small to be rewritten, survives every crash. -/
theorem crashSafe_second_put :
    ¬ (Mutation.put 2 [98]).Rewrites onePut ∧
      CrashSafe onePut (mapOf [.mutate (.put 1 [97])]) (.put 2 [98]) := by
  have hsmall : ¬ (Mutation.put 2 [98]).Rewrites onePut := by
    intro h
    exact absurd h.1 (by decide)
  refine ⟨hsmall, ?_⟩
  exact (crashSafe_iff _ fits_onePut onePut runAll_onePut (.put 2 [98])
    (show 1 < 2 ^ 32 by decide)).mpr (.inl hsmall)

/-- A compaction cut after its truncation loses the only value: the surviving file is
empty, while the store held the value before and is to hold it after. -/
theorem compact_cut_loses :
    runAll [.mutate (.put 1 [97])] = .ok onePut ∧
      survivor onePut .compact 1 0 = [] ∧
      ¬ CrashSafe onePut (mapOf [.mutate (.put 1 [97])]) .compact := by
  have hnil : survivor onePut .compact 1 0 = [] := by rfl
  refine ⟨runAll_onePut, hnil, fun hsafe => ?_⟩
  obtain ⟨s', hopen, hcontents⟩ := hsafe 1 0
  rw [hnil] at hopen
  obtain rfl := Except.ok.inj hopen
  rcases hcontents with hlost | hlost
  all_goals exact absurd (Except.ok.inj (hlost 1)) (by decide)

end Storage
end HypercoreRs
