/-
# Reading layouts

A layout is written field after field and read the same way: a reader takes what
it reads off the front of a string of bytes and leaves the rest, or fails where the
bytes do not suffice. A reader inverts a writer when it reads what was written
whatever follows it (`Reads`), and this is kept by repetition. Values that show where
they end, such as arrays of one width, are `Coded`. A whole layout is a `Layout`: it
refuses the values whose numbers leave their fields, and what it writes it reads back.
-/
import HypercoreRs.Codec.LittleEndian
import Mathlib.Logic.Encodable.Basic

namespace HypercoreRs

variable {α : Type}

/-- `read` takes the bytes `written` off the front and returns `a`. -/
def Reads (read : List UInt8 → Option (α × List UInt8)) (written : List UInt8) (a : α) : Prop :=
  ∀ rest, read (written ++ rest) = some (a, rest)

variable {read : List UInt8 → Option (α × List UInt8)} {written : List UInt8} {a : α}

/-- Reading goes on with what was read. -/
theorem Reads.bind {β : Type} (h : Reads read written a) (rest : List UInt8) (f : α × List UInt8 → Option β) :
    (read (written ++ rest) >>= f) = f (a, rest) := by
  rw [h rest]
  rfl

theorem Reads.bind_nil {β : Type} (h : Reads read written a) (f : α × List UInt8 → Option β) :
    (read written >>= f) = f (a, []) := by
  have := h.bind [] f
  rwa [List.append_nil] at this

/-- What was written shows where it ends. -/
theorem Reads.inj {written written' : List UInt8} {a a' : α} (h : Reads read written a)
    (h' : Reads read written' a') {rest rest' : List UInt8}
    (he : written ++ rest = written' ++ rest') : a = a' ∧ rest = rest' := by
  have hread := h rest
  rw [he, h' rest'] at hread
  obtain ⟨ha, hrest⟩ := Prod.mk.inj (Option.some.inj hread)
  exact ⟨ha.symm, hrest.symm⟩

/-- The next `n` bytes. -/
def takeBytes (n : ℕ) (bytes : List UInt8) : Option (List UInt8 × List UInt8) :=
  if n ≤ bytes.length then some (bytes.take n, bytes.drop n) else none

/-- The next eight bytes, as a number. -/
def readU64 (bytes : List UInt8) : Option (ℕ × List UInt8) := do
  let (word, rest) ← takeBytes 8 bytes
  return (leNat word, rest)

/-- `n` values, one after another. -/
def readTimes (read : List UInt8 → Option (α × List UInt8)) :
    ℕ → List UInt8 → Option (List α × List UInt8)
  | 0, bytes => some ([], bytes)
  | n + 1, bytes => do
    let (a, rest) ← read bytes
    let (as, rest) ← readTimes read n rest
    return (a :: as, rest)

theorem reads_takeBytes (bytes : List UInt8) : Reads (takeBytes bytes.length) bytes bytes := by
  intro rest
  rw [takeBytes, if_pos (by simp), List.take_left, List.drop_left]

theorem reads_takeBytes_of_length {n : ℕ} {bytes : List UInt8} (h : bytes.length = n) :
    Reads (takeBytes n) bytes bytes := h ▸ reads_takeBytes bytes

theorem reads_readU64 {n : ℕ} (hn : n < 2 ^ 64) : Reads readU64 (leBytes 8 n) n := by
  intro rest
  rw [readU64, (reads_takeBytes_of_length (length_leBytes 8 n)).bind]
  dsimp only
  rw [leNat_leBytes (by simpa using hn)]
  rfl

theorem reads_readTimes {write : α → List UInt8} :
    ∀ {l : List α}, (∀ a ∈ l, Reads read (write a) a) →
    Reads (readTimes read l.length) (l.flatMap write) l
  | [], _, _ => rfl
  | a :: l, h, rest => by
    rw [List.length_cons, readTimes, List.flatMap_cons, List.append_assoc,
      (h a List.mem_cons_self).bind]
    dsimp only
    rw [(reads_readTimes fun b hb => h b (List.mem_cons_of_mem a hb)).bind]
    rfl

/-- Values in a form that shows where it ends. -/
structure Coded (α : Type) where
  toBytes : α → List UInt8
  read : List UInt8 → Option (α × List UInt8)
  reads : ∀ a, Reads read (toBytes a) a

/-- Arrays of `width` bytes, such as hashes. -/
def Coded.bits (width : ℕ) : Coded (BitVec (8 * width)) where
  toBytes a := leBytes width a.toNat
  read bytes := do
    let (word, rest) ← takeBytes width bytes
    return (BitVec.ofNat (8 * width) (leNat word), rest)
  reads a := by
    intro rest
    have hlt : a.toNat < 256 ^ width := by
      calc a.toNat < 2 ^ (8 * width) := a.isLt
        _ = 256 ^ width := by rw [pow_mul]; norm_num
    dsimp only
    rw [(reads_takeBytes_of_length (length_leBytes width a.toNat)).bind]
    dsimp only
    rw [leNat_leBytes hlt, BitVec.ofNat_toNat, BitVec.setWidth_eq]
    rfl

/-- A number, as that many ones before a zero. -/
def readUnary : List UInt8 → Option (ℕ × List UInt8)
  | [] => none
  | b :: rest => if b = 0 then some (0, rest) else (readUnary rest).map fun (n, rest) => (n + 1, rest)

theorem reads_readUnary : ∀ n : ℕ, Reads readUnary (List.replicate n 1 ++ [0]) n
  | 0, rest => rfl
  | n + 1, rest => by
    rw [List.replicate_succ, List.cons_append, List.cons_append, readUnary, if_neg (by decide),
      reads_readUnary n rest]
    rfl

/-- Values that can be counted have such a form, if not one to compute with. -/
noncomputable def Coded.ofCountable (α : Type) [Countable α] : Coded α :=
  have := Encodable.ofCountable α
  { toBytes := fun a => List.replicate (Encodable.encode a) 1 ++ [0]
    read := fun bytes => do
      let (n, rest) ← readUnary bytes
      return (← Encodable.decode n, rest)
    reads := by
      intro a rest
      dsimp only
      rw [(reads_readUnary (Encodable.encode a)).bind]
      dsimp only
      rw [Encodable.encodek]
      rfl }

/-- A layout of values. `write` refuses a value that does not fit it. -/
structure Layout (α : Type) where
  write : α → Option (List UInt8)
  read : List UInt8 → Option α
  read_write : ∀ {a bytes}, write a = some bytes → read bytes = some a

/-- The layout that writes the values with `fits` by `bytes`. -/
def Layout.of (fits : α → Bool) (bytes : α → List UInt8) (read : List UInt8 → Option α)
    (h : ∀ a, fits a = true → read (bytes a) = some a) : Layout α where
  write a := if fits a then some (bytes a) else none
  read := read
  read_write := by
    intro a bytes hw
    split_ifs at hw with hfits
    rw [← Option.some.inj hw, h a hfits]

theorem Layout.fits_of_write {fits : α → Bool} {bytes : α → List UInt8}
    {read : List UInt8 → Option α} {h : ∀ a, fits a = true → read (bytes a) = some a}
    (hw : (Layout.of fits bytes read h).write a = some written) : fits a = true := by
  unfold Layout.of at hw
  dsimp only at hw
  split_ifs at hw with hfits
  exact hfits

end HypercoreRs
