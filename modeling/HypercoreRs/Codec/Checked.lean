/-
# Decoders that may panic

A decoder takes bytes off the front of its input and ends with a value or with an
error of its own. A third outcome is not in its type: a slice out of range, an
arithmetic overflow and a `Vec` with more than `isize::MAX` bytes of capacity panic.
`Checked` has all three, so that a decoder is written here with the operations of the
source that can panic where the source uses them.

Three facts about such a decoder are kept by sequencing and by loops: it reads back what
was written and leaves the rest (`Restores`), it never panics (`Total`), and where it does
not panic it is a given function in `Except` (`Agrees`). `After` says what holds of the
value read and the bytes left.
-/
import HypercoreRs.Codec.Varint
import Mathlib.Data.Vector.Defs

namespace HypercoreRs

/-- `isize::MAX` on a 64-bit target. -/
def isizeMax : ℕ := 2 ^ 63 - 1

/-- A `Vec` can have room for `n` values of `size` bytes each. -/
def VecHolds (n size : ℕ) : Prop := n * size ≤ isizeMax

instance (n size : ℕ) : Decidable (VecHolds n size) := inferInstanceAs (Decidable (_ ≤ _))

theorem VecHolds.lt {n size : ℕ} (h : VecHolds n size) (hsize : 0 < size) : n < 2 ^ 64 := by
  have hmul : n * 1 ≤ n * size := Nat.mul_le_mul_left n hsize
  rw [VecHolds, isizeMax] at h
  omega

/-- A decoder: the value read and the bytes left, an error, or `none` for a panic. -/
def Checked (ε α : Type) := List UInt8 → Option (Except ε (α × List UInt8))

namespace Checked

variable {ε ε' α β : Type}

instance : Monad (Checked ε) where
  pure a := fun b => some (.ok (a, b))
  bind m f := fun b =>
    match m b with
    | none => none
    | some (.error e) => some (.error e)
    | some (.ok (a, b')) => f a b'

/-- The outcome on an input; what is left of it is dropped. -/
def run (m : Checked ε α) (bytes : List UInt8) : Option (Except ε α) := (m bytes).map (Except.map Prod.fst)

def fail (e : ε) : Checked ε α := fun _ => some (.error e)

def panic : Checked ε α := fun _ => none

/-- `map_err`. -/
def mapErr (f : ε → ε') (m : Checked ε α) : Checked ε' α := fun b => (m b).map (Except.mapError f)

/-- `len` of the bytes left. -/
def remaining : Checked ε ℕ := fun b => some (.ok (b.length, b))

/-- `split_at`: the front is returned, the rest is left. -/
def splitAt (n : ℕ) : Checked ε (List UInt8) := fun b =>
  if n ≤ b.length then some (.ok (b.take n, b.drop n)) else none

/-- `copy_from_slice` into an array of `n` bytes. -/
def copyFromSlice (n : ℕ) (slice : List UInt8) : Checked ε (List.Vector UInt8 n) :=
  if h : slice.length = n then pure ⟨slice, h⟩ else panic

/-- `Vec::with_capacity`, of `n` values of `size` bytes each. -/
def withCapacity (n size : ℕ) : Checked ε Unit := if VecHolds n size then pure () else panic

/-- A loop that reads `n` values. -/
def times (m : Checked ε α) : ℕ → Checked ε (List α)
  | 0 => pure []
  | n + 1 => do
    let a ← m
    let as ← times m n
    return a :: as

/-- The next `n` bytes, if there are as many. -/
def take (eof : ε) (n : ℕ) : Checked ε (List UInt8) := do
  if (← remaining) < n then fail eof else splitAt n

/-- The next `n` bytes, as an array. -/
def takeArray (eof : ε) (n : ℕ) : Checked ε (List.Vector UInt8 n) := do
  let slice ← take eof n
  copyFromSlice n slice

/-! ### The outcomes -/

theorem bind_apply (m : Checked ε α) (f : α → Checked ε β) (b : List UInt8) :
    (m >>= f) b = match m b with
      | none => none
      | some (.error e) => some (.error e)
      | some (.ok (a, b')) => f a b' := rfl

variable {m : Checked ε α} {b : List UInt8}

theorem bind_eq_none {f : α → Checked ε β} :
    (m >>= f) b = none ↔ m b = none ∨ ∃ a b', m b = some (.ok (a, b')) ∧ f a b' = none := by
  rw [bind_apply]
  rcases m b with _ | e | ⟨a, b'⟩ <;> simp

variable {a : α}

theorem bind_of_ok {b b' : List UInt8} (h : m b = some (.ok (a, b'))) (f : α → Checked ε β) :
    (m >>= f) b = f a b' := by
  rw [bind_apply, h]

theorem bind_eq_some {f : α → Checked ε β} {r : Except ε (β × List UInt8)} :
    (m >>= f) b = some r ↔ (∃ e, m b = some (.error e) ∧ r = .error e) ∨
      ∃ a b', m b = some (.ok (a, b')) ∧ f a b' = some r := by
  rw [bind_apply]
  rcases m b with _ | e | ⟨a, b'⟩ <;> simp [eq_comm]

theorem bind_eq_ok {f : α → Checked ε β} {b b'' : List UInt8} {c : β} :
    (m >>= f) b = some (.ok (c, b'')) ↔
      ∃ a b', m b = some (.ok (a, b')) ∧ f a b' = some (.ok (c, b'')) := by
  simp [bind_eq_some]

theorem bind_pure' (m : Checked ε α) : (m >>= fun a => pure a) = m := by
  funext b
  rw [bind_apply]
  rcases m b with _ | e | ⟨a, b'⟩ <;> rfl

theorem bind_assoc' {γ : Type} (m : Checked ε α) (f : α → Checked ε β) (g : β → Checked ε γ) :
    m >>= f >>= g = m >>= fun a => f a >>= g := by
  funext b
  rw [bind_apply, bind_apply, bind_apply]
  rcases m b with _ | e | ⟨a, b'⟩ <;> rfl

instance : LawfulMonad (Checked ε) :=
  LawfulMonad.mk' (Checked ε) bind_pure' (fun _ _ => rfl) bind_assoc'

theorem take_apply (eof : ε) (n : ℕ) (b : List UInt8) :
    take eof n b = some (if b.length < n then .error eof else .ok (b.take n, b.drop n)) := by
  rw [take, bind_of_ok (show remaining b = some (.ok (b.length, b)) from rfl)]
  by_cases h : b.length < n
  · rw [if_pos h, if_pos h]
    rfl
  · rw [if_neg h, if_neg h, splitAt, if_pos (Nat.le_of_not_lt h)]

/-! ### Varints -/

/-- `<<` on a `u64`. -/
def shl (x shift : ℕ) : Option ℕ := if shift < 64 then some (x <<< shift % 2 ^ 64) else none

/-- `+` on `u32`s. -/
def addU32 (x y : ℕ) : Option ℕ := if x + y < 2 ^ 32 then some (x + y) else none

/-- The loop of `varint::read`. -/
def varintLoop : List UInt8 → ℕ → ℕ → Option (Except CodecError (ℕ × List UInt8))
  | [], shift, _ => some (if shift ≥ 64 then .error .badVarint else .error .eof)
  | byte :: rest, shift, result =>
    if shift ≥ 64 then some (.error .badVarint)
    else do
      let bits ← shl (byte.toNat % 128) shift
      let result := result ||| bits
      if byte.toNat < 128 then some (.ok (result, rest))
      else do
        let shift ← addU32 shift 7
        varintLoop rest shift result

def varint : Checked CodecError ℕ := fun b => varintLoop b 0 0

/-- The shift is checked before the word is shifted, and stays small. -/
theorem varintLoop_eq : ∀ (b : List UInt8) {shift : ℕ} (result : ℕ), shift ≤ 70 →
    varintLoop b shift result = some (Varint.readLoop b shift result)
  | [], _, _, _ => rfl
  | byte :: rest, shift, result, hshift => by
    rw [varintLoop, Varint.readLoop]
    by_cases h : shift ≥ 64
    · rw [if_pos h, if_pos h]
    · rw [if_neg h, if_neg h, shl, if_pos (by omega), Option.bind_eq_bind, Option.bind_some]
      dsimp only
      by_cases hlast : byte.toNat < 128
      · rw [if_pos hlast, if_pos hlast]
      · rw [if_neg hlast, if_neg hlast, addU32, if_pos (by omega), Option.bind_some]
        exact varintLoop_eq rest _ (by omega)

theorem varint_apply (b : List UInt8) : varint b = some (Varint.read b) := varintLoop_eq b 0 (by omega)

/-! ### What was written is read back -/

/-- `m` takes the bytes `written` off the front and returns `a`. -/
def Restores (m : Checked ε α) (written : List UInt8) (a : α) : Prop :=
  ∀ rest, m (written ++ rest) = some (.ok (a, rest))

theorem Restores.pure (a : α) : Restores (Pure.pure a : Checked ε α) [] a := fun _ => rfl

theorem Restores.bind {f : α → Checked ε β} {w w' : List UInt8} {c : β} (hm : Restores m w a)
    (hf : Restores (f a) w' c) : Restores (m >>= f) (w ++ w') c := by
  intro rest
  rw [List.append_assoc, bind_of_ok (hm (w' ++ rest)), hf rest]

variable {w : List UInt8}

/-- The last field of a record. -/
theorem Restores.map {f : α → β} (hm : Restores m w a) :
    Restores (m >>= fun a => Pure.pure (f a)) w (f a) := by
  have h := hm.bind (f := fun a => Pure.pure (f a)) (Restores.pure (f a))
  rwa [List.append_nil] at h

theorem Restores.mapErr (hm : Restores m w a) (f : ε → ε') : Restores (m.mapErr f) w a := by
  intro rest
  rw [Checked.mapErr, hm rest]
  rfl

theorem Restores.run (hm : Restores m w a) : m.run w = some (.ok a) := by
  have h := hm []
  rw [List.append_nil] at h
  rw [Checked.run, h]
  rfl

theorem Restores.times {write : α → List UInt8} :
    ∀ {l : List α}, (∀ a ∈ l, Restores m (write a) a) → Restores (m.times l.length) (l.flatMap write) l
  | [], _ => Restores.pure []
  | a :: l, h => by
    have ih := Restores.times fun a' ha' => h a' (List.mem_cons_of_mem a ha')
    rw [List.flatMap_cons, List.length_cons, Checked.times]
    exact (h a List.mem_cons_self).bind ih.map

theorem restores_varint {v : ℕ} (hv : v < 2 ^ 64) : Restores varint (Varint.write v) v := by
  intro rest
  rw [varint_apply, Varint.read_write hv rest]

variable {n size : ℕ}

theorem restores_withCapacity (h : VecHolds n size) :
    Restores (withCapacity n size : Checked ε Unit) [] () := by
  rw [withCapacity, if_pos h]
  exact Restores.pure ()

theorem restores_take (eof : ε) (bytes : List UInt8) : Restores (take eof bytes.length) bytes bytes := by
  intro rest
  have hle : ¬ (bytes ++ rest).length < bytes.length := by rw [List.length_append]; omega
  rw [take_apply, if_neg hle, List.take_left, List.drop_left]

theorem restores_takeArray (eof : ε) {n : ℕ} (a : List.Vector UInt8 n) :
    Restores (takeArray eof n) a.toList a := by
  have hlen : a.toList.length = n := a.2
  have htake := restores_take eof a.toList
  rw [hlen] at htake
  have hcopy : Restores (copyFromSlice n a.toList : Checked ε _) [] a := by
    rw [copyFromSlice, dif_pos hlen]
    exact Restores.pure a
  have h := htake.bind hcopy
  rwa [List.append_nil] at h

/-! ### Panics -/

/-- `m` panics on no input. -/
def Total (m : Checked ε α) : Prop := ∀ b, m b ≠ none

theorem total_pure (a : α) : Total (pure a : Checked ε α) := fun _ => Option.some_ne_none _

theorem total_fail (e : ε) : Total (fail e : Checked ε α) := fun _ => Option.some_ne_none _

theorem Total.bind {f : α → Checked ε β} (hm : Total m) (hf : ∀ a, Total (f a)) :
    Total (m >>= f) := by
  intro b h
  obtain h | ⟨a, b', -, h⟩ := bind_eq_none.mp h
  · exact hm b h
  · exact hf a b' h

theorem Total.mapErr (hm : Total m) (f : ε → ε') : Total (m.mapErr f) :=
  fun b h => hm b (Option.map_eq_none_iff.mp h)

theorem Total.times (hm : Total m) : ∀ n, Total (m.times n)
  | 0 => total_pure []
  | n + 1 => hm.bind fun _ => (Total.times hm n).bind fun _ => total_pure _

theorem total_varint : Total varint := fun b h => by
  rw [varint_apply] at h
  exact Option.some_ne_none _ h

theorem total_take (eof : ε) (n : ℕ) : Total (take eof n) := fun b h => by
  rw [take_apply] at h
  exact Option.some_ne_none _ h

/-- The slice that was taken has the array's length. -/
theorem total_takeArray (eof : ε) (n : ℕ) : Total (takeArray eof n) := by
  intro b h
  obtain h | ⟨slice, b', hslice, h⟩ := bind_eq_none.mp h
  · exact total_take eof n b h
  · rw [take_apply] at hslice
    by_cases hlt : b.length < n
    · rw [if_pos hlt] at hslice
      cases hslice
    · rw [if_neg hlt] at hslice
      have hlen : slice.length = n := by
        cases hslice
        rw [List.length_take]
        omega
      rw [copyFromSlice, dif_pos hlen] at h
      exact Option.some_ne_none _ h

theorem run_ne_none : m.run b ≠ none ↔ m b ≠ none := by
  rw [run, Ne, Option.map_eq_none_iff]

/-- `P` holds of what `m` reads off `b` and what it leaves, if it reads anything. -/
def After (m : Checked ε α) (P : α → List UInt8 → Prop) (b : List UInt8) : Prop :=
  ∀ a b', m b = some (.ok (a, b')) → P a b'

theorem after_bind {f : α → Checked ε β} {P : β → List UInt8 → Prop} :
    After (m >>= f) P b ↔ After m (fun a b' => After (f a) P b') b := by
  constructor
  · intro h a b' hm c b'' hf
    exact h c b'' (bind_eq_ok.mpr ⟨a, b', hm, hf⟩)
  · intro h c b'' hc
    obtain ⟨a, b', hm, hf⟩ := bind_eq_ok.mp hc
    exact h a b' hm c b'' hf

variable {P Q : α → List UInt8 → Prop}

theorem after_and : After m (fun a b' => P a b' ∧ Q a b') b ↔ After m P b ∧ After m Q b := by
  constructor
  · exact fun h => ⟨fun a b' hm => (h a b' hm).1, fun a b' hm => (h a b' hm).2⟩
  · exact fun h a b' hm => ⟨h.1 a b' hm, h.2 a b' hm⟩

theorem after_congr (h : ∀ a b', P a b' ↔ Q a b') : After m P b ↔ After m Q b :=
  forall₂_congr fun a b' => imp_congr_right fun _ => h a b'

theorem after_fail {e : ε} {P : α → List UInt8 → Prop} : After (fail e : Checked ε α) P b ↔ True :=
  iff_true_intro fun _ _ h => by cases h

/-- What follows a decoder that never panics runs where the decoder reads something. -/
theorem Total.bind_ne_none (hm : Total m) {f : α → Checked ε β} :
    (m >>= f) b ≠ none ↔ After m (fun a b' => f a b' ≠ none) b := by
  rw [Ne, bind_eq_none, not_or]
  constructor
  · exact fun h a b' hread hf => h.2 ⟨a, b', hread, hf⟩
  · rintro h
    exact ⟨hm b, fun ⟨a, b', hread, hf⟩ => h a b' hread hf⟩

/-- Room is asked for before anything is read into it. -/
theorem withCapacity_bind_ne_none {f : Unit → Checked ε β} :
    (withCapacity n size >>= f) b ≠ none ↔ VecHolds n size ∧ f () b ≠ none := by
  by_cases h : VecHolds n size
  · rw [bind_of_ok (show (withCapacity n size : Checked ε Unit) b = some (.ok ((), b)) by
      rw [withCapacity, if_pos h]; rfl)]
    exact (and_iff_right h).symm
  · refine iff_of_false ?_ fun hc => h hc.1
    rw [not_not, bind_eq_none]
    left
    rw [withCapacity, if_neg h]
    rfl

/-! ### Decoders without panics -/

/-- Where `m` does not panic it does what `f` does. -/
def Agrees (m : Checked ε α) (f : List UInt8 → Except ε (α × List UInt8)) : Prop :=
  ∀ b r, m b = some r → f b = r

variable {f : List UInt8 → Except ε (α × List UInt8)}

theorem Agrees.bind {m' : α → Checked ε β} {f' : α → List UInt8 → Except ε (β × List UInt8)} (hm : Agrees m f)
    (hm' : ∀ a, Agrees (m' a) (f' a)) :
    Agrees (m >>= m') fun b => f b >>= fun p => f' p.1 p.2 := by
  intro b r h
  dsimp only
  obtain ⟨e, he, rfl⟩ | ⟨a, b', hread, hrest⟩ := bind_eq_some.mp h
  · rw [hm b _ he]
    rfl
  · rw [hm b _ hread]
    exact hm' a b' r hrest

theorem agrees_pure (a : α) : Agrees (pure a : Checked ε α) fun b => .ok (a, b) := by
  intro b r h
  cases h
  rfl

theorem agrees_varint : Agrees varint Varint.read := by
  intro b r h
  rw [varint_apply] at h
  exact Option.some.inj h

theorem agrees_take (eof : ε) (n : ℕ) : Agrees (take eof n) fun b =>
    if b.length < n then .error eof else .ok (b.take n, b.drop n) := by
  intro b r h
  rw [take_apply] at h
  exact Option.some.inj h

theorem agrees_takeArray (eof : ε) (n : ℕ) : Agrees (do let a ← takeArray eof n; return a.toList) fun b =>
    if b.length < n then .error eof else .ok (b.take n, b.drop n) := by
  intro b r h
  refine agrees_take eof n b r ?_
  rw [← h, takeArray, bind_assoc, bind_apply]
  rw [take_apply]
  by_cases hlt : b.length < n
  · rw [if_pos hlt]
  · have hlen : (b.take n).length = n := by rw [List.length_take]; omega
    rw [if_neg hlt]
    dsimp only
    rw [copyFromSlice, dif_pos hlen]
    rfl

/-- A loop agrees with the loop of a function that its body agrees with. -/
theorem Agrees.times {loop : ℕ → List UInt8 → Except ε (List α × List UInt8)} (hm : Agrees m f)
    (hzero : ∀ b, loop 0 b = .ok ([], b))
    (hsucc : ∀ n b, loop (n + 1) b = f b >>= fun p => loop n p.2 >>= fun q => .ok (p.1 :: q.1, q.2)) :
    ∀ n, Agrees (m.times n) (loop n)
  | 0 => by
    rw [funext hzero]
    exact agrees_pure []
  | n + 1 => by
    rw [funext (hsucc n)]
    exact hm.bind fun a => (Agrees.times hm hzero hsucc n).bind fun as => agrees_pure (a :: as)

/-- A loop's room does not change what it reads. -/
theorem Agrees.withCapacity (hm : Agrees m f) (n size : ℕ) :
    Agrees (withCapacity n size >>= fun _ => m) f := by
  intro b r h
  have hne : (Checked.withCapacity n size >>= fun _ => m) b ≠ none := by
    rw [h]
    exact Option.some_ne_none r
  have hroom := (withCapacity_bind_ne_none.mp hne).1
  rw [Checked.withCapacity, if_pos hroom] at h
  exact hm b r h

theorem Agrees.run (hm : Agrees m f) {r : Except ε α} (h : m.run b = some r) : (f b).map Prod.fst = r := by
  obtain ⟨r', hr', rfl⟩ := Option.map_eq_some_iff.mp h
  rw [hm b r' hr']

end Checked
end HypercoreRs
