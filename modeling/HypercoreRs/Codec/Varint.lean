/-
# Varints and codecs

A `Codec` turns a payload into bytes and back; integers travel as LEB128 varints,
seven bits a byte, the high bit set on every byte but the last. The writer sees a
64-bit value, the reader gives up at the eleventh byte and drops the bits that a
tenth byte shifts past the word. `read_write`: what is written is read back, with
whatever follows it left over. `read_exact_iff`: what is read is the number the bytes
spell, if that is a 64-bit one, and otherwise only its low 64 bits.
-/
import Mathlib.Data.Nat.Bitwise
import Mathlib.Data.Nat.Digits.Defs
import Mathlib.Tactic.Ring
import Mathlib.Tactic.Positivity

namespace HypercoreRs

inductive CodecError where
  /-- Ran out of bytes mid-value. -/
  | eof
  /-- A varint did not terminate within 64 bits. -/
  | badVarint
  /-- Decoder-specific failure. -/
  | invalid (msg : String)
deriving DecidableEq

/-- A codec for payloads of type `T`. -/
structure Codec (T : Type) where
  encode : T → List UInt8
  decode : List UInt8 → Except CodecError T

/-- Bytes as they are. -/
def Codec.plain : Codec (List UInt8) := ⟨id, .ok⟩

namespace Varint

def write (v : ℕ) : List UInt8 :=
  if h : v / 128 = 0 then [UInt8.ofNat (v % 128)]
  else UInt8.ofNat (v % 128 + 128) :: write (v / 128)
termination_by v
decreasing_by omega

/-- The loop of `read`, with the shift and the result so far. -/
def readLoop : List UInt8 → ℕ → ℕ → Except CodecError (ℕ × List UInt8)
  | [], shift, _ => if shift ≥ 64 then .error .badVarint else .error .eof
  | b :: rest, shift, result =>
    if shift ≥ 64 then .error .badVarint
    else
      let result := result ||| (b.toNat % 128) <<< shift % 2 ^ 64
      if b.toNat < 128 then .ok (result, rest) else readLoop rest (shift + 7) result

/-- Read a varint; returns it with the bytes past it. -/
def read (bytes : List UInt8) : Except CodecError (ℕ × List UInt8) := readLoop bytes 0 0

/-- The bits a byte adds are above those already read. -/
theorem or_shift {result x shift : ℕ} (hr : result < 2 ^ shift) (hx : x * 2 ^ shift < 2 ^ 64) :
    result ||| x <<< shift % 2 ^ 64 = result + x * 2 ^ shift := by
  have hmul : x <<< shift = 2 ^ shift * x := by rw [Nat.shiftLeft_eq, mul_comm]
  rw [Nat.mod_eq_of_lt (by rwa [Nat.shiftLeft_eq]), hmul, Nat.lor_comm,
    ← Nat.two_pow_add_eq_or_of_lt hr]
  ring

theorem readLoop_write : ∀ (v : ℕ) {shift result : ℕ} (rest : List UInt8), shift < 64 →
    result < 2 ^ shift → v * 2 ^ shift < 2 ^ 64 →
    readLoop (write v ++ rest) shift result = .ok (result + v * 2 ^ shift, rest) := by
  intro v
  induction v using Nat.strong_induction_on with
  | _ v ih =>
    intro shift result rest hs hr hv
    rw [write]
    split_ifs with h
    · -- the last byte
      have hv' : v % 128 = v := Nat.mod_eq_of_lt (by omega)
      have hb : (UInt8.ofNat (v % 128)).toNat = v := by rw [UInt8.toNat_ofNat']; omega
      rw [List.singleton_append, readLoop, if_neg (by omega), hb, hv', or_shift hr hv,
        if_pos (by omega)]
    · have hb : (UInt8.ofNat (v % 128 + 128)).toNat = v % 128 + 128 := by
        rw [UInt8.toNat_ofNat']; omega
      have hlow : (v % 128 + 128) % 128 = v % 128 := by omega
      have hsplit : v * 2 ^ shift = v % 128 * 2 ^ shift + v / 128 * 2 ^ (shift + 7) := by
        calc v * 2 ^ shift = (v % 128 + 128 * (v / 128)) * 2 ^ shift := by rw [Nat.mod_add_div]
          _ = v % 128 * 2 ^ shift + v / 128 * 2 ^ (shift + 7) := by ring
      have hmask : v % 128 * 2 ^ shift ≤ 127 * 2 ^ shift := Nat.mul_le_mul_right _ (by omega)
      have hnext : 2 ^ (shift + 7) = 128 * 2 ^ shift := by ring
      -- a byte follows, so the next shift is still within the word
      have hshift : shift + 7 < 64 := by
        by_contra hc
        have h1 : 2 ^ 64 ≤ 2 ^ (shift + 7) := Nat.pow_le_pow_right two_pos (by omega)
        have h2 : 1 * 2 ^ (shift + 7) ≤ v / 128 * 2 ^ (shift + 7) :=
          Nat.mul_le_mul_right _ (by omega)
        omega
      rw [List.cons_append, readLoop, if_neg (by omega), hb, hlow, or_shift hr (by omega),
        if_neg (by omega), ih (v / 128) (by omega) rest hshift (by omega) (by omega), hsplit, add_assoc]

/-- A 64-bit value is read back, up to the bytes that follow. -/
theorem read_write {v : ℕ} (hv : v < 2 ^ 64) (rest : List UInt8) :
    read (write v ++ rest) = .ok (v, rest) := by
  rw [read, readLoop_write v rest (by omega) (by omega) (by omega)]
  simp

/-- The number the bytes spell, seven bits each. -/
def spelled (bytes : List UInt8) : ℕ := Nat.ofDigits 128 (bytes.map (·.toNat % 128))

/-- The bits a byte adds, as far as they are within the word. -/
theorem or_shift_mod {result x shift : ℕ} (hr : result < 2 ^ shift) (hs : shift < 64) :
    result ||| x <<< shift % 2 ^ 64 = (result + x * 2 ^ shift) % 2 ^ 64 := by
  have hword : (2 : ℕ) ^ 64 = 2 ^ (64 - shift) * 2 ^ shift := by rw [← pow_add, Nat.sub_add_cancel hs.le]
  have hcut : x <<< shift % 2 ^ 64 = (x % 2 ^ (64 - shift)) <<< shift % 2 ^ 64 := by
    rw [Nat.shiftLeft_eq, Nat.shiftLeft_eq, hword, Nat.mul_mod_mul_right, Nat.mul_mod_mul_right, Nat.mod_mod]
  have hlow : x % 2 ^ (64 - shift) * 2 ^ shift + 2 ^ shift ≤ 2 ^ 64 := by
    rw [hword, ← Nat.succ_mul]
    exact Nat.mul_le_mul_right _ (Nat.mod_lt _ (by positivity))
  calc result ||| x <<< shift % 2 ^ 64 = result + x % 2 ^ (64 - shift) * 2 ^ shift := by
        rw [hcut, or_shift hr (by omega)]
    _ = (result + x % 2 ^ (64 - shift) * 2 ^ shift) % 2 ^ 64 := (Nat.mod_eq_of_lt (by omega)).symm
    _ = (result + x * 2 ^ shift) % 2 ^ 64 := by rw [hword, ← Nat.mul_mod_mul_right, Nat.add_mod_mod]

theorem readLoop_spelled : ∀ {bytes rest : List UInt8} {shift result v : ℕ}, result < 2 ^ shift →
    readLoop bytes shift result = .ok (v, rest) →
    ∃ used, bytes = used ++ rest ∧ v = (result + spelled used * 2 ^ shift) % 2 ^ 64
  | [], rest, shift, result, v, _, h => by
    rw [readLoop] at h
    split_ifs at h
  | b :: bytes, rest, shift, result, v, hr, h => by
    rw [readLoop] at h
    split_ifs at h with hs hb
    · -- the last byte
      obtain ⟨rfl, rfl⟩ := Prod.mk.inj (Except.ok.inj h)
      refine ⟨[b], rfl, ?_⟩
      rw [or_shift_mod hr (Nat.lt_of_not_le hs)]
      simp [spelled]
    · by_cases hnext : shift + 7 < 64
      · have hbits : b.toNat % 128 * 2 ^ shift ≤ 127 * 2 ^ shift := Nat.mul_le_mul_right _ (by omega)
        have hpow : (2 : ℕ) ^ (shift + 7) = 128 * 2 ^ shift := by ring
        have hword : (2 : ℕ) ^ (shift + 7) < 2 ^ 64 := Nat.pow_lt_pow_right one_lt_two hnext
        rw [or_shift hr (by omega)] at h
        obtain ⟨used, rfl, rfl⟩ := readLoop_spelled (by omega) h
        refine ⟨b :: used, rfl, congrArg (· % 2 ^ 64) ?_⟩
        rw [spelled, spelled, List.map_cons, Nat.ofDigits_cons, hpow]
        ring
      · cases bytes with
        | nil =>
          rw [readLoop] at h
          split_ifs at h
        | cons =>
          rw [readLoop, if_pos (by omega)] at h
          cases h

/-- A varint is read as the number its bytes spell if and only if that is below `2 ^ 64`, and
what is written is read back. -/
theorem read_exact_iff {bytes rest : List UInt8} {v : ℕ} (h : read bytes = .ok (v, rest)) :
    (∃ used, bytes = used ++ rest ∧ v = spelled used % 2 ^ 64 ∧ (v = spelled used ↔ spelled used < 2 ^ 64)) ∧
    ∀ w < 2 ^ 64, ∀ tail, read (write w ++ tail) = .ok (w, tail) := by
  refine ⟨?_, fun w hw tail => read_write hw tail⟩
  obtain ⟨used, hused, rfl⟩ := readLoop_spelled (by omega) h
  rw [Nat.zero_add, pow_zero, Nat.mul_one]
  exact ⟨used, hused, rfl, by omega⟩

theorem read_exact_two_bytes : ∃ used, [200, 1, 7] = used ++ [7] ∧ 200 = spelled used % 2 ^ 64 ∧
    (200 = spelled used ↔ spelled used < 2 ^ 64) :=
  (read_exact_iff (show read [200, 1, 7] = .ok (200, [7]) by decide +kernel)).1

/-- Ten bytes that spell `2 ^ 64` are read as 0. -/
theorem read_truncates :
    read [128, 128, 128, 128, 128, 128, 128, 128, 128, 2] = .ok (0, []) ∧
      spelled [128, 128, 128, 128, 128, 128, 128, 128, 128, 2] = 2 ^ 64 := by
  decide +kernel

end Varint
end HypercoreRs
