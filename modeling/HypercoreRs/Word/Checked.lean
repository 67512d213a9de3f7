/-
# Machine words with checked arithmetic

The operations of unsigned words of `w` bits as a checked build computes them: on natural
numbers, with `none` for a fault, which is a result that does not fit, a difference below
zero or a shift by `w` or more.

A computation over such words is compared with the exact one. `Yields x P v` says that `x`
faults unless `P` holds, and is then `v`: the exact value and the exact condition at once.
It composes along `bind` (`Yields.bind`), so that the condition of a program is collected
from those of its operations.
-/
import Mathlib

namespace HypercoreRs
namespace Word

variable {α β : Type}

/-- `x` is `v` if `P` holds, and faults otherwise. -/
def Yields (x : Option α) (P : Prop) (v : α) : Prop := ∀ r, x = some r ↔ P ∧ v = r

theorem bind_eq {x : Option α} {v : α} {f : α → Option β} (h : x = some v) : (x >>= f) = f v := by
  rw [h]
  rfl

namespace Yields

variable {x : Option α} {P Q : Prop} {v : α}

theorem eq_some (h : Yields x P v) (hP : P) : x = some v := (h v).mpr ⟨hP, rfl⟩

theorem pure (v : α) : Yields (some v) True v := fun r => by simp

theorem congr (h : Yields x P v) (hPQ : P ↔ Q) : Yields x Q v := fun r => by rw [h r, hPQ]

/-- A computation that never faults. -/
theorem of_eq (h : x = some v) (hP : P) : Yields x P v := fun r => by
  rw [h, Option.some.injEq]
  exact ⟨fun h => ⟨hP, h⟩, fun h => h.2⟩

variable {f : α → Option β}

theorem bind {w : β} (hx : Yields x P v) (hf : P → Yields (f v) Q w) :
    Yields (x >>= f) (P ∧ Q) w := by
  intro r
  rw [Option.bind_eq_bind, Option.bind_eq_some_iff]
  constructor
  · rintro ⟨a, ha, hr⟩
    obtain ⟨hP, rfl⟩ := (hx a).mp ha
    obtain ⟨hQ, hw⟩ := (hf hP r).mp hr
    exact ⟨⟨hP, hQ⟩, hw⟩
  · rintro ⟨⟨hP, hQ⟩, hw⟩
    exact ⟨v, hx.eq_some hP, (hf hP r).mpr ⟨hQ, hw⟩⟩

theorem map (f : α → β) (hx : Yields x P v) : Yields (x.map f) P (f v) := by
  intro r
  rw [Option.map_eq_some_iff]
  constructor
  · rintro ⟨a, ha, rfl⟩
    obtain ⟨hP, rfl⟩ := (hx a).mp ha
    exact ⟨hP, rfl⟩
  · rintro ⟨hP, rfl⟩
    exact ⟨v, hx.eq_some hP, rfl⟩

theorem bind_pure (f : α → β) (hx : Yields x P v) : Yields (x >>= fun a => Pure.pure (f a)) P (f v) := by
  have hmap := hx.map f
  rwa [Option.map_eq_bind] at hmap

/-- The first computation does not fault. -/
theorem bind_of_eq {w : β} (hx : x = some v) (hf : Yields (f v) Q w) : Yields (x >>= f) Q w := by
  rwa [bind_eq hx]

theorem mapM {g : α → β} {P : α → Prop} : ∀ {l : List α},
    (∀ a ∈ l, Yields (f a) (P a) (g a)) → Yields (l.mapM f) (∀ a ∈ l, P a) (l.map g)
  | [], _ => of_eq rfl fun a ha => absurd ha List.not_mem_nil
  | a :: l, h => by
    rw [List.mapM_cons]
    have hrest := mapM fun b hb => h b (List.mem_cons_of_mem a hb)
    exact ((h a List.mem_cons_self).bind fun _ => hrest.bind_pure (g a :: ·)).congr (by simp)

end Yields

/-! ### The operations -/

variable (w : ℕ)

def add (a b : ℕ) : Option ℕ := if a + b < 2 ^ w then some (a + b) else none

def mul (a b : ℕ) : Option ℕ := if a * b < 2 ^ w then some (a * b) else none

def sub (a b : ℕ) : Option ℕ := if b ≤ a then some (a - b) else none

/-- `1 << s`. -/
def bit (s : ℕ) : Option ℕ := if s < w then some (2 ^ s) else none

def shiftRight (a s : ℕ) : Option ℕ := if s < w then some (a >>> s) else none

theorem yields_ite {P : Prop} [Decidable P] (v : α) : Yields (if P then some v else none) P v := by
  intro r
  split_ifs with h
  · simp [h]
  · simp [h]

theorem yields_add (a b : ℕ) : Yields (add w a b) (a + b < 2 ^ w) (a + b) := yields_ite _

theorem yields_mul (a b : ℕ) : Yields (mul w a b) (a * b < 2 ^ w) (a * b) := yields_ite _

theorem yields_sub (a b : ℕ) : Yields (sub a b) (b ≤ a) (a - b) := yields_ite _

theorem yields_bit (s : ℕ) : Yields (bit w s) (s < w) (2 ^ s) := yields_ite _

theorem yields_shiftRight (a s : ℕ) : Yields (shiftRight w a s) (s < w) (a >>> s) := yields_ite _

end Word
end HypercoreRs
