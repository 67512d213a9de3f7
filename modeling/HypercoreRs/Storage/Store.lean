/-
# Keyed byte stores

The `Store` trait: bytes under 64-bit keys, behind operations that may fail. The
contract is `Store.Lawful`: what was put is read back, what was deleted is gone, and
no operation, failed or not, touches another key. The in-memory store keeps it, and so
does one that runs out of writes.
-/
import HypercoreRs.Command.Within
import HypercoreRs.Graph.Tables

namespace HypercoreRs
namespace Storage

open Std Command

/-- A keyed byte store whose operations may fail. -/
structure Store (S E : Type) where
  put : ℕ → List UInt8 → EStateM E S Unit
  get : S → ℕ → Except E (Option (List UInt8))
  delete : ℕ → EStateM E S Unit

namespace Store

variable {S E : Type}

/-- The contract of a store. -/
structure Lawful (st : Store S E) : Prop where
  get_put : ∀ s k v s', st.put k v s = .ok () s' → st.get s' k = .ok (some v)
  put_other : ∀ s k v k', k' ≠ k → st.get (after (st.put k v) s) k' = st.get s k'
  get_delete : ∀ s k s', st.delete k s = .ok () s' → st.get s' k = .ok none
  delete_other : ∀ s k k', k' ≠ k → st.get (after (st.delete k) s) k' = st.get s k'

/-- No write is refused. -/
def NeverFails (st : Store S E) : Prop := ∀ s k v, ∃ s', st.put k v s = .ok () s'

/-- No key but `k` reads otherwise in `s'` than in `s`. -/
def Only (st : Store S E) (k : ℕ) (s s' : S) : Prop := ∀ k', k' ≠ k → st.get s' k' = st.get s k'

variable {st : Store S E}

/-- The in-memory store: no operation fails. -/
def memory : Store (ExtTreeMap ℕ (List UInt8)) Empty where
  put k v m := .ok () (m.insert k v)
  get m k := .ok m[k]?
  delete k m := .ok () (m.erase k)

theorem memory_neverFails : memory.NeverFails := fun m k v => ⟨m.insert k v, rfl⟩

theorem memory_lawful : memory.Lawful where
  get_put m k v m' h := by
    obtain rfl : m.insert k v = m' := by
      cases h
      rfl
    show Except.ok (m.insert k v)[k]? = _
    rw [Graph.getElem?_insert, if_pos rfl]
  put_other m k v k' hk := by
    show Except.ok (m.insert k v)[k']? = Except.ok m[k']?
    rw [Graph.getElem?_insert, if_neg hk]
  get_delete m k m' h := by
    obtain rfl : m.erase k = m' := by
      cases h
      rfl
    show Except.ok (m.erase k)[k]? = _
    rw [Graph.getElem?_erase, if_pos rfl]
  delete_other m k k' hk := by
    show Except.ok (m.erase k)[k']? = Except.ok m[k']?
    rw [Graph.getElem?_erase, if_neg hk]

end Store

/-- A store in memory that refuses every write after a number of them. -/
def metered : Store (ExtTreeMap ℕ (List UInt8) × ℕ) Unit where
  put k v s :=
    match s.2 with
    | 0 => .error () s
    | left + 1 => .ok () (s.1.insert k v, left)
  get s k := .ok s.1[k]?
  delete k s := .ok () (s.1.erase k, s.2)

theorem metered_lawful : metered.Lawful where
  get_put := by
    rintro ⟨m, left⟩ k v s' hput
    cases left with
    | zero => cases hput
    | succ left =>
      cases hput
      show Except.ok (m.insert k v)[k]? = _
      rw [Graph.getElem?_insert, if_pos rfl]
  put_other := by
    rintro ⟨m, left⟩ k v k' hk
    cases left with
    | zero => rfl
    | succ left =>
      show Except.ok (m.insert k v)[k']? = Except.ok m[k']?
      rw [Graph.getElem?_insert, if_neg hk]
  get_delete := by
    rintro ⟨m, left⟩ k s' hdelete
    cases hdelete
    show Except.ok (m.erase k)[k]? = _
    rw [Graph.getElem?_erase, if_pos rfl]
  delete_other := by
    rintro ⟨m, left⟩ k k' hk
    show Except.ok (m.erase k)[k']? = Except.ok m[k']?
    rw [Graph.getElem?_erase, if_neg hk]

end Storage
end HypercoreRs
