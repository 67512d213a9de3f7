/-
# Sorted rows of bindings

A row of bindings, each key once and in order, is what a search tree lists. `Put` and
`Cut` say what binding a key and dropping one do to a row, by the place where it
happens; so they carry over to any row around it (`Put.around`, `Cut.around`). A row
that lists a map is the map's own list (`Lists.eq_toList`), and what is done to the one
is done to the other.

`binarySearchBy` is the search of the standard library of the source: it halves the
part of the row the key can be in. In a sorted row it finds the key or its place
(`search_spec`).
-/
import Std.Data.ExtTreeMap
import Mathlib.Data.List.Basic

namespace HypercoreRs
namespace BTree

open Std

/-! ### Searching -/

section Search

variable {α : Type} (cmp : α → Ordering) (l : List α)

/-- Halve the `size` places from `base` on until one is left, keeping the part that `cmp`
points to. -/
def narrow : ℕ → ℕ → ℕ → ℕ
  | 0, base, _ => base
  | steps + 1, base, size =>
    if size ≤ 1 then base
    else
      narrow steps (if l[base + size / 2]?.map cmp = some .gt then base else base + size / 2)
        (size - size / 2)

/-- The place `cmp` points to, if an element is there; else the place where one would go. -/
def binarySearchBy : Except ℕ ℕ :=
  let base := narrow cmp l l.length 0 l.length
  match l[base]?.map cmp with
  | none => .error 0
  | some .eq => .ok base
  | some .lt => .error (base + 1)
  | some .gt => .error base

variable {cmp l}

/-- What is left lies at the border: nothing after it is at or below the target. -/
theorem narrow_spec (hl : l.Pairwise fun a b => cmp a ≠ .lt → cmp b = .gt) :
    ∀ (steps base size : ℕ), size ≤ steps + 1 → 0 < size → base + size ≤ l.length →
    (base = 0 ∨ l[base]?.map cmp ≠ some .gt) →
    (∀ j a, base + size ≤ j → l[j]? = some a → cmp a = .gt) →
    narrow cmp l steps base size < l.length ∧
      (narrow cmp l steps base size = 0 ∨ l[narrow cmp l steps base size]?.map cmp ≠ some .gt) ∧
      ∀ j a, narrow cmp l steps base size < j → l[j]? = some a → cmp a = .gt
  | 0, base, size, hsteps, hpos, hle, hbase, habove => by
    rw [narrow]
    exact ⟨by omega, hbase, fun j a hj => habove j a (by omega)⟩
  | steps + 1, base, size, hsteps, hpos, hle, hbase, habove => by
    rw [narrow]
    split_ifs with hone hgt
    · exact ⟨by omega, hbase, fun j a hj => habove j a (by omega)⟩
    · -- the target is below the middle
      refine narrow_spec hl steps base (size - size / 2) (by omega) (by omega) (by omega) hbase
        fun j b hj hb => ?_
      obtain ⟨a, ha, hcmp⟩ := Option.map_eq_some_iff.mp hgt
      obtain heq | hlt : j = base + size / 2 ∨ base + size / 2 < j := by omega
      · rw [heq, ha] at hb
        rw [← Option.some.inj hb]
        exact hcmp
      · obtain ⟨hmid, rfl⟩ := List.getElem?_eq_some_iff.mp ha
        obtain ⟨hj', rfl⟩ := List.getElem?_eq_some_iff.mp hb
        refine (List.pairwise_iff_getElem.mp hl) _ _ hmid hj' hlt ?_
        rw [hcmp]
        decide
    · -- it is at the middle or above
      refine narrow_spec hl steps (base + size / 2) (size - size / 2) (by omega) (by omega)
        (by omega) (Or.inr hgt)
        fun j b hj hb => habove j b (by omega) hb

/-- In a row that rises with `cmp` the search splits it at the target. -/
theorem search_spec (hl : l.Pairwise fun a b => cmp a ≠ .lt → cmp b = .gt) :
    (∃ l₁ a l₂, binarySearchBy cmp l = .ok l₁.length ∧ l = l₁ ++ a :: l₂ ∧ cmp a = .eq ∧
      (∀ b ∈ l₁, cmp b = .lt) ∧ ∀ b ∈ l₂, cmp b = .gt) ∨
    ∃ l₁ l₂, binarySearchBy cmp l = .error l₁.length ∧ l = l₁ ++ l₂ ∧
      (∀ b ∈ l₁, cmp b = .lt) ∧ ∀ b ∈ l₂, cmp b = .gt := by
  by_cases hempty : l = []
  · subst hempty
    exact Or.inr ⟨[], [], rfl, rfl, by simp, by simp⟩
  have hpos : 0 < l.length := List.length_pos_iff.mpr hempty
  obtain ⟨hlt, hborder, habove⟩ := narrow_spec hl l.length 0 l.length (by omega) hpos (by omega)
    (Or.inl rfl) fun j a hj ha => by
      rw [List.getElem?_eq_none (by omega)] at ha
      cases ha
  unfold binarySearchBy
  dsimp only
  generalize narrow cmp l l.length 0 l.length = base at hlt hborder habove ⊢
  have hsplit : l = l.take base ++ l[base] :: l.drop (base + 1) := by simp
  have hget : l[base]? = some l[base] := List.getElem?_eq_getElem hlt
  have hlen : (l.take base).length = base := by simp; omega
  have hafter : ∀ b ∈ l.drop (base + 1), cmp b = .gt := by
    intro b hb
    obtain ⟨j, hj⟩ := List.mem_iff_getElem?.mp hb
    rw [List.getElem?_drop] at hj
    exact habove _ b (by omega) hj
  -- an element not above the target has only elements below it to its left
  have hbefore : cmp l[base] ≠ .gt → ∀ b ∈ l.take base, cmp b = .lt := by
    intro hle b hb
    by_contra hb'
    rw [hsplit, List.pairwise_append] at hl
    exact hle (hl.2.2 b hb _ List.mem_cons_self hb')
  rw [hget, Option.map_some] at hborder ⊢
  cases hcmp : cmp l[base] with
  | eq =>
    refine Or.inl ⟨l.take base, l[base], l.drop (base + 1), by rw [hlen], hsplit, hcmp, ?_, hafter⟩
    exact hbefore (by rw [hcmp]; decide)
  | lt =>
    have hbefore := hbefore (by rw [hcmp]; decide)
    refine Or.inr ⟨l.take base ++ [l[base]], l.drop (base + 1), ?_, ?_, ?_, hafter⟩
    · rw [List.length_append, hlen, List.length_singleton]
    · rw [List.append_assoc]
      exact hsplit
    · intro b hb
      rw [List.mem_append, List.mem_singleton] at hb
      rcases hb with hb | rfl
      · exact hbefore b hb
      · exact hcmp
  | gt =>
    have hzero : base = 0 := hborder.resolve_right fun h => h (by rw [hcmp])
    subst hzero
    refine Or.inr ⟨[], l, rfl, rfl, by simp, fun b hb => ?_⟩
    rw [hsplit, List.take_zero, List.nil_append, List.mem_cons] at hb
    rcases hb with rfl | hb
    · exact hcmp
    · exact hafter b hb

end Search

/-! ### Rows -/

variable {κ ν : Type} [Ord κ]

/-- The bindings stand in the order of their keys, each key once. -/
def Sorted (l : List (κ × ν)) : Prop := l.Pairwise fun a b => compare a.1 b.1 = .lt

/-- All keys of `l` are below `key`. -/
def Below (l : List (κ × ν)) (key : κ) : Prop := ∀ e ∈ l, compare e.1 key = .lt

/-- All keys of `l` are above `key`. -/
def Above (l : List (κ × ν)) (key : κ) : Prop := ∀ e ∈ l, compare key e.1 = .lt

/-- `key` is bound to `value`. -/
inductive Put (key : κ) (value : ν) : List (κ × ν) → List (κ × ν) → Prop
  | fresh {a b : List (κ × ν)} : Below a key → Above b key →
      Put key value (a ++ b) (a ++ (key, value) :: b)
  | again {a b : List (κ × ν)} {old : ν} : Below a key → Above b key →
      Put key value (a ++ (key, old) :: b) (a ++ (key, value) :: b)

/-- The binding of `key` to `old` is dropped. -/
inductive Cut (key : κ) (old : ν) : List (κ × ν) → List (κ × ν) → Prop
  | drop {a b : List (κ × ν)} : Below a key → Above b key → Cut key old (a ++ (key, old) :: b) (a ++ b)

section Edit

variable {key : κ} {value old : ν} {l l' a b : List (κ × ν)}

theorem Below.append (h : Below a key) (h' : Below b key) : Below (a ++ b) key :=
  fun e he => (List.mem_append.mp he).elim (h e) (h' e)

theorem Above.append (h : Above a key) (h' : Above b key) : Above (a ++ b) key :=
  fun e he => (List.mem_append.mp he).elim (h e) (h' e)

/-- A key bound in the middle of a row is bound in the row. -/
theorem Put.around (h : Put key value l l') (ha : Below a key) (hb : Above b key) :
    Put key value (a ++ l ++ b) (a ++ l' ++ b) := by
  cases h with
  | fresh hlow hhigh => simpa using (Put.fresh (ha.append hlow) (hhigh.append hb) : Put key value _ _)
  | again hlow hhigh => simpa using (Put.again (ha.append hlow) (hhigh.append hb) : Put key value _ _)

theorem Cut.around (h : Cut key old l l') (ha : Below a key) (hb : Above b key) :
    Cut key old (a ++ l ++ b) (a ++ l' ++ b) := by
  cases h with
  | drop hlow hhigh => simpa using (Cut.drop (ha.append hlow) (hhigh.append hb) : Cut key old _ _)

theorem Put.length_le (h : Put key value l l') : l.length ≤ l'.length ∧ l'.length ≤ l.length + 1 := by
  cases h <;> simp only [List.length_append, List.length_cons] <;> omega

theorem Cut.length_eq (h : Cut key old l l') : l.length = l'.length + 1 := by
  cases h
  simp
  omega

theorem Cut.mem (h : Cut key old l l') : (key, old) ∈ l := by
  cases h
  simp

theorem sorted_around : Sorted (a ++ (key, value) :: b) ↔
    Sorted a ∧ Sorted b ∧ Below a key ∧ Above b key ∧ Sorted (a ++ b) := by
  unfold Sorted Below Above
  simp only [List.pairwise_append, List.pairwise_cons, List.mem_cons]
  constructor
  · intro h
    exact ⟨h.1, h.2.1.2, fun e he => h.2.2 e he _ (Or.inl rfl), h.2.1.1, h.1, h.2.1.2,
      fun e he e' he' => h.2.2 e he e' (Or.inr he')⟩
  · intro h
    refine ⟨h.1, ⟨h.2.2.2.1, h.2.1⟩, fun e he e' he' => ?_⟩
    rcases he' with rfl | he'
    · exact h.2.2.1 e he
    · exact h.2.2.2.2.2.2 e he e' he'

theorem Sorted.left (h : Sorted (a ++ b)) : Sorted a := (List.pairwise_append.mp h).1

theorem Sorted.right (h : Sorted (a ++ b)) : Sorted b := (List.pairwise_append.mp h).2.1

theorem Sorted.put (hl : Sorted l) (h : Put key value l l') : Sorted l' := by
  cases h with
  | fresh hlow hhigh =>
    have hparts := List.pairwise_append.mp hl
    exact sorted_around.mpr ⟨hparts.1, hparts.2.1, hlow, hhigh, hl⟩
  | again hlow hhigh =>
    obtain ⟨ha, hb, -, -, hab⟩ := sorted_around.mp hl
    exact sorted_around.mpr ⟨ha, hb, hlow, hhigh, hab⟩

theorem Sorted.cut (hl : Sorted l) (h : Cut key old l l') : Sorted l' := by
  cases h with
  | drop hlow hhigh => exact (sorted_around.mp hl).2.2.2.2

end Edit

section Order

variable [TransOrd κ] {key : κ} {value old : ν} {l l' a b : List (κ × ν)}

theorem compare_self_ne_lt (k : κ) : compare k k ≠ .lt := by
  simp

theorem Below.not_mem (h : Below l key) (v : ν) : (key, v) ∉ l :=
  fun hmem => compare_self_ne_lt key (h _ hmem)

theorem Above.not_mem (h : Above l key) (v : ν) : (key, v) ∉ l :=
  fun hmem => compare_self_ne_lt key (h _ hmem)

/-! ### Maps -/

/-- The row lists the map. -/
structure Lists (m : ExtTreeMap κ ν) (l : List (κ × ν)) : Prop where
  sorted : Sorted l
  mem_iff : ∀ k v, (k, v) ∈ l ↔ m[k]? = some v

variable {m : ExtTreeMap κ ν}

theorem lists_empty : Lists (∅ : ExtTreeMap κ ν) [] where
  sorted := List.Pairwise.nil
  mem_iff k v := by simp

/-- Two sorted rows with the same bindings are one. -/
theorem Lists.unique (h : Lists m l) (h' : Lists m l') : l = l' := by
  have hperm : l.Perm l' := by
    have hnodup : ∀ {r : List (κ × ν)}, Sorted r → r.Nodup := fun hr => hr.imp fun {a b} hab hne => by
      subst hne
      exact compare_self_ne_lt a.1 hab
    refine (List.perm_ext_iff_of_nodup (hnodup h.sorted) (hnodup h'.sorted)).mpr fun e => ?_
    rw [h.mem_iff, h'.mem_iff]
  refine hperm.eq_of_pairwise (fun a b _ _ hab hba => ?_) h.sorted h'.sorted
  exact absurd (TransCmp.lt_trans hab hba) (compare_self_ne_lt a.1)

/-- A key is bound to what its map says. -/
theorem Lists.getElem?_of_mem (h : Lists m l) (hmem : (key, value) ∈ l) : m[key]? = some value :=
  (h.mem_iff key value).mp hmem

theorem Lists.getElem?_of_not_mem (h : Lists m l) (hmem : ∀ v, (key, v) ∉ l) : m[key]? = none := by
  cases hm : m[key]? with
  | none => rfl
  | some v => exact absurd ((h.mem_iff key v).mpr hm) (hmem v)

variable [LawfulEqOrd κ]

/-- Searching a sorted row for a key. -/
theorem Sorted.search (hl : Sorted l) (key : κ) :
    (∃ l₁ v l₂, binarySearchBy (fun e => compare e.1 key) l = .ok l₁.length ∧
      l = l₁ ++ (key, v) :: l₂ ∧ Below l₁ key ∧ Above l₂ key) ∨
    ∃ l₁ l₂, binarySearchBy (fun e => compare e.1 key) l = .error l₁.length ∧ l = l₁ ++ l₂ ∧
      Below l₁ key ∧ Above l₂ key := by
  have hrise : l.Pairwise fun a b => compare a.1 key ≠ .lt → compare b.1 key = .gt := by
    refine hl.imp fun {a b} hab ha => ?_
    rw [OrientedCmp.gt_iff_lt]
    cases hcmp : compare a.1 key with
    | lt => exact absurd hcmp ha
    | eq =>
      rw [Std.compare_eq_iff_eq] at hcmp
      rwa [← hcmp]
    | gt => exact TransCmp.lt_trans (OrientedCmp.gt_iff_lt.mp hcmp) hab
  have habove : ∀ {l₂ : List (κ × ν)}, (∀ b ∈ l₂, compare b.1 key = .gt) → Above l₂ key :=
    fun h e he => OrientedCmp.gt_iff_lt.mp (h e he)
  rcases search_spec hrise with
    ⟨l₁, ⟨k, v⟩, l₂, hsearch, hsplit, hk, hlow, hhigh⟩ | ⟨l₁, l₂, hsearch, hsplit, hlow, hhigh⟩
  · obtain rfl : k = key := Std.compare_eq_iff_eq.mp hk
    exact Or.inl ⟨l₁, v, l₂, hsearch, hsplit, hlow, habove hhigh⟩
  · exact Or.inr ⟨l₁, l₂, hsearch, hsplit, hlow, habove hhigh⟩

theorem lists_toList (m : ExtTreeMap κ ν) : Lists m m.toList where
  sorted := ExtTreeMap.ordered_keys_toList
  mem_iff _ _ := ExtTreeMap.mem_toList_iff_getElem?_eq_some

theorem Lists.eq_toList (h : Lists m l) : l = m.toList := h.unique (lists_toList m)

theorem Lists.put (h : Lists m l) (hput : Put key value l l') : Lists (m.insert key value) l' where
  sorted := h.sorted.put hput
  mem_iff k v := by
    have hl := h.mem_iff k v
    rw [ExtTreeMap.getElem?_insert]
    cases hput with
    | fresh hlow hhigh =>
      by_cases hk : key = k
      · subst hk
        simp [hlow.not_mem, hhigh.not_mem, eq_comm]
      · rw [if_neg (mt Std.compare_eq_iff_eq.mp hk), ← hl]
        simp [Ne.symm hk]
    | again hlow hhigh =>
      by_cases hk : key = k
      · subst hk
        simp [hlow.not_mem, hhigh.not_mem, eq_comm]
      · rw [if_neg (mt Std.compare_eq_iff_eq.mp hk), ← hl]
        simp [Ne.symm hk]

theorem Lists.cut (h : Lists m l) (hcut : Cut key old l l') : Lists (m.erase key) l' where
  sorted := h.sorted.cut hcut
  mem_iff k v := by
    have hl := h.mem_iff k v
    rw [ExtTreeMap.getElem?_erase]
    cases hcut with
    | drop hlow hhigh =>
      by_cases hk : key = k
      · subst hk
        simp [hlow.not_mem, hhigh.not_mem]
      · rw [if_neg (mt Std.compare_eq_iff_eq.mp hk), ← hl]
        simp [Ne.symm hk]

end Order

end BTree
end HypercoreRs
