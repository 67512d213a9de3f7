/-
# Ordered sets and tables

Facts about the ordered sets and maps of the standard library, over a linearly
ordered key type: their listings have no repetition, membership in a set built
from a list is membership in the list, and a table built by tabulating a
function over a list without repetition holds exactly its values.
-/
import Mathlib

open Std

namespace HypercoreRs
namespace Graph

variable {N : Type} [LinearOrder N] {V : Type}

instance transOrd : TransOrd N := inferInstance

theorem nodup_toList (s : ExtTreeSet N) : s.toList.Nodup := by
  refine (ExtTreeSet.distinct_toList (t := s)).imp fun {a b} hab => ?_
  simpa using hab

variable {l : List N} {x : N}

@[simp]
theorem mem_ofList : x ∈ ExtTreeSet.ofList l ↔ x ∈ l := by
  rw [ExtTreeSet.mem_ofList, List.contains_iff_mem]

variable {s : ExtTreeSet N}

@[simp]
theorem mem_insertMany : x ∈ s.insertMany l ↔ x ∈ s ∨ x ∈ l := by
  rw [ExtTreeSet.mem_insertMany_list, List.contains_iff_mem]

theorem getElem?_insert (m : ExtTreeMap N V) (k c : N) (v : V) :
    (m.insert k v)[c]? = if c = k then some v else m[c]? := by
  rw [ExtTreeMap.getElem?_insert]
  simp only [Std.compare_eq_iff_eq, eq_comm (a := k)]

theorem getD_insert (m : ExtTreeMap N V) (k c : N) (v w : V) :
    (m.insert k v).getD c w = if c = k then v else m.getD c w := by
  rw [ExtTreeMap.getD_insert]
  simp only [Std.compare_eq_iff_eq, eq_comm (a := k)]

variable {m : ExtTreeMap N V} {v : V}

/-- Writing what is there changes nothing. -/
theorem insert_of_getElem? {k : N} (h : m[k]? = some v) : m.insert k v = m := by
  apply ExtTreeMap.ext_getElem?
  intro c
  rw [getElem?_insert]
  split_ifs with hc
  · rw [hc, h]
  · rfl

/-- The last write wins. -/
theorem insert_insert (m : ExtTreeMap N V) (k : N) (v w : V) :
    (m.insert k v).insert k w = m.insert k w := by
  apply ExtTreeMap.ext_getElem?
  intro c
  rw [getElem?_insert, getElem?_insert, getElem?_insert]
  split_ifs <;> rfl

variable {k c : N}

theorem mem_insert : c ∈ m.insert k v ↔ c = k ∨ c ∈ m := by
  rw [ExtTreeMap.mem_insert, Std.compare_eq_iff_eq, eq_comm]

theorem mem_insert_set : c ∈ s.insert k ↔ c = k ∨ c ∈ s := by
  rw [ExtTreeSet.mem_insert, Std.compare_eq_iff_eq, eq_comm]

theorem mem_erase_set : c ∈ s.erase k ↔ c ≠ k ∧ c ∈ s := by
  rw [ExtTreeSet.mem_erase, ne_eq, Std.compare_eq_iff_eq, eq_comm]

theorem mem_filter_set {p : N → Bool} {c : N} : c ∈ s.filter p ↔ c ∈ s ∧ p c = true := by
  rw [ExtTreeSet.mem_filter]
  constructor
  · rintro ⟨hc, hp⟩
    rw [ExtTreeSet.get_eq] at hp
    exact ⟨hc, hp⟩
  · rintro ⟨hc, hp⟩
    refine ⟨hc, ?_⟩
    rw [ExtTreeSet.get_eq]
    exact hp

/-- The table of `f` over the nodes of `l`. -/
theorem getElem?_tabulate (hl : l.Nodup) (f : N → V) (c : N) :
    (ExtTreeMap.ofList (l.map fun n => (n, f n)))[c]? = if c ∈ l then some (f c) else none := by
  split_ifs with hc
  · refine ExtTreeMap.getElem?_ofList_of_mem (k := c) (by simp) ?_
      (List.mem_map.mpr ⟨c, hc, rfl⟩)
    rw [List.pairwise_map]
    exact hl.imp fun {a b} hab => by simpa using hab
  · refine ExtTreeMap.getElem?_ofList_of_contains_eq_false ?_
    simpa using hc

/-- The table of `f` over the values of another table. -/
theorem getElem?_mapValues {W : Type} (m : ExtTreeMap N V) (f : V → W) (c : N) :
    (ExtTreeMap.ofList (m.toList.map fun p => (p.1, f p.2)))[c]? = m[c]?.map f := by
  cases hc : m[c]? with
  | some v =>
    refine ExtTreeMap.getElem?_ofList_of_mem (k := c) (by simp) ?_
      (List.mem_map.mpr ⟨(c, v), ExtTreeMap.mem_toList_iff_getElem?_eq_some.mpr hc, rfl⟩)
    rw [List.pairwise_map]
    exact ExtTreeMap.distinct_keys_toList
  | none =>
    refine ExtTreeMap.getElem?_ofList_of_contains_eq_false ?_
    rw [List.map_map, Bool.eq_false_iff, ne_eq, List.contains_iff_mem]
    intro hin
    obtain ⟨⟨k, v⟩, hp, rfl⟩ := List.mem_map.mp hin
    have hp' := ExtTreeMap.mem_toList_iff_getElem?_eq_some.mp hp
    simp only [Function.comp] at hc
    rw [hc] at hp'
    cases hp'

theorem getElem?_erase (m : ExtTreeMap N V) (k c : N) :
    (m.erase k)[c]? = if c = k then none else m[c]? := by
  rw [ExtTreeMap.getElem?_erase]
  simp only [Std.compare_eq_iff_eq, eq_comm (a := k)]

/-- Erasing what is not there changes nothing. -/
theorem erase_of_getElem? {k : N} (h : m[k]? = none) : m.erase k = m := by
  apply ExtTreeMap.ext_getElem?
  intro c
  rw [getElem?_erase]
  split_ifs with hc
  · rw [hc, h]
  · rfl

theorem insert_erase (m : ExtTreeMap N V) (k : N) (v : V) : (m.insert k v).erase k = m.erase k := by
  apply ExtTreeMap.ext_getElem?
  intro c
  rw [getElem?_erase, getElem?_erase, getElem?_insert]
  split_ifs <;> rfl

theorem nodup_toList_map (m : ExtTreeMap N V) : m.toList.Nodup := by
  refine (ExtTreeMap.distinct_keys_toList (t := m)).imp fun {a b} hab h => ?_
  subst h
  simp at hab

/-- A table lists one entry and the entries of the other keys. -/
theorem toList_perm {k : N} (h : m[k]? = some v) :
    m.toList.Perm ((k, v) :: (m.erase k).toList) := by
  have hout : (k, v) ∉ (m.erase k).toList := by
    rw [ExtTreeMap.mem_toList_iff_getElem?_eq_some, getElem?_erase, if_pos rfl]
    simp
  rw [List.perm_ext_iff_of_nodup (nodup_toList_map m)
    (List.nodup_cons.mpr ⟨hout, nodup_toList_map _⟩)]
  intro p
  rw [List.mem_cons, ExtTreeMap.mem_toList_iff_getElem?_eq_some,
    ExtTreeMap.mem_toList_iff_getElem?_eq_some, getElem?_erase]
  by_cases hp : p.1 = k
  · rw [if_pos hp, hp, h, Prod.ext_iff, Option.some.injEq]
    simp [hp, eq_comm]
  · rw [if_neg hp, Prod.ext_iff]
    simp [hp]

/-- What an entry weighs and what the other entries weigh make up the table's weight. -/
theorem sum_toList (m : ExtTreeMap N V) (f : N × V → ℕ) (k : N) :
    (m.toList.map f).sum = (m[k]?.elim 0 fun v => f (k, v)) + ((m.erase k).toList.map f).sum := by
  cases h : m[k]? with
  | none => rw [erase_of_getElem? h, Option.elim_none, Nat.zero_add]
  | some v => rw [((toList_perm h).map f).sum_eq, List.map_cons, List.sum_cons, Option.elim_some]

/-- What a table holds after a row of insertions of distinct keys. -/
theorem getElem?_foldl_insert : ∀ (l : List (N × V)) (acc : ExtTreeMap N V) (c : N),
    l.Pairwise (fun p q => p.1 ≠ q.1) →
    (l.foldl (fun acc p => acc.insert p.1 p.2) acc)[c]? =
      ((l.find? fun p => p.1 = c).map Prod.snd).or acc[c]?
  | [], _, _, _ => rfl
  | p :: l, acc, c, hd => by
    rw [List.pairwise_cons] at hd
    rw [List.foldl_cons, getElem?_foldl_insert l _ c hd.2, getElem?_insert, List.find?_cons]
    by_cases hc : p.1 = c
    · have hnone : l.find? (fun q => q.1 = c) = none := by
        rw [List.find?_eq_none]
        intro q hq hqc
        exact hd.1 q hq (hc.trans (of_decide_eq_true hqc).symm)
      rw [hnone, if_pos hc.symm, decide_eq_true hc]
      rfl
    · rw [if_neg fun h => hc h.symm, decide_eq_false hc]

/-- Looking a key up in what a table lists. -/
theorem find?_toList (m : ExtTreeMap N V) (c : N) :
    (m.toList.find? fun p => p.1 = c).map Prod.snd = m[c]? := by
  cases hf : m.toList.find? fun p => p.1 = c with
  | none =>
    rw [Option.map_none, eq_comm, Option.eq_none_iff_forall_not_mem]
    intro v hv
    rw [List.find?_eq_none] at hf
    exact hf (c, v) (ExtTreeMap.mem_toList_iff_getElem?_eq_some.mpr hv) (decide_eq_true rfl)
  | some p =>
    have hp := List.mem_of_find?_eq_some hf
    have hc : p.1 = c := by simpa using List.find?_some hf
    rw [Option.map_some, ← hc, ExtTreeMap.mem_toList_iff_getElem?_eq_some.mp hp]

/-- Inserting the entries of one table into another: the inserted ones win. -/
theorem getElem?_foldl_insert_toList (m acc : ExtTreeMap N V) (c : N) :
    (m.toList.foldl (fun acc p => acc.insert p.1 p.2) acc)[c]? = m[c]?.or acc[c]? := by
  have hkeys : m.toList.Pairwise (fun p q => p.1 ≠ q.1) :=
    (ExtTreeMap.distinct_keys_toList (t := m)).imp fun {a b} hab => by simpa using hab
  rw [getElem?_foldl_insert _ _ _ hkeys, find?_toList]

/-- A table is built by inserting the entries it lists. -/
theorem foldl_insert_toList (m : ExtTreeMap N V) :
    m.toList.foldl (fun acc p => acc.insert p.1 p.2) ∅ = m := by
  apply ExtTreeMap.ext_getElem?
  intro c
  rw [getElem?_foldl_insert_toList, ExtTreeMap.getElem?_empty, Option.or_none]

theorem mem_keys {c : N} : c ∈ m.keys ↔ c ∈ m :=
  ExtTreeMap.mem_keys

/-- The finite set of the elements of an ordered set. -/
def toFinset (s : ExtTreeSet N) : Finset N := s.toList.toFinset

@[simp]
theorem mem_toFinset : x ∈ toFinset s ↔ x ∈ s := by
  simp [toFinset]

theorem card_toFinset (s : ExtTreeSet N) : (toFinset s).card = s.size := by
  rw [toFinset, List.toFinset_card_of_nodup (nodup_toList s), ExtTreeSet.length_toList]

/-- A set of one element. -/
theorem size_eq_one_iff : s.size = 1 ∧ x ∈ s ↔ ∀ y, y ∈ s ↔ y = x := by
  rw [← card_toFinset, Finset.card_eq_one, ← mem_toFinset]
  constructor
  · rintro ⟨⟨a, ha⟩, hx⟩ y
    rw [ha, Finset.mem_singleton] at hx
    rw [← mem_toFinset, ha, hx, Finset.mem_singleton]
  · intro h
    refine ⟨⟨x, Finset.ext fun y => ?_⟩, mem_toFinset.mpr ((h x).mpr rfl)⟩
    rw [mem_toFinset, h y, Finset.mem_singleton]

/-- Counting in a list without repetition is counting a set. -/
theorem countP_eq_card (hl : l.Nodup) (p : N → Bool) {S : Finset N} (hS : ∀ i, i ∈ S ↔ i ∈ l ∧ p i = true) :
    l.countP p = S.card := by
  rw [List.countP_eq_length_filter, ← List.toFinset_card_of_nodup (hl.filter _)]
  congr 1
  ext i
  rw [List.mem_toFinset, List.mem_filter, hS]

end Graph
end HypercoreRs
