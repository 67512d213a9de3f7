/-
# Walking a finite graph with an explicit stack

A worklist walk pops a node, pushes the successors it has not pushed before and
goes on (`walk`); a second form pushes every successor and drops a repeated node
when it is popped (`closure`). Both are total functions of a fuel that bounds the
number of pops; the theorems say what they return when the fuel covers a finite
set the successors never leave: the nodes reachable from the start
(`mem_walk_iff`), and the reachable nodes outside a set that is closed under
successors (`mem_closure_iff`).

Nothing here is about logs: nodes are any linearly ordered type.
-/
import HypercoreRs.Graph.Tables

open Std

namespace HypercoreRs
namespace Graph

variable {N : Type} [LinearOrder N]

/-- `b` is a direct successor of `a`. -/
def Edge (succ : N → ExtTreeSet N) (a b : N) : Prop := b ∈ succ a

/-- `b` is reachable from `a` in any number of steps. -/
def Reach (succ : N → ExtTreeSet N) : N → N → Prop := Relation.ReflTransGen (Edge succ)

/-- Push the nodes of `ds` that were not pushed before, in order; the last one
ends on top. -/
def pushNew (ds : ExtTreeSet N) (sv : List N × ExtTreeSet N) : List N × ExtTreeSet N :=
  ds.foldl (fun sv d => if sv.2.contains d then sv else (d :: sv.1, sv.2.insert d)) sv

/-- The nodes a worklist walk pops, in order: `stack` is the worklist (its head is
the top), `visited` what was pushed so far. -/
def walk (succ : N → ExtTreeSet N) : ℕ → List N → ExtTreeSet N → List N
  | 0, _, _ => []
  | _ + 1, [], _ => []
  | fuel + 1, v :: stack, visited =>
    let sv := pushNew (succ v) (stack, visited)
    v :: walk succ fuel sv.1 sv.2

/-- The walk that checks for repetition at the pop: nodes of `stop` and nodes
collected before are dropped, the others are collected and all their successors
outside `stop` are pushed. -/
def closure (succ : N → ExtTreeSet N) (stop : ExtTreeSet N) :
    ℕ → List N → ExtTreeSet N → ExtTreeSet N
  | _, [], fresh => fresh
  | 0, _ :: _, fresh => fresh
  | fuel + 1, n :: stack, fresh =>
    if stop.contains n || fresh.contains n then closure succ stop fuel stack fresh
    else closure succ stop fuel
      ((succ n).foldl (fun st d => if stop.contains d then st else d :: st) stack) (fresh.insert n)

/-! ### The nodes of a finite set not visited yet -/

/-- How many nodes of `U` are not in `visited`. -/
def left (U : Finset N) (visited : ExtTreeSet N) : ℕ := (U.filter (· ∉ visited)).card

variable {U : Finset N} {visited : ExtTreeSet N}

theorem left_insert {d : N} (hU : d ∈ U) (hd : d ∉ visited) :
    left U visited = left U (visited.insert d) + 1 := by
  unfold left
  rw [← Finset.card_insert_of_notMem (a := d) (s := U.filter (· ∉ visited.insert d)) (by simp)]
  congr 1
  ext x
  by_cases hx : x = d
  · subst hx; simp [hd, hU]
  · simp [hx, Ne.symm hx]

/-! ### Pushing -/

/-- One push of `pushNew`. -/
def push1 (sv : List N × ExtTreeSet N) (d : N) : List N × ExtTreeSet N :=
  if sv.2.contains d then sv else (d :: sv.1, sv.2.insert d)

theorem pushNew_eq (ds : ExtTreeSet N) (sv : List N × ExtTreeSet N) :
    pushNew ds sv = ds.toList.foldl push1 sv := by
  unfold pushNew
  rw [ExtTreeSet.foldl_eq_foldl_toList]
  rfl

/-- What a run of pushes leaves: the new nodes on the stack, all of them visited, and
one more on the stack for each one fewer left. -/
theorem foldl_push1_spec (U : Finset N) : ∀ (ds : List N) (sv : List N × ExtTreeSet N),
    (∀ d ∈ ds, d ∈ U) →
    (∀ x, x ∈ (ds.foldl push1 sv).1 ↔ x ∈ sv.1 ∨ (x ∈ ds ∧ x ∉ sv.2)) ∧
    (∀ x, x ∈ (ds.foldl push1 sv).2 ↔ x ∈ sv.2 ∨ x ∈ ds) ∧
    (ds.foldl push1 sv).1.length + left U (ds.foldl push1 sv).2 = sv.1.length + left U sv.2
  | [], sv, _ => by simp
  | d :: ds, sv, hU => by
    obtain ⟨h1, h2, h3⟩ := foldl_push1_spec U ds (push1 sv d)
      fun x hx => hU x (List.mem_cons_of_mem _ hx)
    simp only [List.foldl_cons]
    by_cases hd : d ∈ sv.2
    · have hp : push1 sv d = sv := by simp [push1, hd]
      rw [hp] at h1 h2 h3 ⊢
      refine ⟨fun x => ?_, fun x => ?_, h3⟩
      · rw [h1 x]
        by_cases hx : x = d
        · subst hx; simp [hd]
        · simp [hx]
      · rw [h2 x]
        by_cases hx : x = d
        · subst hx; simp [hd]
        · simp [hx]
    · have hp : push1 sv d = (d :: sv.1, sv.2.insert d) := by simp [push1, hd]
      rw [hp] at h1 h2 h3 ⊢
      refine ⟨fun x => ?_, fun x => ?_, ?_⟩
      · rw [h1 x]
        by_cases hx : x = d
        · subst hx; simp [hd]
        · simp [hx, Ne.symm hx]
      · rw [h2 x]
        by_cases hx : x = d
        · subst hx; simp
        · simp [hx, Ne.symm hx]
      · rw [h3, left_insert (hU d List.mem_cons_self) hd]
        simp only [List.length_cons]
        omega

/-! ### The walk -/

/-- A step to a node outside `visited`. -/
def Fresh (succ : N → ExtTreeSet N) (visited : ExtTreeSet N) (a b : N) : Prop :=
  Edge succ a b ∧ b ∉ visited

variable {succ : N → ExtTreeSet N}

/-- A path that avoids `visited` still avoids it once `ds` is visited too, from the last
node of `ds` it meets on. -/
theorem fresh_path_split {visited visited' ds : ExtTreeSet N} {s x : N}
    (hv : ∀ y, y ∈ visited' ↔ y ∈ visited ∨ y ∈ ds) (h : Relation.ReflTransGen (Fresh succ visited) s x) :
    ∃ s', (s' = s ∨ (s' ∈ ds ∧ s' ∉ visited)) ∧
      Relation.ReflTransGen (Fresh succ visited') s' x := by
  induction h with
  | refl => exact ⟨s, Or.inl rfl, .refl⟩
  | @tail y z _ hyz ih =>
    obtain ⟨s', hs', hp⟩ := ih
    by_cases hz : z ∈ ds
    · exact ⟨z, Or.inr ⟨hz, hyz.2⟩, .refl⟩
    · exact ⟨s', hs', hp.tail ⟨hyz.1, by rw [hv]; exact not_or.mpr ⟨hyz.2, hz⟩⟩⟩

/-- The walk pops exactly what its stack reaches outside `visited`. -/
theorem mem_walk (hU : ∀ v ∈ U, ∀ d ∈ succ v, d ∈ U) :
    ∀ (fuel : ℕ) (stack : List N) (visited : ExtTreeSet N), (∀ s ∈ stack, s ∈ U) →
      stack.length + left U visited ≤ fuel → ∀ x, x ∈ walk succ fuel stack visited ↔
        ∃ s ∈ stack, Relation.ReflTransGen (Fresh succ visited) s x
  | 0, stack, visited, _, hf, x => by
    have : stack = [] := List.length_eq_zero_iff.mp (by omega)
    subst this
    simp [walk]
  | fuel + 1, [], visited, _, _, x => by simp [walk]
  | fuel + 1, v :: stack, visited, hs, hf, x => by
    have hvU : v ∈ U := hs v List.mem_cons_self
    obtain ⟨h1, h2, h3⟩ := foldl_push1_spec U (succ v).toList (stack, visited)
      fun d hd => hU v hvU d (ExtTreeSet.mem_toList.mp hd)
    rw [← pushNew_eq] at h1 h2 h3
    simp only [ExtTreeSet.mem_toList] at h1 h2
    have ih := mem_walk hU fuel (pushNew (succ v) (stack, visited)).1
      (pushNew (succ v) (stack, visited)).2
      (fun s hs' => by
        rcases (h1 s).mp hs' with h | h
        · exact hs s (List.mem_cons_of_mem _ h)
        · exact hU v hvU s h.1)
      (by simp only [List.length_cons] at hf h3; omega) x
    rw [walk, List.mem_cons, ih]
    constructor
    · rintro (rfl | ⟨s, hs', hp⟩)
      · exact ⟨x, List.mem_cons_self, .refl⟩
      · have hp' : Relation.ReflTransGen (Fresh succ visited) s x :=
          hp.lift id fun a b hab => ⟨hab.1, fun hb => hab.2 ((h2 b).mpr (Or.inl hb))⟩
        rcases (h1 s).mp hs' with h | h
        · exact ⟨s, List.mem_cons_of_mem _ h, hp'⟩
        · exact ⟨v, List.mem_cons_self, .head ⟨h.1, h.2⟩ hp'⟩
    · rintro ⟨s, hs', hp⟩
      obtain ⟨s', hs'', hp'⟩ := fresh_path_split h2 hp
      rcases hs'' with rfl | h
      · rcases List.mem_cons.mp hs' with rfl | hmem
        · -- every first step from the popped node meets a visited one
          rcases hp'.cases_head with rfl | ⟨d, hd, _⟩
          · exact Or.inl rfl
          · exact absurd ((h2 d).mpr (Or.inr hd.1)) hd.2
        · exact Or.inr ⟨s', (h1 s').mpr (Or.inl hmem), hp'⟩
      · exact Or.inr ⟨s', (h1 s').mpr (Or.inr h), hp'⟩

theorem left_le (U : Finset N) (visited : ExtTreeSet N) : left U visited ≤ U.card :=
  Finset.card_filter_le _ _

variable {fuel : ℕ}

/-- **A walk pops what is reachable**, whether its start counts as visited or not. -/
theorem mem_walk_iff (hU : ∀ v ∈ U, ∀ d ∈ succ v, d ∈ U) {a : N} (ha : a ∈ U) (hf : U.card + 1 ≤ fuel)
    (hv : ∀ y ∈ visited, y = a) (x : N) :
    x ∈ walk succ fuel [a] visited ↔ Reach succ a x := by
  rw [mem_walk hU fuel [a] visited (by simpa using ha)
    (by have := left_le U visited; simp only [List.length_singleton]; omega)]
  simp only [List.mem_singleton, exists_eq_left]
  constructor
  · exact fun h => h.lift id fun a b hab => hab.1
  · intro h
    -- the path restarts at its last visit to `a`
    induction h with
    | refl => exact .refl
    | @tail y z _ hyz ih =>
      by_cases hz : z = a
      · subst hz; exact .refl
      · exact ih.tail ⟨hyz, fun h => hz (hv z h)⟩

/-! ### The closure -/

/-- The successors still to be pushed: over the nodes of `U` not collected yet. -/
def pushesLeft (succ : N → ExtTreeSet N) (U : Finset N) (fresh : ExtTreeSet N) : ℕ :=
  ∑ v ∈ U.filter (· ∉ fresh), (succ v).size

theorem pushesLeft_insert (succ : N → ExtTreeSet N) {fresh : ExtTreeSet N} {n : N} (hU : n ∈ U)
    (hn : n ∉ fresh) :
    pushesLeft succ U fresh = (succ n).size + pushesLeft succ U (fresh.insert n) := by
  unfold pushesLeft
  rw [← Finset.sum_insert (f := fun v => (succ v).size) (s := U.filter (· ∉ fresh.insert n))
    (a := n) (by simp)]
  congr 1
  ext x
  by_cases hx : x = n
  · subst hx; simp [hn, hU]
  · simp [hx, Ne.symm hx]

/-- Pushing the nodes outside `stop`. -/
theorem foldl_pushAll (stop : ExtTreeSet N) : ∀ (ds st : List N),
    (∀ x, x ∈ ds.foldl (fun st d => if stop.contains d then st else d :: st) st ↔
      x ∈ st ∨ (x ∈ ds ∧ x ∉ stop)) ∧
    (ds.foldl (fun st d => if stop.contains d then st else d :: st) st).length ≤
      st.length + ds.length
  | [], st => by simp
  | d :: ds, st => by
    simp only [List.foldl_cons]
    by_cases hd : d ∈ stop
    · obtain ⟨h1, h2⟩ := foldl_pushAll stop ds st
      rw [if_pos (by simpa using hd)]
      refine ⟨fun x => ?_, by simp only [List.length_cons]; omega⟩
      rw [h1 x]
      by_cases hx : x = d
      · subst hx; simp [hd]
      · simp [hx]
    · obtain ⟨h1, h2⟩ := foldl_pushAll stop ds (d :: st)
      rw [if_neg (by simpa using hd)]
      refine ⟨fun x => ?_, by simp only [List.length_cons] at h2 ⊢; omega⟩
      rw [h1 x]
      by_cases hx : x = d
      · subst hx; simp [hd]
      · simp [hx]

/-- A step to a node neither stopped at nor collected. -/
def Open (succ : N → ExtTreeSet N) (stop fresh : ExtTreeSet N) (a b : N) : Prop :=
  Edge succ a b ∧ b ∉ stop ∧ b ∉ fresh

variable {stop : ExtTreeSet N}

/-- The closure collects exactly what its stack reaches by open steps. -/
theorem mem_closure (hU : ∀ v ∈ U, ∀ d ∈ succ v, d ∈ U) :
    ∀ (fuel : ℕ) (stack : List N) (fresh : ExtTreeSet N), (∀ s ∈ stack, s ∈ U) →
      stack.length + pushesLeft succ U fresh ≤ fuel → ∀ x, x ∈ closure succ stop fuel stack fresh ↔
        x ∈ fresh ∨ ∃ s ∈ stack, (s ∉ stop ∧ s ∉ fresh) ∧
          Relation.ReflTransGen (Open succ stop fresh) s x
  | fuel, [], fresh, _, _, x => by
    cases fuel <;> simp [closure]
  | 0, _ :: _, fresh, _, hf, x => by
    simp only [List.length_cons] at hf; omega
  | fuel + 1, n :: stack, fresh, hs, hf, x => by
    have hst : ∀ s ∈ stack, s ∈ U := fun s h => hs s (List.mem_cons_of_mem _ h)
    simp only [List.length_cons] at hf
    rw [closure]
    by_cases hn : n ∈ stop ∨ n ∈ fresh
    · rw [if_pos (by simpa using hn), mem_closure hU fuel stack fresh hst (by omega) x]
      constructor
      · rintro (h | ⟨s, h1, h2, h3⟩)
        · exact Or.inl h
        · exact Or.inr ⟨s, List.mem_cons_of_mem _ h1, h2, h3⟩
      · rintro (h | ⟨s, h1, h2, h3⟩)
        · exact Or.inl h
        · rcases List.mem_cons.mp h1 with rfl | h1
          · exact absurd hn (not_or.mpr h2)
          · exact Or.inr ⟨s, h1, h2, h3⟩
    · rw [if_neg (by simpa using hn)]
      obtain ⟨hns, hnf⟩ := not_or.mp hn
      have hnU : n ∈ U := hs n List.mem_cons_self
      obtain ⟨h1, h2⟩ := foldl_pushAll stop (succ n).toList stack
      rw [← ExtTreeSet.foldl_eq_foldl_toList] at h1 h2
      simp only [ExtTreeSet.mem_toList] at h1
      have hlen : (succ n).toList.length = (succ n).size := ExtTreeSet.length_toList
      have hpush := pushesLeft_insert succ hnU hnf
      rw [mem_closure hU fuel _ _
        (fun s h => by
          rcases (h1 s).mp h with h | h
          · exact hst s h
          · exact hU n hnU s h.1)
        (by omega) x]
      have hmem : ∀ y, y ∉ fresh.insert n ↔ y ≠ n ∧ y ∉ fresh := fun y => by
        simp [ne_comm]
      constructor
      · rintro (h | ⟨s, h3, ⟨h4, h5⟩, h6⟩)
        · rcases ExtTreeSet.mem_insert.mp h with h | h
          · rw [Std.compare_eq_iff_eq] at h
            subst h
            exact Or.inr ⟨n, List.mem_cons_self, ⟨hns, hnf⟩, .refl⟩
          · exact Or.inl h
        · have h6' : Relation.ReflTransGen (Open succ stop fresh) s x :=
            h6.lift id fun a b hab => ⟨hab.1, hab.2.1, ((hmem b).mp hab.2.2).2⟩
          have h5' := ((hmem s).mp h5).2
          rcases (h1 s).mp h3 with h | h
          · exact Or.inr ⟨s, List.mem_cons_of_mem _ h, ⟨h4, h5'⟩, h6'⟩
          · exact Or.inr ⟨n, List.mem_cons_self, ⟨hns, hnf⟩, .head ⟨h.1, h4, h5'⟩ h6'⟩
      · rintro (h | ⟨s, h3, ⟨h4, h5⟩, h6⟩)
        · exact Or.inl (ExtTreeSet.mem_insert.mpr (Or.inr h))
        · -- from its last visit to `n` on, the path leaves by a pushed successor
          have key : x = n ∨ ∃ s' ∈ (succ n).foldl
              (fun st d => if stop.contains d then st else d :: st) stack,
              (s' ∉ stop ∧ s' ∉ fresh.insert n) ∧
                Relation.ReflTransGen (Open succ stop (fresh.insert n)) s' x := by
            induction h6 with
            | refl =>
              by_cases hsn : s = n
              · exact Or.inl hsn
              · rcases List.mem_cons.mp h3 with h | h
                · exact absurd h hsn
                · exact Or.inr ⟨s, (h1 s).mpr (Or.inl h), ⟨h4, (hmem s).mpr ⟨hsn, h5⟩⟩, .refl⟩
            | @tail y z _ hyz ih =>
              by_cases hzn : z = n
              · exact Or.inl hzn
              · have hz : z ∉ fresh.insert n := (hmem z).mpr ⟨hzn, hyz.2.2⟩
                rcases ih with rfl | ⟨s', h7, h8, h9⟩
                · exact Or.inr ⟨z, (h1 z).mpr (Or.inr ⟨hyz.1, hyz.2.1⟩), ⟨hyz.2.1, hz⟩, .refl⟩
                · exact Or.inr ⟨s', h7, h8, h9.tail ⟨hyz.1, hyz.2.1, hz⟩⟩
          rcases key with rfl | h
          · exact Or.inl ExtTreeSet.mem_insert_self
          · exact Or.inr h

/-- **The closure of a stack**, when what it stops at is closed under successors: the
reachable nodes outside. -/
theorem mem_closure_iff (hU : ∀ v ∈ U, ∀ d ∈ succ v, d ∈ U) (hstop : ∀ v ∈ stop, ∀ d ∈ succ v, d ∈ stop)
    {stack : List N} (hs : ∀ s ∈ stack, s ∈ U) (hf : stack.length + ∑ v ∈ U, (succ v).size ≤ fuel) (x : N) :
    x ∈ closure succ stop fuel stack ∅ ↔ x ∉ stop ∧ ∃ s ∈ stack, Reach succ s x := by
  have hp : pushesLeft succ U ∅ = ∑ v ∈ U, (succ v).size := by simp [pushesLeft]
  rw [mem_closure hU fuel stack ∅ hs (by omega) x]
  have hout : ∀ {s y : N}, Reach succ s y → y ∉ stop → s ∉ stop := by
    intro s y h
    induction h with
    | refl => exact id
    | @tail y z _ hyz ih => exact fun hz => ih fun hy => hz (hstop y hy z hyz)
  constructor
  · rintro (h | ⟨s, h1, ⟨h2, -⟩, h4⟩)
    · exact absurd h ExtTreeSet.not_mem_empty
    · refine ⟨?_, s, h1, h4.lift id fun a b hab => hab.1⟩
      rcases h4.cases_tail with rfl | ⟨y, _, hy⟩
      · exact h2
      · exact hy.2.1
  · rintro ⟨h1, s, h2, h3⟩
    refine Or.inr ⟨s, h2, ⟨hout h3 h1, ExtTreeSet.not_mem_empty⟩, ?_⟩
    induction h3 with
    | refl => exact .refl
    | @tail y z _ hyz ih =>
      exact (ih fun hy => h1 (hstop y hy z hyz)).tail ⟨hyz, h1, ExtTreeSet.not_mem_empty⟩

end Graph
end HypercoreRs
