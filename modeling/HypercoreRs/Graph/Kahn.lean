/-
# Priority Kahn: the topological order that emits the least ready node first

`kahn` keeps, for every node still to come, the number of its unmet dependencies
and the frontier of nodes without any; it pops the least node of the frontier
and lowers the count of each of its dependents, which join the frontier at zero.

`kahn_of_table`: over a finite acyclic set it emits every node once, after all the
node's dependencies in the set. The invariant (`KahnInv`) is that the counts are
the unmet dependencies and the frontier the nodes without any; at the end the
remaining node of least rank would have none, so there is no such node.

`kahn_least`: no other order of the set that lists dependencies first is smaller.
Where the two part, the other goes on with a node that is ready too, and `kahn`
took the least of those.
-/
import HypercoreRs.Graph.Tables

open Std

namespace HypercoreRs
namespace Graph

variable {N : Type} [LinearOrder N]

/-- One dependent of the node just emitted: its count falls by one, and at zero it
joins the frontier. A dependent outside the table is passed over. -/
def release (st : ExtTreeMap N ℕ × ExtTreeSet N) (child : N) : ExtTreeMap N ℕ × ExtTreeSet N :=
  match st.1[child]? with
  | none => st
  | some d => (st.1.insert child (d - 1), if d - 1 = 0 then st.2.insert child else st.2)

/-- Emit the least node of the frontier and release its dependents, until the
frontier is empty. -/
def kahn (dependents : ExtTreeMap N (ExtTreeSet N)) :
    ℕ → ExtTreeMap N ℕ → ExtTreeSet N → List N
  | 0, _, _ => []
  | fuel + 1, indeg, frontier =>
    match frontier.toList with
    | [] => []
    | node :: _ =>
      let st := (dependents.getD node ∅).foldl release (indeg, frontier.erase node)
      node :: kahn dependents fuel st.1 st.2

/-- Every listed node comes after its dependencies. -/
def DepsFirst (deps : N → ExtTreeSet N) (l : List N) : Prop :=
  ∀ l₁ n l₂, l = l₁ ++ n :: l₂ → ∀ d ∈ deps n, d ∈ l₁

variable {deps : N → ExtTreeSet N} {l : List N}

theorem DepsFirst.closed (h : DepsFirst deps l) {n d : N} (hn : n ∈ l) (hd : d ∈ deps n) :
    d ∈ l := by
  obtain ⟨l₁, l₂, rfl⟩ := List.append_of_mem hn
  exact List.mem_append_left _ (h l₁ n l₂ rfl d hd)

variable {a b : List N}

theorem DepsFirst.of_append (h : DepsFirst deps (a ++ b)) : DepsFirst deps a := by
  rintro l₁ n l₂ rfl d hd
  exact h l₁ n (l₂ ++ b) (by simp) d hd

theorem DepsFirst.append (ha : DepsFirst deps a)
    (hb : ∀ l₁ n l₂, b = l₁ ++ n :: l₂ → ∀ d ∈ deps n, d ∈ a ∨ d ∈ l₁) :
    DepsFirst deps (a ++ b) := by
  intro l₁ n l₂ he d hd
  rcases List.append_eq_append_iff.mp he with ⟨m, rfl, hb'⟩ | ⟨m, rfl, hm⟩
  · exact List.mem_append.mpr (hb m n l₂ hb' d hd)
  · cases m with
    | nil =>
      rw [List.append_nil] at ha
      have := hb [] n l₂ (by simpa using hm.symm) d hd
      simpa using this
    | cons k m =>
      obtain ⟨rfl, -⟩ := List.cons.inj hm
      exact ha l₁ n m rfl d hd

/-- The dependencies of `c` in `S` that are not in `done`. -/
def unmet (deps : N → ExtTreeSet N) (S : Finset N) (done : List N) (c : N) : ℕ :=
  (deps c).toList.countP fun d => d ∈ S ∧ d ∉ done

/-! ### Lists in order -/

theorem nil_le_list : ∀ l : List N, [] ≤ l
  | [] => le_rfl
  | _ :: _ => LT.lt.le List.Lex.nil

theorem cons_le_cons_list {x y : N} {l l' : List N} (h : x < y ∨ x = y ∧ l ≤ l') :
    x :: l ≤ y :: l' := by
  obtain hlt | ⟨rfl, hle⟩ := h
  · exact LT.lt.le (List.Lex.rel hlt)
  · obtain hlt | rfl := hle.lt_or_eq
    · exact LT.lt.le (List.Lex.cons hlt)
    · exact le_rfl

/-- A set lists its least element first. -/
theorem head_le {s : ExtTreeSet N} {x y : N} {rest : List N} (h : s.toList = x :: rest)
    (hy : y ∈ s) : x ≤ y := by
  have hord := s.ordered_toList
  rw [h, List.pairwise_cons] at hord
  have hmem : y ∈ x :: rest := h ▸ ExtTreeSet.mem_toList.mpr hy
  obtain rfl | hy := List.mem_cons.mp hmem
  · exact le_rfl
  · exact (compare_lt_iff_lt.mp (hord.1 y hy)).le

/-! ### Releasing the dependents of a node -/

theorem foldl_release_spec : ∀ (cs : List N) (st : ExtTreeMap N ℕ × ExtTreeSet N), cs.Nodup →
    (∀ c, (cs.foldl release st).1[c]? =
      if c ∈ cs then st.1[c]?.map (· - 1) else st.1[c]?) ∧
    (∀ c, c ∈ (cs.foldl release st).2 ↔
      c ∈ st.2 ∨ (c ∈ cs ∧ ∃ d, st.1[c]? = some d ∧ d - 1 = 0))
  | [], st, _ => by simp
  | k :: cs, st, hnd => by
    obtain ⟨hk, hnd'⟩ := List.nodup_cons.mp hnd
    obtain ⟨h1, h2⟩ := foldl_release_spec cs (release st k) hnd'
    simp only [List.foldl_cons]
    cases hst : st.1[k]? with
    | none =>
      have hr : release st k = st := by simp [release, hst]
      rw [hr] at h1 h2 ⊢
      refine ⟨fun c => ?_, fun c => ?_⟩
      · rw [h1 c]
        by_cases hc : c = k
        · subst hc; simp [hk, hst]
        · simp [hc]
      · rw [h2 c]
        by_cases hc : c = k
        · subst hc; simp [hk, hst]
        · simp [hc]
    | some d =>
      have hr1 : ∀ c, (release st k).1[c]? = if c = k then some (d - 1) else st.1[c]? := by
        intro c
        simp only [release, hst, getElem?_insert]
      have hr2 : ∀ c, c ∈ (release st k).2 ↔ c ∈ st.2 ∨ (c = k ∧ d - 1 = 0) := by
        intro c
        simp only [release, hst]
        by_cases hd : d - 1 = 0
        · simp only [hd, if_true, ExtTreeSet.mem_insert, Std.compare_eq_iff_eq]
          tauto
        · simp [hd]
      refine ⟨fun c => ?_, fun c => ?_⟩
      · rw [h1 c, hr1 c]
        by_cases hc : c = k
        · subst hc; simp [hk, hst]
        · simp [hc]
      · rw [h2 c, hr2 c, hr1 c]
        by_cases hc : c = k
        · subst hc; simp [hk, hst]
        · simp [hc]

variable {n : N}

theorem countP_split (hl : l.Nodup) (p : N → Prop) [DecidablePred p] (hn : p n) :
    l.countP (fun d => decide (p d)) =
    l.countP (fun d => decide (p d ∧ d ≠ n)) + if n ∈ l then 1 else 0 := by
  induction l with
  | nil => simp
  | cons a l ih =>
    obtain ⟨ha, hl'⟩ := List.nodup_cons.mp hl
    simp only [List.countP_cons, ih hl', List.mem_cons]
    by_cases han : a = n
    · subst han; simp [ha, hn]
    · simp [han, Ne.symm han]
      omega

variable {done : List N}

/-- Emitting `n` meets the dependency of each of its dependents, and no other. -/
theorem unmet_append (deps : N → ExtTreeSet N) {S : Finset N} (hS : n ∈ S) (hn : n ∉ done) (c : N) :
    unmet deps S done c = unmet deps S (done ++ [n]) c + if n ∈ deps c then 1 else 0 := by
  unfold unmet
  rw [countP_split (nodup_toList _) (fun d => d ∈ S ∧ d ∉ done) ⟨hS, hn⟩]
  simp only [ExtTreeSet.mem_toList, List.mem_append, List.mem_singleton, not_or, and_assoc]

/-! ### The loop -/

/-- What the loop keeps: `done` is what was emitted. -/
structure KahnInv (deps : N → ExtTreeSet N) (S : Finset N) (done : List N)
    (indeg : ExtTreeMap N ℕ) (frontier : ExtTreeSet N) : Prop where
  nodup : done.Nodup
  sub : ∀ x ∈ done, x ∈ S
  met : ∀ x ∈ done, unmet deps S done x = 0
  indeg : ∀ c, indeg[c]? = if c ∈ S then some (unmet deps S done c) else none
  frontier : ∀ c, c ∈ frontier ↔ c ∈ S ∧ c ∉ done ∧ unmet deps S done c = 0

variable {dependents : ExtTreeMap N (ExtTreeSet N)} {S : Finset N}
variable {indeg : ExtTreeMap N ℕ} {frontier : ExtTreeSet N}

/-- With an empty frontier nothing is left: an unemitted node of least rank would
have all its dependencies emitted. -/
theorem KahnInv.all_done (h : KahnInv deps S done indeg frontier) (rank : N → ℕ)
    (hrank : ∀ c ∈ S, ∀ d ∈ deps c, d ∈ S → rank d < rank c) (he : ∀ c, c ∉ frontier) :
    ∀ x ∈ S, x ∈ done := by
  intro x
  induction hx : rank x using Nat.strong_induction_on generalizing x with
  | _ r ih =>
    intro hxS
    by_contra hxd
    refine he x ((h.frontier x).mpr ⟨hxS, hxd, ?_⟩)
    rw [unmet, List.countP_eq_zero]
    intro d hd
    have hd' : d ∈ deps x := ExtTreeSet.mem_toList.mp hd
    simp only [decide_eq_true_eq, not_and, not_not]
    exact fun hdS => ih _ (hx ▸ hrank x hxS d hd' hdS) d rfl hdS

section Reverse

variable (hrev : ∀ n ∈ S, ∀ c ∈ S, c ∈ dependents.getD n ∅ ↔ n ∈ deps c)
include hrev

/-- One emission keeps the invariant. -/
theorem KahnInv.step (h : KahnInv deps S done indeg frontier) (hself : ∀ n ∈ S, n ∉ deps n)
    (hn : n ∈ frontier) :
    KahnInv deps S (done ++ [n])
      ((dependents.getD n ∅).foldl release (indeg, frontier.erase n)).1
      ((dependents.getD n ∅).foldl release (indeg, frontier.erase n)).2 := by
  obtain ⟨hnS, hnd, h0⟩ := (h.frontier n).mp hn
  have hu := fun c => unmet_append deps hnS hnd c
  rw [ExtTreeSet.foldl_eq_foldl_toList]
  obtain ⟨h1, h2⟩ := foldl_release_spec (dependents.getD n ∅).toList (indeg, frontier.erase n)
    (nodup_toList _)
  simp only [ExtTreeSet.mem_toList] at h1 h2
  refine ⟨?_, ?_, ?_, fun c => ?_, fun c => ?_⟩
  · rw [List.nodup_append]
    exact ⟨h.nodup, List.nodup_singleton _, fun a ha b hb => by
      rw [List.mem_singleton.mp hb]; exact fun he => hnd (he ▸ ha)⟩
  · intro x hx
    rcases List.mem_append.mp hx with hx | hx
    · exact h.sub x hx
    · exact (List.mem_singleton.mp hx) ▸ hnS
  · intro x hx
    have hux := hu x
    rcases List.mem_append.mp hx with hx | hx
    · have := h.met x hx
      omega
    · rw [List.mem_singleton.mp hx] at hux ⊢
      omega
  · rw [h1 c, h.indeg c]
    by_cases hc : c ∈ S
    · simp only [hc, if_true, Option.map_some, hrev n hnS c hc]
      have := hu c
      split_ifs at this ⊢ with hd
      · rw [this]; simp
      · rw [this]; simp
    · simp [hc]
  · rw [h2 c, ExtTreeSet.mem_erase, h.frontier c, h.indeg c]
    simp only [ne_eq, Std.compare_eq_iff_eq, List.mem_append, List.mem_singleton, not_or]
    have hc := hu c
    by_cases hcS : c ∈ S
    · rw [if_pos hcS, hrev n hnS c hcS]
      by_cases hcn : c = n
      · subst hcn
        simp [hself c hcS]
      · have hnc : ¬ n = c := fun he => hcn he.symm
        by_cases hd : n ∈ deps c
        · -- a dependent waits for `n`, so it was neither emitted nor in the frontier
          rw [if_pos hd] at hc
          have hcd : c ∉ done := fun hin => by
            have := h.met c hin
            omega
          simp only [hcS, hcn, hnc, hcd, hd, true_and, and_true, not_false_eq_true,
            Option.some.injEq, exists_eq_left']
          omega
        · rw [if_neg hd] at hc
          simp only [hcS, hcn, hnc, hd, true_and, and_true, not_false_eq_true, false_and, or_false]
          rw [hc]; simp
    · simp [hcS]

/-- What `kahn` emits from a state of the loop: with `done` it lists `S` once, and
each node after its dependencies in `S`. -/
theorem kahn_run (rank : N → ℕ) (hrank : ∀ c ∈ S, ∀ d ∈ deps c, d ∈ S → rank d < rank c) :
    ∀ (fuel : ℕ) (done : List N) (indeg : ExtTreeMap N ℕ) (frontier : ExtTreeSet N),
      KahnInv deps S done indeg frontier → S.card ≤ done.length + fuel →
      (done ++ kahn dependents fuel indeg frontier).Nodup ∧
      (∀ x, x ∈ done ++ kahn dependents fuel indeg frontier ↔ x ∈ S) ∧
      ∀ l₁ n l₂, kahn dependents fuel indeg frontier = l₁ ++ n :: l₂ →
        ∀ d ∈ deps n, d ∈ S → d ∈ done ++ l₁
  | 0, done, indeg, frontier, h, hf => by
    have hall : done.toFinset = S := by
      refine Finset.eq_of_subset_of_card_le (fun x hx => h.sub x (by simpa using hx)) ?_
      rw [List.toFinset_card_of_nodup h.nodup]
      exact hf
    refine ⟨by simpa [kahn] using h.nodup, fun x => ?_, fun l₁ n l₂ he => by simp [kahn] at he⟩
    simp [kahn, ← hall]
  | fuel + 1, done, indeg, frontier, h, hf => by
    unfold kahn
    split
    · rename_i hnil
      have he : ∀ c, c ∉ frontier := fun c hc => by
        have := ExtTreeSet.mem_toList.mpr hc
        rw [hnil] at this
        exact absurd this List.not_mem_nil
      refine ⟨by simpa using h.nodup, fun x => ?_, fun l₁ n l₂ he => by simp at he⟩
      simpa using ⟨h.sub x, h.all_done rank hrank he x⟩
    · rename_i node rest hcons
      have hn : node ∈ frontier := ExtTreeSet.mem_toList.mp (hcons ▸ List.mem_cons_self)
      obtain ⟨hnS, hnd, h0⟩ := (h.frontier node).mp hn
      have hself : ∀ n ∈ S, n ∉ deps n := fun n hnS hd => lt_irrefl _ (hrank n hnS n hd hnS)
      obtain ⟨r1, r2, r3⟩ := kahn_run rank hrank fuel (done ++ [node]) _ _
        (h.step hrev hself hn) (by simp; omega)
      simp only [List.append_assoc, List.singleton_append] at r1 r2
      refine ⟨r1, r2, fun l₁ n l₂ he d hd hdS => ?_⟩
      cases l₁ with
      | nil =>
        -- the popped node has no unmet dependency
        obtain ⟨rfl, -⟩ := List.cons.inj he
        have := List.countP_eq_zero.mp h0 d (ExtTreeSet.mem_toList.mpr hd)
        simpa [hdS] using this
      | cons k l₁ =>
        obtain ⟨rfl, he'⟩ := List.cons.inj he
        simpa using r3 l₁ n l₂ he' d hd hdS

/-! ### The least order -/

/-- Whatever else completes `done` to an order of `S` with dependencies first is no
smaller than what `kahn` emits. -/
theorem kahn_least (hself : ∀ n ∈ S, n ∉ deps n) :
    ∀ (fuel : ℕ) (done : List N) (indeg : ExtTreeMap N ℕ) (frontier : ExtTreeSet N) (l : List N),
      KahnInv deps S done indeg frontier → (done ++ l).Nodup → (∀ x, x ∈ done ++ l ↔ x ∈ S) →
      (∀ l₁ n l₂, l = l₁ ++ n :: l₂ → ∀ d ∈ deps n, d ∈ S → d ∈ done ++ l₁) →
      kahn dependents fuel indeg frontier ≤ l
  | 0, _, _, _, l, _, _, _, _ => nil_le_list l
  | fuel + 1, done, indeg, frontier, l, h, hnodup, hmem, hfirst => by
    unfold kahn
    split
    · exact nil_le_list l
    · rename_i node rest hcons
      have hn : node ∈ frontier := ExtTreeSet.mem_toList.mp (hcons ▸ List.mem_cons_self)
      obtain ⟨hnS, hnd, -⟩ := (h.frontier node).mp hn
      cases l with
      | nil => exact absurd (by simpa using (hmem node).mpr hnS) hnd
      | cons x l =>
        -- the first node of the other order has no unmet dependency either
        have hx : x ∈ frontier := by
          refine (h.frontier x).mpr ⟨(hmem x).mp (by simp), ?_, ?_⟩
          · exact fun hd => (List.nodup_append.mp hnodup).2.2 x hd x (by simp) rfl
          · rw [unmet, List.countP_eq_zero]
            intro d hd
            simp only [decide_eq_true_eq, not_and, not_not]
            simpa using hfirst [] x l rfl d (ExtTreeSet.mem_toList.mp hd)
        refine cons_le_cons_list ((head_le hcons hx).lt_or_eq.imp_right ?_)
        rintro rfl
        refine ⟨rfl, kahn_least hself fuel (done ++ [node]) _ _ l (h.step hrev hself hn)
          (by simpa using hnodup) (by simpa using hmem) fun l₁ n l₂ he d hd hdS => ?_⟩
        simpa using hfirst (node :: l₁) n l₂ (by rw [he]; rfl) d hd hdS

/-! ### From a table of counts -/

variable (hi : ∀ c, indeg[c]? = if c ∈ S then some (unmet deps S [] c) else none)
include hi

omit hrev in
/-- The loop starts from the number of dependencies in the set, and from the nodes whose
number is zero. -/
theorem kahnInv_of_table : KahnInv deps S [] indeg
    (ExtTreeSet.ofList ((indeg.toList.filter fun p => p.2 = 0).map Prod.fst)) := by
  refine ⟨List.nodup_nil, by simp, by simp, hi, fun c => ?_⟩
  simp only [mem_ofList, List.mem_map, List.mem_filter, decide_eq_true_eq, Prod.exists,
    exists_and_right, exists_eq_right, ExtTreeMap.mem_toList_iff_getElem?_eq_some, hi c]
  by_cases hc : c ∈ S
  · simp [hc]
  · simp [hc]

variable (deps S indeg)

/-- Priority Kahn over a finite acyclic set. -/
theorem kahn_of_table (rank : N → ℕ) (hrank : ∀ c ∈ S, ∀ d ∈ deps c, d ∈ S → rank d < rank c)
    {fuel : ℕ} (hf : fuel = S.card) :
    let out := kahn dependents fuel indeg
      (ExtTreeSet.ofList ((indeg.toList.filter fun p => p.2 = 0).map Prod.fst))
    out.Nodup ∧ (∀ x, x ∈ out ↔ x ∈ S) ∧
      ∀ l₁ n l₂, out = l₁ ++ n :: l₂ → ∀ d ∈ deps n, d ∈ S → d ∈ l₁ := by
  simpa using kahn_run hrev rank hrank fuel [] indeg _ (kahnInv_of_table hi) (by simp [hf])

/-- It is the least order of the set with dependencies first. -/
theorem kahn_of_table_least (hself : ∀ n ∈ S, n ∉ deps n) (fuel : ℕ) (hnodup : l.Nodup)
    (hmem : ∀ x, x ∈ l ↔ x ∈ S)
    (hfirst : ∀ l₁ n l₂, l = l₁ ++ n :: l₂ → ∀ d ∈ deps n, d ∈ S → d ∈ l₁) :
    kahn dependents fuel indeg
      (ExtTreeSet.ofList ((indeg.toList.filter fun p => p.2 = 0).map Prod.fst)) ≤ l :=
  kahn_least hrev hself fuel [] indeg _ l (kahnInv_of_table hi) (by simpa using hnodup)
    (by simpa using hmem) (by simpa using hfirst)

end Reverse

end Graph
end HypercoreRs
