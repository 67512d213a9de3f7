/-
# The pinned base

`reconfigure_at` admits a base that extends the current one, names delivered nodes only,
once each, and is closed under dependencies (`reconfigureAt_eq_ok`). So the clock of the
base, which the drivers start from, covers exactly its nodes (`Pinned`): a closed list
holds with a node the writer's earlier ones.
-/
import HypercoreRs.Autobase.Shift

namespace HypercoreRs

open Std

namespace Linearizer

variable {K : Type} [LinearOrder K] {L L' : Linearizer K}

/-! ### What is accepted -/

theorem checkMembers_eq_ok : ∀ (base : List (NodeId K)) (members members' : ExtTreeSet (NodeId K)),
    L.checkMembers base members = .ok members' ↔ base.Nodup ∧
      (∀ x ∈ base, x ∈ L.deps ∧ x ∉ members) ∧ members' = members.insertMany base
  | [], members, members' => by
    simp [checkMembers, eq_comm]
  | n :: rest, members, members' => by
    rw [checkMembers]
    by_cases hn : n ∈ L.deps
    · have hc : L.deps.contains n = true := ExtTreeMap.contains_iff_mem.mpr hn
      rw [if_neg (by rw [hc]; decide)]
      by_cases hm : n ∈ members
      · rw [if_pos (ExtTreeSet.contains_iff_mem.mpr hm)]
        simp [hm]
      · have ih := checkMembers_eq_ok rest (members.insert n) members'
        rw [if_neg (mt ExtTreeSet.contains_iff_mem.mp hm)]
        simp only [ih, List.nodup_cons, List.mem_cons, forall_eq_or_imp,
          ExtTreeSet.insertMany_cons, Graph.mem_insert_set, hn, hm, not_false_eq_true, and_true,
          true_and]
        constructor
        · rintro ⟨h1, h2, h3⟩
          exact ⟨⟨fun hin => (h2 n hin).2 (Or.inl rfl), h1⟩,
            fun x hx => ⟨(h2 x hx).1, fun h => (h2 x hx).2 (Or.inr h)⟩, h3⟩
        · rintro ⟨⟨h0, h1⟩, h2, h3⟩
          refine ⟨h1, fun x hx => ⟨(h2 x hx).1, ?_⟩, h3⟩
          rintro (rfl | h)
          · exact h0 hx
          · exact (h2 x hx).2 h
    · have hc : L.deps.contains n = false :=
        Bool.eq_false_iff.mpr (mt ExtTreeMap.contains_iff_mem.mp hn)
      rw [if_pos (by rw [hc]; rfl)]
      simp [hn]

theorem checkClosed_eq_ok {members : ExtTreeSet (NodeId K)} : ∀ (base : List (NodeId K))
    (clock clock' : Clock K), L.checkClosed members base clock = .ok clock' ↔
      (∀ x ∈ base, ∀ d ∈ L.depsOf x, d ∈ members) ∧ clock' = raiseAll clock base
  | [], clock, clock' => by simp [checkClosed, raiseAll, eq_comm]
  | n :: rest, clock, clock' => by
    rw [checkClosed]
    cases hfind : (L.depsOf n).toList.find? fun dep => !members.contains dep with
    | some dep =>
      have hin := ExtTreeSet.mem_toList.mp (List.mem_of_find?_eq_some hfind)
      have hout := List.find?_some hfind
      simp only [reduceCtorEq, false_iff]
      rintro ⟨h, -⟩
      have hmem := h n List.mem_cons_self dep hin
      simp [ExtTreeSet.contains_iff_mem.mpr hmem] at hout
    | none =>
      have hall : ∀ d ∈ L.depsOf n, d ∈ members := fun d hd => by
        simpa using List.find?_eq_none.mp hfind d (ExtTreeSet.mem_toList.mpr hd)
      simp only [checkClosed_eq_ok rest, List.forall_mem_cons, raiseAll, List.foldl_cons]
      exact ⟨fun ⟨h1, h2⟩ => ⟨⟨hall, h1⟩, h2⟩, fun ⟨⟨_, h1⟩, h2⟩ => ⟨h1, h2⟩⟩

variable {base : List (NodeId K)} {indexers : List K}

/-- When a base is accepted, and what is then stored. -/
theorem reconfigureAt_eq_ok :
    L.reconfigureAt base indexers = (L', .ok ()) ↔
      (L.base <+: base ∧ base.Nodup ∧ (∀ x ∈ base, x ∈ L.deps) ∧
        ∀ x ∈ base, ∀ d ∈ L.depsOf x, d ∈ base) ∧
      L' = { L with
        base := base
        baseClock := raiseAll Clock.empty base
        indexers := some (ExtTreeSet.ofList indexers) } := by
  unfold reconfigureAt
  by_cases hpre : L.base <+: base
  · rw [if_neg (by simpa using hpre)]
    cases hm : L.checkMembers base ∅ with
    | error e =>
      have hno := mt (checkMembers_eq_ok (L := L) base ∅ (ExtTreeSet.insertMany ∅ base)).mpr
        (by rw [hm]; simp)
      simp only [Prod.mk.injEq, reduceCtorEq, and_false, false_iff]
      rintro ⟨⟨-, h1, h2, -⟩, -⟩
      exact hno ⟨h1, fun x hx => ⟨h2 x hx, ExtTreeSet.not_mem_empty⟩, rfl⟩
    | ok members =>
      obtain ⟨h1, h2, rfl⟩ := (checkMembers_eq_ok base ∅ members).mp hm
      have hmem : ∀ d, d ∈ (∅ : ExtTreeSet (NodeId K)).insertMany base ↔ d ∈ base := fun d => by
        simp
      dsimp only
      cases hc : L.checkClosed ((∅ : ExtTreeSet (NodeId K)).insertMany base) base Clock.empty with
      | error e =>
        have hno := mt (checkClosed_eq_ok (L := L) base Clock.empty
          (raiseAll Clock.empty base)).mpr (by rw [hc]; simp)
        simp only [Prod.mk.injEq, reduceCtorEq, and_false, false_iff]
        rintro ⟨⟨-, -, -, h3⟩, -⟩
        exact hno ⟨fun x hx d hd => (hmem d).mpr (h3 x hx d hd), rfl⟩
      | ok clock =>
        obtain ⟨h3, rfl⟩ := (checkClosed_eq_ok base Clock.empty clock).mp hc
        simp only [hmem] at h3
        simp only [Prod.mk.injEq, and_true]
        exact ⟨fun h => ⟨⟨hpre, h1, fun x hx => (h2 x hx).1, h3⟩, h.symm⟩, fun h => h.2.symm⟩
  · have hpre' : L.base.isPrefixOf base = false :=
      Bool.eq_false_iff.mpr (mt List.isPrefixOf_iff_prefix.mp hpre)
    rw [if_pos (by rw [hpre']; rfl)]
    simp [hpre]

/-- A refused base changes nothing. -/
theorem reconfigureAt_eq_error {e : ReconfigureError K} (h : L.reconfigureAt base indexers = (L', .error e)) :
    L' = L := by
  unfold reconfigureAt at h
  split_ifs at h
  · exact (Prod.mk.inj h).1.symm
  · split at h
    · exact (Prod.mk.inj h).1.symm
    · split at h
      · exact (Prod.mk.inj h).1.symm
      · cases (Prod.mk.inj h).2

variable {through : ℕ}

/-- An accepted reconfiguration pins the first nodes of the confirmed view. -/
theorem eq_of_reconfigure (h : L.reconfigure through indexers = (L', .ok ())) :
    L' = { L with
      base := L.confirmedView.take through
      baseClock := raiseAll Clock.empty (L.confirmedView.take through)
      indexers := some (ExtTreeSet.ofList indexers) } := by
  unfold reconfigure at h
  dsimp only at h
  split_ifs at h
  · cases h
  · exact (reconfigureAt_eq_ok.mp h).2

/-- It changes neither the nodes nor their dependencies. -/
theorem deps_reconfigure (h : L.reconfigure through indexers = (L', .ok ())) : L'.deps = L.deps := by
  rw [eq_of_reconfigure h]

/-! ### The clock of a base -/

variable {l : List (NodeId K)}

/-- A list closed under dependencies holds the past of its nodes. -/
theorem mem_of_past (hcl : ∀ x ∈ l, ∀ d ∈ L.depsOf x, d ∈ l) {a b : NodeId K} (ha : a ∈ l) (h : L.Past a b) :
    b ∈ l := by
  induction h with
  | refl => exact ha
  | tail _ hbc ih => exact hcl _ ih _ hbc

/-- The clock of a closed list covers exactly its nodes: it holds with a node the
writer's earlier ones. -/
theorem mem_gone_clockOf (hL : L.WF) (hsub : ∀ x ∈ l, x ∈ L.deps) (hcl : ∀ x ∈ l, ∀ d ∈ L.depsOf x, d ∈ l)
    (x : NodeId K) :
    x ∈ gone (raiseAll Clock.empty l) ↔ x ∈ l := by
  rw [mem_gone, raiseAll, lt_foldl_raise, Clock.get_empty]
  constructor
  · rintro (h | ⟨v, hv, hk, hs⟩)
    · exact absurd h (Nat.not_lt_zero _)
    · obtain ⟨k, s⟩ := v
      obtain ⟨k', t⟩ := x
      obtain rfl : k = k' := hk
      exact mem_of_past hcl hv (Past.of_le hL hs (hsub _ hv))
  · intro hx
    exact Or.inr ⟨x, hx, rfl, le_rfl⟩

/-- The base is one that `reconfigureAt` admits, and the clock is that of the base. -/
structure Pinned (L : Linearizer K) : Prop where
  nodup : L.base.Nodup
  sub : ∀ x ∈ L.base, x ∈ L.deps
  closed : ∀ x ∈ L.base, ∀ d ∈ L.depsOf x, d ∈ L.base
  clock : ∀ x, x ∈ gone L.baseClock ↔ x ∈ L.base

theorem Pinned.lower (hL : L.WF) (h : L.Pinned) : Lower hL L.baseClock := by
  intro x _ y _ hx hxy
  rw [h.clock] at hx ⊢
  exact mem_of_past h.closed hx hxy

theorem Pinned.attach (h : L.Pinned) {node : NodeId K} {ds : ExtTreeSet (NodeId K)}
    (hn : node ∉ L.deps) : (L.attach node ds).Pinned := by
  refine ⟨h.nodup, fun x hx => mem_attach.mpr (Or.inr (h.sub x hx)), fun x hx d hd => ?_, h.clock⟩
  have hne : x ≠ node := fun he => hn (he ▸ h.sub x hx)
  rw [depsOf_attach, if_neg hne] at hd
  exact h.closed x hx d hd

theorem Pinned.add (h : L.Pinned) (node : NodeId K) (heads : List (NodeId K)) :
    (L.add node heads).1.Pinned := by
  cases he : L.add node heads with
  | mk L' r =>
    cases r with
    | error e =>
      have hsame : (L.add node heads).1 = L := add_eq_error (by rw [he])
      rw [he] at hsame
      exact hsame ▸ h
    | ok _ =>
      obtain ⟨hn, -, -, rfl⟩ := add_eq_ok.mp he
      exact h.attach hn

theorem Pinned.reconfigureAt (hL : L.WF) (h : L.Pinned) (base : List (NodeId K))
    (indexers : List K) : (L.reconfigureAt base indexers).1.Pinned := by
  cases he : L.reconfigureAt base indexers with
  | mk L' r =>
    cases r with
    | error e => exact reconfigureAt_eq_error he ▸ h
    | ok _ =>
      obtain ⟨⟨-, h1, h2, h3⟩, rfl⟩ := reconfigureAt_eq_ok.mp he
      exact ⟨h1, h2, h3, mem_gone_clockOf hL h2 h3⟩

end Linearizer
end HypercoreRs
