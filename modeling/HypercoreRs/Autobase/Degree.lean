/-
# Clocks, the plain order and quorum degrees

What the linearizer computes from the shape of the DAG alone, next to what it is
supposed to be. A clock keeps one number per writer, and that number says which of the
writer's nodes are seen (`Built.clock_sees`). With nothing confirmed the order is the
least one, by writer and position, that lists dependencies first (`Built.order_least`).

A quorum degree is defined by a recursion over the DAG (`Witnesses`); the code makes one
pass in topological order and keeps, per node and indexer, the best degree so far.
`Degrees.Sound` says that what it keeps is witnessed; `Degrees.Full` says that nothing
witnessed is missed. The author of a node counts for itself at every level the loop
tests, since the loop tests a level only after the one below was reached
(`le_of_levelLoop`).

The level loop has no bound. It ends when the votes run out, and they do unless one
vote is a majority: `Built.quorumDegree_ends_iff`.
-/
import HypercoreRs.Autobase.Conservative

namespace HypercoreRs

open Std

namespace Linearizer

variable {K : Type} [LinearOrder K] {L : Linearizer K}

/-! ### Clocks -/

/-- **Clocks and `sees` agree, and `sees` is reachability.** -/
theorem Built.clock_sees (h : Built L) {a : NodeId K} (ha : L.contains a = true) :
    (∀ k n, 1 ≤ n → ((L.clock a).includes k n = true ↔ L.sees a ⟨k, n - 1⟩ = true)) ∧
    ∀ b, L.contains b = true →
      (L.sees a b = true ↔ Relation.ReflTransGen (fun x y => y ∈ L.depsOf x) a b) := by
  have hL := h.keeps.1
  rw [contains_eq, decide_eq_true_iff] at ha
  refine ⟨fun k n hn => ?_, fun b _ => hL.sees_iff a b⟩
  obtain ⟨s, rfl⟩ := Nat.exists_eq_add_of_le' hn
  rw [Clock.includes_iff, hL.lt_clock_iff ha, hL.sees_iff, Nat.add_sub_cancel]

theorem clock_sees_relayed :
    (relayed.clock ⟨0, 1⟩).includes 2 1 = true ∧ relayed.sees ⟨0, 1⟩ ⟨2, 0⟩ = true ∧
      relayed.sees ⟨0, 1⟩ ⟨2, 1⟩ = false := by
  have h := built_relayed
  have hclock := (h.clock_sees (a := ⟨0, 1⟩) (by decide +kernel)).1 2
  refine ⟨by decide +kernel, (hclock 1 le_rfl).mp (by decide +kernel), ?_⟩
  exact Bool.eq_false_iff.mpr fun hs => absurd ((hclock 2 (by omega)).mpr hs) (by decide +kernel)

/-! ### The plain order -/

/-- **The order before anything is confirmed**: of all orders of the delivered nodes with
dependencies first it is the least, by writer and then position. -/
theorem Built.order_least (h : Built L) (hnone : L.finalized = []) :
    L.order.Perm L.deps.keys ∧ Graph.DepsFirst L.depsOf L.order ∧
      ∀ l, l.Perm L.deps.keys → Graph.DepsFirst L.depsOf l → L.order ≤ l := by
  have hL := h.keeps.1
  have horder : L.order = L.plainOrder := by
    rw [order, if_pos]
    exact List.isEmpty_iff.mpr hnone
  obtain ⟨hnodup, hmem, hfirst⟩ := plainOrder_spec hL
  rw [horder]
  refine ⟨?_, hfirst, fun l hl hdeps => plainOrder_least hL ?_ (fun x => ?_) hdeps⟩
  · refine (List.perm_ext_iff_of_nodup hnodup L.deps.nodup_keys).mpr fun x => ?_
    rw [hmem, Graph.mem_keys]
  · exact hl.nodup_iff.mpr L.deps.nodup_keys
  · rw [hl.mem_iff, Graph.mem_keys]

/-- Two writers, and a third that answers the first of them. -/
def unconfirmed : Linearizer ℕ :=
  ((Linearizer.new.add ⟨1, 0⟩ []).1.add ⟨2, 0⟩ []).1.add ⟨0, 0⟩ [⟨1, 0⟩] |>.1

theorem order_least_unconfirmed : unconfirmed.order = [⟨1, 0⟩, ⟨0, 0⟩, ⟨2, 0⟩] ∧
    ∀ l, l.Perm unconfirmed.deps.keys → Graph.DepsFirst unconfirmed.depsOf l →
      unconfirmed.order ≤ l := by
  have h : Built unconfirmed := ((Built.new.add _ _).add _ _).add _ _
  exact ⟨by decide +kernel, (h.order_least (by decide +kernel)).2.2⟩

/-! ### Degrees: nothing is missed -/

variable {m : ℕ} {x : NodeId K}

/-- The table has at least `d` for `w`. -/
def Attains (t : ExtTreeMap K ℕ) (w : K) (d : ℕ) : Prop := ∃ e, t[w]? = some e ∧ d ≤ e

variable {t : ExtTreeMap K ℕ} {w : K} {d : ℕ}

theorem any_iff_attains : (t[w]?.any fun e => d ≤ e) = true ↔ Attains t w d := by
  rw [Option.any_eq_true]
  simp only [decide_eq_true_eq]
  rfl

/-- Raising never lowers an entry. -/
theorem Attains.raiseDegree (h : Attains t w d) (e : K × ℕ) : Attains (raiseDegree t e) w d := by
  obtain ⟨d', hd', hle⟩ := h
  rw [Attains, Linearizer.raiseDegree, Graph.getElem?_insert]
  split_ifs with hw hlt
  · subst hw
    rw [ExtTreeMap.getD_eq_getD_getElem?, hd', Option.getD_some] at hlt
    exact ⟨_, rfl, by omega⟩
  · subst hw
    rw [ExtTreeMap.getD_eq_getD_getElem?, hd']
    exact ⟨_, rfl, hle⟩
  · exact ⟨d', hd', hle⟩

theorem attains_raiseDegree (t : ExtTreeMap K ℕ) (e : K × ℕ) :
    Attains (raiseDegree t e) e.1 e.2 := by
  rw [Attains, raiseDegree, Graph.getElem?_insert, if_pos rfl]
  refine ⟨_, rfl, ?_⟩
  split_ifs with hlt
  · exact le_rfl
  · exact Nat.not_lt.mp hlt

theorem attains_foldl_raiseDegree : ∀ (es : List (K × ℕ)) {t : ExtTreeMap K ℕ},
    Attains t w d ∨ (∃ e ∈ es, e.1 = w ∧ d ≤ e.2) → Attains (es.foldl raiseDegree t) w d
  | [], t, h => h.resolve_right (by simp)
  | e :: es, t, h => by
    rw [List.foldl_cons]
    refine attains_foldl_raiseDegree es ?_
    obtain h | ⟨e', he', rfl, hle⟩ := h
    · exact Or.inl (h.raiseDegree e)
    · obtain rfl | he' := List.mem_cons.mp he'
      · obtain ⟨f, hf, hef⟩ := attains_raiseDegree t e'
        exact Or.inl ⟨f, hf, hle.trans hef⟩
      · exact Or.inr ⟨e', he', rfl, hle⟩

/-- Merging the tables of the dependencies loses nothing of any of them. -/
theorem attains_foldl_tables {tables : NodeId K → ExtTreeMap K ℕ} :
    ∀ (ds : List (NodeId K)) {pre : ExtTreeMap K ℕ},
    Attains pre w d ∨ (∃ n ∈ ds, Attains (tables n) w d) →
    Attains (ds.foldl (fun pre n => (tables n).toList.foldl raiseDegree pre) pre) w d
  | [], _, h => h.resolve_right (by simp)
  | n :: ds, pre, h => by
    rw [List.foldl_cons]
    refine attains_foldl_tables ds ?_
    obtain h | ⟨n', hn', e, he, hle⟩ := h
    · exact Or.inl (attains_foldl_raiseDegree _ (Or.inl h))
    · obtain rfl | hn' := List.mem_cons.mp hn'
      · exact Or.inl (attains_foldl_raiseDegree _
          (Or.inr ⟨(w, e), ExtTreeMap.mem_toList_iff_getElem?_eq_some.mpr he, rfl, hle⟩))
      · exact Or.inr ⟨n', hn', e, he, hle⟩

/-- Every degree that the indexers witness strictly below `v` is in the table. -/
def Full (L : Linearizer K) (m : ℕ) (x v : NodeId K) (t : ExtTreeMap K ℕ) : Prop :=
  ∀ u d, L.Past v u → u ≠ v → u.key ∈ L.voters → L.Witnesses m x d u → Attains t u.key d

variable {v : NodeId K} {pre : ExtTreeMap K ℕ}

/-- A witnessed degree has its vouchers: the indexers other than the author by the table, and
the author by its own vote. -/
theorem vouchers_of_witnesses (hpre : Full L m x v pre) (hd : L.Witnesses m x (d + 1) v) :
    m ≤ L.vouchers v.key pre d + if L.isIndexer v.key then 1 else 0 := by
  classical
  refine hd.2.trans ?_
  have hothers : L.vouchers v.key pre d =
      (L.voters.filter fun w => w ≠ v.key ∧ Attains pre w d).card := by
    refine Graph.countP_eq_card nodup_indexerList _ fun w => ?_
    rw [Finset.mem_filter, mem_voters, Bool.and_eq_true, decide_eq_true_eq, any_iff_attains]
  have hsub : (L.voters.filter fun w => ∃ u, L.Past v u ∧ u.key = w ∧ L.Witnesses m x d u) ⊆
      (L.voters.filter fun w => w ≠ v.key ∧ Attains pre w d) ∪
        if L.isIndexer v.key then {v.key} else ∅ := by
    intro w hw
    obtain ⟨hw, u, hvu, rfl, hu⟩ := Finset.mem_filter.mp hw
    rw [Finset.mem_union, Finset.mem_filter]
    by_cases hauthor : u.key = v.key
    · right
      rw [if_pos (isIndexer_iff.mpr (hauthor ▸ hw)), hauthor, Finset.mem_singleton]
    · exact Or.inl ⟨hw, hauthor, hpre u d hvu (fun he => hauthor (by rw [he])) hw hu⟩
  rw [hothers]
  refine (Finset.card_le_card hsub).trans ((Finset.card_union_le _ _).trans ?_)
  split_ifs
  · rw [Finset.card_singleton]
  · rw [Finset.card_empty]

/-- The loop stops at a level that is not vouched for, so no higher degree is witnessed. -/
theorem le_of_levelLoop (hpre : Full L m x v pre) :
    ∀ (fuel d r : ℕ),
      L.levelLoop m (if L.isIndexer v.key then 1 else 0) v.key pre fuel (d + 1) d = some r →
      ∀ k, L.Witnesses m x k v → k ≤ r
  | 0, _, _, h => by simp [levelLoop] at h
  | fuel + 1, d, r, h => by
    intro k hk
    rw [levelLoop, Nat.add_sub_cancel] at h
    by_cases hm : m ≤ L.vouchers v.key pre d + if L.isIndexer v.key then 1 else 0
    · rw [if_pos hm] at h
      exact le_of_levelLoop hpre fuel (d + 1) r h k hk
    · rw [if_neg hm] at h
      obtain rfl := Option.some.inj h
      by_contra hlt
      exact hm (vouchers_of_witnesses hpre (hk.of_le (Nat.not_le.mp hlt)))

/-- What the pass has after the nodes of `done`: for each of them whether it sees the target, and
no less than any degree witnessed at or below it. -/
structure Degrees.Full (L : Linearizer K) (m : ℕ) (x : NodeId K) (done : List (NodeId K))
    (st : Degrees K) : Prop where
  sees : ∀ v ∈ done, L.Past v x → st.seesx.getD v false = true
  table : ∀ v ∈ done, ∀ u d, L.Past v u → u.key ∈ L.voters → L.Witnesses m x d u →
    Attains (st.bestdeg.getD v ∅) u.key d
  degree : ∀ v ∈ done, ∀ d, L.Witnesses m x d v → d ≤ st.maxDegree

/-- One node of the pass, when its dependencies are done. -/
theorem Degrees.Full.step {done : List (NodeId K)} {st st' : Degrees K} (h : st.Full L m x done)
    (hdeps : ∀ d ∈ L.depsOf v, d ∈ done) (hs : L.degreeStep m x st v = some st') :
    st'.Full L m x (done ++ [v]) := by
  rw [degreeStep] at hs
  obtain ⟨r, hr, rfl⟩ := Option.map_eq_some_iff.mp hs
  -- what is strictly below `v` is at or below a dependency
  have hbelow : ∀ u, L.Past v u → u ≠ v → ∃ d ∈ L.depsOf v, d ∈ done ∧ L.Past d u := fun u hu hne => by
    obtain rfl | ⟨d, hd, hdu⟩ := Relation.ReflTransGen.cases_head hu
    · exact absurd rfl hne
    · exact ⟨d, hd, hdeps d hd, hdu⟩
  have hpre : Linearizer.Full L m x v (L.preDegrees st v) := fun u d hu hne hkey hwit => by
    obtain ⟨n, hn, hdone, hnu⟩ := hbelow u hu hne
    exact attains_foldl_tables _ (Or.inr ⟨n, ExtTreeSet.mem_toList.mpr hn, h.table n hdone u d hnu hkey hwit⟩)
  have hsees : L.Past v x → L.seesTarget x st v = true := fun hx => by
    refine seesTarget_iff.mpr (or_iff_not_imp_left.mpr fun hne => ?_)
    obtain ⟨n, hn, hdone, hnx⟩ := hbelow x hx (Ne.symm hne)
    exact ⟨n, hn, h.sees n hdone hnx⟩
  have hdegree : ∀ d, L.Witnesses m x d v → d ≤ r := fun d hd => by
    rw [if_pos (hsees hd.past)] at hr
    exact le_of_levelLoop hpre _ 0 r hr d hd
  unfold recordDegree
  refine ⟨fun u hu hux => ?_, fun u hu w d huw hkey hwit => ?_, fun u hu d hwit => ?_⟩
  · rw [Graph.getD_insert]
    split_ifs with huv
    · exact hsees (huv ▸ hux)
    · exact h.sees u ((List.mem_append.mp hu).resolve_right (by simpa using huv)) hux
  · rw [Graph.getD_insert]
    by_cases huv : u = v
    · subst huv
      rw [if_pos rfl]
      by_cases hwv : w = u
      · subst hwv
        rw [if_pos (by rw [hsees hwit.past, isIndexer_iff.mpr hkey]; rfl)]
        obtain ⟨e, he, hle⟩ := attains_raiseDegree (L.preDegrees st w) (w.key, r)
        exact ⟨e, he, (hdegree d hwit).trans hle⟩
      · have hw := hpre w d huw hwv hkey hwit
        split_ifs
        · exact hw.raiseDegree _
        · exact hw
    · rw [if_neg huv]
      exact h.table u ((List.mem_append.mp hu).resolve_right (by simpa using huv)) w d huw hkey hwit
  · obtain hu | hu := List.mem_append.mp hu
    · refine (h.degree u hu d hwit).trans ?_
      dsimp only
      split_ifs with hlt
      · rw [Bool.and_eq_true, decide_eq_true_eq] at hlt
        exact hlt.2.le
      · exact le_rfl
    · obtain rfl := List.mem_singleton.mp hu
      refine (hdegree d hwit).trans ?_
      dsimp only
      rw [hsees hwit.past]
      split_ifs with hlt
      · exact le_rfl
      · simpa using hlt

theorem Degrees.Full.foldlM : ∀ (l : List (NodeId K)) {done : List (NodeId K)} {st st' : Degrees K},
    st.Full L m x done → Graph.DepsFirst L.depsOf (done ++ l) →
    l.foldlM (L.degreeStep m x) st = some st' → st'.Full L m x (done ++ l)
  | [], done, st, st', h, _, hs => by
    rw [List.append_nil]
    exact Option.some.inj hs ▸ h
  | v :: l, done, st, st', h, hfirst, hs => by
    rw [List.foldlM_cons] at hs
    obtain ⟨st₁, h1, h2⟩ := Option.bind_eq_some_iff.mp hs
    have hstep := h.step (hfirst done v l rfl) h1
    simpa using Degrees.Full.foldlM l hstep (by simpa using hfirst) h2

/-- **Quorum degrees are those of the definition**: with two or more indexers, the degree of a
delivered node is the largest that some delivered node witnesses over it. -/
theorem Built.quorumDegree_greatest (h : Built L) {ix : ExtTreeSet K} (hix : L.indexers = some ix)
    (h2 : 2 ≤ ix.size) {t : NodeId K} (ht : L.contains t = true) :
    ∃ k, L.quorumDegree t = some k ∧
      IsGreatest {d | ∃ v, L.contains v = true ∧ L.Witnesses (ix.size / 2 + 1) t d v} k := by
  have hL := h.keeps.1
  have hm : L.majority = some (ix.size / 2 + 1) := by rw [majority, hix]; rfl
  obtain ⟨k, hk⟩ := quorumDegree_total hL hix h2 t
  refine ⟨k, hk, ?_, ?_⟩
  · have hin : ∀ {d : ℕ} {v : NodeId K}, L.Witnesses (ix.size / 2 + 1) t d v →
        L.contains v = true := fun {d v} hv => by
      rw [contains_eq, decide_eq_true_iff] at ht ⊢
      by_contra hn
      exact hn (hv.past.eq_of_not_mem hn ▸ ht)
    obtain rfl | hpos := Nat.eq_zero_or_pos k
    · exact ⟨t, ht, Relation.ReflTransGen.refl⟩
    · obtain ⟨v, hv⟩ := exists_witnesses hm hk hpos
      exact ⟨v, hin hv, hv⟩
  · rintro d ⟨v, hv, hwit⟩
    rw [quorumDegree, hm] at hk
    dsimp only at hk
    rw [if_neg (by simp [ht])] at hk
    obtain ⟨st, hst, rfl⟩ := Option.map_eq_some_iff.mp hk
    obtain ⟨-, hmem, hfirst⟩ := plainOrder_spec hL
    have h0 : Degrees.Full L (ix.size / 2 + 1) t [] ⟨∅, ∅, 0⟩ := ⟨by simp, by simp, by simp⟩
    have hfull := h0.foldlM L.plainOrder (by simpa using hfirst) hst
    rw [contains_eq, decide_eq_true_iff, ← hmem] at hv
    exact hfull.degree v (by simpa using hv) d hwit

theorem quorumDegree_greatest_relayed :
    IsGreatest {d | ∃ v, relayed.contains v = true ∧ relayed.Witnesses 2 ⟨0, 0⟩ d v} 2 := by
  have h := built_relayed
  have hix : relayed.indexers = some (ExtTreeSet.ofList [0, 1]) := rfl
  obtain ⟨k, hk, hgreatest⟩ := h.quorumDegree_greatest hix (by decide +kernel) (t := ⟨0, 0⟩)
    (by decide +kernel)
  obtain rfl : 2 = k := Option.some.inj (hk ▸ by decide +kernel : some 2 = some k)
  exact hgreatest

/-! ### Degrees: when the levels end -/

/-- One round of the level loop, on the degree under test and the degree reached. -/
def levelStep (L : Linearizer K) (m selfVote : ℕ) (author : K) (pre : ExtTreeMap K ℕ)
    (s : ℕ × ℕ) : ℕ ⊕ ℕ × ℕ :=
  if m ≤ L.vouchers author pre (s.1 - 1) + selfVote then .inr (s.1 + 1, s.1) else .inl s.2

/-- The level loop of `v`, without a bound on its rounds. -/
def levels (L : Linearizer K) (m : ℕ) (target : NodeId K) (st : Degrees K) (v : NodeId K) : Part ℕ :=
  if L.seesTarget target st v then
    loop (L.levelStep m (if L.isIndexer v.key then 1 else 0) v.key (L.preDegrees st v)) (1, 0)
  else Part.some 0

/-- `quorum_degree` as the source has it: a value if every level loop ends. -/
def quorumDegreeLoop (L : Linearizer K) (target : NodeId K) : Part ℕ :=
  match L.majority with
  | none => Part.some 0
  | some m =>
    if !L.contains target then Part.some 0
    else (L.plainOrder.foldlM
      (fun st v => (L.levels m target st v).map (L.recordDegree target st v)) ⟨∅, ∅, 0⟩).map
        Degrees.maxDegree

theorem levelLoop_mem_loop {selfVote : ℕ} {author : K} :
    ∀ (fuel d deg : ℕ) {r : ℕ}, L.levelLoop m selfVote author pre fuel d deg = some r →
      r ∈ loop (L.levelStep m selfVote author pre) (d, deg)
  | 0, _, _, _, h => by simp [levelLoop] at h
  | fuel + 1, d, deg, r, h => by
    rw [levelLoop] at h
    by_cases hm : m ≤ L.vouchers author pre (d - 1) + selfVote
    · rw [if_pos hm] at h
      exact mem_loop_of_next (by rw [levelStep, if_pos hm]) (levelLoop_mem_loop fuel _ _ h)
    · rw [if_neg hm] at h
      exact mem_loop_of_return (by rw [levelStep, if_neg hm, Option.some.inj h])

theorem foldlM_mem_levels : ∀ (l : List (NodeId K)) {st st' : Degrees K},
    l.foldlM (L.degreeStep m x) st = some st' →
    st' ∈ l.foldlM (fun st v => (L.levels m x st v).map (L.recordDegree x st v)) st
  | [], st, st', h => by
    rw [← Option.some.inj h]
    exact Part.mem_some st
  | v :: l, st, st', h => by
    rw [List.foldlM_cons] at h ⊢
    obtain ⟨st₁, h1, h2⟩ := Option.bind_eq_some_iff.mp h
    refine Part.mem_bind ?_ (foldlM_mem_levels l h2)
    rw [degreeStep] at h1
    obtain ⟨r, hr, rfl⟩ := Option.map_eq_some_iff.mp h1
    refine Part.mem_map _ ?_
    rw [levels]
    by_cases hsees : L.seesTarget x st v = true
    · rw [if_pos hsees] at hr ⊢
      exact levelLoop_mem_loop _ _ _ hr
    · rw [if_neg hsees] at hr ⊢
      exact Option.some.inj hr ▸ Part.mem_some 0

/-- A degree found within the rounds of the model is what the code returns. -/
theorem mem_quorumDegreeLoop {k : ℕ} (h : L.quorumDegree x = some k) :
    k ∈ L.quorumDegreeLoop x := by
  rw [quorumDegree] at h
  rw [quorumDegreeLoop]
  cases hm : L.majority with
  | none =>
    rw [hm] at h
    exact Option.some.inj h ▸ Part.mem_some 0
  | some m =>
    rw [hm] at h
    dsimp only at h ⊢
    split_ifs at h ⊢ with hc
    · exact Option.some.inj h ▸ Part.mem_some 0
    · obtain ⟨st, hst, rfl⟩ := Option.map_eq_some_iff.mp h
      exact Part.mem_map _ (foldlM_mem_levels _ hst)

/-- A body that always goes on never returns. -/
theorem not_mem_loop {σ ρ : Type} {body : σ → ρ ⊕ σ} (h : ∀ s, ∃ s', body s = .inr s') (s : σ)
    (r : ρ) : r ∉ loop body s := fun hr =>
  PFun.fixInduction hr fun s _ ih => by
    obtain ⟨s', hs'⟩ := h s
    exact ih s' (by rw [hs']; exact Part.mem_some _)

/-- One vote is a majority, and the indexer's own: the levels of its nodes do not end, so
neither does a pass that comes to one which sees the target. -/
theorem not_mem_foldlM_levels (hv : L.isIndexer v.key = true) (hx : L.Past v x) :
    ∀ (l done : List (NodeId K)) {st st' : Degrees K},
    (∀ u ∈ done, L.Past u x → st.seesx.getD u false = true) →
    Graph.DepsFirst L.depsOf (done ++ l) → v ∈ l →
    st' ∉ l.foldlM (fun st v => (L.levels 1 x st v).map (L.recordDegree x st v)) st
  | u :: l, done, st, st', hst, hfirst, hin, hmem => by
    have hsees : L.Past u x → L.seesTarget x st u = true := fun hux => by
      rw [seesTarget_iff]
      obtain rfl | ⟨d, hd, hdx⟩ := Relation.ReflTransGen.cases_head hux
      · exact Or.inl rfl
      · exact Or.inr ⟨d, hd, hst d (hfirst done u l rfl d hd) hdx⟩
    rw [List.foldlM_cons] at hmem
    obtain ⟨st₁, h1, h2⟩ := Part.mem_bind_iff.mp hmem
    obtain ⟨r, hr, rfl⟩ := (Part.mem_map_iff _).mp h1
    obtain rfl | hin := List.mem_cons.mp hin
    · rw [levels, if_pos (hsees hx)] at hr
      refine not_mem_loop (fun s => ⟨(s.1 + 1, s.1), ?_⟩) _ r hr
      rw [levelStep, if_pos (by rw [if_pos hv]; omega)]
    · refine not_mem_foldlM_levels hv hx l (done ++ [u]) (fun w hw hwx => ?_)
        (by simpa using hfirst) hin h2
      show (st.seesx.insert u (L.seesTarget x st u)).getD w false = true
      rw [Graph.getD_insert]
      split_ifs with hwu
      · exact hsees (hwu ▸ hwx)
      · exact hst w ((List.mem_append.mp hw).resolve_right (by simpa using hwu)) hwx

/-- Without a vote over the target every level loop ends in its first round. -/
theorem foldlM_of_no_votes (hm : 1 ≤ m) (hnone : ∀ u : NodeId K, u.key ∈ L.voters → ¬ L.Past u x) :
    ∀ (l : List (NodeId K)) {st : Degrees K}, st.Sound L m x →
    ∃ st', l.foldlM (L.degreeStep m x) st = some st'
  | [], st, _ => ⟨st, rfl⟩
  | v :: l, st, h => by
    have hstep : ∃ st', L.degreeStep m x st v = some st' := by
      rw [degreeStep]
      by_cases hv : L.seesTarget x st v = true
      · have hvx := h.past hv
        have hself : ¬ L.isIndexer v.key = true := fun hix => hnone v (isIndexer_iff.mp hix) hvx
        have hothers : L.vouchers v.key (L.preDegrees st v) (1 - 1) = 0 := by
          rw [vouchers, List.countP_eq_zero]
          intro w _ hany
          rw [Bool.and_eq_true, any_iff_attains] at hany
          obtain ⟨e, he, -⟩ := hany.2
          obtain ⟨hw, u, -, rfl, hu⟩ := h.backed w e he
          exact hnone u hw hu.past
        rw [if_pos hv, levelLoop, if_neg (by rw [hothers, if_neg hself]; omega)]
        exact ⟨_, rfl⟩
      · rw [if_neg hv]
        exact ⟨_, rfl⟩
    obtain ⟨st₁, h1⟩ := hstep
    obtain ⟨st', h2⟩ := foldlM_of_no_votes hm hnone l (h.step h1)
    exact ⟨st', by rw [List.foldlM_cons, h1]; exact h2⟩

/-- There is a single indexer, and one of its nodes sees `t`. -/
def SelfVoted (L : Linearizer K) (t : NodeId K) : Prop :=
  ∃ ix v, L.indexers = some ix ∧ (∀ k, k ∈ ix ↔ k = v.key) ∧ L.contains v = true ∧ L.sees v t = true

/-- Otherwise every level loop ends within two rounds more than there are nodes. -/
theorem quorumDegree_of_not_selfVoted (hL : L.WF) (h : ¬ L.SelfVoted x) :
    ∃ k, L.quorumDegree x = some k := by
  cases hix : L.indexers with
  | none => exact ⟨0, by rw [quorumDegree, majority, hix]; rfl⟩
  | some ix =>
    by_cases h2 : 2 ≤ ix.size
    · exact quorumDegree_total hL hix h2 x
    · have hm : L.majority = some (ix.size / 2 + 1) := by rw [majority, hix]; rfl
      rw [quorumDegree, hm]
      dsimp only
      split_ifs with hc
      · exact ⟨0, rfl⟩
      · have hx : x ∈ L.deps := by simpa [contains_eq] using hc
        have hnone : ∀ u : NodeId K, u.key ∈ L.voters → ¬ L.Past u x := fun u hu hux => by
          have hvoters : L.voters = Graph.toFinset ix := by rw [voters, hix]; rfl
          have hone : L.voters.card ≤ 1 := by
            rw [hvoters, Graph.card_toFinset]
            omega
          refine h ⟨ix, u, hix, fun k => ?_, ?_, (hL.sees_iff u x).mpr hux⟩
          · rw [← Graph.mem_toFinset, ← hvoters]
            exact ⟨fun hk => Finset.card_le_one.mp hone k hk _ hu, fun hk => hk ▸ hu⟩
          · rw [contains_eq, decide_eq_true_iff]
            by_contra hn
            exact hn (hux.eq_of_not_mem hn ▸ hx)
        have h0 : Degrees.Sound L (ix.size / 2 + 1) x ⟨∅, ∅, 0⟩ :=
          ⟨fun v w d hd => by simp at hd, fun v hv => by simp at hv, Or.inl rfl⟩
        obtain ⟨st, hst⟩ := foldlM_of_no_votes (Nat.succ_pos _) hnone L.plainOrder h0
        exact ⟨st.maxDegree, by rw [hst]; rfl⟩

/-- With one indexer that votes for `x` it does not return. -/
theorem SelfVoted.not_dom (hL : L.WF) (h : L.SelfVoted x) : ¬ (L.quorumDegreeLoop x).Dom := by
  intro hdom
  obtain ⟨ix, v, hix, hone, hv, hvx⟩ := h
  rw [contains_eq, decide_eq_true_iff] at hv
  rw [hL.sees_iff] at hvx
  have hsize : ix.size = 1 := by
    rw [← Graph.card_toFinset, Finset.card_eq_one]
    exact ⟨v.key, by ext k; rw [Graph.mem_toFinset, hone, Finset.mem_singleton]⟩
  have hm : L.majority = some 1 := by rw [majority, hix, Option.map_some, hsize]
  have hx : L.contains x = true := by
    rw [contains_eq, decide_eq_true_iff]
    exact hvx.mem hL hv
  have hkey : L.isIndexer v.key = true := by
    rw [isIndexer_of hix, ExtTreeSet.contains_iff_mem, hone]
  obtain ⟨-, hmem, hfirst⟩ := plainOrder_spec hL
  rw [quorumDegreeLoop, hm] at hdom
  dsimp only at hdom
  rw [if_neg (by simp [hx])] at hdom
  obtain ⟨k, hk⟩ := Part.dom_iff_mem.mp hdom
  obtain ⟨st, hst, -⟩ := (Part.mem_map_iff _).mp hk
  exact not_mem_foldlM_levels hkey hvx L.plainOrder [] (by simp) hfirst ((hmem v).mpr hv) hst

/-- **`quorum_degree` returns unless a single indexer votes for the target.** When it returns,
no level loop took more rounds than there are nodes, and two. -/
theorem Built.quorumDegree_ends_iff (h : Built L) (t : NodeId K) :
    ((L.quorumDegreeLoop t).Dom ↔ ¬ L.SelfVoted t) ∧
      ∀ k ∈ L.quorumDegreeLoop t, L.quorumDegree t = some k := by
  have hL := h.keeps.1
  have hends : ¬ L.SelfVoted t → ∃ k, L.quorumDegree t = some k ∧ k ∈ L.quorumDegreeLoop t :=
    fun hnot => by
      obtain ⟨k, hk⟩ := quorumDegree_of_not_selfVoted hL hnot
      exact ⟨k, hk, mem_quorumDegreeLoop hk⟩
  have hdom : (L.quorumDegreeLoop t).Dom ↔ ¬ L.SelfVoted t := by
    refine ⟨fun hdom hself => hself.not_dom hL hdom, fun hnot => ?_⟩
    obtain ⟨k, -, hk⟩ := hends hnot
    exact Part.dom_iff_mem.mpr ⟨k, hk⟩
  refine ⟨hdom, fun k hk => ?_⟩
  obtain ⟨k', hk', hmem⟩ := hends (hdom.mp (Part.dom_iff_mem.mpr ⟨k, hk⟩))
  rw [Part.mem_unique hk hmem, hk']

theorem quorumDegree_ends_relayed : 2 ∈ relayed.quorumDegreeLoop ⟨0, 0⟩ := by
  have h := built_relayed
  obtain ⟨hiff, hvalue⟩ := h.quorumDegree_ends_iff ⟨0, 0⟩
  have hdom : (relayed.quorumDegreeLoop ⟨0, 0⟩).Dom := by
    refine hiff.mpr ?_
    rintro ⟨ix, v, hix, hone, -, -⟩
    have hlist : relayed.indexers = some (ExtTreeSet.ofList [0, 1]) := rfl
    obtain rfl := Option.some.inj (hlist.symm.trans hix)
    have h0 := (hone 0).mp (by simp)
    have h1 := (hone 1).mp (by simp)
    omega
  obtain ⟨k, hk⟩ := Part.dom_iff_mem.mp hdom
  have hk' := hvalue k hk
  obtain rfl : 2 = k := Option.some.inj (hk' ▸ by decide +kernel : some 2 = some k)
  exact hk

/-- A single indexer and its first node. -/
def soloist : Linearizer ℕ := ((withIndexers [0]).add ⟨0, 0⟩ []).1

theorem soloist_degree_endless : Built soloist ∧ soloist.contains ⟨0, 0⟩ = true ∧
    ¬ (soloist.quorumDegreeLoop ⟨0, 0⟩).Dom := by
  have h : Built soloist := (Built.withIndexers [0]).add _ _
  refine ⟨h, by decide +kernel, SelfVoted.not_dom h.keeps.1 ?_⟩
  refine ⟨ExtTreeSet.ofList [0], ⟨0, 0⟩, rfl, fun k => ?_, by decide +kernel, by decide +kernel⟩
  rw [Graph.mem_ofList, List.mem_singleton]

end Linearizer
end HypercoreRs
