/-
# Convergence

Replicas that were delivered the same nodes hold the same linearizer, whatever
the order of delivery and whatever was refused in between (`Adds.eq_of_same`):
the three tables are functions of the set of accepted adds. Every query is then
the same. `quorumDegree` has an inner loop without a bound; with two or more
indexers each further level needs a vouching indexer of the level before, so it
ends (`quorumDegree_total`).
-/
import HypercoreRs.Autobase.Order

open Std

namespace HypercoreRs
namespace Linearizer

variable {K : Type} [LinearOrder K] {L : Linearizer K}

/-- A linearizer that was only added to, from `init` on, with the accepted adds. -/
inductive Adds (init : Linearizer K) : List (Delivery K) → Linearizer K → Prop
  | start : Adds init [] init
  | add {acc : List (Delivery K)} {L L' : Linearizer K} {node : NodeId K}
      {heads : List (NodeId K)} :
      Adds init acc L → L.add node heads = (L', .ok ()) → Adds init (acc ++ [(node, heads)]) L'
  | refused {acc : List (Delivery K)} {L L' : Linearizer K} {node : NodeId K}
      {heads : List (NodeId K)} {e : AddError K} :
      Adds init acc L → L.add node heads = (L', .error e) → Adds init acc L'

variable {init : Linearizer K} {acc : List (Delivery K)}

theorem Adds.run (h : Adds init acc L) (h0 : Run [] init) : Run acc L := by
  induction h with
  | start => exact h0
  | add _ ha ih => exact ih.add ha
  | refused _ ha ih => exact ih.refused ha

/-- Add a list of nodes, each of which has to be accepted. -/
def deliver (L : Linearizer K) : List (Delivery K) → Option (Linearizer K)
  | [] => some L
  | d :: ds =>
    match L.add d.1 d.2 with
    | (L', .ok ()) => L'.deliver ds
    | (_, .error _) => none

theorem Adds.deliver {init L' : Linearizer K} {acc ds : List (Delivery K)} (h : Adds init acc L)
    (hd : L.deliver ds = some L') : Adds init (acc ++ ds) L' := by
  induction ds generalizing L acc with
  | nil =>
    obtain rfl := Option.some.inj hd
    simpa using h
  | cons d ds ih =>
    unfold Linearizer.deliver at hd
    split at hd
    · rename_i M ha
      simpa using ih (h.add ha) hd
    · cases hd

theorem add_of_deliver {L' : Linearizer K} {d : Delivery K} (h : L.deliver [d] = some L') :
    L.add d.1 d.2 = (L', .ok ()) := by
  unfold Linearizer.deliver at h
  split at h
  · rename_i M ha
    rw [ha, Option.some.inj h]
  · cases h

/-- `add` keeps the indexers and the base. -/
theorem add_fixed (L : Linearizer K) (node : NodeId K) (heads : List (NodeId K)) :
    (L.add node heads).1.indexers = L.indexers ∧ (L.add node heads).1.base = L.base ∧
      (L.add node heads).1.baseClock = L.baseClock := by
  unfold add
  dsimp only
  split_ifs
  · exact ⟨rfl, rfl, rfl⟩
  · exact ⟨rfl, rfl, rfl⟩
  · split
    · exact ⟨rfl, rfl, rfl⟩
    · exact ⟨rfl, rfl, rfl⟩

theorem Adds.fixed (h : Adds init acc L) :
    L.indexers = init.indexers ∧ L.base = init.base ∧ L.baseClock = init.baseClock := by
  induction h with
  | start => exact ⟨rfl, rfl, rfl⟩
  | @add _ M _ node heads _ ha ih =>
    have h := add_fixed M node heads
    rw [ha] at h
    exact ⟨h.1.trans ih.1, h.2.1.trans ih.2.1, h.2.2.trans ih.2.2⟩
  | @refused _ M _ node heads _ _ ha ih =>
    have h := add_fixed M node heads
    rw [ha] at h
    exact ⟨h.1.trans ih.1, h.2.1.trans ih.2.1, h.2.2.trans ih.2.2⟩

/-! ### The tables are functions of the accepted adds -/

variable {acc₁ acc₂ : List (Delivery K)} {L₁ L₂ : Linearizer K}

theorem Holds.deps_eq (h₁ : Holds acc₁ L₁) (h₂ : Holds acc₂ L₂) (hset : ∀ p, p ∈ acc₁ ↔ p ∈ acc₂) :
    L₁.deps = L₂.deps := by
  have hmem : ∀ n, n ∈ L₁.deps ↔ n ∈ L₂.deps := fun n => by
    rw [h₁.mem, h₂.mem]
    simp only [List.mem_map, hset]
  refine ExtTreeMap.ext_getElem? fun n => ?_
  by_cases hn : n ∈ L₁.deps
  · obtain ⟨p, hp, rfl⟩ := List.mem_map.mp ((h₁.mem n).mp hn)
    rw [getElem?_deps hn, getElem?_deps ((hmem _).mp hn), h₁.deps p hp,
      h₂.deps p ((hset p).mp hp)]
  · rw [ExtTreeMap.getElem?_eq_none hn, ExtTreeMap.getElem?_eq_none fun h => hn ((hmem n).mpr h)]

/-- The reverse edges are determined by the edges. -/
theorem WF.dependents_eq (h₁ : L₁.WF) (h₂ : L₂.WF) (hd : L₁.deps = L₂.deps) :
    L₁.dependents = L₂.dependents := by
  have hdeps : ∀ n, L₁.depsOf n = L₂.depsOf n := fun n => by rw [depsOf, hd, depsOf]
  refine ExtTreeMap.ext_getElem? fun n => ?_
  by_cases hn : n ∈ L₁.deps
  · have e₁ : L₁.dependents[n]? = some (L₁.dependents.getD n ∅) :=
      ExtTreeMap.getElem?_eq_some_getD ((h₁.keys n).mpr hn)
    have e₂ : L₂.dependents[n]? = some (L₂.dependents.getD n ∅) :=
      ExtTreeMap.getElem?_eq_some_getD ((h₂.keys n).mpr (hd ▸ hn))
    rw [e₁, e₂]
    refine congrArg some (ExtTreeSet.ext_mem fun c => ?_)
    rw [h₁.rev, h₂.rev, hdeps]
  · rw [ExtTreeMap.getElem?_eq_none fun h => hn ((h₁.keys n).mp h),
      ExtTreeMap.getElem?_eq_none fun h => hn (hd ▸ (h₂.keys n).mp h)]

/-- A writer's next position is determined by its delivered nodes. -/
theorem WF.nextSeq_eq (h₁ : L₁.WF) (h₂ : L₂.WF) (hd : L₁.deps = L₂.deps) : L₁.nextSeq = L₂.nextSeq := by
  have hget : ∀ k, L₁.nextSeq.getD k 0 = L₂.nextSeq.getD k 0 := fun k => by
    have hlt : ∀ s, s < L₁.nextSeq.getD k 0 ↔ s < L₂.nextSeq.getD k 0 := fun s => by
      rw [← h₁.seq ⟨k, s⟩, ← h₂.seq ⟨k, s⟩, hd]
    have := hlt (L₁.nextSeq.getD k 0)
    have := hlt (L₂.nextSeq.getD k 0)
    omega
  refine ExtTreeMap.ext_getElem? fun k => ?_
  have hk := hget k
  rw [ExtTreeMap.getD_eq_getD_getElem?, ExtTreeMap.getD_eq_getD_getElem?] at hk
  have p₁ := h₁.pos k
  have p₂ := h₂.pos k
  cases e₁ : L₁.nextSeq[k]? <;> cases e₂ : L₂.nextSeq[k]? <;> simp_all

/-- Two replicas delivered the same nodes are equal. -/
theorem Adds.eq_of_same {init L₁ L₂ : Linearizer K} (h0 : Run [] init) (h₁ : Adds init acc₁ L₁)
    (h₂ : Adds init acc₂ L₂) (hset : ∀ p, p ∈ acc₁ ↔ p ∈ acc₂) : L₁ = L₂ := by
  have v₁ := (h₁.run h0).valid
  have v₂ := (h₂.run h0).valid
  have hd := v₁.holds.deps_eq v₂.holds hset
  have hr := v₁.wf.dependents_eq v₂.wf hd
  have hs := v₁.wf.nextSeq_eq v₂.wf hd
  have f₁ := h₁.fixed
  have f₂ := h₂.fixed
  cases L₁
  cases L₂
  simp_all

/-! ### The level loop ends -/

/-- No degree in `m` exceeds `B`. -/
def Bounded (m : ExtTreeMap K ℕ) (B : ℕ) : Prop :=
  ∀ (w : K) (d : ℕ), m[w]? = some d → d ≤ B

variable {m : ExtTreeMap K ℕ}

theorem Bounded.mono {B B' : ℕ} (h : Bounded m B) (hB : B ≤ B') :
    Bounded m B' := fun w d hd => (h w d hd).trans hB

variable {B : ℕ}

theorem Bounded.raiseDegree (h : Bounded m B) {e : K × ℕ} (he : e.2 ≤ B) : Bounded (raiseDegree m e) B := by
  intro w d hd
  rw [Linearizer.raiseDegree, Graph.getElem?_insert] at hd
  split_ifs at hd with hw h1
  · exact Option.some.inj hd ▸ he
  · rw [← Option.some.inj hd, ExtTreeMap.getD_eq_getD_getElem?]
    cases hm : m[e.1]? with
    | none => exact he
    | some x => exact h _ x hm
  · exact h w d hd

theorem Bounded.foldl_raiseDegree : ∀ (es : List (K × ℕ)) {m : ExtTreeMap K ℕ},
    Bounded m B → (∀ e ∈ es, e.2 ≤ B) → Bounded (es.foldl Linearizer.raiseDegree m) B
  | [], _, h, _ => h
  | e :: es, _, h, he =>
    foldl_raiseDegree es (h.raiseDegree (he e List.mem_cons_self)) fun e' he' =>
      he e' (List.mem_cons_of_mem _ he')

variable {pre : ExtTreeMap K ℕ}

/-- A level somebody else vouches for is a degree in the table. -/
theorem level_le_of_vouchers {author : K} {B level : ℕ} (hB : Bounded pre B)
    (h : 0 < L.vouchers author pre level) : level ≤ B := by
  obtain ⟨w, -, hw⟩ := List.countP_pos_iff.mp h
  rw [Bool.and_eq_true, Option.any_eq_true] at hw
  obtain ⟨-, d, hd, hle⟩ := hw
  exact (of_decide_eq_true hle).trans (hB w d hd)

/-- With a majority of at least two, the loop stops at the first level above every
degree in the table. -/
theorem levelLoop_total (L : Linearizer K) {m selfVote : ℕ} (hm : 2 ≤ m) (hs : selfVote ≤ 1) (author : K)
    (hB : Bounded pre B) : ∀ (fuel d deg : ℕ), 1 ≤ d →
    d ≤ B + 2 → B + 3 ≤ fuel + d → deg ≤ B + 1 →
    ∃ r, L.levelLoop m selfVote author pre fuel d deg = some r ∧ r ≤ B + 1
  | 0, d, deg, _, h2, h3, _ => by omega
  | fuel + 1, d, deg, h1, h2, h3, h4 => by
    unfold levelLoop
    split_ifs with hc
    · have hv : 0 < L.vouchers author pre (d - 1) := by omega
      have hd := level_le_of_vouchers hB hv
      exact levelLoop_total L hm hs author hB fuel (d + 1) d (by omega) (by omega) (by omega) (by omega)
    · exact ⟨deg, rfl, h4⟩

variable {st : Degrees K}

theorem foldl_pre_bounded (h : ∀ v, Bounded (st.bestdeg.getD v ∅) B) :
    ∀ (ds : List (NodeId K)) (pre : ExtTreeMap K ℕ), Bounded pre B →
    Bounded (ds.foldl
      (fun pre d => (st.bestdeg.getD d ∅).toList.foldl raiseDegree pre) pre) B
  | [], _, hp => hp
  | d :: ds, pre, hp => by
    refine foldl_pre_bounded h ds _ (hp.foldl_raiseDegree _ fun e he => ?_)
    exact h d e.1 e.2 (ExtTreeMap.mem_toList_iff_getElem?_eq_some.mp he)

theorem seesTarget_iff {target v : NodeId K} : L.seesTarget target st v = true ↔
    v = target ∨ ∃ d ∈ L.depsOf v, st.seesx.getD d false = true := by
  rw [seesTarget, Bool.or_eq_true, decide_eq_true_eq, List.any_eq_true]
  simp only [ExtTreeSet.mem_toList]

/-- One node of the pass: it succeeds, and the degrees grow by at most one. -/
theorem degreeStep_total {m : ℕ} (hm : 2 ≤ m) (h : ∀ v, Bounded (st.bestdeg.getD v ∅) B)
    (hB : B ≤ L.deps.size) (target v : NodeId K) :
    ∃ st', L.degreeStep m target st v = some st' ∧
      ∀ v, Bounded (st'.bestdeg.getD v ∅) (B + 1) := by
  have hpre : Bounded (L.preDegrees st v) B :=
    foldl_pre_bounded h (L.depsOf v).toList ∅ (by intro w d hd; simp at hd)
  have hs : (if L.isIndexer v.key = true then 1 else 0) ≤ 1 := by split_ifs <;> omega
  obtain ⟨r, hr, hle⟩ := L.levelLoop_total hm hs v.key hpre (L.deps.size + 2) 1 0
    le_rfl (by omega) (by omega) (by omega)
  unfold degreeStep recordDegree
  dsimp only
  rw [hr]
  have hif : ∀ b : Bool, ∃ r', (if b = true then some r else some 0) = some r' ∧ r' ≤ B + 1 := by
    rintro (_ | _)
    · exact ⟨0, rfl, by omega⟩
    · exact ⟨r, rfl, hle⟩
  obtain ⟨r', hr', hle'⟩ := hif _
  rw [hr', Option.map_some]
  refine ⟨_, rfl, fun u => ?_⟩
  rw [Graph.getD_insert]
  split_ifs
  · exact (hpre.mono (Nat.le_succ B)).raiseDegree hle'
  · exact hpre.mono (Nat.le_succ B)
  · exact (h u).mono (Nat.le_succ B)

theorem foldlM_degreeStep_total {m : ℕ} (hm : 2 ≤ m) (target : NodeId K) :
    ∀ (l : List (NodeId K)) (st : Degrees K) (B : ℕ), (∀ v, Bounded (st.bestdeg.getD v ∅) B) →
    B + l.length ≤ L.deps.size → ∃ st', l.foldlM (L.degreeStep m target) st = some st'
  | [], st, _, _, _ => ⟨st, rfl⟩
  | v :: l, st, B, h, hB => by
    rw [List.length_cons] at hB
    obtain ⟨st', h1, h2⟩ := degreeStep_total (L := L) hm h (by omega) target v
    obtain ⟨st'', h3⟩ := foldlM_degreeStep_total hm target l st' (B + 1) h2 (by omega)
    exact ⟨st'', by rw [List.foldlM_cons, h1]; exact h3⟩

/-- With two or more indexers every quorum degree is computed. -/
theorem quorumDegree_total (hL : L.WF) {ix : ExtTreeSet K} (hix : L.indexers = some ix)
    (h2 : 2 ≤ ix.size) (target : NodeId K) : ∃ d, L.quorumDegree target = some d := by
  have hm : L.majority = some (ix.size / 2 + 1) := by rw [majority, hix]; rfl
  have hlen : L.plainOrder.length = L.deps.size := by
    obtain ⟨p1, p2, -⟩ := plainOrder_spec hL
    rw [← card_nodes, ← List.toFinset_card_of_nodup p1]
    congr 1
    ext x
    rw [List.mem_toFinset, p2, mem_nodes]
  obtain ⟨st', hst⟩ := foldlM_degreeStep_total (L := L) (m := ix.size / 2 + 1) (by omega) target
    L.plainOrder ⟨∅, ∅, 0⟩ 0 (by intro v w d hd; simp at hd) (by omega)
  unfold quorumDegree
  rw [hm]
  dsimp only
  split_ifs
  · exact ⟨0, rfl⟩
  · exact ⟨st'.maxDegree, by rw [hst]; rfl⟩

/-! ### Convergence -/

/-- A replica starts without indexers or with a set of them. -/
def initial : Option (List K) → Linearizer K
  | none => new
  | some indexers => withIndexers indexers

theorem run_initial : ∀ ix : Option (List K), Run [] (initial ix)
  | none => .new
  | some indexers => .withIndexers indexers

/-- Two deliveries of the same set of nodes, in any two orders and with any refused
adds in between, answer every query alike, and a refused add changes neither. -/
theorem Adds.converge {ix : Option (List K)} {acc₁ acc₂ : List (Delivery K)}
    {L₁ L₂ : Linearizer K} (h₁ : Adds (initial ix) acc₁ L₁) (h₂ : Adds (initial ix) acc₂ L₂)
    (hset : ∀ p, p ∈ acc₁ ↔ p ∈ acc₂) :
    L₁.order = L₂.order ∧ L₁.finalized = L₂.finalized ∧
    L₁.confirmedPrefix = L₂.confirmedPrefix ∧ L₁.heads = L₂.heads ∧ L₁.tails = L₂.tails ∧
    (∀ indexers, ix = some indexers → 2 ≤ (ExtTreeSet.ofList indexers).size →
      ∀ t, ∃ d, L₁.quorumDegree t = some d ∧ L₂.quorumDegree t = some d) ∧
    ∀ node heads e, (L₁.add node heads).2 = .error e → (L₁.add node heads).1 = L₁ := by
  have he := h₁.eq_of_same (run_initial ix) h₂ hset
  subst he
  refine ⟨rfl, rfl, rfl, rfl, rfl, fun indexers hix h2 t => ?_, fun node heads e => add_eq_error⟩
  have hf : L₁.indexers = some (ExtTreeSet.ofList indexers) := by
    rw [h₁.fixed.1, hix]
    rfl
  obtain ⟨d, hd⟩ := quorumDegree_total (h₁.run (run_initial ix)).valid.wf hf h2 t
  exact ⟨d, hd, hd⟩

theorem converge_two : ∃ L₁ L₂ : Linearizer ℕ,
    Adds (initial (some [0, 1])) [(⟨0, 0⟩, []), (⟨1, 0⟩, [])] L₁ ∧
    Adds (initial (some [0, 1])) [(⟨1, 0⟩, []), (⟨0, 0⟩, [])] L₂ ∧ L₁.order = L₂.order ∧
    ∃ d, L₁.quorumDegree ⟨0, 0⟩ = some d ∧ L₂.quorumDegree ⟨0, 0⟩ = some d := by
  have e₁ : ((initial (some [0, 1])).deliver [(⟨0, 0⟩, []), (⟨1, 0⟩, [])]).isSome = true := by
    decide +kernel
  have e₂ : ((initial (some [0, 1])).deliver [(⟨1, 0⟩, []), (⟨0, 0⟩, [])]).isSome = true := by
    decide +kernel
  obtain ⟨L₁, h₁⟩ := Option.isSome_iff_exists.mp e₁
  obtain ⟨L₂, h₂⟩ := Option.isSome_iff_exists.mp e₂
  have a₁ := Adds.start.deliver h₁
  have a₂ := Adds.start.deliver h₂
  have h := a₁.converge a₂ (by simp [or_comm])
  exact ⟨L₁, L₂, a₁, a₂, h.1, h.2.2.2.2.2.1 [0, 1] rfl (by decide +kernel) ⟨0, 0⟩⟩

end Linearizer
end HypercoreRs
