/-
# The conservative rule

Before the confirmation machine a node was final when it was comparable to every other
node and had quorum degree two, along the plain order (`conservativeFinalized`, kept in
the code as an oracle: the machine is to be at least as eager).

A degree stands for votes: a node that witnesses degree `d + 1` sees, of a majority of
the indexers, nodes that witness degree `d` (`Witnesses`, `exists_witnesses`). So a node
of an indexer under the conservative rule has been sealed by a majority and is confirmed
(`confirmed_of_degree_two`). A node of another writer is confirmed only through an indexer
node above it, and that one may still be contested: the machine finalizes the conservative
prefix if and only if its last node is an indexer's, or pinned, or below a confirmed node
(`conservative_finalized_iff`).
-/
import HypercoreRs.Autobase.Driver

namespace HypercoreRs

open Std Quorum

namespace Linearizer

variable {K : Type} [LinearOrder K] {L : Linearizer K}

/-- Is `node` comparable to every delivered node, with a double quorum over it? -/
def doubleQuorum (L : Linearizer K) (node : NodeId K) : Bool :=
  (L.plainOrder.all fun o => o = node || L.sees node o || L.sees o node) &&
    (L.quorumDegree node).any fun d => 2 ≤ d

/-- The conservative no-active-fork rule: the longest beginning of the plain order of such
nodes. -/
def conservativeFinalized (L : Linearizer K) : List (NodeId K) :=
  L.plainOrder.takeWhile L.doubleQuorum

/-! ### What a degree stands for -/

open Classical in
/-- `v` witnesses degree `d` over `x`: it sees `x` and, of a majority `m` of the indexers, a
node that witnesses the degree below. -/
noncomputable def Witnesses (L : Linearizer K) (m : ℕ) (x : NodeId K) : ℕ → NodeId K → Prop
  | 0, v => L.Past v x
  | d + 1, v => L.Past v x ∧
      m ≤ (L.voters.filter fun w => ∃ u, L.Past v u ∧ u.key = w ∧ Witnesses L m x d u).card

variable {m : ℕ} {x : NodeId K}

theorem Witnesses.past : ∀ {d : ℕ} {v : NodeId K}, L.Witnesses m x d v → L.Past v x
  | 0, _, h => h
  | _ + 1, _, h => h.1

theorem Witnesses.pred : ∀ {d : ℕ} {v : NodeId K}, L.Witnesses m x (d + 1) v → L.Witnesses m x d v
  | 0, _, h => h.1
  | d + 1, v, h => by
    classical
    refine ⟨h.1, h.2.trans (Finset.card_le_card fun w hw => ?_)⟩
    rw [Finset.mem_filter] at hw ⊢
    obtain ⟨hw, u, hvu, hu, hwit⟩ := hw
    exact ⟨hw, u, hvu, hu, hwit.pred⟩

variable {v : NodeId K}

theorem Witnesses.of_le : ∀ {d d' : ℕ}, d ≤ d' → L.Witnesses m x d' v →
    L.Witnesses m x d v
  | d, 0, hle, h => Nat.le_zero.mp hle ▸ h
  | d, d' + 1, hle, h => by
    rcases Nat.lt_or_eq_of_le hle with hlt | rfl
    · exact Witnesses.of_le (Nat.le_of_lt_succ hlt) h.pred
    · exact h

/-- The degrees of a table are witnessed below `v` by nodes of their indexers. -/
def Backed (L : Linearizer K) (m : ℕ) (x v : NodeId K) (t : ExtTreeMap K ℕ) : Prop :=
  ∀ (w : K) (d : ℕ), t[w]? = some d →
    w ∈ L.voters ∧ ∃ u, L.Past v u ∧ u.key = w ∧ L.Witnesses m x d u

variable {t : ExtTreeMap K ℕ}

theorem Backed.of_past {v v' : NodeId K} (h : Backed L m x v t) (hv : L.Past v' v) :
    Backed L m x v' t := fun w d hd => by
  obtain ⟨hw, u, hvu, hu⟩ := h w d hd
  exact ⟨hw, u, hv.trans hvu, hu⟩

theorem Backed.raiseDegree (h : Backed L m x v t) {e : K × ℕ} (hw : e.1 ∈ L.voters)
    (he : ∃ u, L.Past v u ∧ u.key = e.1 ∧ L.Witnesses m x e.2 u) :
    Backed L m x v (raiseDegree t e) := by
  intro w d hd
  rw [Linearizer.raiseDegree, Graph.getElem?_insert] at hd
  split_ifs at hd with hwe hlt
  · obtain rfl := Option.some.inj hd
    exact hwe ▸ ⟨hw, he⟩
  · obtain rfl := Option.some.inj hd
    rw [ExtTreeMap.getD_eq_getD_getElem?]
    cases ht : t[e.1]? with
    | none => exact hwe ▸ ⟨hw, he⟩
    | some d' => exact h w d' (hwe ▸ ht)
  · exact h w d hd

theorem Backed.foldl_raiseDegree : ∀ (es : List (K × ℕ)) {t : ExtTreeMap K ℕ},
    Backed L m x v t → (∀ e ∈ es, e.1 ∈ L.voters ∧
      ∃ u, L.Past v u ∧ u.key = e.1 ∧ L.Witnesses m x e.2 u) →
    Backed L m x v (es.foldl Linearizer.raiseDegree t)
  | [], _, h, _ => h
  | e :: es, _, h, he =>
    foldl_raiseDegree es (h.raiseDegree (he e List.mem_cons_self).1 (he e List.mem_cons_self).2)
      fun e' he' => he e' (List.mem_cons_of_mem _ he')

/-- What the pass over the nodes keeps. -/
structure Degrees.Sound (L : Linearizer K) (m : ℕ) (x : NodeId K) (st : Degrees K) : Prop where
  table : ∀ v, Backed L m x v (st.bestdeg.getD v ∅)
  sees : ∀ v, st.seesx.getD v false = true → L.Past v x
  degree : st.maxDegree = 0 ∨ ∃ v, L.Witnesses m x st.maxDegree v

/-- The table of a node's dependencies. -/
theorem backed_pre {st : Degrees K} (h : st.Sound L m x) : ∀ (ds : List (NodeId K))
    (pre : ExtTreeMap K ℕ), (∀ d ∈ ds, d ∈ L.depsOf v) → Backed L m x v pre →
    Backed L m x v (ds.foldl
      (fun pre d => (st.bestdeg.getD d ∅).toList.foldl raiseDegree pre) pre)
  | [], _, _, hp => hp
  | d :: ds, pre, hds, hp => by
    have hvd : L.Past v d := Relation.ReflTransGen.single (hds d List.mem_cons_self)
    refine backed_pre h ds _ (fun d' hd' => hds d' (List.mem_cons_of_mem _ hd'))
      (hp.foldl_raiseDegree _ fun e he => ?_)
    exact (h.table d).of_past hvd e.1 e.2 (ExtTreeMap.mem_toList_iff_getElem?_eq_some.mp he)

variable {pre : ExtTreeMap K ℕ}

/-- A level that enough indexers vouch for is witnessed one higher. -/
theorem witnesses_succ (hpre : Backed L m x v pre) {d : ℕ} (hd : L.Witnesses m x d v)
    (hm : m ≤ L.vouchers v.key pre d + if L.isIndexer v.key then 1 else 0) :
    L.Witnesses m x (d + 1) v := by
  classical
  refine ⟨hd.past, hm.trans ?_⟩
  have hothers : L.vouchers v.key pre d =
      (L.voters.filter fun w => w ≠ v.key ∧ pre[w]?.any fun e => d ≤ e).card := by
    refine Graph.countP_eq_card nodup_indexerList _ fun w => ?_
    rw [Finset.mem_filter, mem_voters, Bool.and_eq_true, decide_eq_true_eq]
  have hsub : ∀ w, w ∈ (L.voters.filter fun w => w ≠ v.key ∧ pre[w]?.any fun e => d ≤ e) →
      ∃ u, L.Past v u ∧ u.key = w ∧ L.Witnesses m x d u := fun w hw => by
    obtain ⟨-, -, hany⟩ := Finset.mem_filter.mp hw
    obtain ⟨e, he, hle⟩ := (Option.any_eq_true _ _).mp hany
    obtain ⟨-, u, hvu, hu, hwit⟩ := hpre w e he
    exact ⟨u, hvu, hu, hwit.of_le (of_decide_eq_true hle)⟩
  rw [hothers]
  split_ifs with hix
  · -- the author vouches for itself, and is not counted among the others
    have hnot : v.key ∉ (L.voters.filter fun w => w ≠ v.key ∧ pre[w]?.any fun e => d ≤ e) :=
      fun hin => (Finset.mem_filter.mp hin).2.1 rfl
    rw [← Finset.card_insert_of_notMem hnot]
    refine Finset.card_le_card fun w hw => ?_
    rw [Finset.mem_filter]
    rcases Finset.mem_insert.mp hw with rfl | hw
    · exact ⟨isIndexer_iff.mp hix, v, Relation.ReflTransGen.refl, rfl, hd⟩
    · exact ⟨(Finset.mem_filter.mp hw).1, hsub w hw⟩
  · exact Finset.card_le_card fun w hw =>
      Finset.mem_filter.mpr ⟨(Finset.mem_filter.mp hw).1, hsub w hw⟩

theorem levelLoop_witnesses (hpre : Backed L m x v pre) :
    ∀ (fuel d r : ℕ), L.Witnesses m x d v →
      L.levelLoop m (if L.isIndexer v.key then 1 else 0) v.key pre fuel (d + 1) d = some r →
      L.Witnesses m x r v
  | 0, _, _, _, h => by simp [levelLoop] at h
  | fuel + 1, d, r, hd, h => by
    rw [levelLoop, Nat.add_sub_cancel] at h
    by_cases hm : m ≤ L.vouchers v.key pre d + if L.isIndexer v.key then 1 else 0
    · rw [if_pos hm] at h
      exact levelLoop_witnesses hpre fuel (d + 1) r (witnesses_succ hpre hd hm) h
    · rw [if_neg hm] at h
      exact Option.some.inj h ▸ hd

/-- What is noted as seen is seen: the node is the target, or a dependency sees it. -/
theorem Degrees.Sound.past {st : Degrees K} (h : st.Sound L m x) (hv : L.seesTarget x st v = true) :
    L.Past v x := by
  obtain rfl | ⟨d, hd, hdx⟩ := seesTarget_iff.mp hv
  · exact Relation.ReflTransGen.refl
  · exact Relation.ReflTransGen.head hd (h.sees d hdx)

theorem Degrees.Sound.backed {st : Degrees K} (h : st.Sound L m x) : Backed L m x v (L.preDegrees st v) :=
  backed_pre h _ ∅ (fun d hd => ExtTreeSet.mem_toList.mp hd) (by intro w d hd; simp at hd)

/-- One node of the pass. -/
theorem Degrees.Sound.step {st st' : Degrees K} (h : st.Sound L m x) (hs : L.degreeStep m x st v = some st') :
    st'.Sound L m x := by
  rw [degreeStep] at hs
  obtain ⟨r, hr, rfl⟩ := Option.map_eq_some_iff.mp hs
  have hpre := h.backed (v := v)
  have hwit : L.seesTarget x st v = true → L.Witnesses m x r v := fun hv => by
    rw [if_pos hv] at hr
    exact levelLoop_witnesses hpre _ 0 r (h.past hv) hr
  unfold recordDegree
  refine ⟨fun u => ?_, fun u hu => ?_, ?_⟩
  · rw [Graph.getD_insert]
    split_ifs with huv hvote
    · rw [Bool.and_eq_true] at hvote
      rw [huv]
      exact hpre.raiseDegree (isIndexer_iff.mp hvote.2)
        ⟨v, Relation.ReflTransGen.refl, rfl, hwit hvote.1⟩
    · exact huv ▸ hpre
    · exact h.table u
  · rw [Graph.getD_insert] at hu
    split_ifs at hu with huv
    · exact huv ▸ h.past hu
    · exact h.sees u hu
  · dsimp only
    split_ifs with hv
    · rw [Bool.and_eq_true] at hv
      exact Or.inr ⟨v, hwit hv.1⟩
    · exact h.degree

theorem Degrees.Sound.foldlM : ∀ (l : List (NodeId K)) {st st' : Degrees K}, st.Sound L m x →
    l.foldlM (L.degreeStep m x) st = some st' → st'.Sound L m x
  | [], _, _, h, hs => Option.some.inj hs ▸ h
  | v :: l, st, st', h, hs => by
    rw [List.foldlM_cons] at hs
    obtain ⟨st₁, h1, h2⟩ := Option.bind_eq_some_iff.mp hs
    exact Degrees.Sound.foldlM l (h.step h1) h2

/-- A positive degree is witnessed by some node. -/
theorem exists_witnesses (hm : L.majority = some m) {d : ℕ} (hd : L.quorumDegree x = some d)
    (hpos : 0 < d) : ∃ v, L.Witnesses m x d v := by
  rw [quorumDegree, hm] at hd
  dsimp only at hd
  split_ifs at hd
  · exact absurd (Option.some.inj hd) (Nat.ne_of_lt hpos)
  · obtain ⟨st, hst, rfl⟩ := Option.map_eq_some_iff.mp hd
    have h0 : Degrees.Sound L m x ⟨∅, ∅, 0⟩ :=
      ⟨fun v w d hd => by simp at hd, fun v hv => by simp at hv, Or.inl rfl⟩
    exact (h0.foldlM _ hst).degree.resolve_left (Nat.ne_of_gt hpos)

/-! ### Double quorums confirm -/

/-- A node of an indexer that is comparable to all others and has degree two is sealed by
a majority, so it is confirmed. -/
theorem confirmed_of_degree_two (hL : L.WF) {removed : Clock K} (hlow : Lower hL removed)
    (hx : Open hL removed x) (hcomp : ∀ y ∈ L.deps, L.Past x y ∨ L.Past y x)
    (hv : L.Witnesses (history hL).majority x 2 v) : (history hL).Confirmed (gone removed) x := by
  classical
  have hnewer : ∀ p, L.Past p x → (history hL).Newer (gone removed) x p := fun p hp =>
    ⟨hp, fun y hy _ _ => hcomp y ((mem_history hL).mp hy).1⟩
  have hnode : ∀ u, L.Past u x → u.key ∈ L.voters → u ∈ (history hL).nodes := fun u hu hk => by
    refine (mem_history hL).mpr ⟨?_, hk⟩
    by_contra hn
    exact hn (Past.eq_of_not_mem hu hn ▸ ((mem_history hL).mp hx.1).1)
  have hack : ∀ u, L.Past u x → u.key ∈ L.voters → (history hL).Ack (gone removed) x u :=
    fun u hu hk => ⟨hnode u hu hk, hlow.above hx.1 hx.2 u (hnode u hu hk) hu, hnewer u hu⟩
  -- a node of degree one sees a majority of votes
  have hseals : ∀ u, u.key ∈ L.voters → L.Witnesses (history hL).majority x 1 u →
      (history hL).Seals (gone removed) x u := fun u hk hu => by
    refine ⟨hnode u hu.1 hk, hnewer u hu.1, hu.2.trans (Finset.card_le_card fun w hw => ?_)⟩
    obtain ⟨hw, u', huu', rfl, hu'⟩ := Finset.mem_filter.mp hw
    exact History.mem_votesSeen.mpr ⟨u', hack u' hu' hw, huu', rfl⟩
  have hsealers : (history hL).majority ≤ ((history hL).sealers (gone removed) x).card := by
    refine hv.2.trans (Finset.card_le_card fun w hw => ?_)
    obtain ⟨hw, u, -, rfl, hu⟩ := Finset.mem_filter.mp hw
    exact History.mem_sealers.mpr ⟨u, hseals u hw hu, rfl⟩
  refine ⟨?_, Or.inl hsealers⟩
  refine hsealers.trans (Finset.card_le_card fun w hw => ?_)
  obtain ⟨y, hy, rfl⟩ := History.mem_sealers.mp hw
  exact History.mem_ackers.mpr ⟨y, hack y hy.2.1.1 ((mem_history hL).mp hy.1).2, rfl⟩

section Rule

variable (hL : L.WF) (hp : L.Pinned) {ix : ExtTreeSet K} (hix : L.indexers = some ix)
include hL

/-- A node under the conservative rule. -/
theorem mem_conservativeFinalized (hx : x ∈ L.conservativeFinalized) :
    x ∈ L.deps ∧ (∀ y ∈ L.deps, L.Past x y ∨ L.Past y x) ∧
      ∃ d, L.quorumDegree x = some d ∧ 2 ≤ d := by
  have hin := (List.takeWhile_subset _ hx : x ∈ L.plainOrder)
  have hq := List.mem_takeWhile_imp hx
  rw [doubleQuorum, Bool.and_eq_true, List.all_eq_true, Option.any_eq_true] at hq
  obtain ⟨hall, d, hd, h2⟩ := hq
  refine ⟨((plainOrder_spec hL).2.1 x).mp hin, fun y hy => ?_, d, hd, of_decide_eq_true h2⟩
  have hy' := hall y (((plainOrder_spec hL).2.1 y).mpr hy)
  simp only [Bool.or_eq_true, decide_eq_true_eq, hL.sees_iff] at hy'
  rcases hy' with (rfl | h) | h
  · exact Or.inl Relation.ReflTransGen.refl
  · exact Or.inl h
  · exact Or.inr h

/-- The last node under the rule sees the others. -/
theorem past_of_getLast (hx : L.conservativeFinalized.getLast? = some x) {y : NodeId K}
    (hy : y ∈ L.conservativeFinalized) : L.Past x y := by
  obtain ⟨pnodup, -, pfirst⟩ := plainOrder_spec hL
  have hpre : L.conservativeFinalized <+: L.plainOrder := List.takeWhile_prefix _
  have hxin := List.mem_of_getLast? hx
  rcases (mem_conservativeFinalized hL hy).2.1 x (mem_conservativeFinalized hL hxin).1 with hyx | h
  · -- what a node sees is listed up to it, so the two are the same
    obtain ⟨a, b, hab⟩ := List.append_of_mem hy
    have hfirst : Graph.DepsFirst L.depsOf (a ++ [y]) := by
      refine depsFirst_front (depsFirst_front pfirst hpre) ⟨b, ?_⟩
      rw [hab, List.append_assoc]
      rfl
    have hmem : x ∈ a ++ [y] :=
      mem_of_past (fun n hn d hd => hfirst.closed hn hd) (List.mem_append_right a (by simp)) hyx
    have hnodup : (a ++ [y] ++ b).Nodup := by
      rw [← List.append_cons, ← hab]
      exact hpre.sublist.nodup pnodup
    rw [hab, List.append_cons, List.getLast?_append] at hx
    cases hb : b.getLast? with
    | none =>
      rw [hb] at hx
      obtain rfl : y = x := by simpa using hx
      exact Relation.ReflTransGen.refl
    | some z =>
      rw [hb] at hx
      obtain rfl : z = x := by simpa using hx
      exact absurd (List.mem_of_getLast? hb) ((List.nodup_append'.mp hnodup).2.2 hmem)
  · exact h

include hp hix

theorem mem_finalized_of_indexer (hx : x ∈ L.conservativeFinalized) (hk : x.key ∈ L.voters) :
    x ∈ L.finalized := by
  obtain ⟨hd, hcomp, d, hdeg, h2⟩ := mem_conservativeFinalized hL hx
  rw [mem_finalized_iff_base hL hp hix]
  by_cases hg : x ∈ gone L.baseClock
  · exact Or.inl ((hp.clock x).mp hg)
  · have hopen : Open hL L.baseClock x := ⟨(mem_history hL).mpr ⟨hd, hk⟩, hg⟩
    obtain ⟨v, hv⟩ := exists_witnesses (majority_eq hL hix) hdeg (by omega)
    refine Or.inr ⟨x, hopen, ?_, Relation.ReflTransGen.refl⟩
    exact confirmed_of_degree_two hL (hp.lower hL) hopen hcomp (hv.of_le h2)

end Rule

/-- `x` is below an indexer node that is confirmed from the base on. -/
def Covered (L : Linearizer K) (x : NodeId K) : Prop :=
  ∃ m, L.contains m = true ∧ L.isIndexer m.key = true ∧
    L.baseClock.includes m.key (m.seq + 1) = false ∧
    L.isConfirmed m none L.baseClock = true ∧ L.sees m x = true

theorem mem_finalized_iff_covered (hL : L.WF) (hp : L.Pinned) {ix : ExtTreeSet K}
    (hix : L.indexers = some ix) : x ∈ L.finalized ↔ x ∈ L.base ∨ L.Covered x := by
  rw [mem_finalized_iff_base hL hp hix]
  refine or_congr_right (exists_congr fun m => ?_)
  rw [hL.sees_iff]
  constructor
  · rintro ⟨hm, hc, hmx⟩
    obtain ⟨hd, hk⟩ := (mem_history hL).mp hm.1
    refine ⟨by simpa [contains_eq] using hd, isIndexer_iff.mpr hk, ?_, ?_, hmx⟩
    · exact Bool.eq_false_iff.mpr fun hi => hm.2 ((L.baseClock.includes_iff m.key m.seq).mp hi)
    · exact (isConfirmed_none hL hm.1 hm.2 (hp.lower hL) hix).mpr hc
  · rintro ⟨hd, hk, hR, hc, hmx⟩
    have hm := mem_history_of hL hd hk hR
    exact ⟨hm, (isConfirmed_none hL hm.1 hm.2 (hp.lower hL) hix).mp hc, hmx⟩

/-- **When the machine is at least as eager as the conservative rule**: if and only if the
last node under the rule is an indexer's, or pinned, or below a confirmed node. -/
theorem conservative_finalized_iff (h : Built L) {ix : ExtTreeSet K} (hix : L.indexers = some ix) :
    (∀ x ∈ L.conservativeFinalized, x ∈ L.finalized) ↔
      ∀ x, L.conservativeFinalized.getLast? = some x →
        L.isIndexer x.key = true ∨ x ∈ L.base ∨ L.Covered x := by
  have hL := h.keeps.1
  have hp := h.pinned
  constructor
  · intro hall x hx
    exact Or.inr ((mem_finalized_iff_covered hL hp hix).mp (hall x (List.mem_of_getLast? hx)))
  · intro hlast y hy
    cases hx : L.conservativeFinalized.getLast? with
    | none => simp [List.getLast?_eq_none_iff.mp hx] at hy
    | some x =>
      have hxf : x ∈ L.finalized := by
        rcases hlast x hx with hk | hcov
        · exact mem_finalized_of_indexer hL hp hix (List.mem_of_getLast? hx) (isIndexer_iff.mp hk)
        · exact (mem_finalized_iff_covered hL hp hix).mpr hcov
      obtain ⟨removed, emitted, hd, -⟩ := driven_finalized hL hp hix
      exact mem_of_past (hd.closed hp) hxf (past_of_getLast hL hx hy)

theorem conservative_finalized_direct : direct.conservativeFinalized = [⟨0, 0⟩] ∧
    ∀ x ∈ direct.conservativeFinalized, x ∈ direct.finalized := by
  have h : Built direct := (((Built.withIndexers [0, 1]).add _ _).add _ _).add _ _
  have hc : direct.conservativeFinalized = [⟨0, 0⟩] := by decide +kernel
  have hix : direct.indexers = some (ExtTreeSet.ofList [0, 1]) := rfl
  refine ⟨hc, (conservative_finalized_iff h hix).mpr fun x hx => Or.inl ?_⟩
  rw [hc] at hx
  obtain rfl : (⟨0, 0⟩ : NodeId ℕ) = x := by simpa using hx
  decide +kernel

/-- A node of another writer, three indexers on it side by side, each of them on all three
of these, and one on all of those. -/
def contested : Linearizer ℕ :=
  [(⟨3, 0⟩, []), (⟨0, 0⟩, [⟨3, 0⟩]), (⟨1, 0⟩, [⟨3, 0⟩]), (⟨2, 0⟩, [⟨3, 0⟩]),
    (⟨0, 1⟩, [⟨1, 0⟩, ⟨2, 0⟩]), (⟨1, 1⟩, [⟨0, 0⟩, ⟨2, 0⟩]), (⟨2, 1⟩, [⟨0, 0⟩, ⟨1, 0⟩]),
    (⟨0, 2⟩, [⟨1, 1⟩, ⟨2, 1⟩])].foldl
    (fun L (d : Delivery ℕ) => (L.add d.1 d.2).1) (withIndexers [0, 1, 2])

/-- The first node has a double quorum and is comparable to all, but no indexer node is
confirmed. -/
theorem contested_not_finalized : Built contested ∧ contested.majority = some 2 ∧
    contested.conservativeFinalized = [⟨3, 0⟩] ∧ contested.finalized = [] := by
  refine ⟨?_, by decide +kernel, by decide +kernel, by decide +kernel⟩
  exact (((((((Built.withIndexers [0, 1, 2]).add _ _).add _ _).add _ _).add _ _).add _ _).add _ _
    |>.add _ _ |>.add _ _)

end Linearizer
end HypercoreRs
