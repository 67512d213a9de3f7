/-
# Cooperative runs

When every node is added on the current heads the DAG is a chain: a node sees exactly
the nodes before it (`Chain`). The order is then the order of arrival, and votes, seals
and confirmations are counts of indexers along the chain. `confirmedAt` is that counting
rule: with the first position where a majority of the indexers occurred since the node,
the node is confirmed if a majority occurs from there on, or if every indexer occurs
since the node.

The finalized list is the beginning of the chain up to the last confirmed indexer node
(`Coop.finalized_spec`), and only ever extends.
-/
import HypercoreRs.Autobase.Driver

namespace HypercoreRs

open Std Quorum

namespace Linearizer

variable {K : Type} [LinearOrder K] {L L' : Linearizer K}

/-! ### The counting rule -/

/-- The indexers that occur at the positions from `i` on, before `j`. -/
def occurring (V : Finset K) (ns : List (NodeId K)) (i j : ℕ) : Finset K :=
  V.filter fun k => ∃ p ∈ Finset.Ico i j, ns[p]?.any fun n => n.key = k

/-- The first position where a majority of the indexers occurred since `i`. -/
def ackPosition (V : Finset K) (ns : List (NodeId K)) (i : ℕ) : Option ℕ :=
  (List.range ns.length).find? fun j => V.card / 2 + 1 ≤ (occurring V ns i (j + 1)).card

/-- The node at `i` is confirmed: a majority of the indexers occurs from its ack position
on, or all of them occur since `i`. -/
def confirmedAt (V : Finset K) (ns : List (NodeId K)) (i : ℕ) : Bool :=
  (ackPosition V ns i).any fun a =>
    V.card / 2 + 1 ≤ (occurring V ns a ns.length).card || V ⊆ occurring V ns i ns.length

/-- How many nodes there are up to the last confirmed node of an indexer. -/
def confirmedLength (V : Finset K) (ns : List (NodeId K)) : ℕ :=
  ((Finset.range ns.length).filter fun i =>
    ns[i]?.any (fun n => n.key ∈ V) && confirmedAt V ns i).sup (· + 1)

variable {V : Finset K} {ns : List (NodeId K)}

theorem mem_occurring {i j : ℕ} {k : K} :
    k ∈ occurring V ns i j ↔
      k ∈ V ∧ ∃ p n, i ≤ p ∧ p < j ∧ ns[p]? = some n ∧ n.key = k := by
  simp only [occurring, Finset.mem_filter, Finset.mem_Ico, Option.any_eq_true, decide_eq_true_eq]
  refine and_congr_right fun _ => ⟨?_, ?_⟩
  · rintro ⟨p, ⟨hi, hj⟩, n, hn, hk⟩
    exact ⟨p, n, hi, hj, hn, hk⟩
  · rintro ⟨p, n, hi, hj, hn, hk⟩
    exact ⟨p, ⟨hi, hj⟩, n, hn, hk⟩

theorem occurring_mono {i j j' : ℕ} (h : j ≤ j') : occurring V ns i j ⊆ occurring V ns i j' := by
  intro k hk
  obtain ⟨hV, p, n, hi, hj, hn⟩ := mem_occurring.mp hk
  exact mem_occurring.mpr ⟨hV, p, n, hi, hj.trans_le h, hn⟩

/-! ### Positions -/

theorem lt_length_of {α : Type} {l : List α} {i : ℕ} {x : α} (hx : l[i]? = some x) : i < l.length :=
  (List.getElem?_eq_some_iff.mp hx).1

theorem mem_take_iff {α : Type} {l : List α} {c : ℕ} {x : α} :
    x ∈ l.take c ↔ ∃ j < c, l[j]? = some x := by
  rw [List.mem_iff_getElem?]
  refine exists_congr fun j => ?_
  rw [List.getElem?_take]
  by_cases hj : j < c
  · simp [hj]
  · simp [hj]

/-! ### Chains -/

/-- A linearizer over the nodes `ns`, each of which sees exactly those before it. -/
structure Chain (ns : List (NodeId K)) (L : Linearizer K) : Prop where
  wf : L.WF
  nodup : ns.Nodup
  mem : ∀ x, x ∈ L.deps ↔ x ∈ ns
  past : ∀ {i j : ℕ} {x y : NodeId K}, ns[i]? = some x → ns[j]? = some y →
    (L.Past x y ↔ j ≤ i)

namespace Chain

variable {ns : List (NodeId K)} (h : Chain ns L)
include h

variable {x : NodeId K}

theorem mem_deps {i : ℕ} (hx : ns[i]? = some x) : x ∈ L.deps :=
  (h.mem x).mpr (List.mem_of_getElem? hx)

theorem exists_position (hx : x ∈ L.deps) : ∃ i : ℕ, ns[i]? = some x :=
  List.mem_iff_getElem?.mp ((h.mem x).mp hx)

theorem total {x y : NodeId K} (hx : x ∈ L.deps) (hy : y ∈ L.deps) : L.Past x y ∨ L.Past y x := by
  obtain ⟨i, hi⟩ := h.exists_position hx
  obtain ⟨j, hj⟩ := h.exists_position hy
  rw [h.past hi hj, h.past hj hi]
  exact le_total j i

/-- A node added on the heads sees all others. -/
theorem add {node : NodeId K} (ha : L.add node L.heads.toList = (L', .ok ())) :
    Chain (ns ++ [node]) L' := by
  have hL' : L'.WF := by
    have := h.wf.add node L.heads.toList
    rwa [ha] at this
  obtain ⟨hn, -, -, rfl⟩ := add_eq_ok.mp ha
  have hnew : node ∉ ns := fun hin => hn ((h.mem node).mpr hin)
  refine ⟨hL', ?_, fun x => ?_, fun {i j x y} hx hy => ?_⟩
  · exact List.nodup_append'.mpr ⟨h.nodup, List.nodup_singleton node, by simpa using hnew⟩
  · rw [mem_attach, h.mem, List.mem_append, List.mem_singleton, or_comm]
  · rcases Nat.lt_or_ge i ns.length with hi | hi
    · rw [List.getElem?_append_left hi] at hx
      rw [past_attach h.wf hn (h.mem_deps hx)]
      rcases Nat.lt_or_ge j ns.length with hj | hj
      · rw [List.getElem?_append_left hj] at hy
        exact h.past hx hy
      · refine iff_of_false (fun hxy => ?_) (by omega)
        rw [List.getElem?_append_right hj, List.getElem?_singleton] at hy
        split_ifs at hy
        obtain rfl := Option.some.inj hy
        exact hn (Past.mem h.wf hxy (h.mem_deps hx))
    · have hlen := lt_length_of hy
      rw [List.length_append, List.length_singleton] at hlen
      refine iff_of_true ?_ (by omega)
      rw [List.getElem?_append_right hi, List.getElem?_singleton] at hx
      split_ifs at hx
      obtain rfl := Option.some.inj hx
      rcases Nat.lt_or_ge j ns.length with hj | hj
      · rw [List.getElem?_append_left hj] at hy
        obtain ⟨z, hz, hzy⟩ := h.wf.exists_head (h.mem_deps hy)
        have hzd := ((mem_heads h.wf).mp hz).1
        refine Relation.ReflTransGen.head ?_ ((past_attach h.wf hn hzd y).mpr hzy)
        show z ∈ (L.attach node (depSet node L.heads.toList)).depsOf node
        rw [depsOf_attach, if_pos rfl, mem_depSet]
        exact ⟨fun he => hn (he ▸ hzd), Or.inl (ExtTreeSet.mem_toList.mpr hz)⟩
      · rw [List.getElem?_append_right hj, List.getElem?_singleton] at hy
        split_ifs at hy
        obtain rfl := Option.some.inj hy
        exact Relation.ReflTransGen.refl

/-- The nodes of a view come in the order of the chain. -/
theorem pairwise_view {l : List (NodeId K)} (hl : L.View l) : l.Pairwise fun a b => L.Past b a := by
  rw [List.pairwise_iff_getElem]
  intro i j hi hj hij
  rcases h.total (hl.sub _ (List.getElem_mem hj)) (hl.sub _ (List.getElem_mem hi)) with hp | hp
  · exact hp
  · -- what the earlier node sees is listed before it
    have hv : L.View (l.take (i + 1)) := by
      rw [← List.take_append_drop (i + 1) l] at hl
      exact hl.of_append
    have hin : l[i] ∈ l.take (i + 1) := by
      rw [List.mem_take_iff_getElem]
      exact ⟨i, by omega, rfl⟩
    have hmem := mem_of_past (fun x hx d hd => hv.first.closed hx hd) hin hp
    obtain ⟨p, hpi, hpe⟩ := List.mem_take_iff_getElem.mp hmem
    have := (hl.nodup.getElem_inj_iff).mp hpe
    omega

/-- A view is determined by its nodes. -/
theorem view_eq {l o : List (NodeId K)} (hl : L.View l) (ho : o.Sublist ns)
    (hmem : ∀ x, x ∈ l ↔ x ∈ o) : l = o := by
  have hns : ns.Pairwise fun a b => L.Past b a := by
    rw [List.pairwise_iff_getElem]
    intro i j hi hj hij
    exact (h.past (List.getElem?_eq_getElem hj) (List.getElem?_eq_getElem hi)).mpr hij.le
  have hperm := (List.perm_ext_iff_of_nodup hl.nodup (ho.nodup h.nodup)).mpr hmem
  exact hperm.eq_of_pairwise (fun a b _ _ hab hba => Past.antisymm h.wf hba hab)
    (h.pairwise_view hl) (hns.sublist ho)

/-! ### Votes along a chain -/

theorem newer_iff {t p : NodeId K} (ht : t ∈ L.deps) : (history h.wf).Newer ∅ t p ↔ L.Past p t := by
  refine ⟨fun hn => hn.1, fun hpt => ⟨hpt, fun x hx _ _ => ?_⟩⟩
  exact h.total ht ((mem_history h.wf).mp hx).1

theorem ack_iff {t a : NodeId K} (ht : t ∈ L.deps) :
    (history h.wf).Ack ∅ t a ↔ a ∈ (history h.wf).nodes ∧ L.Past a t := by
  rw [History.Ack, h.newer_iff ht]
  exact and_congr_right fun _ => and_iff_right (Set.notMem_empty a)

section At

variable {i : ℕ} {t : NodeId K} (ht : ns[i]? = some t)
include ht

/-- The voters are the indexers that occur since the target. -/
theorem ackers_eq : (history h.wf).ackers ∅ t = occurring L.voters ns i ns.length := by
  ext k
  rw [History.mem_ackers, mem_occurring]
  constructor
  · rintro ⟨a, ha, rfl⟩
    obtain ⟨hn, hat⟩ := (h.ack_iff (h.mem_deps ht)).mp ha
    obtain ⟨hd, hk⟩ := (mem_history h.wf).mp hn
    obtain ⟨p, hp⟩ := h.exists_position hd
    exact ⟨hk, p, a, (h.past hp ht).mp hat, lt_length_of hp, hp, rfl⟩
  · rintro ⟨hk, p, n, hip, -, hn, rfl⟩
    refine ⟨n, (h.ack_iff (h.mem_deps ht)).mpr ⟨?_, (h.past hn ht).mpr hip⟩, rfl⟩
    exact (mem_history h.wf).mpr ⟨h.mem_deps hn, hk⟩

variable {y : NodeId K}

/-- The votes a node sees are those up to its position. -/
theorem votesSeen_eq {q : ℕ} (hy : ns[q]? = some y) :
    (history h.wf).votesSeen ∅ t y = occurring L.voters ns i (q + 1) := by
  ext k
  rw [History.mem_votesSeen, mem_occurring]
  constructor
  · rintro ⟨a, ha, hay, rfl⟩
    obtain ⟨hn, hat⟩ := (h.ack_iff (h.mem_deps ht)).mp ha
    obtain ⟨hd, hk⟩ := (mem_history h.wf).mp hn
    obtain ⟨p, hp⟩ := h.exists_position hd
    exact ⟨hk, p, a, (h.past hp ht).mp hat, Nat.lt_succ_of_le ((h.past hy hp).mp hay), hp, rfl⟩
  · rintro ⟨hk, p, n, hip, hpq, hn, rfl⟩
    refine ⟨n, (h.ack_iff (h.mem_deps ht)).mpr ⟨?_, (h.past hn ht).mpr hip⟩, ?_, rfl⟩
    · exact (mem_history h.wf).mpr ⟨h.mem_deps hn, hk⟩
    · exact (h.past hy hn).mpr (Nat.le_of_lt_succ hpq)

theorem seals_iff {q : ℕ} (hy : ns[q]? = some y) :
    (history h.wf).Seals ∅ t y ↔ y.key ∈ L.voters ∧ i ≤ q ∧
      (history h.wf).majority ≤ (occurring L.voters ns i (q + 1)).card := by
  rw [History.Seals, h.newer_iff (h.mem_deps ht), h.past hy ht, h.votesSeen_eq ht hy, mem_history]
  exact and_congr_left fun _ => and_iff_right (h.mem_deps hy)

/-- A voter cannot turn away from the target once it occurs since the target. -/
theorem settled_iff {k : K} (hk : k ∈ L.voters) :
    (history h.wf).Settled ∅ t k ↔ k ∈ occurring L.voters ns i ns.length := by
  constructor
  · have key : ∀ y ∈ (history h.wf).nodes, L.Past y t → y.key = k →
        k ∈ occurring L.voters ns i ns.length := fun y hy hyt hyk => by
      obtain ⟨p, hp⟩ := h.exists_position ((mem_history h.wf).mp hy).1
      exact mem_occurring.mpr ⟨hk, p, y, (h.past hp ht).mp hyt, lt_length_of hp, hp, hyk⟩
    rintro (⟨y, hy, hyk⟩ | ⟨y, hy, hn, hyk⟩)
    · exact key y hy.1 hy.2.1.1 hyk
    · exact key y hy.1 hn.1 hyk
  · intro hocc
    obtain ⟨-, p, n, hip, -, hn, hnk⟩ := mem_occurring.mp hocc
    have hnode : n ∈ (history h.wf).nodes :=
      (mem_history h.wf).mpr ⟨h.mem_deps hn, hnk.symm ▸ hk⟩
    obtain ⟨z, ⟨hz, hzn⟩, hlast⟩ := (history h.wf).exists_last hnode
    have hzt : L.Past z t := (hlast n hnode hzn.symm).trans ((h.past hn ht).mpr hip)
    exact Or.inr ⟨z, ⟨hz, hlast⟩, (h.newer_iff (h.mem_deps ht)).mpr hzt, hzn.trans hnk⟩

/-- The nodes that seal the target are those from the ack position on. -/
theorem sealers_eq {a : ℕ} (ha : ackPosition L.voters ns i = some a) :
    (history h.wf).sealers ∅ t = occurring L.voters ns a ns.length := by
  obtain ⟨hM, -, hmin⟩ := List.find?_range_eq_some.mp ha
  rw [decide_eq_true_eq] at hM
  ext k
  rw [History.mem_sealers, mem_occurring]
  constructor
  · rintro ⟨y, hy, rfl⟩
    obtain ⟨hd, hk⟩ := (mem_history h.wf).mp hy.1
    obtain ⟨q, hq⟩ := h.exists_position hd
    refine ⟨hk, q, y, ?_, lt_length_of hq, hq, rfl⟩
    by_contra hlt
    have hno := hmin q (Nat.not_le.mp hlt)
    rw [Bool.not_eq_true', decide_eq_false_iff_not] at hno
    exact hno ((h.seals_iff ht hq).mp hy).2.2
  · rintro ⟨hk, q, n, haq, -, hn, rfl⟩
    have hcard := hM.trans (Finset.card_le_card (occurring_mono (show a + 1 ≤ q + 1 by omega)))
    have hpos : 0 < (occurring L.voters ns i (q + 1)).card := by omega
    obtain ⟨k', hk'⟩ := Finset.card_pos.mp hpos
    obtain ⟨-, p, -, hip, hpq, -⟩ := mem_occurring.mp hk'
    exact ⟨n, (h.seals_iff ht hn).mpr ⟨hk, by omega, hcard⟩, rfl⟩

/-- **Confirmation along a chain is the counting rule.** -/
theorem confirmed_iff : (history h.wf).Confirmed ∅ t ↔ confirmedAt L.voters ns i = true := by
  have hlt := lt_length_of ht
  rw [History.Confirmed, h.ackers_eq ht]
  have hsettled : (∀ k ∈ (history h.wf).voters, (history h.wf).Settled ∅ t k) ↔
      L.voters ⊆ occurring L.voters ns i ns.length :=
    forall₂_congr fun k hk => h.settled_iff ht hk
  rw [hsettled, confirmedAt]
  cases ha : ackPosition L.voters ns i with
  | none =>
    -- no position has a majority, so the last one has none
    have hno := List.find?_range_eq_none.mp ha (ns.length - 1) (by omega)
    rw [Bool.not_eq_true', decide_eq_false_iff_not, show ns.length - 1 + 1 = ns.length by omega] at hno
    simp only [Option.any_none, Bool.false_eq_true, iff_false]
    exact fun hc => hno hc.1
  | some a =>
    obtain ⟨hM, hin, -⟩ := List.find?_range_eq_some.mp ha
    rw [decide_eq_true_eq] at hM
    have hacks := hM.trans (Finset.card_le_card (occurring_mono (List.mem_range.mp hin)))
    rw [h.sealers_eq ht ha, Option.any_some, Bool.or_eq_true, decide_eq_true_eq, decide_eq_true_eq]
    exact and_iff_right hacks

end At

/-! ### The lists of a chain -/

theorem order_eq (hb : L.View L.base) : L.order = ns := by
  obtain ⟨hview, hmem, -⟩ := order_view h.wf hb
  exact h.view_eq hview (List.Sublist.refl ns) fun x => (hmem x).trans (h.mem x)

/-- The finalized list ends at the last confirmed node of an indexer. -/
theorem finalized_eq {ix : ExtTreeSet K} (hf : L.Fresh ix) :
    L.finalized = ns.take (confirmedLength L.voters ns) := by
  have hview : L.View L.finalized := (confirmedView_spec h.wf (by
    rw [hf.base]
    exact ⟨List.nodup_nil, by simp, by intro l₁ n l₂ hnil; simp at hnil⟩)).1
  refine h.view_eq hview (List.take_sublist _ _) fun x => ?_
  rw [mem_finalized_iff h.wf hf, mem_take_iff]
  constructor
  · rintro ⟨m, hm, hc, hmx⟩
    obtain ⟨hd, hk⟩ := (mem_history h.wf).mp hm
    obtain ⟨i, hi⟩ := h.exists_position hd
    obtain ⟨j, hj⟩ := h.exists_position (Past.mem h.wf hmx hd)
    refine ⟨j, Finset.lt_sup_iff.mpr ⟨i, ?_, Nat.lt_succ_of_le ((h.past hi hj).mp hmx)⟩, hj⟩
    rw [Finset.mem_filter, Finset.mem_range, hi, Option.any_some, (h.confirmed_iff hi).mp hc]
    exact ⟨lt_length_of hi, by simpa using hk⟩
  · rintro ⟨j, hj, hx⟩
    obtain ⟨i, hi, hji⟩ := Finset.lt_sup_iff.mp hj
    obtain ⟨-, hc⟩ := Finset.mem_filter.mp hi
    rw [Bool.and_eq_true, Option.any_eq_true] at hc
    obtain ⟨⟨m, hm, hk⟩, hc⟩ := hc
    refine ⟨m, (mem_history h.wf).mpr ⟨h.mem_deps hm, by simpa using hk⟩,
      (h.confirmed_iff hm).mpr hc, (h.past hm hx).mpr (Nat.le_of_lt_succ hji)⟩

end Chain

/-! ### Cooperative runs -/

/-- The runs in which every node is added on the current heads. -/
inductive Coop (indexers : List K) : List (NodeId K) → Linearizer K → Prop
  | start : Coop indexers [] (withIndexers indexers)
  | add {ns : List (NodeId K)} {L L' : Linearizer K} {node : NodeId K} :
      Coop indexers ns L → L.add node L.heads.toList = (L', .ok ()) → Coop indexers (ns ++ [node]) L'

variable {indexers : List K}

theorem Coop.chain (h : Coop indexers ns L) : Chain ns L := by
  induction h with
  | start => exact ⟨(valid_withIndexers indexers).wf, List.nodup_nil, by simp [withIndexers, new], by simp⟩
  | add _ ha ih => exact ih.add ha

theorem Coop.adds (h : Coop indexers ns L) : ∃ acc, Adds (withIndexers indexers) acc L := by
  induction h with
  | start => exact ⟨[], .start⟩
  | add _ ha ih =>
    obtain ⟨acc, hacc⟩ := ih
    exact ⟨_, hacc.add ha⟩

theorem Coop.voters_eq (h : Coop indexers ns L) : L.voters = indexers.toFinset := by
  obtain ⟨acc, hacc⟩ := h.adds
  ext k
  rw [voters, hacc.fresh.indexers]
  simp

/-- **Exact finality of a cooperative run**: the order is the order of arrival; a node of
an indexer is confirmed by the counting rule; the finalized list ends at the last
confirmed one, and only ever extends. -/
theorem Coop.finalized_spec {indexers : List K} {ns : List (NodeId K)} (h : Coop indexers ns L) :
    L.order = ns ∧
    L.finalized = ns.take (confirmedLength indexers.toFinset ns) ∧
    (∀ i n, ns[i]? = some n → n.key ∈ indexers →
      (L.isConfirmed n none Clock.empty = true ↔ confirmedAt indexers.toFinset ns i = true)) ∧
    ∀ node L', L.add node L.heads.toList = (L', .ok ()) → L.finalized <+: L'.finalized := by
  obtain ⟨acc, hacc⟩ := h.adds
  have hL := h.chain.wf
  have hf := hacc.fresh
  rw [← h.voters_eq]
  refine ⟨h.chain.order_eq (hacc.run (.withIndexers indexers)).valid.base,
    h.chain.finalized_eq hf, fun i n hn hk => ?_, fun node L' ha => ?_⟩
  · have hnode : n ∈ (history hL).nodes := (mem_history hL).mpr
      ⟨h.chain.mem_deps hn, by rw [h.voters_eq]; simpa using hk⟩
    rw [isConfirmed_none hL hnode (by simp [gone_empty]) (lower_empty hL) hf.indexers, gone_empty]
    exact h.chain.confirmed_iff hn
  · -- both are beginnings of the longer chain, and what is finalized stays so
    obtain ⟨o, ho, hperm⟩ := exists_perm_prefix hacc ha
    have h' : Coop indexers (ns ++ [node]) L' := h.add ha
    have hlong := h'.chain.finalized_eq (hacc.add ha).fresh
    have hfirst : L.finalized <+: ns ++ [node] := by
      rw [h.chain.finalized_eq hf]
      exact (List.take_prefix _ _).trans (List.prefix_append _ _)
    refine List.prefix_of_prefix_length_le hfirst (hlong ▸ List.take_prefix _ _) ?_
    exact hperm.length_eq ▸ ho.length_le

/-- Two indexers in turn. -/
def inTurn : Linearizer ℕ :=
  [⟨0, 0⟩, ⟨1, 0⟩, ⟨0, 1⟩].foldl (fun L n => (L.add n L.heads.toList).1) (withIndexers [0, 1])

theorem finalized_spec_inTurn : Coop [0, 1] [⟨0, 0⟩, ⟨1, 0⟩, ⟨0, 1⟩] inTurn ∧
    inTurn.order = [⟨0, 0⟩, ⟨1, 0⟩, ⟨0, 1⟩] ∧ inTurn.finalized = [⟨0, 0⟩, ⟨1, 0⟩] := by
  have h : Coop [0, 1] [⟨0, 0⟩, ⟨1, 0⟩, ⟨0, 1⟩] inTurn :=
    ((Coop.start.add (eq_ok_of_isOk (by decide +kernel))).add
      (eq_ok_of_isOk (by decide +kernel))).add (eq_ok_of_isOk (by decide +kernel))
  refine ⟨h, h.finalized_spec.1, h.finalized_spec.2.1.trans ?_⟩
  decide +kernel

end Linearizer
end HypercoreRs
