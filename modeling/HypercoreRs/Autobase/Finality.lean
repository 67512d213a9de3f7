/-
# Finality

The finalized nodes are the pinned base and what some confirmed node sees
(`mem_finalized_iff_base`, without a reconfiguration `mem_finalized_iff`), and the run of
shifts passes, for every confirmed node, through the point where exactly the nodes it sees
are out (`finalized_split_base`). A confirmed node stays confirmed when a node is added. So
what is finalized stays finalized (`finalized_mono`) and stays in front: the new
finalized list starts with the old one up to order (`finalized_perm`). The order
itself may change, when four indexers are split and a partition heals
(`finalized_reorders`).
-/
import HypercoreRs.Autobase.Base
import HypercoreRs.Autobase.Converge

open Std

namespace HypercoreRs
namespace Linearizer

open Quorum

variable {K : Type} [LinearOrder K] {L : Linearizer K}

/-! ### The removed nodes along the loop -/

theorem gone_empty : gone (Clock.empty : Clock K) = ∅ := by
  ext x
  simp [gone, Clock.get_empty]

theorem lower_empty (hL : L.WF) : Lower hL (Clock.empty : Clock K) := by
  intro x _ y _ hx
  rw [gone_empty] at hx
  exact absurd hx (Set.notMem_empty x)

variable {removed : Clock K} {x : NodeId K}

/-- A shift removes its batch. -/
theorem mem_gone_raiseAll :
    x ∈ gone (raiseAll removed (L.shiftBatch removed)) ↔
      x ∈ gone removed ∨ x ∈ L.shiftBatch removed := by
  rw [mem_gone, raiseAll, lt_foldl_raise, mem_gone]
  constructor
  · rintro (h | ⟨v, hv, hk, hs⟩)
    · exact Or.inl h
    · obtain ⟨-, hvs, -⟩ := mem_indexerTails (shiftBatch_subset hv)
      rw [hk] at hvs
      rcases Nat.lt_or_eq_of_le hs with h | h
      · exact Or.inl (hvs ▸ h)
      · exact Or.inr (NodeId.ext' hk h.symm ▸ hv)
  · rintro (h | h)
    · exact Or.inl h
    · exact Or.inr ⟨x, h, rfl, le_rfl⟩

variable {hL : L.WF}

theorem Lower.shift (h : Lower hL removed) :
    Lower hL (raiseAll removed (L.shiftBatch removed)) := by
  intro x hx y hy hxg hxy
  rw [mem_gone_raiseAll] at hxg ⊢
  rcases hxg with hxg | hxb
  · exact Or.inl (h x hx y hy hxg hxy)
  · -- a tail sees no other node that is not removed
    by_cases hyg : y ∈ gone removed
    · exact Or.inl hyg
    · have hl := ((mem_indexerTails_iff hL).mp (shiftBatch_subset hxb)).2
      exact Or.inr (hl y ⟨hy, hyg⟩ hxy ▸ hxb)

/-- How many indexer nodes are not removed. -/
def remaining (L : Linearizer K) (removed : Clock K) : ℕ :=
  ((L.nodes.filter fun n => n.key ∈ L.voters).filter fun x => removed.get x.key ≤ x.seq).card

theorem remaining_le (removed : Clock K) : L.remaining removed ≤ L.deps.size := by
  rw [← card_nodes, remaining]
  exact Finset.card_le_card ((Finset.filter_subset _ _).trans (Finset.filter_subset _ _))

/-- A shift that yields something leaves fewer. -/
theorem remaining_shift (hL : L.WF) (h : L.shiftBatch removed ≠ []) :
    L.remaining (raiseAll removed (L.shiftBatch removed)) < L.remaining removed := by
  obtain ⟨b, hb⟩ := List.exists_mem_of_ne_nil _ h
  have hbo := ((mem_indexerTails_iff hL).mp (shiftBatch_subset hb)).1
  have hg := fun x => (mem_gone_raiseAll : x ∈ gone (raiseAll removed (L.shiftBatch removed)) ↔ _)
  refine Finset.card_lt_card (Finset.ssubset_iff_of_subset ?_ |>.mpr ⟨b, ?_, ?_⟩)
  · intro x hx
    obtain ⟨hx, hle⟩ := Finset.mem_filter.mp hx
    refine Finset.mem_filter.mpr ⟨hx, Nat.not_lt.mp fun hlt => ?_⟩
    exact Nat.not_lt.mpr hle ((hg x).mpr (Or.inl hlt))
  · exact Finset.mem_filter.mpr ⟨hbo.1, Nat.not_lt.mp hbo.2⟩
  · intro hb'
    exact Nat.not_lt.mpr (Finset.mem_filter.mp hb').2 ((hg b).mpr (Or.inr hb))

/-! ### The loop -/

/-- A state of the loop of `confirmedView`: what is out is the base and what the removed
nodes see. -/
structure Driven (hL : L.WF) (removed : Clock K) (emitted : ExtTreeSet (NodeId K))
    (out : List (NodeId K)) : Prop where
  lower : Lower hL removed
  base : ∀ x ∈ L.base, x ∈ gone removed
  nodup : out.Nodup
  emitted : ∀ x, x ∈ emitted ↔ x ∈ out
  out : ∀ x, x ∈ out ↔ x ∈ L.base ∨ ∃ b ∈ (history hL).nodes, b ∈ gone removed ∧ L.Past b x

theorem Pinned.driven (hL : L.WF) (hp : L.Pinned) :
    Driven hL L.baseClock (ExtTreeSet.ofList L.base) L.base where
  lower := hp.lower hL
  base x hx := (hp.clock x).mpr hx
  nodup := hp.nodup
  emitted x := Graph.mem_ofList
  out x := by
    refine ⟨Or.inl, ?_⟩
    rintro (hx | ⟨b, -, hb, hbx⟩)
    · exact hx
    · exact mem_of_past hp.closed ((hp.clock b).mp hb) hbx

variable {emitted : ExtTreeSet (NodeId K)} {out : List (NodeId K)}

theorem Driven.closed (hp : L.Pinned) (h : Driven hL removed emitted out) :
    ∀ n ∈ out, ∀ d ∈ L.depsOf n, d ∈ out := by
  intro n hn d hd
  rw [h.out] at hn ⊢
  rcases hn with hn | ⟨b, hb, hbg, hbn⟩
  · exact Or.inl (hp.closed n hn d hd)
  · exact Or.inr ⟨b, hb, hbg, hbn.tail hd⟩

theorem Driven.sub (hp : L.Pinned) (h : Driven hL removed emitted out) : ∀ x ∈ out, x ∈ L.deps := by
  intro x hx
  rcases (h.out x).mp hx with hx | ⟨b, hb, -, hbx⟩
  · exact hp.sub x hx
  · exact Past.mem hL hbx ((mem_history hL).mp hb).1

/-- The indexer nodes out are the removed ones. -/
theorem Driven.mem_out_iff_gone (h : Driven hL removed emitted out) (hx : x ∈ (history hL).nodes) :
    x ∈ out ↔ x ∈ gone removed := by
  rw [h.out]
  constructor
  · rintro (hB | ⟨b, hb, hbg, hbx⟩)
    · exact h.base x hB
    · exact h.lower b hb x hx hbg hbx
  · exact fun hg => Or.inr ⟨x, hx, hg, Relation.ReflTransGen.refl⟩

/-- One iteration. -/
theorem Driven.step (hp : L.Pinned) (h : Driven hL removed emitted out) :
    Driven hL (raiseAll removed (L.shiftBatch removed))
      (emitted.insertMany
        (L.topoKeyOrder (L.freshClosure emitted (L.shiftBatch removed)) emitted))
      (out ++ L.topoKeyOrder (L.freshClosure emitted (L.shiftBatch removed)) emitted) := by
  have hcl : ∀ n ∈ emitted, ∀ d ∈ L.depsOf n, d ∈ emitted := fun n hn d hd =>
    (h.emitted d).mpr (h.closed hp n ((h.emitted n).mp hn) d hd)
  have hfresh := mem_freshClosure hL hcl (shiftBatch_mem removed)
  obtain ⟨hnodup, htopo, -⟩ := topoKeyOrder_spec hL fun n hn => ((hfresh n).mp hn).1
  refine ⟨h.lower.shift, fun x hx => mem_gone_raiseAll.mpr (Or.inl (h.base x hx)), ?_,
    fun x => ?_, fun x => ?_⟩
  · refine List.nodup_append'.mpr ⟨h.nodup, hnodup, fun x hx hx' => ?_⟩
    exact ((hfresh x).mp ((htopo x).mp hx')).1 ((h.emitted x).mpr hx)
  · rw [Graph.mem_insertMany, List.mem_append, h.emitted]
  · rw [List.mem_append, htopo, hfresh, h.emitted, h.out]
    constructor
    · rintro ((hxB | ⟨b, hb, hbg, hbx⟩) | ⟨-, b, hb, hbx⟩)
      · exact Or.inl hxB
      · exact Or.inr ⟨b, hb, mem_gone_raiseAll.mpr (Or.inl hbg), hbx⟩
      · have hbo := ((mem_indexerTails_iff hL).mp (shiftBatch_subset hb)).1
        exact Or.inr ⟨b, hbo.1, mem_gone_raiseAll.mpr (Or.inr hb), hbx⟩
    · rintro (hxB | ⟨b, hb, hbg, hbx⟩)
      · exact Or.inl (Or.inl hxB)
      · by_cases hx : x ∈ L.base ∨ ∃ b ∈ (history hL).nodes, b ∈ gone removed ∧ L.Past b x
        · exact Or.inl hx
        · rcases mem_gone_raiseAll.mp hbg with hbg | hbb
          · exact absurd (Or.inr ⟨b, hb, hbg, hbx⟩) hx
          · exact Or.inr ⟨hx, b, hbb, hbx⟩

theorem viewLoop_of_nil (h : L.shiftBatch removed = []) (fuel : ℕ) (emitted : ExtTreeSet (NodeId K))
    (out : List (NodeId K)) : L.viewLoop (fuel + 1) removed emitted out = out := by
  rw [viewLoop]
  exact if_pos (by rw [shiftOnce, h]; rfl)

theorem viewLoop_of_ne_nil (h : L.shiftBatch removed ≠ []) (fuel : ℕ) (emitted : ExtTreeSet (NodeId K))
    (out : List (NodeId K)) :
    L.viewLoop (fuel + 1) removed emitted out =
      L.viewLoop fuel (raiseAll removed (L.shiftBatch removed))
        (emitted.insertMany
          (L.topoKeyOrder (L.freshClosure emitted (L.shiftBatch removed)) emitted))
        (out ++ L.topoKeyOrder (L.freshClosure emitted (L.shiftBatch removed)) emitted) := by
  rw [viewLoop]
  exact if_neg (by simpa [shiftOnce] using h)

/-- The loop only appends. -/
theorem prefix_viewLoop : ∀ (fuel : ℕ) (removed : Clock K) (emitted : ExtTreeSet (NodeId K))
    (out : List (NodeId K)), out <+: L.viewLoop fuel removed emitted out
  | 0, _, _, _ => List.prefix_rfl
  | fuel + 1, removed, emitted, out => by
    by_cases hnil : L.shiftBatch removed = []
    · rw [viewLoop_of_nil hnil]
    · rw [viewLoop_of_ne_nil hnil]
      exact (List.prefix_append out _).trans (prefix_viewLoop fuel _ _ _)

/-- The loop ends in a state where a shift yields nothing. -/
theorem Driven.ends (hp : L.Pinned) : ∀ (fuel : ℕ) (removed : Clock K)
    (emitted : ExtTreeSet (NodeId K)) (out : List (NodeId K)), L.remaining removed < fuel →
    Driven hL removed emitted out → ∃ removed' emitted',
      Driven hL removed' emitted' (L.viewLoop fuel removed emitted out) ∧
        L.shiftBatch removed' = []
  | 0, _, _, _, hf, _ => absurd hf (Nat.not_lt_zero _)
  | fuel + 1, removed, emitted, out, hf, h => by
    by_cases hnil : L.shiftBatch removed = []
    · rw [viewLoop_of_nil hnil]
      exact ⟨removed, emitted, h, hnil⟩
    · have hrem := remaining_shift hL hnil
      rw [viewLoop_of_ne_nil hnil]
      exact ends hp fuel _ _ _ (by omega) (h.step hp)

variable {m : NodeId K}

/-- What is out when the past of `m` is removed. -/
theorem Driven.mem_out_iff (hp : L.Pinned) (h : Driven hL removed emitted out)
    (hm : m ∈ (history hL).nodes) (hmg : m ∈ gone removed)
    (hbelow : ∀ x ∈ (history hL).nodes, x ∈ gone removed → x ∈ gone L.baseClock ∨ L.Past m x)
    (x : NodeId K) : x ∈ out ↔ x ∈ L.base ∨ L.Past m x := by
  rw [h.out]
  refine or_congr_right' fun hx => ⟨fun ⟨b, hb, hbg, hbx⟩ => ?_, fun hmx => ⟨m, hm, hmg, hmx⟩⟩
  rcases hbelow b hb hbg with hb₀ | hmb
  · exact absurd (mem_of_past hp.closed ((hp.clock b).mp hb₀) hbx) hx
  · exact hmb.trans hbx

variable {ix : ExtTreeSet K}

/-- The loop passes through the point where exactly the past of a confirmed node is
removed, besides the base. -/
theorem viewLoop_reaches (hL : L.WF) (hp : L.Pinned) (hix : L.indexers = some ix) (hm : Open hL L.baseClock m)
    (hc : (history hL).Confirmed (gone L.baseClock) m) :
    ∀ (fuel : ℕ) (removed : Clock K) (emitted : ExtTreeSet (NodeId K)) (out : List (NodeId K)),
      L.remaining removed < fuel → Driven hL removed emitted out →
      (∀ x ∈ (history hL).nodes, x ∈ gone removed → x ∈ gone L.baseClock ∨ L.Past m x) →
      ∃ fuel' removed' emitted' out', L.viewLoop fuel removed emitted out =
          L.viewLoop (fuel' + 1) removed' emitted' out' ∧ Driven hL removed' emitted' out' ∧
        m ∈ gone removed' ∧
        ∀ x ∈ (history hL).nodes, x ∈ gone removed' → x ∈ gone L.baseClock ∨ L.Past m x
  | 0, _, _, _, hf, _, _ => absurd hf (Nat.not_lt_zero _)
  | fuel + 1, removed, emitted, out, hf, h, hbelow => by
    by_cases hmg : m ∈ gone removed
    · exact ⟨fuel, removed, emitted, out, rfl, h, hmg, hbelow⟩
    · -- what was removed since the start is below `m`, so `m` is still confirmed
      have hcongr : ∀ x ∈ (history hL).nodes,
          (x ∈ gone removed ↔ x ∈ gone L.baseClock) ∨ (history hL).le x m := fun x hx => by
        by_cases hmx : L.Past m x
        · exact Or.inr hmx
        · refine Or.inl ⟨fun hg => (hbelow x hx hg).resolve_right hmx, fun hg => ?_⟩
          exact h.base x ((hp.clock x).mp hg)
      have hcR := (History.confirmed_congr hcongr hmg hm.2).mpr hc
      obtain ⟨hne, hsub⟩ := shiftBatch_below hL h.lower hix ⟨hm.1, hmg⟩ hcR
      have hrem := remaining_shift hL hne
      obtain ⟨fuel', removed', emitted', out', he, h'⟩ := viewLoop_reaches hL hp hix hm hc fuel _ _
        _ (by omega) (h.step hp) (fun x hx hxg => by
          rcases mem_gone_raiseAll.mp hxg with hxg | hxb
          · exact hbelow x hx hxg
          · exact Or.inr (hsub x hxb))
      exact ⟨fuel', removed', emitted', out', by rw [← he, viewLoop_of_ne_nil hne], h'⟩

/-! ### What is finalized -/

theorem finalized_eq (hix : L.indexers = some ix) :
    L.finalized = L.viewLoop (L.deps.size + 1) L.baseClock (ExtTreeSet.ofList L.base) L.base := by
  have hM : L.majority.isNone = false := by rw [majority, hix]; rfl
  rw [finalized, confirmedView, hM]
  rfl

section Finalized

variable (hL : L.WF) (hp : L.Pinned) {ix : ExtTreeSet K} (hix : L.indexers = some ix)
include hp hix

/-- The finalized list is a state of the loop where nothing more is yielded. -/
theorem driven_finalized : ∃ removed emitted,
    Driven hL removed emitted L.finalized ∧ L.shiftBatch removed = [] := by
  rw [finalized_eq hix]
  exact Driven.ends hp _ _ _ _ (Nat.lt_succ_of_le (remaining_le _)) (hp.driven hL)

variable {m : NodeId K}

/-- The run passes through the past of each confirmed node. -/
theorem finalized_split_base (hm : Open hL L.baseClock m) (hc : (history hL).Confirmed (gone L.baseClock) m) :
    ∃ o, o <+: L.finalized ∧ ∀ x, x ∈ o ↔ x ∈ L.base ∨ L.Past m x := by
  obtain ⟨fuel, removed, emitted, out, he, hr, hmg, hbelow⟩ := viewLoop_reaches hL hp hix hm hc
    (L.deps.size + 1) _ _ _ (Nat.lt_succ_of_le (remaining_le _)) (hp.driven hL)
    fun x _ hx => Or.inl hx
  refine ⟨out, ?_, hr.mem_out_iff hp hm.1 hmg hbelow⟩
  rw [finalized_eq hix, he]
  exact prefix_viewLoop _ _ _ _

omit hp hix in
/-- The last confirmed node, if any is confirmed. -/
theorem exists_last_confirmed {R : Set (NodeId K)} (hm : m ∈ (history hL).nodes) (hmR : m ∉ R)
    (hc : (history hL).Confirmed R m) :
    ∃ p ∈ (history hL).nodes, p ∉ R ∧ (history hL).Confirmed R p ∧
      ∀ t ∈ (history hL).nodes, t ∉ R → (history hL).Confirmed R t → L.Past p t := by
  classical
  let S := (history hL).nodes.filter fun t => t ∉ R ∧ (history hL).Confirmed R t
  have hS : ∀ t, t ∈ S.toList ↔ t ∈ (history hL).nodes ∧ t ∉ R ∧ (history hL).Confirmed R t :=
    fun t => by rw [Finset.mem_toList, Finset.mem_filter]
  obtain ⟨p, hp, -, hmax⟩ := exists_maximal hL
    (fun x hx => ((mem_history hL).mp ((hS x).mp hx).1).1) ((hS m).mpr ⟨hm, hmR, hc⟩)
  obtain ⟨hpn, hpR, hpc⟩ := (hS p).mp hp
  refine ⟨p, hpn, hpR, hpc, fun t ht htR htc => ?_⟩
  rcases History.comparable_of_ackers ht htR hpn hpR htc.1 hpc.1 with h | h
  · exact h
  · rw [hmax t ((hS t).mpr ⟨ht, htR, htc⟩) h]
    exact Relation.ReflTransGen.refl

/-- The finalized nodes are the base and what the last confirmed node sees. -/
theorem mem_finalized_of_last_base {p : NodeId K} (hpo : Open hL L.baseClock p)
    (hc : (history hL).Confirmed (gone L.baseClock) p)
    (hmax : ∀ t ∈ (history hL).nodes, t ∉ gone L.baseClock →
      (history hL).Confirmed (gone L.baseClock) t → L.Past p t) (x : NodeId K) :
    x ∈ L.finalized ↔ x ∈ L.base ∨ L.Past p x := by
  obtain ⟨fuel, removed, emitted, out, he, hr, hpg, hbelow⟩ := viewLoop_reaches hL hp hix hpo hc
    (L.deps.size + 1) _ _ _ (Nat.lt_succ_of_le (remaining_le _)) (hp.driven hL)
    fun x _ hx => Or.inl hx
  have hgone : ∀ y ∈ (history hL).nodes,
      y ∈ gone removed ↔ y ∈ gone L.baseClock ∨ L.Past p y := fun y hy => by
    refine ⟨hbelow y hy, ?_⟩
    rintro (hy₀ | hpy)
    · exact hr.base y ((hp.clock y).mp hy₀)
    · exact hr.lower p hpo.1 y hy hpg hpy
  have hnil := shiftBatch_eq_nil hL hr.lower hix fun t ht =>
    History.Confirmed.le_of_maximal hc hpo.1 ((hp.lower hL).above hpo.1 hpo.2) hmax hgone ht.1 ht.2
  rw [finalized_eq hix, he, viewLoop_of_nil hnil]
  exact hr.mem_out_iff hp hpo.1 hpg hbelow x

/-- The finalized nodes are the base and what some confirmed node sees. -/
theorem mem_finalized_iff_base (x : NodeId K) :
    x ∈ L.finalized ↔ x ∈ L.base ∨ ∃ m, Open hL L.baseClock m ∧
      (history hL).Confirmed (gone L.baseClock) m ∧ L.Past m x := by
  by_cases hex : ∃ m, Open hL L.baseClock m ∧ (history hL).Confirmed (gone L.baseClock) m
  · obtain ⟨m, hm, hc⟩ := hex
    obtain ⟨p, hpn, hpR, hpc, hmax⟩ := exists_last_confirmed hL hm.1 hm.2 hc
    rw [mem_finalized_of_last_base hL hp hix ⟨hpn, hpR⟩ hpc hmax]
    exact or_congr_right ⟨fun hx => ⟨p, ⟨hpn, hpR⟩, hpc, hx⟩,
      fun ⟨t, ht, htc, hx⟩ => (hmax t ht.1 ht.2 htc).trans hx⟩
  · have hnil := shiftBatch_eq_nil hL (hp.lower hL) hix fun t ht htc => hex ⟨t, ht, htc⟩
    rw [finalized_eq hix, viewLoop_of_nil hnil]
    refine (or_iff_left ?_).symm
    rintro ⟨m, hm, hc, -⟩
    exact hex ⟨m, hm, hc⟩

end Finalized

/-! ### Without a reconfiguration -/

/-- Without a reconfiguration: quorum is on and the base is empty. -/
structure Fresh (L : Linearizer K) (ix : ExtTreeSet K) : Prop where
  indexers : L.indexers = some ix
  base : L.base = []
  baseClock : L.baseClock = Clock.empty

theorem Fresh.gone_base (h : L.Fresh ix) : gone L.baseClock = ∅ := by
  rw [h.baseClock, gone_empty]

theorem Fresh.pinned (h : L.Fresh ix) : L.Pinned where
  nodup := by simp [h.base]
  sub := by simp [h.base]
  closed := by simp [h.base]
  clock := by simp [h.base, h.gone_base]

theorem Fresh.isOpen (h : L.Fresh ix) (hm : m ∈ (history hL).nodes) : Open hL L.baseClock m :=
  ⟨hm, h.gone_base ▸ Set.notMem_empty m⟩

/-- The run passes through the past of each confirmed node. -/
theorem finalized_split (hL : L.WF) (h : L.Fresh ix) (hm : m ∈ (history hL).nodes)
    (hc : (history hL).Confirmed ∅ m) : ∃ o, o <+: L.finalized ∧ ∀ x, x ∈ o ↔ L.Past m x := by
  simpa [h.base] using
    finalized_split_base hL h.pinned h.indexers (h.isOpen hm) (by rwa [h.gone_base])

/-- The finalized nodes are those the last confirmed node sees. -/
theorem mem_finalized_of_last (hL : L.WF) (h : L.Fresh ix) {p : NodeId K}
    (hp : p ∈ (history hL).nodes) (hc : (history hL).Confirmed ∅ p)
    (hmax : ∀ t ∈ (history hL).nodes, (history hL).Confirmed ∅ t → L.Past p t) (x : NodeId K) :
    x ∈ L.finalized ↔ L.Past p x := by
  simpa [h.base] using mem_finalized_of_last_base hL h.pinned h.indexers (h.isOpen hp)
    (by rwa [h.gone_base]) (fun t ht _ htc => hmax t ht (by rwa [h.gone_base] at htc)) x

/-- The finalized nodes are exactly those that some confirmed node sees. -/
theorem mem_finalized_iff (hL : L.WF) (h : L.Fresh ix) (x : NodeId K) :
    x ∈ L.finalized ↔ ∃ m ∈ (history hL).nodes, (history hL).Confirmed ∅ m ∧ L.Past m x := by
  rw [mem_finalized_iff_base hL h.pinned h.indexers, h.gone_base, h.base]
  simp only [List.not_mem_nil, false_or]
  constructor
  · rintro ⟨m, hm, hx⟩
    exact ⟨m, hm.1, hx⟩
  · rintro ⟨m, hm, hx⟩
    exact ⟨m, h.isOpen hm, hx⟩

/-! ### Growth -/

variable {node : NodeId K}

/-- An accepted node changes no delivered node's past. -/
theorem past_attach (hL : L.WF) {ds : ExtTreeSet (NodeId K)} (hn : node ∉ L.deps) {y : NodeId K}
    (hy : y ∈ L.deps) (x : NodeId K) : (L.attach node ds).Past y x ↔ L.Past y x := by
  constructor
  · intro h
    induction h with
    | refl => exact Relation.ReflTransGen.refl
    | @tail b c _ hbc ih =>
      have hb := Past.mem hL ih hy
      have hne : b ≠ node := fun he => hn (he ▸ hb)
      refine ih.tail ?_
      have hbc' : c ∈ (L.attach node ds).depsOf b := hbc
      rwa [depsOf_attach, if_neg hne] at hbc'
  · intro h
    induction h with
    | refl => exact Relation.ReflTransGen.refl
    | @tail b c hab hbc ih =>
      have hb := Past.mem hL hab hy
      have hne : b ≠ node := fun he => hn (he ▸ hb)
      refine ih.tail ?_
      show c ∈ (L.attach node ds).depsOf b
      rw [depsOf_attach, if_neg hne]
      exact hbc

variable {heads : List (NodeId K)} {L' : Linearizer K}

/-- The history grows by the accepted node. -/
theorem history_extends (hL : L.WF) (hL' : L'.WF) (ha : L.add node heads = (L', .ok ())) :
    (history hL).Extends (history hL') := by
  obtain ⟨hn, -, -, rfl⟩ := add_eq_ok.mp ha
  have hin : ∀ x ∈ (history hL).nodes, x ∈ L.deps := fun x hx => ((mem_history hL).mp hx).1
  refine ⟨rfl, rfl, fun x hx => ?_, fun y hy x => past_attach hL hn (hin y hy) x,
    fun y hy x hx hxy => ?_⟩
  · exact (mem_history hL').mpr ⟨mem_attach.mpr (Or.inr (hin x hx)), ((mem_history hL).mp hx).2⟩
  · have hp := (past_attach hL hn (hin y hy) x).mp hxy
    exact (mem_history hL).mpr ⟨Past.mem hL hp (hin y hy), ((mem_history hL').mp hx).2⟩

variable {indexers : List K} {acc : List (Delivery K)}

theorem Adds.fresh (h : Adds (withIndexers indexers) acc L) : L.Fresh (ExtTreeSet.ofList indexers) :=
  ⟨h.fixed.1, h.fixed.2.1, h.fixed.2.2⟩

/-- Before and after an accepted add: the finalized list of the one is, up to order,
the beginning of the finalized list of the other. -/
theorem exists_perm_prefix (h : Adds (withIndexers indexers) acc L) (ha : L.add node heads = (L', .ok ())) :
    ∃ o, o <+: L'.finalized ∧ o.Perm L.finalized := by
  have hv := (h.run (.withIndexers indexers)).valid
  have hv' := ((h.add ha).run (.withIndexers indexers)).valid
  have hf' := (h.add ha).fresh
  have hnodup := (confirmedView_spec hv.wf hv.base).1.nodup
  have hnodup' := (confirmedView_spec hv'.wf hv'.base).1.nodup
  by_cases hex : ∃ m ∈ (history hv.wf).nodes, (history hv.wf).Confirmed ∅ m
  · obtain ⟨m, hm, hc⟩ := hex
    obtain ⟨p, hp, -, hpc, hmax⟩ := exists_last_confirmed hv.wf hm (Set.notMem_empty m) hc
    have e := history_extends hv.wf hv'.wf ha
    obtain ⟨o, ho, hmem⟩ := finalized_split hv'.wf hf' (e.sub p hp) (hpc.extend e hp)
    refine ⟨o, ho, (List.perm_ext_iff_of_nodup (ho.sublist.nodup hnodup') hnodup).mpr fun x => ?_⟩
    rw [hmem]
    exact (e.le p hp x).trans (mem_finalized_of_last hv.wf h.fresh hp hpc
      (fun t ht => hmax t ht (Set.notMem_empty t)) x).symm
  · refine ⟨[], List.nil_prefix, ?_⟩
    have hnil : L.finalized = [] := List.eq_nil_iff_forall_not_mem.mpr fun x hx => by
      obtain ⟨m, hm, hc, -⟩ := (mem_finalized_iff hv.wf h.fresh x).mp hx
      exact hex ⟨m, hm, hc⟩
    rw [hnil]

/-- What is finalized stays finalized. -/
theorem finalized_mono {indexers : List K} {acc : List (Delivery K)}
    (h : Adds (withIndexers indexers) acc L) {node : NodeId K} {heads : List (NodeId K)}
    {L' : Linearizer K} (ha : L.add node heads = (L', .ok ())) :
    ∀ x ∈ L.finalized, x ∈ L'.finalized := by
  obtain ⟨o, ho, hperm⟩ := exists_perm_prefix h ha
  exact fun x hx => ho.subset (hperm.mem_iff.mpr hx)

theorem finalized_mono_chain : ∃ L L' : Linearizer ℕ,
    Adds (withIndexers [0]) [(⟨0, 0⟩, [])] L ∧ L.add ⟨0, 1⟩ [] = (L', .ok ()) ∧
    L.finalized = [⟨0, 0⟩] ∧ ∀ x ∈ L.finalized, x ∈ L'.finalized := by
  have e : ((withIndexers [0]).deliver [(⟨0, 0⟩, [])]).any (fun L : Linearizer ℕ =>
      L.finalized = [⟨0, 0⟩] && (L.deliver [(⟨0, 1⟩, [])]).isSome) = true := by decide +kernel
  obtain ⟨L, hL, hf⟩ := (Option.any_eq_true _ _).mp e
  rw [Bool.and_eq_true, decide_eq_true_eq] at hf
  obtain ⟨L', hL'⟩ := Option.isSome_iff_exists.mp hf.2
  have ha : L.add ⟨0, 1⟩ [] = (L', .ok ()) := add_of_deliver hL'
  have h := Adds.start.deliver hL
  exact ⟨L, L', h, ha, hf.1, finalized_mono h ha⟩

/-- What is finalized stays in front: the finalized list after an add begins with a
permutation of the one before. -/
theorem finalized_perm {indexers : List K} {acc : List (Delivery K)}
    (h : Adds (withIndexers indexers) acc L) {node : NodeId K} {heads : List (NodeId K)}
    {L' : Linearizer K} (ha : L.add node heads = (L', .ok ())) :
    (L'.finalized.take L.finalized.length).Perm L.finalized := by
  obtain ⟨o, ho, hperm⟩ := exists_perm_prefix h ha
  rw [← hperm.length_eq, ← List.prefix_iff_eq_take.mp ho]
  exact hperm

/-! ### The order of the finalized nodes may change

Four indexers 0..3, and two tails, `⟨0, 0⟩` and `⟨1, 0⟩`, neither of them confirmed.
At first the merge `⟨3, 1⟩` is the only confirmed one, and it resolves to the tail of
1. Then the merge `⟨1, 2⟩`, of a lower key, is confirmed too and comes first; no arm
of it is confirmed as seen from it, so it yields both tails, in key order. -/

/-- The nodes before the partition heals. -/
def split : List (Delivery ℕ) :=
  [(⟨1, 0⟩, []), (⟨0, 0⟩, []), (⟨2, 0⟩, [⟨1, 0⟩]), (⟨3, 0⟩, [⟨2, 0⟩]), (⟨3, 1⟩, [⟨0, 0⟩, ⟨3, 0⟩]),
   (⟨1, 1⟩, [⟨1, 0⟩, ⟨3, 1⟩]), (⟨3, 2⟩, []), (⟨1, 2⟩, [⟨3, 2⟩]), (⟨2, 1⟩, [⟨1, 2⟩]),
   (⟨0, 1⟩, [⟨1, 2⟩])]

/-- The node that heals it. -/
def heal : Delivery ℕ := (⟨3, 3⟩, [⟨0, 1⟩])

/-- The confirmed nodes before and after. -/
theorem exists_healed : ∃ L L' : Linearizer ℕ, Adds (withIndexers [0, 1, 2, 3]) split L ∧
    L.add heal.1 heal.2 = (L', .ok ()) ∧ L.finalized = [⟨1, 0⟩, ⟨0, 0⟩, ⟨2, 0⟩, ⟨3, 0⟩, ⟨3, 1⟩] ∧
    L'.finalized = [⟨0, 0⟩, ⟨1, 0⟩, ⟨2, 0⟩, ⟨3, 0⟩, ⟨3, 1⟩, ⟨1, 1⟩, ⟨3, 2⟩, ⟨1, 2⟩] := by
  have e : ((withIndexers [0, 1, 2, 3]).deliver split).any
      (fun L : Linearizer ℕ => (L.deliver [heal]).any fun L' =>
      decide (L.finalized = [⟨1, 0⟩, ⟨0, 0⟩, ⟨2, 0⟩, ⟨3, 0⟩, ⟨3, 1⟩] ∧
        L'.finalized = [⟨0, 0⟩, ⟨1, 0⟩, ⟨2, 0⟩, ⟨3, 0⟩, ⟨3, 1⟩, ⟨1, 1⟩, ⟨3, 2⟩, ⟨1, 2⟩])) = true := by
    decide +kernel
  obtain ⟨L, hL, h⟩ := (Option.any_eq_true _ _).mp e
  obtain ⟨L', hL', hf⟩ := (Option.any_eq_true _ _).mp h
  exact ⟨L, L', Adds.start.deliver hL, add_of_deliver hL', of_decide_eq_true hf⟩

theorem finalized_reorders : ∃ L L' : Linearizer ℕ, Adds (withIndexers [0, 1, 2, 3]) split L ∧
    L.add heal.1 heal.2 = (L', .ok ()) ∧ ¬ L.finalized <+: L'.finalized := by
  obtain ⟨L, L', h, ha, hbefore, hafter⟩ := exists_healed
  exact ⟨L, L', h, ha, by rw [hbefore, hafter]; decide⟩

theorem finalized_perm_healed : ∃ L L' : Linearizer ℕ,
    Adds (withIndexers [0, 1, 2, 3]) split L ∧ L.add heal.1 heal.2 = (L', .ok ()) ∧
    ¬ L.finalized <+: L'.finalized ∧ (L'.finalized.take L.finalized.length).Perm L.finalized := by
  obtain ⟨L, L', h, ha, hbefore, hafter⟩ := exists_healed
  exact ⟨L, L', h, ha, by rw [hbefore, hafter]; decide, finalized_perm h ha⟩

end Linearizer
end HypercoreRs
