/-
# The linearization

`order` is glued from the pinned base, the confirmed batches, each with the part
of its causal closure not emitted before, and a last priority-Kahn pass over the
rest. `View` is what every such list keeps: delivered nodes, once each, after
their dependencies. Each pass extends a `View` (`View.extend`), a prefix of one is
one, so it survives the loop over the batches and a reconfiguration that cuts the
confirmed view anywhere (`Run.valid`).
-/
import HypercoreRs.Autobase.Dag

open Std

namespace HypercoreRs
namespace Linearizer

variable {K : Type} [LinearOrder K] {L : Linearizer K}

/-! ### The Kahn passes -/

theorem unmet_eq_size (hL : L.WF) (c : NodeId K) :
    Graph.unmet L.depsOf L.nodes [] c = (L.depsOf c).size := by
  rw [Graph.unmet, ← ExtTreeSet.length_toList, List.countP_eq_length]
  intro d hd
  have := hL.closed c d (ExtTreeSet.mem_toList.mp hd)
  simpa [mem_nodes] using this

/-- The counts the plain order starts from. -/
theorem getElem?_depCounts (hL : L.WF) (c : NodeId K) :
    (ExtTreeMap.ofList (L.deps.toList.map fun p => (p.1, p.2.size)))[c]? =
      if c ∈ L.nodes then some (Graph.unmet L.depsOf L.nodes [] c) else none := by
  rw [Graph.getElem?_mapValues]
  split_ifs with hc
  · rw [getElem?_deps (mem_nodes.mp hc), unmet_eq_size hL, Option.map_some]
  · rw [ExtTreeMap.getElem?_eq_none fun h => hc (mem_nodes.mpr h), Option.map_none]

/-- The plain order lists every node once, after its dependencies. -/
theorem plainOrder_spec (hL : L.WF) :
    L.plainOrder.Nodup ∧ (∀ x, x ∈ L.plainOrder ↔ x ∈ L.deps) ∧
      Graph.DepsFirst L.depsOf L.plainOrder := by
  obtain ⟨rank, -, hr⟩ := hL.ranked
  obtain ⟨h1, h2, h3⟩ := Graph.kahn_of_table L.depsOf L.nodes
    (ExtTreeMap.ofList (L.deps.toList.map fun p => (p.1, p.2.size)))
    (fun n _ c _ => hL.rev n c) (getElem?_depCounts hL) rank (fun c _ d hd _ => hr c d hd)
    card_nodes.symm
  refine ⟨h1, fun x => (h2 x).trans mem_nodes, fun l₁ n l₂ he d hd => ?_⟩
  exact h3 l₁ n l₂ he d hd (mem_nodes.mpr (hL.closed n d hd))

variable {l : List (NodeId K)}

/-- No other order with dependencies first is smaller. -/
theorem plainOrder_least (hL : L.WF) (hnodup : l.Nodup) (hmem : ∀ x, x ∈ l ↔ x ∈ L.deps)
    (hfirst : Graph.DepsFirst L.depsOf l) : L.plainOrder ≤ l := by
  obtain ⟨rank, -, hr⟩ := hL.ranked
  exact Graph.kahn_of_table_least L.depsOf L.nodes _ (fun n _ c _ => hL.rev n c)
    (getElem?_depCounts hL) (fun n _ hd => Nat.lt_irrefl _ (hr n n hd)) _ hnodup
    (fun x => (hmem x).trans mem_nodes.symm) fun l₁ n l₂ he d hd _ => hfirst l₁ n l₂ he d hd

/-- The topological order of a set of nodes none of which was emitted. -/
theorem topoKeyOrder_spec (hL : L.WF) {nodes emitted : ExtTreeSet (NodeId K)}
    (hdisj : ∀ n ∈ nodes, n ∉ emitted) :
    (L.topoKeyOrder nodes emitted).Nodup ∧ (∀ x, x ∈ L.topoKeyOrder nodes emitted ↔ x ∈ nodes) ∧
      ∀ l₁ n l₂, L.topoKeyOrder nodes emitted = l₁ ++ n :: l₂ →
        ∀ d ∈ L.depsOf n, d ∈ nodes → d ∈ l₁ := by
  obtain ⟨rank, -, hr⟩ := hL.ranked
  have hcount : ∀ c, ((L.depsOf c).toList.countP fun d =>
      nodes.contains d && !emitted.contains d) =
        Graph.unmet L.depsOf (Graph.toFinset nodes) [] c := fun c => by
    refine List.countP_congr fun d _ => ?_
    have hd : d ∈ nodes → emitted.contains d = false := fun h => by
      rw [← Bool.not_eq_true, ExtTreeSet.contains_iff_mem]
      exact hdisj d h
    simp only [Bool.and_eq_true, ExtTreeSet.contains_iff_mem, Bool.not_eq_true',
      Graph.mem_toFinset, List.not_mem_nil, not_false_eq_true, and_true, decide_eq_true_eq]
    exact ⟨fun h => h.1, fun h => ⟨h, hd h⟩⟩
  obtain ⟨h1, h2, h3⟩ := Graph.kahn_of_table L.depsOf (Graph.toFinset nodes)
    (ExtTreeMap.ofList (nodes.toList.map fun n =>
      (n, (L.depsOf n).toList.countP fun d => nodes.contains d && !emitted.contains d)))
    (fun n _ c _ => hL.rev n c) (fun c => by
      rw [Graph.getElem?_tabulate (Graph.nodup_toList nodes)]
      simp only [ExtTreeSet.mem_toList, Graph.mem_toFinset, hcount])
    rank (fun c _ d hd _ => hr c d hd) (Graph.card_toFinset nodes).symm
  exact ⟨h1, fun x => (h2 x).trans Graph.mem_toFinset,
    fun l₁ n l₂ he d hd hdn => h3 l₁ n l₂ he d hd (Graph.mem_toFinset.mpr hdn)⟩

/-! ### Batches -/

variable {removed : Clock K} {x : NodeId K}

theorem mem_tailStep {ts : List (NodeId K)} {idx : K} (h : x ∈ L.tailStep removed ts idx) :
    x ∈ ts ∨ (x = ⟨idx, removed.get idx⟩ ∧ x ∈ L.deps) := by
  unfold tailStep at h
  dsimp only at h
  split_ifs at h with h1 h2
  · exact Or.inl h
  · have hin : (⟨idx, removed.get idx⟩ : NodeId K) ∈ L.deps := by
      simp only [contains_eq, Bool.or_eq_true, Bool.not_eq_true', decide_eq_false_iff_not,
        not_or, not_not] at h1
      exact h1.1
    rcases List.mem_append.mp h with h | h
    · exact Or.inl (List.mem_of_mem_filter h)
    · rw [List.mem_singleton.mp h]
      exact Or.inr ⟨rfl, hin⟩
  · exact Or.inl (List.mem_of_mem_filter h)

theorem mem_foldl_tailStep : ∀ (ixs : List K)
    (ts : List (NodeId K)), x ∈ ixs.foldl (L.tailStep removed) ts →
    x ∈ ts ∨ (x.key ∈ ixs ∧ x.seq = removed.get x.key ∧ x ∈ L.deps)
  | [], ts, h => Or.inl h
  | idx :: ixs, ts, h => by
    rcases mem_foldl_tailStep ixs _ h with h | ⟨hk, hs, hd⟩
    · rcases mem_tailStep h with h | ⟨rfl, hd⟩
      · exact Or.inl h
      · exact Or.inr ⟨List.mem_cons_self, rfl, hd⟩
    · exact Or.inr ⟨List.mem_cons_of_mem _ hk, hs, hd⟩

/-- A tail is the first node of an indexer that is not removed. -/
theorem mem_indexerTails (h : x ∈ L.indexerTails removed) :
    x.key ∈ L.indexerList ∧ x.seq = removed.get x.key ∧ x ∈ L.deps := by
  have h' := mem_foldl_tailStep _ _ (Graph.mem_ofList.mp h)
  simpa using h'

theorem yieldNext_subset {tails : ExtTreeSet (NodeId K)} :
    ∀ (fuel : ℕ) (node : NodeId K), x ∈ L.yieldNext tails removed fuel node → x ∈ tails
  | 0, _, h => by simp [yieldNext] at h
  | fuel + 1, node, h => by
    unfold yieldNext at h
    split_ifs at h with ht
    · rw [List.mem_singleton.mp h]
      exact ExtTreeSet.contains_iff_mem.mp ht
    · split at h
      · exact yieldNext_subset fuel _ h
      · exact ExtTreeSet.mem_toList.mp (List.mem_of_mem_filter h)

/-- One shift yields tails. -/
theorem shiftBatch_subset (h : x ∈ L.shiftBatch removed) : x ∈ L.indexerTails removed := by
  unfold shiftBatch at h
  dsimp only at h
  split at h
  · rename_i t ht
    rw [List.mem_singleton.mp h]
    exact ExtTreeSet.mem_toList.mp (List.mem_of_find?_eq_some ht)
  · split at h
    · exact yieldNext_subset _ _ h
    · simp at h

theorem edgeCount_eq : L.edgeCount = ∑ v ∈ L.nodes, (L.depsOf v).size := by
  rw [edgeCount, nodes, List.sum_toFinset _ ExtTreeMap.nodup_keys,
    ← ExtTreeMap.map_fst_toList_eq_keys, List.map_map]
  congr 1
  refine List.map_congr_left fun p hp => ?_
  have := ExtTreeMap.mem_toList_iff_getElem?_eq_some.mp hp
  simp [depsOf, ExtTreeMap.getD_eq_getD_getElem?, this]

/-- The fresh closure of a batch: what the batch sees and was not emitted. -/
theorem mem_freshClosure (hL : L.WF) {emitted : ExtTreeSet (NodeId K)} {batch : List (NodeId K)}
    (he : ∀ n ∈ emitted, ∀ d ∈ L.depsOf n, d ∈ emitted) (hb : ∀ b ∈ batch, b ∈ L.deps)
    (x : NodeId K) : x ∈ L.freshClosure emitted batch ↔ x ∉ emitted ∧ ∃ b ∈ batch, L.Past b x := by
  have hf : batch.reverse.length + ∑ v ∈ L.nodes, (L.depsOf v).size ≤
      batch.length + L.edgeCount := by rw [List.length_reverse, edgeCount_eq]
  have h := Graph.mem_closure_iff (fun v _ d hd => mem_nodes.mpr (hL.closed v d hd)) he
    (fun s hs => mem_nodes.mpr (hb s (List.mem_reverse.mp hs))) hf x
  rw [freshClosure, h]
  simp only [List.mem_reverse]

/-! ### Views -/

/-- A list of delivered nodes, once each and after their dependencies. -/
structure View (L : Linearizer K) (l : List (NodeId K)) : Prop where
  nodup : l.Nodup
  sub : ∀ x ∈ l, x ∈ L.deps
  first : Graph.DepsFirst L.depsOf l

theorem View.of_append {a b : List (NodeId K)} (h : L.View (a ++ b)) : L.View a :=
  ⟨(List.nodup_append.mp h.nodup).1, fun x hx => h.sub x (List.mem_append_left _ hx),
    h.first.of_append⟩

/-- One pass: the topological order of a set of new nodes whose dependencies are in
the set or in the view. -/
theorem View.extend (hL : L.WF) {out : List (NodeId K)} (h : L.View out)
    {emitted nodes : ExtTreeSet (NodeId K)} (he : ∀ x, x ∈ emitted ↔ x ∈ out)
    (hsub : ∀ n ∈ nodes, n ∈ L.deps) (hnew : ∀ n ∈ nodes, n ∉ emitted)
    (hdep : ∀ n ∈ nodes, ∀ d ∈ L.depsOf n, d ∈ emitted ∨ d ∈ nodes) :
    L.View (out ++ L.topoKeyOrder nodes emitted) := by
  obtain ⟨h1, h2, h3⟩ := topoKeyOrder_spec hL hnew
  refine ⟨List.nodup_append.mpr ⟨h.nodup, h1, fun a ha b hb hab => ?_⟩, fun x hx => ?_,
    h.first.append fun l₁ n l₂ ho d hd => ?_⟩
  · exact hnew b ((h2 b).mp hb) ((he b).mpr (hab ▸ ha))
  · rcases List.mem_append.mp hx with hx | hx
    · exact h.sub x hx
    · exact hsub x ((h2 x).mp hx)
  · have hn : n ∈ nodes := (h2 n).mp (by rw [ho]; simp)
    rcases hdep n hn d hd with hd' | hd'
    · exact Or.inl ((he d).mp hd')
    · exact Or.inr (h3 l₁ n l₂ ho d hd hd')

/-- One iteration of `viewLoop`. -/
theorem View.batch (hL : L.WF) {out : List (NodeId K)} (h : L.View out)
    {emitted : ExtTreeSet (NodeId K)} (he : ∀ x, x ∈ emitted ↔ x ∈ out)
    {batch : List (NodeId K)} (hb : ∀ b ∈ batch, b ∈ L.deps) :
    L.View (out ++ L.topoKeyOrder (L.freshClosure emitted batch) emitted) := by
  have hcl : ∀ n ∈ emitted, ∀ d ∈ L.depsOf n, d ∈ emitted := fun n hn d hd =>
    (he d).mpr (h.first.closed ((he n).mp hn) hd)
  have hm := mem_freshClosure hL hcl hb
  refine h.extend hL he (fun n hn => ?_) (fun n hn => ((hm n).mp hn).1) fun n hn d hd => ?_
  · obtain ⟨-, b, hbm, hp⟩ := (hm n).mp hn
    exact Past.mem hL hp (hb b hbm)
  · obtain ⟨-, b, hbm, hp⟩ := (hm n).mp hn
    by_cases hde : d ∈ emitted
    · exact Or.inl hde
    · exact Or.inr ((hm d).mpr ⟨hde, b, hbm, hp.tail hd⟩)

theorem shiftBatch_mem (removed : Clock K) : ∀ b ∈ L.shiftBatch removed, b ∈ L.deps :=
  fun _ hb => (mem_indexerTails (shiftBatch_subset hb)).2.2

/-- The batch loop extends a view to a view. -/
theorem viewLoop_spec (hL : L.WF) : ∀ (fuel : ℕ) (removed : Clock K)
    (emitted : ExtTreeSet (NodeId K)) (out : List (NodeId K)), L.View out →
    (∀ x, x ∈ emitted ↔ x ∈ out) →
    L.View (L.viewLoop fuel removed emitted out) ∧ out <+: L.viewLoop fuel removed emitted out
  | 0, _, _, out, h, _ => ⟨h, List.prefix_rfl⟩
  | fuel + 1, removed, emitted, out, h, he => by
    unfold viewLoop
    dsimp only
    split_ifs with hemp
    · exact ⟨h, List.prefix_rfl⟩
    · have hv := h.batch hL he (shiftBatch_mem removed)
      have he' : ∀ x, x ∈ emitted.insertMany
          (L.topoKeyOrder (L.freshClosure emitted (L.shiftBatch removed)) emitted) ↔
          x ∈ out ++ L.topoKeyOrder (L.freshClosure emitted (L.shiftBatch removed)) emitted :=
        fun x => by rw [Graph.mem_insertMany, List.mem_append, he]
      obtain ⟨r1, r2⟩ := viewLoop_spec hL fuel (L.shiftOnce removed).2 _ _ hv he'
      exact ⟨r1, (List.prefix_append _ _).trans r2⟩

/-- The confirmed view is a view that extends the base. -/
theorem confirmedView_spec (hL : L.WF) (hb : L.View L.base) :
    L.View L.confirmedView ∧ L.base <+: L.confirmedView := by
  unfold confirmedView
  split_ifs
  · exact ⟨hb, List.prefix_rfl⟩
  · exact viewLoop_spec hL _ _ _ _ hb fun x => Graph.mem_ofList

/-- The order is a view of all nodes that extends the confirmed view. -/
theorem order_view (hL : L.WF) (hb : L.View L.base) :
    L.View L.order ∧ (∀ x, x ∈ L.order ↔ x ∈ L.deps) ∧ L.confirmedView <+: L.order := by
  obtain ⟨hv, -⟩ := confirmedView_spec hL hb
  unfold order
  dsimp only
  split_ifs with hemp
  · obtain ⟨h1, h2, h3⟩ := plainOrder_spec hL
    rw [List.isEmpty_iff.mp hemp]
    exact ⟨⟨h1, fun x hx => (h2 x).mp hx, h3⟩, h2, List.nil_prefix⟩
  · have he : ∀ x, x ∈ ExtTreeSet.ofList L.confirmedView ↔ x ∈ L.confirmedView :=
      fun x => Graph.mem_ofList
    have hrem : ∀ x, x ∈ ExtTreeSet.ofList (L.deps.keys.filter fun n =>
        !(ExtTreeSet.ofList L.confirmedView).contains n) ↔
        x ∈ L.deps ∧ x ∉ ExtTreeSet.ofList L.confirmedView := fun x => by
      simp
    have hnew : ∀ n ∈ ExtTreeSet.ofList (L.deps.keys.filter fun n =>
        !(ExtTreeSet.ofList L.confirmedView).contains n),
        n ∉ ExtTreeSet.ofList L.confirmedView := fun n hn => ((hrem n).mp hn).2
    refine ⟨hv.extend hL he (fun n hn => ((hrem n).mp hn).1) hnew fun n hn d hd => ?_,
      fun x => ?_, List.prefix_append _ _⟩
    · by_cases hde : d ∈ ExtTreeSet.ofList L.confirmedView
      · exact Or.inl hde
      · exact Or.inr ((hrem d).mpr ⟨hL.closed n d hd, hde⟩)
    · rw [List.mem_append, (topoKeyOrder_spec hL hnew).2.1, hrem, he]
      have := hv.sub x
      tauto

/-! ### Runs

The calls are `add` and `reconfigure`, accepted or refused; the accepted adds are
listed, in order. -/

/-- A delivered node with the heads it came with. -/
abbrev Delivery (K : Type) := NodeId K × List (NodeId K)

/-- The linearizers reached from `new` or `withIndexers`, with the accepted adds. -/
inductive Run : List (Delivery K) → Linearizer K → Prop
  | new : Run [] new
  | withIndexers (indexers : List K) : Run [] (withIndexers indexers)
  | add {acc : List (Delivery K)} {L L' : Linearizer K} {node : NodeId K}
      {heads : List (NodeId K)} :
      Run acc L → L.add node heads = (L', .ok ()) → Run (acc ++ [(node, heads)]) L'
  | refused {acc : List (Delivery K)} {L L' : Linearizer K} {node : NodeId K}
      {heads : List (NodeId K)} {e : AddError K} :
      Run acc L → L.add node heads = (L', .error e) → Run acc L'
  | reconfigure {acc : List (Delivery K)} {L L' : Linearizer K} {through : ℕ}
      {indexers : List K} {r : Except (ReconfigureError K) Unit} :
      Run acc L → L.reconfigure through indexers = (L', r) → Run acc L'

/-- `d` is a direct dependency of the delivered node `n`: one of its heads, or the
writer's previous node. -/
def DependsOn (acc : List (Delivery K)) (n d : NodeId K) : Prop :=
  ∃ heads, (n, heads) ∈ acc ∧ (d ∈ heads ∨ (0 < n.seq ∧ d = ⟨n.key, n.seq - 1⟩))

/-- The DAG holds exactly the accepted adds. -/
structure Holds (acc : List (Delivery K)) (L : Linearizer K) : Prop where
  nodup : (acc.map Prod.fst).Nodup
  mem : ∀ n, n ∈ L.deps ↔ n ∈ acc.map Prod.fst
  deps : ∀ p ∈ acc, L.depsOf p.1 = depSet p.1 p.2
  other : ∀ p ∈ acc, p.1 ∉ p.2

/-- What a run keeps: the DAG's invariant, a base that is a view, and the DAG is
what was delivered. -/
structure Valid (acc : List (Delivery K)) (L : Linearizer K) : Prop where
  wf : L.WF
  base : L.View L.base
  holds : Holds acc L

variable {node : NodeId K}

theorem View.attach (h : L.View l) {ds : ExtTreeSet (NodeId K)} (hn : node ∉ L.deps) :
    (L.attach node ds).View l := by
  refine ⟨h.nodup, fun x hx => mem_attach.mpr (Or.inr (h.sub x hx)), fun l₁ n l₂ he d hd => ?_⟩
  have hne : n ≠ node := fun hnn => hn (hnn ▸ h.sub n (by rw [he]; simp))
  rw [depsOf_attach, if_neg hne] at hd
  exact h.first l₁ n l₂ he d hd

variable {acc : List (Delivery K)} {heads : List (NodeId K)}

theorem Holds.attach (h : Holds acc L) (hn : node ∉ L.deps) (hh : ∀ d ∈ heads, d ∈ L.deps) :
    Holds (acc ++ [(node, heads)]) (L.attach node (depSet node heads)) := by
  have hfresh : node ∉ acc.map Prod.fst := fun hm => hn ((h.mem node).mpr hm)
  refine ⟨?_, fun n => ?_, fun p hp => ?_, fun p hp => ?_⟩
  · rw [List.map_append, List.map_singleton, List.nodup_append]
    refine ⟨h.nodup, List.nodup_singleton _, fun a ha b hb hab => ?_⟩
    rw [hab, List.mem_singleton.mp hb] at ha
    exact hfresh ha
  · rw [mem_attach, h.mem, List.map_append, List.map_singleton, List.mem_append,
      List.mem_singleton, or_comm]
  · rw [depsOf_attach]
    rcases List.mem_append.mp hp with hp | hp
    · have hne : p.1 ≠ node := fun he => hfresh (he ▸ List.mem_map_of_mem hp)
      rw [if_neg hne]
      exact h.deps p hp
    · rw [List.mem_singleton.mp hp, if_pos rfl]
  · rcases List.mem_append.mp hp with hp | hp
    · exact h.other p hp
    · rw [List.mem_singleton.mp hp]
      exact fun hm => hn (hh node hm)

theorem Valid.add (h : Valid acc L) {L' : Linearizer K} (ha : L.add node heads = (L', .ok ())) :
    Valid (acc ++ [(node, heads)]) L' := by
  obtain ⟨hn, hs, hh, rfl⟩ := add_eq_ok.mp ha
  exact ⟨h.wf.attach hn hs hh, h.base.attach hn, h.holds.attach hn hh⟩

/-- A reconfiguration touches the base and the indexers only. -/
theorem reconfigureAt_cases (L : Linearizer K) (base : List (NodeId K)) (indexers : List K) :
    (L.reconfigureAt base indexers).1 = L ∨ ∃ clock, (L.reconfigureAt base indexers).1 =
      { L with base := base, baseClock := clock, indexers := some (ExtTreeSet.ofList indexers) } := by
  unfold reconfigureAt
  split_ifs
  · exact Or.inl rfl
  · split
    · exact Or.inl rfl
    · split
      · exact Or.inl rfl
      · exact Or.inr ⟨_, rfl⟩

theorem Valid.reconfigure (h : Valid acc L) (through : ℕ) (indexers : List K) :
    Valid acc (L.reconfigure through indexers).1 := by
  unfold Linearizer.reconfigure
  dsimp only
  split_ifs
  · exact h
  · rcases reconfigureAt_cases L (L.confirmedView.take through) indexers with he | ⟨clock, he⟩
    · rwa [he]
    · -- the new base is a prefix of the confirmed view
      have hv := (confirmedView_spec h.wf h.base).1
      rw [← List.take_append_drop through L.confirmedView] at hv
      rw [he]
      obtain ⟨n1, n2, n3⟩ := hv.of_append
      exact ⟨⟨h.wf.closed, h.wf.ranked, h.wf.keys, h.wf.rev, h.wf.seq, h.wf.pred, h.wf.pos⟩,
        ⟨n1, n2, n3⟩, ⟨h.holds.nodup, h.holds.mem, h.holds.deps, h.holds.other⟩⟩

theorem valid_new : Valid [] (new : Linearizer K) :=
  ⟨wf_new, ⟨List.nodup_nil, by simp [new], by intro l₁ n l₂ h; simp [new] at h⟩,
    ⟨List.nodup_nil, by simp [new], by simp, by simp⟩⟩

theorem valid_withIndexers (indexers : List K) : Valid [] (withIndexers indexers) :=
  have h := valid_new (K := K)
  ⟨⟨h.wf.closed, h.wf.ranked, h.wf.keys, h.wf.rev, h.wf.seq, h.wf.pred, h.wf.pos⟩,
    ⟨h.base.nodup, h.base.sub, h.base.first⟩,
    ⟨h.holds.nodup, h.holds.mem, h.holds.deps, h.holds.other⟩⟩

/-- Every run keeps it. -/
theorem Run.valid (h : Run acc L) : Valid acc L := by
  induction h with
  | new => exact valid_new
  | withIndexers ix => exact valid_withIndexers ix
  | add _ ha ih => exact ih.add ha
  | refused _ ha ih =>
    have he := add_eq_error (congrArg Prod.snd ha)
    rw [ha] at he
    dsimp only at he
    rwa [he]
  | @reconfigure acc L L' through indexers r _ hr ih =>
    have hv := ih.reconfigure through indexers
    rwa [hr] at hv

theorem Holds.dependsOn_iff (h : Holds acc L) (n d : NodeId K) :
    DependsOn acc n d ↔ d ∈ L.depsOf n := by
  constructor
  · rintro ⟨heads, hp, hd⟩
    rw [h.deps _ hp, mem_depSet]
    refine ⟨?_, hd⟩
    rintro rfl
    rcases hd with hd | ⟨hpos, he⟩
    · exact h.other _ hp hd
    · have := congrArg NodeId.seq he
      simp only at this
      omega
  · intro hd
    obtain ⟨⟨n', heads⟩, hp, rfl⟩ := List.mem_map.mp ((h.mem n).mp (WF.mem_of_depsOf hd))
    rw [h.deps _ hp, mem_depSet] at hd
    exact ⟨heads, hp, hd.2⟩

/-- After every run the order lists each delivered node exactly once, after its
direct dependencies, and starts with the finalized nodes, which are closed under
dependencies. -/
theorem Run.order_spec {acc : List (Delivery K)} (h : Run acc L) :
    L.order.Nodup ∧ L.order.Perm (acc.map Prod.fst) ∧
    (∀ l₁ n l₂, L.order = l₁ ++ n :: l₂ → ∀ d, DependsOn acc n d → d ∈ l₁) ∧
    L.finalized <+: L.order ∧
    ∀ n ∈ L.finalized, ∀ d, DependsOn acc n d → d ∈ L.finalized := by
  have hv := h.valid
  obtain ⟨ho, hm, hp⟩ := order_view hv.wf hv.base
  have hd := hv.holds.dependsOn_iff
  refine ⟨ho.nodup, ?_, fun l₁ n l₂ he d hnd => ?_, hp, fun n hn d hnd => ?_⟩
  · exact (List.perm_ext_iff_of_nodup ho.nodup hv.holds.nodup).mpr fun x =>
      (hm x).trans (hv.holds.mem x)
  · exact ho.first l₁ n l₂ he d ((hd n d).mp hnd)
  · exact (confirmedView_spec hv.wf hv.base).1.first.closed hn ((hd n d).mp hnd)

theorem order_spec_two : ∃ L : Linearizer ℕ,
    Run [(⟨0, 0⟩, []), (⟨1, 0⟩, [⟨0, 0⟩])] L ∧ L.order.Perm [⟨0, 0⟩, ⟨1, 0⟩] :=
  have h : Run [(⟨0, 0⟩, []), (⟨1, 0⟩, [⟨0, 0⟩])] (((withIndexers [0] : Linearizer ℕ).add
      ⟨0, 0⟩ []).1.add ⟨1, 0⟩ [⟨0, 0⟩]).1 :=
    ((Run.withIndexers [0]).add
      (add_eq_ok.mpr ⟨by decide +kernel, by decide +kernel, by decide +kernel, rfl⟩)).add
      (add_eq_ok.mpr ⟨by decide +kernel, by decide +kernel, by decide +kernel, rfl⟩)
  ⟨_, h, h.order_spec.2.1⟩

end Linearizer
end HypercoreRs
