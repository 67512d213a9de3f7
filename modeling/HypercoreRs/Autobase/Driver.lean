/-
# The shift driver

The loops of `yield_next`, `confirmed_prefix` and `confirmed_view` have no bound in the
code. `loop` is such a loop, without a fuel: `r ∈ loop body s` says that it ends, with
the result `r`. Each of the three ends with what the model's recursion on a fuel returns
(`Built.driver`): the descent through merges goes down in the DAG, and every shift that
yields something leaves fewer indexer nodes.

A pinned base is closed under dependencies, so its clock covers exactly its nodes
(`Pinned`). Hence the driver goes on from a base as it would from the removed nodes of
a run that yielded them, and pinning all that is confirmed changes nothing
(`Built.repin`). What `reconfigure_at` does not check is the order of the base it is
given: the lists are causal if and only if the base is (`reconfigureAt_causal_iff`).
-/
import HypercoreRs.Autobase.Stability
import Mathlib.Data.PFun

namespace HypercoreRs

open Std Quorum

namespace Linearizer

variable {K : Type} [LinearOrder K] {L L' : Linearizer K}

/-! ### Loops -/

/-- A loop of the code: the body returns, or goes on with a state. -/
def loop {σ ρ : Type} (body : σ → ρ ⊕ σ) : σ →. ρ := PFun.fix fun s => Part.some (body s)

variable {σ ρ : Type} {body : σ → ρ ⊕ σ}

theorem mem_loop_of_return {s : σ} {r : ρ} (h : body s = .inl r) : r ∈ loop body s :=
  PFun.fix_stop (by rw [h]; exact Part.mem_some _)

theorem mem_loop_of_next {s s' : σ} {r : ρ} (h : body s = .inr s') (hr : r ∈ loop body s') :
    r ∈ loop body s :=
  PFun.mem_fix_iff.mpr (Or.inr ⟨s', by rw [h]; exact Part.mem_some _, hr⟩)

/-- One iteration of `yield_next`. -/
def yieldStep (L : Linearizer K) (tails : ExtTreeSet (NodeId K)) (removed : Clock K)
    (node : NodeId K) : List (NodeId K) ⊕ NodeId K :=
  if tails.contains node then .inl [node]
  else
    match (L.tailsAndMergesSeen node tails removed).find? fun t =>
        L.isConfirmed t (some node) removed with
    | some t => .inr t
    | none => .inl (L.tailsSeen node tails)

/-- One iteration of `confirmed_prefix`, on the removed nodes and the list so far. -/
def prefixStep (L : Linearizer K) (s : Clock K × List (NodeId K)) :
    List (NodeId K) ⊕ Clock K × List (NodeId K) :=
  let batch := L.shiftOnce s.1
  if batch.1.isEmpty then .inl s.2 else .inr (batch.2, s.2 ++ batch.1)

/-- One iteration of `confirmed_view`, on the removed nodes, the nodes emitted and the
list so far. -/
def viewStep (L : Linearizer K) (s : Clock K × ExtTreeSet (NodeId K) × List (NodeId K)) :
    List (NodeId K) ⊕ Clock K × ExtTreeSet (NodeId K) × List (NodeId K) :=
  let batch := L.shiftOnce s.1
  if batch.1.isEmpty then .inl s.2.2
  else
    let ordered := L.topoKeyOrder (L.freshClosure s.2.1 batch.1) s.2.1
    .inr (batch.2, s.2.1.insertMany ordered, s.2.2 ++ ordered)

/-- The descent ends: each arm is strictly below the node it is seen from. -/
theorem yieldNext_mem_loop (hL : L.WF) {rank : NodeId K → ℕ}
    (hr : ∀ n, ∀ d ∈ L.depsOf n, rank d < rank n) (tails : ExtTreeSet (NodeId K))
    (removed : Clock K) : ∀ (fuel : ℕ) (n : NodeId K), rank n < fuel →
    L.yieldNext tails removed fuel n ∈ loop (L.yieldStep tails removed) n
  | 0, _, hf => absurd hf (Nat.not_lt_zero _)
  | fuel + 1, n, hf => by
    by_cases ht : tails.contains n = true
    · rw [yieldNext, if_pos ht]
      exact mem_loop_of_return (by rw [yieldStep, if_pos ht])
    · cases hfind : (L.tailsAndMergesSeen n tails removed).find? fun t =>
          L.isConfirmed t (some n) removed with
      | none =>
        rw [yieldNext, if_neg ht, hfind]
        exact mem_loop_of_return (by rw [yieldStep, if_neg ht, hfind])
      | some t =>
        have hlt : rank t < rank n := by
          rcases (mem_tailsAndMergesSeen hL).mp (List.mem_of_find?_eq_some hfind) with
            ⟨htt, hnt⟩ | ⟨-, hne, hnt⟩
          · exact hnt.rank_lt hr fun he => ht (he ▸ ExtTreeSet.contains_iff_mem.mpr htt)
          · exact hnt.rank_lt hr hne
        rw [yieldNext, if_neg ht, hfind]
        exact mem_loop_of_next (by rw [yieldStep, if_neg ht, hfind])
          (yieldNext_mem_loop hL hr tails removed fuel t (by omega))

/-- The loop of shifts ends: each one that yields something leaves fewer nodes. -/
theorem prefixLoop_mem_loop (hL : L.WF) : ∀ (fuel : ℕ) (removed : Clock K)
    (out : List (NodeId K)), L.remaining removed < fuel →
    L.prefixLoop fuel removed out ∈ loop L.prefixStep (removed, out)
  | 0, _, _, hf => absurd hf (Nat.not_lt_zero _)
  | fuel + 1, removed, out, hf => by
    rw [prefixLoop]
    by_cases hnil : L.shiftBatch removed = []
    · rw [if_pos (by simp [shiftOnce, hnil])]
      exact mem_loop_of_return (by simp [prefixStep, shiftOnce, hnil])
    · have hrem : L.remaining (L.shiftOnce removed).2 < L.remaining removed :=
        remaining_shift hL hnil
      rw [if_neg (by simpa [shiftOnce] using hnil)]
      refine mem_loop_of_next ?_ (prefixLoop_mem_loop hL fuel _ _ (by omega))
      rw [prefixStep, if_neg (by simpa [shiftOnce] using hnil)]

theorem viewLoop_mem_loop (hL : L.WF) : ∀ (fuel : ℕ) (removed : Clock K)
    (emitted : ExtTreeSet (NodeId K)) (out : List (NodeId K)), L.remaining removed < fuel →
    L.viewLoop fuel removed emitted out ∈ loop L.viewStep (removed, emitted, out)
  | 0, _, _, _, hf => absurd hf (Nat.not_lt_zero _)
  | fuel + 1, removed, emitted, out, hf => by
    by_cases hnil : L.shiftBatch removed = []
    · rw [viewLoop_of_nil hnil]
      exact mem_loop_of_return (by simp [viewStep, shiftOnce, hnil])
    · have hrem := remaining_shift hL hnil
      rw [viewLoop_of_ne_nil hnil]
      refine mem_loop_of_next ?_ (viewLoop_mem_loop hL fuel _ _ _ (by omega))
      rw [viewStep, if_neg (by simpa [shiftOnce] using hnil)]
      rfl

/-! ### Every base -/

/-- Every linearizer's base is closed, and its clock covers exactly its nodes. -/
theorem Built.pinned (h : Built L) : L.Pinned := by
  have hnew : ∀ ix : Option (ExtTreeSet K), { (Linearizer.new : Linearizer K) with
      indexers := ix }.Pinned := fun ix =>
    ⟨List.nodup_nil, by simp [Linearizer.new], by simp [Linearizer.new], fun x => by
      show x ∈ gone Clock.empty ↔ x ∈ []
      simp [gone_empty]⟩
  induction h with
  | new => exact hnew none
  | withIndexers indexers => exact hnew _
  | add node heads _ ih => exact ih.add node heads
  | @reconfigure L through indexers hb ih =>
    unfold Linearizer.reconfigure
    dsimp only
    split_ifs
    · exact ih
    · exact ih.reconfigureAt hb.keeps.1 _ indexers
  | reconfigureAt base indexers hb ih => exact ih.reconfigureAt hb.keeps.1 base indexers

/-! ### Batches -/

theorem yieldNext_nodup {tails : ExtTreeSet (NodeId K)} {removed : Clock K} :
    ∀ (fuel : ℕ) (n : NodeId K), (L.yieldNext tails removed fuel n).Nodup
  | 0, _ => List.nodup_nil
  | fuel + 1, n => by
    rw [yieldNext]
    split_ifs
    · exact List.nodup_singleton n
    · split
      · exact yieldNext_nodup fuel _
      · exact (Graph.nodup_toList tails).filter _

theorem shiftBatch_nodup (removed : Clock K) : (L.shiftBatch removed).Nodup := by
  unfold shiftBatch
  dsimp only
  split
  · exact List.nodup_singleton _
  · split
    · exact yieldNext_nodup _ _
    · exact List.nodup_nil

/-- Without indexers a shift yields nothing. -/
theorem shiftBatch_of_none (h : L.indexers = none) (removed : Clock K) :
    L.shiftBatch removed = [] := by
  refine List.eq_nil_iff_forall_not_mem.mpr fun x hx => ?_
  have := (mem_indexerTails (shiftBatch_subset hx)).1
  simp [indexerList, h] at this

/-- No node is yielded twice: a batch is not removed, and is from then on. -/
theorem prefixLoop_nodup (hL : L.WF) : ∀ (fuel : ℕ) (removed : Clock K) (out : List (NodeId K)),
    out.Nodup → (∀ x ∈ out, x ∈ gone removed) → (L.prefixLoop fuel removed out).Nodup
  | 0, _, _, hnd, _ => hnd
  | fuel + 1, removed, out, hnd, hout => by
    rw [prefixLoop]
    split_ifs
    · exact hnd
    · refine prefixLoop_nodup hL fuel _ _ ?_ fun x hx => ?_
      · refine List.nodup_append'.mpr ⟨hnd, shiftBatch_nodup removed, fun x hx hxb => ?_⟩
        exact ((mem_indexerTails_iff hL).mp (shiftBatch_subset hxb)).1.2 (hout x hx)
      · rcases List.mem_append.mp hx with hx | hx
        · exact mem_gone_raiseAll.mpr (Or.inl (hout x hx))
        · exact mem_gone_raiseAll.mpr (Or.inr hx)

/-- The two drivers go through the same removed nodes; what the one yields are the
indexer nodes of the other. -/
theorem mem_prefixLoop_iff {hL : L.WF} (hp : L.Pinned) : ∀ (fuel : ℕ) (removed : Clock K)
    (emitted : ExtTreeSet (NodeId K)) (out out' : List (NodeId K)),
    Driven hL removed emitted out →
    (∀ x, x ∈ out' ↔ x ∈ (history hL).nodes ∧ x ∈ gone removed) → ∀ x,
    x ∈ L.prefixLoop fuel removed out' ↔
      x ∈ L.viewLoop fuel removed emitted out ∧ x.key ∈ L.voters
  | 0, removed, emitted, out, out', h, hout, x => by
    rw [prefixLoop, viewLoop, hout]
    constructor
    · rintro ⟨hx, hg⟩
      exact ⟨(h.mem_out_iff_gone hx).mpr hg, ((mem_history hL).mp hx).2⟩
    · rintro ⟨hx, hk⟩
      have hx' := (mem_history hL).mpr ⟨h.sub hp x hx, hk⟩
      exact ⟨hx', (h.mem_out_iff_gone hx').mp hx⟩
  | fuel + 1, removed, emitted, out, out', h, hout, x => by
    rw [prefixLoop, viewLoop]
    by_cases hnil : L.shiftBatch removed = []
    · rw [if_pos (by simp [shiftOnce, hnil]), if_pos (by simp [shiftOnce, hnil])]
      exact mem_prefixLoop_iff hp 0 removed emitted out out' h hout x
    · rw [if_neg (by simpa [shiftOnce] using hnil), if_neg (by simpa [shiftOnce] using hnil)]
      refine mem_prefixLoop_iff hp fuel _ _ _ _ (h.step hp) (fun y => ?_) x
      show y ∈ out' ++ L.shiftBatch removed ↔
        _ ∧ y ∈ gone (raiseAll removed (L.shiftBatch removed))
      rw [List.mem_append, hout, mem_gone_raiseAll]
      constructor
      · rintro (⟨hy, hg⟩ | hb)
        · exact ⟨hy, Or.inl hg⟩
        · exact ⟨((mem_indexerTails_iff hL).mp (shiftBatch_subset hb)).1.1, Or.inr hb⟩
      · rintro ⟨hy, hg | hb⟩
        · exact Or.inl ⟨hy, hg⟩
        · exact Or.inr hb

theorem confirmedPrefix_mem_loop (hL : L.WF) :
    L.confirmedPrefix ∈ loop L.prefixStep (L.baseClock, L.base) := by
  rw [confirmedPrefix]
  split_ifs with hM
  · have hix : L.indexers = none := by simpa [majority] using hM
    exact mem_loop_of_return (by simp [prefixStep, shiftOnce, shiftBatch_of_none hix])
  · exact prefixLoop_mem_loop hL _ _ _ (Nat.lt_succ_of_le (remaining_le _))

theorem confirmedView_mem_loop (hL : L.WF) :
    L.confirmedView ∈ loop L.viewStep (L.baseClock, ExtTreeSet.ofList L.base, L.base) := by
  rw [confirmedView]
  split_ifs with hM
  · have hix : L.indexers = none := by simpa [majority] using hM
    exact mem_loop_of_return (by simp [viewStep, shiftOnce, shiftBatch_of_none hix])
  · exact viewLoop_mem_loop hL _ _ _ _ (Nat.lt_succ_of_le (remaining_le _))

theorem Pinned.nodup_confirmedPrefix (hL : L.WF) (h : L.Pinned) : L.confirmedPrefix.Nodup := by
  rw [confirmedPrefix]
  split_ifs
  · exact h.nodup
  · exact prefixLoop_nodup hL _ _ _ h.nodup fun x hx => (h.clock x).mpr hx

theorem mem_confirmedPrefix_iff (hL : L.WF) (hp : L.Pinned) (hbase : L.base = [])
    (x : NodeId K) : x ∈ L.confirmedPrefix ↔ x ∈ L.confirmedView ∧ x.key ∈ L.voters := by
  have hgone : ∀ y, y ∉ gone L.baseClock := fun y hy => by
    have := (hp.clock y).mp hy
    simp [hbase] at this
  rw [confirmedPrefix, confirmedView]
  split_ifs
  · simp [hbase]
  · exact mem_prefixLoop_iff hp _ _ _ _ _ (hp.driven hL) (fun y => by simp [hbase, hgone y]) x

/-- **The drivers end and agree.** The three loops end; a batch is of nodes that are not
removed, all of whose indexer ancestors are; no node is yielded twice; and without a
base the indexer nodes of the full view are those of the confirmed sequence. -/
theorem Built.driver (h : Built L) :
    (∀ removed n, L.contains n = true →
      L.yieldNext (L.indexerTails removed) removed (L.deps.size + 1) n ∈
        loop (L.yieldStep (L.indexerTails removed) removed) n) ∧
    L.confirmedPrefix ∈ loop L.prefixStep (L.baseClock, L.base) ∧
    L.confirmedView ∈ loop L.viewStep (L.baseClock, ExtTreeSet.ofList L.base, L.base) ∧
    (∀ removed, ∀ x ∈ L.shiftBatch removed,
      L.contains x = true ∧ removed.includes x.key (x.seq + 1) = false ∧
      ∀ y, L.isIndexer y.key = true → L.sees x y = true → y ≠ x →
        removed.includes y.key (y.seq + 1) = true) ∧
    L.confirmedPrefix.Nodup ∧
    (L.base = [] → ∀ x, x ∈ L.confirmedPrefix ↔ x ∈ L.confirmedView ∧ L.isIndexer x.key = true) := by
  have hL := h.keeps.1
  obtain ⟨rank, hsize, hr⟩ := hL.ranked
  refine ⟨fun removed n hn => ?_, confirmedPrefix_mem_loop hL, confirmedView_mem_loop hL,
    fun removed x hx => ?_, h.pinned.nodup_confirmedPrefix hL, fun hbase x => ?_⟩
  · rw [contains_eq, decide_eq_true_iff] at hn
    exact yieldNext_mem_loop hL hr _ removed _ n (Nat.lt_succ_of_lt (hsize n hn))
  · obtain ⟨hopen, hleast⟩ := (mem_indexerTails_iff hL).mp (shiftBatch_subset hx)
    have hin := ((mem_history hL).mp hopen.1).1
    refine ⟨by simpa [contains_eq] using hin, ?_, fun y hy hxy hne => ?_⟩
    · exact Bool.eq_false_iff.mpr fun hi => hopen.2 ((removed.includes_iff x.key x.seq).mp hi)
    · rw [removed.includes_iff]
      by_contra hg
      have hpast := (hL.sees_iff x y).mp hxy
      exact hne (hleast y ⟨(mem_history hL).mpr ⟨Past.mem hL hpast hin, isIndexer_iff.mp hy⟩, hg⟩ hpast)
  · rw [isIndexer_iff]
    exact mem_confirmedPrefix_iff hL h.pinned hbase x

theorem driver_relayed : relayed.confirmedPrefix ∈ loop relayed.prefixStep (Clock.empty, []) ∧
    relayed.confirmedPrefix ≠ [] ∧ (∃ x ∈ relayed.confirmedView, x ∉ relayed.confirmedPrefix) ∧
    ∀ x, x ∈ relayed.confirmedPrefix ↔
      x ∈ relayed.confirmedView ∧ relayed.isIndexer x.key = true := by
  have h := built_relayed
  exact ⟨h.driver.2.1, by decide +kernel, by decide +kernel, h.driver.2.2.2.2.2 rfl⟩

/-! ### The order of a base -/

/-- The confirmed view starts with the base. -/
theorem base_prefix_confirmedView : L.base <+: L.confirmedView := by
  rw [confirmedView]
  split_ifs
  · exact List.prefix_rfl
  · exact prefix_viewLoop _ _ _ _

theorem depsFirst_front {deps : NodeId K → ExtTreeSet (NodeId K)} {a l : List (NodeId K)}
    (h : Graph.DepsFirst deps l) (ha : a <+: l) : Graph.DepsFirst deps a := by
  obtain ⟨b, rfl⟩ := ha
  exact h.of_append

/-- **The lists of a reconfigured linearizer are causal if and only if its base is**:
the checks of `reconfigure_at` do not look at the order. -/
theorem reconfigureAt_causal_iff (h : Built L) {base : List (NodeId K)} {indexers : List K}
    (hr : L.reconfigureAt base indexers = (L', .ok ())) :
    (Graph.DepsFirst L'.depsOf L'.finalized ∧ Graph.DepsFirst L'.depsOf L'.order) ↔
      Graph.DepsFirst L.depsOf base := by
  obtain ⟨⟨-, hnodup, hsub, -⟩, he⟩ := reconfigureAt_eq_ok.mp hr
  have hdeps : L'.depsOf = L.depsOf := by rw [he]; rfl
  have hbase : L'.base = base := by rw [he]
  have hL' : L'.WF := he ▸ h.keeps.1.pin base _ _
  constructor
  · intro hcausal
    have hpre : base <+: L'.finalized := hbase ▸ base_prefix_confirmedView
    exact hdeps ▸ depsFirst_front hcausal.1 hpre
  · intro hfirst
    have hview : L'.View L'.base := by
      rw [hbase]
      exact ⟨hnodup, fun x hx => by rw [he]; exact hsub x hx, hdeps ▸ hfirst⟩
    exact ⟨(confirmedView_spec hL' hview).1.first, (order_view hL' hview).1.first⟩

/-- Two nodes, the second on the first. -/
def answered : Linearizer ℕ := ((withIndexers [0]).add ⟨0, 0⟩ []).1.add ⟨1, 0⟩ [⟨0, 0⟩] |>.1

theorem answered_built : Built answered := ((Built.withIndexers [0]).add _ _).add _ _

theorem eq_ok_of_isOk {α ε : Type} : ∀ {p : α × Except ε Unit}, p.2.isOk = true → p = (p.1, .ok ())
  | (_, .ok _), _ => rfl

theorem reconfigureAt_causal_answered :
    answered.reconfigureAt [⟨0, 0⟩, ⟨1, 0⟩] [1] =
      ((answered.reconfigureAt [⟨0, 0⟩, ⟨1, 0⟩] [1]).1, .ok ()) ∧
    Graph.DepsFirst (answered.reconfigureAt [⟨0, 0⟩, ⟨1, 0⟩] [1]).1.depsOf
      (answered.reconfigureAt [⟨0, 0⟩, ⟨1, 0⟩] [1]).1.order := by
  have hr : answered.reconfigureAt [⟨0, 0⟩, ⟨1, 0⟩] [1] = (_, .ok ()) :=
    eq_ok_of_isOk (by decide +kernel)
  have hplain : answered.plainOrder = [⟨0, 0⟩, ⟨1, 0⟩] := by decide +kernel
  have hfirst := (plainOrder_spec answered_built.keeps.1).2.2
  rw [hplain] at hfirst
  exact ⟨hr, ((reconfigureAt_causal_iff answered_built hr).mpr hfirst).2⟩

/-- The same base, the answer first: it is accepted, and the answer is finalized before
what it answers. -/
theorem reversed_base_accepted : Built answered ∧
    answered.reconfigureAt [⟨1, 0⟩, ⟨0, 0⟩] [1] =
      ((answered.reconfigureAt [⟨1, 0⟩, ⟨0, 0⟩] [1]).1, .ok ()) ∧
    ¬ Graph.DepsFirst (answered.reconfigureAt [⟨1, 0⟩, ⟨0, 0⟩] [1]).1.depsOf
      (answered.reconfigureAt [⟨1, 0⟩, ⟨0, 0⟩] [1]).1.finalized ∧
    ¬ Graph.DepsFirst (answered.reconfigureAt [⟨1, 0⟩, ⟨0, 0⟩] [1]).1.depsOf
      (answered.reconfigureAt [⟨1, 0⟩, ⟨0, 0⟩] [1]).1.order := by
  have hdep : (⟨0, 0⟩ : NodeId ℕ) ∈
      (answered.reconfigureAt [⟨1, 0⟩, ⟨0, 0⟩] [1]).1.depsOf ⟨1, 0⟩ :=
    ExtTreeSet.contains_iff_mem.mp (by decide +kernel)
  refine ⟨answered_built, eq_ok_of_isOk (by decide +kernel), fun h => ?_, fun h => ?_⟩
  · exact List.not_mem_nil (h [] ⟨1, 0⟩ [⟨0, 0⟩] (by decide +kernel) _ hdep)
  · exact List.not_mem_nil (h [] ⟨1, 0⟩ [⟨0, 0⟩] (by decide +kernel) _ hdep)

/-! ### Pinning what is confirmed -/

/-- The indexer nodes and what they see do not depend on the base. -/
theorem history_pin (hL : L.WF) (base : List (NodeId K)) (clock : Clock K) :
    history (hL.pin base clock L.indexers) = history hL := rfl

/-- A base of all that is finalized: nothing more is confirmed from it on. -/
theorem shiftBatch_pin (hL : L.WF) (hp : L.Pinned) {ix : ExtTreeSet K}
    (hix : L.indexers = some ix) :
    { L with
      base := L.finalized
      baseClock := raiseAll Clock.empty L.finalized }.shiftBatch
        (raiseAll Clock.empty L.finalized) = [] := by
  obtain ⟨removed, emitted, hd, hnil⟩ := driven_finalized hL hp hix
  have hgone := mem_gone_clockOf hL (hd.sub hp) (hd.closed hp)
  -- on the indexer nodes the clock of the list agrees with the one the driver ended with
  have hsame : ∀ x ∈ (history hL).nodes,
      x ∈ gone (raiseAll Clock.empty L.finalized) ↔ x ∈ gone removed := fun x hx =>
    (hgone x).trans (hd.mem_out_iff_gone hx)
  have hL' := hL.pin L.finalized (raiseAll Clock.empty L.finalized) L.indexers
  refine shiftBatch_eq_nil hL' ?_ hix ?_
  · intro x hx y hy hxg hxy
    rw [history_pin hL] at hx hy
    rw [hsame x hx] at hxg
    exact (hsame y hy).mpr (hd.lower x hx y hy hxg hxy)
  · rintro t ⟨ht, htR⟩ hc
    rw [history_pin hL] at ht hc
    have htR' : t ∉ gone removed := mt (hsame t ht).mpr htR
    have hc' := (History.confirmed_congr (fun x hx => Or.inl (hsame x hx)) htR htR').mp hc
    exact (shiftBatch_below hL hd.lower hix ⟨ht, htR'⟩ hc').1 hnil

/-- **Pinning everything confirmed changes nothing**, and the pinned list stays in front
whatever is added. -/
theorem Built.repin (h : Built L) {indexers : List K}
    (hix : L.indexers = some (ExtTreeSet.ofList indexers)) :
    ∃ P, L.reconfigure L.finalized.length indexers = (P, .ok ()) ∧
      P.finalized = L.finalized ∧ P.order = L.order ∧
      ∀ acc P', Adds P acc P' → L.finalized <+: P'.finalized := by
  have hL := h.keeps.1
  obtain ⟨removed, emitted, hd, -⟩ := driven_finalized hL h.pinned hix
  have hr : L.reconfigureAt L.finalized indexers = (_, .ok ()) := reconfigureAt_eq_ok.mpr
    ⟨⟨base_prefix_confirmedView, hd.nodup, hd.sub h.pinned, hd.closed h.pinned⟩, rfl⟩
  rw [← hix] at hr
  have hfin : { L with
      base := L.finalized
      baseClock := raiseAll Clock.empty L.finalized }.finalized = L.finalized := by
    rw [finalized_eq (L := { L with
      base := L.finalized
      baseClock := raiseAll Clock.empty L.finalized }) hix]
    exact viewLoop_of_nil (shiftBatch_pin hL h.pinned hix) _ _ _
  refine ⟨_, ?_, hfin, ?_, fun acc P' hadds => ?_⟩
  · rw [Linearizer.reconfigure, if_neg (by simp [finalized]), finalized, List.take_length]
    exact hr
  · rw [finalized] at hfin
    rw [order, hfin]
    rfl
  · have hb : P'.base = L.finalized := hadds.fixed.2.1
    exact hb ▸ base_prefix_confirmedView

theorem repin_relayed : ∃ P, relayed.finalized ≠ [] ∧
    relayed.reconfigure relayed.finalized.length [0, 1] = (P, .ok ()) ∧
    P.finalized = relayed.finalized ∧ P.order = relayed.order := by
  have h := built_relayed
  have hix : relayed.indexers = some (ExtTreeSet.ofList [0, 1]) := rfl
  obtain ⟨P, hr, hf, ho, -⟩ := h.repin hix
  exact ⟨P, by decide +kernel, hr, hf, ho⟩

end Linearizer
end HypercoreRs
