/-
# Only the indexers' nodes count

The consensus machine walks the whole DAG, but what it asks is always about nodes of
indexers: is one delivered, does one see another, how many of an indexer's nodes does it
see. Two linearizers that answer these alike (`Alike`), whatever else they hold, run the
machine alike: one lemma for each function of it, up to `confirmedPrefix`. The loops are
run on a fuel that counts all nodes, so it differs between the two; with enough of it
the loops end by themselves (`Alike.yieldNext`, `Alike.prefixLoop`).
-/
import HypercoreRs.Autobase.Finality

open Std

namespace HypercoreRs
namespace Linearizer

variable {K : Type} [LinearOrder K] {L M : Linearizer K} {ix : ExtTreeSet K}

/-- `L` and `M` have the indexers `ix` and answer alike about their nodes. -/
structure Alike (L M : Linearizer K) (ix : ExtTreeSet K) : Prop where
  left : L.indexers = some ix
  right : M.indexers = some ix
  contains : ∀ n : NodeId K, n.key ∈ ix → L.contains n = M.contains n
  sees : ∀ a b : NodeId K, a.key ∈ ix → b.key ∈ ix → L.sees a b = M.sees a b
  clock : ∀ n : NodeId K, n.key ∈ ix → ∀ k ∈ ix, (L.clock n).get k = (M.clock n).get k
  length : ∀ k ∈ ix, L.indexerLength k = M.indexerLength k

theorem indexerList_of (hix : L.indexers = some ix) : L.indexerList = ix.toList := by
  rw [indexerList, hix]
  rfl

theorem isIndexer_of (hix : L.indexers = some ix) (k : K) : L.isIndexer k = ix.contains k := by
  rw [isIndexer, hix]
  rfl

/-- Well formed linearizers that hold the same indexer nodes, under the same `sees`. -/
theorem alike_of (hL : L.WF) (hM : M.WF) (hl : L.indexers = some ix) (hr : M.indexers = some ix)
    (hcontains : ∀ n : NodeId K, n.key ∈ ix → (n ∈ L.deps ↔ n ∈ M.deps))
    (hsees : ∀ a b : NodeId K, a.key ∈ ix → b.key ∈ ix → a ∈ L.deps → b ∈ L.deps →
      L.sees a b = M.sees a b) : Alike L M ix := by
  have hpast : ∀ a b : NodeId K, a.key ∈ ix → b.key ∈ ix → (L.Past a b ↔ M.Past a b) := by
    intro a b ha hb
    by_cases had : a ∈ L.deps
    · by_cases hbd : b ∈ L.deps
      · rw [← hL.sees_iff, ← hM.sees_iff, hsees a b ha hb had hbd]
      · have hbd' : b ∉ M.deps := (hcontains b hb).not.mp hbd
        have had' : a ∈ M.deps := (hcontains a ha).mp had
        exact ⟨fun h => absurd (h.mem hL had) hbd, fun h => absurd (h.mem hM had') hbd'⟩
    · have had' : a ∉ M.deps := (hcontains a ha).not.mp had
      constructor
      · intro h
        rw [h.eq_of_not_mem had]
        exact Relation.ReflTransGen.refl
      · intro h
        rw [h.eq_of_not_mem had']
        exact Relation.ReflTransGen.refl
  refine ⟨hl, hr, fun n hn => ?_, fun a b ha hb => ?_, fun n hn k hk => ?_, fun k hk => ?_⟩
  · rw [contains_eq, contains_eq, decide_eq_decide]
    exact hcontains n hn
  · rw [Bool.eq_iff_iff, hL.sees_iff, hM.sees_iff]
    exact hpast a b ha hb
  · by_cases hnd : n ∈ L.deps
    · refine eq_of_forall_lt_iff fun s => ?_
      rw [hL.lt_clock_iff hnd, hM.lt_clock_iff ((hcontains n hn).mp hnd)]
      exact hpast n ⟨k, s⟩ hn hk
    · rw [clock_of_not_mem hnd, clock_of_not_mem ((hcontains n hn).not.mp hnd)]
  · refine eq_of_forall_lt_iff fun s => ?_
    have h₁ := hL.seq ⟨k, s⟩
    have h₂ := hM.seq ⟨k, s⟩
    rw [indexerLength, indexerLength, ← h₁, ← h₂]
    exact hcontains ⟨k, s⟩ hk

namespace Alike

variable (h : Alike L M ix) (removed : Clock K) {n t p : NodeId K}
include h

theorem indexerList : L.indexerList = M.indexerList := by
  rw [indexerList_of h.left, indexerList_of h.right]

theorem mem_indexerList {k : K} (hk : k ∈ M.indexerList) : k ∈ ix := by
  rwa [indexerList_of h.right, ExtTreeSet.mem_toList] at hk

theorem isIndexer (k : K) : L.isIndexer k = M.isIndexer k := by
  rw [isIndexer_of h.left, isIndexer_of h.right]

theorem majority : L.majority = M.majority := by
  rw [Linearizer.majority, Linearizer.majority, h.left, h.right]

/-! ### The predicates -/

theorem mergeHeads (hn : n.key ∈ ix) : L.mergeHeads n removed = M.mergeHeads n removed := by
  unfold Linearizer.mergeHeads
  rw [h.indexerList]
  refine List.filterMap_congr fun idx hidx => ?_
  have hk := h.mem_indexerList hidx
  rw [h.clock n hn idx hk]
  simp only [h.contains ⟨idx, _⟩ hk]

theorem key_mergeHeads {x : NodeId K} (hx : x ∈ M.mergeHeads n removed) : x.key ∈ ix := by
  unfold Linearizer.mergeHeads at hx
  obtain ⟨idx, hidx, hsome⟩ := List.mem_filterMap.mp hx
  have hk := h.mem_indexerList hidx
  dsimp only at hsome
  generalize 1 + (if idx = n.key then 1 else 0) = back at hsome
  split_ifs at hsome
  rw [← Option.some.inj hsome]
  exact hk

theorem isMerge (n : NodeId K) : L.isMerge n removed = M.isMerge n removed := by
  unfold Linearizer.isMerge
  rw [h.isIndexer]
  split_ifs with hi
  · have hn : n.key ∈ ix := by rwa [isIndexer_of h.right, ExtTreeSet.contains_iff_mem] at hi
    rw [h.mergeHeads removed hn]
    dsimp only
    congr 2
    refine List.countP_congr fun x hx => ?_
    have hxk := h.key_mergeHeads removed hx
    simp only [Bool.not_eq_true', ← Bool.not_eq_true, List.any_eq_true, Bool.and_eq_true]
    refine not_congr (exists_congr fun o => and_congr_right fun ho => and_congr_right fun _ => ?_)
    rw [h.sees o x (h.key_mergeHeads removed ho) hxk]
  · rfl

theorem tailScan {g : NodeId K} (hg : g.key ∈ ix) : ∀ ts : List (NodeId K), (∀ t ∈ ts, t.key ∈ ix) →
    L.tailScan g ts = M.tailScan g ts
  | [], _ => rfl
  | t :: ts, hts => by
    have ht := hts t List.mem_cons_self
    have ih := tailScan hg ts fun t' ht' => hts t' (List.mem_cons_of_mem t ht')
    rw [Linearizer.tailScan, Linearizer.tailScan, h.sees g t hg ht, h.sees t g ht hg, ih]

variable {idx : K}

theorem tailStep {ts : List (NodeId K)} (hts : ∀ t ∈ ts, t.key ∈ ix) (hidx : idx ∈ ix) :
    L.tailStep removed ts idx = M.tailStep removed ts idx ∧ ∀ t ∈ M.tailStep removed ts idx, t.key ∈ ix := by
  have hkeep : ∀ (q : NodeId K → Bool), ∀ t ∈ ts.filter q, t.key ∈ ix :=
    fun q t ht => hts t (List.mem_of_mem_filter ht)
  unfold Linearizer.tailStep
  dsimp only
  rw [h.contains ⟨idx, removed.get idx⟩ hidx, h.tailScan hidx ts hts]
  refine ⟨rfl, ?_⟩
  split_ifs
  · exact hts
  · intro t ht
    rcases List.mem_append.mp ht with ht | ht
    · exact hkeep _ t ht
    · rw [List.mem_singleton.mp ht]
      exact hidx
  · exact hkeep _

theorem indexerTails : L.indexerTails removed = M.indexerTails removed := by
  have hfold : ∀ (idxs : List K) (ts : List (NodeId K)), (∀ k ∈ idxs, k ∈ ix) → (∀ t ∈ ts, t.key ∈ ix) →
      idxs.foldl (L.tailStep removed) ts = idxs.foldl (M.tailStep removed) ts := by
    intro idxs
    induction idxs with
    | nil => intros; rfl
    | cons k rest ih =>
      intro ts hks hts
      obtain ⟨hstep, hkeys⟩ := h.tailStep removed hts (hks k List.mem_cons_self)
      rw [List.foldl_cons, List.foldl_cons, hstep]
      exact ih _ (fun k' hk' => hks k' (List.mem_cons_of_mem k hk')) hkeys
  unfold Linearizer.indexerTails
  rw [h.indexerList, hfold _ _ (fun k hk => h.mem_indexerList hk) (by simp)]

theorem key_indexerTails (ht : t ∈ M.indexerTails removed) : t.key ∈ ix :=
  h.mem_indexerList (mem_indexerTails ht).1

/-- What a parent knows of others than indexers does not count. -/
theorem newerAt (ht : t.key ∈ ix) (hp : p.key ∈ ix) (k : K) :
    L.newerAt t (L.clock t) removed (k, (L.clock p).get k) =
      M.newerAt t (M.clock t) removed (k, (M.clock p).get k) := by
  unfold Linearizer.newerAt
  rw [h.left, h.right]
  by_cases hk : k ∈ ix
  · simp only [h.clock t ht k hk, h.clock p hp k hk, h.contains ⟨k, _⟩ hk, h.sees ⟨k, _⟩ t hk ht]
  · have hnot : ix.contains k = false :=
      Bool.eq_false_iff.mpr fun hc => hk (ExtTreeSet.contains_iff_mem.mp hc)
    simp [hnot]

theorem strictlyNewer (ht : t.key ∈ ix) (hp : p.key ∈ ix) :
    L.strictlyNewer t p removed = M.strictlyNewer t p removed := by
  unfold Linearizer.strictlyNewer
  rw [h.sees p t hp ht]
  congr 1
  rw [Bool.eq_iff_iff, all_iter_iff _ _ fun k => by simp [Linearizer.newerAt],
    all_iter_iff _ _ fun k => by simp [Linearizer.newerAt]]
  simp only [h.newerAt removed ht hp]

theorem acks (ht : t.key ∈ ix) : L.acks t removed = M.acks t removed := by
  unfold Linearizer.acks
  rw [h.isIndexer, h.indexerList]
  congr 1
  refine List.filterMap_congr fun idx hidx => ?_
  have hk := h.mem_indexerList hidx
  rw [h.clock t ht idx hk]
  dsimp only
  rw [h.contains ⟨idx, _⟩ hk, h.sees ⟨idx, _⟩ t hk ht, h.strictlyNewer (p := ⟨idx, _⟩) removed ht hk]

theorem key_acks {a : NodeId K} (ha : a ∈ M.acks t removed) : a.key ∈ ix := by
  unfold Linearizer.acks at ha
  rcases List.mem_append.mp ha with ha | ha
  · split_ifs at ha with hi
    · rw [List.mem_singleton.mp ha]
      rwa [isIndexer_of h.right, ExtTreeSet.contains_iff_mem] at hi
    · cases ha
  · obtain ⟨idx, hidx, hsome⟩ := List.mem_filterMap.mp ha
    have hk := h.mem_indexerList hidx
    dsimp only at hsome
    split_ifs at hsome
    rw [← Option.some.inj hsome]
    exact hk

variable {acks : List (NodeId K)}

theorem ackCount (hacks : ∀ a ∈ acks, a.key ∈ ix) (hn : n.key ∈ ix) :
    L.ackCount acks n = M.ackCount acks n :=
  List.countP_congr fun a ha => by rw [h.sees n a hn (hacks a ha)]

theorem confirmsLoop (hacks : ∀ a ∈ acks, a.key ∈ ix) (hidx : idx ∈ ix) (ht : t.key ∈ ix) (m : ℕ) :
    ∀ (i : ℕ) (newer : Bool),
    L.confirmsLoop m idx t acks removed i newer = M.confirmsLoop m idx t acks removed i newer
  | 0, _ => rfl
  | i + 1, newer => by
    rw [Linearizer.confirmsLoop, Linearizer.confirmsLoop, h.contains ⟨idx, i⟩ hidx,
      h.ackCount (n := ⟨idx, i⟩) hacks hidx, h.strictlyNewer (p := ⟨idx, i⟩) removed ht hidx,
      confirmsLoop hacks hidx ht m i false]

theorem confirms (hacks : ∀ a ∈ acks, a.key ∈ ix) (hidx : idx ∈ ix) (ht : t.key ∈ ix) (length : ℕ) :
    L.confirms idx t acks length removed = M.confirms idx t acks length removed := by
  unfold Linearizer.confirms
  rw [h.majority]
  cases M.majority with
  | none => rfl
  | some m =>
    dsimp only
    rw [h.confirmsLoop removed hacks hidx ht]

theorem ackedAtLoop (hp : p.key ∈ ix) (m : ℕ) :
    ∀ (acks : List (NodeId K)) (seen : ℕ), (∀ a ∈ acks, a.key ∈ ix) →
    L.ackedAtLoop m p acks seen = M.ackedAtLoop m p acks seen
  | [], _, _ => rfl
  | a :: acks, seen, hacks => by
    have ih := fun seen => ackedAtLoop hp m acks seen fun b hb => hacks b (List.mem_cons_of_mem a hb)
    rw [Linearizer.ackedAtLoop, Linearizer.ackedAtLoop, h.sees p a hp (hacks a List.mem_cons_self), ih, ih]

theorem ackedAt (hacks : ∀ a ∈ acks, a.key ∈ ix) (hp : p.key ∈ ix) :
    L.ackedAt acks p = M.ackedAt acks p := by
  unfold Linearizer.ackedAt
  rw [h.majority]
  cases M.majority with
  | none => rfl
  | some m => exact h.ackedAtLoop hp m acks 0 hacks

theorem mayConfirm (ht : t.key ∈ ix) (hp : p.key ∈ ix) (hidx : idx ∈ ix) :
    L.mayConfirm t p removed idx = M.mayConfirm t p removed idx := by
  unfold Linearizer.mayConfirm Clock.includes
  rw [h.clock p hp idx hidx, h.clock t ht idx hidx]
  dsimp only
  rw [h.contains ⟨idx, _⟩ hidx, h.strictlyNewer (p := ⟨idx, _⟩) removed ht hidx]

theorem potentialLoop (ht : t.key ∈ ix) (hp : p.key ∈ ix) (m : ℕ) (confs : ExtTreeSet K) :
    ∀ (idxs : List K) (potential : ℕ), (∀ k ∈ idxs, k ∈ ix) →
    L.potentialLoop m t p confs removed idxs potential = M.potentialLoop m t p confs removed idxs potential
  | [], _, _ => rfl
  | k :: rest, potential, hks => by
    have ih := fun potential => potentialLoop ht hp m confs rest potential
      fun k' hk' => hks k' (List.mem_cons_of_mem k hk')
    rw [Linearizer.potentialLoop, Linearizer.potentialLoop,
      h.mayConfirm removed ht hp (hks k List.mem_cons_self), ih, ih]

theorem isConfirmableAt (hacks : ∀ a ∈ acks, a.key ∈ ix) (ht : t.key ∈ ix) (hp : p.key ∈ ix)
    (confs : ExtTreeSet K) :
    L.isConfirmableAt t p acks confs removed = M.isConfirmableAt t p acks confs removed := by
  unfold Linearizer.isConfirmableAt
  rw [h.majority]
  cases M.majority with
  | none => rfl
  | some m =>
    dsimp only
    rw [h.ackedAt hacks hp, h.indexerList,
      h.potentialLoop removed ht hp m confs _ _ fun k hk => h.mem_indexerList hk]

variable {parent : Option (NodeId K)}

theorem confirmLength (hparent : ∀ q ∈ parent, q.key ∈ ix) (hidx : idx ∈ ix) :
    L.confirmLength parent idx = M.confirmLength parent idx := by
  unfold Linearizer.confirmLength
  cases parent with
  | none => exact h.length idx hidx
  | some q =>
    dsimp only
    rw [h.clock q (hparent q rfl) idx hidx]

theorem confirmLoop (hacks : ∀ a ∈ acks, a.key ∈ ix) (ht : t.key ∈ ix)
    (hparent : ∀ q ∈ parent, q.key ∈ ix) (m : ℕ) :
    ∀ (idxs : List K) (confs : ExtTreeSet K) (allNewer : Bool), (∀ k ∈ idxs, k ∈ ix) →
    L.confirmLoop m t parent acks removed idxs confs allNewer =
      M.confirmLoop m t parent acks removed idxs confs allNewer
  | [], _, _, _ => rfl
  | k :: rest, confs, allNewer, hks => by
    have hk := hks k List.mem_cons_self
    have ih := fun confs allNewer => confirmLoop hacks ht hparent m rest confs allNewer
      fun k' hk' => hks k' (List.mem_cons_of_mem k hk')
    rw [Linearizer.confirmLoop, Linearizer.confirmLoop, h.confirmLength hparent hk,
      h.confirms removed hacks hk ht]
    simp only [ih]

/-- A node is confirmed in the one as in the other. -/
theorem isConfirmed (ht : t.key ∈ ix) (hparent : ∀ q ∈ parent, q.key ∈ ix) :
    L.isConfirmed t parent removed = M.isConfirmed t parent removed := by
  have hacks : ∀ a ∈ M.acks t removed, a.key ∈ ix := fun a ha => h.key_acks removed ha
  unfold Linearizer.isConfirmed
  rw [h.majority]
  cases M.majority with
  | none => rfl
  | some m =>
    dsimp only
    rw [h.acks removed ht, h.indexerList,
      h.confirmLoop removed hacks ht hparent m _ _ _ fun k hk => h.mem_indexerList hk]
    cases parent with
    | none => rfl
    | some q => simp only [h.isConfirmableAt removed hacks ht (hparent q rfl)]

/-! ### The shifts -/

theorem mergeNodes : L.mergeNodes removed = M.mergeNodes removed := by
  have hsorted : ∀ N : Linearizer K, (N.mergeNodes removed).Pairwise fun a b => compare a b = .lt :=
    fun N => ExtTreeMap.ordered_keys.filter _
  have hnodup : ∀ N : Linearizer K, (N.mergeNodes removed).Nodup := fun N => ExtTreeMap.nodup_keys.filter _
  refine List.Perm.eq_of_pairwise (fun a b _ _ hab hba => ?_) (hsorted L) (hsorted M)
    ((List.perm_ext_iff_of_nodup (hnodup L) (hnodup M)).mpr fun x => ?_)
  · exact absurd (compare_lt_iff_lt.mp hab) (compare_lt_iff_lt.mp hba).asymm
  · unfold Linearizer.mergeNodes
    simp only [List.mem_filter, h.isMerge removed x, h.isIndexer, Graph.mem_keys]
    refine and_congr_left fun hx => ?_
    have hk : x.key ∈ ix := by
      rw [Bool.and_eq_true, Bool.and_eq_true, isIndexer_of h.right, ExtTreeSet.contains_iff_mem] at hx
      exact hx.1.1
    have hcontains := h.contains x hk
    rwa [contains_eq, contains_eq, decide_eq_decide] at hcontains

theorem key_mergeNodes (ht : t ∈ M.mergeNodes removed) : t.key ∈ ix := by
  have hx := (List.mem_filter.mp ht).2
  rw [Bool.and_eq_true, Bool.and_eq_true, isIndexer_of h.right, ExtTreeSet.contains_iff_mem] at hx
  exact hx.1.1

theorem tailsSeen (hn : n.key ∈ ix) :
    L.tailsSeen n (M.indexerTails removed) = M.tailsSeen n (M.indexerTails removed) :=
  List.filter_congr fun t ht => h.sees n t hn (h.key_indexerTails removed (ExtTreeSet.mem_toList.mp ht))

theorem tailsAndMergesSeen (hn : n.key ∈ ix) :
    L.tailsAndMergesSeen n (M.indexerTails removed) removed =
      M.tailsAndMergesSeen n (M.indexerTails removed) removed := by
  unfold Linearizer.tailsAndMergesSeen
  rw [h.mergeNodes, h.tailsSeen removed hn]
  refine List.foldl_ext _ _ _ fun all m hm => ?_
  rw [h.sees n m hn (h.key_mergeNodes removed hm)]

/-- A merge resolves alike with any two fuels that suffice. -/
theorem yieldNext (hM : M.WF) {rank rank' : NodeId K → ℕ}
    (hr : ∀ n, ∀ d ∈ L.depsOf n, rank d < rank n) (hr' : ∀ n, ∀ d ∈ M.depsOf n, rank' d < rank' n)
    (hL : L.WF) : ∀ (fuel fuel' : ℕ) (n : NodeId K), n.key ∈ ix →
    rank n < fuel → rank' n < fuel' →
    L.yieldNext (M.indexerTails removed) removed fuel n = M.yieldNext (M.indexerTails removed) removed fuel' n
  | 0, _, _, _, hf, _ => absurd hf (Nat.not_lt_zero _)
  | _ + 1, 0, _, _, _, hf => absurd hf (Nat.not_lt_zero _)
  | fuel + 1, fuel' + 1, n, hn, hf, hf' => by
    have hfind : ((M.tailsAndMergesSeen n (M.indexerTails removed) removed).find? fun t =>
        L.isConfirmed t (some n) removed) =
        (M.tailsAndMergesSeen n (M.indexerTails removed) removed).find? fun t =>
          M.isConfirmed t (some n) removed := by
      refine List.find?_congr fun t ht => h.isConfirmed removed ?_ fun q hq => Option.some.inj hq ▸ hn
      rcases (mem_tailsAndMergesSeen hM).mp ht with ⟨htail, -⟩ | ⟨hmerge, -⟩
      · exact h.key_indexerTails removed htail
      · exact h.key_mergeNodes removed hmerge
    rw [Linearizer.yieldNext, Linearizer.yieldNext, h.tailsAndMergesSeen removed hn, hfind,
      h.tailsSeen removed hn]
    split_ifs with htail
    · rfl
    · cases hnext : (M.tailsAndMergesSeen n (M.indexerTails removed) removed).find? fun t =>
          M.isConfirmed t (some n) removed with
      | none => rfl
      | some t =>
        have hin := (mem_tailsAndMergesSeen hM).mp (List.mem_of_find?_eq_some hnext)
        have ht : t.key ∈ ix ∧ M.Past n t ∧ t ≠ n := by
          rcases hin with ⟨hmem, hp⟩ | ⟨hmem, hne, hp⟩
          · refine ⟨h.key_indexerTails removed hmem, hp, fun he => htail ?_⟩
            rw [← he]
            exact ExtTreeSet.contains_iff_mem.mpr hmem
          · exact ⟨h.key_mergeNodes removed hmem, hp, hne⟩
        obtain ⟨hk, hp', hne⟩ := ht
        have hp : L.Past n t := by
          rw [← hL.sees_iff, h.sees n t hn hk, hM.sees_iff]
          exact hp'
        have h₁ := hp.rank_lt hr hne
        have h₂ := hp'.rank_lt hr' hne
        exact yieldNext hM hr hr' hL fuel fuel' t hk (by omega) (by omega)

/-- A shift yields the same nodes. -/
theorem shiftBatch (hL : L.WF) (hM : M.WF) : L.shiftBatch removed = M.shiftBatch removed := by
  obtain ⟨rank, hlt, hr⟩ := hL.ranked
  obtain ⟨rank', hlt', hr'⟩ := hM.ranked
  have htails : ((M.indexerTails removed).toList.find? fun t => L.isConfirmed t none removed) =
      (M.indexerTails removed).toList.find? fun t => M.isConfirmed t none removed :=
    List.find?_congr fun t ht => h.isConfirmed removed
      (h.key_indexerTails removed (ExtTreeSet.mem_toList.mp ht)) fun q hq => by cases hq
  have hmerges : ((M.mergeNodes removed).find? fun m => L.isConfirmed m none removed) =
      (M.mergeNodes removed).find? fun m => M.isConfirmed m none removed :=
    List.find?_congr fun t ht => h.isConfirmed removed (h.key_mergeNodes removed ht) fun q hq => by cases hq
  unfold Linearizer.shiftBatch
  rw [h.indexerTails, h.mergeNodes, hmerges]
  dsimp only
  rw [htails]
  cases (M.indexerTails removed).toList.find? fun t => M.isConfirmed t none removed with
  | some t => rfl
  | none =>
    cases hfind : (M.mergeNodes removed).find? fun m => M.isConfirmed m none removed with
    | none => rfl
    | some m =>
      have hmem := List.mem_of_find?_eq_some hfind
      have hk := h.key_mergeNodes removed hmem
      have hmd : m ∈ M.deps := ((mem_history hM).mp ((mem_mergeNodes hM).mp hmem).1.1).1
      have hmd' : m ∈ L.deps := by
        have hcontains := h.contains m hk
        rw [contains_eq, contains_eq, decide_eq_decide] at hcontains
        exact hcontains.mpr hmd
      have h₁ := hlt m hmd'
      have h₂ := hlt' m hmd
      exact h.yieldNext removed hM hr hr' hL _ _ m hk (by omega) (by omega)

/-- The loop of shifts yields the same nodes, with any two fuels that suffice. -/
theorem prefixLoop (hL : L.WF) (hM : M.WF) : ∀ (fuel fuel' : ℕ) (removed : Clock K) (out : List (NodeId K)),
    L.remaining removed < fuel → M.remaining removed < fuel' →
    L.prefixLoop fuel removed out = M.prefixLoop fuel' removed out
  | 0, _, _, _, hf, _ => absurd hf (Nat.not_lt_zero _)
  | _ + 1, 0, _, _, _, hf => absurd hf (Nat.not_lt_zero _)
  | fuel + 1, fuel' + 1, removed, out, hf, hf' => by
    have hbatch := h.shiftBatch removed hL hM
    rw [Linearizer.prefixLoop, Linearizer.prefixLoop, shiftOnce, shiftOnce, hbatch]
    dsimp only
    split_ifs with hempty
    · rfl
    · have hne : M.shiftBatch removed ≠ [] := fun he => hempty (by rw [he]; rfl)
      have h₁ := remaining_shift hM hne
      have h₂ : L.remaining (raiseAll removed (L.shiftBatch removed)) < L.remaining removed :=
        remaining_shift hL (hbatch ▸ hne)
      rw [hbatch] at h₂
      exact prefixLoop hL hM fuel fuel' _ _ (by omega) (by omega)

end Alike

/-! ### Every linearizer -/

/-- The linearizers there are: from `new` or `withIndexers`, by adds and reconfigurations,
accepted or refused. -/
inductive Built : Linearizer K → Prop
  | new : Built new
  | withIndexers (indexers : List K) : Built (withIndexers indexers)
  | add {L : Linearizer K} (node : NodeId K) (heads : List (NodeId K)) : Built L → Built (L.add node heads).1
  | reconfigure {L : Linearizer K} (through : ℕ) (indexers : List K) : Built L →
      Built (L.reconfigure through indexers).1
  | reconfigureAt {L : Linearizer K} (base : List (NodeId K)) (indexers : List K) : Built L →
      Built (L.reconfigureAt base indexers).1

theorem WF.pin (hL : L.WF) (base : List (NodeId K)) (clock : Clock K) (indexers : Option (ExtTreeSet K)) :
    { L with base := base, baseClock := clock, indexers := indexers }.WF :=
  ⟨hL.closed, hL.ranked, hL.keys, hL.rev, hL.seq, hL.pred, hL.pos⟩

/-- The clock of an empty base is empty. -/
def Unpinned (L : Linearizer K) : Prop := L.base = [] → L.baseClock = Clock.empty

theorem reconfigureAt_keeps (hL : L.WF) (hbase : L.Unpinned) (base : List (NodeId K)) (indexers : List K) :
    (L.reconfigureAt base indexers).1.WF ∧ (L.reconfigureAt base indexers).1.Unpinned := by
  rcases reconfigureAt_cases L base indexers with he | ⟨clock, he⟩
  · rw [he]
    exact ⟨hL, hbase⟩
  · refine ⟨by rw [he]; exact hL.pin _ _ _, fun hnil => ?_⟩
    have hnil' : base = [] := by rwa [he] at hnil
    subst hnil'
    unfold reconfigureAt at hnil ⊢
    rw [checkMembers]
    dsimp only
    rw [checkClosed]
    split_ifs with hshrinks
    · rw [if_pos hshrinks] at hnil
      exact hbase hnil
    · rfl

theorem Built.keeps (h : Built L) : L.WF ∧ L.Unpinned := by
  induction h with
  | new => exact ⟨wf_new, fun _ => rfl⟩
  | withIndexers indexers => exact ⟨(valid_withIndexers indexers).wf, fun _ => rfl⟩
  | @add L node heads _ ih =>
    obtain ⟨-, hbase, hclock⟩ := add_fixed L node heads
    refine ⟨ih.1.add node heads, ?_⟩
    unfold Unpinned
    rw [hbase, hclock]
    exact ih.2
  | @reconfigure L through indexers _ ih =>
    unfold Linearizer.reconfigure
    dsimp only
    split_ifs
    · exact ih
    · exact reconfigureAt_keeps ih.1 ih.2 _ indexers
  | @reconfigureAt L base indexers _ ih => exact reconfigureAt_keeps ih.1 ih.2 base indexers

/-- Linearizers without a pinned base that have the same indexers, hold the same nodes of
them and see alike among these confirm the same sequence, whatever else they hold. -/
theorem confirmedPrefix_indexers_only (hL : Built L) (hM : Built M) (hix : L.indexers = M.indexers)
    (hbase : L.base = []) (hbase' : M.base = [])
    (hnodes : ∀ n : NodeId K, L.isIndexer n.key = true → L.contains n = M.contains n)
    (hsees : ∀ a b : NodeId K, L.isIndexer a.key = true → L.isIndexer b.key = true → L.contains a = true →
      L.contains b = true → L.sees a b = M.sees a b) : L.confirmedPrefix = M.confirmedPrefix := by
  obtain ⟨hwf, hclock⟩ := hL.keeps
  obtain ⟨hwf', hclock'⟩ := hM.keeps
  have hmajority : L.majority = M.majority := by rw [majority, majority, hix]
  unfold confirmedPrefix
  rw [hbase, hbase', hclock hbase, hclock' hbase', hmajority]
  split_ifs with hnone
  · rfl
  · obtain ⟨ix, hone⟩ : ∃ ix, L.indexers = some ix := by
      rw [← hmajority, majority, Option.isNone_map, Option.isNone_iff_eq_none] at hnone
      exact Option.ne_none_iff_exists'.mp hnone
    have hkey : ∀ {k : K}, k ∈ ix → L.isIndexer k = true := fun hk => by
      rw [isIndexer_of hone, ExtTreeSet.contains_iff_mem]
      exact hk
    have halike : Alike L M ix := by
      refine alike_of hwf hwf' hone (hix ▸ hone) (fun n hn => ?_) fun a b ha hb had hbd => ?_
      · have hcontains := hnodes n (hkey hn)
        rwa [contains_eq, contains_eq, decide_eq_decide] at hcontains
      · refine hsees a b (hkey ha) (hkey hb) ?_ ?_
        · rwa [contains_eq, decide_eq_true_iff]
        · rwa [contains_eq, decide_eq_true_iff]
    have h₁ := remaining_le (L := L) Clock.empty
    have h₂ := remaining_le (L := M) Clock.empty
    exact halike.prefixLoop hwf hwf' _ _ _ _ (by omega) (by omega)

/-- Two indexers that answer each other. -/
def direct : Linearizer ℕ :=
  (((withIndexers [0, 1]).add ⟨0, 0⟩ []).1.add ⟨1, 0⟩ [⟨0, 0⟩]).1.add ⟨0, 1⟩ [⟨1, 0⟩] |>.1

/-- The same two, where the answer goes through a plain writer that goes on alone. -/
def relayed : Linearizer ℕ :=
  (((((withIndexers [0, 1]).add ⟨0, 0⟩ []).1.add ⟨2, 0⟩ [⟨0, 0⟩]).1.add ⟨1, 0⟩ [⟨2, 0⟩]).1.add
    ⟨0, 1⟩ [⟨1, 0⟩]).1.add ⟨2, 1⟩ [⟨0, 1⟩] |>.1

theorem built_relayed : Built relayed :=
  (((((Built.withIndexers [0, 1]).add _ _).add _ _).add _ _).add _ _).add _ _

theorem confirmedPrefix_indexers_only_relayed :
    direct.confirmedPrefix = relayed.confirmedPrefix ∧ direct.confirmedPrefix ≠ [] := by
  have hkeys : (direct.deps.keys.filter fun n => direct.isIndexer n.key) =
      relayed.deps.keys.filter fun n => direct.isIndexer n.key := by decide +kernel
  have hsees : ∀ a ∈ direct.deps.keys, ∀ b ∈ direct.deps.keys, direct.sees a b = relayed.sees a b := by
    decide +kernel
  refine ⟨confirmedPrefix_indexers_only ?_ ?_ rfl rfl rfl (fun n hn => ?_) fun a b _ _ ha hb => ?_,
    by decide +kernel⟩
  · exact (((Built.withIndexers [0, 1]).add _ _).add _ _).add _ _
  · exact built_relayed
  · have hmem : n ∈ direct.deps.keys.filter (fun n => direct.isIndexer n.key) ↔
        n ∈ relayed.deps.keys.filter fun n => direct.isIndexer n.key := by rw [hkeys]
    rw [List.mem_filter, List.mem_filter, Graph.mem_keys, Graph.mem_keys] at hmem
    rw [contains_eq, contains_eq, decide_eq_decide]
    exact ⟨fun h => (hmem.mp ⟨h, hn⟩).1, fun h => (hmem.mpr ⟨h, hn⟩).1⟩
  · rw [contains_eq, decide_eq_true_iff, ← Graph.mem_keys] at ha hb
    exact hsees a ha b hb

end Linearizer
end HypercoreRs
