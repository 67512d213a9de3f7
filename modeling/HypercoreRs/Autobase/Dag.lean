/-
# The causal DAG of a linearizer

What `add` keeps (`WF`): dependencies are delivered nodes, the reverse edges are
exactly the dependencies turned round, a writer's nodes are its first `nextSeq`
ones and each depends on the one before, and there is a rank that falls along
dependencies. Over such a DAG `sees` is reachability (`sees_iff`) and the clock
of a node counts, per writer, the nodes it sees (`lt_clock_iff`).
-/
import HypercoreRs.Autobase.Linearizer

open Std

namespace HypercoreRs

namespace Clock

variable {K : Type} [LinearOrder K]

theorem get_empty (k : K) : (empty : Clock K).get k = 0 := by simp [empty, get]

theorem get_raise (c : Clock K) (key k : K) (len : ℕ) :
    (c.raise key len).get k = if k = key then max (c.get key) len else c.get k := by
  have hm : (if c.get key < len then len else c.get key) = max (c.get key) len := by
    split_ifs <;> omega
  show (c.lengths.insert key (if c.get key < len then len else c.get key)).getD k 0 = _
  rw [hm, Graph.getD_insert]
  rfl

theorem includes_iff (c : Clock K) (k : K) (s : ℕ) : c.includes k (s + 1) = true ↔ s < c.get k := by
  simp [includes]

end Clock

namespace Linearizer

variable {K : Type} [LinearOrder K] {L : Linearizer K}

theorem contains_eq (L : Linearizer K) (n : NodeId K) : L.contains n = decide (n ∈ L.deps) := by
  rw [contains, Bool.eq_iff_iff]
  simp

/-- The invariant of the DAG part of a linearizer. -/
structure WF (L : Linearizer K) : Prop where
  closed : ∀ n, ∀ d ∈ L.depsOf n, d ∈ L.deps
  /-- Nodes are ranked by their arrival, below the number of nodes. -/
  ranked : ∃ rank : NodeId K → ℕ, (∀ n ∈ L.deps, rank n < L.deps.size) ∧
    ∀ n, ∀ d ∈ L.depsOf n, rank d < rank n
  keys : ∀ n, n ∈ L.dependents ↔ n ∈ L.deps
  rev : ∀ n c, c ∈ L.dependents.getD n ∅ ↔ n ∈ L.depsOf c
  seq : ∀ n, n ∈ L.deps ↔ n.seq < L.nextSeq.getD n.key 0
  pred : ∀ n ∈ L.deps, 0 < n.seq → ⟨n.key, n.seq - 1⟩ ∈ L.depsOf n
  pos : ∀ k : K, L.nextSeq[k]? ≠ some 0

/-! ### Adding a node -/

variable {node : NodeId K} {heads : List (NodeId K)}

/-- When `add` accepts, and what it then returns. -/
theorem add_eq_ok {L' : Linearizer K} :
    L.add node heads = (L', .ok ()) ↔
      node ∉ L.deps ∧ node.seq = L.nextSeq.getD node.key 0 ∧ (∀ h ∈ heads, h ∈ L.deps) ∧
      L.attach node (depSet node heads) = L' := by
  unfold add
  by_cases hd : node ∈ L.deps
  · simp [hd]
  · by_cases hs : node.seq = L.nextSeq.getD node.key 0
    · cases hf : heads.find? fun h => !L.deps.contains h with
      | none =>
        have hall : ∀ h ∈ heads, h ∈ L.deps := by simpa using hf
        simp only [ExtTreeMap.contains_iff_mem, hd, hs, if_false, ne_eq, not_true_eq_false,
          Prod.mk.injEq, and_true, not_false_eq_true, true_and]
        exact ⟨fun h => ⟨hall, h⟩, fun h => h.2⟩
      | some h =>
        have hm := List.mem_of_find?_eq_some hf
        have hp := List.find?_some hf
        have hn : ¬ ∀ h ∈ heads, h ∈ L.deps := fun hall => by
          rw [ExtTreeMap.contains_iff_mem.mpr (hall h hm)] at hp
          simp at hp
        simp [hd, hs, hn]
    · simp [hd, hs]

/-- A refused `add` changes nothing. -/
theorem add_eq_error {e : AddError K} (h : (L.add node heads).2 = .error e) : (L.add node heads).1 = L := by
  unfold add at h ⊢
  dsimp only at h ⊢
  split_ifs at h ⊢
  · rfl
  · rfl
  · split at h
    · rfl
    · cases h

theorem foldl_dependents (node : NodeId K) : ∀ (ds : List (NodeId K))
    (m : ExtTreeMap (NodeId K) (ExtTreeSet (NodeId K))),
    (∀ n, n ∈ ds.foldl (fun m d => m.insert d ((m.getD d ∅).insert node)) m ↔ n ∈ m ∨ n ∈ ds) ∧
    ∀ n c, c ∈ (ds.foldl (fun m d => m.insert d ((m.getD d ∅).insert node)) m).getD n ∅ ↔
      c ∈ m.getD n ∅ ∨ (n ∈ ds ∧ c = node)
  | [], m => by simp
  | d :: ds, m => by
    obtain ⟨h1, h2⟩ := foldl_dependents node ds (m.insert d ((m.getD d ∅).insert node))
    simp only [List.foldl_cons, h1, h2, Graph.getD_insert]
    refine ⟨fun n => ?_, fun n c => ?_⟩
    · simp only [Graph.mem_insert, List.mem_cons]
      tauto
    · by_cases hn : n = d
      · subst hn
        simp only [if_true, Graph.mem_insert_set, List.mem_cons, true_or, true_and]
        tauto
      · simp [hn]

theorem mem_depSet {node d : NodeId K} :
    d ∈ depSet node heads ↔
      d ≠ node ∧ (d ∈ heads ∨ (0 < node.seq ∧ d = ⟨node.key, node.seq - 1⟩)) := by
  unfold depSet
  split_ifs with h
  · simp only [Graph.mem_erase_set, Graph.mem_insert_set, Graph.mem_ofList, h, true_and]
    tauto
  · simp only [Graph.mem_erase_set, Graph.mem_ofList, h, false_and, or_false]

theorem depsOf_attach (node n : NodeId K) (ds : ExtTreeSet (NodeId K)) :
    (L.attach node ds).depsOf n = if n = node then ds else L.depsOf n := by
  simp only [depsOf, attach, Graph.getD_insert]

variable {ds : ExtTreeSet (NodeId K)}

theorem mem_attach {node n : NodeId K} : n ∈ (L.attach node ds).deps ↔ n = node ∨ n ∈ L.deps := by
  simp only [attach, Graph.mem_insert]

theorem nextSeq_attach (node : NodeId K) (ds : ExtTreeSet (NodeId K)) (k : K) :
    (L.attach node ds).nextSeq.getD k 0 =
      if k = node.key then node.seq + 1 else L.nextSeq.getD k 0 := by
  simp only [attach, Graph.getD_insert]

variable {n : NodeId K}

theorem depsOf_eq_empty (h : n ∉ L.deps) : L.depsOf n = ∅ := by
  simp [depsOf, ExtTreeMap.getD_eq_fallback h]

theorem getElem?_deps (h : n ∈ L.deps) : L.deps[n]? = some (L.depsOf n) :=
  ExtTreeMap.getElem?_eq_some_getD h

theorem WF.mem_of_depsOf {n d : NodeId K} (h : d ∈ L.depsOf n) : n ∈ L.deps := by
  by_contra hn
  rw [depsOf_eq_empty hn] at h
  simp at h

theorem dependents_attach (n c : NodeId K) :
    c ∈ (L.attach node ds).dependents.getD n ∅ ↔
      c ∈ L.dependents.getD n ∅ ∨ (n ∈ ds ∧ c = node) := by
  have h := (foldl_dependents node ds.toList L.dependents).2
  simp only [attach, ExtTreeSet.foldl_eq_foldl_toList, Graph.getD_insert]
  split_ifs with hn
  · rw [hn, h node c, ExtTreeSet.mem_toList]
  · rw [h n c, ExtTreeSet.mem_toList]

theorem mem_dependents_attach {node n : NodeId K} :
    n ∈ (L.attach node ds).dependents ↔ n = node ∨ n ∈ L.dependents ∨ n ∈ ds := by
  have h := (foldl_dependents node ds.toList L.dependents).1
  simp only [attach, ExtTreeSet.foldl_eq_foldl_toList, Graph.mem_insert, h,
    ExtTreeSet.mem_toList]

/-- The dependencies an accepted `add` records are delivered nodes. -/
theorem mem_of_depSet (hL : L.WF) (hs : node.seq = L.nextSeq.getD node.key 0) (hh : ∀ h ∈ heads, h ∈ L.deps) :
    ∀ d ∈ depSet node heads, d ∈ L.deps := by
  intro d hd
  obtain ⟨-, hd | ⟨hpos, rfl⟩⟩ := mem_depSet.mp hd
  · exact hh d hd
  · rw [hL.seq]
    show node.seq - 1 < L.nextSeq.getD node.key 0
    omega

theorem wf_new : (new : Linearizer K).WF where
  closed n d h := by simp [depsOf, new] at h
  ranked := ⟨fun _ => 0, fun n h => by simp [new] at h, fun n d h => by simp [depsOf, new] at h⟩
  keys n := by simp [new]
  rev n c := by simp [depsOf, new]
  seq n := by simp [new]
  pred n h := by simp [new] at h
  pos k := by simp [new]

theorem WF.attach (hL : L.WF) (hn : node ∉ L.deps) (hs : node.seq = L.nextSeq.getD node.key 0)
    (hh : ∀ h ∈ heads, h ∈ L.deps) : (L.attach node (depSet node heads)).WF := by
  have hds := mem_of_depSet hL hs hh
  refine ⟨fun n d hd => ?_, ?_, fun n => ?_, fun n c => ?_, fun n => ?_, fun n hn' hpos => ?_,
    fun k => ?_⟩
  · rw [depsOf_attach] at hd
    rw [mem_attach]
    split_ifs at hd with hnn
    · exact Or.inr (hds d hd)
    · exact Or.inr (hL.closed n d hd)
  · -- the new node takes the next rank; it is a dependency of no node yet
    obtain ⟨rank, hlt, hdep⟩ := hL.ranked
    have hsize : (L.attach node (depSet node heads)).deps.size = L.deps.size + 1 := by
      simp only [Linearizer.attach]
      rw [ExtTreeMap.size_insert, if_neg (by simpa using hn)]
    refine ⟨fun n => if n = node then L.deps.size else rank n, fun n hn' => ?_,
      fun n d hd => ?_⟩
    · rw [hsize]
      dsimp only
      rcases mem_attach.mp hn' with rfl | hn'
      · simp
      · split_ifs with h
        · exact Nat.lt_succ_self _
        · exact (hlt n hn').trans (Nat.lt_succ_self _)
    · have hdL : d ∈ L.deps := by
        rw [depsOf_attach] at hd
        split_ifs at hd
        · exact hds d hd
        · exact hL.closed n d hd
      have hne : d ≠ node := fun he => hn (he ▸ hdL)
      simp only [hne, if_false]
      rw [depsOf_attach] at hd
      split_ifs at hd ⊢
      · exact hlt d hdL
      · exact hdep n d hd
  · rw [mem_dependents_attach, mem_attach, hL.keys]
    have := hds n
    tauto
  · rw [dependents_attach, depsOf_attach, hL.rev]
    by_cases hc : c = node
    · subst hc
      simp [depsOf_eq_empty hn]
    · simp [hc]
  · rw [mem_attach, nextSeq_attach, hL.seq]
    by_cases hk : n.key = node.key
    · rw [if_pos hk, hk, ← hs]
      refine ⟨?_, fun h => ?_⟩
      · rintro (rfl | h) <;> omega
      · rcases Nat.lt_succ_iff_lt_or_eq.mp h with h | h
        · exact Or.inr h
        · exact Or.inl (NodeId.ext' hk h)
    · have hne : n ≠ node := fun he => hk (he ▸ rfl)
      simp [hk, hne]
  · rw [depsOf_attach]
    split_ifs with hnn
    · subst hnn
      refine mem_depSet.mpr ⟨fun he => ?_, Or.inr ⟨hpos, rfl⟩⟩
      have := congrArg NodeId.seq he
      simp only at this
      omega
    · exact hL.pred n ((mem_attach.mp hn').resolve_left hnn) hpos
  · simp only [Linearizer.attach, Graph.getElem?_insert]
    split_ifs
    · simp
    · exact hL.pos k

/-- Every `add`, accepted or refused, keeps the invariant. -/
theorem WF.add (hL : L.WF) (node : NodeId K) (heads : List (NodeId K)) :
    (L.add node heads).1.WF := by
  cases h : (L.add node heads).2 with
  | error e => rwa [add_eq_error h]
  | ok u =>
    have h' : L.add node heads = ((L.add node heads).1, .ok ()) := Prod.ext rfl h
    obtain ⟨hn, hs, hh, he⟩ := add_eq_ok.mp h'
    exact he ▸ hL.attach hn hs hh

/-! ### Reachability -/

/-- `b` is `a` or in its causal history. -/
abbrev Past (L : Linearizer K) (a b : NodeId K) : Prop := Graph.Reach L.depsOf a b

/-- The delivered nodes. -/
def nodes (L : Linearizer K) : Finset (NodeId K) := L.deps.keys.toFinset

theorem mem_nodes : n ∈ L.nodes ↔ n ∈ L.deps := by
  simp [nodes]

theorem card_nodes : L.nodes.card = L.deps.size := by
  rw [nodes, List.toFinset_card_of_nodup ExtTreeMap.nodup_keys, ExtTreeMap.length_keys]

variable {a b : NodeId K}

theorem Past.mem (hL : L.WF) (h : L.Past a b) (ha : a ∈ L.deps) : b ∈ L.deps := by
  induction h with
  | refl => exact ha
  | tail _ hbc _ => exact hL.closed _ _ hbc

theorem Past.eq_of_not_mem (h : L.Past a b) (ha : a ∉ L.deps) : a = b := by
  rcases Relation.ReflTransGen.cases_head h with rfl | ⟨c, hac, -⟩
  · rfl
  · exact absurd (WF.mem_of_depsOf hac) ha

/-- The walk of `sees` and `clock` from a delivered node pops its causal history. -/
theorem WF.mem_walk (hL : L.WF) {a : NodeId K} (ha : a ∈ L.deps) (visited : ExtTreeSet (NodeId K))
    (hv : ∀ y ∈ visited, y = a) (x : NodeId K) :
    x ∈ Graph.walk L.depsOf (L.deps.size + 1) [a] visited ↔ L.Past a x :=
  Graph.mem_walk_iff (U := L.nodes) (fun v _ d hd => mem_nodes.mpr (hL.closed v d hd))
    (mem_nodes.mpr ha) (by rw [card_nodes]) hv x

/-- `sees` is reachability along dependencies. -/
theorem WF.sees_iff (hL : L.WF) (a b : NodeId K) : L.sees a b = true ↔ L.Past a b := by
  unfold sees
  by_cases hab : a = b
  · subst hab
    simp only [if_true, true_iff]
    exact Relation.ReflTransGen.refl
  rw [if_neg hab]
  by_cases ha : a ∈ L.deps
  · by_cases hb : b ∈ L.deps
    · have hw := hL.mem_walk ha ∅ (by simp)
      simp only [contains_eq, ha, hb, decide_true, Bool.not_true, Bool.or_self, Bool.false_eq_true,
        if_false, List.any_eq_true, hw, ExtTreeSet.contains_iff_mem]
      refine ⟨fun ⟨v, hv, hd⟩ => hv.tail hd, fun h => ?_⟩
      rcases Relation.ReflTransGen.cases_tail h with rfl | ⟨v, hv, hd⟩
      · exact absurd rfl hab
      · exact ⟨v, hv, hd⟩
    · simp only [contains_eq, hb, decide_false, Bool.not_false, Bool.or_true, if_true,
        Bool.false_eq_true, false_iff]
      exact fun h => hb (Past.mem hL h ha)
  · simp only [contains_eq, ha, decide_false, Bool.not_false, Bool.true_or, if_true,
      Bool.false_eq_true, false_iff]
    exact fun h => hab (Past.eq_of_not_mem h ha)

variable {rank : NodeId K → ℕ}

theorem Past.rank_le (hr : ∀ n, ∀ d ∈ L.depsOf n, rank d < rank n) (h : L.Past a b) : rank b ≤ rank a := by
  induction h with
  | refl => exact le_rfl
  | tail _ hbc ih => exact (hr _ _ hbc).le.trans ih

/-- What a node sees besides itself ranks lower. -/
theorem Past.rank_lt (hr : ∀ n, ∀ d ∈ L.depsOf n, rank d < rank n) (h : L.Past a b) (hne : b ≠ a) :
    rank b < rank a := by
  rcases Relation.ReflTransGen.cases_head h with rfl | ⟨c, hac, hcb⟩
  · exact absurd rfl hne
  · exact (Past.rank_le hr hcb).trans_lt (hr _ _ hac)

theorem Past.antisymm (hL : L.WF) (hab : L.Past a b) (hba : L.Past b a) : a = b := by
  obtain ⟨rank, -, hr⟩ := hL.ranked
  rcases Relation.ReflTransGen.cases_head hab with h | ⟨c, hac, hcb⟩
  · exact h
  · have h1 := hr _ _ hac
    have h2 := Past.rank_le hr hcb
    have h3 := Past.rank_le hr hba
    omega

variable {x : NodeId K}

/-- The heads are the nodes nothing depends on. -/
theorem mem_heads (hL : L.WF) : x ∈ L.heads ↔ x ∈ L.deps ∧ ∀ c, x ∉ L.depsOf c := by
  rw [heads, Graph.mem_ofList, List.mem_filter, Graph.mem_keys]
  refine and_congr_right fun _ => ?_
  rw [ExtTreeSet.isEmpty_iff, ExtTreeSet.eq_empty_iff_forall_not_mem]
  exact forall_congr' fun c => not_congr (hL.rev x c)

/-- Every node lies below some head. -/
theorem WF.exists_head (hL : L.WF) {y : NodeId K} (hy : y ∈ L.deps) : ∃ z ∈ L.heads, L.Past z y := by
  obtain ⟨rank, hlt, hr⟩ := hL.ranked
  -- by the ranks left above the node
  induction hk : L.deps.size - rank y using Nat.strong_induction_on generalizing y with
  | _ k ih =>
    by_cases hhead : y ∈ L.heads
    · exact ⟨y, hhead, Relation.ReflTransGen.refl⟩
    · obtain ⟨c, hc⟩ : ∃ c, y ∈ L.depsOf c := by
        by_contra hnone
        exact hhead ((mem_heads hL).mpr ⟨hy, not_exists.mp hnone⟩)
      have hcd := WF.mem_of_depsOf hc
      have hup := hr c y hc
      have hbound := hlt c hcd
      obtain ⟨z, hz, hzc⟩ := ih (L.deps.size - rank c) (by omega) hcd rfl
      exact ⟨z, hz, hzc.tail hc⟩

/-- A node is the only head exactly if it sees every node. -/
theorem WF.heads_iff_top (hL : L.WF) :
    (∀ y, y ∈ L.heads ↔ y = x) ↔ x ∈ L.deps ∧ ∀ n ∈ L.deps, L.Past x n := by
  constructor
  · intro honly
    refine ⟨((mem_heads hL).mp ((honly x).mpr rfl)).1, fun n hn => ?_⟩
    obtain ⟨z, hz, hzn⟩ := hL.exists_head hn
    rwa [← (honly z).mp hz]
  · rintro ⟨hx, htop⟩ y
    rw [mem_heads hL]
    constructor
    · rintro ⟨hy, hnone⟩
      rcases Relation.ReflTransGen.cases_tail (htop y hy) with rfl | ⟨c, -, hc⟩
      · rfl
      · exact absurd hc (hnone c)
    · rintro rfl
      refine ⟨hx, fun c hc => ?_⟩
      obtain ⟨rank, -, hr⟩ := hL.ranked
      have hle := Past.rank_le hr (htop c (WF.mem_of_depsOf hc))
      have hlt := hr c y hc
      omega

/-- A writer's node sees the writer's earlier nodes. -/
theorem Past.of_le (hL : L.WF) {k : K} : ∀ {s t : ℕ}, s ≤ t → (⟨k, t⟩ : NodeId K) ∈ L.deps →
    L.Past ⟨k, t⟩ ⟨k, s⟩
  | s, 0, hst, _ => by
    obtain rfl : s = 0 := by omega
    exact Relation.ReflTransGen.refl
  | s, t + 1, hst, hm => by
    rcases Nat.lt_succ_iff_lt_or_eq.mp (Nat.lt_succ_of_le hst) with h | rfl
    · have hp : (⟨k, t⟩ : NodeId K) ∈ L.depsOf ⟨k, t + 1⟩ := hL.pred ⟨k, t + 1⟩ hm (by simp)
      exact (Past.of_le hL (Nat.lt_succ_iff.mp h) (hL.closed _ _ hp)).head hp
    · exact Relation.ReflTransGen.refl

/-! ### Vector clocks -/

theorem lt_foldl_raise (k : K) (s : ℕ) : ∀ (l : List (NodeId K)) (c : Clock K),
    s < (l.foldl (fun c v => c.raise v.key (v.seq + 1)) c).get k ↔
      s < c.get k ∨ ∃ v ∈ l, v.key = k ∧ s ≤ v.seq
  | [], c => by simp
  | v :: l, c => by
    rw [List.foldl_cons, lt_foldl_raise k s l, Clock.get_raise]
    by_cases hk : k = v.key
    · simp only [hk, if_true, List.mem_cons, exists_eq_or_imp, true_and]
      rw [lt_max_iff, Nat.lt_succ_iff, or_assoc]
    · simp [hk, Ne.symm hk]

/-- The clock of a node counts, per writer, the nodes it sees. -/
theorem WF.lt_clock_iff (hL : L.WF) (hn : n ∈ L.deps) (k : K) (s : ℕ) :
    s < (L.clock n).get k ↔ L.Past n ⟨k, s⟩ := by
  unfold clock
  rw [if_pos (by simpa [contains_eq] using hn), lt_foldl_raise]
  simp only [Clock.get_empty, Nat.not_lt_zero, false_or, hL.mem_walk hn {n} (by simp)]
  constructor
  · rintro ⟨⟨k', t⟩, hv, rfl, hst⟩
    exact hv.trans (Past.of_le hL hst (hv.mem hL hn))
  · exact fun h => ⟨_, h, rfl, le_rfl⟩

theorem clock_of_not_mem (hn : n ∉ L.deps) : L.clock n = Clock.empty := by
  unfold clock
  rw [if_neg (by simpa [contains_eq] using hn)]

end Linearizer
end HypercoreRs
