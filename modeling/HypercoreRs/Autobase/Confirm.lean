/-
# The confirmation predicates

The indexer nodes of a linearizer, under what they see, are a `Quorum.History`
(`history`), and the clock of removed nodes a set of them (`gone`). Over a well
formed DAG the machine's predicates are the ones of that history: `strictlyNewer`
is `Newer`, `acks` lists one vote of every voter with one, and `isConfirmed` is
`Confirmed`, at the top level, and `ConfirmedBelow`, as seen from a node.
-/
import HypercoreRs.Autobase.Order
import HypercoreRs.Quorum.History

open Std

namespace HypercoreRs
namespace Linearizer

open Quorum

variable {K : Type} [LinearOrder K] {L : Linearizer K}

/-- The indexers. -/
def voters (L : Linearizer K) : Finset K := Graph.toFinset (L.indexers.getD ∅)

variable {k : K}

theorem mem_voters : k ∈ L.voters ↔ k ∈ L.indexerList := by
  simp [voters, indexerList]

theorem isIndexer_iff : L.isIndexer k = true ↔ k ∈ L.voters := by
  simp [isIndexer, voters]

theorem nodup_indexerList : L.indexerList.Nodup := Graph.nodup_toList _

/-- The indexer nodes under what they see. -/
def history (hL : L.WF) : History (NodeId K) K where
  le x y := L.Past y x
  refl _ := Relation.ReflTransGen.refl
  trans h h' := h'.trans h
  antisymm h h' := Past.antisymm hL h' h
  writer := NodeId.key
  voters := L.voters
  nodes := L.nodes.filter fun n => n.key ∈ L.voters
  voter x hx := (Finset.mem_filter.mp hx).2
  chain x hx y hy hw := by
    obtain ⟨hx, -⟩ := Finset.mem_filter.mp hx
    obtain ⟨hy, -⟩ := Finset.mem_filter.mp hy
    obtain ⟨k, s⟩ := x
    obtain ⟨k', t⟩ := y
    obtain rfl : k = k' := hw
    rcases le_total s t with h | h
    · exact Or.inl (Past.of_le hL h (mem_nodes.mp hy))
    · exact Or.inr (Past.of_le hL h (mem_nodes.mp hx))

/-- The nodes the clock of confirmed nodes covers. -/
def gone (removed : Clock K) : Set (NodeId K) := {x | x.seq < removed.get x.key}

variable {removed : Clock K} {x : NodeId K}

theorem mem_gone :
    x ∈ gone removed ↔ x.seq < removed.get x.key := Iff.rfl

theorem mem_history (hL : L.WF) : x ∈ (history hL).nodes ↔ x ∈ L.deps ∧ x.key ∈ L.voters := by
  show x ∈ L.nodes.filter _ ↔ _
  rw [Finset.mem_filter, mem_nodes]

/-- What is removed is closed under what it sees. -/
def Lower (hL : L.WF) (removed : Clock K) : Prop :=
  ∀ x ∈ (history hL).nodes, ∀ y ∈ (history hL).nodes, x ∈ gone removed → L.Past x y →
    y ∈ gone removed

variable {t : NodeId K}

theorem Lower.above {hL : L.WF} (h : Lower hL removed) (ht : t ∈ (history hL).nodes)
    (htR : t ∉ gone removed) : ∀ y ∈ (history hL).nodes, (history hL).le t y → y ∉ gone removed :=
  fun y hy hty hyR => htR (h y hy t ht hyR hty)

/-! ### `strictlyNewer` -/

/-- The loop over a clock's entries is a statement about every writer. -/
theorem all_iter_iff (c : Clock K) (f : K × ℕ → Bool) (h0 : ∀ k, f (k, 0) = true) :
    c.iter.all f = true ↔ ∀ k, f (k, c.get k) = true := by
  rw [List.all_eq_true, Clock.iter]
  constructor
  · intro h k
    rw [Clock.get, ExtTreeMap.getD_eq_getD_getElem?]
    cases hk : c.lengths[k]? with
    | none => exact h0 k
    | some v => exact h (k, v) (ExtTreeMap.mem_toList_iff_getElem?_eq_some.mpr hk)
  · rintro h ⟨k, v⟩ hm
    have hk := ExtTreeMap.mem_toList_iff_getElem?_eq_some.mp hm
    have hv := h k
    rwa [Clock.get, ExtTreeMap.getD_eq_getD_getElem?, hk] at hv

/-- The first node of `k` that `t` does not see and that is not removed. -/
def firstAfter (L : Linearizer K) (removed : Clock K) (t : NodeId K) (k : K) : NodeId K :=
  ⟨k, max ((L.clock t).get k) (removed.get k)⟩

theorem firstAfter_not_gone (removed : Clock K) (t : NodeId K) (k : K) :
    L.firstAfter removed t k ∉ gone removed := by
  simp [gone, firstAfter]

theorem firstAfter_not_seen (hL : L.WF) (removed : Clock K) (ht : t ∈ L.deps) (k : K) :
    ¬ L.Past t (L.firstAfter removed t k) := by
  intro h
  have := (hL.lt_clock_iff ht k _).mpr h
  simp at this

/-- It is the first one. -/
theorem firstAfter_le (hL : L.WF) {t x : NodeId K} (ht : t ∈ L.deps) (hx : x ∈ L.deps)
    (hxR : x ∉ gone removed) (hxt : ¬ L.Past t x) : L.Past x (L.firstAfter removed t x.key) := by
  refine Past.of_le hL (max_le ?_ (Nat.not_lt.mp hxR)) hx
  exact Nat.not_lt.mp fun h => hxt ((hL.lt_clock_iff ht x.key x.seq).mp h)

variable {ix : ExtTreeSet K}

/-- One writer of `strictlyNewer`'s loop. -/
theorem newerAt_iff (hL : L.WF) {t p : NodeId K} (ht : t ∈ L.deps) (hp : p ∈ L.deps) (htp : L.Past p t)
    (hix : L.indexers = some ix) (k : K) :
    L.newerAt t (L.clock t) removed (k, (L.clock p).get k) = true ↔
      (k ∈ L.voters → L.Past p (L.firstAfter removed t k) →
        L.Past (L.firstAfter removed t k) t) := by
  have hclk : (L.clock t).get k ≤ (L.clock p).get k := by
    by_contra hlt
    have h1 := (hL.lt_clock_iff ht k _).mp (Nat.not_le.mp hlt)
    exact lt_irrefl _ ((hL.lt_clock_iff hp k _).mpr (htp.trans h1))
  have hpast := hL.lt_clock_iff hp k (max ((L.clock t).get k) (removed.get k))
  have hv : k ∈ L.voters ↔ k ∈ ix := by simp [voters, hix]
  unfold newerAt
  simp only [hix, Option.any_some, Bool.not_eq_true', ← Bool.not_eq_true,
    ExtTreeSet.contains_iff_mem]
  by_cases hk : k ∈ ix
  · simp only [hk, not_true_eq_false, if_false, hv.mpr hk, true_imp_iff]
    by_cases h1 : (L.clock p).get k ≤ removed.get k
    · simp only [h1, if_true, true_iff]
      intro hpp
      have := hpast.mpr hpp
      omega
    · simp only [h1, if_false]
      rw [if_neg (by omega)]
      by_cases h2 : (L.clock p).get k = max ((L.clock t).get k) (removed.get k)
      · rw [if_pos h2]
        simp only [true_iff]
        intro hpp
        have := hpast.mpr hpp
        omega
      · have hpp := hpast.mp (by omega)
        rw [if_neg h2, if_neg (by
          simpa [contains_eq] using Past.mem hL hpp hp), hL.sees_iff]
        exact ⟨fun h _ => h, fun h => h hpp⟩
  · simp [hk, hv]

/-- `strictlyNewer` is `Newer`. -/
theorem strictlyNewer_iff (hL : L.WF) {t p : NodeId K} (ht : t ∈ L.deps) (hp : p ∈ L.deps)
    (hix : L.indexers = some ix) :
    L.strictlyNewer t p removed = true ↔ (history hL).Newer (gone removed) t p := by
  unfold strictlyNewer
  rw [Bool.and_eq_true, hL.sees_iff,
    all_iter_iff _ _ fun k => by simp [newerAt]]
  refine and_congr_right fun htp => ?_
  simp only [newerAt_iff hL ht hp htp hix]
  constructor
  · intro h x hx hxR hxp
    obtain ⟨hxd, hxv⟩ := (mem_history hL).mp hx
    by_cases hxt : L.Past t x
    · exact Or.inl hxt
    · have hf := firstAfter_le hL ht hxd hxR hxt
      exact Or.inr (hf.trans (h x.key hxv (Relation.ReflTransGen.trans hxp hf)))
  · intro h k hk hpf
    have hx : L.firstAfter removed t k ∈ (history hL).nodes :=
      (mem_history hL).mpr ⟨Past.mem hL hpf hp, hk⟩
    rcases h _ hx (firstAfter_not_gone _ _ _) hpf with hc | hc
    · exact absurd hc (firstAfter_not_seen hL removed ht k)
    · exact hc

/-! ### `acks` -/

theorem acks_eq (hL : L.WF) (ht : t ∈ (history hL).nodes) :
    L.acks t removed = t :: L.indexerList.filterMap fun idx =>
      if idx = t.key then none
      else if L.contains (L.firstAfter removed t idx) && L.sees (L.firstAfter removed t idx) t &&
          L.strictlyNewer t (L.firstAfter removed t idx) removed then
        some (L.firstAfter removed t idx)
      else none := by
  unfold acks
  rw [if_pos (isIndexer_iff.mpr ((mem_history hL).mp ht).2)]
  rfl

section Acks

variable (hL : L.WF) {removed : Clock K} {t : NodeId K} (ht : t ∈ (history hL).nodes)
  {ix : ExtTreeSet K} (hix : L.indexers = some ix)
include ht hix

variable {a : NodeId K}

/-- The acks are the target and, of every other voter, its first node outside the
target's history, if that is newer. -/
theorem mem_acks : a ∈ L.acks t removed ↔ a = t ∨
    (a.key ∈ L.voters ∧ a.key ≠ t.key ∧ a = L.firstAfter removed t a.key ∧ a ∈ L.deps ∧
      (history hL).Newer (gone removed) t a) := by
  have htd := ((mem_history hL).mp ht).1
  rw [acks_eq hL ht, List.mem_cons, List.mem_filterMap]
  refine or_congr_right ⟨?_, ?_⟩
  · rintro ⟨idx, hidx, h⟩
    split_ifs at h with h1 h2
    obtain rfl := Option.some.inj h
    rw [Bool.and_eq_true, Bool.and_eq_true, contains_eq, decide_eq_true_eq] at h2
    exact ⟨mem_voters.mpr hidx, h1, rfl, h2.1.1, (strictlyNewer_iff hL htd h2.1.1 hix).mp h2.2⟩
  · rintro ⟨hv, hne, ha, had, hn⟩
    refine ⟨a.key, mem_voters.mp hv, ?_⟩
    rw [if_neg hne, ← ha, if_pos]
    rw [Bool.and_eq_true, Bool.and_eq_true, contains_eq, decide_eq_true_eq]
    exact ⟨⟨had, (hL.sees_iff _ _).mpr hn.1⟩, (strictlyNewer_iff hL htd had hix).mpr hn⟩

theorem ack_of_mem (htR : t ∉ gone removed) (ha : a ∈ L.acks t removed) :
    (history hL).Ack (gone removed) t a := by
  rcases (mem_acks hL ht hix).mp ha with rfl | ⟨hv, -, he, hd, hn⟩
  · exact ⟨ht, htR, History.newer_refl a⟩
  · refine ⟨(mem_history hL).mpr ⟨hd, hv⟩, ?_, hn⟩
    rw [he]
    exact firstAfter_not_gone _ _ _

/-- Every vote sees the listed vote of its voter. -/
theorem exists_ack_le {b : NodeId K} (hb : (history hL).Ack (gone removed) t b) :
    ∃ a ∈ L.acks t removed, L.Past b a ∧ a.key = b.key := by
  obtain ⟨htd, -⟩ := (mem_history hL).mp ht
  obtain ⟨hbn, hbR, hn⟩ := hb
  obtain ⟨hbd, hbv⟩ := (mem_history hL).mp hbn
  by_cases hk : b.key = t.key
  · exact ⟨t, (mem_acks hL ht hix).mpr (Or.inl rfl), hn.1, hk.symm⟩
  · have hbt : ¬ L.Past t b := fun h => hk (congrArg NodeId.key (Past.antisymm hL hn.1 h))
    have hle := firstAfter_le hL htd hbd hbR hbt
    have hd := Past.mem hL hle hbd
    have hmem : L.firstAfter removed t b.key ∈ (history hL).nodes :=
      (mem_history hL).mpr ⟨hd, hbv⟩
    have hc : (history hL).le t (L.firstAfter removed t b.key) :=
      (hn.2 _ hmem (firstAfter_not_gone _ _ _) hle).resolve_left
        (firstAfter_not_seen hL removed htd b.key)
    exact ⟨L.firstAfter removed t b.key,
      (mem_acks hL ht hix).mpr (Or.inr ⟨hbv, hk, rfl, hd, hn.of_le hle hc⟩), hle, rfl⟩

omit hix in
theorem nodup_keys_acks : ((L.acks t removed).map NodeId.key).Nodup := by
  have hsub : ∀ l : List K, ((l.filterMap fun idx =>
      if idx = t.key then none
      else if L.contains (L.firstAfter removed t idx) && L.sees (L.firstAfter removed t idx) t &&
          L.strictlyNewer t (L.firstAfter removed t idx) removed then
        some (L.firstAfter removed t idx)
      else none).map NodeId.key).Sublist (l.filter fun idx => idx ≠ t.key) := by
    intro l
    induction l with
    | nil => simp
    | cons k l ih =>
      by_cases hk : k = t.key
      · simpa [hk] using ih
      · rw [List.filterMap_cons, if_neg hk, List.filter_cons_of_pos (by simpa using hk)]
        split_ifs
        · exact ih.cons_cons k
        · exact ih.cons k
  rw [acks_eq hL ht, List.map_cons, List.nodup_cons]
  refine ⟨fun hm => ?_, (hsub _).nodup (nodup_indexerList.filter _)⟩
  have := (hsub _).subset hm
  simp at this

/-- The acks with a property that later nodes of the voter keep are counted by voters. -/
theorem countP_acks (htR : t ∉ gone removed) (y : NodeId K) :
    L.ackCount (L.acks t removed) y = ((history hL).votesSeen (gone removed) t y).card := by
  have hnd : (((L.acks t removed).filter fun a => L.sees y a).map NodeId.key).Nodup :=
    (List.filter_sublist.map _).nodup (nodup_keys_acks hL ht)
  have hset : (((L.acks t removed).filter fun a => L.sees y a).map NodeId.key).toFinset =
      (history hL).votesSeen (gone removed) t y := by
    ext i
    rw [List.mem_toFinset, History.mem_votesSeen, List.mem_map]
    constructor
    · rintro ⟨a, ha, rfl⟩
      obtain ⟨ha, hs⟩ := List.mem_filter.mp ha
      exact ⟨a, ack_of_mem hL ht hix htR ha, (hL.sees_iff _ _).mp hs, rfl⟩
    · rintro ⟨b, hb, hby, rfl⟩
      obtain ⟨a, ha, hba, hk⟩ := exists_ack_le hL ht hix hb
      exact ⟨a, List.mem_filter.mpr ⟨ha, (hL.sees_iff _ _).mpr (hby.trans hba)⟩, hk⟩
  rw [ackCount, List.countP_eq_length_filter, ← hset, List.toFinset_card_of_nodup hnd,
    List.length_map]

theorem length_acks (htR : t ∉ gone removed) :
    (L.acks t removed).length = ((history hL).ackers (gone removed) t).card := by
  have hset : ((L.acks t removed).map NodeId.key).toFinset =
      (history hL).ackers (gone removed) t := by
    ext i
    rw [List.mem_toFinset, History.mem_ackers, List.mem_map]
    constructor
    · rintro ⟨a, ha, rfl⟩
      exact ⟨a, ack_of_mem hL ht hix htR ha, rfl⟩
    · rintro ⟨b, hb, rfl⟩
      obtain ⟨a, ha, -, hk⟩ := exists_ack_le hL ht hix hb
      exact ⟨a, ha, hk⟩
  rw [← hset, List.toFinset_card_of_nodup (nodup_keys_acks hL ht), List.length_map]

end Acks

/-! ### `confirms` -/

theorem ackCount_mono (hL : L.WF) (acks : List (NodeId K)) {x y : NodeId K} (h : L.Past y x) :
    L.ackCount acks x ≤ L.ackCount acks y := by
  refine List.countP_mono_left fun a _ ha => ?_
  rw [hL.sees_iff] at ha ⊢
  exact h.trans ha

variable {M : ℕ} {acks : List (NodeId K)}

/-- The loop finds the newest newer node, unless the acks run out before: it returns
`acked` when some node is newer and sees a majority of the acks. -/
theorem confirmsLoop_acked (hL : L.WF) {idx : K} : ∀ (n : ℕ) (newer : Bool), n ≤ L.indexerLength idx →
    (L.confirmsLoop M idx t acks removed n newer = .acked ↔
      ∃ s < n, L.strictlyNewer t ⟨idx, s⟩ removed = true ∧ M ≤ L.ackCount acks ⟨idx, s⟩)
  | 0, _, _ => by simp [confirmsLoop]
  | n + 1, newer, hn => by
    have hin : (⟨idx, n⟩ : NodeId K) ∈ L.deps := (hL.seq _).mpr hn
    have hmono : ∀ s < n + 1, L.ackCount acks ⟨idx, s⟩ ≤ L.ackCount acks ⟨idx, n⟩ :=
      fun s hs => ackCount_mono hL acks (Past.of_le hL (Nat.lt_succ_iff.mp hs) hin)
    unfold confirmsLoop
    dsimp only
    rw [if_neg (by simpa [contains_eq] using hin)]
    by_cases hc : L.ackCount acks ⟨idx, n⟩ < M
    · have hno : ¬ ∃ s < n + 1, L.strictlyNewer t ⟨idx, s⟩ removed = true ∧
          M ≤ L.ackCount acks ⟨idx, s⟩ := fun ⟨s, hs, _, h⟩ => by
        have := hmono s hs
        omega
      have hrec := (confirmsLoop_acked hL n false (Nat.le_of_succ_le hn)).not.mpr
        fun ⟨s, hs, h⟩ => hno ⟨s, Nat.lt_succ_of_lt hs, h⟩
      split_ifs
      · exact iff_of_false (by simp) hno
      · exact iff_of_false hrec hno
      · exact iff_of_false (by simp) hno
    · by_cases hs : L.strictlyNewer t ⟨idx, n⟩ removed = true
      · simp only [hc, decide_false, Bool.and_false, Bool.false_eq_true, if_false, hs,
          Bool.not_true, true_iff]
        exact ⟨n, Nat.lt_succ_self n, hs, Nat.not_lt.mp hc⟩
      · simp only [hc, decide_false, Bool.and_false, Bool.false_eq_true, if_false, hs,
          Bool.not_false, if_true]
        rw [confirmsLoop_acked hL n false (Nat.le_of_succ_le hn)]
        refine ⟨fun ⟨s, h, h'⟩ => ⟨s, Nat.lt_succ_of_lt h, h'⟩, fun ⟨s, h, h'⟩ => ⟨s, ?_, h'⟩⟩
        refine (Nat.lt_succ_iff.mp h).lt_of_ne ?_
        rintro rfl
        exact hs h'.1

/-- After the newest node the loop returns `acked` or `unseen`. -/
theorem confirmsLoop_false {idx : K} : ∀ n : ℕ, L.confirmsLoop M idx t acks removed n false ≠ .newer
  | 0 => by simp [confirmsLoop]
  | n + 1 => by
    unfold confirmsLoop
    dsimp only
    split_ifs with h1 h2 h3 h4
    · simp
    · simp
    · exact confirmsLoop_false n
    · simp_all
    · simp

theorem majority_eq (hL : L.WF) (hix : L.indexers = some ix) :
    L.majority = some (history hL).majority := by
  have hcard : L.voters.card = ix.size := by
    rw [voters, hix, Graph.card_toFinset]
    rfl
  rw [majority, hix, Option.map_some, ← hcard]
  rfl

section Confirms

variable (hL : L.WF) {removed : Clock K} {t : NodeId K} (ht : t ∈ (history hL).nodes)
  (htR : t ∉ gone removed) {ix : ExtTreeSet K} (hix : L.indexers = some ix)
include ht htR hix

variable {idx : K} {length : ℕ}

/-- A voter acked the target below `length` when it has a node there that is not
removed, and one that seals the target. -/
theorem confirms_acked_iff (hidx : idx ∈ L.voters) (hlen : length ≤ L.indexerLength idx) :
    L.confirms idx t (L.acks t removed) length removed = .acked ↔ removed.get idx < length ∧
      ∃ y, (history hL).Seals (gone removed) t y ∧ y.key = idx ∧ y.seq < length := by
  have htd := ((mem_history hL).mp ht).1
  have hseal : ∀ s < length, (L.strictlyNewer t ⟨idx, s⟩ removed = true ∧
      (history hL).majority ≤ L.ackCount (L.acks t removed) ⟨idx, s⟩) ↔
      (history hL).Seals (gone removed) t ⟨idx, s⟩ := fun s hs => by
    have hd : (⟨idx, s⟩ : NodeId K) ∈ L.deps := (hL.seq _).mpr (hs.trans_le hlen)
    rw [strictlyNewer_iff hL htd hd hix, countP_acks hL ht hix htR, History.Seals]
    exact ⟨fun h => ⟨(mem_history hL).mpr ⟨hd, hidx⟩, h⟩, fun h => h.2⟩
  have hex : (∃ s < length, L.strictlyNewer t ⟨idx, s⟩ removed = true ∧
      (history hL).majority ≤ L.ackCount (L.acks t removed) ⟨idx, s⟩) ↔
      ∃ y, (history hL).Seals (gone removed) t y ∧ y.key = idx ∧ y.seq < length := by
    constructor
    · rintro ⟨s, hs, h⟩
      exact ⟨_, (hseal s hs).mp h, rfl, hs⟩
    · rintro ⟨⟨k, s⟩, hy, rfl, hs⟩
      exact ⟨s, hs, (hseal s hs).mpr hy⟩
  unfold confirms
  rw [majority_eq hL hix]
  dsimp only
  split_ifs with h0
  · simp only [Bool.or_eq_true, decide_eq_true_eq] at h0
    exact iff_of_false (by simp) fun h => by omega
  · simp only [Bool.or_eq_true, decide_eq_true_eq] at h0
    rw [confirmsLoop_acked hL _ _ hlen, hex, and_iff_right (by omega)]

omit htR in
/-- A voter is not unseen when it acked, or has a node below `length` that is not
removed and its last node there is newer. -/
theorem confirms_ne_unseen_iff (hlen : length ≤ L.indexerLength idx) :
    L.confirms idx t (L.acks t removed) length removed ≠ .unseen ↔
      L.confirms idx t (L.acks t removed) length removed = .acked ∨
        (removed.get idx < length ∧ (history hL).Newer (gone removed) t ⟨idx, length - 1⟩) := by
  have htd := ((mem_history hL).mp ht).1
  unfold confirms
  rw [majority_eq hL hix]
  dsimp only
  cases length with
  | zero => simp
  | succ n =>
    have hd : (⟨idx, n⟩ : NodeId K) ∈ L.deps := (hL.seq _).mpr hlen
    have hsn : L.strictlyNewer t ⟨idx, n⟩ removed = true ↔ _ := strictlyNewer_iff hL htd hd hix
    rw [Nat.add_sub_cancel]
    by_cases h0 : (decide (n + 1 = 0) || decide (n + 1 ≤ removed.get idx)) = true
    · rw [if_pos h0]
      simp only [Bool.or_eq_true, decide_eq_true_eq, Nat.succ_ne_zero, false_or] at h0
      simp [Nat.not_lt.mpr h0]
    · rw [if_neg h0]
      simp only [Bool.or_eq_true, decide_eq_true_eq, Nat.succ_ne_zero, false_or, Nat.not_le] at h0
      unfold confirmsLoop
      dsimp only
      rw [if_neg (by simpa [contains_eq] using hd)]
      simp only [Bool.not_true, Bool.false_and, Bool.false_eq_true, if_false]
      by_cases hs : L.strictlyNewer t ⟨idx, n⟩ removed = true
      · simp only [hs, Bool.not_true, Bool.false_eq_true, if_false, h0, hsn.mp hs]
        split_ifs <;> simp
      · simp only [hs, Bool.not_false, if_true, hsn.not.mp hs, and_false, or_false]
        cases he : L.confirmsLoop (history hL).majority idx t (L.acks t removed) removed n false
        · simp
        · exact absurd he (confirmsLoop_false n)
        · simp

omit hix in
/-- A node that seals the target is not removed. -/
theorem not_gone_of_seals (hlow : Lower hL removed) {y : NodeId K}
    (hy : (history hL).Seals (gone removed) t y) : removed.get y.key ≤ y.seq :=
  Nat.not_lt.mp (hlow.above ht htR y hy.1 hy.2.1.1)

/-- A voter acked the target below `length` when one of its nodes there seals it. -/
theorem confirms_acked (hlow : Lower hL removed) (hidx : idx ∈ L.voters)
    (hlen : length ≤ L.indexerLength idx) :
    L.confirms idx t (L.acks t removed) length removed = .acked ↔
      ∃ y, (history hL).Seals (gone removed) t y ∧ y.key = idx ∧ y.seq < length := by
  rw [confirms_acked_iff hL ht htR hix hidx hlen, and_iff_right_iff_imp]
  rintro ⟨y, hy, rfl, hs⟩
  exact (not_gone_of_seals hL ht htR hlow hy).trans_lt hs

end Confirms

/-! ### `isConfirmed` -/

theorem size_insert {s : ExtTreeSet K} (h : k ∉ s) : (s.insert k).size = s.size + 1 := by
  rw [ExtTreeSet.size_insert, if_neg (by simpa using h)]

section Loop

variable {t : NodeId K} {parent : Option (NodeId K)} {acks : List (NodeId K)} {removed : Clock K}

/-- The loop over the indexers stops early when a majority acked. -/
theorem confirmLoop_eq_none_iff : ∀ {ixs : List K} {confs : ExtTreeSet K} {allNewer : Bool},
    ixs.Nodup → (∀ i ∈ ixs, i ∉ confs) → confs.size < M →
    (L.confirmLoop M t parent acks removed ixs confs allNewer = none ↔
      M ≤ confs.size + ixs.countP fun i =>
        L.confirms i t acks (L.confirmLength parent i) removed = .acked)
  | [], confs, _, _, _, hM => by
    simp only [confirmLoop, reduceCtorEq, List.countP_nil, false_iff]
    omega
  | k :: ixs, confs, allNewer, hnd, hdis, hM => by
    obtain ⟨hk, hnd⟩ := List.nodup_cons.mp hnd
    obtain ⟨hkc, hdis⟩ := List.forall_mem_cons.mp hdis
    rw [List.countP_cons]
    unfold confirmLoop
    cases hc : L.confirms k t acks (L.confirmLength parent k) removed with
    | acked =>
      have hsize : (confs.insert k).size = confs.size + 1 := size_insert hkc
      have hdis' : ∀ i ∈ ixs, i ∉ confs.insert k := fun i hi hin => by
        rcases Graph.mem_insert_set.mp hin with rfl | hin
        · exact hk hi
        · exact hdis i hi hin
      simp only [decide_true, if_true]
      split_ifs with hM'
      · exact iff_of_true rfl (by omega)
      · rw [confirmLoop_eq_none_iff hnd hdis' (Nat.not_le.mp hM'), hsize]
        omega
    | unseen => exact (confirmLoop_eq_none_iff hnd hdis hM).trans (by simp)
    | newer => exact (confirmLoop_eq_none_iff hnd hdis hM).trans (by simp)

variable {c : ExtTreeSet K} {b : Bool}

/-- Otherwise it returns those that acked. -/
theorem mem_confirmLoop (i : K) : ∀ {ixs : List K} {confs : ExtTreeSet K} {allNewer : Bool},
    L.confirmLoop M t parent acks removed ixs confs allNewer = some (c, b) →
    (i ∈ c ↔ i ∈ confs ∨
      (i ∈ ixs ∧ L.confirms i t acks (L.confirmLength parent i) removed = .acked))
  | [], _, _, h => by
    obtain ⟨rfl, rfl⟩ := Prod.mk.inj (Option.some.inj h)
    simp
  | k :: ixs, confs, allNewer, h => by
    unfold confirmLoop at h
    rw [List.mem_cons, or_and_right]
    cases hc : L.confirms k t acks (L.confirmLength parent k) removed with
    | acked =>
      simp only [hc] at h
      split_ifs at h
      rw [mem_confirmLoop i h, Graph.mem_insert_set]
      by_cases hi : i = k <;> simp [hi, hc]
    | unseen =>
      rw [hc] at h
      rw [mem_confirmLoop i h]
      by_cases hi : i = k <;> simp [hi, hc]
    | newer =>
      rw [hc] at h
      rw [mem_confirmLoop i h]
      by_cases hi : i = k <;> simp [hi, hc]

/-- Its flag says whether none was unseen. -/
theorem newer_confirmLoop : ∀ {ixs : List K} {confs : ExtTreeSet K} {allNewer : Bool},
    L.confirmLoop M t parent acks removed ixs confs allNewer = some (c, b) →
    (b = true ↔ allNewer = true ∧
      ∀ i ∈ ixs, L.confirms i t acks (L.confirmLength parent i) removed ≠ .unseen)
  | [], _, _, h => by
    obtain ⟨rfl, rfl⟩ := Prod.mk.inj (Option.some.inj h)
    simp
  | k :: ixs, confs, allNewer, h => by
    unfold confirmLoop at h
    rw [List.forall_mem_cons]
    cases hc : L.confirms k t acks (L.confirmLength parent k) removed with
    | acked =>
      simp only [hc] at h
      split_ifs at h
      rw [newer_confirmLoop h]
      simp
    | unseen =>
      rw [hc] at h
      rw [newer_confirmLoop h]
      simp
    | newer =>
      rw [hc] at h
      rw [newer_confirmLoop h]
      simp

end Loop

variable {p : NodeId K}

theorem ackedAtLoop_iff : ∀ (acks : List (NodeId K)) (seen : ℕ), seen < M →
    (L.ackedAtLoop M p acks seen = true ↔ M ≤ seen + L.ackCount acks p)
  | [], seen, h => by
    simp only [ackedAtLoop, ackCount, List.countP_nil, Bool.false_eq_true, false_iff]
    omega
  | a :: acks, seen, h => by
    have hle : L.ackCount acks p ≤ acks.length := List.countP_le_length
    unfold ackedAtLoop
    by_cases hs : L.sees p a = true
    · have hcons : L.ackCount (a :: acks) p = L.ackCount acks p + 1 := List.countP_cons_of_pos hs
      simp only [hs, Bool.not_true, Bool.false_eq_true, if_false, hcons]
      by_cases hM : M ≤ seen + 1
      · simp only [hM, if_true, true_iff]
        omega
      · rw [if_neg hM, ackedAtLoop_iff acks (seen + 1) (Nat.not_le.mp hM)]
        omega
    · have hcons : L.ackCount (a :: acks) p = L.ackCount acks p := List.countP_cons_of_neg hs
      simp only [hs, Bool.not_false, if_true, hcons]
      by_cases hlt : seen + acks.length < M
      · simp only [hlt, if_true, Bool.false_eq_true, false_iff]
        omega
      · rw [if_neg hlt, ackedAtLoop_iff acks seen h]

theorem potentialLoop_iff {t p : NodeId K} {confs : ExtTreeSet K} :
    ∀ (ixs : List K) (potential : ℕ), potential < M →
    (L.potentialLoop M t p confs removed ixs potential = true ↔
      M ≤ potential + ixs.countP fun i => !confs.contains i && L.mayConfirm t p removed i)
  | [], potential, h => by
    simp only [potentialLoop, List.countP_nil, Bool.false_eq_true, false_iff]
    omega
  | k :: ixs, potential, h => by
    rw [List.countP_cons]
    unfold potentialLoop
    by_cases hk : (!confs.contains k && L.mayConfirm t p removed k) = true
    · have hk' : ¬ (confs.contains k || !L.mayConfirm t p removed k) = true := by
        simp only [Bool.and_eq_true, Bool.not_eq_true'] at hk
        simp [hk]
      rw [if_neg hk', if_pos hk]
      by_cases hM : M ≤ potential + 1
      · simp only [hM, if_true, true_iff]
        omega
      · rw [if_neg hM, potentialLoop_iff ixs (potential + 1) (Nat.not_le.mp hM)]
        omega
    · have hk' : (confs.contains k || !L.mayConfirm t p removed k) = true := by
        cases h1 : confs.contains k
        · simpa [h1] using hk
        · rfl
      rw [if_pos hk', if_neg hk, potentialLoop_iff ixs potential h, Nat.add_zero]

/-- The nodes of `i` that count below a node are those it sees, itself apart. -/
theorem confirmLength_some (hL : L.WF) {p y : NodeId K} (hp : p ∈ L.deps) :
    y.seq < L.confirmLength (some p) y.key ↔ L.Past p y ∧ y ≠ p := by
  obtain ⟨kp, sp⟩ := p
  obtain ⟨k, s⟩ := y
  unfold confirmLength
  dsimp only
  split_ifs with hk
  · subst hk
    constructor
    · intro h
      refine ⟨Past.of_le hL h.le hp, fun he => ?_⟩
      have := congrArg NodeId.seq he
      exact h.ne this
    · rintro ⟨h, hne⟩
      by_contra hlt
      have hle := Past.of_le hL (Nat.not_lt.mp hlt) (Past.mem hL h hp)
      exact hne (Past.antisymm hL hle h)
  · rw [hL.lt_clock_iff hp]
    exact ⟨fun h => ⟨h, fun he => hk (congrArg NodeId.key he).symm⟩, fun h => h.1⟩

theorem confirmLength_le (hL : L.WF) (hp : p ∈ L.deps) (i : K) :
    L.confirmLength (some p) i ≤ L.indexerLength i := by
  by_contra hlt
  have h := (confirmLength_some hL (y := ⟨i, L.indexerLength i⟩) hp).mp (Nat.not_le.mp hlt)
  exact lt_irrefl _ ((hL.seq _).mp (Past.mem hL h.1 hp))

section TopLevel

variable (hL : L.WF) {removed : Clock K} {t : NodeId K} (ht : t ∈ (history hL).nodes)
  (htR : t ∉ gone removed) {ix : ExtTreeSet K} (hix : L.indexers = some ix)
include ht htR hix

/-- The voters that acked at the top level are those that sealed the target, if they
have a node that is not removed. -/
theorem acked_none_iff {i : K} (hi : i ∈ L.voters) :
    L.confirms i t (L.acks t removed) (L.confirmLength none i) removed = .acked ↔
      removed.get i < L.indexerLength i ∧ i ∈ (history hL).sealers (gone removed) t := by
  have hlen : L.confirmLength none i ≤ L.indexerLength i := le_rfl
  rw [confirms_acked_iff hL ht htR hix hi hlen, History.mem_sealers]
  refine and_congr_right fun _ => exists_congr fun y => and_congr_right fun hy => ?_
  have hyd := ((mem_history hL).mp hy.1).1
  exact ⟨fun h => h.1, fun hk => ⟨hk, by rw [← (show y.key = i from hk)]; exact (hL.seq y).mp hyd⟩⟩

theorem ne_unseen_none_iff {i : K} (hi : i ∈ L.voters) :
    L.confirms i t (L.acks t removed) (L.confirmLength none i) removed ≠ .unseen ↔
      removed.get i < L.indexerLength i ∧ (history hL).Settled (gone removed) t i := by
  have hlen : L.confirmLength none i = L.indexerLength i := rfl
  rw [confirms_ne_unseen_iff hL ht hix hlen.le, acked_none_iff hL ht htR hix hi,
    History.mem_sealers, hlen, ← and_or_left]
  refine and_congr_right fun hawake => or_congr_right ⟨?_, ?_⟩
  · intro hn
    have hd : (⟨i, L.indexerLength i - 1⟩ : NodeId K) ∈ L.deps :=
      (hL.seq _).mpr (Nat.sub_lt (by omega) Nat.one_pos)
    refine ⟨_, ⟨(mem_history hL).mpr ⟨hd, hi⟩, fun z hz hw => ?_⟩, hn, rfl⟩
    obtain ⟨hzd, -⟩ := (mem_history hL).mp hz
    obtain ⟨k, s⟩ := z
    obtain rfl : k = i := hw
    exact Past.of_le hL (Nat.le_sub_one_of_lt ((hL.seq _).mp hzd)) hd
  · rintro ⟨⟨k, s⟩, hl, hn, rfl⟩
    have hd := ((mem_history hL).mp hl.1).1
    have hs : s < L.indexerLength k := (hL.seq _).mp hd
    have hlast : (⟨k, L.indexerLength k - 1⟩ : NodeId K) ∈ L.deps :=
      (hL.seq _).mpr (Nat.sub_lt (by omega) Nat.one_pos)
    have h1 := hl.2 _ ((mem_history hL).mpr ⟨hlast, hi⟩) rfl
    have h2 := Past.of_le hL (Nat.le_sub_one_of_lt hs) hlast
    exact Past.antisymm hL h1 h2 ▸ hn

/-- A target is confirmed if a majority acked it, and a majority acked again or what is checked
after the loop holds. -/
theorem isConfirmed_iff_loop {parent : Option (NodeId K)} {A : Finset K} {rest : Prop}
    (hA : ∀ i, i ∈ A ↔ i ∈ L.voters ∧
      L.confirms i t (L.acks t removed) (L.confirmLength parent i) removed = .acked)
    (hrest : ∀ (c : ExtTreeSet K) (b : Bool), (∀ i, i ∈ c ↔ i ∈ A) → A.card < (history hL).majority →
      (b = true ↔ ∀ i ∈ L.voters,
        L.confirms i t (L.acks t removed) (L.confirmLength parent i) removed ≠ .unseen) →
      (parent.elim b (L.isConfirmableAt t · (L.acks t removed) c removed) = true ↔ rest)) :
    L.isConfirmed t parent removed = true ↔
      (history hL).majority ≤ ((history hL).ackers (gone removed) t).card ∧
        ((history hL).majority ≤ A.card ∨ rest) := by
  have hstops : L.confirmLoop (history hL).majority t parent (L.acks t removed) removed
      L.indexerList ∅ true = none ↔ (history hL).majority ≤ A.card := by
    rw [confirmLoop_eq_none_iff nodup_indexerList (by simp) (by simp [History.majority]),
      ExtTreeSet.size_empty, Nat.zero_add, Graph.countP_eq_card nodup_indexerList _ (S := A) fun i => by
        rw [hA, mem_voters, decide_eq_true_eq]]
  unfold isConfirmed
  rw [majority_eq hL hix]
  dsimp only
  rw [length_acks hL ht hix htR]
  by_cases hack : ((history hL).ackers (gone removed) t).card < (history hL).majority
  · rw [if_pos hack]
    exact iff_of_false Bool.false_ne_true fun h => absurd h.1 (Nat.not_le.mpr hack)
  · rw [if_neg hack]
    split
    · rename_i hnone
      exact iff_of_true rfl ⟨Nat.not_lt.mp hack, Or.inl (hstops.mp hnone)⟩
    · rename_i c b hsome
      have hno : ¬ (history hL).majority ≤ A.card := by
        rw [← hstops, hsome]
        simp
      have htail := hrest c b (fun i => by rw [mem_confirmLoop i hsome, hA, mem_voters]; simp)
        (Nat.not_le.mp hno) (by simpa [mem_voters] using newer_confirmLoop hsome)
      simp only [hno, false_or, Nat.not_lt.mp hack, true_and]
      cases parent <;> exact htail

/-- At the top level `isConfirmed` is `Confirmed`, over the voters with a node that is
not removed. -/
theorem isConfirmed_none_iff : L.isConfirmed t none removed = true ↔
    (history hL).majority ≤ ((history hL).ackers (gone removed) t).card ∧
      ((history hL).majority ≤ (((history hL).sealers (gone removed) t).filter
          fun i => removed.get i < L.indexerLength i).card ∨
        ∀ i ∈ (history hL).voters, removed.get i < L.indexerLength i ∧
          (history hL).Settled (gone removed) t i) := by
  refine isConfirmed_iff_loop hL ht htR hix (fun i => ?_) fun c b _ _ hb => hb.trans ?_
  · rw [Finset.mem_filter]
    constructor
    · rintro ⟨hi, hawake⟩
      have hv : i ∈ L.voters := History.sealers_subset t hi
      exact ⟨hv, (acked_none_iff hL ht htR hix hv).mpr ⟨hawake, hi⟩⟩
    · rintro ⟨hv, h⟩
      exact ((acked_none_iff hL ht htR hix hv).mp h).symm
  · exact forall₂_congr fun i hi => ne_unseen_none_iff hL ht htR hix hi

end TopLevel

section IsConfirmed

variable (hL : L.WF) {removed : Clock K} {t : NodeId K} (ht : t ∈ (history hL).nodes)
  (htR : t ∉ gone removed) (hlow : Lower hL removed) {ix : ExtTreeSet K}
  (hix : L.indexers = some ix)
include ht htR hlow hix

variable {i : K}

omit hix in
/-- A voter that settled the target has a node that is not removed. -/
theorem awake_of_settled (h : (history hL).Settled (gone removed) t i) :
    removed.get i < L.indexerLength i := by
  have hof : ∀ y ∈ (history hL).nodes, L.Past y t → removed.get y.key < L.indexerLength y.key :=
    fun y hy hty => (Nat.not_lt.mp (hlow.above ht htR y hy hty)).trans_lt
      ((hL.seq y).mp ((mem_history hL).mp hy).1)
  obtain ⟨y, hy, rfl⟩ | ⟨y, hl, hy, rfl⟩ := h
  · exact hof y hy.1 hy.2.1.1
  · exact hof y hl.1 hy.1

/-- At the top level `isConfirmed` is `Confirmed`. -/
theorem isConfirmed_none :
    L.isConfirmed t none removed = true ↔ (history hL).Confirmed (gone removed) t := by
  have hawake : ∀ i ∈ (history hL).sealers (gone removed) t, removed.get i < L.indexerLength i :=
    fun i hi => awake_of_settled hL ht htR hlow (Or.inl (History.mem_sealers.mp hi))
  rw [isConfirmed_none_iff hL ht htR hix, Finset.filter_true_of_mem hawake, History.Confirmed]
  refine and_congr_right fun _ => or_congr_right (forall₂_congr fun i _ => ?_)
  exact and_iff_right_of_imp (awake_of_settled hL ht htR hlow)

variable {p : NodeId K}

/-- The voters that acked as seen from `p` are those that sealed the target below it. -/
theorem mem_sealersBelow_iff (hp : p ∈ L.deps) (hi : i ∈ L.voters) :
    i ∈ (history hL).sealersBelow (gone removed) t p ↔
      L.confirms i t (L.acks t removed) (L.confirmLength (some p) i) removed = .acked := by
  rw [History.mem_sealersBelow, confirms_acked hL ht htR hix hlow hi (confirmLength_le hL hp i)]
  refine exists_congr fun y => and_congr_right fun _ => ?_
  constructor
  · rintro ⟨h1, h2, rfl⟩
    exact ⟨rfl, (confirmLength_some hL hp).mpr ⟨h1, h2⟩⟩
  · rintro ⟨rfl, h⟩
    obtain ⟨h1, h2⟩ := (confirmLength_some hL hp).mp h
    exact ⟨h1, h2, rfl⟩

omit htR hlow in
theorem mayConfirm_iff (hp : p ∈ L.deps) (hi : i ∈ L.voters) :
    L.mayConfirm t p removed i = true ↔ (history hL).MaySeal (gone removed) t p i := by
  have htd := ((mem_history hL).mp ht).1
  unfold mayConfirm
  dsimp only
  cases hlen : (L.clock p).get i with
  | zero =>
    rw [if_neg (by simp)]
    refine iff_of_true rfl ?_
    rintro ⟨k, s⟩ - hk hhp
    obtain rfl : k = i := hk
    have := (hL.lt_clock_iff hp k s).mpr hhp
    omega
  | succ n =>
    have hpn : L.Past p ⟨i, n⟩ := (hL.lt_clock_iff hp i n).mp (by omega)
    have hd := Past.mem hL hpn hp
    have hmem : (⟨i, n⟩ : NodeId K) ∈ (history hL).nodes := (mem_history hL).mpr ⟨hd, hi⟩
    have hlast : ∀ z ∈ (history hL).nodes, (history hL).writer z = i → (history hL).le z p →
        (history hL).le z ⟨i, n⟩ := by
      rintro ⟨k, s⟩ - hk hzp
      obtain rfl : k = i := hk
      have := (hL.lt_clock_iff hp k s).mpr hzp
      exact Past.of_le hL (by omega) hd
    have hmay : (history hL).MaySeal (gone removed) t p i ↔
        (L.Past t ⟨i, n⟩ ∨ (⟨i, n⟩ : NodeId K) ∈ gone removed ∨
          (history hL).Newer (gone removed) t ⟨i, n⟩) := by
      refine ⟨fun h => h _ hmem rfl hpn hlast, fun h x hx hw hxp hxl => ?_⟩
      have he : x = ⟨i, n⟩ := Past.antisymm hL (hxl _ hmem rfl hpn) (hlast x hx hw hxp)
      rw [he]
      exact h
    rw [hmay]
    simp only [Nat.add_sub_cancel, Nat.le_add_left, decide_true, Bool.and_true]
    by_cases hin : (L.clock t).includes i (n + 1) = true
    · have := (hL.lt_clock_iff htd i n).mp ((Clock.includes_iff _ _ _).mp hin)
      simp [hin, this]
    · have hnt : ¬ L.Past t ⟨i, n⟩ := fun h =>
        hin ((Clock.includes_iff _ _ _).mpr ((hL.lt_clock_iff htd i n).mpr h))
      have hc : L.contains ⟨i, n⟩ = true := by simpa [contains_eq] using hd
      have hg := Clock.includes_iff removed i n
      have hs : L.strictlyNewer t ⟨i, n⟩ removed = true ↔ _ := strictlyNewer_iff hL htd hd hix
      simp only [hin, Bool.not_false, if_true, hc, Bool.true_and, hnt, false_or]
      rw [mem_gone, ← hg, ← hs]
      cases removed.includes i (n + 1) <;> cases L.strictlyNewer t ⟨i, n⟩ removed <;> simp

/-- As seen from a node `isConfirmed` is `ConfirmedBelow`. -/
theorem isConfirmed_some (hp : p ∈ L.deps) : L.isConfirmed t (some p) removed = true ↔
    (history hL).ConfirmedBelow (gone removed) t p := by
  have hsub : ∀ i ∈ (history hL).sealersBelow (gone removed) t p, i ∈ L.voters := fun i hi => by
    obtain ⟨y, hy, -, -, rfl⟩ := History.mem_sealersBelow.mp hi
    exact (history hL).voter y hy.1
  refine isConfirmed_iff_loop hL ht htR hix (fun i => ?_) fun c _ hc hno _ => ?_
  · have hseal := fun hi : i ∈ L.voters => mem_sealersBelow_iff hL ht htR hlow hix hp hi
    exact ⟨fun hi => ⟨hsub i hi, (hseal (hsub i hi)).mp hi⟩, fun h => (hseal h.1).mpr h.2⟩
  · have hsize : c.size = ((history hL).sealersBelow (gone removed) t p).card := by
      rw [← Graph.card_toFinset]
      congr 1
      ext i
      rw [Graph.mem_toFinset, hc]
    -- the potential voters are those in `c` and the others that may still seal
    have hpot : c.size + L.indexerList.countP (fun i => !c.contains i &&
        L.mayConfirm t p removed i) = ((history hL).potential (gone removed) t p).card := by
      classical
      rw [Graph.countP_eq_card nodup_indexerList _
        (S := (history hL).potential (gone removed) t p \
          (history hL).sealersBelow (gone removed) t p) (fun i => by
        rw [Finset.mem_sdiff, History.mem_potential, ← mem_voters]
        simp only [Bool.and_eq_true, Bool.not_eq_true', ← Bool.not_eq_true,
          ExtTreeSet.contains_iff_mem, hc]
        constructor
        · rintro ⟨⟨hv, h | h⟩, hn⟩
          · exact absurd h hn
          · exact ⟨hv, hn, (mayConfirm_iff hL ht hix hp hv).mpr h⟩
        · rintro ⟨hv, hn, h⟩
          exact ⟨⟨hv, Or.inr ((mayConfirm_iff hL ht hix hp hv).mp h)⟩, hn⟩), hsize,
        Nat.add_comm, Finset.card_sdiff_add_card_eq_card]
      intro i hi
      exact History.mem_potential.mpr ⟨hsub i hi, Or.inl hi⟩
    rw [Option.elim_some, isConfirmableAt, ackedAt, majority_eq hL hix]
    dsimp only
    rw [Bool.and_eq_true, ackedAtLoop_iff _ _ (by simp [History.majority]),
      potentialLoop_iff _ _ (by omega), hpot, Nat.zero_add, countP_acks hL ht hix htR]

end IsConfirmed

end Linearizer
end HypercoreRs
