/-
# Votes do not split, and confirmations stay

Two facts about confirmation that hold for any clock of removed nodes, not only for
those the shift driver reaches.

An indexer never votes for both of two concurrent nodes (`acks_disjoint`): its later
vote sees the other node, which is concurrent to what it votes for. So one of the two
at most is confirmed.

A node that is confirmed stays so when the DAG grows (`isConfirmed_add`). The votes and
the nodes that seal the target stay. Where it was confirmed because no indexer could
turn away from it, every indexer's last node is above it, and a further node sees the
last one of its writer.
-/
import HypercoreRs.Autobase.Indexers

namespace HypercoreRs

open Std Quorum

namespace Linearizer

variable {K : Type} [LinearOrder K] {L L' : Linearizer K}

/-! ### Votes for concurrent nodes -/

variable {removed : Clock K}

/-- The nodes two votes of one indexer are for are comparable. -/
theorem comparable_of_acks (hL : L.WF) {ix : ExtTreeSet K} (hix : L.indexers = some ix)
    {x y a b : NodeId K} (hx : x ∈ (history hL).nodes) (hxR : x ∉ gone removed)
    (hy : y ∈ (history hL).nodes) (hyR : y ∉ gone removed) (ha : a ∈ L.acks x removed)
    (hb : b ∈ L.acks y removed) (hkey : a.key = b.key) : L.Past x y ∨ L.Past y x := by
  have hax := ack_of_mem hL hx hix hxR ha
  have hby := ack_of_mem hL hy hix hyR hb
  rcases (history hL).chain a hax.1 b hby.1 hkey with hab | hba
  · exact (hby.2.2.2 x hx hxR ((history hL).trans hax.2.2.1 hab)).symm
  · exact hax.2.2.2 y hy hyR ((history hL).trans hby.2.2.1 hba)

theorem majority_le_of_isConfirmed {M : ℕ} (hM : L.majority = some M) {t : NodeId K}
    {parent : Option (NodeId K)} (h : L.isConfirmed t parent removed = true) :
    M ≤ (L.acks t removed).length := by
  unfold isConfirmed at h
  rw [hM] at h
  dsimp only at h
  split_ifs at h with hlt
  exact Nat.not_lt.mp hlt

/-- A delivered node of an indexer that the clock does not cover. -/
theorem mem_history_of (hL : L.WF) {x : NodeId K} (hx : L.contains x = true) (hkey : L.isIndexer x.key = true)
    (hR : removed.includes x.key (x.seq + 1) = false) :
    x ∈ (history hL).nodes ∧ x ∉ gone removed := by
  rw [contains_eq, decide_eq_true_iff] at hx
  refine ⟨(mem_history hL).mpr ⟨hx, isIndexer_iff.mp hkey⟩, fun hgone => ?_⟩
  rw [(removed.includes_iff x.key x.seq).mpr hgone] at hR
  cases hR

theorem exists_indexers_of_isIndexer {k : K} (h : L.isIndexer k = true) : ∃ ix, L.indexers = some ix := by
  rw [isIndexer] at h
  cases hix : L.indexers with
  | none =>
    rw [hix] at h
    simp at h
  | some ix => exact ⟨ix, rfl⟩

/-- **No indexer votes for two concurrent nodes**, whatever is removed; so one of the two
at most is confirmed. -/
theorem acks_disjoint {indexers : List K} {acc : List (Delivery K)}
    (h : Adds (withIndexers indexers) acc L) (removed : Clock K) {x y : NodeId K}
    (hx : L.contains x = true) (hxi : L.isIndexer x.key = true)
    (hxR : removed.includes x.key (x.seq + 1) = false) (hy : L.contains y = true)
    (hyi : L.isIndexer y.key = true) (hyR : removed.includes y.key (y.seq + 1) = false)
    (hxy : L.sees x y = false) (hyx : L.sees y x = false) :
    (∀ a ∈ L.acks x removed, ∀ b ∈ L.acks y removed, a.key ≠ b.key) ∧
      ¬ (L.isConfirmed x none removed = true ∧ L.isConfirmed y none removed = true) := by
  have hL := (h.run (.withIndexers indexers)).valid.wf
  have hix := h.fresh.indexers
  obtain ⟨hxn, hxg⟩ := mem_history_of hL hx hxi hxR
  obtain ⟨hyn, hyg⟩ := mem_history_of hL hy hyi hyR
  have hinc : ¬ (L.Past x y ∨ L.Past y x) := by
    rintro (hp | hp)
    · rw [(hL.sees_iff x y).mpr hp] at hxy
      cases hxy
    · rw [(hL.sees_iff y x).mpr hp] at hyx
      cases hyx
  refine ⟨fun a ha b hb hkey => hinc (comparable_of_acks hL hix hxn hxg hyn hyg ha hb hkey), ?_⟩
  rintro ⟨hcx, hcy⟩
  have hM := majority_eq hL hix
  have hax := majority_le_of_isConfirmed hM hcx
  have hay := majority_le_of_isConfirmed hM hcy
  rw [length_acks hL hxn hix hxg] at hax
  rw [length_acks hL hyn hix hyg] at hay
  exact hinc (History.comparable_of_ackers hxn hxg hyn hyg hax hay).symm

/-- Three indexers: the third votes for the first of two concurrent nodes. -/
def forked : List (Delivery ℕ) := [(⟨0, 0⟩, []), (⟨1, 0⟩, []), (⟨2, 0⟩, [⟨0, 0⟩])]

theorem acks_disjoint_forked : ∃ L : Linearizer ℕ, Adds (withIndexers [0, 1, 2]) forked L ∧
    (L.acks ⟨0, 0⟩ Clock.empty).length = 2 ∧
    ∀ a ∈ L.acks ⟨0, 0⟩ Clock.empty, ∀ b ∈ L.acks ⟨1, 0⟩ Clock.empty, a.key ≠ b.key := by
  have e : ((withIndexers [0, 1, 2]).deliver forked).any (fun L : Linearizer ℕ =>
      L.contains ⟨0, 0⟩ && L.isIndexer 0 && L.contains ⟨1, 0⟩ && L.isIndexer 1 &&
      !L.sees ⟨0, 0⟩ ⟨1, 0⟩ && !L.sees ⟨1, 0⟩ ⟨0, 0⟩ &&
      (L.acks ⟨0, 0⟩ Clock.empty).length == 2) = true := by decide +kernel
  obtain ⟨L, hL, hcheck⟩ := (Option.any_eq_true _ _).mp e
  simp only [Bool.and_eq_true, Bool.not_eq_true', beq_iff_eq] at hcheck
  obtain ⟨⟨⟨⟨⟨⟨hx, hxi⟩, hy⟩, hyi⟩, hxy⟩, hyx⟩, hlen⟩ := hcheck
  have hadds := Adds.start.deliver hL
  exact ⟨L, hadds, hlen, (acks_disjoint hadds Clock.empty hx hxi rfl hy hyi rfl hxy hyx).1⟩

/-! ### Growth -/

/-- An accepted node leaves the number of the other writers' nodes, and raises its own
writer's. -/
theorem indexerLength_le_add {node : NodeId K} {heads : List (NodeId K)}
    (ha : L.add node heads = (L', .ok ())) (k : K) : L.indexerLength k ≤ L'.indexerLength k := by
  obtain ⟨-, hseq, -, rfl⟩ := add_eq_ok.mp ha
  rw [indexerLength, indexerLength, nextSeq_attach]
  split_ifs with hk
  · rw [hk, ← hseq]
    exact Nat.le_succ _
  · exact le_rfl

/-- **A confirmation is never retracted**: a confirmed node of an indexer that is not
removed is confirmed after every further add. -/
theorem isConfirmed_add (h : Built L) (removed : Clock K) {t : NodeId K} (ht : L.contains t = true)
    (hti : L.isIndexer t.key = true) (htR : removed.includes t.key (t.seq + 1) = false)
    (hc : L.isConfirmed t none removed = true) {node : NodeId K} {heads : List (NodeId K)}
    (ha : L.add node heads = (L', .ok ())) : L'.isConfirmed t none removed = true := by
  have hL := h.keeps.1
  have hL' : L'.WF := by
    have hadd := (h.add node heads).keeps.1
    rwa [ha] at hadd
  obtain ⟨ix, hix⟩ := exists_indexers_of_isIndexer hti
  have hix' : L'.indexers = some ix := by
    have hfixed := (add_fixed L node heads).1
    rw [ha] at hfixed
    exact hfixed.trans hix
  have e := history_extends hL hL' ha
  obtain ⟨htn, htg⟩ := mem_history_of hL ht hti htR
  have hgrow := fun i => indexerLength_le_add ha i
  rw [isConfirmed_none_iff hL htn htg hix] at hc
  rw [isConfirmed_none_iff hL' (e.sub t htn) htg hix']
  have hM : (history hL').majority = (history hL).majority := by
    rw [History.majority, e.voters, History.majority]
  rw [hM]
  refine ⟨hc.1.trans (Finset.card_le_card (e.ackers htn)), ?_⟩
  rcases hc.2 with hsealed | hsettled
  · -- the nodes that seal the target stay
    refine Or.inl (hsealed.trans (Finset.card_le_card fun i hi => ?_))
    obtain ⟨hseal, hawake⟩ := Finset.mem_filter.mp hi
    exact Finset.mem_filter.mpr ⟨e.sealers htn hseal, hawake.trans_le (hgrow i)⟩
  · -- no indexer can turn away
    refine Or.inr fun i hi => ?_
    have hi' : i ∈ (history hL).voters := e.voters ▸ hi
    exact ⟨(hsettled i hi').1.trans_le (hgrow i), e.settled htn (fun j hj => (hsettled j hj).2) hi'⟩

theorem isConfirmed_add_direct : ∃ L' : Linearizer ℕ, direct.add ⟨1, 1⟩ [⟨0, 1⟩] = (L', .ok ()) ∧
    direct.isConfirmed ⟨0, 0⟩ none Clock.empty = true ∧
    L'.isConfirmed ⟨0, 0⟩ none Clock.empty = true := by
  have hc : direct.isConfirmed ⟨0, 0⟩ none Clock.empty = true := by decide +kernel
  obtain ⟨L', hL'⟩ := Option.isSome_iff_exists.mp
    (show (direct.deliver [(⟨1, 1⟩, [⟨0, 1⟩])]).isSome = true by decide +kernel)
  have hbuilt : Built direct := (((Built.withIndexers [0, 1]).add _ _).add _ _).add _ _
  exact ⟨L', add_of_deliver hL', hc, isConfirmed_add hbuilt Clock.empty (by decide +kernel)
    (by decide +kernel) rfl hc (add_of_deliver hL')⟩

end Linearizer
end HypercoreRs
