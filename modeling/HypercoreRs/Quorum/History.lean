/-
# Confirmation by quorums over a causal history

A history is a finite set of nodes under a causal order, each node by one of a
set of voters, the nodes of one voter in a chain. Relative to a set `R` of
removed nodes, a node `p` is newer than `t` when it sees `t` and everything it
sees outside `R` is comparable to `t` (`Newer`); such a node is a vote for `t`
(`Ack`). `t` is confirmed when a majority of the voters vote for it and either a
majority of them have a newer node that itself sees a majority of those votes,
or no voter can turn away from `t` any more (`Confirmed`).

What follows from two majorities having a common voter:
* nodes with a majority of votes are comparable (`comparable_of_ackers`);
* a confirmed node confirms every node it is newer than (`Confirmed.of_newer`);
* nothing is confirmed past the last confirmed node (`Confirmed.le_of_maximal`);
* a node with a majority of votes that sees something concurrent to a confirmed
  node `m` confirms, as far as it can see, what `m` is newer than
  (`confirmedBelow`);
* a confirmed node stays confirmed when the history grows (`Confirmed.extend`).
-/
import Mathlib

namespace HypercoreRs
namespace Quorum

/-- Two majorities of one set meet. -/
theorem exists_common {K : Type} {V A B : Finset K} (hA : A ⊆ V) (hB : B ⊆ V)
    (ha : V.card / 2 + 1 ≤ A.card) (hb : V.card / 2 + 1 ≤ B.card) : ∃ i ∈ A, i ∈ B := by
  classical
  by_contra hno
  have hdis : Disjoint A B := Finset.disjoint_left.mpr fun i hi hi' => hno ⟨i, hi, hi'⟩
  have hcard := Finset.card_le_card (Finset.union_subset hA hB)
  rw [Finset.card_union_of_disjoint hdis] at hcard
  omega

/-- A finite causal history. -/
structure History (N K : Type) where
  le : N → N → Prop
  refl : ∀ x, le x x
  trans : ∀ {x y z}, le x y → le y z → le x z
  antisymm : ∀ {x y}, le x y → le y x → x = y
  writer : N → K
  voters : Finset K
  nodes : Finset N
  voter : ∀ x ∈ nodes, writer x ∈ voters
  chain : ∀ x ∈ nodes, ∀ y ∈ nodes, writer x = writer y → le x y ∨ le y x

namespace History

variable {N K : Type} (H : History N K) (R : Set N)

def Comparable (x y : N) : Prop := H.le x y ∨ H.le y x

/-- `p` sees `t`, and what it sees outside `R` is comparable to `t`. -/
def Newer (t p : N) : Prop :=
  H.le t p ∧ ∀ x ∈ H.nodes, x ∉ R → H.le x p → H.Comparable x t

/-- `a` is a vote for `t`. -/
def Ack (t a : N) : Prop := a ∈ H.nodes ∧ a ∉ R ∧ H.Newer R t a

def majority : ℕ := H.voters.card / 2 + 1

open Classical in
/-- The voters with a vote for `t`. -/
noncomputable def ackers (t : N) : Finset K :=
  H.voters.filter fun i => ∃ a, H.Ack R t a ∧ H.writer a = i

open Classical in
/-- The voters whose vote for `t` is seen by `y`. -/
noncomputable def votesSeen (t y : N) : Finset K :=
  H.voters.filter fun i => ∃ a, H.Ack R t a ∧ H.le a y ∧ H.writer a = i

/-- `y` is newer than `t` and sees a majority of votes for it. -/
def Seals (t y : N) : Prop :=
  y ∈ H.nodes ∧ H.Newer R t y ∧ H.majority ≤ (H.votesSeen R t y).card

open Classical in
/-- The voters with a node that seals `t`. -/
noncomputable def sealers (t : N) : Finset K :=
  H.voters.filter fun i => ∃ y, H.Seals R t y ∧ H.writer y = i

/-- `y` is the last node of its writer. -/
def Last (y : N) : Prop := y ∈ H.nodes ∧ ∀ z ∈ H.nodes, H.writer z = H.writer y → H.le z y

/-- The voter `i` sealed `t`, or its last node is newer than `t`. -/
def Settled (t : N) (i : K) : Prop :=
  (∃ y, H.Seals R t y ∧ H.writer y = i) ∨ ∃ y, H.Last y ∧ H.Newer R t y ∧ H.writer y = i

def Confirmed (t : N) : Prop :=
  H.majority ≤ (H.ackers R t).card ∧
    (H.majority ≤ (H.sealers R t).card ∨ ∀ i ∈ H.voters, H.Settled R t i)

/-! ### The same as seen from a node `p` -/

open Classical in
/-- The voters with a node strictly below `p` that seals `t`. -/
noncomputable def sealersBelow (t p : N) : Finset K :=
  H.voters.filter fun i => ∃ y, H.Seals R t y ∧ H.le y p ∧ y ≠ p ∧ H.writer y = i

/-- As far as `p` sees, `i` can still seal `t`: the last node of `i` below `p` is
below `t`, removed, or newer than `t`. -/
def MaySeal (t p : N) (i : K) : Prop :=
  ∀ h ∈ H.nodes, H.writer h = i → H.le h p →
    (∀ z ∈ H.nodes, H.writer z = i → H.le z p → H.le z h) →
    H.le h t ∨ h ∈ R ∨ H.Newer R t h

open Classical in
/-- The voters below `p` that sealed `t` or still may. -/
noncomputable def potential (t p : N) : Finset K :=
  H.voters.filter fun i => i ∈ H.sealersBelow R t p ∨ H.MaySeal R t p i

def ConfirmedBelow (t p : N) : Prop :=
  H.majority ≤ (H.ackers R t).card ∧ (H.majority ≤ (H.sealersBelow R t p).card ∨
    (H.majority ≤ (H.votesSeen R t p).card ∧ H.majority ≤ (H.potential R t p).card))

variable {H R}

theorem Comparable.symm {x y : N} (h : H.Comparable x y) : H.Comparable y x := Or.symm h

/-! ### Newer nodes -/

theorem newer_refl (t : N) : H.Newer R t t := ⟨H.refl t, fun _ _ _ hx => Or.inl hx⟩

theorem Newer.of_le {t p q : N} (h : H.Newer R t p) (hq : H.le q p) (ht : H.le t q) :
    H.Newer R t q :=
  ⟨ht, fun x hx hR hxq => h.2 x hx hR (H.trans hxq hq)⟩

theorem Newer.trans {d m p : N} (hd : H.Newer R d m) (hm : H.Newer R m p) : H.Newer R d p := by
  refine ⟨H.trans hd.1 hm.1, fun x hx hR hxp => ?_⟩
  rcases hm.2 x hx hR hxp with h | h
  · exact hd.2 x hx hR h
  · exact Or.inr (H.trans hd.1 h)

theorem Ack.of_newer {d m a : N} (hd : H.Newer R d m) (ha : H.Ack R m a) : H.Ack R d a :=
  ⟨ha.1, ha.2.1, hd.trans ha.2.2⟩

variable {i : K}

theorem mem_ackers {t : N} : i ∈ H.ackers R t ↔ ∃ a, H.Ack R t a ∧ H.writer a = i := by
  simp only [ackers, Finset.mem_filter, and_iff_right_iff_imp]
  rintro ⟨a, ha, rfl⟩
  exact H.voter a ha.1

theorem mem_votesSeen {t y : N} :
    i ∈ H.votesSeen R t y ↔ ∃ a, H.Ack R t a ∧ H.le a y ∧ H.writer a = i := by
  simp only [votesSeen, Finset.mem_filter, and_iff_right_iff_imp]
  rintro ⟨a, ha, -, rfl⟩
  exact H.voter a ha.1

theorem mem_sealers {t : N} : i ∈ H.sealers R t ↔ ∃ y, H.Seals R t y ∧ H.writer y = i := by
  simp only [sealers, Finset.mem_filter, and_iff_right_iff_imp]
  rintro ⟨y, hy, rfl⟩
  exact H.voter y hy.1

theorem mem_sealersBelow {t p : N} :
    i ∈ H.sealersBelow R t p ↔ ∃ y, H.Seals R t y ∧ H.le y p ∧ y ≠ p ∧ H.writer y = i := by
  simp only [sealersBelow, Finset.mem_filter, and_iff_right_iff_imp]
  rintro ⟨y, hy, -, -, rfl⟩
  exact H.voter y hy.1

theorem mem_potential {t p : N} : i ∈ H.potential R t p ↔
    i ∈ H.voters ∧ (i ∈ H.sealersBelow R t p ∨ H.MaySeal R t p i) := by
  simp only [potential, Finset.mem_filter]

theorem ackers_subset (t : N) : H.ackers R t ⊆ H.voters := fun i hi => by
  obtain ⟨a, ha, rfl⟩ := mem_ackers.mp hi
  exact H.voter a ha.1

theorem sealers_subset (t : N) : H.sealers R t ⊆ H.voters := fun i hi => by
  obtain ⟨y, hy, rfl⟩ := mem_sealers.mp hi
  exact H.voter y hy.1

/-! ### Transfer along newer nodes -/

variable {d m : N}

theorem ackers_mono (hd : H.Newer R d m) : H.ackers R m ⊆ H.ackers R d := by
  intro i hi
  obtain ⟨a, ha, hw⟩ := mem_ackers.mp hi
  exact mem_ackers.mpr ⟨a, ha.of_newer hd, hw⟩

theorem votesSeen_mono {d m y z : N} (hd : H.Newer R d m) (hyz : H.le y z) :
    H.votesSeen R m y ⊆ H.votesSeen R d z := by
  intro i hi
  obtain ⟨a, ha, hay, hw⟩ := mem_votesSeen.mp hi
  exact mem_votesSeen.mpr ⟨a, ha.of_newer hd, H.trans hay hyz, hw⟩

theorem Seals.of_newer {d m y : N} (hd : H.Newer R d m) (hy : H.Seals R m y) : H.Seals R d y :=
  ⟨hy.1, hd.trans hy.2.1,
    hy.2.2.trans (Finset.card_le_card (votesSeen_mono hd (H.refl y)))⟩

theorem sealers_mono (hd : H.Newer R d m) : H.sealers R m ⊆ H.sealers R d := by
  intro i hi
  obtain ⟨y, hy, hw⟩ := mem_sealers.mp hi
  exact mem_sealers.mpr ⟨y, hy.of_newer hd, hw⟩

theorem Settled.of_newer (hd : H.Newer R d m) (h : H.Settled R m i) : H.Settled R d i := by
  rcases h with ⟨y, hy, hw⟩ | ⟨y, hl, hy, hw⟩
  · exact Or.inl ⟨y, hy.of_newer hd, hw⟩
  · exact Or.inr ⟨y, hl, hd.trans hy, hw⟩

/-- A confirmed node confirms what it is newer than. -/
theorem Confirmed.of_newer (hd : H.Newer R d m) (h : H.Confirmed R m) : H.Confirmed R d := by
  refine ⟨h.1.trans (Finset.card_le_card (ackers_mono hd)), ?_⟩
  rcases h.2 with h | h
  · exact Or.inl (h.trans (Finset.card_le_card (sealers_mono hd)))
  · exact Or.inr fun i hi => (h i hi).of_newer hd

/-! ### Comparable nodes -/

/-- The chain of a voter with a node has a last node. -/
theorem exists_last (H : History N K) {y : N} (hy : y ∈ H.nodes) :
    ∃ z, (z ∈ H.nodes ∧ H.writer z = H.writer y) ∧
      ∀ x ∈ H.nodes, H.writer x = H.writer z → H.le x z := by
  classical
  let _ : PartialOrder N :=
    { le := H.le, le_refl := H.refl, le_trans := fun _ _ _ => H.trans,
      le_antisymm := fun _ _ => H.antisymm }
  obtain ⟨z, hz, hmax⟩ := (H.nodes.filter fun x => H.writer x = H.writer y).exists_maximal
    ⟨y, Finset.mem_filter.mpr ⟨hy, rfl⟩⟩
  obtain ⟨hzn, hzw⟩ := Finset.mem_filter.mp hz
  refine ⟨z, ⟨hzn, hzw⟩, fun x hx hxw => ?_⟩
  rcases H.chain x hx z hzn hxw with h | h
  · exact h
  · exact hmax (Finset.mem_filter.mpr ⟨hx, hxw.trans hzw⟩) h

/-- Nodes with a majority of votes each are comparable: a common voter's later vote
sees both. -/
theorem comparable_of_ackers {x y : N} (hx : x ∈ H.nodes) (hxR : x ∉ R) (hy : y ∈ H.nodes)
    (hyR : y ∉ R) (ax : H.majority ≤ (H.ackers R x).card)
    (ay : H.majority ≤ (H.ackers R y).card) : H.Comparable x y := by
  obtain ⟨i, hi, hi'⟩ := exists_common (ackers_subset x) (ackers_subset y) ax ay
  obtain ⟨a, ha, rfl⟩ := mem_ackers.mp hi
  obtain ⟨b, hb, hw⟩ := mem_ackers.mp hi'
  rcases H.chain a ha.1 b hb.1 hw.symm with hab | hba
  · exact hb.2.2.2 x hx hxR (H.trans ha.2.2.1 hab)
  · exact (ha.2.2.2 y hy hyR (H.trans hb.2.2.1 hba)).symm

/-- Every node of a settled voter is comparable to the target. -/
theorem Settled.comparable {t x : N} (h : H.Settled R t (H.writer x)) (hx : x ∈ H.nodes)
    (hxR : x ∉ R) : H.Comparable x t := by
  rcases h with ⟨y, hy, hw⟩ | ⟨y, hl, hy, hw⟩
  · rcases H.chain x hx y hy.1 hw.symm with hxy | hyx
    · exact hy.2.1.2 x hx hxR hxy
    · exact Or.inr (H.trans hy.2.1.1 hyx)
  · exact hy.2 x hx hxR (hl.2 x hx hw.symm)

/-- With a node concurrent to it, a confirmed node was sealed by a majority. -/
theorem Confirmed.sealed {m u : N} (h : H.Confirmed R m) (hu : u ∈ H.nodes) (huR : u ∉ R)
    (hum : ¬ H.Comparable u m) : H.majority ≤ (H.sealers R m).card := by
  rcases h.2 with h | h
  · exact h
  · exact absurd ((h _ (H.voter u hu)).comparable hu huR) hum

/-! ### Removing a part of the past -/

section Removed

variable {R₀ : Set N}

theorem newer_congr {t p : N} (hR : ∀ x ∈ H.nodes, (x ∈ R ↔ x ∈ R₀) ∨ H.le x t) :
    H.Newer R t p ↔ H.Newer R₀ t p := by
  have key : ∀ {S S' : Set N}, (∀ x ∈ H.nodes, (x ∈ S ↔ x ∈ S') ∨ H.le x t) →
      H.Newer S t p → H.Newer S' t p := fun hS h => ⟨h.1, fun x hx hx' hxp => by
    rcases hS x hx with he | hle
    · exact h.2 x hx (mt he.mp hx') hxp
    · exact Or.inl hle⟩
  exact ⟨key hR, key fun x hx => (hR x hx).imp_left Iff.symm⟩

theorem ack_congr {t a : N} (hR : ∀ x ∈ H.nodes, (x ∈ R ↔ x ∈ R₀) ∨ H.le x t) (ht : t ∉ R)
    (ht₀ : t ∉ R₀) : H.Ack R t a ↔ H.Ack R₀ t a := by
  unfold Ack
  rw [newer_congr hR]
  refine and_congr_right fun ha => and_congr_left fun hn => not_congr ?_
  rcases hR a ha with he | hle
  · exact he
  · rw [H.antisymm hle hn.1]
    exact iff_of_false ht ht₀

/-- Whether `t` is confirmed depends on which nodes are removed, those below `t` apart. -/
theorem confirmed_congr {t : N} (hR : ∀ x ∈ H.nodes, (x ∈ R ↔ x ∈ R₀) ∨ H.le x t) (ht : t ∉ R)
    (ht₀ : t ∉ R₀) : H.Confirmed R t ↔ H.Confirmed R₀ t := by
  have hack : ∀ a, H.Ack R t a ↔ H.Ack R₀ t a := fun a => ack_congr hR ht ht₀
  have hackers : H.ackers R t = H.ackers R₀ t := by
    ext i
    simp only [mem_ackers, hack]
  have hvotes : ∀ y, H.votesSeen R t y = H.votesSeen R₀ t y := fun y => by
    ext i
    simp only [mem_votesSeen, hack]
  have hseals : ∀ y, H.Seals R t y ↔ H.Seals R₀ t y := fun y => by
    unfold Seals
    rw [newer_congr hR, hvotes]
  have hsealers : H.sealers R t = H.sealers R₀ t := by
    ext i
    simp only [mem_sealers, hseals]
  have hsettled : ∀ i, H.Settled R t i ↔ H.Settled R₀ t i := fun i => by
    unfold Settled
    simp only [hseals, newer_congr hR]
  unfold Confirmed
  simp only [hackers, hsealers, hsettled]

/-! ### Past the last confirmed node -/

/-- If only one voter's votes can make a majority, there is one voter at most. -/
theorem card_voters_of_seals_self {m : N} (h : H.Seals R m m) : H.voters.card ≤ 1 := by
  have hsub : H.votesSeen R m m ⊆ {H.writer m} := fun i hi => by
    obtain ⟨a, ha, ham, rfl⟩ := mem_votesSeen.mp hi
    rw [H.antisymm ham ha.2.2.1]
    exact Finset.mem_singleton_self _
  have hcard := h.2.2.trans (Finset.card_le_card hsub)
  rw [Finset.card_singleton, majority] at hcard
  omega

/-- With the past of a confirmed node removed, a confirmed node is above it. -/
theorem Confirmed.le_of_removed {m t : N} (hm : H.Confirmed R₀ m) (hmn : m ∈ H.nodes)
    (hlow : ∀ y ∈ H.nodes, H.le m y → y ∉ R₀) (hR : ∀ x ∈ H.nodes, x ∈ R ↔ x ∈ R₀ ∨ H.le x m)
    (ht : t ∈ H.nodes) (htR : t ∉ R) (h : H.Confirmed R t) : H.le m t := by
  obtain ⟨ht₀, htm⟩ := not_or.mp (mt (hR t ht).mpr htR)
  by_contra hmt
  have hinc : ¬ H.Comparable t m := fun hc => hc.elim htm hmt
  have hs := hm.sealed ht ht₀ hinc
  obtain ⟨i, hi, hi'⟩ := exists_common (sealers_subset m) (ackers_subset t) hs h.1
  obtain ⟨y, hy, rfl⟩ := mem_sealers.mp hi
  obtain ⟨a, ha, hw⟩ := mem_ackers.mp hi'
  rcases H.chain a ha.1 y hy.1 hw with hay | hya
  · exact hinc (hy.2.1.2 t ht ht₀ (H.trans ha.2.2.1 hay))
  · by_cases hyR : y ∈ R
    · -- the sealing node is `m` itself, so there is a single voter, and its nodes are a chain
      have hle : H.le y m := ((hR y hy.1).mp hyR).resolve_left (hlow y hy.1 hy.2.1.1)
      have hym : y = m := H.antisymm hle hy.2.1.1
      subst hym
      have h1 := Finset.card_le_one.mp (card_voters_of_seals_self hy)
      exact hinc (H.chain t ht y hmn (h1 _ (H.voter t ht) _ (H.voter y hmn)))
    · rcases ha.2.2.2 y hy.1 hyR hya with hyt | hty
      · exact hmt (H.trans hy.2.1.1 hyt)
      · exact hinc (hy.2.1.2 t ht ht₀ hty)

/-- Nothing is confirmed once the past of the last confirmed node is removed. -/
theorem Confirmed.le_of_maximal {m t : N} (hm : H.Confirmed R₀ m) (hmn : m ∈ H.nodes)
    (hlow : ∀ y ∈ H.nodes, H.le m y → y ∉ R₀)
    (hmax : ∀ t ∈ H.nodes, t ∉ R₀ → H.Confirmed R₀ t → H.le t m)
    (hR : ∀ x ∈ H.nodes, x ∈ R ↔ x ∈ R₀ ∨ H.le x m) (ht : t ∈ H.nodes) (htR : t ∉ R) :
    ¬ H.Confirmed R t := by
  intro h
  have hmt := hm.le_of_removed hmn hlow hR ht htR h
  have ht₀ : t ∉ R₀ := fun h₀ => htR ((hR t ht).mpr (Or.inl h₀))
  have hbelow : ∀ x ∈ H.nodes, (x ∈ R ↔ x ∈ R₀) ∨ H.le x t := fun x hx => by
    by_cases hxm : H.le x m
    · exact Or.inr (H.trans hxm hmt)
    · exact Or.inl ((hR x hx).trans (or_iff_left hxm))
  have h0 := (confirmed_congr hbelow htR ht₀).mp h
  exact htR ((hR t ht).mpr (Or.inr (hmax t ht ht₀ h0)))

end Removed

/-! ### Above a confirmed node -/

/-- A node with a majority of votes that sees something concurrent to a confirmed
`m` sees a node that seals `m`. -/
theorem Confirmed.exists_seals_le {m p u : N} (hm : H.Confirmed R m)
    (hp : H.majority ≤ (H.ackers R p).card) (hu : u ∈ H.nodes) (huR : u ∉ R) (hup : H.le u p)
    (hum : ¬ H.Comparable u m) (hlow : ∀ y ∈ H.nodes, H.le m y → y ∉ R) :
    ∃ y, H.Seals R m y ∧ H.le y p := by
  obtain ⟨i, hi, hi'⟩ := exists_common (sealers_subset m) (ackers_subset p)
    (hm.sealed hu huR hum) hp
  obtain ⟨y, hy, rfl⟩ := mem_sealers.mp hi
  obtain ⟨a, ha, hw⟩ := mem_ackers.mp hi'
  have hnot : ∀ z, H.le z y → ¬ H.le u z := fun z hz huz =>
    hum (hy.2.1.2 u hu huR (H.trans huz hz))
  refine ⟨y, hy, ?_⟩
  rcases H.chain a ha.1 y hy.1 hw with hay | hya
  · exact absurd (H.trans hup ha.2.2.1) (hnot a hay)
  · rcases ha.2.2.2 y hy.1 (hlow y hy.1 hy.2.1.1) hya with h | h
    · exact h
    · exact absurd hup (hnot p h)

/-- As far as such a node can see, what `m` is newer than is confirmed. -/
theorem confirmedBelow {d m p u : N} (hd : H.Newer R d m) (hm : H.Confirmed R m)
    (hp : H.majority ≤ (H.ackers R p).card) (hu : u ∈ H.nodes) (huR : u ∉ R)
    (hup : H.le u p) (hum : ¬ H.Comparable u m) (hlow : ∀ y ∈ H.nodes, H.le m y → y ∉ R) :
    H.ConfirmedBelow R d p := by
  obtain ⟨y₀, hy₀, hle₀⟩ := hm.exists_seals_le hp hu huR hup hum hlow
  have hvotes := hy₀.2.2.trans (Finset.card_le_card (votesSeen_mono hd hle₀))
  have hpot : H.sealers R m ⊆ H.potential R d p := fun i hi => by
    obtain ⟨y, hy, rfl⟩ := mem_sealers.mp hi
    refine mem_potential.mpr ⟨H.voter y hy.1, ?_⟩
    by_cases hyp : H.le y p
    · refine Or.inl (mem_sealersBelow.mpr ⟨y, hy.of_newer hd, hyp, ?_, rfl⟩)
      rintro rfl
      exact hum (hy.2.1.2 u hu huR hup)
    · refine Or.inr fun h hh hw hhp hlast => ?_
      rcases H.chain h hh y hy.1 hw with hhy | hyh
      · by_cases hhR : h ∈ R
        · exact Or.inr (Or.inl hhR)
        · rcases (hd.trans hy.2.1).2 h hh hhR hhy with hhd | hdh
          · exact Or.inl hhd
          · exact Or.inr (Or.inr ((hd.trans hy.2.1).of_le hhy hdh))
      · exact absurd (H.trans hyh hhp) hyp
  exact ⟨hm.1.trans (Finset.card_le_card (ackers_mono hd)), Or.inr ⟨hvotes,
    (hm.sealed hu huR hum).trans (Finset.card_le_card hpot)⟩⟩

/-! ### Growth -/

/-- `H'` has further nodes; the past of the nodes of `H` is as it was. -/
structure Extends (H H' : History N K) : Prop where
  voters : H'.voters = H.voters
  writer : H'.writer = H.writer
  sub : ∀ x ∈ H.nodes, x ∈ H'.nodes
  le : ∀ y ∈ H.nodes, ∀ x, H'.le x y ↔ H.le x y
  low : ∀ y ∈ H.nodes, ∀ x ∈ H'.nodes, H'.le x y → x ∈ H.nodes

section Growth

variable {H' : History N K} (e : H.Extends H')
include e

theorem Extends.newer {t p : N} (ht : t ∈ H.nodes) (hp : p ∈ H.nodes) (h : H.Newer R t p) :
    H'.Newer R t p := by
  refine ⟨(e.le p hp t).mpr h.1, fun x hx hxR hxp => ?_⟩
  have hxn := e.low p hp x hx hxp
  rcases h.2 x hxn hxR ((e.le p hp x).mp hxp) with hc | hc
  · exact Or.inl ((e.le t ht x).mpr hc)
  · exact Or.inr ((e.le x hxn t).mpr hc)

theorem Extends.ack {t a : N} (ht : t ∈ H.nodes) (h : H.Ack R t a) : H'.Ack R t a :=
  ⟨e.sub a h.1, h.2.1, e.newer ht h.1 h.2.2⟩

variable {t : N}

theorem Extends.ackers (ht : t ∈ H.nodes) : H.ackers R t ⊆ H'.ackers R t := by
  intro i hi
  obtain ⟨a, ha, hw⟩ := mem_ackers.mp hi
  exact mem_ackers.mpr ⟨a, e.ack ht ha, e.writer ▸ hw⟩

theorem Extends.seals {t y : N} (ht : t ∈ H.nodes) (h : H.Seals R t y) : H'.Seals R t y := by
  have hsub : H.votesSeen R t y ⊆ H'.votesSeen R t y := fun i hi => by
    obtain ⟨a, ha, hay, hw⟩ := mem_votesSeen.mp hi
    exact mem_votesSeen.mpr ⟨a, e.ack ht ha, (e.le y h.1 a).mpr hay, e.writer ▸ hw⟩
  refine ⟨e.sub y h.1, e.newer ht h.1 h.2.1, ?_⟩
  have hM : H'.majority = H.majority := by rw [majority, e.voters, majority]
  exact hM ▸ h.2.2.trans (Finset.card_le_card hsub)

theorem Extends.sealers (ht : t ∈ H.nodes) : H.sealers R t ⊆ H'.sealers R t := by
  intro i hi
  obtain ⟨y, hy, hw⟩ := mem_sealers.mp hi
  exact mem_sealers.mpr ⟨y, e.seals ht hy, e.writer ▸ hw⟩

/-- When no voter of `H` can turn away from `t`, every node of `H'` outside `R` is
comparable to `t`: a further node sees its writer's earlier one. -/
theorem Extends.comparable (ht : t ∈ H.nodes) (h : ∀ i ∈ H.voters, H.Settled R t i) {x : N}
    (hx : x ∈ H'.nodes) (hxR : x ∉ R) : H'.Comparable x t := by
  have hv : H'.writer x ∈ H.voters := e.voters ▸ H'.voter x hx
  obtain ⟨y, hy, hty, hw⟩ : ∃ y ∈ H.nodes, H.le t y ∧ H.writer y = H'.writer x := by
    rcases h _ hv with ⟨y, hy, hw⟩ | ⟨y, hl, hy, hw⟩
    · exact ⟨y, hy.1, hy.2.1.1, hw⟩
    · exact ⟨y, hl.1, hy.1, hw⟩
  rcases H'.chain x hx y (e.sub y hy) (by rw [← hw, e.writer]) with hxy | hyx
  · have hxn := e.low y hy x hx hxy
    have hs := h _ (H.voter x hxn)
    rcases hs.comparable hxn hxR with hc | hc
    · exact Or.inl ((e.le t ht x).mpr hc)
    · exact Or.inr ((e.le x hxn t).mpr hc)
  · exact Or.inr (H'.trans ((e.le y hy t).mpr hty) hyx)

/-- A node all of whose past is comparable to `t` settles its writer, once that
writer has a node above `t`. -/
theorem Extends.settled (ht : t ∈ H.nodes) (h : ∀ i ∈ H.voters, H.Settled R t i) {i : K} (hi : i ∈ H.voters) :
    H'.Settled R t i := by
  rcases h i hi with ⟨y, hy, hw⟩ | ⟨y, hl, hy, hw⟩
  · exact Or.inl ⟨y, e.seals ht hy, e.writer ▸ hw⟩
  · obtain ⟨z, hz, hlast⟩ := H'.exists_last (e.sub y hl.1)
    refine Or.inr ⟨z, ⟨hz.1, hlast⟩, ⟨?_, fun x hx hxR _ => e.comparable ht h hx hxR⟩, ?_⟩
    · exact H'.trans ((e.le y hl.1 t).mpr hy.1) (hlast y (e.sub y hl.1) hz.2.symm)
    · rw [hz.2, e.writer, hw]

/-- A confirmed node stays confirmed. -/
theorem Confirmed.extend (ht : t ∈ H.nodes) (h : H.Confirmed R t) : H'.Confirmed R t := by
  have hM : H'.majority = H.majority := by rw [majority, e.voters, majority]
  refine ⟨hM ▸ h.1.trans (Finset.card_le_card (e.ackers ht)), ?_⟩
  rcases h.2 with h | h
  · exact Or.inl (hM ▸ h.trans (Finset.card_le_card (e.sealers ht)))
  · exact Or.inr fun i hi => e.settled ht h (e.voters ▸ hi)

end Growth

end History
end Quorum
end HypercoreRs
