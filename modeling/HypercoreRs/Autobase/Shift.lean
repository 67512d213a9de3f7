/-
# One shift of the consensus machine

`indexerTails` are the minimal nodes that are not removed (`mem_indexerTails_iff`),
and below a node that is neither a tail nor a merge there is one node all others
are below (`exists_top_of_not_merge`), so that every node is newer than some tail
or merge (`exists_newer_tail_or_merge`). Hence, while a confirmed node `m` is not
removed, a shift yields something, and only nodes that `m` sees
(`shiftBatch_below`): a merge above `m` resolves towards `m`, because as soon as
it sees something concurrent to `m` it also confirms the tail or merge that `m`
is newer than.
-/
import HypercoreRs.Autobase.Confirm

open Std

namespace HypercoreRs
namespace Linearizer

open Quorum

variable {K : Type} [LinearOrder K] {L : Linearizer K}

/-- An indexer node that is not removed. -/
def Open (hL : L.WF) (removed : Clock K) (x : NodeId K) : Prop :=
  x ∈ (history hL).nodes ∧ x ∉ gone removed

/-- `x` satisfies `S` and sees nothing else that does. -/
def Least (L : Linearizer K) (S : NodeId K → Prop) (x : NodeId K) : Prop :=
  S x ∧ ∀ y, S y → L.Past x y → y = x

/-- Everything in `S` sees a least node of `S`. -/
theorem exists_least (hL : L.WF) (S : NodeId K → Prop) {x : NodeId K} (hx : S x) :
    ∃ y, L.Least S y ∧ L.Past x y := by
  obtain ⟨rank, -, hr⟩ := hL.ranked
  induction hn : rank x using Nat.strong_induction_on generalizing x with
  | _ n ih =>
    by_cases hleast : ∀ y, S y → L.Past x y → y = x
    · exact ⟨x, ⟨hx, hleast⟩, Relation.ReflTransGen.refl⟩
    · push Not at hleast
      obtain ⟨y, hy, hxy, hne⟩ := hleast
      have hlt : rank y < n := hn ▸ hxy.rank_lt hr hne
      obtain ⟨z, hz, hyz⟩ := ih _ hlt hy rfl
      exact ⟨z, hz, hxy.trans hyz⟩

/-! ### Tails -/

/-- The first node not removed of one of the writers in `P`, if delivered. -/
def HeadOf (L : Linearizer K) (removed : Clock K) (P : List K) (x : NodeId K) : Prop :=
  x.key ∈ P ∧ x.seq = removed.get x.key ∧ x ∈ L.deps

/-- The scan of one head over the tails so far: is it above none of them, and if so,
which are above it? -/
theorem tailScan_spec (hL : L.WF) (g : NodeId K) : ∀ ts : List (NodeId K),
    ((L.tailScan g ts).1 = true ↔ ∀ t ∈ ts, ¬ L.Past g t) ∧
    (∀ x ∈ (L.tailScan g ts).2, x ∈ ts ∧ L.Past x g) ∧
    ((L.tailScan g ts).1 = true → ∀ x ∈ ts, L.Past x g → x ∈ (L.tailScan g ts).2)
  | [] => by simp [tailScan]
  | t :: ts => by
    obtain ⟨h1, h2, h3⟩ := tailScan_spec hL g ts
    unfold tailScan
    by_cases hgt : L.sees g t = true
    · have := (hL.sees_iff _ _).mp hgt
      simp [hgt, this]
    · have hgt' : ¬ L.Past g t := (hL.sees_iff _ _).not.mp hgt
      simp only [hgt, Bool.false_eq_true, if_false, List.forall_mem_cons, hgt', not_false_eq_true,
        true_and]
      by_cases htg : L.sees t g = true
      · have htg' := (hL.sees_iff _ _).mp htg
        simp only [htg, if_true, List.mem_cons, true_or, true_and, imp_true_iff]
        refine ⟨h1, ?_, fun h x hx hxg => Or.inr (h3 h x hx hxg)⟩
        rintro x (rfl | hx)
        · exact ⟨Or.inl rfl, htg'⟩
        · exact ⟨Or.inr (h2 x hx).1, (h2 x hx).2⟩
      · have htg' : ¬ L.Past t g := (hL.sees_iff _ _).not.mp htg
        simp only [htg, Bool.false_eq_true, if_false, htg', false_imp_iff, true_and]
        exact ⟨h1, fun x hx => ⟨List.mem_cons_of_mem _ (h2 x hx).1, (h2 x hx).2⟩, h3⟩

variable {removed : Clock K}

/-- One indexer of the outer loop keeps the least heads. -/
theorem tailStep_spec (hL : L.WF) {P : List K} {ts : List (NodeId K)} {k : K} (hk : k ∉ P)
    (hts : ∀ x, x ∈ ts ↔ L.Least (L.HeadOf removed P) x) (x : NodeId K) :
    x ∈ L.tailStep removed ts k ↔ L.Least (L.HeadOf removed (k :: P)) x := by
  have hrem : removed.includes k (removed.get k + 1) = false := by
    rw [← Bool.not_eq_true, Clock.includes_iff]
    exact lt_irrefl _
  have hold : ∀ y, L.HeadOf removed (k :: P) y ↔
      L.HeadOf removed P y ∨ (y = ⟨k, removed.get k⟩ ∧ y ∈ L.deps) := by
    rintro ⟨j, s⟩
    simp only [HeadOf, List.mem_cons]
    constructor
    · rintro ⟨rfl | hj, hs, hd⟩
      · exact Or.inr ⟨by rw [← hs], hd⟩
      · exact Or.inl ⟨hj, hs, hd⟩
    · rintro (⟨hj, hs, hd⟩ | ⟨he, hd⟩)
      · exact ⟨Or.inr hj, hs, hd⟩
      · obtain ⟨rfl, rfl⟩ := NodeId.mk.inj he
        exact ⟨Or.inl rfl, rfl, hd⟩
  unfold tailStep
  dsimp only
  rw [hrem, Bool.or_false]
  by_cases hd : (⟨k, removed.get k⟩ : NodeId K) ∈ L.deps
  · obtain ⟨s1, s2, s3⟩ := tailScan_spec hL ⟨k, removed.get k⟩ ts
    have hne : ∀ t ∈ ts, t ≠ ⟨k, removed.get k⟩ := by
      rintro t ht rfl
      exact hk ((hts _).mp ht).1.1
    rw [if_neg (by simpa [contains_eq] using hd)]
    by_cases hs : (L.tailScan ⟨k, removed.get k⟩ ts).1 = true
    · -- the new head is below none of the heads so far; the tails above it go
      have hg : ∀ y, L.HeadOf removed P y → ¬ L.Past ⟨k, removed.get k⟩ y := fun y hy hgy => by
        obtain ⟨z, hz, hyz⟩ := exists_least hL _ hy
        exact s1.mp hs z ((hts z).mpr hz) (hgy.trans hyz)
      rw [if_pos hs, List.mem_append, List.mem_filter, List.mem_singleton]
      simp only [Bool.not_eq_true', ← Bool.not_eq_true, List.contains_iff_mem]
      constructor
      · rintro (⟨hx, hxn⟩ | rfl)
        · obtain ⟨hxh, hxl⟩ := (hts x).mp hx
          refine ⟨(hold x).mpr (Or.inl hxh), fun y hy hxy => ?_⟩
          rcases (hold y).mp hy with hy | ⟨rfl, -⟩
          · exact hxl y hy hxy
          · exact absurd (s3 hs x hx hxy) hxn
        · refine ⟨(hold _).mpr (Or.inr ⟨rfl, hd⟩), fun y hy hxy => ?_⟩
          rcases (hold y).mp hy with hy | ⟨rfl, -⟩
          · exact absurd hxy (hg y hy)
          · rfl
      · rintro ⟨hxh, hxl⟩
        rcases (hold x).mp hxh with hx | ⟨rfl, -⟩
        · refine Or.inl ⟨(hts x).mpr ⟨hx, fun y hy => hxl y ((hold y).mpr (Or.inl hy))⟩, ?_⟩
          intro hxs
          obtain ⟨hxt, hxg⟩ := s2 x hxs
          exact hne x hxt (hxl _ ((hold _).mpr (Or.inr ⟨rfl, hd⟩)) hxg).symm
        · exact Or.inr rfl
    · -- the new head is above a tail, so no tail is above it
      have hex : ∃ z ∈ ts, L.Past ⟨k, removed.get k⟩ z := by
        by_contra hno
        push Not at hno
        exact hs (s1.mpr hno)
      obtain ⟨z, hz, hgz⟩ := hex
      have hnone : ∀ t ∈ ts, ¬ L.Past t ⟨k, removed.get k⟩ := fun t ht htg => by
        have he := ((hts t).mp ht).2 z ((hts z).mp hz).1 (htg.trans hgz)
        subst he
        exact hne z hz (Past.antisymm hL htg hgz)
      rw [if_neg hs, List.mem_filter]
      simp only [Bool.not_eq_true', ← Bool.not_eq_true, List.contains_iff_mem]
      constructor
      · rintro ⟨hx, -⟩
        obtain ⟨hxh, hxl⟩ := (hts x).mp hx
        refine ⟨(hold x).mpr (Or.inl hxh), fun y hy hxy => ?_⟩
        rcases (hold y).mp hy with hy | ⟨rfl, -⟩
        · exact hxl y hy hxy
        · exact absurd hxy (hnone x hx)
      · rintro ⟨hxh, hxl⟩
        rcases (hold x).mp hxh with hx | ⟨rfl, -⟩
        · have hxt := (hts x).mpr ⟨hx, fun y hy => hxl y ((hold y).mpr (Or.inl hy))⟩
          exact ⟨hxt, fun hxs => hnone x hxt (s2 x hxs).2⟩
        · exact absurd (hxl z ((hold z).mpr (Or.inl ((hts z).mp hz).1)) hgz) (hne z hz)
  · rw [if_pos (by simpa [contains_eq] using hd), hts]
    have hsame : ∀ y, L.HeadOf removed (k :: P) y ↔ L.HeadOf removed P y := fun y => by
      rw [hold]
      exact or_iff_left fun h => hd (h.1 ▸ h.2)
    simp only [Least, hsame]

theorem foldl_tailStep_spec (hL : L.WF) (removed : Clock K) : ∀ (ixs P : List K)
    (ts : List (NodeId K)), ixs.Nodup → (∀ k ∈ ixs, k ∉ P) →
    (∀ x, x ∈ ts ↔ L.Least (L.HeadOf removed P) x) → ∀ x,
    x ∈ ixs.foldl (L.tailStep removed) ts ↔ L.Least (L.HeadOf removed (ixs.reverse ++ P)) x
  | [], P, ts, _, _, hts, x => by simpa using hts x
  | k :: ixs, P, ts, hnd, hP, hts, x => by
    obtain ⟨hk, hnd'⟩ := List.nodup_cons.mp hnd
    have hstep := tailStep_spec hL (hP k List.mem_cons_self) hts
    have := foldl_tailStep_spec hL removed ixs (k :: P) _ hnd' (fun j hj hjP => by
      rcases List.mem_cons.mp hjP with rfl | hjP
      · exact hk hj
      · exact hP j (List.mem_cons_of_mem _ hj) hjP) hstep x
    simpa using this

/-- The tails are the least nodes that are not removed. -/
theorem mem_indexerTails_iff (hL : L.WF) {x : NodeId K} :
    x ∈ L.indexerTails removed ↔ L.Least (Open hL removed) x := by
  have h := foldl_tailStep_spec hL removed L.indexerList [] [] nodup_indexerList
    (by simp) (by simp [Least, HeadOf]) x
  have hhead : ∀ y, L.HeadOf removed (L.indexerList.reverse ++ []) y ↔
      Open hL removed y ∧ y.seq = removed.get y.key := fun y => by
    rw [Open, mem_history, mem_gone, mem_voters]
    simp only [HeadOf, List.append_nil, List.mem_reverse]
    constructor
    · rintro ⟨h1, h2, h3⟩
      exact ⟨⟨⟨h3, h1⟩, by omega⟩, h2⟩
    · rintro ⟨⟨⟨h3, h1⟩, -⟩, h2⟩
      exact ⟨h1, h2, h3⟩
  rw [indexerTails, Graph.mem_ofList, h]
  -- every open node sees the open head of its writer
  have hbelow : ∀ y, Open hL removed y → ∃ z, L.HeadOf removed (L.indexerList.reverse ++ []) z ∧
      L.Past y z := by
    rintro ⟨k, s⟩ ⟨hy, hyR⟩
    obtain ⟨hyd, hyv⟩ := (mem_history hL).mp hy
    have hle : removed.get k ≤ s := Nat.not_lt.mp hyR
    have hp := Past.of_le hL hle hyd
    refine ⟨⟨k, removed.get k⟩, (hhead _).mpr ⟨⟨?_, ?_⟩, rfl⟩, hp⟩
    · exact (mem_history hL).mpr ⟨Past.mem hL hp hyd, hyv⟩
    · rw [mem_gone]
      exact lt_irrefl _
  constructor
  · rintro ⟨hx, hxl⟩
    refine ⟨((hhead x).mp hx).1, fun y hy hxy => ?_⟩
    obtain ⟨z, hz, hyz⟩ := hbelow y hy
    have he := hxl z hz (hxy.trans hyz)
    subst he
    exact Past.antisymm hL hyz hxy
  · rintro ⟨hx, hxl⟩
    obtain ⟨z, hz, hxz⟩ := hbelow x hx
    have he := hxl z ((hhead z).mp hz).1 hxz
    subst he
    exact ⟨hz, fun y hy => hxl y ((hhead y).mp hy).1⟩

theorem exists_tail (hL : L.WF) {x : NodeId K} (hx : Open hL removed x) :
    ∃ u ∈ L.indexerTails removed, L.Past x u := by
  obtain ⟨u, hu, hxu⟩ := exists_least hL _ hx
  exact ⟨u, (mem_indexerTails_iff hL).mpr hu, hxu⟩

/-! ### Merges -/

theorem clock_self (hL : L.WF) {n : NodeId K} (hn : n ∈ L.deps) :
    (L.clock n).get n.key = n.seq + 1 := by
  have h1 := (hL.lt_clock_iff hn n.key n.seq).mpr Relation.ReflTransGen.refl
  have h2 : ¬ n.seq + 1 < (L.clock n).get n.key := fun h => by
    have hp := (hL.lt_clock_iff hn n.key (n.seq + 1)).mp h
    have hle := Past.of_le hL (Nat.le_succ n.seq) (Past.mem hL hp hn)
    have := congrArg NodeId.seq (Past.antisymm hL hp hle)
    simp at this
  omega

/-- The merge heads are, of each indexer, the last node strictly below, if it is not
removed. -/
theorem mem_mergeHeads (hL : L.WF) {n h : NodeId K} (hn : n ∈ L.deps) :
    h ∈ L.mergeHeads n removed ↔ h.key ∈ L.voters ∧ h ∉ gone removed ∧
      h.seq + 1 = L.confirmLength (some n) h.key := by
  have hback : ∀ idx, (L.clock n).get idx + 1 =
      L.confirmLength (some n) idx + (1 + if idx = n.key then 1 else 0) := fun idx => by
    unfold confirmLength
    dsimp only
    by_cases hk : n.key = idx
    · subst hk
      rw [clock_self hL hn]
      simp
    · simp [hk, Ne.symm hk]
  unfold mergeHeads
  rw [List.mem_filterMap]
  constructor
  · rintro ⟨idx, hidx, h⟩
    dsimp only at h
    have hb := hback idx
    generalize (1 + if idx = n.key then 1 else 0) = back at h hb
    split_ifs at h with h1 h2
    obtain rfl := Option.some.inj h
    simp only [Bool.or_eq_true, Clock.includes_iff, not_or] at h2
    exact ⟨mem_voters.mpr hidx, h2.2, by dsimp only; omega⟩
  · rintro ⟨hv, hg, hs⟩
    refine ⟨h.key, mem_voters.mp hv, ?_⟩
    have hb := hback h.key
    have hseq : (L.clock n).get h.key - (1 + if h.key = n.key then 1 else 0) = h.seq := by omega
    have hd : h ∈ L.deps :=
      Past.mem hL ((confirmLength_some hL (y := h) hn).mp (by omega)).1 hn
    dsimp only
    rw [if_neg (by omega), hseq, if_neg]
    simp only [Bool.or_eq_true, Bool.not_eq_true', Clock.includes_iff, not_or, Nat.not_lt]
    exact ⟨by simpa [contains_eq] using hd, Nat.not_lt.mp hg⟩

theorem mergeHead_below (hL : L.WF) {n h : NodeId K} (hn : n ∈ L.deps) (hh : h ∈ L.mergeHeads n removed) :
    Open hL removed h ∧ L.Past n h ∧ h ≠ n := by
  obtain ⟨hv, hg, hs⟩ := (mem_mergeHeads hL hn).mp hh
  have hp := (confirmLength_some hL (y := h) hn).mp (by omega)
  exact ⟨⟨(mem_history hL).mpr ⟨Past.mem hL hp.1 hn, hv⟩, hg⟩, hp⟩

variable {n x : NodeId K}

/-- An open node strictly below is below a merge head. -/
theorem exists_mergeHead (hL : L.WF) (hn : n ∈ L.deps) (hx : Open hL removed x) (hnx : L.Past n x)
    (hne : x ≠ n) : ∃ h ∈ L.mergeHeads n removed, L.Past h x := by
  obtain ⟨k, s⟩ := x
  have hlt := (confirmLength_some hL hn).mpr ⟨hnx, hne⟩
  dsimp only at hlt
  have hv := ((mem_history hL).mp hx.1).2
  have hsx : ¬ s < removed.get k := hx.2
  have hp := ((confirmLength_some hL (y := ⟨k, L.confirmLength (some n) k - 1⟩) hn).mp
    (by dsimp only; omega)).1
  refine ⟨⟨k, L.confirmLength (some n) k - 1⟩, (mem_mergeHeads hL hn).mpr ⟨hv, fun hg => ?_,
    by dsimp only; omega⟩, Past.of_le hL (by omega) (Past.mem hL hp hn)⟩
  have hg' : L.confirmLength (some n) k - 1 < removed.get k := hg
  omega

/-- Every node of a list is below a maximal one. -/
theorem exists_maximal (hL : L.WF) {l : List (NodeId K)} (hl : ∀ x ∈ l, x ∈ L.deps) {x : NodeId K}
    (hx : x ∈ l) : ∃ h ∈ l, L.Past h x ∧ ∀ y ∈ l, L.Past y h → y = h := by
  obtain ⟨rank, hlt, hr⟩ := hL.ranked
  induction hn : L.deps.size - rank x using Nat.strong_induction_on generalizing x with
  | _ n ih =>
    by_cases hmax : ∀ y ∈ l, L.Past y x → y = x
    · exact ⟨x, hx, Relation.ReflTransGen.refl, hmax⟩
    · push Not at hmax
      obtain ⟨y, hy, hyx, hne⟩ := hmax
      have hrank : rank x < rank y := hyx.rank_lt hr (Ne.symm hne)
      have hys := hlt y (hl y hy)
      obtain ⟨h, hh, hhy, hmax⟩ := ih _ (by omega) hy rfl
      exact ⟨h, hh, hhy.trans hyx, hmax⟩

/-- Below a node that is not a merge one open node is above all others. -/
theorem exists_top_of_not_merge (hL : L.WF) (hn : n ∈ (history hL).nodes) (hm : L.isMerge n removed = false)
    (hx : Open hL removed x) (hnx : L.Past n x) (hne : x ≠ n) :
    ∃ h, Open hL removed h ∧ L.Past n h ∧ h ≠ n ∧
      ∀ y, Open hL removed y → L.Past n y → y ≠ n → L.Past h y := by
  obtain ⟨hnd, hnv⟩ := (mem_history hL).mp hn
  have hdeps : ∀ h ∈ L.mergeHeads n removed, h ∈ L.deps := fun h hh =>
    ((mem_history hL).mp (mergeHead_below hL hnd hh).1.1).1
  -- at most one merge head is maximal
  have huniq : ∀ a ∈ L.mergeHeads n removed, ∀ b ∈ L.mergeHeads n removed,
      (∀ y ∈ L.mergeHeads n removed, L.Past y a → y = a) →
      (∀ y ∈ L.mergeHeads n removed, L.Past y b → y = b) → a = b := by
    intro a ha b hb ma mb
    unfold isMerge at hm
    rw [if_pos (isIndexer_iff.mpr hnv)] at hm
    dsimp only at hm
    rw [decide_eq_false_iff_not, List.countP_eq_length_filter, Nat.not_lt] at hm
    have hin : ∀ c ∈ L.mergeHeads n removed, (∀ y ∈ L.mergeHeads n removed, L.Past y c → y = c) →
        c ∈ (L.mergeHeads n removed).filter fun h =>
          !(L.mergeHeads n removed).any fun o => o ≠ h && L.sees o h := by
      intro c hc mc
      refine List.mem_filter.mpr ⟨hc, ?_⟩
      simp only [Bool.not_eq_true', List.any_eq_false, Bool.and_eq_true, decide_eq_true_eq,
        hL.sees_iff]
      rintro y hy ⟨hyc, hp⟩
      exact hyc (mc y hy hp)
    have h1 := hin a ha ma
    have h2 := hin b hb mb
    match hf : (L.mergeHeads n removed).filter _, hm, h1, h2 with
    | [], _, h1, _ => exact absurd h1 List.not_mem_nil
    | [c], _, h1, h2 => rw [List.mem_singleton.mp h1, List.mem_singleton.mp h2]
    | _ :: _ :: _, hm, _, _ => simp at hm
  obtain ⟨h0, hh0, -⟩ := exists_mergeHead hL hnd hx hnx hne
  obtain ⟨h, hh, -, hmax⟩ := exists_maximal hL hdeps hh0
  obtain ⟨b1, b2, b3⟩ := mergeHead_below hL hnd hh
  refine ⟨h, b1, b2, b3, fun y hy hny hyn => ?_⟩
  obtain ⟨g, hg, hgy⟩ := exists_mergeHead hL hnd hy hny hyn
  obtain ⟨g', hg', hgg, hmax'⟩ := exists_maximal hL hdeps hg
  rw [huniq g' hg' h hh hmax' hmax] at hgg
  exact hgg.trans hgy

theorem mem_mergeNodes (hL : L.WF) {x : NodeId K} :
    x ∈ L.mergeNodes removed ↔ Open hL removed x ∧ L.isMerge x removed = true := by
  unfold mergeNodes Open
  rw [List.mem_filter, Graph.mem_keys, mem_history, mem_gone]
  simp only [Bool.and_eq_true, isIndexer_iff, Bool.not_eq_true', ← Bool.not_eq_true,
    Clock.includes_iff]
  tauto

/-- Every open node is newer than some open tail or merge. -/
theorem exists_newer_tail_or_merge (hL : L.WF) {m : NodeId K} (hm : Open hL removed m) :
    ∃ d, Open hL removed d ∧ (history hL).Newer (gone removed) d m ∧
      (d ∈ L.indexerTails removed ∨ d ∈ L.mergeNodes removed) := by
  obtain ⟨rank, -, hr⟩ := hL.ranked
  induction hn : rank m using Nat.strong_induction_on generalizing m with
  | _ n ih =>
    by_cases hmerge : L.isMerge m removed = true
    · exact ⟨m, hm, History.newer_refl m, Or.inr ((mem_mergeNodes hL).mpr ⟨hm, hmerge⟩)⟩
    · obtain ⟨u, hu, hmu⟩ := exists_tail hL hm
      by_cases hum : u = m
      · subst hum
        exact ⟨u, hm, History.newer_refl u, Or.inl hu⟩
      · have huo := ((mem_indexerTails_iff hL).mp hu).1
        obtain ⟨h, ho, hmh, hne, htop⟩ := exists_top_of_not_merge hL hm.1
          (Bool.not_eq_true _ ▸ hmerge) huo hmu hum
        have hlt : rank h < n := hn ▸ hmh.rank_lt hr hne
        obtain ⟨d, hd, hdn, hdt⟩ := ih _ hlt ho rfl
        refine ⟨d, hd, hdn.trans ⟨hmh, fun x hx hxR hxm => ?_⟩, hdt⟩
        by_cases hxm' : x = m
        · exact Or.inr (hxm' ▸ hmh)
        · exact Or.inl (htop x ⟨hx, hxR⟩ hxm hxm')

/-! ### Resolving a merge -/

variable {tails : ExtTreeSet (NodeId K)}

theorem mem_tailsSeen (hL : L.WF) : x ∈ L.tailsSeen n tails ↔ x ∈ tails ∧ L.Past n x := by
  unfold tailsSeen
  rw [List.mem_filter, ExtTreeSet.mem_toList, hL.sees_iff]

theorem mem_foldl_merges (hL : L.WF) : ∀ (ms all : List (NodeId K)),
    x ∈ ms.foldl (fun all m =>
      if m ≠ n && L.sees n m && !all.contains m then all ++ [m] else all) all ↔
      x ∈ all ∨ (x ∈ ms ∧ x ≠ n ∧ L.Past n x)
  | [], all => by simp
  | m :: ms, all => by
    rw [List.foldl_cons, mem_foldl_merges hL ms, List.mem_cons]
    by_cases hc : (m ≠ n && L.sees n m && !all.contains m) = true
    · simp only [hc, if_true, List.mem_append, List.mem_singleton]
      simp only [Bool.and_eq_true, decide_eq_true_eq, hL.sees_iff] at hc
      constructor
      · rintro ((h | rfl) | ⟨h, h'⟩)
        · exact Or.inl h
        · exact Or.inr ⟨Or.inl rfl, hc.1⟩
        · exact Or.inr ⟨Or.inr h, h'⟩
      · rintro (h | ⟨rfl | h, h'⟩)
        · exact Or.inl (Or.inl h)
        · exact Or.inl (Or.inr rfl)
        · exact Or.inr ⟨h, h'⟩
    · rw [if_neg hc]
      constructor
      · rintro (h | ⟨h, h'⟩)
        · exact Or.inl h
        · exact Or.inr ⟨Or.inr h, h'⟩
      · rintro (h | ⟨rfl | h, h'⟩)
        · exact Or.inl h
        · by_contra hno
          refine hc ?_
          simp only [Bool.and_eq_true, decide_eq_true_eq, hL.sees_iff, Bool.not_eq_true',
            ← Bool.not_eq_true, List.contains_iff_mem]
          exact ⟨h', fun h => hno (Or.inl h)⟩
        · exact Or.inr ⟨h, h'⟩

theorem mem_tailsAndMergesSeen (hL : L.WF) : x ∈ L.tailsAndMergesSeen n tails removed ↔
      (x ∈ tails ∧ L.Past n x) ∨ (x ∈ L.mergeNodes removed ∧ x ≠ n ∧ L.Past n x) := by
  unfold tailsAndMergesSeen
  rw [mem_foldl_merges hL, mem_tailsSeen hL]

section Below

variable (hL : L.WF) {removed : Clock K} (hlow : Lower hL removed) {ix : ExtTreeSet K}
  (hix : L.indexers = some ix) {m : NodeId K} (hm : Open hL removed m)
  (hc : (history hL).Confirmed (gone removed) m)
include hlow hm hc

omit hlow in
/-- A tail with a majority of votes is below every confirmed node. -/
theorem tail_below {u : NodeId K} (hu : u ∈ L.indexerTails removed)
    (hack : (history hL).majority ≤ ((history hL).ackers (gone removed) u).card) : L.Past m u := by
  obtain ⟨huo, hul⟩ := (mem_indexerTails_iff hL).mp hu
  rcases History.comparable_of_ackers huo.1 huo.2 hm.1 hm.2 hack hc.1 with h | h
  · exact h
  · rw [hul m hm h]
    exact Relation.ReflTransGen.refl

include hix

/-- Where no arm is confirmed as seen from a node with a majority of votes, all tails
it sees are below every confirmed node. -/
theorem tails_below_of_none {n u : NodeId K} (hn : Open hL removed n)
    (hack : (history hL).majority ≤ ((history hL).ackers (gone removed) n).card)
    (hno : ∀ d ∈ L.tailsAndMergesSeen n (L.indexerTails removed) removed,
      ¬ L.isConfirmed d (some n) removed = true)
    (hu : u ∈ L.indexerTails removed) (hnu : L.Past n u) : L.Past m u := by
  by_contra hmu
  obtain ⟨huo, hul⟩ := (mem_indexerTails_iff hL).mp hu
  have hinc : ¬ (history hL).Comparable u m := by
    rintro (h | h)
    · exact hmu h
    · exact hmu (hul m hm h ▸ Relation.ReflTransGen.refl)
  have hnm : ¬ L.Past m n := fun h => hmu (h.trans hnu)
  have hmn : L.Past n m :=
    (History.comparable_of_ackers hm.1 hm.2 hn.1 hn.2 hc.1 hack).resolve_right hnm
  obtain ⟨d, hd, hdm, hdt⟩ := exists_newer_tail_or_merge hL hm
  have hbelow := History.confirmedBelow hdm hc hack huo.1 huo.2 hnu hinc (hlow.above hm.1 hm.2)
  have hconf := (isConfirmed_some hL hd.1 hd.2 hlow hix ((mem_history hL).mp hn.1).1).mpr hbelow
  refine hno d ((mem_tailsAndMergesSeen hL).mpr ?_) hconf
  rcases hdt with h | h
  · exact Or.inl ⟨h, hmn.trans hdm.1⟩
  · exact Or.inr ⟨h, fun he => hnm (he ▸ hdm.1), hmn.trans hdm.1⟩

/-- The descent from a node with a majority of votes ends below every confirmed node. -/
theorem yieldNext_below {rank : NodeId K → ℕ} (hr : ∀ n, ∀ d ∈ L.depsOf n, rank d < rank n) :
    ∀ (fuel : ℕ) (n : NodeId K), rank n < fuel → Open hL removed n →
    (history hL).majority ≤ ((history hL).ackers (gone removed) n).card →
    L.yieldNext (L.indexerTails removed) removed fuel n ≠ [] ∧
      ∀ x ∈ L.yieldNext (L.indexerTails removed) removed fuel n, L.Past m x
  | 0, n, hf, _, _ => absurd hf (Nat.not_lt_zero _)
  | fuel + 1, n, hf, hn, hack => by
    unfold yieldNext
    by_cases ht : n ∈ L.indexerTails removed
    · rw [if_pos (by simpa using ht)]
      refine ⟨by simp, fun x hx => ?_⟩
      rw [List.mem_singleton.mp hx]
      exact tail_below hL hm hc ht hack
    · rw [if_neg (by simpa using ht)]
      split
      · rename_i t hfind
        have hin := List.mem_of_find?_eq_some hfind
        have htn : Open hL removed t ∧ L.Past n t ∧ t ≠ n := by
          rcases (mem_tailsAndMergesSeen hL).mp hin with ⟨h, hp⟩ | ⟨h, hne, hp⟩
          · exact ⟨((mem_indexerTails_iff hL).mp h).1, hp, fun he => ht (he ▸ h)⟩
          · exact ⟨((mem_mergeNodes hL).mp h).1, hp, hne⟩
        obtain ⟨hto, hnt, hne⟩ := htn
        have hlt : rank t < fuel := (hnt.rank_lt hr hne).trans_le (Nat.lt_succ_iff.mp hf)
        have hsat := List.find?_some hfind
        have hconf := (isConfirmed_some hL hto.1 hto.2 hlow hix ((mem_history hL).mp hn.1).1).mp
          hsat
        exact yieldNext_below hr fuel t hlt hto hconf.1
      · rename_i hfind
        rw [List.find?_eq_none] at hfind
        obtain ⟨u, hu, hnu⟩ := exists_tail hL hn
        refine ⟨List.ne_nil_of_mem ((mem_tailsSeen hL).mpr ⟨hu, hnu⟩), fun x hx => ?_⟩
        obtain ⟨hxt, hnx⟩ := (mem_tailsSeen hL).mp hx
        exact tails_below_of_none hL hlow hix hm hc hn hack hfind hxt hnx

/-- While a confirmed node is not removed, a shift yields something, and only nodes
that the confirmed node sees. -/
theorem shiftBatch_below : L.shiftBatch removed ≠ [] ∧ ∀ x ∈ L.shiftBatch removed, L.Past m x := by
  obtain ⟨rank, hlt, hr⟩ := hL.ranked
  have hiff := fun {t : NodeId K} (ht : Open hL removed t) =>
    isConfirmed_none hL ht.1 ht.2 hlow hix
  unfold shiftBatch
  dsimp only
  split
  · rename_i t hfind
    have ht := ExtTreeSet.mem_toList.mp (List.mem_of_find?_eq_some hfind)
    have hto := ((mem_indexerTails_iff hL).mp ht).1
    have hsat := List.find?_some hfind
    refine ⟨by simp, fun x hx => ?_⟩
    rw [List.mem_singleton.mp hx]
    exact tail_below hL hm hc ht ((hiff hto).mp hsat).1
  · rename_i hnone
    rw [List.find?_eq_none] at hnone
    split
    · rename_i p hfind
      have hp := ((mem_mergeNodes hL).mp (List.mem_of_find?_eq_some hfind)).1
      have hps := hlt p ((mem_history hL).mp hp.1).1
      have hsat := List.find?_some hfind
      exact yieldNext_below hL hlow hix hm hc hr _ p (by omega) hp ((hiff hp).mp hsat).1
    · rename_i hnone'
      rw [List.find?_eq_none] at hnone'
      -- some tail or merge that `m` is newer than is confirmed
      obtain ⟨d, hd, hdm, hdt⟩ := exists_newer_tail_or_merge hL hm
      have hconf := (hiff hd).mpr (hc.of_newer hdm)
      rcases hdt with h | h
      · exact absurd hconf (hnone d (ExtTreeSet.mem_toList.mpr h))
      · exact absurd hconf (hnone' d h)

end Below

/-- Where nothing is confirmed a shift yields nothing. -/
theorem shiftBatch_eq_nil (hL : L.WF) (hlow : Lower hL removed) {ix : ExtTreeSet K}
    (hix : L.indexers = some ix)
    (hno : ∀ t, Open hL removed t → ¬ (history hL).Confirmed (gone removed) t) :
    L.shiftBatch removed = [] := by
  have hfalse : ∀ t, Open hL removed t → ¬ L.isConfirmed t none removed = true := fun t ht =>
    (isConfirmed_none hL ht.1 ht.2 hlow hix).not.mpr (hno t ht)
  unfold shiftBatch
  dsimp only
  rw [List.find?_eq_none.mpr fun t ht => hfalse t
      ((mem_indexerTails_iff hL).mp (ExtTreeSet.mem_toList.mp ht)).1,
    List.find?_eq_none.mpr fun t ht => hfalse t ((mem_mergeNodes hL).mp ht).1]

end Linearizer
end HypercoreRs
