/-
# Range proofs

A range proof is an inclusion proof for a run of blocks at once. Generator and
verifier climb the same frontier, level by level from the leaves of the range:
two frontier siblings pair up, and the sibling off the frontier is supplied by
the proof. The verifier recomputes every frontier node, so the question is
whether one of them can get lost.

Both climbs change the frontier in the same way (`sweep`), and each round leaves
no unfinished node of its depth behind (`sweep_level`), so the depths only grow.
That is why a node is never derived twice and nothing the verifier holds is ever
overwritten, and why the rounds are no more than the tree has levels. Soundness
is the invariant that every block of the range is committed to by some frontier
node (`Covered`).
-/
import HypercoreRs.Merkle.Inclusion

open Std

namespace HypercoreRs
namespace Merkle

variable {H : Type} (hs : Hasher H)

/-- A self-contained proof for the block range `[start, end)`: the off-range
boundary nodes needed to roll the range's leaves up to the roots, plus every
root of the tree. -/
structure RangeProof (H : Type) where
  start : ℕ
  end_ : ℕ
  leafSizes : List ℕ
  nodes : List (Node H)
  roots : List (Node H)

/-- Every frontier node is a root. -/
def settled (roots active : ExtTreeSet ℕ) : Bool := active.toList.all roots.contains

/-- The least depth of a frontier node that is not a root. -/
def frontierDepth (roots active : ExtTreeSet ℕ) : Option ℕ :=
  ((active.toList.filter fun i => !roots.contains i).map Flat.depth).min?

/-- The frontier nodes of depth `d` that are not roots. -/
def frontierLevel (roots active : ExtTreeSet ℕ) (d : ℕ) : List ℕ :=
  active.toList.filter fun i => Flat.depth i = d && !roots.contains i

/-- The leaves of a range of blocks. -/
def rangeLeaves (start end_ : ℕ) : ExtTreeSet ℕ :=
  ExtTreeSet.ofList ((List.range' start (end_ - start)).map (· * 2))

namespace MerkleTree

/-- One level of the generator's climb; `none` where a sibling is missing. -/
def pairLevel (T : MerkleTree H) :
    List ℕ → ExtTreeSet ℕ → List (Node H) → Option (ExtTreeSet ℕ × List (Node H))
  | [], active, boundary => some (active, boundary)
  | cur :: level, active, boundary =>
    if !active.contains cur then T.pairLevel level active boundary
    else if active.contains (Flat.sibling cur) then
      T.pairLevel level (((active.erase (Flat.sibling cur)).erase cur).insert (Flat.parent cur)) boundary
    else
      match T.nodes[Flat.sibling cur]? with
      | none => none
      | some sib =>
        T.pairLevel level ((active.erase cur).insert (Flat.parent cur)) (boundary ++ [sib])

/-- The generator's climb: the boundary nodes up to the roots. -/
def boundaryLoop (T : MerkleTree H) (roots : ExtTreeSet ℕ) :
    ℕ → ExtTreeSet ℕ → List (Node H) → Option (List (Node H))
  | 0, active, boundary => if settled roots active then some boundary else none
  | fuel + 1, active, boundary =>
    if settled roots active then some boundary
    else
      match frontierDepth roots active with
      | none => none
      | some d =>
        match T.pairLevel (frontierLevel roots active d) active boundary with
        | none => none
        | some (active, boundary) => T.boundaryLoop roots fuel active boundary

/-- A proof that the block range `[start, end)` belongs to this tree, or `none`
if the range is empty or runs past the end. -/
def rangeProof (T : MerkleTree H) (start end_ : ℕ) : Option (RangeProof H) :=
  if start ≥ end_ ∨ end_ > T.length then none
  else do
    let roots ← T.roots
    let leafSizes ← (List.range' start (end_ - start)).mapM fun b => T.nodes[b * 2]?.map (·.size)
    -- there are fewer rounds than blocks
    let nodes ← T.boundaryLoop (rootSet roots) T.length (rangeLeaves start end_) []
    return { start, end_, leafSizes, nodes, roots }

end MerkleTree

/-- One level of the verifier's climb: a sibling comes from what is held, else
from the proof's table. -/
def climbLevel (table : ExtTreeMap ℕ (Node H)) :
    List ℕ → ExtTreeSet ℕ → ExtTreeMap ℕ (Node H) → Option (ExtTreeSet ℕ × ExtTreeMap ℕ (Node H))
  | [], active, held => some (active, held)
  | cur :: level, active, held =>
    if !active.contains cur then climbLevel table level active held
    else
      match held[cur]?, held[Flat.sibling cur]? <|> table[Flat.sibling cur]? with
      | some curNode, some sibNode =>
        climbLevel table level
          (((active.erase cur).erase (Flat.sibling cur)).insert (Flat.parent cur))
          (held.insert (Flat.parent cur) (pairUp hs cur curNode (Flat.sibling cur) sibNode))
      | _, _ => none

/-- The verifier's climb; `none` if a node is missing or the guard stops it. -/
def roundLoop (table : ExtTreeMap ℕ (Node H)) (roots : ExtTreeSet ℕ) :
    ℕ → ExtTreeSet ℕ → ExtTreeMap ℕ (Node H) → Option (ExtTreeSet ℕ × ExtTreeMap ℕ (Node H))
  | 0, active, held => if settled roots active then some (active, held) else none
  | guard + 1, active, held =>
    if settled roots active then some (active, held)
    else
      match frontierDepth roots active with
      | none => some (active, held)
      | some d =>
        match climbLevel hs table (frontierLevel roots active d) active held with
        | none => none
        | some (active, held) => roundLoop table roots guard active held

/-- Substitute the recomputed frontier nodes into the roots. -/
def substituteAll (held : ExtTreeMap ℕ (Node H)) :
    List ℕ → List (Node H) → Option (List (Node H))
  | [], roots => some roots
  | idx :: active, roots =>
    match held[idx]? with
    | none => none
    | some node =>
      match substitute idx node roots with
      | none => none
      | some roots => substituteAll held active roots

/-- The leaves of consecutive blocks from `start` on. -/
def leavesFrom (start : ℕ) : List Block → List (Node H)
  | [] => []
  | data :: blocks => leafNode hs start data :: leavesFrom (start + 1) blocks

/-- Verify a proof for `blocks`, the data of `[start, end)` in order, against an
expected tree hash. -/
def RangeProof.verify [DecidableEq H] (p : RangeProof H) (blocks : List Block)
    (expectedRoot : H) : Bool :=
  if p.start ≥ p.end_ then false
  else if blocks.length ≠ p.end_ - p.start ∨ p.leafSizes.length ≠ p.end_ - p.start then false
  else if (blocks.zip p.leafSizes).any fun q => q.1.length ≠ q.2 then false
  else
    match roundLoop hs (tableOf p.nodes) (rootSet p.roots) 256 (rangeLeaves p.start p.end_)
        (tableOf (leavesFrom hs p.start blocks)) with
    | none => false
    | some (active, held) =>
      match substituteAll held active.toList p.roots with
      | none => false
      | some roots => hs.treeHash roots = expectedRoot

/-! ### The frontier -/

theorem mem_rangeLeaves {start end_ i : ℕ} :
    i ∈ rangeLeaves start end_ ↔ ∃ b, start ≤ b ∧ b < end_ ∧ i = Flat.index 0 b := by
  rw [rangeLeaves, Graph.mem_ofList, List.mem_map]
  refine ⟨fun ⟨b, hb, hi⟩ => ?_, fun ⟨b, h1, h2, hi⟩ => ?_⟩
  · rw [List.mem_range'_1] at hb
    exact ⟨b, hb.1, by omega, by rw [Flat.index_zero, hi]⟩
  · exact ⟨b, List.mem_range'_1.mpr ⟨h1, by omega⟩, by rw [hi, Flat.index_zero]⟩

variable {roots active : ExtTreeSet ℕ}

theorem settled_iff : settled roots active = true ↔ ∀ i ∈ active, i ∈ roots := by
  simp [settled]

theorem mem_frontierLevel {d i : ℕ} :
    i ∈ frontierLevel roots active d ↔ i ∈ active ∧ Flat.depth i = d ∧ i ∉ roots := by
  simp [frontierLevel, ← Bool.not_eq_true]

theorem frontierDepth_some {d : ℕ} (h : frontierDepth roots active = some d) :
    (∃ i ∈ active, i ∉ roots ∧ Flat.depth i = d) ∧ ∀ i ∈ active, i ∉ roots → d ≤ Flat.depth i := by
  obtain ⟨hmem, hle⟩ := List.min?_eq_some_iff.mp h
  simp only [List.mem_map, List.mem_filter, ExtTreeSet.mem_toList, Bool.not_eq_true',
    ← Bool.not_eq_true] at hmem hle
  obtain ⟨i, ⟨hi, hroot⟩, hd⟩ := hmem
  exact ⟨⟨i, hi, hroot, hd⟩, fun i hi hroot => hle _ ⟨i, ⟨hi, hroot⟩, rfl⟩⟩

theorem frontierDepth_ne_none (h : ¬ settled roots active = true) :
    ∃ d, frontierDepth roots active = some d := by
  rw [settled_iff] at h
  push Not at h
  obtain ⟨i, hi, hroot⟩ := h
  cases hd : frontierDepth roots active with
  | some d => exact ⟨d, rfl⟩
  | none =>
    rw [frontierDepth, List.min?_eq_none_iff, List.map_eq_nil_iff, List.filter_eq_nil_iff] at hd
    have := hd i (ExtTreeSet.mem_toList.mpr hi)
    simp [hroot] at this

/-- The frontier with `cur` and its sibling replaced by their parent. -/
def advance (active : ExtTreeSet ℕ) (cur : ℕ) : ExtTreeSet ℕ :=
  ((active.erase cur).erase (Flat.sibling cur)).insert (Flat.parent cur)

/-- What both climbs do to the frontier on a level. -/
def sweep : List ℕ → ExtTreeSet ℕ → ExtTreeSet ℕ
  | [], active => active
  | cur :: level, active => sweep level (if cur ∈ active then advance active cur else active)

theorem mem_advance {active : ExtTreeSet ℕ} {cur i : ℕ} : i ∈ advance active cur ↔
    i = Flat.parent cur ∨ i ≠ cur ∧ i ≠ Flat.sibling cur ∧ i ∈ active := by
  rw [advance, Graph.mem_insert_set, Graph.mem_erase_set, Graph.mem_erase_set]
  tauto

/-- On a level of depth `d` nothing of that depth or less is added, and what the
level names is gone. -/
theorem sweep_below {d i : ℕ} (hi : Flat.depth i ≤ d) : ∀ {level : List ℕ} {active : ExtTreeSet ℕ},
    (∀ c ∈ level, Flat.depth c = d) → i ∈ sweep level active → i ∈ active ∧ i ∉ level
  | [], _, _, h => ⟨h, List.not_mem_nil⟩
  | c :: level, active, hlevel, h => by
    obtain ⟨hmem, hout⟩ := sweep_below hi (fun c hc => hlevel c (List.mem_cons_of_mem _ hc)) h
    have hc : Flat.depth c = d := hlevel c List.mem_cons_self
    rw [List.mem_cons, not_or]
    split_ifs at hmem with hin
    · obtain rfl | ⟨hne, -, hmem⟩ := mem_advance.mp hmem
      · rw [Flat.depth_parent] at hi
        omega
      · exact ⟨hmem, hne, hout⟩
    · exact ⟨hmem, fun h => hin (h ▸ hmem), hout⟩

/-- A round leaves no unfinished node of its depth or below. -/
theorem sweep_level {d : ℕ} (hmin : ∀ i ∈ active, i ∉ roots → d ≤ Flat.depth i) :
    ∀ i ∈ sweep (frontierLevel roots active d) active, i ∉ roots → d + 1 ≤ Flat.depth i := by
  intro i hi hroot
  by_contra hd
  obtain ⟨hmem, hout⟩ := sweep_below (d := d) (by omega) (fun c hc => (mem_frontierLevel.mp hc).2.1) hi
  have := hmin i hmem hroot
  exact hout (mem_frontierLevel.mpr ⟨hmem, by omega, hroot⟩)

/-! ### An accepted proof -/

/-- Everything held is stored under its own index, and each of the blocks from
`start` on is committed to by a frontier node above it. -/
structure Covered (start : ℕ) (blocks : List Block) (active : ExtTreeSet ℕ)
    (held : ExtTreeMap ℕ (Node H)) : Prop where
  own : ∀ (i : ℕ) (v : Node H), held[i]? = some v → v.index = i
  cover : ∀ (k : ℕ) (data : Block), blocks[k]? = some data → ∃ d o v, Flat.index d o ∈ active ∧
    held[Flat.index d o]? = some v ∧ start + k < (o + 1) * 2 ^ d ∧ o * 2 ^ d ≤ start + k ∧
    Commits hs v d o (start + k) data

variable {hs}

variable {blocks : List Block} {held : ExtTreeMap ℕ (Node H)}

/-- One step of the climb keeps the blocks covered, as long as the parent it
derives was not held before. -/
theorem Covered.advance (ideal : hs.Ideal) {start cur : ℕ} {active : ExtTreeSet ℕ} {curNode sibNode : Node H}
    (h : Covered hs start blocks active held) (hcur : held[cur]? = some curNode)
    (hsib : ∀ v, held[Flat.sibling cur]? = some v → v = sibNode) (hnew : Flat.parent cur ∉ held) :
    Covered hs start blocks (Merkle.advance active cur)
      (held.insert (Flat.parent cur) (pairUp hs cur curNode (Flat.sibling cur) sibNode)) where
  own := by
    intro i v hget
    rw [Graph.getElem?_insert] at hget
    split_ifs at hget with hi
    · rw [← Option.some.inj hget, index_pairUp, hi]
    · exact h.own i v hget
  cover := by
    intro k data hk
    obtain ⟨d, o, v, hact, hget, hhi, hlo, hcommit⟩ := h.cover k data hk
    have hparent : ∀ w, (held.insert (Flat.parent cur) w)[Flat.parent cur]? = some w := by
      intro w
      rw [Graph.getElem?_insert, if_pos rfl]
    have hin : Flat.parent cur ∈ Merkle.advance active cur := mem_advance.mpr (Or.inl rfl)
    obtain ⟨hplo, hphi⟩ := Flat.covers_parent hlo hhi
    by_cases hc : Flat.index d o = cur
    · subst hc
      rw [hget] at hcur
      obtain rfl := Option.some.inj hcur
      rw [Flat.parent_index] at hin hparent ⊢
      exact ⟨d + 1, o / 2, _, hin, hparent _, hphi, hplo, hcommit.pairUp ideal⟩
    by_cases hs' : Flat.index d o = Flat.sibling cur
    · -- the block hangs under the sibling: then that is the node it was paired with
      obtain rfl : cur = Flat.sibling (Flat.index d o) := by rw [hs', Flat.sibling_sibling]
      rw [Flat.sibling_sibling] at hsib
      obtain rfl := hsib v hget
      have hp : Flat.parent (Flat.sibling (Flat.index d o)) = Flat.index (d + 1) (o / 2) := by
        rw [Flat.parent_sibling, Flat.parent_index]
      rw [hp] at hin hparent ⊢
      refine ⟨d + 1, o / 2, _, hin, hparent _, hphi, hplo, ?_⟩
      rw [pairUp_comm, Flat.sibling_sibling]
      exact hcommit.pairUp ideal
    · refine ⟨d, o, v, mem_advance.mpr (Or.inr ⟨hc, hs', hact⟩), ?_, hhi, hlo, hcommit⟩
      rw [Graph.getElem?_insert, if_neg, hget]
      intro heq
      exact hnew (heq ▸ ExtTreeMap.mem_iff_isSome_getElem?.mpr (by rw [hget]; rfl))

variable {table : ExtTreeMap ℕ (Node H)}

/-- What one step of the verifier's climb does. -/
theorem climbLevel_cons {cur : ℕ} {level : List ℕ} {active : ExtTreeSet ℕ}
    {result : ExtTreeSet ℕ × ExtTreeMap ℕ (Node H)}
    (h : climbLevel hs table (cur :: level) active held = some result) :
    cur ∉ active ∧ climbLevel hs table level active held = some result ∨
      cur ∈ active ∧ ∃ curNode sibNode, held[cur]? = some curNode ∧
        (held[Flat.sibling cur]? <|> table[Flat.sibling cur]?) = some sibNode ∧
        climbLevel hs table level (advance active cur)
          (held.insert (Flat.parent cur) (pairUp hs cur curNode (Flat.sibling cur) sibNode)) =
            some result := by
  rw [climbLevel] at h
  by_cases hc : cur ∈ active
  · have hcontains : active.contains cur = true := hc
    rw [if_neg (by simp [hcontains])] at h
    split at h
    · rename_i curNode sibNode hcur hsib
      exact Or.inr ⟨hc, curNode, sibNode, hcur, hsib, h⟩
    · cases h
  · have hcontains : active.contains cur = false := Bool.eq_false_iff.mpr hc
    rw [if_pos (by simp [hcontains])] at h
    exact Or.inl ⟨hc, h⟩

variable {held' : ExtTreeMap ℕ (Node H)}

/-- A level keeps the blocks covered, given that no parent of a frontier node of
its depth is held yet. -/
theorem Covered.level (ideal : hs.Ideal) {start d : ℕ} {active' : ExtTreeSet ℕ} :
    ∀ {level : List ℕ} {active : ExtTreeSet ℕ} {held : ExtTreeMap ℕ (Node H)},
    Covered hs start blocks active held → (∀ c ∈ level, Flat.depth c = d) →
    (∀ i ∈ held, Flat.depth i ≤ d + 1) →
    (∀ c ∈ active, Flat.depth c = d → Flat.parent c ∉ held) →
    climbLevel hs table level active held = some (active', held') →
    Covered hs start blocks active' held' ∧ active' = sweep level active ∧
      ∀ i ∈ held', Flat.depth i ≤ d + 1
  | [], active, held, hcov, _, hdepth, _, h => by
    obtain ⟨rfl, rfl⟩ := Prod.mk.inj (Option.some.inj h)
    exact ⟨hcov, rfl, hdepth⟩
  | cur :: level, active, held, hcov, hlevel, hdepth, hfree, h => by
    have hrest : ∀ c ∈ level, Flat.depth c = d := fun c hc => hlevel c (List.mem_cons_of_mem _ hc)
    have hcd : Flat.depth cur = d := hlevel cur List.mem_cons_self
    obtain ⟨hc, h⟩ | ⟨hc, curNode, sibNode, hcur, hsib, h⟩ := climbLevel_cons h
    · rw [sweep, if_neg hc]
      exact hcov.level ideal hrest hdepth hfree h
    · rw [sweep, if_pos hc]
      apply (hcov.advance ideal hcur _ (hfree cur hc hcd)).level ideal hrest _ _ h
      · intro v hv
        rw [hv] at hsib
        exact Option.some.inj hsib
      · intro i hi
        obtain rfl | hi := Graph.mem_insert.mp hi
        · rw [Flat.depth_parent, hcd]
        · exact hdepth i hi
      · intro c hact hd hmem
        obtain rfl | ⟨hne, hnes, hact⟩ := mem_advance.mp hact
        · rw [Flat.depth_parent] at hd
          omega
        · obtain heq | hmem := Graph.mem_insert.mp hmem
          · exact (Flat.eq_of_parent_eq heq).elim hne hnes
          · exact hfree c hact hd hmem

/-- The climb keeps the blocks covered: the frontier's depths grow past all that
is held. -/
theorem Covered.rounds (ideal : hs.Ideal) {start : ℕ} {roots active' : ExtTreeSet ℕ} :
    ∀ {guard m : ℕ} {active : ExtTreeSet ℕ} {held : ExtTreeMap ℕ (Node H)},
    Covered hs start blocks active held → (∀ i ∈ held, Flat.depth i ≤ m) →
    (∀ i ∈ active, i ∉ roots → m ≤ Flat.depth i) →
    roundLoop hs table roots guard active held = some (active', held') →
    Covered hs start blocks active' held' := by
  intro guard
  induction guard with
  | zero =>
    intro m active held hcov _ _ h
    rw [roundLoop] at h
    split_ifs at h
    obtain ⟨rfl, rfl⟩ := Prod.mk.inj (Option.some.inj h)
    exact hcov
  | succ guard ih =>
    intro m active held hcov hheld hact h
    rw [roundLoop] at h
    split_ifs at h with hsettled
    · obtain ⟨rfl, rfl⟩ := Prod.mk.inj (Option.some.inj h)
      exact hcov
    · obtain ⟨d, hd⟩ := frontierDepth_ne_none hsettled
      obtain ⟨⟨i, hi, hroot, hid⟩, hmin⟩ := frontierDepth_some hd
      have hmd : m ≤ d := hid ▸ hact i hi hroot
      rw [hd] at h
      cases hlevel : climbLevel hs table (frontierLevel roots active d) active held with
      | none => simp [hlevel] at h
      | some result =>
        obtain ⟨active₁, held₁⟩ := result
        simp only [hlevel] at h
        obtain ⟨hcov₁, rfl, hheld₁⟩ := hcov.level ideal
          (fun c hc => (mem_frontierLevel.mp hc).2.1)
          (fun i hi => (hheld i hi).trans (by omega))
          (fun c _ hc hmem => by
            have := hheld _ hmem
            rw [Flat.depth_parent] at this
            omega) hlevel
        exact ih hcov₁ hheld₁ (sweep_level hmin) h

variable {v : Node H}

theorem mem_leavesFrom : ∀ {blocks : List Block} {start : ℕ},
    v ∈ leavesFrom hs start blocks ↔
      ∃ k data, blocks[k]? = some data ∧ v = leafNode hs (start + k) data
  | [], start => by simp [leavesFrom]
  | b :: blocks, start => by
    rw [leavesFrom, List.mem_cons, mem_leavesFrom]
    refine ⟨fun h => ?_, fun ⟨k, data, hk, hv⟩ => ?_⟩
    · obtain rfl | ⟨k, data, hk, rfl⟩ := h
      · exact ⟨0, b, rfl, rfl⟩
      · exact ⟨k + 1, data, hk, by rw [Nat.add_right_comm, Nat.add_assoc]⟩
    · cases k with
      | zero =>
        obtain rfl : b = data := by simpa using hk
        exact Or.inl hv
      | succ k =>
        exact Or.inr ⟨k, data, by simpa using hk, by rw [hv, Nat.add_right_comm, Nat.add_assoc]⟩

/-- The recomputed leaf of each block. -/
theorem getElem?_leaves {start k : ℕ} {data : Block} (hk : blocks[k]? = some data) :
    (tableOf (leavesFrom hs start blocks))[Flat.index 0 (start + k)]? =
      some (leafNode hs (start + k) data) := by
  have hmem : Flat.index 0 (start + k) ∈ tableOf (leavesFrom hs start blocks) := by
    rw [mem_tableOf, List.mem_map]
    exact ⟨_, mem_leavesFrom.mpr ⟨k, data, hk, rfl⟩, (Flat.index_zero _).symm⟩
  obtain ⟨v, hv⟩ := Option.isSome_iff_exists.mp (ExtTreeMap.mem_iff_isSome_getElem?.mp hmem)
  obtain ⟨hin, hidx⟩ := of_getElem?_tableOf hv
  obtain ⟨k', data', hk', rfl⟩ := mem_leavesFrom.mp hin
  have hsame : (start + k') * 2 = (start + k) * 2 := hidx.trans (Flat.index_zero _)
  obtain rfl : k' = k := by omega
  rw [hk] at hk'
  obtain rfl := Option.some.inj hk'
  exact hv

/-- The leaves of the range cover it. -/
theorem covered_leaves (ideal : hs.Ideal) {start end_ : ℕ} (hlen : blocks.length = end_ - start) :
    Covered hs start blocks (rangeLeaves start end_) (tableOf (leavesFrom hs start blocks)) where
  own _ _ hget := (of_getElem?_tableOf hget).2
  cover := by
    intro k data hk
    have hlt : k < blocks.length := (List.getElem?_eq_some_iff.mp hk).1
    exact ⟨0, start + k, _, mem_rangeLeaves.mpr ⟨start + k, by omega, by omega, rfl⟩,
      getElem?_leaves hk, by omega, by omega, commits_leaf ideal _ data⟩

theorem depth_leaves {start i : ℕ} (hi : i ∈ tableOf (leavesFrom hs start blocks)) : Flat.depth i ≤ 0 := by
  obtain ⟨v, hv, rfl⟩ := List.mem_map.mp (mem_tableOf.mp hi)
  obtain ⟨k, data, -, rfl⟩ := mem_leavesFrom.mp hv
  show Flat.depth ((start + k) * 2) ≤ 0
  rw [← Flat.index_zero, Flat.depth_index]

omit hs in
/-- Substituting elsewhere keeps a root. -/
theorem mem_substitute_of_ne {idx : ℕ} {v r : Node H} : ∀ {roots roots' : List (Node H)},
    substitute idx v roots = some roots' → r ∈ roots → r.index ≠ idx → r ∈ roots'
  | q :: roots, roots', h, hr, hne => by
    rw [substitute] at h
    split_ifs at h with hq
    · obtain rfl := Option.some.inj h
      obtain rfl | hr := List.mem_cons.mp hr
      · exact absurd hq hne
      · exact List.mem_cons_of_mem _ hr
    · obtain ⟨rest, hrest, rfl⟩ := Option.map_eq_some_iff.mp h
      obtain rfl | hr := List.mem_cons.mp hr
      · exact List.mem_cons_self
      · exact List.mem_cons_of_mem _ (mem_substitute_of_ne hrest hr hne)

omit hs in
theorem mem_substituteAll_of_ne {r : Node H} :
    ∀ {active : List ℕ} {roots roots' : List (Node H)},
    substituteAll held active roots = some roots' → r ∈ roots → r.index ∉ active → r ∈ roots'
  | [], _, _, h, hr, _ => Option.some.inj h ▸ hr
  | idx :: active, roots, roots', h, hr, hne => by
    rw [substituteAll] at h
    rw [List.mem_cons, not_or] at hne
    split at h
    · cases h
    · split at h
      · cases h
      · rename_i node hnode mid hmid
        exact mem_substituteAll_of_ne h (mem_substitute_of_ne hmid hr hne.1) hne.2

omit hs in
/-- Every frontier node is among the roots that are hashed. -/
theorem mem_substituteAll (hown : ∀ (i : ℕ) (v : Node H), held[i]? = some v → v.index = i) {i : ℕ}
    (hv : held[i]? = some v) : ∀ {active : List ℕ} {roots roots' : List (Node H)},
    substituteAll held active roots = some roots' → active.Nodup → i ∈ active → v ∈ roots'
  | idx :: active, roots, roots', h, hnodup, hi => by
    rw [substituteAll] at h
    rw [List.nodup_cons] at hnodup
    split at h
    · cases h
    · rename_i node hnode
      split at h
      · cases h
      · rename_i mid hmid
        obtain rfl | hi := List.mem_cons.mp hi
        · rw [hv] at hnode
          obtain rfl := Option.some.inj hnode
          obtain rfl := hown _ _ hv
          exact mem_substituteAll_of_ne h (substitute_spec hmid).1 hnodup.1
        · exact mem_substituteAll hown hv h hnodup.2 hi

variable {p : RangeProof H}

theorem RangeProof.verify_iff [DecidableEq H] {root : H} :
    p.verify hs blocks root = true ↔ p.start < p.end_ ∧ blocks.length = p.end_ - p.start ∧
      p.leafSizes = blocks.map List.length ∧
      ∃ active held, roundLoop hs (tableOf p.nodes) (rootSet p.roots) 256
        (rangeLeaves p.start p.end_) (tableOf (leavesFrom hs p.start blocks)) = some (active, held) ∧
      ∃ roots, substituteAll held active.toList p.roots = some roots ∧ hs.treeHash roots = root := by
  rw [RangeProof.verify]
  by_cases hlt : p.start ≥ p.end_
  · rw [if_pos hlt]
    refine ⟨(nomatch ·), fun ⟨h, _⟩ => ?_⟩
    omega
  rw [if_neg hlt]
  by_cases hlen : blocks.length ≠ p.end_ - p.start ∨ p.leafSizes.length ≠ p.end_ - p.start
  · rw [if_pos hlen]
    refine ⟨(nomatch ·), fun ⟨_, h1, h2, _⟩ => ?_⟩
    rw [h2, List.length_map] at hlen
    omega
  rw [if_neg hlen]
  push Not at hlen
  by_cases hsizes : p.leafSizes = blocks.map List.length
  · have hany : ¬ ((blocks.zip p.leafSizes).any fun q => q.1.length ≠ q.2) = true := by
      rw [hsizes]
      intro hc
      obtain ⟨q, hq, hne⟩ := List.any_eq_true.mp hc
      obtain ⟨k, hk, rfl⟩ := List.mem_iff_getElem.mp hq
      simp at hne
    rw [if_neg hany]
    cases hround : roundLoop hs (tableOf p.nodes) (rootSet p.roots) 256
        (rangeLeaves p.start p.end_) (tableOf (leavesFrom hs p.start blocks)) with
    | none => simp
    | some result =>
      obtain ⟨active, held⟩ := result
      cases hsub : substituteAll held active.toList p.roots with
      | none => simp [hsub]
      | some roots => simp [hsub, hsizes, hlen.1, Nat.not_le.mp hlt]
  · have hany : ((blocks.zip p.leafSizes).any fun q => q.1.length ≠ q.2) = true := by
      by_contra hc
      apply hsizes
      apply List.ext_getElem
      · rw [List.length_map, hlen.1, hlen.2]
      · intro k h1 h2
        rw [List.length_map] at h2
        by_contra hne
        apply hc
        rw [List.any_eq_true]
        refine ⟨(blocks[k], p.leafSizes[k]), ?_, ?_⟩
        · rw [List.mem_iff_getElem]
          exact ⟨k, by rw [List.length_zip]; omega, List.getElem_zip⟩
        · rw [List.getElem_map] at hne
          simpa using fun h => hne h.symm
    rw [if_pos hany]
    exact ⟨(nomatch ·), fun ⟨_, _, h, _⟩ => absurd h hsizes⟩

/-- An accepted proof is of the blocks of its range. -/
theorem RangeProof.verify_sound [DecidableEq H] (ideal : hs.Ideal) {B blocks : List Block}
    (h : p.verify hs blocks (hs.treeHash (rootsOf hs B)) = true) :
    p.end_ ≤ B.length ∧ blocks = (B.drop p.start).take (p.end_ - p.start) := by
  obtain ⟨hlt, hlen, -, active, held, hround, roots, hsub, hhash⟩ := RangeProof.verify_iff.mp h
  have hcov := (covered_leaves ideal hlen).rounds ideal (m := 0)
    (fun i hi => depth_leaves hi) (fun _ _ _ => Nat.zero_le _) hround
  obtain rfl := ideal.tree hhash
  have hblock : ∀ (k : ℕ) (data : Block), blocks[k]? = some data → B[p.start + k]? = some data := by
    intro k data hk
    obtain ⟨d, o, v, hact, hget, hhi, -, hcommit⟩ := hcov.cover k data hk
    have hmem := mem_substituteAll hcov.own hget hsub (Graph.nodup_toList active)
      (ExtTreeSet.mem_toList.mpr hact)
    obtain ⟨rfl, hin⟩ := mem_rootsOf hmem (hcov.own _ _ hget)
    have hb : p.start + k < B.length := hhi.trans_le hin
    rw [List.getElem?_eq_getElem hb, ← hcommit B rfl, List.getD_eq_getElem _ _ hb]
  have hend : p.end_ ≤ B.length := by
    have hk : p.end_ - p.start - 1 < blocks.length := by omega
    have hlast := hblock _ _ (List.getElem?_eq_getElem hk)
    have := (List.getElem?_eq_some_iff.mp hlast).1
    omega
  refine ⟨hend, List.ext_getElem? fun k => ?_⟩
  rw [List.getElem?_take, List.getElem?_drop]
  split_ifs with hk
  · rw [List.getElem?_eq_getElem (show k < blocks.length by omega)]
    exact (hblock _ _ (List.getElem?_eq_getElem _)).symm
  · exact List.getElem?_eq_none (by omega)

/-! ### The proofs a tree makes -/

section generate

variable {B : List Block} {T : MerkleTree H}

variable (hs) in
/-- What is stored is the node of the tree over `B`. -/
def Genuine (B : List Block) (held : ExtTreeMap ℕ (Node H)) : Prop :=
  ∀ (i : ℕ) (v : Node H), held[i]? = some v → v = nodeOf hs B i

/-- The frontier lies within the tree. -/
def Within (B : List Block) (active : ExtTreeSet ℕ) : Prop :=
  ∀ i ∈ active, (Flat.blockRange i).2 ≤ B.length

/-- Below a root there is room for the parent. -/
theorem parent_within {i : ℕ} (hi : (Flat.blockRange i).2 ≤ B.length)
    (hroot : i ∉ Flat.fullRoots (B.length * 2)) :
    (Flat.blockRange (Flat.parent i)).2 ≤ B.length := by
  obtain ⟨d, o, rfl⟩ := Flat.exists_index i
  rw [Flat.blockRange_index] at hi
  rw [Flat.parent_index, Flat.blockRange_index]
  by_contra hc
  exact hroot (Flat.mem_fullRoots.mpr ⟨hi, Nat.not_le.mp hc⟩)

variable {active : ExtTreeSet ℕ} {cur : ℕ}

theorem Within.advance (h : Within B active) (hp : (Flat.blockRange (Flat.parent cur)).2 ≤ B.length) :
    Within B (Merkle.advance active cur) := by
  intro i hi
  obtain rfl | ⟨-, -, hi⟩ := mem_advance.mp hi
  · exact hp
  · exact h i hi

variable {held : ExtTreeMap ℕ (Node H)}

theorem Genuine.advance (h : Genuine hs B held) :
    Genuine hs B (held.insert (Flat.parent cur) (pairUp hs cur (nodeOf hs B cur) (Flat.sibling cur)
      (nodeOf hs B (Flat.sibling cur)))) := by
  intro i v hget
  rw [Graph.getElem?_insert] at hget
  split_ifs at hget with hi
  · rw [← Option.some.inj hget, pairUp_nodeOf, hi]
  · exact h i v hget

omit hs in
theorem held_advance {v : Node H} (h : ∀ i ∈ active, i ∈ held) :
    ∀ i ∈ Merkle.advance active cur, i ∈ held.insert (Flat.parent cur) v := by
  intro i hi
  obtain rfl | ⟨-, -, hi⟩ := mem_advance.mp hi
  · exact Graph.mem_insert.mpr (Or.inl rfl)
  · exact Graph.mem_insert.mpr (Or.inr (h i hi))

/-- The verifier follows the generator on a level: with every boundary node in
its table, it arrives at the same frontier. -/
def Follows (hs : Hasher H) (B : List Block) (level : List ℕ) (active active' : ExtTreeSet ℕ)
    (boundary : List (Node H)) : Prop :=
  ∀ table held, Genuine hs B table → Genuine hs B held → (∀ i ∈ active, i ∈ held) →
    (∀ n ∈ boundary, n.index ∈ table) →
    ∃ held', climbLevel hs table level active held = some (active', held') ∧
      Genuine hs B held' ∧ ∀ i ∈ active', i ∈ held'

/-- One step of the verifier on genuine nodes. -/
theorem climbLevel_genuine {table held : ExtTreeMap ℕ (Node H)} {level : List ℕ} (htable : Genuine hs B table)
    (hheld : Genuine hs B held) (hcur : cur ∈ active) (hact : cur ∈ held)
    (hsib : Flat.sibling cur ∈ held ∨ Flat.sibling cur ∈ table) :
    climbLevel hs table (cur :: level) active held = climbLevel hs table level (advance active cur)
      (held.insert (Flat.parent cur) (pairUp hs cur (nodeOf hs B cur) (Flat.sibling cur)
        (nodeOf hs B (Flat.sibling cur)))) := by
  have hcontains : active.contains cur = true := hcur
  obtain ⟨v, hv⟩ := Option.isSome_iff_exists.mp (ExtTreeMap.mem_iff_isSome_getElem?.mp hact)
  have hnode : held[cur]? = some (nodeOf hs B cur) := by rw [hv, hheld cur v hv]
  have hother : (held[Flat.sibling cur]? <|> table[Flat.sibling cur]?) =
      some (nodeOf hs B (Flat.sibling cur)) := by
    cases hs' : held[Flat.sibling cur]? with
    | some w => rw [hheld _ w hs']; rfl
    | none =>
      have hin : Flat.sibling cur ∈ table := hsib.resolve_left fun h => by
        rw [ExtTreeMap.mem_iff_isSome_getElem?, hs'] at h
        cases h
      obtain ⟨w, hw⟩ := Option.isSome_iff_exists.mp (ExtTreeMap.mem_iff_isSome_getElem?.mp hin)
      show table[Flat.sibling cur]? = _
      rw [hw, htable _ w hw]
  rw [climbLevel, if_neg (by simp [hcontains]), hnode, hother]
  rfl

/-- One level of the generator, on a frontier within the tree: it finds every
sibling it lacks, and the verifier can follow. -/
theorem Built.pairLevel (hT : Built hs B T) (boundary : List (Node H)) :
    ∀ {level : List ℕ} {active : ExtTreeSet ℕ}, Within B active →
    (∀ c ∈ level, (Flat.blockRange (Flat.parent c)).2 ≤ B.length) →
    ∃ more, T.pairLevel level active boundary = some (sweep level active, boundary ++ more) ∧
      (∀ n ∈ more, n = nodeOf hs B n.index) ∧ Within B (sweep level active) ∧
      Follows hs B level active (sweep level active) more := by
  intro level
  induction level generalizing boundary with
  | nil =>
    intro active hw _
    refine ⟨[], by simp [MerkleTree.pairLevel, sweep], by simp, hw, ?_⟩
    intro table held _ hheld hact _
    exact ⟨held, rfl, hheld, hact⟩
  | cons cur level ih =>
    intro active hw hlevel
    have hrest : ∀ c ∈ level, (Flat.blockRange (Flat.parent c)).2 ≤ B.length :=
      fun c hc => hlevel c (List.mem_cons_of_mem _ hc)
    have hp := hlevel cur List.mem_cons_self
    rw [MerkleTree.pairLevel, sweep]
    by_cases hcur : cur ∈ active
    · have hcontains : active.contains cur = true := hcur
      rw [if_neg (by simp [hcontains]), if_pos hcur]
      by_cases hsib : Flat.sibling cur ∈ active
      · -- both are on the frontier
        have hsibc : active.contains (Flat.sibling cur) = true := hsib
        have hsame : ((active.erase (Flat.sibling cur)).erase cur).insert (Flat.parent cur) =
            advance active cur := by
          apply ExtTreeSet.ext_mem
          intro i
          rw [mem_advance, Graph.mem_insert_set, Graph.mem_erase_set, Graph.mem_erase_set]
        rw [if_pos hsibc, hsame]
        obtain ⟨more, hmore, hgen, hwithin, hfollow⟩ := ih boundary (hw.advance hp) hrest
        refine ⟨more, hmore, hgen, hwithin, ?_⟩
        intro table held htable hheld hact hin
        rw [climbLevel_genuine htable hheld hcur (hact cur hcur) (Or.inl (hact _ hsib))]
        exact hfollow table _ htable hheld.advance (held_advance hact) hin
      · -- the sibling is off the frontier: the proof supplies it
        have hsibc : ¬ active.contains (Flat.sibling cur) = true := hsib
        have hsame : (active.erase cur).insert (Flat.parent cur) = advance active cur := by
          apply ExtTreeSet.ext_mem
          intro i
          rw [mem_advance, Graph.mem_insert_set, Graph.mem_erase_set]
          have : i ∈ active → i ≠ Flat.sibling cur := fun h hc => hsib (hc ▸ h)
          tauto
        have hnode : T.nodes[Flat.sibling cur]? = some (nodeOf hs B (Flat.sibling cur)) := by
          obtain ⟨d, o, rfl⟩ := Flat.exists_index cur
          rw [Flat.parent_index, Flat.blockRange_index] at hp
          exact hT.getElem?_sibling hp
        rw [if_neg hsibc, hnode]
        simp only [hsame]
        obtain ⟨more, hmore, hgen, hwithin, hfollow⟩ :=
          ih (boundary ++ [nodeOf hs B (Flat.sibling cur)]) (hw.advance hp) hrest
        refine ⟨nodeOf hs B (Flat.sibling cur) :: more, by rw [hmore]; simp, ?_, hwithin, ?_⟩
        · intro n hn
          obtain rfl | hn := List.mem_cons.mp hn
          · rw [index_nodeOf]
          · exact hgen n hn
        · intro table held htable hheld hact hin
          have hsup : Flat.sibling cur ∈ table := by
            simpa using hin (nodeOf hs B (Flat.sibling cur)) List.mem_cons_self
          rw [climbLevel_genuine htable hheld hcur (hact cur hcur) (Or.inr hsup)]
          exact hfollow table _ htable hheld.advance (held_advance hact)
            fun n hn => hin n (List.mem_cons_of_mem _ hn)
    · have hcontains : active.contains cur = false := Bool.eq_false_iff.mpr hcur
      rw [if_pos (by simp [hcontains]), if_neg hcur]
      obtain ⟨more, hmore, hgen, hwithin, hfollow⟩ := ih boundary hw hrest
      refine ⟨more, hmore, hgen, hwithin, ?_⟩
      intro table held htable hheld hact hin
      rw [climbLevel, if_pos (by simp [hcontains])]
      exact hfollow table held htable hheld hact hin

/-- An unfinished frontier is below the top of the tree. -/
theorem pow_le_of_not_settled {m : ℕ} (hw : Within B active)
    (hmin : ∀ i ∈ active, i ∉ rootSet (rootsOf hs B) → m ≤ Flat.depth i)
    (h : ¬ settled (rootSet (rootsOf hs B)) active = true) : 2 ^ (m + 1) ≤ B.length := by
  rw [settled_iff] at h
  push Not at h
  obtain ⟨i, hi, hroot⟩ := h
  have hp := parent_within (hw i hi) fun hc => hroot ((mem_rootSet_rootsOf hs).mpr hc)
  have hm := hmin i hi hroot
  calc 2 ^ (m + 1) ≤ 2 ^ Flat.depth (Flat.parent i) :=
        Nat.pow_le_pow_right two_pos (by rw [Flat.depth_parent]; omega)
    _ ≤ (Flat.blockRange (Flat.parent i)).2 := Nat.le_add_left _ _
    _ ≤ B.length := hp

omit hs in
theorem boundaryLoop_settled {roots active : ExtTreeSet ℕ} (h : settled roots active = true) :
    ∀ (fuel : ℕ) (boundary : List (Node H)), T.boundaryLoop roots fuel active boundary = some boundary
  | 0, _ => by rw [MerkleTree.boundaryLoop, if_pos h]
  | _ + 1, _ => by rw [MerkleTree.boundaryLoop, if_pos h]

theorem roundLoop_settled {table : ExtTreeMap ℕ (Node H)} {roots active : ExtTreeSet ℕ}
    (h : settled roots active = true) : ∀ (guard : ℕ) (held : ExtTreeMap ℕ (Node H)),
    roundLoop hs table roots guard active held = some (active, held)
  | 0, _ => by rw [roundLoop, if_pos h]
  | _ + 1, _ => by rw [roundLoop, if_pos h]

/-- The generator's climb ends at the roots, and the verifier can follow it
there: each round rises by a level, and there are no more levels than the
exponent of the length. -/
theorem Built.boundaryLoop (hT : Built hs B T) : ∀ (fuel : ℕ) {m : ℕ} {active : ExtTreeSet ℕ}
    (boundary : List (Node H)), Within B active →
    (∀ i ∈ active, i ∉ rootSet (rootsOf hs B) → m ≤ Flat.depth i) → B.length < 2 ^ (fuel + m) →
    ∃ more, T.boundaryLoop (rootSet (rootsOf hs B)) fuel active boundary = some (boundary ++ more) ∧
      (∀ n ∈ more, n = nodeOf hs B n.index) ∧
      ∀ guard table held, B.length < 2 ^ (guard + m) → Genuine hs B table → Genuine hs B held →
        (∀ i ∈ active, i ∈ held) → (∀ n ∈ more, n.index ∈ table) →
        ∃ active' held', roundLoop hs table (rootSet (rootsOf hs B)) guard active held =
            some (active', held') ∧ Genuine hs B held' ∧ (∀ i ∈ active', i ∈ held') ∧
          ∀ i ∈ active', i ∈ rootSet (rootsOf hs B) := by
  intro fuel
  induction fuel with
  | zero =>
    intro m active boundary hw hmin hlen
    -- the fuel has run out, so the frontier has reached the roots
    have hsettled : settled (rootSet (rootsOf hs B)) active = true := by
      by_contra hc
      have hle := pow_le_of_not_settled hw hmin hc
      rw [Nat.zero_add] at hlen
      have hlt : 2 ^ m < 2 ^ (m + 1) := Nat.pow_lt_pow_succ one_lt_two
      omega
    refine ⟨[], by rw [boundaryLoop_settled hsettled, List.append_nil], by simp, ?_⟩
    intro guard table held _ _ hheld hact _
    exact ⟨active, held, roundLoop_settled hsettled guard held, hheld, hact, settled_iff.mp hsettled⟩
  | succ fuel ih =>
    intro m active boundary hw hmin hlen
    by_cases hsettled : settled (rootSet (rootsOf hs B)) active = true
    · refine ⟨[], by rw [boundaryLoop_settled hsettled, List.append_nil], by simp, ?_⟩
      intro guard table held _ _ hheld hact _
      exact ⟨active, held, roundLoop_settled hsettled guard held, hheld, hact, settled_iff.mp hsettled⟩
    · obtain ⟨d, hd⟩ := frontierDepth_ne_none hsettled
      obtain ⟨⟨i, hi, hroot, hid⟩, hdmin⟩ := frontierDepth_some hd
      have hmd : m ≤ d := hid ▸ hmin i hi hroot
      have hgrow : ∀ g, B.length < 2 ^ (g + 1 + m) → B.length < 2 ^ (g + (d + 1)) := by
        intro g hg
        exact hg.trans_le (Nat.pow_le_pow_right two_pos (by omega))
      have hlevel : ∀ c ∈ frontierLevel (rootSet (rootsOf hs B)) active d,
          (Flat.blockRange (Flat.parent c)).2 ≤ B.length := by
        intro c hc
        obtain ⟨hc, -, hcroot⟩ := mem_frontierLevel.mp hc
        exact parent_within (hw c hc) fun h => hcroot ((mem_rootSet_rootsOf hs).mpr h)
      obtain ⟨more₁, hpair, hgen₁, hw₁, hfollow⟩ := hT.pairLevel boundary hw hlevel
      obtain ⟨more₂, hloop, hgen₂, hrounds⟩ :=
        ih (boundary ++ more₁) hw₁ (sweep_level hdmin) (hgrow fuel hlen)
      refine ⟨more₁ ++ more₂, ?_, fun n hn => ?_, ?_⟩
      · rw [MerkleTree.boundaryLoop, if_neg hsettled, hd]
        simp only [hpair, hloop, List.append_assoc]
      · exact (List.mem_append.mp hn).elim (hgen₁ n) (hgen₂ n)
      · intro guard table held hguard htable hheld hact hin
        cases guard with
        | zero =>
          have hle := pow_le_of_not_settled hw hmin hsettled
          rw [Nat.zero_add] at hguard
          have hlt : 2 ^ m < 2 ^ (m + 1) := Nat.pow_lt_pow_succ one_lt_two
          omega
        | succ guard =>
          obtain ⟨held₁, hclimb, hheld₁, hact₁⟩ := hfollow table held htable hheld hact
            fun n hn => hin n (List.mem_append_left _ hn)
          rw [roundLoop, if_neg hsettled, hd]
          simp only [hclimb]
          exact hrounds guard table held₁ (hgrow guard hguard) htable hheld₁ hact₁
            fun n hn => hin n (List.mem_append_right _ hn)

/-- Substituting genuine nodes at root indices changes nothing. -/
theorem substituteAll_genuine (hheld : Genuine hs B held) :
    ∀ {active : List ℕ}, (∀ i ∈ active, i ∈ held ∧ i ∈ rootSet (rootsOf hs B)) →
    substituteAll held active (rootsOf hs B) = some (rootsOf hs B)
  | [], _ => rfl
  | i :: active, h => by
    obtain ⟨hin, hroot⟩ := h i List.mem_cons_self
    obtain ⟨v, hv⟩ := Option.isSome_iff_exists.mp (ExtTreeMap.mem_iff_isSome_getElem?.mp hin)
    obtain rfl := hheld i v hv
    rw [substituteAll, hv]
    simp only [substitute_rootsOf ((mem_rootSet_rootsOf hs).mp hroot)]
    exact substituteAll_genuine hheld fun j hj => h j (List.mem_cons_of_mem _ hj)

/-- The tree proves each of its ranges. -/
theorem Built.rangeProof [DecidableEq H] (hT : Built hs B T) (hlen : B.length < 2 ^ 64)
    {start end_ : ℕ} (hlt : start < end_) (hend : end_ ≤ B.length) :
    ∃ p, T.rangeProof start end_ = some p ∧
      p.verify hs ((B.drop start).take (end_ - start)) (hs.treeHash (rootsOf hs B)) = true := by
  set blocks := (B.drop start).take (end_ - start) with hblocks
  have hblen : blocks.length = end_ - start := by
    rw [hblocks, List.length_take, List.length_drop]
    omega
  have hget : ∀ b, start ≤ b → b < end_ → blocks[b - start]? = some (B.getD b []) := by
    intro b h1 h2
    rw [hblocks, List.getElem?_take, if_pos (by omega), List.getElem?_drop,
      show start + (b - start) = b by omega, List.getElem?_eq_getElem (by omega),
      List.getD_eq_getElem _ _ (by omega)]
  have hsizes : ((List.range' start (end_ - start)).mapM fun b => T.nodes[b * 2]?.map (·.size)) =
      some (blocks.map List.length) := by
    have hread : ∀ b ∈ List.range' start (end_ - start),
        T.nodes[b * 2]?.map (·.size) = some (B.getD b []).length := by
      intro b hb
      rw [List.mem_range'_1] at hb
      rw [← Flat.index_zero, hT.nodes, if_pos (by omega)]
      rfl
    rw [mapM_eq_some hread]
    congr 1
    apply List.ext_getElem?
    intro k
    rw [List.getElem?_map, List.getElem?_map]
    by_cases hk : k < end_ - start
    · have hb := hget (start + k) (by omega) (by omega)
      rw [Nat.add_sub_cancel_left] at hb
      rw [List.getElem?_range' hk, hb, Option.map_some, Option.map_some, Nat.one_mul]
    · rw [List.getElem?_eq_none (by rw [List.length_range']; omega),
        List.getElem?_eq_none (by omega)]
      rfl
  have hwithin : Within B (rangeLeaves start end_) := by
    intro i hi
    obtain ⟨b, -, hb, rfl⟩ := mem_rangeLeaves.mp hi
    rw [Flat.blockRange_index]
    omega
  obtain ⟨nodes, hnodes, hgen, hrounds⟩ := hT.boundaryLoop T.length (m := 0) [] hwithin
    (fun _ _ _ => Nat.zero_le _) (by rw [hT.length_eq]; exact Nat.lt_two_pow_self)
  rw [List.nil_append] at hnodes
  refine ⟨⟨start, end_, blocks.map List.length, nodes, rootsOf hs B⟩, ?_, ?_⟩
  · rw [MerkleTree.rangeProof, if_neg (by rw [hT.length_eq]; omega), hT.roots]
    simp only [Option.bind_eq_bind, Option.bind_some, hsizes, hnodes]
    rfl
  · have htable : Genuine hs B (tableOf nodes) := by
      intro i v hv
      obtain ⟨hmem, rfl⟩ := of_getElem?_tableOf hv
      exact hgen v hmem
    have hleaves : Genuine hs B (tableOf (leavesFrom hs start blocks)) := by
      intro i v hv
      obtain ⟨hmem, rfl⟩ := of_getElem?_tableOf hv
      obtain ⟨k, data, hk, rfl⟩ := mem_leavesFrom.mp hmem
      have hklt : k < end_ - start := hblen ▸ (List.getElem?_eq_some_iff.mp hk).1
      have hb := hget (start + k) (by omega) (by omega)
      rw [Nat.add_sub_cancel_left, hk] at hb
      show leafNode hs (start + k) data = nodeOf hs B ((start + k) * 2)
      rw [← Flat.index_zero, nodeOf_index, nodeAt, Option.some.inj hb]
    have hact : ∀ i ∈ rangeLeaves start end_, i ∈ tableOf (leavesFrom hs start blocks) := by
      intro i hi
      obtain ⟨b, h1, h2, rfl⟩ := mem_rangeLeaves.mp hi
      have hleaf : (tableOf (leavesFrom hs start blocks))[Flat.index 0 (start + (b - start))]? = some _ :=
        getElem?_leaves (hget b h1 h2)
      rw [show start + (b - start) = b by omega] at hleaf
      exact ExtTreeMap.mem_iff_isSome_getElem?.mpr (by rw [hleaf]; rfl)
    obtain ⟨active, held, hround, hheld, hin, hroots⟩ :=
      hrounds 256 (tableOf nodes) (tableOf (leavesFrom hs start blocks))
        (hlen.trans (Nat.pow_lt_pow_right one_lt_two (by omega))) htable hleaves hact
        (fun n hn => mem_tableOf.mpr (List.mem_map.mpr ⟨n, hn, rfl⟩))
    refine RangeProof.verify_iff.mpr ⟨hlt, hblen, rfl, active, held, hround, rootsOf hs B, ?_, rfl⟩
    exact substituteAll_genuine hheld fun i hi =>
      ⟨hin i (ExtTreeSet.mem_toList.mp hi), hroots i (ExtTreeSet.mem_toList.mp hi)⟩

end generate

/-- **Range proofs are complete and sound.** A tree (its length is a 64-bit
field) proves each of its ranges, within the verifier's 256 rounds, and whatever
verifies against its root hash is the blocks of the range the proof names. -/
theorem range_complete_sound [DecidableEq H] (ideal : hs.Ideal) (B : List Block) :
    ∃ root, (MerkleTree.ofBlocks hs B).rootHash hs = some root ∧
      (B.length < 2 ^ 64 → ∀ s e, s < e → e ≤ B.length →
        ∃ p, (MerkleTree.ofBlocks hs B).rangeProof s e = some p ∧
          p.verify hs ((B.drop s).take (e - s)) root = true) ∧
      ∀ (p : RangeProof H) (D : List Block), p.verify hs D root = true →
        p.end_ ≤ B.length ∧ D = (B.drop p.start).take (p.end_ - p.start) := by
  have hbuilt := built_ofBlocks hs B
  exact ⟨_, hbuilt.rootHash, fun hlen s e hlt hend => hbuilt.rangeProof hlen hlt hend,
    fun p D => RangeProof.verify_sound ideal⟩

/-- The middle of five blocks. -/
theorem range_complete_sound_five :
    ∃ root p, (MerkleTree.ofBlocks Hasher.numbering [[1], [2], [3], [4], [5]]).rootHash
        Hasher.numbering = some root ∧
      (MerkleTree.ofBlocks Hasher.numbering [[1], [2], [3], [4], [5]]).rangeProof 1 4 = some p ∧
      p.verify Hasher.numbering [[2], [3], [4]] root = true := by
  obtain ⟨root, hroot, hcomplete, -⟩ :=
    range_complete_sound Hasher.numbering_ideal [[1], [2], [3], [4], [5]]
  obtain ⟨p, hp, hv⟩ := hcomplete (by decide) 1 4 (by decide) (by decide)
  exact ⟨root, p, hroot, hp, hv⟩

end Merkle
end HypercoreRs
