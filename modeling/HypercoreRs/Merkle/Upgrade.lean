/-
# Upgrade proofs

An upgrade proof shows that the tree of length `new` extends the tree of length
`old`. The generator walks down from the new roots and emits the largest
subtrees that hold new blocks only; the verifier puts them beside its own old
roots and pairs siblings until nothing changes, then compares the hash of the
new roots it has derived.

Soundness is an invariant of the verifier's table (`Trusted`): whatever stands
at an index commits to every old block under it. An old root does, a supplied
node has no old block under it, and pairing keeps it, so it holds of the new
roots, whoever chose the nodes.

For completeness, a generated proof derives every new root in any table closed
under pairing (`Built.collectUpgrade`), and the passes reach such a table in
time: after `k` of them it is closed below depth `k` (`ClosedBelow`).
-/
import HypercoreRs.Merkle.Tree

open Std

namespace HypercoreRs
namespace Merkle

variable {H : Type} (hs : Hasher H)

/-- A length-extension (consistency) proof: the fully-new subtree nodes needed to
fold the old roots up into the new roots. -/
structure UpgradeProof (H : Type) where
  oldLen : ℕ
  newLen : ℕ
  nodes : List (Node H)

namespace MerkleTree

/-- Collect the largest fully-new subtrees under `index`. `none` is a panic: a
missing node, or a straddling leaf. -/
def collectUpgrade (T : MerkleTree H) (old : ℕ) (oldRootSet : ExtTreeSet ℕ) (index : ℕ)
    (out : ExtTreeMap ℕ (Node H)) : Option (ExtTreeMap ℕ (Node H)) :=
  if (Flat.blockRange index).2 ≤ old then
    -- within the trusted prefix: the verifier has the old roots
    if oldRootSet.contains index then some out
    else
      match _h : Flat.children index with
      | none => some out
      | some (l, r) =>
        match T.collectUpgrade old oldRootSet l out with
        | none => none
        | some out => T.collectUpgrade old oldRootSet r out
  else if (Flat.blockRange index).1 ≥ old then
    match T.nodes[index]? with
    | none => none
    | some node => some (out.insert index node)
  else
    match _h : Flat.children index with
    | none => none
    | some (l, r) =>
      match T.collectUpgrade old oldRootSet l out with
      | none => none
      | some out => T.collectUpgrade old oldRootSet r out
termination_by Flat.depth index
decreasing_by
  all_goals first
    | exact (Flat.depth_children _h).1
    | exact (Flat.depth_children _h).2

/-- The walk of `upgrade_proof` over the new roots. -/
def collectRoots (T : MerkleTree H) (old : ℕ) (oldRootSet : ExtTreeSet ℕ) :
    List ℕ → ExtTreeMap ℕ (Node H) → Option (ExtTreeMap ℕ (Node H))
  | [], out => some out
  | r :: roots, out =>
    match T.collectUpgrade old oldRootSet r out with
    | none => none
    | some out => collectRoots T old oldRootSet roots out

/-- A proof that the tree at length `new` extends the tree at length `old`, or
`none` unless `1 <= old < new <= len`. -/
def upgradeProof (T : MerkleTree H) (old new : ℕ) : Option (UpgradeProof H) :=
  if old = 0 ∨ old ≥ new ∨ new > T.length then none
  else
    (T.collectRoots old (ExtTreeSet.ofList (Flat.fullRoots (old * 2))) (Flat.fullRoots (new * 2)) ∅).map
      fun out => { oldLen := old, newLen := new, nodes := out.toList.map (·.2) }

end MerkleTree

/-- Fold in the proof's nodes: each must be fully new, in range and not known yet. -/
def foldIn (oldLen newLen : ℕ) :
    List (Node H) → ExtTreeMap ℕ (Node H) → Option (ExtTreeMap ℕ (Node H))
  | [], known => some known
  | n :: nodes, known =>
    if (Flat.blockRange n.index).1 < oldLen ∨ (Flat.blockRange n.index).2 > newLen then none
    else if known.contains n.index then none
    else foldIn oldLen newLen nodes (known.insert n.index n)

/-- One step of a pass: combine `c` and its sibling, if both are known and their
parent is not. The flag says whether the table has changed. -/
def combine (state : ExtTreeMap ℕ (Node H) × Bool) (c : ℕ) : ExtTreeMap ℕ (Node H) × Bool :=
  let known := state.1
  if !known.contains (Flat.sibling c) || known.contains (Flat.parent c) then state
  else
    match known[c]?, known[Flat.sibling c]? with
    | some cn, some sn => (known.insert (Flat.parent c) (pairUp hs c cn (Flat.sibling c) sn), true)
    -- `c` is one of the table's keys and its sibling was just found
    | _, _ => state

/-- One pass over the indices known at its start. -/
def pass (known : ExtTreeMap ℕ (Node H)) : ExtTreeMap ℕ (Node H) × Bool :=
  known.keys.foldl (combine hs) (known, false)

/-- Passes until nothing changes; `none` if the guard stops them. -/
def passLoop : ℕ → ExtTreeMap ℕ (Node H) → Option (ExtTreeMap ℕ (Node H))
  | 0, _ => none
  | guard + 1, known =>
    if (pass hs known).2 then passLoop guard (pass hs known).1 else some (pass hs known).1

/-- Verify that the proof extends the trusted `oldRoots` to a tree whose root
hash is `newRootHash`. -/
def UpgradeProof.verify [DecidableEq H] (p : UpgradeProof H) (oldRoots : List (Node H))
    (newRootHash : H) : Bool :=
  if p.oldLen = 0 ∨ p.oldLen ≥ p.newLen then false
  else
    let expectedOld := Flat.fullRoots (p.oldLen * 2)
    if oldRoots.length ≠ expectedOld.length ∨
        (oldRoots.zip expectedOld).any (fun q => q.1.index ≠ q.2) then false
    else
      match foldIn p.oldLen p.newLen p.nodes (tableOf oldRoots) with
      | none => false
      | some known =>
        match passLoop hs 4096 known with
        | none => false
        | some known =>
          match (Flat.fullRoots (p.newLen * 2)).mapM (known[·]?) with
          | none => false
          | some newRoots => hs.treeHash newRoots = newRootHash

/-! ### What a pass does -/

section passes

variable {hs}

/-- What combining at `c` can do. -/
theorem combine_cases (hs : Hasher H) (known : ExtTreeMap ℕ (Node H)) (changed : Bool) (c : ℕ) :
    combine hs (known, changed) c = (known, changed) ∧
        (c ∈ known → Flat.sibling c ∈ known → Flat.parent c ∈ known) ∨
      ∃ cn sn, known[c]? = some cn ∧ known[Flat.sibling c]? = some sn ∧ Flat.parent c ∉ known ∧
        combine hs (known, changed) c =
          (known.insert (Flat.parent c) (pairUp hs c cn (Flat.sibling c) sn), true) := by
  by_cases hskip : (!known.contains (Flat.sibling c) || known.contains (Flat.parent c)) = true
  · refine Or.inl ⟨by rw [combine, if_pos hskip], fun _ hsib => ?_⟩
    have hcontains : known.contains (Flat.sibling c) = true := hsib
    simpa [hcontains] using hskip
  · have hboth : Flat.sibling c ∈ known ∧ Flat.parent c ∉ known := by simpa using hskip
    have hsn := ExtTreeMap.mem_iff_isSome_getElem?.mp hboth.1
    obtain ⟨sn, hsn⟩ := Option.isSome_iff_exists.mp hsn
    rw [combine, if_neg hskip]
    cases hcn : known[c]? with
    | none =>
      refine Or.inl ⟨rfl, fun hc => ?_⟩
      rw [ExtTreeMap.mem_iff_isSome_getElem?, hcn] at hc
      cases hc
    | some cn => exact Or.inr ⟨cn, sn, rfl, hsn, hboth.2, by rw [hsn]⟩

variable {P : ExtTreeMap ℕ (Node H) → Prop}

/-- What holds of the table and survives a combination holds after a pass. -/
theorem foldl_combine_induct
    (hstep : ∀ known c cn sn, P known → known[c]? = some cn → known[Flat.sibling c]? = some sn →
      P (known.insert (Flat.parent c) (pairUp hs c cn (Flat.sibling c) sn))) :
    ∀ (cs : List ℕ) (known : ExtTreeMap ℕ (Node H)) (changed : Bool), P known →
      P (cs.foldl (combine hs) (known, changed)).1
  | [], _, _, h => h
  | c :: cs, known, changed, h => by
    rw [List.foldl_cons]
    obtain ⟨heq, -⟩ | ⟨cn, sn, hcn, hsn, -, heq⟩ := combine_cases hs known changed c
    · rw [heq]
      exact foldl_combine_induct hstep cs known changed h
    · rw [heq]
      exact foldl_combine_induct hstep cs _ true (hstep known c cn sn h hcn hsn)

theorem passLoop_induct
    (hstep : ∀ known c cn sn, P known → known[c]? = some cn → known[Flat.sibling c]? = some sn →
      P (known.insert (Flat.parent c) (pairUp hs c cn (Flat.sibling c) sn))) :
    ∀ {guard : ℕ} {known final : ExtTreeMap ℕ (Node H)}, P known →
      passLoop hs guard known = some final → P final
  | 0, _, _, _, h => by cases h
  | guard + 1, known, final, hP, h => by
    have hpass : P (pass hs known).1 := foldl_combine_induct hstep known.keys known false hP
    rw [passLoop] at h
    split_ifs at h
    · exact passLoop_induct hstep hpass h
    · exact Option.some.inj h ▸ hpass

/-- Below depth `k`, the parent of two known siblings is known. -/
def ClosedBelow (k : ℕ) (known : ExtTreeMap ℕ (Node H)) : Prop :=
  ∀ c, Flat.depth c < k → c ∈ known → Flat.sibling c ∈ known → Flat.parent c ∈ known

/-- What combining over `cs` does to a table closed below depth `k`: it adds only
nodes above that depth, and every pair it visits gets its parent. -/
structure Combined (k : ℕ) (cs : List ℕ) (known : ExtTreeMap ℕ (Node H)) (changed : Bool)
    (result : ExtTreeMap ℕ (Node H) × Bool) : Prop where
  grows : ∀ i ∈ known, i ∈ result.1
  above : ∀ i ∈ result.1, Flat.depth i ≤ k → i ∈ known
  paired : ∀ c ∈ cs, c ∈ known → Flat.sibling c ∈ known → Flat.parent c ∈ result.1
  same : result.2 = false → changed = false ∧ result.1 = known
  deeper : result.2 = true → changed = true ∨ ∃ i ∈ result.1, k < Flat.depth i

theorem foldl_combine_spec (hs : Hasher H) {k : ℕ} :
    ∀ (cs : List ℕ) {known : ExtTreeMap ℕ (Node H)} (changed : Bool),
    ClosedBelow k known → Combined k cs known changed (cs.foldl (combine hs) (known, changed))
  | [], known, changed, _ =>
    ⟨fun _ h => h, fun _ h _ => h, fun _ hc => absurd hc List.not_mem_nil, fun h => ⟨h, rfl⟩,
    fun h => Or.inl h⟩
  | c :: cs, known, changed, hclosed => by
    rw [List.foldl_cons]
    obtain ⟨heq, hpaired⟩ | ⟨cn, sn, hcn, hsn, hp, heq⟩ := combine_cases hs known changed c
    · rw [heq]
      have ih := foldl_combine_spec hs cs changed hclosed
      refine ⟨ih.grows, ih.above, fun c' hc' h1 h2 => ?_, ih.same, ih.deeper⟩
      obtain rfl | hc' := List.mem_cons.mp hc'
      · exact ih.grows _ (hpaired h1 h2)
      · exact ih.paired c' hc' h1 h2
    · rw [heq]
      have hc : c ∈ known := ExtTreeMap.mem_iff_isSome_getElem?.mpr (by rw [hcn]; rfl)
      have hsib : Flat.sibling c ∈ known := ExtTreeMap.mem_iff_isSome_getElem?.mpr (by rw [hsn]; rfl)
      -- the pair was missing its parent, so it is not below `k`
      have hdeep : k < Flat.depth (Flat.parent c) := by
        rw [Flat.depth_parent]
        by_contra hk
        exact hp (hclosed c (by omega) hc hsib)
      set known' := known.insert (Flat.parent c) (pairUp hs c cn (Flat.sibling c) sn) with hknown'
      have hmem : ∀ i, i ∈ known' ↔ i = Flat.parent c ∨ i ∈ known := fun i => Graph.mem_insert
      have hold : ∀ i, Flat.depth i ≤ k → i ∈ known' → i ∈ known := by
        intro i hi h
        obtain rfl | h := (hmem i).mp h
        · omega
        · exact h
      have hclosed' : ClosedBelow k known' := by
        intro c' hk h1 h2
        refine (hmem _).mpr (Or.inr (hclosed c' hk (hold _ (by omega) h1) (hold _ ?_ h2)))
        rw [Flat.depth_sibling]
        omega
      have ih := foldl_combine_spec hs cs true hclosed'
      have hin : Flat.parent c ∈ (cs.foldl (combine hs) (known', true)).1 :=
        ih.grows _ ((hmem _).mpr (Or.inl rfl))
      refine ⟨fun i hi => ih.grows i ((hmem i).mpr (Or.inr hi)),
        fun i hi hk => hold i hk (ih.above i hi hk), fun c' hc' h1 h2 => ?_,
        fun h => (Bool.noConfusion (ih.same h).1), fun _ => Or.inr ⟨_, hin, hdeep⟩⟩
      obtain rfl | hc' := List.mem_cons.mp hc'
      · exact hin
      · exact ih.paired c' hc' ((hmem _).mpr (Or.inr h1)) ((hmem _).mpr (Or.inr h2))

/-- A pass closes one level more. -/
theorem ClosedBelow.pass (hs : Hasher H) {k : ℕ} {known : ExtTreeMap ℕ (Node H)} (h : ClosedBelow k known) :
    ClosedBelow (k + 1) (Merkle.pass hs known).1 := by
  have hspec := foldl_combine_spec hs known.keys false h
  intro c hk h1 h2
  have hc := hspec.above c h1 (by omega)
  refine hspec.paired c (Graph.mem_keys.mpr hc) hc (hspec.above _ h2 ?_)
  rw [Flat.depth_sibling]
  omega

/-- While the depths stay within `D`, the passes end within `D + 2` rounds, in a
table closed under pairing. -/
theorem passLoop_closes {D : ℕ}
    (hstep : ∀ known c cn sn, P known → known[c]? = some cn → known[Flat.sibling c]? = some sn →
      P (known.insert (Flat.parent c) (pairUp hs c cn (Flat.sibling c) sn)))
    (hdepth : ∀ known, P known → ∀ i ∈ known, Flat.depth i ≤ D) :
    ∀ {guard k : ℕ} {known : ExtTreeMap ℕ (Node H)}, P known → ClosedBelow k known →
      D + 2 ≤ guard + k → 0 < guard →
      ∃ final, passLoop hs guard known = some final ∧ (∀ i ∈ known, i ∈ final) ∧
        ∀ c, c ∈ final → Flat.sibling c ∈ final → Flat.parent c ∈ final
  | guard + 1, k, known, hP, hclosed, hguard, _ => by
    have hspec := foldl_combine_spec hs known.keys false hclosed
    have hpass : P (pass hs known).1 := foldl_combine_induct hstep known.keys known false hP
    rw [passLoop]
    split_ifs with hchanged
    · -- something above depth `k` was added, so there is a round left
      obtain hfalse | ⟨i, hi, hk⟩ := hspec.deeper hchanged
      · cases hfalse
      · have hD := hdepth _ hpass i hi
        obtain ⟨final, hfinal, hgrow, hcl⟩ := passLoop_closes hstep hdepth hpass
          (hclosed.pass hs) (show D + 2 ≤ guard + (k + 1) by omega) (by omega)
        exact ⟨final, hfinal, fun i hi => hgrow i (hspec.grows i hi), hcl⟩
    · have hsame := (hspec.same (Bool.eq_false_iff.mpr hchanged)).2
      refine ⟨_, rfl, hspec.grows, fun c h1 h2 => ?_⟩
      change c ∈ (known.keys.foldl (combine hs) (known, false)).1 at h1
      change Flat.sibling c ∈ (known.keys.foldl (combine hs) (known, false)).1 at h2
      rw [hsame] at h1 h2
      exact hspec.paired c (Graph.mem_keys.mpr h1) h1 h2

end passes

/-! ### An accepted proof -/

/-- Every entry is stored under its own index and commits to every block of `A`
under it. -/
def Trusted (A : List Block) (known : ExtTreeMap ℕ (Node H)) : Prop :=
  ∀ d o v, known[Flat.index d o]? = some v → v.index = Flat.index d o ∧
    ∀ b, o * 2 ^ d ≤ b → b < (o + 1) * 2 ^ d → b < A.length → Commits hs v d o b (A.getD b [])

variable {hs}

variable {A : List Block} {known : ExtTreeMap ℕ (Node H)} {v : Node H}

theorem Trusted.insert (h : Trusted hs A known) {d o : ℕ} (hidx : v.index = Flat.index d o)
    (hv : ∀ b, o * 2 ^ d ≤ b → b < (o + 1) * 2 ^ d → b < A.length → Commits hs v d o b (A.getD b [])) :
    Trusted hs A (known.insert (Flat.index d o) v) := by
  intro d' o' v' hget
  rw [Graph.getElem?_insert] at hget
  split_ifs at hget with heq
  · obtain ⟨rfl, rfl⟩ := Flat.index_inj.mp heq
    obtain rfl := Option.some.inj hget
    exact ⟨hidx, hv⟩
  · exact h d' o' v' hget

/-- The roots of `A` can be trusted. -/
theorem trusted_rootsOf (ideal : hs.Ideal) (A : List Block) :
    Trusted hs A (tableOf (rootsOf hs A)) := by
  intro d o v hget
  obtain ⟨hmem, hidx⟩ := of_getElem?_tableOf hget
  obtain ⟨rfl, -⟩ := mem_rootsOf hmem hidx
  exact ⟨hidx, fun b h1 h2 _ => commits_nodeAt ideal A d o b h1 h2⟩

/-- The supplied nodes lie above the old length, so they say nothing of `A`. -/
theorem Trusted.foldIn {newLen : ℕ} : ∀ {nodes : List (Node H)}
    {known known' : ExtTreeMap ℕ (Node H)}, Trusted hs A known →
    Merkle.foldIn A.length newLen nodes known = some known' → Trusted hs A known'
  | [], _, _, h, hf => Option.some.inj hf ▸ h
  | n :: nodes, known, known', h, hf => by
    rw [Merkle.foldIn] at hf
    split_ifs at hf with hrange hdup
    obtain ⟨d, o, hidx⟩ := Flat.exists_index n.index
    rw [hidx, Flat.blockRange_index] at hrange
    have hold : A.length ≤ o * 2 ^ d := Nat.not_lt.mp fun hc => hrange (Or.inl hc)
    rw [hidx] at hf
    apply Trusted.foldIn (h.insert hidx _) hf
    intro b hlo _ hb
    omega

variable {cn sn : Node H}

/-- Pairing keeps the table trusted: an old block under the parent is under one
of the two. -/
theorem Trusted.combine (ideal : hs.Ideal) {c : ℕ} (h : Trusted hs A known) (hcn : known[c]? = some cn)
    (hsn : known[Flat.sibling c]? = some sn) :
    Trusted hs A (known.insert (Flat.parent c) (pairUp hs c cn (Flat.sibling c) sn)) := by
  obtain ⟨d, o, rfl⟩ := Flat.exists_index c
  rw [Flat.parent_index]
  apply h.insert
  · rw [index_pairUp, Flat.parent_index]
  · intro b hlo hhi hb
    have hchild := Flat.covers_child hlo hhi
    obtain ⟨hc1, hc2⟩ | ⟨o', hsib, hhalf, hs1, hs2⟩ := hchild
    · exact ((h d o cn hcn).2 b hc1 hc2 hb).pairUp ideal
    · rw [hsib] at hsn
      rw [pairUp_comm, hsib, ← hhalf]
      have hback : Flat.index d o = Flat.sibling (Flat.index d o') := by
        rw [← hsib, Flat.sibling_sibling]
      rw [hback]
      exact ((h d o' sn hsn).2 b hs1 hs2 hb).pairUp ideal

omit hs in
/-- The shape check compares the old roots' indices with those of the length. -/
theorem shape_iff : ∀ (roots : List (Node H)) (expected : List ℕ),
    ¬ (roots.length ≠ expected.length ∨ (roots.zip expected).any (fun q => q.1.index ≠ q.2)) ↔
      roots.map (·.index) = expected
  | [], [] => by simp
  | [], _ :: _ => by simp
  | _ :: _, [] => by simp
  | r :: roots, i :: expected => by
    have ih := shape_iff roots expected
    simp only [List.length_cons, List.zip_cons_cons, List.any_cons, List.map_cons, List.cons.injEq,
      ← ih, Bool.or_eq_true, decide_eq_true_eq, ne_eq, Nat.add_right_cancel_iff]
    tauto

variable {p : UpgradeProof H}

theorem UpgradeProof.verify_iff [DecidableEq H] {oldRoots : List (Node H)} {newRootHash : H} :
    p.verify hs oldRoots newRootHash = true ↔
      p.oldLen ≠ 0 ∧ p.oldLen < p.newLen ∧ oldRoots.map (·.index) = Flat.fullRoots (p.oldLen * 2) ∧
      ∃ seeded, Merkle.foldIn p.oldLen p.newLen p.nodes (tableOf oldRoots) = some seeded ∧
      ∃ known, passLoop hs 4096 seeded = some known ∧
      ∃ newRoots, (Flat.fullRoots (p.newLen * 2)).mapM (known[·]?) = some newRoots ∧
        hs.treeHash newRoots = newRootHash := by
  rw [UpgradeProof.verify]
  by_cases hlen : p.oldLen = 0 ∨ p.oldLen ≥ p.newLen
  · rw [if_pos hlen]
    refine ⟨(nomatch ·), fun ⟨h1, h2, _⟩ => ?_⟩
    omega
  rw [if_neg hlen]
  by_cases hmap : oldRoots.map (·.index) = Flat.fullRoots (p.oldLen * 2)
  · rw [if_neg ((shape_iff _ _).mpr hmap)]
    cases hseed : Merkle.foldIn p.oldLen p.newLen p.nodes (tableOf oldRoots) with
    | none => simp
    | some seeded =>
      cases hloop : passLoop hs 4096 seeded with
      | none => simp [hloop]
      | some known =>
        cases hroots : (Flat.fullRoots (p.newLen * 2)).mapM (known[·]?) with
        | none => simp [hloop, hroots]
        | some newRoots =>
          have h1 : p.oldLen ≠ 0 := fun h => hlen (Or.inl h)
          have h2 : p.oldLen < p.newLen := Nat.not_le.mp fun h => hlen (Or.inr h)
          simp [hloop, hroots, hmap, h1, h2]
  · rw [if_pos (not_not.mp fun h => hmap ((shape_iff _ _).mp h))]
    exact ⟨(nomatch ·), fun ⟨_, _, h3, _⟩ => absurd h3 hmap⟩

/-- An accepted proof extends the trusted blocks. -/
theorem UpgradeProof.verify_sound [DecidableEq H] (ideal : hs.Ideal) {A B : List Block}
    (h : p.verify hs (rootsOf hs A) (hs.treeHash (rootsOf hs B)) = true) :
    p.oldLen = A.length ∧ p.newLen = B.length ∧ A <+: B ∧ A ≠ B := by
  obtain ⟨-, hlt, hshape, seeded, hseed, known, hloop, newRoots, hroots, hhash⟩ :=
    UpgradeProof.verify_iff.mp h
  have hold : p.oldLen = A.length := by
    apply Flat.fullRoots_inj
    rw [← hshape, map_index_rootsOf]
  rw [hold] at hseed
  have htrust : Trusted hs A known :=
    passLoop_induct (fun _ _ _ _ hk hcn hsn => Trusted.combine ideal hk hcn hsn)
      ((trusted_rootsOf ideal A).foldIn hseed) hloop
  obtain rfl := ideal.tree hhash
  -- every derived root is stored under its index, so the shapes agree
  have hnew : p.newLen = B.length := by
    apply Flat.fullRoots_inj
    rw [← map_index_rootsOf hs B]
    refine (map_of_mapM (fun i v hv => ?_) hroots).symm
    obtain ⟨d, o, rfl⟩ := Flat.exists_index i
    exact (htrust d o v hv).1
  have hblocks : ∀ b, b < A.length → B.getD b [] = A.getD b [] := by
    intro b hb
    obtain ⟨d, o, hroot, hlo, hhi⟩ := Flat.lt_iff_covered.mp (show b < B.length by omega)
    rw [← hnew] at hroot
    obtain ⟨v, hv, hget⟩ := exists_of_mapM hroots hroot
    have hidx := (htrust d o v hget).1
    obtain ⟨rfl, -⟩ := mem_rootsOf hv hidx
    exact (htrust d o _ hget).2 b hlo hhi hb B rfl
  refine ⟨hold, hnew, ?_, fun hAB => ?_⟩
  · rw [List.prefix_iff_eq_take]
    apply List.ext_getElem
    · rw [List.length_take]
      omega
    · intro b h1 h2
      have hb := hblocks b h1
      rw [List.getElem_take]
      rw [List.getD_eq_getElem _ _ h1, List.getD_eq_getElem _ _ (by omega)] at hb
      exact hb.symm
  · rw [hAB] at hold
    omega

/-! ### The proofs a tree makes -/

/-- The table holds nodes of the tree over `B`, of ranges within `n`. -/
def Honest (hs : Hasher H) (B : List Block) (n : ℕ) (known : ExtTreeMap ℕ (Node H)) : Prop :=
  ∀ i v, known[i]? = some v → v = nodeOf hs B i ∧ (Flat.blockRange i).2 ≤ n

variable {B : List Block}

theorem Honest.combine {n c : ℕ} (h : Honest hs B n known) (hcn : known[c]? = some cn)
    (hsn : known[Flat.sibling c]? = some sn) :
    Honest hs B n (known.insert (Flat.parent c) (pairUp hs c cn (Flat.sibling c) sn)) := by
  intro i v hget
  rw [Graph.getElem?_insert] at hget
  split_ifs at hget with hi
  · obtain rfl := Option.some.inj hget
    obtain ⟨rfl, hc⟩ := h c cn hcn
    obtain ⟨rfl, hsib⟩ := h _ sn hsn
    rw [hi, pairUp_nodeOf]
    exact ⟨rfl, Flat.blockRange_parent_le hc hsib⟩
  · exact h i v hget

theorem Honest.depth_le {n : ℕ} (h : Honest hs B n known) (hn : n < 2 ^ 64) {i : ℕ} (hi : i ∈ known) :
    Flat.depth i ≤ 63 := by
  obtain ⟨v, hv⟩ := Option.isSome_iff_exists.mp (ExtTreeMap.mem_iff_isSome_getElem?.mp hi)
  exact Nat.le_of_lt_succ (Flat.depth_lt_of_blockRange_le (h i v hv).2 hn)

/-- The nodes collected for an upgrade: honest, and all new. -/
def Fresh (hs : Hasher H) (B : List Block) (old new : ℕ) (out : ExtTreeMap ℕ (Node H)) : Prop :=
  ∀ i v, out[i]? = some v →
    v = nodeOf hs B i ∧ old ≤ (Flat.blockRange i).1 ∧ (Flat.blockRange i).2 ≤ new

/-- A set of indices that holds the old roots, holds `out` and is closed under
pairing. -/
structure Derives (old : ℕ) (out : ExtTreeMap ℕ (Node H)) (K : ℕ → Prop) : Prop where
  roots : ∀ i ∈ Flat.fullRoots (old * 2), K i
  nodes : ∀ i ∈ out, K i
  pairs : ∀ c, K c → K (Flat.sibling c) → K (Flat.parent c)

theorem Derives.mono {old : ℕ} {out out' : ExtTreeMap ℕ (Node H)} {K : ℕ → Prop}
    (h : Derives old out' K) (hsub : ∀ i ∈ out, i ∈ out') : Derives old out K :=
  ⟨h.roots, fun i hi => h.nodes i (hsub i hi), h.pairs⟩

variable {T : MerkleTree H} {out : ExtTreeMap ℕ (Node H)}

theorem Fresh.insert {old new d o : ℕ} (h : Fresh hs B old new out) (hT : Built hs B T)
    (hin : (o + 1) * 2 ^ d ≤ new) (hnew : new ≤ B.length) (hfirst : o * 2 ^ d ≥ old) :
    ∃ out', (match T.nodes[Flat.index d o]? with
        | none => none
        | some node => some (out.insert (Flat.index d o) node)) = some out' ∧
      Fresh hs B old new out' ∧ (∀ i ∈ out, i ∈ out') ∧
      ∀ K, Derives old out' K → K (Flat.index d o) := by
  rw [hT.nodes, if_pos (hin.trans hnew)]
  refine ⟨_, rfl, fun i v hget => ?_, fun i hi => Graph.mem_insert.mpr (Or.inr hi),
    fun K hK => hK.nodes _ (Graph.mem_insert.mpr (Or.inl rfl))⟩
  rw [Graph.getElem?_insert] at hget
  split_ifs at hget with hi
  · obtain rfl := Option.some.inj hget
    rw [hi, nodeOf_index, Flat.blockRange_index]
    exact ⟨rfl, hfirst, hin⟩
  · exact h i v hget

omit hs in
theorem collectUpgrade_root {old d o : ℕ} (out : ExtTreeMap ℕ (Node H))
    (hroot : Flat.index d o ∈ Flat.fullRoots (old * 2)) :
    T.collectUpgrade old (ExtTreeSet.ofList (Flat.fullRoots (old * 2))) (Flat.index d o) out =
      some out := by
  have hcontains : (ExtTreeSet.ofList (Flat.fullRoots (old * 2))).contains (Flat.index d o) = true :=
    Graph.mem_ofList.mpr hroot
  rw [MerkleTree.collectUpgrade, Flat.blockRange_index, if_pos (Flat.mem_fullRoots.mp hroot).1,
    if_pos hcontains]

variable {old new : ℕ}

/-- Collecting under a node within the new length, not strictly below an old
root, yields what it takes to derive that node. -/
theorem Built.collectUpgrade (hT : Built hs B T) (hnew : new ≤ B.length) :
    ∀ (d o : ℕ) {out : ExtTreeMap ℕ (Node H)},
    (o + 1) * 2 ^ d ≤ new → old < (o / 2 + 1) * 2 ^ (d + 1) → Fresh hs B old new out →
    ∃ out', T.collectUpgrade old (ExtTreeSet.ofList (Flat.fullRoots (old * 2))) (Flat.index d o) out =
        some out' ∧ Fresh hs B old new out' ∧ (∀ i ∈ out, i ∈ out') ∧
      ∀ K, Derives old out' K → K (Flat.index d o) := by
  intro d
  induction d with
  | zero =>
    intro o out hin habove hout
    by_cases hold : (o + 1) * 2 ^ 0 ≤ old
    · have hroot : Flat.index 0 o ∈ Flat.fullRoots (old * 2) := Flat.mem_fullRoots.mpr ⟨hold, habove⟩
      exact ⟨out, collectUpgrade_root out hroot, hout, fun _ h => h, fun K hK => hK.roots _ hroot⟩
    · rw [MerkleTree.collectUpgrade, Flat.blockRange_index, if_neg hold, if_pos (by omega)]
      exact hout.insert hT hin hnew (by omega)
  | succ d ih =>
    intro o out hin habove hout
    by_cases hold : (o + 1) * 2 ^ (d + 1) ≤ old
    · have hroot : Flat.index (d + 1) o ∈ Flat.fullRoots (old * 2) :=
        Flat.mem_fullRoots.mpr ⟨hold, habove⟩
      exact ⟨out, collectUpgrade_root out hroot, hout, fun _ h => h, fun K hK => hK.roots _ hroot⟩
    · rw [MerkleTree.collectUpgrade, Flat.blockRange_index, if_neg hold]
      by_cases hfirst : o * 2 ^ (d + 1) ≥ old
      · rw [if_pos hfirst]
        exact hout.insert hT hin hnew hfirst
      · -- it straddles the old length: both children are derived, then paired
        rw [if_neg hfirst]
        have hmid := (Flat.child_le (Nat.le_refl ((o + 1) * 2 ^ (d + 1)))).1
        have hend := (Flat.child_ends d o).2.2
        have hl : 2 * o / 2 = o := by omega
        have hr : (2 * o + 1) / 2 = o := by omega
        obtain ⟨out₁, h₁, hfresh₁, hsub₁, hder₁⟩ :=
          ih (2 * o) (by omega) (by rw [hl]; omega) hout
        obtain ⟨out₂, h₂, hfresh₂, hsub₂, hder₂⟩ :=
          ih (2 * o + 1) (by omega) (by rw [hr]; omega) hfresh₁
        refine ⟨out₂, ?_, hfresh₂, fun i hi => hsub₂ i (hsub₁ i hi), fun K hK => ?_⟩
        · split
          · rename_i hc
            rw [Flat.children_index] at hc
            cases hc
          · rename_i l r hc
            rw [Flat.children_index] at hc
            obtain ⟨rfl, rfl⟩ := Prod.mk.inj (Option.some.inj hc)
            rw [h₁]
            exact h₂
        · have hpair := hK.pairs _ (hder₁ K (hK.mono hsub₂))
            (by rw [Flat.sibling_left]; exact hder₂ K hK)
          rwa [Flat.parent_index, hl] at hpair

/-- The walk over the new roots derives each of them. -/
theorem Built.collectRoots (hT : Built hs B T) (hnew : new ≤ B.length) (hold : old < new) :
    ∀ {roots : List ℕ} {out : ExtTreeMap ℕ (Node H)},
    (∀ r ∈ roots, r ∈ Flat.fullRoots (new * 2)) → Fresh hs B old new out →
    ∃ out', T.collectRoots old (ExtTreeSet.ofList (Flat.fullRoots (old * 2))) roots out = some out' ∧
      Fresh hs B old new out' ∧ (∀ i ∈ out, i ∈ out') ∧
      ∀ K, Derives old out' K → ∀ r ∈ roots, K r
  | [], out, _, hout => ⟨out, rfl, hout, fun _ h => h, fun _ _ r hr => absurd hr List.not_mem_nil⟩
  | r :: roots, out, hroots, hout => by
    obtain ⟨d, o, rfl⟩ := Flat.exists_index r
    obtain ⟨hin, hmax⟩ := Flat.mem_fullRoots.mp (hroots (Flat.index d o) List.mem_cons_self)
    obtain ⟨out₁, h₁, hfresh₁, hsub₁, hder₁⟩ :=
      hT.collectUpgrade hnew d o hin (hold.trans hmax) hout
    obtain ⟨out₂, h₂, hfresh₂, hsub₂, hder₂⟩ :=
      Built.collectRoots hT hnew hold (fun r hr => hroots r (List.mem_cons_of_mem _ hr))
        hfresh₁
    refine ⟨out₂, ?_, hfresh₂, fun i hi => hsub₂ i (hsub₁ i hi), fun K hK r hr => ?_⟩
    · rw [MerkleTree.collectRoots, h₁]
      exact h₂
    · obtain rfl | hr := List.mem_cons.mp hr
      · exact hder₁ K (hK.mono hsub₂)
      · exact hder₂ K hK r hr

omit hs in
/-- Nodes that are new, in range and of different indices are all folded in. -/
theorem foldIn_eq_some {oldLen newLen : ℕ} : ∀ {nodes : List (Node H)} {known : ExtTreeMap ℕ (Node H)},
    (∀ n ∈ nodes, oldLen ≤ (Flat.blockRange n.index).1 ∧ (Flat.blockRange n.index).2 ≤ newLen) →
    (nodes.map (·.index)).Nodup → (∀ n ∈ nodes, n.index ∉ known) →
    foldIn oldLen newLen nodes known = some (nodes.foldl (fun table n => table.insert n.index n) known)
  | [], _, _, _, _ => rfl
  | n :: nodes, known, hrange, hnodup, hfresh => by
    obtain ⟨hlo, hhi⟩ := hrange n (by simp)
    rw [List.map_cons, List.nodup_cons] at hnodup
    have hn : ¬ known.contains n.index = true := hfresh n (by simp)
    rw [foldIn, if_neg (by omega), if_neg hn, List.foldl_cons]
    apply foldIn_eq_some (fun m hm => hrange m (by simp [hm])) hnodup.2
    intro m hm hmem
    obtain hidx | hmem := Graph.mem_insert.mp hmem
    · exact hnodup.1 (hidx ▸ List.mem_map.mpr ⟨m, hm, rfl⟩)
    · exact hfresh m (by simp [hm]) hmem

theorem Fresh.mem_values (h : Fresh hs B old new out) (hv : v ∈ out.toList.map (·.2)) :
    ∃ i, out[i]? = some v ∧ v.index = i := by
  obtain ⟨⟨i, w⟩, hmem, rfl⟩ := List.mem_map.mp hv
  have hget := ExtTreeMap.mem_toList_iff_getElem?_eq_some.mp hmem
  refine ⟨i, hget, ?_⟩
  rw [(h i w hget).1, index_nodeOf]

theorem Fresh.map_index (h : Fresh hs B old new out) : (out.toList.map (·.2)).map (·.index) = out.keys := by
  rw [← ExtTreeMap.map_fst_toList_eq_keys, List.map_map]
  apply List.map_congr_left
  intro p hp
  have hget := ExtTreeMap.mem_toList_iff_getElem?_eq_some.mp (show (p.1, p.2) ∈ out.toList from hp)
  show p.2.index = p.1
  rw [(h p.1 p.2 hget).1, index_nodeOf]

/-- The tree proves each of its extensions. -/
theorem Built.upgradeProof [DecidableEq H] (hT : Built hs B T) (hlen : B.length < 2 ^ 64) (hold : 1 ≤ old)
    (hlt : old < new) (hnew : new ≤ B.length) : ∃ p, T.upgradeProof old new = some p ∧
      p.verify hs (rootsOf hs (B.take old)) (hs.treeHash (rootsOf hs (B.take new))) = true := by
  have hempty : Fresh hs B old new ∅ := by
    intro i v h
    simp at h
  obtain ⟨out, hout, hfresh, -, hder⟩ := hT.collectRoots hnew hlt (fun r hr => hr) hempty
  have hoff : ¬ (old = 0 ∨ old ≥ new ∨ new > T.length) := by
    rw [hT.length_eq]
    omega
  refine ⟨⟨old, new, out.toList.map (·.2)⟩, by
    rw [MerkleTree.upgradeProof, if_neg hoff, hout, Option.map_some], ?_⟩
  have hlenOld : (B.take old).length = old := List.length_take_of_le (by omega)
  have hlenNew : (B.take new).length = new := List.length_take_of_le hnew
  have hshape : (rootsOf hs (B.take old)).map (·.index) = Flat.fullRoots (old * 2) := by
    rw [map_index_rootsOf, hlenOld]
  -- the supplied nodes are new, so they fold in beside the old roots
  have hfold : foldIn old new (out.toList.map (·.2)) (tableOf (rootsOf hs (B.take old))) = some _ :=
    foldIn_eq_some
    (fun n hn => by
      obtain ⟨i, hget, rfl⟩ := hfresh.mem_values hn
      exact (hfresh _ n hget).2)
    (by
      rw [hfresh.map_index, List.Nodup]
      exact ExtTreeMap.distinct_keys.imp fun {a b} hab => by simpa using hab)
    (fun n hn hmem => by
      obtain ⟨i, hget, rfl⟩ := hfresh.mem_values hn
      rw [mem_tableOf, hshape] at hmem
      have hfirst := (hfresh _ n hget).2.1
      obtain ⟨d, o, hidx⟩ := Flat.exists_index n.index
      rw [hidx] at hmem hfirst
      have hroot := (Flat.mem_fullRoots.mp hmem).1
      rw [Flat.blockRange_index] at hfirst
      have hpos : 0 < 2 ^ d := by positivity
      have hsucc : (o + 1) * 2 ^ d = o * 2 ^ d + 2 ^ d := by ring
      omega)
  set seeded := (out.toList.map (·.2)).foldl (fun table n => table.insert n.index n)
    (tableOf (rootsOf hs (B.take old))) with hseeded
  have hhonest : Honest hs B new seeded := by
    intro i v hget
    obtain hget | ⟨hmem, rfl⟩ := of_foldl_insert hget
    · obtain ⟨hmem, rfl⟩ := of_getElem?_tableOf hget
      obtain ⟨d, o, hidx⟩ := Flat.exists_index v.index
      obtain ⟨hv, hin⟩ := mem_rootsOf hmem hidx
      rw [hlenOld] at hin
      rw [hidx, nodeOf_index, Flat.blockRange_index, hv, nodeAt_take hs hin]
      exact ⟨rfl, hin.trans hlt.le⟩
    · obtain ⟨i, hget, rfl⟩ := hfresh.mem_values hmem
      exact ⟨(hfresh _ v hget).1, (hfresh _ v hget).2.2⟩
  obtain ⟨known, hloop, hgrow, hclosed⟩ := passLoop_closes (P := Honest hs B new) (D := 63)
    (k := 0) (fun _ _ _ _ hk hcn hsn => hk.combine hcn hsn)
    (fun _ hk i hi => hk.depth_le (by omega) hi) hhonest (fun _ hk => absurd hk (Nat.not_lt_zero _))
    (show 63 + 2 ≤ 4096 + 0 by omega) (show 0 < 4096 by omega)
  have hknown : Honest hs B new known :=
    passLoop_induct (fun _ _ _ _ hk hcn hsn => hk.combine hcn hsn) hhonest hloop
  have hderives : Derives old out (· ∈ known) := by
    refine ⟨fun i hi => hgrow i (mem_foldl_insert.mpr (Or.inl ?_)),
      fun i hi => hgrow i (mem_foldl_insert.mpr (Or.inr ?_)), hclosed⟩
    · rw [mem_tableOf, hshape]
      exact hi
    · rw [hfresh.map_index]
      exact Graph.mem_keys.mpr hi
  have hroots : (Flat.fullRoots (new * 2)).mapM (known[·]?) = some (rootsOf hs (B.take new)) := by
    rw [rootsOf, hlenNew]
    apply mapM_eq_some
    intro i hi
    obtain ⟨v, hv⟩ := Option.isSome_iff_exists.mp
      (ExtTreeMap.mem_iff_isSome_getElem?.mp (hder _ hderives i hi))
    obtain ⟨rfl, -⟩ := hknown i v hv
    obtain ⟨d, o, rfl⟩ := Flat.exists_index i
    rw [hv, nodeOf_index, nodeOf_index, nodeAt_take hs (Flat.mem_fullRoots.mp hi).1]
  exact UpgradeProof.verify_iff.mpr
    ⟨show old ≠ 0 by omega, hlt, hshape, seeded, hfold, known, hloop, _, hroots, rfl⟩

/-- **Upgrade proofs are complete and sound.** A tree (its length is a 64-bit
field) proves each of its extensions, and whatever verifies from the roots of
`A` to the root hash of `B` shows that `B` properly extends `A`. -/
theorem upgrade_complete_sound [DecidableEq H] (ideal : hs.Ideal) :
    (∀ (B : List Block) (old new : ℕ), B.length < 2 ^ 64 → 1 ≤ old → old < new → new ≤ B.length →
      ∃ p oldRoots newRootHash, (MerkleTree.ofBlocks hs B).upgradeProof old new = some p ∧
        (MerkleTree.ofBlocks hs B).prefixRoots old = some oldRoots ∧
        (MerkleTree.ofBlocks hs B).prefixRootHash hs new = some newRootHash ∧
        p.verify hs oldRoots newRootHash = true) ∧
    ∀ (A B : List Block) (p : UpgradeProof H) (oldRoots : List (Node H)) (newRootHash : H),
      (MerkleTree.ofBlocks hs A).roots = some oldRoots →
      (MerkleTree.ofBlocks hs B).rootHash hs = some newRootHash →
      p.verify hs oldRoots newRootHash = true →
      p.oldLen = A.length ∧ p.newLen = B.length ∧ A <+: B ∧ A ≠ B := by
  refine ⟨fun B old new hlen hold hlt hnew => ?_, fun A B p oldRoots newRootHash hA hB h => ?_⟩
  · have hbuilt := built_ofBlocks hs B
    obtain ⟨p, hp, hv⟩ := hbuilt.upgradeProof hlen hold hlt hnew
    exact ⟨p, _, _, hp, hbuilt.prefixRoots (by omega), hbuilt.prefixRootHash hnew, hv⟩
  · rw [(built_ofBlocks hs A).roots] at hA
    rw [(built_ofBlocks hs B).rootHash] at hB
    obtain rfl := Option.some.inj hA
    obtain rfl := Option.some.inj hB
    exact UpgradeProof.verify_sound ideal h

/-- From three blocks to five. -/
theorem upgrade_complete_sound_five :
    ∃ p oldRoots newRootHash,
      (MerkleTree.ofBlocks Hasher.numbering [[1], [2], [3], [4], [5]]).upgradeProof 3 5 = some p ∧
      (MerkleTree.ofBlocks Hasher.numbering [[1], [2], [3], [4], [5]]).prefixRoots 3 = some oldRoots ∧
      (MerkleTree.ofBlocks Hasher.numbering [[1], [2], [3], [4], [5]]).prefixRootHash
        Hasher.numbering 5 = some newRootHash ∧
      p.verify Hasher.numbering oldRoots newRootHash = true :=
  (upgrade_complete_sound Hasher.numbering_ideal).1 _ 3 5 (by decide) (by decide) (by decide)
    (by decide)

end Merkle
end HypercoreRs
