/-
# The tree and the head of a log

What the commands of a writer's log do to its tree and its head, on any store: a write leaves
both alone, an append that comes as far as its signature extends the tree by one leaf and signs
it, and a recovered suffix replaces both by those of a feed that verifies. Over a lawful store a
command that fails also leaves the blocks of the log as they were (`Rewrites`).
-/
import HypercoreRs.Command.Ends
import HypercoreRs.Hypercore.Core

namespace HypercoreRs

open Std Merkle Command

namespace Hypercore

variable {K H Sig SK S E T : Type} (c : Crypto K H Sig SK) {b : Backend S E H Sig}
variable {core core' : Hypercore H Sig SK S}

/-- The tree and the head are the same, and so is whose they are. -/
structure SameTree (core core' : Hypercore H Sig SK S) : Prop where
  tree : core'.tree = core.tree
  head : core'.head = core.head
  author : core'.author = core.author
  fork : core'.fork = core.fork

/-- `core'` has one leaf more than `core`, and the head of its tree is signed. -/
structure Signed (core : Hypercore H Sig SK S) (data : Block) (core' : Hypercore H Sig SK S) : Prop where
  tree : core'.tree = (core.tree.append c.hasher data).1
  head : ∃ head, core'.head = some head ∧ head.length = core.len + 1 ∧
    core'.tree.rootHash c.hasher = some head.root
  author : core'.author = core.author
  fork : core'.fork = core.fork

theorem SameTree.refl (core : Hypercore H Sig SK S) : SameTree core core := ⟨rfl, rfl, rfl, rfl⟩

theorem SameTree.trans {core'' : Hypercore H Sig SK S} (h : SameTree core core')
    (h' : SameTree core' core'') : SameTree core core'' :=
  ⟨h'.tree.trans h.tree, h'.head.trans h.head, h'.author.trans h.author, h'.fork.trans h.fork⟩

theorem SameTree.len (h : SameTree core core') : core'.len = core.len := congrArg MerkleTree.length h.tree

theorem Signed.len {data : Block} (h : Signed c core data core') : core'.len = core.len + 1 :=
  (congrArg MerkleTree.length h.tree).trans rfl

variable {l : List (Σ k : StoreKey, k.Value H Sig)}

/-- Writing touches the store only. -/
theorem tree_write :
    Ends (write b l) core (fun _ core' => SameTree core core') fun _ core' => SameTree core core' :=
  Ends.zoom (Ends.any _ _) (fun _ _ _ => ⟨rfl, rfl, rfl, rfl⟩) fun _ _ _ => ⟨rfl, rfl, rfl, rfl⟩

theorem tree_append {codec : Codec T} (value : T) :
    Ends (append c b codec value) core (fun _ core' => Signed c core (codec.encode value) core')
      fun _ core' => SameTree core core' := by
  unfold append
  apply Ends.get
  refine Ends.bind tree_write fun _ core₁ h₁ => ?_
  apply Ends.get
  split
  · rename_i signed hsign
    obtain ⟨root, hroot, rfl⟩ := Option.map_eq_some_iff.mp hsign
    have htree : (core₁.tree.append c.hasher (codec.encode value)).1 =
        (core.tree.append c.hasher (codec.encode value)).1 := by rw [h₁.tree]
    refine Ends.assign (Ends.pure ⟨htree, ⟨_, rfl, ?_, hroot⟩, h₁.author, h₁.fork⟩)
    show ((core₁.tree.append c.hasher (codec.encode value)).1).length = core.tree.length + 1
    rw [htree]
    rfl
  · exact Ends.throw h₁

theorem tree_persist :
    Ends (persist b) core (fun _ core' => SameTree core core') fun _ core' => SameTree core core' := by
  unfold persist
  apply Ends.get
  exact tree_write

variable [DecidableEq H]

/-- The log is now the feed `blocks`, which verifies under the head `head`. -/
structure Recovered (core : Hypercore H Sig SK S) (head : SignedHead H Sig) (core' : Hypercore H Sig SK S) :
    Prop where
  feed : ∃ blocks, verifyArchivedFeed c (core.publicKey c) head blocks = true ∧
    core.len ≤ blocks.length ∧ core'.tree = MerkleTree.ofBlocks c.hasher blocks
  author : core'.author = core.author
  fork : core'.fork = core.fork

variable {head : SignedHead H Sig}

theorem Recovered.len_le (h : Recovered c core head core') : core.len ≤ core'.len := by
  obtain ⟨blocks, -, hlen, htree⟩ := h.feed
  rw [len, len, htree, (built_ofBlocks c.hasher blocks).length_eq]
  exact hlen

theorem tree_recoverSignedSuffix (head : SignedHead H Sig) (suffix : List Block) :
    Ends (recoverSignedSuffix c b head suffix) core (fun _ core' => Recovered c core head core')
      fun _ core' => SameTree core core' := by
  unfold recoverSignedSuffix
  apply Ends.get
  dsimp only
  split_ifs
  · exact Ends.throw (.refl core)
  · refine Ends.bind (Ends.reads (Q := fun stored core' => core' = core ∧ stored.length = core.len)
      (fun stored hread => ⟨rfl, ?_⟩) fun _ _ => .refl core) fun stored core' h => ?_
    · rw [(mapM_ok hread).1, List.length_range]
    · obtain ⟨rfl, hlen⟩ := h
      split_ifs with hfeed
      · exact Ends.throw (.refl core')
      · rw [Bool.not_eq_true', Bool.not_eq_false] at hfeed
        refine Ends.bind tree_write fun _ core₁ h₁ => Ends.modify ?_
        refine ⟨⟨_, hfeed, ?_, rfl⟩, h₁.author, h₁.fork⟩
        rw [List.length_append, hlen]
        omega

/-! ### Over a lawful store -/

/-- `core'` is `core` over another store, in which its blocks read the same. -/
def Rewrites (b : Backend S E H Sig) (core core' : Hypercore H Sig SK S) : Prop :=
  ∃ s, core' = { core with store := s } ∧ b.Keeps core.len core.store s

omit [DecidableEq H] in
/-- Writes under other keys than those of the log's blocks. -/
theorem ends_write_keeps (hb : b.Lawful) (hl : ∀ p ∈ l, ∀ i < core.len, p.1 ≠ .block i) :
    Ends (write b l) core
      (fun _ core' => ∃ s, core' = { core with store := s } ∧ b.Keeps core.len core.store s ∧
        ((l.map (·.1)).Nodup → ∀ p ∈ l, b.get s p.1 = .ok (some p.2)))
      fun _ core' => Rewrites b core core' := by
  refine Ends.zoom (within_iff.mp (hb.putAll l core.store)) (fun _ s hs => ?_) fun _ s hs => ?_
  · exact ⟨s, rfl, fun i hi => hs.1 _ fun p hp => hl p hp i hi, hs.2⟩
  · exact ⟨s, rfl, fun i hi => hs _ fun p hp => hl p hp i hi⟩

/-- A suffix is adopted, or the log reads as before. -/
theorem ends_recoverSignedSuffix (hb : b.Lawful) (head : SignedHead H Sig) (suffix : List Block) :
    Ends (recoverSignedSuffix c b head suffix) core
      (fun _ core' => head.fork = core.fork ∧ Adopts c b core head suffix core')
      fun _ core' => Rewrites b core core' := by
  have hrefl : Rewrites b core core := ⟨core.store, rfl, Backend.Keeps.refl _ _⟩
  unfold recoverSignedSuffix
  apply Ends.get
  dsimp only
  split_ifs with hhead
  · exact Ends.throw hrefl
  · push Not at hhead
    refine Ends.bind (Q := fun stored core' => core' = core ∧
        (List.range core.len).mapM (core.blockOrCorrupt b) = .ok stored)
      (Ends.reads (fun stored hread => ⟨rfl, hread⟩) fun _ _ => hrefl) fun stored core₁ h₁ => ?_
    obtain ⟨rfl, hread⟩ := h₁
    split_ifs with hfeed
    · exact Ends.throw hrefl
    · rw [Bool.not_eq_true', Bool.not_eq_false] at hfeed
      refine Ends.bind (ends_write_keeps hb ?_) fun _ core₂ h₂ => ?_
      · intro p hp i hi
        rw [List.mem_append, mem_suffixWrites] at hp
        obtain ⟨j, data, -, rfl⟩ | hp := hp
        · exact fun h => absurd (StoreKey.block.inj h) (by omega)
        · obtain rfl | rfl | rfl : _ ∨ _ ∨ _ := by simpa using hp
          all_goals
            intro h
            cases h
      · obtain ⟨s, rfl, hkeeps, hget⟩ := h₂
        have hget := hget (nodup_recoverWrites suffix core₁.len _ _ _)
        refine Ends.modify ⟨hhead.1, s, stored, hread, hfeed, hkeeps, fun j data hj => ?_, rfl⟩
        exact hget _ (List.mem_append_left _ (mem_suffixWrites.mpr ⟨j, data, hj, rfl⟩))

/-- The head of an adopted suffix verifies. -/
theorem Adopts.verifyHead {suffix : List Block} (hfork : head.fork = core.fork)
    (h : Adopts c b core head suffix core') : core'.verifyHead c = true := by
  obtain ⟨s, stored, -, hfeed, -, -, rfl⟩ := h
  obtain ⟨hlength, hroot, hsig⟩ := verifyArchivedFeed_iff.mp hfeed
  have hbuilt := built_ofBlocks c.hasher (stored ++ suffix)
  simp only [Hypercore.verifyHead, Bool.and_eq_true, beq_iff_eq, len]
  exact ⟨⟨⟨hfork, hlength.trans hbuilt.length_eq.symm⟩, by rw [hbuilt.rootHash, hroot]⟩, hsig⟩

end Hypercore
end HypercoreRs
