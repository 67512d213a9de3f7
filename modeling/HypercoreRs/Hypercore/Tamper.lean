/-
# Opening whatever bytes

What `open` makes of bytes that no log wrote. The signed head speaks of the roots only.
A tree is `Vouched` if it holds the nodes of its length and no other, and each interior
node is made of its children: then the roots determine all of it (`Vouched.unique`),
and so are the trees that logs build (`Built.vouched`).

`open` looks up the roots without asking whether they are there, and looks at no other
node. Where the stored tree is one that appends built, it neither panics nor yields a tree
that is not vouched for, whatever the other bytes are. This is close to necessary: an author
may have signed any root, so a tree that always opens so is vouched for (`openFrom_vouched`).

A replica is opened at its verified head, or, where it has none, with all the blocks that
were persisted: those of a transfer that has not come to the end of any head are then held
with nothing that vouches for them (`Replica.open_vouchedFor_iff`).
-/
import HypercoreRs.Hypercore.Reopen

namespace HypercoreRs

open Std Merkle Command Storage

namespace Merkle

variable {H : Type} {hs : Hasher H} {T T' : MerkleTree H}

variable (hs) in
/-- The roots of the tree vouch for every node it holds. -/
structure Vouched (T : MerkleTree H) : Prop where
  /-- Every node that the length implies is there. -/
  complete : ∀ i, (Flat.blockRange i).2 ≤ T.length → ∃ n, T.nodes[i]? = some n
  /-- No other node is there, and each under its own index. -/
  within : ∀ i n, T.nodes[i]? = some n → n.index = i ∧ (Flat.blockRange i).2 ≤ T.length
  /-- An interior node carries the hash and the size of its two children. -/
  combined : ∀ d o n, T.nodes[Flat.index (d + 1) o]? = some n →
    ∃ l r, T.nodes[Flat.index d (2 * o)]? = some l ∧ T.nodes[Flat.index d (2 * o + 1)]? = some r ∧
      n = parentNode hs (Flat.index (d + 1) o) l r

/-- The trees that appending builds. -/
theorem Built.vouched {B : List Block} (h : Built hs B T) : Vouched hs T where
  complete i hi := by
    obtain ⟨d, o, rfl⟩ := Flat.exists_index i
    rw [Flat.blockRange_index, h.length_eq] at hi
    exact ⟨_, by rw [h.nodes, if_pos hi]⟩
  within i n hn := by
    obtain ⟨d, o, rfl⟩ := Flat.exists_index i
    rw [h.nodes] at hn
    split_ifs at hn with hi
    rw [← Option.some.inj hn, index_nodeAt, Flat.blockRange_index, h.length_eq]
    exact ⟨rfl, hi⟩
  combined d o n hn := by
    rw [h.nodes] at hn
    split_ifs at hn with hi
    obtain ⟨hleft, hright⟩ := Flat.child_le hi
    refine ⟨_, _, by rw [h.nodes, if_pos hleft], by rw [h.nodes, if_pos hright], ?_⟩
    exact (Option.some.inj hn).symm

/-- A node is below the end of the root above it. -/
theorem within_of_root {n d o k : ℕ} (h : Flat.index (d + k) (o / 2 ^ k) ∈ Flat.fullRoots (n * 2)) :
    (o + 1) * 2 ^ d ≤ n := by
  have hlt : o < (o / 2 ^ k + 1) * 2 ^ k := Nat.lt_mul_of_div_lt (Nat.lt_succ_self _) (by positivity)
  calc (o + 1) * 2 ^ d ≤ (o / 2 ^ k + 1) * 2 ^ k * 2 ^ d := Nat.mul_le_mul_right _ hlt
    _ = (o / 2 ^ k + 1) * 2 ^ (d + k) := by ring
    _ ≤ n := (Flat.mem_fullRoots.mp h).1

theorem mapM_some_inj {α β : Type} {f g : α → Option β} : ∀ {l : List α} {l' : List β},
    l.mapM f = some l' → l.mapM g = some l' → ∀ a ∈ l, f a = g a
  | a :: l, l', hf, hg, b, hb => by
    obtain ⟨x, xs, hx, hxs, rfl⟩ := mapM_cons_eq_some hf
    obtain ⟨y, ys, hy, hys, hcons⟩ := mapM_cons_eq_some hg
    obtain ⟨rfl, rfl⟩ := List.cons.inj hcons
    rcases List.mem_cons.mp hb with rfl | hb
    · rw [hx, hy]
    · exact mapM_some_inj hxs hys b hb

/-- Below equal roots all nodes are equal: by induction on the way down from the root. -/
theorem Vouched.node_eq (ideal : hs.Ideal) (h : Vouched hs T) (h' : Vouched hs T')
    (hlen : T'.length = T.length)
    (hroots : ∀ i ∈ Flat.fullRoots (T.length * 2), T.nodes[i]? = T'.nodes[i]?) :
    ∀ (k d o : ℕ), Flat.index (d + k) (o / 2 ^ k) ∈ Flat.fullRoots (T.length * 2) →
      T.nodes[Flat.index d o]? = T'.nodes[Flat.index d o]?
  | 0, d, o, hk => by
    rw [pow_zero, Nat.div_one] at hk
    exact hroots _ hk
  | k + 1, d, o, hk => by
    rw [pow_succ', ← Nat.div_div_eq_div_mul, show d + (k + 1) = d + 1 + k by omega] at hk
    have hup := Vouched.node_eq ideal h h' hlen hroots k (d + 1) (o / 2) hk
    obtain ⟨n, hn⟩ := h.complete (Flat.index (d + 1) (o / 2))
      (by rw [Flat.blockRange_index]; exact within_of_root hk)
    obtain ⟨l, r, hl, hr, hnode⟩ := h.combined d (o / 2) n hn
    obtain ⟨l', r', hl', hr', hnode'⟩ := h'.combined d (o / 2) n (hup ▸ hn)
    obtain ⟨hlh, hls, hrh, hrs⟩ := ideal.parent (congrArg Node.hash (hnode.symm.trans hnode'))
    -- the same hash, size and index
    have hsame : ∀ {i : ℕ} {x y : Node H}, T.nodes[i]? = some x → T'.nodes[i]? = some y →
        x.hash = y.hash → x.size = y.size → T.nodes[i]? = T'.nodes[i]? := by
      rintro i ⟨_, _, _⟩ ⟨_, _, _⟩ hx hy rfl rfl
      obtain rfl := (h.within i _ hx).1.trans (h'.within i _ hy).1.symm
      rw [hx, hy]
    rcases Nat.even_or_odd' o with ⟨m, rfl | rfl⟩
    · rw [Nat.mul_div_cancel_left m two_pos] at hl hl'
      exact hsame hl hl' hlh hls
    · rw [show (2 * m + 1) / 2 = m by omega] at hr hr'
      exact hsame hr hr' hrh hrs

/-- The root hash of a vouched tree determines it. -/
theorem Vouched.unique (ideal : hs.Ideal) (h : Vouched hs T) (h' : Vouched hs T')
    (hlen : T'.length = T.length) {root : H} (hroot : T.rootHash hs = some root)
    (hroot' : T'.rootHash hs = some root) : T = T' := by
  have hroots : ∀ i ∈ Flat.fullRoots (T.length * 2), T.nodes[i]? = T'.nodes[i]? := by
    obtain ⟨l, hl, rfl⟩ := Option.map_eq_some_iff.mp hroot
    obtain ⟨l', hl', htree⟩ := Option.map_eq_some_iff.mp hroot'
    obtain rfl := ideal.tree htree
    intro i hi
    have hpos : T.length ≠ 0 := by
      intro hzero
      rw [hzero, Flat.fullRoots_zero] at hi
      cases hi
    rw [MerkleTree.roots, if_neg hpos] at hl
    rw [MerkleTree.roots, hlen, if_neg hpos] at hl'
    exact mapM_some_inj hl hl' i hi
  have hnodes : T.nodes = T'.nodes := by
    apply ExtTreeMap.ext_getElem?
    intro i
    by_cases hin : (Flat.blockRange i).2 ≤ T.length
    · obtain ⟨d, o, rfl⟩ := Flat.exists_index i
      rw [Flat.blockRange_index] at hin
      obtain ⟨k, hk⟩ := Flat.exists_root T.length d o hin
      exact h.node_eq ideal h' hlen hroots k d o hk
    · -- neither tree holds it
      rw [Option.eq_none_iff_forall_ne_some.mpr fun n hn => hin (h.within i n hn).2,
        Option.eq_none_iff_forall_ne_some.mpr fun n hn => hin (hlen ▸ (h'.within i n hn).2)]
  cases T
  cases T'
  simp_all

end Merkle

namespace Hypercore

variable {K H Sig SK S E : Type} [DecidableEq H]
variable (w : Wire H Sig) (c : Crypto K H Sig SK) (st : Store S E)

variable {w c st} {core : Hypercore H Sig SK S} {T : MerkleTree H}

/-- The head an author with sums for hashes signs over `B`. -/
def sumsHead (B : List Block) : SignedHead (BitVec 256) (BitVec 512) :=
  let root := Crypto.sums.hasher.treeHash (rootsOf Crypto.sums.hasher B)
  ⟨0, B.length, root, Crypto.sums.sign () ⟨0, B.length, root⟩⟩

end Hypercore

namespace Replica

variable {K H Sig SK S E : Type} [DecidableEq H]
variable {w : Wire H Sig} {c : Crypto K H Sig SK} {st : Store S E}

variable (c) in
/-- The replica is empty, or all it holds is under a head that its writer signed. -/
def VouchedFor (r : Replica K H Sig S) : Prop :=
  r.len = 0 ∨ ∃ head, r.head = some head ∧ verifySignedHead c r.publicKey head = true ∧
    head.length = r.len ∧ r.tree.rootHash c.hasher = some head.root

/-- A replica that opens is vouched for if a head was stored, or an empty tree. -/
theorem openFrom_vouchedFor {publicKey : K} {store : S} {r : Replica K H Sig S}
    (h : openFrom w c st publicKey store = .ok r) :
    ∃ tree head, (backend w st).get store .tree = .ok (some tree) ∧
      (backend w st).get store .metadata = .ok (some (.replica head)) ∧
      (r.VouchedFor c ↔ head.isSome ∨ tree.length = 0) := by
  obtain ⟨tree, head, htree, hmeta, rfl, hcheck⟩ := openFrom_ok h
  refine ⟨tree, head, htree, hmeta, ?_⟩
  cases head with
  | none =>
    constructor
    · rintro (hempty | ⟨head, hhead, -⟩)
      · exact Or.inr hempty
      · cases hhead
    · rintro (hsome | hempty)
      · cases hsome
      · exact Or.inl hempty
  | some head =>
    have hverified := (checkHead_iff.mp hcheck).1
    simp only [verifyHead, Bool.and_eq_true, beq_iff_eq] at hverified
    obtain ⟨⟨hsig, hlen⟩, hroot⟩ := hverified
    exact iff_of_true (Or.inr ⟨head, rfl, hsig, hlen.symm, hroot⟩) (Or.inl rfl)

/-- Whatever is stored, a replica that opens is vouched for if and only if a head was stored, or
an empty tree. So is one that was persisted in the middle of a transfer, if and only if it had
come to the end of some head, or had nothing. -/
theorem open_vouchedFor_iff (hst : st.Lawful) (publicKey : K) :
    (∀ (store : S) (r : Replica K H Sig S), openFrom w c st publicKey store = .ok r →
      ∃ tree head, (backend w st).get store .tree = .ok (some tree) ∧
        (backend w st).get store .metadata = .ok (some (.replica head)) ∧
        (r.VouchedFor c ↔ head.isSome ∨ tree.length = 0)) ∧
    ∀ r₀ r₁ r : Replica K H Sig S, persist (backend w st) r₀ = .ok () r₁ →
      openFrom w c st publicKey r₁.store = .ok r → (r.VouchedFor c ↔ r₀.head.isSome ∨ r₀.len = 0) := by
  refine ⟨fun store r h => openFrom_vouchedFor h, fun r₀ r₁ r hpersist hopen => ?_⟩
  obtain ⟨tree, head, htree, hmeta, hiff⟩ := openFrom_vouchedFor hopen
  have hlawful : (backend w st : Backend S (LayoutError E) H Sig).Lawful := Backend.ofStore_lawful hst
  have hwritten : write (backend w st) [⟨.tree, r₀.tree⟩, ⟨.metadata, .replica r₀.head⟩] r₀ = .ok () r₁ :=
    hpersist
  obtain ⟨s, hput, rfl⟩ := zoom_eq_ok.mp hwritten
  obtain ⟨-, hget⟩ := (hlawful.putAll _ r₀.store).ok hput
  have hget := hget (by simp)
  -- the store holds what was persisted
  rw [hget ⟨.tree, r₀.tree⟩ (by simp)] at htree
  rw [hget ⟨.metadata, .replica r₀.head⟩ (by simp)] at hmeta
  obtain rfl := Option.some.inj (Except.ok.inj htree)
  obtain rfl := Metadata.replica.inj (Option.some.inj (Except.ok.inj hmeta))
  exact hiff

/-- A replica in memory that was fed the first of two blocks. -/
def fedFirst (proof : Merkle.Proof (BitVec 256)) :
    Replica Unit (BitVec 256) (BitVec 512) (ExtTreeMap ℕ (List UInt8)) :=
  after (addBlock Crypto.sums (backend Wire.bits Store.memory) (Hypercore.sumsHead [[1], [2]]) 0 [1] proof)
    (new () ∅)

/-- It is persisted and opened again with its block, and with no head. -/
theorem opened_without_head : ∃ proof r₁ r,
    (MerkleTree.ofBlocks Crypto.sums.hasher [[1], [2]]).proof 0 = some proof ∧
    persist (backend Wire.bits Store.memory) (fedFirst proof) = .ok () r₁ ∧
    openFrom Wire.bits Crypto.sums Store.memory () r₁.store = .ok r ∧ r.len = 1 ∧ r.head = none := by
  have hfed : ((MerkleTree.ofBlocks Crypto.sums.hasher [[1], [2]]).proof 0).map (fun proof =>
      returned (persist (backend Wire.bits Store.memory) (fedFirst proof)) &&
      ((fedFirst proof).len == 1 && (fedFirst proof).head.isNone)) = some true := by decide +kernel
  obtain ⟨proof, hproof, hpersist⟩ := Option.map_eq_some_iff.mp hfed
  obtain ⟨hreturned, hstate⟩ := Bool.and_eq_true_iff.mp hpersist
  obtain ⟨hlen, hhead⟩ := Bool.and_eq_true_iff.mp hstate
  rw [Option.isNone_iff_eq_none] at hhead
  obtain ⟨_, r₁, hpersist⟩ := exists_of_returned hreturned
  have hreached : Reached Crypto.sums (backend Wire.bits Store.memory) () (fedFirst proof) :=
    .addBlock _ _ _ _ (.new _)
  obtain ⟨⟨A, hA⟩, -⟩ := hreached.intact (Backend.ofStore_lawful Store.memory_lawful)
  obtain ⟨hopen, s, rfl, -⟩ := hA.openFrom Store.memory_lawful hpersist fun head hsome => by
    rw [hhead] at hsome
    cases hsome
  exact ⟨proof, _, _, hproof, hpersist, hopen, beq_iff_eq.mp hlen, hhead⟩

/-- A replica that has all of a log of one block. -/
theorem open_vouchedFor_iff_fed : ∃ proof r₁ r,
    persist (backend Wire.bits Store.memory) (fedOne proof) = .ok () r₁ ∧
    openFrom Wire.bits Crypto.sums Store.memory () r₁.store = .ok r ∧ r.VouchedFor Crypto.sums := by
  have hfed : ((MerkleTree.ofBlocks Crypto.sums.hasher [[1]]).proof 0).map (fun proof =>
      returned (persist (backend Wire.bits Store.memory) (fedOne proof)) &&
      ((fedOne proof).head.isSome && (fedOne proof).head.all ((fedOne proof).len ≤ ·.length))) =
        some true := by decide +kernel
  obtain ⟨proof, -, hpersist⟩ := Option.map_eq_some_iff.mp hfed
  obtain ⟨hreturned, hstate⟩ := Bool.and_eq_true_iff.mp hpersist
  obtain ⟨hsome, hahead⟩ := Bool.and_eq_true_iff.mp hstate
  obtain ⟨_, r₁, hpersist⟩ := exists_of_returned hreturned
  have hreached : Reached Crypto.sums (backend Wire.bits Store.memory) () (fedOne proof) :=
    .addBlock _ _ _ _ (.new _)
  obtain ⟨⟨A, hA⟩, -⟩ := hreached.intact (Backend.ofStore_lawful Store.memory_lawful)
  have hopen := (hA.openFrom Store.memory_lawful hpersist fun head hhead =>
    of_decide_eq_true ((Option.all_eq_true _ _).mp hahead head hhead)).1
  exact ⟨proof, r₁, r₁, hpersist, hopen,
    ((open_vouchedFor_iff Store.memory_lawful ()).2 _ r₁ r₁ hpersist hopen).mpr (Or.inl hsome)⟩

end Replica
end HypercoreRs
