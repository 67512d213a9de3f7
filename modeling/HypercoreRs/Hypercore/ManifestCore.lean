/-
# Logs with several signers

The heads of a `ManifestCore` are signed by a quorum of the signers of a `Manifest`.
`verify_manifest_block` and the `add_block` of a `ManifestReplica` are `verifyBlock` and
`Replica.addBlock` with a manifest for the key and partial signatures for the signature
(`quorumScheme`).

While fewer signers than the quorum are faulty, a replica holds a beginning of the log
that the others sign, whatever it is offered and in whatever order
(`quorumReplica_follows`). Keys that the manifest does not name may sign anything.
-/
import HypercoreRs.Hypercore.Gate
import HypercoreRs.Identity.Manifest

namespace HypercoreRs

open Std Merkle Identity

section Quorum

variable {K M R Sig SK : Type} [DecidableEq R] (c : Signing K M Sig SK) (hs : Hasher R) (bytes : R → Bytes32)

/-- Heads signed by a quorum, without a fork; `bytes` is how a root is signed. -/
def quorumScheme : Crypto (Manifest K) R (List (PartialSig Sig)) Empty where
  hasher := hs
  validKey _ := true
  publicOf := Empty.elim
  sign sk _ := sk.elim
  verify m head sigs := m.verify c (UInt64.ofNat head.length) (bytes head.root) sigs
  verify_sign sk := sk.elim

/-- Every signer of the manifest but the faulty ones signs heads of the log only. -/
def SignsOnly (m : Manifest K) (signed : K → Manifest K → UInt64 → Bytes32 → Prop) (faulty : List K)
    (L : List Block) : Prop :=
  ∀ k ∈ m.keys, k ∉ faulty → ∀ l x, signed k m l (bytes x) → x = hs.treeHash (rootsOf hs (L.take l.toNat))

variable [DecidableEq K] {c hs bytes} {m : Manifest K} {signed : K → Manifest K → UInt64 → Bytes32 → Prop}
variable {faulty : List K} {L : List Block}

/-- What verifies under genuine signatures is a block of the log: one of the quorum is
not faulty. -/
theorem block_of_quorum (hc : c.Ideal) (ideal : hs.Ideal) (hnone : m.prologue = none) (hnodup : m.keys.Nodup)
    (hfew : (m.keys.filter (· ∈ faulty)).length < m.quorum) (hlog : SignsOnly hs bytes m signed faulty L)
    {offer : Offer R (List (PartialSig Sig))} (hgen : Manifest.Genuine c signed offer.head.sig)
    (hv : verifyBlock (quorumScheme c hs bytes) m offer.head offer.index offer.enc offer.proof = true) :
    L[offer.index]? = some offer.enc := by
  obtain ⟨hsig, hindex, hproof⟩ := verifyBlock_iff.mp hv
  have hpast : m.Past (UInt64.ofNat offer.head.length) := by simp [Manifest.Past, hnone]
  obtain ⟨ks, hks, hle, hall⟩ :=
    Manifest.authorized_of hc (by omega) hpast _ (Or.inr hnodup) signed _ hgen hsig
  obtain ⟨k, hk, hhonest⟩ : ∃ k ∈ ks, k ∉ faulty := by
    by_contra hno
    push Not at hno
    have hfaulty : ks ⊆ m.keys.filter (· ∈ faulty) := fun k hk =>
      List.mem_filter.mpr ⟨(hall k hk).1, decide_eq_true (hno k hk)⟩
    have := (hks.subperm hfaulty).length_le
    omega
  have hroot : offer.head.root = _ := hlog k (hall k hk).1 hhonest _ _ (hall k hk).2
  rw [hroot] at hproof
  have hdata := (Proof.verify_sound ideal hproof).2
  rw [hindex, List.getElem?_take] at hdata
  split_ifs at hdata
  exact hdata

/-- A replica of a manifest follows the log of the signers that are not faulty. -/
theorem quorumReplica_follows {S E : Type} {b : Backend S E R (List (PartialSig Sig))}
    (hb : b.Lawful) (hc : c.Ideal) (ideal : hs.Ideal) (hnone : m.prologue = none)
    (hnodup : m.keys.Nodup) (hfew : (m.keys.filter (· ∈ faulty)).length < m.quorum)
    (hlog : SignsOnly hs bytes m signed faulty L) (store : S)
    {offers : List (Offer R (List (PartialSig Sig)))}
    (hgen : ∀ offer ∈ offers, Manifest.Genuine c signed offer.head.sig) :
    ∃ A, Replica.Holds b (offers.foldl (Replica.offered (quorumScheme c hs bytes) b) (.new m store)) A ∧
      A <+: L := by
  obtain ⟨A, hA, hle⟩ := (Replica.stored_new m store).offers_begin hb List.nil_prefix fun offer hmem hv =>
    block_of_quorum hc ideal hnone hnodup hfew hlog (hgen offer hmem) hv
  exact ⟨A, hA.holds, hle⟩

end Quorum

/-- How roots are signed: that of the one block as 0. -/
def rootBytes (root : Digest) : Bytes32 :=
  if root = Hasher.symbolic.treeHash (rootsOf Hasher.symbolic [[5]]) then 0 else 1

/-- One block under a head that both signed. -/
def bothOffer : Offer Digest (List (PartialSig (Bool × Signable (List UInt8)))) :=
  let msg := Manifest.both.signable Manifest.symbolic 1 0
  ⟨⟨0, 1, Hasher.symbolic.treeHash (rootsOf Hasher.symbolic [[5]]),
    [⟨0, true, msg⟩, ⟨1, false, msg⟩]⟩, 0, [5],
    ((MerkleTree.ofBlocks Hasher.symbolic [[5]]).proof 0).getD ⟨0, 0, [], []⟩⟩

/-- One of the two signers is faulty. -/
theorem quorumReplica_follows_both : ∃ A, Replica.Holds (Backend.memory _ _)
    ([bothOffer].foldl (Replica.offered (quorumScheme Manifest.symbolic Hasher.symbolic rootBytes)
      (Backend.memory _ _)) (.new Manifest.both .new)) A ∧ A <+: [[5]] ∧ A.length = 1 := by
  let signed := fun (_ : Bool) (m : Manifest Bool) (l : UInt64) (x : Bytes32) => m = Manifest.both ∧
    l = 1 ∧ x = 0
  have hlog : SignsOnly Hasher.symbolic rootBytes Manifest.both signed [true] [[5]] := by
    rintro k - - l x ⟨-, rfl, hx⟩
    by_contra hne
    exact absurd (hx.symm.trans (if_neg hne)) (by decide)
  have hgen : Manifest.Genuine Manifest.symbolic signed bothOffer.head.sig := by
    intro ps hps k msg hv
    have hmsg : ps.sig.2 = Manifest.both.signable Manifest.symbolic 1 0 := by fin_cases hps <;> rfl
    obtain ⟨-, rfl⟩ := Prod.mk.inj (of_decide_eq_true hv)
    exact ⟨Manifest.both, 1, 0, ⟨rfl, rfl, rfl⟩, hmsg.symm⟩
  obtain ⟨A, hA, hle⟩ := quorumReplica_follows Backend.memory_lawful Manifest.symbolic_ideal
    Hasher.symbolic_ideal rfl (by decide) (by decide) hlog .new (List.forall_mem_singleton.mpr hgen)
  have hlen : ([bothOffer].foldl (Replica.offered (quorumScheme Manifest.symbolic Hasher.symbolic rootBytes)
      (Backend.memory _ _)) (.new Manifest.both .new)).len = 1 := by decide +kernel
  exact ⟨A, hA, hle, hA.1.symm.trans hlen⟩

end HypercoreRs
