/-
# Manifests

`Manifest` is a policy of who may sign a log: a list of signers and a quorum. Its hash is
the log's key, and what a signer signs for a head binds that hash, the length and the
root (`signable_inj`). `verify` accepts a list of partial signatures when each is valid,
no slot of the list of signers is used twice, and there are `quorum` of them.

The slots are told apart, not the keys: `new` takes a list that names one key in two
slots, and the signed message does not name the slot, so that one signature fills both.
A quorum of different keys is guaranteed if and only if the quorum is one or no key is
listed twice (`authorized_iff`).

Hashing and signatures are parameters (`Signing`); `Signing.Ideal` is what is assumed of
them: no two inputs collide, and a signature verifies under its own key and message only.
-/
import HypercoreRs.Codec.Reader
import Mathlib.Data.Finset.Card
import Mathlib.Data.List.Nodup

namespace HypercoreRs
namespace Identity

/-- An array of 32 bytes. -/
abbrev Bytes32 := BitVec (8 * 32)

structure Signer (K : Type) where
  publicKey : K
  nameSpace : Bytes32
deriving DecidableEq

namespace Signer

variable {K : Type}

def defaultNamespace : Bytes32 := 0

/-- A signer with the default namespace. -/
def new (publicKey : K) : Signer K := ⟨publicKey, defaultNamespace⟩

end Signer

/-- A head that needs no signature. -/
structure Prologue where
  length : UInt64
  hash : Bytes32
deriving DecidableEq

/-- The signature of the signer in one slot. -/
structure PartialSig (Sig : Type) where
  signer : ℕ
  sig : Sig

/-- A signing policy. Every constructor keeps the quorum within the signers. -/
structure Manifest (K : Type) where
  quorum : ℕ
  signers : List (Signer K)
  prologue : Option Prologue
  quorum_le : quorum ≤ signers.length
  /-- The length of a vector is a 64-bit number. -/
  signers_lt : signers.length < 2 ^ 64

/-- What a signer signs; the domain tag and the layout of the bytes are left out. -/
structure Signable (H : Type) where
  manifestHash : H
  length : UInt64
  treeHash : Bytes32
deriving DecidableEq

/-- The hash function and the signature scheme. -/
structure Signing (K H Sig SK : Type) where
  toBytes : K → Bytes32
  toBytes_inj : Function.Injective toBytes
  hash : List UInt8 → H
  publicOf : SK → K
  sign : SK → Signable H → Sig
  verify : K → Signable H → Sig → Bool
  verify_sign : ∀ sk m, verify (publicOf sk) m (sign sk m) = true

/-- No two inputs collide, and a signature verifies under its own key and message only. -/
structure Signing.Ideal {K H Sig SK : Type} (c : Signing K H Sig SK) : Prop where
  hash_inj : Function.Injective c.hash
  own : ∀ {sk m k m'}, c.verify k m' (c.sign sk m) = true → k = c.publicOf sk ∧ m' = m

namespace Manifest

section Policy

variable {K : Type}

/-- A manifest of `signers` that requires `quorum` signatures. -/
def new (quorum : ℕ) (signers : List (Signer K)) (hlt : signers.length < 2 ^ 64) :
    Option (Manifest K) :=
  if h : signers = [] ∨ quorum = 0 ∨ signers.length < quorum then none
  else some ⟨quorum, signers, none, by simp only [not_or, Nat.not_lt] at h; exact h.2.2, hlt⟩

/-- The manifest of a log with one author. -/
def single (publicKey : K) : Manifest K :=
  ⟨1, [Signer.new publicKey], none, le_rfl, by simp⟩

def withPrologue (m : Manifest K) (prologue : Prologue) : Manifest K :=
  { m with prologue := some prologue }

/-- The manifests with signers: built by `new` or `single`, with or without a prologue. -/
inductive Made : Manifest K → Prop
  | new {quorum : ℕ} {signers : List (Signer K)} {hlt : signers.length < 2 ^ 64} {m : Manifest K} :
      Manifest.new quorum signers hlt = some m → Made m
  | single (publicKey : K) : Made (single publicKey)
  | withPrologue {m : Manifest K} (prologue : Prologue) : Made m → Made (m.withPrologue prologue)

theorem Made.quorum_pos {m : Manifest K} (h : Made m) : 0 < m.quorum := by
  induction h with
  | new hnew =>
    rw [Manifest.new] at hnew
    split_ifs at hnew with hbad
    obtain rfl := Option.some.inj hnew
    exact Nat.pos_of_ne_zero fun h0 => hbad (Or.inr (Or.inl h0))
  | single publicKey => exact Nat.one_pos
  | withPrologue prologue _ ih => exact ih

/-- The declared keys, slot by slot. -/
def keys (m : Manifest K) : List K := m.signers.map Signer.publicKey

/-- Is a head of this length past the prologue? -/
def Past (m : Manifest K) (length : UInt64) : Prop :=
  ∀ p, m.prologue = some p → p.length < length

end Policy

variable {K H Sig SK : Type} (c : Signing K H Sig SK)

/-! ### The bytes that are hashed -/

def manifestDomain : UInt8 := 0xA0

/-- A key and a namespace, one after the other. -/
def pairBytes (p : Bytes32 × Bytes32) : List UInt8 :=
  (Coded.bits 32).toBytes p.1 ++ (Coded.bits 32).toBytes p.2

def prologueBytes : Option Prologue → List UInt8
  | some p => 1 :: (leBytes 8 p.length.toNat ++ (Coded.bits 32).toBytes p.hash)
  | none => [0]

/-- What the hash of a manifest is taken over. -/
def preimage (m : Manifest K) : List UInt8 :=
  manifestDomain :: (leBytes 8 m.quorum ++ (leBytes 8 m.signers.length ++
    (m.signers.flatMap (fun s => pairBytes (c.toBytes s.publicKey, s.nameSpace)) ++
      prologueBytes m.prologue)))

/-- The key of the log. -/
def hash (m : Manifest K) : H := c.hash (m.preimage c)

def signable (m : Manifest K) (length : UInt64) (treeHash : Bytes32) : Signable H :=
  ⟨m.hash c, length, treeHash⟩

/-- The partial signature of `secret`, if its public key is declared. -/
def sign [DecidableEq K] (m : Manifest K) (secret : SK) (length : UInt64) (treeHash : Bytes32) :
    Option (PartialSig Sig) :=
  (m.signers.findIdx? fun s => s.publicKey = c.publicOf secret).map fun signer =>
    ⟨signer, c.sign secret (m.signable c length treeHash)⟩

/-! ### `verify` -/

/-- The loop over the signatures: `seen` has the slots used so far, `valid` counts. -/
def verifyLoop (m : Manifest K) (msg : Signable H) : List (PartialSig Sig) → List Bool → ℕ → Bool
  | [], _, valid => m.quorum ≤ valid
  | ps :: sigs, seen, valid =>
    match m.signers[ps.signer]? with
    | none => false
    | some s =>
      if seen.getD ps.signer false then false
      else if !c.verify s.publicKey msg ps.sig then false
      else verifyLoop m msg sigs (seen.set ps.signer true) (valid + 1)

/-- The quorum rule past the prologue. -/
def verifyMulti (m : Manifest K) (length : UInt64) (treeHash : Bytes32)
    (sigs : List (PartialSig Sig)) : Bool :=
  if m.quorum = 0 || sigs.length < m.quorum then false
  else m.verifyLoop c (m.signable c length treeHash) sigs
    (List.replicate m.signers.length false) 0

/-- Is the head authorized by these signatures? A head up to the prologue is, on content
alone. -/
def verify (m : Manifest K) (length : UInt64) (treeHash : Bytes32) (sigs : List (PartialSig Sig)) :
    Bool :=
  match m.prologue with
  | some p =>
    if length ≤ p.length then length = p.length && treeHash = p.hash
    else m.verifyMulti c length treeHash sigs
  | none => m.verifyMulti c length treeHash sigs

/-! ### The hash binds the policy -/

/-- The reader of a key and a namespace. -/
def readPair (bytes : List UInt8) : Option ((Bytes32 × Bytes32) × List UInt8) := do
  let (a, rest) ← (Coded.bits 32).read bytes
  let (b, rest) ← (Coded.bits 32).read rest
  return ((a, b), rest)

theorem reads_readPair (p : Bytes32 × Bytes32) : Reads readPair (pairBytes p) p := by
  intro rest
  rw [readPair, pairBytes, List.append_assoc, ((Coded.bits 32).reads p.1).bind]
  dsimp only
  rw [((Coded.bits 32).reads p.2).bind]
  rfl

theorem prologueBytes_inj : ∀ {p q : Option Prologue}, prologueBytes p = prologueBytes q → p = q
  | none, none, _ => rfl
  | none, some _, h => by simp [prologueBytes] at h
  | some _, none, h => by simp [prologueBytes] at h
  | some ⟨l, x⟩, some ⟨l', x'⟩, h => by
    obtain ⟨hl, hx⟩ := (reads_readU64 l.toNat_lt).inj (reads_readU64 l'.toNat_lt)
      (List.cons.inj h).2
    have hx' : x = x' ∧ ([] : List UInt8) = [] :=
      ((Coded.bits 32).reads x).inj ((Coded.bits 32).reads x') (by simpa using hx)
    rw [UInt64.toNat.inj hl, hx'.1]

variable {c}

/-- The bytes of a policy are those of no other. -/
theorem preimage_inj {m m' : Manifest K} (h : m.preimage c = m'.preimage c) : m = m' := by
  obtain ⟨q, ss, p, hq, hs⟩ := m
  obtain ⟨q', ss', p', hq', hs'⟩ := m'
  obtain ⟨rfl, h⟩ := (reads_readU64 (hq.trans_lt hs)).inj (reads_readU64 (hq'.trans_lt hs'))
    (List.cons.inj h).2
  obtain ⟨hlen, h⟩ := (reads_readU64 hs).inj (reads_readU64 hs') h
  dsimp only at hlen h
  let fields := fun s : Signer K => (c.toBytes s.publicKey, s.nameSpace)
  have hread : ∀ l : List (Signer K), Reads (readTimes readPair l.length)
      (l.flatMap fun s => pairBytes (fields s)) (l.map fields) := fun l => by
    have hl := reads_readTimes (l := l.map fields) fun p _ => reads_readPair p
    rwa [List.length_map, List.flatMap_map] at hl
  obtain ⟨hss, hp⟩ := (hread ss).inj (hlen ▸ hread ss') h
  have hinj : ∀ s s', fields s = fields s' → s = s' := by
    rintro ⟨k, n⟩ ⟨k', n'⟩ he
    obtain ⟨hk, rfl⟩ := Prod.mk.inj he
    obtain rfl := c.toBytes_inj hk
    rfl
  obtain rfl := (List.map_inj_right hinj).mp hss
  obtain rfl := prologueBytes_inj hp
  rfl

/-- What is signed for a head is signed for no other policy, length or root. -/
theorem signable_inj (hc : c.Ideal) {m m' : Manifest K} {l l' : UInt64} {x x' : Bytes32}
    (h : m.signable c l x = m'.signable c l' x') : m = m' ∧ l = l' ∧ x = x' := by
  obtain ⟨hm, hl, hx⟩ := Signable.mk.inj h
  exact ⟨preimage_inj (hc.hash_inj hm), hl, hx⟩

/-! ### What is accepted -/

/-- A valid signature of the signer in its slot. -/
def Valid (c : Signing K H Sig SK) (m : Manifest K) (msg : Signable H) (ps : PartialSig Sig) :
    Prop :=
  ∃ s, m.signers[ps.signer]? = some s ∧ c.verify s.publicKey msg ps.sig = true

variable {m : Manifest K}

/-- The loop accepts valid signatures in slots that are fresh and different, if there are
enough of them. -/
theorem verifyLoop_iff (msg : Signable H) : ∀ (sigs : List (PartialSig Sig))
    (seen : List Bool) (valid : ℕ), seen.length = m.signers.length →
    (m.verifyLoop c msg sigs seen valid = true ↔ m.quorum ≤ valid + sigs.length ∧
      (sigs.map PartialSig.signer).Nodup ∧
      ∀ ps ∈ sigs, seen.getD ps.signer false = false ∧ Valid c m msg ps)
  | [], _, valid, _ => by simp [verifyLoop]
  | ps :: sigs, seen, valid, hlen => by
    rw [verifyLoop]
    simp only [List.forall_mem_cons, List.map_cons, List.nodup_cons, List.length_cons]
    cases hs : m.signers[ps.signer]? with
    | none => simp [Valid, hs]
    | some s =>
      have hlt : ps.signer < seen.length := hlen ▸ (List.getElem?_eq_some_iff.mp hs).1
      have hset : ∀ j, (seen.set ps.signer true).getD j false = false ↔
          j ≠ ps.signer ∧ seen.getD j false = false := fun j => by
        by_cases hj : ps.signer = j
        · subst hj
          simp [List.getD_eq_getElem?_getD, hlt]
        · simp [List.getD_eq_getElem?_getD, List.getElem?_set_ne hj, Ne.symm hj]
      by_cases hseen : seen.getD ps.signer false = true
      · simp only [hseen, if_true, Bool.false_eq_true, Bool.true_eq_false, false_and, and_false]
      · by_cases hv : c.verify s.publicKey msg ps.sig = true
        · have ih := verifyLoop_iff msg sigs (seen.set ps.signer true) (valid + 1)
            (by rw [List.length_set, hlen])
          have hvalid : Valid c m msg ps := ⟨s, hs, hv⟩
          rw [Bool.not_eq_true] at hseen
          simp only [hseen, hv, Bool.not_true, Bool.false_eq_true, if_false, ih, hset, hvalid,
            true_and, List.mem_map, not_exists, not_and]
          constructor
          · rintro ⟨h1, h2, h3⟩
            exact ⟨by omega, ⟨fun q hq => (h3 q hq).1.1, h2⟩,
              fun q hq => ⟨(h3 q hq).1.2, (h3 q hq).2⟩⟩
          · rintro ⟨h1, ⟨h2, h3⟩, h4⟩
            exact ⟨by omega, h3, fun q hq => ⟨⟨h2 q hq, (h4 q hq).1⟩, (h4 q hq).2⟩⟩
        · have hno : ¬ Valid c m msg ps := by
            rintro ⟨s', hs', hv'⟩
            rw [hs] at hs'
            obtain rfl := Option.some.inj hs'
            exact hv hv'
          rw [Bool.not_eq_true] at hv
          simp [hv, hno]

variable {length : UInt64} {treeHash : Bytes32} {sigs : List (PartialSig Sig)}

/-- Past the prologue a head is authorized by enough valid signatures in different slots. -/
theorem verify_iff (hpos : 0 < m.quorum) (hpast : m.Past length) :
    m.verify c length treeHash sigs = true ↔ m.quorum ≤ sigs.length ∧
      (sigs.map PartialSig.signer).Nodup ∧
      ∀ ps ∈ sigs, Valid c m (m.signable c length treeHash) ps := by
  have hmulti : m.verify c length treeHash sigs = m.verifyMulti c length treeHash sigs := by
    rw [verify]
    cases hp : m.prologue with
    | none => rfl
    | some p => exact if_neg (UInt64.not_le.mpr (hpast p hp))
  rw [hmulti, verifyMulti]
  by_cases hfew : sigs.length < m.quorum
  · simp [hfew, Nat.not_le.mpr hfew]
  · have hfresh : ∀ i, (List.replicate m.signers.length false).getD i false = false := fun i => by
      rw [List.getD_eq_getElem?_getD, List.getElem?_replicate]
      split_ifs <;> rfl
    rw [if_neg (by simp [hfew, Nat.ne_of_gt hpos]), verifyLoop_iff _ _ _ _ (by simp)]
    simp only [hfresh, true_and, Nat.zero_add]

/-! ### A quorum of keys -/

/-- The signatures are genuine: each was made by a key it verifies under, for a head with
the message it verifies for. `signed k m l x` says that the holder of `k` signed the head
`(l, x)` under the manifest `m`. -/
def Genuine (c : Signing K H Sig SK) (signed : K → Manifest K → UInt64 → Bytes32 → Prop)
    (sigs : List (PartialSig Sig)) : Prop :=
  ∀ ps ∈ sigs, ∀ k msg, c.verify k msg ps.sig = true →
    ∃ m l x, signed k m l x ∧ m.signable c l x = msg

/-- Whoever signed what: if the head is authorized by genuine signatures, as many different
declared keys as the quorum asks for signed exactly this manifest, length and root. -/
def Authorized (c : Signing K H Sig SK) (m : Manifest K) (length : UInt64) (treeHash : Bytes32) :
    Prop :=
  ∀ (signed : K → Manifest K → UInt64 → Bytes32 → Prop) (sigs : List (PartialSig Sig)),
    Genuine c signed sigs → m.verify c length treeHash sigs = true →
    ∃ ks : List K, ks.Nodup ∧ m.quorum ≤ ks.length ∧
      ∀ k ∈ ks, k ∈ m.keys ∧ signed k m length treeHash

/-- The key of each slot that was used signed the head. -/
theorem Genuine.signed (hc : c.Ideal) {signed : K → Manifest K → UInt64 → Bytes32 → Prop}
    (h : Genuine c signed sigs) {ps : PartialSig Sig} (hps : ps ∈ sigs)
    (hv : Valid c m (m.signable c length treeHash) ps) :
    ∃ k, m.keys[ps.signer]? = some k ∧ signed k m length treeHash := by
  obtain ⟨s, hs, hsig⟩ := hv
  obtain ⟨m', l, x, hsigned, he⟩ := h ps hps _ _ hsig
  obtain ⟨rfl, rfl, rfl⟩ := signable_inj hc he
  exact ⟨s.publicKey, by rw [keys, List.getElem?_map, hs]; rfl, hsigned⟩

/-- A declared list without repetition, or a quorum of one, is enough. -/
theorem authorized_of (hc : c.Ideal) (hpos : 0 < m.quorum) (hpast : m.Past length)
    (treeHash : Bytes32) (h : m.quorum = 1 ∨ m.keys.Nodup) : Authorized c m length treeHash := by
  intro signed sigs hgen hv
  obtain ⟨hq, hslots, hvalid⟩ := (verify_iff hpos hpast).mp hv
  rcases h with h1 | hnodup
  · -- the first signature is enough
    obtain ⟨ps, hps⟩ := List.exists_mem_of_length_pos (show 0 < sigs.length by omega)
    obtain ⟨k, hk, hsigned⟩ := hgen.signed hc hps (hvalid ps hps)
    refine ⟨[k], List.nodup_singleton k, by rw [h1]; rfl, fun k' hk' => ?_⟩
    obtain rfl := List.mem_singleton.mp hk'
    exact ⟨List.mem_of_getElem? hk, hsigned⟩
  · -- different slots hold different keys
    have hkey : ∀ i ∈ sigs.map PartialSig.signer,
        ∃ k, m.keys[i]? = some k ∧ signed k m length treeHash := fun i hi => by
      obtain ⟨ps, hps, rfl⟩ := List.mem_map.mp hi
      exact hgen.signed hc hps (hvalid ps hps)
    refine ⟨(sigs.map PartialSig.signer).filterMap fun i => m.keys[i]?, ?_, ?_, fun k hk => ?_⟩
    · refine hslots.filterMap fun i j k hi hj => ?_
      exact (List.getElem?_inj (List.getElem?_eq_some_iff.mp hi).1 hnodup).mp (hi.trans hj.symm)
    · rw [List.filterMap_length_eq_length.mpr fun i hi => ?_, List.length_map]
      · exact hq
      · obtain ⟨k, hk, -⟩ := hkey i hi
        rw [hk]
        rfl
    · obtain ⟨i, hi, hik⟩ := List.mem_filterMap.mp hk
      obtain ⟨k', hk', hsigned⟩ := hkey i hi
      rw [hik] at hk'
      obtain rfl := Option.some.inj hk'
      exact ⟨List.mem_of_getElem? hik, hsigned⟩

/-- With a key in two slots, one key fewer than the quorum fills as many slots. -/
theorem exists_slots (hq : 2 ≤ m.quorum) (hdup : ¬ m.keys.Nodup) :
    ∃ slots : List ℕ, slots.Nodup ∧ slots.length = m.quorum ∧ (∀ i ∈ slots, i < m.keys.length) ∧
      ∃ ks : List K, ks.length < m.quorum ∧ ∀ i ∈ slots, ∀ k, m.keys[i]? = some k → k ∈ ks := by
  obtain ⟨i, j, hij, hj, he⟩ : ∃ i j : ℕ, i < j ∧ j < m.keys.length ∧ m.keys[i]? = m.keys[j]? := by
    by_contra hno
    refine hdup (List.nodup_iff_getElem?_ne_getElem?.mpr fun i j hij hj he => ?_)
    exact hno ⟨i, j, hij, hj, he⟩
  have hpair : ({i, j} : Finset ℕ) ⊆ Finset.range m.keys.length := by
    intro k hk
    rw [Finset.mem_insert, Finset.mem_singleton] at hk
    exact Finset.mem_range.mpr (by omega)
  have hlo : ({i, j} : Finset ℕ).card ≤ m.quorum := by rwa [Finset.card_pair hij.ne]
  have hhi : m.quorum ≤ (Finset.range m.keys.length).card := by
    rw [Finset.card_range, keys, List.length_map]
    exact m.quorum_le
  obtain ⟨T, hT, hTn, hcard⟩ := Finset.exists_subsuperset_card_eq hpair hlo hhi
  have hi : i ∈ T := hT (Finset.mem_insert_self i _)
  have hj' : j ∈ T.erase i := Finset.mem_erase.mpr ⟨hij.ne', hT (by simp)⟩
  refine ⟨T.toList, T.nodup_toList, by rw [Finset.length_toList, hcard], fun k hk => ?_,
    (T.erase i).toList.filterMap fun k => m.keys[k]?, ?_, fun k hk key hkey => ?_⟩
  · exact Finset.mem_range.mp (hTn (Finset.mem_toList.mp hk))
  · refine (List.length_filterMap_le _ _).trans_lt ?_
    rw [Finset.length_toList, Finset.card_erase_of_mem hi, hcard]
    omega
  · -- the key of the slot `i` is that of `j`
    rw [Finset.mem_toList] at hk
    rw [List.mem_filterMap]
    by_cases hki : k = i
    · exact ⟨j, Finset.mem_toList.mpr hj', by rw [← he, ← hki, hkey]⟩
    · exact ⟨k, Finset.mem_toList.mpr (Finset.mem_erase.mpr ⟨hki, hk⟩), hkey⟩

/-- **When an authorized head was signed by a quorum of keys**: if and only if the quorum is
one or no key is declared twice. -/
theorem authorized_iff (hc : c.Ideal) {m : Manifest K} (hm : Made m)
    (hsecret : ∀ k ∈ m.keys, ∃ sk, c.publicOf sk = k) {length : UInt64} (hpast : m.Past length)
    (treeHash : Bytes32) : Authorized c m length treeHash ↔ m.quorum = 1 ∨ m.keys.Nodup := by
  have hpos := hm.quorum_pos
  refine ⟨fun h => ?_, authorized_of hc hpos hpast treeHash⟩
  by_contra hno
  obtain ⟨h1, hdup⟩ := not_or.mp hno
  obtain ⟨slots, hnodup, hlen, hlt, ks, hks, hin⟩ := exists_slots (by omega) hdup
  -- the holders of the keys in these slots sign, and nobody else does
  have hsig : ∀ i ∈ slots, ∃ ps : PartialSig Sig, ps.signer = i ∧ ∃ k sk, m.keys[i]? = some k ∧
      c.publicOf sk = k ∧ ps.sig = c.sign sk (m.signable c length treeHash) := fun i hi => by
    have hk := List.getElem?_eq_getElem (hlt i hi)
    obtain ⟨sk, hsk⟩ := hsecret _ (List.mem_of_getElem? hk)
    exact ⟨⟨i, c.sign sk (m.signable c length treeHash)⟩, rfl, _, sk, hk, hsk, rfl⟩
  have : Nonempty (PartialSig Sig) := by
    obtain ⟨i, hi⟩ := List.exists_mem_of_length_pos (show 0 < slots.length by omega)
    exact ⟨(hsig i hi).choose⟩
  choose! mk hmk using hsig
  let signed := fun (k : K) (m' : Manifest K) (l : UInt64) (x : Bytes32) =>
    k ∈ ks ∧ m' = m ∧ l = length ∧ x = treeHash
  have hgen : Genuine c signed (slots.map mk) := fun ps hps k msg hv => by
    obtain ⟨i, hi, rfl⟩ := List.mem_map.mp hps
    obtain ⟨-, k', sk, hk', hsk, hs⟩ := hmk i hi
    rw [hs] at hv
    obtain ⟨rfl, rfl⟩ := hc.own hv
    exact ⟨m, length, treeHash, ⟨hin i hi _ (hsk ▸ hk'), rfl, rfl, rfl⟩, rfl⟩
  have haccept : m.verify c length treeHash (slots.map mk) = true := by
    refine (verify_iff hpos hpast).mpr ⟨by rw [List.length_map, hlen], ?_, fun ps hps => ?_⟩
    · have hslots : (slots.map mk).map PartialSig.signer = slots := by
        rw [List.map_map]
        exact (List.map_congr_left fun i hi => (hmk i hi).1).trans (List.map_id slots)
      rwa [hslots]
    · obtain ⟨i, hi, rfl⟩ := List.mem_map.mp hps
      obtain ⟨hslot, k, sk, hk, hsk, hs⟩ := hmk i hi
      rw [keys, List.getElem?_map] at hk
      obtain ⟨s, hs', rfl⟩ := Option.map_eq_some_iff.mp hk
      exact ⟨s, by rw [hslot]; exact hs', by rw [hs, ← hsk]; exact c.verify_sign sk _⟩
  obtain ⟨ks', hnd, hle, hall⟩ := h signed (slots.map mk) hgen haccept
  have hsub : ks'.length ≤ ks.length := (hnd.subperm fun k hk => (hall k hk).2.1).length_le
  omega

/-! ### Two signers -/

/-- Hashes as what was hashed, and signatures as the key and the message they are over. -/
def symbolic : Signing Bool (List UInt8) (Bool × Signable (List UInt8)) Bool where
  toBytes k := if k then 1 else 0
  toBytes_inj := by decide
  hash := id
  publicOf := id
  sign sk m := (sk, m)
  verify k m sig := sig = (k, m)
  verify_sign _ _ := decide_eq_true rfl

theorem symbolic_ideal : symbolic.Ideal where
  hash_inj := Function.injective_id
  own h := by
    obtain ⟨hk, hm⟩ := Prod.mk.inj (of_decide_eq_true h)
    exact ⟨hk.symm, hm.symm⟩

/-- Both signers are to sign. -/
def both : Manifest Bool := ⟨2, [Signer.new true, Signer.new false], none, by decide, by decide⟩

theorem authorized_both : new 2 [Signer.new true, Signer.new false] (by decide) = some both ∧
    both.verify symbolic 1 0 [⟨0, symbolic.sign true (both.signable symbolic 1 0)⟩,
      ⟨1, symbolic.sign false (both.signable symbolic 1 0)⟩] = true ∧
    Authorized symbolic both 1 0 := by
  have hnew : new 2 [Signer.new true, Signer.new false] (by decide) = some both := rfl
  have hpast : both.Past 1 := fun p hp => by cases hp
  refine ⟨hnew, by decide +kernel, ?_⟩
  exact (authorized_iff symbolic_ideal (.new hnew) (fun k _ => ⟨k, rfl⟩) hpast 0).mpr
    (Or.inr (by decide))

/-- One key in both slots. -/
def twice : Manifest Bool := ⟨2, [Signer.new true, Signer.new true], none, by decide, by decide⟩

/-- The policy is accepted, and one signature of the one key, copied to the other slot,
meets the quorum of two. -/
theorem twice_not_authorized : new 2 [Signer.new true, Signer.new true] (by decide) = some twice ∧
    twice.sign symbolic true 1 0 = some ⟨0, symbolic.sign true (twice.signable symbolic 1 0)⟩ ∧
    twice.verify symbolic 1 0 [⟨0, symbolic.sign true (twice.signable symbolic 1 0)⟩,
      ⟨1, symbolic.sign true (twice.signable symbolic 1 0)⟩] = true ∧
    ¬ Authorized symbolic twice 1 0 := by
  have haccept : twice.verify symbolic 1 0 [⟨0, symbolic.sign true (twice.signable symbolic 1 0)⟩,
      ⟨1, symbolic.sign true (twice.signable symbolic 1 0)⟩] = true := by decide +kernel
  refine ⟨rfl, rfl, haccept, fun h => ?_⟩
  let signed := fun (k : Bool) (m : Manifest Bool) (l : UInt64) (x : Bytes32) =>
    k = true ∧ m = twice ∧ l = 1 ∧ x = 0
  obtain ⟨ks, hnodup, hle, hall⟩ := h signed _ (fun ps hps k msg hv => by
    have hsig : ps.sig = symbolic.sign true (twice.signable symbolic 1 0) := by
      simp only [List.mem_cons, List.not_mem_nil, or_false] at hps
      rcases hps with rfl | rfl <;> rfl
    rw [hsig] at hv
    obtain ⟨hk, rfl⟩ := symbolic_ideal.own hv
    exact ⟨twice, 1, 0, ⟨hk, rfl, rfl, rfl⟩, rfl⟩) haccept
  have hsub : ks ⊆ [true] := fun k hk => List.mem_singleton.mpr (hall k hk).2.1
  have hone : ks.length ≤ 1 := (hnodup.subperm hsub).length_le
  have htwo : 2 ≤ ks.length := hle
  omega

end Manifest
end Identity
end HypercoreRs
