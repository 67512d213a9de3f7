/-
# Log entries

An entry is what one block of a room's log says: the causal heads its author had
seen, and an opaque payload. `EntryCodec` frames it with varints: a version, the
heads as 32-byte keys with their sequence numbers, the payload with its length.
The decoder ignores the version and whatever follows the payload.

`decode_encode`: an entry whose counts fit 64 bits is read back as written. That
is all a room needs of its codec (`Codec.Faithful`).
-/
import HypercoreRs.Autobase.Linearizer
import HypercoreRs.Codec.Varint

namespace HypercoreRs

/-- The content of one log entry. -/
structure Entry (K : Type) where
  heads : List (NodeId K)
  payload : List UInt8
deriving DecidableEq

/-- The counts an entry is written with are 64-bit values. -/
structure Entry.Fits {K : Type} (e : Entry K) : Prop where
  heads : e.heads.length < 2 ^ 64
  seq : ∀ h ∈ e.heads, h.seq < 2 ^ 64
  payload : e.payload.length < 2 ^ 64

instance {K : Type} (e : Entry K) : Decidable e.Fits :=
  decidable_of_iff (e.heads.length < 2 ^ 64 ∧ (∀ h ∈ e.heads, h.seq < 2 ^ 64) ∧ e.payload.length < 2 ^ 64)
    ⟨fun ⟨hn, hs, hp⟩ => ⟨hn, hs, hp⟩, fun h => ⟨h.heads, h.seq, h.payload⟩⟩

/-- A codec that reads back the entries it writes. -/
def Codec.Faithful {K : Type} (codec : Codec (Entry K)) : Prop :=
  ∀ e : Entry K, e.Fits → codec.decode (codec.encode e) = .ok e

namespace EntryCodec

/-- Wire format version of an entry. -/
def entryV1 : ℕ := 1

/-- The `width` bytes of `v`, the most significant first. -/
def bytesOf : ℕ → ℕ → List UInt8
  | 0, _ => []
  | width + 1, v => bytesOf width (v / 256) ++ [UInt8.ofNat (v % 256)]

def ofBytes (bytes : List UInt8) : ℕ := bytes.foldl (fun v b => v * 256 + b.toNat) 0

/-- The 32 bytes of a writer key; their order is the order of the numbers. -/
def keyBytes (key : WriterKey) : List UInt8 := bytesOf 32 key.val

def keyOf (bytes : List UInt8) : WriterKey := Fin.ofNat (2 ^ 256) (ofBytes bytes)

def writeHead (h : NodeId WriterKey) : List UInt8 := keyBytes h.key ++ Varint.write h.seq

def encode (e : Entry WriterKey) : List UInt8 :=
  Varint.write entryV1 ++ (Varint.write e.heads.length ++ (e.heads.flatMap writeHead ++
    (Varint.write e.payload.length ++ e.payload)))

/-- The loop of `decode`: `n` heads. -/
def readHeads : ℕ → List UInt8 → Except CodecError (List (NodeId WriterKey) × List UInt8)
  | 0, b => .ok ([], b)
  | n + 1, b =>
    if b.length < 32 then .error .eof
    else do
      let (seq, b') ← Varint.read (b.drop 32)
      let (heads, b'') ← readHeads n b'
      return (⟨keyOf (b.take 32), seq⟩ :: heads, b'')

def decode (bytes : List UInt8) : Except CodecError (Entry WriterKey) := do
  let (_version, b) ← Varint.read bytes
  let (n, b) ← Varint.read b
  let (heads, b) ← readHeads n b
  let (len, b) ← Varint.read b
  if b.length < len then .error .eof else return ⟨heads, b.take len⟩

end EntryCodec

/-- The codec of a room's entries. -/
def entryCodec : Codec (Entry WriterKey) := ⟨EntryCodec.encode, EntryCodec.decode⟩

namespace EntryCodec

/-! ### What is written is read back -/

theorem length_bytesOf : ∀ width v : ℕ, (bytesOf width v).length = width
  | 0, _ => rfl
  | width + 1, v => by rw [bytesOf, List.length_append, length_bytesOf, List.length_singleton]

theorem ofBytes_bytesOf : ∀ width v : ℕ, v < 256 ^ width → ofBytes (bytesOf width v) = v
  | 0, v, h => by
    rw [pow_zero] at h
    obtain rfl : v = 0 := by omega
    rfl
  | width + 1, v, h => by
    have hhigh : v / 256 < 256 ^ width := by
      rw [Nat.div_lt_iff_lt_mul (by omega), ← pow_succ]
      exact h
    have ih := ofBytes_bytesOf width (v / 256) hhigh
    have hlow : (UInt8.ofNat (v % 256)).toNat = v % 256 := by rw [UInt8.toNat_ofNat']; omega
    rw [ofBytes] at ih
    rw [ofBytes, bytesOf, List.foldl_append, ih, List.foldl_cons, List.foldl_nil, hlow]
    omega

theorem keyOf_keyBytes (key : WriterKey) : keyOf (keyBytes key) = key := by
  have hlt : key.val < 256 ^ 32 := key.isLt.trans_le (by norm_num)
  rw [keyOf, keyBytes, ofBytes_bytesOf 32 _ hlt]
  exact Fin.ofNat_val_eq_self key

theorem readHeads_write : ∀ (heads : List (NodeId WriterKey)) (rest : List UInt8),
    (∀ h ∈ heads, h.seq < 2 ^ 64) →
    readHeads heads.length (heads.flatMap writeHead ++ rest) = .ok (heads, rest)
  | [], _, _ => rfl
  | h :: heads, rest, hseq => by
    have hlen : (keyBytes h.key).length = 32 := length_bytesOf 32 _
    have ih := readHeads_write heads rest fun h' hh' => hseq h' (List.mem_cons_of_mem _ hh')
    have hread := Varint.read_write (hseq h List.mem_cons_self) (heads.flatMap writeHead ++ rest)
    rw [List.flatMap_cons, writeHead, List.append_assoc, List.append_assoc, List.length_cons, readHeads,
      if_neg (by rw [List.length_append, hlen]; omega), List.drop_left' hlen, List.take_left' hlen,
      hread]
    show (do let (heads', b'') ← readHeads heads.length (heads.flatMap writeHead ++ rest)
             return (⟨keyOf (keyBytes h.key), h.seq⟩ :: heads', b'') : Except CodecError _) = _
    rw [ih, keyOf_keyBytes]
    rfl

theorem decode_encode {e : Entry WriterKey} (he : e.Fits) : decode (encode e) = .ok e := by
  have hversion := Varint.read_write (v := entryV1) (by decide) (Varint.write e.heads.length ++
    (e.heads.flatMap writeHead ++ (Varint.write e.payload.length ++ e.payload)))
  have hcount := Varint.read_write he.heads
    (e.heads.flatMap writeHead ++ (Varint.write e.payload.length ++ e.payload))
  have hheads := readHeads_write e.heads (Varint.write e.payload.length ++ e.payload) he.seq
  have hlen := Varint.read_write he.payload e.payload
  simp only [decode, encode, hversion, hcount, hheads, hlen, bind, Except.bind, pure, Except.pure,
    lt_irrefl, if_false, List.take_length]

end EntryCodec

theorem entryCodec_faithful : Codec.Faithful entryCodec := fun _ => EntryCodec.decode_encode

end HypercoreRs
