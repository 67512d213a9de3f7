/-
# The formats on the wire and on disk

Peers send each other sync messages as bytes; a log's blocks are entries, and a Hyperbee's
blocks are tree nodes. All three formats are records of varints, arrays and counted lists.

What is written is read back (`formats_roundTrip`). The decoders of messages and entries see
bytes that anyone may have sent. They check the bytes left before they slice them, but they
ask for room for as many elements as the input says before they look for a single one:
`decoders_total_iff`, they panic where such a count is beyond what a `Vec` may hold, and
nowhere else. A frame of some two hundred bytes has one (`hugeCounts_panic`). Where they do not
panic, they read what they would read without asking (`decode_of_decodeChecked`).
-/
import HypercoreRs.Codec.Checked
import HypercoreRs.Hyperbee.Bee
import HypercoreRs.Room.Entry
import HypercoreRs.Room.Room

namespace HypercoreRs

open Checked

/-! ### Sync messages -/

namespace Wire

/-- A malformed wire buffer. -/
inductive WireError where
  /-- Ran out of bytes mid-value. -/
  | eof
  /-- A varint did not terminate. -/
  | varint
  /-- Unknown message tag. -/
  | badTag (tag : ℕ)
deriving DecidableEq

abbrev Hash := List.Vector UInt8 32

/-- The bytes of a signature. -/
structure SigBytes (Sig : Type) where
  toBytes : Sig → List.Vector UInt8 64
  fromBytes : List.Vector UInt8 64 → Sig
  from_to : ∀ sig, fromBytes (toBytes sig) = sig

def tHead : ℕ := 0
def tHave : ℕ := 1
def tWant : ℕ := 2
def tBlock : ℕ := 3

/-- The size of a tree node in memory: an index, a hash and a size. -/
def nodeSize : ℕ := 48

variable {Sig : Type} (sg : SigBytes Sig)

abbrev Message (Sig : Type) := SyncMessage WriterKey Hash Sig

def wrHead (h : SignedHead Hash Sig) : List UInt8 :=
  Varint.write h.fork ++ (Varint.write h.length ++ (h.root.toList ++ (sg.toBytes h.sig).toList))

def wrNode (n : Merkle.Node Hash) : List UInt8 :=
  Varint.write n.index ++ (n.hash.toList ++ Varint.write n.size)

def wrNodes (ns : List (Merkle.Node Hash)) : List UInt8 := Varint.write ns.length ++ ns.flatMap wrNode

def wrProof (p : Merkle.Proof Hash) : List UInt8 :=
  Varint.write p.block ++ (Varint.write p.leafSize ++ (wrNodes p.siblings ++ wrNodes p.roots))

def encode : Message Sig → List UInt8
  | .head writer head => Varint.write tHead ++ (EntryCodec.keyBytes writer ++ wrHead sg head)
  | .have_ writer length => Varint.write tHave ++ (EntryCodec.keyBytes writer ++ Varint.write length)
  | .want writer start end_ =>
    Varint.write tWant ++ (EntryCodec.keyBytes writer ++ (Varint.write start ++ Varint.write end_))
  | .block writer head index bytes proof =>
    Varint.write tBlock ++ (EntryCodec.keyBytes writer ++ (wrHead sg head ++ (Varint.write index ++
      (Varint.write bytes.length ++ (bytes ++ wrProof proof)))))

def rdU64 : Checked WireError ℕ := varint.mapErr fun _ => .varint

def rd32 : Checked WireError (List.Vector UInt8 32) := takeArray .eof 32

def rd64 : Checked WireError (List.Vector UInt8 64) := takeArray .eof 64

/-- A writer's key, kept as the number its bytes stand for. -/
def rdWriter : Checked WireError WriterKey := do
  let key ← rd32
  return EntryCodec.keyOf key.toList

def rdHead : Checked WireError (SignedHead Hash Sig) := do
  let fork ← rdU64
  let length ← rdU64
  let root ← rd32
  let sig ← rd64
  return ⟨fork, length, root, sg.fromBytes sig⟩

def rdNode : Checked WireError (Merkle.Node Hash) := do
  let index ← rdU64
  let hash ← rd32
  let size ← rdU64
  return ⟨index, hash, size⟩

/-- The room is asked for as soon as the count is read. -/
def rdNodes : Checked WireError (List (Merkle.Node Hash)) := do
  let k ← rdU64
  withCapacity k nodeSize
  times rdNode k

def rdProof : Checked WireError (Merkle.Proof Hash) := do
  let block ← rdU64
  let leafSize ← rdU64
  let siblings ← rdNodes
  let roots ← rdNodes
  return ⟨block, leafSize, siblings, roots⟩

def rdBlock (writer : WriterKey) : Checked WireError (Message Sig) := do
  let head ← rdHead sg
  let index ← rdU64
  let blen ← rdU64
  let bytes ← take .eof blen
  let proof ← rdProof
  return .block writer head index bytes proof

/-- The body of `decode`, over the bytes left. -/
def rdMessage : Checked WireError (Message Sig) := do
  let tag ← rdU64
  let writer ← rdWriter
  if tag = tHead then do
    let head ← rdHead sg
    return .head writer head
  else if tag = tHave then do
    let length ← rdU64
    return .have_ writer length
  else if tag = tWant then do
    let start ← rdU64
    let end_ ← rdU64
    return .want writer start end_
  else if tag = tBlock then rdBlock sg writer
  else fail (.badTag tag)

/-- Bytes past the message are ignored. -/
def decode (bytes : List UInt8) : Option (Except WireError (Message Sig)) := (rdMessage sg).run bytes

/-! ### Messages are read back

The values of a message are 64-bit numbers and `Vec`s. -/

structure HeadFits (h : SignedHead Hash Sig) : Prop where
  fork : h.fork < 2 ^ 64
  length : h.length < 2 ^ 64

structure NodesFit (ns : List (Merkle.Node Hash)) : Prop where
  count : VecHolds ns.length nodeSize
  index : ∀ n ∈ ns, n.index < 2 ^ 64
  size : ∀ n ∈ ns, n.size < 2 ^ 64

structure ProofFits (p : Merkle.Proof Hash) : Prop where
  block : p.block < 2 ^ 64
  leafSize : p.leafSize < 2 ^ 64
  siblings : NodesFit p.siblings
  roots : NodesFit p.roots

/-- The message is one that the source's types can hold. -/
def Fits : Message Sig → Prop
  | .head _ head => HeadFits head
  | .have_ _ length => length < 2 ^ 64
  | .want _ start end_ => start < 2 ^ 64 ∧ end_ < 2 ^ 64
  | .block _ head index bytes proof =>
    HeadFits head ∧ index < 2 ^ 64 ∧ VecHolds bytes.length 1 ∧ ProofFits proof

theorem restores_rdU64 {v : ℕ} (hv : v < 2 ^ 64) : Restores rdU64 (Varint.write v) v :=
  (restores_varint hv).mapErr _

theorem restores_rd32 (a : List.Vector UInt8 32) :
    Restores rd32 a.toList a := restores_takeArray WireError.eof a

theorem restores_rd64 (a : List.Vector UInt8 64) :
    Restores rd64 a.toList a := restores_takeArray WireError.eof a

theorem restores_rdWriter (key : WriterKey) : Restores rdWriter (EntryCodec.keyBytes key) key := by
  have hlen : (EntryCodec.keyBytes key).length = 32 := EntryCodec.length_bytesOf 32 key.val
  have h := (restores_rd32 ⟨EntryCodec.keyBytes key, hlen⟩).map (f := fun a => EntryCodec.keyOf a.toList)
  rw [List.Vector.toList_mk, EntryCodec.keyOf_keyBytes] at h
  exact h

theorem restores_rdHead {h : SignedHead Hash Sig} (hh : HeadFits h) :
    Restores (rdHead sg) (wrHead sg h) h := by
  have hsig := (restores_rd64 (sg.toBytes h.sig)).map
    (f := fun sig => (⟨h.fork, h.length, h.root, sg.fromBytes sig⟩ : SignedHead Hash Sig))
  rw [sg.from_to] at hsig
  exact (restores_rdU64 hh.fork).bind <| (restores_rdU64 hh.length).bind <| (restores_rd32 h.root).bind hsig

theorem restores_rdNode {n : Merkle.Node Hash} (hi : n.index < 2 ^ 64) (hs : n.size < 2 ^ 64) :
    Restores rdNode (wrNode n) n :=
  (restores_rdU64 hi).bind <| (restores_rd32 n.hash).bind <| (restores_rdU64 hs).map

theorem restores_rdNodes {ns : List (Merkle.Node Hash)} (hns : NodesFit ns) :
    Restores rdNodes (wrNodes ns) ns := by
  have hnodes : Restores (times rdNode ns.length) (ns.flatMap wrNode) ns :=
    Restores.times fun n hn => restores_rdNode (hns.index n hn) (hns.size n hn)
  exact (restores_rdU64 (hns.count.lt (by decide))).bind ((restores_withCapacity hns.count).bind hnodes)

theorem restores_rdProof {p : Merkle.Proof Hash} (hp : ProofFits p) : Restores rdProof (wrProof p) p :=
  (restores_rdU64 hp.block).bind <| (restores_rdU64 hp.leafSize).bind <|
    (restores_rdNodes hp.siblings).bind (restores_rdNodes hp.roots).map

theorem restores_rdMessage {m : Message Sig} (hm : Fits m) : Restores (rdMessage sg) (encode sg m) m := by
  cases m with
  | head writer head =>
    exact (restores_rdU64 (by decide)).bind <| (restores_rdWriter writer).bind (restores_rdHead sg hm).map
  | have_ writer length =>
    exact (restores_rdU64 (by decide)).bind <| (restores_rdWriter writer).bind (restores_rdU64 hm).map
  | want writer start end_ =>
    exact (restores_rdU64 (by decide)).bind <| (restores_rdWriter writer).bind <|
      (restores_rdU64 hm.1).bind (restores_rdU64 hm.2).map
  | block writer head index bytes proof =>
    obtain ⟨hhead, hindex, hbytes, hproof⟩ := hm
    exact (restores_rdU64 (by decide)).bind <| (restores_rdWriter writer).bind <|
      (restores_rdHead sg hhead).bind <| (restores_rdU64 hindex).bind <|
      (restores_rdU64 (hbytes.lt one_pos)).bind <| (restores_take WireError.eof bytes).bind
      (restores_rdProof hproof).map

/-! ### Where messages panic -/

theorem total_rdU64 : Total rdU64 := total_varint.mapErr _

theorem total_rd32 : Total rd32 := total_takeArray WireError.eof 32

theorem total_rd64 : Total rd64 := total_takeArray WireError.eof 64

theorem total_rdWriter : Total rdWriter := total_rd32.bind fun _ => total_pure _

theorem total_rdHead : Total (rdHead sg) :=
  total_rdU64.bind fun _ => total_rdU64.bind fun _ => total_rd32.bind fun _ =>
    total_rd64.bind fun _ => total_pure _

theorem total_rdNode : Total rdNode :=
  total_rdU64.bind fun _ => total_rd32.bind fun _ => total_rdU64.bind fun _ => total_pure _

/-- The first count behind a block's tag and writer. -/
def blockCount : Checked WireError ℕ := do
  let _head ← rdHead sg
  let _index ← rdU64
  let blen ← rdU64
  let _bytes ← take .eof blen
  let _block ← rdU64
  let _leafSize ← rdU64
  rdU64

/-- The count of siblings that a block message announces. -/
def siblingCount : Checked WireError ℕ := do
  let tag ← rdU64
  let _writer ← rdWriter
  if tag = tBlock then blockCount sg else fail (.badTag tag)

/-- The count of roots that follows the siblings. -/
def rootCount : Checked WireError ℕ := do
  let k ← siblingCount sg
  let _siblings ← times rdNode k
  rdU64

/-- Both counts a message announces are of nodes that a `Vec` can hold. -/
def CountsHold (bytes : List UInt8) : Prop :=
  After (siblingCount sg) (fun k _ => VecHolds k nodeSize) bytes ∧
    After (rootCount sg) (fun k _ => VecHolds k nodeSize) bytes

variable {b : List UInt8}

/-- A list of nodes panics at its count, or in what follows the nodes. -/
theorem rdNodes_bind_ne_none {β : Type} {f : List (Merkle.Node Hash) → Checked WireError β} :
    (rdNodes >>= f) b ≠ none ↔ After rdU64 (fun k b => VecHolds k nodeSize ∧
      After (times rdNode k) (fun ns b => f ns b ≠ none) b) b := by
  have hassoc : rdNodes >>= f = rdU64 >>= fun k => withCapacity k nodeSize >>=
      fun _ => times rdNode k >>= f := by
    rw [rdNodes]
    simp only [bind_assoc]
  rw [hassoc, total_rdU64.bind_ne_none]
  refine after_congr fun k b => ?_
  rw [withCapacity_bind_ne_none, (total_rdNode.times k).bind_ne_none]

theorem rdProof_ne_none :
    rdProof b ≠ none ↔ After (do let _block ← rdU64; let _leafSize ← rdU64; rdU64) (fun k b =>
      VecHolds k nodeSize ∧
      After (times rdNode k >>= fun _ => rdU64) (fun k _ => VecHolds k nodeSize) b) b := by
  rw [rdProof, total_rdU64.bind_ne_none, after_bind]
  refine after_congr fun block b => ?_
  rw [total_rdU64.bind_ne_none, after_bind]
  refine after_congr fun leafSize b => ?_
  rw [rdNodes_bind_ne_none]
  refine after_congr fun k b => and_congr_right fun _ => ?_
  rw [after_bind]
  refine after_congr fun siblings b => ?_
  rw [rdNodes_bind_ne_none]
  refine after_congr fun k b => and_iff_left ?_
  exact fun _ _ _ => total_pure _ _

theorem rdBlock_ne_none {writer : WriterKey} :
    rdBlock sg writer b ≠ none ↔ After (blockCount sg) (fun k b =>
      VecHolds k nodeSize ∧
      After (times rdNode k >>= fun _ => rdU64) (fun k _ => VecHolds k nodeSize) b) b := by
  rw [rdBlock, (total_rdHead sg).bind_ne_none, blockCount, after_bind]
  refine after_congr fun head b => ?_
  rw [total_rdU64.bind_ne_none, after_bind]
  refine after_congr fun index b => ?_
  rw [total_rdU64.bind_ne_none, after_bind]
  refine after_congr fun blen b => ?_
  rw [(total_take _ blen).bind_ne_none, after_bind]
  refine after_congr fun bytes b => ?_
  rw [← rdProof_ne_none, not_iff_not, bind_eq_none]
  exact or_iff_left fun ⟨_, _, _, h⟩ => total_pure _ _ h

/-- Only block messages have lists. -/
theorem rdMessage_ne_none : rdMessage sg b ≠ none ↔ CountsHold sg b := by
  have hcount : CountsHold sg b ↔ After (siblingCount sg) (fun k b =>
      VecHolds k nodeSize ∧
      After (times rdNode k >>= fun _ => rdU64) (fun k _ => VecHolds k nodeSize) b) b := by
    rw [CountsHold, rootCount, after_bind, after_and]
  rw [hcount, siblingCount, rdMessage, total_rdU64.bind_ne_none, after_bind]
  refine after_congr fun tag b => ?_
  rw [total_rdWriter.bind_ne_none, after_bind]
  refine after_congr fun writer b => ?_
  by_cases htag : tag = tBlock
  · subst htag
    exact rdBlock_ne_none sg
  · rw [if_neg htag, if_neg htag, after_fail, iff_true]
    split_ifs
    · exact (total_rdHead sg).bind (fun _ => total_pure _) b
    · exact total_rdU64.bind (fun _ => total_pure _) b
    · exact total_rdU64.bind (fun _ => total_rdU64.bind fun _ => total_pure _) b
    · exact total_fail _ b

end Wire

/-! ### Entries -/

namespace EntryCodec

/-- The size of a head in memory: a key and a sequence number. -/
def headSize : ℕ := 40

/-- One round of the loop of `decode`. -/
def rdHead : Checked CodecError (NodeId WriterKey) := do
  let key ← takeArray .eof 32
  let seq ← varint
  return ⟨keyOf key.toList, seq⟩

def rdEntry : Checked CodecError (Entry WriterKey) := do
  let _version ← varint
  let n ← varint
  withCapacity n headSize
  let heads ← times rdHead n
  let len ← varint
  let payload ← take .eof len
  return ⟨heads, payload⟩

/-- `decode` with its panics. -/
def decodeChecked (bytes : List UInt8) : Option (Except CodecError (Entry WriterKey)) := rdEntry.run bytes

/-- The entry is one that the source's types can hold. -/
structure Held (e : Entry WriterKey) : Prop where
  heads : VecHolds e.heads.length headSize
  seq : ∀ h ∈ e.heads, h.seq < 2 ^ 64
  payload : VecHolds e.payload.length 1

theorem restores_rdHead {h : NodeId WriterKey} (hseq : h.seq < 2 ^ 64) : Restores rdHead (writeHead h) h := by
  have hlen : (keyBytes h.key).length = 32 := length_bytesOf 32 h.key.val
  have hread := restores_takeArray CodecError.eof ⟨keyBytes h.key, hlen⟩
  have h := hread.bind
    (f := fun key => do let seq ← varint; return (⟨keyOf key.toList, seq⟩ : NodeId WriterKey))
    (restores_varint hseq).map
  rw [List.Vector.toList_mk, keyOf_keyBytes] at h
  exact h

theorem restores_rdEntry {e : Entry WriterKey} (he : Held e) : Restores rdEntry (encode e) e := by
  have hheads : Restores (times rdHead e.heads.length) (e.heads.flatMap writeHead) e.heads :=
    Restores.times fun h hh => restores_rdHead (he.seq h hh)
  exact (restores_varint (by decide)).bind <| (restores_varint (he.heads.lt (by decide))).bind <|
    (restores_withCapacity he.heads).bind <| hheads.bind <|
    (restores_varint (he.payload.lt one_pos)).bind (restores_take CodecError.eof e.payload).map

/-- The count of heads that an entry announces. -/
def headCount : Checked CodecError ℕ := do
  let _version ← varint
  varint

theorem rdEntry_ne_none {b : List UInt8} :
    rdEntry b ≠ none ↔ After headCount (fun n _ => VecHolds n headSize) b := by
  have htotal : Total rdHead :=
    (total_takeArray _ 32).bind fun _ => total_varint.bind fun _ => total_pure _
  rw [rdEntry, headCount, total_varint.bind_ne_none, after_bind]
  refine after_congr fun version b => ?_
  rw [total_varint.bind_ne_none]
  refine after_congr fun n b => ?_
  rw [withCapacity_bind_ne_none]
  refine and_iff_left ?_
  exact (htotal.times n).bind
    (fun _ => total_varint.bind fun _ => (total_take _ _).bind fun _ => total_pure _) b

/-! Where `decode` does not panic it is the one that rooms are modelled with. -/

theorem agrees_rdHead : Agrees rdHead fun b =>
    (if b.length < 32 then .error .eof else .ok (b.take 32, b.drop 32)) >>= fun key =>
      Varint.read key.2 >>= fun seq => .ok (⟨keyOf key.1, seq.1⟩, seq.2) := by
  have h := (agrees_takeArray CodecError.eof 32).bind fun key => agrees_varint.bind fun seq =>
    agrees_pure (⟨keyOf key, seq⟩ : NodeId WriterKey)
  rw [bind_assoc] at h
  exact h

theorem agrees_readHeads : ∀ n, Agrees (times rdHead n) (readHeads n) :=
  agrees_rdHead.times (fun _ => rfl) fun n b => by
    rw [readHeads]
    split_ifs
    · rfl
    · show (Varint.read (b.drop 32) >>= _) = (Varint.read (b.drop 32) >>= _) >>= _
      rw [bind_assoc]
      rfl

theorem decode_of_decodeChecked {bytes : List UInt8} {r : Except CodecError (Entry WriterKey)}
    (h : decodeChecked bytes = some r) : decode bytes = r := by
  have hagrees := agrees_varint.bind fun _ => agrees_varint.bind fun n =>
    ((agrees_readHeads n).bind fun heads => agrees_varint.bind fun len =>
      (agrees_take CodecError.eof len).bind fun payload =>
        agrees_pure (⟨heads, payload⟩ : Entry WriterKey)).withCapacity n headSize
  rw [← hagrees.run h]
  show _ = Prod.fst <$> _
  simp only [map_bind]
  refine bind_congr fun version => bind_congr fun n => bind_congr fun heads => bind_congr fun len => ?_
  dsimp only
  split_ifs <;> rfl

end EntryCodec

/-! ### Tree nodes -/

namespace Hyperbee.NodeCodec

/-- The size of an entry in memory: two `Vec`s. -/
def bindingSize : ℕ := 48

/-- `to_vec`; a slice is never longer than a `Vec` may be. -/
def toVec (slice : List UInt8) : Checked CodecError Bytes :=
  if h : slice.length < 2 ^ 63 then pure ⟨slice, h⟩ else panic

def rdBytes (n : ℕ) : Checked CodecError Bytes := do
  let slice ← Checked.take .eof n
  toVec slice

def rdBinding : Checked CodecError Binding := do
  let kl ← varint
  let k ← rdBytes kl
  let vl ← varint
  let v ← rdBytes vl
  return (k, v)

def rdNode : Checked CodecError Node := do
  let ne ← varint
  withCapacity ne bindingSize
  let entries ← times rdBinding ne
  let nc ← varint
  withCapacity nc 8
  let children ← times varint nc
  return ⟨entries, children⟩

/-- `decode` with its panics. -/
def decodeChecked (bytes : List UInt8) : Option (Except CodecError Node) := rdNode.run bytes

/-- The node is one that the source's types can hold. -/
structure Held (n : Node) : Prop where
  entries : VecHolds n.entries.length bindingSize
  children : VecHolds n.children.length 8
  seq : ∀ c ∈ n.children, c < 2 ^ 64

theorem restores_rdBytes (bytes : Bytes) : Restores (rdBytes bytes.val.length) bytes.val bytes := by
  have hcopy : Restores (toVec bytes.val) [] bytes := by
    rw [toVec, dif_pos bytes.2]
    exact Restores.pure bytes
  have h := (restores_take CodecError.eof bytes.val).bind hcopy
  rwa [List.append_nil] at h

theorem restores_rdBinding (e : Binding) : Restores rdBinding (writeBinding e) e := by
  have hlt (bytes : Bytes) : bytes.val.length < 2 ^ 64 := bytes.2.trans (by norm_num)
  exact (restores_varint (hlt e.1)).bind <| (restores_rdBytes e.1).bind <|
    (restores_varint (hlt e.2)).bind (restores_rdBytes e.2).map

theorem restores_rdNode {n : Node} (hn : Held n) : Restores rdNode (encode n) n := by
  have hentries : Restores (times rdBinding n.entries.length) (n.entries.flatMap writeBinding) n.entries :=
    Restores.times fun e _ => restores_rdBinding e
  have hchildren : Restores (times varint n.children.length) (n.children.flatMap Varint.write) n.children :=
    Restores.times fun c hc => restores_varint (hn.seq c hc)
  exact (restores_varint (hn.entries.lt (by decide))).bind <| (restores_withCapacity hn.entries).bind <|
    hentries.bind <| (restores_varint (hn.children.lt (by decide))).bind <|
    (restores_withCapacity hn.children).bind hchildren.map

/-! Where `decode` does not panic it is the one that trees are modelled with. -/

theorem agrees_rdBytes (n : ℕ) : Agrees (rdBytes n) fun b => take b n := by
  intro b r h
  rw [rdBytes, bind_apply, take_apply] at h
  dsimp only
  by_cases hlt : b.length < n
  · rw [if_pos hlt] at h
    rw [take, dif_neg (by omega)]
    exact Option.some.inj h
  · have hlen : (b.take n).length = n := by rw [List.length_take]; omega
    rw [if_neg hlt] at h
    dsimp only [toVec] at h
    split_ifs at h with hshort
    · rw [take, dif_pos ⟨by omega, hlen ▸ hshort⟩]
      exact Option.some.inj h
    · cases h

theorem agrees_readBindings : ∀ n, Agrees (times rdBinding n) (readBindings n) :=
  (agrees_varint.bind fun kl => (agrees_rdBytes kl).bind fun k => agrees_varint.bind fun vl =>
    (agrees_rdBytes vl).bind fun v => agrees_pure ((k, v) : Binding)).times (fun _ => rfl) fun n b => by
      simp only [readBindings, bind_assoc]
      rfl

theorem agrees_readChildren : ∀ n, Agrees (times varint n) (readChildren n) :=
  agrees_varint.times (fun _ => rfl) fun _ _ => rfl

theorem decode_of_decodeChecked {bytes : List UInt8} {r : Except CodecError Node}
    (h : decodeChecked bytes = some r) : decode bytes = r := by
  have hagrees := agrees_varint.bind fun ne => ((agrees_readBindings ne).bind fun entries =>
    agrees_varint.bind fun nc => ((agrees_readChildren nc).bind fun children =>
      agrees_pure (⟨entries, children⟩ : Node)).withCapacity nc 8).withCapacity ne bindingSize
  rw [← hagrees.run h]
  show _ = Prod.fst <$> _
  simp only [map_bind]
  rfl

end Hyperbee.NodeCodec

namespace Wire

/-! ### The three formats -/

/-- Every message, entry and node is read back as it was written. -/
theorem formats_roundTrip {Sig : Type} (sg : SigBytes Sig) :
    (∀ m : Message Sig, Fits m → decode sg (encode sg m) = some (.ok m)) ∧
      (∀ e : Entry WriterKey, EntryCodec.Held e →
        EntryCodec.decodeChecked (EntryCodec.encode e) = some (.ok e)) ∧
      ∀ n : Hyperbee.Node, Hyperbee.NodeCodec.Held n →
        Hyperbee.NodeCodec.decodeChecked (Hyperbee.NodeCodec.encode n) = some (.ok n) := by
  refine ⟨fun m hm => ?_, fun e he => ?_, fun n hn => ?_⟩
  · exact (restores_rdMessage sg hm).run
  · exact (EntryCodec.restores_rdEntry he).run
  · exact (Hyperbee.NodeCodec.restores_rdNode hn).run

/-- Signatures that are their bytes. -/
def SigBytes.plain : SigBytes (List.Vector UInt8 64) := ⟨id, id, fun _ => rfl⟩

def sampleBlock : Message (List.Vector UInt8 64) :=
  .block 7 ⟨0, 3, List.Vector.replicate 32 1, List.Vector.replicate 64 2⟩ 2 [5, 6]
    ⟨2, 2, [], [⟨1, List.Vector.replicate 32 3, 4⟩, ⟨4, List.Vector.replicate 32 4, 2⟩]⟩

def sampleEntry : Entry WriterKey := ⟨[⟨7, 0⟩, ⟨8, 300⟩], [1, 2, 3]⟩

def sampleNode : Hyperbee.Node := ⟨[(⟨[1], by decide⟩, ⟨[2, 3], by decide⟩)], [0, 300]⟩

theorem samples_roundTrip :
    decode .plain (encode .plain sampleBlock) = some (.ok sampleBlock) ∧
      EntryCodec.decodeChecked (EntryCodec.encode sampleEntry) = some (.ok sampleEntry) ∧
      Hyperbee.NodeCodec.decodeChecked (Hyperbee.NodeCodec.encode sampleNode) = some (.ok sampleNode) := by
  obtain ⟨hmessage, hentry, hnode⟩ := formats_roundTrip SigBytes.plain
  refine ⟨hmessage _ ⟨⟨by decide, by decide⟩, by decide, by decide, ?_⟩, hentry _ ?_, hnode _ ?_⟩
  · exact ⟨by decide, by decide, ⟨by decide, by decide, by decide⟩, ⟨by decide, by decide, by decide⟩⟩
  · exact ⟨by decide, by decide, by decide⟩
  · exact ⟨by decide, by decide, by decide⟩

/-- The decoders of what peers send panic where a count is beyond what a `Vec` can hold, and
nowhere else: no slice is out of range and no sum overflows. -/
theorem decoders_total_iff {Sig : Type} (sg : SigBytes Sig) (bytes : List UInt8) :
    (decode sg bytes ≠ none ↔ CountsHold sg bytes) ∧
      (EntryCodec.decodeChecked bytes ≠ none ↔
        After EntryCodec.headCount (fun n _ => VecHolds n EntryCodec.headSize) bytes) :=
  ⟨run_ne_none.trans (rdMessage_ne_none sg), run_ne_none.trans EntryCodec.rdEntry_ne_none⟩

/-- A block message that ends after a count of `2 ^ 60` siblings. -/
def hugeProof : List UInt8 :=
  [3] ++ List.replicate 32 0 ++ ([0, 0] ++ List.replicate 96 0) ++ [0, 0] ++ [0, 0] ++
    (List.replicate 8 0x80 ++ [0x10])

/-- An entry that ends after a count of `2 ^ 62` heads. -/
def hugeEntry : List UInt8 := [1] ++ (List.replicate 8 0x80 ++ [0x40])

theorem hugeCounts_panic :
    decode SigBytes.plain hugeProof = none ∧ EntryCodec.decodeChecked hugeEntry = none :=
  ⟨Option.isNone_iff_eq_none.mp (by decide +kernel), Option.isNone_iff_eq_none.mp (by decide +kernel)⟩

end Wire
end HypercoreRs
