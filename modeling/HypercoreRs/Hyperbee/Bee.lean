/-
# Hyperbee over a signed log

A `Hyperbee` is a signed log of B-tree nodes, and a batch while one is open: then nodes
are staged in the batch and read back from it, and reach the log under one head when the
batch is committed, or not at all. So there are two ways its nodes are kept
(`Command.Keeper`), in the log alone (`Direct`) and with some of them staged
(`Staging`), and an operation does the same to either (`keeps_direct`, `keeps_staging`).

What the tree is for is a map with a past: every operation has its effect on a map
(`BeeOp.apply`), and each version reads as the map it was (`ReadsAs`), at any later time.
-/
import HypercoreRs.Hyperbee.Valid
import HypercoreRs.Hypercore.Coherent

namespace HypercoreRs

open Std Merkle Command Storage BTree
open Hypercore (backend)

namespace Hyperbee

/-! ### What is written of a node is read back -/

/-- The numbers a node is written with are 64-bit values. -/
structure Fits (n : Node) : Prop where
  entries : n.entries.length < 2 ^ 64
  children : n.children.length < 2 ^ 64
  seq : ∀ c ∈ n.children, c < 2 ^ 64

namespace NodeCodec

theorem take_append (a : Bytes) (rest : List UInt8) :
    take (a.val ++ rest) a.val.length = .ok (a, rest) := by
  rw [take, dif_pos ⟨by simp, a.2⟩]
  simp

theorem readBindings_write : ∀ (entries : List Binding) (rest : List UInt8),
    readBindings entries.length (entries.flatMap writeBinding ++ rest) = .ok (entries, rest)
  | [], _ => rfl
  | e :: entries, rest => by
    have ih := readBindings_write entries rest
    have hk := Varint.read_write (show e.1.val.length < 2 ^ 64 from e.1.2.trans (by norm_num))
      (e.1.val ++ (Varint.write e.2.val.length ++ (e.2.val ++ (entries.flatMap writeBinding ++ rest))))
    have hv := Varint.read_write (show e.2.val.length < 2 ^ 64 from e.2.2.trans (by norm_num))
      (e.2.val ++ (entries.flatMap writeBinding ++ rest))
    simp only [List.length_cons, readBindings, List.flatMap_cons, writeBinding, List.append_assoc, hk, hv, ih,
      take_append, bind, Except.bind, pure, Except.pure]

theorem readChildren_write : ∀ (children : List ℕ) (rest : List UInt8), (∀ c ∈ children, c < 2 ^ 64) →
    readChildren children.length (children.flatMap Varint.write ++ rest) = .ok (children, rest)
  | [], _, _ => rfl
  | c :: children, rest, h => by
    have ih := readChildren_write children rest fun d hd => h d (List.mem_cons_of_mem c hd)
    have hc := Varint.read_write (h c List.mem_cons_self) (children.flatMap Varint.write ++ rest)
    simp only [List.length_cons, readChildren, List.flatMap_cons, List.append_assoc, hc, ih, bind,
      Except.bind, pure, Except.pure]

theorem decode_encode {n : Node} (hn : Fits n) : decode (encode n) = .ok n := by
  have hentries := Varint.read_write hn.entries (n.entries.flatMap writeBinding ++
    (Varint.write n.children.length ++ n.children.flatMap Varint.write))
  have hbindings := readBindings_write n.entries
    (Varint.write n.children.length ++ n.children.flatMap Varint.write)
  have hcount := Varint.read_write hn.children (n.children.flatMap Varint.write)
  have hchildren := readChildren_write n.children [] hn.seq
  rw [List.append_nil] at hchildren
  simp only [decode, encode, hentries, hbindings, hcount, hchildren, bind, Except.bind, pure, Except.pure]

end NodeCodec

end Hyperbee

/-! ### The tree over its log -/

/-- An ordered key/value store: a copy-on-write B-tree over a signed log. -/
structure Hyperbee (H Sig SK S : Type) where
  core : Hypercore H Sig SK S
  /-- The batch in progress, if one is open. -/
  pending : Option Batch

namespace Hyperbee

variable {K H Sig SK S E : Type} [DecidableEq H]
variable (c : Crypto K H Sig SK) (st : Store S E) (w : Wire H Sig)

/-- An empty tree written by `author`. -/
def new (author : SK) (store : S) : Hyperbee H Sig SK S := ⟨Hypercore.new author store, none⟩

/-- The version is the number of blocks in the log. -/
def version (bee : Hyperbee H Sig SK S) : ℕ := bee.core.len

/-- The node at block `seq`, staged or not. -/
def node (bee : Hyperbee H Sig SK S) (seq : ℕ) : Except (CoreError (LayoutError E)) Node :=
  let found := match bee.pending with
    | none => bee.core.get (backend w st) nodeCodec seq
    | some b =>
      if b.base ≤ seq then bee.core.batchGet st w nodeCodec b seq
      else bee.core.get (backend w st) nodeCodec seq
  match found with
  | .error e => .error e
  | .ok none => .error .corrupt
  | .ok (some n) => .ok n

/-- The root is the latest block, a staged one if there is one. -/
def rootSeq (bee : Hyperbee H Sig SK S) : Option ℕ :=
  match bee.pending with
  | none => bee.core.len.ppred
  | some b => if 0 < b.encoded.length then some (b.base + b.encoded.length - 1) else bee.core.len.ppred

/-- Append a node, or stage it if a batch is open. Its number must fit 64 bits. -/
def appendNode (n : Node) : EStateM (CoreError (LayoutError E)) (Hyperbee H Sig SK S) ℕ := do
  let bee ← MonadState.get
  match bee.pending with
  | some b =>
    if b.base + b.encoded.length + 1 < 2 ^ 64 then
      set { bee with pending := some (Hypercore.stage nodeCodec b n) }
      return b.base + b.encoded.length
    else throw (.storage .overflow)
  | none =>
    zoom (·.core) (fun core bee => { bee with core := core }) id
      (Hypercore.append c (backend w st) nodeCodec n)

/-- How a tree keeps its nodes. -/
def keeper : Keeper Node (CoreError (LayoutError E)) (Hyperbee H Sig SK S) where
  latest := rootSeq
  read := node st w
  append := appendNode c st w
  panic := .panicked

/-! ### Versions -/

/-- A read-only view of a version. -/
structure Checkout (H Sig SK S : Type) where
  bee : Hyperbee H Sig SK S
  root : Option ℕ
  version : ℕ

def Checkout.get (view : Checkout H Sig SK S) (key : Bytes) :
    Except (CoreError (LayoutError E)) (Option Bytes) :=
  (keeper c st w).ask (lookup view.root key) view.bee

def Checkout.range (view : Checkout H Sig SK S) (bounds : Range) :
    Except (CoreError (LayoutError E)) (List Binding) :=
  (keeper c st w).ask (rangeFrom view.root bounds) view.bee

/-! ### Operations -/

/-- A write of one key. -/
inductive Edit where
  | put (key value : Bytes)
  | del (key : Bytes)
  | putCas (key value : Bytes) (expected : Option Bytes)
  | delCas (key : Bytes) (expected : Option Bytes)

/-- The program of a write. It answers whether it applied; a `put` always does and does not
say so. -/
def Edit.prog : Edit → Prog Node (Option Bool)
  | .put key value => do
    Hyperbee.put key value
    return none
  | .del key => do
    let found ← Hyperbee.del key
    return some found
  | .putCas key value expected => do
    let applied ← Hyperbee.putCas key value expected
    return some applied
  | .delCas key expected => do
    let applied ← Hyperbee.delCas key expected
    return some applied

/-- What can be staged in a batch. -/
inductive BatchOp where
  | put (key value : Bytes)
  | del (key : Bytes)

def BatchOp.edit : BatchOp → Edit
  | .put key value => .put key value
  | .del key => .del key

/-- Writes one after another. -/
def runEdits : List Edit → EStateM (CoreError (LayoutError E)) (Hyperbee H Sig SK S) (List (Option Bool))
  | [] => return []
  | e :: rest => do
    let a ← (keeper c st w).perform e.prog
    let as ← runEdits rest
    return a :: as

/-- Open a batch. -/
def batch : EStateM (CoreError (LayoutError E)) (Hyperbee H Sig SK S) Unit :=
  modify fun bee => { bee with pending := some bee.core.batch }

/-- Apply what is staged, under one head. -/
def commit : EStateM (CoreError (LayoutError E)) (Hyperbee H Sig SK S) Unit := do
  let bee ← MonadState.get
  match bee.pending with
  | none => return ()
  | some b =>
    set { bee with pending := none }
    let _ ← zoom (·.core) (fun core bee => { bee with core := core }) id (Hypercore.commit c st w b)
    return ()

/-- Dropping a batch discards what is staged. -/
def discard (bee : Hyperbee H Sig SK S) : Hyperbee H Sig SK S := { bee with pending := none }

/-- Stage writes in a batch and commit it if asked to; the batch is dropped at the end, also
when a write or the commit fails. -/
def inBatch (ops : List BatchOp) (committed : Bool) :
    EStateM (CoreError (LayoutError E)) (Hyperbee H Sig SK S) (List (Option Bool)) := do
  batch
  let answers ← onError (runEdits c st w (ops.map BatchOp.edit)) discard
  onError (if committed then commit c st w else pure ()) discard
  modify discard
  return answers

/-- An operation of a tree: a write, or a batch of writes that is committed or dropped. -/
inductive BeeOp where
  | edit (e : Edit)
  | batch (ops : List BatchOp) (committed : Bool)

def BeeOp.run : BeeOp → EStateM (CoreError (LayoutError E)) (Hyperbee H Sig SK S) (List (Option Bool))
  | .edit e => runEdits c st w [e]
  | .batch ops committed => inBatch c st w ops committed

def runOps : List BeeOp →
    EStateM (CoreError (LayoutError E)) (Hyperbee H Sig SK S) (List (List (Option Bool)))
  | [] => return []
  | op :: rest => do
    let a ← op.run c st w
    let as ← runOps rest
    return a :: as

/-! ### How nodes are kept -/

variable {c st w} {bee : Hyperbee H Sig SK S} {core : Hypercore H Sig SK S} {ns kept : List Node} {n : Node}

/-- The log of a row of nodes. -/
def logOf (ns : List Node) : Log H := (Log.fresh none).write (ns.map nodeCodec.encode)

omit [DecidableEq H] in
theorem logOf_append (ns more : List Node) :
    (logOf (ns ++ more) : Log H) = (logOf ns).write (more.map nodeCodec.encode) := by
  rw [logOf, logOf, Log.write_write, List.map_append]

omit [DecidableEq H] in
@[simp] theorem length_logOf (ns : List Node) : (logOf ns : Log H).blocks.length = ns.length := by
  simp [logOf, Log.fresh]

variable (c st w) in
/-- The log holds the nodes, and no batch is open. -/
structure Direct (bee : Hyperbee H Sig SK S) (ns : List Node) : Prop where
  pending : bee.pending = none
  coherent : Hypercore.Coherent c st w (logOf ns) bee.core
  fits : ∀ n ∈ ns, Fits n

variable (c st w) in
/-- The log holds the nodes `kept`, and the others are staged. -/
structure Staging (kept : List Node) (bee : Hyperbee H Sig SK S) (ns : List Node) : Prop where
  pending : ∃ staged, ns = kept ++ staged ∧
    bee.pending = some ⟨kept.length, staged.map nodeCodec.encode⟩
  coherent : Hypercore.Coherent c st w (logOf kept) bee.core
  fits : ∀ n ∈ ns, Fits n

/-- A node that may become block `j`. -/
structure Sized (j : ℕ) (n : Node) : Prop where
  entries : n.entries.length < 2 ^ 64
  children : n.children.length < 2 ^ 64
  seq : ∀ c ∈ n.children, c < j

theorem Sized.fits {j : ℕ} (hn : Sized j n) (hj : j < 2 ^ 64) : Fits n :=
  ⟨hn.entries, hn.children, fun c hc => (hn.seq c hc).trans hj⟩

variable (st) in
/-- A write was refused; a store that never fails refuses only what is beyond 64 bits. -/
def Refused (e : CoreError (LayoutError E)) : Prop :=
  ∃ e', e = .storage e' ∧ (st.NeverFails → e' = .overflow)

theorem fits_append (hns : ∀ m ∈ ns, Fits m) (hn : Fits n) : ∀ m ∈ ns ++ [n], Fits m := by
  intro m hm
  rw [List.mem_append, List.mem_singleton] at hm
  rcases hm with hm | rfl
  · exact hns m hm
  · exact hn

/-- The log gives back its nodes. -/
theorem get_core (hcore : Hypercore.Coherent c st w (logOf ns) core) (hns : ∀ n ∈ ns, Fits n) (i : ℕ) :
    core.get (backend w st) nodeCodec i = .ok ns[i]? := by
  have hread : (logOf ns : Log H).read i = ns[i]?.map nodeCodec.encode := by
    rw [logOf, Log.read_write]
    simp [Log.fresh]
  rw [Hypercore.get, hcore.toKept.block, hread]
  cases hi : ns[i]? with
  | none => rfl
  | some n =>
    have hdecode : nodeCodec.decode (nodeCodec.encode n) = .ok n :=
      NodeCodec.decode_encode (hns n (List.mem_of_getElem? hi))
    rw [Option.map_some]
    dsimp only
    rw [hdecode]

theorem Direct.version_eq (h : Direct c st w bee ns) : bee.version = ns.length := by
  rw [version, h.coherent.len_eq, length_logOf]

theorem Direct.node_eq (h : Direct c st w bee ns) {i : ℕ} (hi : ns[i]? = some n) :
    bee.node st w i = .ok n := by
  rw [node, h.pending, get_core h.coherent h.fits, hi]

theorem Direct.rootSeq_eq (h : Direct c st w bee ns) : bee.rootSeq = ns.length.ppred := by
  rw [rootSeq, h.pending, ← h.version_eq]
  rfl

theorem ends_appendNode_direct (hst : st.Lawful) (h : Direct c st w bee ns) (hn : Sized ns.length n) :
    Ends (appendNode c st w n) bee (fun i bee' => i = ns.length ∧ Direct c st w bee' (ns ++ [n]))
      fun e bee' => Refused st e ∧ Direct c st w bee' ns := by
  have hlen : bee.core.len = ns.length := h.version_eq
  unfold appendNode
  apply Ends.get
  rw [h.pending]
  dsimp only
  unfold Ends zoom
  dsimp only
  rcases h.coherent.append_cases nodeCodec hst n with
    ⟨s, core', hput, happend, hcoh, -, -⟩ | ⟨e, s, hput, happend, habove⟩
  · rw [happend]
    have hsmall : ns.length < 2 ^ 64 := by
      obtain ⟨m, bytes, hnum, -⟩ := Backend.ofStore_put_ok hput
      obtain ⟨rfl, hlt⟩ := StoreKey.number_block hnum
      rw [← hlen]
      exact hlt.trans (by decide)
    refine ⟨hlen, h.pending, ?_, fits_append h.fits (hn.fits hsmall)⟩
    rw [logOf_append]
    exact hcoh
  · rw [happend]
    exact ⟨⟨e, rfl, Backend.ofStore_put_error hput⟩, h.pending, h.coherent.above habove, h.fits⟩

theorem keeps_direct (hst : st.Lawful) :
    (keeper c st w).Keeps (Direct c st w) Sized (Refused st) where
  latest h := h.rootSeq_eq
  read h hi := h.node_eq hi
  append h hn := ends_appendNode_direct hst h hn

variable {core₀ : Hypercore H Sig SK S}

/-- Staging leaves the core alone. -/
theorem ends_appendNode_staging (h : Staging c st w kept bee ns ∧ bee.core = core₀) (hn : Sized ns.length n) :
    Ends (appendNode c st w n) bee
      (fun i bee' => i = ns.length ∧ Staging c st w kept bee' (ns ++ [n]) ∧ bee'.core = core₀)
      fun e bee' => Refused st e ∧ Staging c st w kept bee' ns ∧ bee'.core = core₀ := by
  obtain ⟨⟨⟨staged, rfl, hpending⟩, hcoh, hfits⟩, hcore⟩ := h
  unfold appendNode
  apply Ends.get
  rw [hpending]
  dsimp only
  split_ifs with hlt
  · rw [List.length_map] at hlt ⊢
    refine Ends.assign (Ends.pure ⟨by rw [List.length_append], ⟨⟨staged ++ [n], ?_, ?_⟩, hcoh, ?_⟩, hcore⟩)
    · rw [List.append_assoc]
    · simp [Hypercore.stage]
    · refine fits_append hfits (hn.fits ?_)
      rw [List.length_append]
      omega
  · exact Ends.throw ⟨⟨.overflow, rfl, fun _ => rfl⟩, ⟨⟨staged, rfl, hpending⟩, hcoh, hfits⟩, hcore⟩

theorem keeps_staging :
    (keeper c st w).Keeps (fun bee ns => Staging c st w kept bee ns ∧ bee.core = core₀) Sized
    (Refused st) where
  latest {bee ns} h := by
    obtain ⟨⟨⟨staged, rfl, hpending⟩, hcoh, -⟩, -⟩ := h
    show bee.rootSeq = _
    rw [rootSeq, hpending]
    dsimp only
    rw [List.length_map]
    split_ifs with hpos
    · rw [List.length_append, ← Nat.succ_pred_eq_of_pos (show 0 < kept.length + staged.length by omega),
        Nat.ppred_succ]
      rfl
    · obtain rfl : staged = [] := List.eq_nil_of_length_eq_zero (by omega)
      rw [hcoh.len_eq, length_logOf, List.append_nil]
  read {bee ns i n} h hi := by
    obtain ⟨⟨⟨staged, rfl, hpending⟩, hcoh, hfits⟩, -⟩ := h
    have hkept := get_core hcoh fun n hn => hfits n (List.mem_append_left staged hn)
    show bee.node st w i = _
    rw [node, hpending]
    dsimp only
    split_ifs with hle
    · rw [Hypercore.batchGet, if_neg (by simpa using hle)]
      rw [List.getElem?_append_right hle] at hi
      have hdecode : nodeCodec.decode (nodeCodec.encode n) = .ok n :=
        NodeCodec.decode_encode (hfits n (List.mem_append_right _ (List.mem_of_getElem? hi)))
      simp [hi, hdecode]
    · rw [List.getElem?_append_left (by omega)] at hi
      rw [hkept, hi]
  append h hn := ends_appendNode_staging h hn

end Hyperbee
end HypercoreRs
