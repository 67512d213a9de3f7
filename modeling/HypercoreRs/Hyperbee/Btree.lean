/-
# The operations of Hyperbee

An ordered key/value tree in an append-only log: one block is one B-tree node, a child is
the number of a block, and the root is the latest block. A `put` or `del` rewrites the
path from a leaf to the root as new blocks, the root last; what was there before stays
readable.

The operations read nodes and append nodes and do nothing else to the log, so here they
are programs over a log of nodes (`Command.Prog`), function by function as in the source.
A function that follows child pointers gets as fuel the number it starts at and one more:
children have smaller numbers, so it never runs out. An index out of range, an `expect`
that fails and a run without end are all `halt`.
-/
import HypercoreRs.Command.Append
import HypercoreRs.BTree.Tree
import HypercoreRs.Codec.Varint

namespace HypercoreRs

open Std Command BTree

/-- A byte string, no longer than a slice can be. -/
abbrev Bytes := { l : List UInt8 // l.length < 2 ^ 63 }

instance : TransOrd Bytes where
  eq_swap {a b} := (OrientedCmp.eq_swap : compare a.1 b.1 = (compare b.1 a.1).swap)
  isLE_trans {a b c} hab hbc := by
    have hac : (compare a.1 c.1).isLE = true := TransCmp.isLE_trans hab hbc
    exact hac

instance : LawfulEqOrd Bytes where
  compare_self {a} := (ReflCmp.compare_self : compare a.1 a.1 = .eq)
  eq_of_compare {a b} hab := by
    have hab' : compare a.1 b.1 = .eq := hab
    exact Subtype.ext (LawfulEqCmp.eq_of_compare hab')

namespace Hyperbee

/-- A node splits once it would hold this many keys. -/
def MAX_CHILDREN : ℕ := 9

/-- The keys a node other than the root has at least. -/
def MIN_KEYS : ℕ := (MAX_CHILDREN - 1) / 2

/-- A key with its value. -/
abbrev Binding := Bytes × Bytes

/-- A node: its bindings and the blocks of its children. -/
abbrev Node := BTree.Node Binding ℕ

/-! ### The node format -/

namespace NodeCodec

def writeBinding (e : Binding) : List UInt8 :=
  Varint.write e.1.val.length ++ (e.1.val ++ (Varint.write e.2.val.length ++ e.2.val))

def encode (node : Node) : List UInt8 :=
  Varint.write node.entries.length ++ (node.entries.flatMap writeBinding ++
    (Varint.write node.children.length ++ node.children.flatMap Varint.write))

/-- The next `n` bytes; there are never `2 ^ 63` left. -/
def take (b : List UInt8) (n : ℕ) : Except CodecError (Bytes × List UInt8) :=
  if h : n ≤ b.length ∧ n < 2 ^ 63 then
    .ok (⟨b.take n, Nat.lt_of_le_of_lt (List.length_take_le n b) h.2⟩, b.drop n)
  else .error .eof

/-- The loop of `decode` over the entries. -/
def readBindings : ℕ → List UInt8 → Except CodecError (List Binding × List UInt8)
  | 0, b => .ok ([], b)
  | n + 1, b => do
    let (kl, b) ← Varint.read b
    let (k, b) ← take b kl
    let (vl, b) ← Varint.read b
    let (v, b) ← take b vl
    let (rest, b) ← readBindings n b
    return ((k, v) :: rest, b)

/-- The loop of `decode` over the children. -/
def readChildren : ℕ → List UInt8 → Except CodecError (List ℕ × List UInt8)
  | 0, b => .ok ([], b)
  | n + 1, b => do
    let (c, b) ← Varint.read b
    let (rest, b) ← readChildren n b
    return (c :: rest, b)

/-- Bytes after the last child are ignored. -/
def decode (bytes : List UInt8) : Except CodecError Node := do
  let (ne, b) ← Varint.read bytes
  let (entries, b) ← readBindings ne b
  let (nc, b) ← Varint.read b
  let (children, _) ← readChildren nc b
  return ⟨entries, children⟩

end NodeCodec

def nodeCodec : Codec Node := ⟨NodeCodec.encode, NodeCodec.decode⟩

/-! ### Reading -/

/-- The place of `key` among the entries of a node. -/
def search (node : Node) (key : Bytes) : Except ℕ ℕ :=
  binarySearchBy (fun e => compare e.1 key) node.entries

/-- Look `key` up in the subtree at `seq`. -/
def getFrom : ℕ → ℕ → Bytes → Prog Node (Option Bytes)
  | 0, _, _ => .halt
  | fuel + 1, seq, key => do
    let node ← Prog.entry seq
    match search node key with
    | .ok i =>
      let e ← Prog.expect node.entries[i]?
      return some e.2
    | .error i =>
      if node.isLeaf then return none
      else
        let child ← Prog.expect node.children[i]?
        getFrom fuel child key

/-- What `go` gives for each child, with the entries between. -/
def collectAll (go : ℕ → Prog Node (List Binding)) : List Binding → List ℕ → Prog Node (List Binding)
  | _, [] => .halt
  | [], c :: _ => go c
  | e :: es, c :: cs => do
    let l ← go c
    let rest ← collectAll go es cs
    return l ++ e :: rest

/-- The entries of the subtree at `seq`, in order. -/
def collect : ℕ → ℕ → Prog Node (List Binding)
  | 0, _ => .halt
  | fuel + 1, seq => do
    let node ← Prog.entry seq
    if node.isLeaf then return node.entries
    else collectAll (collect fuel) node.entries node.children

/-- Bounds of a range; those not given are open. -/
structure Range where
  gt : Option Bytes
  gte : Option Bytes
  lt : Option Bytes
  lte : Option Bytes
  reverse : Bool
  limit : Option ℕ

/-- No bounds, in order, without a limit. -/
def Range.default : Range := ⟨none, none, none, none, false, none⟩

/-- The bounds admit `k`. -/
def Range.admits (bounds : Range) (k : Bytes) : Bool :=
  bounds.gt.all (fun g => compare k g == .gt) && bounds.gte.all (fun g => compare k g != .lt) &&
    bounds.lt.all (fun l => compare k l == .lt) && bounds.lte.all (fun l => compare k l != .gt)

/-- The bindings within the bounds, in the direction and up to the number they ask for. -/
def Range.select (bounds : Range) (l : List Binding) : List Binding :=
  let kept := l.filter fun e => bounds.admits e.1
  let turned := if bounds.reverse then kept.reverse else kept
  match bounds.limit with
  | none => turned
  | some limit => turned.take limit

/-- All entries under a root, as `bounds` selects them. -/
def rangeFrom (root : Option ℕ) (bounds : Range) : Prog Node (List Binding) := do
  match root with
  | none => return bounds.select []
  | some r =>
    let out ← collect (r + 1) r
    return bounds.select out

/-- The value under a root. -/
def lookup (root : Option ℕ) (key : Bytes) : Prog Node (Option Bytes) :=
  match root with
  | none => return none
  | some r => getFrom (r + 1) r key

def get (key : Bytes) : Prog Node (Option Bytes) := do
  let root ← Prog.root
  lookup root key

def range (bounds : Range) : Prog Node (List Binding) := do
  let root ← Prog.root
  rangeFrom root bounds

/-! ### Inserting -/

/-- What inserting into a subtree leads to: its rewritten root, or two halves and the
entry between them. -/
inductive Ins where
  | down (seq : ℕ)
  | split (left : ℕ) (median : Binding) (right : ℕ)

/-- Append a node, in two halves if it has `MAX_CHILDREN` keys now. -/
def finish (node : Node) : Prog Node Ins := do
  if node.entries.length < MAX_CHILDREN then
    let seq ← Prog.push node
    return .down seq
  else
    let (left, median, right) ← Prog.expect node.split
    let l ← Prog.push left
    let r ← Prog.push right
    return .split l median r

def insert : ℕ → ℕ → Bytes → Bytes → Prog Node Ins
  | 0, _, _, _ => .halt
  | fuel + 1, seq, key, value => do
    let node ← Prog.entry seq
    match search node key with
    | .ok i =>
      -- the key is here: its value is overwritten
      let seq ← Prog.push { node with entries := node.entries.modify i fun e => (e.1, value) }
      return .down seq
    | .error i =>
      if node.isLeaf then finish { node with entries := node.entries.insertIdx i (key, value) }
      else
        let child ← Prog.expect node.children[i]?
        match ← insert fuel child key value with
        | .down child =>
          let seq ← Prog.push { node with children := node.children.set i child }
          return .down seq
        | .split left median right =>
          finish ⟨node.entries.insertIdx i median, (node.children.set i left).insertIdx (i + 1) right⟩

/-- Insert or overwrite `key`. A root that split gets a new root over its halves. -/
def put (key value : Bytes) : Prog Node Unit := do
  match ← Prog.root with
  | none =>
    let _ ← Prog.push ⟨[(key, value)], []⟩
    return ()
  | some root =>
    match ← insert (root + 1) root key value with
    | .down _ => return ()
    | .split left median right =>
      let _ ← Prog.push ⟨[median], [left, right]⟩
      return ()

/-! ### Deleting -/

/-- What deleting from a subtree leads to: nothing, or its rewritten root, possibly with
fewer than `MIN_KEYS` keys. -/
inductive Del where
  | notFound
  | down (seq : ℕ) (underflow : Bool)

/-- Child `i` of a node. -/
def childAt (node : Node) (i : ℕ) : Prog Node Node := do
  let c ← Prog.expect node.children[i]?
  Prog.entry c

/-- Borrow for child `i` from the sibling to its left. -/
def borrowLeft (node : Node) (i : ℕ) (left : Node) : Prog Node Node := do
  let child ← childAt node i
  let sep ← Prog.expect node.entries[i - 1]?
  let (left, up, child) ← Prog.expect (left.rotateRight sep child)
  let l ← Prog.push left
  let c ← Prog.push child
  return ⟨node.entries.set (i - 1) up, (node.children.set (i - 1) l).set i c⟩

/-- Borrow for child `i` from the sibling to its right. -/
def borrowRight (node : Node) (i : ℕ) (right : Node) : Prog Node Node := do
  let child ← childAt node i
  let sep ← Prog.expect node.entries[i]?
  let (child, up, right) ← Prog.expect (child.rotateLeft sep right)
  let c ← Prog.push child
  let r ← Prog.push right
  return ⟨node.entries.set i up, (node.children.set i c).set (i + 1) r⟩

/-- Merge child `i` with its left sibling, or with the right one if it is the first. -/
def merge (node : Node) (i : ℕ) : Prog Node Node := do
  let li := if 0 < i then i - 1 else i
  let left ← childAt node li
  let right ← childAt node (li + 1)
  let sep ← Prog.expect node.entries[li]?
  let merged ← Prog.push (left.join sep right)
  return ⟨node.entries.eraseIdx li, (node.children.eraseIdx (li + 1)).set li merged⟩

/-- The second half of `rebalance`: borrow from the right, or merge. -/
def rebalanceRight (node : Node) (i : ℕ) : Prog Node Node := do
  if i + 1 < node.children.length then
    let right ← childAt node (i + 1)
    if MIN_KEYS < right.entries.length then borrowRight node i right else merge node i
  else merge node i

/-- Restore the fill of the under-full child `i`, from a sibling with keys to spare or by
merging it with one. -/
def rebalance (node : Node) (i : ℕ) : Prog Node Node := do
  if 0 < i then
    let left ← childAt node (i - 1)
    if MIN_KEYS < left.entries.length then borrowLeft node i left else rebalanceRight node i
  else rebalanceRight node i

/-- Rebalance child `i` if it fell below `MIN_KEYS`. -/
def restore (node : Node) (i : ℕ) (childUnder : Bool) : Prog Node Node :=
  if childUnder then rebalance node i else return node

/-- Append a node; returns its block and whether it has too few keys. -/
def settle (node : Node) : Prog Node (ℕ × Bool) := do
  let seq ← Prog.push node
  return (seq, node.entries.length < MIN_KEYS)

/-- Child `i` was rewritten: rebalance it if need be, and append the node. -/
def fixChild (node : Node) (i : ℕ) (childUnder : Bool) : Prog Node Del := do
  let node ← restore node i childUnder
  let (seq, under) ← settle node
  return .down seq under

/-- Remove the smallest entry of the subtree at `seq`. -/
def deleteMin : ℕ → ℕ → Prog Node (Binding × ℕ × Bool)
  | 0, _ => .halt
  | fuel + 1, seq => do
    let node ← Prog.entry seq
    if node.isLeaf then
      let min ← Prog.expect node.entries.head?
      let (seq, under) ← settle { node with entries := node.entries.tail }
      return (min, seq, under)
    else
      let child ← Prog.expect node.children[0]?
      let (min, child, childUnder) ← deleteMin fuel child
      let node ← restore { node with children := node.children.set 0 child } 0 childUnder
      let (seq, under) ← settle node
      return (min, seq, under)

/-- Remove the largest entry of the subtree at `seq`. -/
def deleteMax : ℕ → ℕ → Prog Node (Binding × ℕ × Bool)
  | 0, _ => .halt
  | fuel + 1, seq => do
    let node ← Prog.entry seq
    if node.isLeaf then
      let max ← Prog.expect node.entries.getLast?
      let (seq, under) ← settle { node with entries := node.entries.dropLast }
      return (max, seq, under)
    else
      let last := node.children.length - 1
      let child ← Prog.expect node.children[last]?
      let (max, child, childUnder) ← deleteMax fuel child
      let node ← restore { node with children := node.children.set last child } last childUnder
      let (seq, under) ← settle node
      return (max, seq, under)

/-- The number of keys in the leftmost or the rightmost leaf of the subtree at `seq`. -/
def boundaryLeafLen : ℕ → ℕ → Bool → Prog Node ℕ
  | 0, _, _ => .halt
  | fuel + 1, seq, leftmost => do
    let node ← Prog.entry seq
    if node.isLeaf then return node.entries.length
    else
      let c ← Prog.expect (if leftmost then node.children[0]? else node.children.getLast?)
      boundaryLeafLen fuel c leftmost

/-- Delete entry `i` of an inner node: its neighbour from the boundary leaf with more keys
takes its place. -/
def deleteInner (fuel : ℕ) (node : Node) (i : ℕ) : Prog Node Del := do
  let leftChild ← Prog.expect node.children[i]?
  let rightChild ← Prog.expect node.children[i + 1]?
  let ls ← boundaryLeafLen fuel leftChild false
  let rs ← boundaryLeafLen fuel rightChild true
  if ls < rs then
    let (succ, newRight, under) ← deleteMin fuel rightChild
    fixChild ⟨node.entries.set i succ, node.children.set (i + 1) newRight⟩ (i + 1) under
  else
    let (pred, newLeft, under) ← deleteMax fuel leftChild
    fixChild ⟨node.entries.set i pred, node.children.set i newLeft⟩ i under

def delete : ℕ → ℕ → Bytes → Prog Node Del
  | 0, _, _ => .halt
  | fuel + 1, seq, key => do
    let node ← Prog.entry seq
    match search node key with
    | .ok i =>
      if node.isLeaf then
        let (seq, under) ← settle { node with entries := node.entries.eraseIdx i }
        return .down seq under
      else deleteInner fuel node i
    | .error i =>
      if node.isLeaf then return .notFound
      else
        let child ← Prog.expect node.children[i]?
        match ← delete fuel child key with
        | .notFound => return .notFound
        | .down child under => fixChild { node with children := node.children.set i child } i under

/-- A root that lost its last key to a merge: its only child is appended again, as the
latest block. -/
def shrinkRoot (seq : ℕ) : Prog Node Unit := do
  let node ← Prog.entry seq
  if node.entries.isEmpty && !node.isLeaf then
    let child ← childAt node 0
    let _ ← Prog.push child
    return ()
  else return ()

/-- Delete `key`; returns whether it was there. -/
def del (key : Bytes) : Prog Node Bool := do
  match ← Prog.root with
  | none => return false
  | some root =>
    match ← delete (root + 1) root key with
    | .notFound => return false
    | .down seq _ =>
      shrinkRoot seq
      return true

/-- Put only if the value is as expected; returns whether it was. -/
def putCas (key value : Bytes) (expected : Option Bytes) : Prog Node Bool := do
  let current ← get key
  if current ≠ expected then return false
  else
    put key value
    return true

/-- Delete only if the value is as expected. -/
def delCas (key : Bytes) (expected : Option Bytes) : Prog Node Bool := do
  let current ← get key
  if current ≠ expected then return false else del key

end Hyperbee
end HypercoreRs
