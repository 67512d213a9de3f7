/-
# The autobase linearizer

The data model and the operations of `crates/autobase`: a growing causal DAG of
nodes from many writers (`Linearizer`), its one mutation `add`, the queries on
the DAG (`sees`, `clock`, `heads`, `tails`), the confirmation machine
(`strictlyNewer`, `acks`, `confirms`, `isConfirmed`, `shiftOnce`), the orders
built on it (`confirmedView`, `order`), the quorum degrees and the
reconfiguration of the indexers. Every definition follows the function of
the same name; a `while` loop is a recursion on a fuel that bounds its
iterations.

A writer key is any linearly ordered label: the code never looks inside one. A
`seq` and a clock entry is a natural number.
-/
import HypercoreRs.Graph.Kahn
import HypercoreRs.Graph.Walk

open Std

namespace HypercoreRs

/-- The 32 bytes of a public key, read as a big-endian number: the byte-wise
lexicographic order of keys is the order of these numbers. -/
abbrev WriterKey := Fin (2 ^ 256)

instance WriterKey.neZero : NeZero (2 ^ 256) := inferInstance

/-- The address of a node: its writer and its position in the writer's log. -/
structure NodeId (K : Type) where
  key : K
  seq : ℕ
deriving DecidableEq, Repr

namespace NodeId

variable {K : Type}

@[ext]
theorem ext' {a b : NodeId K} (hk : a.key = b.key) (hs : a.seq = b.seq) : a = b := by
  cases a; cases b; cases hk; cases hs; rfl

/-- `key` first, then `seq`: the tiebreak between concurrent nodes. -/
def toPair (a : NodeId K) : K ×ₗ ℕ := toLex (a.key, a.seq)

theorem toPair_injective : Function.Injective (toPair : NodeId K → K ×ₗ ℕ) := fun a b h => by
  have h' : (a.key, a.seq) = (b.key, b.seq) := toLex.injective h
  exact ext' (congrArg Prod.fst h') (congrArg Prod.snd h')

instance [LinearOrder K] : LinearOrder (NodeId K) where
  __ := PartialOrder.lift toPair toPair_injective
  compare a b := compare a.toPair b.toPair
  le_total a b := le_total a.toPair b.toPair
  toDecidableLE a b := inferInstanceAs (Decidable (a.toPair ≤ b.toPair))
  toDecidableLT a b := inferInstanceAs (Decidable (a.toPair < b.toPair))
  toDecidableEq := inferInstance
  min_def := by intros; rfl
  max_def := by intros; rfl
  compare_eq_compareOfLessAndEq a b := by
    rw [LinearOrder.compare_eq_compareOfLessAndEq]
    unfold compareOfLessAndEq
    simp only [toPair_injective.eq_iff]
    rfl

instance transOrd [LinearOrder K] : Std.TransOrd (NodeId K) := inferInstance

end NodeId

/-- A vector clock: per writer, how many of its nodes were seen (absent is 0). -/
structure Clock (K : Type) [LinearOrder K] where
  lengths : ExtTreeMap K ℕ

namespace Clock

variable {K : Type} [LinearOrder K]

def empty : Clock K := ⟨∅⟩

def get (c : Clock K) (key : K) : ℕ := c.lengths.getD key 0

/-- At least `length` nodes of `key` were seen; false for `length = 0`. -/
def includes (c : Clock K) (key : K) (length : ℕ) : Bool := 0 < length && length ≤ c.get key

/-- Raise the length of `key` to at least `length`. -/
def raise (c : Clock K) (key : K) (length : ℕ) : Clock K :=
  ⟨c.lengths.insert key (if c.get key < length then length else c.get key)⟩

def iter (c : Clock K) : List (K × ℕ) := c.lengths.toList

end Clock

/-- How an indexer relates to a confirmation target. -/
inductive Confirm where
  | unseen
  | newer
  | acked
deriving DecidableEq, Repr

/-- Why a node could not be added. -/
inductive AddError (K : Type) where
  | duplicate (node : NodeId K)
  | gap (writer : K) (expected got : ℕ)
  | missingHead (head : NodeId K)
deriving DecidableEq, Repr

/-- Why a reconfiguration was refused. -/
inductive ReconfigureError (K : Type) where
  | baseShrinks
  | missingNode (node : NodeId K)
  | notCausallyClosed (node missing : NodeId K)
  | duplicate (node : NodeId K)
  | beyondConfirmed (confirmed wanted : ℕ)
deriving DecidableEq, Repr

/-- The causal DAG with its indexers and its pinned base. -/
structure Linearizer (K : Type) [LinearOrder K] where
  deps : ExtTreeMap (NodeId K) (ExtTreeSet (NodeId K))
  dependents : ExtTreeMap (NodeId K) (ExtTreeSet (NodeId K))
  nextSeq : ExtTreeMap K ℕ
  indexers : Option (ExtTreeSet K)
  base : List (NodeId K)
  baseClock : Clock K

namespace Linearizer

variable {K : Type} [LinearOrder K]

def new : Linearizer K := ⟨∅, ∅, ∅, none, [], Clock.empty⟩

def withIndexers (indexers : List K) : Linearizer K :=
  { (new : Linearizer K) with indexers := some (ExtTreeSet.ofList indexers) }

def contains (L : Linearizer K) (id : NodeId K) : Bool := L.deps.contains id

/-- The direct dependencies of `n`, none for an unknown node. -/
def depsOf (L : Linearizer K) (n : NodeId K) : ExtTreeSet (NodeId K) := L.deps.getD n ∅

/-- The dependencies of `node` when it references `heads`: the heads and the
writer's previous node, without `node` itself. -/
def depSet (node : NodeId K) (heads : List (NodeId K)) : ExtTreeSet (NodeId K) :=
  let s := ExtTreeSet.ofList heads
  let s := if 0 < node.seq then s.insert ⟨node.key, node.seq - 1⟩ else s
  s.erase node

/-- The writes of an accepted `add`: the reverse edges, then the node itself. -/
def attach (L : Linearizer K) (node : NodeId K) (ds : ExtTreeSet (NodeId K)) : Linearizer K :=
  let dependents := ds.foldl (fun m d => m.insert d ((m.getD d ∅).insert node)) L.dependents
  { L with
    deps := L.deps.insert node ds
    dependents := dependents.insert node (dependents.getD node ∅)
    nextSeq := L.nextSeq.insert node.key (node.seq + 1) }

/-- Add `node` referencing `heads`: a duplicate, a gap in the writer's log and an
undelivered head are refused. -/
def add (L : Linearizer K) (node : NodeId K) (heads : List (NodeId K)) :
    Linearizer K × Except (AddError K) Unit :=
  if L.deps.contains node then (L, .error (.duplicate node))
  else
    let expected := L.nextSeq.getD node.key 0
    if node.seq ≠ expected then (L, .error (.gap node.key expected node.seq))
    else
      match heads.find? fun h => !L.deps.contains h with
      | some h => (L, .error (.missingHead h))
      | none => (L.attach node (depSet node heads), .ok ())

/-! ### The DAG -/

/-- Nodes without dependents. -/
def heads (L : Linearizer K) : ExtTreeSet (NodeId K) :=
  ExtTreeSet.ofList (L.deps.keys.filter fun n => (L.dependents.getD n ∅).isEmpty)

/-- Nodes without dependencies. -/
def tails (L : Linearizer K) : ExtTreeSet (NodeId K) :=
  ExtTreeSet.ofList (L.deps.keys.filter fun n => (L.depsOf n).isEmpty)

/-- Is `b` in the causal history of `a` (`a` included)? A walk down the
dependencies that stops at a node with `b` among its own. -/
def sees (L : Linearizer K) (a b : NodeId K) : Bool :=
  if a = b then true
  else if !L.contains a || !L.contains b then false
  else (Graph.walk L.depsOf (L.deps.size + 1) [a] ∅).any fun v => (L.depsOf v).contains b

/-- The vector clock of `node`: the walk over its causal history records the
highest `seq` (plus one) of every writer it meets. -/
def clock (L : Linearizer K) (node : NodeId K) : Clock K :=
  if L.contains node then
    (Graph.walk L.depsOf (L.deps.size + 1) [node] {node}).foldl
      (fun c v => c.raise v.key (v.seq + 1)) Clock.empty
  else Clock.empty

/-! ### Plain order -/

/-- Priority Kahn over all nodes. -/
def plainOrder (L : Linearizer K) : List (NodeId K) :=
  let indegree := ExtTreeMap.ofList (L.deps.toList.map fun p => (p.1, p.2.size))
  let frontier := ExtTreeSet.ofList ((indegree.toList.filter fun p => p.2 = 0).map Prod.fst)
  Graph.kahn L.dependents L.deps.size indegree frontier

/-- Priority Kahn over `nodes`: a dependency outside `nodes` or in `emitted` counts
as met. -/
def topoKeyOrder (L : Linearizer K) (nodes emitted : ExtTreeSet (NodeId K)) : List (NodeId K) :=
  let indeg := ExtTreeMap.ofList (nodes.toList.map fun n =>
    (n, (L.depsOf n).toList.countP fun d => nodes.contains d && !emitted.contains d))
  let frontier := ExtTreeSet.ofList ((indeg.toList.filter fun p => p.2 = 0).map Prod.fst)
  Graph.kahn L.dependents nodes.size indeg frontier

/-! ### The DAG predicates of the consensus machine

All are relative to `removed`, the per-writer length already confirmed. -/

/-- `⌊n/2⌋ + 1` of the indexers, `none` when quorum is disabled. -/
def majority (L : Linearizer K) : Option ℕ := L.indexers.map fun ix => ix.size / 2 + 1

/-- The indexers in key order. -/
def indexerList (L : Linearizer K) : List K := (L.indexers.getD ∅).toList

def isIndexer (L : Linearizer K) (key : K) : Bool := (L.indexers.getD ∅).contains key

/-- The latest node of each indexer below `node` (its own previous one for its own
writer), without the removed ones. -/
def mergeHeads (L : Linearizer K) (node : NodeId K) (removed : Clock K) : List (NodeId K) :=
  L.indexerList.filterMap fun idx =>
    let back := 1 + if idx = node.key then 1 else 0
    if (L.clock node).get idx < back then none
    else
      let seq := (L.clock node).get idx - back
      if !L.contains ⟨idx, seq⟩ || removed.includes idx (seq + 1) then none else some ⟨idx, seq⟩

/-- Does `node` join more than one independent indexer branch? -/
def isMerge (L : Linearizer K) (node : NodeId K) (removed : Clock K) : Bool :=
  if L.isIndexer node.key then
    let hs := L.mergeHeads node removed
    1 < hs.countP fun h => !hs.any fun o => o ≠ h && L.sees o h
  else false

/-- The inner loop of `indexerTails`: is `head` newer than none of the tails
(stopping at the first that it is newer than), and which tails are newer than it? -/
def tailScan (L : Linearizer K) (head : NodeId K) : List (NodeId K) → Bool × List (NodeId K)
  | [] => (true, [])
  | t :: ts =>
    if L.sees head t then (false, [])
    else
      let r := tailScan L head ts
      (r.1, if L.sees t head then t :: r.2 else r.2)

/-- One indexer of the outer loop of `indexerTails`. -/
def tailStep (L : Linearizer K) (removed : Clock K) (tails : List (NodeId K)) (idx : K) :
    List (NodeId K) :=
  let head : NodeId K := ⟨idx, removed.get idx⟩
  if !L.contains head || removed.includes head.key (head.seq + 1) then tails
  else
    let r := L.tailScan head tails
    let kept := tails.filter fun t => !r.2.contains t
    if r.1 then kept ++ [head] else kept

/-- The oldest node of each indexer that is not removed, reduced to the minimal
ones. -/
def indexerTails (L : Linearizer K) (removed : Clock K) : ExtTreeSet (NodeId K) :=
  ExtTreeSet.ofList (L.indexerList.foldl (L.tailStep removed) [])

/-- One writer of `strictlyNewer`'s loop over the parent's clock. -/
def newerAt (L : Linearizer K) (object : NodeId K) (oclk removed : Clock K) (e : K × ℕ) : Bool :=
  if L.indexers.any fun ix => !ix.contains e.1 then true
  else
    let oldest := removed.get e.1
    if e.2 ≤ oldest then true
    else
      let length := max (oclk.get e.1) oldest
      if e.2 < length then false
      else if e.2 = length then true
      else if !L.contains ⟨e.1, length⟩ then true
      else L.sees ⟨e.1, length⟩ object

/-- `parent` sees `object`, and what it saw beyond `object` itself sees `object`. -/
def strictlyNewer (L : Linearizer K) (object parent : NodeId K) (removed : Clock K) : Bool :=
  L.sees parent object &&
    (L.clock parent).iter.all (L.newerAt object (L.clock object) removed)

/-- The indexer nodes that vote for `target`. -/
def acks (L : Linearizer K) (target : NodeId K) (removed : Clock K) : List (NodeId K) :=
  (if L.isIndexer target.key then [target] else []) ++
    L.indexerList.filterMap fun idx =>
      if idx = target.key then none
      else
        let node : NodeId K := ⟨idx, max ((L.clock target).get idx) (removed.get idx)⟩
        if L.contains node && L.sees node target && L.strictlyNewer target node removed then
          some node
        else none

/-! ### The confirmation predicates -/

/-- The number of nodes of `key`. -/
def indexerLength (L : Linearizer K) (key : K) : ℕ := L.nextSeq.getD key 0

/-- How many of `acks` the node `head` sees. -/
def ackCount (L : Linearizer K) (acks : List (NodeId K)) (head : NodeId K) : ℕ :=
  acks.countP fun a => L.sees head a

/-- The loop of `confirms` over the nodes of `indexer` below the first argument,
newest first; `newer` is still true at the newest one. -/
def confirmsLoop (L : Linearizer K) (majority : ℕ) (indexer : K) (target : NodeId K)
    (acks : List (NodeId K)) (removed : Clock K) : ℕ → Bool → Confirm
  | 0, _ => .unseen
  | i + 1, newer =>
    let head : NodeId K := ⟨indexer, i⟩
    if !L.contains head then .unseen
    else if !newer && L.ackCount acks head < majority then .unseen
    else if !L.strictlyNewer target head removed then
      confirmsLoop L majority indexer target acks removed i false
    else if L.ackCount acks head < majority then .newer
    else .acked

/-- How `indexer` relates to confirming `target`, over its nodes below `length`. -/
def confirms (L : Linearizer K) (indexer : K) (target : NodeId K) (acks : List (NodeId K))
    (length : ℕ) (removed : Clock K) : Confirm :=
  match L.majority with
  | none => .unseen
  | some majority =>
    if length = 0 || length ≤ removed.get indexer then .unseen
    else L.confirmsLoop majority indexer target acks removed length true

/-- The loop of `ackedAt`: `seen` acks so far, with an early no once the rest
cannot reach a majority. -/
def ackedAtLoop (L : Linearizer K) (majority : ℕ) (parent : NodeId K) :
    List (NodeId K) → ℕ → Bool
  | [], _ => false
  | node :: missing, seen =>
    if !L.sees parent node then
      if seen + missing.length < majority then false else ackedAtLoop L majority parent missing seen
    else if majority ≤ seen + 1 then true
    else ackedAtLoop L majority parent missing (seen + 1)

/-- Does `parent` see a majority of `acks`? -/
def ackedAt (L : Linearizer K) (acks : List (NodeId K)) (parent : NodeId K) : Bool :=
  match L.majority with
  | none => false
  | some majority => L.ackedAtLoop majority parent acks 0

/-- Can `indexer`, which does not confirm `target` below `parent`, still do so? -/
def mayConfirm (L : Linearizer K) (target parent : NodeId K) (removed : Clock K) (indexer : K) :
    Bool :=
  let length := (L.clock parent).get indexer
  if !(L.clock target).includes indexer length && 1 ≤ length then
    let head : NodeId K := ⟨indexer, length - 1⟩
    !(L.contains head && !removed.includes head.key (head.seq + 1) &&
      !L.strictlyNewer target head removed)
  else true

/-- The loop of `isConfirmableAt` over the indexers, from `potential` on. -/
def potentialLoop (L : Linearizer K) (majority : ℕ) (target parent : NodeId K)
    (confs : ExtTreeSet K) (removed : Clock K) : List K → ℕ → Bool
  | [], _ => false
  | indexer :: rest, potential =>
    if confs.contains indexer || !L.mayConfirm target parent removed indexer then
      potentialLoop L majority target parent confs removed rest potential
    else if majority ≤ potential + 1 then true
    else potentialLoop L majority target parent confs removed rest (potential + 1)

/-- Can `target` still be confirmed below `parent`, when `confs` confirm it? -/
def isConfirmableAt (L : Linearizer K) (target parent : NodeId K) (acks : List (NodeId K))
    (confs : ExtTreeSet K) (removed : Clock K) : Bool :=
  match L.majority with
  | none => false
  | some majority =>
    L.ackedAt acks parent &&
      L.potentialLoop majority target parent confs removed L.indexerList confs.size

/-- The nodes of `indexer` that count when confirming below `parent`: all of them
at the top level, else what `parent` saw, itself excluded. -/
def confirmLength (L : Linearizer K) (parent : Option (NodeId K)) (indexer : K) : ℕ :=
  match parent with
  | some p => if p.key = indexer then p.seq else (L.clock p).get indexer
  | none => L.indexerLength indexer

/-- The loop of `isConfirmed` over the indexers: `none` once a majority acked,
else the indexers that did and whether none was unseen. -/
def confirmLoop (L : Linearizer K) (majority : ℕ) (target : NodeId K)
    (parent : Option (NodeId K)) (acks : List (NodeId K)) (removed : Clock K) :
    List K → ExtTreeSet K → Bool → Option (ExtTreeSet K × Bool)
  | [], confs, allNewer => some (confs, allNewer)
  | indexer :: rest, confs, allNewer =>
    match L.confirms indexer target acks (L.confirmLength parent indexer) removed with
    | .acked =>
      if majority ≤ (confs.insert indexer).size then none
      else confirmLoop L majority target parent acks removed rest (confs.insert indexer) allNewer
    | .unseen => confirmLoop L majority target parent acks removed rest confs false
    | .newer => confirmLoop L majority target parent acks removed rest confs allNewer

/-- Is `target` confirmed: at the top level, or as seen from `parent`? -/
def isConfirmed (L : Linearizer K) (target : NodeId K) (parent : Option (NodeId K))
    (removed : Clock K) : Bool :=
  match L.majority with
  | none => false
  | some majority =>
    let acks := L.acks target removed
    if acks.length < majority then false
    else
      match L.confirmLoop majority target parent acks removed L.indexerList ∅ true with
      | none => true
      | some (confs, allNewer) =>
        match parent with
        | some p => L.isConfirmableAt target p acks confs removed
        | none => allNewer

/-! ### The shift driver -/

/-- The unconfirmed merges, in key order. -/
def mergeNodes (L : Linearizer K) (removed : Clock K) : List (NodeId K) :=
  L.deps.keys.filter fun n =>
    L.isIndexer n.key && !removed.includes n.key (n.seq + 1) && L.isMerge n removed

def tailsSeen (L : Linearizer K) (node : NodeId K) (tails : ExtTreeSet (NodeId K)) :
    List (NodeId K) :=
  tails.toList.filter fun t => L.sees node t

/-- The tails `node` sees, then the other merges it sees. -/
def tailsAndMergesSeen (L : Linearizer K) (node : NodeId K) (tails : ExtTreeSet (NodeId K))
    (removed : Clock K) : List (NodeId K) :=
  (L.mergeNodes removed).foldl
    (fun all m => if m ≠ node && L.sees node m && !all.contains m then all ++ [m] else all)
    (L.tailsSeen node tails)

/-- Raise `removed` over a batch. -/
def raiseAll (removed : Clock K) (batch : List (NodeId K)) : Clock K :=
  batch.foldl (fun c t => c.raise t.key (t.seq + 1)) removed

/-- Resolve a confirmed merge: descend into the first arm confirmed as seen from
the current node; at a tail yield it, with no such arm yield every tail below. -/
def yieldNext (L : Linearizer K) (tails : ExtTreeSet (NodeId K)) (removed : Clock K) :
    ℕ → NodeId K → List (NodeId K)
  | 0, _ => []
  | fuel + 1, node =>
    if tails.contains node then [node]
    else
      match (L.tailsAndMergesSeen node tails removed).find? fun t =>
          L.isConfirmed t (some node) removed with
      | some t => yieldNext L tails removed fuel t
      | none => L.tailsSeen node tails

/-- The nodes one `shift` yields: the first confirmed tail, else what the first
confirmed merge resolves to, else nothing. -/
def shiftBatch (L : Linearizer K) (removed : Clock K) : List (NodeId K) :=
  let tails := L.indexerTails removed
  match tails.toList.find? fun t => L.isConfirmed t none removed with
  | some tail => [tail]
  | none =>
    match (L.mergeNodes removed).find? fun m => L.isConfirmed m none removed with
    | some merge => L.yieldNext tails removed (L.deps.size + 1) merge
    | none => []

/-- One `shift`: the batch, and `removed` raised over it. -/
def shiftOnce (L : Linearizer K) (removed : Clock K) : List (NodeId K) × Clock K :=
  (L.shiftBatch removed, raiseAll removed (L.shiftBatch removed))

/-- The loop of `confirmedPrefix`: shift until nothing more confirms. -/
def prefixLoop (L : Linearizer K) : ℕ → Clock K → List (NodeId K) → List (NodeId K)
  | 0, _, out => out
  | fuel + 1, removed, out =>
    let s := L.shiftOnce removed
    if s.1.isEmpty then out else prefixLoop L fuel s.2 (out ++ s.1)

/-- The confirmed indexer sequence, from the pinned base on. -/
def confirmedPrefix (L : Linearizer K) : List (NodeId K) :=
  if L.majority.isNone then L.base
  else L.prefixLoop (L.deps.size + 1) L.baseClock L.base

/-- The number of edges of the DAG. -/
def edgeCount (L : Linearizer K) : ℕ := (L.deps.toList.map fun p => p.2.size).sum

/-- The causal closure of a batch, without what was emitted. -/
def freshClosure (L : Linearizer K) (emitted : ExtTreeSet (NodeId K)) (batch : List (NodeId K)) :
    ExtTreeSet (NodeId K) :=
  Graph.closure L.depsOf emitted (batch.length + L.edgeCount) batch.reverse ∅

/-- The loop of `confirmedView`: each batch brings its causal closure, in key-tiebreak
topological order. -/
def viewLoop (L : Linearizer K) :
    ℕ → Clock K → ExtTreeSet (NodeId K) → List (NodeId K) → List (NodeId K)
  | 0, _, _, out => out
  | fuel + 1, removed, emitted, out =>
    let s := L.shiftOnce removed
    if s.1.isEmpty then out
    else
      let ordered := L.topoKeyOrder (L.freshClosure emitted s.1) emitted
      viewLoop L fuel s.2 (emitted.insertMany ordered) (out ++ ordered)

/-- The full indexed view: the pinned base, then every confirmed batch with the
non-indexer nodes it covers. -/
def confirmedView (L : Linearizer K) : List (NodeId K) :=
  if L.majority.isNone then L.base
  else L.viewLoop (L.deps.size + 1) L.baseClock (ExtTreeSet.ofList L.base) L.base

def finalized (L : Linearizer K) : List (NodeId K) := L.confirmedView

/-- The linearization: the confirmed view, then the other nodes in key-tiebreak
topological order. -/
def order (L : Linearizer K) : List (NodeId K) :=
  let confirmed := L.confirmedView
  if confirmed.isEmpty then L.plainOrder
  else
    let emitted := ExtTreeSet.ofList confirmed
    let remaining := ExtTreeSet.ofList (L.deps.keys.filter fun n => !emitted.contains n)
    confirmed ++ L.topoKeyOrder remaining emitted

/-! ### Quorum degrees -/

/-- Raise the degree of one indexer to at least `e.2`. -/
def raiseDegree (m : ExtTreeMap K ℕ) (e : K × ℕ) : ExtTreeMap K ℕ :=
  m.insert e.1 (if m.getD e.1 e.2 < e.2 then e.2 else m.getD e.1 e.2)

/-- How many indexers other than `author` reached `level`, by `pre`. -/
def vouchers (L : Linearizer K) (author : K) (pre : ExtTreeMap K ℕ) (level : ℕ) : ℕ :=
  L.indexerList.countP fun w => w ≠ author && pre[w]?.any fun d => level ≤ d

/-- The level loop: `deg` is the degree reached, `d` the one under test. It has no
bound in the code; `none` is a loop that outlives the fuel. -/
def levelLoop (L : Linearizer K) (m selfVote : ℕ) (author : K) (pre : ExtTreeMap K ℕ) :
    ℕ → ℕ → ℕ → Option ℕ
  | 0, _, _ => none
  | fuel + 1, d, deg =>
    if m ≤ L.vouchers author pre (d - 1) + selfVote then
      levelLoop L m selfVote author pre fuel (d + 1) d
    else some deg

/-- The tables of `quorumDegree`'s pass over the nodes. -/
structure Degrees (K : Type) [LinearOrder K] where
  bestdeg : ExtTreeMap (NodeId K) (ExtTreeMap K ℕ)
  seesx : ExtTreeMap (NodeId K) Bool
  maxDegree : ℕ

/-- Does `v` see the target: is it the target, or does a dependency see it? -/
def seesTarget (L : Linearizer K) (target : NodeId K) (st : Degrees K) (v : NodeId K) : Bool :=
  v = target || (L.depsOf v).toList.any fun d => st.seesx.getD d false

/-- The best degrees in the tables of the dependencies of `v`. -/
def preDegrees (L : Linearizer K) (st : Degrees K) (v : NodeId K) : ExtTreeMap K ℕ :=
  (L.depsOf v).toList.foldl (fun pre d => (st.bestdeg.getD d ∅).toList.foldl raiseDegree pre) ∅

/-- What the pass records for `v`, of degree `degV`. -/
def recordDegree (L : Linearizer K) (target : NodeId K) (st : Degrees K) (v : NodeId K)
    (degV : ℕ) : Degrees K :=
  let seesTarget := L.seesTarget target st v
  let pre := L.preDegrees st v
  { bestdeg := st.bestdeg.insert v
      (if seesTarget && L.isIndexer v.key then raiseDegree pre (v.key, degV) else pre)
    seesx := st.seesx.insert v seesTarget
    maxDegree := if seesTarget && st.maxDegree < degV then degV else st.maxDegree }

/-- One node of the pass. -/
def degreeStep (L : Linearizer K) (m : ℕ) (target : NodeId K) (st : Degrees K) (v : NodeId K) :
    Option (Degrees K) :=
  let selfVote := if L.isIndexer v.key then 1 else 0
  let degree :=
    if L.seesTarget target st v then
      L.levelLoop m selfVote v.key (L.preDegrees st v) (L.deps.size + 2) 1 0
    else some 0
  degree.map (L.recordDegree target st v)

/-- The highest quorum degree any node witnesses over `target`; `none` when a level
loop does not end. -/
def quorumDegree (L : Linearizer K) (target : NodeId K) : Option ℕ :=
  match L.majority with
  | none => some 0
  | some m =>
    if !L.contains target then some 0
    else (L.plainOrder.foldlM (L.degreeStep m target) ⟨∅, ∅, 0⟩).map Degrees.maxDegree

/-! ### Reconfiguration -/

/-- The first pass of `reconfigureAt`: every node of the base is delivered and
listed once. -/
def checkMembers (L : Linearizer K) : List (NodeId K) → ExtTreeSet (NodeId K) →
    Except (ReconfigureError K) (ExtTreeSet (NodeId K))
  | [], members => .ok members
  | node :: rest, members =>
    if !L.deps.contains node then .error (.missingNode node)
    else if members.contains node then .error (.duplicate node)
    else checkMembers L rest (members.insert node)

/-- The second pass: every dependency is a member; the clock of the base is built
on the way. -/
def checkClosed (L : Linearizer K) (members : ExtTreeSet (NodeId K)) :
    List (NodeId K) → Clock K → Except (ReconfigureError K) (Clock K)
  | [], clock => .ok clock
  | node :: rest, clock =>
    match (L.depsOf node).toList.find? fun dep => !members.contains dep with
    | some dep => .error (.notCausallyClosed node dep)
    | none => checkClosed L members rest (clock.raise node.key (node.seq + 1))

/-- Pin `base` and go on with `indexers`. -/
def reconfigureAt (L : Linearizer K) (base : List (NodeId K)) (indexers : List K) :
    Linearizer K × Except (ReconfigureError K) Unit :=
  if !L.base.isPrefixOf base then (L, .error .baseShrinks)
  else
    match L.checkMembers base ∅ with
    | .error e => (L, .error e)
    | .ok members =>
      match L.checkClosed members base Clock.empty with
      | .error e => (L, .error e)
      | .ok clock =>
        ({ L with
            base := base
            baseClock := clock
            indexers := some (ExtTreeSet.ofList indexers) }, .ok ())

/-- Pin the first `through` nodes of the confirmed view. -/
def reconfigure (L : Linearizer K) (through : ℕ) (indexers : List K) :
    Linearizer K × Except (ReconfigureError K) Unit :=
  let confirmed := L.confirmedView
  if confirmed.length < through then (L, .error (.beyondConfirmed confirmed.length through))
  else L.reconfigureAt (confirmed.take through) indexers

end Linearizer
end HypercoreRs
