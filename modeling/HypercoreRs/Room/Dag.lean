/-
# Causal delivery

The part of a room that orders entries: the linearizer, the payload of every
delivered node, and the entries that wait for their dependencies. `tryAddNode`
offers one entry; `drainPending` retries the waiting ones, pass after pass, until a
pass moves nothing.

Two things are shown. `Dag.Move` says what these operations can do, whatever they
are offered: deliver an entry that is held or waits, or change what waits among
such entries. And they are complete: `Accounted held d` says that every held entry
is delivered or waits, once; offering a new entry keeps it (`Accounted.offer`),
draining keeps it and leaves no entry that could be delivered
(`Accounted.drain`, `closed_drainPending`). In such a state the delivered nodes
are the causally deliverable ones, the least set closed under "held, with its
predecessor and its heads in the set" (`Accounted.mem_iff`), and so two states
that account for the same entries have the same linearizer (`Accounted.lin_eq`).
-/
import HypercoreRs.Autobase.Converge
import HypercoreRs.Room.Entry

namespace HypercoreRs

open Std Linearizer

/-- The causal DAG with its payloads and what waits to join it. -/
structure Dag (K : Type) [LinearOrder K] where
  lin : Linearizer K
  /-- The payload of each delivered node. -/
  payloads : ExtTreeMap (NodeId K) (List UInt8)
  /-- Accepted entries whose causal dependencies are missing. -/
  pending : List (NodeId K × Entry K)

namespace Dag

variable {K : Type} [LinearOrder K]

/-- Try to add one node to the DAG; buffer it if its causal dependencies are
missing. -/
def tryAddNode (d : Dag K) (node : NodeId K) (entry : Entry K) : Dag K :=
  match d.lin.add node entry.heads with
  | (lin, .ok ()) => { d with lin, payloads := d.payloads.insert node entry.payload }
  | (lin, .error (.duplicate _)) => { d with lin }
  | (lin, .error _) => { d with lin, pending := d.pending ++ [(node, entry)] }

/-- One retry: the DAG, what still waits, and whether anything moved. -/
def retry (st : Dag K × List (NodeId K × Entry K) × Bool) (p : NodeId K × Entry K) :
    Dag K × List (NodeId K × Entry K) × Bool :=
  match st.1.lin.add p.1 p.2.heads with
  | (lin, .ok ()) =>
    ({ st.1 with lin, payloads := st.1.payloads.insert p.1 p.2.payload }, st.2.1, true)
  | (lin, .error (.duplicate _)) => ({ st.1 with lin }, st.2.1, true)
  | (lin, .error _) => ({ st.1 with lin }, st.2.1 ++ [p], st.2.2)

/-- One pass over the buffered entries. -/
def drainPass (d : Dag K) : Dag K × Bool :=
  let st := d.pending.foldl retry ({ d with pending := [] }, [], false)
  ({ st.1 with pending := st.2.1 }, st.2.2)

/-- Passes until one moves nothing. -/
def drainLoop : ℕ → Dag K → Dag K
  | 0, d => d
  | fuel + 1, d => if d.drainPass.2 then drainLoop fuel d.drainPass.1 else d.drainPass.1

/-- Retry buffered entries until no further progress. A pass that moves something
leaves fewer of them, so the fuel is enough. -/
def drainPending (d : Dag K) : Dag K := drainLoop (d.pending.length + 1) d

/-! ### What an offer and a retry do -/

/-- An entry that is refused lacks its predecessor or a head, or is there already. -/
theorem add_cases (L : Linearizer K) (n : NodeId K) (heads : List (NodeId K)) :
    (∃ L', L.add n heads = (L', .ok ())) ∨ (∃ m, n ∈ L.deps ∧ L.add n heads = (L, .error (.duplicate m))) ∨
      ∃ e, n ∉ L.deps ∧ L.add n heads = (L, .error e) ∧ ∀ m, e ≠ .duplicate m := by
  unfold Linearizer.add
  by_cases hdup : L.deps.contains n = true
  · rw [if_pos hdup]
    exact Or.inr (Or.inl ⟨n, hdup, rfl⟩)
  · rw [if_neg hdup]
    dsimp only
    split_ifs with hseq
    · exact Or.inr (Or.inr ⟨_, hdup, rfl, fun _ => (nomatch ·)⟩)
    · cases hfind : heads.find? fun h => !L.deps.contains h with
      | none => exact Or.inl ⟨_, rfl⟩
      | some h => exact Or.inr (Or.inr ⟨_, hdup, rfl, fun _ => (nomatch ·)⟩)

theorem tryAddNode_cases (d : Dag K) (n : NodeId K) (e : Entry K) :
    (∃ lin, d.lin.add n e.heads = (lin, .ok ()) ∧
        d.tryAddNode n e = { d with lin, payloads := d.payloads.insert n e.payload }) ∨
      n ∈ d.lin.deps ∧ d.tryAddNode n e = d ∨
      n ∉ d.lin.deps ∧ d.tryAddNode n e = { d with pending := d.pending ++ [(n, e)] } := by
  unfold tryAddNode
  obtain ⟨lin, h⟩ | ⟨m, hn, h⟩ | ⟨err, hn, h, hne⟩ := add_cases d.lin n e.heads
  · exact Or.inl ⟨lin, h, by rw [h]⟩
  · exact Or.inr (Or.inl ⟨hn, by rw [h]⟩)
  · refine Or.inr (Or.inr ⟨hn, ?_⟩)
    rw [h]
    cases err with
    | duplicate m => exact absurd rfl (hne m)
    | gap => rfl
    | missingHead => rfl

theorem retry_cases (d : Dag K) (still : List (NodeId K × Entry K)) (moved : Bool)
    (p : NodeId K × Entry K) :
    (∃ lin, d.lin.add p.1 p.2.heads = (lin, .ok ()) ∧ retry (d, still, moved) p =
        ({ d with lin, payloads := d.payloads.insert p.1 p.2.payload }, still, true)) ∨
      p.1 ∈ d.lin.deps ∧ retry (d, still, moved) p = (d, still, true) ∨
      p.1 ∉ d.lin.deps ∧ (∀ lin, d.lin.add p.1 p.2.heads ≠ (lin, .ok ())) ∧
        retry (d, still, moved) p = (d, still ++ [p], moved) := by
  unfold retry
  obtain ⟨lin, h⟩ | ⟨m, hn, h⟩ | ⟨err, hn, h, hne⟩ := add_cases d.lin p.1 p.2.heads
  · exact Or.inl ⟨lin, h, by rw [h]⟩
  · exact Or.inr (Or.inl ⟨hn, by rw [h]⟩)
  · refine Or.inr (Or.inr ⟨hn, fun lin hlin => ?_, ?_⟩)
    · rw [h] at hlin
      cases hlin
    · rw [h]
      cases err with
      | duplicate m => exact absurd rfl (hne m)
      | gap => rfl
      | missingHead => rfl

/-- One change of the DAG, when the entries of `held` may be offered to it. -/
inductive Move (held : NodeId K → Entry K → Prop) : Dag K → Dag K → Prop
  /-- An entry that is held or waits is delivered. -/
  | deliver {d : Dag K} {n : NodeId K} {e : Entry K} {lin : Linearizer K} :
      held n e ∨ (n, e) ∈ d.pending → d.lin.add n e.heads = (lin, .ok ()) →
      Move held d { d with lin, payloads := d.payloads.insert n e.payload }
  /-- What waits is held, or waited before. -/
  | buffer {d : Dag K} {pending : List (NodeId K × Entry K)} :
      (∀ p ∈ pending, held p.1 p.2 ∨ p ∈ d.pending) → Move held d { d with pending }

/-- Any number of changes. -/
abbrev Moves (held : NodeId K → Entry K → Prop) : Dag K → Dag K → Prop :=
  Relation.ReflTransGen (Move held)

variable {held : NodeId K → Entry K → Prop} {d : Dag K}

theorem moves_tryAddNode {n : NodeId K} {e : Entry K} (h : held n e) :
    Moves held d (d.tryAddNode n e) := by
  obtain ⟨lin, hadd, heq⟩ | ⟨-, heq⟩ | ⟨-, heq⟩ := d.tryAddNode_cases n e
  · rw [heq]
    exact .single (.deliver (Or.inl h) hadd)
  · rw [heq]
  · rw [heq]
    refine .single (.buffer fun p hp => ?_)
    obtain hp | hp := List.mem_append.mp hp
    · exact Or.inr hp
    · rw [List.mem_singleton.mp hp]
      exact Or.inl h

-- During a pass the buffer is empty; the entries are those of the buffer before it,
-- so the pass is retold with the buffer in place until its end.
theorem foldl_retry_moves {d₀ : Dag K} : ∀ (rest still : List (NodeId K × Entry K)) (d : Dag K)
    (moved : Bool), Moves held d₀ { d with pending := d₀.pending } →
    (∀ p ∈ still, p ∈ d₀.pending) → (∀ p ∈ rest, p ∈ d₀.pending) →
    Moves held d₀ { (rest.foldl retry (d, still, moved)).1 with
      pending := (rest.foldl retry (d, still, moved)).2.1 }
  | [], still, d, moved, hd, hstill, _ => hd.tail (.buffer fun p hp => Or.inr (hstill p hp))
  | p :: rest, still, d, moved, hd, hstill, hrest => by
    have hp := hrest p List.mem_cons_self
    have hrest' : ∀ q ∈ rest, q ∈ d₀.pending := fun q hq => hrest q (List.mem_cons_of_mem _ hq)
    rw [List.foldl_cons]
    obtain ⟨lin, hadd, heq⟩ | ⟨-, heq⟩ | ⟨-, -, heq⟩ := retry_cases d still moved p
    · rw [heq]
      refine foldl_retry_moves rest still _ true (hd.tail ?_) hstill hrest'
      exact Move.deliver (d := { d with pending := d₀.pending }) (Or.inr hp) hadd
    · rw [heq]
      exact foldl_retry_moves rest still d true hd hstill hrest'
    · rw [heq]
      refine foldl_retry_moves rest (still ++ [p]) d moved hd (fun q hq => ?_) hrest'
      obtain hq | hq := List.mem_append.mp hq
      · exact hstill q hq
      · rw [List.mem_singleton.mp hq]
        exact hp

theorem moves_drainPass (d : Dag K) : Moves held d d.drainPass.1 :=
  foldl_retry_moves d.pending [] { d with pending := [] } false .refl
    (fun _ hp => absurd hp List.not_mem_nil) fun _ hp => hp

theorem moves_drainLoop : ∀ (fuel : ℕ) (d : Dag K), Moves held d (drainLoop fuel d)
  | 0, _ => .refl
  | fuel + 1, d => by
    rw [drainLoop]
    split_ifs
    · exact (moves_drainPass d).trans (moves_drainLoop fuel _)
    · exact moves_drainPass d

theorem moves_drainPending (d : Dag K) : Moves held d d.drainPending := moves_drainLoop _ d

/-! ### The retries end -/

/-- The linearizer refuses every waiting entry. -/
def Closed (d : Dag K) : Prop :=
  ∀ p ∈ d.pending, ∀ lin, d.lin.add p.1 p.2.heads ≠ (lin, .ok ())

/-- A pass that moves nothing changes nothing, and every entry was refused; one that
moves something leaves fewer entries. -/
theorem foldl_retry_progress : ∀ (rest still : List (NodeId K × Entry K)) (d : Dag K) (moved : Bool),
    let st := rest.foldl retry (d, still, moved)
    (st.2.2 = false → moved = false ∧ st.1 = d ∧ st.2.1 = still ++ rest ∧
      ∀ p ∈ rest, ∀ lin, d.lin.add p.1 p.2.heads ≠ (lin, .ok ())) ∧
    st.2.1.length ≤ still.length + rest.length ∧
    (st.2.2 = true → moved = true ∨ st.2.1.length < still.length + rest.length)
  | [], still, d, moved => by simp
  | p :: rest, still, d, moved => by
    rw [List.foldl_cons]
    obtain ⟨lin, hadd, heq⟩ | ⟨-, heq⟩ | ⟨-, hrefused, heq⟩ := retry_cases d still moved p
    · rw [heq]
      obtain ⟨hsame, hle, -⟩ := foldl_retry_progress rest still
        { d with lin, payloads := d.payloads.insert p.1 p.2.payload } true
      refine ⟨fun h => Bool.noConfusion (hsame h).1, ?_, fun _ => Or.inr ?_⟩
      · rw [List.length_cons]; omega
      · rw [List.length_cons]; omega
    · rw [heq]
      obtain ⟨hsame, hle, -⟩ := foldl_retry_progress rest still d true
      refine ⟨fun h => Bool.noConfusion (hsame h).1, ?_, fun _ => Or.inr ?_⟩
      · rw [List.length_cons]; omega
      · rw [List.length_cons]; omega
    · rw [heq]
      obtain ⟨hsame, hle, hless⟩ := foldl_retry_progress rest (still ++ [p]) d moved
      rw [List.length_append, List.length_singleton] at hle hless
      refine ⟨fun h => ?_, ?_, fun h => ?_⟩
      · obtain ⟨hm, hd, hstill, hrest⟩ := hsame h
        refine ⟨hm, hd, by rw [hstill, List.append_assoc]; rfl, fun q hq => ?_⟩
        obtain rfl | hq := List.mem_cons.mp hq
        · exact hrefused
        · exact hrest q hq
      · rw [List.length_cons]; omega
      · rw [List.length_cons]
        exact (hless h).imp_right fun h => by omega

theorem closed_of_not_moved (h : d.drainPass.2 = false) : Closed d.drainPass.1 := by
  obtain ⟨hsame, -, -⟩ := foldl_retry_progress d.pending [] { d with pending := [] } false
  obtain ⟨-, hd, hstill, hrefused⟩ := hsame h
  intro p hp lin
  have hp' : p ∈ d.pending := by
    change p ∈ (d.pending.foldl retry ({ d with pending := [] }, [], false)).2.1 at hp
    rwa [hstill, List.nil_append] at hp
  show (d.pending.foldl retry ({ d with pending := [] }, [], false)).1.lin.add _ _ ≠ _
  rw [hd]
  exact hrefused p hp' lin

theorem closed_drainLoop : ∀ (fuel : ℕ) (d : Dag K), d.pending.length < fuel → Closed (drainLoop fuel d)
  | 0, _, h => absurd h (Nat.not_lt_zero _)
  | fuel + 1, d, h => by
    rw [drainLoop]
    split_ifs with hmoved
    · obtain ⟨-, -, hless⟩ := foldl_retry_progress d.pending [] { d with pending := [] } false
      have hlt : d.drainPass.1.pending.length < d.pending.length := by
        have := hless hmoved
        rw [List.length_nil, Nat.zero_add] at this
        exact this.resolve_left Bool.false_ne_true
      exact closed_drainLoop fuel _ (by omega)
    · exact closed_of_not_moved (Bool.eq_false_iff.mpr hmoved)

/-- After draining, no waiting entry could be delivered. -/
theorem closed_drainPending (d : Dag K) : Closed d.drainPending :=
  closed_drainLoop _ d (Nat.lt_succ_self _)

/-! ### Every held entry is delivered or waits -/

/-- From `init`, the entries of `held` and no others were delivered or wait, each
one once. -/
structure Accounted (init : Linearizer K) (held : NodeId K → Entry K → Prop) (d : Dag K) : Prop where
  adds : ∃ acc, Adds init acc d.lin ∧ ∀ p ∈ acc, ∃ e, held p.1 e ∧ e.heads = p.2
  waits : ∀ p ∈ d.pending, held p.1 p.2 ∧ p.1 ∉ d.lin.deps
  nodup : (d.pending.map Prod.fst).Nodup
  covers : ∀ n e, held n e → n ∈ d.lin.deps ∨ (n, e) ∈ d.pending

section Accounting

variable {init : Linearizer K}

theorem Accounted.congr {held' : NodeId K → Entry K → Prop} (h : Accounted init held d)
    (hh : ∀ n e, held n e ↔ held' n e) : Accounted init held' d := by
  obtain rfl : held = held' := by
    funext n e
    exact propext (hh n e)
  exact h

variable {n : NodeId K}

/-- A delivered node is held. -/
theorem Accounted.held_of_mem (h0 : Run [] init) (h : Accounted init held d) (hn : n ∈ d.lin.deps) :
    ∃ e, held n e := by
  obtain ⟨acc, hadds, hacc⟩ := h.adds
  rw [(hadds.run h0).valid.holds.mem, List.mem_map] at hn
  obtain ⟨p, hp, rfl⟩ := hn
  obtain ⟨e, he, -⟩ := hacc p hp
  exact ⟨e, he⟩

/-- A waiting entry the linearizer accepts is delivered. -/
theorem Accounted.deliver {l₁ l₂ : List (NodeId K × Entry K)} {p : NodeId K × Entry K}
    {lin : Linearizer K} (h : Accounted init held { d with pending := l₁ ++ p :: l₂ })
    (hadd : d.lin.add p.1 p.2.heads = (lin, .ok ()))
    (payloads : ExtTreeMap (NodeId K) (List UInt8)) :
    Accounted init held { d with lin, payloads, pending := l₁ ++ l₂ } := by
  obtain ⟨acc, hadds, hacc⟩ := h.adds
  have hp := h.waits p (by simp)
  obtain ⟨-, -, -, rfl⟩ := add_eq_ok.mp hadd
  have hnodup : (p.1 :: (l₁ ++ l₂).map Prod.fst).Nodup := by
    have := h.nodup
    rw [List.map_append, List.map_cons, List.nodup_middle, ← List.map_append] at this
    exact this
  rw [List.nodup_cons] at hnodup
  have hsub : ∀ q ∈ l₁ ++ l₂, q ∈ l₁ ++ p :: l₂ := by
    intro q hq
    rw [List.mem_append, List.mem_cons]
    exact (List.mem_append.mp hq).imp_right Or.inr
  refine ⟨⟨_, hadds.add hadd, fun q hq => ?_⟩, fun q hq => ?_, hnodup.2, fun n e he => ?_⟩
  · obtain hq | hq := List.mem_append.mp hq
    · exact hacc q hq
    · rw [List.mem_singleton.mp hq]
      exact ⟨p.2, hp.1, rfl⟩
  · refine ⟨(h.waits q (hsub q hq)).1, fun hmem => ?_⟩
    obtain heq | hmem := mem_attach.mp hmem
    · exact hnodup.1 (heq ▸ List.mem_map_of_mem hq)
    · exact (h.waits q (hsub q hq)).2 hmem
  · obtain hmem | hmem := h.covers n e he
    · exact Or.inl (mem_attach.mpr (Or.inr hmem))
    · rw [List.mem_append, List.mem_cons] at hmem
      obtain hmem | rfl | hmem := hmem
      · exact Or.inr (List.mem_append_left _ hmem)
      · exact Or.inl (mem_attach.mpr (Or.inl rfl))
      · exact Or.inr (List.mem_append_right _ hmem)

variable {e : Entry K}

/-- Offering an entry for a node that was not held accounts for it. -/
theorem Accounted.offer (h0 : Run [] init) (h : Accounted init held d) (hnew : ∀ e', ¬ held n e') :
    Accounted init (fun m e' => held m e' ∨ m = n ∧ e' = e) (d.tryAddNode n e) := by
  have hn : n ∉ d.lin.deps := fun hmem => by
    obtain ⟨e', he'⟩ := h.held_of_mem h0 hmem
    exact hnew e' he'
  have hnp : n ∉ d.pending.map Prod.fst := fun hmem => by
    obtain ⟨p, hp, rfl⟩ := List.mem_map.mp hmem
    exact hnew p.2 (h.waits p hp).1
  -- it is accounted for once it waits; the rest is a delivery
  have hwaits : Accounted init (fun m e' => held m e' ∨ m = n ∧ e' = e)
      { d with pending := d.pending ++ (n, e) :: [] } := by
    obtain ⟨acc, hadds, hacc⟩ := h.adds
    refine ⟨⟨acc, hadds, fun p hp => ?_⟩, fun p hp => ?_, ?_, fun m e' he' => ?_⟩
    · obtain ⟨e', he', heads⟩ := hacc p hp
      exact ⟨e', Or.inl he', heads⟩
    · obtain hp | hp := List.mem_append.mp hp
      · exact ⟨Or.inl (h.waits p hp).1, (h.waits p hp).2⟩
      · rw [List.mem_singleton.mp hp]
        exact ⟨Or.inr ⟨rfl, rfl⟩, hn⟩
    · rw [List.map_append, List.nodup_append]
      refine ⟨h.nodup, List.nodup_singleton _, fun a ha b hb hab => ?_⟩
      rw [hab, List.mem_singleton.mp hb] at ha
      exact hnp ha
    · obtain he' | ⟨rfl, rfl⟩ := he'
      · exact (h.covers m e' he').imp_right fun hmem => List.mem_append_left _ hmem
      · exact Or.inr (List.mem_append_right _ (List.mem_singleton.mpr rfl))
  obtain ⟨lin, hadd, heq⟩ | ⟨hmem, -⟩ | ⟨-, heq⟩ := d.tryAddNode_cases n e
  · rw [heq]
    have := hwaits.deliver hadd (d.payloads.insert n e.payload)
    rwa [List.append_nil] at this
  · exact absurd hmem hn
  · rw [heq]
    exact hwaits

theorem foldl_retry_accounted : ∀ (rest still : List (NodeId K × Entry K)) (d : Dag K) (moved : Bool),
    Accounted init held { d with pending := still ++ rest } →
    Accounted init held { (rest.foldl retry (d, still, moved)).1 with
      pending := (rest.foldl retry (d, still, moved)).2.1 }
  | [], still, d, moved, h => by rwa [List.append_nil] at h
  | p :: rest, still, d, moved, h => by
    rw [List.foldl_cons]
    obtain ⟨lin, hadd, heq⟩ | ⟨hmem, -⟩ | ⟨-, -, heq⟩ := retry_cases d still moved p
    · rw [heq]
      exact foldl_retry_accounted rest still _ true (h.deliver hadd _)
    · exact absurd hmem (h.waits p (by simp)).2
    · rw [heq]
      refine foldl_retry_accounted rest (still ++ [p]) d moved ?_
      rwa [List.append_assoc]

theorem Accounted.drainLoop : ∀ (fuel : ℕ) {d : Dag K}, Accounted init held d →
    Accounted init held (Dag.drainLoop fuel d)
  | 0, _, h => h
  | fuel + 1, d, h => by
    have hpass : Accounted init held d.drainPass.1 :=
      foldl_retry_accounted d.pending [] { d with pending := [] } false h
    rw [Dag.drainLoop]
    split_ifs
    · exact hpass.drainLoop fuel
    · exact hpass

theorem Accounted.drain (h : Accounted init held d) : Accounted init held d.drainPending :=
  h.drainLoop _

/-! ### The delivered nodes are the deliverable ones -/

/-- What delivering `n` with `heads` waits for: the writer's previous node and the
heads. -/
def Needs (n : NodeId K) (heads : List (NodeId K)) (m : NodeId K) : Prop :=
  0 < n.seq ∧ m = ⟨n.key, n.seq - 1⟩ ∨ m ∈ heads

/-- A node is causally deliverable if it is held and all it needs is. -/
inductive Deliverable (held : NodeId K → Entry K → Prop) : NodeId K → Prop
  | intro {n : NodeId K} {e : Entry K} :
      held n e → (∀ m, Needs n e.heads m → Deliverable held m) → Deliverable held n

variable {L : Linearizer K}

/-- A new node is accepted exactly when all it needs is there. -/
theorem add_ok_iff (hL : L.WF) (hn : n ∉ L.deps) {heads : List (NodeId K)} :
    (∃ L', L.add n heads = (L', .ok ())) ↔ ∀ m, Needs n heads m → m ∈ L.deps := by
  have hge : ¬ n.seq < L.nextSeq.getD n.key 0 := fun h => hn ((hL.seq n).mpr h)
  constructor
  · rintro ⟨L', hadd⟩ m hm
    obtain ⟨-, hseq, hheads, -⟩ := add_eq_ok.mp hadd
    obtain ⟨hpos, rfl⟩ | hm := hm
    · refine (hL.seq _).mpr ?_
      show n.seq - 1 < L.nextSeq.getD n.key 0
      omega
    · exact hheads m hm
  · intro hneeds
    refine ⟨_, add_eq_ok.mpr ⟨hn, ?_, fun h hh => hneeds h (Or.inr hh), rfl⟩⟩
    by_contra hne
    -- with a gap, the previous node would be missing
    have hpos : 0 < n.seq := by omega
    have hlt : n.seq - 1 < L.nextSeq.getD n.key 0 := (hL.seq _).mp (hneeds _ (Or.inl ⟨hpos, rfl⟩))
    omega

theorem deliverable_of_adds (h0 : Run [] init) {acc : List (Delivery K)} (h : Adds init acc L)
    (hacc : ∀ p ∈ acc, ∃ e, held p.1 e ∧ e.heads = p.2) : ∀ n ∈ L.deps, Deliverable held n := by
  induction h with
  | start => exact fun n hn => absurd ((h0.valid.holds.mem n).mp hn) List.not_mem_nil
  | @add acc L L' node heads hadds hadd ih =>
    have hold := ih fun p hp => hacc p (List.mem_append_left _ hp)
    obtain ⟨e, he, rfl⟩ := hacc (node, heads) (List.mem_append_right _ (List.mem_singleton.mpr rfl))
    obtain ⟨hnode, -, -, rfl⟩ := add_eq_ok.mp hadd
    have hneeds := (add_ok_iff (hadds.run h0).valid.wf hnode).mp ⟨_, hadd⟩
    intro n hn
    obtain rfl | hn := mem_attach.mp hn
    · exact .intro he fun m hm => hold m (hneeds m hm)
    · exact hold n hn
  | @refused acc L L' node heads err _ hadd ih =>
    have hsame : (L.add node heads).1 = L := add_eq_error (by rw [hadd])
    rw [hadd] at hsame
    exact fun n hn => ih hacc n (hsame ▸ hn)

/-- With nothing left to deliver, the delivered nodes are the deliverable ones. -/
theorem Accounted.mem_iff (h0 : Run [] init) (h : Accounted init held d) (hc : Closed d) (n : NodeId K) :
    n ∈ d.lin.deps ↔ Deliverable held n := by
  obtain ⟨acc, hadds, hacc⟩ := h.adds
  constructor
  · exact deliverable_of_adds h0 hadds hacc n
  · intro hn
    induction hn with
    | @intro n e he _ ih =>
      obtain hmem | hp := h.covers n e he
      · exact hmem
      · have hn := (h.waits _ hp).2
        obtain ⟨lin, hadd⟩ := (add_ok_iff (hadds.run h0).valid.wf hn).mpr ih
        exact absurd hadd (hc _ hp lin)

/-- The rest waits. -/
theorem Accounted.mem_pending_iff (h0 : Run [] init) (h : Accounted init held d) (hc : Closed d)
    (n : NodeId K) (e : Entry K) : (n, e) ∈ d.pending ↔ held n e ∧ ¬ Deliverable held n := by
  rw [← h.mem_iff h0 hc]
  constructor
  · exact h.waits (n, e)
  · rintro ⟨he, hn⟩
    exact (h.covers n e he).resolve_left hn

/-- Two states that account for the same entries hold the same linearizer. -/
theorem Accounted.lin_eq {d' : Dag K} (h0 : Run [] init) (hfun : ∀ n e e', held n e → held n e' → e = e')
    (h : Accounted init held d) (hc : Closed d) (h' : Accounted init held d') (hc' : Closed d') :
    d.lin = d'.lin := by
  have key : ∀ {d₁ d₂ : Dag K} {acc₁ acc₂ : List (Delivery K)}, Accounted init held d₁ → Closed d₁ →
      Accounted init held d₂ → Closed d₂ → Adds init acc₁ d₁.lin → Adds init acc₂ d₂.lin →
      (∀ p ∈ acc₁, ∃ e, held p.1 e ∧ e.heads = p.2) → (∀ p ∈ acc₂, ∃ e, held p.1 e ∧ e.heads = p.2) →
      ∀ p ∈ acc₁, p ∈ acc₂ := by
    intro d₁ d₂ acc₁ acc₂ h₁ hc₁ h₂ hc₂ hadds₁ hadds₂ hacc₁ hacc₂ p hp
    have hmem₁ : p.1 ∈ d₁.lin.deps :=
      ((hadds₁.run h0).valid.holds.mem p.1).mpr (List.mem_map_of_mem hp)
    have hmem₂ : p.1 ∈ d₂.lin.deps := (h₂.mem_iff h0 hc₂ p.1).mpr ((h₁.mem_iff h0 hc₁ p.1).mp hmem₁)
    obtain ⟨q, hq, hqp⟩ := List.mem_map.mp (((hadds₂.run h0).valid.holds.mem p.1).mp hmem₂)
    obtain ⟨e, he, hep⟩ := hacc₁ p hp
    obtain ⟨e', he', heq⟩ := hacc₂ q hq
    rw [hqp] at he'
    have hpq : q = p := Prod.ext hqp (by rw [← hep, ← heq, hfun p.1 e e' he he'])
    exact hpq ▸ hq
  obtain ⟨acc, hadds, hacc⟩ := h.adds
  obtain ⟨acc', hadds', hacc'⟩ := h'.adds
  exact hadds.eq_of_same h0 hadds' fun p =>
    ⟨key h hc h' hc' hadds hadds' hacc hacc' p, key h' hc' h hc hadds' hadds hacc' hacc p⟩

/-- Delivering a new node that has all it needs accounts for it. -/
theorem Accounted.append (h0 : Run [] init) (h : Accounted init held d) (hnew : ∀ e', ¬ held n e')
    (hneeds : ∀ m, Needs n e.heads m → m ∈ d.lin.deps) :
    Accounted init (fun m e' => held m e' ∨ m = n ∧ e' = e)
      { d with lin := (d.lin.add n e.heads).1, payloads := d.payloads.insert n e.payload } := by
  obtain ⟨acc, hadds, -⟩ := h.adds
  have hn : n ∉ d.lin.deps := fun hmem => by
    obtain ⟨e', he'⟩ := h.held_of_mem h0 hmem
    exact hnew e' he'
  obtain ⟨lin, hadd⟩ := (add_ok_iff (hadds.run h0).valid.wf hn).mpr hneeds
  have hoffer := h.offer h0 (e := e) hnew
  unfold tryAddNode at hoffer
  rw [hadd] at hoffer ⊢
  exact hoffer

/-- After a delivery without a drain nothing is left to deliver exactly when each
waiting entry waits for something else. -/
theorem Accounted.closed_append_iff (h0 : Run [] init) (h : Accounted init held d) (hnew : ∀ e', ¬ held n e')
    (hneeds : ∀ m, Needs n e.heads m → m ∈ d.lin.deps) :
    Closed { d with lin := (d.lin.add n e.heads).1, payloads := d.payloads.insert n e.payload } ↔
      ∀ p ∈ d.pending, ∃ m, Needs p.1 p.2.heads m ∧ m ∉ d.lin.deps ∧ m ≠ n := by
  have happ := h.append h0 hnew hneeds
  obtain ⟨acc, hadds, -⟩ := h.adds
  obtain ⟨acc', hadds', -⟩ := happ.adds
  have hn : n ∉ d.lin.deps := fun hmem => by
    obtain ⟨e', he'⟩ := h.held_of_mem h0 hmem
    exact hnew e' he'
  obtain ⟨lin, hadd⟩ := (add_ok_iff (hadds.run h0).valid.wf hn).mpr hneeds
  have hmem : ∀ m, m ∈ (d.lin.add n e.heads).1.deps ↔ m = n ∨ m ∈ d.lin.deps := by
    intro m
    obtain ⟨-, -, -, hlin⟩ := add_eq_ok.mp hadd
    rw [hadd, ← hlin]
    exact mem_attach
  refine forall₂_congr fun p hp => ?_
  have hiff : (∃ L', (d.lin.add n e.heads).1.add p.1 p.2.heads = (L', .ok ())) ↔
      ∀ m, Needs p.1 p.2.heads m → m ∈ (d.lin.add n e.heads).1.deps :=
    add_ok_iff (hadds'.run h0).valid.wf (happ.waits p hp).2
  dsimp only
  rw [← not_exists, hiff]
  push Not
  refine exists_congr fun m => and_congr_right fun _ => ?_
  rw [hmem]
  tauto

end Accounting

end Dag

/-! ### The nodes after an offer -/

namespace Linearizer

variable {K : Type} [LinearOrder K] {L : Linearizer K}

variable {node n : NodeId K} {heads : List (NodeId K)}

/-- Accepted or not, a node adds nothing but itself. -/
theorem mem_add (hn : n ∈ (L.add node heads).1.deps) : n = node ∨ n ∈ L.deps := by
  obtain ⟨L', hadd⟩ | ⟨_, -, hadd⟩ | ⟨_, -, hadd, -⟩ := Dag.add_cases L node heads
  · rw [hadd] at hn
    obtain ⟨-, -, -, rfl⟩ := add_eq_ok.mp hadd
    exact mem_attach.mp hn
  · rw [hadd] at hn
    exact Or.inr hn
  · rw [hadd] at hn
    exact Or.inr hn

theorem mem_add_of_mem (hn : n ∈ L.deps) : n ∈ (L.add node heads).1.deps := by
  obtain ⟨L', hadd⟩ | ⟨_, -, hadd⟩ | ⟨_, -, hadd, -⟩ := Dag.add_cases L node heads
  · rw [hadd]
    obtain ⟨-, -, -, rfl⟩ := add_eq_ok.mp hadd
    exact mem_attach.mpr (Or.inr hn)
  · rwa [hadd]
  · rwa [hadd]

end Linearizer

end HypercoreRs
