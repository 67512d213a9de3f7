/-
# The deltas a poll hands out

A delta is queued with the position its node has in the finalized order, and handed out by the
next poll. While the finalized order only grows the position stays. A reconfiguration may drop
finalized nodes, and leaves the queue as it is: the next poll hands out the deltas of nodes that
are finalized no more, or that are finalized at another position by then.

The deltas are current as long as no reconfiguration goes behind a queued one (`QueuedWithin`), as
none does after a poll. One that does loses it, unless the new indexers confirm nodes of their own
(`polled_current`).
-/
import HypercoreRs.Room.Checkpoint

namespace HypercoreRs

open Std Command

namespace Room

variable {K H Sig SK S E F P St : Type} [LinearOrder K]
variable {env : Env K H Sig SK S E F P St} {room room' room₀ : Room K H Sig SK S F P}

/-- The node of the delta is at its position of the order, counted from 1. -/
def Names (finalized : List (NodeId K)) (d : Finalized K) : Prop :=
  0 < d.version ∧ finalized[d.version - 1]? = some d.node

instance (finalized : List (NodeId K)) (d : Finalized K) : Decidable (Names finalized d) :=
  inferInstanceAs (Decidable (_ ∧ _))

/-- Every queued delta is at its position of the finalized order. -/
def Current (room : Room K H Sig SK S F P) : Prop := ∀ d ∈ room.finalizedSincePoll, Names room.lin.finalized d

instance (room : Room K H Sig SK S F P) : Decidable (Current room) :=
  inferInstanceAs (Decidable (∀ d ∈ room.finalizedSincePoll, _))

/-- Every queued delta is among the first `through` of the finalized order. -/
def QueuedWithin (room : Room K H Sig SK S F P) (through : ℕ) : Prop :=
  ∀ d ∈ room.finalizedSincePoll, d.version ≤ through

omit [LinearOrder K] in
theorem Names.grow {before after : List (NodeId K)} {d : Finalized K} (h : Names before d)
    (hgrow : before <+: after) : Names after d := by
  obtain ⟨more, rfl⟩ := hgrow
  refine ⟨h.1, ?_⟩
  rw [List.getElem?_append_left (List.getElem?_eq_some_iff.mp h.2).1]
  exact h.2

/-- What a recomputation queues is at its position. -/
theorem queue_advance (env : Env K H Sig SK S E F P St) (room : Room K H Sig SK S F P) : ∃ fresh,
    (room.advance env).finalizedSincePoll = room.finalizedSincePoll ++ fresh ∧
      ∀ d ∈ fresh, Names room.lin.finalized d := by
  show ∃ fresh, (room.advanceFinalized env).finalizedSincePoll = room.finalizedSincePoll ++ fresh ∧ _
  unfold advanceFinalized
  dsimp only
  split_ifs
  · refine ⟨_, rfl, fun d hd => ?_⟩
    obtain ⟨i, hi, rfl⟩ := List.mem_mapIdx.mp hd
    refine ⟨Nat.succ_pos _, ?_⟩
    dsimp only
    rw [Nat.add_sub_cancel, ← List.getElem?_drop, List.getElem?_eq_getElem]
  · exact ⟨[], (List.append_nil _).symm, fun d hd => absurd hd List.not_mem_nil⟩

theorem Current.advance (h : Current room) : Current (room.advance env) := by
  obtain ⟨fresh, hqueue, hfresh⟩ := queue_advance env room
  intro d hd
  rw [hqueue, List.mem_append] at hd
  rw [lin_advance]
  exact hd.elim (h d) (hfresh d)

/-- However a call ends, the deltas stay current if the finalized order only grew. -/
theorem Current.stopped (h : Current room) (hstopped : Stopped env room room')
    (hgrow : room.lin.finalized <+: room'.lin.finalized) : Current room' := by
  have hcarries : ∀ {room₁ : Room K H Sig SK S F P}, Carries room room₁ →
      room.lin.finalized <+: room₁.lin.finalized → Current room₁ := by
    intro room₁ hc hgrow d hd
    rw [hc.finalizedSincePoll] at hd
    exact (h d hd).grow hgrow
  obtain hc | ⟨room₁, hc, rfl⟩ := hstopped
  · exact hcarries hc hgrow
  · rw [lin_advance] at hgrow
    exact (hcarries hc hgrow).advance

omit [LinearOrder K] in
theorem Names.take {finalized : List (NodeId K)} {d : Finalized K} (h : Names finalized d) {through : ℕ}
    (hle : d.version ≤ through) : Names (finalized.take through) d := by
  refine ⟨h.1, ?_⟩
  rw [List.getElem?_take, if_pos (by have := h.1; omega)]
  exact h.2

section Reconfigured

variable {through : ℕ} {indexers : List K} {r : Reconfigured}

/-- What a reconfiguration pins stays finalized. -/
theorem take_finalized_reconfigure {L L' : Linearizer K} (h : L.reconfigure through indexers = (L', .ok ())) :
    L.finalized.take through <+: L'.finalized := by
  have hbase : L'.base =
      L.finalized.take through := by rw [Linearizer.eq_of_reconfigure h, Linearizer.finalized]
  exact hbase ▸ Linearizer.base_prefix_confirmedView

/-- A reconfiguration leaves the queue as it is, up to what it finalizes itself. -/
theorem queue_reconfigure (h : Room.reconfigure env through indexers room = .ok r room') :
    ∃ lin fresh, room.lin.reconfigure through indexers = (lin, .ok ()) ∧ room'.lin = lin ∧
      room'.finalizedSincePoll = room.finalizedSincePoll ++ fresh ∧ ∀ d ∈ fresh, Names lin.finalized d := by
  obtain ⟨lin, hlin, rfl⟩ := (ends_reconfigure through indexers room).ok h
  have hqueue : (room.rollBack env lin).finalizedSincePoll = room.finalizedSincePoll := by
    unfold rollBack
    dsimp only
    split_ifs <;> rfl
  have hfin : (room.rollBack env lin).lin = lin := congrArg Dag.lin (sameData_rollBack env room lin).dag
  obtain ⟨fresh, hadvance, hfresh⟩ := queue_advance env (room.rollBack env lin)
  rw [hqueue] at hadvance
  rw [hfin] at hfresh
  exact ⟨lin, fresh, hlin, by rw [lin_advance, hfin], hadvance, hfresh⟩

/-- The queued deltas it pins stay current. -/
theorem Current.reconfigure (hcurrent : Current room)
    (h : Room.reconfigure env through indexers room = .ok r room')
    (hwithin : QueuedWithin room through) : Current room' := by
  obtain ⟨lin, fresh, hlin, hroom, hqueue, hfresh⟩ := queue_reconfigure h
  intro d hd
  rw [hroom]
  rw [hqueue, List.mem_append] at hd
  obtain hd | hd := hd
  · exact ((hcurrent d hd).take (hwithin d hd)).grow (take_finalized_reconfigure hlin)
  · exact hfresh d hd

/-- A queued delta behind it is not, where nothing but the base is finalized. -/
theorem Current.queuedWithin (hcurrent : Current room')
    (h : Room.reconfigure env through indexers room = .ok r room')
    (hlen : room'.lin.finalized.length ≤ through) : QueuedWithin room through := by
  obtain ⟨-, fresh, -, -, hqueue, -⟩ := queue_reconfigure h
  intro d hd
  have hnames := hcurrent d (by rw [hqueue]; exact List.mem_append_left fresh hd)
  have hlt := (List.getElem?_eq_some_iff.mp hnames.2).1
  have hpos := hnames.1
  omega

end Reconfigured

/-! ### Runs -/

variable [DecidableEq H] [DecidableEq Sig]

variable (env) in
/-- The rooms reached from `room₀` by calls that only extend the finalized order, by
reconfigurations that are `allowed`, and by polls. Calls and reconfigurations may fail. -/
inductive GrowingRun (allowed : Room K H Sig SK S F P → ℕ → Prop)
    (room₀ : Room K H Sig SK S F P) : Room K H Sig SK S F P → Prop
  | start : GrowingRun allowed room₀ room₀
  | call {room : Room K H Sig SK S F P} (c : Call K H Sig) : GrowingRun allowed room₀ room →
      room.lin.finalized <+: (after (perform env c) room).lin.finalized →
      GrowingRun allowed room₀ (after (perform env c) room)
  | reconfigure {room : Room K H Sig SK S F P} (through : ℕ) (indexers : List K) :
      GrowingRun allowed room₀ room → allowed room through →
      GrowingRun allowed room₀ (after (Room.reconfigure env through indexers) room)
  | poll {room : Room K H Sig SK S F P} : GrowingRun allowed room₀ room →
      GrowingRun allowed room₀ (pollFinalized room).2

theorem GrowingRun.reached {allowed : Room K H Sig SK S F P → ℕ → Prop}
    (h : GrowingRun env allowed room₀ room) : Reached env room₀ room := by
  induction h with
  | start => exact .start
  | call c _ _ ih => exact ih.call c
  | reconfigure through indexers _ _ ih => exact ih.reconfigure through indexers
  | poll _ ih => exact ih.poll

theorem GrowingRun.current (htidy : Tidy room₀) (h₀ : Current room₀)
    (h : GrowingRun env QueuedWithin room₀ room) : Current room := by
  induction h with
  | start => exact h₀
  | call c hrun hgrow ih => exact ih.stopped ((hrun.reached.tidy htidy).stopped c) hgrow
  | @reconfigure room through indexers _ hwithin ih =>
    cases hrun : Room.reconfigure env through indexers room with
    | ok r room' =>
      rw [after, hrun]
      exact ih.reconfigure hrun hwithin
    | error e room' =>
      rw [after, hrun, (ends_reconfigure through indexers room).error hrun]
      exact ih
  | poll _ _ => exact fun d hd => absurd hd List.not_mem_nil

omit [DecidableEq Sig] in
/-- An opened room has nothing queued. -/
theorem current_openRoom {cfg : RoomConfig K SK} {f : F} {p : P} (hopen : openRoom env cfg f p = .ok room) :
    Current room := by
  obtain ⟨core, f', room₁, -, rfl⟩ := openRoom_replayed hopen
  exact fun d hd => absurd hd List.not_mem_nil

/-- What a poll hands out is at its position when it is handed out. -/
def PolledCurrent (room : Room K H Sig SK S F P) : Prop :=
  ∀ d ∈ (pollFinalized room).1, Names (pollFinalized room).2.lin.finalized d

/-- **Polled deltas are current as long as no reconfiguration goes behind a queued one.** In every
run whose reconfigurations do not, every poll hands out current deltas. One more reconfiguration
keeps this if it does not either; if it does, the next poll hands out a stale delta, unless the new
indexers confirm more than the base. -/
theorem polled_current {cfg : RoomConfig K SK} {f : F} {p : P} (hopen : openRoom env cfg f p = .ok room₀)
    (h : GrowingRun env QueuedWithin room₀ room) :
    PolledCurrent room ∧ ∀ through indexers r room',
      Room.reconfigure env through indexers room = .ok r room' →
      (QueuedWithin room through → PolledCurrent room') ∧
      (room'.lin.finalized.length ≤ through → PolledCurrent room' → QueuedWithin room through) := by
  have hcurrent := h.current (tidy_openRoom hopen) (current_openRoom hopen)
  exact ⟨hcurrent, fun through indexers r room' hreconf =>
    ⟨hcurrent.reconfigure hreconf, fun hlen hpolled => Current.queuedWithin hpolled hreconf hlen⟩⟩

/-! ### A queue that is not polled -/

/-- The room of `loggedRooms` without its poll: after one op, after another, and after its
indexers are replaced behind the first `through` ops. -/
def unpolledRooms (room₀ : LoggingRoom) (through : ℕ) (indexers : List WriterKey) :
    Option (LoggingRoom × LoggingRoom × LoggingRoom) := do
  let room₁ ← okRoom (perform logging (.append [1]) room₀)
  let room₂ ← okRoom (perform logging (.append [2]) room₁)
  let room₃ ← okRoom (reconfigure logging through indexers room₂)
  return (room₁, room₂, room₃)

-- under the indexer it had, the room finalizes the second op again where it was
example : ((openRoom logging ⟨0, [0], .original⟩ () []).toOption.any fun room₀ =>
    (unpolledRooms room₀ 1 [0]).any fun p =>
      decide (p.2.2.finalizedSincePoll.map Finalized.version = [1, 2] ∧ Current p.2.2)) = true := by
  decide +kernel

theorem unpolledRooms_run {allowed : LoggingRoom → ℕ → Prop} {through : ℕ}
    {indexers : List WriterKey} {room₀ room₁ room₂ room₃ : LoggingRoom}
    (h : unpolledRooms room₀ through indexers = some (room₁, room₂, room₃))
    (hgrow₁ : room₀.lin.finalized <+: room₁.lin.finalized)
    (hgrow₂ : room₁.lin.finalized <+: room₂.lin.finalized) :
    GrowingRun logging allowed room₀ room₂ ∧ ∃ r, reconfigure logging through indexers room₂ =
      .ok r room₃ := by
  unfold unpolledRooms at h
  obtain ⟨r₁, hfirst, h⟩ := Option.bind_eq_some_iff.mp h
  obtain ⟨r₂, hsecond, h⟩ := Option.bind_eq_some_iff.mp h
  obtain ⟨r₃, hthird, h⟩ := Option.bind_eq_some_iff.mp h
  cases h
  obtain ⟨_, hfirst⟩ := okRoom_eq_some hfirst
  obtain ⟨_, hsecond⟩ := okRoom_eq_some hsecond
  obtain ⟨r, hthird⟩ := okRoom_eq_some hthird
  have hafter₁ : after (perform logging (.append [1])) room₀ = room₁ := by rw [after, hfirst]
  have hafter₂ : after (perform logging (.append [2])) room₁ = room₂ := by rw [after, hsecond]
  have hrun₁ : GrowingRun logging allowed room₀ room₁ := hafter₁ ▸ .call _ .start (hafter₁ ▸ hgrow₁)
  exact ⟨hafter₂ ▸ .call _ hrun₁ (hafter₂ ▸ hgrow₂), r, hthird⟩

/-- Two deltas are queued. A reconfiguration behind the second keeps both in place. -/
theorem polled_current_behind : ∃ room₀ room room' r, openRoom logging ⟨0, [0], .original⟩ () [] = .ok room₀ ∧
    GrowingRun logging QueuedWithin room₀ room ∧ reconfigure logging 2 [5] room = .ok r room' ∧
    (pollFinalized room').1.map Finalized.version = [1, 2] ∧ PolledCurrent room ∧ PolledCurrent room' := by
  have hcheck : ((openRoom logging ⟨0, [0], .original⟩ () []).toOption.any fun room₀ =>
      (unpolledRooms room₀ 2 [5]).any fun p =>
        decide (room₀.lin.finalized <+: p.1.lin.finalized ∧ p.1.lin.finalized <+: p.2.1.lin.finalized ∧
          p.2.2.finalizedSincePoll.map Finalized.version = [1, 2] ∧
          ∀ d ∈ p.2.1.finalizedSincePoll, d.version ≤ 2)) = true := by
    decide +kernel
  obtain ⟨room₀, hopen, hcheck⟩ := exists_of_any hcheck
  obtain ⟨⟨room₁, room₂, room₃⟩, hrooms, hcheck⟩ := (Option.any_eq_true _ _).mp hcheck
  obtain ⟨hgrow₁, hgrow₂, hversions, hwithin⟩ := of_decide_eq_true hcheck
  obtain ⟨hrun, r, hreconf⟩ := unpolledRooms_run hrooms hgrow₁ hgrow₂
  obtain ⟨hpolled, hnext⟩ := polled_current hopen hrun
  exact ⟨room₀, room₂, room₃, r, hopen, hrun, hreconf, hversions, hpolled,
    (hnext 2 [5] r room₃ hreconf).1 hwithin⟩

/-- Two deltas are queued, and the room is reconfigured behind the first: the next poll hands out
the second as version 2, and only one node is finalized. -/
theorem polled_stale : ∃ room₀ room, openRoom logging ⟨0, [0], .original⟩ () [] = .ok room₀ ∧
    GrowingRun logging (fun _ _ => True) room₀ room ∧ room.lin.finalized = [⟨0, 0⟩] ∧
    ∃ d ∈ (pollFinalized room).1, d.node = ⟨0, 1⟩ ∧ d.version = 2 ∧ ¬ Names room.lin.finalized d := by
  have hcheck : ((openRoom logging ⟨0, [0], .original⟩ () []).toOption.any fun room₀ =>
      (unpolledRooms room₀ 1 [5]).any fun p =>
        decide (room₀.lin.finalized <+: p.1.lin.finalized ∧ p.1.lin.finalized <+: p.2.1.lin.finalized ∧
          p.2.2.lin.finalized = [⟨0, 0⟩] ∧ ∃ d ∈ p.2.2.finalizedSincePoll,
            d.node = ⟨0, 1⟩ ∧ d.version = 2 ∧ ¬ Names p.2.2.lin.finalized d)) = true := by
    decide +kernel
  obtain ⟨room₀, hopen, hcheck⟩ := exists_of_any hcheck
  obtain ⟨⟨room₁, room₂, room₃⟩, hrooms, hcheck⟩ := (Option.any_eq_true _ _).mp hcheck
  obtain ⟨hgrow₁, hgrow₂, hfin, hstale⟩ := of_decide_eq_true hcheck
  obtain ⟨hrun, r, hreconf⟩ := unpolledRooms_run hrooms hgrow₁ hgrow₂
  have hafter : after (reconfigure logging 1 [5]) room₂ = room₃ := by rw [after, hreconf]
  exact ⟨room₀, room₃, hopen, hafter ▸ .reconfigure 1 [5] hrun trivial, hfin, hstale⟩

end Room
end HypercoreRs
