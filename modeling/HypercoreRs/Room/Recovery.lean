/-
# Recovering the own feed

A writer that lost its disk comes back with a shorter log than its peers hold. A head of its own
key that is longer than its log closes a gate: until the missing blocks are back, nothing is
appended. A longer head replaces the target of the recovery, and a failed attempt keeps the gate
closed.

`OwnMove` is what the operations of a room do to the local log and to the gate. Where every own
head that is heard is of one history `L`, a head heard once is never contradicted: each head
signed later is longer and extends the same blocks of `L` (`never_double_signs`).
-/
import HypercoreRs.Hypercore.Steps
import HypercoreRs.Room.Safety

namespace HypercoreRs

open Std Merkle Command

namespace Room

variable {K H Sig SK S E F P St : Type} [LinearOrder K]
variable (env : Env K H Sig SK S E F P St) {room room' room₀ room₁ room₂ : Room K H Sig SK S F P}

/-- The local log and the gate are the same. -/
structure SameOwn (room room' : Room K H Sig SK S F P) : Prop where
  localKey : room'.localKey = room.localKey
  core : Hypercore.SameTree room.localCore room'.localCore
  recovery : room'.ownRecovery = room.ownRecovery

/-- One change of the local log or the gate; `heard` are the own heads heard. -/
inductive OwnMove [DecidableEq H] (heard : SignedHead H Sig → Prop) :
    Room K H Sig SK S F P → Room K H Sig SK S F P → Prop
  | other {room room' : Room K H Sig SK S F P} : SameOwn room room' → OwnMove heard room room'
  /-- The gate closes, or its target is replaced by a longer one. -/
  | close {room : Room K H Sig SK S F P} {head : SignedHead H Sig} : heard head →
      (∀ t bs, room.ownRecovery = some (t, bs) → t.length < head.length) →
      OwnMove heard room { room with ownRecovery := some (head, ∅) }
  /-- A block of the target arrives. -/
  | collect {room : Room K H Sig SK S F P} {t : SignedHead H Sig} {bs bs' : ExtTreeMap ℕ Block} :
      room.ownRecovery = some (t, bs) → OwnMove heard room { room with ownRecovery := some (t, bs') }
  /-- The log becomes the feed of the target. -/
  | adopt {room : Room K H Sig SK S F P} {t : SignedHead H Sig} {bs : ExtTreeMap ℕ Block}
      {core : Hypercore H Sig SK S} : room.ownRecovery = some (t, bs) →
      Hypercore.Recovered env.crypto room.localCore t core →
      OwnMove heard room { room with localCore := core }
  /-- The gate opens, on the feed of its target. -/
  | release {room : Room K H Sig SK S F P} {t : SignedHead H Sig} {bs : ExtTreeMap ℕ Block}
      {core : Hypercore H Sig SK S} : room.ownRecovery = some (t, bs) →
      Hypercore.Recovered env.crypto core t room.localCore →
      OwnMove heard room { room with ownRecovery := none }
  /-- An append is signed: the gate is open. -/
  | sign {room : Room K H Sig SK S F P} {data : Block} {core : Hypercore H Sig SK S} :
      room.ownRecovery = none → Hypercore.Signed env.crypto room.localCore data core →
      OwnMove heard room { room with localCore := core }

/-- Any number of changes. -/
abbrev OwnMoves [DecidableEq H] (heard : SignedHead H Sig → Prop) :
    Room K H Sig SK S F P → Room K H Sig SK S F P → Prop := Relation.ReflTransGen (OwnMove env heard)

variable {env}

theorem SameOwn.refl (room : Room K H Sig SK S F P) : SameOwn room room := ⟨rfl, .refl _, rfl⟩

theorem SameOwn.trans {room'' : Room K H Sig SK S F P} (h : SameOwn room room') (h' : SameOwn room' room'') :
    SameOwn room room'' :=
  ⟨h'.localKey.trans h.localKey, h.core.trans h'.core, h'.recovery.trans h.recovery⟩

/-! ### What leaves the local log alone -/

variable (env) in
theorem sameOwn_advance (room : Room K H Sig SK S F P) : SameOwn room (room.advance env) := by
  unfold advance advanceFinalized
  dsimp only
  split_ifs <;> exact ⟨rfl, .refl _, rfl⟩

theorem OnRemotes.sameOwn (h : OnRemotes room room') : SameOwn room room' := by
  obtain ⟨_, _, rfl⟩ := h
  exact ⟨rfl, .refl _, rfl⟩

/-! ### Appending -/

variable (env) in
/-- The local log is as it was, or the gate is open and one more block is signed. -/
def OwnAppend (room room' : Room K H Sig SK S F P) : Prop :=
  SameOwn room room' ∨ room.ownRecovery = none ∧ ∃ data core,
    Hypercore.Signed env.crypto room.localCore data core ∧ SameOwn { room with localCore := core } room'

theorem ends_localAppend_own (op : Block) (room : Room K H Sig SK S F P) :
    Ends (localAppend env op) room (fun _ room' => OwnAppend env room room') fun _ room' =>
      OwnAppend env room room' := by
  have hdone : ∀ core',
      (room.ownRecovery = none ∧ ∃ data core, Hypercore.Signed env.crypto room.localCore data core ∧
      Hypercore.SameTree core core') → OwnAppend env room ((room.withOwn core' op).touch.advance env) := by
    rintro core' ⟨hopen, data, core, hsigned, hsame⟩
    have hadd : SameOwn { room with localCore := core } (room.withOwn core' op).touch := ⟨rfl, hsame, rfl⟩
    exact Or.inr ⟨hopen, data, core, hsigned, hadd.trans (sameOwn_advance env _)⟩
  refine (ends_localAppend_of op (fun _ => ⟨Or.inl (.refl room), Or.inl (.refl room)⟩) (fun hready => ?_)
    fun core' _ h _ => hdone core' h).mono (fun _ _ h => ?_) fun _ _ h => h
  · have hopen : room.ownRecovery = none := Option.not_isSome_iff_eq_none.mp fun h => hready (Or.inl h)
    refine (Hypercore.tree_append _ _).mono (fun _ core hsigned => ?_)
      fun _ _ hsame => Or.inl ⟨rfl, hsame, rfl⟩
    exact Hypercore.tree_persist.mono (fun _ core' hsame => ⟨hopen, _, core, hsigned, hsame⟩)
      fun _ core' hsame =>
      Or.inr ⟨hopen, _, core, hsigned, ⟨rfl, hsame, rfl⟩⟩
  · obtain ⟨-, core', h, -, rfl⟩ := h
    exact hdone core' h

theorem ends_checkpoint_own (room : Room K H Sig SK S F P) :
    Ends (checkpoint env) room (fun _ room' => OwnAppend env room room') fun _ room' =>
      OwnAppend env room room' :=
  ends_checkpoint_of (fun _ => ends_localAppend_own [] room) fun _ => Or.inl (.refl room)

variable [DecidableEq H]

theorem OwnAppend.moves (h : OwnAppend env room room') (heard : SignedHead H Sig → Prop) :
    OwnMoves env heard room room' := by
  obtain h | ⟨hopen, data, core, hsigned, h⟩ := h
  · exact .single (.other h)
  · exact (Relation.ReflTransGen.single (.sign hopen hsigned)).tail (.other h)

/-! ### Recovering -/

variable {heard : SignedHead H Sig → Prop}

/-- The gate is closed, for at least `n` blocks. -/
def Gated (n : ℕ) (room : Room K H Sig SK S F P) : Prop :=
  ∃ t bs, room.ownRecovery = some (t, bs) ∧ n ≤ t.length

theorem within_completeOwnRecovery_own {target : SignedHead H Sig} {bs : ExtTreeMap ℕ Block}
    (h : room.ownRecovery = some (target, bs)) (suffix : List Block) :
    Within (OwnMoves env heard) (completeOwnRecovery env target suffix) room fun _ _ => True := by
  have hmove : ∀ core d, Hypercore.Recovered env.crypto room.localCore target core →
      OwnMoves env heard room (room.withAdopted core d) := by
    intro core d hrec
    have hadopt : OwnMoves env heard room { room with localCore := core } := .single (.adopt h hrec)
    exact (hadopt.tail (.release h hrec)).tail (.other ⟨rfl, .refl _, rfl⟩)
  refine (ends_completeOwnRecovery_of (fun _ _ _ => True) ?_ (fun _ _ _ _ _ _ => trivial)
    fun core d _ hrec _ _ => hmove core d hrec).mono (fun _ _ h => ?_) fun _ _ h => h
  · exact (Hypercore.tree_recoverSignedSuffix _ target suffix).mono (fun _ _ h => h)
      fun _ _ hsame => .single (.other ⟨rfl, hsame, rfl⟩)
  · obtain ⟨core, d, hrec, -, -, rfl⟩ := h
    have hdrain : SameOwn (room.withAdopted core d) (room.withAdopted core d).drainPending.touch :=
      ⟨rfl, .refl _, rfl⟩
    exact ⟨(hmove core d hrec).tail (.other (hdrain.trans (sameOwn_advance env _))), trivial⟩

variable [DecidableEq Sig]

section Heard

variable (head : SignedHead H Sig)
  (hheard : verifySignedHead env.crypto (room.localCore.publicKey env.crypto) head = true →
    head.fork = room.localCore.fork → heard head)
include hheard

/-- A head that is accepted closes the gate for its blocks. -/
theorem within_beginOwnRecovery_own :
    Within (OwnMoves env heard) (beginOwnRecovery env head) room fun _ room' => Gated head.length room' := by
  unfold beginOwnRecovery
  apply Within.get
  split_ifs with hbad
  · exact Within.fail _
  · rw [Bool.or_eq_true, not_or, Bool.not_eq_true', Bool.not_eq_false, bne_iff_ne, ne_eq, not_not] at hbad
    have hhead := hheard hbad.1 hbad.2
    have hset : ∀ (hlonger : ∀ t bs, room.ownRecovery = some (t, bs) → t.length < head.length),
        Within (OwnMoves env heard)
          (set { room with ownRecovery := some (head, ∅) } : EStateM (RoomError E) _ _)
          room fun _ room' => Gated head.length room' :=
      fun hlonger => ⟨.single (.close hhead hlonger), head, ∅, rfl, le_rfl⟩
    split
    · rename_i hnone
      exact hset fun t bs hsome => by rw [hnone] at hsome; cases hsome
    · rename_i target bs hsome
      split_ifs with hlt heq hsame
      · exact Within.ret ⟨target, bs, hsome, hlt.le⟩
      · exact Within.ret ⟨target, bs, hsome, heq.le⟩
      · exact Within.fail _
      · refine hset fun t bs' ht => ?_
        rw [hsome] at ht
        cases ht
        omega

theorem within_checkOwnHead_own : Within (OwnMoves env heard) (checkOwnHead env head) room fun _ room' =>
      room.localCore.len < head.length → Gated head.length room' :=
  ends_checkOwnHead_of (fun _ => Ends.mono (within_beginOwnRecovery_own head hheard)
    (fun _ _ h => ⟨h.1, fun _ => h.2⟩) fun _ _ h => h) (fun _ => .refl) fun hshort =>
    ⟨.refl, fun h => absurd h (Nat.not_lt.mpr hshort)⟩

/-- A block under a head that is longer than the log closes the gate for the blocks of its
head; it may be the one that opens it. -/
theorem within_recoverOwnBlock_own (index : ℕ) (bytes : Block) (proof : Merkle.Proof H) :
    Within (OwnMoves env heard) (recoverOwnBlock env head index bytes proof) room fun _ room' =>
      room.localCore.len < head.length →
        ∃ room₁, OwnMoves env heard room room₁ ∧ Gated head.length room₁ ∧
        OwnMoves env heard room₁ room' := by
  refine ends_recoverOwnBlock_of (fun hshort => ⟨.refl, fun h => absurd h (Nat.not_lt.mpr hshort)⟩)
    (fun _ => .refl)
    fun _ _ => ?_
  refine Ends.mono (within_beginOwnRecovery_own head hheard) (fun _ room₁ h => ?_) fun _ _ h => h
  obtain ⟨hmoves, hclosed⟩ := h
  refine ⟨⟨hmoves, fun _ => ⟨room₁, hmoves, hclosed, .refl⟩⟩, fun _ => hmoves, fun target bs hsome => ?_⟩
  have hcollect :
    OwnMoves env heard room₁ { room₁ with ownRecovery := some (target, bs.insert index bytes) } :=
    .single (.collect hsome)
  have hmoves' := hmoves.trans hcollect
  refine ⟨⟨hmoves', fun _ => ⟨room₁, hmoves, hclosed, hcollect⟩⟩, fun suffix => ?_⟩
  exact Ends.mono (within_completeOwnRecovery_own rfl suffix) (fun _ _ h =>
    ⟨hmoves'.trans h.1, fun _ => ⟨room₁, hmoves, hclosed, hcollect.trans h.1⟩⟩) fun _ _ h => hmoves'.trans h

end Heard

/-! ### Calls -/

variable (env) in
/-- The call brings the own head `head`: it is signed by the own key and has the fork of the
local log. -/
def Hears (room : Room K H Sig SK S F P) (c : Call K H Sig) (head : SignedHead H Sig) : Prop :=
  ((∃ peer, c = .inbound peer (.head room.localKey head)) ∨
    ∃ peer i bytes proof, c = .inbound peer (.block room.localKey head i bytes proof)) ∧
  verifySignedHead env.crypto (room.localCore.publicKey env.crypto) head = true ∧
  head.fork = room.localCore.fork

omit [DecidableEq H] [DecidableEq Sig] in
/-- A call brings one head. -/
theorem Hears.unique {c : Call K H Sig} {head head' : SignedHead H Sig} (h : Hears env room c head)
    (h' : Hears env room c head') : head = head' := by
  obtain ⟨⟨_, rfl⟩ | ⟨_, _, _, _, rfl⟩, -⟩ := h <;>
    obtain ⟨⟨_, heq⟩ | ⟨_, _, _, _, heq⟩, -⟩ := h' <;> cases heq <;> rfl

/-- The head of a message. -/
def msgHead : SyncMessage K H Sig → Option (SignedHead H Sig)
  | .head _ head => some head
  | .block _ head _ _ _ => some head
  | _ => none

omit [DecidableEq H] [DecidableEq Sig] in
theorem Hears.msgHead_eq {peer : K} {msg : SyncMessage K H Sig} {head : SignedHead H Sig}
    (h : Hears env room (.inbound peer msg) head) : msgHead msg = some head := by
  obtain ⟨⟨_, heq⟩ | ⟨_, _, _, _, heq⟩, -⟩ := h <;> cases heq <;> rfl

variable (env) in
/-- On the way from `room` to `room'` the gate was closed for at least `n` blocks. -/
def ClosedFor (heard : SignedHead H Sig → Prop) (n : ℕ)
    (room room' : Room K H Sig SK S F P) : Prop :=
  ∃ room₁, OwnMoves env heard room room₁ ∧ Gated n room₁ ∧ OwnMoves env heard room₁ room'

theorem within_onInbound_own (peer : K) (msg : SyncMessage K H Sig) (room : Room K H Sig SK S F P) :
    Within (OwnMoves env (Hears env room (.inbound peer msg))) (onInbound env peer msg) room fun _ room' =>
      ∀ head, Hears env room (.inbound peer msg) head → room.localCore.len < head.length →
        ClosedFor env (Hears env room (.inbound peer msg)) head.length room room' := by
  have hno : (∀ head, msg ≠ .head room.localKey head) →
      (∀ head i bytes proof, msg ≠ .block room.localKey head i bytes proof) →
      ∀ head, ¬ Hears env room (.inbound peer msg) head := by
    rintro hhead hblock head ⟨⟨_, heq⟩ | ⟨_, i, bytes, proof, heq⟩, -⟩
    · exact hhead head (Call.inbound.inj heq).2
    · exact hblock head i bytes proof (Call.inbound.inj heq).2
  refine ends_onInbound_of peer
    (fun h h' => ⟨.refl, fun head hhears => absurd hhears (hno h h' head)⟩) (fun _ => .refl)
    (fun head hmsg => ?_) (fun head i bytes proof hmsg => ?_) fun w head i bytes proof hmsg hw => ?_
  · subst hmsg
    refine Ends.mono (within_checkOwnHead_own head fun hv hf => ⟨Or.inl ⟨peer, rfl⟩, hv, hf⟩)
      (fun _ room₁ h => ⟨h.1, fun head' hhears hlonger => ?_⟩) fun _ _ h => h
    obtain rfl : head = head' := Option.some.inj hhears.msgHead_eq
    exact ⟨room₁, h.1, h.2 hlonger, .refl⟩
  · subst hmsg
    refine Ends.mono (within_recoverOwnBlock_own head
      (fun hv hf => ⟨Or.inr ⟨peer, i, bytes, proof, rfl⟩, hv, hf⟩) i bytes proof)
      (fun _ _ h => ⟨h.1, fun head' hhears hlonger => ?_⟩) fun _ _ h => h
    obtain rfl : head = head' := Option.some.inj hhears.msgHead_eq
    exact h.2 hlonger
  · subst hmsg
    refine (ends_ingestRemoteBlock_of w head i bytes proof).mono
      (fun accepted room' h => ⟨.single (.other ?_),
      fun head' hhears => absurd hhears (hno (fun _ h => by cases h) (fun _ _ _ _ h => ?_) head')⟩)
      fun _ _ h => .single (.other h.sameOwn)
    · cases accepted with
      | false => exact OnRemotes.sameOwn h
      | true =>
        obtain ⟨room₁, e, h₁, -, rfl⟩ := h
        have hadd : SameOwn room₁ (room₁.tryAddNode ⟨w, i⟩ e).touch.drainPending := ⟨rfl, .refl _, rfl⟩
        exact (h₁.sameOwn.trans hadd).trans (sameOwn_advance env _)
    · exact hw (SyncMessage.block.inj h).1

/-- Every call is made of own moves, and one that brings a longer own head and succeeds closes
the gate. -/
theorem within_perform_own (c : Call K H Sig) (room : Room K H Sig SK S F P) :
    Within (OwnMoves env (Hears env room c)) (perform env c) room fun _ room' =>
      ∀ head, Hears env room c head → room.localCore.len < head.length →
        ClosedFor env (Hears env room c) head.length room room' := by
  have happend : ∀ {x : EStateM (RoomError E) (Room K H Sig SK S F P) (List (Outbound K H Sig))},
      (∀ peer msg, c ≠ .inbound peer msg) →
      Ends x room (fun _ room' => OwnAppend env room room') (fun _ room' => OwnAppend env room room') →
      Within (OwnMoves env (Hears env room c)) x room fun _ room' =>
        ∀ head, Hears env room c head → room.localCore.len < head.length →
          ClosedFor env (Hears env room c) head.length room room' := by
    intro x hc h
    refine within_iff.mpr
      (h.mono (fun _ _ h' => ⟨h'.moves _, fun head hhears _ => ?_⟩) fun _ _ h' => h'.moves _)
    obtain ⟨⟨_, heq⟩ | ⟨_, _, _, _, heq⟩, -⟩ := hhears <;> exact absurd heq (hc _ _)
  cases c with
  | inbound peer msg => exact within_onInbound_own peer msg room
  | append op => exact happend (fun _ _ => nofun) (ends_localAppend_own op room)
  | checkpoint => exact happend (fun _ _ => nofun) (ends_checkpoint_own room)

/-! ### One history -/

section History

variable {L : ℕ → Block} {n : ℕ}

variable (env) in
omit [DecidableEq H] [DecidableEq Sig] [LinearOrder K] in
/-- `head` is the head of the first blocks of `L`. -/
def HeadOf (L : ℕ → Block) (head : SignedHead H Sig) : Prop :=
  head.root = env.crypto.hasher.treeHash (rootsOf env.crypto.hasher (firstBlocks L head.length))

instance (L : ℕ → Block) (head : SignedHead H Sig) : Decidable (HeadOf env L head) :=
  inferInstanceAs (Decidable (_ = _))

variable (env) in
/-- What is being recovered is of `L`. -/
def Targets (L : ℕ → Block) (room : Room K H Sig SK S F P) : Prop :=
  ∀ t bs, room.ownRecovery = some (t, bs) → HeadOf env L t

variable (env) in
/-- The first `n` blocks of `L` are being recovered, or they are the first of the local log. -/
def Secured (L : ℕ → Block) (n : ℕ) (room : Room K H Sig SK S F P) : Prop :=
  Gated n room ∨ ∃ B, Merkle.Built env.crypto.hasher B room.localCore.tree ∧ firstBlocks L n <+: B

theorem firstBlocks_mono {m n : ℕ} (h : m ≤ n) : firstBlocks L m <+: firstBlocks L n := by
  refine List.IsPrefix.map L (List.prefix_iff_eq_take.mpr ?_)
  rw [List.length_range, List.take_range, Nat.min_eq_left h]

variable {t : SignedHead H Sig}

omit [DecidableEq Sig] [LinearOrder K] in
/-- A feed that verifies under a head of `L` is of `L`. -/
theorem HeadOf.feed_eq (ideal : env.crypto.hasher.Ideal) (ht : HeadOf env L t) {key : K} {blocks : List Block}
    (hv : verifyArchivedFeed env.crypto key t blocks = true) :
    blocks = firstBlocks L t.length := by
  obtain ⟨-, hroot, -⟩ := verifyArchivedFeed_iff.mp hv
  exact rootsOf_inj ideal (ideal.tree (hroot.symm.trans ht))

omit [DecidableEq Sig] in
/-- A log recovered under a head of `L` begins with its blocks. -/
theorem secured_of_recovered (ideal : env.crypto.hasher.Ideal) (ht : HeadOf env L t)
    {core : Hypercore H Sig SK S} (h : Hypercore.Recovered env.crypto core t room.localCore)
    (hn : n ≤ t.length) : Secured env L n room := by
  obtain ⟨blocks, hv, -, htree⟩ := h.feed
  obtain rfl := ht.feed_eq ideal hv
  refine Or.inr ⟨firstBlocks L t.length, ?_, firstBlocks_mono hn⟩
  rw [htree]
  exact built_ofBlocks _ _

omit [DecidableEq Sig] in
theorem Targets.move (hheard : ∀ head, heard head → HeadOf env L head) (h : Targets env L room)
    (hm : OwnMove env heard room room') : Targets env L room' := by
  cases hm with
  | other hsame => exact fun t bs ht => h t bs (hsame.recovery ▸ ht)
  | close hhead _ =>
    intro t bs ht
    cases ht
    exact hheard _ hhead
  | collect hsome =>
    intro t bs ht
    cases ht
    exact h _ _ hsome
  | adopt _ _ => exact h
  | release _ _ => exact fun t bs ht => nomatch ht
  | sign _ _ => exact h

omit [DecidableEq Sig] in
/-- What is secured stays so. -/
theorem Secured.move (ideal : env.crypto.hasher.Ideal) (htargets : Targets env L room)
    (h : Secured env L n room) (hm : OwnMove env heard room room') : Secured env L n room' := by
  cases hm with
  | other hsame =>
    obtain ⟨t, bs, ht, hn⟩ | ⟨B, hB, hL⟩ := h
    · exact Or.inl ⟨t, bs, hsame.recovery.trans ht, hn⟩
    · exact Or.inr ⟨B, hsame.core.tree ▸ hB, hL⟩
  | @close head _ hlonger =>
    obtain ⟨t, bs, ht, hn⟩ | hlog := h
    · exact Or.inl ⟨head, ∅, rfl, hn.trans (hlonger t bs ht).le⟩
    · exact Or.inr hlog
  | @collect t bs bs' hsome =>
    obtain ⟨t', bs₀, ht, hn⟩ | hlog := h
    · rw [hsome] at ht
      cases ht
      exact Or.inl ⟨t, bs', rfl, hn⟩
    · exact Or.inr hlog
  | @adopt t bs core hsome hrec =>
    obtain hgated | ⟨B, hB, hL⟩ := h
    · exact Or.inl hgated
    · refine secured_of_recovered ideal (htargets t bs hsome) hrec ?_
      -- the log that is replaced was not longer than the target
      obtain ⟨blocks, hv, hlen, -⟩ := hrec.feed
      have hlog := hL.length_le
      rw [length_firstBlocks, ← hB.length_eq] at hlog
      rw [(verifyArchivedFeed_iff.mp hv).1]
      exact hlog.trans hlen
  | @release t bs core hsome hrec =>
    obtain ⟨t', bs', ht, hn⟩ | hlog := h
    · rw [hsome] at ht
      cases ht
      exact secured_of_recovered ideal (htargets _ _ hsome) hrec hn
    · exact Or.inr hlog
  | @sign data core hopen hsigned =>
    obtain ⟨t, bs, ht, -⟩ | ⟨B, hB, hL⟩ := h
    · rw [hopen] at ht
      cases ht
    · refine Or.inr ⟨B ++ [data], ?_, hL.trans (List.prefix_append B [data])⟩
      show Merkle.Built _ _ core.tree
      rw [hsigned.tree]
      exact hB.append data

omit [DecidableEq Sig] in
theorem Secured.moves (ideal : env.crypto.hasher.Ideal) (hheard : ∀ head, heard head → HeadOf env L head)
    (htargets : Targets env L room) (hm : OwnMoves env heard room room') :
    Targets env L room' ∧ (Secured env L n room → Secured env L n room') := by
  induction hm with
  | refl => exact ⟨htargets, id⟩
  | tail _ hstep ih => exact ⟨ih.1.move hheard hstep, fun h => (ih.2 h).move ideal ih.1 hstep⟩

variable (env) in
/-- The rooms reached from `room₀` by calls that succeed or fail; every own head they bring is
of `L`. -/
inductive Session (L : ℕ → Block) (room₀ : Room K H Sig SK S F P) :
    Room K H Sig SK S F P → Prop
  | start : Session L room₀ room₀
  | call {room : Room K H Sig SK S F P} (c : Call K H Sig) : Session L room₀ room →
      (∀ head, Hears env room c head → HeadOf env L head) → Session L room₀ (after (perform env c) room)

theorem Session.secured (ideal : env.crypto.hasher.Ideal) (htargets : Targets env L room₀)
    (h : Session env L room₀ room) :
    Targets env L room ∧ (Secured env L n room₀ → Secured env L n room) := by
  induction h with
  | start => exact ⟨htargets, id⟩
  | call c _ hheard ih =>
    obtain ⟨htargets', hkeep⟩ := Secured.moves (n := n) ideal hheard ih.1 (within_perform_own c _).after
    exact ⟨htargets', fun h => hkeep (ih.2 h)⟩

variable (env) in
/-- The call signs `head`: only an append or a checkpoint signs, and what is signed is the new
head of the local log. -/
def Signs (room : Room K H Sig SK S F P) (c : Call K H Sig) (head : SignedHead H Sig) : Prop :=
  (∀ peer msg, c ≠ .inbound peer msg) ∧ room.localCore.head ≠ some head ∧
    (after (perform env c) room).localCore.head = some head

/-- What is signed extends the local log, and the gate is open. -/
theorem Signs.ownAppend {c : Call K H Sig} {head : SignedHead H Sig} (h : Signs env room c head) :
    room.ownRecovery = none ∧ ∃ data core, Hypercore.Signed env.crypto room.localCore data core ∧
      core.head = some head := by
  obtain ⟨hcall, hnew, hhead⟩ := h
  have happend : OwnAppend env room (after (perform env c) room) := by
    cases c with
    | inbound peer msg => exact absurd rfl (hcall peer msg)
    | append op => exact (ends_localAppend_own op room).always (fun _ _ h => h) fun _ _ h => h
    | checkpoint => exact (ends_checkpoint_own room).always (fun _ _ h => h) fun _ _ h => h
  obtain hsame | ⟨hopen, data, core, hsigned, hsame⟩ := happend
  · rw [hsame.core.head] at hhead
    exact absurd hhead hnew
  · refine ⟨hopen, data, core, hsigned, ?_⟩
    rw [← hhead, hsame.core.head]

omit [DecidableEq Sig] in
/-- An opened room recovers nothing yet. -/
theorem targets_openRoom {cfg : RoomConfig K SK} {f : F} {p : P} (hopen : openRoom env cfg f p = .ok room) :
    Targets env L room := by
  obtain ⟨core, f', base, -, hremotes, hreplay⟩ := openRoom_eq_ok hopen
  obtain ⟨remotes, factory, rfl⟩ := openRemotes_ok hremotes
  obtain ⟨_, d, rfl, -⟩ :=
    (ends_replay_of (fun _ _ => True) (fun _ _ _ => trivial) fun _ _ _ _ _ _ => trivial).ok hreplay
  intro t bs ht
  have hnone := (sameOwn_advance env _).recovery.symm.trans ht
  cases hnone

/-- **A head heard once is never contradicted.** In every session of a room, once an own head
that is longer than the local log was processed without error, every head signed later is
longer and its first blocks are those of `L`; while the gate is closed nothing is signed. -/
theorem never_double_signs (ideal : env.crypto.hasher.Ideal) {cfg : RoomConfig K SK} {f : F} {p : P}
    (hopen : openRoom env cfg f p = .ok room₀) (hrun : Session env L room₀ room) {c : Call K H Sig}
    {head : SignedHead H Sig} (hhears : Hears env room c head) (hlonger : room.localCore.len < head.length)
    (hL : HeadOf env L head) {out : List (Outbound K H Sig)} (hok : perform env c room = .ok out room₁)
    (hlater : Session env L room₁ room₂) {c' : Call K H Sig} {head' : SignedHead H Sig}
    (hsigns : Signs env room₂ c' head') :
    head.length < head'.length ∧ room₂.ownRecovery = none ∧ ∃ B, firstBlocks L head.length <+: B ∧
      head'.length = B.length ∧
      head'.root = env.crypto.hasher.treeHash (rootsOf env.crypto.hasher B) := by
  have hheard : ∀ h, Hears env room c h → HeadOf env L h := by
    intro h hh
    rwa [hhears.unique hh] at hL
  obtain ⟨htargets, -⟩ := hrun.secured (n := head.length) ideal (targets_openRoom hopen)
  obtain ⟨hmoves, hclosed⟩ := (within_perform_own c room).ok hok
  obtain ⟨room', hbefore, hgated, hafter⟩ := hclosed head hhears hlonger
  obtain ⟨htargets', -⟩ := Secured.moves (n := head.length) ideal hheard htargets hbefore
  obtain ⟨htargets₁, hkeep⟩ := Secured.moves (n := head.length) ideal hheard htargets' hafter
  have hsecured := (hlater.secured ideal htargets₁).2 (hkeep (Or.inl hgated))
  obtain ⟨hgate, data, core, hsigned, hhead⟩ := hsigns.ownAppend
  obtain ⟨t, bs, ht, -⟩ | ⟨B, hB, hfront⟩ := hsecured
  · rw [hgate] at ht
    cases ht
  · obtain ⟨head'', hhead'', hlen, hroot⟩ := hsigned.head
    obtain rfl : head' = head'' := Option.some.inj (hhead.symm.trans hhead'')
    have hbuilt : Merkle.Built env.crypto.hasher (B ++ [data]) core.tree := hsigned.tree ▸ hB.append data
    have hlog : room₂.localCore.len = B.length := hB.length_eq
    have hn := hfront.length_le
    rw [length_firstBlocks] at hn
    refine ⟨by omega, hgate, B ++ [data], hfront.trans (List.prefix_append B [data]), ?_, ?_⟩
    · rw [hlen, hlog, List.length_append, List.length_singleton]
    · exact (Option.some.inj (hbuilt.rootHash.symm.trans hroot)).symm

end History

/-! ### A feed of two blocks comes back -/

/-- The history of the local writer before it lost its disk. -/
def ownFeed : List Block := [entryCodec.encode ⟨[], [1]⟩, entryCodec.encode ⟨[⟨0, 0⟩], [2]⟩]

/-- The room after the first block of the feed, after a refused append and the second block,
and after an append. -/
def recoveredRooms (first second : SyncMessage WriterKey Digest (WriterKey × HeadMessage Digest))
    (room₀ : MemoryRoom) : Option (MemoryRoom × MemoryRoom × MemoryRoom) :=
  match perform inMemory (.inbound 9 first) room₀ with
  | .ok _ room₁ =>
    let room₂ := performAll inMemory [.append [9], .inbound 9 second] room₁
    some (room₁, room₂, after (perform inMemory (.append [7])) room₂)
  | .error _ _ => none

theorem recoveredRooms_eq_some
    {first second : SyncMessage WriterKey Digest (WriterKey × HeadMessage Digest)}
    {room₀ room₁ room₂ room₃ : MemoryRoom}
    (h : recoveredRooms first second room₀ = some (room₁, room₂, room₃)) :
    (∃ out, perform inMemory (.inbound 9 first) room₀ = .ok out room₁) ∧
      room₂ = performAll inMemory [.append [9], .inbound 9 second] room₁ ∧
      room₃ = after (perform inMemory (.append [7])) room₂ := by
  unfold recoveredRooms at h
  split at h
  · rename_i out room hfirst
    cases h
    exact ⟨⟨out, hfirst⟩, rfl, rfl⟩
  · cases h

/-- A head of two blocks is heard, an append is refused, the blocks come back, and the next
append signs a head of three blocks over them. -/
theorem never_double_signs_recovered : ∃ (room₀ room₂ : MemoryRoom)
    (head head' : SignedHead Digest (WriterKey × HeadMessage Digest)),
    openRoom inMemory ⟨0, [], .original⟩ () () = .ok room₀ ∧ head.length = 2 ∧
    Signs inMemory room₂ (.append [7]) head' ∧ head.length < head'.length ∧
    ∃ B, ownFeed <+: B ∧ head'.root = Hasher.symbolic.treeHash (rootsOf .symbolic B) := by
  have hcheck : ((openRoom inMemory ⟨0, [], .original⟩ () ()).toOption.any fun room₀ =>
      (signedBlock 0 ownFeed 0).any fun first => (signedBlock 0 ownFeed 1).any fun second =>
        (msgHead first).any fun head => (recoveredRooms first second room₀).any fun p =>
          decide ((inMemory.crypto.publicOf 0 = room₀.localKey ∧
            verifySignedHead inMemory.crypto (room₀.localCore.publicKey inMemory.crypto) head = true ∧
            head.fork = room₀.localCore.fork) ∧ head.length = 2 ∧ room₀.localCore.len < head.length ∧
            msgHead second = some head ∧ HeadOf inMemory (fun i => ownFeed.getD i []) head ∧
            p.2.2.localCore.head.isSome ∧ p.2.1.localCore.head ≠ p.2.2.localCore.head)) = true := by
    decide +kernel
  obtain ⟨room₀, hopen, hcheck⟩ := exists_of_any hcheck
  obtain ⟨first, hfirst, hcheck⟩ := (Option.any_eq_true _ _).mp hcheck
  obtain ⟨second, -, hcheck⟩ := (Option.any_eq_true _ _).mp hcheck
  obtain ⟨head, hhead, hcheck⟩ := (Option.any_eq_true _ _).mp hcheck
  obtain ⟨⟨room₁, room₂, room₃⟩, hrooms, hcheck⟩ := (Option.any_eq_true _ _).mp hcheck
  obtain ⟨⟨hkey, hv, hfork⟩, htwo, hlonger, hsecond, hL, hsome, hnew⟩ := of_decide_eq_true hcheck
  obtain ⟨⟨out, hok⟩, rfl, rfl⟩ := recoveredRooms_eq_some hrooms
  obtain ⟨head', hhead'⟩ := Option.isSome_iff_exists.mp hsome
  have hhears : Hears inMemory room₀ (.inbound 9 first) head := by
    obtain ⟨head₀, bytes, proof, rfl⟩ := signedBlock_eq_some hfirst
    obtain rfl : head₀ = head := Option.some.inj hhead
    exact ⟨Or.inr ⟨9, 0, bytes, proof, by rw [hkey]⟩, hv, hfork⟩
  have hlater : Session inMemory (fun i => ownFeed.getD i []) room₁
      (performAll inMemory [.append [9], .inbound 9 second] room₁) := by
    refine (Session.start.call (.append [9]) fun h hh => ?_).call (.inbound 9 second) fun h hh => ?_
    · obtain ⟨⟨_, heq⟩ | ⟨_, _, _, _, heq⟩, -⟩ := hh <;> cases heq
    · obtain rfl : head = h := Option.some.inj (hsecond.symm.trans hh.msgHead_eq)
      exact hL
  have hsigns : Signs inMemory (performAll inMemory [.append [9], .inbound 9 second] room₁) (.append [7])
      head' := ⟨fun _ _ => nofun, hhead' ▸ hnew, hhead'⟩
  obtain ⟨hless, -, B, hfront, -, hroot⟩ := never_double_signs Hasher.symbolic_ideal hopen .start hhears
    hlonger hL hok hlater hsigns
  rw [htwo] at hfront
  exact ⟨room₀, _, head, head', hopen, htwo, hsigns, hless, B, hfront, hroot⟩

end Room
end HypercoreRs
