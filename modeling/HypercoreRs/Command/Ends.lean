/-
# The two ends of a fallible command

A method that takes `&mut self` and returns a `Result` leaves its object changed up
to the point where `?` returned: the state survives the error, and `EStateM` computes
like that. `Ends x s Q F` says what is to be known of such a command `x` started in `s`
when its two ways to end are kept apart: a value it returns and the state then satisfy
`Q`, an error and the state it leaves satisfy `F`. The rule of sequence asks for `F`
wherever either command may fail.

A method called on one part of an object is `zoom`, and `Ends.zoom` carries what is known
of the part to the whole.
-/
import Mathlib.Logic.Relation
import Mathlib.Data.Nat.Notation

namespace HypercoreRs
namespace Command

variable {ε ε' σ τ α β : Type}

/-- The command `x` on the part of the state that `get` reads and `set` replaces,
its errors translated by `conv`. -/
def zoom (get : σ → τ) (set : τ → σ → σ) (conv : ε' → ε) (x : EStateM ε' τ α) : EStateM ε σ α :=
  fun s => match x (get s) with
    | .ok a t => .ok a (set t s)
    | .error e t => .error (conv e) (set t s)

/-- A computation that only reads. -/
def reads (conv : ε' → ε) : Except ε' α → EStateM ε σ α
  | .ok a => pure a
  | .error e => throw (conv e)

/-- The state after a command, failed or not. -/
def after (x : EStateM ε σ α) (s : σ) : σ :=
  match x s with
  | .ok _ s' => s'
  | .error _ s' => s'

/-- The command `x`, with `undo` applied to the state where it fails. -/
def onError (x : EStateM ε σ α) (undo : σ → σ) : EStateM ε σ α := fun s =>
  match x s with
  | .ok a s' => .ok a s'
  | .error e s' => .error e (undo s')

/-- `x` from `s` returns a value with `Q`, or fails with `F`. -/
def Ends (x : EStateM ε σ α) (s : σ) (Q : α → σ → Prop) (F : ε → σ → Prop) : Prop :=
  match x s with
  | .ok a s' => Q a s'
  | .error e s' => F e s'

/-- The command returned. -/
def returned : EStateM.Result ε σ α → Bool
  | .ok _ _ => true
  | .error _ _ => false

/-- The command returned, in a state with `p`. -/
def returnedIn (p : σ → Bool) : EStateM.Result ε σ α → Bool
  | .ok _ s => p s
  | .error _ _ => false

section Results

variable {r : EStateM.Result ε σ α}

theorem exists_of_returned (h : returned r = true) : ∃ a s, r = .ok a s := by
  cases r with
  | ok a s => exact ⟨a, s, rfl⟩
  | error e s => cases h

theorem exists_of_not_returned (h : returned r = false) : ∃ e s, r = .error e s := by
  cases r with
  | ok a s => cases h
  | error e s => exact ⟨e, s, rfl⟩

theorem exists_of_returnedIn {p : σ → Bool} (h : returnedIn p r = true) :
    ∃ a s, r = .ok a s ∧ p s = true := by
  cases r with
  | ok a s => exact ⟨a, s, rfl, h⟩
  | error e s => cases h

end Results

variable {x : EStateM ε σ α} {f : α → EStateM ε σ β} {s s' : σ} {a : α} {b : β} {e : ε}

theorem bind_eq : (x >>= f) s = match x s with
    | .ok a s' => f a s'
    | .error e s' => .error e s' := rfl

/-- Two commands in sequence succeed when both do. -/
theorem bind_eq_ok : (x >>= f) s = .ok b s' ↔ ∃ a s₁, x s = .ok a s₁ ∧ f a s₁ = .ok b s' := by
  rw [bind_eq]
  cases x s with
  | error e s₁ => simp
  | ok a s₁ => simp [and_assoc]

/-- They fail when the first does, or the second after it. -/
theorem bind_eq_error : (x >>= f) s = .error e s' ↔
    x s = .error e s' ∨ ∃ a s₁, x s = .ok a s₁ ∧ f a s₁ = .error e s' := by
  rw [bind_eq]
  cases x s with
  | error e₁ s₁ => simp
  | ok a s₁ => simp [and_assoc]

theorem zoom_eq_ok {get : σ → τ} {set : τ → σ → σ} {conv : ε' → ε} {x : EStateM ε' τ α} :
    zoom get set conv x s = .ok a s' ↔ ∃ t, x (get s) = .ok a t ∧ s' = set t s := by
  unfold zoom
  cases x (get s) with
  | ok a' t => simp [and_assoc, eq_comm]
  | error e t => simp

namespace Ends

variable {Q Q' : α → σ → Prop} {F F' : ε → σ → Prop}

theorem iff : Ends x s Q F ↔ (∀ a s', x s = .ok a s' → Q a s') ∧ ∀ e s', x s = .error e s' → F e s' := by
  unfold Ends
  cases x s with
  | ok a s' => simp
  | error e s' => simp

theorem ok (h : Ends x s Q F) (hx : x s = .ok a s') : Q a s' := (iff.mp h).1 a s' hx

theorem error (h : Ends x s Q F) (hx : x s = .error e s') : F e s' := (iff.mp h).2 e s' hx

theorem of_ok (hx : x s = .ok a s') (h : Q a s') : Ends x s Q F := by
  unfold Ends
  rw [hx]
  exact h

/-- A command that cannot fail returns. -/
theorem exists_ok (h : Ends x s Q fun _ _ => False) : ∃ a s', x s = .ok a s' ∧ Q a s' := by
  cases hx : x s with
  | ok a s' => exact ⟨a, s', rfl, h.ok hx⟩
  | error e s' => exact (h.error hx).elim

/-- A command ends as it ends. -/
theorem self (x : EStateM ε σ α) (s : σ) :
    Ends x s (fun a s' => x s = .ok a s') fun e s' => x s = .error e s' :=
  iff.mpr ⟨fun _ _ h => h, fun _ _ h => h⟩

/-- Nothing is known of the ends. -/
theorem any (x : EStateM ε σ α) (s : σ) : Ends x s (fun _ _ => True) fun _ _ => True :=
  iff.mpr ⟨fun _ _ _ => trivial, fun _ _ _ => trivial⟩

theorem mono (h : Ends x s Q F) (hQ : ∀ a s', Q a s' → Q' a s') (hF : ∀ e s', F e s' → F' e s') :
    Ends x s Q' F' :=
  iff.mpr ⟨fun a s' hx => hQ a s' (h.ok hx), fun e s' hx => hF e s' (h.error hx)⟩

variable {P : σ → Prop}

theorem always (h : Ends x s Q F) (hQ : ∀ a s', Q a s' → P s') (hF : ∀ e s', F e s' → P s') :
    P (after x s) := by
  unfold Command.after
  cases hx : x s with
  | ok a s' => exact hQ a s' (h.ok hx)
  | error e s' => exact hF e s' (h.error hx)

/-- What the end state satisfies either way. -/
theorem of_after (h : P (after x s)) : Ends x s (fun _ s' => P s') fun _ s' => P s' := by
  unfold after at h
  refine iff.mpr ⟨fun a s' hx => ?_, fun e s' hx => ?_⟩
  · rwa [hx] at h
  · rwa [hx] at h

theorem and_ok (h : Ends x s Q F) (hok : ∀ a s', x s = .ok a s' → Q' a s') :
    Ends x s (fun a s' => Q a s' ∧ Q' a s') F :=
  iff.mpr ⟨fun a s' hx => ⟨h.ok hx, hok a s' hx⟩, fun _ _ hx => h.error hx⟩

theorem and_error (h : Ends x s Q F) (herror : ∀ e s', x s = .error e s' → F' e s') :
    Ends x s Q fun e s' => F e s' ∧ F' e s' :=
  iff.mpr ⟨fun _ _ hx => h.ok hx, fun e s' hx => ⟨h.error hx, herror e s' hx⟩⟩

theorem pure (h : Q a s) : Ends (Pure.pure a : EStateM ε σ α) s Q F := h

theorem throw (h : F e s) : Ends (throw e : EStateM ε σ α) s Q F := h

/-- A command that first looks at the state. -/
theorem get {f : σ → EStateM ε σ α} (h : Ends (f s) s Q F) : Ends (MonadState.get >>= f) s Q F := h

theorem modify {f : σ → σ} {Q : Unit → σ → Prop} (h : Q () (f s)) :
    Ends (modify f : EStateM ε σ Unit) s Q F := h

theorem set {Q : PUnit → σ → Prop} (h : Q ⟨⟩ s') :
    Ends (MonadStateOf.set s' : EStateM ε σ PUnit) s Q F := h

/-- The second command goes on where the first returned; `F'` is weakened to `F` where the
first fails. -/
theorem andThen {Q' : β → σ → Prop} (hx : Ends x s Q F') (hF : ∀ e s', F' e s' → F e s')
    (hf : ∀ a s', Q a s' → Ends (f a) s' Q' F) : Ends (x >>= f) s Q' F := by
  unfold Ends
  rw [bind_eq]
  cases h : x s with
  | ok a s' => exact hf a s' (hx.ok h)
  | error e s' => exact hF e s' (hx.error h)

theorem bind {Q' : β → σ → Prop} (hx : Ends x s Q F)
    (hf : ∀ a s', Q a s' → Ends (f a) s' Q' F) : Ends (x >>= f) s Q' F :=
  hx.andThen (fun _ _ h => h) hf

/-- A command whose answer is dropped. -/
theorem drop (h : Ends x s Q F) : Ends (do let _ ← x) s (fun _ s' => ∃ a, Q a s') F :=
  h.bind fun a _ ha => Ends.pure ⟨a, ha⟩

variable {g : PUnit → EStateM ε σ α}

/-- A change of the state, and what follows it. -/
theorem update {f : σ → σ} (h : Ends (g ⟨⟩) (f s) Q F) :
    Ends (MonadStateOf.modifyGet (fun s => (PUnit.unit, f s)) >>= g) s Q F := h

theorem assign (h : Ends (g ⟨⟩) s' Q F) :
    Ends (MonadStateOf.set s' >>= g) s Q F := h

variable {conv : ε' → ε}

/-- A computation that only reads. -/
theorem reads {x : Except ε' α} (hok : ∀ a, x = .ok a → Q a s) (herror : ∀ e, x = .error e → F (conv e) s) :
    Ends (Command.reads conv x) s Q F := by
  cases x with
  | ok a => exact hok a rfl
  | error e => exact herror e rfl

/-- Reading changes nothing, and goes on with what was read. -/
theorem look {x : Except ε' β} {f : β → EStateM ε σ α} (herror : ∀ e, x = .error e → F (conv e) s)
    (hok : ∀ b, x = .ok b → Ends (f b) s Q F) : Ends (Command.reads conv x >>= f) s Q F := by
  cases x with
  | ok b => exact hok b rfl
  | error e => exact herror e rfl

theorem onError {undo : σ → σ} (hx : Ends x s Q F') (hF : ∀ e s', F' e s' → F e (undo s')) :
    Ends (onError x undo) s Q F := by
  unfold Ends Command.onError
  cases h : x s with
  | ok a s' => exact hx.ok h
  | error e s' => exact hF e s' (hx.error h)

/-- What a command does to a part, it does to the whole. -/
theorem zoom {get : σ → τ} {set : τ → σ → σ} {x : EStateM ε' τ α} {Q' : α → τ → Prop}
    {F' : ε' → τ → Prop} (hx : Ends x (get s) Q' F') (hQ : ∀ a t, Q' a t → Q a (set t s))
    (hF : ∀ e t, F' e t → F (conv e) (set t s)) : Ends (zoom get set conv x) s Q F := by
  unfold Ends Command.zoom
  cases h : x (get s) with
  | ok a t => exact hQ a t (hx.ok h)
  | error e t => exact hF e t (hx.error h)

/-- A command on a part, and what follows it. -/
theorem focus {get : σ → τ} {set : τ → σ → σ} {x : EStateM ε' τ β} {f : β → EStateM ε σ α} {Q' : β → τ → Prop}
    {F' : ε' → τ → Prop} (hx : Ends x (get s) Q' F') (hF : ∀ e t, F' e t → F (conv e) (set t s))
    (hf : ∀ b t, Q' b t → Ends (f b) (set t s) Q F) : Ends (Command.zoom get set conv x >>= f) s Q F :=
  (hx.zoom (Q := fun b s' => Ends (f b) s' Q F) hf hF).bind fun _ _ h => h

end Ends

end Command
end HypercoreRs
