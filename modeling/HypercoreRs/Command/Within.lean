/-
# What a fallible command does to its state

`Within R x s Q` says that the command `x` started in `s` ends, failed or not, in a state
that `R` allows, and that where it returns a value that value and the state satisfy `Q`.

For a reflexive and transitive `R` the rule of sequence is `Within.bind`: `R` is
composed, and only the first command's postcondition is left to reason with.
-/
import HypercoreRs.Command.Ends

namespace HypercoreRs
namespace Command

variable {ε ε' σ τ α β : Type}

/-- Every end state of `x` from `s` is one `R` allows; a value returned satisfies `Q`. -/
def Within (R : σ → σ → Prop) (x : EStateM ε σ α) (s : σ) (Q : α → σ → Prop) : Prop :=
  match x s with
  | .ok a s' => R s s' ∧ Q a s'
  | .error _ s' => R s s'

/-! ### The rules -/

variable {R : σ → σ → Prop} {s : σ} {Q : α → σ → Prop} {x : EStateM ε σ α}

theorem within_iff : Within R x s Q ↔ Ends x s (fun a s' => R s s' ∧ Q a s') fun _ s' => R s s' := Iff.rfl

theorem Within.mono {R' : σ → σ → Prop} {Q' : α → σ → Prop} (h : Within R x s Q)
    (hR : ∀ s', R s s' → R' s s') (hQ : ∀ a s', R s s' → Q a s' → Q' a s') : Within R' x s Q' :=
  within_iff.mpr ((within_iff.mp h).mono (fun a s' h => ⟨hR s' h.1, hQ a s' h.1 h.2⟩) fun _ => hR)

theorem Within.any (x : EStateM ε σ α) (s : σ) : Within (fun _ _ => True) x s fun _ _ => True :=
  within_iff.mpr ((Ends.any x s).mono (fun _ _ _ => ⟨trivial, trivial⟩) fun _ _ h => h)

/-- The end state is one `R` allows. -/
theorem Within.after (h : Within R x s Q) : R s (after x s) :=
  (within_iff.mp h).always (fun _ _ h => h.1) fun _ _ h => h

/-- What a returned value satisfies. -/
theorem Within.ok (h : Within R x s Q) {a : α} {s' : σ} (hx : x s = .ok a s') : R s s' ∧ Q a s' :=
  (within_iff.mp h).ok hx

theorem Within.pure (hR : ∀ s, R s s) {a : α} (h : Q a s) :
    Within R (Pure.pure a : EStateM ε σ α) s Q := ⟨hR s, h⟩

theorem Within.throw (hR : ∀ s, R s s) (e : ε) : Within R (throw e : EStateM ε σ α) s Q := hR s

/-- A command that first looks at the state. -/
theorem Within.get {f : σ → EStateM ε σ α} (h : Within R (f s) s Q) :
    Within R (MonadState.get >>= f) s Q := h

theorem Within.modify {Q : Unit → σ → Prop} {f : σ → σ} (hR : R s (f s)) (h : Q () (f s)) :
    Within R (modify f : EStateM ε σ Unit) s Q := ⟨hR, h⟩

theorem Within.bind (hR : ∀ s₁ s₂ s₃, R s₁ s₂ → R s₂ s₃ → R s₁ s₃)
    {f : α → EStateM ε σ β} {Q' : β → σ → Prop} (hx : Within R x s Q)
    (hf : ∀ a s', R s s' → Q a s' → Within R (f a) s' Q') : Within R (x >>= f) s Q' := by
  refine within_iff.mpr ((within_iff.mp hx).bind fun a s' h => ?_)
  refine (within_iff.mp (hf a s' h.1 h.2)).mono (fun b s₂ h₂ => ?_) fun _ s₂ h₂ => ?_
  · exact ⟨hR _ _ _ h.1 h₂.1, h₂.2⟩
  · exact hR _ _ _ h.1 h₂

/-- Commands that compute alike here. -/
theorem Within.congr {y : EStateM ε σ α} (h : Within R y s Q) (hxy : x s = y s) :
    Within R x s Q := by
  unfold Within at h ⊢
  rwa [hxy]

/-- Where only the end state counts, the first command's end state is followed by the
second's. -/
theorem Within.andThen {C : σ → Prop} {f : α → EStateM ε σ β}
    {Q' : β → σ → Prop} (hx : Within (fun _ s' => C s') x s Q)
    (hf : ∀ a s', Q a s' → Within (fun _ s'' => C s'') (f a) s' Q') :
    Within (fun _ s' => C s') (x >>= f) s Q' :=
  Within.bind (fun _ _ _ _ h => h) hx fun a s' _ hQ => hf a s' hQ

/-- What a command does to a part, it does to the whole. -/
theorem Within.zoom {get : σ → τ} {set : τ → σ → σ} {conv : ε' → ε} {x : EStateM ε' τ α}
    {R' : τ → τ → Prop} {Q' : α → τ → Prop} (hx : Within R' x (get s) Q')
    (hR : ∀ t, R' (get s) t → R s (set t s))
    (hQ : ∀ a t, R' (get s) t → Q' a t → Q a (set t s)) : Within R (zoom get set conv x) s Q :=
  within_iff.mpr ((within_iff.mp hx).zoom (fun a t h => ⟨hR t h.1, hQ a t h.1 h.2⟩) fun _ => hR)

/-! ### Any number of steps -/

section Steps

variable {r : σ → σ → Prop}

open Relation (ReflTransGen)

theorem Within.ret {a : α} (h : Q a s) : Within (ReflTransGen r) (Pure.pure a : EStateM ε σ α) s Q :=
  Within.pure (fun _ => .refl) h

theorem Within.fail (e : ε) : Within (ReflTransGen r) (MonadExcept.throw e : EStateM ε σ α) s Q :=
  Within.throw (fun _ => .refl) e

/-- Reading changes nothing, and goes on with what was read. -/
theorem Within.look {conv : ε' → ε} {x : Except ε' β} {f : β → EStateM ε σ α}
    (h : ∀ a, x = .ok a → Within (ReflTransGen r) (f a) s Q) :
    Within (ReflTransGen r) (reads conv x >>= f) s Q := by
  cases x with
  | ok a => exact h a rfl
  | error e => exact ReflTransGen.refl

theorem Within.seq {x : EStateM ε σ α} {f : α → EStateM ε σ β} {Q' : β → σ → Prop}
    (hx : Within (ReflTransGen r) x s Q)
    (hf : ∀ a s', ReflTransGen r s s' → Q a s' → Within (ReflTransGen r) (f a) s' Q') :
    Within (ReflTransGen r) (x >>= f) s Q' := Within.bind (fun _ _ _ => .trans) hx hf

/-- A change of the state, and what follows it. -/
theorem Within.update {f : σ → σ} {g : PUnit → EStateM ε σ α} (hr : ReflTransGen r s (f s))
    (h : Within (ReflTransGen r) (g ⟨⟩) (f s) Q) :
    Within (ReflTransGen r) (MonadStateOf.modifyGet (fun s => (PUnit.unit, f s)) >>= g) s Q :=
  Within.seq (Q := fun _ s' => s' = f s) ⟨hr, rfl⟩ fun _ _ _ h' => h' ▸ h

theorem Within.assign {s' : σ} {g : PUnit → EStateM ε σ α} (hr : ReflTransGen r s s')
    (h : Within (ReflTransGen r) (g ⟨⟩) s' Q) :
    Within (ReflTransGen r) (MonadStateOf.set s' >>= g) s Q :=
  Within.seq (Q := fun _ s'' => s'' = s') ⟨hr, rfl⟩ fun _ _ _ h' => h' ▸ h

end Steps

/-! ### Reading a row of values -/

/-- A row is read without an error when its first and the rest are. -/
theorem mapM_cons_ok {f : α → Except ε β} {x : α} {l : List α} {l' : List β}
    (h : (x :: l).mapM f = .ok l') : ∃ v vs, f x = .ok v ∧ l.mapM f = .ok vs ∧ l' = v :: vs := by
  rw [List.mapM_cons] at h
  cases hx : f x with
  | error e =>
    rw [hx] at h
    cases h
  | ok v =>
    rw [hx] at h
    cases hl : l.mapM f with
    | error e =>
      rw [hl] at h
      cases h
    | ok vs =>
      rw [hl] at h
      exact ⟨v, vs, rfl, rfl, (Except.ok.inj h).symm⟩

/-- A row read without an error has a value for each place. -/
theorem mapM_ok {f : α → Except ε β} : ∀ {l : List α} {l' : List β}, l.mapM f = .ok l' →
    l'.length = l.length ∧ ∀ (i : ℕ) (a : α), l[i]? = some a → ∃ v, l'[i]? = some v ∧ f a = .ok v
  | [], l', h => by
    obtain rfl : [] = l' := Except.ok.inj h
    exact ⟨rfl, fun i a hi => by simp at hi⟩
  | x :: l, l', h => by
    obtain ⟨v, vs, hx, hl, rfl⟩ := mapM_cons_ok h
    obtain ⟨hlen, hvs⟩ := mapM_ok hl
    refine ⟨by rw [List.length_cons, List.length_cons, hlen], fun i a hi => ?_⟩
    cases i with
    | zero =>
      rw [List.getElem?_cons_zero, Option.some.injEq] at hi
      exact ⟨v, rfl, hi ▸ hx⟩
    | succ i => exact hvs i a hi

end Command
end HypercoreRs
