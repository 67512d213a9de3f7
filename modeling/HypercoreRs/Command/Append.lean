/-
# Programs over an append-only log

A copy-on-write structure in a log does three things to it: it asks for the latest
entry, reads entries by number and appends new ones. `Prog` is a program that does only
that, so what it computes on a given log is a function (`exec`) that never takes
anything back (`exec_extends`), and `Total` is total correctness with its rules.

Where the log is kept, in memory or in a store that may refuse a write, is a `Keeper`.
`Keeps.ends_perform` says once and for all what a program does there: it ends as
`exec` says, or the keeper refused one of the entries and shows those before it.
-/
import HypercoreRs.Command.Ends
import Mathlib.Data.Nat.PSub
import Mathlib.Data.List.Infix

namespace HypercoreRs
namespace Command

/-- A program over a log of entries `N` that returns an `α`. -/
inductive Prog (N α : Type) : Type where
  | ret (a : α)
  /-- The program panics. -/
  | halt
  /-- Go on with the number of the latest entry. -/
  | latest (k : Option ℕ → Prog N α)
  /-- Go on with entry `i`. -/
  | read (i : ℕ) (k : N → Prog N α)
  /-- Append an entry and go on with its number. -/
  | append (n : N) (k : ℕ → Prog N α)

namespace Prog

variable {N α β : Type}

def bind : Prog N α → (α → Prog N β) → Prog N β
  | ret a, f => f a
  | halt, _ => halt
  | latest k, f => latest fun r => (k r).bind f
  | read i k, f => read i fun n => (k n).bind f
  | append n k, f => append n fun i => (k i).bind f

instance : Monad (Prog N) where
  pure := ret
  bind := bind

/-- The number of the latest entry. -/
def root : Prog N (Option ℕ) := latest ret

/-- Entry `i`. -/
def entry (i : ℕ) : Prog N N := read i ret

/-- Append an entry; returns its number. -/
def push (n : N) : Prog N ℕ := append n ret

/-- A value that must be there. -/
def expect : Option α → Prog N α
  | some a => ret a
  | none => halt

/-- The value of a program on the log `ns` and the log it leaves; `none` where it panics
or reads past the end. -/
def exec : Prog N α → List N → Option (α × List N)
  | ret a, ns => some (a, ns)
  | halt, _ => none
  | latest k, ns => (k ns.length.ppred).exec ns
  | read i k, ns =>
    match ns[i]? with
    | none => none
    | some n => (k n).exec ns
  | append n k, ns => (k ns.length).exec (ns ++ [n])

/-- What was in the log stays there. -/
theorem exec_extends : ∀ {p : Prog N α} {ns ns' : List N} {a : α}, p.exec ns = some (a, ns') → ns <+: ns'
  | ret a, ns, ns', b, h => by
    obtain ⟨-, rfl⟩ := Prod.mk.inj (Option.some.inj h)
    exact List.prefix_rfl
  | halt, ns, ns', b, h => by cases h
  | latest k, ns, ns', b, h => exec_extends (p := k _) h
  | read i k, ns, ns', b, h => by
    rw [exec] at h
    cases hi : ns[i]? with
    | none => simp [hi] at h
    | some n =>
      rw [hi] at h
      exact exec_extends h
  | append n k, ns, ns', b, h => (List.prefix_append ns [n]).trans (exec_extends (p := k _) h)

theorem exec_bind : ∀ (p : Prog N α) (f : α → Prog N β) (ns : List N),
    (p >>= f).exec ns = (p.exec ns).bind fun r => (f r.1).exec r.2
  | ret a, f, ns => rfl
  | halt, f, ns => rfl
  | latest k, f, ns => exec_bind (k _) f ns
  | read i k, f, ns => by
    show (read i fun n => k n >>= f).exec ns = _
    rw [exec, exec]
    cases ns[i]? with
    | none => rfl
    | some n => exact exec_bind (k n) f ns
  | append n k, f, ns => exec_bind (k _) f _

/-- The program returns on `ns`, with `Q` of its value and the log then. -/
def Total (p : Prog N α) (ns : List N) (Q : α → List N → Prop) : Prop :=
  ∃ a ns', p.exec ns = some (a, ns') ∧ Q a ns'

namespace Total

variable {ns : List N} {Q : α → List N → Prop}

variable {p : Prog N α}

theorem mono {R : α → List N → Prop} (h : Total p ns Q) (hQ : ∀ a ns', ns <+: ns' → Q a ns' → R a ns') :
    Total p ns R := by
  obtain ⟨a, ns', hexec, ha⟩ := h
  exact ⟨a, ns', hexec, hQ a ns' (exec_extends hexec) ha⟩

theorem pure {a : α} (h : Q a ns) : Total (Pure.pure a) ns Q := ⟨a, ns, rfl, h⟩

theorem bind {f : α → Prog N β} {Q' : β → List N → Prop} (hp : Total p ns Q)
    (hf : ∀ a ns', ns <+: ns' → Q a ns' → Total (f a) ns' Q') : Total (p >>= f) ns Q' := by
  obtain ⟨a, ns', hexec, ha⟩ := hp
  obtain ⟨b, ns'', hexec', hb⟩ := hf a ns' (exec_extends hexec) ha
  refine ⟨b, ns'', ?_, hb⟩
  rw [exec_bind, hexec]
  exact hexec'

theorem root {f : Option ℕ → Prog N α} (h : Total (f ns.length.ppred) ns Q) :
    Total (Prog.root >>= f) ns Q := h

theorem entry {i : ℕ} {n : N} {f : N → Prog N α} (hi : ns[i]? = some n) (h : Total (f n) ns Q) :
    Total (Prog.entry i >>= f) ns Q :=
  Total.bind (Q := fun m ns' => m = n ∧ ns' = ns) ⟨n, ns, by simp [Prog.entry, exec, hi], rfl, rfl⟩
    fun _ _ _ hm => by
      obtain ⟨rfl, rfl⟩ := hm
      exact h

theorem push {n : N} {f : ℕ → Prog N α} (h : Total (f ns.length) (ns ++ [n]) Q) :
    Total (Prog.push n >>= f) ns Q := h

theorem expect {o : Option β} {b : β} {f : β → Prog N α} (ho : o = some b) (h : Total (f b) ns Q) :
    Total (Prog.expect o >>= f) ns Q := by
  subst ho
  exact h

end Total

end Prog

/-! ### Where the log is kept -/

/-- What keeps a log of entries `N` in a state `σ`. -/
structure Keeper (N ε σ : Type) where
  latest : σ → Option ℕ
  read : σ → ℕ → Except ε N
  append : N → EStateM ε σ ℕ
  /-- The error a panic is. -/
  panic : ε

namespace Keeper

variable {N ε σ α : Type}

/-- Run a program on what `keeper` keeps. -/
def perform (keeper : Keeper N ε σ) : Prog N α → EStateM ε σ α
  | .ret a => pure a
  | .halt => throw keeper.panic
  | .latest k => do
    let s ← MonadState.get
    perform keeper (k (keeper.latest s))
  | .read i k => do
    let s ← MonadState.get
    let n ← reads id (keeper.read s i)
    perform keeper (k n)
  | .append n k => do
    let i ← keeper.append n
    perform keeper (k i)

theorem perform_bind {β : Type} (keeper : Keeper N ε σ) (f : α → Prog N β) : ∀ p : Prog N α,
    keeper.perform (p >>= f) = keeper.perform p >>= fun a => keeper.perform (f a)
  | .ret a => rfl
  | .halt => rfl
  | .latest k => funext fun s => congrFun (perform_bind keeper f (k (keeper.latest s))) s
  | .read i k => by
    funext s
    show (reads id (keeper.read s i) >>= fun n => keeper.perform (k n >>= f)) s =
      ((reads id (keeper.read s i) >>= fun n => keeper.perform (k n)) >>= fun a => keeper.perform (f a)) s
    simp only [perform_bind keeper f (k _), bind_assoc]
  | .append n k => by
    show (keeper.append n >>= fun i => keeper.perform (k i >>= f)) =
      (keeper.append n >>= fun i => keeper.perform (k i)) >>= fun a => keeper.perform (f a)
    simp only [perform_bind keeper f (k _), bind_assoc]

/-- What a program answers that only reads. -/
def ask (keeper : Keeper N ε σ) (p : Prog N α) (s : σ) : Except ε α :=
  match keeper.perform p s with
  | .ok a _ => .ok a
  | .error e _ => .error e

/-- The first entry a program appends. -/
def first (keeper : Keeper N ε σ) : Prog N α → σ → Option N
  | .ret _, _ => none
  | .halt, _ => none
  | .latest k, s => keeper.first (k (keeper.latest s)) s
  | .read i k, s =>
    match keeper.read s i with
    | .ok n => keeper.first (k n) s
    | .error _ => none
  | .append n _, _ => some n

/-- `keeper` keeps the log that `Shows` says a state shows, for entries that `Fits`. It
may refuse an entry with a `Refusal`, and then shows what it did. -/
structure Keeps (keeper : Keeper N ε σ) (Shows : σ → List N → Prop) (Fits : ℕ → N → Prop)
    (Refusal : ε → Prop) : Prop where
  latest : ∀ {s ns}, Shows s ns → keeper.latest s = ns.length.ppred
  read : ∀ {s ns i n}, Shows s ns → ns[i]? = some n → keeper.read s i = .ok n
  append : ∀ {s ns n}, Shows s ns → Fits ns.length n → Ends (keeper.append n) s
    (fun i s' => i = ns.length ∧ Shows s' (ns ++ [n])) fun e s' => Refusal e ∧ Shows s' ns

variable {keeper : Keeper N ε σ} {Shows : σ → List N → Prop} {Fits : ℕ → N → Prop} {Refusal : ε → Prop}

/-- A program ends as `exec` says, or an entry was refused and those before it are kept. -/
theorem Keeps.ends_perform (hk : keeper.Keeps Shows Fits Refusal) : ∀ {p : Prog N α} {s : σ} {ns ns' : List N}
    {a : α}, Shows s ns → p.exec ns = some (a, ns') →
    (∀ j n, ns.length ≤ j → ns'[j]? = some n → Fits j n) →
    Ends (keeper.perform p) s (fun a' s' => a' = a ∧ Shows s' ns')
      fun e s' => Refusal e ∧
        ∃ kept, ns <+: kept ∧ kept <+: ns' ∧ kept.length < ns'.length ∧ Shows s' kept
  | .ret a, s, ns, ns', b, hs, h, _ => by
    obtain ⟨rfl, rfl⟩ := Prod.mk.inj (Option.some.inj h)
    exact Ends.pure ⟨rfl, hs⟩
  | .halt, s, ns, ns', b, hs, h, _ => by cases h
  | .latest k, s, ns, ns', b, hs, h, hfit => by
    rw [perform]
    apply Ends.get
    rw [hk.latest hs]
    exact Keeps.ends_perform hk hs (p := k _) h hfit
  | .read i k, s, ns, ns', b, hs, h, hfit => by
    rw [Prog.exec] at h
    cases hi : ns[i]? with
    | none => simp [hi] at h
    | some n =>
      rw [hi] at h
      rw [perform]
      apply Ends.get
      rw [hk.read hs hi]
      exact Keeps.ends_perform hk hs (p := k n) h hfit
  | .append n k, s, ns, ns', b, hs, h, hfit => by
    have hle : ns ++ [n] <+: ns' := Prog.exec_extends (p := k _) h
    have hlen : ns.length < ns'.length := by
      have := hle.length_le
      rw [List.length_append, List.length_singleton] at this
      omega
    have hn : ns'[ns.length]? = some n := by
      obtain ⟨t, rfl⟩ := hle
      simp
    rw [perform]
    refine Ends.andThen (hk.append hs (hfit _ n (Nat.le_refl _) hn)) (fun _ s' h' => ?_)
      fun i s' h' => ?_
    · exact ⟨h'.1, ns, List.prefix_rfl, (List.prefix_append ns [n]).trans hle, hlen, h'.2⟩
    · obtain ⟨rfl, hs'⟩ := h'
      refine (Keeps.ends_perform hk hs' (p := k _) h fun j m hj hm => hfit j m ?_ hm).mono
        (fun _ _ h => h) fun _ s'' h'' => ?_
      · rw [List.length_append, List.length_singleton] at hj
        omega
      · obtain ⟨hrefused, kept, hkept, hrest⟩ := h''
        exact ⟨hrefused, kept, (List.prefix_append ns [n]).trans hkept, hrest⟩

/-- A program that fails was refused its first entry and nothing changed, or a later one and
then its first is kept. -/
theorem Keeps.perform_error (hk : keeper.Keeps Shows Fits Refusal) :
    ∀ {p : Prog N α} {s s' : σ} {ns ns' : List N}
    {a : α} {e : ε}, Shows s ns → p.exec ns = some (a, ns') →
    (∀ j n, ns.length ≤ j → ns'[j]? = some n → Fits j n) → keeper.perform p s = .error e s' →
    ∃ n, keeper.first p s = some n ∧
      ((keeper.append n s = .error e s' ∧ Shows s' ns) ∨
      ∃ i s₁ kept, keeper.append n s = .ok i s₁ ∧ ns.length < kept.length ∧ kept <+: ns' ∧
        kept.length < ns'.length ∧ Shows s' kept)
  | .ret a, s, s', ns, ns', b, e, _, _, _, herr => by cases herr
  | .halt, s, s', ns, ns', b, e, _, h, _, _ => by cases h
  | .latest k, s, s', ns, ns', b, e, hs, h, hfit, herr => by
    rw [first, hk.latest hs]
    refine Keeps.perform_error hk hs (p := k _) h hfit ?_
    rw [← hk.latest hs]
    exact herr
  | .read i k, s, s', ns, ns', b, e, hs, h, hfit, herr => by
    rw [Prog.exec] at h
    cases hi : ns[i]? with
    | none => simp [hi] at h
    | some n =>
      rw [hi] at h
      have hread : keeper.read s i = .ok n := hk.read hs hi
      have hgo : keeper.perform (k n) s = .error e s' := by
        rw [← herr, perform]
        show _ = (reads id (keeper.read s i) >>= fun n => keeper.perform (k n)) s
        rw [hread]
        rfl
      rw [first, hread]
      exact Keeps.perform_error hk hs (p := k n) h hfit hgo
  | .append n k, s, s', ns, ns', b, e, hs, h, hfit, herr => by
    have hle : ns ++ [n] <+: ns' := Prog.exec_extends (p := k _) h
    have hn : ns'[ns.length]? = some n := by
      obtain ⟨t, rfl⟩ := hle
      simp
    have happend := hk.append hs (hfit _ n (Nat.le_refl _) hn)
    refine ⟨n, rfl, ?_⟩
    rcases bind_eq_error.mp herr with hone | ⟨i, s₁, hone, hgo⟩
    · exact Or.inl ⟨hone, (happend.error hone).2⟩
    · obtain ⟨rfl, hs₁⟩ := happend.ok hone
      have hrest := (Keeps.ends_perform hk hs₁ (p := k _) h fun j m hj hm => hfit j m ?_ hm).error hgo
      · obtain ⟨-, kept, hkept, hkept', hlt, hs'⟩ := hrest
        have := hkept.length_le
        rw [List.length_append, List.length_singleton] at this
        exact Or.inr ⟨_, s₁, kept, hone, by omega, hkept', hlt, hs'⟩
      · rw [List.length_append, List.length_singleton] at hj
        omega

variable {p : Prog N α} {ns : List N}

/-- A program that appends nothing ends as `exec` says: nothing of it can be refused. -/
theorem Keeps.perform_eq (hk : keeper.Keeps Shows Fits Refusal) {s : σ} {a : α} (hs : Shows s ns)
    (h : p.exec ns = some (a, ns)) : ∃ s', keeper.perform p s = .ok a s' ∧ Shows s' ns := by
  have hends := hk.ends_perform hs h fun j n hj hn => by
    have := (List.getElem?_eq_some_iff.mp hn).1
    omega
  cases hp : keeper.perform p s with
  | ok a' s' =>
    obtain ⟨rfl, hs'⟩ := hends.ok hp
    exact ⟨s', rfl, hs'⟩
  | error e s' =>
    obtain ⟨-, kept, hle, -, hlt, -⟩ := hends.error hp
    have := hle.length_le
    omega

theorem Keeps.ask_eq (hk : keeper.Keeps Shows Fits Refusal) {s : σ} {a : α} (hs : Shows s ns)
    (h : p.exec ns = some (a, ns)) : keeper.ask p s = .ok a := by
  obtain ⟨s', hp, -⟩ := hk.perform_eq hs h
  rw [ask, hp]

end Keeper
end Command
end HypercoreRs
