/-
# Nodes of a B-tree

A node has entries and, unless it is a leaf, a child before each of them and one after
the last. What it holds is woven from its entries and what its children hold (`weave`);
`Holds R h n l` says that the node `n` of height `h` holds the row `l`, where `R` says
what a child holds.

The edits of a B-tree touch one child, or two neighbours and the entry between them.
`Hole` is a node with one child left open, `Pair` one with two neighbours and their
entry left open: whatever is put in, the node holds it between the same two rows. So
splitting, rotating and joining need to be looked at only for the two nodes they are
about.
-/
import Mathlib.Data.List.Forall2

namespace HypercoreRs
namespace BTree

/-- A node with entries `α` and children `β`. -/
structure Node (α β : Type) where
  entries : List α
  children : List β
deriving DecidableEq

namespace Node

variable {α β : Type}

def isLeaf (n : Node α β) : Bool := n.children.isEmpty

/-- The halves of a node around its middle entry. An inner node without children for both
has none. -/
def split (n : Node α β) : Option (Node α β × α × Node α β) :=
  let mid := n.entries.length / 2
  if n.isLeaf ∨ mid + 1 ≤ n.children.length then
    n.entries[mid]?.map fun median =>
      (⟨n.entries.take mid, n.children.take (mid + 1)⟩, median,
        ⟨n.entries.drop (mid + 1), n.children.drop (mid + 1)⟩)
  else none

/-- The last entry of `left` goes up for `sep`, which comes down in front of `right`; with
it goes the last child of `left`, if there are children. -/
def rotateRight (left : Node α β) (sep : α) (right : Node α β) : Option (Node α β × α × Node α β) :=
  left.entries.getLast?.map fun up =>
    (⟨left.entries.dropLast, left.children.dropLast⟩, up,
      ⟨sep :: right.entries, left.children.getLast?.toList ++ right.children⟩)

/-- The first entry of `right` goes up for `sep`, which comes down after `left`; with it
goes the first child of `right`, if there are children. -/
def rotateLeft (left : Node α β) (sep : α) (right : Node α β) : Option (Node α β × α × Node α β) :=
  right.entries.head?.map fun up =>
    (⟨left.entries ++ [sep], left.children ++ right.children.head?.toList⟩, up,
      ⟨right.entries.tail, right.children.tail⟩)

/-- Two nodes and the entry between them as one. -/
def join (left : Node α β) (sep : α) (right : Node α β) : Node α β :=
  ⟨left.entries ++ sep :: right.entries, left.children ++ right.children⟩

end Node

/-! ### What a node holds -/

section Weave

variable {α β : Type}

/-- Rows, an entry after each. -/
def front : List (List α) → List α → List α
  | l :: ls, e :: es => l ++ e :: front ls es
  | _, _ => []

/-- Rows, an entry before each. -/
def back : List α → List (List α) → List α
  | e :: es, l :: ls => e :: (l ++ back es ls)
  | _, _ => []

/-- Entries with the rows between them; entries alone if there are no rows. -/
def weave : List (List α) → List α → List α
  | [], es => es
  | l :: ls, es => l ++ back es ls

theorem front_concat : ∀ {ls : List (List α)} {es : List α} (y : List α) (e : α), ls.length = es.length →
    front (ls ++ [y]) (es ++ [e]) = front ls es ++ y ++ [e]
  | [], [], y, e, _ => by simp [front]
  | l :: ls, e' :: es, y, e, h => by simp [front, front_concat y e (Nat.succ.inj h)]

/-- A row and what is woven before and after it. -/
theorem weave_around : ∀ {ls₁ : List (List α)} {es₁ : List α} (x es₂ : List α) (ls₂ : List (List α)),
    ls₁.length = es₁.length →
    weave (ls₁ ++ x :: ls₂) (es₁ ++ es₂) = front ls₁ es₁ ++ x ++ back es₂ ls₂
  | [], [], x, es₂, ls₂, _ => by simp [weave, front]
  | l :: ls₁, e :: es₁, x, es₂, ls₂, h => by
    have ih := weave_around x es₂ ls₂ (Nat.succ.inj h)
    cases ls₁ with
    | nil =>
      obtain rfl : es₁ = [] := List.eq_nil_of_length_eq_zero (Nat.succ.inj h).symm
      simp [weave, front, back]
    | cons l' ls₁ =>
      simp only [weave, List.cons_append, front] at ih ⊢
      rw [back, ih]
      simp

variable {ls₁ ls₂ : List (List α)} {es₁ es₂ : List α}

/-- Two rows with the entry between them. -/
theorem weave_pair (x : List α) (e : α) (y : List α) (h : ls₁.length = es₁.length) :
    weave (ls₁ ++ x :: y :: ls₂) (es₁ ++ e :: es₂) =
      front ls₁ es₁ ++ (x ++ e :: y) ++ back es₂ ls₂ := by
  rw [weave_around x _ _ h]
  simp [back]

/-- The number of children of a node of height `h`. -/
def arity (h : ℕ) (entries : List α) : ℕ := if h = 0 then 0 else entries.length + 1

/-- Two woven rows and an entry between them. -/
theorem weave_append {h : ℕ} (e : α) (h₁ : ls₁.length = arity h es₁) (h₂ : ls₂.length = arity h es₂) :
    weave (ls₁ ++ ls₂) (es₁ ++ e :: es₂) = weave ls₁ es₁ ++ e :: weave ls₂ es₂ := by
  unfold arity at h₁ h₂
  split_ifs at h₁ h₂ with hh
  · obtain rfl := List.eq_nil_of_length_eq_zero h₁
    obtain rfl := List.eq_nil_of_length_eq_zero h₂
    rfl
  · cases ls₂ with
    | nil => simp at h₂
    | cons y ls₂ =>
      -- the last row of the first part is the one before `e`
      rcases List.eq_nil_or_concat' ls₁ with rfl | ⟨ls₁, x, rfl⟩
      · simp at h₁
      have hlen : ls₁.length = es₁.length := by simpa using h₁
      have hx := weave_around x [] [] hlen
      rw [List.append_assoc, List.singleton_append, weave_pair x e y hlen]
      rw [List.append_nil] at hx
      rw [hx]
      simp [weave, back]

/-- The entries stand in the row in their order. -/
theorem sublist_weave : ∀ (ls : List (List α)) (es : List α), ls = [] ∨ es.length < ls.length →
    es.Sublist (weave ls es)
  | [], es, _ => List.Sublist.refl es
  | l :: ls, [], _ => List.nil_sublist _
  | [l], e :: es, h => by simp at h
  | l :: l' :: ls, e :: es, h => by
    have ih := sublist_weave (l' :: ls) es (Or.inr (by simpa using h))
    exact (ih.cons_cons e).trans (List.sublist_append_right l _)

/-- The node `n` of height `h` holds `l`: a leaf its entries, an inner node its entries
with what its children hold between them. -/
def Holds (R : β → List α → Prop) (h : ℕ) (n : Node α β) (l : List α) : Prop :=
  ∃ ls, List.Forall₂ R n.children ls ∧ ls.length = arity h n.entries ∧ weave ls n.entries = l

end Weave

/-! ### Open places -/

section Open

variable {α β : Type} {R R' : β → List α → Prop} {n : Node α β} {h i : ℕ} {l x y before after : List α}
  {c d : β} {e : α}

theorem insertIdx_append (a b : List α) (e : α) : (a ++ b).insertIdx a.length e = a ++ e :: b := by
  induction a with
  | nil => rfl
  | cons x a ih => simp [ih]

theorem modify_append (a b : List α) (e : α) (f : α → α) :
    (a ++ e :: b).modify a.length f = a ++ f e :: b := by
  induction a with
  | nil => rfl
  | cons x a ih => simp [ih]

theorem forall₂_append {cs₁ cs₂ : List β} {ls₁ ls₂ : List (List α)} (h₁ : List.Forall₂ R cs₁ ls₁)
    (h₂ : List.Forall₂ R cs₂ ls₂) : List.Forall₂ R (cs₁ ++ cs₂) (ls₁ ++ ls₂) := by
  induction h₁ with
  | nil => exact h₂
  | cons hc _ ih => exact List.Forall₂.cons hc ih

theorem forall₂_split : ∀ {cs₁ cs₂ : List β} {ls : List (List α)}, List.Forall₂ R (cs₁ ++ cs₂) ls →
    ∃ ls₁ ls₂, ls = ls₁ ++ ls₂ ∧ List.Forall₂ R cs₁ ls₁ ∧ List.Forall₂ R cs₂ ls₂
  | [], cs₂, ls, h => ⟨[], ls, rfl, List.Forall₂.nil, h⟩
  | c :: cs₁, cs₂, ls, h => by
    rw [List.cons_append, List.forall₂_cons_left_iff] at h
    obtain ⟨x, ls', hc, hrest, rfl⟩ := h
    obtain ⟨ls₁, ls₂, rfl, h₁, h₂⟩ := forall₂_split hrest
    exact ⟨x :: ls₁, ls₂, rfl, List.Forall₂.cons hc h₁, h₂⟩

theorem Holds.mono (hR : ∀ c x, R c x → R' c x) (hn : Holds R h n l) : Holds R' h n l := by
  obtain ⟨ls, hrows, hlen, hweave⟩ := hn
  exact ⟨ls, hrows.imp hR, hlen, hweave⟩

theorem Holds.leaf_iff : Holds R 0 n l ↔ n.children = [] ∧ n.entries = l := by
  constructor
  · intro hn
    obtain ⟨ls, hrows, hlen, hweave⟩ := hn
    obtain rfl := List.eq_nil_of_length_eq_zero hlen
    exact ⟨List.forall₂_nil_right_iff.mp hrows, hweave⟩
  · intro hn
    obtain ⟨hchildren, rfl⟩ := hn
    exact ⟨[], by rw [hchildren]; exact List.Forall₂.nil, rfl, rfl⟩

theorem Holds.children_length (hn : Holds R h n l) : n.children.length = arity h n.entries := by
  obtain ⟨ls, hrows, hlen, -⟩ := hn
  rw [hrows.length_eq, hlen]

theorem Holds.restrict {p : β → Prop} (hn : Holds R h n l) (hp : ∀ c ∈ n.children, p c) :
    Holds (fun c x => p c ∧ R c x) h n l := by
  obtain ⟨ls, hrows, hrest⟩ := hn
  exact ⟨ls, (List.forall₂_and_left _ _).mpr ⟨hp, hrows⟩, hrest⟩

theorem Holds.isLeaf (hn : Holds R h n l) : n.isLeaf = true ↔ h = 0 := by
  rw [Node.isLeaf, List.isEmpty_iff_length_eq_zero, hn.children_length, arity]
  split_ifs with hh <;> simp [hh]

theorem Holds.sublist (hn : Holds R h n l) : n.entries.Sublist l := by
  obtain ⟨ls, -, hlen, rfl⟩ := hn
  apply sublist_weave
  unfold arity at hlen
  split_ifs at hlen
  · exact Or.inl (List.eq_nil_of_length_eq_zero hlen)
  · exact Or.inr (by omega)

theorem Holds.of_mem_children (hn : Holds R h n l) (hc : c ∈ n.children) : ∃ x, R c x := by
  obtain ⟨ls, hrows, -, -⟩ := hn
  generalize n.children = cs at hrows hc
  induction hrows with
  | nil => cases hc
  | cons hd _ ih =>
    rw [List.mem_cons] at hc
    rcases hc with rfl | hc
    · exact ⟨_, hd⟩
    · exact ih hc

/-- `n` with its child `i` left open: what is before it and after it. -/
inductive Hole (R : β → List α → Prop) : Node α β → ℕ → List α → List α → Prop
  | mk {es₁ es₂ : List α} {cs₁ cs₂ : List β} {c : β} {ls₁ ls₂ : List (List α)} :
      List.Forall₂ R cs₁ ls₁ → List.Forall₂ R cs₂ ls₂ → cs₁.length = es₁.length →
      cs₂.length = es₂.length →
      Hole R ⟨es₁ ++ es₂, cs₁ ++ c :: cs₂⟩ cs₁.length (front ls₁ es₁) (back es₂ ls₂)

/-- `n` with its children `i` and `i + 1` and the entry between them left open. -/
inductive Pair (R : β → List α → Prop) : Node α β → ℕ → List α → List α → Prop
  | mk {es₁ es₂ : List α} {e : α} {cs₁ cs₂ : List β} {c d : β} {ls₁ ls₂ : List (List α)} :
      List.Forall₂ R cs₁ ls₁ → List.Forall₂ R cs₂ ls₂ → cs₁.length = es₁.length →
      cs₂.length = es₂.length →
      Pair R ⟨es₁ ++ e :: es₂, cs₁ ++ c :: d :: cs₂⟩ cs₁.length (front ls₁ es₁) (back es₂ ls₂)

theorem Hole.mono (hR : ∀ c x, R c x → R' c x) (hn : Hole R n i before after) :
    Hole R' n i before after := by
  cases hn with
  | mk h₁ h₂ hlen₁ hlen₂ => exact Hole.mk (h₁.imp hR) (h₂.imp hR) hlen₁ hlen₂

theorem Pair.mono (hR : ∀ c x, R c x → R' c x) (hn : Pair R n i before after) :
    Pair R' n i before after := by
  cases hn with
  | mk h₁ h₂ hlen₁ hlen₂ => exact Pair.mk (h₁.imp hR) (h₂.imp hR) hlen₁ hlen₂

/-- Each child of an inner node can be taken out. -/
theorem Holds.hole (hn : Holds R (h + 1) n l) (es₁ es₂ : List α) (hes : n.entries = es₁ ++ es₂) :
    ∃ c x ls₁ ls₂, n.children[es₁.length]? = some c ∧ R c x ∧
      Hole R n es₁.length (front ls₁ es₁) (back es₂ ls₂) ∧ l = front ls₁ es₁ ++ x ++ back es₂ ls₂ := by
  obtain ⟨es, cs⟩ := n
  dsimp only at hes ⊢
  subst hes
  obtain ⟨ls, hrows, hlen, rfl⟩ := hn
  have hcs : cs.length = es₁.length + es₂.length + 1 := by
    rw [hrows.length_eq, hlen]
    simp [arity]
  have hlt : es₁.length < cs.length := by omega
  have hsplit : cs = cs.take es₁.length ++ cs[es₁.length] :: cs.drop (es₁.length + 1) := by simp
  have htake : (cs.take es₁.length).length = es₁.length := by simp; omega
  have hget : cs[es₁.length]? = some cs[es₁.length] := List.getElem?_eq_getElem hlt
  have hdrop : (cs.drop (es₁.length + 1)).length = es₂.length := by simp; omega
  generalize cs[es₁.length] = c at hsplit hget
  generalize cs.take es₁.length = cs₁ at hsplit htake
  generalize cs.drop (es₁.length + 1) = cs₂ at hsplit hdrop
  subst hsplit
  obtain ⟨ls₁, ls', rfl, h₁, hrest⟩ := forall₂_split hrows
  rw [List.forall₂_cons_left_iff] at hrest
  obtain ⟨x, ls₂, hc, h₂, rfl⟩ := hrest
  refine ⟨c, x, ls₁, ls₂, hget, hc, ?_, weave_around x _ _ (h₁.length_eq.symm.trans htake)⟩
  rw [← htake]
  exact Hole.mk h₁ h₂ htake hdrop

theorem Hole.children_length (hn : Hole R n i before after) :
    n.children.length = n.entries.length + 1 := by
  cases hn with
  | mk h₁ h₂ hlen₁ hlen₂ =>
    simp
    omega

/-- It does not matter which child was at the open place. -/
theorem Hole.set (hn : Hole R n i before after) (c : β) :
    Hole R { n with children := n.children.set i c } i before after ∧
      (n.children.set i c)[i]? = some c := by
  cases hn with
  | mk h₁ h₂ hlen₁ hlen₂ => simpa using Hole.mk h₁ h₂ hlen₁ hlen₂

/-- Another child at the open place. -/
theorem Hole.fill (hn : Hole R n i before after) (hc : R c x) :
    Holds R (h + 1) { n with children := n.children.set i c } (before ++ x ++ after) := by
  cases hn with
  | @mk es₁ es₂ cs₁ cs₂ _ ls₁ ls₂ h₁ h₂ hlen₁ hlen₂ =>
    refine ⟨ls₁ ++ x :: ls₂, ?_, ?_, weave_around x _ _ (h₁.length_eq.symm.trans hlen₁)⟩
    · simpa using forall₂_append h₁ (List.Forall₂.cons hc h₂)
    · simp [arity, ← h₁.length_eq, ← h₂.length_eq, hlen₁, hlen₂]
      omega

/-- Two children and an entry between them at the open place. -/
theorem Hole.fill_two (hn : Hole R n i before after) (hc : R c x) (hd : R d y) :
    Holds R (h + 1) ⟨n.entries.insertIdx i e, (n.children.set i c).insertIdx (i + 1) d⟩
      (before ++ (x ++ e :: y) ++ after) := by
  cases hn with
  | @mk es₁ es₂ cs₁ cs₂ c' ls₁ ls₂ h₁ h₂ hlen₁ hlen₂ =>
    have hentries : (es₁ ++ es₂).insertIdx cs₁.length e = es₁ ++ e :: es₂ := by
      rw [hlen₁, insertIdx_append]
    have hchildren : ((cs₁ ++ c' :: cs₂).set cs₁.length c).insertIdx (cs₁.length + 1) d =
        cs₁ ++ c :: d :: cs₂ := by
      simpa using insertIdx_append (cs₁ ++ [c]) cs₂ d
    rw [hentries, hchildren]
    refine ⟨ls₁ ++ x :: y :: ls₂, ?_, ?_, weave_pair x e y (h₁.length_eq.symm.trans hlen₁)⟩
    · exact forall₂_append h₁ (List.Forall₂.cons hc (List.Forall₂.cons hd h₂))
    · simp [arity, ← h₁.length_eq, ← h₂.length_eq, hlen₁, hlen₂]
      omega

/-- The child to the left of the open place, with the entry between them. -/
theorem Hole.left (hn : Hole R n (i + 1) before after) : ∃ d y e before', n.children[i]? = some d ∧
    R d y ∧ n.entries[i]? = some e ∧ before = before' ++ y ++ [e] ∧ Pair R n i before' after := by
  generalize hj : i + 1 = j at hn
  cases hn with
  | @mk es₁ es₂ cs₁ cs₂ c ls₁ ls₂ h₁ h₂ hlen₁ hlen₂ =>
    -- the last of the children before the open place
    rcases List.eq_nil_or_concat' cs₁ with rfl | ⟨cs, d, rfl⟩
    · simp at hj
    rcases List.eq_nil_or_concat' es₁ with rfl | ⟨es, e, rfl⟩
    · simp at hlen₁
    obtain ⟨ls, ls', rfl, hfirst, hlast⟩ := forall₂_split h₁
    rw [List.forall₂_cons_left_iff] at hlast
    obtain ⟨y, ls'', hd, hnil, rfl⟩ := hlast
    obtain rfl := List.forall₂_nil_left_iff.mp hnil
    have hi : cs.length = i := by simpa using hj.symm
    have hes : cs.length = es.length := by simpa using hlen₁
    subst hi
    refine ⟨d, y, e, front ls es, by simp, hd, by simp [hes], ?_, ?_⟩
    · exact front_concat y e (hfirst.length_eq.symm.trans hes)
    · simpa using Pair.mk (e := e) (c := d) (d := c) hfirst h₂ hes hlen₂

/-- The child to the right of the open place, with the entry between them. -/
theorem Hole.right (hn : Hole R n i before after) (hlt : i + 1 < n.children.length) :
    ∃ d y e after', n.children[i + 1]? = some d ∧ R d y ∧ n.entries[i]? = some e ∧
      after = e :: (y ++ after') ∧ Pair R n i before after' := by
  cases hn with
  | @mk es₁ es₂ cs₁ cs₂ c ls₁ ls₂ h₁ h₂ hlen₁ hlen₂ =>
    cases h₂ with
    | nil => simp at hlt
    | @cons d y cs₂ ls₂ hd h₂ =>
      cases es₂ with
      | nil => simp at hlen₂
      | cons e es₂ =>
        refine ⟨d, y, e, back es₂ ls₂, by simp, hd, by simp [hlen₁], rfl, ?_⟩
        exact Pair.mk h₁ h₂ hlen₁ (Nat.succ.inj hlen₂)

/-- An entry of a node stands in the row it holds, and another may take its place. -/
theorem Holds.modify (hn : Holds R h n l) {es₁ es₂ : List α} (hes : n.entries = es₁ ++ e :: es₂) :
    ∃ a b, l = a ++ e :: b ∧
      ∀ e', Holds R h { n with entries := es₁ ++ e' :: es₂ } (a ++ e' :: b) := by
  cases h with
  | zero =>
    obtain ⟨hchildren, rfl⟩ := Holds.leaf_iff.mp hn
    exact ⟨es₁, es₂, hes, fun e' => Holds.leaf_iff.mpr ⟨hchildren, rfl⟩⟩
  | succ h =>
    obtain ⟨es, cs⟩ := n
    dsimp only at hes
    subst hes
    obtain ⟨ls, hrows, hlen, rfl⟩ := hn
    have hlong : es₁.length + 2 ≤ ls.length := by
      simp [arity] at hlen
      omega
    obtain ⟨ls₁, x, y, ls₂, rfl, hls⟩ : ∃ ls₁ x y ls₂, ls = ls₁ ++ x :: y :: ls₂ ∧
        ls₁.length = es₁.length := by
      refine ⟨ls.take es₁.length, ls[es₁.length], ls[es₁.length + 1], ls.drop (es₁.length + 2), ?_, ?_⟩
      · simp
      · simp
        omega
    refine ⟨front ls₁ es₁ ++ x, y ++ back es₂ ls₂, ?_, fun e' => ⟨ls₁ ++ x :: y :: ls₂, hrows, ?_, ?_⟩⟩
    · rw [weave_pair x e y hls]
      simp
    · simpa [arity] using hlen
    · rw [weave_pair x e' y hls]
      simp

/-- The right one of two open places, with a child at the left one. -/
theorem Pair.openRight (hn : Pair R n i before after) (hc : n.children[i]? = some c) (hx : R c x)
    (e : α) (d : β) :
    Hole R ⟨n.entries.set i e, n.children.set (i + 1) d⟩ (i + 1) (before ++ x ++ [e]) after := by
  cases hn with
  | @mk es₁ es₂ e' cs₁ cs₂ c' d' ls₁ ls₂ h₁ h₂ hlen₁ hlen₂ =>
    obtain rfl : c' = c := by simpa using hc
    have hlen : (cs₁ ++ [c']).length = (es₁ ++ [e]).length := by simp [hlen₁]
    have hhole := Hole.mk (c := d) (forall₂_append h₁ (List.Forall₂.cons hx List.Forall₂.nil)) h₂ hlen hlen₂
    rw [front_concat x e (h₁.length_eq.symm.trans hlen₁)] at hhole
    simpa [hlen₁] using hhole

/-- The left one of two open places, with a child at the right one. -/
theorem Pair.openLeft (hn : Pair R n i before after) (hd : n.children[i + 1]? = some d) (hy : R d y)
    (e : α) (c : β) :
    Hole R ⟨n.entries.set i e, n.children.set i c⟩ i before (e :: (y ++ after)) := by
  cases hn with
  | @mk es₁ es₂ e' cs₁ cs₂ c' d' ls₁ ls₂ h₁ h₂ hlen₁ hlen₂ =>
    obtain rfl : d' = d := by simpa using hd
    have hlen : (d' :: cs₂).length = (e :: es₂).length := by simp [hlen₂]
    have hhole := Hole.mk (c := c) h₁ (List.Forall₂.cons hy h₂) hlen₁ hlen
    simpa [hlen₁, back] using hhole

/-- Two other children with an entry between them. -/
theorem Pair.fill (hn : Pair R n i before after) (hc : R c x) (hd : R d y) :
    Holds R (h + 1) ⟨n.entries.set i e, (n.children.set i c).set (i + 1) d⟩
      (before ++ (x ++ e :: y) ++ after) := by
  cases hn with
  | @mk es₁ es₂ _ cs₁ cs₂ _ _ ls₁ ls₂ h₁ h₂ hlen₁ hlen₂ =>
    refine ⟨ls₁ ++ x :: y :: ls₂, ?_, ?_, ?_⟩
    · simpa using forall₂_append h₁ (List.Forall₂.cons hc (List.Forall₂.cons hd h₂))
    · simp [arity, ← h₁.length_eq, ← h₂.length_eq, hlen₁, hlen₂]
      omega
    · simpa [hlen₁] using weave_pair x e y (h₁.length_eq.symm.trans hlen₁)

/-- One child in the place of two. -/
theorem Pair.fuse (hn : Pair R n i before after) (hc : R c x) :
    Holds R (h + 1) ⟨n.entries.eraseIdx i, (n.children.eraseIdx (i + 1)).set i c⟩
      (before ++ x ++ after) := by
  cases hn with
  | @mk es₁ es₂ e cs₁ cs₂ c' d ls₁ ls₂ h₁ h₂ hlen₁ hlen₂ =>
    have hentries : (es₁ ++ e :: es₂).eraseIdx cs₁.length = es₁ ++ es₂ := by
      rw [hlen₁, List.eraseIdx_append_of_length_le (Nat.le_refl _)]
      simp
    have hchildren : (cs₁ ++ c' :: d :: cs₂).eraseIdx (cs₁.length + 1) = cs₁ ++ c' :: cs₂ := by
      rw [List.eraseIdx_append_of_length_le (by omega)]
      simp
    rw [hentries, hchildren]
    exact Hole.fill (Hole.mk h₁ h₂ hlen₁ hlen₂) hc

/-- Around an open place of a node with entries there are as many bindings as a child has,
and an entry. -/
theorem Hole.length_lt {m : ℕ} (hR : ∀ c x, R c x → m ≤ x.length) (hn : Hole R n i before after)
    (hne : n.entries ≠ []) : m < before.length + after.length := by
  cases i with
  | succ i =>
    obtain ⟨d, y, e, before', -, hy, -, rfl, -⟩ := hn.left
    have := hR d y hy
    simp
    omega
  | zero =>
    have hlt : 0 + 1 < n.children.length := by
      have hpos := List.length_pos_iff.mpr hne
      rw [hn.children_length]
      omega
    obtain ⟨d, y, e, after', -, hy, -, rfl, -⟩ := hn.right hlt
    have := hR d y hy
    simp
    omega

end Open

/-! ### Splitting, rotating, joining -/

section Edit

variable {α β : Type} {R : β → List α → Prop} {n left right : Node α β} {h m : ℕ} {l x y : List α} {e : α}

/-- The halves hold what is on either side of the middle entry. -/
theorem Holds.split (hn : Holds R h n l) (hlen : n.entries.length = 2 * m + 1) :
    ∃ a e b x y, n.split = some (a, e, b) ∧ Holds R h a x ∧ Holds R h b y ∧ l = x ++ e :: y ∧
      a.entries.length = m ∧ b.entries.length = m := by
  have hchildren := hn.children_length
  obtain ⟨ls, hrows, hls, rfl⟩ := hn
  obtain ⟨es, cs⟩ := n
  dsimp only at hlen hchildren hrows hls ⊢
  have hmid : es.length / 2 = m := by omega
  have hlt : m < es.length := by omega
  have hget : es[m]? = some es[m] := List.getElem?_eq_getElem hlt
  have hes : es = es.take m ++ es[m] :: es.drop (m + 1) := by simp
  have htake : (es.take m).length = m := by simp; omega
  have hdrop : (es.drop (m + 1)).length = m := by simp; omega
  have hguard : (Node.mk es cs).isLeaf = true ∨ m + 1 ≤ cs.length := by
    rw [Node.isLeaf, List.isEmpty_iff_length_eq_zero, hchildren, arity]
    split_ifs
    · exact Or.inl rfl
    · exact Or.inr (by omega)
  rw [← List.take_append_drop (m + 1) cs] at hrows
  obtain ⟨ls₁, ls₂, rfl, h₁, h₂⟩ := forall₂_split hrows
  have hlen₁ : ls₁.length = arity h (es.take m) := by
    rw [← h₁.length_eq, List.length_take, hchildren, arity, arity, htake]
    split_ifs <;> omega
  have hlen₂ : ls₂.length = arity h (es.drop (m + 1)) := by
    rw [← h₂.length_eq, List.length_drop, hchildren, arity, arity, hdrop]
    split_ifs <;> omega
  refine ⟨⟨es.take m, cs.take (m + 1)⟩, es[m], ⟨es.drop (m + 1), cs.drop (m + 1)⟩, weave ls₁ (es.take m),
    weave ls₂ (es.drop (m + 1)), ?_, ⟨ls₁, h₁, hlen₁, rfl⟩, ⟨ls₂, h₂, hlen₂, rfl⟩, ?_, htake, hdrop⟩
  · simp only [Node.split, hmid, hget, Option.map_some, if_pos hguard]
  · calc weave (ls₁ ++ ls₂) es
        = weave (ls₁ ++ ls₂) (es.take m ++ es[m] :: es.drop (m + 1)) := by rw [← hes]
      _ = weave ls₁ (es.take m) ++ es[m] :: weave ls₂ (es.drop (m + 1)) := weave_append _ hlen₁ hlen₂

theorem Holds.join (hleft : Holds R h left x) (hright : Holds R h right y) (e : α) :
    Holds R h (left.join e right) (x ++ e :: y) := by
  obtain ⟨ls₁, h₁, hlen₁, rfl⟩ := hleft
  obtain ⟨ls₂, h₂, hlen₂, rfl⟩ := hright
  refine ⟨ls₁ ++ ls₂, forall₂_append h₁ h₂, ?_, weave_append e hlen₁ hlen₂⟩
  rw [List.length_append, hlen₁, hlen₂, Node.join]
  unfold arity
  split_ifs
  · rfl
  · simp
    omega

/-- The last entry of a node, with the child after it. -/
theorem Holds.concat (hn : Holds R h n l) (hne : n.entries ≠ []) :
    ∃ a e z, n.entries.getLast? = some e ∧ Holds R h ⟨n.entries.dropLast, n.children.dropLast⟩ a ∧
      Holds R h ⟨[], n.children.getLast?.toList⟩ z ∧ l = a ++ e :: z := by
  obtain ⟨ls, hrows, hlen, rfl⟩ := hn
  obtain ⟨es, cs⟩ := n
  dsimp only at hne hrows hlen ⊢
  rcases List.eq_nil_or_concat' es with rfl | ⟨es, e, rfl⟩
  · exact absurd rfl hne
  cases h with
  | zero =>
    obtain rfl := List.eq_nil_of_length_eq_zero hlen
    obtain rfl := List.forall₂_nil_right_iff.mp hrows
    refine ⟨es, e, [], by simp, ⟨[], List.Forall₂.nil, rfl, by simp [weave]⟩,
      ⟨[], List.Forall₂.nil, rfl, rfl⟩, rfl⟩
  | succ h =>
    rcases List.eq_nil_or_concat' cs with rfl | ⟨cs, c, rfl⟩
    · rw [List.forall₂_nil_left_iff.mp hrows] at hlen
      simp [arity] at hlen
    obtain ⟨ls₁, ls₂, rfl, h₁, h₂⟩ := forall₂_split hrows
    have hone := h₂.length_eq
    have hlen₁ : ls₁.length = arity (h + 1) es := by
      simp [arity] at hlen hone ⊢
      omega
    have hlen₂ : ls₂.length = arity (h + 1) ([] : List α) := by
      simp [arity] at hone ⊢
      omega
    refine ⟨weave ls₁ es, e, weave ls₂ [], by simp, ⟨ls₁, by simpa using h₁, by simpa using hlen₁, by simp⟩,
      ⟨ls₂, by simpa using h₂, hlen₂, rfl⟩, weave_append e hlen₁ hlen₂⟩

/-- The first entry of a node, with the child before it. -/
theorem Holds.uncons (hn : Holds R h n l) (hne : n.entries ≠ []) :
    ∃ z e b, n.entries.head? = some e ∧ Holds R h ⟨[], n.children.head?.toList⟩ z ∧
      Holds R h ⟨n.entries.tail, n.children.tail⟩ b ∧ l = z ++ e :: b := by
  obtain ⟨ls, hrows, hlen, rfl⟩ := hn
  obtain ⟨es, cs⟩ := n
  dsimp only at hne hrows hlen ⊢
  cases es with
  | nil => exact absurd rfl hne
  | cons e es =>
    cases h with
    | zero =>
      obtain rfl := List.eq_nil_of_length_eq_zero hlen
      obtain rfl := List.forall₂_nil_right_iff.mp hrows
      exact ⟨[], e, es, rfl, ⟨[], List.Forall₂.nil, rfl, rfl⟩, ⟨[], List.Forall₂.nil, rfl, rfl⟩, rfl⟩
    | succ h =>
      cases hrows with
      | nil => simp [arity] at hlen
      | @cons c z cs ls hc hrest =>
        have hlen₂ : ls.length = arity (h + 1) es := by
          simp [arity] at hlen ⊢
          omega
        refine ⟨z, e, weave ls es, rfl, ⟨[z], ?_, rfl, by simp [weave, back]⟩, ⟨ls, hrest, hlen₂, rfl⟩, ?_⟩
        · exact List.Forall₂.cons hc List.Forall₂.nil
        · have hone : [z].length = arity (h + 1) ([] : List α) := rfl
          simpa [weave, back] using weave_append e hone hlen₂

/-- Rotating moves the entry that goes up and leaves the row alone. -/
theorem Holds.rotateRight (hleft : Holds R h left x) (hright : Holds R h right y) (sep : α)
    (hne : left.entries ≠ []) : ∃ a up b x' y', left.rotateRight sep right = some (a, up, b) ∧
      Holds R h a x' ∧ Holds R h b y' ∧ x ++ sep :: y = x' ++ up :: y' ∧
      a.entries.length + 1 = left.entries.length ∧ b.entries.length = right.entries.length + 1 := by
  obtain ⟨x', up, z, hlast, ha, hz, rfl⟩ := hleft.concat hne
  refine ⟨_, up, _, x', z ++ sep :: y, ?_, ha, hz.join hright sep, by simp, ?_, rfl⟩
  · rw [Node.rotateRight, hlast]
    rfl
  have := List.length_pos_iff.mpr hne
  simp
  omega

theorem Holds.rotateLeft (hleft : Holds R h left x) (hright : Holds R h right y) (sep : α)
    (hne : right.entries ≠ []) : ∃ a up b x' y', left.rotateLeft sep right = some (a, up, b) ∧
      Holds R h a x' ∧ Holds R h b y' ∧ x ++ sep :: y = x' ++ up :: y' ∧
      a.entries.length = left.entries.length + 1 ∧ b.entries.length + 1 = right.entries.length := by
  obtain ⟨z, up, y', hfirst, hz, hb, rfl⟩ := hright.uncons hne
  refine ⟨_, up, _, x ++ sep :: z, y', ?_, hleft.join hz sep, hb, by simp, ?_, ?_⟩
  · rw [Node.rotateLeft, hfirst]
    rfl
  · simp [Node.join]
  have := List.length_pos_iff.mpr hne
  simp
  omega

end Edit

end BTree
end HypercoreRs
