/-
# B-trees in a log of nodes

The nodes of a tree are entries of a log, a child is the number of an entry, and an
entry once written stays. `Subtree m look lo h seq l` says that the node with number
`seq` is the root of a B-tree of height `h` whose nodes have at most `2 * m` entries, the
root at least `lo` and every other node at least `m`, that children have smaller numbers
than their node, and that the tree lists `l`. All leaves are at the same depth because
`h` says so.
-/
import HypercoreRs.BTree.Node
import HypercoreRs.BTree.Rows

namespace HypercoreRs
namespace BTree

open Std

section Subtree

variable {α : Type} (m : ℕ) (look : ℕ → Option (Node α ℕ))

/-- Node `seq` is there and holds `l`, over children of which `R` says what they hold. -/
def Stands (R : ℕ → List α → Prop) (lo h seq : ℕ) (l : List α) : Prop :=
  ∃ n, look seq = some n ∧ lo ≤ n.entries.length ∧ n.entries.length ≤ 2 * m ∧
    (∀ c ∈ n.children, c < seq) ∧ Holds R h n l

/-- What a child of a node of height `h` holds. -/
def Child : ℕ → ℕ → List α → Prop
  | 0 => fun _ _ => False
  | h + 1 => Stands m look (Child h) m h

/-- The B-tree of height `h` at `seq` lists `l`, its root with at least `lo` entries. -/
def Subtree (lo h seq : ℕ) (l : List α) : Prop := Stands m look (Child m look h) lo h seq l

variable {m look} {look' : ℕ → Option (Node α ℕ)} {lo lo' h seq : ℕ} {l : List α} {n : Node α ℕ}

variable {R R' : ℕ → List α → Prop}

theorem Stands.mono (hlook : ∀ i n, look i = some n → look' i = some n) (hR : ∀ c x, R c x → R' c x)
    (hlo : lo' ≤ lo) (hs : Stands m look R lo h seq l) : Stands m look' R' lo' h seq l := by
  obtain ⟨n, hn, hmin, hmax, hchildren, hholds⟩ := hs
  exact ⟨n, hlook seq n hn, Nat.le_trans hlo hmin, hmax, hchildren, hholds.mono hR⟩

/-- What is written later does not touch a subtree. -/
theorem Child.mono (hlook : ∀ i n, look i = some n → look' i = some n) :
    ∀ (h c : ℕ) (x : List α), Child m look h c x → Child m look' h c x
  | 0, _, _, hx => hx.elim
  | h + 1, _, _, hx => Stands.mono hlook (Child.mono hlook h) (Nat.le_refl m) hx

theorem Subtree.mono (hlook : ∀ i n, look i = some n → look' i = some n) (hlo : lo' ≤ lo)
    (hs : Subtree m look lo h seq l) : Subtree m look' lo' h seq l :=
  Stands.mono hlook (Child.mono hlook h) hlo hs

theorem Stands.upto (hlook : ∀ n, look seq = some n → look' seq = some n)
    (hR : ∀ c x, c < seq → R c x → R' c x) (hs : Stands m look R lo h seq l) :
    Stands m look' R' lo h seq l := by
  obtain ⟨n, hn, hmin, hmax, hchildren, hholds⟩ := hs
  exact ⟨n, hlook n hn, hmin, hmax, hchildren,
    (hholds.restrict hchildren).mono fun c x hc => hR c x hc.1 hc.2⟩

theorem Child.upto : ∀ (h c : ℕ) (x : List α), (∀ i n, i ≤ c → look i = some n → look' i = some n) →
    Child m look h c x → Child m look' h c x
  | 0, _, _, _, hx => hx.elim
  | h + 1, c, _, hlook, hx => Stands.upto (hlook c · (Nat.le_refl c))
      (fun d y hd => Child.upto h d y fun i n hi => hlook i n (Nat.le_trans hi (Nat.le_of_lt hd))) hx

/-- A subtree is made of nodes up to its root. -/
theorem Subtree.upto (hlook : ∀ i n, i ≤ seq → look i = some n → look' i = some n)
    (hs : Subtree m look lo h seq l) : Subtree m look' lo h seq l :=
  Stands.upto (hlook seq · (Nat.le_refl seq))
    (fun d y hd => Child.upto h d y fun i n hi => hlook i n (Nat.le_trans hi (Nat.le_of_lt hd))) hs

theorem Subtree.weaken (hs : Subtree m look lo h seq l) (hlo : lo' ≤ lo) : Subtree m look lo' h seq l :=
  hs.mono (fun _ _ hn => hn) hlo

/-- The path down to a leaf is not longer than the numbers reach. -/
theorem Subtree.height_le : ∀ {h lo seq : ℕ} {l : List α}, Subtree m look lo h seq l → h ≤ seq
  | 0, _, _, _, _ => Nat.zero_le _
  | h + 1, lo, seq, l, hs => by
    obtain ⟨n, hn, hmin, hmax, hchildren, hholds⟩ := hs
    obtain ⟨c, x, ls₁, ls₂, hc, hx, -⟩ := hholds.hole [] n.entries rfl
    have hlt : c < seq := hchildren c (List.mem_of_getElem? hc)
    have hsub : Subtree m look m h c x := hx
    have hle := hsub.height_le
    omega

theorem Subtree.length_le (hs : Subtree m look lo h seq l) : lo ≤ l.length := by
  obtain ⟨n, -, hmin, -, -, hholds⟩ := hs
  exact Nat.le_trans hmin hholds.sublist.length_le

end Subtree

/-! ### Where a key is -/

section Order

variable {κ ν : Type} [Ord κ] [TransOrd κ] {key : κ}

/-- What stands before entries below the key is below it. -/
theorem front_below : ∀ {ls : List (List (κ × ν))} {es rest : List (κ × ν)},
    Sorted (front ls es ++ rest) → Below es key → Below (front ls es) key
  | [], es, rest, _, _ => by simp [front, Below]
  | l :: ls, [], rest, _, _ => by simp [front, Below]
  | l :: ls, e :: es, rest, hs, hes => by
    have he : compare e.1 key = .lt := hes e List.mem_cons_self
    rw [front] at hs ⊢
    simp only [List.append_assoc, List.cons_append] at hs
    obtain ⟨-, hsorted, hl, -, -⟩ := sorted_around.mp hs
    refine Below.append (fun a ha => TransCmp.lt_trans (hl a ha) he) fun a ha => ?_
    rw [List.mem_cons] at ha
    rcases ha with rfl | ha
    · exact he
    · exact front_below hsorted (fun a ha => hes a (List.mem_cons_of_mem e ha)) a ha

/-- What stands after entries above the key is above it. -/
theorem back_above : ∀ {ls : List (List (κ × ν))} {es pre : List (κ × ν)},
    Sorted (pre ++ back es ls) → Above es key → Above (back es ls) key
  | ls, [], pre, _, _ => by simp [back, Above]
  | [], e :: es, pre, _, _ => by simp [back, Above]
  | l :: ls, e :: es, pre, hs, hes => by
    have he : compare key e.1 = .lt := hes e List.mem_cons_self
    rw [back] at hs ⊢
    obtain ⟨-, hsorted, -, hl, -⟩ := sorted_around.mp hs
    intro a ha
    rw [List.mem_cons, List.mem_append] at ha
    rcases ha with rfl | ha | ha
    · exact he
    · exact TransCmp.lt_trans he (hl a (List.mem_append_left _ ha))
    · exact back_above hsorted (fun a ha => hes a (List.mem_cons_of_mem e ha)) a ha

/-- Where a key belongs in an inner node: a child, with what is below the key before it and
what is above the key after it. -/
theorem Holds.route {R : ℕ → List (κ × ν) → Prop} {h : ℕ} {n : Node (κ × ν) ℕ} {l : List (κ × ν)}
    (hn : Holds R (h + 1) n l) (hl : Sorted l) {es₁ es₂ : List (κ × ν)} (hes : n.entries = es₁ ++ es₂)
    (hlow : Below es₁ key) (hhigh : Above es₂ key) :
    ∃ c x before after, n.children[es₁.length]? = some c ∧ R c x ∧
      Hole R n es₁.length before after ∧ l = before ++ x ++ after ∧ Sorted x ∧
      Below before key ∧ Above after key := by
  obtain ⟨c, x, ls₁, ls₂, hc, hx, hhole, rfl⟩ := hn.hole _ _ hes
  refine ⟨c, x, _, _, hc, hx, hhole, rfl, hl.left.right, ?_, back_above hl hhigh⟩
  rw [List.append_assoc] at hl
  exact front_below hl hlow

end Order

end BTree
end HypercoreRs
