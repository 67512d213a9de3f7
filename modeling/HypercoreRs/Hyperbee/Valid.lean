/-
# The operations keep a B-tree

What each function of the tree does to a log of nodes, one lemma each. The tree at the
latest block is a B-tree (`Subtree`) that lists a sorted row of bindings (`Rooted`);
`put` binds its key in that row, `del` drops its key from it, and both leave a B-tree at
the latest block (`total_put`, `total_del`).

Along the way every block an operation appends is the root of some tree of its own. All
but the last of a `put`, and every one of a `del`, list fewer bindings than the tree did
before (`Brief`): that is what a reader finds at the latest block when the operation
stops halfway.
-/
import HypercoreRs.Hyperbee.Btree

namespace HypercoreRs
namespace Hyperbee

open Std Command BTree

theorem MIN_KEYS_eq : MIN_KEYS = 4 := rfl

theorem MAX_CHILDREN_eq : MAX_CHILDREN = 9 := rfl

variable {ns ns' ns'' : List Node} {lo lo' h seq i : ℕ} {l l' x before after : List Binding} {node : Node}
  {key value : Bytes}

/-- The node at a block. -/
def look (ns : List Node) (i : ℕ) : Option Node := ns[i]?

/-- The tree at block `seq` of the log. -/
abbrev Sub (ns : List Node) (lo h seq : ℕ) (l : List Binding) : Prop := Subtree MIN_KEYS (look ns) lo h seq l

/-- What the children of a node of height `h` hold. -/
abbrev Kids (ns : List Node) (h : ℕ) : ℕ → List Binding → Prop := Child MIN_KEYS (look ns) h

theorem look_extend (hns : ns <+: ns') (i : ℕ) (n : Node) (hi : look ns i = some n) :
    look ns' i = some n := by
  obtain ⟨t, rfl⟩ := hns
  unfold look at hi ⊢
  rw [List.getElem?_append_left (List.getElem?_eq_some_iff.mp hi).1]
  exact hi

theorem kids_extend (hns : ns <+: ns') (c : ℕ) (x : List Binding) (hx : Kids ns h c x) : Kids ns' h c x :=
  Child.mono (look_extend hns) h c x hx

theorem sub_extend (hns : ns <+: ns') (hs : Sub ns lo h seq l) : Sub ns' lo h seq l :=
  hs.mono (look_extend hns) (Nat.le_refl lo)

/-- A tree needs no block after its root. -/
theorem sub_restrict (hns : ns <+: ns') (hlt : seq < ns.length) (hs : Sub ns' lo h seq l) :
    Sub ns lo h seq l := by
  obtain ⟨t, rfl⟩ := hns
  refine hs.upto fun i n hi hn => ?_
  unfold look at hn ⊢
  rwa [List.getElem?_append_left (by omega)] at hn

variable {c : ℕ}

theorem kids_lt (hx : Kids ns h c x) : c < ns.length := by
  cases h with
  | zero => exact hx.elim
  | succ h =>
    obtain ⟨n, hn, -⟩ := hx
    exact (List.getElem?_eq_some_iff.mp hn).1

theorem kids_sub (hx : Kids ns (h + 1) c x) : Sub ns MIN_KEYS h c x := hx

/-- A node over subtrees of the log, once appended, is the root of a subtree. -/
theorem sub_push (hn : Holds (Kids ns h) h node l) (hlo : lo ≤ node.entries.length)
    (hmax : node.entries.length ≤ 2 * MIN_KEYS) : Sub (ns ++ [node]) lo h ns.length l := by
  refine ⟨node, by simp [look], hlo, hmax,
    fun c hc => ?_, hn.mono (kids_extend (List.prefix_append ns [node]))⟩
  obtain ⟨x, hx⟩ := hn.of_mem_children hc
  exact kids_lt hx

/-- The blocks from `a` to `b` are roots of trees with fewer than `m` bindings. -/
def Brief (ns : List Node) (a b m : ℕ) : Prop :=
  ∀ j, a ≤ j → j < b → ∃ h l, Sub ns 0 h j l ∧ l.length < m

theorem Brief.none (ns : List Node) (a m : ℕ) : Brief ns a a m := fun j ha hb => by omega

theorem Brief.trans {a b c m : ℕ} (h₁ : Brief ns a b m) (h₂ : Brief ns b c m) : Brief ns a c m := by
  intro j ha hc
  by_cases hb : j < b
  · exact h₁ j ha hb
  · exact h₂ j (by omega) hc

theorem Brief.mono {a b m m' : ℕ} (hb : Brief ns a b m) (hns : ns <+: ns') (hm : m ≤ m') :
    Brief ns' a b m' := by
  intro j ha hj
  obtain ⟨h, l, hs, hl⟩ := hb j ha hj
  exact ⟨h, l, sub_extend hns hs, by omega⟩

variable {m : ℕ}

theorem Brief.one (hs : Sub ns lo h seq l) (hl : l.length < m) : Brief ns seq (seq + 1) m := by
  intro j ha hb
  obtain rfl : j = seq := by omega
  exact ⟨h, l, hs.weaken (Nat.zero_le lo), hl⟩

/-! ### Reading -/

/-- A lookup finds what the tree lists. -/
theorem total_getFrom : ∀ (fuel : ℕ) {h : ℕ}, h < fuel → ∀ {lo seq : ℕ} {l : List Binding},
    Sub ns lo h seq l → Sorted l →
    (getFrom fuel seq key).Total ns fun r ns' => ns' = ns ∧ ∀ v, r = some v ↔ (key, v) ∈ l
  | 0, _, hfuel, _, _, _, _, _ => by omega
  | fuel + 1, h, hfuel, lo, seq, l, hs, hl => by
    obtain ⟨node, hnode, -, -, -, hn⟩ := hs
    rw [getFrom]
    apply Prog.Total.entry hnode
    have hsorted : Sorted node.entries := hl.sublist hn.sublist
    rcases hsorted.search key with ⟨es₁, v, es₂, hsearch, hes, -, -⟩ | ⟨es₁, es₂, hsearch, hes, hlow, hhigh⟩
    · rw [search, hsearch]
      apply Prog.Total.expect (b := (key, v)) (by simp [hes])
      obtain ⟨a, b, rfl, -⟩ := hn.modify hes
      obtain ⟨-, -, ha, hb, -⟩ := sorted_around.mp hl
      refine Prog.Total.pure ⟨rfl, fun v' => ?_⟩
      simp [ha.not_mem, hb.not_mem, eq_comm]
    · rw [search, hsearch]
      dsimp only
      cases h with
      | zero =>
        rw [if_pos (hn.isLeaf.mpr rfl)]
        obtain ⟨-, rfl⟩ := Holds.leaf_iff.mp hn
        refine Prog.Total.pure ⟨rfl, fun v => ?_⟩
        rw [hes]
        simp [hlow.not_mem, hhigh.not_mem]
      | succ h =>
        rw [if_neg (by rw [hn.isLeaf]; omega)]
        obtain ⟨c, x, before, after, hc, hx, -, rfl, hxs, hbefore, hafter⟩ := hn.route hl hes hlow hhigh
        apply Prog.Total.expect hc
        refine (total_getFrom fuel (by omega) (kids_sub hx) hxs).mono fun r ns' _ hr => ⟨hr.1, fun v => ?_⟩
        rw [hr.2]
        simp [hbefore.not_mem, hafter.not_mem]

theorem total_collectAll {R : ℕ → List Binding → Prop} {go : ℕ → Prog Node (List Binding)}
    (hgo : ∀ c x, R c x → (go c).Total ns fun r ns' => ns' = ns ∧ r = x) :
    ∀ {es : List Binding} {cs : List ℕ} {ls : List (List Binding)}, List.Forall₂ R cs ls →
    ls.length = es.length + 1 →
    (collectAll go es cs).Total ns fun r ns' => ns' = ns ∧ r = weave ls es
  | es, _, _, List.Forall₂.nil, hlen => by simp at hlen
  | [], c :: cs, x :: ls, List.Forall₂.cons hc hrest, hlen => by
    obtain rfl := List.eq_nil_of_length_eq_zero (Nat.succ.inj hlen)
    rw [collectAll]
    exact (hgo c x hc).mono fun r ns' _ hr => ⟨hr.1, by simp [weave, back, hr.2]⟩
  | e :: es, c :: cs, x :: ls, List.Forall₂.cons hc hrest, hlen => by
    rw [collectAll]
    refine Prog.Total.bind (hgo c x hc) fun r ns' _ hr => ?_
    obtain ⟨hns, rfl⟩ := hr
    rw [hns]
    refine Prog.Total.bind (total_collectAll hgo hrest (Nat.succ.inj hlen)) fun r' ns' _ hr' => ?_
    obtain ⟨hns', rfl⟩ := hr'
    refine Prog.Total.pure ⟨hns', ?_⟩
    cases ls with
    | nil => simp at hlen
    | cons y ls => simp [weave, back]

/-- The traversal gives what the tree lists. -/
theorem total_collect : ∀ (fuel : ℕ) {h : ℕ}, h < fuel → ∀ {lo seq : ℕ} {l : List Binding},
    Sub ns lo h seq l → (collect fuel seq).Total ns fun r ns' => ns' = ns ∧ r = l
  | 0, _, hfuel, _, _, _, _ => by omega
  | fuel + 1, h, hfuel, lo, seq, l, hs => by
    obtain ⟨node, hnode, -, -, -, hn⟩ := hs
    rw [collect]
    apply Prog.Total.entry hnode
    cases h with
    | zero =>
      rw [if_pos (hn.isLeaf.mpr rfl)]
      obtain ⟨-, rfl⟩ := Holds.leaf_iff.mp hn
      exact Prog.Total.pure ⟨rfl, rfl⟩
    | succ h =>
      rw [if_neg (by rw [hn.isLeaf]; omega)]
      obtain ⟨ls, hrows, hlen, rfl⟩ := hn
      exact total_collectAll (fun c x hx => total_collect fuel (by omega) (kids_sub hx)) hrows hlen

theorem total_boundaryLeafLen (leftmost : Bool) : ∀ (fuel : ℕ) {h : ℕ}, h < fuel →
    ∀ {lo seq : ℕ} {l : List Binding}, Sub ns lo h seq l →
    (boundaryLeafLen fuel seq leftmost).Total ns fun _ ns' => ns' = ns
  | 0, _, hfuel, _, _, _, _ => by omega
  | fuel + 1, h, hfuel, lo, seq, l, hs => by
    obtain ⟨node, hnode, -, -, -, hn⟩ := hs
    rw [boundaryLeafLen]
    apply Prog.Total.entry hnode
    cases h with
    | zero =>
      rw [if_pos (hn.isLeaf.mpr rfl)]
      exact Prog.Total.pure rfl
    | succ h =>
      rw [if_neg (by rw [hn.isLeaf]; omega)]
      have hlen : 0 < node.children.length := by
        rw [hn.children_length]
        simp [arity]
      obtain ⟨c, hc⟩ : ∃ c, (if leftmost then node.children[0]? else node.children.getLast?) = some c := by
        cases leftmost with
        | true => exact ⟨_, List.getElem?_eq_getElem hlen⟩
        | false => exact ⟨_, List.getLast?_eq_some_getLast (List.length_pos_iff.mp hlen)⟩
      have hmem : c ∈ node.children := by
        cases leftmost with
        | true => exact List.mem_of_getElem? hc
        | false => exact List.mem_of_getLast? hc
      apply Prog.Total.expect hc
      obtain ⟨x, hx⟩ := hn.of_mem_children hmem
      exact total_boundaryLeafLen leftmost fuel (by omega) (kids_sub hx)

/-! ### Inserting -/

/-- What inserting leaves: a rewritten root that lists `l`, or two halves that do with the
entry between them. Blocks appended on the way list fewer than `m` bindings. -/
def Inserted (ns ns' : List Node) (lo h m : ℕ) (l : List Binding) : Ins → Prop
  | .down s => s + 1 = ns'.length ∧ ns.length ≤ s ∧ Sub ns' lo h s l ∧ Brief ns' ns.length s m
  | .split a e b => ∃ x y, l = x ++ e :: y ∧ Sub ns' MIN_KEYS h a x ∧ Sub ns' MIN_KEYS h b y ∧
      Brief ns' ns.length ns'.length m

/-- Blocks appended before it count with it. -/
theorem Inserted.extend {r : Ins} (hns : ns <+: ns') (hr : Inserted ns' ns'' lo h m l r)
    (hb : Brief ns'' ns.length ns'.length m) : Inserted ns ns'' lo h m l r := by
  cases r with
  | down s =>
    obtain ⟨hlast, hle, hsub, hbrief⟩ := hr
    exact ⟨hlast, Nat.le_trans hns.length_le hle, hsub, hb.trans hbrief⟩
  | split a e b =>
    obtain ⟨x, y, hl, ha, hb', hbrief⟩ := hr
    exact ⟨x, y, hl, ha, hb', hb.trans hbrief⟩

theorem total_finish (lo : ℕ) (hn : Holds (Kids ns h) h node l) (hlo : lo ≤ node.entries.length)
    (hmax : node.entries.length ≤ MAX_CHILDREN) (hm : l.length ≤ m + 1) :
    (finish node).Total ns fun r ns' => Inserted ns ns' lo h m l r := by
  unfold finish
  split_ifs with hlt
  · apply Prog.Total.push
    refine Prog.Total.pure ⟨by simp, Nat.le_refl _, sub_push hn hlo ?_, Brief.none _ _ _⟩
    rw [MAX_CHILDREN_eq] at hlt
    rw [MIN_KEYS_eq]
    omega
  · have hlen : node.entries.length = 2 * MIN_KEYS + 1 := by
      rw [MAX_CHILDREN_eq] at hlt hmax
      rw [MIN_KEYS_eq]
      omega
    obtain ⟨a, e, b, x, y, hsplit, ha, hb, rfl, hla, hlb⟩ := hn.split hlen
    apply Prog.Total.expect hsplit
    apply Prog.Total.push
    apply Prog.Total.push
    have hleft : Sub (ns ++ [a]) MIN_KEYS h ns.length x := sub_push ha hla.ge (by omega)
    have hright : Sub (ns ++ [a] ++ [b]) MIN_KEYS h (ns ++ [a]).length y :=
      sub_push (hb.mono (kids_extend (List.prefix_append ns [a]))) hlb.ge (by omega)
    have hleft' := sub_extend (List.prefix_append (ns ++ [a]) [b]) hleft
    have hx := hleft.length_le
    have hy := hright.length_le
    rw [MIN_KEYS_eq] at hx hy
    rw [List.length_append, List.length_cons] at hm
    refine Prog.Total.pure ⟨x, y, rfl, hleft', hright, (Brief.one hleft' ?_).trans ?_⟩
    · omega
    · have := Brief.one (m := m) hright (by omega)
      simpa using this

/-- A key is put into a subtree with the nodes from its leaf up rewritten. -/
theorem total_insert : ∀ (fuel : ℕ) {h : ℕ}, h < fuel → ∀ {ns : List Node} {lo seq : ℕ} {l : List Binding},
    Sub ns lo h seq l → lo ≤ MIN_KEYS → (0 < h → 0 < lo) → Sorted l →
    (insert fuel seq key value).Total ns fun r ns' =>
      ∃ l', Put key value l l' ∧ Inserted ns ns' lo h l.length l' r
  | 0, _, hfuel, _, _, _, _, _, _, _, _ => by omega
  | fuel + 1, h, hfuel, ns, lo, seq, l, hs, hle, hpos, hl => by
    obtain ⟨node, hnode, hmin, hmax, -, hn⟩ := hs
    rw [insert]
    apply Prog.Total.entry hnode
    have hsorted : Sorted node.entries := hl.sublist hn.sublist
    rcases hsorted.search key with
      ⟨es₁, v, es₂, hsearch, hes, hlow, hhigh⟩ | ⟨es₁, es₂, hsearch, hes, hlow, hhigh⟩
    · -- the key is in this node
      obtain ⟨a, b, rfl, hmod⟩ := hn.modify hes
      obtain ⟨-, -, ha, hb, -⟩ := sorted_around.mp hl
      rw [search, hsearch]
      apply Prog.Total.push
      have hentries : node.entries.modify es₁.length (fun e => (e.1, value)) = es₁ ++
          (key, value) :: es₂ := by
        rw [hes, modify_append]
      rw [hentries]
      refine Prog.Total.pure ⟨a ++ (key, value) :: b, Put.again ha hb, by simp, Nat.le_refl _,
        sub_push (hmod (key, value)) ?_ ?_, Brief.none _ _ _⟩
      · simpa [hes] using hmin
      · simpa [hes] using hmax
    · rw [search, hsearch]
      dsimp only
      cases h with
      | zero =>
        rw [if_pos (hn.isLeaf.mpr rfl)]
        obtain ⟨hchildren, rfl⟩ := Holds.leaf_iff.mp hn
        have hentries : node.entries.insertIdx es₁.length (key, value) = es₁ ++ (key, value) :: es₂ := by
          rw [hes, insertIdx_append]
        have hput : Put key value node.entries (es₁ ++ (key, value) :: es₂) := hes ▸ Put.fresh hlow hhigh
        have hlen := hput.length_le
        have hleaf : Holds (Kids ns 0) 0 { node with entries := es₁ ++ (key, value) :: es₂ }
            (es₁ ++ (key, value) :: es₂) := Holds.leaf_iff.mpr ⟨hchildren, rfl⟩
        rw [hentries]
        refine (total_finish lo hleaf ?_ ?_ hlen.2).mono fun r ns' _ hr => ⟨_, hput, hr⟩
        · exact Nat.le_trans hmin hlen.1
        · rw [MIN_KEYS_eq] at hmax
          rw [MAX_CHILDREN_eq]
          dsimp only
          omega
      | succ h =>
        rw [if_neg (by rw [hn.isLeaf]; omega)]
        obtain ⟨c, x, before, after, hc, hx, hhole, rfl, hxs, hbefore, hafter⟩ := hn.route hl hes hlow hhigh
        apply Prog.Total.expect hc
        have hne : node.entries ≠ [] := by
          intro hnil
          have := hpos (by omega)
          rw [hnil] at hmin
          simp at hmin
          omega
        have haround : MIN_KEYS < before.length + after.length :=
          hhole.length_lt (fun c x hx => Subtree.length_le (h := h) hx) hne
        have hlen : (before ++ x ++ after).length = before.length + x.length + after.length := by
          rw [List.length_append, List.length_append]
        refine Prog.Total.bind (total_insert fuel (by omega) (kids_sub hx) (Nat.le_refl _)
          (fun _ => by decide) hxs) fun r ns₁ hns₁ hr => ?_
        obtain ⟨x', hput, hr⟩ := hr
        have hputlen := hput.length_le
        have hhole₁ := hhole.mono (kids_extend hns₁)
        have hput' := hput.around hbefore hafter
        cases r with
        | down s =>
          obtain ⟨hlast, -, hsub, hbrief⟩ := hr
          have hn' := hhole₁.fill (h := h) hsub
          apply Prog.Total.push
          refine Prog.Total.pure ⟨_, hput', by simp, hns₁.length_le, sub_push hn' hmin hmax, ?_⟩
          rw [← hlast]
          refine ((hbrief.mono List.prefix_rfl (by omega)).trans (Brief.one hsub (by omega))).mono
            (List.prefix_append _ _) (Nat.le_refl _)
        | split a e b =>
          obtain ⟨x₁, x₂, rfl, ha, hb, hbrief⟩ := hr
          have hn' := hhole₁.fill_two (h := h) (e := e) ha hb
          have hcount : (node.entries.insertIdx es₁.length e).length = node.entries.length + 1 := by
            rw [List.length_insertIdx, if_pos (by simp [hes])]
          rw [MIN_KEYS_eq] at hmax
          refine (total_finish lo hn' (by dsimp only; omega)
            (by rw [MAX_CHILDREN_eq]; dsimp only; omega) hput'.length_le.2).mono
              fun r ns₂ hns₂ hr => ⟨_, hput', ?_⟩
          exact Inserted.extend hns₁ hr (hbrief.mono hns₂ (by omega))

/-- The tree at the latest block lists `l`. -/
inductive Rooted (ns : List Node) : List Binding → Prop
  | empty : ns = [] → Rooted ns []
  | tree {h seq : ℕ} {l : List Binding} : seq + 1 = ns.length → Sub ns (min h 1) h seq l → Sorted l →
      Rooted ns l

theorem total_put (hr : Rooted ns l) : (put key value).Total ns fun _ ns' =>
    ∃ l' seq, Put key value l l' ∧ Rooted ns' l' ∧ seq + 1 = ns'.length ∧ ns.length ≤ seq ∧
      Brief ns' ns.length seq l.length := by
  unfold put
  apply Prog.Total.root
  cases hr with
  | empty hns =>
    subst hns
    apply Prog.Total.push
    have hput : Put key value [] [(key, value)] :=
      Put.fresh (a := []) (b := []) (by simp [Below]) (by simp [Above])
    have hsub : Sub ([] ++ [⟨[(key, value)], []⟩]) 0 0 ([] : List Node).length [(key, value)] :=
      sub_push (Holds.leaf_iff.mpr ⟨rfl, rfl⟩) (by simp) (by simp [MIN_KEYS_eq])
    refine Prog.Total.pure ⟨_, 0, hput, Rooted.tree rfl hsub ?_, rfl, Nat.le_refl _, Brief.none _ _ _⟩
    exact List.pairwise_singleton _ _
  | @tree h seq l hlast hs hl =>
    rw [← hlast, Nat.ppred_succ]
    dsimp only
    have hfuel : h < seq + 1 := Nat.lt_succ_of_le hs.height_le
    refine Prog.Total.bind (total_insert (seq + 1) hfuel hs ?_ ?_ hl) fun r ns₁ hns₁ hr => ?_
    · rw [MIN_KEYS_eq]
      omega
    · omega
    · obtain ⟨l', hput, hr⟩ := hr
      cases r with
      | down s =>
        obtain ⟨hlast', hle, hsub, hbrief⟩ := hr
        rw [hlast]
        exact Prog.Total.pure ⟨l', s, hput, Rooted.tree hlast' hsub (hl.put hput), hlast', hle, hbrief⟩
      | split a e b =>
        obtain ⟨x, y, rfl, ha, hb, hbrief⟩ := hr
        apply Prog.Total.push
        have hroot : Holds (Kids ns₁ (h + 1)) (h + 1) ⟨[e], [a, b]⟩ (x ++ e :: y) :=
          ⟨[x, y], List.Forall₂.cons ha (List.Forall₂.cons hb List.Forall₂.nil), rfl, by simp [weave, back]⟩
        have hsub : Sub (ns₁ ++ [⟨[e], [a, b]⟩]) 1 (h + 1) ns₁.length (x ++ e :: y) :=
          sub_push hroot (by simp) (by simp [MIN_KEYS_eq])
        have hlast' : ns₁.length + 1 = (ns₁ ++ [(⟨[e], [a, b]⟩ : Node)]).length := by simp
        refine Prog.Total.pure ⟨_, ns₁.length, hput, Rooted.tree (h := h + 1) hlast' ?_ (hl.put hput),
          hlast', ?_, ?_⟩
        · rwa [show min (h + 1) 1 = 1 by omega]
        · rw [hlast]
          exact hns₁.length_le
        · rw [hlast]
          exact hbrief.mono (List.prefix_append _ _) (Nat.le_refl _)

/-! ### Rebalancing -/

/-- The node at `c` lacks one entry. -/
def Weak (ns : List Node) (h c : ℕ) (l : List Binding) : Prop :=
  ∃ n, look ns c = some n ∧ n.entries.length + 1 = MIN_KEYS ∧ Holds (Kids ns h) h n l

/-- What rebalancing a child of `node` leaves: a node that holds `l`, with at most one entry
less. -/
structure Restored (ns ns' : List Node) (h : ℕ) (node node' : Node) (l : List Binding) : Prop where
  holds : Holds (Kids ns' (h + 1)) (h + 1) node' l
  entries_le : node'.entries.length ≤ node.entries.length
  le_entries : node.entries.length ≤ node'.entries.length + 1
  brief : Brief ns' ns.length ns'.length (l.length + 1)

variable {e : Binding} {y : List Binding}

/-- Two nodes are appended in the place of two neighbours. -/
theorem Restored.two {a b : Node} (hpair : Pair (Kids ns (h + 1)) node i before after)
    (ha : Holds (Kids ns h) h a x) (hb : Holds (Kids ns h) h b y)
    (hla : MIN_KEYS ≤ a.entries.length) (hlb : MIN_KEYS ≤ b.entries.length)
    (hma : a.entries.length ≤ 2 * MIN_KEYS) (hmb : b.entries.length ≤ 2 * MIN_KEYS) :
    Restored ns (ns ++ [a] ++ [b]) h node
      ⟨node.entries.set i e, (node.children.set i ns.length).set (i + 1) (ns ++ [a]).length⟩
      (before ++ (x ++ e :: y) ++ after) := by
  have hpre := List.prefix_append (ns ++ [a]) [b]
  have hleft : Sub (ns ++ [a] ++ [b]) MIN_KEYS h ns.length x := sub_extend hpre (sub_push ha hla hma)
  have hright : Sub (ns ++ [a] ++ [b]) MIN_KEYS h (ns ++ [a]).length y :=
    sub_push (hb.mono (kids_extend (List.prefix_append ns [a]))) hlb hmb
  have hpair' := hpair.mono (kids_extend ((List.prefix_append ns [a]).trans hpre))
  refine ⟨hpair'.fill hleft hright, by simp, by simp, ?_⟩
  have hbrief := (Brief.one (m := (before ++ (x ++ e :: y) ++ after).length + 1) hleft (by simp; omega)).trans
    (by simpa using Brief.one (m := (before ++ (x ++ e :: y) ++ after).length + 1) hright (by simp; omega))
  simpa using hbrief

theorem total_childAt {α : Type} {n : Node} {Q : α → List Node → Prop} {f : Node → Prog Node α}
    (hc : node.children[i]? = some c) (hn : look ns c = some n) (hf : (f n).Total ns Q) :
    (childAt node i >>= f).Total ns Q := by
  refine Prog.Total.bind (Q := fun m ns' => m = n ∧ ns' = ns) ?_ fun m ns' _ hm => ?_
  · unfold childAt
    apply Prog.Total.expect hc
    exact ⟨n, ns, by simp only [Prog.entry, Prog.exec]; rw [show ns[c]? = some n from hn], rfl, rfl⟩
  · obtain ⟨rfl, rfl⟩ := hm
    exact hf

theorem total_borrowLeft {left : Node} (hpair : Pair (Kids ns (h + 1)) node i before after)
    (hc : node.children[i + 1]? = some c) (hweak : Weak ns h c x) (hleft : Holds (Kids ns h) h left y)
    (he : node.entries[i]? = some e) (hspare : MIN_KEYS < left.entries.length)
    (hmax : left.entries.length ≤ 2 * MIN_KEYS) :
    (borrowLeft node (i + 1) left).Total ns fun node' ns' =>
      Restored ns ns' h node node' (before ++ (y ++ e :: x) ++ after) := by
  obtain ⟨child, hchild, hlen, hholds⟩ := hweak
  have hne : left.entries ≠ [] := by
    intro hnil
    simp [hnil] at hspare
  obtain ⟨a, up, b, x', y', hrot, ha, hb, heq, hla, hlb⟩ := hleft.rotateRight hholds e hne
  unfold borrowLeft
  apply total_childAt hc hchild
  rw [Nat.add_sub_cancel]
  apply Prog.Total.expect he
  apply Prog.Total.expect hrot
  apply Prog.Total.push
  apply Prog.Total.push
  rw [heq]
  exact Prog.Total.pure (Restored.two hpair ha hb (by omega) (by omega) (by omega) (by omega))

theorem total_borrowRight {right : Node} (hpair : Pair (Kids ns (h + 1)) node i before after)
    (hc : node.children[i]? = some c) (hweak : Weak ns h c x) (hright : Holds (Kids ns h) h right y)
    (he : node.entries[i]? = some e) (hspare : MIN_KEYS < right.entries.length)
    (hmax : right.entries.length ≤ 2 * MIN_KEYS) :
    (borrowRight node i right).Total ns fun node' ns' =>
      Restored ns ns' h node node' (before ++ (x ++ e :: y) ++ after) := by
  obtain ⟨child, hchild, hlen, hholds⟩ := hweak
  have hne : right.entries ≠ [] := by
    intro hnil
    simp [hnil] at hspare
  obtain ⟨a, up, b, x', y', hrot, ha, hb, heq, hla, hlb⟩ := hholds.rotateLeft hright e hne
  unfold borrowRight
  apply total_childAt hc hchild
  apply Prog.Total.expect he
  apply Prog.Total.expect hrot
  apply Prog.Total.push
  apply Prog.Total.push
  rw [heq]
  exact Prog.Total.pure (Restored.two hpair ha hb (by omega) (by omega) (by omega) (by omega))

/-- Two neighbours that together are not too full become one. -/
theorem total_merge {j c d : ℕ} {left right : Node} (hj : (if 0 < i then i - 1 else i) = j)
    (hpair : Pair (Kids ns (h + 1)) node j before after) (hc : node.children[j]? = some c)
    (hd : node.children[j + 1]? = some d) (hleft : look ns c = some left) (hright : look ns d = some right)
    (he : node.entries[j]? = some e) (hx : Holds (Kids ns h) h left x) (hy : Holds (Kids ns h) h right y)
    (hsum : left.entries.length + right.entries.length + 1 = 2 * MIN_KEYS) :
    (merge node i).Total ns fun node' ns' =>
      Restored ns ns' h node node' (before ++ (x ++ e :: y) ++ after) := by
  unfold merge
  rw [hj]
  apply total_childAt hc hleft
  apply total_childAt hd hright
  apply Prog.Total.expect he
  apply Prog.Total.push
  have hcount : (left.join e right).entries.length = 2 * MIN_KEYS := by
    rw [BTree.Node.join, List.length_append, List.length_cons]
    omega
  have hsub : Sub (ns ++ [left.join e right]) MIN_KEYS h ns.length (x ++ e :: y) :=
    sub_push (hx.join hy e) (by omega) hcount.le
  have hpair' := hpair.mono (kids_extend (List.prefix_append ns [left.join e right]))
  have hlt : j < node.entries.length := (List.getElem?_eq_some_iff.mp he).1
  refine Prog.Total.pure ⟨hpair'.fuse hsub, ?_, ?_, ?_⟩
  · rw [List.length_eraseIdx_of_lt hlt]
    omega
  · rw [List.length_eraseIdx_of_lt hlt]
    omega
  · simpa using Brief.one (m := (before ++ (x ++ e :: y) ++ after).length + 1) hsub (by simp; omega)

/-- The node at block `c` has no entry to spare. -/
def NoSpare (ns : List Node) (c : Option ℕ) : Prop :=
  ∀ d n, c = some d → look ns d = some n → n.entries.length ≤ MIN_KEYS

/-- With no sibling that could spare an entry, the weak child is merged with one. -/
theorem total_merge_weak (hhole : Hole (Kids ns (h + 1)) node i before after)
    (hc : node.children[i]? = some c) (hweak : Weak ns h c x) (hne : node.entries ≠ [])
    (hleft : 0 < i → NoSpare ns node.children[i - 1]?)
    (hright : i = 0 → NoSpare ns node.children[1]?) :
    (merge node i).Total ns fun node' ns' => Restored ns ns' h node node' (before ++ x ++ after) := by
  obtain ⟨child, hchild, hlen, hholds⟩ := hweak
  cases i with
  | succ i =>
    obtain ⟨d, y, e, before', hd, hy, he, rfl, hpair⟩ := hhole.left
    obtain ⟨n, hn, hmin, -, -, hn'⟩ := kids_sub hy
    have hmax : n.entries.length ≤ MIN_KEYS := hleft (Nat.succ_pos i) d n hd hn
    have := total_merge (i := i + 1) (j := i) (by simp) hpair hd hc hn hchild he hn' hholds (by omega)
    simpa using this
  | zero =>
    have hlt : 0 + 1 < node.children.length := by
      have := List.length_pos_iff.mpr hne
      rw [hhole.children_length]
      omega
    obtain ⟨d, y, e, after', hd, hy, he, rfl, hpair⟩ := hhole.right hlt
    obtain ⟨n, hn, hmin, -, -, hn'⟩ := kids_sub hy
    have hmax : n.entries.length ≤ MIN_KEYS := hright rfl d n hd hn
    have := total_merge (i := 0) (j := 0) (by simp) hpair hc hd hchild hn he hholds hn' (by omega)
    simpa using this

/-- The second half of rebalancing: a left sibling has no entry to spare. -/
theorem total_rebalanceRight (hhole : Hole (Kids ns (h + 1)) node i before after)
    (hc : node.children[i]? = some c) (hweak : Weak ns h c x) (hne : node.entries ≠ [])
    (hleft : 0 < i → NoSpare ns node.children[i - 1]?) :
    (rebalanceRight node i).Total ns fun node' ns' => Restored ns ns' h node node'
      (before ++ x ++ after) := by
  unfold rebalanceRight
  split_ifs with hlt
  · obtain ⟨d, y, e, after', hd, hy, he, rfl, hpair⟩ := hhole.right hlt
    obtain ⟨n, hn, -, hmax, -, hn'⟩ := kids_sub hy
    apply total_childAt hd hn
    split_ifs with hspare
    · have := total_borrowRight hpair hc hweak hn' he hspare hmax
      simpa using this
    · refine total_merge_weak hhole hc hweak hne hleft fun hi d' n' hd' hn₁ => ?_
      subst hi
      obtain rfl : d = d' := Option.some.inj (hd.symm.trans hd')
      obtain rfl : n = n' := Option.some.inj (hn.symm.trans hn₁)
      omega
  · refine total_merge_weak hhole hc hweak hne hleft fun hi => ?_
    have := List.length_pos_iff.mpr hne
    rw [hhole.children_length] at hlt
    omega

theorem total_rebalance (hhole : Hole (Kids ns (h + 1)) node i before after) (hc : node.children[i]? = some c)
    (hweak : Weak ns h c x) (hne : node.entries ≠ []) :
    (rebalance node i).Total ns fun node' ns' => Restored ns ns' h node node' (before ++ x ++ after) := by
  unfold rebalance
  cases i with
  | zero =>
    rw [if_neg (Nat.lt_irrefl 0)]
    exact total_rebalanceRight hhole hc hweak hne fun hi => by omega
  | succ i =>
    rw [if_pos (Nat.succ_pos i)]
    obtain ⟨d, y, e, before', hd, hy, he, hbefore, hpair⟩ := hhole.left
    obtain ⟨n, hn, -, hmax, -, hn'⟩ := kids_sub hy
    apply total_childAt (i := i + 1 - 1) hd hn
    split_ifs with hspare
    · have := total_borrowLeft hpair hc hweak hn' he hspare hmax
      simpa [hbefore] using this
    · refine total_rebalanceRight hhole hc hweak hne fun _ d' n' hd' hn₁ => ?_
      obtain rfl : d = d' := Option.some.inj (hd.symm.trans hd')
      obtain rfl : n = n' := Option.some.inj (hn.symm.trans hn₁)
      omega

/-! ### Deleting -/

/-- A rewritten node at the latest block: it holds `l`, has at most one entry too few, and
`under` says whether it has less than `MIN_KEYS`. -/
structure Settled (ns : List Node) (lo h s : ℕ) (under : Bool) (l : List Binding) : Prop where
  last : s + 1 = ns.length
  node : ∃ n, look ns s = some n ∧ lo ≤ n.entries.length + 1 ∧ n.entries.length ≤ 2 * MIN_KEYS ∧
    (∀ c ∈ n.children, c < s) ∧ Holds (Kids ns h) h n l ∧
    under = decide (n.entries.length < MIN_KEYS)

/-- A rewritten child: full again, or weak as the flag says. -/
def Rewritten (ns : List Node) (h c : ℕ) (under : Bool) (l : List Binding) : Prop :=
  if under then Weak ns h c l else Sub ns MIN_KEYS h c l

variable {s : ℕ} {under : Bool}

theorem Settled.rewritten (hs : Settled ns MIN_KEYS h s under l) : Rewritten ns h s under l := by
  obtain ⟨n, hn, hmin, hmax, hchildren, hholds, rfl⟩ := hs.node
  unfold Rewritten
  split_ifs with hlt
  · rw [decide_eq_true_eq] at hlt
    exact ⟨n, hn, by omega, hholds⟩
  · rw [decide_eq_true_eq] at hlt
    exact ⟨n, hn, by omega, hmax, hchildren, hholds⟩

theorem total_settle (lo : ℕ) (hn : Holds (Kids ns h) h node l) (hlo : lo ≤ node.entries.length + 1)
    (hmax : node.entries.length ≤ 2 * MIN_KEYS) :
    (settle node).Total ns fun r ns' => Settled ns' lo h r.1 r.2 l ∧
      Brief ns' ns.length ns'.length (l.length + 1) := by
  unfold settle
  apply Prog.Total.push
  have hsub : Sub (ns ++ [node]) 0 h ns.length l := sub_push hn (Nat.zero_le _) hmax
  have hbrief := Brief.one (m := l.length + 1) hsub (by omega)
  obtain ⟨n, hlook, -, -, hchildren, hholds⟩ := hsub
  obtain rfl : node = n := by
    rw [look, List.getElem?_append_right (Nat.le_refl _)] at hlook
    simpa using hlook
  refine Prog.Total.pure ⟨⟨by simp, node, hlook, hlo, hmax, hchildren, hholds, rfl⟩, ?_⟩
  simpa using hbrief

/-- A node whose child `i` was rewritten, after the child was rebalanced if need be. -/
theorem total_restore (hhole : Hole (Kids ns (h + 1)) node i before after) (hc : node.children[i]? = some c)
    (hchild : Rewritten ns h c under x) (hne : node.entries ≠ []) :
    (restore node i under).Total ns fun node' ns' => Restored ns ns' h node node' (before ++ x ++ after) := by
  unfold restore
  unfold Rewritten at hchild
  split_ifs at hchild ⊢ with hunder
  · exact total_rebalance hhole hc hchild hne
  · refine Prog.Total.pure ⟨?_, Nat.le_refl _, Nat.le_succ _, Brief.none _ _ _⟩
    have hfill := hhole.fill (h := h) hchild
    have hset : node.children.set i c = node.children := by
      obtain ⟨hlt, hget⟩ := List.getElem?_eq_some_iff.mp hc
      rw [← hget, List.set_getElem_self]
    rwa [hset] at hfill

/-- And the node is appended. -/
theorem total_restore_settle {α : Type} {f : ℕ × Bool → Prog Node α} {Q : α → List Node → Prop}
    (hhole : Hole (Kids ns (h + 1)) node i before after) (hc : node.children[i]? = some c)
    (hchild : Rewritten ns h c under x) (hne : node.entries ≠ []) (hlo : lo ≤ node.entries.length)
    (hmax : node.entries.length ≤ 2 * MIN_KEYS)
    (hf : ∀ s under ns', ns <+: ns' → Settled ns' lo (h + 1) s under (before ++ x ++ after) →
      Brief ns' ns.length ns'.length ((before ++ x ++ after).length + 1) → (f (s, under)).Total ns' Q) :
    (restore node i under >>= fun node => settle node >>= f).Total ns Q := by
  refine Prog.Total.bind (total_restore hhole hc hchild hne) fun node' ns₁ hns₁ hr => ?_
  have hle := hr.le_entries
  have hge := hr.entries_le
  have hlo' : lo ≤ node'.entries.length + 1 := by omega
  refine Prog.Total.bind (total_settle lo hr.holds hlo' (by omega)) fun r ns₂ hns₂ hs => ?_
  exact hf r.1 r.2 ns₂ (hns₁.trans hns₂) hs.1 ((hr.brief.mono hns₂ (Nat.le_refl _)).trans hs.2)

theorem total_deleteMin : ∀ (fuel : ℕ) {h : ℕ}, h < fuel → ∀ {ns : List Node} {seq : ℕ} {l : List Binding},
    Sub ns MIN_KEYS h seq l →
    (deleteMin fuel seq).Total ns fun r ns' => ∃ l', l = r.1 :: l' ∧
      Settled ns' MIN_KEYS h r.2.1 r.2.2 l' ∧ Brief ns' ns.length ns'.length (l'.length + 1)
  | 0, _, hfuel, _, _, _, _ => by omega
  | fuel + 1, h, hfuel, ns, seq, l, hs => by
    obtain ⟨node, hnode, hmin, hmax, -, hn⟩ := hs
    have hne : node.entries ≠ [] := by
      intro hnil
      simp [hnil, MIN_KEYS_eq] at hmin
    rw [deleteMin]
    apply Prog.Total.entry hnode
    cases h with
    | zero =>
      rw [if_pos (hn.isLeaf.mpr rfl)]
      obtain ⟨hchildren, rfl⟩ := Holds.leaf_iff.mp hn
      obtain ⟨e, es, hes⟩ := List.exists_cons_of_ne_nil hne
      apply Prog.Total.expect (b := e) (by rw [hes]; rfl)
      have hleaf : Holds (Kids ns 0) 0 { node with entries := node.entries.tail } es :=
        Holds.leaf_iff.mpr ⟨hchildren, by rw [hes]; rfl⟩
      refine Prog.Total.bind (total_settle MIN_KEYS hleaf ?_ ?_) fun r ns₁ hns₁ hr => ?_
      · simpa [hes] using hmin
      · simp [hes] at hmax ⊢
        omega
      · exact Prog.Total.pure ⟨es, hes, hr⟩
    | succ h =>
      rw [if_neg (by rw [hn.isLeaf]; omega)]
      obtain ⟨c, y, ls₁, ls₂, hc, hy, hhole, rfl⟩ := hn.hole [] _ rfl
      apply Prog.Total.expect hc
      refine Prog.Total.bind (total_deleteMin fuel (by omega) (kids_sub hy)) fun r ns₁ hns₁ hr => ?_
      obtain ⟨y', rfl, hsettled, hbrief⟩ := hr
      obtain ⟨hhole₁, hc₁⟩ := (hhole.mono (kids_extend hns₁)).set r.2.1
      refine total_restore_settle hhole₁ hc₁ hsettled.rewritten hne hmin hmax fun s under ns₂ hns₂ hs hb => ?_
      refine Prog.Total.pure ⟨_, ?_, hs, (hbrief.mono hns₂ ?_).trans hb⟩
      · simp [front]
      · simp
        omega

theorem total_deleteMax : ∀ (fuel : ℕ) {h : ℕ}, h < fuel → ∀ {ns : List Node} {seq : ℕ} {l : List Binding},
    Sub ns MIN_KEYS h seq l →
    (deleteMax fuel seq).Total ns fun r ns' => ∃ l', l = l' ++ [r.1] ∧
      Settled ns' MIN_KEYS h r.2.1 r.2.2 l' ∧ Brief ns' ns.length ns'.length (l'.length + 1)
  | 0, _, hfuel, _, _, _, _ => by omega
  | fuel + 1, h, hfuel, ns, seq, l, hs => by
    obtain ⟨node, hnode, hmin, hmax, -, hn⟩ := hs
    have hne : node.entries ≠ [] := by
      intro hnil
      simp [hnil, MIN_KEYS_eq] at hmin
    rw [deleteMax]
    apply Prog.Total.entry hnode
    cases h with
    | zero =>
      rw [if_pos (hn.isLeaf.mpr rfl)]
      obtain ⟨hchildren, rfl⟩ := Holds.leaf_iff.mp hn
      rcases List.eq_nil_or_concat' node.entries with hes | ⟨es, e, hes⟩
      · exact absurd hes hne
      apply Prog.Total.expect (b := e) (by rw [hes]; simp)
      have hleaf : Holds (Kids ns 0) 0 { node with entries := node.entries.dropLast } es :=
        Holds.leaf_iff.mpr ⟨hchildren, by rw [hes]; simp⟩
      refine Prog.Total.bind (total_settle MIN_KEYS hleaf ?_ ?_) fun r ns₁ hns₁ hr => ?_
      · simpa [hes] using hmin
      · simp [hes] at hmax ⊢
        omega
      · exact Prog.Total.pure ⟨es, hes, hr⟩
    | succ h =>
      rw [if_neg (by rw [hn.isLeaf]; omega)]
      have hlast : node.children.length - 1 = node.entries.length := by
        rw [hn.children_length]
        simp [arity]
      rw [hlast]
      obtain ⟨c, y, ls₁, ls₂, hc, hy, hhole, rfl⟩ := hn.hole _ [] (List.append_nil _).symm
      apply Prog.Total.expect hc
      refine Prog.Total.bind (total_deleteMax fuel (by omega) (kids_sub hy)) fun r ns₁ hns₁ hr => ?_
      obtain ⟨y', rfl, hsettled, hbrief⟩ := hr
      obtain ⟨hhole₁, hc₁⟩ := (hhole.mono (kids_extend hns₁)).set r.2.1
      refine total_restore_settle hhole₁ hc₁ hsettled.rewritten hne hmin hmax fun s under ns₂ hns₂ hs hb => ?_
      refine Prog.Total.pure ⟨_, ?_, hs, (hbrief.mono hns₂ ?_).trans hb⟩
      · simp [back]
      · simp
        omega

/-- What deleting from a subtree leaves. -/
def Deleted (ns ns' : List Node) (lo h : ℕ) (key : Bytes) (l : List Binding) : Del → Prop
  | .notFound => ns' = ns ∧ ∀ v, (key, v) ∉ l
  | .down s under => ∃ v l', Cut key v l l' ∧ Settled ns' lo h s under l' ∧
      Brief ns' ns.length ns'.length l.length

theorem total_fixChild {old : Bytes} (hhole : Hole (Kids ns' (h + 1)) node i before after)
    (hc : node.children[i]? = some c) (hchild : Rewritten ns' h c under x) (hne : node.entries ≠ [])
    (hlo : lo ≤ node.entries.length) (hmax : node.entries.length ≤ 2 * MIN_KEYS)
    (hcut : Cut key old l (before ++ x ++ after)) (hbrief : Brief ns' ns.length ns'.length l.length) :
    (fixChild node i under).Total ns' fun r ns'' => Deleted ns ns'' lo (h + 1) key l r := by
  unfold fixChild
  refine total_restore_settle hhole hc hchild hne hlo hmax fun s under ns₂ hns₂ hs hb => ?_
  refine Prog.Total.pure ⟨old, _, hcut, hs, (hbrief.mono hns₂ (Nat.le_refl _)).trans ?_⟩
  rwa [← hcut.length_eq] at hb

/-- An entry of an inner node is replaced by its neighbour from a leaf. -/
theorem total_deleteInner {fuel : ℕ} (hfuel : h < fuel) {es₁ es₂ : List Binding} {v : Bytes}
    (hn : Holds (Kids ns (h + 1)) (h + 1) node l) (hl : Sorted l)
    (hes : node.entries = es₁ ++ (key, v) :: es₂) (hlo : lo ≤ node.entries.length)
    (hmax : node.entries.length ≤ 2 * MIN_KEYS) :
    (deleteInner fuel node es₁.length).Total ns fun r ns' => Deleted ns ns' lo (h + 1) key l r := by
  obtain ⟨c, y, ls₁, ls₂, hc, hy, hhole, rfl⟩ := hn.hole _ _ hes
  have hlt : es₁.length + 1 < node.children.length := by
    rw [hhole.children_length, hes]
    simp
  obtain ⟨d, z, e, after, hd, hz, he, hafter, hpair⟩ := hhole.right hlt
  obtain rfl : (key, v) = e := by
    rw [hes] at he
    simpa using he
  rw [hafter] at hl ⊢
  obtain ⟨-, -, hlow, hhigh, -⟩ := sorted_around.mp hl
  have hcut : Cut key v (front ls₁ es₁ ++ y ++ (key, v) :: (z ++ after))
      (front ls₁ es₁ ++ y ++ (z ++ after)) :=
    Cut.drop hlow hhigh
  have hset : ∀ e', (node.entries.set es₁.length e').length = node.entries.length := fun e' => List.length_set
  have hne : ∀ e', node.entries.set es₁.length e' ≠ [] := by
    intro e' hnil
    have := hset e'
    rw [hnil, hes] at this
    simp at this
  unfold deleteInner
  apply Prog.Total.expect hc
  apply Prog.Total.expect hd
  refine Prog.Total.bind (total_boundaryLeafLen false fuel hfuel (kids_sub hy)) fun ls ns₁ _ h₁ => ?_
  subst h₁
  refine Prog.Total.bind (total_boundaryLeafLen true fuel hfuel (kids_sub hz)) fun rs ns₂ _ h₂ => ?_
  subst h₂
  split_ifs with hless
  · refine Prog.Total.bind (total_deleteMin fuel hfuel (kids_sub hz)) fun r ns₃ hns₃ hr => ?_
    obtain ⟨z', rfl, hsettled, hbrief⟩ := hr
    have hpair₃ := hpair.mono (kids_extend hns₃)
    have hhole₃ := hpair₃.openRight hc (kids_extend hns₃ c y hy) r.1 r.2.1
    have hcut' : Cut key v (front ls₁ es₁ ++ y ++ (key, v) :: (r.1 :: z' ++ after))
        (front ls₁ es₁ ++ y ++ [r.1] ++ z' ++ after) := by simpa using hcut
    refine total_fixChild hhole₃ (List.getElem?_set_self hlt) hsettled.rewritten (hne _) (hset _ ▸ hlo)
      (hset _ ▸ hmax) hcut' (hbrief.mono List.prefix_rfl ?_)
    simp
    omega
  · refine Prog.Total.bind (total_deleteMax fuel hfuel (kids_sub hy)) fun r ns₃ hns₃ hr => ?_
    obtain ⟨y', rfl, hsettled, hbrief⟩ := hr
    have hpair₃ := hpair.mono (kids_extend hns₃)
    have hhole₃ := hpair₃.openLeft hd (kids_extend hns₃ d z hz) r.1 r.2.1
    have hcut' : Cut key v (front ls₁ es₁ ++ (y' ++ [r.1]) ++ (key, v) :: (z ++ after))
        (front ls₁ es₁ ++ y' ++ (r.1 :: (z ++ after))) := by simpa using hcut
    refine total_fixChild hhole₃ (List.getElem?_set_self (by omega)) hsettled.rewritten (hne _)
      (hset _ ▸ hlo) (hset _ ▸ hmax) hcut' (hbrief.mono List.prefix_rfl ?_)
    simp
    omega

theorem total_delete : ∀ (fuel : ℕ) {h : ℕ}, h < fuel → ∀ {ns : List Node} {lo seq : ℕ} {l : List Binding},
    Sub ns lo h seq l → (0 < h → 0 < lo) → Sorted l →
    (delete fuel seq key).Total ns fun r ns' => Deleted ns ns' lo h key l r
  | 0, _, hfuel, _, _, _, _, _, _, _ => by omega
  | fuel + 1, h, hfuel, ns, lo, seq, l, hs, hpos, hl => by
    obtain ⟨node, hnode, hmin, hmax, -, hn⟩ := hs
    rw [delete]
    apply Prog.Total.entry hnode
    have hsorted : Sorted node.entries := hl.sublist hn.sublist
    rcases hsorted.search key with
      ⟨es₁, v, es₂, hsearch, hes, hlow, hhigh⟩ | ⟨es₁, es₂, hsearch, hes, hlow, hhigh⟩
    · rw [search, hsearch]
      dsimp only
      cases h with
      | zero =>
        rw [if_pos (hn.isLeaf.mpr rfl)]
        obtain ⟨hchildren, rfl⟩ := Holds.leaf_iff.mp hn
        have hcut : Cut key v node.entries (es₁ ++ es₂) := hes ▸ Cut.drop hlow hhigh
        have hlen := hcut.length_eq
        have herase : node.entries.eraseIdx es₁.length = es₁ ++ es₂ := by
          rw [hes, List.eraseIdx_append_of_length_le (Nat.le_refl _)]
          simp
        have hleaf : Holds (Kids ns 0) 0 { node with entries := es₁ ++ es₂ } (es₁ ++ es₂) :=
          Holds.leaf_iff.mpr ⟨hchildren, rfl⟩
        rw [herase]
        refine Prog.Total.bind (total_settle lo hleaf (by dsimp only; omega) (by dsimp only; omega))
          fun r ns₁ hns₁ hr => ?_
        refine Prog.Total.pure ⟨v, _, hcut, hr.1, ?_⟩
        rw [hlen]
        exact hr.2
      | succ h =>
        rw [if_neg (by rw [hn.isLeaf]; omega)]
        exact total_deleteInner (by omega) hn hl hes hmin hmax
    · rw [search, hsearch]
      dsimp only
      cases h with
      | zero =>
        rw [if_pos (hn.isLeaf.mpr rfl)]
        obtain ⟨-, rfl⟩ := Holds.leaf_iff.mp hn
        refine Prog.Total.pure ⟨rfl, fun v => ?_⟩
        rw [hes]
        simp [hlow.not_mem, hhigh.not_mem]
      | succ h =>
        rw [if_neg (by rw [hn.isLeaf]; omega)]
        obtain ⟨c, x, before, after, hc, hx, hhole, rfl, hxs, hbefore, hafter⟩ := hn.route hl hes hlow hhigh
        apply Prog.Total.expect hc
        refine Prog.Total.bind (total_delete fuel (by omega) (kids_sub hx) (fun _ => by decide) hxs)
          fun r ns₁ hns₁ hr => ?_
        cases r with
        | notFound =>
          obtain ⟨rfl, hmem⟩ := hr
          refine Prog.Total.pure ⟨rfl, fun v => ?_⟩
          simp [hbefore.not_mem, hafter.not_mem, hmem v]
        | down s under =>
          obtain ⟨v, x', hcut, hsettled, hbrief⟩ := hr
          have hne : node.entries ≠ [] := by
            intro hnil
            have := hpos (Nat.succ_pos h)
            simp [hnil] at hmin
            omega
          obtain ⟨hhole₁, hc₁⟩ := (hhole.mono (kids_extend hns₁)).set s
          refine total_fixChild hhole₁ hc₁ hsettled.rewritten hne hmin hmax (hcut.around hbefore hafter)
            (hbrief.mono List.prefix_rfl ?_)
          simp
          omega

theorem total_shrinkRoot (hs : Settled ns (min h 1) h s under l) :
    (shrinkRoot s).Total ns fun _ ns' => ∃ h' s', s' + 1 = ns'.length ∧ Sub ns' (min h' 1) h' s' l ∧
      ns'.length ≤ ns.length + 1 := by
  obtain ⟨n, hn, hmin, hmax, hchildren, hholds, -⟩ := hs.node
  unfold shrinkRoot
  apply Prog.Total.entry hn
  split_ifs with hshrink
  · -- an inner node without entries has one child, which lists all
    rw [Bool.and_eq_true, List.isEmpty_iff, Bool.not_eq_true', ← Bool.not_eq_true, hholds.isLeaf] at hshrink
    obtain ⟨hempty, hinner⟩ := hshrink
    obtain ⟨h, rfl⟩ := Nat.exists_eq_succ_of_ne_zero hinner
    obtain ⟨c, x, ls₁, ls₂, hc, hx, -, rfl⟩ := hholds.hole [] [] hempty
    obtain ⟨child, hchild, hlo, hhi, -, hx'⟩ := kids_sub hx
    apply total_childAt hc hchild
    apply Prog.Total.push
    have hsub : Sub (ns ++ [child]) (min h 1) h ns.length x :=
      sub_push hx' (by rw [MIN_KEYS_eq] at hlo; omega) hhi
    refine Prog.Total.pure ⟨h, ns.length, by simp, ?_, by simp⟩
    simpa [front, back] using hsub
  · refine Prog.Total.pure ⟨h, s, hs.last, ⟨n, hn, ?_, hmax, hchildren, hholds⟩, Nat.le_succ _⟩
    rw [Bool.and_eq_true, List.isEmpty_iff, Bool.not_eq_true', ← Bool.not_eq_true, hholds.isLeaf] at hshrink
    by_cases hh : h = 0
    · simp [hh]
    · have : n.entries ≠ [] := fun hnil => hshrink ⟨hnil, hh⟩
      have := List.length_pos_iff.mpr this
      omega

theorem total_del (hr : Rooted ns l) : (del key).Total ns fun found ns' =>
    (found = false ∧ ns' = ns ∧ ∀ v, (key, v) ∉ l) ∨
    (found = true ∧ ∃ v l', Cut key v l l' ∧ Rooted ns' l' ∧ Brief ns' ns.length ns'.length l.length) := by
  unfold del
  apply Prog.Total.root
  cases hr with
  | empty hns =>
    subst hns
    exact Prog.Total.pure (Or.inl ⟨rfl, rfl, fun v => List.not_mem_nil⟩)
  | @tree h seq l hlast hs hl =>
    rw [← hlast, Nat.ppred_succ]
    dsimp only
    have hfuel : h < seq + 1 := Nat.lt_succ_of_le hs.height_le
    refine Prog.Total.bind (total_delete (seq + 1) hfuel hs (by omega) hl) fun r ns₁ hns₁ hr => ?_
    cases r with
    | notFound => exact Prog.Total.pure (Or.inl ⟨rfl, hr⟩)
    | down s under =>
      obtain ⟨v, l', hcut, hsettled, hbrief⟩ := hr
      refine Prog.Total.bind (total_shrinkRoot hsettled) fun _ ns₂ hns₂ hroot => ?_
      obtain ⟨h', s', hlast', hsub, hlen⟩ := hroot
      refine Prog.Total.pure (Or.inr ⟨rfl, v, l', hcut, Rooted.tree hlast' hsub (hl.cut hcut), ?_⟩)
      rw [hlast]
      have hcutlen := hcut.length_eq
      refine (hbrief.mono hns₂ (Nat.le_refl _)).trans fun j hj hj' => ?_
      obtain rfl : j = s' := by
        have := hns₂.length_le
        omega
      exact ⟨h', l', hsub.weaken (Nat.zero_le _), by omega⟩

end Hyperbee
end HypercoreRs
