/-
# Hyperbee is a map with a past

A tree over a store that never fails behaves as an ordered map: every operation has its
effect on the map and its answer (`BeeOp.apply`), and the log of the tree lists the map in
the tree at its latest block (`Rooted`). One lemma per operation says so (`total_edit`,
`ends_inBatch`, `ends_run`), and from them it holds of every run (`ends_runOps`).

Blocks are only ever added, so a tree once at the latest block can be read there at any
later time: `ReadsAs` is what a version reads as.
-/
import HypercoreRs.Hyperbee.Bee

namespace HypercoreRs

open Std Merkle Command Storage BTree
open Hypercore (backend)

namespace Hyperbee

/-! ### What the operations are for -/

/-- The map a tree stands for, in the order of bytes. -/
abbrev Table : Type := ExtTreeMap Bytes Bytes

/-- What a write does to the map, and its answer: whether it applied. -/
def Edit.apply : Edit → Table → Table × Option Bool
  | .put key value, m => (m.insert key value, none)
  | .del key, m => if key ∈ m then (m.erase key, some true) else (m, some false)
  | .putCas key value expected, m =>
    if m[key]? = expected then (m.insert key value, some true) else (m, some false)
  | .delCas key expected, m =>
    if m[key]? = expected ∧ key ∈ m then (m.erase key, some true) else (m, some false)

def applyEdits : List Edit → Table → Table × List (Option Bool)
  | [], m => (m, [])
  | e :: rest, m =>
    let r := applyEdits rest (e.apply m).1
    (r.1, (e.apply m).2 :: r.2)

/-- A dropped batch answers as a committed one and leaves the map as it is. -/
def BeeOp.apply : BeeOp → Table → Table × List (Option Bool)
  | .edit e, m => applyEdits [e] m
  | .batch ops committed, m =>
    let r := applyEdits (ops.map BatchOp.edit) m
    (if committed then r.1 else m, r.2)

def applyOps : List BeeOp → Table → Table × List (List (Option Bool))
  | [], m => (m, [])
  | op :: rest, m =>
    let r := applyOps rest (op.apply m).1
    (r.1, (op.apply m).2 :: r.2)

/-- `k` is within the bounds. -/
def Range.Within (bounds : Range) (k : Bytes) : Prop :=
  (∀ g ∈ bounds.gt, compare g k = .lt) ∧ (∀ g ∈ bounds.gte, compare g k ≠ .gt) ∧
    (∀ l ∈ bounds.lt, compare k l = .lt) ∧ ∀ l ∈ bounds.lte, compare k l ≠ .gt

instance (bounds : Range) (k : Bytes) : Decidable (bounds.Within k) := by
  unfold Range.Within
  infer_instance

variable {ns ns' : List Node} {m : Table} {l : List Binding} {lo h seq j : ℕ} {n : Node} {key value : Bytes}

/-- From block `a` on every block is the root of a tree. -/
def Formed (ns : List Node) (a : ℕ) : Prop := ∀ j, a ≤ j → j < ns.length → ∃ h l, Sub ns 0 h j l

theorem Formed.trans {a : ℕ} (hf : Formed ns a) (hns : ns <+: ns') (hf' : Formed ns' ns.length) :
    Formed ns' a := by
  intro j hj hj'
  by_cases hlt : j < ns.length
  · obtain ⟨h, l, hs⟩ := hf j hj hlt
    exact ⟨h, l, sub_extend hns hs⟩
  · exact hf' j (Nat.le_of_not_lt hlt) hj'

/-- The last block of an operation is the root of the tree, and those before it are roots of
smaller ones. -/
theorem Rooted.formed (hr : Rooted ns l) {a k : ℕ} (hb : Brief ns a (ns.length - 1) k) : Formed ns a := by
  intro j hj hj'
  by_cases hlt : j < ns.length - 1
  · obtain ⟨h, x, hs, -⟩ := hb j hj hlt
    exact ⟨h, x, hs⟩
  · cases hr with
    | empty hns =>
      subst hns
      simp at hj'
    | @tree h seq _ hlast hs _ =>
      obtain rfl : j = seq := by omega
      exact ⟨h, l, hs.weaken (Nat.zero_le _)⟩

/-- A node of a tree can be written. -/
theorem sized_of_sub (hs : Sub ns lo h j l) (hj : ns[j]? = some n) : Sized j n := by
  obtain ⟨n', hn', -, hmax, hchildren, hholds⟩ := hs
  obtain rfl : n' = n := Option.some.inj (hn'.symm.trans hj)
  rw [MIN_KEYS_eq] at hmax
  have hcount : n'.children.length ≤ n'.entries.length + 1 := by
    rw [hholds.children_length, arity]
    split_ifs <;> omega
  exact ⟨by omega, by omega, hchildren⟩

theorem Formed.sized {a : ℕ} (hf : Formed ns a) (ha : a ≤ j) (hj : ns[j]? = some n) : Sized j n := by
  obtain ⟨h, l, hs⟩ := hf j ha (List.getElem?_eq_some_iff.mp hj).1
  exact sized_of_sub hs hj

/-- What was at the latest block once is read there for ever. -/
theorem total_lookup (hr : Rooted ns m.toList) (hns : ns <+: ns') (key : Bytes) :
    (lookup ns.length.ppred key).Total ns' fun r ns'' => ns'' = ns' ∧ r = m[key]? := by
  have hm := lists_toList m
  generalize m.toList = l at hr hm
  cases hr with
  | empty hempty =>
    subst hempty
    exact Prog.Total.pure ⟨rfl, (hm.getElem?_of_not_mem fun _ => List.not_mem_nil).symm⟩
  | @tree h seq _ hlast hs hl =>
    rw [← hlast, Nat.ppred_succ]
    have hfuel : h < seq + 1 := Nat.lt_succ_of_le hs.height_le
    refine (total_getFrom (seq + 1) hfuel (sub_extend hns hs) hl).mono fun r ns'' _ hread => ⟨hread.1, ?_⟩
    refine Option.ext fun v => ?_
    rw [hread.2 v, hm.mem_iff]

theorem total_rangeFrom (hr : Rooted ns l) (hns : ns <+: ns') (bounds : Range) :
    (rangeFrom ns.length.ppred bounds).Total ns' fun r ns'' => ns'' = ns' ∧ r = bounds.select l := by
  cases hr with
  | empty hempty =>
    subst hempty
    exact Prog.Total.pure ⟨rfl, rfl⟩
  | @tree h seq _ hlast hs hl =>
    rw [← hlast, Nat.ppred_succ]
    have hfuel : h < seq + 1 := Nat.lt_succ_of_le hs.height_le
    refine Prog.Total.bind (total_collect (seq + 1) hfuel (sub_extend hns hs)) fun out ns'' _ hout => ?_
    obtain ⟨rfl, rfl⟩ := hout
    exact Prog.Total.pure ⟨rfl, rfl⟩

theorem total_get (hr : Rooted ns m.toList) (key : Bytes) :
    (get key).Total ns fun r ns' => ns' = ns ∧ r = m[key]? :=
  Prog.Total.root (total_lookup hr List.prefix_rfl key)

/-- `put` binds its key. -/
theorem total_put_table (hr : Rooted ns m.toList) (key value : Bytes) : (put key value).Total ns fun _ ns' =>
    Rooted ns' (m.insert key value).toList ∧ Brief ns' ns.length (ns'.length - 1) m.toList.length := by
  refine (total_put hr).mono fun _ ns' hns h => ?_
  obtain ⟨l', seq, hput, hroot, hlast, hle, hbrief⟩ := h
  rw [← hlast, Nat.add_sub_cancel]
  exact ⟨((lists_toList m).put hput).eq_toList ▸ hroot, hbrief⟩

/-- `del` drops its key and appends nothing if it is not there. -/
theorem total_del_table (hr : Rooted ns m.toList) (key : Bytes) : (del key).Total ns fun found ns' =>
    (found = false ∧ ns' = ns ∧ key ∉ m) ∨
      (found = true ∧ key ∈ m ∧ Rooted ns' (m.erase key).toList ∧
        Brief ns' ns.length (ns'.length - 1) m.toList.length) := by
  have hm := lists_toList m
  refine (total_del hr).mono fun found ns' hns h => h.imp ?_ ?_
  · rintro ⟨hfound, hns', hnone⟩
    refine ⟨hfound, hns', fun hmem => ?_⟩
    rw [ExtTreeMap.mem_iff_isSome_getElem?, hm.getElem?_of_not_mem hnone] at hmem
    cases hmem
  · rintro ⟨hfound, v, l', hcut, hroot, hbrief⟩
    have hmem : (key, v) ∈ m.toList := hcut.mem
    refine ⟨hfound, ?_, (hm.cut hcut).eq_toList ▸ hroot, fun j hj hj' => hbrief j hj (by omega)⟩
    rw [ExtTreeMap.mem_iff_isSome_getElem?, hm.getElem?_of_mem hmem]
    rfl

/-- A write on the tree did what it does to the map, and appended nothing if it did not
apply. -/
structure Edited (e : Edit) (m : Table) (ns : List Node) (a : Option Bool) (ns' : List Node) : Prop where
  answer : a = (e.apply m).2
  rooted : Rooted ns' (e.apply m).1.toList
  brief : Brief ns' ns.length (ns'.length - 1) m.toList.length
  same : a = some false → ns' = ns

variable {e : Edit} {a : Option Bool}

theorem Edited.formed (h : Edited e m ns a ns') : Formed ns' ns.length :=
  h.rooted.formed h.brief

/-- A write that does not apply. -/
theorem Edited.idle (hr : Rooted ns m.toList) (happly : e.apply m = (m, some false)) :
    Edited e m ns (some false) ns :=
  ⟨by rw [happly], by rwa [happly], fun j hj hj' => by omega, fun _ => rfl⟩

/-- A write that applies. -/
theorem Edited.change {m' : Table} (happly : e.apply m = (m', a)) (ha : a ≠ some false)
    (hr : Rooted ns' m'.toList) (hb : Brief ns' ns.length (ns'.length - 1) m.toList.length) :
    Edited e m ns a ns' :=
  ⟨by rw [happly], by rwa [happly], hb, fun hfalse => absurd hfalse ha⟩

theorem total_edit (hr : Rooted ns m.toList) (e : Edit) : e.prog.Total ns (Edited e m ns) := by
  have hanswer : ∀ {p : Prog Node Bool}, (p.Total ns fun b => Edited e m ns (some b)) →
      (p >>= fun b => pure (some b) : Prog Node (Option Bool)).Total ns (Edited e m ns) :=
    fun hp => Prog.Total.bind hp fun _ _ _ hb => Prog.Total.pure hb
  cases e with
  | put key value =>
    refine Prog.Total.bind (total_put_table hr key value) fun _ ns' _ hput => Prog.Total.pure ?_
    exact Edited.change rfl (by simp) hput.1 hput.2
  | del key =>
    refine hanswer ((total_del_table hr key).mono fun found ns' _ hdel => ?_)
    rcases hdel with ⟨rfl, rfl, hkey⟩ | ⟨rfl, hkey, hroot, hbrief⟩
    · exact Edited.idle hr (if_neg hkey)
    · exact Edited.change (if_pos hkey) (by simp) hroot hbrief
  | putCas key value expected =>
    refine hanswer (Prog.Total.bind (total_get hr key) fun current ns₁ _ hcurrent => ?_)
    obtain ⟨rfl, rfl⟩ := hcurrent
    by_cases hexp : m[key]? = expected
    · rw [if_neg (not_not.mpr hexp)]
      refine Prog.Total.bind (total_put_table hr key value) fun _ ns' _ hput => Prog.Total.pure ?_
      exact Edited.change (if_pos hexp) (by simp) hput.1 hput.2
    · rw [if_pos hexp]
      exact Prog.Total.pure (Edited.idle hr (if_neg hexp))
  | delCas key expected =>
    refine hanswer (Prog.Total.bind (total_get hr key) fun current ns₁ _ hcurrent => ?_)
    obtain ⟨rfl, rfl⟩ := hcurrent
    by_cases hexp : m[key]? = expected
    · rw [if_neg (not_not.mpr hexp)]
      refine (total_del_table hr key).mono fun found ns' _ hdel => ?_
      rcases hdel with ⟨rfl, rfl, hkey⟩ | ⟨rfl, hkey, hroot, hbrief⟩
      · exact Edited.idle hr (if_neg fun hboth => hkey hboth.2)
      · exact Edited.change (if_pos ⟨hexp, hkey⟩) (by simp) hroot hbrief
    · rw [if_pos hexp]
      exact Prog.Total.pure (Edited.idle hr (if_neg fun hboth => hexp hboth.1))

/-- Writes one after another, as one program. -/
def Edit.progs : List Edit → Prog Node (List (Option Bool))
  | [] => return []
  | e :: rest => do
    let a ← e.prog
    let as ← Edit.progs rest
    return a :: as

theorem total_progs : ∀ (es : List Edit) {ns : List Node} {m : Table}, Rooted ns m.toList →
    (Edit.progs es).Total ns fun as ns' => as = (applyEdits es m).2 ∧ Rooted ns' (applyEdits es m).1.toList ∧
      Formed ns' ns.length
  | [], ns, m, hr => Prog.Total.pure ⟨rfl, hr, fun j hj hj' => by omega⟩
  | e :: rest, ns, m, hr => by
    refine Prog.Total.bind (total_edit hr e) fun a ns₁ hns₁ hedited => ?_
    refine Prog.Total.bind (total_progs rest hedited.rooted) fun as ns₂ hns₂ hrest => Prog.Total.pure ?_
    obtain ⟨rfl, hr₂, hformed⟩ := hrest
    exact ⟨by rw [hedited.answer]; rfl, hr₂, hedited.formed.trans hns₂ hformed⟩

/-! ### Runs -/

variable {K H Sig SK S E : Type} {c : Crypto K H Sig SK} {st : Store S E} {w : Wire H Sig}
  {bee : Hyperbee H Sig SK S} {kept : List Node}

variable {Shows : Hyperbee H Sig SK S → List Node → Prop}

theorem runEdits_eq : ∀ es : List Edit, (runEdits c st w es : EStateM _ (Hyperbee H Sig SK S) _) =
    (keeper c st w).perform (Edit.progs es)
  | [] => rfl
  | e :: rest => by
    rw [runEdits, Edit.progs, Keeper.perform_bind, runEdits_eq rest]
    simp only [Keeper.perform_bind]
    rfl

/-- Writes end as their program, or a node was refused and those before it are there. -/
theorem ends_progs {es : List Edit} {as : List (Option Bool)}
    (hk : (keeper c st w).Keeps Shows Sized (Refused st)) (hs : Shows bee ns)
    (hexec : (Edit.progs es).exec ns = some (as, ns')) (hformed : Formed ns' ns.length) :
    Ends (runEdits c st w es) bee (fun as' bee' => as' = as ∧ Shows bee' ns')
      fun err bee' => Refused st err ∧ ∃ ns', ns <+: ns' ∧ Shows bee' ns' := by
  rw [runEdits_eq]
  refine (hk.ends_perform hs hexec fun j n hj hn => hformed.sized hj hn).mono (fun _ _ h => h)
    fun err bee' h => ?_
  obtain ⟨hrefused, kept, hle, -, -, hs'⟩ := h
  exact ⟨hrefused, kept, hle, hs'⟩

theorem ends_runEdits (hk : (keeper c st w).Keeps Shows Sized (Refused st)) (es : List Edit)
    (hs : Shows bee ns) (hr : Rooted ns m.toList) :
    Ends (runEdits c st w es) bee
      (fun as bee' => as = (applyEdits es m).2 ∧
        ∃ ns', ns <+: ns' ∧ Shows bee' ns' ∧ Rooted ns' (applyEdits es m).1.toList)
      fun err bee' => Refused st err ∧ ∃ ns', ns <+: ns' ∧ Shows bee' ns' := by
  obtain ⟨as, ns', hexec, has, hr', hformed⟩ := total_progs es hr
  refine (ends_progs hk hs hexec hformed).mono (fun as' bee' h => ?_) fun _ _ h => h
  exact ⟨h.1.trans has, ns', Prog.exec_extends hexec, h.2, hr'⟩

variable [DecidableEq H]

/-- A dropped batch leaves the log as it was. -/
theorem Staging.discard (h : Staging c st w kept bee ns) : Direct c st w bee.discard kept := by
  obtain ⟨⟨staged, rfl, -⟩, hcoh, hfits⟩ := h
  exact ⟨rfl, hcoh, fun n hn => hfits n (List.mem_append_left staged hn)⟩

theorem Direct.batch (h : Direct c st w bee ns) :
    Staging c st w ns { bee with pending := some bee.core.batch } ns := by
  refine ⟨⟨[], (List.append_nil ns).symm, ?_⟩, h.coherent, h.fits⟩
  have hlen : bee.core.len = ns.length := h.version_eq
  rw [Hypercore.batch, hlen]
  rfl

/-- A commit makes the log what was staged, or leaves it as it was. -/
theorem ends_commit (hst : st.Lawful) (h : Staging c st w kept bee ns) :
    Ends (commit c st w) bee (fun _ bee' => Direct c st w bee' ns)
      fun err bee' => Refused st err ∧ Direct c st w bee' kept := by
  obtain ⟨⟨staged, rfl, hpending⟩, hcoh, hfits⟩ := h
  have hbase : (logOf kept : Log H).commit ⟨kept.length, staged.map nodeCodec.encode⟩ =
      logOf (kept ++ staged) := by
    rw [Log.commit, length_logOf, if_pos rfl, logOf_append]
  unfold commit
  apply Ends.get
  rw [hpending]
  apply Ends.assign
  refine Ends.bind (Ends.zoom (hcoh.ends_commit_refused hst _) (fun _ core' h => ?_) fun e core' h => ?_)
    (Q := fun _ bee' => Direct c st w bee' (kept ++ staged)) fun _ _ h => Ends.pure h
  · exact ⟨rfl, hbase ▸ h.1, hfits⟩
  · obtain ⟨hrefused, s, rfl, habove⟩ := h
    exact ⟨hrefused, rfl, hcoh.above habove, fun n hn => hfits n (List.mem_append_left staged hn)⟩

/-- A batch appends what its writes append if it is committed, and nothing changes if it is
dropped; nothing is appended if it fails. -/
theorem ends_inBatch_progs {ops : List BatchOp} {as : List (Option Bool)} (hst : st.Lawful)
    (h : Direct c st w bee ns)
    (hexec : (Edit.progs (ops.map BatchOp.edit)).exec ns = some (as, ns'))
    (hformed : Formed ns' ns.length) (committed : Bool) :
    Ends (inBatch c st w ops committed) bee
      (fun as' bee' => as' = as ∧ if committed then Direct c st w bee' ns' else bee' = bee)
      fun err bee' => Refused st err ∧ Direct c st w bee' ns ∧ (committed = false → bee' = bee) := by
  have hdrop : ∀ {bee' : Hyperbee H Sig SK S}, bee'.core = bee.core → bee'.discard = bee := fun hcore => by
    rw [discard, hcore, ← h.pending]
  unfold inBatch batch
  apply Ends.update
  refine Ends.bind ((ends_progs keeps_staging ⟨h.batch, rfl⟩ hexec hformed).onError fun err bee' hfail => ?_)
    fun as bee₁ h₁ => ?_
  · obtain ⟨hrefused, ns', -, hs, hcore⟩ := hfail
    exact ⟨hrefused, hs.discard, fun _ => hdrop hcore⟩
  · obtain ⟨rfl, hs₁, hcore⟩ := h₁
    cases committed with
    | true =>
      refine Ends.bind ((ends_commit hst hs₁).onError fun err bee' hfail => ?_) fun _ bee₂ h₂ => ?_
      · exact ⟨hfail.1, ⟨rfl, hfail.2.coherent, hfail.2.fits⟩, fun hfalse => by cases hfalse⟩
      · apply Ends.update
        exact Ends.pure ⟨rfl, rfl, h₂.coherent, h₂.fits⟩
    | false =>
      refine Ends.bind (Q := fun _ bee₂ => bee₂ = bee₁) (Ends.onError (Ends.pure rfl) fun _ _ h => h)
        fun _ bee₂ h₂ => ?_
      subst h₂
      apply Ends.update
      exact Ends.pure ⟨rfl, hdrop hcore⟩

theorem ends_inBatch (hst : st.Lawful) (h : Direct c st w bee ns) (hr : Rooted ns m.toList)
    (ops : List BatchOp) (committed : Bool) :
    Ends (inBatch c st w ops committed) bee
      (fun as bee' => as = (BeeOp.apply (.batch ops committed) m).2 ∧ ∃ ns', ns <+: ns' ∧
        Direct c st w bee' ns' ∧ Rooted ns' (BeeOp.apply (.batch ops committed) m).1.toList)
      fun err bee' => Refused st err ∧ Direct c st w bee' ns := by
  obtain ⟨as, ns', hexec, has, hr', hformed⟩ := total_progs (ops.map BatchOp.edit) hr
  refine (ends_inBatch_progs hst h hexec hformed committed).mono (fun as' bee' h' => ?_)
    fun _ _ h => ⟨h.1, h.2.1⟩
  obtain ⟨rfl, hdone⟩ := h'
  cases committed with
  | true => exact ⟨has, ns', Prog.exec_extends hexec, hdone, hr'⟩
  | false =>
    obtain rfl : bee' = bee := hdone
    exact ⟨has, ns, List.prefix_rfl, h, hr⟩

theorem ends_run (hst : st.Lawful) (h : Direct c st w bee ns) (hr : Rooted ns m.toList) (op : BeeOp) :
    Ends (op.run c st w) bee
      (fun as bee' => as = (op.apply m).2 ∧
        ∃ ns', ns <+: ns' ∧ Direct c st w bee' ns' ∧ Rooted ns' (op.apply m).1.toList)
      fun err bee' => Refused st err ∧ ∃ ns', ns <+: ns' ∧ Direct c st w bee' ns' := by
  cases op with
  | edit e => exact ends_runEdits (keeps_direct hst) [e] h hr
  | batch ops committed =>
    exact (ends_inBatch hst h hr ops committed).mono (fun _ _ h => h)
      fun _ _ h => ⟨h.1, ns, List.prefix_rfl, h.2⟩

theorem ends_runOps (hst : st.Lawful) : ∀ (ops : List BeeOp) {bee : Hyperbee H Sig SK S}
    {ns : List Node} {m : Table}, Direct c st w bee ns → Rooted ns m.toList →
    Ends (runOps c st w ops) bee
      (fun answers bee' => answers = (applyOps ops m).2 ∧
        ∃ ns', ns <+: ns' ∧ Direct c st w bee' ns' ∧ Rooted ns' (applyOps ops m).1.toList)
      fun err _ => Refused st err
  | [], bee, ns, m, h, hr => Ends.pure ⟨rfl, ns, List.prefix_rfl, h, hr⟩
  | op :: rest, bee, ns, m, h, hr => by
    rw [runOps]
    refine Ends.andThen (ends_run hst h hr op) (fun _ _ h => h.1) fun a bee₁ h₁ => ?_
    obtain ⟨rfl, ns₁, hle, hs₁, hr₁⟩ := h₁
    refine Ends.bind (ends_runOps hst rest hs₁ hr₁) fun as bee₂ h₂ => Ends.pure ?_
    obtain ⟨rfl, ns₂, hle₂, hs₂, hr₂⟩ := h₂
    exact ⟨rfl, ns₂, hle.trans hle₂, hs₂, hr₂⟩

variable (c st w) in
/-- A fresh tree has no nodes and lists the empty map. -/
theorem direct_new (author : SK) (store : S) :
    Direct c st w (Hyperbee.new author store : Hyperbee H Sig SK S) [] ∧ Rooted [] (∅ : Table).toList := by
  have hlog : (logOf [] : Log H) = Log.fresh none := Log.write_nil
  refine ⟨⟨rfl, ?_, by simp⟩, ?_⟩
  · rw [hlog]
    exact Hypercore.coherent_new author store none
  · rw [← lists_empty.eq_toList]
    exact Rooted.empty rfl

/-! ### What a version reads as -/

/-- A key of one byte. -/
def keyOf (b : UInt8) : Bytes := ⟨[b], by rw [List.length_singleton]; norm_num⟩

variable (c st w) in
/-- The trees have the same blocks and the same Merkle root. -/
structure SameLog (bee bee' : Hyperbee H Sig SK S) : Prop where
  version : bee'.version = bee.version
  block : ∀ i, bee'.core.block (backend w st) i = bee.core.block (backend w st) i
  rootHash : bee'.core.tree.rootHash c.hasher = bee.core.tree.rootHash c.hasher

/-- Over a store that never fails, the tree at the latest block is a B-tree: its keys
increase, its nodes have at most 8 entries and all but the root at least 4, its leaves are
at one depth, an internal root has an entry, and children have smaller numbers. -/
theorem runOps_subtree (hst : st.Lawful) (hnever : st.NeverFails) (author : SK) (store : S)
    (ops : List BeeOp) :
    Ends (runOps c st w ops) (Hyperbee.new author store : Hyperbee H Sig SK S)
      (fun _ bee => ∀ r, bee.rootSeq = some r → ∃ h l,
        Subtree 4 (fun i => (bee.node st w i).toOption) (min h 1) h r l ∧ Sorted l)
      fun e _ => e = .storage .overflow := by
  obtain ⟨hnew, hempty⟩ := direct_new c st w author store
  refine (ends_runOps hst ops hnew hempty).mono (fun _ bee h => ?_) fun e _ h => ?_
  · obtain ⟨-, ns, -, hdirect, hrooted⟩ := h
    intro r hr
    have hlook : ∀ i n, look ns i = some n → (bee.node st w i).toOption = some n := by
      intro i n hi
      rw [hdirect.node_eq hi]
      rfl
    rw [hdirect.rootSeq_eq] at hr
    generalize (applyOps ops ∅).1.toList = l at hrooted
    cases hrooted with
    | empty hns =>
      subst hns
      cases hr
    | @tree h seq _ hlast hs hl =>
      rw [← hlast, Nat.ppred_succ] at hr
      obtain rfl : seq = r := Option.some.inj hr
      exact ⟨h, l, hs.mono hlook (Nat.le_refl _), hl⟩
  · obtain ⟨e', rfl, he'⟩ := h
    rw [he' hnever]

/-- As many keys as split the root. -/
def nineOps : List BeeOp := [1, 2, 3, 4, 5, 6, 7, 8, 9].map fun b => .edit (.put (keyOf b) (keyOf b))

theorem runOps_subtree_memory : ∃ (bee : Hyperbee (BitVec 256) (BitVec 512) Unit _) (r : ℕ),
    (∃ answers, runOps Crypto.sums Store.memory Wire.bits nineOps (Hyperbee.new () ∅) = .ok answers bee) ∧
    bee.rootSeq = some r ∧ ∃ h l,
      Subtree 4 (fun i => (bee.node Store.memory Wire.bits i).toOption) (min h 1) h r l ∧ Sorted l := by
  have hreturned : returnedIn (fun bee => bee.rootSeq.isSome)
      (runOps Crypto.sums Store.memory Wire.bits nineOps
      (Hyperbee.new () ∅ : Hyperbee (BitVec 256) (BitVec 512) Unit _)) = true := by decide +kernel
  have hsub := runOps_subtree (c := Crypto.sums)
    (w := Wire.bits) Store.memory_lawful Store.memory_neverFails ()
    ∅ nineOps
  obtain ⟨answers, bee, hrun, hroot⟩ := exists_of_returnedIn hreturned
  obtain ⟨r, hr⟩ := Option.isSome_iff_exists.mp hroot
  exact ⟨bee, r, ⟨answers, hrun⟩, hr, hsub.ok hrun r hr⟩

end Hyperbee
end HypercoreRs
