/-
# Writes that fail

A write of a tree appends one block per level it touches, and the latest block is the root.
When the store refuses the first of these blocks nothing has changed. When it refuses a
later one, the blocks before it stay, and the last of them is the root now: a tree with
fewer bindings than before (`Brief`). So a write that fails leaves the tree as it was
exactly if its first block was refused (`failed_edit_unchanged_iff`).

The states from which this is said are those reached by operations that return, by batches
that fail, and by writes that fail on their first block (`Reached`).
-/
import HypercoreRs.Hyperbee.Versions

namespace HypercoreRs

open Std Merkle Command Storage BTree
open Hypercore (backend)

namespace Hyperbee

variable {K H Sig SK S E : Type} [DecidableEq H] (c : Crypto K H Sig SK) (st : Store S E) (w : Wire H Sig)

/-- The store refuses the first block the write appends. -/
def FirstRefused (bee : Hyperbee H Sig SK S) (e : Edit) : Prop :=
  ∃ n err s, (keeper c st w).first e.prog bee = some n ∧
    (backend w st).put (.block bee.version) (nodeCodec.encode n) bee.core.store = .error err s

/-- `bee'` reads as `bee` does. -/
structure SameReads (bee bee' : Hyperbee H Sig SK S) : Prop where
  get : ∀ key, (keeper c st w).ask (get key) bee' = (keeper c st w).ask (get key) bee
  range : ∀ bounds, (keeper c st w).ask (range bounds) bee' = (keeper c st w).ask (range bounds) bee

/-- A tree after operations that returned, batches that failed, and writes of which the
first block was refused. -/
inductive Reached : Hyperbee H Sig SK S → Prop
  | new (author : SK) (store : S) : Reached (Hyperbee.new author store)
  | ok {bee bee' : Hyperbee H Sig SK S} {op : BeeOp} {answers : List (Option Bool)} : Reached bee →
      op.run c st w bee = .ok answers bee' → Reached bee'
  | failedBatch {bee bee' : Hyperbee H Sig SK S} {ops : List BatchOp} {committed : Bool}
      {e : CoreError (LayoutError E)} : Reached bee →
      BeeOp.run c st w (.batch ops committed) bee = .error e bee' → Reached bee'
  | failedEdit {bee bee' : Hyperbee H Sig SK S} {e : Edit} {err : CoreError (LayoutError E)} : Reached bee →
      (keeper c st w).perform e.prog bee = .error err bee' → FirstRefused c st w bee e → Reached bee'

variable {c st w} {bee bee' : Hyperbee H Sig SK S} {ns kept : List Node} {m : Table}
  {l : List Binding} {e : Edit}
  {err : CoreError (LayoutError E)}

/-- A node is refused where its block is. -/
theorem Direct.append_error_iff (hst : st.Lawful) (h : Direct c st w bee ns) (n : Node) :
    (∃ err bee', (keeper c st w).append n bee = .error err bee') ↔
      ∃ err s, (backend w st).put (.block bee.version) (nodeCodec.encode n) bee.core.store =
      .error err s := by
  have happend : (keeper c st w).append n bee =
      zoom (·.core) (fun core bee => { bee with core := core }) id
        (Hypercore.append c (backend w st) nodeCodec n) bee := by
    simp only [keeper, appendNode, bind, EStateM.bind, MonadState.get, getThe, MonadStateOf.get, EStateM.get,
      h.pending]
  rw [happend]
  unfold zoom
  dsimp only
  rcases h.coherent.append_cases nodeCodec hst n with ⟨s, core', hput, hone, -⟩ | ⟨err, s, hput, hone, -⟩
  · rw [hone]
    have hput' : (backend w st).put (.block bee.version) (nodeCodec.encode n) bee.core.store =
        .ok () s := hput
    simp [hput']
  · rw [hone]
    exact ⟨fun _ => ⟨err, s, hput⟩, fun _ => ⟨_, _, rfl⟩⟩

/-- A write that fails was refused its first block and left the log as it was, or the latest
block is the root of a tree with fewer bindings. -/
theorem failed_edit_cases (hst : st.Lawful) (h : Direct c st w bee ns) (hr : Rooted ns m.toList)
    (herr : (keeper c st w).perform e.prog bee = .error err bee') :
    (FirstRefused c st w bee e ∧ Direct c st w bee' ns) ∨
    (¬ FirstRefused c st w bee e ∧ ∃ kept h seq l, Direct c st w bee' kept ∧ seq + 1 = kept.length ∧
      Sub kept 0 h seq l ∧ l.length < m.toList.length) := by
  obtain ⟨a, ns', hexec, hedited⟩ := total_edit hr e
  obtain ⟨n, hfirst, hone | ⟨i, bee₁, kept, hone, hlt, hle, hlt', hkept⟩⟩ :=
    (keeps_direct hst).perform_error h hexec (fun j n hj hn => hedited.formed.sized hj hn) herr
  · obtain ⟨err', s, hput⟩ := (h.append_error_iff hst n).mp ⟨err, bee', hone.1⟩
    exact Or.inl ⟨⟨n, err', s, hfirst, hput⟩, hone.2⟩
  · refine Or.inr ⟨fun hrefused => ?_, kept, ?_⟩
    · obtain ⟨n', err', s, hfirst', hput⟩ := hrefused
      obtain rfl : n' = n := Option.some.inj (hfirst'.symm.trans hfirst)
      obtain ⟨err₁, bee₂, hone'⟩ := (h.append_error_iff hst n').mpr ⟨err', s, hput⟩
      rw [hone] at hone'
      cases hone'
    · obtain ⟨h', l, hs, hshort⟩ := hedited.brief (kept.length - 1) (by omega) (by omega)
      exact ⟨h', kept.length - 1, l, hkept, by omega, sub_restrict hle (by omega) hs, hshort⟩

/-- The log of a tree that was reached lists a map at its latest block. -/
theorem Reached.shows (hst : st.Lawful) (hbee : Reached c st w bee) :
    ∃ (ns : List Node) (m : Table), Direct c st w bee ns ∧ Rooted ns m.toList := by
  induction hbee with
  | new author store =>
    obtain ⟨hnew, hempty⟩ := direct_new c st w author store
    exact ⟨[], ∅, hnew, hempty⟩
  | @ok bee bee' op answers _ hrun ih =>
    obtain ⟨ns, m, h, hr⟩ := ih
    obtain ⟨-, ns', -, h', hr'⟩ := (ends_run hst h hr op).ok hrun
    exact ⟨ns', _, h', hr'⟩
  | @failedBatch bee bee' ops committed e _ hrun ih =>
    obtain ⟨ns, m, h, hr⟩ := ih
    exact ⟨ns, m, ((ends_inBatch hst h hr ops committed).error hrun).2, hr⟩
  | @failedEdit bee bee' e err _ hrun hfirst ih =>
    obtain ⟨ns, m, h, hr⟩ := ih
    rcases failed_edit_cases hst h hr hrun with ⟨-, h'⟩ | ⟨hnot, -⟩
    · exact ⟨ns, m, h', hr⟩
    · exact absurd hfirst hnot

omit [DecidableEq H] in
theorem Reached.runOps (hbee : Reached c st w bee) : ∀ {ops : List BeeOp} {bee' : Hyperbee H Sig SK S}
    {answers : List (List (Option Bool))}, runOps c st w ops bee = .ok answers bee' →
    Reached c st w bee' := by
  intro ops
  induction ops generalizing bee with
  | nil =>
    intro bee' answers hrun
    cases hrun
    exact hbee
  | cons op rest ih =>
    intro bee' answers hrun
    obtain ⟨a, bee₁, hop, hrun⟩ := bind_eq_ok.mp hrun
    obtain ⟨as, bee₂, hrest, hret⟩ := bind_eq_ok.mp hrun
    cases hret
    exact ih (hbee.ok hop) hrest

/-- Two trees with the same nodes read alike. -/
theorem sameReads (hst : st.Lawful) (h : Direct c st w bee ns) (h' : Direct c st w bee' ns)
    (hr : Rooted ns m.toList) : SameReads c st w bee bee' where
  get key := by
    obtain ⟨r, ns', hexec, rfl, -⟩ := total_get hr key
    rw [(keeps_direct hst).ask_eq h hexec, (keeps_direct hst).ask_eq h' hexec]
  range bounds := by
    obtain ⟨r, ns', hexec, rfl, -⟩ : (range bounds).Total ns fun r ns' => ns' = ns ∧
        r = bounds.select m.toList :=
      Prog.Total.root (total_rangeFrom hr List.prefix_rfl bounds)
    rw [(keeps_direct hst).ask_eq h hexec, (keeps_direct hst).ask_eq h' hexec]

/-- The whole listing of a tree. -/
theorem ask_range (hst : st.Lawful) (h : Direct c st w bee ns) {lo k seq : ℕ} (hseq : seq + 1 = ns.length)
    (hs : Sub ns lo k seq l) : (keeper c st w).ask (range Range.default) bee = .ok l := by
  have htotal : (range Range.default).Total ns fun r ns' => ns' = ns ∧ r = l := by
    apply Prog.Total.root
    rw [← hseq, Nat.ppred_succ]
    have hfuel : k < seq + 1 := Nat.lt_succ_of_le hs.height_le
    refine Prog.Total.bind (total_collect (seq + 1) hfuel hs) fun out ns' _ hout => ?_
    obtain ⟨rfl, rfl⟩ := hout
    exact Prog.Total.pure ⟨rfl, by simp [Range.select, Range.default, Range.admits]⟩
  obtain ⟨r, ns', hexec, rfl, rfl⟩ := htotal
  exact (keeps_direct hst).ask_eq h hexec

/-- A write that fails leaves what is read as it was exactly if the store refused the first
block of it. -/
theorem failed_edit_unchanged_iff (hst : st.Lawful) (hbee : Reached c st w bee)
    (herr : (keeper c st w).perform e.prog bee = .error err bee') :
    SameReads c st w bee bee' ↔ FirstRefused c st w bee e := by
  obtain ⟨ns, m, h, hr⟩ := hbee.shows hst
  rcases failed_edit_cases hst h hr herr with ⟨hfirst, h'⟩ | ⟨hnot, kept, k, seq, l, h', hseq, hs, hshort⟩
  · exact ⟨fun _ => hfirst, fun _ => sameReads hst h h' hr⟩
  · refine ⟨fun hsame => ?_, fun hfirst => absurd hfirst hnot⟩
    -- the listing got shorter
    have hafter := ask_range hst h' hseq hs
    have hbefore : (keeper c st w).ask (range Range.default) bee = .ok m.toList := by
      generalize m.toList = rows at hr hshort
      cases hr with
      | empty _ => simp at hshort
      | tree hlast hroot _ => exact ask_range hst h hlast hroot
    rw [hsame.range, hbefore] at hafter
    rw [Except.ok.inj hafter] at hshort
    exact absurd hshort (Nat.lt_irrefl _)

/-- Eight keys, as many as the root holds. -/
def eightOps : List BeeOp := nineOps.take 8

/-- Writing eight keys and then a ninth to a store that takes `budget` writes: the tree before
the ninth and the one after it failed. -/
def ninth (budget : ℕ) :
    Option (Hyperbee (BitVec 256) (BitVec 512) Unit (ExtTreeMap ℕ (List UInt8) × ℕ) ×
      Hyperbee (BitVec 256) (BitVec 512) Unit (ExtTreeMap ℕ (List UInt8) × ℕ)) :=
  match runOps Crypto.sums metered Wire.bits eightOps (Hyperbee.new () (∅, budget)) with
  | .error _ _ => none
  | .ok _ bee =>
    match (keeper Crypto.sums metered Wire.bits).perform (Edit.put (keyOf 9) (keyOf 9)).prog bee with
    | .ok _ _ => none
    | .error _ bee' => some (bee, bee')

theorem reached_of_ninth {budget : ℕ} {bee bee' : Hyperbee (BitVec 256) (BitVec 512) Unit _}
    (h : ninth budget = some (bee, bee')) : Reached Crypto.sums metered Wire.bits bee ∧
      ∃ err, (keeper Crypto.sums metered Wire.bits).perform (Edit.put (keyOf 9) (keyOf 9)).prog bee =
        .error err bee' := by
  unfold ninth at h
  split at h
  · cases h
  · rename_i answers bee₀ hrun
    split at h
    · cases h
    · rename_i err bee₁ hput
      cases h
      exact ⟨(Reached.new () (∅, budget)).runOps hrun, err, hput⟩

/-- The ninth key splits the root. The left half is written, the right one refused: the left
half is the root then, and the upper keys are gone. -/
theorem failed_put_loses_keys :
    ∃ (bee bee' : Hyperbee (BitVec 256) (BitVec 512) Unit _) (err : CoreError (LayoutError Unit)),
      Reached Crypto.sums metered Wire.bits bee ∧
      (keeper Crypto.sums metered Wire.bits).perform (Edit.put (keyOf 9) (keyOf 9)).prog bee =
        .error err bee' ∧
      (keeper Crypto.sums metered Wire.bits).ask (get (keyOf 8)) bee = .ok (some (keyOf 8)) ∧
      (keeper Crypto.sums metered Wire.bits).ask (get (keyOf 8)) bee' = .ok none := by
  have hok : ∀ {a : Option Bytes} {x : Except (CoreError (LayoutError Unit)) (Option Bytes)},
      x.toOption = some a → x = .ok a := fun {a x} hx => by
    cases x with
    | error _ => cases hx
    | ok b => rw [Option.some.inj hx]
  have hrun : ((ninth 9).map fun r =>
      (((keeper Crypto.sums metered Wire.bits).ask (get (keyOf 8)) r.1).toOption,
        ((keeper Crypto.sums metered Wire.bits).ask (get (keyOf 8)) r.2).toOption)) =
      some (some (some (keyOf 8)), some none) := by decide +kernel
  obtain ⟨⟨bee, bee'⟩, hninth, hreads⟩ := Option.map_eq_some_iff.mp hrun
  obtain ⟨hbefore, hafter⟩ := Prod.mk.inj hreads
  obtain ⟨hreached, err, hput⟩ := reached_of_ninth hninth
  exact ⟨bee, bee', err, hreached, hput, hok hbefore, hok hafter⟩

/-- With no write left the ninth key changes nothing. -/
theorem failed_edit_unchanged_iff_ninth :
    ∃ (bee bee' : Hyperbee (BitVec 256) (BitVec 512) Unit _) (err : CoreError (LayoutError Unit)),
      Reached Crypto.sums metered Wire.bits bee ∧
      (keeper Crypto.sums metered Wire.bits).perform (Edit.put (keyOf 9) (keyOf 9)).prog bee =
        .error err bee' ∧
      SameReads Crypto.sums metered Wire.bits bee bee' := by
  have hrun : ((ninth 8).map fun r =>
      ((keeper Crypto.sums metered Wire.bits).first (Edit.put (keyOf 9) (keyOf 9)).prog r.1).map fun n =>
        returned ((backend Wire.bits metered).put (.block r.1.version) (nodeCodec.encode n) r.1.core.store)) =
      some (some false) := by decide +kernel
  obtain ⟨⟨bee, bee'⟩, hninth, hfirst⟩ := Option.map_eq_some_iff.mp hrun
  obtain ⟨n, hn, hreturned⟩ := Option.map_eq_some_iff.mp hfirst
  obtain ⟨hreached, err, hput⟩ := reached_of_ninth hninth
  refine ⟨bee, bee', err, hreached, hput, (failed_edit_unchanged_iff metered_lawful hreached hput).mpr ?_⟩
  cases hblock : (backend Wire.bits metered).put (.block bee.version) (nodeCodec.encode n) bee.core.store with
  | ok _ s =>
    rw [hblock] at hreturned
    cases hreturned
  | error err' s => exact ⟨n, err', s, hn, hblock⟩

end Hyperbee
end HypercoreRs
