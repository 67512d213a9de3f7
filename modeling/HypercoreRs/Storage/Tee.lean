/-
# The write-through store

`TeeStore` writes to a primary and to a cache and reads the primary first. Over any two
stores that keep maps it reads as the one map "cache overlaid by primary", whatever the two
held at first. It counts the primary alone unless that is empty, so its `len` is the size of
that map if and only if the primary is empty or has every key of the cache
(`tee_spec`). A primary that starts empty over a filled cache loses that with its first put.
-/
import HypercoreRs.Storage.Store

namespace HypercoreRs
namespace Storage

open Std Command

abbrev ByteMap := ExtTreeMap ℕ (List UInt8)

/-- A put under a key, or where there is no value a delete. -/
abbrev Change := ℕ × Option (List UInt8)

/-- A keyed byte store that counts its entries. -/
structure Counted (S E : Type) extends Store S E where
  len : S → Except E ℕ

namespace Counted

variable {S E : Type}

/-- A store keeps the map that `Shows` says its state shows. -/
structure Maps (st : Counted S E) (Shows : S → ByteMap → Prop) : Prop where
  get : ∀ {s m} k, Shows s m → st.get s k = .ok m[k]?
  len : ∀ {s m}, Shows s m → st.len s = .ok m.size
  put : ∀ {s m s' k v}, Shows s m → st.put k v s = .ok () s' → Shows s' (m.insert k v)
  delete : ∀ {s m s' k}, Shows s m → st.delete k s = .ok () s' → Shows s' (m.erase k)

def change (st : Counted S E) (op : Change) : EStateM E S Unit :=
  match op.2 with
  | some v => st.put op.1 v
  | none => st.delete op.1

def changes (st : Counted S E) (ops : List Change) : EStateM E S Unit := ops.forM st.change

end Counted

/-- What a change is to do to a map. -/
def changed (m : ByteMap) (op : Change) : ByteMap :=
  match op.2 with
  | some v => m.insert op.1 v
  | none => m.erase op.1

structure TeeStore (P C : Type) where
  primary : P
  cache : C

/-- Which side produced the error. -/
inductive TeeError (PE CE : Type) where
  | primary (e : PE)
  | cache (e : CE)

section Tee

variable {P C PE CE : Type}

def onPrimary (x : EStateM PE P Unit) : EStateM (TeeError PE CE) (TeeStore P C) Unit :=
  zoom TeeStore.primary (fun p t => { t with primary := p }) TeeError.primary x

def onCache (x : EStateM CE C Unit) : EStateM (TeeError PE CE) (TeeStore P C) Unit :=
  zoom TeeStore.cache (fun c t => { t with cache := c }) TeeError.cache x

def tee (p : Counted P PE) (c : Counted C CE) : Counted (TeeStore P C) (TeeError PE CE) where
  put k v := do
    onPrimary (p.put k v)
    onCache (c.put k v)
  get t k := do
    match ← (p.get t.primary k).mapError TeeError.primary with
    | some v => return some v
    | none => (c.get t.cache k).mapError TeeError.cache
  delete k := do
    onPrimary (p.delete k)
    onCache (c.delete k)
  len t := do
    let n ← (p.len t.primary).mapError TeeError.primary
    if n > 0 then return n else (c.len t.cache).mapError TeeError.cache

variable {p : Counted P PE} {c : Counted C CE} {ShowsP : P → ByteMap → Prop}
  {ShowsC : C → ByteMap → Prop} {t t' : TeeStore P C} {mp mc : ByteMap}

theorem both_eq_ok {x : EStateM PE P Unit} {y : EStateM CE C Unit}
    (h : (onPrimary x >>= fun _ => onCache y) t = .ok () t') :
    x t.primary = .ok () t'.primary ∧ y t.cache = .ok () t'.cache := by
  obtain ⟨⟨⟩, t₁, h₁, h₂⟩ := bind_eq_ok.mp h
  obtain ⟨s₁, hx, rfl⟩ := zoom_eq_ok.mp h₁
  obtain ⟨s₂, hy, rfl⟩ := zoom_eq_ok.mp h₂
  exact ⟨hx, hy⟩

/-- A change that succeeds is made to both sides. -/
theorem change_tee (hp : p.Maps ShowsP) (hc : c.Maps ShowsC) (hmp : ShowsP t.primary mp)
    (hmc : ShowsC t.cache mc) {op : Change} (h : (tee p c).change op t = .ok () t') :
    ShowsP t'.primary (changed mp op) ∧ ShowsC t'.cache (changed mc op) := by
  obtain ⟨k, _ | v⟩ := op
  · exact ⟨hp.delete hmp (both_eq_ok h).1, hc.delete hmc (both_eq_ok h).2⟩
  · exact ⟨hp.put hmp (both_eq_ok h).1, hc.put hmc (both_eq_ok h).2⟩

theorem changes_tee (hp : p.Maps ShowsP) (hc : c.Maps ShowsC) : ∀ (ops : List Change)
    {t t' : TeeStore P C} {mp mc : ByteMap}, ShowsP t.primary mp → ShowsC t.cache mc →
    (tee p c).changes ops t = .ok () t' →
    ShowsP t'.primary (ops.foldl changed mp) ∧ ShowsC t'.cache (ops.foldl changed mc)
  | [], _, _, _, _, hmp, hmc, h => by
    cases h
    exact ⟨hmp, hmc⟩
  | op :: ops, _, _, _, _, hmp, hmc, h => by
    obtain ⟨⟨⟩, t₁, h₁, h⟩ := bind_eq_ok.mp h
    obtain ⟨hp₁, hc₁⟩ := change_tee hp hc hmp hmc h₁
    exact changes_tee hp hc ops hp₁ hc₁ h

/-- What is done to both sides is done to the overlay. -/
theorem changed_union (m₁ m₂ : ByteMap) (op : Change) :
    changed m₁ op ∪ changed m₂ op = changed (m₁ ∪ m₂) op := by
  apply ExtTreeMap.ext_getElem?
  intro k
  obtain ⟨k', _ | v⟩ := op
  · simp only [changed, ExtTreeMap.getElem?_union, Graph.getElem?_erase]
    split_ifs
    · rfl
    · rfl
  · simp only [changed, ExtTreeMap.getElem?_union, Graph.getElem?_insert]
    split_ifs
    · rfl
    · rfl

theorem foldl_changed_union : ∀ (ops : List Change) (m₁ m₂ : ByteMap),
    ops.foldl changed m₁ ∪ ops.foldl changed m₂ = ops.foldl changed (m₁ ∪ m₂)
  | [], _, _ => rfl
  | op :: ops, m₁, m₂ => by
    rw [List.foldl_cons, List.foldl_cons, List.foldl_cons, foldl_changed_union ops, changed_union]

/-- The overlay has the size of the upper map if and only if that has every key of the lower. -/
theorem size_union_iff (m₁ m₂ : ByteMap) : m₂.size = (m₁ ∪ m₂).size ↔ ∀ k ∈ m₁, k ∈ m₂ := by
  have hsub : m₂.keys.Subperm (m₁ ∪ m₂).keys := ExtTreeMap.nodup_keys.subperm fun k hk =>
    Graph.mem_keys.mpr (ExtTreeMap.mem_union_iff.mpr (.inr (Graph.mem_keys.mp hk)))
  rw [← ExtTreeMap.length_keys, ← ExtTreeMap.length_keys]
  constructor
  · intro hlen k hk
    have hperm := hsub.perm_of_length_le hlen.ge
    exact Graph.mem_keys.mp (hperm.mem_iff.mpr (Graph.mem_keys.mpr (ExtTreeMap.mem_union_iff.mpr (.inl hk))))
  · intro hall
    refine hsub.length_le.antisymm (ExtTreeMap.nodup_keys.subperm fun k hk => ?_).length_le
    rcases ExtTreeMap.mem_union_iff.mp (Graph.mem_keys.mp hk) with hk | hk
    · exact Graph.mem_keys.mpr (hall k hk)
    · exact Graph.mem_keys.mpr hk

/-- After any changes that succeed the store reads as the overlay of what the sides held at
first, changed so, and it counts the overlay if and only if the primary is empty or has every
key of the cache. -/
theorem tee_spec (hp : p.Maps ShowsP) (hc : c.Maps ShowsC) (hmp : ShowsP t.primary mp)
    (hmc : ShowsC t.cache mc) (ops : List Change) (h : (tee p c).changes ops t = .ok () t') :
    (∀ k, (tee p c).get t' k = .ok (ops.foldl changed (mc ∪ mp))[k]?) ∧
      ((tee p c).len t' = .ok (ops.foldl changed (mc ∪ mp)).size ↔
        ops.foldl changed mp = ∅ ∨ ∀ k ∈ ops.foldl changed mc, k ∈ ops.foldl changed mp) := by
  obtain ⟨hp', hc'⟩ := changes_tee hp hc ops hmp hmc h
  rw [← foldl_changed_union]
  generalize ops.foldl changed mp = mp' at hp' ⊢
  generalize ops.foldl changed mc = mc' at hc' ⊢
  constructor
  · intro k
    have hget : (tee p c).get t' k = (match mp'[k]? with
        | some v => .ok (some v)
        | none => .ok mc'[k]?) := by
      simp only [tee, hp.get k hp', hc.get k hc']
      cases mp'[k]? with
      | none => rfl
      | some v => rfl
    rw [hget, ExtTreeMap.getElem?_union]
    cases mp'[k]? with
    | none => rfl
    | some v => rfl
  · have hlen : (tee p c).len t' = if mp'.size > 0 then .ok mp'.size else .ok mc'.size := by
      simp only [tee, hp.len hp', hc.len hc']
      rfl
    rw [hlen]
    by_cases hempty : mp' = ∅
    · subst hempty
      have hunion : mc' ∪ ∅ = mc' := ExtTreeMap.ext_getElem? (by simp [ExtTreeMap.getElem?_union])
      simp [hunion]
    · have hpos : mp'.size > 0 :=
        Nat.pos_of_ne_zero fun h => hempty (ExtTreeMap.eq_empty_iff_size_eq_zero.mpr h)
      rw [if_pos hpos, Except.ok.injEq, size_union_iff]
      simp [hempty]

end Tee

/-- The in-memory store. -/
def countedMemory : Counted ByteMap Empty := { Store.memory with len := fun m => .ok m.size }

theorem countedMemory_maps : countedMemory.Maps Eq where
  get _ h := h ▸ rfl
  len h := h ▸ rfl
  put := by
    rintro _ _ _ _ _ rfl h
    cases h
    rfl
  delete := by
    rintro _ _ _ _ rfl h
    cases h
    rfl

/-- A fresh primary over a cache that holds key 5: once key 6 is put and key 5 deleted, the count
is that of the overlay. -/
theorem tee_spec_recovered :
    ∃ t, (tee countedMemory countedMemory).changes [(6, some [2]), (5, none)]
        ⟨∅, (∅ : ByteMap).insert 5 [1]⟩ = .ok () t ∧
      (tee countedMemory countedMemory).get t 5 = .ok none ∧
      (tee countedMemory countedMemory).get t 6 = .ok (some [2]) ∧
      (tee countedMemory countedMemory).len t = .ok 1 := by
  obtain ⟨hget, hlen⟩ := tee_spec countedMemory_maps countedMemory_maps rfl rfl [(6, some [2]), (5, none)]
    (t := ⟨∅, (∅ : ByteMap).insert 5 [1]⟩) rfl
  refine ⟨_, rfl, hget 5, hget 6, hlen.mpr (.inr fun k hk => ?_)⟩
  simp only [List.foldl, changed, ExtTreeMap.mem_erase, ExtTreeMap.mem_insert] at hk ⊢
  exact ⟨hk.1, hk.2.imp_right fun h => h.resolve_left hk.1⟩

/-- A put of key 6 later two keys are read, and one is counted. -/
theorem tee_miscounts :
    ∃ t, (tee countedMemory countedMemory).changes [(6, some [2])]
        ⟨∅, (∅ : ByteMap).insert 5 [1]⟩ = .ok () t ∧
      (tee countedMemory countedMemory).get t 5 = .ok (some [1]) ∧
      (tee countedMemory countedMemory).get t 6 = .ok (some [2]) ∧
      (tee countedMemory countedMemory).len t = .ok 1 :=
  ⟨_, rfl, rfl, rfl, rfl⟩

end Storage
end HypercoreRs
