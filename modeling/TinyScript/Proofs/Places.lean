import TinyScript.Proofs.Paired
import TinyScript.Proofs.Shown

/-!
# Places

A place is a variable of a record, or a part of what is there, at any depth. Two machines are alike
if they have the same places, and what is there has the same type and text in both (`Alike`). All
that can be seen by looking at variables is seen so. Cells that are shared are found at several
places.
-/

namespace TinyScript

open List

variable {σ ρ : Type}

/-- A way from a list to an item, or from a map to the key or the value of an entry. -/
inductive Step
  | item (i : Nat)
  | key (i : Nat)
  | value (i : Nat)
deriving DecidableEq, Repr

/-- A variable of a record, counted from the innermost one, and the way on from there. -/
structure Place where
  record : Nat
  name : String
  path : List Step := []
deriving DecidableEq, Repr

/-! ### Ways through a store -/

namespace Store

variable {s s' : Store} {x y : Slot} {a : Step}

def step? (s : Store) (x : Slot) : Step → Option Slot
  | .item i =>
    match s.get? x with
    | some (.list items) => items[i]?
    | _ => none
  | .key i =>
    match s.get? x with
    | some (.map t) => t.entries[i]?.map fun e => some e.key
    | _ => none
  | .value i =>
    match s.get? x with
    | some (.map t) => t.entries[i]?.map (·.value)
    | _ => none

def follow? (s : Store) : Slot → List Step → Option Slot
  | x, [] => some x
  | x, a :: path => (s.step? x a).bind fun y => s.follow? y path

theorem step?_congr (h : s'.get? x = s.get? x) (a : Step) : s'.step? x a = s.step? x a := by
  cases a <;> simp only [step?, h]

theorem step?_of_scalar {v : Value} (hv : v.IsScalar) (h : s.get? x = some v) (a : Step) :
    s.step? x a = none := by
  obtain ⟨n, rfl⟩ | ⟨t, rfl⟩ := hv <;> cases a <;> simp only [step?, h]

theorem mem_parts_of_step? (h : s.step? x a = some y) : y ∈ s.parts x := by
  cases a with
  | item i =>
    simp only [step?] at h
    split at h
    · rename_i items hv
      simpa only [parts, hv] using mem_of_getElem? h
    · cases h
  | key i =>
    simp only [step?] at h
    split at h
    · rename_i t hv
      obtain ⟨e, he, rfl⟩ := Option.map_eq_some_iff.1 h
      exact mem_parts_key hv (mem_of_getElem? he)
    · cases h
  | value i =>
    simp only [step?] at h
    split at h
    · rename_i t hv
      obtain ⟨e, he, rfl⟩ := Option.map_eq_some_iff.1 h
      exact mem_parts_value hv (mem_of_getElem? he)
    · cases h

/-- There is a step to each part. -/
theorem exists_step? (h : y ∈ s.parts x) : ∃ a, s.step? x a = some y := by
  unfold parts at h
  split at h
  · rename_i items hv
    obtain ⟨i, hi⟩ := getElem?_of_mem h
    exact ⟨.item i, by simp only [step?, hv, hi]⟩
  · rename_i t hv
    simp only [mem_flatMap, mem_cons, not_mem_nil, or_false] at h
    obtain ⟨e, he, hy⟩ := h
    obtain ⟨i, hi⟩ := getElem?_of_mem he
    rcases hy with rfl | rfl
    · exact ⟨.key i, by simp only [step?, hv, hi, Option.map_some]⟩
    · exact ⟨.value i, by simp only [step?, hv, hi, Option.map_some]⟩
  · exact absurd h not_mem_nil

theorem follow?_append (x : Slot) (path : List Step) (a : Step) :
    s.follow? x (path ++ [a]) = (s.follow? x path).bind fun y => s.step? y a := by
  induction path generalizing x with
  | nil => simp [follow?]
  | cons b path ih =>
    simp only [cons_append, follow?, Option.bind_assoc]
    exact congrArg _ (funext ih)

/-- Ways are the same in two stores if steps are, and the slots on the way are in `K`. -/
theorem follow?_congr {K : Slot → Prop} (closed : ∀ x, K x → ∀ y ∈ s.parts x, K y)
    (h : ∀ x, K x → ∀ a, s'.step? x a = s.step? x a) (hx : K x) (path : List Step) :
    s'.follow? x path = s.follow? x path := by
  induction path generalizing x with
  | nil => rfl
  | cons a path ih =>
    simp only [follow?, h x hx a]
    cases e : s.step? x a with
    | none => rfl
    | some y => exact ih (closed x hx y (mem_parts_of_step? e))

theorem follow?_mem {K : Slot → Prop} (closed : ∀ x, K x → ∀ y ∈ s.parts x, K y) (hx : K x)
    {path : List Step} (h : s.follow? x path = some y) : K y := by
  induction path generalizing x with
  | nil =>
    cases h
    exact hx
  | cons a path ih =>
    obtain ⟨z, hz, h⟩ := Option.bind_eq_some_iff.1 h
    exact ih (closed x hx z (mem_parts_of_step? hz)) h

/-- A slot that is empty or leads to one of the first `n` cells. -/
def Within (n : Nat) (x : Slot) : Prop := ∀ r, x = some r → r.index < n

theorem Sound.within (hs : s.Sound) (x : Slot) : ∀ y ∈ s.parts x, Within s.cells.size y := by
  rintro y hy r rfl
  unfold parts at hy
  split at hy
  · rename_i items hv
    exact Live.index_lt (hs.get? hv _ hy)
  · rename_i t hv
    have ht : t.Sound s.cells.size := hs.get? hv
    simp only [mem_flatMap, mem_cons, not_mem_nil, or_false] at hy
    obtain ⟨e, he, hr | hr⟩ := hy
    · cases hr
      exact ht.keys e he
    · have live := ht.values e he
      rw [← hr] at live
      exact live.index_lt
  · exact absurd hy not_mem_nil

theorem Grows.get? (h : Grows none s s') (hx : Within s.cells.size x) : s'.get? x = s.get? x := by
  cases x with
  | none => rfl
  | some r => exact congrArg some (h.kept r (hx r rfl) (by simp))

end Store

/-! ### Bindings -/

theorem RecordOf.get?_set (r : RecordOf σ ρ) (x y : String) (b : Binding) :
    (r.set x b).get? y = if y = x then some b else r.get? y := by
  have go : ∀ ms : List (String × Binding),
      (RecordOf.bind x b ms).lookup y = if y = x then some b else ms.lookup y := by
    intro ms
    induction ms with
    | nil =>
      simp only [RecordOf.bind, lookup_cons, lookup_nil]
      split <;> simp_all
    | cons e ms ih =>
      obtain ⟨z, c⟩ := e
      simp only [RecordOf.bind]
      split <;> simp only [lookup_cons] <;> grind
  exact go r.members

namespace CallStack

variable {x y : String} {b : Binding} {rs : List (RecordOf σ ρ)}

/-- The binding of a name in a record, counted from the innermost one. -/
def bindingAt? (rs : List (RecordOf σ ρ)) (i : Nat) (x : String) : Option Binding :=
  rs[i]?.bind (·.get? x)

/-- The record that a name is looked up in. -/
def home (x : String) (rs : List (RecordOf σ ρ)) : Nat := rs.findIdx (·.has x)

theorem home_cons_of_some {r : RecordOf σ ρ} (h : r.get? x = some b) : home x (r :: rs) = 0 := by
  simp [home, findIdx_cons, RecordOf.has, h]

theorem home_cons_of_none {r : RecordOf σ ρ} (h : r.get? x = none) :
    home x (r :: rs) = home x rs + 1 := by
  simp [home, findIdx_cons, RecordOf.has, h]

theorem bindingAt?_home (h : bindingOf? x rs = some b) : bindingAt? rs (home x rs) x = some b := by
  induction rs with
  | nil => cases h
  | cons r rs ih =>
    cases hr : r.get? x with
    | some c =>
      simp only [bindingOf?, hr] at h
      cases h
      simp only [home_cons_of_some hr, bindingAt?, getElem?_cons_zero, Option.bind_some, hr]
    | none =>
      simp only [bindingOf?, hr] at h
      rw [home_cons_of_none hr, ← ih h]
      simp only [bindingAt?, getElem?_cons_succ]

/-- Giving a name a new value changes its innermost binding and no other one. -/
theorem bindingAt?_rebind (h : bindingOf? x rs = some b) (v : Slot) (i : Nat) (y : String) :
    bindingAt? (rebind x v rs) i y =
      if i = home x rs ∧ y = x then some ⟨v, b.isConst⟩ else bindingAt? rs i y := by
  induction rs generalizing i with
  | nil => cases h
  | cons r rs ih =>
    cases hr : r.get? x with
    | some c =>
      simp only [bindingOf?, hr] at h
      cases h
      rw [home_cons_of_some hr]
      cases i with
      | zero => simp [rebind, hr, bindingAt?, RecordOf.get?_set]
      | succ i => simp [rebind, hr, bindingAt?]
    | none =>
      simp only [bindingOf?, hr] at h
      rw [home_cons_of_none hr]
      cases i with
      | zero => simp [rebind, hr, bindingAt?]
      | succ i => simpa [rebind, hr, bindingAt?] using ih h i

theorem valueOf?_of_bindingOf? {r : Ref} (h : bindingOf? x rs = some b) (hb : b.value = some r) :
    valueOf? x rs = some r := by
  induction rs with
  | nil => cases h
  | cons r' rs ih =>
    cases hr : r'.get? x with
    | some c =>
      simp only [bindingOf?, hr] at h
      cases h
      simp only [valueOf?, hr, Option.bind_some, hb]
    | none =>
      simp only [bindingOf?, hr] at h
      simp only [valueOf?, hr, Option.bind_none, ih h]

theorem within_bindingAt? {n i : Nat} (hs : ∀ r ∈ rs, r.Sound n) (h : bindingAt? rs i x = some b) :
    Store.Within n b.value := by
  intro v hv
  obtain ⟨r, hr, hb⟩ := Option.bind_eq_some_iff.1 h
  exact (hs r (mem_of_getElem? hr)).lookup hb hv

end CallStack

/-! ### Places of machines -/

namespace MachineOf

open CallStack

/-- The slot at a place. -/
def slotAt? (m : MachineOf σ ρ) (p : Place) : Option Slot :=
  (bindingAt? m.stack.records p.record p.name).bind fun b => m.store.follow? b.value p.path

/-- What there is to see at a place. -/
def lookAt? (m : MachineOf σ ρ) (p : Place) : Option (Option String × Option String) :=
  (m.slotAt? p).map m.store.look

/-- The machines have the same places, and what is there has the same type and text. -/
def Alike (m m' : MachineOf σ ρ) : Prop := ∀ p, m.lookAt? p = m'.lookAt? p

variable {m : MachineOf σ ρ} {p : Place} {y : Slot}

theorem within_slotAt? (hm : m.Sound) (h : m.slotAt? p = some y) :
    Store.Within m.store.cells.size y := by
  obtain ⟨b, hb, h⟩ := Option.bind_eq_some_iff.1 h
  exact Store.follow?_mem (fun x _ => hm.store.within x) (within_bindingAt? hm.records hb) h

/-- From a place it is one step to each part of what is there. -/
theorem slotAt?_part (h : m.slotAt? p = some y) {z : Slot} (hz : z ∈ m.store.parts y) :
    ∃ a, m.slotAt? { p with path := p.path ++ [a] } = some z := by
  obtain ⟨b, hb, h⟩ := Option.bind_eq_some_iff.1 h
  obtain ⟨a, ha⟩ := Store.exists_step? hz
  exact ⟨a, by simp only [slotAt?, hb, Option.bind_some, Store.follow?_append, h, ha]⟩

end MachineOf

end TinyScript
