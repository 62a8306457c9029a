import Mathlib.Data.List.Perm.Subperm
import Mathlib.Data.Nat.Find
import TinyScript.Proofs.SoundStore

/-!
# How values are shown

The text of a value depends on the value and on what its parts are shown as, and on nothing else in
the store (`inner_congr`). The bound on the depth of nesting is no restriction: what can be shown at
all can be shown within the bound (`toOption_inner`), for in what is nested deeper some cell would
occur below itself (`Nested.le_depth`).
-/

namespace TinyScript

open List

variable {ε α β : Type}
variable {f : α → Except ε β} {xs : List α} {x : Except ε α}

/-- `y` yields what `x` yields, if `x` yields anything. -/
def Covers (y x : Except ε α) : Prop := ∀ a, x = .ok a → y = .ok a

namespace Covers

variable {x y : Except ε α}
variable {g : α → Except ε β}

theorem refl (x : Except ε α) : Covers x x := fun _ h => h

theorem bind (hx : Covers y x) (hf : ∀ a, Covers (g a) (f a)) : Covers (y >>= g) (x >>= f) := by
  intro b h
  cases x with
  | error e => cases h
  | ok a =>
    rw [hx a rfl]
    exact hf a b h

theorem mapM (h : ∀ x ∈ xs, Covers (g x) (f x)) : Covers (xs.mapM g) (xs.mapM f) := by
  induction xs with
  | nil => exact refl _
  | cons x xs ih =>
    obtain ⟨hx, hxs⟩ := forall_mem_cons.1 h
    rw [mapM_cons, mapM_cons]
    exact bind hx fun _ => bind (ih hxs) fun _ => refl _

theorem of_toOption (h : y.toOption = x.toOption) : Covers y x := by
  rintro a rfl
  cases y with
  | ok b => exact congrArg Except.ok (Option.some.inj h)
  | error e => cases h

theorem toOption_eq (h : Covers y x) (h' : Covers x y) : y.toOption = x.toOption := by
  cases x with
  | ok a => rw [h a rfl]
  | error e =>
    cases y with
    | ok b => cases h' b rfl
    | error f => rfl

end Covers

theorem isOk_map {g : α → β} : (do let a ← x; return g a : Except ε β).isOk = true ↔ x.isOk = true := by
  cases x <;> exact Iff.rfl

theorem isOk_both {γ : Type} {y : Except ε β} {g : α → β → γ} :
    (do let a ← x; let b ← y; return g a b : Except ε γ).isOk = true ↔
      x.isOk = true ∧ y.isOk = true := by
  cases x with
  | error e =>
    constructor
    · intro h
      cases h
    · exact fun h => h.1
  | ok a => exact isOk_map.trans ⟨fun h => ⟨rfl, h⟩, fun h => h.2⟩

theorem isOk_mapM : (xs.mapM f).isOk = true ↔ ∀ x ∈ xs, (f x).isOk = true := by
  induction xs with
  | nil => exact ⟨fun _ _ h => absurd h not_mem_nil, fun _ => rfl⟩
  | cons x xs ih => rw [mapM_cons, isOk_both, ih, forall_mem_cons]

namespace Store

variable {s s' : Store} {d d' : Nat} {x y : Slot}
variable {t : Table} {e : Entry Slot} {K : Slot → Prop} {v : Value}

/-- What a list or map is made of. -/
def parts (s : Store) (x : Slot) : List Slot :=
  match s.get? x with
  | some (.list items) => items
  | some (.map t) => t.entries.flatMap fun e => [some e.key, e.value]
  | _ => []

theorem mem_parts_key (h : s.get? x = some (.map t)) (he : e ∈ t.entries) : some e.key ∈ s.parts x := by
  simp only [parts, h, mem_flatMap]
  exact ⟨e, he, by simp⟩

theorem mem_parts_value (h : s.get? x = some (.map t)) (he : e ∈ t.entries) : e.value ∈ s.parts x := by
  simp only [parts, h, mem_flatMap]
  exact ⟨e, he, by simp⟩

theorem inner_list {items : List Slot} (h : s.get? x = some (.list items)) :
    s.inner (d + 1) x = do
      let shown ← items.mapM (s.inner d)
      return "[" ++ ", ".intercalate shown ++ "]" := by
  simp only [inner, h]

theorem inner_map (h : s.get? x = some (.map t)) :
    s.inner (d + 1) x = do
      let shown ← t.entries.mapM fun e => do
        let key ← s.inner d (some e.key)
        let value ← s.inner d e.value
        return key ++ ": " ++ value
      return "\x7b" ++ ", ".intercalate shown ++ "\x7d" := by
  simp only [inner, h]

theorem inner_covers (hx : s'.get? x = s.get? x)
    (hp : ∀ y ∈ s.parts x, Covers (s'.inner d' y) (s.inner d y)) :
    Covers (s'.inner (d' + 1) x) (s.inner (d + 1) x) := by
  cases hv : s.get? x with
  | none => simp only [inner, hx, hv, Covers.refl]
  | some v =>
    cases v with
    | list items =>
      rw [inner_list hv, inner_list (hx.trans hv)]
      refine .bind (.mapM fun y hy => hp y ?_) fun _ => .refl _
      simpa only [parts, hv] using hy
    | map t =>
      rw [inner_map hv, inner_map (hx.trans hv)]
      refine .bind (.mapM fun e he => ?_) fun _ => .refl _
      exact .bind (hp _ (mem_parts_key hv he)) fun _ =>
        .bind (hp _ (mem_parts_value hv he)) fun _ => .refl _
    | _ => simp only [inner, hx, hv, Covers.refl]

theorem isOk_inner (h : s.parts x ≠ []) :
    (s.inner (d + 1) x).isOk = true ↔ ∀ y ∈ s.parts x, (s.inner d y).isOk = true := by
  cases hv : s.get? x with
  | none => simp [parts, hv] at h
  | some v =>
    cases v with
    | list items => simp only [inner_list hv, parts, hv, isOk_map, isOk_mapM]
    | map t =>
      simp only [inner_map hv, isOk_map, isOk_mapM, isOk_both]
      constructor
      · intro h y hy
        simp only [parts, hv, mem_flatMap, mem_cons, not_mem_nil, or_false] at hy
        obtain ⟨e, he, rfl | rfl⟩ := hy
        · exact (h e he).1
        · exact (h e he).2
      · exact fun h e he => ⟨h _ (mem_parts_key hv he), h _ (mem_parts_value hv he)⟩
    | _ => simp [parts, hv] at h

/-- A value without parts is shown alike at all depths. -/
theorem inner_of_parts_eq_nil (h : s.parts x = []) : s.inner (d + 1) x = s.inner (d' + 1) x := by
  cases hv : s.get? x with
  | none => simp only [inner, hv]
  | some v =>
    cases v with
    | list items =>
      simp only [parts, hv] at h
      simp only [inner_list hv, h, mapM_nil]
    | map t =>
      have he : t.entries = [] := by
        cases ht : t.entries with
        | nil => rfl
        | cons e es => simp [parts, hv, ht] at h
      simp only [inner_map hv, he, mapM_nil]
    | _ => simp only [inner, hv]

theorem inner_mono (h : d ≤ d') : Covers (s.inner d' x) (s.inner d x) := by
  induction d generalizing d' x with
  | zero => exact fun _ h => by cases h
  | succ d ih =>
    obtain ⟨k, rfl⟩ := Nat.exists_eq_add_of_lt h
    exact inner_covers rfl fun y _ => ih (Nat.le_add_right d k)

theorem isOk_mono (h : d ≤ d') (hd : (s.inner d x).isOk = true) : (s.inner d' x).isOk = true := by
  cases e : s.inner d x with
  | error f =>
    rw [e] at hd
    cases hd
  | ok t => rw [inner_mono h t e]; rfl

/-! ### How deep values are nested -/

/-- The least depth that a value can be shown at. -/
def Nested (s : Store) (d : Nat) (x : Slot) : Prop :=
  (s.inner d x).isOk = true ∧ ∀ d', (s.inner d' x).isOk = true → d ≤ d'

theorem Nested.eq (h : s.Nested d x) (h' : s.Nested d' x) : d = d' :=
  Nat.le_antisymm (h.2 d' h'.1) (h'.2 d h.1)

theorem exists_nested (h : (s.inner d x).isOk = true) : ∃ k, s.Nested k x :=
  have ex : ∃ k, (s.inner k x).isOk = true := ⟨d, h⟩
  ⟨Nat.find ex, Nat.find_spec ex, fun _ hk => Nat.find_min' ex hk⟩

/-- Below a value that is nested deeper than one level, there is one nested one level less. -/
theorem Nested.part (h : s.Nested (d + 2) x) : ∃ r y, x = some r ∧ r.index < s.cells.size ∧
    s.Nested (d + 1) y := by
  have hp : s.parts x ≠ [] := by
    intro hp
    have := h.2 1 (inner_of_parts_eq_nil hp ▸ h.1)
    omega
  obtain ⟨r, rfl⟩ : ∃ r, x = some r := by
    cases x with
    | none => exact absurd rfl hp
    | some r => exact ⟨r, rfl⟩
  have hr : r.index < s.cells.size := by
    refine lt_of_get_ne fun hb => hp ?_
    simp only [parts, get?, Option.map_some, hb]
  have all := (isOk_inner hp).1 h.1
  by_contra hno
  have less : ∀ y ∈ s.parts (some r), (s.inner d y).isOk = true := by
    intro y hy
    by_contra hd
    refine hno ⟨r, y, rfl, hr, all y hy, fun k hk => ?_⟩
    by_contra hlt
    exact hd (isOk_mono (by omega) hk)
  have := h.2 (d + 1) ((isOk_inner hp).2 less)
  omega

theorem Nested.cells (h : s.Nested (d + 1) x) : ∃ l : List Nat, l.length = d ∧ l.Nodup ∧
    ∀ i ∈ l, i < s.cells.size ∧ ∃ k ≤ d + 1, s.Nested k (some ⟨i⟩) := by
  induction d generalizing x with
  | zero => exact ⟨[], rfl, nodup_nil, by simp⟩
  | succ d ih =>
    obtain ⟨r, y, rfl, hr, hy⟩ := h.part
    obtain ⟨l, hl, hn, hc⟩ := ih hy
    refine ⟨r.index :: l, by simp [hl], nodup_cons.2 ⟨fun hm => ?_, hn⟩, ?_⟩
    · obtain ⟨-, k, hk, hk'⟩ := hc _ hm
      have := h.eq hk'
      omega
    · refine forall_mem_cons.2 ⟨⟨hr, d + 2, Nat.le_refl _, h⟩, fun i hi => ?_⟩
      obtain ⟨hi, k, hk, hk'⟩ := hc i hi
      exact ⟨hi, k, by omega, hk'⟩

theorem Nested.le_depth (h : s.Nested d x) : d ≤ s.depth := by
  cases d with
  | zero => exact Nat.zero_le _
  | succ d =>
    obtain ⟨l, rfl, hn, hc⟩ := h.cells
    have sub : l ⊆ List.range s.cells.size := fun i hi => mem_range.2 (hc i hi).1
    have := (hn.subperm sub).length_le
    rw [length_range] at this
    exact Nat.succ_le_succ this

/-- What can be shown at some depth is shown as it would be at any depth that suffices. -/
theorem toOption_inner (h : s.depth ≤ d) : (s.inner d x).toOption = (s.repr x).toOption := by
  refine Covers.toOption_eq (inner_mono h) fun t ht => ?_
  obtain ⟨k, hk⟩ := exists_nested (s := s) (x := x) (d := d) (by rw [ht]; rfl)
  have ok := isOk_mono hk.le_depth hk.1
  cases e : s.inner s.depth x with
  | ok t' =>
    have := inner_mono h t' e
    rw [ht] at this
    cases this
    exact e
  | error f =>
    rw [e] at ok
    cases ok

/-! ### Stores that show the same -/

theorem parts_congr (h : s'.get? x = s.get? x) : s'.parts x = s.parts x := by
  unfold parts
  rw [h]

/-- Values are shown alike in two stores, if each of the slots in `K` holds the same value in both or
is shown alike anyway, and `K` has all parts of these values. -/
theorem inner_congr (closed : ∀ x, K x → ∀ y ∈ s.parts x, K y)
    (h : ∀ x, K x → s'.get? x = s.get? x ∨ ∀ d, (s'.inner d x).toOption = (s.inner d x).toOption)
    (hx : K x) (d : Nat) : (s'.inner d x).toOption = (s.inner d x).toOption := by
  induction d generalizing x with
  | zero => rfl
  | succ d ih =>
    rcases h x hx with e | e
    · have parts := fun y hy => ih (closed x hx y hy)
      refine Covers.toOption_eq (inner_covers e fun y hy => .of_toOption (parts y hy)) ?_
      refine inner_covers e.symm fun y hy => .of_toOption (parts y ?_).symm
      rwa [parts_congr e] at hy
    · exact e _

/-- What there is to see of a slot: the type of its value, and its text. -/
def look (s : Store) (x : Slot) : Option String × Option String :=
  ((s.get? x).map (·.typeName), (s.text x).toOption)

theorem look_of_scalar (hv : v.IsScalar) (h : s.get? x = some v) (h' : s'.get? y = some v) :
    s'.look y = s.look x := by
  obtain ⟨n, rfl⟩ | ⟨t, rfl⟩ := hv <;> simp only [look, text, repr, depth, inner, h, h']

theorem typeName_num_ne_str (n : Number) (t : String) :
    (Value.num n).typeName ≠ (Value.str t).typeName := by
  simp only [Value.typeName]
  split <;> decide

/-- Numbers and strings that look alike are also shown alike inside lists and maps. -/
theorem inner_of_look {v' : Value} (hv : v.IsScalar) (hv' : v'.IsScalar) (h : s.get? x = some v)
    (h' : s'.get? x = some v') (hl : s'.look x = s.look x) (d : Nat) :
    (s'.inner d x).toOption = (s.inner d x).toOption := by
  cases d with
  | zero => rfl
  | succ d =>
    have types : v'.typeName = v.typeName := by
      have first := congrArg Prod.fst hl
      simpa only [look, h, h', Option.map_some, Option.some.injEq] using first
    have texts := congrArg Prod.snd hl
    obtain ⟨n, rfl⟩ | ⟨t, rfl⟩ := hv <;> obtain ⟨n', rfl⟩ | ⟨t', rfl⟩ := hv' <;>
      simp only [look, text, repr, depth, inner, h, h'] at texts ⊢
    · exact texts
    · exact absurd types.symm (typeName_num_ne_str n t')
    · exact absurd types (typeName_num_ne_str n' t)
    · rw [Option.some.inj texts]

/-- A slot with the same value in two stores, or with numbers or strings that look alike. -/
def Resembles (s s' : Store) (x : Slot) : Prop :=
  s'.get? x = s.get? x ∨ (∃ v, v.IsScalar ∧ s.get? x = some v) ∧ (∃ v, v.IsScalar ∧ s'.get? x = some v) ∧
    s'.look x = s.look x

/-- Slots look alike if all that they are made of resembles. -/
theorem look_congr (closed : ∀ x, K x → ∀ y ∈ s.parts x, K y) (h : ∀ x, K x → Resembles s s' x)
    (hx : K x) : s'.look x = s.look x := by
  have shown : ∀ d, (s'.inner d x).toOption = (s.inner d x).toOption := by
    refine inner_congr closed (fun y hy => ?_) hx
    rcases h y hy with e | ⟨⟨v, hv, e⟩, ⟨v', hv', e'⟩, hl⟩
    · exact .inl e
    · exact .inr (inner_of_look hv hv' e e' hl)
  have same : (s'.repr x).toOption = (s.repr x).toOption := by
    rw [← toOption_inner (Nat.le_max_left s'.depth s.depth), shown,
      toOption_inner (Nat.le_max_right s'.depth s.depth)]
  rcases h x hx with e | ⟨-, -, hl⟩
  · unfold look text
    rw [e]
    split
    · rfl
    · rw [same]
  · exact hl

end Store

end TinyScript
