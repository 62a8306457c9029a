import TinyScript.Proofs.Tables

/-!
# Cells under other names

The names of cells have no part in what is calculated. If a store has the cells of another one under
other names (`Store.Renamed`), then all that is asked of its values has the same answer. In
particular some cells may have been added before: then new ones are the same distance further up
(`Store.Shifted`), and an action on one store is in step with the same action on the other one
(`Tandem`).
-/

namespace TinyScript

open List

variable {f : Ref → Ref}

/-! ### Values under other names -/

def Mark.rename (f : Ref → Ref) : Mark → Mark
  | .notANumber c => .notANumber (f c)
  | m => m

/-- An entry with its key renamed by `f`, and its value by `g`. -/
def Entry.rename {α : Type} (f : Ref → Ref) (g : α → α) (e : Entry α) : Entry α :=
  ⟨e.mark.rename f, f e.key, g e.value⟩

def Table.rename (f : Ref → Ref) (t : Table) : Table where
  entries := t.entries.map (Entry.rename f (Option.map f))
  grown := t.grown
  successors := t.successors.map (List.map (Entry.rename f f))

/-- The value with all references in it renamed. -/
def Value.rename (f : Ref → Ref) : Value → Value
  | .list items => .list (items.map (Option.map f))
  | .map t => .map (t.rename f)
  | v => v

theorem Mark.rename_inj (hf : Function.Injective f) {m m' : Mark} :
    m.rename f = m'.rename f ↔ m = m' := by
  cases m <;> cases m' <;> simp [rename, hf.eq_iff]

@[simp] theorem Value.isKey_rename (v : Value) : (v.rename f).isKey = v.isKey := by
  cases v <;> rfl

@[simp] theorem Value.sameKind_rename (v w : Value) :
    (v.rename f).sameKind (w.rename f) = v.sameKind w := by
  cases v <;> cases w <;> rfl

/-! ### Values that a renaming leaves alone -/

section Fixed

variable {n : Nat} (hf : ∀ r : Ref, r.index < n → f r = r)
include hf

theorem Mark.Within.rename_eq {m : Mark} (h : m.Within n) : m.rename f = m := by
  cases m with
  | notANumber c => exact congrArg Mark.notANumber (hf c h)
  | _ => rfl

theorem Live.map_eq {x : Slot} (h : Live n x) : x.map f = x := by
  obtain ⟨r, rfl, hr⟩ := h
  exact congrArg Option.some (hf r hr)

theorem Entry.rename_eq {α : Type} {g : α → α} {e : Entry α} (hm : e.mark.Within n)
    (hk : e.key.index < n) (hv : g e.value = e.value) : e.rename f g = e := by
  rw [Entry.rename, hm.rename_eq hf, hf e.key hk, hv]

theorem Table.Sound.rename_eq {t : Table} (h : t.Sound n) : t.rename f = t := by
  obtain ⟨entries, grown, successors⟩ := t
  have kept : entries.map (Entry.rename f (Option.map f)) = entries := by
    refine (map_congr_left fun e he => ?_).trans (map_id entries)
    exact Entry.rename_eq hf (h.marks e he) (h.keys e he) ((h.values e he).map_eq hf)
  have links : successors.map (List.map (Entry.rename f f)) = successors := by
    cases successors with
    | none => rfl
    | some links =>
      refine congrArg some ((map_congr_left fun e he => ?_).trans (map_id links))
      obtain ⟨⟨hk, hm⟩, hv⟩ := h.links links rfl e he
      exact Entry.rename_eq hf hm hk (hf e.value hv)
  rw [Table.rename, kept, links]

theorem Value.Sound.rename_eq {v : Value} (h : v.Sound n) : v.rename f = v := by
  cases v with
  | list items =>
    refine congrArg Value.list ((map_congr_left fun x hx => ?_).trans (map_id items))
    exact (h x hx).map_eq hf
  | map t => exact congrArg Value.map (Table.Sound.rename_eq hf h)
  | _ => rfl

end Fixed

/-! ### Stores under other names -/

namespace Store

variable {α : Type} {s t : Store}

/-- Each cell of `s` is found in `t` under its other name. -/
structure Renamed (f : Ref → Ref) (s t : Store) : Prop where
  injective : Function.Injective f
  cells : ∀ r, t.get (f r) = (s.get r).rename f

namespace Renamed

variable (h : Renamed f s t)
include h

theorem get? (x : Slot) : t.get? (x.map f) = (s.get? x).map (Value.rename f) := by
  cases x with
  | none => rfl
  | some r => exact congrArg some (h.cells r)

theorem beq (a b : Ref) : (f a == f b) = (a == b) := by
  rw [Bool.eq_iff_iff, beq_iff_eq, beq_iff_eq, h.injective.eq_iff]

theorem equal (a b : Ref) : t.equal (f a) (f b) = s.equal a b := by
  unfold Store.equal
  rw [h.cells, h.cells, h.beq]
  cases s.get a <;> cases s.get b <;> rfl

theorem alike (x y : Slot) : t.alike (x.map f) (y.map f) = s.alike x y := by
  cases x <;> cases y <;> simp [Store.alike, h.equal, h.beq]

theorem mark (k : Ref) : t.mark (f k) = (s.mark k).rename f := by
  unfold Store.mark
  rw [h.cells]
  cases s.get k with
  | num n =>
    dsimp only [Value.rename]
    cases n.residue? <;> rfl
  | _ => rfl

theorem fits (g : α → α) (m : Mark) (k : Ref) (e : Entry α) :
    t.fits (m.rename f) (f k) (e.rename f g) = s.fits m k e := by
  have alike : t.alike (some (f e.key)) (some (f k)) = s.alike (some e.key) (some k) :=
    h.alike (some e.key) (some k)
  have mark : (e.mark.rename f == m.rename f) = (e.mark == m) := by
    rw [Bool.eq_iff_iff, beq_iff_eq, beq_iff_eq, Mark.rename_inj h.injective]
  simp only [Store.fits, Entry.rename, mark, alike]

theorem find? (g : α → α) (m : Mark) (k : Ref) (es : List (Entry α)) :
    t.find? (m.rename f) (f k) (es.map (Entry.rename f g)) =
      (s.find? m k es).map (Entry.rename f g) := by
  have same : t.fits (m.rename f) (f k) ∘ Entry.rename f g = s.fits m k := funext (h.fits g m k)
  rw [Store.find?, find?_map, same, Store.find?]

theorem put (g : α → α) (k : Ref) (a : α) (es : List (Entry α)) :
    t.put (f k) (g a) (es.map (Entry.rename f g)) = (s.put k a es).map (Entry.rename f g) := by
  induction es with
  | nil =>
    rw [map_nil, Store.put, Store.put, h.mark]
    rfl
  | cons e es ih =>
    rw [map_cons, Store.put, Store.put, h.mark, h.fits, ih]
    split <;> rfl

theorem putEntry (u : Table) (k : Ref) (v : Slot) :
    Mem.putEntry t (u.rename f) (f k) (v.map f) = (Mem.putEntry s u k v).rename f := by
  have entries := h.put (Option.map f) k v u.entries
  have found := h.find? (Option.map f) (s.mark k) k u.entries
  simp only [Mem.putEntry, Table.rename, h.mark, entries, found, Option.isSome_map]

theorem value? (u : Table) (k : Ref) :
    t.value? (f k) (u.rename f).entries = (s.value? k u.entries).map (Option.map f) := by
  rw [Store.value?, Store.value?, h.mark, Table.rename, h.find?, Option.map_map, Option.map_map]
  rfl

theorem listsEqual (xs ys : List Slot) :
    Mem.listsEqual t (xs.map (Option.map f)) (ys.map (Option.map f)) = Mem.listsEqual s xs ys := by
  induction xs generalizing ys with
  | nil => cases ys <;> rfl
  | cons x xs ih =>
    cases ys with
    | nil => rfl
    | cons y ys => rw [map_cons, map_cons, Mem.listsEqual, Mem.listsEqual, h.alike, ih]

theorem mapsEqual (es es' : List (Entry Slot)) :
    Mem.mapsEqual t (es.map (Entry.rename f (Option.map f)))
      (es'.map (Entry.rename f (Option.map f))) = Mem.mapsEqual s es es' := by
  unfold Mem.mapsEqual
  rw [length_map, length_map, all_map]
  refine congrArg (and _) (congrArg es.all (funext fun e => ?_))
  have found := h.find? (Option.map f) e.mark e.key es'
  simp only [Function.comp_apply, Entry.rename] at found ⊢
  rw [found]
  cases s.find? e.mark e.key es' with
  | none => rfl
  | some e' => exact h.alike e.value e'.value

theorem isEqual (a b : Option Value) :
    Mem.isEqual t (a.map (Value.rename f)) (b.map (Value.rename f)) = Mem.isEqual s a b := by
  cases a with
  | none => cases b <;> rfl
  | some v =>
    cases b with
    | none => rfl
    | some w =>
      simp only [Option.map_some, Mem.isEqual, Value.sameKind_rename]
      refine ite_congr rfl (fun _ => rfl) fun _ => ?_
      cases v with
      | list xs =>
        cases w with
        | list ys => exact congrArg Except.ok (h.listsEqual xs ys)
        | _ => rfl
      | map u =>
        cases w with
        | map u' => exact congrArg Except.ok (h.mapsEqual u.entries u'.entries)
        | _ => rfl
      | _ => cases w <;> rfl

theorem mapKey (x : Slot) : Mem.mapKey t (x.map f) = (Mem.mapKey s x).map f := by
  cases x with
  | none => rfl
  | some k =>
    simp only [Option.map_some, Mem.mapKey, h.cells, Value.isKey_rename]
    split <;> rfl

end Renamed

end Store

theorem Mem.listPlace_rename (n : Nat) (key : Option Value) :
    Mem.listPlace n (key.map (Value.rename f)) = Mem.listPlace n key := by
  cases key with
  | none => rfl
  | some v => cases v <;> rfl

/-! ### Cells further up -/

/-- The name of a cell if `d` cells stand between the first `n` ones and the others. -/
def Ref.shift (n d : Nat) (r : Ref) : Ref := if r.index < n then r else ⟨r.index + d⟩

namespace Ref

variable {n d : Nat} {r : Ref}

theorem shift_of_lt (h : r.index < n) : r.shift n d = r := if_pos h

theorem shift_of_ge (h : n ≤ r.index) : r.shift n d = ⟨r.index + d⟩ := if_neg (Nat.not_lt.2 h)

theorem index_shift : (r.shift n d).index = if r.index < n then r.index else r.index + d := by
  unfold shift
  split <;> rfl

theorem shift_injective : Function.Injective (shift n d) := by
  intro a b h
  have index := congrArg Ref.index h
  rw [index_shift, index_shift] at index
  have same : a.index = b.index := by
    split at index <;> split at index <;> omega
  exact congrArg Ref.mk same

end Ref

namespace Store

variable {n d : Nat} {s t : Store}

/-- The second store has `d` cells more than the first one, which stand after the first `n`. -/
structure Shifted (n d : Nat) (s t : Store) : Prop where
  base : n ≤ s.cells.size
  size : t.cells.size = s.cells.size + d
  cells : ∀ r, t.get (r.shift n d) = (s.get r).rename (Ref.shift n d)

namespace Shifted

theorem renamed (h : Shifted n d s t) : Renamed (Ref.shift n d) s t := ⟨Ref.shift_injective, h.cells⟩

/-- Cells that are added first do not disturb those that were there. -/
theorem of_grows (hs : s.Sound) (h : s.Grows none t) :
    Shifted s.cells.size (t.cells.size - s.cells.size) s t := by
  refine ⟨Nat.le_refl _, (Nat.add_sub_cancel' h.size).symm, fun r => ?_⟩
  by_cases hr : r.index < s.cells.size
  · rw [Ref.shift_of_lt hr, h.kept r hr (by simp)]
    exact ((hs r).rename_eq fun _ => Ref.shift_of_lt).symm
  · have hr := Nat.not_lt.1 hr
    have far : t.cells.size ≤ r.index + (t.cells.size - s.cells.size) := by omega
    rw [Ref.shift_of_ge hr, get_of_ge far, get_of_ge hr]
    rfl

theorem index_shift_lt (h : Shifted n d s t) (r : Ref) :
    (r.shift n d).index < t.cells.size ↔ r.index < s.cells.size := by
  have base := h.base
  have size := h.size
  rw [Ref.index_shift]
  split <;> omega

theorem alloc_fst (h : Shifted n d s t) (v w : Value) :
    (t.alloc w).1 = (s.alloc v).1.shift n d := by
  have ge : n ≤ (s.alloc v).1.index := h.base
  rw [Ref.shift_of_ge ge]
  exact congrArg Ref.mk h.size

theorem alloc (h : Shifted n d s t) (v : Value) :
    Shifted n d (s.alloc v).2 (t.alloc (v.rename (Ref.shift n d))).2 := by
  refine ⟨?_, ?_, fun r => ?_⟩
  · rw [size_alloc]
    exact Nat.le_succ_of_le h.base
  · rw [size_alloc, size_alloc, h.size]
    omega
  · have new : (r.shift n d).index = t.cells.size ↔ r.index = s.cells.size := by
      have base := h.base
      have size := h.size
      rw [Ref.index_shift]
      split <;> omega
    rw [get_alloc, get_alloc, h.cells]
    by_cases hr : r.index = s.cells.size
    · rw [if_pos hr, if_pos (new.2 hr)]
    · rw [if_neg hr, if_neg fun e => hr (new.1 e)]

theorem set (h : Shifted n d s t) (c : Ref) (v : Value) :
    Shifted n d (s.set c v) (t.set (c.shift n d) (v.rename (Ref.shift n d))) := by
  refine ⟨by rw [size_set]; exact h.base, by rw [size_set, size_set, h.size], fun r => ?_⟩
  by_cases hr : r = c
  · subst hr
    by_cases lt : r.index < s.cells.size
    · rw [get_set_self lt, get_set_self ((h.index_shift_lt r).2 lt)]
    · have far : ¬(r.shift n d).index < t.cells.size := fun e => lt ((h.index_shift_lt r).1 e)
      rw [get_of_ge (by rw [size_set]; exact Nat.not_lt.1 far),
        get_of_ge (by rw [size_set]; exact Nat.not_lt.1 lt)]
      rfl
  · rw [get_set_of_ne hr, get_set_of_ne (Ref.shift_injective.ne hr), h.cells]

end Shifted

end Store

/-! ### Actions in step with each other -/

section

variable {ε σ α β γ δ : Type} {E : ε → ε → Prop} {R : σ → σ → Prop} {g : α → β} {k : γ → δ}

/-- How two actions end that are in step: both are halted, for reasons related by `E`, or the result
of the second one is what `g` makes of the result of the first one. -/
inductive InStep (E : ε → ε → Prop) (R : σ → σ → Prop) (g : α → β) :
    EStateM.Result ε σ α → EStateM.Result ε σ β → Prop
  | ok {a s t} (h : R s t) : InStep E R g (.ok a s) (.ok (g a) t)
  | error {e e' s t} (h : E e e') : InStep E R g (.error e s) (.error e' t)

theorem InStep.of_errors {r : EStateM.Result ε σ α} {r' : EStateM.Result ε σ β} {e e' : ε} {s t : σ}
    (h : r = .error e s) (h' : r' = .error e' t) (he : E e e') : InStep E R g r r' := by
  rw [h, h']
  exact .error he

def Tandem (E : ε → ε → Prop) (R : σ → σ → Prop) (g : α → β) (x : EStateM ε σ α)
    (y : EStateM ε σ β) : Prop :=
  ∀ s t, R s t → InStep E R g (x s) (y t)

namespace Tandem

variable {x : EStateM ε σ α} {y : EStateM ε σ β}

theorem pure (a : α) : Tandem E R g (Pure.pure a : EStateM ε σ α) (Pure.pure (g a)) :=
  fun _ _ h => .ok h

theorem throw {e e' : ε} (h : E e e') : Tandem E R g (throw e : EStateM ε σ α) (throw e') :=
  fun _ _ _ => .error h

theorem bind {p : α → EStateM ε σ γ} {q : β → EStateM ε σ δ} (hx : Tandem E R g x y)
    (hp : ∀ a, Tandem E R k (p a) (q (g a))) : Tandem E R k (x >>= p) (y >>= q) := by
  intro s t h
  simp only [Bind.bind, EStateM.bind]
  have ended := hx s t h
  revert ended
  generalize x s = r
  generalize y t = r'
  intro ended
  cases ended with
  | ok h => exact hp _ _ _ h
  | error he => exact .error he

theorem map {p : α → γ} {q : β → δ} (hx : Tandem E R g x y) (hp : ∀ a, q (g a) = k (p a)) :
    Tandem E R k (p <$> x) (q <$> y) := by
  refine bind hx fun a => ?_
  rw [hp]
  exact pure (p a)

theorem ite {c : Prop} [Decidable c] {x' : EStateM ε σ α} {y' : EStateM ε σ β}
    (hx : Tandem E R g x y) (hx' : Tandem E R g x' y') :
    Tandem E R g (if c then x else x') (if c then y else y') := by
  split
  · exact hx
  · exact hx'

end Tandem

end

/-! ### Actions on stores -/

namespace Mem

variable {α β : Type} {n d : Nat}

/-- The actions are in step on stores one of which has `d` cells more. -/
abbrev Shifts (n d : Nat) (g : α → β) (x : Mem α) (y : Mem β) : Prop :=
  Tandem (fun _ _ => True) (Store.Shifted n d) g x y

namespace Shifts

theorem ofExcept (g : α → β) (x : Except Failure α) :
    Shifts n d g (Mem.ofExcept x) (Mem.ofExcept (x.map g)) := by
  cases x with
  | ok a => exact fun _ _ h => .ok h
  | error e => exact fun _ _ _ => .error trivial

theorem ofExcept_id (x : Except Failure α) : Shifts n d id (Mem.ofExcept x) (Mem.ofExcept x) := by
  cases x with
  | ok a => exact fun _ _ h => .ok h
  | error e => exact fun _ _ _ => .error trivial

theorem alloc (v : Value) :
    Shifts n d (Ref.shift n d) (Mem.alloc v) (Mem.alloc (v.rename (Ref.shift n d))) := by
  intro s t h
  have fst := h.alloc_fst v (v.rename (Ref.shift n d))
  show InStep _ _ _ (.ok (s.alloc v).1 (s.alloc v).2)
    (.ok (t.alloc (v.rename (Ref.shift n d))).1 (t.alloc (v.rename (Ref.shift n d))).2)
  rw [fst]
  exact .ok (h.alloc v)

theorem read (x : Slot) : Shifts n d (Option.map (Value.rename (Ref.shift n d))) (Mem.read x)
    (Mem.read (x.map (Ref.shift n d))) := by
  intro s t h
  rw [Mem.read, Mem.read, h.renamed.get?]
  exact .ok h

theorem writeSlot (x : Slot) (v : Value) : Shifts n d id (Mem.writeSlot x v)
    (Mem.writeSlot (x.map (Ref.shift n d)) (v.rename (Ref.shift n d))) := by
  cases x with
  | none => exact .pure ()
  | some c => exact fun s t h => .ok (h.set c v)

/-! ### Operators -/

variable (a b : Slot)

theorem numbers (left right : OperandError) : Shifts n d id (Mem.numbers left right a b)
    (Mem.numbers left right (a.map (Ref.shift n d)) (b.map (Ref.shift n d))) := by
  refine .bind (read a) fun v => ?_
  cases v with
  | none => exact .throw trivial
  | some v =>
    cases v with
    | num m =>
      refine .bind (read b) fun w => ?_
      cases w with
      | none => exact .throw trivial
      | some w =>
        cases w with
        | num m' => exact .pure (m, m')
        | _ => exact .throw trivial
    | _ => exact .throw trivial

theorem sum : Shifts n d (Value.rename (Ref.shift n d)) (Mem.sum a b)
    (Mem.sum (a.map (Ref.shift n d)) (b.map (Ref.shift n d))) := by
  refine .bind (read a) fun v => ?_
  cases v with
  | none => exact .throw trivial
  | some v =>
    cases v with
    | num m =>
      refine .bind (read b) fun w => ?_
      cases w with
      | none => exact .throw trivial
      | some w =>
        cases w with
        | num m' => exact .bind (ofExcept_id _) fun k => .pure (Value.num k)
        | _ => exact .throw trivial
    | str x =>
      refine .bind (read b) fun w => ?_
      cases w with
      | none => exact .throw trivial
      | some w =>
        cases w with
        | num m' => exact .bind (ofExcept_id _) fun k => .pure (Value.str (x ++ k))
        | str y => exact .pure (Value.str (x ++ y))
        | _ => exact .throw trivial
    | _ => exact .throw trivial

theorem arithmetic (op : Number → Number → Except Failure Number) :
    Shifts n d (Value.rename (Ref.shift n d)) (Mem.arithmetic op a b)
      (Mem.arithmetic op (a.map (Ref.shift n d)) (b.map (Ref.shift n d))) :=
  .bind (numbers a b _ _) fun _ => .bind (ofExcept_id _) fun k => .pure (Value.num k)

theorem equals : Shifts n d id (Mem.equals a b)
    (Mem.equals (a.map (Ref.shift n d)) (b.map (Ref.shift n d))) := by
  intro s t h
  rw [Mem.equals, Mem.equals, get_bind, get_bind, h.renamed.get?, h.renamed.get?, h.renamed.isEqual]
  exact ofExcept_id _ s t h

theorem eq : Shifts n d (Ref.shift n d) (Mem.eq a b)
    (Mem.eq (a.map (Ref.shift n d)) (b.map (Ref.shift n d))) :=
  .bind (equals a b) fun c => alloc (.bool c)

theorem lt : Shifts n d (Ref.shift n d) (Mem.lt a b)
    (Mem.lt (a.map (Ref.shift n d)) (b.map (Ref.shift n d))) :=
  .bind (.bind (k := id) (numbers a b _ _) fun c => .pure (c.1.lt c.2)) fun c => alloc (.bool c)

theorem le : Shifts n d (Ref.shift n d) (Mem.le a b)
    (Mem.le (a.map (Ref.shift n d)) (b.map (Ref.shift n d))) :=
  .bind (.bind (k := id) (numbers a b _ _) fun c => .pure (c.1.le c.2)) fun c => alloc (.bool c)

theorem truth : Shifts n d id (Mem.truth a) (Mem.truth (a.map (Ref.shift n d))) := by
  refine .bind (read a) fun v => ?_
  cases v with
  | none => exact .throw trivial
  | some v =>
    cases v with
    | null => exact .pure false
    | bool b => exact .pure b
    | num m => exact .pure !m.isZero
    | _ => exact .throw trivial

theorem plus : Shifts n d (Option.map (Ref.shift n d)) (Mem.plus a)
    (Mem.plus (a.map (Ref.shift n d))) := by
  refine .bind (read a) fun v => ?_
  cases v with
  | none => exact .throw trivial
  | some v =>
    cases v with
    | num m => exact .pure a
    | _ => exact .throw trivial

theorem minus : Shifts n d (Ref.shift n d) (Mem.minus a) (Mem.minus (a.map (Ref.shift n d))) := by
  refine .bind (read a) fun v => ?_
  cases v with
  | none => exact .throw trivial
  | some v =>
    cases v with
    | num m => exact alloc (.num m.neg)
    | _ => exact .throw trivial

theorem not : Shifts n d (Ref.shift n d) (Mem.not a) (Mem.not (a.map (Ref.shift n d))) :=
  .bind (truth a) fun b => alloc (.bool !b)

theorem negate : Shifts n d (Option.map (Ref.shift n d)) (Mem.negate a)
    (Mem.negate (a.map (Ref.shift n d))) :=
  .bind (truth a) fun b => .bind (writeSlot a (.bool !b)) fun _ => .pure a

/-! ### Members -/

theorem setMember (c key v : Slot) : Shifts n d id (Mem.setMember c key v)
    (Mem.setMember (c.map (Ref.shift n d)) (key.map (Ref.shift n d)) (v.map (Ref.shift n d))) := by
  intro s t h
  rw [Mem.setMember, Mem.setMember, get_bind, get_bind, h.renamed.get?]
  cases s.get? c with
  | none => exact .error trivial
  | some w =>
    cases w with
    | list items =>
      simp only [Option.map_some, Value.rename]
      rw [length_map, h.renamed.get?, listPlace_rename]
      refine Tandem.bind (ofExcept_id _) (fun p => ?_) s t h
      rw [id, ← map_set]
      exact writeSlot c (.list (items.set p v))
    | map u =>
      simp only [Option.map_some, Value.rename]
      rw [h.renamed.mapKey]
      refine Tandem.bind (ofExcept (Ref.shift n d) _) (fun k => ?_) s t h
      rw [h.renamed.putEntry]
      exact writeSlot c (.map (Mem.putEntry s u k v))
    | _ => exact .error trivial

theorem member? (c key : Slot) : Shifts n d (Option.map (Option.map (Ref.shift n d)))
    (Mem.member? c key) (Mem.member? (c.map (Ref.shift n d)) (key.map (Ref.shift n d))) := by
  intro s t h
  rw [Mem.member?, Mem.member?, get_bind, get_bind, h.renamed.get?]
  cases s.get? c with
  | none => exact .error trivial
  | some w =>
    cases w with
    | list items =>
      simp only [Option.map_some, Value.rename]
      rw [length_map, h.renamed.get?, listPlace_rename]
      refine Tandem.bind (ofExcept_id _) (fun p => ?_) s t h
      rw [getElem?_map]
      exact .pure items[p]?
    | map u =>
      simp only [Option.map_some, Value.rename]
      rw [h.renamed.mapKey]
      refine Tandem.bind (ofExcept (Ref.shift n d) _) (fun k => ?_) s t h
      show Shifts n d _ (Pure.pure (s.value? k u.entries))
        (Pure.pure (t.value? (k.shift n d) (u.rename (Ref.shift n d)).entries))
      rw [h.renamed.value?]
      exact .pure (s.value? k u.entries)
    | _ => exact .error trivial

end Shifts

end Mem

end TinyScript
