import TinyScript.Proofs.LoopRuns
import TinyScript.Proofs.NameLookup
import TinyScript.Proofs.Purity

/-!
# Several names at once

A declaration or an assignment first evaluates its right sides, and then binds its names, one after
the other. If no name is written twice, all names are bound to what the right sides were before
(`assign_simultaneous`). If there is something wrong with a name, those before it stay bound
(`failed_binding`): all that is the same for declarations and assignments is said of a `Binder`.
-/

namespace TinyScript

open Exec CallStack List Eval

variable {σ ρ : Type} {m m' : Machine}
variable {x : String} {r : Ref} {s : Store} {stat : Node}

/-! ### Records after changes -/

namespace CallStack

variable {x y : String} {v : Slot} {rs : List (RecordOf σ ρ)}

theorem rebind_of_none (h : bindingOf? x rs = none) : rebind x v rs = rs := by
  induction rs with
  | nil => rfl
  | cons r rs ih =>
    cases hr : r.get? x with
    | some b => simp [bindingOf?, hr] at h
    | none =>
      rw [bindingOf?, hr] at h
      rw [rebind, hr]
      exact congrArg (r :: ·) (ih h)

theorem bindingAt?_rebind_of_ne {i : Nat} (h : ¬(i = home x rs ∧ y = x)) :
    bindingAt? (rebind x v rs) i y = bindingAt? rs i y := by
  cases hx : bindingOf? x rs with
  | none => rw [rebind_of_none hx]
  | some b => rw [bindingAt?_rebind hx, if_neg h]

/-- A change of a name does not change which records hold names. -/
theorem home_rebind : home y (rebind x v rs) = home y rs := by
  induction rs with
  | nil => rfl
  | cons r rs ih =>
    unfold home at ih ⊢
    cases hr : r.get? x with
    | none =>
      simp only [rebind, hr]
      rw [findIdx_cons, findIdx_cons, ih]
    | some b =>
      simp only [rebind, hr]
      have same : (r.set x ⟨v, b.isConst⟩).has y = r.has y := by
        unfold RecordOf.has
        rw [RecordOf.get?_set]
        by_cases e : y = x
        · rw [if_pos e, e, hr, Option.isSome_some, Option.isSome_some]
        · rw [if_neg e]
      rw [findIdx_cons, findIdx_cons, same]

theorem isConst_rebind :
    (bindingOf? y (rebind x v rs)).map (·.isConst) = (bindingOf? y rs).map (·.isConst) := by
  induction rs with
  | nil => rfl
  | cons r rs ih =>
    cases hr : r.get? x with
    | none =>
      simp only [rebind, hr, bindingOf?]
      cases r.get? y with
      | none => exact ih
      | some b => rfl
    | some b =>
      simp only [rebind, hr, bindingOf?, RecordOf.get?_set]
      by_cases e : y = x
      · rw [if_pos e, e, hr]
        rfl
      · rw [if_neg e]

end CallStack

/-! ### Binding names one after the other -/

/-- A way to bind names: what can be wrong with a name, what is done with it, and in which record. -/
structure Binder where
  issue? : String → CallStack → Option Issue
  bind : String → Slot → CallStack → CallStack
  place : String → CallStack → Nat

namespace Binder

def declaring (isConst : Bool) : Binder where
  issue? x cs := if cs.current?.any (·.has x) then some (.nameDuplicated x) else none
  bind x v cs := cs.modifyTop (·.set x ⟨v, isConst⟩)
  place _ _ := 0

def assigning : Binder where
  issue? x cs :=
    match bindingOf? x cs.records with
    | none => some (.nameNotDeclared x)
    | some b => if b.isConst then some (.nameNotAssignable x) else none
  bind x v cs := { cs with records := rebind x v cs.records }
  place x cs := home x cs.records

variable (b : Binder)

/-- The stack when names have been bound. -/
def after (cs : CallStack) : List (String × Slot) → CallStack
  | [] => cs
  | (x, v) :: xs => after (b.bind x v cs) xs

/-- There is nothing wrong with any of the names when it is its turn. -/
def Free (cs : CallStack) : List (String × Slot) → Prop
  | [] => True
  | (x, v) :: xs => b.issue? x cs = none ∧ Free (b.bind x v cs) xs

/-- Binds names up to the first one with which something is wrong. -/
def run : List (String × Position) → List Slot → Exec Unit
  | (x, p) :: xs, v :: vs => do
    match b.issue? x (← MonadState.get).stack with
    | some i => report p i
    | none =>
      modifyStack (b.bind x v)
      run xs vs
  | _, _ => pure ()

variable {b} {x : String} {p : Position} {xs : List (String × Position)} {v : Slot} {vs : List Slot}

theorem run_of_issue {i : Issue} (h : b.issue? x m.stack = some i) :
    b.run ((x, p) :: xs) (v :: vs) m = .error (.failed (.report ⟨.interpreter, p, i⟩)) m := by
  have got : (MonadState.get : Exec Machine) m = .ok m m := rfl
  rw [run, bind_of_ok got, h]
  rfl

theorem run_of_free (h : b.issue? x m.stack = none) :
    b.run ((x, p) :: xs) (v :: vs) m = b.run xs vs { m with stack := b.bind x v m.stack } := by
  have got : (MonadState.get : Exec Machine) m = .ok m m := rfl
  rw [run, bind_of_ok got, h]
  rfl

theorem run_eq_ok (hl : vs.length = xs.length) (free : b.Free m.stack ((xs.map (·.1)).zip vs)) :
    b.run xs vs m = .ok () { m with stack := b.after m.stack ((xs.map (·.1)).zip vs) } := by
  induction xs generalizing vs m with
  | nil =>
    obtain rfl := eq_nil_of_length_eq_zero hl
    rfl
  | cons xp xs ih =>
    obtain ⟨v, vs, rfl⟩ := exists_cons_of_length_eq_add_one hl
    rw [run_of_free free.1]
    exact ih (Nat.succ.inj hl) free.2

/-- Either all names are bound, or those before one with which something is wrong. -/
theorem run_cases (xs : List (String × Position)) (vs : List Slot) (hl : vs.length = xs.length)
    (m : Machine) :
    b.Free m.stack ((xs.map (·.1)).zip vs) ∧
      b.run xs vs m = .ok () { m with stack := b.after m.stack ((xs.map (·.1)).zip vs) } ∨
    ∃ done x p rest i, xs = done ++ (x, p) :: rest ∧ b.Free m.stack ((done.map (·.1)).zip vs) ∧
      b.issue? x (b.after m.stack ((done.map (·.1)).zip vs)) = some i ∧
      b.run xs vs m = .error (.failed (.report ⟨.interpreter, p, i⟩))
        { m with stack := b.after m.stack ((done.map (·.1)).zip vs) } := by
  induction xs generalizing vs m with
  | nil =>
    obtain rfl := eq_nil_of_length_eq_zero hl
    exact .inl ⟨trivial, rfl⟩
  | cons xp xs ih =>
    obtain ⟨x, p⟩ := xp
    obtain ⟨v, vs, rfl⟩ := exists_cons_of_length_eq_add_one hl
    cases h : b.issue? x m.stack with
    | some i => exact .inr ⟨[], x, p, xs, i, rfl, trivial, h, run_of_issue h⟩
    | none =>
      rw [run_of_free h]
      rcases ih vs (Nat.succ.inj hl) { m with stack := b.bind x v m.stack } with
        ⟨free, run⟩ | ⟨done, y, q, rest, i, split, free, issue, run⟩
      · exact .inl ⟨⟨h, free⟩, run⟩
      · exact .inr ⟨(x, p) :: done, y, q, rest, i, congrArg _ split, ⟨h, free⟩, issue, run⟩

end Binder

/-- Names in a tree. -/
def Node.named (xs : List (String × Position)) : List Node := xs.map fun x => .name x.1 x.2

theorem setName_eq_binder (x : String) (p : Position) (v : Slot) (m : Machine) :
    Exec.setName x p v false m =
      match Binder.assigning.issue? x m.stack with
      | some i => .error (.failed (.report ⟨.interpreter, p, i⟩)) m
      | none => .ok () { m with stack := Binder.assigning.bind x v m.stack } := by
  have got : (MonadState.get : Exec Machine) m = .ok m m := rfl
  rw [Exec.setName, bind_of_ok got]
  simp only [Binder.assigning]
  cases bindingOf? x m.stack.records with
  | none => rfl
  | some b =>
    obtain ⟨u, isConst⟩ := b
    cases isConst <;> rfl

theorem Eval.assignAll_eq_run (visit : Node → Exec Slot) (xs : List (String × Position))
    (vs : List Slot) (m : Machine) :
    assignAll visit (Node.named xs) vs m = Binder.assigning.run xs vs m := by
  induction xs generalizing vs m with
  | nil => cases vs <;> rfl
  | cons xp xs ih =>
    obtain ⟨x, p⟩ := xp
    cases vs with
    | nil => rfl
    | cons v vs =>
      have first := setName_eq_binder x p v m
      show (Exec.setName x p v false >>= fun _ => assignAll visit (Node.named xs) vs) m = _
      cases h : Binder.assigning.issue? x m.stack with
      | some i =>
        rw [h] at first
        rw [Binder.run_of_issue h, bind_of_error first]
      | none =>
        rw [h] at first
        rw [Binder.run_of_free h, bind_of_ok first, ih]

theorem Eval.declareAll_eq_run (isConst : Bool) (xs : List (String × Position)) (vs : List Slot)
    (hm : m.stack.records ≠ []) :
    declareAll isConst (Node.named xs) vs m = (Binder.declaring isConst).run xs vs m := by
  induction xs generalizing vs m with
  | nil => cases vs <;> rfl
  | cons xp xs ih =>
    obtain ⟨x, p⟩ := xp
    cases vs with
    | nil => rfl
    | cons v vs =>
      obtain ⟨r, rs, hr⟩ := exists_cons_of_ne_nil hm
      have current : (Exec.currentRecord : Exec Record) m = .ok r m := by
        have got : (MonadState.get : Exec Machine) m = .ok m m := rfl
        rw [Exec.currentRecord, bind_of_ok got, CallStackOf.current?, hr]
        rfl
      have issue : (Binder.declaring isConst).issue? x m.stack =
          if r.has x then some (.nameDuplicated x) else none := by
        simp only [Binder.declaring, CallStackOf.current?, hr, head?_cons, Option.any_some]
      have next : ((Binder.declaring isConst).bind x v m.stack).records ≠ [] := by
        simp only [Binder.declaring, CallStackOf.modifyTop, hr, ne_eq, reduceCtorEq, not_false_eq_true]
      show (Exec.currentRecord >>= fun r => if r.has x then Exec.report p (.nameDuplicated x) else
        Exec.modifyStack (·.modifyTop (·.set x ⟨v, isConst⟩)) >>= fun _ =>
          declareAll isConst (Node.named xs) vs) m = _
      rw [bind_of_ok current]
      by_cases has : r.has x = true
      · rw [if_pos has] at issue
        rw [if_pos has, Binder.run_of_issue issue]
        rfl
      · rw [if_neg has] at issue
        rw [if_neg has, Binder.run_of_free issue]
        exact ih vs next

/-! ### What is changed -/

namespace Binder

variable {b : Binder} {cs : CallStack} {x y : String} {j : Nat} {v : Slot} {xs : List (String × Slot)}

/-- Binding a name changes no other name, and this one in no other record. -/
structure Local (b : Binder) : Prop where
  frame : ∀ {x v cs j y}, ¬(j = b.place x cs ∧ y = x) →
    bindingAt? (b.bind x v cs).records j y = bindingAt? cs.records j y
  place : ∀ {x v cs y}, b.place y (b.bind x v cs) = b.place y cs

theorem local_declaring (isConst : Bool) : (declaring isConst).Local where
  frame {x v cs j y} h := by
    simp only [declaring, CallStackOf.modifyTop]
    cases hr : cs.records with
    | nil => rw [hr]
    | cons r rs =>
      cases j with
      | zero =>
        have ne : y ≠ x := fun e => h ⟨rfl, e⟩
        simp only [bindingAt?, getElem?_cons_zero, Option.bind_some, RecordOf.get?_set, if_neg ne]
      | succ j => rfl
  place := rfl

theorem local_assigning : assigning.Local where
  frame := bindingAt?_rebind_of_ne
  place := home_rebind

theorem Local.after (hb : b.Local) (h : ∀ x ∈ xs, ¬(j = b.place x.1 cs ∧ y = x.1)) :
    bindingAt? (b.after cs xs).records j y = bindingAt? cs.records j y := by
  induction xs generalizing cs with
  | nil => rfl
  | cons x xs ih =>
    obtain ⟨first, others⟩ := forall_mem_cons.1 h
    have rest : ∀ z ∈ xs, ¬(j = b.place z.1 (b.bind x.1 x.2 cs) ∧ y = z.1) := by
      intro z hz
      rw [hb.place]
      exact others z hz
    exact (ih rest).trans (hb.frame first)

/-- Only variables can be assigned to. -/
theorem issue?_assigning_eq_none :
    assigning.issue? x cs = none ↔ (bindingOf? x cs.records).map (·.isConst) = some false := by
  simp only [assigning]
  cases bindingOf? x cs.records with
  | none => simp
  | some b => cases h : b.isConst <;> simp [h]

theorem issue?_assigning_bind (x : String) (v : Slot) (h : assigning.issue? y cs = none) :
    assigning.issue? y (assigning.bind x v cs) = none :=
  issue?_assigning_eq_none.2 (isConst_rebind.trans (issue?_assigning_eq_none.1 h))

theorem free_assigning (vars : ∀ x ∈ xs, assigning.issue? x.1 cs = none) : assigning.Free cs xs := by
  induction xs generalizing cs with
  | nil => trivial
  | cons x xs ih =>
    obtain ⟨first, others⟩ := forall_mem_cons.1 vars
    exact ⟨first, ih fun z hz => issue?_assigning_bind x.1 x.2 (others z hz)⟩

/-- Variables that are pairwise different are bound to their values. -/
theorem bindingAt?_after_assigning (distinct : (xs.map (·.1)).Nodup)
    (vars : ∀ x ∈ xs, assigning.issue? x.1 cs = none) :
    ∀ x ∈ xs, bindingAt? (assigning.after cs xs).records (home x.1 cs.records) x.1 =
      some ⟨x.2, false⟩ := by
  induction xs generalizing cs with
  | nil => exact fun _ h => absurd h not_mem_nil
  | cons z zs ih =>
    rw [map_cons, nodup_cons] at distinct
    obtain ⟨new, distinct⟩ := distinct
    obtain ⟨first, others⟩ := forall_mem_cons.1 vars
    refine forall_mem_cons.2 ⟨?_, fun x hx => ?_⟩
    · have kept : ∀ x ∈ zs, ¬(home z.1 cs.records = assigning.place x.1 (assigning.bind z.1 z.2 cs) ∧
          z.1 = x.1) := by
        rintro x hx ⟨-, e⟩
        exact new (e ▸ mem_map_of_mem hx)
      refine (local_assigning.after kept).trans ?_
      obtain ⟨c, held, var⟩ := Option.map_eq_some_iff.1 (issue?_assigning_eq_none.1 first)
      exact (bindingAt?_rebind held z.2 _ _).trans (by rw [if_pos ⟨rfl, rfl⟩, var])
    · have bound := ih distinct (fun x hx => issue?_assigning_bind z.1 z.2 (others x hx)) x hx
      rwa [show home x.1 (assigning.bind z.1 z.2 cs).records = home x.1 cs.records from home_rebind]
        at bound

end Binder

/-! ### The values that names are bound to -/

/-- In the store `s`, the slots `vs` are what the expressions are in `m`, with nulls after them. -/
inductive Valued (m : Machine) (s : Store) : List Node → List Slot → Prop
  | nil {es} : Valued m s es []
  | value {e es u m' v vs} (he : Eval.Gives e m u m')
      (hv : Store.Copies m.store.cells.size m'.store u s v) (h : Valued m s es vs) :
      Valued m s (e :: es) (v :: vs)
  | null {q vs} (hq : s.get q = .null) (h : Valued m s [] vs) : Valued m s [] (some q :: vs)

/-- Either all values are found, or an expression has none. -/
theorem valuesFor_cases {t : Machine} (hm : m.Sound) (g : Grown none m t) {k count : Nat}
    {es : List Node} (he : ∀ e ∈ es.take count, e.IsExpr ∧ e.CallFree) :
    (∃ vs t', valuesFor (Eval.visit k) count es t = .ok vs t' ∧ Grown none t t' ∧
      vs.length = count ∧ Valued m t'.store es vs) ∨
    ∃ h t' e h' m', valuesFor (Eval.visit k) count es t = .error h t' ∧ t'.stack = m.stack ∧
      e ∈ es.take count ∧ Eval.visit k e m = .error h' m' ∧ h'.Like h := by
  induction count generalizing es t with
  | zero => exact .inl ⟨[], t, rfl, ⟨rfl, g.sound, .refl⟩, rfl, .nil⟩
  | succ count ih =>
    cases es with
    | nil =>
      let t₁ : Machine := { t with store := (t.store.alloc .null).2 }
      have made : (Exec.mem Mem.newNull : Exec Ref) t = .ok ⟨t.store.cells.size⟩ t₁ := rfl
      have g₁ : Grown none t t₁ := ⟨rfl, g.sound.alloc (v := .null) trivial, .alloc⟩
      have null : t₁.store.get ⟨t.store.cells.size⟩ = .null := Store.get_alloc_self ..
      unfold valuesFor
      rw [bind_of_ok made]
      have he : ∀ e ∈ ([] : List Node).take count, e.IsExpr ∧ e.CallFree := by simp
      rcases ih (g.trans g₁) he with ⟨vs, t', run, g', length, values⟩ | failed
      · have lt : t.store.cells.size < t₁.store.cells.size := by simp [t₁]
        have kept := (g'.grows.kept ⟨_⟩ lt (by simp)).trans null
        exact .inl ⟨_, t', bind_of_ok run, g₁.trans g', congrArg (· + 1) length, .null kept values⟩
      · obtain ⟨_, _, e, _, _, -, -, he, -⟩ := failed
        simp at he
    | cons e es =>
      rw [take_succ_cons] at he
      obtain ⟨⟨he, hc⟩, hes⟩ := forall_mem_cons.1 he
      unfold valuesFor
      cases visited : Eval.visit k e t with
      | error h t' =>
        obtain ⟨h', m', run, like⟩ := g.exists_visit_error hm hc visited
        have stack : t'.stack = m.stack := by
          rw [(stopped_of_visit he hc (g.machine hm) visited).stack, g.rest]
        exact .inr ⟨h, t', e, h', m', bind_of_error visited, stack, by simp, run, like⟩
      | ok v t₁ =>
        obtain ⟨u, m', run, copies⟩ := g.exists_visit hm hc visited
        have g₁ := grown_of_visit he hc (g.machine hm) visited
        rw [bind_of_ok visited]
        rcases ih (g.trans g₁) hes with ⟨vs, t', rest, g', length, values⟩ |
          ⟨h, t', e', h', m', rest, failed⟩
        · exact .inl ⟨_, t', bind_of_ok rest, g₁.trans g', congrArg (· + 1) length,
            .value ⟨k, run⟩ (copies.grow g'.grows) values⟩
        · obtain ⟨stack, mem, run, like⟩ := failed
          exact .inr ⟨h, t', e', h', m', bind_of_error rest, stack, mem_cons_of_mem _ mem, run, like⟩

theorem gives_name_of_valueOf? (h : valueOf? x m.stack.records = some r) (p : Position) :
    Eval.Gives (.name x p) m (some r) m := by
  refine ⟨1, (getName_eq x p m).trans ?_⟩
  rw [lookUp_eq, h]

theorem Valued.of_name {p : Position} {es : List Node} {v : Slot} {vs : List Slot}
    (h : Valued m s (.name x p :: es) (v :: vs)) (hm : m.Sound)
    (hx : valueOf? x m.stack.records = some r) : v = some r ∧ Valued m s es vs := by
  cases h with
  | value gives copies rest =>
    obtain ⟨rfl, rfl⟩ := gives.unique (gives_name_of_valueOf? hx p)
    exact ⟨copies.eq_of_lt (lt_of_valueOf? hm.records hx), rest⟩

theorem Valued.of_nil {v : Slot} {vs : List Slot} (h : Valued m s [] (v :: vs)) :
    ∃ q, v = some q ∧ s.get q = .null := by
  cases h with
  | null hq _ => exact ⟨_, rfl, hq⟩

theorem Valued.exists_gives {es : List Node} {vs : List Slot} (h : Valued m s es vs) :
    ∀ e ∈ es.take vs.length, ∃ v m', Eval.Gives e m v m' := by
  induction h with
  | nil => exact fun _ h => absurd h (by simp)
  | value he _ _ ih => exact forall_mem_cons.2 ⟨⟨_, _, he⟩, ih⟩
  | null _ _ _ => exact fun _ h => absurd h (by simp)

theorem exists_fuel {es : List Node} (h : ∀ e ∈ es, ∃ v m', Eval.Gives e m v m') :
    ∃ k, ∀ e ∈ es, ∃ v m', Eval.visit k e m = .ok v m' := by
  induction es with
  | nil => exact ⟨0, fun _ h => absurd h not_mem_nil⟩
  | cons e es ih =>
    obtain ⟨⟨v, m', j, first⟩, others⟩ := forall_mem_cons.1 h
    obtain ⟨k, rest⟩ := ih others
    refine ⟨max j k, forall_mem_cons.2 ⟨⟨v, m', visit_mono (Nat.le_max_left j k) first⟩, ?_⟩⟩
    intro e he
    obtain ⟨v, m', run⟩ := rest e he
    exact ⟨v, m', visit_mono (Nat.le_max_right j k) run⟩

/-- Expressions for which there is no name are not looked at. -/
theorem valuesFor_take (visit : Node → Exec Slot) (count : Nat) (es : List Node) :
    valuesFor visit count (es.take count) = valuesFor visit count es := by
  induction count generalizing es with
  | zero => rfl
  | succ count ih =>
    cases es with
    | nil => rfl
    | cons e es =>
      rw [take_succ_cons, valuesFor, valuesFor, ih]

/-! ### Declarations and assignments -/

/-- The statements that bind names to the values of expressions. -/
inductive Binds : Node → List (String × Position) → List Node → Binder → Prop
  | declare {xs inits isConst p} :
      Binds (.declare (Node.named xs) inits isConst p) xs (inits.getD []) (.declaring isConst)
  | assign {xs es p} : Binds (.assign (Node.named xs) es p) xs es .assigning

theorem Binds.isLocal {xs : List (String × Position)} {es : List Node} {b : Binder}
    (hs : Binds stat xs es b) : b.Local := by
  cases hs with
  | @declare _ _ isConst _ => exact Binder.local_declaring isConst
  | assign => exact Binder.local_assigning

/-- Names are bound only when all values have been found. -/
theorem Binds.visit_cases {xs : List (String × Position)} {es : List Node} {b : Binder}
    (hs : Binds stat xs es b) (hm : m.Sound) (ne : m.stack.records ≠ [])
    (exprs : ∀ e ∈ es.take xs.length, e.IsExpr ∧ e.CallFree) (k : Nat) :
    (∃ vs t, Grown none m t ∧ vs.length = xs.length ∧ Valued m t.store es vs ∧
      Eval.visit (k + 1) stat m = (b.run xs vs >>= fun _ => pure none) t) ∨
    ∃ h t e h' m', Eval.visit (k + 1) stat m = .error h t ∧ t.stack = m.stack ∧
      e ∈ es.take xs.length ∧ Eval.visit k e m = .error h' m' ∧ h'.Like h := by
  have length : (Node.named xs).length = xs.length := length_map ..
  obtain ⟨loop, opened, same⟩ : ∃ loop : List Slot → Exec Unit,
      Eval.visit (k + 1) stat =
        (valuesFor (Eval.visit k) xs.length es >>= loop) >>= (fun _ => pure none) ∧
      ∀ vs t, t.stack = m.stack → loop vs t = b.run xs vs t := by
    cases hs with
    | @declare _ _ isConst _ =>
      refine ⟨declareAll isConst (Node.named xs), ?_, fun vs t ht => ?_⟩
      · simp only [Eval.visit, visitWith, statement, length]
      · exact Eval.declareAll_eq_run isConst xs vs (ht ▸ ne)
    | assign =>
      refine ⟨assignAll (Eval.visit k) (Node.named xs), ?_, fun vs t _ => ?_⟩
      · simp only [Eval.visit, visitWith, statement, length]
      · exact Eval.assignAll_eq_run _ xs vs t
  rw [opened]
  rcases valuesFor_cases hm ⟨rfl, hm.store, .refl⟩ exprs (k := k) with
    ⟨vs, t, run, g, count, values⟩ | ⟨h, t, e, h', m', run, stack, mem, failed, like⟩
  · refine .inl ⟨vs, t, g, count, values, ?_⟩
    rw [bind_assoc, bind_of_ok run]
    simp only [bind, EStateM.bind, same vs t (by rw [g.rest])]
  · exact .inr ⟨h, t, e, h', m', bind_of_error (bind_of_error run), stack, mem, failed, like⟩

section Assign

variable {xs : List (String × Position)} {es : List Node} {p : Position}

theorem exists_of_mem_zip {vs : List Slot} {x : String × Slot} (h : x ∈ (xs.map (·.1)).zip vs) :
    ∃ z ∈ xs, z.1 = x.1 :=
  mem_map.1 (of_mem_zip h).1

theorem issue?_assigning_of_var (vars : ∀ x ∈ xs, ∃ v, bindingOf? x.1 m.stack.records = some ⟨v, false⟩)
    {vs : List Slot} : ∀ x ∈ (xs.map (·.1)).zip vs, Binder.assigning.issue? x.1 m.stack = none := by
  intro x hx
  obtain ⟨z, hz, e⟩ := exists_of_mem_zip hx
  obtain ⟨v, held⟩ := vars z hz
  rw [Binder.issue?_assigning_eq_none, ← e, held, Option.map_some]

/-- Where all names are variables, an assignment can fail only in an expression. -/
theorem assign_cases (hm : m.Sound) (ne : m.stack.records ≠ [])
    (vars : ∀ x ∈ xs, ∃ v, bindingOf? x.1 m.stack.records = some ⟨v, false⟩)
    (exprs : ∀ e ∈ es.take xs.length, e.IsExpr ∧ e.CallFree) (k : Nat) :
    (∃ vs t, Grown none m t ∧ vs.length = xs.length ∧ Valued m t.store es vs ∧
      Eval.visit (k + 1) (.assign (Node.named xs) es p) m = .ok none
        { t with stack := Binder.assigning.after m.stack ((xs.map (·.1)).zip vs) }) ∨
    ∃ h t e h' m', Eval.visit (k + 1) (.assign (Node.named xs) es p) m = .error h t ∧
      e ∈ es.take xs.length ∧ Eval.visit k e m = .error h' m' := by
  have binds : Binds (.assign (Node.named xs) es p) xs es .assigning := .assign
  rcases binds.visit_cases hm ne exprs k with
    ⟨vs, t, g, length, values, run⟩ | ⟨h, t, e, h', m', run, -, mem, failed, -⟩
  · have stack : t.stack = m.stack := by rw [g.rest]
    have free : Binder.assigning.Free t.stack ((xs.map (·.1)).zip vs) :=
      Binder.free_assigning (stack ▸ issue?_assigning_of_var vars)
    rw [bind_of_ok (Binder.run_eq_ok length free), stack] at run
    exact .inl ⟨vs, t, g, length, values, run⟩
  · exact .inr ⟨h, t, e, h', m', run, mem, failed⟩

/-- For variables that are pairwise different and expressions without calls, an assignment succeeds
if and only if each expression that there is a variable for has a value. Then each variable is bound,
in the record that held it, to what its expression was before, or to null if there is none; nothing
else is bound, and further expressions are not looked at. -/
theorem assign_simultaneous (hm : Reachable Node.IsProgram m)
    (distinct : (xs.map (·.1)).Nodup)
    (vars : ∀ x ∈ xs, ∃ v, bindingOf? x.1 m.stack.records = some ⟨v, false⟩)
    (exprs : ∀ e ∈ es.take xs.length, e.IsExpr ∧ e.CallFree) :
    ((∃ m', Eval.Gives (.assign (Node.named xs) es p) m none m') ↔
      ∀ e ∈ es.take xs.length, ∃ v m', Eval.Gives e m v m') ∧
    (∀ m', Eval.Gives (.assign (Node.named xs) es p) m none m' →
      m'.out = m.out ∧ m'.input = m.input ∧ m.store.Grows none m'.store ∧
      ∃ vs, vs.length = xs.length ∧ Valued m m'.store es vs ∧
        (∀ x ∈ (xs.map (·.1)).zip vs,
          bindingAt? m'.stack.records (home x.1 m.stack.records) x.1 = some ⟨x.2, false⟩) ∧
        ∀ j y, (∀ x ∈ xs, ¬(j = home x.1 m.stack.records ∧ y = x.1)) →
          bindingAt? m'.stack.records j y = bindingAt? m.stack.records j y) ∧
    ∀ es' k, es'.take xs.length = es.take xs.length →
      Eval.visit k (.assign (Node.named xs) es' p) = Eval.visit k (.assign (Node.named xs) es p) := by
  have sound := sound_of_reachable hm
  have ends := assign_cases (p := p) sound (good_of_reachable hm).records_ne_nil vars exprs
  refine ⟨⟨?_, ?_⟩, ?_, ?_⟩
  · rintro ⟨m', k, run⟩
    cases k with
    | zero => cases run
    | succ k =>
      rcases ends k with ⟨vs, t, -, length, values, -⟩ | ⟨_, _, _, _, _, failed, -⟩
      · exact length ▸ values.exists_gives
      · rw [run] at failed
        cases failed
  · intro all
    obtain ⟨k, all⟩ := exists_fuel all
    rcases ends k with ⟨vs, t, -, -, -, run⟩ | ⟨_, _, e, _, _, -, mem, failed⟩
    · exact ⟨_, k + 1, run⟩
    · obtain ⟨v, m', run⟩ := all e mem
      rw [run] at failed
      cases failed
  · rintro m' ⟨k, run⟩
    cases k with
    | zero => cases run
    | succ k =>
      rcases ends k with ⟨vs, t, g, length, values, ended⟩ | ⟨_, _, _, _, _, failed, -⟩
      · rw [run] at ended
        cases ended
        have names : ((xs.map (·.1)).zip vs).map (·.1) = xs.map (·.1) :=
          List.map_fst_zip (by rw [List.length_map, length])
        refine ⟨by rw [g.rest], by rw [g.rest], g.grows, vs, length, values, ?_, fun j y other => ?_⟩
        · exact Binder.bindingAt?_after_assigning (by rwa [names]) (issue?_assigning_of_var vars)
        · refine Binder.local_assigning.after fun x hx => ?_
          obtain ⟨z, hz, e⟩ := exists_of_mem_zip hx
          exact e ▸ other z hz
      · rw [run] at failed
        cases failed
  · intro es' k same
    cases k with
    | zero => rfl
    | succ k =>
      have length : (Node.named xs).length = xs.length := List.length_map ..
      simp only [Eval.visit, Eval.visitWith, length]
      rw [← valuesFor_take _ _ es', same, valuesFor_take]

end Assign

/-- `a, b, c = b, a` -/
def exchange : Node :=
  .assign (Node.named [("a", ⟨3, 3⟩), ("b", ⟨3, 6⟩), ("c", ⟨3, 9⟩)])
    [.name "b" ⟨3, 13⟩, .name "a" ⟨3, 16⟩] ⟨3, 11⟩

/-- `var a, c = 1, 2` and a block with `var b = 3` and the assignment. -/
def exchanging : Node :=
  .program
    [.declare (Node.named [("a", ⟨1, 5⟩), ("c", ⟨1, 8⟩)])
        (some [.number "1" true ⟨1, 12⟩, .number "2" true ⟨1, 15⟩]) false ⟨1, 1⟩,
      .block [.declare (Node.named [("b", ⟨2, 7⟩)]) (some [.number "3" true ⟨2, 11⟩]) false ⟨2, 3⟩,
        exchange] ⟨2, 1⟩]

theorem isName_of_mem_named {xs : List (String × Position)} : ∀ n ∈ Node.named xs, n.IsName := by
  intro n hn
  obtain ⟨x, -, rfl⟩ := mem_map.1 hn
  exact ⟨_, _, rfl⟩

theorem isProgram_exchanging : exchanging.IsProgram := by
  refine ⟨_, rfl, forall_mem_cons.2 ⟨.declare isName_of_mem_named ?_, ?_⟩⟩
  · exact forall_mem_cons.2 ⟨.number, forall_mem_singleton.2 .number⟩
  · refine forall_mem_singleton.2 (.block (forall_mem_cons.2 ⟨?_, ?_⟩))
    · exact .declare isName_of_mem_named (forall_mem_singleton.2 .number)
    · refine forall_mem_singleton.2 (.assign (fun n hn => (isName_of_mem_named n hn).isExpr) ?_)
      exact forall_mem_cons.2 ⟨.name, forall_mem_singleton.2 .name⟩

/-- The machine about to assign. -/
def atExchange : Machine :=
  leaves (Eval.visitCut (fun _ node _ => node matches .assign ..) 9 exchanging) (leaves Host.boot {})

theorem reachable_atExchange : Reachable Node.IsProgram atExchange :=
  (Reachable.boot [] 1 (by decide +kernel)).cut isProgram_exchanging _ 9

/-- The variables are in different records and exchange their cells; the third one gets null. -/
theorem assign_simultaneous_exchange : ∃ m' q, Eval.Gives exchange atExchange none m' ∧
    bindingAt? m'.stack.records 1 "a" = bindingAt? atExchange.stack.records 0 "b" ∧
    bindingAt? m'.stack.records 0 "b" = bindingAt? atExchange.stack.records 1 "a" ∧
    bindingAt? m'.stack.records 1 "c" = some ⟨some q, false⟩ ∧ m'.store.get q = .null := by
  have a : valueOf? "a" atExchange.stack.records = some ⟨12⟩ := by decide +kernel
  have b : valueOf? "b" atExchange.stack.records = some ⟨14⟩ := by decide +kernel
  have vars : ∀ x ∈ [("a", (⟨3, 3⟩ : Position)), ("b", ⟨3, 6⟩), ("c", ⟨3, 9⟩)],
      ∃ v, bindingOf? x.1 atExchange.stack.records = some ⟨v, false⟩ := by
    simp only [List.forall_mem_cons]
    exact ⟨⟨some ⟨12⟩, by decide +kernel⟩, ⟨some ⟨14⟩, by decide +kernel⟩, ⟨some ⟨13⟩, by decide +kernel⟩,
      fun _ h => absurd h List.not_mem_nil⟩
  have homes : home "a" atExchange.stack.records = 1 ∧ home "b" atExchange.stack.records = 0 ∧
      home "c" atExchange.stack.records = 1 := by decide +kernel
  have cells : bindingAt? atExchange.stack.records 0 "b" = some ⟨some ⟨14⟩, false⟩ ∧
      bindingAt? atExchange.stack.records 1 "a" = some ⟨some ⟨12⟩, false⟩ := by decide +kernel
  have reachable := reachable_atExchange
  -- all that is to be known of the machine has been calculated
  generalize atExchange = m at *
  have exprs : ∀ e ∈ [Node.name "b" ⟨3, 13⟩, .name "a" ⟨3, 16⟩].take 3, e.IsExpr ∧ e.CallFree :=
    List.forall_mem_cons.2 ⟨⟨.name, .name⟩, List.forall_mem_singleton.2 ⟨.name, .name⟩⟩
  have all := assign_simultaneous (p := ⟨3, 11⟩) reachable (by decide) vars exprs
  obtain ⟨m', run⟩ := all.1.2 (List.forall_mem_cons.2 ⟨⟨_, _, gives_name_of_valueOf? b _⟩,
    List.forall_mem_singleton.2 ⟨_, _, gives_name_of_valueOf? a _⟩⟩)
  obtain ⟨-, -, -, vs, length, values, bound, -⟩ := all.2.1 m' run
  obtain ⟨u, v, w, rfl⟩ := List.length_eq_three.1 length
  have sound := sound_of_reachable reachable
  obtain ⟨rfl, values₁⟩ := values.of_name sound b
  obtain ⟨rfl, values₂⟩ := values₁.of_name sound a
  obtain ⟨q, rfl, null⟩ := values₂.of_nil
  have bound₁ := bound ("a", some ⟨14⟩) (by simp)
  have bound₂ := bound ("b", some ⟨12⟩) (by simp)
  have bound₃ := bound ("c", some q) (by simp)
  rw [homes.1] at bound₁
  rw [homes.2.1] at bound₂
  rw [homes.2.2] at bound₃
  exact ⟨m', q, run, bound₁.trans cells.1.symm, bound₂.trans cells.2.symm, bound₃, null⟩

/-! ### Names that cannot be bound -/

/-- A run of the node fails. -/
def Eval.Fails (n : Node) (m : Machine) (f : Failure) (m' : Machine) : Prop :=
  ∃ k, Eval.visit k n m = .error (.failed f) m'

/-- A declaration or an assignment of names that fails has changed no name if it fails in an
expression. Otherwise there is something wrong with one of the names: those before it have been
bound, one after the other, and no others. -/
theorem failed_binding (hm : Reachable Node.IsProgram m) {stat : Node}
    {xs : List (String × Position)} {es : List Node} {b : Binder} (hs : Binds stat xs es b)
    (exprs : ∀ e ∈ es.take xs.length, e.IsExpr ∧ e.CallFree) {f : Failure}
    (run : Eval.Fails stat m f m') :
    (m'.stack = m.stack ∧ ∃ e ∈ es.take xs.length, ∃ f' m₁, Eval.Fails e m f' m₁) ∨
    ∃ done x p rest vs i, xs = done ++ (x, p) :: rest ∧ f = .report ⟨.interpreter, p, i⟩ ∧
      vs.length = xs.length ∧ Valued m m'.store es vs ∧
      b.Free m.stack ((done.map (·.1)).zip vs) ∧ b.issue? x m'.stack = some i ∧
      m'.stack = b.after m.stack ((done.map (·.1)).zip vs) ∧
      ∀ j y, (∀ z ∈ done, ¬(j = b.place z.1 m.stack ∧ y = z.1)) →
        bindingAt? m'.stack.records j y = bindingAt? m.stack.records j y := by
  obtain ⟨k, run⟩ := run
  cases k with
  | zero => cases run
  | succ k =>
    rcases hs.visit_cases (sound_of_reachable hm) (good_of_reachable hm).records_ne_nil exprs k with
      ⟨vs, t, g, length, values, ended⟩ | ⟨h, t, e, h', m₁, ended, stack, mem, failed, like⟩
    · have stack : t.stack = m.stack := by rw [g.rest]
      rw [run] at ended
      rcases Binder.run_cases (b := b) xs vs length t with
        ⟨-, bound⟩ | ⟨done, x, p, rest, i, split, free, issue, bound⟩
      · rw [bind_of_ok bound] at ended
        cases ended
      · rw [bind_of_error bound] at ended
        cases ended
        rw [stack] at free issue ⊢
        refine .inr ⟨done, x, p, rest, vs, i, split, rfl, length, values, free, issue, rfl, ?_⟩
        intro j y other
        refine hs.isLocal.after fun x hx => ?_
        obtain ⟨z, hz, e⟩ := exists_of_mem_zip hx
        exact e ▸ other z hz
    · rw [run] at ended
      cases ended
      refine .inl ⟨stack, e, mem, ?_⟩
      cases h' with
      | outOfFuel => cases like.1 rfl
      | failed f' => exact ⟨f', m₁, k, failed⟩

/-- `var a, a = 1, 2` -/
def declareTwice : Node :=
  .declare (Node.named [("a", ⟨1, 5⟩), ("a", ⟨1, 8⟩)])
    (some [.number "1" true ⟨1, 12⟩, .number "2" true ⟨1, 15⟩]) false ⟨1, 1⟩

theorem binds_declareTwice : Binds declareTwice [("a", ⟨1, 5⟩), ("a", ⟨1, 8⟩)]
    [.number "1" true ⟨1, 12⟩, .number "2" true ⟨1, 15⟩] (.declaring false) := .declare

theorem fails_declareTwice : Eval.Fails declareTwice (leaves Host.boot {})
    (.report ⟨.interpreter, ⟨1, 8⟩, .nameDuplicated "a"⟩)
    (leaves (Eval.visit 9 declareTwice) (leaves Host.boot {})) :=
  ⟨9, eq_error_of_halt? (by decide +kernel)⟩

/-- The second name is refused, and the first one stays bound. -/
theorem failed_binding_declareTwice : ∃ m' v,
    Eval.Fails declareTwice (leaves Host.boot {}) (.report ⟨.interpreter, ⟨1, 8⟩, .nameDuplicated "a"⟩) m' ∧
      m'.stack = (leaves (Host.boot : Exec Unit) {}).stack.modifyTop (·.set "a" ⟨v, false⟩) := by
  have booted : Reachable Node.IsProgram (leaves Host.boot {}) :=
    Reachable.boot [] 1 (by decide +kernel)
  have exprs : ∀ e ∈ [Node.number "1" true ⟨1, 12⟩, .number "2" true ⟨1, 15⟩].take 2,
      e.IsExpr ∧ e.CallFree :=
    List.forall_mem_cons.2 ⟨⟨.number, .number⟩, List.forall_mem_singleton.2 ⟨.number, .number⟩⟩
  have changed : (leaves (Eval.visit 9 declareTwice) (leaves Host.boot {})).stack ≠
      (leaves (Host.boot : Exec Unit) {}).stack := by decide +kernel
  have run := fails_declareTwice
  generalize leaves (Eval.visit 9 declareTwice) (leaves Host.boot {}) = m' at *
  generalize leaves (Host.boot : Exec Unit) {} = m at *
  rcases failed_binding booted binds_declareTwice exprs run with
    ⟨same, -⟩ | ⟨done, x, p, rest, vs, i, split, report, length, -, -, -, stack, -⟩
  · exact absurd same changed
  · obtain ⟨v, w, rfl⟩ := List.length_eq_two.1 length
    rcases done with _ | ⟨d, _ | ⟨d', done⟩⟩
    · cases split
      cases report
    · cases split
      exact ⟨m', v, run, stack⟩
    · have short := congrArg List.length split
      simp at short

/-- Declarations that fail do not leave all names as they were. -/
theorem not_forall_failed_binding : ¬∀ {m m' : Machine} {stat : Node}
    {xs : List (String × Position)} {es : List Node} {b : Binder} {f : Failure},
    Reachable Node.IsProgram m → Binds stat xs es b → (∀ e ∈ es, e.IsExpr ∧ e.CallFree) →
    Eval.Fails stat m f m' →
    ∀ j y, bindingAt? m'.stack.records j y = bindingAt? m.stack.records j y := by
  intro all
  have booted : Reachable Node.IsProgram (leaves Host.boot {}) :=
    Reachable.boot [] 1 (by decide +kernel)
  have exprs : ∀ e ∈ [Node.number "1" true ⟨1, 12⟩, .number "2" true ⟨1, 15⟩],
      e.IsExpr ∧ e.CallFree :=
    List.forall_mem_cons.2 ⟨⟨.number, .number⟩, List.forall_mem_singleton.2 ⟨.number, .number⟩⟩
  exact absurd (all booted binds_declareTwice exprs fails_declareTwice 0 "a") (by decide +kernel)

end TinyScript
