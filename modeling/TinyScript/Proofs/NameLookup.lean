import TinyScript.Proofs.Calculation
import TinyScript.Proofs.RunEvolution

/-!
# Where names are read and written

A name is written to in the innermost record that holds it. It is read from there too, unless it has
no value there. That happens in the records of functions only: a parameter has no value from a call
without an argument for it up to the first assignment. Until then it is read from the records
further out, as if the function had no such parameter.
-/

namespace TinyScript

open Exec CallStack List

variable {m m' : Machine} {x : String} {p : Position} {rs inner outer : List Record} {r : Record}
  {b : Binding}

/-! ### The innermost record that holds a name -/

/-- The records are split at the innermost one that holds the name. -/
structure Innermost (x : String) (rs inner : List Record) (r : Record) (b : Binding)
    (outer : List Record) : Prop where
  split : rs = inner ++ r :: outer
  free : ∀ r' ∈ inner, r'.get? x = none
  held : r.get? x = some b

theorem Innermost.top (hr : rs = r :: outer) (hx : r.get? x = some b) : Innermost x rs [] r b outer :=
  ⟨hr, fun _ h => absurd h not_mem_nil, hx⟩

theorem exists_innermost (h : ∃ r ∈ rs, r.has x = true) :
    ∃ inner r b outer, Innermost x rs inner r b outer := by
  induction rs with
  | nil =>
    obtain ⟨_, h, -⟩ := h
    cases h
  | cons r rs ih =>
    cases hr : r.get? x with
    | some b => exact ⟨[], r, b, rs, .top rfl hr⟩
    | none =>
      have inside : ∃ r ∈ rs, r.has x = true := by
        obtain ⟨r', h, has⟩ := h
        rcases mem_cons.1 h with rfl | h
        · rw [RecordOf.has, hr] at has
          cases has
        · exact ⟨r', h, has⟩
      obtain ⟨inner, r', b, outer, ⟨split, free, held⟩⟩ := ih inside
      exact ⟨r :: inner, r', b, outer, congrArg (r :: ·) split, forall_mem_cons.2 ⟨hr, free⟩, held⟩

namespace Innermost

theorem bindingOf?_eq (h : Innermost x rs inner r b outer) : bindingOf? x rs = some b := by
  obtain ⟨rfl, free, held⟩ := h
  induction inner with
  | nil => rw [nil_append, bindingOf?, held]
  | cons r' inner ih =>
    obtain ⟨absent, free⟩ := forall_mem_cons.1 free
    rw [cons_append, bindingOf?, absent]
    exact ih free

theorem rebind_eq (h : Innermost x rs inner r b outer) (v : Slot) :
    rebind x v rs = inner ++ r.set x ⟨v, b.isConst⟩ :: outer := by
  obtain ⟨rfl, free, held⟩ := h
  induction inner with
  | nil => rw [nil_append, rebind, held, nil_append]
  | cons r' inner ih =>
    obtain ⟨absent, free⟩ := forall_mem_cons.1 free
    rw [cons_append, rebind, absent, cons_append]
    exact congrArg (r' :: ·) (ih free)

theorem valueOf?_eq (h : Innermost x rs inner r b outer) (hb : b.value = none) :
    valueOf? x rs = valueOf? x outer := by
  obtain ⟨rfl, free, held⟩ := h
  induction inner with
  | nil => rw [nil_append, valueOf?, held, Option.bind_some, hb]
  | cons r' inner ih =>
    obtain ⟨absent, free⟩ := forall_mem_cons.1 free
    rw [cons_append, valueOf?, absent, Option.bind_none]
    exact ih free

end Innermost

/-- What comes of reading a name from the given records: its first value, or a report. -/
def lookUp (x : String) (p : Position) (rs : List Record) (m : Machine) :
    EStateM.Result Halt Machine Slot :=
  match rs.findSome? fun r => (r.get? x).bind (·.value) with
  | some q => .ok (some q) m
  | none => .error (.failed (.report ⟨.interpreter, p, .nameNotDeclared x⟩)) m

theorem findSome?_eq_valueOf? (x : String) (rs : List Record) :
    rs.findSome? (fun r => (r.get? x).bind (·.value)) = valueOf? x rs := by
  induction rs with
  | nil => rfl
  | cons r rs ih =>
    rw [findSome?_cons, valueOf?, ih]
    cases (r.get? x).bind (·.value) <;> rfl

theorem lookUp_eq (x : String) (p : Position) (rs : List Record) (m : Machine) :
    lookUp x p rs m = match valueOf? x rs with
      | some q => .ok (some q) m
      | none => .error (.failed (.report ⟨.interpreter, p, .nameNotDeclared x⟩)) m := by
  rw [lookUp, findSome?_eq_valueOf?]

theorem getName_eq (x : String) (p : Position) (m : Machine) :
    Exec.getName x p m = lookUp x p m.stack.records m := by
  have get : (MonadState.get : Exec Machine) m = .ok m m := rfl
  rw [Exec.getName, bind_of_ok get, lookUp_eq]
  cases valueOf? x m.stack.records <;> rfl

namespace Innermost

theorem getName_of_some {q : Ref} (h : Innermost x m.stack.records inner r b outer)
    (hb : b.value = some q) (p : Position) : Exec.getName x p m = .ok (some q) m := by
  rw [getName_eq, lookUp_eq, valueOf?_of_bindingOf? h.bindingOf?_eq hb]

theorem getName_of_none (h : Innermost x m.stack.records inner r b outer) (hb : b.value = none)
    (p : Position) : Exec.getName x p m = lookUp x p outer m := by
  rw [getName_eq, lookUp_eq, h.valueOf?_eq hb, lookUp_eq]

end Innermost

theorem setName_eq (h : bindingOf? x m.stack.records = some b) (p : Position) (v : Slot)
    (force : Bool) : Exec.setName x p v force m =
      if b.isConst && !force then
        .error (.failed (.report ⟨.interpreter, p, .nameNotAssignable x⟩)) m
      else .ok () { m with stack := { m.stack with records := rebind x v m.stack.records } } := by
  have get : (MonadState.get : Exec Machine) m = .ok m m := rfl
  rw [Exec.setName, bind_of_ok get, h]
  dsimp only
  split <;> rfl

/-! ### Parameters -/

section Calls

variable {c : Setting} {W : View} {visit : Node → Exec Slot} {args : List Node}

theorem argument_eq_none_iff {v : Slot} (hv : Visits c visit) (he : ∀ a ∈ args, c.Expr W a)
    (hm : m.Good c W) (run : Eval.argument visit args m = .ok v m') :
    m'.Good c W ∧ (v = none ↔ args = []) := by
  cases args with
  | nil =>
    cases run
    exact ⟨hm, fun _ => rfl, fun _ => rfl⟩
  | cons a args =>
    obtain ⟨he, -⟩ := forall_mem_cons.1 he
    have visited : visit a m = .ok v m' := by cases he.finds.isExpr <;> exact run
    obtain ⟨hm', -, q, rfl, -⟩ := (wp_of_ok visited).1 (hv.expr (S := []) he hm)
    exact ⟨hm', fun h => (by cases h), fun h => (by cases h)⟩

/-- The parameter at `i` has the name, and no later one has it too. -/
def IsParam (ps : List Node) (i : Nat) (x : String) : Prop :=
  (ps.filterMap Node.ident?)[i]? = some x ∧ x ∉ (ps.filterMap Node.ident?).drop (i + 1)

/-- A parameter is bound to its argument, and left without a value if there is none for it. -/
theorem bindParams_get {r' : Record} {ps : List Node} (hv : Visits c visit)
    (hp : ∀ x ∈ ps, x.IsName) (he : ∀ a ∈ args, c.Expr W a) (hm : m.Good c W)
    (run : Eval.bindParams visit r ps args m = .ok r' m') :
    (x ∉ ps.filterMap Node.ident? → r'.get? x = r.get? x) ∧
      ∀ i, IsParam ps i x → ∃ v, r'.get? x = some ⟨v, false⟩ ∧ (v = none ↔ args.length ≤ i) := by
  induction ps generalizing r args m with
  | nil =>
    cases run
    exact ⟨fun _ => rfl, fun i h => by cases h.1⟩
  | cons n ps ih =>
    obtain ⟨⟨y, q, rfl⟩, hps⟩ := forall_mem_cons.1 hp
    obtain ⟨v, m₁, first, run⟩ := exists_of_bind_eq_ok run
    obtain ⟨hm₁, filled⟩ := argument_eq_none_iff hv he hm first
    obtain ⟨other, bound⟩ := ih hps (fun a ha => he a (mem_of_mem_tail ha)) hm₁ run
    have names : (Node.name y q :: ps).filterMap Node.ident? = y :: ps.filterMap Node.ident? := rfl
    simp only [IsParam, names]
    refine ⟨fun free => ?_, fun i param => ?_⟩
    · rw [mem_cons, not_or] at free
      rw [other free.2, RecordOf.get?_set, if_neg free.1]
    obtain ⟨hi, last⟩ := param
    cases i with
    | zero =>
      cases hi
      refine ⟨v, ?_, filled.trans ?_⟩
      · rw [other last, RecordOf.get?_set, if_pos rfl]
      · rw [Nat.le_zero, length_eq_zero_iff]
    | succ i =>
      obtain ⟨w, hw, filled⟩ := bound i ⟨hi, last⟩
      refine ⟨w, hw, filled.trans ?_⟩
      rw [length_tail, Nat.sub_le_iff_le_add]

theorem callRecord_get {f : Closure} {args : Option (List Node)} (hv : Visits c visit)
    (hf : f.Parsed) (he : ∀ a ∈ args.getD [], c.Expr W a) (hm : m.Good c W)
    (run : Eval.callRecord visit f args p m = .ok r m') {i : Nat}
    (param : IsParam (f.params.getD []) i x) :
    ∃ v, r.get? x = some ⟨v, false⟩ ∧ (v = none ↔ (args.getD []).length ≤ i) := by
  obtain ⟨r₁, m₁, bound, run⟩ := exists_of_bind_eq_ok run
  obtain ⟨_, _, -, run⟩ := exists_of_bind_eq_ok run
  cases run
  exact (bindParams_get hv hf.params he hm bound).2 i param

end Calls

/-- A call made in `m` has got to the record of the function, in `m'`: the function was found and
its arguments evaluated. -/
def Calls (m : Machine) (f : Closure) (args : Option (List Node)) (r : Record) (m' : Machine) :
    Prop :=
  ∃ stop k callee p c m₁, callee.IsExpr ∧ (∀ a ∈ args.getD [], a.IsExpr) ∧
    Eval.visitCut stop k callee m = .ok (some c) m₁ ∧ m₁.store.get c = .func f ∧
    Eval.callRecord (Eval.visitCut stop k) f args p m₁ = .ok r m'

theorem Calls.get {f : Closure} {args : Option (List Node)} {i : Nat} (hm : m.Good (.free m.level) none)
    (h : Calls m f args r m') (param : IsParam (f.params.getD []) i x) :
    ∃ v, r.get? x = some ⟨v, false⟩ ∧ (v = none ↔ (args.getD []).length ≤ i) := by
  obtain ⟨stop, k, callee, p, c, m₁, hc, ha, found, func, bound⟩ := h
  have visits := visits_visitCut (Setting.closed_free m.level) (Setting.spared_free _ stop) k
  obtain ⟨hm₁, -, -⟩ := (wp_of_ok found).1 (visits.expr (S := []) (.unwatched rfl hc trivial) hm)
  have parsed : f.Parsed := by
    have sound := hm₁.store.sound c
    rwa [func] at sound
  exact callRecord_get visits parsed (fun a h => .unwatched rfl (ha a h) trivial) hm₁ bound param

/-! ### Reading and writing -/

/-- Names are written to in the innermost record that holds them, and read from there if they have
a value there. A name without a value is one of a function, no constant, and is read from the
records further out. So it is with a parameter that a call has no argument for: it reads what the
name stands for where the call is made. -/
theorem names_resolve (hm : Reachable Node.IsProgram m) (x : String) :
    ((∃ r ∈ m.stack.records, r.has x = true) →
      ∃ inner r b outer, Innermost x m.stack.records inner r b outer ∧
        (∀ p v force, Exec.setName x p v force m =
          if b.isConst && !force then
            .error (.failed (.report ⟨.interpreter, p, .nameNotAssignable x⟩)) m
          else .ok () { m with stack := { m.stack with
            records := inner ++ r.set x ⟨v, b.isConst⟩ :: outer } }) ∧
        (∀ q, b.value = some q → ∀ p, Exec.getName x p m = .ok (some q) m) ∧
        (b.value = none → r.kind = .function ∧ b.isConst = false ∧
          ∀ p, Exec.getName x p m = lookUp x p outer m)) ∧
    ∀ f args r m' i, Calls m f args r m' → IsParam (f.params.getD []) i x →
      if i < (args.getD []).length then
        ∃ q, r.get? x = some ⟨some q, false⟩ ∧
          ∀ p, Exec.getName x p { m' with stack := m'.stack.push r } =
            .ok (some q) { m' with stack := m'.stack.push r }
      else r.get? x = some ⟨none, false⟩ ∧
        ∀ p, Exec.getName x p { m' with stack := m'.stack.push r } =
          lookUp x p m'.stack.records { m' with stack := m'.stack.push r } := by
  have good := good_of_reachable hm
  refine ⟨fun held => ?_, fun f args r m' i calls param => ?_⟩
  · obtain ⟨inner, r, b, outer, h⟩ := exists_innermost held
    refine ⟨inner, r, b, outer, h, fun p v force => ?_, fun _ => h.getName_of_some, fun hb => ?_⟩
    · rw [setName_eq h.bindingOf?_eq, h.rebind_eq]
    · have mem : r ∈ m.stack.records := by
        rw [h.split]
        exact List.mem_append_right inner List.mem_cons_self
      obtain ⟨kind, var⟩ := (good.records r mem).filled x b h.held hb
      exact ⟨kind, var, h.getName_of_none hb⟩
  · obtain ⟨v, hv, filled⟩ := calls.get good param
    have top : Innermost x { m' with stack := m'.stack.push r }.stack.records []
        { r with outer := m'.stack.current, level := m'.stack.level + 1 } ⟨v, false⟩
        m'.stack.records := .top rfl hv
    cases v with
    | none =>
      rw [if_neg (Nat.not_lt.2 (filled.1 rfl))]
      exact ⟨hv, top.getName_of_none rfl⟩
    | some q =>
      rw [if_pos (Nat.not_le.1 fun h => by cases filled.2 h)]
      exact ⟨q, hv, top.getName_of_some rfl⟩

/-- `func f(a) { return a }` and `f()` after `var a = 1` -/
def unanswered : Node :=
  .program
    [.declare [.name "a" ⟨1, 5⟩] (some [.number "1" true ⟨1, 9⟩]) false ⟨1, 1⟩,
      .declare [.name "f" ⟨2, 6⟩]
        (some [.funcDef (some [.name "a" ⟨2, 8⟩]) false
          [.returnValue (.name "a" ⟨2, 20⟩) ⟨2, 13⟩] ⟨2, 1⟩]) true ⟨2, 1⟩,
      .call (.name "f" ⟨3, 1⟩) none ⟨3, 2⟩]

theorem isProgram_unanswered : unanswered.IsProgram := by
  refine ⟨_, rfl, ?_⟩
  simp only [forall_mem_cons]
  refine ⟨.declare ?_ ?_, .declare ?_ ?_, .call .name ?_, fun _ h => absurd h not_mem_nil⟩
  · exact forall_mem_singleton.2 ⟨_, _, rfl⟩
  · exact forall_mem_singleton.2 .number
  · exact forall_mem_singleton.2 ⟨_, _, rfl⟩
  · refine forall_mem_singleton.2 (.funcDef ?_ ?_)
    · exact forall_mem_singleton.2 ⟨_, _, rfl⟩
    · exact forall_mem_singleton.2 (.returnValue fun _ => .name)
  · exact fun _ h => absurd h not_mem_nil

/-- The machine about to call the function. -/
def unansweredCall : Machine :=
  leaves (Eval.visitCut (fun _ node _ => node matches .call ..) 9 unanswered) (leaves Host.boot {})

/-- The machine about to return from it. -/
def unansweredReturn : Machine :=
  leaves (Eval.visitCut (fun _ node _ => node matches .returnValue ..) 9 unanswered)
    (leaves Host.boot {})

/-- The function takes `a`, and `a` is in cell 12 when its record has been made. -/
def leavesUnfilled : Value → Machine → Bool
  | .func f, m => (f.params.getD []).filterMap Node.ident? = ["a"] ∧
    endsWith (Eval.callRecord (Eval.visit 9) f none ⟨3, 2⟩)
      (fun _ m => valueOf? "a" m.stack.records = some ⟨12⟩) m
  | _, _ => false

/-- The function reads the variable outside, when its record has been made and when it returns. -/
theorem names_resolve_unanswered :
    (∃ f r m, Calls unansweredCall f none r m ∧ r.get? "a" = some ⟨none, false⟩ ∧
      Exec.getName "a" ⟨2, 20⟩ { m with stack := m.stack.push r } =
        .ok (some ⟨12⟩) { m with stack := m.stack.push r }) ∧
    ∃ inner r outer, Innermost "a" unansweredReturn.stack.records inner r ⟨none, false⟩ outer ∧
      r.kind = .function ∧
      Exec.getName "a" ⟨2, 20⟩ unansweredReturn = .ok (some ⟨12⟩) unansweredReturn := by
  have booted : Reachable Node.IsProgram (leaves Host.boot {}) :=
    Reachable.boot [] 1 (by decide +kernel)
  have hm : Reachable Node.IsProgram unansweredCall := booted.cut isProgram_unanswered _ 9
  have hm' : Reachable Node.IsProgram unansweredReturn := booted.cut isProgram_unanswered _ 9
  refine ⟨?_, ?_⟩
  · obtain ⟨c, m₁, found, h⟩ := exists_of_endsWith (m := unansweredCall)
      (x := Eval.visit 9 (.name "f" ⟨3, 1⟩))
      (P := fun c m => c = some ⟨13⟩ ∧ leavesUnfilled (m.store.get ⟨13⟩) m) (by decide +kernel)
    obtain ⟨rfl, unfilled⟩ := of_decide_eq_true h
    cases hf : m₁.store.get ⟨13⟩ with
    | func f =>
      rw [hf] at unfilled
      obtain ⟨names, ends⟩ := of_decide_eq_true unfilled
      obtain ⟨r, m, bound, outside⟩ := exists_of_endsWith ends
      have calls : Calls unansweredCall f none r m := by
        rw [← Eval.visitCut_false] at found bound
        exact ⟨_, _, _, _, _, m₁, .name, fun _ h => absurd h List.not_mem_nil, found, hf, bound⟩
      have param : IsParam (f.params.getD []) 0 "a" := by
        rw [IsParam, names]
        decide
      obtain ⟨unfilled, reads⟩ := (names_resolve hm "a").2 f none r m 0 calls param
      refine ⟨f, r, m, calls, unfilled, ?_⟩
      rw [reads, lookUp_eq, of_decide_eq_true outside]
    | _ =>
      rw [hf] at unfilled
      cases unfilled
  · obtain ⟨inner, r, b, outer, h, -, -, reads⟩ := (names_resolve hm' "a").1 (by decide +kernel)
    have unfilled : bindingOf? "a" unansweredReturn.stack.records = some ⟨none, false⟩ := by decide +kernel
    have outside : valueOf? "a" unansweredReturn.stack.records = some ⟨12⟩ := by decide +kernel
    cases h.bindingOf?_eq.symm.trans unfilled
    obtain ⟨kind, -, reads⟩ := reads rfl
    refine ⟨inner, r, outer, h, kind, ?_⟩
    rw [reads, lookUp_eq, ← h.valueOf?_eq rfl, outside]

end TinyScript
