import TinyScript.Proofs.Places
import TinyScript.Proofs.Arithmetic

/-!
# Calculating

Declaring a variable with an arithmetic expression, on a machine that has just been started, binds it
to the exact value of the expression, or fails where the evaluation comes to a division by zero
(`interpret_arith`). A run of the tree of an expression only adds cells to the store, so that the
value of a left operand is still there when the right one has been found (`Holds.kept`).
-/

namespace TinyScript

open Exec List Eval

variable {m₁ m₂ : Machine} {v w : Int} {z : Mem Value} {e : Node} {r : Record} {rs : List Record}

/-! ### Literals -/

theorem Digits.digitRun_map {cs : List Char} (h : ∀ c ∈ cs, c.isDigit = true) (b : Bool) :
    Numeral.digitRun b cs = (cs.map fun c => c.toNat - 48, []) := by
  have hdigit {c : Char} (hc : c.isDigit = true) :
      Text.decimalValue? c = some (c.toNat - 48) := forall_digit hc (by decide)
  induction cs generalizing b with
  | nil => rfl
  | cons c cs ih =>
    rw [forall_mem_cons] at h
    simp only [Numeral.digitRun, hdigit h.1, ih h.2, map_cons]

theorem Digits.trimmed_text (d : Digits) : Numeral.trimmed d.text = d.chars := by
  have hdigit {c : Char} (hc : c.isDigit = true) : ¬Numeral.isAround c = true :=
    forall_digit hc (by decide)
  have hdrop {cs : List Char} (h : ∀ c ∈ cs, c.isDigit = true) :
      cs.dropWhile Numeral.isAround = cs := by
    cases cs with
    | nil => rfl
    | cons c cs => rw [dropWhile_cons_of_neg (hdigit (h c mem_cons_self))]
  have hrev : ∀ c ∈ d.chars.reverse, c.isDigit = true := fun c hc =>
    d.isDigit c (mem_reverse.1 hc)
  rw [Numeral.trimmed, Digits.text, String.toList_ofList, hdrop d.isDigit, hdrop hrev,
    reverse_reverse]

theorem Digits.int?_text (d : Digits) : Numeral.int? d.text = some (d.value : Int) := by
  obtain ⟨c, cs, hcs⟩ := exists_cons_of_ne_nil d.ne_nil
  have hc : c ≠ '-' ∧ c ≠ '+' :=
    forall_digit (d.isDigit c (hcs ▸ mem_cons_self)) (by decide)
  have hrun := Digits.digitRun_map d.isDigit false
  have hlen := d.length_le
  have hnosign : Numeral.sign d.chars = (false, d.chars) := by
    rw [hcs]
    unfold Numeral.sign
    split <;> simp_all
  have hvalue : Numeral.valueOf (d.chars.map fun c => c.toNat - 48) = d.value := by
    simp [Numeral.valueOf, Digits.value, Nat.ofDigitChars, foldl_map]
  unfold Numeral.int?
  rw [d.trimmed_text, hnosign]
  rw [hcs, length_cons] at hlen
  simp only [hrun]
  rw [hcs, map_cons] at hvalue ⊢
  simp only [length_map, if_pos (Nat.lt_of_succ_le hlen), hvalue, Numeral.negated]
  rfl

theorem Digits.literal_text (d : Digits) :
    literal d.text true = .ok (.num (.int d.value)) := by
  simp [literal, d.int?_text]

/-! ### Running -/

/-- From `m` to `m'` only cells were added, and one of them, in `x`, holds `v`. -/
structure Holds (m m' : Machine) (x : Slot) (v : Int) : Prop where
  value : m'.store.get? x = some (.num (.int v))
  grows : Store.Grows none m.store m'.store
  stack : m'.stack = m.stack

theorem Holds.trans {m : Machine} {x y : Slot} (h : Holds m m₁ x v) (h' : Holds m₁ m₂ y w) :
    Holds m m₂ y w :=
  ⟨h'.value, h.grows.trans h'.grows, h'.stack.trans h.stack⟩

theorem Holds.kept {m : Machine} {x y : Slot} (h : Holds m m₁ x v) (h' : Holds m₁ m₂ y w) :
    m₂.store.get? x = some (.num (.int v)) := by
  rw [h'.grows.get?, h.value]
  rintro r rfl
  refine Store.lt_of_get_ne fun hb => ?_
  have hv := h.value
  simp [Store.get?, hb] at hv

theorem holds_alloc (m : Machine) (v : Int) :
    Holds m { m with store := (m.store.alloc (.num (.int v))).2 }
      (some (m.store.alloc (.num (.int v))).1) v := by
  refine ⟨?_, .alloc, rfl⟩
  rw [Store.get?, Option.map_some, Store.get_alloc]
  exact congrArg some (if_pos rfl)

/-- The action ends with the integer `o` in a cell, or with a division by zero if there is none. -/
def Computes (x : Exec Slot) (o : Option Int) (m : Machine) : Prop :=
  wp x (fun z m' => ∃ v, o = some v ∧ Holds m m' z v)
    (fun h m' => o = none ∧ h = .failed (.fault .divisionByZero) ∧ m'.stack = m.stack) m

theorem computes_new (m : Machine) (v : Int) : Computes (new (.num (.int v))) (some v) m := by
  refine (wp_of_ok (x := new (.num (.int v))) ?_).2 ⟨v, rfl, holds_alloc m v⟩
  rfl

theorem Computes.bind {x : Exec Slot} {f : Slot → Exec Slot} {o : Option Int} {g : Int → Option Int}
    {m : Machine} (hx : Computes x o m)
    (hf : ∀ v z m₁, Holds m m₁ z v → Computes (f z) (g v) m₁) : Computes (x >>= f) (o.bind g) m := by
  refine wp_bind.2 (wp_mono hx ?_ ?_)
  · rintro z m₁ ⟨v, rfl, hz⟩
    refine wp_mono (hf v z m₁ hz) ?_ ?_
    · rintro y m₂ ⟨w, hw, hy⟩
      exact ⟨w, hw, hz.trans hy⟩
    · rintro h m₂ ⟨hnone, hh, hs⟩
      exact ⟨hnone, hh, hs.trans hz.stack⟩
  · rintro h m₁ ⟨rfl, hh⟩
    exact ⟨rfl, hh⟩

theorem Sign.computes (s : Sign) {m : Machine} {x : Slot} {a : Int}
    (hx : m.store.get? x = some (.num (.int a))) (p : Position) :
    Computes (runOp s.kind p (unaryOp? s.kind x)) (some (s.apply a)) m := by
  cases s with
  | plus =>
    have h : runOp .add p (unaryOp? .add x) m = .ok x m := by
      simp [runOp, unaryOp?, onOperand, mem, Mem.plus, Mem.read, bind, EStateM.bind, hx,
        pure, EStateM.pure]
    exact (wp_of_ok h).2 ⟨a, rfl, hx, .refl, rfl⟩
  | minus =>
    have h : runOp .sub p (unaryOp? .sub x) m = new (.num (.int (-a))) m := by
      simp [runOp, unaryOp?, onOperand, mem, Mem.minus, Mem.read, bind, EStateM.bind, hx,
        Functor.map, EStateM.map, Mem.newNum, Mem.alloc, new, Number.neg]
    exact (wp_congr h).2 (computes_new m (-a))

variable {m : Machine} {x y : Slot} {a b : Int} {p : Position} {n : Nat}

theorem Mem.sum_eq (hx : m.store.get? x = some (.num (.int a)))
    (hy : m.store.get? y = some (.num (.int b))) :
    Mem.sum x y m.store = .ok (.num (.int (a + b))) m.store := by
  simp [Mem.sum, Mem.read, bind, EStateM.bind, hx, hy, Number.add, Number.lift, Mem.ofExcept, pure,
    EStateM.pure]

theorem Mem.arithmetic_eq {f : Number → Number → Except Failure Number}
    (hx : m.store.get? x = some (.num (.int a))) (hy : m.store.get? y = some (.num (.int b))) :
    Mem.arithmetic f x y m.store = (Value.num <$> Mem.ofExcept (f (.int a) (.int b))) m.store := by
  simp [Mem.arithmetic, Mem.numbers, Mem.read, bind, EStateM.bind, hx, hy, pure, EStateM.pure,
    Functor.map, EStateM.map]

/-- An operator whose result has been found puts it in a new cell. -/
theorem runOp_eq_new (op : TokenKind) {v : Value} (h : z m.store = .ok v m.store) :
    runOp op p (some (some <$> (do Mem.alloc (← z)))) m = new v m := by
  simp [runOp, onOperand, mem, bind, EStateM.bind, Functor.map, EStateM.map, h, Mem.alloc,
    new]

theorem runOp_eq_error (op : TokenKind) {f : Fault} (h : z m.store = .error (.fault f) m.store) :
    runOp op p (some (some <$> (do Mem.alloc (← z)))) m = .error (.failed (.fault f)) m := by
  simp [runOp, onOperand, mem, bind, EStateM.bind, Functor.map, EStateM.map, h]

theorem Operation.computes (op : Operation) (hx : m.store.get? x = some (.num (.int a)))
    (hy : m.store.get? y = some (.num (.int b))) :
    Computes (runBinary op.kind x y p) (op.result? a b) m := by
  cases op with
  | add => exact (wp_congr (runOp_eq_new .add (Mem.sum_eq hx hy))).2 (computes_new m _)
  | sub => exact (wp_congr (runOp_eq_new .sub (Mem.arithmetic_eq hx hy))).2 (computes_new m _)
  | mul => exact (wp_congr (runOp_eq_new .mul (Mem.arithmetic_eq hx hy))).2 (computes_new m _)
  | div =>
    by_cases hb : b = 0
    · have h : Mem.arithmetic Number.div x y m.store = .error (.fault .divisionByZero) m.store := by
        rw [Mem.arithmetic_eq hx hy, Number.div, if_pos hb]
        rfl
      exact (wp_of_error (runOp_eq_error .div h)).2 ⟨if_pos hb, rfl, rfl⟩
    · have h : Mem.arithmetic Number.div x y m.store = .ok (.num (.int (a.fdiv b))) m.store := by
        rw [Mem.arithmetic_eq hx hy, Number.div, if_neg hb]
        rfl
      rw [Operation.result?, if_neg hb]
      exact (wp_congr (runOp_eq_new .div h)).2 (computes_new m _)

theorem Arith.computes (a : Arith) (he : e.bare = a.node) (hn : a.depth ≤ n) (m : Machine) :
    Computes (visit n e) a.value? m := by
  induction a generalizing e n m with
  | lit d =>
    obtain ⟨n, rfl⟩ : ∃ k, n = k + 1 := ⟨n - 1, by unfold depth at hn; omega⟩
    obtain ⟨q, rfl⟩ := Node.exists_of_bare_number he
    have hlit : Exec.ofExcept (literal d.text true) m = .ok (.num (.int d.value)) m := by
      rw [d.literal_text]
      rfl
    exact wp_bind.2 ((wp_of_ok hlit).2 (computes_new m d.value))
  | unary s a ih =>
    obtain ⟨n, rfl⟩ : ∃ k, n = k + 1 := ⟨n - 1, by unfold depth at hn; omega⟩
    obtain ⟨e₁, q, rfl, he₁⟩ := Node.exists_of_bare_unary he
    rw [value?, Option.map_eq_bind]
    exact (ih he₁ (Nat.le_of_succ_le_succ hn) m).bind fun v z m₁ hz => s.computes hz.value q
  | binary op a b iha ihb =>
    obtain ⟨n, rfl⟩ : ∃ k, n = k + 1 := ⟨n - 1, by unfold depth at hn; omega⟩
    obtain ⟨e₁, e₂, q, rfl, he₁, he₂⟩ := Node.exists_of_bare_binary he
    have hmax : max a.depth b.depth ≤ n := Nat.le_of_succ_le_succ hn
    refine (iha he₁ (Nat.le_trans (Nat.le_max_left ..) hmax) m).bind fun v y m₁ hy => ?_
    refine (ihb he₂ (Nat.le_trans (Nat.le_max_right ..) hmax) m₁).bind fun w z m₂ hz => ?_
    -- the right operand has left the cell of the left one as it was
    exact op.computes (hy.kept hz) hz.value

/-! ### Declaring -/

theorem interpret_declare (x : String) (e : Node) (p q : Position) :
    interpret (n + 2) (.program [.declare [.name x p] (some [e]) false q]) =
      visit n e >>= fun z => declareAll false [.name x p] [z] := by
  have hstat : visit (n + 1) (.declare [.name x p] (some [e]) false q) = statement (do
      let vs ← valuesFor (visit n) 1 [e]
      declareAll false [.name x p] vs) := rfl
  have hprogram : visit (n + 2) (.program [.declare [.name x p] (some [e]) false q]) =
      statement
        (runAll (visit (n + 1)) [.declare [.name x p] (some [e]) false q]) := rfl
  simp only [interpret, hprogram, statement, runAll, hstat, valuesFor, bind_assoc,
    pure_bind, bind_pure_unit]

/-- A name that the innermost record does not have is bound there. -/
theorem declareAll_eq {x : String} {z : Slot} {isConst : Bool} (hm : m.stack.records = r :: rs)
    (hr : r.get? x = none) :
    declareAll isConst [.name x p] [z] m =
      .ok () { m with stack := m.stack.modifyTop (·.set x ⟨z, isConst⟩) } := by
  have hcur : (currentRecord : Exec Record) m = .ok r m := by
    rw [currentRecord, bind_of_ok (x := MonadState.get) rfl, CallStackOf.current?, hm]
    rfl
  rw [declareAll, bind_of_ok hcur, if_neg (by simp [RecordOf.has, hr])]
  rfl

theorem wp_declare {a : Arith} {x : String} {q : Position} (he : e.bare = a.node) (hn : a.depth ≤ n)
    (hm : m.stack.records = r :: rs) (hr : r.get? x = none) :
    wp (interpret (n + 2) (.program [.declare [.name x p] (some [e]) false q]))
      (fun _ m' => ∃ v c, a.value? = some v ∧ m'.store.get c = .num (.int v) ∧
        CallStack.bindingOf? x m'.stack.records = some ⟨some c, false⟩)
      (fun h m' => a.value? = none ∧ h = .failed (.fault .divisionByZero) ∧ m'.stack = m.stack) m := by
  rw [interpret_declare, wp_bind]
  refine wp_mono (a.computes he hn m) ?_ fun h m' hm => hm
  rintro z m₁ ⟨v, hv, hz⟩
  obtain ⟨c, rfl, hc⟩ := Option.map_eq_some_iff.1 hz.value
  have hm₁ : m₁.stack.records = r :: rs := by rw [hz.stack, hm]
  refine (wp_of_ok (declareAll_eq hm₁ hr)).2 ⟨v, c, hv, hc, ?_⟩
  simp only [CallStackOf.modifyTop, hm₁, CallStack.bindingOf?, RecordOf.get?_set, if_true]

/-! ### A machine that has just been started -/

theorem bindAll_congr {r' : Record} {xs : List (String × Value)} {m m' : Machine}
    (h : Host.bindAll r xs m = .ok r' m') (out : String) (input : List Char) (level : Int) :
    Host.bindAll r xs { m with out := out, input := input, level := level } =
      .ok r' { m' with out := out, input := input, level := level } := by
  induction xs generalizing r m with
  | nil =>
    cases h
    rfl
  | cons x xs ih => exact ih h

/-- Entering a record succeeds if the stack can be listed where it is to be. -/
theorem enter_eq {m : Machine} (h : LogLevel.debug.shows m.level = true →
    ∃ shown, (m.stack.push r).render m.store = .ok shown) :
    ∃ out, enter r m = .ok () { m with stack := m.stack.push r, out := out } := by
  have hlist : ∀ out, ∃ out', (logStack : Exec Unit) { m with stack := m.stack.push r, out := out } =
      .ok () { m with stack := m.stack.push r, out := out' } := by
    intro out
    rw [logStack, bind_of_ok (x := MonadState.get) rfl]
    by_cases hl : LogLevel.debug.shows m.level = true
    · obtain ⟨shown, hshown⟩ := h hl
      have hlisting : (stackListing : Exec String) { m with stack := m.stack.push r, out := out } =
          .ok shown { m with stack := m.stack.push r, out := out } := by
        simp only [stackListing, hshown]
        rfl
      refine ⟨out ++ (shown ++ "\n"), ?_⟩
      rw [if_pos hl, bind_of_ok hlisting]
      rfl
    · rw [if_neg hl]
      exact ⟨out, rfl⟩
  exact hlist _

/-- Whether an action ends well with what `P` tests. -/
def endsWith {α : Type} (x : Exec α) (P : α → Machine → Bool) (m : Machine) : Bool :=
  match x m with
  | .ok a m' => P a m'
  | .error _ _ => false

theorem exists_of_endsWith {α : Type} {x : Exec α} {P : α → Machine → Bool} {m : Machine}
    (h : endsWith x P m = true) : ∃ a m', x m = .ok a m' ∧ P a m' = true := by
  cases hx : x m with
  | ok a m' =>
    rw [endsWith, hx] at h
    exact ⟨a, m', rfl, h⟩
  | error e m' =>
    rw [endsWith, hx] at h
    cases h

/-- The record of the names known from the start can be listed. -/
def startsWell (r : Record) (m : Machine) : Bool :=
  ((m.stack.push r).render m.store).isOk && m.stack.records.isEmpty &&
    r.members.map (·.1) == Host.builtins.map (·.1)

/-- The log level shows in the output only. -/
theorem exists_boot (input : List Char) (level : Int) : ∃ m r,
    (Host.boot : Exec Unit) { input := input, level := level } = .ok () m ∧
      m.stack.records = [r] ∧ m.level = level ∧ ∀ x, Host.isBuiltin x = false → r.get? x = none := by
  obtain ⟨r, m, hbind, hwell⟩ := exists_of_endsWith
    (x := Host.bindAll { name := "__global", kind := .program } Host.builtins) (P := startsWell)
    (m := {}) (by decide +kernel)
  simp only [startsWell, Bool.and_eq_true, List.isEmpty_iff, beq_iff_eq] at hwell
  obtain ⟨⟨hlisted, hempty⟩, hnames⟩ := hwell
  have hr (x : String) (hx : Host.isBuiltin x = false) : r.get? x = none := by
    refine lookup_eq_none_iff.2 fun b hb => ?_
    obtain ⟨y, hy, hyb⟩ := mem_map.1 (hnames ▸ mem_map_of_mem hb)
    have hne := any_eq_false.1 hx y hy
    rw [hyb] at hne
    exact bne_iff_ne.2 fun h => hne (beq_iff_eq.2 h.symm)
  have hlist : ∃ shown, (m.stack.push r).render m.store = .ok shown := by
    cases hs : (m.stack.push r).render m.store with
    | ok shown => exact ⟨shown, rfl⟩
    | error f =>
      rw [hs] at hlisted
      cases hlisted
  obtain ⟨out, henter⟩ := enter_eq (r := r)
    (m := { m with out := "", input := input, level := level }) fun _ => hlist
  refine ⟨_, { r with outer := m.stack.current, level := m.stack.level + 1 },
    (bind_of_ok (bindAll_congr hbind "" input level)).trans henter, ?_, rfl, hr⟩
  simp only [CallStackOf.push, hempty]

/-- Declaring a variable with an arithmetic expression on a machine that has just been started binds
it to the exact value of the expression. Only if the evaluation comes to a division by zero is the
variable not declared, and the run fails with that. -/
theorem interpret_arith (a : Arith) {cs : List Char} (hcs : Spaced a.lexemes cs) {fuel : Nat}
    (hfuel : a.depth + 2 ≤ fuel) (input : List Char) (level : Int) :
    ∃ tree m, parse ("var r = " ++ .ofList cs) = .ok tree ∧
      Host.boot { input := input, level := level } = .ok () m ∧
      (∀ v, a.value? = some v → ∃ c m', interpret fuel tree m = .ok () m' ∧
        CallStack.bindingOf? "r" m'.stack.records = some ⟨some c, false⟩ ∧
        m'.store.get c = .num (.int v)) ∧
      (a.value? = none → ∃ m', interpret fuel tree m = .error (.failed (.fault .divisionByZero)) m' ∧
        CallStack.bindingOf? "r" m'.stack.records = none) := by
  obtain ⟨ts, htok, hts⟩ := tokenize_declare hcs
  have hne : ∀ l ∈ a.lexemes, l.kind ≠ .eof := fun l hl =>
    (a.phrase_lexemes.tokens l hl).stands.spells.kind_ne_eof
  obtain ⟨p, q, e, hparse, he⟩ := Grammar.parse_declare a.written hne htok hts
  obtain ⟨m, r, hboot, hm, -, hfree⟩ := exists_boot input level
  have hr : r.get? "r" = none := hfree "r" (by decide)
  obtain ⟨n, rfl⟩ : ∃ n, fuel = n + 2 := ⟨fuel - 2, by omega⟩
  have hrun := wp_declare (x := "r") (p := p) (q := q) (he.trans a.bare_node)
    (Nat.le_of_add_le_add_right hfuel) hm hr
  refine ⟨_, m, hparse, hboot, fun v hv => ?_, fun hnone => ?_⟩
  · cases hx : interpret (n + 2) (.program [.declare [.name "r" p] (some [e]) false q]) m with
    | ok u m' =>
      obtain ⟨w, c, hw, hc, hbind⟩ := (wp_of_ok hx).1 hrun
      cases hv.symm.trans hw
      exact ⟨c, m', rfl, hbind, hc⟩
    | error h m' => cases hv.symm.trans ((wp_of_error hx).1 hrun).1
  · cases hx : interpret (n + 2) (.program [.declare [.name "r" p] (some [e]) false q]) m with
    | ok u m' =>
      obtain ⟨w, c, hw, -⟩ := (wp_of_ok hx).1 hrun
      cases hnone.symm.trans hw
    | error h m' =>
      obtain ⟨-, rfl, hs⟩ := (wp_of_error hx).1 hrun
      refine ⟨m', rfl, ?_⟩
      rw [hs, hm, CallStack.bindingOf?, hr]
      rfl

/-- `(-7)/2` -/
def belowZero : Arith :=
  .binary .div (.unary .minus (.lit ⟨['7'], by decide, by simp, by decide⟩))
    (.lit ⟨['2'], by decide, by simp, by decide⟩)

/-- `1/(2-2)` -/
def byZero : Arith :=
  .binary .div (.lit ⟨['1'], by decide, by simp, by decide⟩)
    (.binary .sub (.lit ⟨['2'], by decide, by simp, by decide⟩)
      (.lit ⟨['2'], by decide, by simp, by decide⟩))

/-- Division goes to the floor below zero too, and not by a difference that is zero. -/
theorem interpret_arith_quotients :
    (∃ tree m c m', parse "var r = (-7)/2" = .ok tree ∧ Host.boot {} = .ok () m ∧
      interpret 5 tree m = .ok () m' ∧
      CallStack.bindingOf? "r" m'.stack.records = some ⟨some c, false⟩ ∧
      m'.store.get c = .num (.int (-4))) ∧
    ∃ tree m m', parse "var r = 1/(2-2)" = .ok tree ∧ Host.boot {} = .ok () m ∧
      interpret 5 tree m = .error (.failed (.fault .divisionByZero)) m' ∧
      CallStack.bindingOf? "r" m'.stack.records = none := by
  have hbelow : "var r = " ++ String.ofList (belowZero.lexemes.flatMap Lexeme.chars) =
      "var r = (-7)/2" := by decide +kernel
  have hby : "var r = " ++ String.ofList (byZero.lexemes.flatMap Lexeme.chars) =
      "var r = 1/(2-2)" := by decide +kernel
  obtain ⟨tree, m, hparse, hboot, hvalue, -⟩ :=
    interpret_arith belowZero (.plain _) (show belowZero.depth + 2 ≤ 5 by decide) [] 1
  obtain ⟨tree', m₁, hparse', hboot', -, hnone⟩ :=
    interpret_arith byZero (.plain _) (show byZero.depth + 2 ≤ 5 by decide) [] 1
  rw [hbelow] at hparse
  rw [hby] at hparse'
  obtain ⟨c, m', hrun, hbind, hget⟩ := hvalue (-4) (by decide)
  obtain ⟨m₂, hrun', hfree⟩ := hnone (by decide)
  exact ⟨⟨tree, m, c, m', hparse, hboot, hrun, hbind, hget⟩, tree', m₁, m₂, hparse', hboot', hrun',
    hfree⟩

end TinyScript
