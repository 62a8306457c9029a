import TinyScript.Proofs.Rereading
import TinyScript.Proofs.Syntax

/-!
# Programs that are read back as they were written

In a simple program the expressions are names, literals and calls of names, so that nothing needs
parentheses, and every branch with more than one clause has an `else`, so that no clause is left out. What
is written for such a program in the loose style is read back as the program.
-/

namespace TinyScript

open Lexeme Precedence Layout
open List hiding concat

namespace Node

mutual

/-- The expression is a name, a literal other than a string, or a call of a name on such expressions. -/
def simpleExpr : Node → Bool
  | .name .. | .number .. | .bool .. | .null .. => true
  | .call callee args _ => callee.ident?.isSome && simpleArgs args
  | _ => false

def simpleExprs : List Node → Bool
  | [] => true
  | e :: es => e.simpleExpr && simpleExprs es

def simpleArgs : Option (List Node) → Bool
  | none => true
  | some es => simpleExprs es

end

mutual

/-- The statement has only simple expressions, assigns to names only, and has no branch of more than
one clause without an `else`. -/
def simple : Node → Bool
  | .empty | .breakLoop _ | .continueLoop _ => true
  | .block stats _ => simples stats
  | .declare _ inits _ _ => simpleArgs inits
  | .branch conds bodies _ =>
    simpleExprs conds && simples bodies &&
      (conds.length == 1 || conds.getLast?.any isTrue)
  | .whileLoop cond body _ => cond.simpleExpr && body.simple
  | .forRange _ start stop step body _ =>
    start.simpleExpr && stop.simpleExpr && (step.isMissing || step.simpleExpr) && body.simple
  | .assign targets sources _ => targets.all (·.ident?.isSome) && simpleExprs sources
  | .update _ target source _ => target.ident?.isSome && source.simpleExpr
  | .call callee args p => (Node.call callee args p).simpleExpr
  | _ => false

def simples : List Node → Bool
  | [] => true
  | n :: ns => n.simple && simples ns

end

@[simp] theorem simpleExprs_eq (es : List Node) : simpleExprs es = es.all simpleExpr := by
  induction es with
  | nil => rfl
  | cons e es ih => rw [simpleExprs, ih, all_cons]

@[simp] theorem simpleArgs_eq (es : Option (List Node)) : simpleArgs es = (es.getD []).all simpleExpr := by
  cases es with
  | none => rfl
  | some es => rw [simpleArgs, simpleExprs_eq, Option.getD_some]

@[simp] theorem simples_eq (ns : List Node) : simples ns = ns.all simple := by
  induction ns with
  | nil => rfl
  | cons n ns ih => rw [simples, ih, all_cons]

end Node

/-! ### Whole layouts -/

namespace Layout

variable {ls : List Layout}

theorem whole_commas (hne : ls ≠ []) (h : ∀ l ∈ ls, l.failure = none) : (commas ls).failure = none := by
  induction ls with
  | nil => exact absurd rfl hne
  | cons l ls ih =>
    rw [forall_mem_cons] at h
    cases ls with
    | nil => exact h.1
    | cons m ls =>
      rw [commas, failure_append, failure_append]
      · exact ⟨⟨h.1, rfl⟩, ih (cons_ne_nil _ _) h.2⟩
      · exact cons_ne_nil _ _

theorem whole_listed (h : ∀ l ∈ ls, l.failure = none) : (listed ls).failure = none := by
  cases ls with
  | nil => rfl
  | cons l ls => exact whole_commas (cons_ne_nil _ _) h

theorem whole_concat (h : ∀ l ∈ ls, l.failure = none) : (concat ls).failure = none := by
  induction ls with
  | nil => rfl
  | cons l ls ih =>
    rw [forall_mem_cons] at h
    exact failure_append.2 ⟨h.1, ih h.2⟩

end Layout

namespace Node

variable {st : Style}
variable {n e : Node} {cs : List (Node × Node)} {r : Role}

theorem whole_indent (st : Style) : st.indent.failure = none := (firm_indent st).whole

theorem whole_newline (st : Style) : st.newline.failure = none := (parts_newline st).whole

theorem whole_statement {a : Layout} (h : a.failure = none) : (st.statement a).failure = none := by
  rw [Style.statement, failure_append, failure_append]
  refine ⟨⟨whole_indent st, h⟩, ?_⟩
  split <;> rfl

theorem whole_lines {stats : List Node} (h : ∀ n ∈ stats, (n.layout st).failure = none) :
    (concat ((layouts st stats).map st.line)).failure = none := by
  rw [layouts_eq, map_map]
  refine whole_concat (forall_mem_map.2 fun n hn => ?_)
  exact failure_append.2 ⟨whole_statement (h n hn), whole_newline st⟩

theorem whole_body (h : ∀ st, (n.layout st).failure = none) : (writtenBody st n).failure = none := by
  rw [writtenBody, bodyLayout]
  split
  · exact failure_append.2 ⟨rfl, h _⟩
  · rw [failure_append, failure_append]
    exact ⟨⟨rfl, whole_newline st⟩, whole_statement (h _)⟩

theorem whole_later {last : Layout} (hlast : last.failure = none)
    (h : ∀ d ∈ cs, (d.1.layout st).failure = none ∧ (writtenBody st d.2).failure = none) :
    (laterClauses st last (cs.map fun d => (d.1.layout st, d.1.isTrue))
      (cs.map fun d => writtenBody st d.2)).failure = none := by
  induction cs with
  | nil => rfl
  | cons c cs ih =>
    rw [forall_mem_cons] at h
    cases cs with
    | nil =>
      simp only [map_cons, map_nil, laterClauses]
      split
      · simp only [failure_append]
        exact ⟨⟨⟨whole_newline st, whole_indent st⟩, rfl⟩, hlast⟩
      · rfl
    | cons d cs =>
      simp only [map_cons, laterClauses, failure_append]
      exact ⟨⟨⟨⟨⟨whole_newline st, whole_indent st⟩, rfl⟩, h.1.1⟩, h.1.2⟩, ih h.2⟩

/-! ### Simple expressions -/

theorem exists_name_of_ident (h : n.ident?.isSome = true) : ∃ x p, n = .name x p := by
  cases n with
  | name x p => exact ⟨x, p, rfl⟩
  | _ => cases h

/-- A simple expression is spelled by the text that is written for it. -/
theorem Formed.written_simple (h : Formed Scanned r e) (hr : r ≠ .stat) (hs : e.simpleExpr = true) :
    Written closed e e.wording ∧ e.clear = true ∧ ∀ st, (e.layout st).failure = none := by
  induction h with
  | name => exact ⟨.weaken (by decide) .name, rfl, fun _ => rfl⟩
  | @call r callee args p _ _ hne ha _ iha =>
    simp only [simpleExpr, simpleArgs_eq, Bool.and_eq_true, all_eq_true] at hs
    obtain ⟨x, q, rfl⟩ := exists_name_of_ident hs.1
    have hargs := fun a ha' => iha a ha' (by decide) (hs.2 a ha')
    have hspelt : ∀ a ∈ args.getD [], Written choice a a.wording := fun a ha' =>
      (hargs a ha').1.mono (by decide) (by decide)
    refine ⟨?_, ?_, fun st => ?_⟩
    · have hspell := @Written.call (.name x q) (args.map (List.map fun a => (a, a.wording))) p _ .name
        (by simpa using hne) ?_
      · cases args <;> simpa [wording, Function.comp_def] using hspell
      · cases args with
        | none => simp
        | some es => simpa using hspelt
    · rw [clear, clearOpt_eq, all_eq_true]
      exact fun a ha' => (hargs a ha').2.1
    · rw [layout_call]
      simp only [failure_append]
      refine ⟨⟨⟨rfl, rfl⟩, whole_listed (forall_mem_map.2 fun a ha' => ?_)⟩, rfl⟩
      exact (hargs a ha').2.2 st
  | operand hr _ ih => exact ih (by rintro rfl; simp at hr) hs
  | int => exact ⟨.literal .int, rfl, fun _ => rfl⟩
  | float => exact ⟨.literal .float, rfl, fun _ => rfl⟩
  | @bool k x p hk hx =>
    have hword : ∀ k ∈ [TokenKind.kwTrue, .kwFalse], TokenKind.ofWord k.spelling = k ∧
        k ∉ [.eof, .identifier, .intLiteral, .floatLiteral, .stringLiteral] := by decide
    obtain ⟨-, rfl⟩ := hx.stands_of (hword k hk).2
    rw [wording, (hword k hk).1]
    simp only [mem_cons, not_mem_nil, or_false] at hk
    rcases hk with rfl | rfl
    · exact ⟨.literal .true, rfl, fun _ => rfl⟩
    · exact ⟨.literal .false, rfl, fun _ => rfl⟩
  | otherwise => exact ⟨.literal .true, rfl, fun _ => rfl⟩
  | null => exact ⟨.literal .null, rfl, fun _ => rfl⟩
  | item | field | funcDef | listOf | mapOf | setOf | select | binary | unary | string => cases hs
  | _ => exact absurd rfl hr

/-! ### Simple statements -/

/-- All clauses after the first are written if the last one is an `else`. -/
theorem later_of_isTrue {α : Type} {cs : List (Node × α)} (h : ∀ d ∈ cs.getLast?, d.1.isTrue = true) :
    later (fun c b => [(id c, b)]) (fun c b => [(c, b)]) cs = cs := by
  induction cs with
  | nil => rfl
  | cons c cs ih =>
    cases cs with
    | nil => simp [later, h c rfl]
    | cons d cs => rw [later, ih h]; rfl

theorem mem_later_exprs
    (h : e ∈ later (fun c es => c :: es) (fun _ es => es) (cs.map fun d => (d.1, d.2.exprs))) :
    ∃ d ∈ cs, e = d.1 ∨ e ∈ d.2.exprs := by
  induction cs with
  | nil => simp [later] at h
  | cons c cs ih =>
    cases cs with
    | nil =>
      simp only [map_cons, map_nil, later] at h
      split at h
      · exact ⟨c, mem_cons_self, .inr h⟩
      · exact absurd h not_mem_nil
    | cons d cs =>
      simp only [map_cons, later, mem_append, mem_cons] at h
      rcases h with h | h
      · exact ⟨c, mem_cons_self, h⟩
      · obtain ⟨d', hd', h⟩ := ih h
        exact ⟨d', mem_cons_of_mem _ hd', h⟩

theorem whole_exprs {es : List Node} (hne : es ≠ []) (h : ∀ e ∈ es, Formed Scanned .expr e)
    (hs : ∀ e ∈ es, e.simpleExpr = true) : (commas (es.map (layout st))).failure = none :=
  whole_commas (by simpa using hne)
    (forall_mem_map.2 fun e he => ((h e he).written_simple (by decide) (hs e he)).2.2 st)

/-- A simple statement can be written, its expressions are simple, and it rereads as it is. -/
theorem Formed.simple {x : Node} (h : Formed Scanned r x) (hr : r = .stat) (hs : x.simple = true) :
    (∀ st, (x.layout st).failure = none) ∧
      (∀ e ∈ x.exprs, Formed Scanned .expr e ∧ e.simpleExpr = true) ∧ x.reread id = x := by
  induction h with
  | empty | breakLoop | continueLoop => exact ⟨fun _ => rfl, by simp [exprs], rfl⟩
  | @block stats p he h ih =>
    simp only [Node.simple, simples_eq, all_eq_true] at hs
    refine ⟨fun st => ?_, ?_, ?_⟩
    · rw [layout]
      simp only [failure_append]
      exact ⟨⟨⟨⟨rfl, whole_newline st⟩, whole_lines fun n hn => (ih n hn rfl (hs n hn)).1 _⟩,
        whole_indent st⟩, rfl⟩
    · rw [exprs, exprsAll_eq]
      intro e he
      obtain ⟨n, hn, he⟩ := mem_flatMap.1 he
      exact (ih n hn rfl (hs n hn)).2.1 e he
    · rw [reread, rereads_eq, map_congr_left fun n hn => (ih n hn rfl (hs n hn)).2.2, map_id']
  | @declare names inits isConst p hne hn hin hi =>
    simp only [Node.simple, simpleArgs_eq, all_eq_true] at hs
    refine ⟨fun st => ?_, fun e he => ⟨hi e he, hs e he⟩, by simp [reread]⟩
    rw [layout_declare st hin, failure_append, failure_append]
    refine ⟨⟨rfl, whole_commas (by simpa using hne) (forall_mem_map.2 fun n hmem => ?_)⟩, ?_⟩
    · rw [((hn n hmem).lays st).2]
      exact ((hn n hmem).lays st).1.whole
    · cases inits with
      | none => rfl
      | some es => exact failure_append.2 ⟨rfl, whole_exprs (fun he => hin (he ▸ rfl)) hi hs⟩
  | @branch conds bodies p hlen hne hconds hb hshut ihc ihb =>
    obtain ⟨c, cs, rfl, rfl⟩ := exists_clauses hlen hne
    simp only [Node.simple, simpleExprs_eq, simples_eq, Bool.and_eq_true, all_map, all_eq_true,
      Function.comp_apply] at hs
    rw [forall_mem_map] at hconds ihb
    have hbody := fun d hd => ihb d hd rfl (hs.1.2 d hd)
    have hlast : ∀ d ∈ cs.getLast?, d.1.isTrue = true := by
      rcases eq_nil_or_concat cs with rfl | ⟨ds, d, rfl⟩
      · simp
      · have hl := hs.2
        rw [concat_eq_append, ← cons_append, map_append, map_singleton,
          getLast?_concat] at hl
        simpa using hl
    refine ⟨fun st => ?_, ?_, ?_⟩
    · have hclause : ∀ d ∈ c :: cs, (d.1.layout st).failure = none ∧ (writtenBody st d.2).failure = none :=
        fun d hd => ⟨((hconds d hd).written_simple (by decide) (hs.1.1 d hd)).2.2 st,
          whole_body (hbody d hd).1⟩
      rw [layout_branch]
      simp only [failure_append]
      refine ⟨⟨⟨rfl, (hclause c mem_cons_self).1⟩, (hclause c mem_cons_self).2⟩,
        whole_later ?_ fun d hd => hclause d (mem_cons_of_mem _ hd)⟩
      obtain ⟨d, hd, heq⟩ : ∃ d ∈ c :: cs,
          writtenBody st d.2 = (cs.map fun d => writtenBody st d.2).getLastD (writtenBody st c.2) := by
        rcases eq_nil_or_concat cs with rfl | ⟨ds, d, rfl⟩
        · exact ⟨c, mem_cons_self, rfl⟩
        · exact ⟨d, by simp, by simp [getLastD_eq_getLast?]⟩
      rw [← heq]
      exact (hclause d hd).2
    · have hclause : ∀ d ∈ c :: cs, ∀ e, e = d.1 ∨ e ∈ d.2.exprs →
          Formed Scanned .expr e ∧ e.simpleExpr = true := by
        rintro d hd e (rfl | he)
        · exact ⟨hconds d hd, hs.1.1 d hd⟩
        · exact (hbody d hd).2.1 e he
      rw [exprs_branch, forall_mem_cons, forall_mem_append]
      refine ⟨hclause c mem_cons_self _ (.inl rfl), fun e he => ?_, fun e he => ?_⟩
      · exact hclause c mem_cons_self e (.inr he)
      · obtain ⟨d, hd, he⟩ := mem_later_exprs he
        exact hclause d (mem_cons_of_mem _ hd) e he
    · have hsame : (cs.map fun d => (d.1, d.2.reread id)) = cs := by
        rw [map_congr_left fun d hd =>
          congrArg (Prod.mk d.1) (hbody d (mem_cons_of_mem _ hd)).2.2]
        exact map_id' cs
      rw [reread_branch, hsame, (hbody c mem_cons_self).2.2, later_of_isTrue hlast]
      rfl
  | @whileLoop cond body p hcond hbody _ ih =>
    simp only [Node.simple, Bool.and_eq_true] at hs
    obtain ⟨hwhole, hexprs, hreread⟩ := ih rfl hs.2
    refine ⟨fun st => ?_, ?_, ?_⟩
    · rw [layout_whileLoop, failure_append, failure_append]
      exact ⟨⟨rfl, (hcond.written_simple (by decide) hs.1).2.2 st⟩, whole_body hwhole⟩
    · exact forall_mem_cons.2 ⟨⟨hcond, hs.1⟩, hexprs⟩
    · rw [reread, hreread]
      rfl
  | @forRange var start stop step body p hv hstart hstop hstep hb _ _ _ ih =>
    simp only [Node.simple, Bool.and_eq_true, Bool.or_eq_true] at hs
    obtain ⟨hwhole, hexprs, hreread⟩ := ih rfl hs.2
    have hstep' : ∀ e ∈ (if step.isMissing then [] else [step]),
        Formed Scanned .expr e ∧ e.simpleExpr = true := by
      cases hmissing : step.isMissing with
      | true => simp
      | false =>
        have hne : step ≠ .missing := by
          rintro rfl
          cases hmissing
        simpa using ⟨hstep hne, by simpa [hmissing] using hs.1.2⟩
    refine ⟨fun st => ?_, ?_, ?_⟩
    · rw [layout_forRange]
      simp only [failure_append]
      refine ⟨⟨⟨⟨⟨⟨⟨rfl, (hv.lays st).1.whole⟩, rfl⟩, (hstart.written_simple (by decide) hs.1.1.1).2.2 st⟩, rfl⟩,
        (hstop.written_simple (by decide) hs.1.1.2).2.2 st⟩, ?_⟩, whole_body hwhole⟩
      split
      · rfl
      · rename_i hmissing
        obtain ⟨hformed, hsimple⟩ := hstep' step (by simp [hmissing])
        exact failure_append.2 ⟨rfl, (hformed.written_simple (by decide) hsimple).2.2 st⟩
    · rw [exprs, forall_mem_cons, forall_mem_cons, forall_mem_append]
      exact ⟨⟨hstart, hs.1.1.1⟩, ⟨hstop, hs.1.1.2⟩, hstep', hexprs⟩
    · rw [reread, hreread]
      cases step <;> rfl
  | @assign targets sources p hne ht hsn h _ ihs =>
    simp only [Node.simple, simpleExprs_eq, Bool.and_eq_true, all_eq_true] at hs
    refine ⟨fun st => ?_, fun e he => ⟨h e he, hs.2 e he⟩, by simp [reread]⟩
    rw [layout_assign st hsn, failure_append, failure_append]
    refine ⟨whole_commas (by simpa using hne) (forall_mem_map.2 fun e he => ?_), rfl, whole_exprs hsn h hs.2⟩
    obtain ⟨y, q, rfl⟩ := exists_name_of_ident (hs.1 e he)
    rfl
  | @update op target source p hop ho ht h =>
    simp only [Node.simple, Bool.and_eq_true] at hs
    refine ⟨fun st => ?_, forall_mem_singleton.2 ⟨h, hs.2⟩, rfl⟩
    obtain ⟨y, q, rfl⟩ := exists_name_of_ident hs.1
    rw [layout]
    simp only [failure_append]
    exact ⟨⟨rfl, rfl⟩, (h.written_simple (by decide) hs.2).2.2 st⟩
  | callStat h =>
    cases h with
    | @call r callee args p hrole hcallee hne ha =>
      have hcall : Formed Scanned .call (.call callee args p) := .call hrole hcallee hne ha
      refine ⟨(hcall.written_simple (by decide) hs).2.2, fun e he => ⟨ha e he, ?_⟩, by simp [reread]⟩
      simp only [Node.simple, simpleExpr, simpleArgs_eq, Bool.and_eq_true, all_eq_true] at hs
      exact hs.2 e he
  | switch | repeatUntil | forEach | returnValue => cases hs
  | _ => cases hr

end Node

/-- A program of at least one statement, all of them simple. -/
def Node.simpleProgram : Node → Bool
  | .program stats => !stats.isEmpty && stats.all simple
  | _ => false

/-- What is written for a simple program in the loose style is read back as the program. -/
theorem parse_format_loose {src : String} {tree : Node} (h : parse src = .ok tree)
    (hs : tree.simpleProgram = true) : (format false tree).failure = none ∧
      ∃ t, parse (format false tree).text = .ok t ∧ t.bare = tree.bare := by
  obtain ⟨-, stats, rfl, hformed⟩ := formed_of_parse h
  simp only [Node.simpleProgram, Bool.and_eq_true, Bool.not_eq_true', List.isEmpty_eq_false_iff,
    List.all_eq_true] at hs
  have hsimple := fun n hn => (hformed.formed n hn).simple rfl (hs.2 n hn)
  have hwhole : (format false (.program stats)).failure = none :=
    Node.whole_lines fun n hn => (hsimple n hn).1 _
  have hexprs : ∀ e ∈ (Node.program stats).exprs, Written closed e e.wording ∧ e.clear = true := by
    rw [Node.exprs, Node.exprsAll_eq]
    intro e he
    obtain ⟨n, hn, he⟩ := List.mem_flatMap.1 he
    obtain ⟨hformed, hsimple⟩ := (hsimple n hn).2.1 e he
    have hwritten := hformed.written_simple (by decide) hsimple
    exact ⟨hwritten.1, hwritten.2.1⟩
  obtain ⟨t, ht, hbare⟩ := hformed.exists_parse hs.1 hwhole (fun e he => (hexprs e he).2)
    (f := id) (fun e he => (hexprs e he).1.mono (by decide) (by decide)) (by simp)
  refine ⟨hwhole, t, ht, ?_⟩
  rw [hbare, Node.reread, Node.rereads_eq, List.map_congr_left fun n hn => (hsimple n hn).2.2,
    List.map_id']

/-- An `else` of an inner branch and one of an outer branch, bodies with and without braces. -/
def nestedBranches : String :=
  "if a : if f(b, 1) : x, y = y, x elif true \x7b const k, l = null \x7d else ; else while c : for i is 1, 2.5, n \x7b z -= g() ; break \x7d"

theorem parse_format_loose_nestedBranches :
    parse nestedBranches = .ok (treeOf nestedBranches) ∧
      (treeOf nestedBranches).simpleProgram = true ∧
      (format false (treeOf nestedBranches)).failure = none ∧
      ∃ t, parse (format false (treeOf nestedBranches)).text = .ok t ∧
        t.bare = (treeOf nestedBranches).bare := by
  have hparse : parse nestedBranches = .ok (treeOf nestedBranches) := parse_eq_treeOf (by decide +kernel)
  have hsimple : (treeOf nestedBranches).simpleProgram = true := by decide +kernel
  exact ⟨hparse, hsimple, parse_format_loose hparse hsimple⟩

end TinyScript
