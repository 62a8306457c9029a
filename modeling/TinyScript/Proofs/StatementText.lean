import TinyScript.Proofs.Phrases
import TinyScript.Proofs.Spelling

/-!
# The text of statements

What the formatter writes for a statement reads as `Node.tokens`, in either style: in the tight style a
semicolon comes after each statement, also after one that is the body of a branch or loop. Of the clauses
after the first, `Node.later` says which ones are written: all but the last as `elif`, and the last as
`else` if its condition is the literal `true`. A last clause with another condition is not written.
-/

namespace TinyScript

open Lexeme Precedence
open List hiding concat nil

variable {stats : List Node} {t : Bool}

namespace Node

variable {n e body x : Node} {cs : List (Node × Node)} {last : Layout} {p : Position} {r : Role}

/-- What comes from the clauses after the first, as far as they are written. -/
def later {α β : Type} (elif els : Node → α → List β) : List (Node × α) → List β
  | [] => []
  | [(c, b)] => if c.isTrue then els c b else []
  | (c, b) :: d :: cs => elif c b ++ later elif els (d :: cs)

/-- What ends a statement in a style. -/
def closing (tight : Bool) : List Lexeme := if tight then [of .semi] else []

/-- The tokens of the body `n` of a branch or loop; `w` are those of `n` itself. -/
def bodyTokens (tight : Bool) (n : Node) (w : List Lexeme) : List Lexeme :=
  if n.isBlock then w else of .colon :: (w ++ closing tight)

mutual

/-- The tokens of the text that a statement is written as. -/
def tokens (tight : Bool) : Node → List Lexeme
  | .empty => [of .semi]
  | .program stats => lines tight stats
  | .block stats _ => of .lbrace :: (lines tight stats ++ [of .rbrace])
  | .declare names inits isConst _ =>
    of (if isConst then .kwConst else .kwVar) :: (Lexeme.commas (names.map wording) ++
      inits.elim [] fun es => of .assign :: Lexeme.commas (es.map wording))
  | .branch conds bodies _ =>
    match conds.zip (bodiesTokens tight bodies) with
    | [] => []
    | (c, b) :: cs => of .kwIf :: (c.wording ++ (b ++
      later (fun c b => of .kwElif :: (c.wording ++ b)) (fun _ b => of .kwElse :: b) cs))
  | .whileLoop cond body _ =>
    of .kwWhile :: (cond.wording ++ bodyTokens tight body (body.tokens tight))
  | .forRange var start stop step body _ =>
    of .kwFor :: (var.wording ++ of .kwIs :: (start.wording ++ of .comma :: (stop.wording ++
      ((if step.isMissing then [] else of .comma :: step.wording) ++
        bodyTokens tight body (body.tokens tight)))))
  | .breakLoop _ => [of .kwBreak]
  | .continueLoop _ => [of .kwContinue]
  | .assign targets sources _ =>
    Lexeme.commas (targets.map wording) ++ of .assign :: Lexeme.commas (sources.map wording)
  | .update op target source _ => target.wording ++ of op :: source.wording
  | .call callee args _ =>
    callee.wording ++ of .lparen :: (Lexeme.commas ((args.getD []).map wording) ++ [of .rparen])
  | _ => []
termination_by structural n => n

/-- The tokens of statements one after the other. -/
def lines (tight : Bool) : List Node → List Lexeme
  | [] => []
  | n :: ns => n.tokens tight ++ closing tight ++ lines tight ns
termination_by structural ns => ns

def bodiesTokens (tight : Bool) : List Node → List (List Lexeme)
  | [] => []
  | n :: ns => bodyTokens tight n (n.tokens tight) :: bodiesTokens tight ns
termination_by structural ns => ns

end

mutual

/-- The expressions that are written for a statement. -/
def exprs : Node → List Node
  | .program stats => exprsAll stats
  | .block stats _ => exprsAll stats
  | .declare _ inits _ _ => inits.getD []
  | .branch conds bodies _ =>
    match conds.zip (exprsEach bodies) with
    | [] => []
    | (c, es) :: cs => c :: (es ++ later (fun c es => c :: es) (fun _ es => es) cs)
  | .whileLoop cond body _ => cond :: body.exprs
  | .forRange _ start stop step body _ =>
    start :: stop :: ((if step.isMissing then [] else [step]) ++ body.exprs)
  | .assign _ sources _ => sources
  | .update _ _ source _ => [source]
  | .call _ args _ => args.getD []
  | _ => []
termination_by structural n => n

def exprsAll : List Node → List Node
  | [] => []
  | n :: ns => n.exprs ++ exprsAll ns
termination_by structural ns => ns

def exprsEach : List Node → List (List Node)
  | [] => []
  | n :: ns => n.exprs :: exprsEach ns
termination_by structural ns => ns

end

theorem lines_eq (tight : Bool) (ns : List Node) :
    lines tight ns = ns.flatMap fun n => n.tokens tight ++ closing tight := by
  induction ns with
  | nil => rfl
  | cons n ns ih => rw [lines, ih, flatMap_cons]

theorem bodiesTokens_eq (tight : Bool) (ns : List Node) :
    bodiesTokens tight ns = ns.map fun n => bodyTokens tight n (n.tokens tight) := by
  induction ns with
  | nil => rfl
  | cons n ns ih => rw [bodiesTokens, ih, map_cons]

theorem exprsAll_eq (ns : List Node) : exprsAll ns = ns.flatMap exprs := by
  induction ns with
  | nil => rfl
  | cons n ns ih => rw [exprsAll, ih, flatMap_cons]

theorem exprsEach_eq (ns : List Node) : exprsEach ns = ns.map exprs := by
  induction ns with
  | nil => rfl
  | cons n ns ih => rw [exprsEach, ih, map_cons]

theorem bodyLayouts_eq (st : Style) (ns : List Node) :
    bodyLayouts st ns = ns.map fun n => bodyLayout st n (n.layout (bodyStyle st n)) := by
  induction ns with
  | nil => rfl
  | cons n ns ih => rw [bodyLayouts, ih, map_cons]

/-! ### Branches as lists of clauses -/

section Clauses

variable {c : Node × Node} {cs : List (Node × Node)} {p : Position}
variable {d : Node × Node}

theorem tokens_branch (tight : Bool) :
    tokens tight (.branch ((c :: cs).map (·.1)) ((c :: cs).map (·.2)) p) =
      of .kwIf :: (c.1.wording ++ (bodyTokens tight c.2 (c.2.tokens tight) ++
        later (fun c b => of .kwElif :: (c.wording ++ b)) (fun _ b => of .kwElse :: b)
          (cs.map fun d => (d.1, bodyTokens tight d.2 (d.2.tokens tight))))) := by
  rw [tokens, bodiesTokens_eq]
  simp [zip_map']

theorem exprs_branch : exprs (.branch ((c :: cs).map (·.1)) ((c :: cs).map (·.2)) p) =
    c.1 :: (c.2.exprs ++ later (fun c es => c :: es) (fun _ es => es)
      (cs.map fun d => (d.1, d.2.exprs))) := by
  rw [exprs, exprsEach_eq]
  simp [zip_map']

/-- The clauses after the first that are written. -/
def written (cs : List (Node × Node)) : List (Node × Node) :=
  later (fun c b => [(c, b)]) (fun c b => [(c, b)]) cs

@[simp] theorem written_nil : written [] = [] := rfl

theorem written_singleton (d : Node × Node) : written [d] = if d.1.isTrue then [d] else [] := rfl

@[simp] theorem written_cons (c d : Node × Node) : written (c :: d :: cs) = c :: written (d :: cs) := rfl

theorem written_subset (cs : List (Node × Node)) : written cs ⊆ cs := by
  induction cs with
  | nil => simp
  | cons c cs ih =>
    cases cs with
    | nil =>
      rw [written_singleton]
      split <;> simp
    | cons d cs => exact cons_subset_cons c ih

theorem later_map {β : Type} (g : Node → β) :
    later (fun _ b => [b]) (fun _ b => [b]) (cs.map fun d => (d.1, g d.2)) =
      (written cs).map fun d => g d.2 := by
  induction cs with
  | nil => rfl
  | cons c cs ih =>
    cases cs with
    | nil =>
      simp only [map_cons, map_nil, later, written_singleton]
      split <;> rfl
    | cons d cs =>
      simp only [map_cons, later, written_cons, singleton_append] at ih ⊢
      rw [ih]

/-- The expressions of the clauses after the first are those of their bodies, and conditions. -/
theorem exprs_subset_later (hd : d ∈ written cs) :
    d.2.exprs ⊆ later (fun c es => c :: es) (fun _ es => es) (cs.map fun d => (d.1, d.2.exprs)) := by
  induction cs with
  | nil => simp at hd
  | cons c cs ih =>
    cases cs with
    | nil =>
      simp only [map_cons, map_nil, later]
      rw [written_singleton] at hd
      split at hd
      · rename_i htrue
        rw [if_pos htrue, mem_singleton.1 hd]
        exact List.Subset.refl _
      · exact absurd hd not_mem_nil
    | cons d' cs =>
      simp only [map_cons, later]
      rcases mem_cons.1 hd with rfl | hd
      · exact fun e he => mem_append_left _ (mem_cons_of_mem _ he)
      · exact fun e he => mem_append_right _ (ih hd he)

theorem cond_mem_later (hd : d ∈ cs.dropLast) :
    d.1 ∈ later (fun c es => c :: es) (fun _ es => es) (cs.map fun d => (d.1, d.2.exprs)) := by
  induction cs with
  | nil => simp at hd
  | cons c cs ih =>
    cases cs with
    | nil => simp at hd
    | cons d' cs =>
      simp only [map_cons, later]
      rcases mem_cons.1 hd with rfl | hd
      · exact mem_append_left _ mem_cons_self
      · exact mem_append_right _ (ih hd)

/-- How the body `n` of a branch or loop is written. -/
def writtenBody (st : Style) (n : Node) : Layout := bodyLayout st n (n.layout (bodyStyle st n))

open Layout in
theorem layout_branch (st : Style) :
    layout st (.branch ((c :: cs).map (·.1)) ((c :: cs).map (·.2)) p) =
      piece "if " ++ c.1.layout st ++ writtenBody st c.2 ++
        laterClauses st ((cs.map fun d => writtenBody st d.2).getLastD (writtenBody st c.2))
          (cs.map fun d => (d.1.layout st, d.1.isTrue)) (cs.map fun d => writtenBody st d.2) := by
  rw [layout, bodyLayouts_eq, layouts_eq]
  simp [zip_map', Function.comp_def, writtenBody]

theorem exists_clauses {conds bodies : List Node} (hlen : conds.length = bodies.length)
    (hne : conds ≠ []) : ∃ (c : Node × Node) (cs : List (Node × Node)),
      conds = (c :: cs).map (·.1) ∧ bodies = (c :: cs).map (·.2) := by
  have hzip : conds.zip bodies ≠ [] := by
    cases conds with
    | nil => exact absurd rfl hne
    | cons c conds =>
      cases bodies with
      | nil => cases hlen
      | cons b bodies => exact cons_ne_nil _ _
  obtain ⟨c, cs, hcs⟩ := exists_cons_of_ne_nil hzip
  refine ⟨c, cs, ?_, ?_⟩
  · rw [← hcs, map_fst_zip (Nat.le_of_eq hlen)]
  · rw [← hcs, map_snd_zip (Nat.le_of_eq hlen.symm)]

end Clauses

/-! ### Layouts of statements -/

open Layout

variable {a : Layout} {u : List Lexeme} {st : Style}

theorem parts_newline (st : Style) : Parts st.newline [] := by
  have hall : ∀ s ∈ [" ", "\n"], s.toList.all Text.isBlank = true ∧
      s.toList ≠ [] ∧ s.toList.head?.all (· ∈ enders) = true := by decide +kernel
  have hmem : (if st.tight then " " else "\n") ∈ [" ", "\n"] := by split <;> simp
  obtain ⟨hblank, hne, hc⟩ := hall _ hmem
  obtain ⟨c, cs, hs⟩ := exists_cons_of_ne_nil hne
  rw [hs] at hc
  exact ⟨firm_blanks (all_eq_true.1 hblank), c, cs, by rw [Style.newline, text_piece, hs],
    of_decide_eq_true hc⟩

theorem firm_indent (st : Style) : Firm st.indent [] := by
  rw [Style.indent]
  split
  · exact firm_nil
  · refine firm_blanks fun c hc => ?_
    rw [String.toList_ofList] at hc
    rw [eq_of_mem_replicate hc]
    decide

theorem lays_statement (h : Lays a u) : Lays (st.statement a) (u ++ closing st.tight) := by
  have hbody := (firm_indent st).then h
  rw [Style.statement, closing]
  cases st.tight with
  | true => exact (hbody.firm (parts_mark (k := .semi) (by decide))).lays
  | false => exact hbody.append firm_nil.lays (by simp [Trails])

theorem firm_line (h : Lays a u) : Firm (st.line a) (u ++ closing st.tight) := by
  have hstat : Lays (st.statement a) (u ++ closing st.tight) := lays_statement h
  have hline := hstat.firm (parts_newline st)
  rwa [append_nil] at hline

theorem firm_concat {α : Type} {f : α → Layout} {g : α → List Lexeme} {xs : List α}
    (h : ∀ x ∈ xs, Firm (f x) (g x)) : Firm (concat (xs.map f)) (xs.flatMap g) := by
  induction xs with
  | nil => exact firm_nil
  | cons x xs ih =>
    rw [forall_mem_cons] at h
    exact h.1.append (ih h.2)

theorem lays_body {w : List Lexeme} (h : Lays (n.layout (bodyStyle st n)) w) :
    Lays (writtenBody st n) (bodyTokens st.tight n w) ∧ (writtenBody st n).Trails := by
  rw [writtenBody, bodyLayout, bodyTokens]
  split
  · have hblank : Parts (piece " ") [] := parts_newline ⟨true, 0⟩
    exact ⟨hblank.toFirm.then h, hblank.trails.append (by simp)⟩
  · have hcolon : Parts (piece ":") [of .colon] := parts_mark (k := .colon) (by decide)
    have hstart := hcolon.toFirm.append (parts_newline st).toFirm
    have hbody : Lays (st.deeper.statement _) (w ++ closing st.deeper.tight) := lays_statement h
    refine ⟨hstart.then hbody, (hcolon.trails.append (by simp)).append fun he => ?_⟩
    rw [text_append rfl] at he
    simp at he

theorem failure_body (h : (writtenBody st n).failure = none) :
    (n.layout (bodyStyle st n)).failure = none := by
  rw [writtenBody, bodyLayout] at h
  split at h
  · exact (failure_append.1 h).2
  · have h := (failure_append.1 h).2
    rw [Style.statement, failure_append, failure_append] at h
    exact h.1.2

theorem append_assoc (a b c : Layout) : a ++ b ++ c = a ++ (b ++ c) := by
  obtain ⟨ps, _ | f⟩ := a
  · obtain ⟨qs, _ | g⟩ := b
    · exact congrArg (Layout.mk · _) (List.append_assoc ..)
    · rfl
  · rfl

theorem trails_newline (st : Style) (b : Layout) : (st.newline ++ b).Trails := by
  refine (parts_newline st).trails.append fun he => ?_
  obtain ⟨c, cs, htext, -⟩ := (parts_newline st).begins
  rw [he] at htext
  cases htext

theorem failure_written (hlast : ∀ d ∈ cs.getLast?, last = writtenBody st d.2)
    (hf : (laterClauses st last (cs.map fun d => (d.1.layout st, d.1.isTrue))
      (cs.map fun d => writtenBody st d.2)).failure = none) :
    ∀ d ∈ written cs, (writtenBody st d.2).failure = none := by
  induction cs with
  | nil => simp
  | cons c cs ih =>
    cases cs with
    | nil =>
      rw [written_singleton]
      simp only [map_cons, map_nil, laterClauses] at hf
      split
      · rename_i htrue
        rw [if_pos htrue] at hf
        exact forall_mem_singleton.2 (hlast c rfl ▸ (failure_append.1 hf).2)
      · simp
    | cons d cs =>
      simp only [map_cons, laterClauses, failure_append] at hf
      exact forall_mem_cons.2 ⟨hf.1.2, ih hlast hf.2⟩

/-- The conditions of the clauses before the last one are written. -/
theorem failure_conds (hf : (laterClauses st last (cs.map fun d => (d.1.layout st, d.1.isTrue))
      (cs.map fun d => writtenBody st d.2)).failure = none) :
    ∀ d ∈ cs.dropLast, (d.1.layout st).failure = none := by
  induction cs with
  | nil => simp
  | cons c cs ih =>
    cases cs with
    | nil => simp
    | cons d cs =>
      simp only [map_cons, laterClauses, failure_append] at hf
      exact forall_mem_cons.2 ⟨hf.1.1.2, ih hf.2⟩

theorem Formed.lays_expr (h : Formed Scanned .expr e) (hc : e.clear = true)
    (hf : (e.layout st).failure = none) : Lays (e.layout st) e.wording :=
  (h.spoken (by decide) st hf (h.plain (by decide) hc)).toLays

theorem lays_later (hlast : ∀ d ∈ cs.getLast?, last = writtenBody st d.2)
    (hc : ∀ d ∈ cs, Formed Scanned .expr d.1)
    (hb : ∀ d ∈ cs, (writtenBody st d.2).failure = none → (∀ e ∈ d.2.exprs, e.clear = true) →
      Lays (writtenBody st d.2) (bodyTokens st.tight d.2 (d.2.tokens st.tight)) ∧
        (writtenBody st d.2).Trails)
    (hf : (laterClauses st last (cs.map fun d => (d.1.layout st, d.1.isTrue))
      (cs.map fun d => writtenBody st d.2)).failure = none)
    (hclear : ∀ e ∈ later (fun c es => c :: es) (fun _ es => es) (cs.map fun d => (d.1, d.2.exprs)),
      e.clear = true) :
    Lays (laterClauses st last (cs.map fun d => (d.1.layout st, d.1.isTrue))
        (cs.map fun d => writtenBody st d.2))
      (later (fun c b => of .kwElif :: (c.wording ++ b)) (fun _ b => of .kwElse :: b)
        (cs.map fun d => (d.1, bodyTokens st.tight d.2 (d.2.tokens st.tight)))) ∧
      (laterClauses st last (cs.map fun d => (d.1.layout st, d.1.isTrue))
        (cs.map fun d => writtenBody st d.2)).Trails := by
  have hstart := (parts_newline st).toFirm.append (firm_indent st)
  induction cs with
  | nil => exact ⟨firm_nil.lays, by simp [laterClauses, Trails]⟩
  | cons d cs ih =>
    rw [forall_mem_cons] at hc hb
    cases cs with
    | nil =>
      obtain rfl := hlast d rfl
      simp only [map_cons, map_nil, laterClauses, later] at hf hclear ⊢
      split
      · rename_i htrue
        rw [if_pos htrue] at hf hclear
        have helse : Lays (piece "else") [of .kwElse] :=
          (says_of_stands (stands_of_mem (k := .kwElse) (by decide)) (by decide)).toLays
        obtain ⟨hbody, htrails⟩ := hb.1 (failure_append.1 hf).2 hclear
        refine ⟨(hstart.then helse).append hbody htrails, ?_⟩
        rw [append_assoc, append_assoc]
        exact trails_newline st _
      · exact ⟨firm_nil.lays, by simp [Trails]⟩
    | cons d' cs =>
      simp only [map_cons, laterClauses, later] at hf hclear ⊢
      simp only [failure_append] at hf
      rw [forall_mem_append, forall_mem_cons] at hclear
      have helif : Firm (piece "elif ") [of .kwElif] :=
        firm_word (stands_of_mem (k := .kwElif) (by decide)) (by decide)
      have hcond := hc.1.lays_expr hclear.1.1 hf.1.1.2
      obtain ⟨hbody, htrails⟩ := hb.1 hf.1.2 hclear.1.2
      obtain ⟨hrest, htrails'⟩ := ih hlast hc.2 hb.2 hf.2 hclear.2
      have hclause := ((hstart.append helif).then hcond).append hbody htrails
      refine ⟨by simpa using hclause.append hrest htrails', ?_⟩
      simp only [append_assoc]
      exact trails_newline st _

/-! ### Parts of statements -/

theorem bodyStyle_tight (st : Style) (n : Node) : (bodyStyle st n).tight = st.tight := by
  rw [bodyStyle]
  split <;> rfl

theorem failure_concat {ls : List Layout} (h : (concat ls).failure = none) :
    ∀ l ∈ ls, l.failure = none := by
  induction ls with
  | nil => simp
  | cons l ls ih =>
    rw [concat, failure_append] at h
    exact forall_mem_cons.2 ⟨h.1, ih h.2⟩

theorem failure_line (h : (st.line a).failure = none) : a.failure = none := by
  rw [Style.line, Style.statement, failure_append, failure_append, failure_append] at h
  exact h.1.1.2

theorem failure_lines (hf : (concat ((layouts st stats).map st.line)).failure = none) :
    ∀ n ∈ stats, (n.layout st).failure = none := by
  rw [layouts_eq, map_map] at hf
  exact fun n hn => failure_line (failure_concat hf _ (mem_map_of_mem hn))

theorem firm_lines
    (h : ∀ n ∈ stats, (n.layout st).failure = none → Lays (n.layout st) (n.tokens st.tight))
    (hf : (concat ((layouts st stats).map st.line)).failure = none) :
    Firm (concat ((layouts st stats).map st.line)) (lines st.tight stats) := by
  have hfs := failure_lines hf
  rw [layouts_eq, map_map, lines_eq]
  exact firm_concat fun n hn => firm_line (h n hn (hfs n hn))

theorem lays_exprs {es : List Node} (hne : es ≠ []) (h : ∀ e ∈ es, Formed Scanned .expr e)
    (hc : ∀ e ∈ es, e.clear = true) (hf : (commas (es.map (layout st))).failure = none) :
    Lays (commas (es.map (layout st))) (Lexeme.commas (es.map wording)) :=
  lays_commas hne fun e he =>
    (h e he).lays_expr (hc e he) (failure_commas hf _ (mem_map_of_mem he))

theorem Formed.lays_place (h : Formed Scanned .place e) (hf : (e.layout st).failure = none) :
    Lays (e.layout st) e.wording := by
  obtain ⟨x, p, rfl⟩ := h.eq_name (by decide) hf
  exact (h.spoken (by decide) st hf (h.plain (by decide) rfl)).toLays

theorem NameOf.lays (h : NameOf Scanned n) (st : Style) :
    Lays (n.layout st) n.wording ∧ n.identLayout = n.layout st := by
  obtain ⟨x, p, rfl, hx⟩ := h
  exact ⟨Formed.lays_place (.name hx) rfl, rfl⟩

theorem parts_assign : Parts (piece " = ") [of .assign] :=
  parts_spaced (stands_of_mem (k := .assign) (by decide)) (by decide)

theorem parts_comma : Parts (piece ", ") [of .comma] :=
  ⟨firm_word (stands_of_mem (k := .comma) (by decide)) (by decide), ',', [' '], by simp, by decide⟩

theorem layout_declare (st : Style) {names : List Node} {inits : Option (List Node)} {isConst : Bool}
    (hin : inits ≠ some []) : layout st (.declare names inits isConst p) =
      piece (if isConst then "const " else "var ") ++ commas (names.map identLayout) ++
        inits.elim nil fun es => piece " = " ++ commas (es.map (layout st)) := by
  rcases inits with _ | _ | ⟨e, es⟩
  · rfl
  · exact absurd rfl hin
  · rw [layout, layouts_eq]
    rfl

theorem layout_assign (st : Style) {targets sources : List Node} (hne : sources ≠ []) :
    layout st (.assign targets sources p) = commas (targets.map (layout st)) ++
      (piece " = " ++ commas (sources.map (layout st))) := by
  cases sources with
  | nil => exact absurd rfl hne
  | cons e es =>
    rw [layout, layouts_eq, layouts_eq]
    rfl

theorem layout_forRange (st : Style) {var start stop step : Node} :
    layout st (.forRange var start stop step body p) = piece "for " ++ var.layout st ++ piece " is " ++
      start.layout st ++ piece ", " ++ stop.layout st ++
      (if step.isMissing then nil else piece ", " ++ step.layout st) ++ writtenBody st body := by
  cases step <;> rfl

theorem layout_whileLoop (st : Style) {cond : Node} :
    layout st (.whileLoop cond body p) = piece "while " ++ cond.layout st ++ writtenBody st body := rfl

theorem Formed.lays (h : Formed Scanned r x) (hr : r = .stat) (st : Style)
    (hf : (x.layout st).failure = none) (hc : ∀ e ∈ x.exprs, e.clear = true) :
    Lays (x.layout st) (x.tokens st.tight) := by
  induction h generalizing st with
  | empty => exact (firm_mark (k := .semi) (by decide)).lays
  | @block stats p he hs ih =>
    rw [layout] at hf ⊢
    simp only [failure_append] at hf
    rw [exprs, exprsAll_eq] at hc
    have hlines : Firm _ (lines st.deeper.tight stats) := firm_lines (fun n hn hf =>
      ih n hn rfl st.deeper hf fun e he => hc e (mem_flatMap.2 ⟨n, hn, he⟩)) hf.1.1.2
    rw [show st.deeper.tight = st.tight from rfl] at hlines
    have hopen : Firm (piece "\x7b") [of .lbrace] := firm_mark (k := .lbrace) (by decide)
    have hclose : Firm (piece "\x7d") [of .rbrace] := firm_mark (k := .rbrace) (by decide)
    have hall := (((hopen.append (parts_newline st).toFirm).append hlines).append (firm_indent st)).append hclose
    rw [tokens]
    simpa using hall.lays
  | @declare names inits isConst p hne hn hin hi =>
    rw [layout_declare st hin] at hf ⊢
    rw [tokens]
    simp only [failure_append] at hf
    have hword : Firm (piece (if isConst then "const " else "var "))
        [of (if isConst then .kwConst else .kwVar)] := by
      cases isConst with
      | true => exact firm_word (stands_of_mem (k := .kwConst) (by decide)) (by decide)
      | false => exact firm_word (stands_of_mem (k := .kwVar) (by decide)) (by decide)
    have hnames : Lays (commas (names.map identLayout)) (Lexeme.commas (names.map wording)) :=
      lays_commas hne fun n hmem => ((hn n hmem).lays st).2 ▸ ((hn n hmem).lays st).1
    have hstart := hword.then hnames
    cases inits with
    | none => exact hstart.append firm_nil.lays (by simp [Trails])
    | some es =>
      simp only [Option.elim_some, failure_append] at hf ⊢
      have hes := lays_exprs (fun he => hin (he ▸ rfl)) hi hc hf.2.2
      exact hstart.append (parts_assign.toFirm.then hes) (parts_assign.trails.append (by simp))
  | @branch conds bodies p hlen hne hconds hb hs ihc ihb =>
    obtain ⟨c, cs, rfl, rfl⟩ := exists_clauses hlen hne
    rw [exprs_branch, forall_mem_cons, forall_mem_append] at hc
    rw [layout_branch] at hf ⊢
    rw [tokens_branch]
    simp only [failure_append] at hf
    rw [forall_mem_map] at hconds ihb
    rw [forall_mem_cons] at hconds
    have hif : Firm (piece "if ") [of .kwIf] := firm_word (stands_of_mem (k := .kwIf) (by decide)) (by decide)
    have hbody : ∀ d ∈ c :: cs, (writtenBody st d.2).failure = none → (∀ e ∈ d.2.exprs, e.clear = true) →
        Lays (writtenBody st d.2) (bodyTokens st.tight d.2 (d.2.tokens st.tight)) ∧
          (writtenBody st d.2).Trails := fun d hd hf hc => by
      have hlays := ihb d hd rfl (bodyStyle st d.2) (failure_body hf) hc
      rw [bodyStyle_tight] at hlays
      exact lays_body hlays
    obtain ⟨hfirst, htrails⟩ := hbody c mem_cons_self hf.1.2 hc.2.1
    obtain ⟨hlater, htrails'⟩ := lays_later (fun d hd => by simp [getLastD_eq_getLast?, Option.mem_def.1 hd])
      hconds.2 (fun d hd => hbody d (mem_cons_of_mem _ hd)) hf.2 hc.2.2
    have hclause := (hif.then (hconds.1.lays_expr hc.1 hf.1.1.2)).append hfirst htrails
    simpa using hclause.append hlater htrails'
  | @whileLoop cond body p hcond hbody _ ih =>
    rw [layout_whileLoop] at hf ⊢
    rw [tokens]
    rw [exprs, forall_mem_cons] at hc
    simp only [failure_append] at hf
    have hwhile : Firm (piece "while ") [of .kwWhile] :=
      firm_word (stands_of_mem (k := .kwWhile) (by decide)) (by decide)
    have hlays := ih rfl (bodyStyle st body) (failure_body hf.2) hc.2
    rw [bodyStyle_tight] at hlays
    obtain ⟨hlays, htrails⟩ := lays_body hlays
    simpa using (hwhile.then (hcond.lays_expr hc.1 hf.1.2)).append hlays htrails
  | @forRange var start stop step body p hv hstart hstop hstep hb _ _ _ ih =>
    rw [layout_forRange] at hf ⊢
    rw [tokens]
    rw [exprs, forall_mem_cons, forall_mem_cons, forall_mem_append] at hc
    simp only [failure_append] at hf
    have hfor : Firm (piece "for ") [of .kwFor] :=
      firm_word (stands_of_mem (k := .kwFor) (by decide)) (by decide)
    have his : Parts (piece " is ") [of .kwIs] :=
      parts_spaced (stands_of_mem (k := .kwIs) (by decide)) (by decide)
    have hlays := ih rfl (bodyStyle st body) (failure_body hf.2) hc.2.2.2
    rw [bodyStyle_tight] at hlays
    obtain ⟨hlays, htrails⟩ := lays_body hlays
    have hrange := (((hfor.then (hv.lays st).1).firm his).then (hstart.lays_expr hc.1 hf.1.1.1.1.2)).firm
      parts_comma
    have hbounds := hrange.then (hstop.lays_expr hc.2.1 hf.1.1.2)
    cases hmissing : step.isMissing with
    | true =>
      have hall := (hbounds.append firm_nil.lays (by simp [Trails])).append hlays htrails
      simpa [hmissing] using hall
    | false =>
      have hne : step ≠ .missing := by
        rintro rfl
        cases hmissing
      simp only [hmissing, Bool.false_eq_true, if_false, forall_mem_singleton, failure_append] at hc hf
      have hlast := parts_comma.toFirm.then ((hstep hne).lays_expr hc.2.2.1 hf.1.2.2)
      have hall := (hbounds.append hlast (parts_comma.trails.append (by simp))).append hlays htrails
      simpa [hmissing] using hall
  | breakLoop => exact (says_of_stands (stands_of_mem (k := .kwBreak) (by decide)) (by decide)).toLays
  | continueLoop => exact (says_of_stands (stands_of_mem (k := .kwContinue) (by decide)) (by decide)).toLays
  | @assign targets sources p hne ht hsn hs _ ihs =>
    rw [layout_assign st hsn] at hf ⊢
    simp only [failure_append] at hf
    have htargets : Lays (commas (targets.map (layout st))) (Lexeme.commas (targets.map wording)) :=
      lays_commas hne fun e he => (ht e he).lays_place (failure_commas hf.1 _ (mem_map_of_mem he))
    exact htargets.append (parts_assign.toFirm.then (lays_exprs hsn hs hc hf.2.2))
      (parts_assign.trails.append (by simp))
  | @update op target source p hop ho ht hs =>
    rw [layout] at hf ⊢
    simp only [failure_append] at hf
    obtain ⟨x, hx⟩ := ho
    have hops : ∀ op ∈ TokenKind.updates,
        op ∉ [.eof, .identifier, .intLiteral, .floatLiteral, .stringLiteral] := by decide
    have hspaced := parts_spaced (s := s!" {op.spelling} ") (hx.stands_of (hops op hop)).1
      String.append_assoc
    have hstart := (ht.lays_place hf.1.1).firm hspaced
    simpa [tokens] using hstart.then (hs.lays_expr (hc source mem_cons_self) hf.2)
  | callStat h =>
    cases h with
    | @call r callee args p hrole hcallee hne ha =>
      have hcall : Formed Scanned .call (.call callee args p) := .call hrole hcallee hne ha
      have hclear : clear (.call callee args p) = true := by
        rw [clear, clearOpt_eq, all_eq_true]
        exact hc
      have hlays := (hcall.spoken (by decide) st hf (hcall.plain (by decide) hclear)).toLays
      rwa [wording, wordingsOpt_eq] at hlays
  | switch | repeatUntil | forEach | returnValue => cases hf
  | _ => cases hr

theorem Formed.head_tokens {L : Lexeme → Prop} (h : Formed L r x) (hr : r = .stat)
    (hf : (x.layout st).failure = none) (t : Bool) :
    ∃ l v, x.tokens t = l :: v ∧ l.kind ∈ TokenKind.openers := by
  have hid : TokenKind.identifier ∈ TokenKind.openers := by decide
  cases h with
  | @declare _ _ isConst =>
    refine ⟨_, _, rfl, ?_⟩
    cases isConst <;> decide
  | branch hlen hne =>
    obtain ⟨c, cs, rfl, rfl⟩ := exists_clauses hlen hne
    exact ⟨_, _, tokens_branch t, by decide⟩
  | @assign targets sources p hne ht hsn =>
    rw [layout_assign st hsn] at hf
    simp only [failure_append] at hf
    obtain ⟨e, es, rfl⟩ := exists_cons_of_ne_nil hne
    obtain ⟨x, q, rfl⟩ := (ht e mem_cons_self).eq_name (by decide)
      (failure_commas hf.1 _ (mem_map_of_mem mem_cons_self))
    exact ⟨_, _, rfl, hid⟩
  | update _ _ ht =>
    rw [layout] at hf
    simp only [failure_append] at hf
    obtain ⟨x, q, rfl⟩ := ht.eq_name (by decide) hf.1.1
    exact ⟨_, _, rfl, hid⟩
  | callStat h =>
    cases h with
    | call hrole hcallee =>
      rw [layout_call] at hf
      simp only [failure_append] at hf
      obtain ⟨x, q, rfl⟩ := hcallee.eq_name hrole hf.1.1.1
      exact ⟨_, _, rfl, hid⟩
  | switch | repeatUntil | forEach | returnValue => cases hf
  | empty | block | whileLoop | forRange | breakLoop | continueLoop => exact ⟨_, _, rfl, by decide⟩
  | _ => cases hr

end Node

/-- The text of a program reads as the tokens of its statements. -/
theorem FormedProgram.lays (h : FormedProgram stats) (hf : (format t (.program stats)).failure = none)
    (hc : ∀ e ∈ (Node.program stats).exprs, e.clear = true) :
    Layout.Lays (format t (.program stats)) (Node.lines t stats) := by
  rw [Node.exprs, Node.exprsAll_eq] at hc
  exact (Node.firm_lines (fun n hn hf => (h.formed n hn).lays rfl ⟨t, 0⟩ hf fun e he =>
    hc e (mem_flatMap.2 ⟨n, hn, he⟩)) hf).lays

theorem FormedProgram.lines_ne_nil (h : FormedProgram stats) (hne : stats ≠ [])
    (hf : (format t (.program stats)).failure = none) : Node.lines t stats ≠ [] := by
  obtain ⟨x, xs, rfl⟩ := exists_cons_of_ne_nil hne
  obtain ⟨l, v, hv, -⟩ := (h.formed x mem_cons_self).head_tokens rfl
    (Node.failure_lines hf x mem_cons_self) t
  simp [Node.lines, hv]

end TinyScript
