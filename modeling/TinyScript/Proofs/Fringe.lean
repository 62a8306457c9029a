import TinyScript.Proofs.FormatRoundTrip

/-!
# The names and literals of a program

`Node.marks` goes through a tree in the order of its source and lists the texts of the names and literals
in it, each with a mark that says whether it is written. Not written are those of a last clause with a
condition that is not the literal `true`: the formatter leaves that clause out. What the formatter writes
for a program are the names and literals that are marked as written, in this order and each once.
-/

namespace TinyScript

open Lexeme List

variable {α : Type} {cs : List (Node × Node)} {s : String}

/-- Texts of names and literals, each with a mark. -/
abbrev Marks := List (String × Bool)

namespace Marks

/-- The texts that are marked. -/
def kept (ms : Marks) : List String := (ms.filter (·.2)).map (·.1)

/-- The texts that are not marked. -/
def lost (ms : Marks) : List String := (ms.filter (!·.2)).map (·.1)

/-- The same texts without the marks. -/
def drop (ms : Marks) : Marks := ms.map fun m => (m.1, false)

@[simp] theorem kept_nil : kept [] = [] := rfl

@[simp] theorem kept_append (ms ms' : Marks) : kept (ms ++ ms') = kept ms ++ kept ms' := by
  simp [kept]

@[simp] theorem kept_drop (ms : Marks) : kept (drop ms) = [] := by simp [kept, drop]

theorem kept_flatMap (f : α → Marks) (xs : List α) :
    kept (xs.flatMap f) = xs.flatMap fun x => kept (f x) := by
  induction xs with
  | nil => rfl
  | cons x xs ih => simp [ih]

theorem kept_eq_iff (ms : Marks) : kept ms = ms.map (·.1) ↔ lost ms = [] := by
  constructor
  · intro h
    have hlen := congrArg List.length h
    simp only [kept, length_map] at hlen
    have hall := length_filter_eq_length_iff.1 hlen
    simp only [lost, map_eq_nil_iff, filter_eq_nil_iff]
    intro m hm
    simp [hall m hm]
  · intro h
    simp only [lost, map_eq_nil_iff, filter_eq_nil_iff, Bool.not_eq_true', Bool.not_eq_false] at h
    rw [kept, filter_eq_self.2 h]

end Marks

namespace Node

/-- The clauses after the first, given by whether their condition is the literal `true` and by the
marks of their parts. A last clause is an `else` or not written. -/
def laterMarks : List ((Bool × Marks) × Marks) → Marks
  | [] => []
  | [((isTrue, c), b)] => if isTrue then b else Marks.drop (c ++ b)
  | ((_, c), b) :: d :: cs => c ++ b ++ laterMarks (d :: cs)

mutual

/-- The names and literals of a tree, marked if they are written. -/
def marks : Node → Marks
  | .name x _ => [(x, true)]
  | .number text _ _ => [(text, true)]
  | .string value _ => [(s!"'{value}'", true)]
  | .bool value _ => [(value, true)]
  | .null _ => [("null", true)]
  | .program stats => marksAll stats
  | .block stats _ => marksAll stats
  | .declare names inits _ _ => marksAll names ++ marksOpt inits
  | .branch conds bodies _ =>
    match ((conds.map isTrue).zip (marksEach conds)).zip (marksEach bodies) with
    | [] => []
    | ((_, c), b) :: cs => c ++ b ++ laterMarks cs
  | .switch subject cases bodies fallback _ =>
    subject.marks ++ ((marksEach cases).zip (marksEach bodies)).flatMap (fun x => x.1 ++ x.2) ++
      fallback.marks
  | .repeatUntil cond body _ => body.marks ++ cond.marks
  | .whileLoop cond body _ => cond.marks ++ body.marks
  | .forRange var start stop step body _ =>
    var.marks ++ start.marks ++ stop.marks ++ step.marks ++ body.marks
  | .forEach key val subject body _ => key.marks ++ val.marks ++ subject.marks ++ body.marks
  | .returnValue expr _ => expr.marks
  | .assign targets sources _ => marksAll targets ++ marksAll sources
  | .update _ target source _ => target.marks ++ source.marks
  | .funcDef params _ body _ => marksOpt params ++ marksAll body
  | .call callee args _ => callee.marks ++ marksOpt args
  | .select cond yes no _ => cond.marks ++ yes.marks ++ no.marks
  | .binary _ left right _ => left.marks ++ right.marks
  | .unary _ operand _ => operand.marks
  | .listOf items _ => marksOpt items
  | .mapOf keys values _ => ((marksEach keys).zip (marksEach values)).flatMap fun x => x.1 ++ x.2
  | .setOf items _ => marksOpt items
  | .access base key _ _ => base.marks ++ key.marks
  | .missing | .empty | .breakLoop _ | .continueLoop _ => []
termination_by structural n => n

def marksAll : List Node → Marks
  | [] => []
  | n :: ns => n.marks ++ marksAll ns
termination_by structural ns => ns

def marksEach : List Node → List Marks
  | [] => []
  | n :: ns => n.marks :: marksEach ns
termination_by structural ns => ns

def marksOpt : Option (List Node) → Marks
  | none => []
  | some ns => marksAll ns
termination_by structural o => o

end

/-- The texts of the names and literals of a tree, in the order of the source. The condition of a last
`else` is not among them. -/
def fringe (n : Node) : List String := n.marks.map (·.1)

@[simp] theorem marksAll_eq (ns : List Node) : marksAll ns = ns.flatMap marks := by
  induction ns with
  | nil => rfl
  | cons n ns ih => rw [marksAll, ih, flatMap_cons]

@[simp] theorem marksEach_eq (ns : List Node) : marksEach ns = ns.map marks := by
  induction ns with
  | nil => rfl
  | cons n ns ih => rw [marksEach, ih, map_cons]

@[simp] theorem marksOpt_eq (o : Option (List Node)) : marksOpt o = (o.getD []).flatMap marks := by
  cases o with
  | none => rfl
  | some ns => rw [marksOpt, marksAll_eq, Option.getD_some]

theorem marks_branch {c : Node × Node} {p : Position} :
    marks (.branch ((c :: cs).map (·.1)) ((c :: cs).map (·.2)) p) =
      c.1.marks ++ c.2.marks ++ laterMarks (cs.map fun d => ((d.1.isTrue, d.1.marks), d.2.marks)) := by
  rw [marks, marksEach_eq, marksEach_eq]
  simp [zip_map']

end Node

/-! ### Pieces -/

/-- A piece of text is a name or a literal: it begins with a quote or a digit, or it is a word and no
keyword but `true`, `false` or `null`. -/
def isAtom (s : String) : Bool :=
  match s.toList with
  | [] => false
  | c :: cs => c == '\'' || Text.isDigit c || ((c :: cs).all Text.isWordChar &&
      decide (TokenKind.ofWord s ∈ [.identifier, .kwTrue, .kwFalse, .kwNull]))

theorem isAtom_of_digit {c : Char} (h : c ∈ s.toList.head?) (hc : Text.isDigit c = true) :
    isAtom s = true := by
  cases hs : s.toList with
  | nil => simp [hs] at h
  | cons d ds =>
    rw [hs] at h
    cases h
    simp [isAtom, hs, hc]

theorem TextOf.isAtom {k : TokenKind} {x : String}
    (hk : k ∈ [.identifier, .intLiteral, .floatLiteral, .kwTrue, .kwFalse]) (h : TextOf Scanned k x) :
    isAtom x = true := by
  have hkind : ∀ k ∈ [TokenKind.identifier, .intLiteral, .floatLiteral, .kwTrue, .kwFalse],
      k ≠ .eof ∧ k ≠ .stringLiteral ∧ k ∉ TokenKind.operators ∧
      (k ∈ .identifier :: TokenKind.keywords → k ∈ [.identifier, .kwTrue, .kwFalse, .kwNull]) := by decide
  obtain ⟨heof, hstr, hops, hword⟩ := hkind k hk
  obtain heof' | ⟨span, rest, hs, -⟩ := h.scanned heof
  · exact absurd heof' heof
  · generalize hl : (⟨k, some x⟩ : Lexeme) = l at hs
    cases hs with
    | int hne hd | float hne hd =>
      cases hl
      obtain ⟨d, ds, rfl⟩ := exists_cons_of_ne_nil hne
      exact isAtom_of_digit (c := d) (by simp) (hd d mem_cons_self)
    | string => exact absurd (congrArg Lexeme.kind hl) hstr
    | @word c cs _ hd hc hcs _ =>
      cases hl
      have hchars : (c :: cs).all Text.isWordChar = true :=
        all_eq_true.2 (forall_mem_cons.2 ⟨Scan.isWordChar_of_isWordStart hc, hcs⟩)
      simp only [TinyScript.isAtom, String.toList_ofList, hchars, hword (Scan.ofWord_mem _)]
      simp
    | operator hfind =>
      cases hl
      exact absurd (mem_of_find?_eq_some hfind) hops

theorem isAtom_quoted (x : String) : isAtom s!"'{x}'" = true := by
  have hs : ("'" ++ x ++ "'").toList = '\'' :: (x.toList ++ ['\'']) := by simp
  simp only [isAtom, toString, hs]
  simp

theorem isAtom_of_blank (h : ' ' ∈ s.toList.head?) : isAtom s = false := by
  cases hs : s.toList with
  | nil => simp [hs] at h
  | cons d ds =>
    rw [hs] at h
    cases h
    have hblank : (' ' == '\'') = false ∧ Text.isDigit ' ' = false ∧ Text.isWordChar ' ' = false := by
      decide
    simp [isAtom, hs, hblank]

theorem isAtom_spaced (x : String) : isAtom s!" {x} " = false := by
  have hs : (" " ++ x ++ " ").toList = ' ' :: (x.toList ++ [' ']) := by simp
  exact isAtom_of_blank (s := " " ++ x ++ " ") (by simp [hs])

/-- What is written besides names, literals and operators. -/
def signs : List String :=
  ["if ", "elif ", "else", "while ", "for ", " is ", "var ", "const ", "break", "continue", " = ", " ? ", " : ",
   "(", ")", "\x7b", "\x7d", ", ", ":", ";", "", " ", "\n"]

theorem isAtom_signs : ∀ s ∈ signs, isAtom s = false := by decide +kernel

theorem isAtom_unary : ∀ op ∈ TokenKind.unaries, isAtom op.spelling = false := by decide +kernel

namespace Layout

/-- The names and literals that are written, in this order. -/
def fringe (a : Layout) : List String := a.pieces.filter isAtom

/-- If the layout can be written, its names and literals are `u`. -/
def Writes (a : Layout) (u : List String) : Prop := a.failure = none → a.fringe = u

namespace Writes

variable {a b : Layout} {u v : List String} {st : Style}
variable {f : α → Layout} {g : α → List String} {xs : List α}

theorem atom (h : isAtom s = true) : Writes (piece s) [s] := fun _ => by
  simp [fringe, piece, h]

theorem mark (h : isAtom s = false) : Writes (piece s) [] := fun _ => by
  simp [fringe, piece, h]

theorem sign (h : s ∈ signs) : Writes (piece s) [] := mark (isAtom_signs s h)

theorem fail (f : Failure) : Writes (Layout.fail f) u := fun h => by cases h

theorem nil : Writes Layout.nil [] := fun _ => rfl

theorem append (ha : Writes a u) (hb : Writes b v) : Writes (a ++ b) (u ++ v) := by
  intro h
  obtain ⟨hfa, hfb⟩ := failure_append.1 h
  rw [← ha hfa, ← hb hfb]
  obtain ⟨ps, f⟩ := a
  cases hfa
  exact filter_append ..

/-- Marks before and after do not count. -/
theorem between {c d : Layout} (hc : Writes c []) (ha : Writes a u) (hd : Writes d []) :
    Writes (c ++ a ++ d) u := by simpa using (hc.append ha).append hd

theorem newline : Writes st.newline [] := sign (by cases st.tight <;> decide)

theorem indent : Writes st.indent [] := by
  rw [Style.indent]
  split
  · exact nil
  · cases 4 * st.level with
    | zero => exact sign (by decide)
    | succ k => exact mark (isAtom_of_blank (by simp [replicate_succ]))

theorem statement (ha : Writes a u) : Writes (st.statement a) u := by
  refine between indent ha ?_
  split
  · exact sign (by decide)
  · exact nil

theorem line (ha : Writes a u) : Writes (st.line a) u := by
  have h : Writes (st.statement a ++ st.newline) (u ++ []) := (statement ha).append newline
  rwa [append_nil] at h

theorem concat (h : ∀ x ∈ xs, Writes (f x) (g x)) : Writes (concat (xs.map f)) (xs.flatMap g) := by
  induction xs with
  | nil => exact nil
  | cons x xs ih =>
    rw [forall_mem_cons] at h
    exact h.1.append (ih h.2)

theorem commas (h : ∀ x ∈ xs, Writes (f x) (g x)) : Writes (commas (xs.map f)) (xs.flatMap g) := by
  induction xs with
  | nil => exact fail _
  | cons x xs ih =>
    rw [forall_mem_cons] at h
    cases xs with
    | nil =>
      rw [flatMap_singleton]
      exact h.1
    | cons y ys =>
      have comma : Writes (piece ", ") [] := sign (by decide)
      have rest := (h.1.append comma).append (ih h.2)
      rw [append_nil] at rest
      exact rest

theorem listed (h : ∀ x ∈ xs, Writes (f x) (g x)) : Writes (listed (xs.map f)) (xs.flatMap g) := by
  cases xs with
  | nil => exact nil
  | cons x xs => exact commas h

end Writes

end Layout

namespace Node

open Layout

variable {st : Style} {n : Node}

theorem writes_body {u : List String} (h : ∀ st, Writes (n.layout st) u) : Writes (writtenBody st n) u := by
  rw [writtenBody, bodyLayout]
  split
  · exact (Writes.sign (s := " ") (by decide)).append (h _)
  · have colon : Writes (piece ":") [] := .sign (by decide)
    exact (colon.append .newline).append (h _).statement

theorem writes_later {last : Layout} (hlast : ∀ d ∈ cs.getLast?, last = writtenBody st d.2)
    (hc : ∀ d ∈ cs, ∀ st, Writes (d.1.layout st) d.1.marks.kept)
    (hb : ∀ d ∈ cs, ∀ st, Writes (d.2.layout st) d.2.marks.kept) :
    Writes (laterClauses st last (cs.map fun d => (d.1.layout st, d.1.isTrue))
        (cs.map fun d => writtenBody st d.2))
      (laterMarks (cs.map fun d => ((d.1.isTrue, d.1.marks), d.2.marks))).kept := by
  have start : Writes (st.newline ++ st.indent) [] := Writes.newline.append .indent
  induction cs with
  | nil => exact .nil
  | cons d cs ih =>
    rw [forall_mem_cons] at hc hb
    cases cs with
    | nil =>
      obtain rfl := hlast d rfl
      simp only [map_cons, map_nil, laterClauses, laterMarks]
      split
      · have word : Writes (piece "else") [] := .sign (by decide)
        exact (start.append word).append (writes_body hb.1)
      · rw [Marks.kept_drop]
        exact .nil
    | cons d' cs =>
      simp only [map_cons, laterClauses, laterMarks, Marks.kept_append]
      have word : Writes (piece "elif ") [] := .sign (by decide)
      exact ((((start.append word).append (hc.1 st)).append (writes_body hb.1))).append
        (ih hlast hc.2 hb.2)

theorem NameOf.writes (h : NameOf Scanned n) : Writes n.identLayout n.marks.kept ∧
    ∀ st, Writes (n.layout st) n.marks.kept := by
  obtain ⟨x, p, rfl, hx⟩ := h
  have atom := Writes.atom (hx.isAtom (by decide))
  exact ⟨atom, fun _ => atom⟩

/-- A tree of the parser is written with the names and literals that are marked. -/
theorem Formed.writes {r : Role} (h : Formed Scanned r n) (st : Style) :
    Writes (n.layout st) n.marks.kept := by
  induction h generalizing st with
  | name hx | int hx | float hx => exact .atom (hx.isAtom (by decide))
  | @bool k x p hk hx =>
    have hkind : ∀ k ∈ [TokenKind.kwTrue, .kwFalse],
        k ∈ [.identifier, .intLiteral, .floatLiteral, .kwTrue, .kwFalse] := by decide
    exact .atom (hx.isAtom (hkind k hk))
  | string => exact .atom (isAtom_quoted _)
  | otherwise | null => exact .atom (by decide +kernel)
  | empty | breakLoop | continueLoop => exact .sign (by decide)
  | operand _ _ ih | callStat _ ih => exact ih st
  | @call r callee args p _ _ _ _ ihc iha =>
    rw [layout_call, marks, marksOpt_eq, Marks.kept_append, Marks.kept_flatMap]
    have left : Writes (piece "(") [] := .sign (by decide)
    have right : Writes (piece ")") [] := .sign (by decide)
    simpa using (((ihc st).append left).append (.listed fun a ha => iha a ha st)).append right
  | select _ _ _ ihc ihy ihn =>
    rw [layout, marks, Marks.kept_append, Marks.kept_append]
    have query : Writes (piece " ? ") [] := .sign (by decide)
    have colon : Writes (piece " : ") [] := .sign (by decide)
    simpa using ((((ihc st).append query).append (ihy st)).append colon).append (ihn st)
  | binary _ _ _ _ ihl ihr =>
    rw [layout, marks, Marks.kept_append]
    simpa using ((ihl st).append (.mark (isAtom_spaced _))).append (ihr st)
  | @unary op operand p hop _ _ ih =>
    exact (Writes.mark (isAtom_unary op hop)).append (ih st)
  | @block stats p _ _ ih =>
    rw [layout, marks, marksAll_eq, Marks.kept_flatMap, layouts_eq, map_map]
    have left : Writes (piece "\x7b") [] := .sign (by decide)
    have right : Writes (piece "\x7d") [] := .sign (by decide)
    have lines : Writes (concat (stats.map (st.deeper.line ∘ layout st.deeper)))
        (stats.flatMap fun n => n.marks.kept) := .concat fun n hn => (ih n hn st.deeper).line
    simpa using (((left.append .newline).append lines).append .indent).append right
  | @declare names inits isConst p _ hn hin _ hi =>
    rw [layout_declare st hin, marks, marksAll_eq, marksOpt_eq, Marks.kept_append, Marks.kept_flatMap,
      Marks.kept_flatMap]
    have word : Writes (piece (if isConst then "const " else "var ")) [] :=
      .sign (by cases isConst <;> decide)
    have start := word.append (.commas fun x hx => (hn x hx).writes.1)
    cases inits with
    | none => exact start.append .nil
    | some es =>
      have sign : Writes (piece " = ") [] := .sign (by decide)
      exact start.append (sign.append (.commas fun e he => hi e he st))
  | @branch conds bodies p hlen hne _ _ _ ihc ihb =>
    obtain ⟨c, cs, rfl, rfl⟩ := exists_clauses hlen hne
    rw [layout_branch, marks_branch, Marks.kept_append, Marks.kept_append]
    rw [forall_mem_map, forall_mem_cons] at ihc ihb
    have word : Writes (piece "if ") [] := .sign (by decide)
    refine ((word.append (ihc.1 st)).append (writes_body ihb.1)).append
      (writes_later (fun d hd => ?_) ihc.2 ihb.2)
    simp [getLastD_eq_getLast?, Option.mem_def.1 hd]
  | whileLoop _ _ ihc ihb =>
    rw [layout_whileLoop, marks, Marks.kept_append]
    have word : Writes (piece "while ") [] := .sign (by decide)
    exact (word.append (ihc st)).append (writes_body ihb)
  | @forRange var start stop step body p hv _ _ hd _ ihs ihe ihd ihb =>
    rw [layout_forRange, marks]
    simp only [Marks.kept_append]
    have word : Writes (piece "for ") [] := .sign (by decide)
    have is : Writes (piece " is ") [] := .sign (by decide)
    have comma : Writes (piece ", ") [] := .sign (by decide)
    have third : Writes (if step.isMissing then Layout.nil else piece ", " ++ step.layout st)
        step.marks.kept := by
      by_cases hmiss : step = .missing
      · subst hmiss
        exact .nil
      · rw [(hd hmiss).isMissing]
        exact comma.append (ihd hmiss st)
    have bounds := (((((word.append (hv.writes.2 st)).append is).append (ihs st)).append comma).append (ihe st))
    simpa using (bounds.append third).append (writes_body ihb)
  | @assign targets sources p _ _ hsn _ iht ihs =>
    rw [layout_assign st hsn, marks, marksAll_eq, marksAll_eq, Marks.kept_append, Marks.kept_flatMap,
      Marks.kept_flatMap]
    have sign : Writes (piece " = ") [] := .sign (by decide)
    exact (Writes.commas fun e he => iht e he st).append (sign.append (.commas fun e he => ihs e he st))
  | update _ _ _ _ iht ihs =>
    rw [layout, marks, Marks.kept_append]
    simpa using ((iht st).append (.mark (isAtom_spaced _))).append (ihs st)
  | item | field | funcDef | listOf | mapOf | setOf | switch | repeatUntil | forEach | returnValue =>
    exact .fail _

end Node

/-- What is written for a program are its names and literals in the order of the source, each once,
without those of last clauses that are not written. So nothing is lost exactly if there is nothing in
such clauses to be lost. -/
theorem fringe_format {src : String} {tree : Node} {tight : Bool} (h : parse src = .ok tree)
    (hf : (format tight tree).failure = none) :
    (format tight tree).fringe = tree.marks.kept ∧
      ((format tight tree).fringe = tree.fringe ↔ tree.marks.lost = []) := by
  obtain ⟨-, stats, rfl, hformed⟩ := formed_of_parse h
  have writes : Layout.Writes (format tight (.program stats)) (Node.program stats).marks.kept := by
    rw [format, Node.layout, Node.marks, Node.marksAll_eq, Marks.kept_flatMap, Node.layouts_eq, List.map_map]
    exact .concat fun n hn => ((hformed.formed n hn).writes _).line
  rw [writes hf]
  exact ⟨rfl, Marks.kept_eq_iff _⟩

/-- A branch with an `else` in a loop, with lists of targets and arguments. -/
def wholeBranches : String :=
  "while f(k, not true) : if k \x7b x, y = y, x \x7d elif l : z += -1.5 else ;"

/-- A branch whose last clause has a condition. -/
def cutBranches : String := "if k : x = 'a' elif l == 0 : z += 2"

theorem fringe_format_branches :
    (format false (treeOf wholeBranches)).fringe = (treeOf wholeBranches).fringe ∧
    (treeOf wholeBranches).fringe = ["f", "k", "true", "k", "x", "y", "y", "x", "l", "z", "1.5"] ∧
    (format false (treeOf cutBranches)).fringe = ["k", "x", "'a'"] ∧
    (treeOf cutBranches).marks.lost = ["l", "0", "z", "2"] ∧
    (format false (treeOf cutBranches)).fringe ≠ (treeOf cutBranches).fringe := by
  have whole : (parse wholeBranches).isOk = true ∧
      (format false (treeOf wholeBranches)).failure = none ∧ (treeOf wholeBranches).marks.lost = [] ∧
      (treeOf wholeBranches).fringe = ["f", "k", "true", "k", "x", "y", "y", "x", "l", "z", "1.5"] := by
    decide +kernel
  have cut : (parse cutBranches).isOk = true ∧ (format false (treeOf cutBranches)).failure = none ∧
      (treeOf cutBranches).marks.kept = ["k", "x", "'a'"] ∧
      (treeOf cutBranches).marks.lost = ["l", "0", "z", "2"] := by decide +kernel
  have h₁ := fringe_format (parse_eq_treeOf whole.1) whole.2.1
  have h₂ := fringe_format (parse_eq_treeOf cut.1) cut.2.1
  refine ⟨h₁.2.2 whole.2.2.1, whole.2.2.2, h₂.1.trans cut.2.2.1, cut.2.2.2, fun same => ?_⟩
  rw [h₂.2] at same
  cases same.symm.trans cut.2.2.2

end TinyScript
