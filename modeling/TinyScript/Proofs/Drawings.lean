import Mathlib
import TinyScript.Repl
import TinyScript.Proofs.Raises
import TinyScript.Proofs.WellFormed
import TinyScript.Proofs.Wording

/-!
# Programs and their diagrams

A tree that the parser builds has holes where the program leaves something out. All of them are
skipped when the tree is drawn but one: the place of the default of a `switch`. A program has a
diagram exactly if each `switch` in it, however deep, has a default (`diagram_of_parse`).

All kinds of nodes are drawn as boxes with a label, but whether a box stands for a statement or an
expression is known from where it is, and then its label and the number of its parts say the rest
(`Diagram.tree`). So two programs with the same diagram are the same but for places and for which of their
declarations are of constants (`outline_of_diagram`).
-/

namespace TinyScript

open List

namespace Node

mutual

/-- The tree without places, and with all declarations as those of variables. -/
@[simp] def outline : Node → Node
  | .missing => .missing
  | .empty => .empty
  | .program stats => .program (outlines stats)
  | .block stats _ => .block (outlines stats) .start
  | .declare names inits _ _ => .declare (outlines names) (outlinesOpt inits) false .start
  | .branch conds bodies _ => .branch (outlines conds) (outlines bodies) .start
  | .switch subject cases bodies fallback _ =>
    .switch (outline subject) (outlines cases) (outlines bodies) (outline fallback) .start
  | .repeatUntil cond body _ => .repeatUntil (outline cond) (outline body) .start
  | .whileLoop cond body _ => .whileLoop (outline cond) (outline body) .start
  | .forRange var start stop step body _ =>
    .forRange (outline var) (outline start) (outline stop) (outline step) (outline body) .start
  | .forEach key val subject body _ =>
    .forEach (outline key) (outline val) (outline subject) (outline body) .start
  | .breakLoop _ => .breakLoop .start
  | .continueLoop _ => .continueLoop .start
  | .returnValue expr _ => .returnValue (outline expr) .start
  | .assign targets sources _ => .assign (outlines targets) (outlines sources) .start
  | .update op target source _ => .update op (outline target) (outline source) .start
  | .funcDef params vararg body _ => .funcDef (outlinesOpt params) vararg (outlines body) .start
  | .call callee args _ => .call (outline callee) (outlinesOpt args) .start
  | .select cond yes no _ => .select (outline cond) (outline yes) (outline no) .start
  | .binary op left right _ => .binary op (outline left) (outline right) .start
  | .unary op operand _ => .unary op (outline operand) .start
  | .listOf items _ => .listOf (outlinesOpt items) .start
  | .mapOf keys values _ => .mapOf (outlines keys) (outlines values) .start
  | .setOf items _ => .setOf (outlinesOpt items) .start
  | .access base key dot _ => .access (outline base) (outline key) dot .start
  | .name ident _ => .name ident .start
  | .number text isInt _ => .number text isInt .start
  | .string value _ => .string value .start
  | .bool value _ => .bool value .start
  | .null _ => .null .start

def outlines : List Node → List Node
  | [] => []
  | n :: ns => outline n :: outlines ns

def outlinesOpt : Option (List Node) → Option (List Node)
  | none => none
  | some ns => some (outlines ns)

end

@[simp] theorem outlines_eq (ns : List Node) : outlines ns = ns.map outline := by
  induction ns with
  | nil => rfl
  | cons n ns ih => rw [outlines, ih, map_cons]

@[simp] theorem outlinesOpt_eq (ns : Option (List Node)) : outlinesOpt ns = ns.map (List.map outline) := by
  cases ns with
  | none => rfl
  | some ns => rw [outlinesOpt, outlines_eq, Option.map_some]

end Node

/-! ### The tree that a diagram shows -/

namespace Diagram

/-- The operator of the list that is spelled so. -/
def opOf (ops : List TokenKind) (label : String) : TokenKind := (ops.find? (·.spelling == label)).getD .eof

def exprLeaf (label : String) : Node :=
  match label.toList with
  | '<' :: cs => .number (.ofList cs.dropLast) (!cs.contains '.') .start
  | '\x60' :: cs => .string (.ofList cs.dropLast) .start
  | _ =>
    if label = ";" then .missing
    else if label = "null" then .null .start
    else if label ∈ ["true", "false"] then .bool label .start
    else .name label .start

def statLeaf : String → Node
  | "break" => .breakLoop .start
  | "continue" => .continueLoop .start
  | _ => .empty

/-- The labels of boxes that say which part of something an expression is. -/
abbrev partLabels : List String := ["func", "expr", "until", "while", "idx", "in", "start", "end", "step"]

/-- What a box around one expression shows: the expression, or an operator on it. -/
def around (label : String) (e : Node) : Node :=
  if label ∈ partLabels then e else .unary (opOf TokenKind.unaries label) e .start

@[simp] theorem around_part {label : String} (h : label ∈ partLabels) (e : Node) : around label e = e :=
  if_pos h

@[simp] def exprBox (label : String) (es : List Node) (egs sgs : List (List Node)) : Node :=
  match label with
  | "call" => .call (es.headD .missing) egs[1]? .start
  | "list" => .listOf (given es) .start
  | "map" => .mapOf (egs.map (·.headD .missing)) (egs.map (·.getD 1 .missing)) .start
  | "set" => .setOf (some es) .start
  | "[]" => .access (es.headD .missing) (es.getD 1 .missing) false .start
  | "." => .access (es.headD .missing) (es.getD 1 .missing) true .start
  | "?:" => .select (es.headD .missing) (es.getD 1 .missing) (es.getD 2 .missing) .start
  | _ =>
    match es with
    | [e] => around label e
    | [l, r] =>
      if label = "func" then .funcDef (given (egs.headD [])) false (sgs.getD 1 []) .start
      else .binary (opOf TokenKind.dyadics label) l r .start
    | _ => .missing

@[simp] def statBox (label : String) (es ss : List Node) (egs sgs : List (List Node)) : Node :=
  match label with
  | "Program" => .program ss
  | "block" => .block ss .start
  | "decl" => .declare (egs.headD []) egs[1]? false .start
  | "if" => .branch (egs.map (·.headD .missing)) (sgs.map (·.getD 1 .missing)) .start
  | "switch" =>
    .switch (es.headD .missing) (egs.tail.dropLast.map (·.headD .missing))
      (sgs.tail.dropLast.map (·.getD 1 .missing)) (ss.tail.getLastD .missing) .start
  | "repeat" => .repeatUntil (es.getD 1 .missing) (ss.headD .missing) .start
  | "while" => .whileLoop (es.getD 1 .missing) (ss.headD .missing) .start
  | "forloop" =>
    let range := egs.getD 1 []
    .forRange (es.headD .missing) (range.headD .missing) (range.getD 1 .missing) (range.getD 2 .missing)
      (ss.getD 2 .missing) .start
  | "foreach" =>
    let names := egs.headD []
    .forEach (names.headD .missing) (names.getD 1 .missing) (es.getD 1 .missing) (ss.getD 2 .missing) .start
  | "return" => .returnValue (es.headD .missing) .start
  | "=" => .assign (egs.headD []) (egs.getD 1 []) .start
  | "do" | "default" => ss.headD .missing
  | "call" => exprBox "call" es egs sgs
  | _ => .update (opOf TokenKind.updates label) (es.headD .missing) (es.getD 1 .missing) .start

mutual

/-- The tree that a diagram shows, which is a statement or an expression. -/
@[simp] def tree : Bool → Diagram → Node
  | false, .leaf label => exprLeaf label
  | true, .leaf label => statLeaf label
  | false, .box label ds => exprBox label (trees false ds) (groups false ds) (groups true ds)
  | true, .box label ds =>
    statBox label (trees false ds) (trees true ds) (groups false ds) (groups true ds)

def trees : Bool → List Diagram → List Node
  | _, [] => []
  | stat, d :: ds => tree stat d :: trees stat ds

/-- The trees that the parts of each diagram show. -/
@[simp] def groups : Bool → List Diagram → List (List Node)
  | _, [] => []
  | stat, .leaf _ :: ds => [] :: groups stat ds
  | stat, .box _ ks :: ds => trees stat ks :: groups stat ds

end

@[simp] theorem trees_eq (stat : Bool) (ds : List Diagram) : trees stat ds = ds.map (tree stat) := by
  induction ds with
  | nil => rfl
  | cons d ds ih => rw [trees, ih, map_cons]

@[simp] theorem groups_append (stat : Bool) (ds ds' : List Diagram) :
    groups stat (ds ++ ds') = groups stat ds ++ groups stat ds' := by
  induction ds with
  | nil => rfl
  | cons d ds ih => cases d <;> simp [ih]

theorem exprBox_binary {op : TokenKind} (hop : op ∈ TokenKind.dyadics) (l r : Node)
    (egs sgs : List (List Node)) : exprBox op.spelling [l, r] egs sgs = .binary op l r .start := by
  simp only [TokenKind.dyadics, mem_cons, not_mem_nil, or_false] at hop
  rcases hop with rfl | rfl | rfl | rfl | rfl | rfl | rfl | rfl | rfl | rfl | rfl | rfl | rfl | rfl | rfl |
    rfl | rfl | rfl | rfl | rfl | rfl
  all_goals rfl

theorem exprBox_unary {op : TokenKind} (hop : op ∈ TokenKind.unaries) (e : Node)
    (egs sgs : List (List Node)) : exprBox op.spelling [e] egs sgs = .unary op e .start := by
  simp only [TokenKind.unaries, mem_cons, not_mem_nil, or_false] at hop
  rcases hop with rfl | rfl | rfl | rfl | rfl
  all_goals rfl

theorem statBox_update {op : TokenKind} (hop : op ∈ TokenKind.updates) (t s : Node) (ss : List Node)
    (egs sgs : List (List Node)) : statBox op.spelling [t, s] ss egs sgs = .update op t s .start := by
  simp only [TokenKind.updates, mem_cons, not_mem_nil, or_false] at hop
  rcases hop with rfl | rfl | rfl | rfl | rfl | rfl | rfl | rfl | rfl | rfl | rfl
  all_goals rfl

theorem exprLeaf_number (x : String) :
    exprLeaf s!"<{x}>" = .number x (!x.toList.contains '.') .start := by
  have h : ("<" ++ x ++ ">").toList = '<' :: (x.toList ++ ['>']) := by simp
  show exprLeaf ("<" ++ x ++ ">") = _
  simp [exprLeaf, h]

theorem exprLeaf_string (x : String) : exprLeaf s!"`{x}`" = .string x .start := by
  have h : ("`" ++ x ++ "`").toList = '\x60' :: (x.toList ++ ['\x60']) := by simp
  show exprLeaf ("`" ++ x ++ "`") = _
  simp [exprLeaf, h]

theorem exprLeaf_name {x : String} (h : IsIdentifier x) : exprLeaf x = .name x .start := by
  obtain ⟨⟨c, cs, hx, hc, -⟩, hk⟩ := h
  have hwords : ∀ w ∈ ["null", "true", "false"], ∃ k ∈ TokenKind.keywords, k.spelling = w := by decide
  have hword : ∀ w ∈ ["null", "true", "false"], x ≠ w := by
    rintro w hw rfl
    obtain ⟨k, hmem, hs⟩ := hwords x hw
    exact hk k hmem hs
  have hstart : c ≠ '<' ∧ c ≠ '\x60' ∧ c ≠ ';' := by
    refine ⟨?_, ?_, ?_⟩
    all_goals
      rintro rfl
      exact absurd hc (by decide)
  have hsemi : x ≠ ";" := by
    rintro rfl
    cases hx
    exact hstart.2.2 rfl
  unfold exprLeaf
  rw [hx]
  simp_all

end Diagram

theorem TextOf.contains_point {k : TokenKind} {x : String} (h : TextOf Lexeme.Scanned k x)
    (hk : k ∈ [.intLiteral, .floatLiteral]) : x.toList.contains '.' = (k == .floatLiteral) := by
  obtain ⟨l, hl, rfl, rfl⟩ := h
  have hne : ∀ k ∈ [TokenKind.intLiteral, .floatLiteral], k ≠ .eof ∧ k ∉ TokenKind.operators ∧
      k ∉ .identifier :: TokenKind.keywords := by decide
  obtain ⟨heof, hop, hword⟩ := hne _ hk
  obtain ⟨span, rest, hs, -⟩ := hl.resolve_left heof
  cases hs with
  | int _ hd =>
    simp only [Option.getD_some, String.toList_ofList]
    refine Bool.eq_false_iff.2 fun hc => ?_
    exact absurd (hd '.' (contains_iff_mem.1 hc)) (by decide)
  | float => simp
  | string => simp at hk
  | word => exact absurd (Scan.ofWord_mem _) hword
  | operator h => exact absurd (mem_of_find?_eq_some h) hop

/-! ### Drawing -/

/-- Drawing yields something of which `R` holds if `P` does, and fails at a hole otherwise. -/
def Draws {α : Type} (x : Except Failure α) (P : Prop) (R : α → Prop) : Prop :=
  (P → ∃ a, x = .ok a ∧ R a) ∧ (¬P → x = .error (.unsupported .hole))

namespace Draws

variable {α β γ : Type} {x : Except Failure α} {y : Except Failure β} {f : α → Except Failure β}
  {P Q : Prop} {R T : α → Prop} {S : β → Prop} {U : γ → Prop}

theorem pure {a : α} (h : R a) : Draws (Pure.pure a : Except Failure α) True R :=
  ⟨fun _ => ⟨a, rfl, h⟩, fun h => absurd trivial h⟩

theorem iff (h : Draws x P R) (hq : P ↔ Q) : Draws x Q R := by rwa [← propext hq]

theorem imp (h : Draws x P R) (hr : ∀ a, R a → T a) : Draws x P T :=
  ⟨fun hp => (h.1 hp).imp fun a ha => ⟨ha.1, hr a ha.2⟩, h.2⟩

theorem bind (hx : Draws x P R) (hf : ∀ a, R a → Draws (f a) Q S) : Draws (x >>= f) (P ∧ Q) S := by
  by_cases hp : P
  · obtain ⟨a, rfl, ha⟩ := hx.1 hp
    exact (hf a ha).iff (by simp [hp])
  · rw [hx.2 hp]
    exact ⟨fun h => absurd h.1 hp, fun _ => rfl⟩

theorem map (g : α → β) (hx : Draws x P R) (hg : ∀ a, R a → S (g a)) :
    Draws (do return g (← x)) P S :=
  (hx.bind fun a ha => pure (hg a ha)).iff (iff_of_eq (and_true P))

theorem map₂ (g : α → β → γ) (hx : Draws x P R) (hy : Draws y Q S)
    (hg : ∀ a b, R a → S b → U (g a b)) : Draws (do return g (← x) (← y)) (P ∧ Q) U :=
  hx.bind fun a ha => hy.map (g a) fun b => hg a b ha

end Draws

namespace Node

open Diagram (box leaf tree trees groups)

variable {n k : Node} {ns : List Node} {r : Role} {d : Diagram} {stat : Bool}

/-- The node is no `switch`, or one with a default. -/
def hasDefault : Node → Bool
  | .switch _ _ _ fallback _ => !fallback.isMissing
  | _ => true

/-- Each `switch` in the tree has a default. -/
def Defaulted (n : Node) : Prop := ∀ k, n.Occurs k → k.hasDefault = true

theorem defaulted_iff : n.Defaulted ↔ n.hasDefault = true ∧ ∀ p ∈ n.parts, p.Defaulted := by
  constructor
  · exact fun h => ⟨h n .self, fun p hp k hk => h k (.of_part hp hk)⟩
  · rintro ⟨hn, hparts⟩ k hk
    rcases occurs_iff.1 hk with rfl | ⟨p, hp, hk⟩
    · exact hn
    · exact hparts p hp k hk

theorem defaulted_missing : Node.missing.Defaulted :=
  defaulted_iff.2 ⟨rfl, fun _ h => absurd h not_mem_nil⟩

/-- The tree has a diagram exactly if each `switch` has a default, and it is a diagram of that tree. -/
abbrev DrawnAs (stat : Bool) (n : Node) : Prop :=
  Draws n.diagram n.Defaulted fun d => tree stat d = n.outline

/-- The diagram shows the tree in a place of the role. A call may stand as a statement. -/
@[simp] def Shows : Role → Node → Diagram → Prop
  | .stat, n, d => tree true d = n.outline
  | .call, n, d => tree true d = n.outline ∧ tree false d = n.outline
  | _, n, d => tree false d = n.outline

theorem Shows.expr (h : Shows r n d) (hr : r ≠ .stat) : Shows .expr n d := by
  cases r with
  | stat => exact absurd rfl hr
  | call => exact h.2
  | place | function | expr => exact h

def Drawn (r : Role) (n : Node) : Prop := Draws n.diagram n.Defaulted (Shows r n)

theorem Drawn.expr (h : n.Drawn r) (hr : r ≠ .stat) : n.Drawn .expr := h.imp fun _ hd => hd.expr hr

/-- A node that is no `switch` is drawn as its parts are. -/
theorem Drawn.of_parts (hn : n.hasDefault = true)
    (h : Draws n.diagram (∀ p ∈ n.parts, p.Defaulted) (Shows r n)) : n.Drawn r :=
  h.iff (by rw [defaulted_iff, hn]; simp)

theorem drawn_leaf (hn : n.hasDefault = true) (hp : n.parts = [])
    (h : n.diagram = .ok d) (hd : Shows r n d) : n.Drawn r := by
  refine .of_parts hn ?_
  rw [h, hp]
  exact (Draws.pure hd).iff (by simp)

/-! ### Several nodes -/

theorem draws_all (h : ∀ n ∈ ns, n.DrawnAs stat) :
    Draws ((diagrams ns).mapM id) (∀ n ∈ ns, n.Defaulted) fun ds => ds.map (tree stat) = ns.map outline := by
  induction ns with
  | nil => exact Draws.iff (P := True) (.pure rfl) (by simp)
  | cons n ns ih =>
    obtain ⟨hn, hns⟩ := forall_mem_cons.1 h
    rw [diagrams, mapM_cons]
    refine (hn.map₂ List.cons (ih hns) fun d ds hd hds => ?_).iff forall_mem_cons.symm
    rw [map_cons, hd, hds, map_cons]

theorem draws_clauses {cs bs : List Node} (label : String) (hlen : cs.length = bs.length)
    (hc : ∀ n ∈ cs, n.DrawnAs false) (hb : ∀ n ∈ bs, n.DrawnAs stat) :
    Draws (((diagrams cs).zip (diagrams bs)).mapM fun x => return box label [← x.1, ← x.2])
      (∀ n ∈ cs ++ bs, n.Defaulted) fun ds =>
        (groups false ds).map (·.headD .missing) = cs.map outline ∧
          (groups stat ds).map (·.getD 1 .missing) = bs.map outline := by
  induction cs generalizing bs with
  | nil =>
    cases bs with
    | nil => exact Draws.iff (P := True) (.pure ⟨rfl, rfl⟩) (by simp)
    | cons => cases hlen
  | cons c cs ih =>
    cases bs with
    | nil => cases hlen
    | cons b bs =>
      obtain ⟨hc₁, hcs⟩ := forall_mem_cons.1 hc
      obtain ⟨hb₁, hbs⟩ := forall_mem_cons.1 hb
      have pair := hc₁.map₂ (fun c b => box label [c, b]) hb₁
        (U := fun d => ∃ x y, d = box label [x, y] ∧ tree false x = c.outline ∧ tree stat y = b.outline)
        fun x y hx hy => ⟨x, y, rfl, hx, hy⟩
      have rest := ih (Nat.succ.inj hlen) hcs hbs
      simp only [diagrams, zip_cons_cons, mapM_cons]
      refine (pair.map₂ List.cons rest ?_).iff ?_
      · rintro _ ds ⟨x, y, rfl, hx, hy⟩ hds
        simpa [hx, hy] using hds
      · simp only [forall_mem_append, forall_mem_cons]
        tauto

theorem draws_keyed {ks vs : List Node} (hlen : ks.length = vs.length) (hk : ∀ n ∈ ks, n.DrawnAs false)
    (hv : ∀ n ∈ vs, n.isMissing = false ∧ n.DrawnAs false) :
    Draws (((diagrams ks).zip ((diagrams vs).zip (vs.map Node.isMissing))).mapM fun x =>
        if x.2.2 then return box "pair" [← x.1] else return box "pair" [← x.1, ← x.2.1])
      (∀ n ∈ ks ++ vs, n.Defaulted) fun ds =>
        (groups false ds).map (·.headD .missing) = ks.map outline ∧
          (groups false ds).map (·.getD 1 .missing) = vs.map outline := by
  have same : ((diagrams ks).zip ((diagrams vs).zip (vs.map Node.isMissing))).mapM (fun x =>
        if x.2.2 then return box "pair" [← x.1] else return box "pair" [← x.1, ← x.2.1])
      = ((diagrams ks).zip (diagrams vs)).mapM
          (fun x => return box "pair" [← x.1, ← x.2] : _ → Except Failure Diagram) := by
    clear hlen hk
    induction vs generalizing ks with
    | nil => simp [diagrams]
    | cons v vs ih =>
      obtain ⟨⟨hm, -⟩, hvs⟩ := forall_mem_cons.1 hv
      cases ks with
      | nil => rfl
      | cons k ks =>
        simp only [diagrams, map_cons, zip_cons_cons, mapM_cons, ih hvs, hm,
          Bool.false_eq_true, if_false]
  rw [same]
  exact draws_clauses "pair" hlen hk fun n hn => (hv n hn).2

/-! ### Trees of the parser -/

theorem NameOf.drawn (h : NameOf Lexeme.Scanned n) : n.Drawn .place := by
  obtain ⟨x, p, rfl, hx⟩ := h
  exact drawn_leaf rfl rfl rfl (Diagram.exprLeaf_name hx.isIdentifier)

/-- A part may be left out, and what follows it is drawn in either case. -/
theorem draws_optional {α β : Type} {x : Except Failure α} {next : β → Except Failure α} {Q : Prop}
    {T : β → Prop} {S : α → Prop} (b : β) (g : Diagram → β) (h : n ≠ .missing → n.DrawnAs false)
    (hb : n = .missing → T b) (hg : ∀ d, tree false d = n.outline → T (g d))
    (hnext : ∀ b, T b → Draws (next b) Q S)
    (hx : n = .missing → x = next b)
    (hx' : n ≠ .missing → x = n.diagram >>= fun d => next (g d)) : Draws x (n.Defaulted ∧ Q) S := by
  by_cases hn : n = .missing
  · rw [hx hn, hn]
    exact (hnext b (hb hn)).iff (by simp [defaulted_missing])
  · rw [hx' hn]
    exact (h hn).bind fun d hd => hnext (g d) (hg d hd)

/-- The diagrams show a part that may be left out. -/
@[simp] def ShowsAtMost (n : Node) (ds : List Diagram) : Prop :=
  (ds.map (tree false)).getD 0 .missing = n.outline

theorem given_map_outline {ns : Option (List Node)} (h : ns ≠ some []) :
    given ((ns.getD []).map outline) = ns.map (List.map outline) := by
  cases ns with
  | none => rfl
  | some ns => exact given_of_ne_nil (by simpa using h)

theorem Formed.drawn (h : Formed Lexeme.Scanned r n) : n.Drawn r := by
  induction h with
  | name hx => exact drawn_leaf rfl rfl rfl (Diagram.exprLeaf_name hx.isIdentifier)
  | int hx | float hx =>
    refine drawn_leaf rfl rfl rfl ((Diagram.exprLeaf_number _).trans ?_)
    rw [hx.contains_point (by decide)]
    rfl
  | string => exact drawn_leaf rfl rfl rfl (Diagram.exprLeaf_string _)
  | @bool k x p hk hx =>
    have hword : ∀ k ∈ [TokenKind.kwTrue, .kwFalse],
        k ∉ [.eof, .identifier, .intLiteral, .floatLiteral, .stringLiteral] := by decide
    obtain ⟨-, rfl⟩ := hx.stands_of (hword k hk)
    simp only [mem_cons, not_mem_nil, or_false] at hk
    rcases hk with rfl | rfl
    all_goals exact drawn_leaf rfl rfl rfl rfl
  | otherwise | null | empty | breakLoop | continueLoop => exact drawn_leaf rfl rfl rfl rfl
  | operand hr _ ih => exact ih.expr (ne_of_mem_of_not_mem hr (by decide))
  | callStat _ ih => exact ih.imp fun _ hd => hd.1
  | item _ _ hb hk =>
    refine .of_parts rfl ((hb.map₂ (fun b k => box "[]" [b, k]) hk ?_).iff (by simp [parts]))
    simp +contextual
  | @field base x p q _ hx hb =>
    have hk : (Node.string x q).Drawn .expr := drawn_leaf rfl rfl rfl (Diagram.exprLeaf_string x)
    refine .of_parts rfl ((hb.map₂ (fun b k => box "." [b, k]) hk ?_).iff (by simp [parts]))
    simp +contextual
  | @funcDef params body p hne hp _ _ hb =>
    refine .of_parts rfl ?_
    cases params with
    | none =>
      refine (draws_all hb).map (fun b => box "func" [box "params" [], box "body" b]) ?_
      simp +contextual [given]
    | some params =>
      have hps := draws_all fun x hx => (hp x hx).drawn
      refine (hps.map₂ (fun ps b => box "func" [box "params" (ps ++ []), box "body" b])
        (draws_all hb) ?_).iff ?_
      · have := given_map_outline hne
        simp_all +contextual
      · simp only [parts, Option.getD_some, forall_mem_append]
  | @call r callee args p hr _ hne _ hc ha =>
    have hc := hc.expr (ne_of_mem_of_not_mem hr (by decide))
    refine .of_parts rfl ?_
    cases args with
    | none =>
      refine (hc.map (fun c => box "call" [box "func" [c]]) ?_).iff (by simp [parts])
      simp +contextual
    | some args =>
      cases args with
      | nil => exact absurd rfl hne
      | cons a args =>
        obtain ⟨ha₁, has⟩ := forall_mem_cons.1 ha
        refine (hc.bind fun c hc => ha₁.map₂ (fun a as =>
          box "call" [box "func" [c], box "args" (a :: as)]) (draws_all has) ?_).iff (by simp [parts])
        simp_all
  | select _ _ _ hc hy hn =>
    refine .of_parts rfl ((hc.bind fun c hc =>
      hy.map₂ (fun y n => box "?:" [c, y, n]) hn ?_).iff (by simp [parts]))
    simp_all
  | binary hop _ _ _ hl hr =>
    have hops : ∀ op ∈ .pow :: Grammar.levels.flatMap (·.ops), op ∈ TokenKind.dyadics := by decide
    refine .of_parts rfl ((hl.map₂ (fun l r => box _ [l, r]) hr fun l r hl hr => ?_).iff (by simp [parts]))
    have hes : trees false [l, r] = [_, _] := congrArg₂ (fun e e' => [e, e']) hl hr
    show Diagram.exprBox _ (trees false [l, r]) _ _ = _
    rw [hes]
    exact Diagram.exprBox_binary (hops _ hop) _ _ _ _
  | unary hop _ _ ho =>
    refine .of_parts rfl ((ho.map (fun o => box _ [o]) fun o ho => ?_).iff (by simp [parts]))
    have hes : trees false [o] = [_] := congrArg (fun e => [e]) ho
    show Diagram.exprBox _ (trees false [o]) (groups false [o]) (groups true [o]) = _
    rw [hes]
    exact Diagram.exprBox_unary hop _ _ _
  | @listOf items p hne _ hi =>
    refine .of_parts rfl ?_
    cases items with
    | none => exact (Draws.pure (by simp [given])).iff (by simp [parts])
    | some items =>
      have := given_map_outline hne
      exact (draws_all hi).map (box "list") (by simp_all)
  | mapOf hlen _ hv' hk hv =>
    have pairs := draws_keyed hlen hk fun v h => ⟨(hv' v h).isMissing, hv v h⟩
    exact .of_parts rfl (pairs.map (box "map") (by simp +contextual))
  | setOf _ _ hi => exact .of_parts rfl ((draws_all hi).map (box "set") (by simp +contextual))
  | block _ _ hs => exact .of_parts rfl ((draws_all hs).map (box "block") (by simp +contextual))
  | @declare names inits isConst p _ hn _ _ hi =>
    have hnames := draws_all fun x hx => (hn x hx).drawn
    refine .of_parts rfl ?_
    cases inits with
    | none =>
      refine (hnames.map (fun ns => box "decl" [box "names" ns]) ?_).iff (by simp [parts])
      simp +contextual
    | some inits =>
      refine (hnames.map₂ (fun ns vs => box "decl" [box "names" ns, box "values" vs])
        (draws_all hi) (by simp +contextual)).iff ?_
      simp only [parts, Option.getD_some, forall_mem_append]
  | branch hlen _ _ _ _ hc hb =>
    exact .of_parts rfl ((draws_clauses "cond" hlen hc hb).map (box "if") (by simp +contextual))
  | @switch subject cases bodies fallback p _ hlen _ _ _ _ hs hc hb hf =>
    have clauses := draws_clauses "case" hlen hc hb
    by_cases hmiss : fallback = .missing
    · -- whether a part before it has a diagram or not, drawing stops at a hole
      subst hmiss
      have hole : Draws (Node.missing.diagram) False fun _ => False := ⟨False.elim, fun _ => rfl⟩
      refine (hs.bind fun s _ => clauses.bind fun cs _ => hole.map (fun d =>
        box "switch" (box "expr" [s] :: cs ++ [box "default" [d]])) fun _ => False.elim).iff ?_
      simp [defaulted_iff (n := Node.switch ..), hasDefault, Node.isMissing]
    · have hdef : (Node.switch subject cases bodies fallback p).hasDefault = true := by
        cases fallback <;> first | rfl | exact absurd rfl hmiss
      refine .of_parts hdef ((hs.bind fun s hs => clauses.map₂ (fun cs d =>
        box "switch" (box "expr" [s] :: cs ++ [box "default" [d]])) (hf hmiss) ?_).iff ?_)
      · simp_all
      · simp only [parts, forall_mem_cons]
        tauto
  | repeatUntil _ _ hc hb =>
    refine .of_parts rfl ((hb.map₂ (fun b c => box "repeat" [box "do" [b], box "until" [c]]) hc ?_).iff ?_)
    · simp +contextual
    · simp [parts, and_comm]
  | whileLoop _ _ hc hb =>
    refine .of_parts rfl ((hb.map₂ (fun b c => box "while" [box "do" [b], box "while" [c]]) hc ?_).iff ?_)
    · simp +contextual
    · simp [parts, and_comm]
  | @forRange var start stop step body p hv _ _ _ _ hs he hd hb =>
    refine .of_parts rfl ?_
    rw [diagram]
    refine .iff (hv.drawn.bind fun v hv => hs.bind fun a ha => he.bind fun z hz =>
      draws_optional (T := ShowsAtMost step) [] (fun d => [box "step" [d]]) hd ?_ ?_ (fun d hd =>
        hb.map (fun b => box "forloop"
          [box "idx" [v], box "range" ([box "start" [a], box "end" [z]] ++ d), box "do" [b]]) ?_)
        ?_ fun hmiss => ?_) ?_
    · rintro rfl
      rfl
    · simp +contextual
    · simp_all
    · rintro rfl
      rfl
    · cases step <;> first | rfl | exact absurd rfl hmiss
    · simp [parts]
  | @forEach key val subject body p hk hv _ _ hs hb =>
    refine .of_parts rfl ?_
    rw [diagram]
    refine .iff (hk.drawn.bind fun k hk =>
      draws_optional (T := ShowsAtMost val) [] (fun d => [d]) (fun h => (hv h).drawn) ?_ ?_ (fun v hv =>
        hs.map₂ (fun s b => box "foreach" [box "k/v" (k :: v), box "in" [s], box "do" [b]]) hb ?_)
        ?_ fun hmiss => ?_) ?_
    · rintro rfl
      rfl
    · simp +contextual
    · simp_all
    · rintro rfl
      rfl
    · cases val <;> first | rfl | exact absurd rfl hmiss
    · simp [parts]
  | @returnValue expr p _ he =>
    refine .of_parts rfl ((draws_optional (box "return" [leaf ";"]) (fun d => box "return" [d]) he
      ?_ ?_ (fun d hd => Draws.pure (a := d) hd) ?_ ?_).iff ?_)
    · rintro rfl
      rfl
    · simp +contextual
    · rintro rfl
      rfl
    · intro hmiss
      cases expr <;> first | rfl | exact absurd rfl hmiss
    · simp [parts]
  | assign _ _ _ _ ht hs =>
    refine .of_parts rfl (((draws_all ht).map₂ (fun t s => box "=" [box "lexprs" t, box "rexprs" s])
      (draws_all hs) (by simp +contextual)).iff ?_)
    simp only [parts, forall_mem_append]
  | update hop _ _ _ ht hs =>
    refine .of_parts rfl ((ht.map₂ (fun t s => box _ [t, s]) hs fun t s ht hs => ?_).iff (by simp [parts]))
    have hes : trees false [t, s] = [_, _] := congrArg₂ (fun e e' => [e, e']) ht hs
    show Diagram.statBox _ (trees false [t, s]) _ _ _ = _
    rw [hes]
    exact Diagram.statBox_update hop _ _ _ _ _

end Node

theorem FormedProgram.drawn {stats : List Node} (h : FormedProgram stats) :
    (Node.program stats).DrawnAs true := by
  have hstats := Node.draws_all fun n hn => (h.formed n hn).drawn
  exact Node.Drawn.of_parts (r := .stat) rfl (hstats.map (Diagram.box "Program") (by simp +contextual))

/-- The diagram of a program shows the program. -/
theorem tree_of_diagram {src : String} {tree : Node} {d : Diagram} (h : parse src = .ok tree)
    (hd : tree.diagram = .ok d) : d.tree true = tree.outline := by
  obtain ⟨-, stats, rfl, hformed⟩ := formed_of_parse h
  by_cases hdef : (Node.program stats).Defaulted
  · obtain ⟨d', hd', hshows⟩ := hformed.drawn.1 hdef
    rw [hd] at hd'
    cases hd'
    exact hshows
  · have hole := hformed.drawn.2 hdef
    rw [hd] at hole
    cases hole

/-- A program with a default in each `switch` has a diagram, so that it can be run; any other program
is stopped at a hole before it is run. -/
theorem diagram_of_parse {src : String} {tree : Node} (h : parse src = .ok tree) :
    (tree.Defaulted → (∃ d, tree.diagram = .ok d) ∧ ∀ m, Exec.tree src m = .ok tree m) ∧
    (¬tree.Defaulted → tree.diagram = .error (.unsupported .hole) ∧
      ∀ m, Exec.tree src m = .error (.failed (.unsupported .hole)) m) := by
  obtain ⟨-, stats, rfl, hformed⟩ := formed_of_parse h
  have drawn := hformed.drawn
  refine ⟨fun hd => ?_, fun hd => ?_⟩
  · obtain ⟨d, hd, -⟩ := drawn.1 hd
    refine ⟨⟨d, hd⟩, fun m => ?_⟩
    simp only [Exec.tree, h, hd]
  · have hole := drawn.2 hd
    refine ⟨hole, fun m => ?_⟩
    simp only [Exec.tree, h, hole]

/-- Holes of every kind but one, and a `switch` with a default in a function in a list. -/
def drawable : String :=
  "var a for i is 1, 2 : for k in [] : f([func() \x7b switch a case 1 : return; default : ; \x7d])"

/-- The same `switch` without its default. -/
def undrawable : String := "f([func() \x7b switch a case 1 : return; \x7d])"

theorem diagram_of_parse_switches :
    parse drawable = .ok (treeOf drawable) ∧ parse undrawable = .ok (treeOf undrawable) ∧
    (treeOf drawable).Defaulted ∧ ¬(treeOf undrawable).Defaulted ∧
    Exec.tree undrawable {} = .error (.failed (.unsupported .hole)) {} := by
  have whole : (parse drawable).isOk = true ∧ (treeOf drawable).diagram.isOk = true := by decide +kernel
  have parted : (parse undrawable).isOk = true ∧ (treeOf undrawable).diagram.isOk = false := by
    decide +kernel
  have h₁ := diagram_of_parse (parse_eq_treeOf whole.1)
  have h₂ := diagram_of_parse (parse_eq_treeOf parted.1)
  have hd : (treeOf drawable).Defaulted := by
    by_contra hd
    have succeeds := whole.2
    rw [(h₁.2 hd).1] at succeeds
    cases succeeds
  have hu : ¬(treeOf undrawable).Defaulted := by
    intro hu
    obtain ⟨d, hd⟩ := (h₂.1 hu).1
    have fails := parted.2
    rw [hd] at fails
    cases fails
  exact ⟨parse_eq_treeOf whole.1, parse_eq_treeOf parted.1, hd, hu, (h₂.2 hu).2 {}⟩

/-- Programs with the same diagram are the same but for places and for what is declared constant. -/
theorem outline_of_diagram {src src' : String} {tree tree' : Node} {d : Diagram} (h : parse src = .ok tree)
    (h' : parse src' = .ok tree') (hd : tree.diagram = .ok d) (hd' : tree'.diagram = .ok d) :
    tree.outline = tree'.outline := by
  rw [← tree_of_diagram h hd, tree_of_diagram h' hd']

/-- A declaration of constants whose names are labels of diagrams. -/
def constantLabels : String := "const list = -1"

/-- The same declaration, but of variables and on other lines. -/
def variableLabels : String := "var list=\n- 1"

theorem outline_of_diagram_labels :
    parse constantLabels = .ok (treeOf constantLabels) ∧
    parse variableLabels = .ok (treeOf variableLabels) ∧
    (treeOf constantLabels).outline = (treeOf variableLabels).outline := by
  have parsed : (parse constantLabels).isOk = true ∧ (parse variableLabels).isOk = true := by decide +kernel
  have drawn : (treeOf constantLabels).diagram.isOk = true := by decide +kernel
  have same : (treeOf variableLabels).diagram = (treeOf constantLabels).diagram := by cbv
  have h₁ := parse_eq_treeOf parsed.1
  have h₂ := parse_eq_treeOf parsed.2
  cases hd : (treeOf constantLabels).diagram with
  | error e =>
    rw [hd] at drawn
    cases drawn
  | ok d => exact ⟨h₁, h₂, outline_of_diagram h₁ h₂ hd (same.trans hd)⟩

end TinyScript
