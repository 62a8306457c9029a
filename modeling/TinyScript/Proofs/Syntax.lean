import TinyScript.Grammar

/-!
# Statements and expressions

`IsStat` and `IsExpr` are the trees of the grammar, told apart by what may stand where. A program is
a list of statements.
-/

namespace TinyScript

namespace Node

variable {n k : Node}

def IsName (n : Node) : Prop := ∃ x p, n = .name x p

mutual

/-- A tree that yields a value. -/
inductive IsExpr : Node → Prop
  | funcDef {params body p} (hp : ∀ x ∈ params.getD [], IsName x) (hb : ∀ s ∈ body, IsStat s) :
      IsExpr (.funcDef params false body p)
  | call {callee args p} (hc : IsExpr callee) (ha : ∀ a ∈ args.getD [], IsExpr a) :
      IsExpr (.call callee args p)
  | select {cond yes no p} (hc : IsExpr cond) (hy : IsExpr yes) (hn : IsExpr no) :
      IsExpr (.select cond yes no p)
  | binary {op left right p} (hop : op ∉ TokenKind.updates) (hl : IsExpr left) (hr : IsExpr right) :
      IsExpr (.binary op left right p)
  | unary {op operand p} (ho : IsExpr operand) : IsExpr (.unary op operand p)
  | listOf {items p} (hi : ∀ e ∈ items.getD [], IsExpr e) : IsExpr (.listOf items p)
  | mapOf {keys values p} (hk : ∀ e ∈ keys, IsExpr e) (hv : ∀ e ∈ values, IsExpr e) :
      IsExpr (.mapOf keys values p)
  | setOf {items p} (hi : ∀ e ∈ items.getD [], IsExpr e) : IsExpr (.setOf items p)
  | access {base key dot p} (hb : IsExpr base) (hk : IsExpr key) : IsExpr (.access base key dot p)
  | name {x p} : IsExpr (.name x p)
  | number {text isInt p} : IsExpr (.number text isInt p)
  | string {text p} : IsExpr (.string text p)
  | bool {text p} : IsExpr (.bool text p)
  | null {p} : IsExpr (.null p)

/-- A tree that is run for its effects. -/
inductive IsStat : Node → Prop
  | empty : IsStat .empty
  | block {stats p} (hs : ∀ s ∈ stats, IsStat s) : IsStat (.block stats p)
  | declare {names inits isConst p} (hn : ∀ x ∈ names, IsName x)
      (hi : ∀ e ∈ inits.getD [], IsExpr e) : IsStat (.declare names inits isConst p)
  | branch {conds bodies p} (hc : ∀ e ∈ conds, IsExpr e) (hb : ∀ s ∈ bodies, IsStat s) :
      IsStat (.branch conds bodies p)
  | switch {subject cases bodies fallback p} (hs : IsExpr subject) (hc : ∀ e ∈ cases, IsExpr e)
      (hb : ∀ s ∈ bodies, IsStat s) (hf : fallback ≠ .missing → IsStat fallback) :
      IsStat (.switch subject cases bodies fallback p)
  | repeatUntil {cond body p} (hc : IsExpr cond) (hb : IsStat body) :
      IsStat (.repeatUntil cond body p)
  | whileLoop {cond body p} (hc : IsExpr cond) (hb : IsStat body) : IsStat (.whileLoop cond body p)
  | forRange {var start stop step body p} (hv : IsName var) (hs : IsExpr start) (he : IsExpr stop)
      (hd : step ≠ .missing → IsExpr step) (hb : IsStat body) :
      IsStat (.forRange var start stop step body p)
  | forEach {key val subject body p} (hk : IsName key) (hv : val ≠ .missing → IsName val)
      (hs : IsExpr subject) (hb : IsStat body) : IsStat (.forEach key val subject body p)
  | breakLoop {p} : IsStat (.breakLoop p)
  | continueLoop {p} : IsStat (.continueLoop p)
  | returnValue {expr p} (he : expr ≠ .missing → IsExpr expr) : IsStat (.returnValue expr p)
  | assign {targets sources p} (ht : ∀ e ∈ targets, IsExpr e) (hs : ∀ e ∈ sources, IsExpr e) :
      IsStat (.assign targets sources p)
  | update {op target source p} (ht : IsExpr target) (hs : IsExpr source) :
      IsStat (.update op target source p)
  | call {callee args p} (hc : IsExpr callee) (ha : ∀ a ∈ args.getD [], IsExpr a) :
      IsStat (.call callee args p)

end

/-- A program is a list of statements. -/
def IsProgram (n : Node) : Prop := ∃ stats, n = .program stats ∧ ∀ s ∈ stats, IsStat s

theorem IsName.isExpr (h : n.IsName) : n.IsExpr := by
  obtain ⟨x, p, rfl⟩ := h
  exact .name

theorem ident?_eq_some {x : String} (h : n.ident? = some x) : ∃ p, n = .name x p := by
  cases n with
  | name y p =>
    cases h
    exact ⟨p, rfl⟩
  | _ => cases h

theorem isMissing_of_ne (h : n ≠ .missing) : n.isMissing = false := by
  cases n with
  | missing => exact absurd rfl h
  | _ => rfl

theorem ne_missing (h : ¬n.isMissing = true) : n ≠ .missing := by
  rintro rfl
  exact h rfl

/-! ### Parts -/

/-- The nodes that a node is made of. -/
def parts : Node → List Node
  | .program stats | .block stats _ => stats
  | .declare names inits _ _ => names ++ inits.getD []
  | .branch conds bodies _ => conds ++ bodies
  | .switch subject cases bodies fallback _ => subject :: fallback :: (cases ++ bodies)
  | .repeatUntil cond body _ | .whileLoop cond body _ => [cond, body]
  | .forRange var start stop step body _ => [var, start, stop, step, body]
  | .forEach key val subject body _ => [key, val, subject, body]
  | .returnValue expr _ => [expr]
  | .assign targets sources _ => targets ++ sources
  | .update _ target source _ => [target, source]
  | .funcDef params _ body _ => params.getD [] ++ body
  | .call callee args _ => callee :: args.getD []
  | .select cond yes no _ => [cond, yes, no]
  | .binary _ left right _ => [left, right]
  | .unary _ operand _ => [operand]
  | .listOf items _ | .setOf items _ => items.getD []
  | .mapOf keys values _ => keys ++ values
  | .access base key _ _ => [base, key]
  | _ => []

/-- The nodes of a tree. -/
inductive Occurs (tree : Node) : Node → Prop
  | self : Occurs tree tree
  | part {n k : Node} (hn : Occurs tree n) (hk : k ∈ n.parts) : Occurs tree k

theorem Occurs.of_part {p : Node} (hp : p ∈ n.parts) (h : p.Occurs k) : n.Occurs k := by
  induction h with
  | self => exact .part .self hp
  | part _ hk ih => exact .part ih hk

theorem occurs_iff : n.Occurs k ↔ k = n ∨ ∃ p ∈ n.parts, p.Occurs k := by
  constructor
  · intro h
    induction h with
    | self => exact .inl rfl
    | @part a b _ hb ih =>
      rcases ih with rfl | ⟨p, hp, h⟩
      · exact .inr ⟨b, hb, .self⟩
      · exact .inr ⟨p, hp, .part h hb⟩
  · rintro (rfl | ⟨p, hp, h⟩)
    · exact .self
    · exact .of_part hp h

/-- Induction along the parts of a node. -/
theorem induct_parts {P : Node → Prop} (h : ∀ n, (∀ k ∈ n.parts, P k) → P n) (n : Node) : P n := by
  apply @Node.rec P (fun ns => ∀ k ∈ ns, P k) (fun o => ∀ k ∈ o.getD [], P k)
  case nil => exact fun _ hk => absurd hk List.not_mem_nil
  case cons => exact fun _ _ hn hns => List.forall_mem_cons.2 ⟨hn, hns⟩
  case none => exact fun _ hk => absurd hk List.not_mem_nil
  case some => exact fun _ h => h
  all_goals
    intros
    refine h _ ?_
    simp only [parts, List.forall_mem_cons, List.forall_mem_append]
    simp_all

/-! ### Names -/

section Names

variable {x : String} {n : Node}

/-- The name occurs in the tree. -/
def Mentions (x : String) (n : Node) : Prop := ∃ p, n.Occurs (.name x p)

theorem mentions_iff : n.Mentions x ↔ n.ident? = some x ∨ ∃ k ∈ n.parts, k.Mentions x := by
  constructor
  · rintro ⟨p, h⟩
    rcases occurs_iff.1 h with rfl | ⟨k, hk, h⟩
    · exact .inl rfl
    · exact .inr ⟨k, hk, p, h⟩
  · rintro (h | ⟨k, hk, p, h⟩)
    · obtain ⟨p, rfl⟩ := ident?_eq_some h
      exact ⟨p, .self⟩
    · exact ⟨p, .of_part hk h⟩

theorem not_mentions_of_parts (hi : n.ident? = none) (hp : n.parts = []) : ¬n.Mentions x := by
  rw [mentions_iff, hi, hp]
  simp

/-- None of the names in `w` occurs in the tree. -/
def Avoids (w : Option String) (n : Node) : Prop := ∀ x ∈ w, ¬n.Mentions x

theorem Avoids.part {w : Option String} (h : n.Avoids w) (hk : k ∈ n.parts) : k.Avoids w :=
  fun x hx hm => h x hx (mentions_iff.2 (.inr ⟨k, hk, hm⟩))

end Names

end Node

/-- The tree of a text, or a hole if it has none. -/
def treeOf (src : String) : Node :=
  match parse src with
  | .ok tree => tree
  | .error _ => .missing

theorem parse_eq_treeOf {src : String} (h : (parse src).isOk = true) : parse src = .ok (treeOf src) := by
  unfold treeOf
  cases e : parse src with
  | ok tree => rfl
  | error _ => rw [e] at h; cases h

end TinyScript
