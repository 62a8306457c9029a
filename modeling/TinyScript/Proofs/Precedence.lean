import TinyScript.Proofs.BareParse

/-!
# Precedence

The strength of an operator says how tightly it binds, and the strength of a place in an expression
what may stand there without parentheses. `Written c e w` says that `w` spells the expression `e` for
a place of strength `c`; parentheses may stand around any operand. Main statement: `e` is read from `w`
for that strength, whatever comes after it (`Written.reads`). So the rule for expressions builds it, unless
a token comes after `w` that goes on with it (`expr_of_written`).
-/

namespace TinyScript

open Parse List

variable {c : Nat} {e : Node} {w : List Lexeme}

/-! ### Strengths -/

namespace Precedence

variable {op : TokenKind}

/-- The binary operators by strength. Nothing is as weak as the choice between two expressions, and
prefix operators have a strength of their own, between products and powers. -/
def table : List (List TokenKind) :=
  [[], [.kwOr], [.kwAnd], [.kwIn, .kwIs], [.eq, .ne, .lt, .le, .gt, .ge], [.bor], [.bxor], [.band],
   [.bshl, .bshr], [.add, .sub], [.mul, .div, .mod], [], [.pow]]

/-- The binary operators of a strength. -/
def operators (c : Nat) : List TokenKind := table.getD c []

/-- The strength of a choice between two expressions. -/
def choice : Nat := 0

/-- The strength of comparisons, the only operators that do not associate. -/
def comparison : Nat := 4

/-- The strength of prefix operators. -/
def sign : Nat := 11

/-- The strength of what needs no parentheses as an operand. -/
def closed : Nat := 13

/-- The strength of a name and of what is accessed through it. -/
def path : Nat := 14

/-- The strength of the place to the left of an operator of strength `c`. -/
def left (c : Nat) : Nat := if c = comparison then c + 1 else c

/-- The tokens that go on with an expression in a place of strength `c`. -/
def continuing (c : Nat) : List TokenKind :=
  (if c ≤ choice then [.query] else []) ++ (table.drop c).flatten ++
    (if c ≤ closed then [.lparen] else []) ++ (if c ≤ path then [.lbrack, .dot] else [])

/-- The strengths of the operators that are read by a loop. -/
def chains : List Nat := [1, 2, 3, 5, 6, 7, 8, 9, 10, 12]

theorem lt_of_mem_operators (h : op ∈ operators c) : c < closed := by
  refine Nat.lt_of_not_le fun hc => ?_
  rw [operators, getD_eq_getElem?_getD, getElem?_eq_none hc] at h
  exact not_mem_nil h

theorem strength_cases (h : c < path) :
    c = choice ∨ c ∈ chains ∨ c = comparison ∨ c = sign ∨ c = closed := by
  have hall : ∀ c < path, c = choice ∨ c ∈ chains ∨ c = comparison ∨ c = sign ∨ c = closed := by
    decide
  exact hall c h

theorem mem_chains_of_mem_operators (h : op ∈ operators c) :
    c ∈ chains ∧ left c = c ∨ c = comparison := by
  have hall : ∀ c < closed, ∀ op ∈ operators c, c ∈ chains ∧ left c = c ∨ c = comparison := by
    decide
  exact hall c (lt_of_mem_operators h) op h

end Precedence

/-! ### Spelling -/

namespace Lexeme

/-- A token that has one spelling. -/
def of (k : TokenKind) : Lexeme := ⟨k, some k.spelling⟩

def commas : List (List Lexeme) → List Lexeme
  | [] => []
  | w :: ws => w ++ ws.flatMap (of .comma :: ·)

end Lexeme

open Lexeme Precedence

/-- The token of a literal. -/
inductive Literal : Node → Lexeme → Prop
  | int {x : String} {p : Position} : Literal (.number x true p) ⟨.intLiteral, some x⟩
  | float {x : String} {p : Position} : Literal (.number x false p) ⟨.floatLiteral, some x⟩
  | string {x : String} {p : Position} : Literal (.string x p) ⟨.stringLiteral, some x⟩
  | true {p : Position} : Literal (.bool "true" p) (of .kwTrue)
  | false {p : Position} : Literal (.bool "false" p) (of .kwFalse)
  | null {p : Position} : Literal (.null p) (of .kwNull)

/-- `w` spells the expression in a place of strength `c`. -/
inductive Written : Nat → Node → List Lexeme → Prop
  | select {cond yes no : Node} {p : Position} {w v u : List Lexeme}
      (hc : Written (choice + 1) cond w) (hy : Written choice yes v) (hn : Written choice no u) :
      Written choice (.select cond yes no p) (w ++ of .query :: (v ++ of .colon :: u))
  | binary {c : Nat} {op : TokenKind} {l r : Node} {p : Position} {w v : List Lexeme}
      (hop : op ∈ operators c) (hl : Written (left c) l w) (hr : Written (c + 1) r v) :
      Written c (.binary op l r p) (w ++ of op :: v)
  | unary {op : TokenKind} {e : Node} {p : Position} {w : List Lexeme} (hop : op ∈ TokenKind.unaries)
      (h : Written sign e w) : Written sign (.unary op e p) (of op :: w)
  | weaken {c : Nat} {e : Node} {w : List Lexeme} (hc : c < path) (h : Written (c + 1) e w) :
      Written c e w
  | paren {e : Node} {w : List Lexeme} (h : Written choice e w) :
      Written closed e (of .lparen :: (w ++ [of .rparen]))
  | literal {e : Node} {l : Lexeme} (h : Literal e l) : Written closed e [l]
  | listOf {items : Option (List (Node × List Lexeme))} {p : Position} (hne : items ≠ some [])
      (h : ∀ i ∈ items.getD [], Written choice i.1 i.2) :
      Written closed (.listOf (items.map (List.map (·.1))) p)
        (of .lbrack :: (commas ((items.getD []).map (·.2)) ++ [of .rbrack]))
  | setOf {items : List (Node × List Lexeme)} {p : Position} (hne : items ≠ [])
      (h : ∀ i ∈ items, Written choice i.1 i.2) :
      Written closed (.setOf (some (items.map (·.1))) p)
        (of .lbrace :: (commas (items.map (·.2)) ++ [of .rbrace]))
  | mapOf {entries : List ((Node × List Lexeme) × (Node × List Lexeme))} {p : Position}
      (hk : ∀ i ∈ entries, Written choice i.1.1 i.1.2)
      (hv : ∀ i ∈ entries, Written choice i.2.1 i.2.2) :
      Written closed (.mapOf (entries.map (·.1.1)) (entries.map (·.2.1)) p)
        (of .lbrace :: (commas (entries.map fun i => i.1.2 ++ of .colon :: i.2.2) ++ [of .rbrace]))
  | name {x : String} {p : Position} : Written path (.name x p) [⟨.identifier, some x⟩]
  | item {base key : Node} {p : Position} {w v : List Lexeme} (hb : Written path base w)
      (hk : Written choice key v) :
      Written path (.access base key false p) (w ++ of .lbrack :: (v ++ [of .rbrack]))
  | field {base : Node} {x : String} {p q : Position} {w : List Lexeme} (hb : Written path base w) :
      Written path (.access base (.string x q) true p)
        (w ++ [of .dot, ⟨.identifier, some x⟩])
  | call {callee : Node} {args : Option (List (Node × List Lexeme))} {p : Position}
      {w : List Lexeme} (hc : Written path callee w) (hne : args ≠ some [])
      (h : ∀ i ∈ args.getD [], Written choice i.1 i.2) :
      Written closed (.call callee (args.map (List.map (·.1))) p)
        (w ++ of .lparen :: (commas ((args.getD []).map (·.2)) ++ [of .rparen]))

theorem Written.mono {d : Nat} (h : Written d e w) (hcd : c ≤ d) (hd : d ≤ path) : Written c e w := by
  induction hcd with
  | refl => exact h
  | step _ ih => exact ih (.weaken hd h) (Nat.le_of_lt hd)

/-! ### Reading a spelling -/

/-- What an expression in a place of strength `c` is read as. -/
def Precedence.piece : Nat → Piece
  | 0 => .expr
  | 12 => .power
  | 13 => .primary
  | 14 => .place
  | c + 1 => .tower (Grammar.levels.drop c)

theorem Precedence.piece_of_mem_chains (hc : c ∈ chains) :
    piece c = .chain (operators c) (piece (c + 1)) := by
  simp only [chains, mem_cons, not_mem_nil, or_false] at hc
  rcases hc with rfl | rfl | rfl | rfl | rfl | rfl | rfl | rfl | rfl | rfl
  all_goals rfl

namespace Reads

variable {c : Nat} {e : Node} {p : Piece} {items : List (Node × List Lexeme)} {l z : List Token}

theorem weaken (hc : c < path) (h : Reads (piece (c + 1)) l [e] z) : Reads (piece c) l [e] z := by
  rcases strength_cases hc with rfl | hc | rfl | rfl | rfl
  · exact .plain h
  · rw [piece_of_mem_chains hc]
    exact .first h
  · exact .lone h
  · exact .unsigned h
  · exact .operand (.inl rfl) h

theorem commaTail {xs : List Node} (hi : ∀ i ∈ items, ∀ z, Reads p (i.2.map Lexeme.token ++ z) [i.1.bare] z)
    (h : Reads (.commas p) l xs (((items.map (·.2)).flatMap (of .comma :: ·)).map Lexeme.token ++ z)) :
    Reads (.commas p) l (xs ++ items.map (·.1.bare)) z := by
  induction items generalizing xs with
  | nil => simpa using h
  | cons i items ih =>
    rw [forall_mem_cons] at hi
    simp only [map_cons, flatMap_cons, cons_append, map_append, List.append_assoc] at h
    have hnext := ih hi.2 (.more h rfl (hi.1 _))
    rwa [List.append_assoc] at hnext

theorem commas (hne : items ≠ []) (hi : ∀ i ∈ items, ∀ z, Reads p (i.2.map Lexeme.token ++ z) [i.1.bare] z) :
    Reads (.commas p) ((commas (items.map (·.2))).map Lexeme.token ++ z) (items.map (·.1.bare)) z := by
  obtain ⟨i, items, rfl⟩ := exists_cons_of_ne_nil hne
  rw [forall_mem_cons] at hi
  rw [map_cons, Lexeme.commas, map_append, List.append_assoc]
  exact commaTail hi.2 (.one (hi.1 _))

theorem optCommas {items : Option (List (Node × List Lexeme))}
    (hi : ∀ i ∈ items.getD [], ∀ z, Reads p (i.2.map Lexeme.token ++ z) [i.1.bare] z) :
    Reads (.opt (.commas p)) ((Lexeme.commas ((items.getD []).map (·.2))).map Lexeme.token ++ z)
      ((items.getD []).map (·.1.bare)) z := by
  by_cases hne : items.getD [] = []
  · rw [hne]
    exact .absent
  · exact .present (.commas hne hi)

abbrev Entry := (Node × List Lexeme) × (Node × List Lexeme)

theorem entryTail {entries : List Entry} {ks vs : List Node}
    (hk : ∀ i ∈ entries, ∀ z, Reads .expr (i.1.2.map Lexeme.token ++ z) [i.1.1.bare] z)
    (hv : ∀ i ∈ entries, ∀ z, Reads .expr (i.2.2.map Lexeme.token ++ z) [i.2.1.bare] z)
    (h : Reads (.entries ks) l vs
      (((entries.map fun i => i.1.2 ++ of .colon :: i.2.2).flatMap (of .comma :: ·)).map Lexeme.token ++ z)) :
    Reads (.entries (ks ++ entries.map (·.1.1.bare))) l (vs ++ entries.map (·.2.1.bare)) z := by
  induction entries generalizing ks vs with
  | nil => simpa using h
  | cons i entries ih =>
    rw [forall_mem_cons] at hk hv
    simp only [map_cons, flatMap_cons, cons_append, map_append, List.append_assoc] at h
    have hnext := ih hk.2 hv.2 (.entries h rfl (hk.1 _) rfl (hv.1 _))
    rwa [List.append_assoc, List.append_assoc] at hnext

end Reads

theorem given_items {items : Option (List (Node × List Lexeme))} (hne : items ≠ some []) :
    given ((items.getD []).map (·.1.bare)) = (items.map (List.map (·.1))).map (List.map Node.bare) := by
  cases items with
  | none => rfl
  | some items =>
    rw [given_of_ne_nil (by simpa using hne)]
    simp

/-- An expression is read from its spelling. -/
theorem Written.reads (h : Written c e w) (z : List Token) :
    Reads (piece c) (w.map token ++ z) [e.bare] z := by
  induction h generalizing z with
  | select _ _ _ ihc ihy ihn =>
    simp only [map_append, map_cons, List.append_assoc, cons_append]
    exact .select (ihc _) rfl (ihy _) rfl (ihn _)
  | @binary c op _ _ _ _ _ hop _ _ ihl ihr =>
    simp only [map_append, map_cons, List.append_assoc, cons_append]
    rcases mem_chains_of_mem_operators hop with ⟨hc, hleft⟩ | rfl
    · rw [hleft, piece_of_mem_chains hc] at ihl
      rw [piece_of_mem_chains hc]
      exact .next (ihl _) hop (ihr _)
    · exact .compare (ihl _) hop (ihr _)
  | unary hop _ ih => exact .signed hop (ih _)
  | weaken hc _ ih => exact .weaken hc (ih _)
  | paren _ ih =>
    simp only [map_append, map_cons, List.append_assoc, cons_append]
    exact .paren rfl (ih _) rfl
  | literal hl =>
    cases hl with
    | int => exact .int rfl
    | float => exact .float rfl
    | string => exact .string rfl
    | true | false => exact .bool (by decide)
    | null => exact .null rfl
  | listOf hne _ ih =>
    simp only [map_append, map_cons, List.append_assoc, cons_append]
    rw [Node.bare, Node.bareOpt_eq, ← given_items hne]
    exact .listOf rfl (.optCommas ih) rfl
  | @setOf items _ hne _ ih =>
    simp only [map_append, map_cons, List.append_assoc, cons_append]
    have hbare : (items.map (·.1)).map Node.bare = items.map (·.1.bare) := map_map
    rw [Node.bare, Node.bareOpt_eq, Option.map_some, hbare]
    exact .setOf rfl (.commas hne ih) rfl
  | @mapOf entries _ _ _ ihk ihv =>
    simp only [map_append, map_cons, List.append_assoc, cons_append]
    have hkeys : (entries.map (·.1.1)).map Node.bare = entries.map (·.1.1.bare) := map_map
    have hvalues : (entries.map (·.2.1)).map Node.bare = entries.map (·.2.1.bare) := map_map
    rw [Node.bare, Node.bareAll_eq, Node.bareAll_eq, hkeys, hvalues]
    cases entries with
    | nil => exact .mapNone rfl rfl
    | cons i entries =>
      rw [forall_mem_cons] at ihk ihv
      simp only [map_cons, Lexeme.commas, map_append, List.append_assoc, cons_append]
      exact .mapOf rfl (.entryTail ihk.2 ihv.2 (.entry (ihk.1 _) rfl (ihv.1 _))) rfl
  | name => exact .base (.name rfl)
  | item _ _ ihb ihk =>
    simp only [map_append, map_cons, List.append_assoc, cons_append]
    exact .item (ihb _) rfl (ihk _) rfl
  | field _ ihb =>
    simp only [map_append, map_cons, List.append_assoc, cons_append]
    exact .field (ihb _) rfl rfl
  | call _ hne _ ihc ih =>
    simp only [map_append, map_cons, List.append_assoc, cons_append]
    rw [Node.bare, Node.bareOpt_eq, ← given_items hne]
    exact .operand (.inr (.inr rfl)) (.call (.inl rfl) (ihc _) rfl (.optCommas ih) rfl)

/-- The rule for expressions builds `e` from every spelling of it. -/
theorem Grammar.expr_of_written (h : Written choice e w) {s s' : Feed} (hs : s.Spends w s')
    (hk : s'.current.kind ∉ continuing choice) :
    ∃ e', Parse.run (fun n => (rules n).expr) s = .ok e' s' ∧ e'.bare = e.bare := by
  have hops : Piece.exprConts ⊆ continuing choice := by decide
  exact expr_of_reads hs (h.reads _) fun hm => hk (hops hm)

end TinyScript
