import TinyScript.Feed
import TinyScript.Tree

/-!
# Parsing

The rules of the grammar as actions on a feed. Rules meet each other again only through
expressions, prefix operators and statements, so these three are the fields of `Rules`; a rule
takes the three as an argument and is otherwise plain code. `rules n` lets them meet `n` deep, and
each repetition inside a rule goes round at most `n` times. Every rule takes a token before it meets
another one, so as much fuel as there are tokens is enough.
-/

namespace TinyScript

structure Rules where
  expr : Parse Node
  unary : Parse Node
  stat : Parse Node

namespace Grammar

open Parse

/-! ### Repetition -/

/-- `first (COMMA item)*`, with the items before this point in `acc`, the last one first. -/
def commaTail (item : Parse Node) : Nat → List Node → Parse (List Node)
  | 0, _ => outOfFuel
  | n + 1, acc => do
    if (← kind) = .comma then
      advance
      let x ← item
      commaTail item n (x :: acc)
    else
      return acc.reverse

/-- `item (COMMA item)*` -/
def commaList (n : Nat) (item : Parse Node) : Parse (List Node) := do
  let x ← item
  commaTail item n [x]

/-- `(op operand)*` after `left`, associating to the left. -/
def chainTail (ops : List TokenKind) (operand : Parse Node) : Nat → Node → Parse Node
  | 0, _ => outOfFuel
  | n + 1, left => do
    let t ← current
    if t.kind ∈ ops then
      advance
      let right ← operand
      chainTail ops operand n (.binary t.kind left right t.pos)
    else
      return left

/-- `operand (op operand)*` -/
def chain (n : Nat) (ops : List TokenKind) (operand : Parse Node) : Parse Node := do
  let left ← operand
  chainTail ops operand n left

/-- Statements up to a closing brace or the end; empty ones are dropped. -/
def statListTail (stat : Parse Node) : Nat → List Node → Parse (List Node)
  | 0, _ => outOfFuel
  | n + 1, acc => do
    let k ← kind
    if k = .rbrace ∨ k = .eof then
      return acc.reverse
    else
      let x ← stat
      statListTail stat n (if x.isEmpty then acc else x :: acc)

def statList (n : Nat) (r : Rules) : Parse (List Node) :=
  statListTail r.stat n []

/-! ### Names and places -/

/-- `IDENTIFIER` -/
def name : Parse Node := do
  let x ← text
  let p ← position
  eat .identifier
  return .name x p

/-- `name (COMMA name)*` -/
def nameList (n : Nat) : Parse (List Node) := commaList n name

/-- `expr (COMMA expr)*` -/
def exprList (n : Nat) (r : Rules) : Parse (List Node) := commaList n r.expr

/-- `(LBRACK expr RBRACK | DOT name)*` after `base`. -/
def placeTail (r : Rules) : Nat → Node → Parse Node
  | 0, _ => outOfFuel
  | n + 1, base => do
    let t ← current
    if t.kind = .lbrack then
      advance
      let key ← r.expr
      eat .rbrack
      placeTail r n (.access base key false t.pos)
    else if t.kind = .dot then
      advance
      let field ← text
      let p ← position
      eat .identifier
      placeTail r n (.access base (.string field p) true t.pos)
    else
      return base

/-- A name and what is accessed through it: the left side of an assignment. -/
def place (n : Nat) (r : Rules) : Parse Node := do
  let base ← name
  placeTail r n base

/-! ### Functions and constructors -/

/-- A list that is left out where one of the tokens `ends` stands in its place. -/
def listUnless (ends : List TokenKind) (list : Parse (List Node)) : Parse (Option (List Node)) := do
  if (← kind) ∈ ends then return none else some <$> list

/-- `LPAREN name_list? RPAREN LBRACE stat_list RBRACE` -/
def funcDef (n : Nat) (r : Rules) : Parse Node := do
  let p ← position
  eat .lparen
  let params ← listUnless [.rparen, .vararg] (nameList n)
  eat .rparen
  eat .lbrace
  let body ← statList n r
  eat .rbrace
  return .funcDef params false body p

/-- `LPAREN expr_list? RPAREN` after the function that is called. -/
def callTail (n : Nat) (r : Rules) (callee : Node) : Parse Node := do
  let p ← position
  eat .lparen
  let args ← listUnless [.rparen] (exprList n r)
  eat .rparen
  return .call callee args p

/-- `LBRACK expr_list? RBRACK` -/
def listOf (n : Nat) (r : Rules) : Parse Node := do
  let p ← position
  eat .lbrack
  let items ← listUnless [.rbrack] (exprList n r)
  eat .rbrack
  return .listOf items p

/-- `(COMMA expr COLON expr)*`, with the keys and values so far, the last ones first. -/
def entryTail (r : Rules) : Nat → List Node → List Node → Parse (List Node × List Node)
  | 0, _, _ => outOfFuel
  | n + 1, keys, values => do
    if (← kind) = .comma then
      advance
      let key ← r.expr
      eat .colon
      let value ← r.expr
      entryTail r n (key :: keys) (value :: values)
    else
      return (keys.reverse, values.reverse)

/-- A map or a set between braces; a colon after the first expression makes it a map, and so does
having none. -/
def mapOrSet (n : Nat) (r : Rules) : Parse Node := do
  let p ← position
  eat .lbrace
  if (← kind) = .rbrace then
    advance
    return .mapOf [] [] p
  else
    let first ← r.expr
    if (← kind) = .colon then
      advance
      let value ← r.expr
      let (keys, values) ← entryTail r n [first] [value]
      eat .rbrace
      return .mapOf keys values p
    else
      let items ← commaTail r.expr n [first]
      eat .rbrace
      return .setOf (some items) p

/-! ### Expressions -/

def primary (n : Nat) (r : Rules) : Parse Node := do
  let t ← current
  match t.kind with
  | .intLiteral =>
    advance
    return .number (t.text.getD "") true t.pos
  | .floatLiteral =>
    advance
    return .number (t.text.getD "") false t.pos
  | .stringLiteral =>
    advance
    return .string (t.text.getD "") t.pos
  | .kwTrue | .kwFalse =>
    advance
    return .bool (t.text.getD "") t.pos
  | .kwNull =>
    advance
    return .null t.pos
  | .lparen =>
    advance
    let e ← r.expr
    eat .rparen
    return e
  | .lbrack => listOf n r
  | .lbrace => mapOrSet n r
  | .kwFunc =>
    advance
    let f ← funcDef n r
    if (← kind) = .lparen then callTail n r f else return f
  | .identifier =>
    let e ← place n r
    if (← kind) = .lparen then callTail n r e else return e
  | _ => fail (.unexpectedToken t.shownText "IDENTIFIER")

/-- `primary (POW primary)*` -/
def power (n : Nat) (r : Rules) : Parse Node :=
  chain n [.pow] (primary n r)

/-- Prefix operators before a power. -/
def unary (n : Nat) (r : Rules) : Parse Node := do
  let t ← current
  if t.kind ∈ TokenKind.unaries then
    advance
    let e ← r.unary
    return .unary t.kind e t.pos
  else
    power n r

/-- A level of binary operators. Relations do not associate, all others do so to the left. -/
structure Level where
  ops : List TokenKind
  chained : Bool

/-- The levels of binary operators, the loosest first. -/
def levels : List Level :=
  [⟨[.kwOr], true⟩, ⟨[.kwAnd], true⟩, ⟨[.kwIn, .kwIs], true⟩,
   ⟨[.eq, .ne, .lt, .le, .gt, .ge], false⟩, ⟨[.bor], true⟩, ⟨[.bxor], true⟩, ⟨[.band], true⟩,
   ⟨[.bshl, .bshr], true⟩, ⟨[.add, .sub], true⟩, ⟨[.mul, .div, .mod], true⟩]

/-- `operand (op operand)?` -/
def once (ops : List TokenKind) (operand : Parse Node) : Parse Node := do
  let left ← operand
  let t ← current
  if t.kind ∈ ops then
    advance
    let right ← operand
    return .binary t.kind left right t.pos
  else
    return left

/-- An expression of the given levels of binary operators. -/
def binary (n : Nat) (r : Rules) : List Level → Parse Node
  | [] => unary n r
  | l :: ls =>
    if l.chained then chain n l.ops (binary n r ls) else once l.ops (binary n r ls)

/-- `or_expr (QUERY expr COLON expr)?` -/
def select (n : Nat) (r : Rules) : Parse Node := do
  let cond ← binary n r levels
  let t ← current
  if t.kind = .query then
    advance
    let yes ← r.expr
    eat .colon
    let no ← r.expr
    return .select cond yes no t.pos
  else
    return cond

/-! ### Statements -/

def emptyStat : Parse Node := do
  eat .semi
  return .empty

/-- `LBRACE stat_list RBRACE` -/
def block (n : Nat) (r : Rules) : Parse Node := do
  let p ← position
  eat .lbrace
  let stats ← statList n r
  eat .rbrace
  return .block stats p

/-- `(ASSIGN expr_list)?` -/
def initializers (n : Nat) (r : Rules) : Parse (Option (List Node)) := do
  if (← kind) = .assign then
    advance
    some <$> exprList n r
  else return none

/-- `(VAR | CONST) name_list (ASSIGN expr_list)?` -/
def declare (n : Nat) (r : Rules) : Parse Node := do
  let t ← current
  advance
  let names ← nameList n
  let inits ← initializers n r
  return .declare names inits (t.kind = .kwConst) t.pos

/-- `expr COLON? stat` -/
def clause (r : Rules) : Parse (Node × Node) := do
  let cond ← r.expr
  eat? .colon
  let body ← r.stat
  return (cond, body)

/-- `(word expr COLON? stat)*`, with the clauses so far, the last one first. -/
def clauseTail (r : Rules) (word : TokenKind) :
    Nat → List (Node × Node) → Parse (List (Node × Node))
  | 0, _ => outOfFuel
  | n + 1, acc => do
    if (← kind) = word then
      advance
      let c ← clause r
      clauseTail r word n (c :: acc)
    else
      return acc.reverse

/-- `IF expr COLON? stat (ELIF expr COLON? stat)* (ELSE COLON? stat)?`; the last part becomes a
clause whose condition is the literal `true`. -/
def branch (n : Nat) (r : Rules) : Parse Node := do
  let p ← position
  eat .kwIf
  let first ← clause r
  let clauses ← clauseTail r .kwElif n [first]
  let t ← current
  if t.kind = .kwElse then
    advance
    eat? .colon
    let body ← r.stat
    return .branch (clauses.map (·.1) ++ [.bool "true" t.pos]) (clauses.map (·.2) ++ [body]) p
  else
    return .branch (clauses.map (·.1)) (clauses.map (·.2)) p

/-- `SWITCH expr COLON? (CASE expr COLON? stat)+ (DEFAULT COLON? stat)?` -/
def switch (n : Nat) (r : Rules) : Parse Node := do
  let p ← position
  eat .kwSwitch
  let subject ← r.expr
  eat? .colon
  let t ← current
  if t.kind = .kwCase then
    let clauses ← clauseTail r .kwCase n []
    if (← kind) = .kwDefault then
      advance
      eat? .colon
      let fallback ← r.stat
      return .switch subject (clauses.map (·.1)) (clauses.map (·.2)) fallback p
    else
      return .switch subject (clauses.map (·.1)) (clauses.map (·.2)) .missing p
  else
    fail (.unexpectedToken t.shownText "case")

/-- `REPEAT COLON? stat UNTIL expr` -/
def repeatUntil (r : Rules) : Parse Node := do
  let p ← position
  eat .kwRepeat
  eat? .colon
  let body ← r.stat
  eat .kwUntil
  let cond ← r.expr
  return .repeatUntil cond body p

/-- `WHILE expr COLON? stat` -/
def whileLoop (r : Rules) : Parse Node := do
  let p ← position
  eat .kwWhile
  let (cond, body) ← clause r
  return .whileLoop cond body p

/-- `(COMMA item)?` -/
def afterComma (item : Parse Node) : Parse Node := do
  if (← kind) = .comma then
    advance
    item
  else return .missing

/-- `IS expr COMMA expr (COMMA expr)? COLON? stat` -/
def forRangeTail (r : Rules) (var : Node) (p : Position) : Parse Node := do
  eat .kwIs
  let start ← r.expr
  eat .comma
  let stop ← r.expr
  let step ← afterComma r.expr
  eat? .colon
  let body ← r.stat
  return .forRange var start stop step body p

/-- `(COMMA name)? IN expr COLON? stat` -/
def forEachTail (r : Rules) (key : Node) (p : Position) : Parse Node := do
  let val ← afterComma name
  eat .kwIn
  let (subject, body) ← clause r
  return .forEach key val subject body p

/-- A loop over a range or over a container. -/
def forLoop (r : Rules) : Parse Node := do
  let p ← position
  eat .kwFor
  let x ← name
  if (← kind) = .kwIs then forRangeTail r x p else forEachTail r x p

def breakLoop : Parse Node := do
  let p ← position
  eat .kwBreak
  return .breakLoop p

def continueLoop : Parse Node := do
  let p ← position
  eat .kwContinue
  return .continueLoop p

/-- `FUNC name func_def` declares a constant; `FUNC func_def` must be called on the spot. -/
def funcStat (n : Nat) (r : Rules) : Parse Node := do
  eat .kwFunc
  if (← kind) = .identifier then
    let x ← name
    let f ← funcDef n r
    let p ← position
    return .declare [x] (some [f]) true p
  else
    let f ← funcDef n r
    callTail n r f

/-- `RETURN (expr | SEMI)` -/
def returnValue (r : Rules) : Parse Node := do
  let p ← position
  eat .kwReturn
  if (← kind) = .semi then
    advance
    return .returnValue .missing p
  else
    let e ← r.expr
    return .returnValue e p

/-- `(COMMA place)* ASSIGN expr_list` after the first place. -/
def assignTail (n : Nat) (r : Rules) (first : Node) : Parse Node := do
  let targets ← commaTail (place n r) n [first]
  let p ← position
  eat .assign
  let sources ← exprList n r
  return .assign targets sources p

/-- `update_op expr` after the place that is changed. -/
def updateTail (r : Rules) (target : Node) : Parse Node := do
  let t ← current
  if t.kind ∈ TokenKind.updates then
    advance
    let source ← r.expr
    return .update t.kind target source t.pos
  else
    fail (.unexpectedToken t.shownText "compoundassign")

/-- A statement that begins with a place: an assignment, an update or a call. -/
def placeStat (n : Nat) (r : Rules) : Parse Node := do
  let target ← place n r
  let k ← kind
  if k = .comma ∨ k = .assign then assignTail n r target
  else if k = .lparen then callTail n r target
  else updateTail r target

def stat (n : Nat) (r : Rules) : Parse Node := do
  match ← kind with
  | .semi => emptyStat
  | .lbrace => block n r
  | .kwVar | .kwConst => declare n r
  | .kwIf => branch n r
  | .kwSwitch => switch n r
  | .kwRepeat => repeatUntil r
  | .kwWhile => whileLoop r
  | .kwFor => forLoop r
  | .kwBreak => breakLoop
  | .kwContinue => continueLoop
  | .kwFunc => funcStat n r
  | .kwReturn => returnValue r
  | _ => placeStat n r

/-! ### Closing the recursion -/

/-- The rules that may meet each other `n` deep. -/
def rules : Nat → Rules
  | 0 => ⟨outOfFuel, outOfFuel, outOfFuel⟩
  | n + 1 =>
    { expr := fun s => select n (rules n) s
      unary := fun s => unary n (rules n) s
      stat := fun s => stat n (rules n) s }

def program (n : Nat) : Parse Node :=
  .program <$> statList n (rules n)

/-- A program and nothing after it. -/
def whole (n : Nat) : Parse Node := do
  let tree ← program n
  let t ← current
  if t.kind = .eof then return tree else fail (.unexpectedToken t.render "EOF")

/-- Enough fuel for every rule on a feed that ends with the end token. -/
def fuelFor (s : Feed) : Nat := s.rest.length + 3

end Grammar

/-- Runs a rule of the grammar with enough fuel for the feed. -/
def Parse.run {α : Type} (rule : Nat → Parse α) (s : Feed) : EStateM.Result Halt Feed α :=
  rule (Grammar.fuelFor s) s

/-- The tree of a source text. -/
def parse (src : String) : Except Halt Node :=
  match Feed.ofSource src with
  | .error f => .error (.failed f)
  | .ok s =>
    match Parse.run Grammar.whole s with
    | .ok tree _ => .ok tree
    | .error h _ => .error h

end TinyScript
