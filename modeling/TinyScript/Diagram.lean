import TinyScript.Tree

/-!
# Trees drawn as labelled boxes

The diagram of a tree has a box for every node, and boxes that group the parts of a statement.
Positions and the difference between variables and constants are left out. A hole has no diagram.
-/

namespace TinyScript

/-- A box with a label. Boxes for things that never have parts are leaves. -/
inductive Diagram
  | leaf (label : String)
  | box (label : String) (parts : List Diagram)
deriving Inhabited, Repr, BEq

namespace Node

mutual

def diagram : Node → Except Failure Diagram
  | .missing => .error (.unsupported .hole)
  | .empty => .ok (.leaf "empty")
  | .program stats => return .box "Program" (← (diagrams stats).mapM id)
  | .block stats _ => return .box "block" (← (diagrams stats).mapM id)
  | .declare names inits _ _ => do
    let names ← (diagrams names).mapM id
    match inits with
    | none => return .box "decl" [.box "names" names]
    | some inits =>
      let values ← (diagrams inits).mapM id
      return .box "decl" [.box "names" names, .box "values" values]
  | .branch conds bodies _ => do
    let clauses ← ((diagrams conds).zip (diagrams bodies)).mapM fun (c, b) =>
      return Diagram.box "cond" [← c, ← b]
    return .box "if" clauses
  | .switch subject cases bodies fallback _ => do
    let subject ← subject.diagram
    let clauses ← ((diagrams cases).zip (diagrams bodies)).mapM fun (c, b) =>
      return Diagram.box "case" [← c, ← b]
    let fallback ← fallback.diagram
    return .box "switch" (.box "expr" [subject] :: clauses ++ [.box "default" [fallback]])
  | .repeatUntil cond body _ =>
    return .box "repeat" [.box "do" [← body.diagram], .box "until" [← cond.diagram]]
  | .whileLoop cond body _ =>
    return .box "while" [.box "do" [← body.diagram], .box "while" [← cond.diagram]]
  | .forRange var start stop step body _ => do
    let var ← var.diagram
    let start ← start.diagram
    let stop ← stop.diagram
    let step ← match step with
      | .missing => pure []
      | step => pure [.box "step" [← step.diagram]]
    let range := Diagram.box "range" ([.box "start" [start], .box "end" [stop]] ++ step)
    return .box "forloop" [.box "idx" [var], range, .box "do" [← body.diagram]]
  | .forEach key val subject body _ => do
    let key ← key.diagram
    let val ← match val with
      | .missing => pure []
      | val => pure [← val.diagram]
    let subject ← subject.diagram
    let body ← body.diagram
    return .box "foreach" [.box "k/v" (key :: val), .box "in" [subject], .box "do" [body]]
  | .breakLoop _ => .ok (.leaf "break")
  | .continueLoop _ => .ok (.leaf "continue")
  | .returnValue expr _ =>
    match expr with
    | .missing => .ok (.box "return" [.leaf ";"])
    | expr => return .box "return" [← expr.diagram]
  | .assign targets sources _ => do
    let targets ← (diagrams targets).mapM id
    let sources ← (diagrams sources).mapM id
    return .box "=" [.box "lexprs" targets, .box "rexprs" sources]
  | .update op target source _ =>
    return .box op.spelling [← target.diagram, ← source.diagram]
  | .funcDef params vararg body _ => do
    let params ← match params with
      | none => pure []
      | some params => (diagrams params).mapM id
    let rest := if vararg then [Diagram.leaf "..."] else []
    let body ← (diagrams body).mapM id
    return .box "func" [.box "params" (params ++ rest), .box "body" body]
  | .call callee args _ => do
    let callee ← callee.diagram
    match args with
    | none | some [] => return .box "call" [.box "func" [callee]]
    | some (arg :: args) =>
      let arg ← arg.diagram
      let args ← (diagrams args).mapM id
      return .box "call" [.box "func" [callee], .box "args" (arg :: args)]
  | .select cond yes no _ => return .box "?:" [← cond.diagram, ← yes.diagram, ← no.diagram]
  | .binary op left right _ => return .box op.spelling [← left.diagram, ← right.diagram]
  | .unary op operand _ => return .box op.spelling [← operand.diagram]
  | .listOf items _ =>
    match items with
    | none => .ok (.box "list" [])
    | some items => return .box "list" (← (diagrams items).mapM id)
  | .mapOf keys values _ => do
    let missing := values.map Node.isMissing
    let pairs ← ((diagrams keys).zip ((diagrams values).zip missing)).mapM fun (k, v, hole) =>
      if hole then return Diagram.box "pair" [← k] else return Diagram.box "pair" [← k, ← v]
    return .box "map" pairs
  | .setOf items _ =>
    match items with
    | none => .ok (.box "set" [])
    | some items => return .box "set" (← (diagrams items).mapM id)
  | .access base key dot _ =>
    return .box (if dot then "." else "[]") [← base.diagram, ← key.diagram]
  | .name x _ => .ok (.leaf x)
  | .number text _ _ => .ok (.leaf s!"<{text}>")
  | .string value _ => .ok (.leaf s!"`{value}`")
  | .bool value _ => .ok (.leaf value)
  | .null _ => .ok (.leaf "null")
termination_by structural n => n

/-- The diagrams of several nodes, each with its own outcome. -/
def diagrams : List Node → List (Except Failure Diagram)
  | [] => []
  | n :: ns => n.diagram :: diagrams ns
termination_by structural ns => ns

end

end Node

end TinyScript
