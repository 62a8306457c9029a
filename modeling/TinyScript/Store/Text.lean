import TinyScript.Store

/-!
# Values as text

A string is shown as it is on its own, and between single quotes inside a list or map. Nothing is
escaped. A slot without a value is shown as `None`. A value of no type cannot be shown.
-/

namespace TinyScript.Store

/-- A value as it is shown inside a list or map; `depth` bounds how deep lists and maps may be
nested. -/
def inner (s : Store) (depth : Nat) (x : Slot) : Except Failure String :=
  match depth with
  | 0 => .error (.fault .tooDeep)
  | depth + 1 =>
    match s.get? x with
    | none => .ok "None"
    | some .null => .ok "null"
    | some (.bool b) => .ok (if b then "true" else "false")
    | some (.num n) => n.render
    | some (.str t) => .ok s!"'{t}'"
    | some (.list items) => do
      let shown ← items.mapM (s.inner depth)
      return "[" ++ ", ".intercalate shown ++ "]"
    | some (.map t) => do
      let shown ← t.entries.mapM fun e => do
        let key ← s.inner depth (some e.key)
        let value ← s.inner depth e.value
        return key ++ ": " ++ value
      return "\x7b" ++ ", ".intercalate shown ++ "\x7d"
    | some .object => .ok "<object>"
    | some (.type name) => .ok name
    | some (.func f) => .ok f.signature
    | some (.host name _) => .ok s!"{name}()"
    | some .blank => .error (.fault .wrongKind)

/-- Values that do not contain themselves are nested no deeper than there are cells. -/
def depth (s : Store) : Nat := s.cells.size + 1

/-- A value as it is shown inside a list or map. -/
def repr (s : Store) (x : Slot) : Except Failure String := s.inner s.depth x

/-- A value as it is shown on its own. -/
def text (s : Store) (x : Slot) : Except Failure String :=
  match s.get? x with
  | some (.str t) => .ok t
  | _ => s.repr x

/-- A value as it is shown as a prompt. -/
def prompt (s : Store) (x : Slot) : Except Failure String :=
  match s.get? x with
  | some (.bool b) => .ok (if b then "True" else "False")
  | some .object => .ok "\x7b\x7d"
  | some (.num _) | some (.str _) | some (.list _) | some (.map _) | some (.type _) => s.text x
  | _ => .error (.fault .missingPart)

end TinyScript.Store
