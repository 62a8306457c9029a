import TinyScript.Value

/-!
# The store

Cells are only ever added, and a cell keeps its kind of value; `Mem` actions read and change them.
An action that fails leaves the store as it was at that moment.
-/

namespace TinyScript

structure Store where
  cells : Array Value
deriving Repr, Inhabited

namespace Store

def empty : Store := ⟨#[]⟩

/-- The content of a cell; a cell that does not exist has the value of no type. -/
def get (s : Store) (r : Ref) : Value := s.cells.getD r.index .blank

/-- The content of the cell in a slot. -/
def get? (s : Store) (x : Slot) : Option Value := x.map s.get

def set (s : Store) (r : Ref) (v : Value) : Store := ⟨s.cells.setIfInBounds r.index v⟩

/-- A new cell. -/
def alloc (s : Store) (v : Value) : Ref × Store := (⟨s.cells.size⟩, ⟨s.cells.push v⟩)

/-! ### Sameness -/

/-- Two cells with equal nulls, numbers or strings, or one and the same cell of any other kind. -/
def equal (s : Store) (a b : Ref) : Bool :=
  match s.get a, s.get b with
  | .null, .null => true
  | .num m, .num n => m.eq n
  | .str x, .str y => x == y
  | .null, _ | .num _, _ | .str _, _ | _, .null | _, .num _ | _, .str _ => false
  | _, _ => a == b

/-- Two slots with the same cell, equal cells, or nothing in both. -/
def alike (s : Store) : Slot → Slot → Bool
  | some a, some b => a == b || s.equal a b
  | none, none => true
  | _, _ => false

/-! ### Entries -/

/-- The mark of a key as it is now. -/
def mark (s : Store) (k : Ref) : Mark :=
  match s.get k with
  | .num n =>
    match n.residue? with
    | some r => .number r
    | none => .notANumber k
  | .str t => .text t
  | _ => .null

/-- An entry answers to a key if it has the key's mark and its own key still equals it. One whose key
was changed in place is not found by that very key either: that a hash table can come upon it by
chance, where the new mark happens to lead, is left out. -/
def fits {α : Type} (s : Store) (m : Mark) (k : Ref) (e : Entry α) : Bool :=
  e.mark == m && s.alike (some e.key) (some k)

/-- The entry for a key with the given mark. -/
def find? {α : Type} (s : Store) (m : Mark) (k : Ref) (es : List (Entry α)) : Option (Entry α) :=
  es.find? (s.fits m k)

/-- Replaces the value of the entry for `k`, which keeps its key, or adds an entry at the end. -/
def put {α : Type} (s : Store) (k : Ref) (v : α) : List (Entry α) → List (Entry α)
  | [] => [⟨s.mark k, k, v⟩]
  | e :: es => if s.fits (s.mark k) k e then { e with value := v } :: es else e :: s.put k v es

end Store

/-- Actions on a store. -/
abbrev Mem := EStateM Failure Store

namespace Mem

def ofExcept {α : Type} (x : Except Failure α) : Mem α := fun s =>
  match x with
  | .ok a => .ok a s
  | .error f => .error f s

def read (x : Slot) : Mem (Option Value) := fun s => .ok (s.get? x) s

def alloc (v : Value) : Mem Ref := fun s =>
  let (r, s) := s.alloc v
  .ok r s

def write (r : Ref) (v : Value) : Mem Unit := fun s => .ok () (s.set r v)

def fail {α : Type} (f : Fault) : Mem α := throw (.fault f)

def operandError {α : Type} (e : OperandError) : Mem α := throw (.operand e)

end Mem

end TinyScript
