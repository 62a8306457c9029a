import TinyScript.Store.Operators

/-!
# Members of lists and maps

A list of `n` items takes the indices from `-n` to `n - 1`, the negative ones counting from its end.
A map takes null, numbers and strings as keys.
-/

namespace TinyScript.Mem

/-- The place that index `i` denotes in a list of `n` items. -/
def place? (n : Nat) (i : Int) : Option Nat :=
  if i < -(n : Int) ∨ i ≥ n then none
  else some (if i < 0 then i + n else i).toNat

/-- The place that a key denotes in a list of `n` items. -/
def listPlace (n : Nat) (key : Option Value) : Except Failure Nat :=
  match key with
  | some (.num (.int i)) =>
    match place? n i with
    | some p => .ok p
    | none => do
      let shown ← (Number.int i).render
      .error (.member (.indexOutOfRange shown))
  | _ => .error (.member .indexNotInt)

/-- A key of a map. -/
def mapKey (s : Store) (key : Slot) : Except Failure Ref :=
  match key with
  | some k => if (s.get k).isKey then .ok k else .error (.member .keyNotAllowed)
  | none => .error (.member .keyNotAllowed)

/-- The map with an entry for `k`. -/
def putEntry (s : Store) (t : Table) (k : Ref) (v : Slot) : Table :=
  let found := (s.find? (s.mark k) k t.entries).isSome
  { t with entries := s.put k v t.entries, grown := t.grown || !found }

/-- `c[key] = v` -/
def setMember (c key v : Slot) : Mem Unit := do
  let s ← get
  match s.get? c with
  | some (.list items) =>
    let p ← ofExcept (listPlace items.length (s.get? key))
    writeSlot c (.list (items.set p v))
  | some (.map t) =>
    let k ← ofExcept (mapKey s key)
    writeSlot c (.map (putEntry s t k v))
  | _ => fail .assertion

/-- `c[key]`; nothing if `c` is a map without an entry for `key`. -/
def member? (c key : Slot) : Mem (Option Slot) := do
  let s ← get
  match s.get? c with
  | some (.list items) =>
    let p ← ofExcept (listPlace items.length (s.get? key))
    return items[p]?
  | some (.map t) =>
    let k ← ofExcept (mapKey s key)
    return (s.find? (s.mark k) k t.entries).map (·.value)
  | _ => fail .assertion

/-! ### Going through a container -/

/-- The successors of a map: null leads to the first key, each key to the one after it and the last
one to null. A later entry for an equal key takes the place of an earlier one. -/
def linkKeys (s : Store) (start last : Ref) (keys : List Ref) : List (Entry Ref) :=
  let go := keys.foldl (fun (acc : List (Entry Ref) × Ref) k => (s.put acc.2 k acc.1, k)) ([], start)
  s.put go.2 last go.1

/-- The successors of the map in cell `c`, made anew if keys have been added. -/
def successors (c : Ref) (t : Table) : Mem (List (Entry Ref)) := do
  if t.grown then
    let start ← newNull
    let last ← newNull
    let links := linkKeys (← get) start last (t.entries.map (·.key))
    write c (.map { t with grown := false, successors := some links })
    return links
  else
    match t.successors with
    | some links => return links
    | none => fail .wrongKind

/-- The key and value after `key`. Null stands before the first key and after the last one. -/
def next (c key : Slot) : Mem (Slot × Slot) := do
  let nothing : Mem (Slot × Slot) := do return (some (← newNull), some (← newNull))
  match c, ← read c with
  | _, some (.list items) =>
    match ← read key with
    | some .null =>
      match items with
      | [] => nothing
      | x :: _ => return (some (← newNum (.int 0)), x)
    | some (.num n) =>
      if n.lt (.int (items.length - 1)) then
        match n with
        | .float _ => fail .wrongKind
        | .int i =>
          match (place? items.length (i + 1)).bind (items[·]?) with
          | some x => return (some (← newNum (.int (i + 1))), x)
          | none => fail .indexRange
      else nothing
    | _ => fail .assertion
  | some c, some (.map t) =>
    let k ← ofExcept (mapKey (← get) key)
    let links ← successors c t
    let s ← get
    match s.find? (s.mark k) k links with
    | none => fail .missingKey
    | some link =>
      if (s.get link.value).isNull then return (some link.value, some (← newNull))
      else
        match s.find? (s.mark link.value) link.value t.entries with
        | some e => return (some link.value, e.value)
        | none => fail .missingKey
  | _, _ => nothing

end TinyScript.Mem
