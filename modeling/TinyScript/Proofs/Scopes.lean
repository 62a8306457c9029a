import TinyScript.Analysis
import TinyScript.Proofs.Reachable

/-!
# Scopes and what is declared in them

Of a chain of scopes, `Scope.kinds x` keeps what each scope takes the name `x` for. Looking a name up
depends on that alone (`Scope.lookup_kind`), and each action of the check on its scopes is told by what
it does to it. One lemma for each action that goes well.
-/

namespace TinyScript

open List

namespace Scope

theorem find?_put (y : Symbol) (ys : List Symbol) (x : String) :
    (put y ys).find? (·.ident == x) = if y.ident = x then some y else ys.find? (·.ident == x) := by
  induction ys with
  | nil =>
    by_cases h : y.ident = x <;> simp [put, h]
  | cons z zs ih =>
    rw [put]
    split
    · rename_i hz
      rw [beq_iff_eq] at hz
      by_cases h : y.ident = x
      · rw [find?_cons_of_pos (by simpa using h), if_pos h]
      · rw [find?_cons_of_neg (by simpa using h), if_neg h,
          find?_cons_of_neg (by simpa [hz] using h)]
    · rename_i hz
      rw [beq_iff_eq] at hz
      by_cases h : z.ident = x
      · have ne : y.ident ≠ x := fun e => hz (h.trans e.symm)
        rw [find?_cons_of_pos (by simpa using h), if_neg ne,
          find?_cons_of_pos (by simpa using h)]
      · rw [find?_cons_of_neg (by simpa using h), ih, find?_cons_of_neg (by simpa using h)]

theorem find?_insert (s : Scope) (k : SymbolKind) (y x : String) :
    ((s.insert k y).find? x).map (·.kind) = if y = x then some k else (s.find? x).map (·.kind) := by
  unfold insert find?
  rw [find?_put]
  split <;> rfl

/-- What a chain of scopes takes a name for, scope by scope. -/
def kinds (x : String) (scopes : List Scope) : List (Option SymbolKind) :=
  scopes.map fun s => (s.find? x).map (·.kind)

theorem lookup_kind (x : String) (scopes : List Scope) :
    (lookup x false scopes).1.map (·.kind) = (kinds x scopes).findSome? id := by
  induction scopes with
  | nil => rfl
  | cons s scopes ih =>
    rw [lookup, kinds, map_cons, findSome?_cons]
    cases h : s.find? x with
    | some y => rfl
    | none => exact ih

theorem lookup_kind_here (x : String) (scopes : List Scope) :
    (lookup x true scopes).1.map (·.kind) = (kinds x scopes).head?.join := by
  cases scopes with
  | nil => rfl
  | cons s scopes =>
    rw [lookup]
    cases h : s.find? x with
    | none | some y =>
      rw [kinds, map_cons, h]
      rfl

end Scope

open Scope (kinds)

namespace Check

variable {a a' : Analysis} {u : Unit} {x y : String}

theorem note_scopes {msg : String} (h : note msg a = .ok u a') : a'.scopes = a.scopes := by
  cases h
  dsimp only
  split <;> rfl

theorem scopeNotes_scopes {msgs : List String} (h : scopeNotes msgs a = .ok u a') :
    a'.scopes = a.scopes := by
  cases h
  dsimp only
  split <;> rfl

theorem currentScope_ok {s : Scope} (h : currentScope a = .ok s a') :
    a' = a ∧ ∃ outer, a.scopes = s :: outer := by
  obtain ⟨_, _, h₁, h⟩ := exists_of_bind_eq_ok h
  cases h₁
  cases hs : a.scopes with
  | nil =>
    rw [hs] at h
    cases h
  | cons s' outer =>
    rw [hs] at h
    cases h
    exact ⟨rfl, outer, rfl⟩

theorem kinds_enter {name : String} {inherits : Bool} (h : enter name inherits a = .ok u a') (x : String) :
    kinds x a'.scopes = none :: kinds x a.scopes := by
  obtain ⟨_, a₁, h₁, h⟩ := exists_of_bind_eq_ok h
  obtain ⟨_, _, h₂, h⟩ := exists_of_bind_eq_ok h
  cases h₂
  -- a new scope has no symbols, whether it inherits from the one around it or not
  have fresh : ∃ s : Scope, s.symbols = [] ∧ a'.scopes = s :: a₁.scopes := by
    cases inherits with
    | false =>
      cases h
      refine ⟨_, ?_, rfl⟩
      split <;> rfl
    | true =>
      obtain ⟨outer, a₂, h₂, h⟩ := exists_of_bind_eq_ok h
      obtain ⟨rfl, -⟩ := currentScope_ok h₂
      cases h
      refine ⟨_, ?_, rfl⟩
      dsimp only
      split <;> rfl
  obtain ⟨s, hs, e⟩ := fresh
  rw [e, note_scopes h₁, kinds, map_cons, Scope.find?, hs]
  rfl

theorem kinds_leave (h : leave a = .ok u a') (x : String) :
    kinds x a'.scopes = (kinds x a.scopes).tail := by
  obtain ⟨s, a₁, h₁, h⟩ := exists_of_bind_eq_ok h
  obtain ⟨_, a₂, h₂, h⟩ := exists_of_bind_eq_ok h
  obtain ⟨_, a₃, h₃, h⟩ := exists_of_bind_eq_ok h
  obtain ⟨_, a₄, h₄, h⟩ := exists_of_bind_eq_ok h
  cases h
  have same : a₄.scopes = a.scopes := by
    rw [note_scopes h₄, note_scopes h₃, note_scopes h₂, (currentScope_ok h₁).1]
  show kinds x a₄.scopes.tail = _
  rw [same, kinds, map_tail, kinds]

theorem kinds_insert {k : SymbolKind} (h : insert k y a = .ok u a') (x : String) :
    ∃ o ks, kinds x a.scopes = o :: ks ∧ kinds x a'.scopes = (if y = x then some k else o) :: ks := by
  obtain ⟨s, a₁, h₁, h⟩ := exists_of_bind_eq_ok h
  obtain ⟨_, a₂, h₂, h⟩ := exists_of_bind_eq_ok h
  cases h
  obtain ⟨rfl, outer, hs⟩ := currentScope_ok h₁
  refine ⟨_, kinds x outer, by rw [hs]; rfl, ?_⟩
  show kinds x (s.insert k y :: a₂.scopes.tail) = _
  rw [scopeNotes_scopes h₂, hs, kinds, map_cons, Scope.find?_insert]
  rfl

theorem lookup_ok {here : Bool} {r : Option Symbol} (h : lookup y here a = .ok r a') :
    a'.scopes = a.scopes ∧ r = (Scope.lookup y here a.scopes).1 := by
  obtain ⟨_, _, h₁, h⟩ := exists_of_bind_eq_ok h
  cases h₁
  obtain ⟨_, a₂, h₂, h⟩ := exists_of_bind_eq_ok h
  cases h
  exact ⟨scopeNotes_scopes h₂, rfl⟩

theorem insideLoop_ok {word : String} {p : Position} (h : insideLoop word p a = .ok u a') : a' = a := by
  obtain ⟨s, a₁, h₁, h₂⟩ := exists_of_bind_eq_ok h
  obtain ⟨rfl, -⟩ := currentScope_ok h₁
  split at h₂ <;> cases h₂
  rfl

end Check

end TinyScript
