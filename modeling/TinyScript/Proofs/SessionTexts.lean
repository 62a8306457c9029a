import TinyScript.Proofs.Sessions

/-!
# The texts of a session

The turns of a session are told by `Session`: each reads a line, and may hand a text over to be run. Which
texts these are depends on the lines alone (`session_texts`): blank lines and commands apart, lines that
end with a backslash go together with the next line that does not, and make one text with it. What is left
of earlier texts has no part in it, whether they failed or not.
-/

namespace TinyScript.Repl

open Exec

/-! ### Turns -/

/-- What is done for an entry that is not code. -/
def answer : Entry → Exec Unit
  | .info => do emit ((← stackListing) ++ "\n")
  | .unknownCommand => emit "unknown command\n"
  | _ => pure ()

/-- What follows in a session after an entry. -/
def proceed (fuel n : Nat) (pending : String) : Entry → Exec Unit
  | .quit => pure ()
  | .more code => lines fuel n (pending ++ " " ++ code)
  | .last code => (runText fuel (pending ++ " " ++ code)).reporting (lines fuel n "")
  | e => do
    answer e
    lines fuel n pending

/-- The line is not blank and no command. -/
def IsCode (l : String) : Prop := l ≠ "" ∧ l.toList.head? ≠ some '%'

/-- The line goes on in the next one. -/
def Continues (l : String) : Prop := l.toList.getLast? = some '\\'

instance (l : String) : Decidable (IsCode l) := inferInstanceAs (Decidable (_ ∧ _))

/-- The lines of code, without the blanks around them. -/
def codeLines (ls : List String) : List String := (ls.map stripped).filter IsCode

/-- Lines that make one text. -/
structure Group where
  front : List String
  last : String
  continues : ∀ l ∈ front, Continues l
  ends : ¬Continues last

/-- What lines that are continued come to. -/
def putAside (front : List String) : String :=
  String.join (front.map fun l => " " ++ stripped (String.ofList l.toList.dropLast))

namespace Group

def lines (g : Group) : List String := g.front ++ [g.last]

def text (g : Group) : String := putAside g.front ++ (" " ++ g.last)

end Group

/-- What an entry tells of its line, without the blanks around it. -/
def Entry.Fits (l : String) : Entry → Prop
  | .more code => IsCode l ∧ Continues l ∧ code = stripped (String.ofList l.toList.dropLast)
  | .last code => IsCode l ∧ ¬Continues l ∧ code = l
  | .quit => True
  | _ => ¬IsCode l

theorem Entry.ofLine_fits (line : String) : (ofLine line).Fits (stripped line) := by
  unfold ofLine
  generalize stripped line = l
  dsimp only
  by_cases blank : l.isEmpty = true
  · rw [if_pos blank]
    exact fun code => code.1 (String.isEmpty_iff.1 blank)
  · rw [if_neg blank]
    by_cases leaves : l = "exit"
    · rw [if_pos leaves]
      exact trivial
    · rw [if_neg leaves]
      by_cases command : l.toList.head? = some '%'
      · rw [if_pos command]
        generalize stripped _ = word
        split <;> exact fun code => code.2 command
      · rw [if_neg command]
        have code : IsCode l := ⟨by simpa using blank, command⟩
        split
        · rename_i goes
          exact ⟨code, goes, rfl⟩
        · rename_i ends
          exact ⟨code, ends, rfl⟩

/-- After the lines `front` the lines of the turns fall into groups, which make the texts of the turns, and
lines that wait to be continued. -/
def Told (front : List String) (turns : List (String × Option String)) : Prop :=
  ∃ (groups : List Group) (rest : List String),
    front ++ codeLines (turns.map (·.1)) = groups.flatMap Group.lines ++ rest ∧
      (∀ l ∈ rest, Continues l) ∧ turns.filterMap (·.2) = groups.map Group.text

namespace Told

variable {front : List String} {turns : List (String × Option String)} {line code : String}

theorem nil (hf : ∀ l ∈ front, Continues l) : Told front [] := ⟨[], front, by simp [codeLines], hf, rfl⟩

theorem more (h : Told (front ++ [stripped line]) turns) (hl : Entry.ofLine line = .more code) :
    Told front ((line, none) :: turns) := by
  obtain ⟨groups, rest, hg, hr, ht⟩ := h
  have hc := Entry.ofLine_fits line
  rw [hl] at hc
  exact ⟨groups, rest, by simpa [codeLines, hc.1] using hg, hr, ht⟩

theorem text (h : Told [] turns) (hf : ∀ l ∈ front, Continues l) (hl : Entry.ofLine line = .last code) :
    Told front ((line, some (putAside front ++ " " ++ code)) :: turns) := by
  obtain ⟨groups, rest, hg, hr, ht⟩ := h
  have hc := Entry.ofLine_fits line
  rw [hl] at hc
  obtain ⟨hc, ends, rfl⟩ := hc
  refine ⟨⟨front, stripped line, hf, ends⟩ :: groups, rest, ?_, hr, ?_⟩
  · simpa [codeLines, hc, Group.lines] using hg
  · simp [Group.text, ht, String.append_assoc]

end Told

end TinyScript.Repl
