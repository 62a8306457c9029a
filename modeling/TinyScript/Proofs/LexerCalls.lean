import TinyScript.Proofs.Tiling

/-!
# Calls on one lexer

The actions of the lexer may be called one after the other, in any order and also after calls that
failed. Whatever an action does, it only advances, and so does one that fails half way (`Call.onward`);
advancing keeps all fields those of one place in the text (`Within.advance`).
-/

namespace TinyScript.Lexer

variable {n : Nat} {l l' : Lexer} {src : List Char}

namespace Onward

theorem skipGap : Onward skipGap := by
  intro l
  fun_induction Lexer.skipGap l with
  | case1 => exact .refl
  | case2 l part hp f l' h => exact (Forward.gapPart hp).onward.steps h
  | case3 l part hp _ l' h ih => exact ((Forward.gapPart hp).onward.steps h).trans ih

theorem number : Onward number := by
  refine bind (fun _ => .refl) fun _ => bind (readWhile _) fun _ => bind (fun _ => .refl) fun _ => ?_
  split
  · exact bind (advance 1) fun _ => bind (readWhile _) fun _ _ => .refl
  · exact fun _ => .refl

theorem word : Onward word :=
  bind (fun _ => .refl) fun _ => bind (readWhile _) fun _ _ => .refl

theorem stringTail (q : Option Char) (acc : List Char) : Onward (stringTail q acc) := by
  intro l
  fun_induction Lexer.stringTail q acc l with
  | case1 => exact bind (advance 1) (fun _ _ => .refl) _
  | case2 | case3 => exact .refl
  | case4 acc l _ c _ _ f l' h => exact (Forward.stringPart c).onward.steps h
  | case5 acc l _ c _ _ cs l' h ih => exact ((Forward.stringPart c).onward.steps h).trans ih

theorem string : Onward string :=
  bind (fun _ => .refl) fun _ => bind (advance 1) fun _ => bind (stringTail _ _) fun _ _ => .refl

theorem operator : Onward operator := by
  refine bind (fun _ => .refl) fun l => ?_
  split
  · exact bind (advance _) fun _ _ => .refl
  · exact fun _ => .refl

theorem token : Onward token := by
  refine bind skipGap fun _ => bind (fun _ => .refl) fun l => ?_
  split
  · exact fun _ => .refl
  · split
    · exact number
    · split
      · exact string
      · split
        · exact word
        · exact operator

end Onward

/-- The actions that can be called on a lexer. -/
inductive Call
  | token | advance (n : Nat) | startsWith (s : String) | skipGap | skipComment (oneLine : Bool) | number
  | string | word | escape

/-- The lexer after a call, whether it ended well or failed. -/
def Call.run : Call → Lexer → Lexer
  | token, l => left (Lexer.token l)
  | advance n, l => left (Lexer.advance n l)
  | startsWith s, l => left ((do return (← get).startsWith s : Lex Bool) l)
  | skipGap, l => left (Lexer.skipGap l)
  | skipComment oneLine, l => left (Lexer.skipComment oneLine l)
  | number, l => left (Lexer.number l)
  | string, l => left (Lexer.string l)
  | word, l => left (Lexer.word l)
  | escape, l => left (Lexer.escape l)

theorem Call.onward (k : Call) (l : Lexer) : Steps l (k.run l) := by
  cases k with
  | token => exact Onward.token l
  | advance n => exact Onward.advance n l
  | startsWith => exact .refl
  | skipGap => exact Onward.skipGap l
  | skipComment oneLine => exact (Forward.skipComment oneLine).onward l
  | number => exact Onward.number l
  | string => exact Onward.string l
  | word => exact Onward.word l
  | escape => exact Forward.escape.onward l

/-- All fields are those of one place in the text. -/
structure Within (src : List Char) (l : Lexer) : Prop where
  place : ∃ before, src = before ++ l.rest ∧ l.pos = .ofText before
  residual : l.residual = l.rest.length
  current : l.current = l.rest.head?

theorem Within.advance (h : Within src l) (ha : advance n l = .ok () l') : Within src l' ∧ l'.rest <:+ l.rest := by
  obtain ⟨before, hsrc, hpos⟩ := h.place
  unfold Lexer.advance at ha
  split at ha
  · cases ha
    have left : l.residual - n = (l.rest.drop n).length := by rw [h.residual, List.length_drop]
    refine ⟨⟨⟨before ++ l.rest.take n, ?_, ?_⟩, left, ?_⟩, List.drop_suffix n l.rest⟩
    · rw [hsrc, List.append_assoc]
      exact congrArg _ (List.take_append_drop n l.rest).symm
    · rw [← Position.ofText_after, ← hpos]
      rfl
    · show (if l.residual - n = 0 then none else (l.rest.drop n).head?) = (l.rest.drop n).head?
      rw [left]
      cases l.rest.drop n <;> rfl
  · cases ha

theorem Within.steps (h : Within src l) (hs : Steps l l') : Within src l' ∧ l'.rest <:+ l.rest := by
  induction hs with
  | refl => exact ⟨h, List.suffix_rfl⟩
  | advance ha _ ih =>
    have first := h.advance ha
    have rest := ih first.1
    exact ⟨rest.1, rest.2.trans first.2⟩

theorem Within.calls (h : Within src l) (calls : List Call) : Within src (calls.foldl (fun l k => k.run l) l) := by
  induction calls generalizing l with
  | nil => exact h
  | cons k calls ih => exact ih (h.steps (k.onward l)).1

/-- After any calls, in any order and with failed ones among them, all fields are those of one place in the
text. A further call does not move backwards, and advancing past the end fails and changes nothing. -/
theorem fields_after_calls {src : String} (hne : src ≠ "") : ∃ l₀, start src = .ok l₀ ∧
    ∀ calls : List Call, let l := calls.foldl (fun l k => k.run l) l₀
      (∃ before, src.toList = before ++ l.rest ∧ l.pos.line = 1 + before.count '\n' ∧
        l.pos.col = 1 + (before.reverse.takeWhile (· ≠ '\n')).length) ∧
      l.residual = l.rest.length ∧ l.current = l.rest.head? ∧ (l.current = none ↔ l.rest = []) ∧
      (∀ k : Call, (k.run l).rest <:+ l.rest) ∧
      ∀ n, l.residual < n → advance n l = .error (.fault .assertion) l := by
  refine ⟨_, start_eq hne, fun calls => ?_⟩
  have first : Within src.toList (Cursor.start src).lexer := ⟨⟨[], rfl, rfl⟩, rfl, rfl⟩
  have h := first.calls calls
  obtain ⟨before, hsrc, hpos⟩ := h.place
  exact ⟨⟨before, hsrc, congrArg Position.line hpos, congrArg Position.col hpos⟩, h.residual, h.current,
    by rw [h.current, List.head?_eq_none_iff], fun k => (h.steps (k.onward _)).2,
    fun n hn => if_neg (Nat.not_le.2 hn)⟩

/-- A string without its closing quote and a comment that is not there both fail on the way. -/
theorem fields_after_calls_failed : "'a\n/b" ≠ "" ∧ ∃ l₀, start "'a\n/b" = .ok l₀ ∧
    let l := [Call.string, .token, .skipComment true].foldl (fun l k => k.run l) l₀
    l.rest = ['b'] ∧ l.pos = ⟨2, 2⟩ ∧ l.residual = l.rest.length ∧ l.current = l.rest.head? := by
  obtain ⟨l₀, h₀, h⟩ := fields_after_calls (show "'a\n/b" ≠ "" by decide)
  obtain ⟨-, residual, current, -⟩ := h [.string, .token, .skipComment true]
  cases h₀
  exact ⟨by decide, _, rfl, by decide +kernel, by decide +kernel, residual, current⟩

end TinyScript.Lexer
