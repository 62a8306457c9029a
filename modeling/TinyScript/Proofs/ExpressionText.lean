import Mathlib
import TinyScript.Proofs.BareStore
import TinyScript.Proofs.Phrases
import TinyScript.Proofs.Quotations
import TinyScript.Proofs.Raises
import TinyScript.Proofs.Rendering

/-!
# Reading written expressions back

An expression is written without the parentheses it was read with, with its strings between quotes as
they are and with nothing between `not` and its operand. Main statement: what is written is read as
the same expression, up to places, exactly if no operand is weaker than its place asks for, no word or
number comes after `not` and no string needs an escape (`Node.legible`).

One direction builds the spelling, the other one counts: a spelling of the expression has each of its
`not` and of the parentheses of its calls. If it has no more of them than what is written, then there
are no other parentheses and no `not` has become part of a word.
-/

namespace TinyScript

open Lexeme Precedence List TokenKind

variable {α : Type} {xs : List α} {r : Role} {e : Node}

namespace Node

mutual

/-- No operand needs parentheses where it stands, no word or number stands right after `not`, and no
string needs an escape. -/
def legible : Node → Bool
  | .select cond yes no _ => choice < cond.strength && cond.legible && yes.legible && no.legible
  | .binary op l r _ =>
    left (table.findIdx (op ∈ ·)) ≤ l.strength && table.findIdx (op ∈ ·) < r.strength &&
      l.legible && r.legible
  | .unary op e _ =>
    sign ≤ e.strength && e.legible &&
      (op != .kwNot || e.wording.head?.all (·.kind ∈ .stringLiteral :: TokenKind.operators))
  | .call _ args _ => legibleOpt args
  | .string x _ => x.toList.all fun c => c ∉ ['\'', '\\', '\n', '\r']
  | _ => true

def legibleAll : List Node → Bool
  | [] => true
  | e :: es => e.legible && legibleAll es

def legibleOpt : Option (List Node) → Bool
  | none => true
  | some es => legibleAll es

end

@[simp] theorem legibleAll_eq (es : List Node) : legibleAll es = es.all legible := by
  induction es with
  | nil => rfl
  | cons e es ih => rw [legibleAll, ih, all_cons]

@[simp] theorem legibleOpt_eq (es : Option (List Node)) :
    legibleOpt es = (es.getD []).all legible := by
  cases es with
  | none => rfl
  | some es => rw [legibleOpt, legibleAll_eq, Option.getD_some]

/-! ### Places do not matter -/

@[simp] theorem strength_bare (e : Node) : e.bare.strength = e.strength := by
  cases e <;> simp [strength]

@[simp] theorem wording_bare (e : Node) : e.bare.wording = e.wording := by
  apply @Node.rec (fun e => e.bare.wording = e.wording)
    (fun es => (es.map bare).map wording = es.map wording)
    (fun o => ((o.map (List.map bare)).getD []).map wording = (o.getD []).map wording)
  all_goals intros
  all_goals simp_all [wording]

theorem ident?_bare (n : Node) : n.bare.ident? = n.ident? := by
  cases n <;> rfl

@[simp] theorem printed_bare (e : Node) : e.bare.printed = e.printed := by
  apply @Node.rec (fun e => e.bare.printed = e.printed)
    (fun es => (es.map bare).all printed = es.all printed)
    (fun o => ((o.map (List.map bare)).getD []).all printed = (o.getD []).all printed)
  all_goals intros
  all_goals simp_all [printed, ident?_bare]

@[simp] theorem legible_bare (e : Node) : e.bare.legible = e.legible := by
  apply @Node.rec (fun e => e.bare.legible = e.legible)
    (fun es => (es.map bare).all legible = es.all legible)
    (fun o => ((o.map (List.map bare)).getD []).all legible = (o.getD []).all legible)
  all_goals intros
  all_goals simp_all [legible]

end Node

/-! ### Spellings -/

namespace Lexeme

/-- The tokens that are counted. -/
def isKey (l : Lexeme) : Bool := l.kind ∈ [.lparen, .kwNot]

theorem countP_commas (ws : List (List Lexeme)) :
    (commas ws).countP isKey = (ws.map (List.countP isKey)).sum := by
  cases ws with
  | nil => rfl
  | cons w ws =>
    rw [commas, countP_append, countP_flatMap]
    rfl

theorem glue_eq {w : List Lexeme}
    (h : w.head?.all (·.kind ∈ .stringLiteral :: operators) = true) :
    glue w = of .kwNot :: w := by
  cases w with
  | nil => rfl
  | cons l w => exact if_pos (of_decide_eq_true h)

theorem countP_glue (w : List Lexeme) : (glue w).countP isKey ≤ w.countP isKey + 1 ∧
    (w.countP isKey + 1 ≤ (glue w).countP isKey →
      w.head?.all (·.kind ∈ .stringLiteral :: operators) = true) := by
  cases w with
  | nil => exact ⟨Nat.le_refl _, fun _ => rfl⟩
  | cons l w =>
    rw [glue]
    split
    · rename_i hl
      exact ⟨Nat.le_of_eq (countP_cons_of_pos rfl), fun _ => decide_eq_true hl⟩
    · -- the word is not counted, and neither is what is left of it
      have hlt (v : List Lexeme) (hv : v.countP isKey = 0) :
          (v ++ w).countP isKey < (l :: w).countP isKey + 1 := by
        rw [countP_append, hv, Nat.zero_add]
        exact Nat.lt_succ_of_le (sublist_cons_self l w).countP_le
      have hkey (k : TokenKind) (x : Option String) (hk : k ∈ [.identifier, .dot, .intLiteral]) :
          isKey ⟨k, x⟩ = false := by
        have hno : ∀ k ∈ [identifier, .dot, .intLiteral], k ∉ [.lparen, .kwNot] := by decide
        exact decide_eq_false (hno k hk)
      split
      · have hlt := hlt (⟨.identifier, some ("not" ++ .ofList (l.chars.takeWhile Text.isDigit))⟩ ::
          of .dot :: l.fraction) (by unfold fraction; split <;> simp [hkey, of])
        exact ⟨Nat.le_of_lt hlt, fun hle => absurd hle (Nat.not_le_of_lt hlt)⟩
      · have hlt := hlt [⟨.identifier, some ("not" ++ l.text.getD "")⟩] (by simp [hkey])
        exact ⟨Nat.le_of_lt hlt, fun hle => absurd hle (Nat.not_le_of_lt hlt)⟩

end Lexeme

namespace Written

variable {c : Nat} {e : Node} {w : List Lexeme}

theorem getD_items (args : Option (List (Node × List Lexeme))) :
    (args.map (List.map (·.1))).getD [] = (args.getD []).map (·.1) := by
  cases args <;> rfl

theorem strings_eq (h : Written c e w) (hp : e.printed = true) : strings w = strings e.wording := by
  have mark {k : TokenKind} {v : List Lexeme} (hk : k ≠ .stringLiteral) :
      strings (of k :: v) = strings v := strings_cons_of_ne hk
  induction h with
  | select _ _ _ ihc ihy ihn =>
    simp only [Node.printed, Bool.and_eq_true] at hp
    simp only [Node.wording, strings_append, mark (k := .query) (by decide),
      mark (k := .colon) (by decide), ihc hp.1.1, ihy hp.1.2, ihn hp.2]
  | @binary c op l r p w v hop _ _ ihl ihr =>
    have hk : op ≠ .stringLiteral := by
      rintro rfl
      exact Grammar.not_mem_plain_of_mem_operators hop (by decide)
    simp only [Node.printed, Bool.and_eq_true] at hp
    rw [Node.wording, strings_append, strings_append, mark hk, mark hk, ihl hp.1, ihr hp.2]
  | @unary op e p w hop _ ih =>
    have hops : ∀ op ∈ unaries, op ≠ .stringLiteral := by decide
    rw [mark (hops op hop), ih hp, Node.wording]
    split
    · rw [strings_glue]
    · rw [mark (hops op hop)]
  | weaken _ _ ih => exact ih hp
  | paren _ ih => rw [mark (by decide), strings_append, mark (by decide), ih hp, strings_nil, append_nil]
  | literal hl => cases hl <;> rfl
  | name => rfl
  | @call callee args p w _ _ _ ihc ih =>
    rw [Node.printed, Bool.and_eq_true, Node.printedOpt_eq, getD_items, all_map,
      all_eq_true] at hp
    have hargs : (args.getD []).flatMap (fun i => strings i.2) =
        (args.getD []).flatMap (fun i => strings i.1.wording) :=
      flatMap_congr fun i hi => ih i hi (hp.2 i hi)
    rw [Node.wording, Node.wordingsOpt_eq, getD_items, map_map, strings_append, strings_append,
      ihc (Node.printed_of_ident? hp.1), mark (by decide), mark (by decide), strings_append, strings_append,
      strings_commas, strings_commas, flatMap_map, flatMap_map, hargs]
    rfl
  | _ => cases hp

theorem sum_map_le {f g : α → Nat} (h : ∀ x ∈ xs, f x ≤ g x) :
    (xs.map f).sum ≤ (xs.map g).sum ∧ ((xs.map g).sum ≤ (xs.map f).sum → ∀ x ∈ xs, g x ≤ f x) := by
  induction xs with
  | nil => simp
  | cons x xs ih =>
    rw [forall_mem_cons] at h
    obtain ⟨hle, heq⟩ := ih h.2
    have hx := h.1
    simp only [map_cons, sum_cons, forall_mem_cons]
    exact ⟨by omega, fun hsum => ⟨by omega, heq (by omega)⟩⟩

/-- A spelling that counts no more than what is written shows that the expression is legible. -/
theorem legible (h : Written c e w) (hp : e.printed = true) :
    e.wording.countP isKey ≤ w.countP isKey ∧
      (w.countP isKey ≤ e.wording.countP isKey → (∀ l ∈ w, l.Plain) →
        c ≤ e.strength ∧ e.legible = true) := by
  have mark {k : TokenKind} {v : List Lexeme} (hk : k ∉ [.lparen, .kwNot]) :
      (of k :: v).countP isKey = v.countP isKey := countP_cons_of_neg (by simpa [isKey, of] using hk)
  have key {k : TokenKind} {v : List Lexeme} (hk : k ∈ [.lparen, .kwNot]) :
      (of k :: v).countP isKey = v.countP isKey + 1 := countP_cons_of_pos (by simpa [isKey, of] using hk)
  induction h with
  | select _ _ _ ihc ihy ihn =>
    simp only [Node.printed, Bool.and_eq_true] at hp
    obtain ⟨hc, hc'⟩ := ihc hp.1.1
    obtain ⟨hy, hy'⟩ := ihy hp.1.2
    obtain ⟨hn, hn'⟩ := ihn hp.2
    simp only [Node.wording, countP_append, mark (k := .query) (by decide),
      mark (k := .colon) (by decide), forall_mem_append, forall_mem_cons]
    refine ⟨by omega, fun hle hplain => ⟨Nat.zero_le _, ?_⟩⟩
    obtain ⟨hstrong, hc'⟩ := hc' (by omega) hplain.1
    obtain ⟨-, hy'⟩ := hy' (by omega) hplain.2.2.1
    obtain ⟨-, hn'⟩ := hn' (by omega) hplain.2.2.2.2
    have hstrong : choice < _ := hstrong
    simp [Node.legible, hstrong, hc', hy', hn']
  | @binary c op l r p w v hop _ _ ihl ihr =>
    have hk : op ∉ [.lparen, .kwNot] := by
      have hall : ∀ c < closed, ∀ op ∈ operators c, op ∉ [.lparen, .kwNot] := by decide
      exact hall c (lt_of_mem_operators hop) op hop
    simp only [Node.printed, Bool.and_eq_true] at hp
    obtain ⟨hl, hl'⟩ := ihl hp.1
    obtain ⟨hr, hr'⟩ := ihr hp.2
    simp only [Node.wording, countP_append, mark hk, forall_mem_append, forall_mem_cons]
    refine ⟨by omega, fun hle hplain => ?_⟩
    obtain ⟨hleft, hl'⟩ := hl' (by omega) hplain.1
    obtain ⟨hright, hr'⟩ := hr' (by omega) hplain.2.2
    have hright : c < r.strength := hright
    rw [Node.strength, Node.findIdx_table hop]
    refine ⟨Nat.le_refl _, ?_⟩
    simp [Node.legible, Node.findIdx_table hop, hleft, hright, hl', hr']
  | @unary op e p w hop _ ih =>
    obtain ⟨hle, heq⟩ := ih hp
    rw [Node.wording]
    by_cases hnot : op = .kwNot
    · subst hnot
      obtain ⟨hglue, hglue'⟩ := countP_glue e.wording
      rw [if_pos rfl, key (by decide), forall_mem_cons]
      refine ⟨by omega, fun hle' hplain => ⟨Nat.le_refl _, ?_⟩⟩
      obtain ⟨hstrong, hleg⟩ := heq (by omega) hplain.2
      rw [Node.legible, decide_eq_true hstrong, hleg, hglue' (by omega)]
      rfl
    · have hk : op ∉ [.lparen, .kwNot] := by
        have hall : ∀ op ∈ unaries, op ≠ .kwNot → op ∉ [.lparen, .kwNot] := by decide
        exact hall op hop hnot
      rw [if_neg hnot, mark hk, mark hk, forall_mem_cons]
      refine ⟨hle, fun hle' hplain => ⟨Nat.le_refl _, ?_⟩⟩
      obtain ⟨hstrong, hleg⟩ := heq hle' hplain.2
      simp [Node.legible, hstrong, hleg, hnot]
  | weaken _ _ ih =>
    obtain ⟨hle, heq⟩ := ih hp
    exact ⟨hle, fun hle' hplain => (heq hle' hplain).imp_left Nat.le_of_succ_le⟩
  | paren _ ih =>
    obtain ⟨hle, -⟩ := ih hp
    rw [key (by decide), countP_append]
    exact ⟨by omega, fun hle' => by omega⟩
  | literal hl =>
    cases hl with
    | @string x p =>
      refine ⟨Nat.le_refl _, fun _ hplain => ⟨Nat.le_refl _, all_eq_true.2 fun c hc => ?_⟩⟩
      exact decide_eq_true (hplain _ mem_cons_self rfl c hc)
    | _ => exact ⟨Nat.le_refl _, fun _ _ => ⟨Nat.le_refl _, rfl⟩⟩
  | name => exact ⟨Nat.le_refl _, fun _ _ => ⟨Nat.le_refl _, rfl⟩⟩
  | @call callee args p w _ _ _ ihc ih =>
    rw [Node.printed, Bool.and_eq_true, Node.printedOpt_eq, getD_items, all_map,
      all_eq_true] at hp
    obtain ⟨hc, -⟩ := ihc (Node.printed_of_ident? hp.1)
    obtain ⟨hargs, hargs'⟩ := sum_map_le (f := fun i => i.1.wording.countP isKey)
      (g := fun i => i.2.countP isKey) fun i hi => (ih i hi (hp.2 i hi)).1
    simp only [Node.wording, Node.wordingsOpt_eq, getD_items, map_map, countP_append,
      key (k := .lparen) (by decide), countP_commas, mark (k := .rparen) (by decide), countP_nil,
      forall_mem_append, forall_mem_cons]
    refine ⟨Nat.add_le_add hc (Nat.succ_le_succ hargs), fun hle hplain => ⟨Nat.le_refl _, ?_⟩⟩
    have hle := hargs' (by simp only [Function.comp_def] at hle ⊢; omega)
    rw [Node.legible, Node.legibleOpt_eq, getD_items, all_map, all_eq_true]
    refine fun i hi => ((ih i hi (hp.2 i hi)).2 (hle i hi) fun l hl => ?_).2
    exact hplain.2.2.1 l (mem_commas (mem_map_of_mem hi) hl)
  | _ => cases hp

end Written

namespace Node

theorem written_call {args : Option (List Node)} {x : String} {p q : Position} (hne : args ≠ some [])
    (h : ∀ a ∈ args.getD [], Written choice a a.wording) :
    Written closed (.call (.name x q) args p) (Node.call (.name x q) args p).wording := by
  cases args with
  | none => exact @Written.call _ none _ _ .name (by simp) (by simp)
  | some es =>
    have hcall := @Written.call _ (some (es.map fun a => (a, a.wording))) p _ (.name (x := x) (p := q))
      (by simpa using hne) (by simpa using h)
    simpa [wording, Function.comp_def] using hcall

/-- What is written for a legible expression spells it. -/
theorem Formed.written_legible (h : Formed Scanned r e) (hr : r ≠ .stat) (hp : e.printed = true)
    (hl : e.legible = true) : Written e.strength e e.wording := by
  induction h with
  | name => exact .name
  | call _ _ hne _ _ ih =>
    rw [printed, Bool.and_eq_true, printedOpt_eq, all_eq_true] at hp
    rw [legible, legibleOpt_eq, all_eq_true] at hl
    obtain ⟨x, hx⟩ := Option.isSome_iff_exists.1 hp.1
    obtain ⟨q, rfl⟩ := ident?_eq_some hx
    refine written_call hne fun a ha => ?_
    exact (ih a ha (by decide) (hp.2 a ha) (hl a ha)).mono (Nat.zero_le _) (strength_le a)
  | operand hr _ ih => exact ih (by rintro rfl; simp at hr) hp hl
  | select _ _ _ ihc ihy ihn =>
    simp only [printed, Bool.and_eq_true] at hp
    simp only [legible, Bool.and_eq_true, decide_eq_true_eq] at hl
    exact .select ((ihc (by decide) hp.1.1 hl.1.1.2).mono hl.1.1.1 (strength_le _))
      ((ihy (by decide) hp.1.2 hl.1.2).mono (Nat.zero_le _) (strength_le _))
      ((ihn (by decide) hp.2 hl.2).mono (Nat.zero_le _) (strength_le _))
  | @binary op l r p hop _ _ _ ihl ihr =>
    have hops : ∀ op ∈ .pow :: Grammar.levels.flatMap (·.ops), op ∈ operators (table.findIdx (op ∈ ·)) := by
      decide
    simp only [printed, Bool.and_eq_true] at hp
    simp only [legible, Bool.and_eq_true, decide_eq_true_eq] at hl
    exact .binary (hops op hop) ((ihl (by decide) hp.1 hl.1.2).mono hl.1.1.1 (strength_le _))
      ((ihr (by decide) hp.2 hl.2).mono hl.1.1.2 (strength_le _))
  | @unary op operand p hop _ _ ih =>
    simp only [legible, Bool.and_eq_true, Bool.or_eq_true, bne_iff_ne, decide_eq_true_eq] at hl
    have hw : (Node.unary op operand p).wording = of op :: operand.wording := by
      rw [wording]
      split
      · rename_i hnot
        rw [hnot]
        exact glue_eq (hl.2.resolve_left fun hne => hne hnot)
      · rfl
    rw [hw]
    exact .unary hop ((ih (by decide) hp hl.1.2).mono hl.1.1 (strength_le _))
  | int => exact .literal .int
  | float => exact .literal .float
  | string => exact .literal .string
  | @bool k x p hk hx =>
    have hword : ∀ k ∈ [kwTrue, .kwFalse], 
        k ∉ [.eof, .identifier, .intLiteral, .floatLiteral, .stringLiteral] ∧
        (k = .kwTrue ∨ k = .kwFalse) := by decide
    obtain ⟨hk, rfl | rfl⟩ := hword k hk
    · rw [(hx.stands_of hk).2]
      exact .literal .true
    · rw [(hx.stands_of hk).2]
      exact .literal .false
  | otherwise => exact .literal .true
  | null => exact .literal .null
  | item | field | funcDef | listOf | mapOf | setOf => cases hp
  | _ => exact absurd rfl hr

/-- The strings of a legible expression may stand between quotes as they are. -/
theorem clear_of_legible (e : Node) : e.legible = true → e.clear = true := by
  induction e using induct_parts with
  | h e ih =>
    intro h
    cases e with
    | select cond yes no p =>
      simp only [parts, forall_mem_cons] at ih
      simp only [legible, Bool.and_eq_true] at h
      simp only [clear, ih.1 h.1.1.2, ih.2.1 h.1.2, ih.2.2.1 h.2, Bool.and_self]
    | binary op l r p =>
      simp only [parts, forall_mem_cons] at ih
      simp only [legible, Bool.and_eq_true] at h
      simp only [clear, ih.1 h.1.2, ih.2.1 h.2, Bool.and_self]
    | unary op operand p =>
      have ih := ih operand mem_cons_self
      simp only [legible, Bool.and_eq_true, Bool.or_eq_true, bne_iff_ne] at h
      have hfloat : floatLiteral ∉ .stringLiteral :: operators := by decide
      simp only [clear, ih h.1.2, Bool.true_and, Bool.not_eq_true', Bool.and_eq_false_iff]
      refine h.2.imp (fun hne => beq_false_of_ne hne) fun hhead => ?_
      refine (Option.any_eq_false ..).2 fun l hl => beq_false_of_ne fun hk => hfloat ?_
      rw [hl] at hhead
      exact hk ▸ of_decide_eq_true hhead
    | call callee args p =>
      rw [legible, legibleOpt_eq, all_eq_true] at h
      rw [clear, clearOpt_eq, all_eq_true]
      exact fun a ha => ih a (mem_cons_of_mem _ ha) (h a ha)
    | string => exact h
    | _ => rfl

end Node

/-! ### Quotes in what is written -/

theorem Scan.isQuote_of_isWordChar {c : Char} (h : Text.isWordChar c = true) : isQuote c = false := by
  refine Bool.eq_false_iff.2 fun hq => ?_
  have hall : (['"', '\'', '\x60'].all fun q => !Text.isWordChar q) = true := by decide
  have hno := List.all_eq_true.1 hall c (by simpa [isQuote, or_assoc] using hq)
  rw [h] at hno
  cases hno

theorem TokenKind.unquoted (k : TokenKind) : ∀ c ∈ k.spelling.toList, Scan.isQuote c = false := by
  have hall : ∀ k ∈ TokenKind.all, (k.spelling.toList.all fun c => !Scan.isQuote c) = true := by decide
  intro c hc
  simpa using List.all_eq_true.1 (hall k (TokenKind.mem_all k)) c hc

/-- Only strings have quotes. -/
theorem Scan.Spells.unquoted {span rest : List Char} {l : Lexeme} (h : Scan.Spells span l rest)
    (hk : l.kind ≠ .stringLiteral) : ∀ c ∈ span, Scan.isQuote c = false := by
  have digit {c : Char} (hc : Text.isDigit c = true) : Scan.isQuote c = false :=
    isQuote_of_isWordChar (isWordChar_of_isDigit hc)
  cases h with
  | int _ hd => exact fun c hc => digit (hd c hc)
  | float _ hd he =>
    refine List.forall_mem_append.2 ⟨fun c hc => digit (hd c hc), List.forall_mem_cons.2 ⟨by decide, ?_⟩⟩
    exact fun c hc => digit (he c hc)
  | string => exact absurd rfl hk
  | word _ hc hcs =>
    refine List.forall_mem_cons.2 ⟨isQuote_of_isWordChar (isWordChar_of_isWordStart hc), ?_⟩
    exact fun c hc => isQuote_of_isWordChar (hcs c hc)
  | operator => exact TokenKind.unquoted _

namespace Layout

variable {a b : Layout} {us vs : List (List Char)}

theorem Says.ne_nil {u : List Lexeme} (h : Says a u) : u ≠ [] := by
  rintro rfl
  obtain ⟨c, cs, htext, hc, -⟩ := h.first
  cases h.spelt [] (by simp) with
  | nil hg =>
    rw [hg c (htext ▸ List.mem_cons_self)] at hc
    cases hc

/-- The layout is whole, and has the strings between quotes. -/
structure Shows (a : Layout) (vs : List (List Char)) : Prop where
  whole : a.failure = none
  quotes : Scan.Quotes a.text.toList vs

theorem Shows.append (ha : Shows a us) (hb : Shows b vs) : Shows (a ++ b) (us ++ vs) where
  whole := failure_append.2 ⟨ha.whole, hb.whole⟩
  quotes := by
    rw [text_append ha.whole, String.toList_append]
    exact ha.quotes.append hb.quotes

/-- Mathlib decides a bounded quantifier over characters by going through all characters, so closed texts go
through `List.any`. -/
theorem unquoted_of_any {x : String} (h : x.toList.any Scan.isQuote = false) :
    ∀ c ∈ x.toList, Scan.isQuote c = false := by
  simpa using h

theorem shows_piece {x : String} (h : ∀ c ∈ x.toList, Scan.isQuote c = false) : Shows (piece x) [] :=
  ⟨rfl, by simpa using .nil h⟩

theorem shows_listed {f : α → Layout} {g : α → List (List Char)} (h : ∀ x ∈ xs, Shows (f x) (g x)) :
    Shows (listed (xs.map f)) (xs.flatMap g) := by
  have hcommas (x : α) (xs : List α) (h : ∀ y ∈ x :: xs, Shows (f y) (g y)) :
      Shows (commas ((x :: xs).map f)) ((x :: xs).flatMap g) := by
    induction xs generalizing x with
    | nil => simpa [commas] using h x List.mem_cons_self
    | cons y ys ih =>
      rw [List.forall_mem_cons] at h
      have hcomma : Shows (piece ", ") [] := shows_piece (unquoted_of_any (by decide))
      simpa [commas] using (h.1.append hcomma).append (ih y h.2)
  cases xs with
  | nil => exact ⟨rfl, .nil (by simp [listed])⟩
  | cons x xs => exact hcommas x xs h

end Layout

namespace Node

open Layout

/-- An expression without functions, lists, sets, maps and accesses to them is written, and its strings
stand between quotes. -/
theorem Formed.shows (h : Formed Scanned r e) (hr : r ≠ .stat) (st : Style) (hp : e.printed = true) :
    Shows (e.layout st) (strings e.wording) := by
  have word {k : TokenKind} {x : String} (hx : TextOf Scanned k x) (hk : k ≠ .eof)
      (hne : k ≠ .stringLiteral) : Shows (piece x) (strings [⟨k, some x⟩]) := by
    rw [strings_cons_of_ne hne]
    exact shows_piece (((hx.scanned hk).stands hk hne).spells.unquoted hne)
  induction h with
  | name hx => exact word hx (by decide) (by decide)
  | call hr' _ _ _ ihc ih =>
    have hrole : ∀ r ∈ [Role.place, .function], r ≠ .stat := by decide
    rw [printed, Bool.and_eq_true, printedOpt_eq, List.all_eq_true] at hp
    have hargs := shows_listed fun a ha => ih a ha (by decide) (hp.2 a ha)
    have hopen : Shows (piece "(") [] := shows_piece (unquoted_of_any (by decide))
    have hclose : Shows (piece ")") [] := shows_piece (unquoted_of_any (by decide))
    have hcallee := ihc (hrole _ hr') (printed_of_ident? hp.1)
    rw [layout_call, wording, wordingsOpt_eq, strings_append, strings_cons_of_ne (l := of .lparen) (by decide),
      strings_append, strings_commas, List.flatMap_map, strings_cons_of_ne (l := of .rparen) (by decide)]
    simpa using ((hcallee.append hopen).append hargs).append hclose
  | operand hr _ ih => exact ih (by rintro rfl; simp at hr) hp
  | select _ _ _ ihc ihy ihn =>
    simp only [printed, Bool.and_eq_true] at hp
    have hquery : Shows (piece " ? ") [] := shows_piece (unquoted_of_any (by decide))
    have hcolon : Shows (piece " : ") [] := shows_piece (unquoted_of_any (by decide))
    have hcond := (ihc (by decide) hp.1.1).append hquery
    have hyes := hcond.append (ihy (by decide) hp.1.2)
    have hno := (hyes.append hcolon).append (ihn (by decide) hp.2)
    simp only [wording, strings_append, strings_cons_of_ne (l := of .query) (by decide),
      strings_cons_of_ne (l := of .colon) (by decide)]
    rw [layout]
    simpa using hno
  | @binary op l r p hop _ _ _ ihl ihr =>
    have hops : ∀ op ∈ .pow :: Grammar.levels.flatMap (·.ops), op ≠ .stringLiteral := by decide
    simp only [printed, Bool.and_eq_true] at hp
    have hop' : Shows (piece s!" {op.spelling} ") [] := by
      refine shows_piece ?_
      simp only [String.toList_append, List.forall_mem_append]
      exact ⟨⟨unquoted_of_any (by decide), op.unquoted⟩, unquoted_of_any (by decide)⟩
    rw [layout, wording, strings_append, strings_cons_of_ne (l := of op) (hops op hop)]
    simpa using ((ihl (by decide) hp.1).append hop').append (ihr (by decide) hp.2)
  | @unary op operand p hop _ _ ih =>
    have hops : ∀ op ∈ TokenKind.unaries, op ≠ .stringLiteral := by decide
    have hw : strings (Node.unary op operand p).wording = strings operand.wording := by
      rw [wording]
      split
      · exact strings_glue
      · exact strings_cons_of_ne (hops op hop)
    rw [hw]
    exact (shows_piece op.unquoted).append (ih (by decide) hp)
  | int hx | float hx => exact word hx (by decide) (by decide)
  | @string x p =>
    refine ⟨rfl, ?_⟩
    have hquotes : Scan.Quotes ([] ++ '\'' :: (x.toList ++ '\'' :: [])) [x.toList] :=
      .cons (by simp) (.nil (by simp))
    have htext : s!"'{x}'".toList = '\'' :: (x.toList ++ ['\'']) := by
      simp only [String.toList_append, List.append_assoc]
      rfl
    rw [layout, text_piece, htext]
    exact hquotes
  | @bool k x p hk hx =>
    have hkind : ∀ k ∈ [TokenKind.kwTrue, .kwFalse], TokenKind.ofWord k.spelling = k ∧
        k ≠ .eof ∧ k ≠ .stringLiteral ∧
        k ∉ [.eof, .identifier, .intLiteral, .floatLiteral, .stringLiteral] := by decide
    obtain ⟨hof, heof, hne, hk⟩ := hkind k hk
    have hx' := word hx heof hne
    obtain ⟨-, rfl⟩ := hx.stands_of hk
    rw [wording, hof]
    exact hx'
  | otherwise => exact shows_piece (x := "true") (unquoted_of_any (by decide))
  | null => exact shows_piece (x := "null") (unquoted_of_any (by decide))
  | item | field | funcDef | listOf | mapOf | setOf => cases hp
  | _ => exact absurd rfl hr

end Node

/-! ### Whole texts -/

/-- The expression that a text begins with, and the token after it. -/
def readExpr? (src : String) : Option (Node × Token) :=
  match Feed.ofSource src with
  | .error _ => none
  | .ok s =>
    match Parse.run (fun n => (Grammar.rules n).expr) s with
    | .error .. => none
    | .ok e s' => some (e, s'.current)

theorem readExpr?_eq_some {src : String} {t : Token} : readExpr? src = some (e, t) ↔
    ∃ s s', Feed.ofSource src = .ok s ∧ Parse.run (fun n => (Grammar.rules n).expr) s = .ok e s' ∧
      s'.current = t := by
  unfold readExpr?
  cases hs : Feed.ofSource src with
  | error f => simp
  | ok s =>
    cases hrun : Parse.run (fun n => (Grammar.rules n).expr) s with
    | error f s' => simp [hrun]
    | ok e' s' => simp [hrun]

/-- An expression that was read from a text and can be written is read back from what is written, up
to places, exactly if it is legible. Then nothing that is written is left over. -/
theorem readExpr?_layout {src : String} {e : Node} {t : Token} (h : readExpr? src = some (e, t))
    (hp : e.printed = true) (st : Style) :
    (e.layout st).failure = none ∧
      ((∃ e' t', readExpr? (e.layout st).text = some (e', t') ∧ e'.bare = e.bare) →
        e.legible = true) ∧
      (e.legible = true → ∃ e' t', readExpr? (e.layout st).text = some (e', t') ∧
        t'.kind = .eof ∧ e'.bare = e.bare) := by
  obtain ⟨s, s', hs, hrun, -⟩ := readExpr?_eq_some.1 h
  have hformed := formed_of_run hs hrun
  have hshows := hformed.shows (by decide) st hp
  -- what is written reads as the wording, once no string needs an escape
  have hfeed (hplain : ∀ l ∈ e.wording, l.Plain) : ∃ t, Feed.ofSource (e.layout st).text = .ok t ∧
      t.lexemes = e.wording ++ [.eof] :=
    have hsays := hformed.spoken (by decide) st hshows.whole hplain
    hsays.toLays.feed_lexemes hsays.ne_nil
  refine ⟨hshows.whole, ?_, fun hl => ?_⟩
  · rintro ⟨e', t', hread, hbare⟩
    obtain ⟨t, t', ht, hrun', -⟩ := readExpr?_eq_some.1 hread
    have hp' : e'.printed = true := by rw [← Node.printed_bare, hbare, Node.printed_bare, hp]
    have hw' : e'.wording = e.wording := by rw [← Node.wording_bare, hbare, Node.wording_bare]
    obtain ⟨w, htokens, hwritten⟩ := written_of_run ht hrun' hp'
    have hstrings : strings w = strings e.wording := hw' ▸ hwritten.strings_eq hp'
    have hquoted : ∀ v ∈ strings e.wording, ∀ c ∈ v, c ∉ ['\'', '\\', '\n', '\r'] := by
      refine hshows.quotes.plain ?_
      have hstrung := Scan.strung_of_tokens (tokens_of_feed ht).2
      rw [show t.tokens.map Token.lexeme = t.lexemes from rfl, htokens, strings_append,
        hstrings] at hstrung
      exact hstrung.of_append
    obtain ⟨t₁, ht₁, hlex⟩ := hfeed (plain_of_strings hquoted)
    obtain rfl : t₁ = t := Except.ok.inj (ht₁.symm.trans ht)
    have hcount : w.countP isKey ≤ e'.wording.countP isKey := by
      have hle := congrArg (List.countP isKey) (htokens.symm.trans hlex)
      rw [List.countP_append, List.countP_append, show List.countP isKey [.eof] = 0 from rfl] at hle
      rw [hw']
      omega
    have hlegible := ((hwritten.legible hp').2 hcount (plain_of_strings (hstrings ▸ hquoted))).2
    rwa [← Node.legible_bare, hbare, Node.legible_bare] at hlegible
  · obtain ⟨t, ht, hlex⟩ := hfeed (hformed.plain (by decide) (Node.clear_of_legible e hl))
    obtain ⟨t', hspends, hend⟩ := Feed.exists_spends hlex
    have hwritten := (hformed.written_legible (by decide) hp hl).mono (c := choice) (Nat.zero_le _)
      (Node.strength_le e)
    obtain ⟨e', he', hbare⟩ := Grammar.expr_of_written hwritten hspends (hend ▸ by decide)
    exact ⟨e', t'.current, readExpr?_eq_some.2 ⟨t, t', ht, he', rfl⟩, hend, hbare⟩

/-- Operators of several strengths, a choice and `not` before a string, in no need of parentheses. -/
def plainFormula : String := "f(-a - b * 2, not 'it') ? (c) : 1 * x < y or z"

/-- A sum as a factor. -/
def sumFactor : String := "(1 + 2) * 3"

theorem readExpr?_layout_formulas :
    (∃ e t e' t', readExpr? plainFormula = some (e, t) ∧
      (e.layout ⟨false, 0⟩).text = "f(-a - b * 2, not'it') ? c : 1 * x < y or z" ∧
      readExpr? (e.layout ⟨false, 0⟩).text = some (e', t') ∧ t'.kind = .eof ∧ e'.bare = e.bare) ∧
    ∃ e t, readExpr? sumFactor = some (e, t) ∧ (e.layout ⟨false, 0⟩).text = "1 + 2 * 3" ∧
      ¬∃ e' t', readExpr? (e.layout ⟨false, 0⟩).text = some (e', t') ∧ e'.bare = e.bare := by
  have hplain : ((readExpr? plainFormula).map fun r => (r.1.printed, r.1.legible,
      (r.1.layout ⟨false, 0⟩).text)) =
        some (true, true, "f(-a - b * 2, not'it') ? c : 1 * x < y or z") := by decide +kernel
  have hsum : ((readExpr? sumFactor).map fun r => (r.1.printed, r.1.legible,
      (r.1.layout ⟨false, 0⟩).text)) = some (true, false, "1 + 2 * 3") := by decide +kernel
  obtain ⟨⟨e, t⟩, he, hfacts⟩ := Option.map_eq_some_iff.1 hplain
  obtain ⟨⟨d, u⟩, hd, hfacts'⟩ := Option.map_eq_some_iff.1 hsum
  simp only [Prod.mk.injEq] at hfacts hfacts'
  obtain ⟨-, -, hback⟩ := readExpr?_layout he hfacts.1 ⟨false, 0⟩
  obtain ⟨-, hlegible, -⟩ := readExpr?_layout hd hfacts'.1 ⟨false, 0⟩
  obtain ⟨e', t', hread, hend, hbare⟩ := hback hfacts.2.1
  refine ⟨⟨e, t, e', t', he, hfacts.2.2, hread, hend, hbare⟩, d, u, hd, hfacts'.2.2, fun hread => ?_⟩
  exact absurd (hlegible hread) (by simp [hfacts'.2.1])

end TinyScript
