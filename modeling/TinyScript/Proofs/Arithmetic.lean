import Mathlib.Data.List.Chain
import TinyScript.Number.Numeral
import TinyScript.Proofs.Precedence

/-!
# Arithmetic expressions

Expressions of integer literals, signs and the four operations of arithmetic, written with
parentheses around every operand that is not a literal, and with white space between the tokens or
none. No two tokens of such a text run together (`Arith.phrase_lexemes`), so that the text is read as
its tokens (`Spaced.readAs`), and the tokens spell the expression (`Arith.written`).
-/

namespace TinyScript

open Lexeme Precedence Parse List

variable {c : Char} {span : List Char} {src x : String} {a : Arith} {e : Node}

/-! ### Texts of tokens -/

namespace Lexeme

/-- The text of a token that is written as it stands. -/
def chars (l : Lexeme) : List Char := (l.text.getD "").toList

/-- The text of the token is read as the token. -/
structure Stands (l : Lexeme) : Prop where
  spells : Scan.Spells l.chars l []
  gap : Scan.gapLength l.chars = 0

/-- The second token may follow the first one with nothing between them. -/
def Joins (l l' : Lexeme) : Prop := ∀ c ∈ l'.chars.head?, Scan.EndsBefore l.kind c

end Lexeme

/-- Tokens with white space, or with nothing, before each of them and after the last one. -/
inductive Spaced : List Lexeme → List Char → Prop
  | nil {g : List Char} (hg : ∀ c ∈ g, Text.isBlank c = true) : Spaced [] g
  | cons {g : List Char} {l : Lexeme} {ls : List Lexeme} {cs : List Char}
      (hg : ∀ c ∈ g, Text.isBlank c = true) (h : Spaced ls cs) :
      Spaced (l :: ls) (g ++ (l.chars ++ cs))

theorem Scan.Gap.of_blanks {g : List Char} (hg : ∀ c ∈ g, Text.isBlank c = true) : Scan.Gap g := by
  induction g with
  | nil => exact .nil
  | cons c g ih =>
    rw [forall_mem_cons] at hg
    exact .blank hg.1 (ih hg.2)

variable {l : Lexeme} {ls : List Lexeme} {g cs : List Char}

theorem Spaced.plain (ls : List Lexeme) : Spaced ls (ls.flatMap Lexeme.chars) := by
  induction ls with
  | nil => exact .nil (by simp)
  | cons l ls ih => exact .cons (g := []) (by simp) ih

theorem Spaced.blank (h : Spaced ls cs) (hc : Text.isBlank c = true) : Spaced ls (c :: cs) := by
  cases h with
  | nil hg => exact .nil (forall_mem_cons.2 ⟨hc, hg⟩)
  | @cons g l ls cs hg h => exact .cons (g := c :: g) (forall_mem_cons.2 ⟨hc, hg⟩) h

/-- Wherever the text `cs` begins, it is read as the tokens `ls`. -/
def ReadAs (ls : List Lexeme) (cs : List Char) : Prop :=
  ∀ p, ∃ ts c, Scan.Passes ⟨cs, p⟩ ts c ∧ Scan.LastGap c.rest ∧ ts.map Token.lexeme = ls

theorem readAs_nil (hg : ∀ c ∈ g, Text.isBlank c = true) : ReadAs [] g := fun p =>
  ⟨[], ⟨g, p⟩, .nil, ⟨g, [], by simp, .of_blanks hg, .inl rfl⟩, rfl⟩

/-- One more token, which ends where the text after it begins. -/
theorem ReadAs.token (h : ReadAs ls cs) (hs : Scan.Spells span l cs)
    (h₀ : Scan.gapLength (span ++ cs) = 0) (hg : ∀ c ∈ g, Text.isBlank c = true) :
    ReadAs (l :: ls) (g ++ (span ++ cs)) := by
  intro p
  obtain ⟨ts, c, hp, hc, rfl⟩ := h (p.after (g ++ span))
  have htoken := Scan.token_of_next (.token (p := p) (.of_blanks hg) hs h₀)
  exact ⟨_, c, .cons htoken hs.kind_ne_eof hp, hc, rfl⟩

/-- A token on its own is one before a text that it ends before. -/
theorem Scan.Spells.before (hs : Scan.Spells span l []) (h₀ : Scan.gapLength span = 0)
    (hcs : ∀ c ∈ cs.head?, Scan.EndsBefore l.kind c) :
    Scan.Spells span l cs ∧ Scan.gapLength (span ++ cs) = 0 := by
  cases cs with
  | nil => exact ⟨hs, by rw [append_nil, h₀]⟩
  | cons d cs =>
    have hd := hcs d rfl
    have h₀ : Scan.gapLength (span ++ []) = 0 := by rw [append_nil, h₀]
    exact ⟨hs.append hd cs, hs.gapLength_append h₀ hd cs⟩

theorem ReadAs.cons (h : ReadAs ls cs) (hl : l.Stands) (hg : ∀ c ∈ g, Text.isBlank c = true)
    (hcs : ∀ c ∈ cs.head?, Scan.EndsBefore l.kind c) : ReadAs (l :: ls) (g ++ (l.chars ++ cs)) := by
  obtain ⟨hs, h₀⟩ := hl.spells.before hl.gap hcs
  exact h.token hs h₀ hg

theorem ReadAs.tokenize (h : ReadAs ls src.toList) (hne : src ≠ "") :
    ∃ ts, tokenize src = (ts, none) ∧ ts.map Token.lexeme = ls ++ [.eof] := by
  obtain ⟨ts, c, hp, hc, rfl⟩ := h .start
  refine ⟨_, tokenize_eq_iff.2 ⟨hne, Scan.tokens_of_passes hp hc⟩, ?_⟩
  rw [map_append]
  rfl

theorem Spaced.endsBefore (h : Spaced ls cs) (hst : ∀ l ∈ ls, l.Stands)
    (hl : ∀ l' ∈ ls.head?, l.Joins l') : ∀ c ∈ cs.head?, Scan.EndsBefore l.kind c := by
  have hblank {g cs : List Char} {c : Char} (hg : ∀ c ∈ g, Text.isBlank c = true)
      (hc : c ∈ (g ++ cs).head?) : Scan.EndsBefore l.kind c ∨ c ∈ cs.head? := by
    cases g with
    | nil => exact .inr hc
    | cons d g =>
      cases hc
      exact .inl (Scan.endsBefore_of_isBlank (hg _ mem_cons_self) _)
  intro c hc
  cases h with
  | nil hg =>
    rw [← append_nil cs] at hc
    exact (hblank hg hc).resolve_right (by simp)
  | @cons g l' ls cs hg _ =>
    refine (hblank hg hc).elim id fun hc => hl l' rfl c ?_
    obtain ⟨d, ds, hd⟩ := exists_cons_of_ne_nil (hst l' mem_cons_self).spells.ne_nil
    rw [hd] at hc ⊢
    exact hc

theorem Spaced.readAs (h : Spaced ls cs) (hst : ∀ l ∈ ls, l.Stands) (hj : ls.IsChain Joins) :
    ReadAs ls cs := by
  induction h with
  | nil hg => exact readAs_nil hg
  | cons hg h ih =>
    rw [forall_mem_cons] at hst
    rw [isChain_cons] at hj
    exact (ih hst.2 hj.2).cons hst.1 hg (h.endsBefore hst.2 hj.1)

/-! ### Expressions -/

/-- Decimal digits, no more of them than an integer may have. -/
structure Digits where
  chars : List Char
  ne_nil : chars ≠ []
  isDigit : ∀ c ∈ chars, c.isDigit = true
  length_le : chars.length ≤ Numeral.maxDigits

namespace Digits

def text (d : Digits) : String := .ofList d.chars

def value (d : Digits) : Nat := Nat.ofDigitChars 10 d.chars 0

def lexeme (d : Digits) : Lexeme := ⟨.intLiteral, some d.text⟩

end Digits

inductive Sign
  | plus | minus

namespace Sign

def kind : Sign → TokenKind
  | plus => .add
  | minus => .sub

def apply : Sign → Int → Int
  | plus, a => a
  | minus, a => -a

end Sign

inductive Operation
  | add | sub | mul | div

namespace Operation

def kind : Operation → TokenKind
  | add => .add
  | sub => .sub
  | mul => .mul
  | div => .div

/-- The exact result; division goes to the floor, and there is none by zero. -/
def result? : Operation → Int → Int → Option Int
  | add, a, b => some (a + b)
  | sub, a, b => some (a - b)
  | mul, a, b => some (a * b)
  | div, a, b => if b = 0 then none else some (a.fdiv b)

end Operation

inductive Arith
  | lit (d : Digits)
  | unary (s : Sign) (a : Arith)
  | binary (op : Operation) (a b : Arith)

namespace Arith

/-- The value of an expression, unless its evaluation comes to a division by zero. -/
def value? : Arith → Option Int
  | lit d => some d.value
  | unary s a => a.value?.map s.apply
  | binary op a b => do op.result? (← a.value?) (← b.value?)

/-- Parentheses around the tokens of an operand that is not a literal. -/
def enclose : Arith → List Lexeme → List Lexeme
  | lit _, w => w
  | _, w => of .lparen :: (w ++ [of .rparen])

/-- The tokens of an expression. -/
def lexemes : Arith → List Lexeme
  | lit d => [d.lexeme]
  | unary s a => of s.kind :: a.enclose a.lexemes
  | binary op a b => a.enclose a.lexemes ++ of op.kind :: b.enclose b.lexemes

/-- The tree of an expression, without places. -/
def node : Arith → Node
  | lit d => .number d.text true .start
  | unary s a => .unary s.kind a.node .start
  | binary op a b => .binary op.kind a.node b.node .start

def depth : Arith → Nat
  | lit _ => 1
  | unary _ a => a.depth + 1
  | binary _ a b => max a.depth b.depth + 1

end Arith

/-! ### Tokens that do not run together -/

/-- What can be said of all digits can be checked on each of the ten. -/
@[elab_as_elim]
theorem forall_digit {P : Char → Prop} (hc : c.isDigit = true) (h : ∀ i < 10, P (Char.ofNat (48 + i))) :
    P c := by
  simp only [Char.isDigit, Bool.and_eq_true, decide_eq_true_eq] at hc
  have hle : 48 ≤ c.toNat := hc.1
  have hge : c.toNat ≤ 57 := hc.2
  have hi := h (c.toNat - 48) (by omega)
  rwa [Nat.add_sub_cancel' hle, Char.ofNat_toNat] at hi

/-- The tokens of arithmetic. -/
inductive Lexeme.IsArith : Lexeme → Prop
  | lit (d : Digits) : IsArith d.lexeme
  | mark {k : TokenKind} (hk : k ∈ [.lparen, .rparen, .add, .sub, .mul, .div]) : IsArith (of k)

theorem stands_of_mark {k : TokenKind}
    (hk : k ∈ [.assign, .lparen, .rparen, .add, .sub, .mul, .div]) : (of k).Stands := by
  have hfind : ∀ k ∈ [.assign, .lparen, .rparen, .add, .sub, .mul, .div], TokenKind.operators.find?
      (fun k' => k'.spelling.toList.isPrefixOf (k.spelling.toList ++ [])) = some k := by decide
  refine ⟨.operator (k := k) (hfind k hk), ?_⟩
  simp only [mem_cons, not_mem_nil, or_false] at hk
  rcases hk with rfl | rfl | rfl | rfl | rfl | rfl | rfl
  all_goals exact Scan.gapLength_eq_zero_iff.2 (by decide)

theorem stands_of_word (c : Char) (cs : List Char) (hd : Text.isDigit c = false)
    (hc : Text.isWordStart c = true) (hcs : cs.all Text.isWordChar = true)
    (hb : Text.isBlank c = false) :
    Stands ⟨.ofWord (.ofList (c :: cs)), some (.ofList (c :: cs))⟩ := by
  have hchars : Lexeme.chars ⟨.ofWord (.ofList (c :: cs)), some (.ofList (c :: cs))⟩ = c :: cs :=
    String.toList_ofList
  refine ⟨?_, ?_⟩
  · rw [hchars]
    exact .word hd hc (all_eq_true.1 hcs) (by simp)
  · rw [hchars, Scan.gapLength_eq_zero_iff]
    refine ⟨hb, fun hs => ?_⟩
    rw [hs.1] at hc
    exact absurd hc (by decide)

theorem Digits.chars_lexeme (d : Digits) : d.lexeme.chars = d.chars := String.toList_ofList

theorem Lexeme.IsArith.stands (h : l.IsArith) : l.Stands := by
  cases h with
  | lit d =>
    have hdigit : ∀ c ∈ d.chars, Text.isDigit c = true ∧ Text.isBlank c = false ∧ c ≠ '/' :=
      fun c hc => forall_digit (d.isDigit c hc) (by decide)
    refine ⟨?_, ?_⟩
    · rw [d.chars_lexeme]
      exact .int d.ne_nil (fun c hc => (hdigit c hc).1) (by simp)
    · obtain ⟨c, cs, hcs⟩ := exists_cons_of_ne_nil d.ne_nil
      have hc := hdigit c (hcs ▸ mem_cons_self)
      rw [d.chars_lexeme, hcs, Scan.gapLength_eq_zero_iff]
      exact ⟨hc.2.1, fun hs => hc.2.2 hs.1⟩
  | mark hk => exact stands_of_mark (mem_cons_of_mem _ hk)

namespace Arith

variable {l' : Lexeme}

/-- What may come after a token of arithmetic: an operator or a parenthesis that closes after an
operand, and an expression after anything else. -/
def after (k : TokenKind) : List TokenKind :=
  if k ∈ [.intLiteral, .rparen] then [.rparen, .add, .sub, .mul, .div]
  else [.intLiteral, .lparen, .add, .sub]

theorem joins_of_all (h : l'.chars.head?.all (Scan.EndsBefore l.kind ·) = true) : l.Joins l' := by
  intro c hc
  rw [Option.mem_def.1 hc] at h
  simpa using h

theorem joins_of_mem_after (h : l.IsArith) (h' : l'.IsArith) (hk : l'.kind ∈ after l.kind) :
    l.Joins l' := by
  cases h with
  | lit d =>
    cases h' with
    | lit d' => exact absurd hk (by simp [Digits.lexeme, after])
    | @mark k' hk' =>
      have hall : ∀ k ∈ [.lparen, .rparen, .add, .sub, .mul, .div],
          (of k).chars.head?.all (Scan.EndsBefore .intLiteral ·) = true := by decide
      exact joins_of_all (hall k' hk')
  | @mark k hmem =>
    cases h' with
    | lit d' =>
      have hall : ∀ k ∈ [.lparen, .rparen, .add, .sub, .mul, .div],
          ∀ i < 10, Scan.EndsBefore k (Char.ofNat (48 + i)) := by decide
      intro c hc
      rw [d'.chars_lexeme] at hc
      exact forall_digit (d'.isDigit c (mem_of_mem_head? hc)) (hall k hmem)
    | @mark k' hk' =>
      have hall : ∀ k ∈ [.lparen, .rparen, .add, .sub, .mul, .div], ∀ k' ∈ after k,
          k' ≠ .intLiteral → (of k').chars.head?.all (Scan.EndsBefore k ·) = true := by decide
      refine joins_of_all (hall k hmem k' hk ?_)
      rintro rfl
      exact absurd hk' (by decide)

/-- Tokens of arithmetic that begin with one of the kinds `ks`, end with an operand and do not run
together. -/
structure Phrase (ks : List TokenKind) (w : List Lexeme) : Prop where
  ne_nil : w ≠ []
  tokens : ∀ l ∈ w, l.IsArith
  chain : w.IsChain Joins
  first : ∀ l ∈ w.head?, l.kind ∈ ks
  last : ∀ l ∈ w.getLast?, l.kind ∈ [.intLiteral, .rparen]

namespace Phrase

variable {ks ks' : List TokenKind} {u v w : List Lexeme} {k : TokenKind}

theorem mono (h : Phrase ks w) (hks : ks ⊆ ks') : Phrase ks' w :=
  ⟨h.ne_nil, h.tokens, h.chain, fun l hl => hks (h.first l hl), h.last⟩

theorem single (hl : l.IsArith) (hk : l.kind = k) (hmem : k ∈ [.intLiteral, .rparen]) :
    Phrase [k] [l] where
  ne_nil := cons_ne_nil _ _
  tokens := forall_mem_singleton.2 hl
  chain := isChain_singleton _
  first := by simp [hk]
  last := by simpa [hk] using hmem

theorem lit (d : Digits) : Phrase [.intLiteral] [d.lexeme] := .single (.lit d) rfl (by decide)

/-- A sign, an operator or an opening parenthesis before an expression that may follow it. -/
theorem cons (hk : k ∈ [.lparen, .rparen, .add, .sub, .mul, .div]) (h : Phrase (after k) w) :
    Phrase [k] (of k :: w) where
  ne_nil := cons_ne_nil _ _
  tokens := forall_mem_cons.2 ⟨.mark hk, h.tokens⟩
  chain := by
    refine isChain_cons.2 ⟨fun l' hl' => ?_, h.chain⟩
    exact joins_of_mem_after (.mark hk) (h.tokens l' (mem_of_mem_head? hl')) (h.first l' hl')
  first := by simp [of]
  last := by
    rw [getLast?_cons_of_ne_nil h.ne_nil]
    exact h.last

theorem append (h : Phrase ks u) (h' : Phrase (after .rparen) v) : Phrase ks (u ++ v) where
  ne_nil := by simp [h.ne_nil]
  tokens := forall_mem_append.2 ⟨h.tokens, h'.tokens⟩
  chain := by
    refine isChain_append.2 ⟨h.chain, h'.chain, fun l hl l' hl' => ?_⟩
    refine joins_of_mem_after (h.tokens l (mem_of_mem_getLast? hl))
      (h'.tokens l' (mem_of_mem_head? hl')) ?_
    rw [after, if_pos (h.last l hl)]
    exact h'.first l' hl'
  first := by
    rw [head?_append_of_ne_nil _ h.ne_nil]
    exact h.first
  last := by
    rw [getLast?_append_of_ne_nil _ h'.ne_nil]
    exact h'.last

end Phrase

theorem phrase_enclose (h : Phrase (after .lparen) a.lexemes) :
    Phrase [.intLiteral, .lparen] (a.enclose a.lexemes) := by
  have hparen : Phrase [.intLiteral, .lparen] (of .lparen :: (a.lexemes ++ [of .rparen])) := by
    have hclose : Phrase [.rparen] [of .rparen] := .single (.mark (by decide)) rfl (by decide)
    exact (Phrase.cons (by decide) (h.append (hclose.mono (by decide)))).mono (by decide)
  cases a with
  | lit d => exact (Phrase.lit d).mono (by decide)
  | unary | binary => exact hparen

theorem phrase_lexemes (a : Arith) : Phrase (after .lparen) a.lexemes := by
  induction a with
  | lit d => exact (Phrase.lit d).mono (by decide)
  | unary s a ih =>
    have hoperand := phrase_enclose ih
    cases s with
    | plus | minus => exact (Phrase.cons (by decide) (hoperand.mono (by decide))).mono (by decide)
  | binary op a b iha ihb =>
    have hright : Phrase (after .rparen) (of op.kind :: b.enclose b.lexemes) := by
      have hoperand := phrase_enclose ihb
      cases op with
      | add | sub | mul | div =>
        exact (Phrase.cons (by decide) (hoperand.mono (by decide))).mono (by decide)
    exact ((phrase_enclose iha).append hright).mono (by decide)

/-! ### The tree -/

theorem bare_node (a : Arith) : a.node.bare = a.node := by
  induction a with
  | lit d => rfl
  | unary s a ih => simp [node, ih]
  | binary op a b iha ihb => simp [node, iha, ihb]

theorem written_enclose (h : Written choice a.node a.lexemes) :
    Written closed a.node (a.enclose a.lexemes) := by
  cases a with
  | lit d => exact .literal .int
  | unary | binary => exact .paren h

theorem written (a : Arith) : Written choice a.node a.lexemes := by
  induction a with
  | lit d => exact (Written.literal .int).mono (by decide) (by decide)
  | unary s a ih =>
    have hop : s.kind ∈ TokenKind.unaries := by cases s <;> decide
    have hsigned := Written.unary (p := .start) hop ((written_enclose ih).mono (by decide) (by decide))
    exact hsigned.mono (by decide) (by decide)
  | binary op a b iha ihb =>
    have hop : ∃ c < sign, op.kind ∈ operators c ∧ left c = c := by
      cases op with
      | add | sub => exact ⟨9, by decide⟩
      | mul | div => exact ⟨10, by decide⟩
    obtain ⟨c, hc, hop, hleft⟩ := hop
    have hcc : c < closed := Nat.lt_trans hc (by decide)
    have hl := (written_enclose iha).mono (Nat.le_of_lt hcc) (by decide)
    have hr := (written_enclose ihb).mono (Nat.succ_le_of_lt hcc) (by decide)
    rw [← hleft] at hl
    exact (Written.binary (p := .start) hop hl hr).mono (Nat.zero_le _)
      (Nat.le_trans (Nat.le_of_lt hcc) (by decide))

end Arith

open Node in
theorem exists_of_bare_declare {tree : Node} {p q : Position}
    (h : tree.bare = .program [.declare [.name x p] (some [e]) false q]) :
    ∃ p q e', tree = .program [.declare [.name x p] (some [e']) false q] ∧ e'.bare = e := by
  cases tree <;> simp only [bare, bareAll_eq, reduceCtorEq, program.injEq, map_eq_singleton_iff] at h
  obtain ⟨d, rfl, h⟩ := h
  cases d <;> simp only [bare, bareAll_eq, bareOpt_eq, reduceCtorEq, declare.injEq, map_eq_singleton_iff,
    Option.map_eq_some_iff] at h
  obtain ⟨⟨y, rfl, hy⟩, ⟨_, rfl, e', rfl, he⟩, rfl, -⟩ := h
  cases y <;> simp only [bare, reduceCtorEq, name.injEq] at hy
  obtain ⟨rfl, -⟩ := hy
  exact ⟨_, _, e', rfl, he⟩

theorem Grammar.parse_declare {w : List Lexeme} {ts : List Token} (hw : Written choice e w)
    (hne : ∀ l ∈ w, l.kind ≠ .eof) (h : tokenize src = (ts, none)) (hts : ts.map Token.lexeme =
      of .kwVar :: ⟨.identifier, some x⟩ :: of .assign :: w ++ [Lexeme.eof]) :
    ∃ p q e', parse src = .ok (.program [.declare [.name x p] (some [e']) false q]) ∧
      e'.bare = e.bare := by
  have hdecl : Reads .stat ((of .kwVar :: ⟨.identifier, some x⟩ :: of .assign :: w).map token ++ [Lexeme.eof.token])
      [.declare [.name x .start] (some [e.bare]) false .start] [Lexeme.eof.token] :=
    .declare (t := (of .kwVar).token) (by decide) (.one (.name rfl))
      (.present (.after rfl (.one (hw.reads _))))
  obtain ⟨tree, htree, hbare⟩ := (exists_parse_iff_reads h hts (by simpa [of] using hne)).2
    (by rw [map_append]; exact .line .done hdecl)
  obtain ⟨p, q, e', rfl, he'⟩ := exists_of_bare_declare hbare
  exact ⟨p, q, e', htree, he'⟩

theorem tokenize_declare (hcs : Spaced a.lexemes cs) :
    ∃ ts, tokenize ("var r = " ++ .ofList cs) = (ts, none) ∧ ts.map Token.lexeme =
      of .kwVar :: ⟨.identifier, some "r"⟩ :: of .assign :: a.lexemes ++ [.eof] := by
  have hvar : (of .kwVar).Stands :=
    stands_of_word 'v' ['a', 'r'] (by decide) (by decide) (by decide) (by decide)
  have hr : Stands ⟨.identifier, some "r"⟩ :=
    stands_of_word 'r' [] (by decide) (by decide) (by decide) (by decide)
  have hassign : (of .assign).Stands := stands_of_mark mem_cons_self
  have hblank : ∀ c ∈ [' '], Text.isBlank c = true := forall_mem_singleton.2 (by decide)
  have hends (k : TokenKind) (ds : List Char) : ∀ c ∈ (' ' :: ds).head?, Scan.EndsBefore k c := by
    rintro c ⟨⟩
    exact Scan.endsBefore_of_isBlank (by decide) k
  have hphrase := a.phrase_lexemes
  have hexpr : ReadAs a.lexemes (' ' :: cs) := (hcs.blank (by decide)).readAs
    (fun l hl => (hphrase.tokens l hl).stands) hphrase.chain
  have hassigned := hexpr.cons hassign hblank (hends _ _)
  have hnamed := hassigned.cons hr hblank (hends _ _)
  have hread := hnamed.cons (g := []) hvar (by simp) (hends _ _)
  refine ReadAs.tokenize ?_ ?_
  · simp only [String.toList_append, String.toList_ofList]
    exact hread
  · intro hnil
    have := congrArg String.toList hnil
    simp at this

end TinyScript
