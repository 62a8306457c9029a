import TinyScript.Proofs.Arithmetic
import TinyScript.Proofs.Formed

/-!
# The tokens of a written expression

`Node.wording e` is the tokens of the text that `e` is written as. Nothing stands between a prefix
operator and its operand, so that `not` and a word after it are one word. All other tokens stay
apart, whatever comes after them as long as it begins with one of a few characters (`enders`):
`Layout.Lays` says that of a layout, and `Layout.Firm` that anything at all may come after it.

The texts of any tokens but strings, with a blank between each two, are read as these tokens
(`tokenize_spread`).
-/

namespace TinyScript

open Lexeme List TokenKind Scan Text

variable {l : Lexeme} {span cs rest : List Char} {ls w : List Lexeme} {k : TokenKind} {c d : Char}

/-! ### Texts of tokens -/

/-- The token ends before the character. A point does not go on with a word. -/
def Lexeme.Ends (l : Lexeme) (d : Char) : Prop :=
  Scan.EndsBefore l.kind d ∨ l.kind = .identifier ∧ d = '.'

/-- The text `cs` before `rest` is read as the tokens `ls`. -/
inductive Spelt : List Lexeme → List Char → List Char → Prop
  | nil {g rest : List Char} (hg : ∀ c ∈ g, Text.isBlank c = true) : Spelt [] g rest
  | token {l : Lexeme} {ls : List Lexeme} {g span cs rest : List Char}
      (hg : ∀ c ∈ g, Text.isBlank c = true) (hs : Scan.Spells span l [])
      (h₀ : Scan.gapLength span = 0) (hn : ∀ d ∈ (cs ++ rest).head?, l.Ends d)
      (h : Spelt ls cs rest) : Spelt (l :: ls) (g ++ (span ++ cs)) rest

theorem Scan.Spells.before_end (hs : Scan.Spells span l []) (h₀ : gapLength span = 0)
    (hn : ∀ d ∈ cs.head?, l.Ends d) : Scan.Spells span l cs ∧ gapLength (span ++ cs) = 0 := by
  cases cs with
  | nil => exact hs.before h₀ (by simp)
  | cons d cs =>
    rcases hn d rfl with hd | ⟨hk, rfl⟩
    · exact hs.before h₀ (by simpa using hd)
    · cases hs with
      | word hd hc hcs hr =>
        refine ⟨.word hd hc hcs (by simp; decide), ?_⟩
        rw [cons_append, gapLength_eq_zero_iff]
        refine ⟨(gapLength_eq_zero_iff.1 h₀).1, fun hs => ?_⟩
        rw [hs.1] at hc
        exact absurd hc (by decide)
      | @operator k _ h =>
        have hmem := mem_of_find?_eq_some h
        rw [show k = .identifier from hk] at hmem
        exact absurd hmem (by decide)
      | _ => cases hk

namespace Spelt

variable {l : Lexeme} {ls ms : List Lexeme} {cs ds rest : List Char}

theorem blanks {g : List Char} (hg : ∀ c ∈ g, isBlank c = true) (h : Spelt ls cs rest) :
    Spelt ls (g ++ cs) rest := by
  cases h with
  | nil hg' => exact .nil (forall_mem_append.2 ⟨hg, hg'⟩)
  | token hg' hs h₀ hn h =>
    rw [← List.append_assoc]
    exact .token (forall_mem_append.2 ⟨hg, hg'⟩) hs h₀ hn h

theorem append (h : Spelt ls cs (ds ++ rest)) (h' : Spelt ms ds rest) :
    Spelt (ls ++ ms) (cs ++ ds) rest := by
  generalize hr : ds ++ rest = r at h
  induction h with
  | nil hg => exact h'.blanks hg
  | token hg hs h₀ hn _ ih =>
    rw [List.append_assoc, List.append_assoc]
    refine .token hg hs h₀ ?_ (ih hr)
    rw [List.append_assoc, hr]
    exact hn

theorem readAs (h : Spelt ls cs []) : ReadAs ls cs := by
  generalize hr : [] = r at h
  induction h with
  | nil hg => exact readAs_nil hg
  | token hg hs h₀ hn _ ih =>
    subst hr
    rw [append_nil] at hn
    obtain ⟨hs, h₀⟩ := hs.before_end h₀ hn
    exact (ih rfl).token hs h₀ hg

theorem ne_nil (h : Spelt ls cs rest) (hne : ls ≠ []) : cs ≠ [] := by
  cases h with
  | nil => exact absurd rfl hne
  | token _ hs =>
    have := hs.ne_nil
    simp_all

theorem kind_ne_eof (h : Spelt ls cs rest) : ∀ l ∈ ls, l.kind ≠ .eof := by
  induction h with
  | nil => simp
  | token _ hs _ _ _ ih => exact forall_mem_cons.2 ⟨hs.kind_ne_eof, ih⟩

theorem cons (hs : Scan.Spells span l []) (h₀ : gapLength span = 0)
    (hn : ∀ d ∈ (cs ++ rest).head?, Scan.EndsBefore l.kind d) (h : Spelt ls cs rest) :
    Spelt (l :: ls) (span ++ cs) rest :=
  token (g := []) (by simp) hs h₀ (fun d hd => .inl (hn d hd)) h

theorem single (hs : Scan.Spells span l []) (h₀ : gapLength span = 0)
    (hn : ∀ d ∈ rest.head?, Scan.EndsBefore l.kind d) : Spelt [l] span rest := by
  have h : Spelt [] [] rest := .nil (by simp)
  simpa using cons hs h₀ (by simpa using hn) h

end Spelt

/-! ### Tokens of a scanned text -/

theorem Scan.gapLength_of_append (hne : span ≠ []) (h : gapLength (span ++ rest) = 0) :
    gapLength span = 0 := by
  obtain ⟨c, cs, rfl⟩ := exists_cons_of_ne_nil hne
  rw [cons_append, gapLength_eq_zero_iff] at h
  rw [gapLength_eq_zero_iff]
  refine ⟨h.1, fun hc => h.2 ⟨hc.1, ?_⟩⟩
  cases cs with
  | nil => simp at hc
  | cons d cs => exact hc.2

/-- All tokens but strings are spelled by their text, whatever comes after it. -/
theorem Scan.Spells.alone (h : Scan.Spells span l rest) (hl : l.kind ≠ .stringLiteral) :
    l.chars = span ∧ Scan.Spells span l [] := by
  cases h with
  | int hne hd hr => exact ⟨String.toList_ofList, .int hne hd (by simp)⟩
  | float hne hd he hr => exact ⟨String.toList_ofList, .float hne hd he (by simp)⟩
  | string => exact absurd rfl hl
  | word hd hc hcs hr => exact ⟨String.toList_ofList, .word hd hc hcs (by simp)⟩
  | operator h =>
    refine ⟨rfl, .operator ?_⟩
    obtain ⟨hk, as, bs, hops, has⟩ := find?_eq_some_iff_append.1 h
    refine find?_eq_some_iff_append.2 ⟨by simp, as, bs, hops, fun k' hk' => ?_⟩
    have hno := has k' hk'
    simp only [append_nil, Bool.not_eq_true', isPrefixOf_iff_prefix,
      ← Bool.not_eq_true] at hno ⊢
    exact fun hp => hno (hp.trans (prefix_append _ _))

theorem Lexeme.Scanned.stands (h : l.Scanned) (he : l.kind ≠ .eof) (hl : l.kind ≠ .stringLiteral) :
    l.Stands := by
  obtain ⟨span, rest, hs, h₀⟩ := h.resolve_left he
  obtain ⟨rfl, hs'⟩ := hs.alone hl
  exact ⟨hs', Scan.gapLength_of_append hs.ne_nil h₀⟩

/-- The texts of the tokens, with a blank between each two. -/
def Lexeme.spread (ls : List Lexeme) : String := " ".intercalate (ls.map fun l => l.text.getD "")

theorem Lexeme.toList_spread (ls : List Lexeme) : (spread ls).toList = [' '].intercalate (ls.map chars) := by
  rw [spread, String.toList_intercalate, map_map]
  rfl

/-- By induction on the tokens: the blank after one token is a part of the gap before the next. -/
theorem readAs_intercalate (hst : ∀ l ∈ ls, l.Stands) {g : List Char}
    (hg : ∀ c ∈ g, isBlank c = true) : ReadAs ls (g ++ [' '].intercalate (ls.map chars)) := by
  have blank : isBlank ' ' = true := by decide
  induction ls generalizing g with
  | nil => exact readAs_nil (by simpa using hg)
  | cons l ls ih =>
    rw [forall_mem_cons] at hst
    cases ls with
    | nil => simpa using (readAs_nil (g := []) (by simp)).cons hst.1 hg (by simp)
    | cons l' ls =>
      have hrest := ih hst.2 (g := [' ']) (by simpa using blank)
      rw [map_cons, map_cons, intercalate_cons_cons, List.append_assoc]
      exact hrest.cons hst.1 hg (by simpa using endsBefore_of_isBlank blank _)

/-- Tokens other than strings, from any texts and in any order, are read back from their texts with blanks
between them. -/
theorem tokenize_spread {ls : List Lexeme} (hne : ls ≠ [])
    (h : ∀ l ∈ ls, (∃ src, ∃ t ∈ (tokenize src).1, t.lexeme = l) ∧ l.kind ≠ .stringLiteral ∧ l.kind ≠ .eof) :
    ∃ ts, tokenize (spread ls) = (ts, none) ∧ ts.map Token.lexeme = ls ++ [.eof] := by
  have hst : ∀ l ∈ ls, l.Stands := by
    intro l hl
    obtain ⟨⟨src, t, ht, rfl⟩, hstring, heof⟩ := h l hl
    exact (scanned_of_tokenize src t ht).stands heof hstring
  have hread : ReadAs ls (spread ls).toList := by
    rw [toList_spread]
    exact readAs_intercalate hst (g := []) (by simp)
  refine hread.tokenize ?_
  rintro hempty
  obtain ⟨l, ls, rfl⟩ := List.exists_cons_of_ne_nil hne
  obtain ⟨c, cs, hc⟩ := List.exists_cons_of_ne_nil (hst l List.mem_cons_self).spells.ne_nil
  have htext := toList_spread (l :: ls)
  rw [hempty, List.map_cons, hc, List.intercalate_cons_cons_left] at htext
  cases htext

/-- Tokens that run together where no blank is between them. -/
def scattered : List Lexeme :=
  [⟨.intLiteral, some "1"⟩, ⟨.dot, some "."⟩, ⟨.intLiteral, some "5"⟩, ⟨.div, some "/"⟩, ⟨.mul, some "*"⟩,
    ⟨.identifier, some "n"⟩, ⟨.identifier, some "n"⟩]

theorem tokenize_spread_scattered : scattered ≠ [] ∧
    (∀ l ∈ scattered, (∃ src, ∃ t ∈ (tokenize src).1, t.lexeme = l) ∧
      l.kind ≠ .stringLiteral ∧ l.kind ≠ .eof) ∧
    ∃ ts, tokenize (spread scattered) = (ts, none) ∧ ts.map Token.lexeme = scattered ++ [.eof] := by
  have hne : scattered ≠ [] := by decide
  have hmem : ∀ l ∈ scattered, l ∈ (tokenize "n*(1/.5)").1.map Token.lexeme := by decide +kernel
  have hkinds : ∀ l ∈ scattered, l.kind ≠ .stringLiteral ∧ l.kind ≠ .eof := by decide
  have h : ∀ l ∈ scattered, (∃ src, ∃ t ∈ (tokenize src).1, t.lexeme = l) ∧
      l.kind ≠ .stringLiteral ∧ l.kind ≠ .eof :=
    fun l hl => ⟨⟨_, List.mem_map.1 (hmem l hl)⟩, hkinds l hl⟩
  exact ⟨hne, h, tokenize_spread hne h⟩
theorem TokenKind.spelling_of_ofWord {w : String} (h : TokenKind.ofWord w ≠ .identifier) :
    (TokenKind.ofWord w).spelling = w := by
  unfold ofWord at h ⊢
  cases hf : keywords.find? (·.spelling == w) with
  | none => simp [hf] at h
  | some k => simpa using List.find?_some hf

theorem Lexeme.Scanned.eq_of (h : l.Scanned)
    (hk : l.kind ∉ [.eof, .identifier, .intLiteral, .floatLiteral, .stringLiteral]) : l = of l.kind := by
  simp only [mem_cons, not_mem_nil, or_false, not_or] at hk
  obtain ⟨span, rest, hs, -⟩ := h.resolve_left hk.1
  cases hs with
  | int => exact absurd rfl hk.2.2.1
  | float => exact absurd rfl hk.2.2.2.1
  | string => exact absurd rfl hk.2.2.2.2
  | @word c cs =>
    simp only [of, Lexeme.mk.injEq, Option.some.injEq, true_and]
    exact (TokenKind.spelling_of_ofWord hk.2.1).symm
  | operator => rfl

theorem TextOf.scanned {x : String} (h : TextOf Scanned k x) (hk : k ≠ .eof) : Scanned ⟨k, some x⟩ := by
  obtain ⟨l, hl, rfl, rfl⟩ := h
  have htext : ∃ x, l.text = some x := by
    obtain ⟨span, rest, hs, -⟩ := hl.resolve_left hk
    cases hs <;> exact ⟨_, rfl⟩
  obtain ⟨x, hx⟩ := htext
  rwa [hx, Option.getD_some, ← hx]

theorem TextOf.stands_of {x : String} (h : TextOf Scanned k x)
    (hk : k ∉ [.eof, .identifier, .intLiteral, .floatLiteral, .stringLiteral]) :
    (of k).Stands ∧ x = k.spelling := by
  have hne : k ≠ .eof ∧ k ≠ .stringLiteral := by
    simp only [mem_cons, not_mem_nil, or_false, not_or] at hk
    exact ⟨hk.1, hk.2.2.2.2⟩
  have hs := h.scanned hne.1
  have heq := hs.eq_of hk
  exact ⟨heq ▸ hs.stands hne.1 hne.2, Option.some.inj (congrArg Lexeme.text heq)⟩

/-! ### Strings -/

/-- If the token is a string, its text may stand between quotes as it is. -/
def Lexeme.Plain (l : Lexeme) : Prop :=
  l.kind = .stringLiteral → ∀ c ∈ l.chars, c ∉ ['\'', '\\', '\n', '\r']

theorem Scan.quoted_of_plain (h : ∀ c ∈ cs, c ∉ ['\'', '\\', '\n', '\r']) :
    Scan.Quoted '\'' (cs ++ ['\'']) cs := by
  induction cs with
  | nil => exact .close
  | cons c cs ih =>
    rw [forall_mem_cons] at h
    have hc := h.1
    simp only [mem_cons, not_mem_nil, or_false, not_or] at hc
    exact .plain hc.1 (fun hn => absurd hn hc.2.2.1) hc.2.2.2 hc.2.1 (ih h.2)

theorem Lexeme.Plain.spells {x : String} (h : Lexeme.Plain ⟨.stringLiteral, some x⟩) :
    Scan.Spells ('\'' :: (x.toList ++ ['\''])) ⟨.stringLiteral, some x⟩ [] := by
  have hs : Scan.Spells _ _ [] := .string (q := '\'') (by decide) (Scan.quoted_of_plain (h rfl))
  rwa [show Lexeme.chars ⟨.stringLiteral, some x⟩ = x.toList from rfl, String.ofList_toList] at hs

/-! ### Words after `not` -/

namespace Lexeme

/-- The digits of a number after its point, if there are any. -/
def fraction (l : Lexeme) : List Lexeme :=
  match (l.chars.dropWhile Text.isDigit).tail with
  | [] => []
  | c :: cs => [⟨.intLiteral, some (.ofList (c :: cs))⟩]

/-- The tokens of a text with `not` right before it. -/
def glue : List Lexeme → List Lexeme
  | [] => [of .kwNot]
  | l :: w =>
    if l.kind ∈ .stringLiteral :: TokenKind.operators then of .kwNot :: l :: w
    else if l.kind = .floatLiteral then
      ⟨.identifier, some ("not" ++ .ofList (l.chars.takeWhile Text.isDigit))⟩ ::
        of .dot :: (l.fraction ++ w)
    else ⟨.identifier, some ("not" ++ l.text.getD "")⟩ :: w

theorem mem_commas {ws : List (List Lexeme)} (hw : w ∈ ws) (hl : l ∈ w) : l ∈ commas ws := by
  cases ws with
  | nil => exact absurd hw not_mem_nil
  | cons v ws =>
    rw [commas, mem_append]
    rcases mem_cons.1 hw with rfl | hw
    · exact .inl hl
    · exact .inr (mem_flatMap.2 ⟨w, hw, mem_cons_of_mem _ hl⟩)

theorem stands_not_append (hne : cs ≠ []) (hcs : ∀ c ∈ cs, isWordChar c = true) :
    Scan.Spells ('n' :: 'o' :: 't' :: cs) ⟨.identifier, some ("not" ++ .ofList cs)⟩ [] ∧
      gapLength ('n' :: 'o' :: 't' :: cs) = 0 := by
  have hword : String.ofList ('n' :: 'o' :: 't' :: cs) = "not" ++ String.ofList cs := by
    rw [← String.toList_inj]
    simp
  have hkind : ofWord ("not" ++ String.ofList cs) = .identifier := by
    have hall : ∀ k ∈ keywords, k.spelling.toList.take 3 = "not".toList →
        k.spelling.toList = "not".toList := by decide
    refine Classical.byContradiction fun hk => ?_
    have hs := congrArg String.toList (TokenKind.spelling_of_ofWord hk)
    have hmem := (mem_cons.1 (ofWord_mem ("not" ++ String.ofList cs))).resolve_left hk
    have hnot := hall _ hmem (by rw [hs]; simp)
    rw [hs] at hnot
    simp at hnot
    exact hne hnot
  refine ⟨?_, gapLength_eq_zero_iff.2 (by simp; decide)⟩
  have hs : Scan.Spells ('n' :: 'o' :: 't' :: cs) _ [] := .word (by decide) (by decide)
    (forall_mem_cons.2 ⟨by decide, forall_mem_cons.2 ⟨by decide, hcs⟩⟩) (by simp)
  rwa [hword, hkind] at hs

theorem mem_glue (hl : l ∈ w) (hk : l.kind = .stringLiteral) : l ∈ glue w := by
  cases w with
  | nil => exact absurd hl not_mem_nil
  | cons m w =>
    rw [glue]
    split
    · exact mem_cons_of_mem _ hl
    · rename_i hm
      have hw : l ∈ w := by
        refine (mem_cons.1 hl).resolve_left ?_
        rintro rfl
        exact hm (hk ▸ mem_cons_self)
      split <;> simp [hw]

end Lexeme

theorem Scan.isWordChar_of_isDigit (h : isDigit c = true) : isWordChar c = true := by
  refine Classical.byContradiction fun hc => ?_
  rw [Bool.not_eq_true] at hc
  rw [isDigit_of_not_isWordChar hc] at h
  cases h

theorem Scan.isBlank_of_isWordChar (h : isWordChar c = true) : isBlank c = false := by
  refine Bool.eq_false_iff.2 fun hb => ?_
  have he := endsBefore_of_isBlank hb .identifier
  rw [EndsBefore, if_neg (by decide), h] at he
  cases he.1

theorem Scan.endsBefore_dot (h : d ≠ '.') : EndsBefore .dot d := by
  have hall : ∀ k ∈ operators, k.spelling.toList.head? = some '.' →
      k.spelling.toList.tail ⊆ ['.'] := by decide
  rw [EndsBefore, if_pos (by decide)]
  exact ⟨fun k hk hh hd => h (by simpa using hall k hk hh hd), fun hh => by cases hh⟩

theorem Scan.endsBefore_word {k' : TokenKind} (h : EndsBefore k d) (hk : k ∉ operators)
    (hk' : k' ∉ operators) : EndsBefore k' d := by
  rw [EndsBefore, if_neg hk] at h
  rwa [EndsBefore, if_neg hk']

/-- A number with a point falls into a word, the point and what stands after it. -/
theorem Spelt.glue_float {ds es : List Char} (hne : ds ≠ []) (hd : ∀ c ∈ ds, isDigit c = true)
    (he : ∀ c ∈ es, isDigit c = true) (hn : ∀ d ∈ (cs ++ rest).head?,
      Lexeme.Ends ⟨.floatLiteral, some (.ofList (ds ++ '.' :: es))⟩ d) (h : Spelt ls cs rest) :
    let l : Lexeme := ⟨.floatLiteral, some (.ofList (ds ++ '.' :: es))⟩
    Spelt (⟨.identifier, some ("not" ++ .ofList (l.chars.takeWhile isDigit))⟩ ::
      of .dot :: (l.fraction ++ ls)) ('n' :: 'o' :: 't' :: (ds ++ '.' :: es ++ cs)) rest := by
  intro l
  have hchars : l.chars = ds ++ '.' :: es := String.toList_ofList
  have htake : l.chars.takeWhile isDigit = ds := by
    rw [hchars]
    exact takeWhile_append_of_stops hd (by simp; decide)
  have hdrop : (l.chars.dropWhile isDigit).tail = es := by
    have := takeWhile_append_dropWhile (p := isDigit) (l := l.chars)
    rw [htake] at this
    rw [append_cancel_left (this.trans hchars), tail_cons]
  obtain ⟨hs, h₀⟩ := Lexeme.stands_not_append hne fun c hc => Scan.isWordChar_of_isDigit (hd c hc)
  have hends : ∀ d ∈ (cs ++ rest).head?, Scan.EndsBefore .floatLiteral d := fun d hd' =>
    (hn d hd').resolve_right fun hk => by cases hk.1
  have hdot : (of .dot).Stands :=
    ⟨.operator (k := .dot) (by decide), gapLength_eq_zero_iff.2 (by decide)⟩
  -- the digits after the point, if there are any
  have htail : Spelt (l.fraction ++ ls) (es ++ cs) rest := by
    unfold Lexeme.fraction
    rw [hdrop]
    cases es with
    | nil => exact h
    | cons e es =>
      refine cons (.int (cons_ne_nil _ _) he (by simp)) ?_ hends h
      have hw := Scan.isWordChar_of_isDigit (he e mem_cons_self)
      rw [gapLength_eq_zero_iff]
      refine ⟨Scan.isBlank_of_isWordChar hw, fun hc => ?_⟩
      rw [hc.1] at hw
      exact absurd hw (by decide)
  rw [htake]
  have hpoint : Spelt (of .dot :: (l.fraction ++ ls)) ('.' :: (es ++ cs)) rest := by
    refine cons hdot.spells hdot.gap (fun d hd => Scan.endsBefore_dot ?_) htail
    cases es with
    | nil => exact (hends d hd).2
    | cons e es =>
      cases hd
      have hdig := he d mem_cons_self
      rintro rfl
      exact absurd hdig (by decide)
  have := Spelt.token (g := []) (by simp) hs h₀ (by simp [Lexeme.Ends]) hpoint
  simpa using this

/-- `not` before a text that does not begin with a blank or a point. -/
theorem Spelt.glue (h : Spelt ls (c :: cs) rest) (hc : isBlank c = false) (hdot : c ≠ '.') :
    Spelt (Lexeme.glue ls) ('n' :: 'o' :: 't' :: c :: cs) rest := by
  have hb : ∀ d ∈ (c :: cs).head?, isBlank d = false ∧ d ≠ '.' := by simp [hc, hdot]
  generalize hcs : c :: cs = cs at h hb
  cases h with
  | nil hg =>
    rw [hg c (hcs ▸ mem_cons_self)] at hc
    cases hc
  | @token l ls g span cs rest hg hs h₀ hn h =>
    have hnil : g = [] := by
      cases g with
      | nil => rfl
      | cons c g =>
        have hc := hg c mem_cons_self
        rw [(hb c rfl).1] at hc
        cases hc
    subst hnil
    rw [nil_append] at hb ⊢
    have hid : identifier ∉ operators := by decide
    -- a word goes on with the letters of `not`
    have word (hcs : ∀ c ∈ span, isWordChar c = true) (hk : l.kind ∉ operators) :
        Spelt (⟨.identifier, some ("not" ++ .ofList span)⟩ :: ls) ('n' :: 'o' :: 't' :: (span ++ cs))
          rest := by
      obtain ⟨hs', h₀'⟩ := Lexeme.stands_not_append hs.ne_nil hcs
      refine token (g := []) (by simp) hs' h₀' (fun d hd => ?_) h
      exact (hn d hd).imp (fun he => Scan.endsBefore_word he hk hid) fun he => ⟨rfl, he.2⟩
    -- anything else stays a token of its own
    have apart (hc : ∀ c ∈ span.head?, Scan.EndsBefore .kwNot c) :
        Spelt (of .kwNot :: l :: ls) ('n' :: 'o' :: 't' :: (span ++ cs)) rest := by
      have hnot : (of .kwNot).Stands := stands_of_word 'n' ['o', 't'] (by decide) (by decide) (by decide)
        (by decide)
      refine cons hnot.spells hnot.gap (fun d hd => hc d ?_) (token (g := []) (by simp) hs h₀ hn h)
      obtain ⟨c, cs', hspan⟩ := exists_cons_of_ne_nil hs.ne_nil
      rw [hspan] at hd ⊢
      exact hd
    have hnum : ∀ k ∈ [.intLiteral, .floatLiteral], k ∉ .stringLiteral :: operators := by
      decide
    cases hs with
    | int _ hd hr =>
      have hk := hnum .intLiteral (by decide)
      rw [Lexeme.glue, if_neg hk, if_neg (show intLiteral ≠ .floatLiteral by decide)]
      exact word (fun c hc => Scan.isWordChar_of_isDigit (hd c hc)) fun hm =>
        hk (mem_cons_of_mem _ hm)
    | float hds hd he hr =>
      rw [Lexeme.glue, if_neg (hnum .floatLiteral (by decide)), if_pos rfl]
      exact glue_float hds hd he hn h
    | string hq hs =>
      rw [Lexeme.glue, if_pos mem_cons_self]
      refine apart fun c hc => ?_
      cases hc
      have hall : (['"', '\'', '\x60'].all fun q => Scan.EndsBefore .kwNot q) = true := by decide
      exact of_decide_eq_true (List.all_eq_true.1 hall _ (by simpa [Scan.isQuote, or_assoc] using hq))
    | @word c cs' _ hd hc hw hr =>
      have hk : ∀ k ∈ .identifier :: TokenKind.keywords,
          k ∉ .stringLiteral :: TokenKind.operators ∧ k ≠ .floatLiteral := by decide
      have hk := hk _ (Scan.ofWord_mem (.ofList (c :: cs')))
      rw [Lexeme.glue, if_neg hk.1, if_neg hk.2]
      refine word ?_ fun hm => hk.1 (List.mem_cons_of_mem _ hm)
      exact List.forall_mem_cons.2 ⟨Scan.isWordChar_of_isWordStart hc, hw⟩
    | @operator k _ hf =>
      have hk := List.mem_of_find?_eq_some hf
      rw [Lexeme.glue, if_pos (List.mem_cons_of_mem _ hk)]
      refine apart fun c hc => ?_
      have hall : ∀ k ∈ TokenKind.operators, (k.spelling.toList.head?.all fun c =>
          c = '.' ∨ Scan.EndsBefore .kwNot c) = true := by decide
      refine (of_decide_eq_true ((Option.all_eq_true ..).1 (hall k hk) c hc)).resolve_left (hb c ?_).2
      obtain ⟨d, ds, hspell, -⟩ := Scan.exists_spelling hk
      rw [hspell] at hc ⊢
      exact hc

/-! ### Layouts and their tokens -/

namespace Layout

variable {a b : Layout} {u v : List Lexeme}
variable {s : String} {α : Type} {f : α → Layout} {g : α → List Lexeme} {xs : List α}

@[simp] theorem failure_nil : nil.failure = none := rfl

@[simp] theorem failure_piece (s : String) : (piece s).failure = none := rfl

@[simp] theorem failure_append : (a ++ b).failure = none ↔ a.failure = none ∧ b.failure = none := by
  obtain ⟨ps, _ | f⟩ := a
  · exact ⟨fun h => ⟨rfl, h⟩, fun h => h.2⟩
  · exact ⟨fun h => absurd h (Option.some_ne_none f), fun h => absurd h.1 (Option.some_ne_none f)⟩

@[simp] theorem text_nil : nil.text = "" := rfl

@[simp] theorem text_piece (s : String) : (piece s).text = s := by simp [piece, text]

theorem text_append (h : a.failure = none) : (a ++ b).text = a.text ++ b.text := by
  obtain ⟨ps, f⟩ := a
  subst h
  exact String.join_append

/-- Characters that every token ends before. -/
def enders : List Char := [' ', '\n', ',', '(', ')', ':', ';']

theorem endsBefore_of_mem_enders (hd : d ∈ enders) (k : TokenKind) : Scan.EndsBefore k d := by
  have hall : ∀ k ∈ TokenKind.all, (enders.all fun d => Scan.EndsBefore k d) = true := by decide +kernel
  exact of_decide_eq_true (List.all_eq_true.1 (hall k (TokenKind.mem_all k)) d hd)

/-- The layout is whole, and reads as `u` before whatever comes after it. -/
structure Firm (a : Layout) (u : List Lexeme) : Prop where
  whole : a.failure = none
  spelt (rest : List Char) : Spelt u a.text.toList rest

/-- The layout is whole, and reads as `u` at the end of the text and before what begins with a
character that ends every token. -/
structure Lays (a : Layout) (u : List Lexeme) : Prop where
  whole : a.failure = none
  spelt (rest : List Char) (hr : ∀ d ∈ rest.head?, d ∈ enders) : Spelt u a.text.toList rest

/-- The layout is empty or begins with a character that ends every token. -/
def Trails (b : Layout) : Prop := ∀ d ∈ b.text.toList.head?, d ∈ enders

theorem Lays.tokenize (h : Lays a u) (hu : u ≠ []) :
    ∃ ts, tokenize a.text = (ts, none) ∧ ts.map Token.lexeme = u ++ [Lexeme.eof] := by
  have hs := h.spelt [] (by simp)
  have hne : a.text ≠ "" := by
    intro he
    rw [he] at hs
    exact hs.ne_nil hu rfl
  exact hs.readAs.tokenize hne

theorem Lays.feed_lexemes (h : Lays a u) (hu : u ≠ []) :
    ∃ s, Feed.ofSource a.text = .ok s ∧ s.lexemes = u ++ [.eof] := by
  obtain ⟨ts, htok, hts⟩ := h.tokenize hu
  obtain ⟨s, hsrc, hlex, -, -⟩ := exists_feed_of_tokenize htok hts (h.spelt [] (by simp)).kind_ne_eof
  exact ⟨s, hsrc, hlex⟩

/-- The text is a program as the tokens it reads as are read. -/
theorem Lays.exists_parse_iff_reads {ss : List Node} (h : Lays a u) (hu : u ≠ []) :
    (∃ tree, parse a.text = .ok tree ∧ tree.bare = .program ss) ↔
      Reads .stats ((u ++ [Lexeme.eof]).map token) ss [Lexeme.eof.token] := by
  obtain ⟨ts, htok, hts⟩ := h.tokenize hu
  exact TinyScript.exists_parse_iff_reads htok hts (h.spelt [] (by simp)).kind_ne_eof

theorem Firm.lays (h : Firm a u) : Lays a u := ⟨h.whole, fun rest _ => h.spelt rest⟩

theorem Firm.append (ha : Firm a u) (hb : Firm b v) : Firm (a ++ b) (u ++ v) where
  whole := failure_append.2 ⟨ha.whole, hb.whole⟩
  spelt rest := by
    rw [text_append ha.whole, String.toList_append]
    exact (ha.spelt _).append (hb.spelt rest)

theorem Firm.then (ha : Firm a u) (hb : Lays b v) : Lays (a ++ b) (u ++ v) where
  whole := failure_append.2 ⟨ha.whole, hb.whole⟩
  spelt rest hr := by
    rw [text_append ha.whole, String.toList_append]
    exact (ha.spelt _).append (hb.spelt rest hr)

theorem Lays.append (ha : Lays a u) (hb : Lays b v) (ht : b.Trails) : Lays (a ++ b) (u ++ v) where
  whole := failure_append.2 ⟨ha.whole, hb.whole⟩
  spelt rest hr := by
    rw [text_append ha.whole, String.toList_append]
    refine (ha.spelt _ fun d hd => ?_).append (hb.spelt rest hr)
    cases htext : b.text.toList with
    | nil => exact hr d (by simpa [htext] using hd)
    | cons c cs => exact ht d (by simpa [htext] using hd)

/-- A firm layout that begins with a character that ends every token. -/
structure Parts (a : Layout) (u : List Lexeme) : Prop extends Firm a u where
  begins : ∃ c cs, a.text.toList = c :: cs ∧ c ∈ enders

theorem Parts.trails (h : Parts a u) : a.Trails := by
  obtain ⟨c, cs, htext, hc⟩ := h.begins
  simpa [Trails, htext] using hc

theorem Lays.firm (ha : Lays a u) (hb : Parts b v) : Firm (a ++ b) (u ++ v) where
  whole := failure_append.2 ⟨ha.whole, hb.whole⟩
  spelt rest := by
    rw [text_append ha.whole, String.toList_append]
    obtain ⟨c, cs, htext, hc⟩ := hb.begins
    refine (ha.spelt _ ?_).append (hb.spelt rest)
    simpa [htext] using hc

theorem Trails.append (ha : a.Trails) (hb : a.text = "" → b.Trails) : (a ++ b).Trails := by
  intro d hd
  obtain ⟨ps, _ | f⟩ := a
  · rw [text_append rfl, String.toList_append] at hd
    cases htext : (Layout.mk ps none).text.toList with
    | nil =>
      rw [htext] at hd
      exact hb (String.toList_inj.1 (htext.trans rfl)) d hd
    | cons c cs => exact ha d (by simpa [htext] using hd)
  · exact ha d hd

theorem firm_nil : Firm nil [] := ⟨rfl, fun _ => .nil (by simp)⟩

theorem firm_blanks (h : ∀ c ∈ s.toList, Text.isBlank c = true) : Firm (piece s) [] :=
  ⟨rfl, fun rest => by simpa using .nil h⟩

theorem firm_word (hk : (of k).Stands) (hs : s = k.spelling ++ " ") : Firm (piece s) [of k] where
  whole := rfl
  spelt rest := by
    rw [text_piece, hs, String.toList_append]
    refine .cons hk.spells hk.gap (fun d hd => ?_) (.nil (by simp; decide))
    cases hd
    exact endsBefore_of_mem_enders (by decide) _

theorem parts_spaced (hk : (of k).Stands) (hs : s = " " ++ (k.spelling ++ " ")) :
    Parts (piece s) [of k] where
  whole := rfl
  spelt rest := by
    rw [text_piece, hs, String.toList_append]
    refine Spelt.blanks (by simp; decide) ?_
    have h := (firm_word hk rfl).spelt rest
    rwa [text_piece] at h
  begins := by
    rw [text_piece, hs, String.toList_append]
    exact ⟨' ', _, rfl, by decide⟩

/-- Marks that no other mark begins with. -/
def separators : List TokenKind := [.lparen, .rparen, .lbrace, .rbrace, .comma, .colon, .semi, .query]

theorem stands_of_mem (hk : k ∈ .assign :: separators ++ TokenKind.keywords) : (of k).Stands := by
  have hops : ∀ k ∈ .assign :: separators, Scan.gapLength k.spelling.toList = 0 ∧
      TokenKind.operators.find?
        (fun k' => k'.spelling.toList.isPrefixOf (k.spelling.toList ++ [])) = some k := by
    decide +kernel
  rcases List.mem_append.1 hk with hk | hk
  · obtain ⟨h₀, hfind⟩ := hops k hk
    exact ⟨.operator (k := k) hfind, h₀⟩
  · have hwords : ∀ k ∈ TokenKind.keywords, k.spelling.toList ≠ [] ∧
        (k.spelling.toList.head?.all fun c => !Text.isDigit c && Text.isWordStart c && !Text.isBlank c) =
          true ∧ k.spelling.toList.tail.all Text.isWordChar = true ∧
        TokenKind.ofWord k.spelling = k := by decide +kernel
    obtain ⟨hne, hhead, htail, hword⟩ := hwords k hk
    obtain ⟨c, cs, hs⟩ := List.exists_cons_of_ne_nil hne
    rw [hs] at hhead htail
    simp only [List.head?_cons, Option.all_some, Bool.and_eq_true, Bool.not_eq_true'] at hhead
    obtain ⟨⟨hd, hc⟩, hb⟩ := hhead
    have h := stands_of_word c cs hd hc htail hb
    rwa [← hs, String.ofList_toList, hword] at h

theorem firm_mark (hk : k ∈ separators) : Firm (piece k.spelling) [of k] := by
  have hall : ∀ k ∈ separators, k ∈ TokenKind.operators ∧ k.spelling.toList.head? ≠ some '/' ∧
      ∀ k' ∈ TokenKind.operators, k'.spelling.toList.head? = k.spelling.toList.head? →
        k'.spelling.toList.tail = [] := by decide +kernel
  obtain ⟨hmem, hslash, htail⟩ := hall k hk
  have hs := stands_of_mem (List.mem_append_left _ (List.mem_cons_of_mem _ hk))
  refine ⟨rfl, fun rest => ?_⟩
  rw [text_piece]
  refine .single hs.spells hs.gap fun d _ => ?_
  show Scan.EndsBefore k d
  rw [Scan.EndsBefore, if_pos hmem]
  exact ⟨fun k' hk' hh => by simp [htail k' hk' hh], fun hh => absurd hh hslash⟩

theorem parts_mark (hk : k ∈ [.lparen, .rparen, .comma, .colon, .semi]) :
    Parts (piece k.spelling) [of k] := by
  have hall : ∀ k ∈ [.lparen, .rparen, .comma, .colon, .semi], k ∈ separators ∧
      k.spelling.toList ≠ [] ∧ k.spelling.toList.head?.all (· ∈ enders) = true := by decide
  obtain ⟨hmem, hne, hc⟩ := hall k hk
  obtain ⟨c, cs, hs⟩ := List.exists_cons_of_ne_nil hne
  rw [hs] at hc
  exact ⟨firm_mark hmem, c, cs, by rw [text_piece, hs], of_decide_eq_true hc⟩

/-! ### Expressions -/

/-- A layout that may be the operand of a prefix operator. -/
structure Says (a : Layout) (u : List Lexeme) : Prop extends Lays a u where
  first : ∃ c cs, a.text.toList = c :: cs ∧ Text.isBlank c = false ∧ c ∉ ['=', '.']

theorem Says.append (ha : Says a u) (hb : Lays b v) (ht : b.Trails) : Says (a ++ b) (u ++ v) where
  toLays := ha.toLays.append hb ht
  first := by
    obtain ⟨c, cs, htext, hc⟩ := ha.first
    rw [text_append ha.whole, String.toList_append, htext]
    exact ⟨c, _, rfl, hc⟩

/-- Something that anything may come after, between two layouts. -/
theorem Says.between {m : Layout} (ha : Says a u) (hm : Parts m v) (hb : Lays b w) :
    Says (a ++ m ++ b) (u ++ (v ++ w)) where
  toLays := by
    have h := (ha.toLays.firm hm).then hb
    rwa [List.append_assoc] at h
  first := by
    obtain ⟨c, cs, htext, hc⟩ := ha.first
    rw [text_append (failure_append.2 ⟨ha.whole, hm.whole⟩), text_append ha.whole,
      String.toList_append, String.toList_append, htext]
    exact ⟨c, _, rfl, hc⟩

theorem says_of_stands {x : String} (hl : Stands ⟨k, some x⟩)
    (hk : k ∉ .stringLiteral :: TokenKind.operators) : Says (piece x) [⟨k, some x⟩] where
  whole := rfl
  spelt rest hr := by
    rw [text_piece]
    exact .single hl.spells hl.gap fun d hd => endsBefore_of_mem_enders (hr d hd) _
  first := by
    have hword : ∃ c cs, x.toList = c :: cs ∧ Text.isWordChar c = true := by
      have hs : Scan.Spells x.toList ⟨k, some x⟩ [] := hl.spells
      generalize x.toList = span at hs
      cases hs with
      | int hne hd =>
        obtain ⟨c, cs, rfl⟩ := List.exists_cons_of_ne_nil hne
        exact ⟨c, cs, rfl, Scan.isWordChar_of_isDigit (hd c List.mem_cons_self)⟩
      | float hne hd =>
        obtain ⟨c, cs, rfl⟩ := List.exists_cons_of_ne_nil hne
        exact ⟨c, _, rfl, Scan.isWordChar_of_isDigit (hd c List.mem_cons_self)⟩
      | string => exact absurd List.mem_cons_self hk
      | word _ hc => exact ⟨_, _, rfl, Scan.isWordChar_of_isWordStart hc⟩
      | operator h => exact absurd (List.mem_cons_of_mem _ (List.mem_of_find?_eq_some h)) hk
    obtain ⟨c, cs, hcs, hc⟩ := hword
    rw [text_piece]
    refine ⟨c, cs, hcs, Scan.isBlank_of_isWordChar hc, fun hm => ?_⟩
    have hall : (['=', '.'].all fun c => !Text.isWordChar c) = true := by decide
    have hno := List.all_eq_true.1 hall c hm
    rw [hc] at hno
    cases hno

theorem says_string {x : String} (h : Lexeme.Plain ⟨.stringLiteral, some x⟩) :
    Says (piece s!"'{x}'") [⟨.stringLiteral, some x⟩] := by
  have htext : s!"'{x}'".toList = '\'' :: (x.toList ++ ['\'']) := by
    simp only [String.toList_append, List.append_assoc]
    rfl
  refine ⟨⟨rfl, fun rest hr => ?_⟩, ?_⟩
  · rw [text_piece, htext]
    refine .single h.spells (Scan.gapLength_eq_zero_iff.2 ⟨by decide, by simp⟩) fun d hd => ?_
    exact endsBefore_of_mem_enders (hr d hd) _
  · rw [text_piece, htext]
    exact ⟨_, _, rfl, by decide, by decide⟩

theorem says_sign (hk : k ∈ [.add, .sub, .len, .bnot]) (ha : Says a u) :
    Says (piece k.spelling ++ a) (of k :: u) := by
  have hall : ∀ k ∈ [.add, .sub, .len, .bnot], k ∈ TokenKind.operators ∧
      (∀ k' ∈ TokenKind.operators, k'.spelling.toList.head? = k.spelling.toList.head? →
        k'.spelling.toList.tail ⊆ ['=']) ∧ k.spelling.toList.head? ≠ some '/' ∧
      k.spelling.toList.head?.all (fun c => Text.isBlank c = false ∧ c ∉ ['=', '.']) = true ∧
      k.spelling.toList ≠ [] ∧ Scan.gapLength k.spelling.toList = 0 ∧ TokenKind.operators.find?
        (fun k' => k'.spelling.toList.isPrefixOf (k.spelling.toList ++ [])) = some k := by
    decide +kernel
  obtain ⟨hmem, htail, hslash, hfirst, hne, h₀, hfind⟩ := hall k hk
  obtain ⟨c, cs, htext, -, hc⟩ := ha.first
  have htext' : (piece k.spelling ++ a).text.toList = k.spelling.toList ++ a.text.toList := by
    rw [text_append rfl, String.toList_append, text_piece]
  refine ⟨⟨failure_append.2 ⟨rfl, ha.whole⟩, fun rest hr => ?_⟩, ?_⟩
  · rw [htext']
    refine .cons (l := of k) (.operator (k := k) hfind) h₀ (fun d hd => ?_) (ha.spelt rest hr)
    rw [htext] at hd
    cases hd
    show Scan.EndsBefore k c
    rw [Scan.EndsBefore, if_pos hmem]
    refine ⟨fun k' hk' hh hm => hc ?_, fun hh => absurd hh hslash⟩
    exact List.mem_of_mem_head? ((List.mem_singleton.1 (htail k' hk' hh hm)) ▸ rfl)
  · obtain ⟨d, ds, hd⟩ := List.exists_cons_of_ne_nil hne
    rw [htext', hd]
    rw [hd] at hfirst
    exact ⟨d, _, rfl, of_decide_eq_true hfirst⟩

theorem says_not (ha : Says a u) : Says (piece TokenKind.kwNot.spelling ++ a) (Lexeme.glue u) := by
  obtain ⟨c, cs, htext, hc, hd⟩ := ha.first
  have htext' : (piece TokenKind.kwNot.spelling ++ a).text.toList = 'n' :: 'o' :: 't' :: c :: cs := by
    rw [text_append rfl, String.toList_append, htext]
    rfl
  refine ⟨⟨failure_append.2 ⟨rfl, ha.whole⟩, fun rest hr => ?_⟩, ?_⟩
  · have h := ha.spelt rest hr
    rw [htext] at h
    rw [htext']
    exact h.glue hc fun he => hd (by simp [he])
  · rw [htext']
    exact ⟨_, _, rfl, by decide, by decide⟩

theorem lays_commas (hne : xs ≠ []) (h : ∀ x ∈ xs, Lays (f x) (g x)) :
    Lays (commas (xs.map f)) (Lexeme.commas (xs.map g)) := by
  induction xs with
  | nil => exact absurd rfl hne
  | cons x xs ih =>
    rw [List.forall_mem_cons] at h
    cases xs with
    | nil => simpa [commas, Lexeme.commas] using h.1
    | cons y xs =>
      have hcomma : Firm (piece ", ") [of .comma] := firm_word (stands_of_mem (by decide)) (by decide)
      have hfirst := h.1.firm ⟨hcomma, ',', [' '], by simp, by decide⟩
      simpa [commas, Lexeme.commas] using hfirst.then (ih (List.cons_ne_nil _ _) h.2)

/-- A list that may be empty, with commas. -/
def listed : List Layout → Layout
  | [] => nil
  | l :: ls => commas (l :: ls)

theorem lays_listed (h : ∀ x ∈ xs, Lays (f x) (g x)) :
    Lays (listed (xs.map f)) (Lexeme.commas (xs.map g)) := by
  cases xs with
  | nil => exact firm_nil.lays
  | cons x xs => exact lays_commas (List.cons_ne_nil _ _) h

theorem failure_commas {ls : List Layout} (h : (commas ls).failure = none) :
    ∀ l ∈ ls, l.failure = none := by
  induction ls with
  | nil => simp
  | cons l ls ih =>
    cases ls with
    | nil => simpa [commas] using h
    | cons m ls =>
      rw [commas, failure_append, failure_append] at h
      · exact List.forall_mem_cons.2 ⟨h.1.1, ih h.2⟩
      · exact List.cons_ne_nil _ _

theorem failure_listed {ls : List Layout} (h : (listed ls).failure = none) :
    ∀ l ∈ ls, l.failure = none := by
  cases ls with
  | nil => simp
  | cons l ls => exact failure_commas h

end Layout

namespace Node

mutual

/-- The tokens of the text that an expression is written as. -/
def wording : Node → List Lexeme
  | .select cond yes no _ => cond.wording ++ of .query :: (yes.wording ++ of .colon :: no.wording)
  | .binary op left right _ => left.wording ++ of op :: right.wording
  | .unary op operand _ => if op = .kwNot then glue operand.wording else of op :: operand.wording
  | .call callee args _ =>
    callee.wording ++ of .lparen :: (Lexeme.commas (wordingsOpt args) ++ [of .rparen])
  | .name x _ => [⟨.identifier, some x⟩]
  | .number x isInt _ => [⟨if isInt then .intLiteral else .floatLiteral, some x⟩]
  | .string x _ => [⟨.stringLiteral, some x⟩]
  | .bool x _ => [⟨.ofWord x, some x⟩]
  | .null _ => [of .kwNull]
  | _ => []

def wordings : List Node → List (List Lexeme)
  | [] => []
  | e :: es => e.wording :: wordings es

def wordingsOpt : Option (List Node) → List (List Lexeme)
  | none => []
  | some es => wordings es

end

@[simp] theorem wordings_eq (es : List Node) : wordings es = es.map wording := by
  induction es with
  | nil => rfl
  | cons e es ih => rw [wordings, ih, List.map_cons]

@[simp] theorem wordingsOpt_eq (es : Option (List Node)) :
    wordingsOpt es = (es.getD []).map wording := by
  cases es with
  | none => rfl
  | some es => rw [wordingsOpt, wordings_eq, Option.getD_some]

@[simp] theorem layouts_eq (st : Style) (ns : List Node) : layouts st ns = ns.map (layout st) := by
  induction ns with
  | nil => rfl
  | cons n ns ih => rw [layouts, ih, List.map_cons]

open Layout

theorem layout_call (st : Style) (callee : Node) (args : Option (List Node)) (p : Position) :
    layout st (.call callee args p) = callee.layout st ++ piece "(" ++
      listed ((args.getD []).map (layout st)) ++ piece ")" := by
  rcases args with _ | _ | ⟨e, es⟩
  · rfl
  · rfl
  · rw [layout, layouts_eq]
    rfl

/-- An expression that can be written reads as its wording, if its strings may stand between quotes
as they are. -/
theorem Formed.spoken {r : Role} {e : Node} (h : Formed Scanned r e) (hr : r ≠ .stat) (st : Style)
    (hf : (e.layout st).failure = none) (hp : ∀ l ∈ e.wording, l.Plain) :
    Says (e.layout st) e.wording := by
  induction h with
  | name hx => exact says_of_stands ((hx.scanned (by decide)).stands (by simp) (by simp)) (by decide)
  | @call r callee args p hc hcallee hne ha ihc iha =>
    have hrole : ∀ r ∈ [Role.place, .function], r ≠ .stat := by decide
    rw [layout_call] at hf ⊢
    rw [wording, wordingsOpt_eq] at hp ⊢
    simp only [failure_append] at hf
    simp only [List.forall_mem_append, List.forall_mem_cons] at hp
    have hargs : Lays (listed ((args.getD []).map (layout st)))
        (Lexeme.commas ((args.getD []).map wording)) := by
      refine lays_listed fun a ha' => (iha a ha' (by decide) ?_ fun l hl => hp.2.2.1 l ?_).toLays
      · exact failure_listed hf.1.2 _ (List.mem_map_of_mem ha')
      · exact mem_commas (List.mem_map_of_mem ha') hl
    have hopen : Parts (piece "(") [of .lparen] := parts_mark (k := .lparen) (by decide)
    have hclose : Parts (piece ")") [of .rparen] := parts_mark (k := .rparen) (by decide)
    have hstart := (ihc (hrole r hc) hf.1.1.1 hp.1).between hopen hargs
    simpa using hstart.append hclose.lays hclose.trails
  | operand hr _ ih => exact ih (by rintro rfl; simp at hr) hf hp
  | select _ _ _ ihc ihy ihn =>
    rw [layout] at hf ⊢
    rw [wording] at hp ⊢
    simp only [failure_append] at hf
    simp only [List.forall_mem_append, List.forall_mem_cons] at hp
    have hquery := parts_spaced (k := .query) (s := " ? ") (stands_of_mem (by decide)) (by decide)
    have hcolon := parts_spaced (k := .colon) (s := " : ") (stands_of_mem (by decide)) (by decide)
    have hyes := (ihc (by decide) hf.1.1.1.1 hp.1).between hquery
      (ihy (by decide) hf.1.1.2 hp.2.2.1).toLays
    simpa using hyes.between hcolon (ihn (by decide) hf.2 hp.2.2.2.2).toLays
  | @binary op left right p hop ht _ _ ihl ihr =>
    rw [layout] at hf ⊢
    rw [wording] at hp ⊢
    simp only [failure_append] at hf
    simp only [List.forall_mem_append, List.forall_mem_cons] at hp
    obtain ⟨x, hx⟩ := ht
    have hops : ∀ op ∈ .pow :: Grammar.levels.flatMap (·.ops),
        op ∉ [.eof, .identifier, .intLiteral, .floatLiteral, .stringLiteral] := by decide
    have hspaced := parts_spaced (s := s!" {op.spelling} ") (hx.stands_of (hops op hop)).1
      String.append_assoc
    exact (ihl (by decide) hf.1.1 hp.1).between hspaced (ihr (by decide) hf.2 hp.2.2).toLays
  | @unary op operand p hop ht _ ih =>
    rw [layout] at hf ⊢
    rw [wording] at hp ⊢
    rw [failure_append] at hf
    by_cases hnot : op = .kwNot
    · subst hnot
      rw [if_pos rfl] at hp ⊢
      exact says_not (ih (by decide) hf.2 fun l hl hk => hp l (mem_glue hl hk) hk)
    · rw [if_neg hnot] at hp ⊢
      have hops : ∀ op ∈ unaries, op ≠ .kwNot → op ∈ [.add, .sub, .len, .bnot] := by decide
      rw [forall_mem_cons] at hp
      exact says_sign (hops op hop hnot) (ih (by decide) hf.2 hp.2)
  | int hx => exact says_of_stands ((hx.scanned (by decide)).stands (by simp) (by simp)) (by decide)
  | float hx => exact says_of_stands ((hx.scanned (by decide)).stands (by simp) (by simp)) (by decide)
  | string hx => exact says_string (hp _ mem_cons_self)
  | @bool k x p hk hx =>
    have hword : ∀ k ∈ [kwTrue, .kwFalse], ofWord k.spelling = k ∧
        k ∉ [.eof, .identifier, .intLiteral, .floatLiteral, .stringLiteral] ∧
        k ∉ .stringLiteral :: operators := by decide
    obtain ⟨hof, hk₁, hk₂⟩ := hword k hk
    obtain ⟨hs, rfl⟩ := hx.stands_of hk₁
    rw [wording, hof]
    exact says_of_stands hs hk₂
  | otherwise => exact says_of_stands (stands_of_mem (k := .kwTrue) (by decide)) (by decide)
  | null => exact says_of_stands (stands_of_mem (k := .kwNull) (by decide)) (by decide)
  | item | field | funcDef | listOf | mapOf | setOf => cases hf
  | _ => exact absurd rfl hr

end Node

end TinyScript
