import TinyScript.Token

/-!
# The grammar of the language

The rules as data, with options and repetitions on their right sides, and the lists of kinds of
tokens that they stand for (`Derives`). The rules say nothing about how a list is to be read:
`lvalue_expr` is left-recursive, and where several readings are possible, as with an `else` after two
`if`s, all of them are derivations. A list of statements may be empty, and the parameters of a function
are names only.
-/

namespace TinyScript

open List

/-- The symbols that have rules. -/
inductive Nonterminal
  | program | statList | stat | emptyStat | blockStat | varDeclStat | ifStat | switchStat | repeatStat
  | whileStat | forloopStat | foreachStat | breakStat | continueStat | funcDeclStat | returnStat
  | assignStat | compoundassignStat | funcCallStat
  | expr | selectExpr | logicOrExpr | logicAndExpr | checkExpr | relationExpr | bitOrExpr | bitXorExpr
  | bitAndExpr | bitShiftExpr | additionExpr | multipleExpr | unaryExpr | powExpr | primaryExpr
  | listCtorExpr | mapCtorExpr | setCtorExpr | funcDefExpr | lvalueExpr | funcCallExpr
  | nameList | exprList | paramList | funcDef | funcCall | name | compoundassign | unop
deriving DecidableEq, Repr

/-- Right sides of rules. -/
inductive Ebnf
  | token (k : TokenKind)
  | ref (x : Nonterminal)
  | seq (es : List Ebnf)
  | alt (es : List Ebnf)
  | opt (e : Ebnf)
  | many (e : Ebnf)

namespace Ebnf

/-- One of several tokens. -/
def oneOf (ks : List TokenKind) : Ebnf := alt (ks.map token)

/-- `x (op x)*` -/
def chained (ops : List TokenKind) (x : Nonterminal) : Ebnf :=
  seq [ref x, many (seq [oneOf ops, ref x])]

/-- `x (op x)?` -/
def compared (ops : List TokenKind) (x : Nonterminal) : Ebnf :=
  seq [ref x, opt (seq [oneOf ops, ref x])]

/-- `x (COMMA x)*` -/
def listed (x : Nonterminal) : Ebnf := seq [ref x, many (seq [token .comma, ref x])]

/-- `word expr (COLON)? stat` -/
def clauseOf (word : TokenKind) : Ebnf :=
  seq [token word, ref .expr, opt (token .colon), ref .stat]

/-- `word (COLON)? stat` -/
def lastOf (word : TokenKind) : Ebnf := seq [token word, opt (token .colon), ref .stat]

/-- `LPAREN (expr_list)? RPAREN` -/
def args : List Ebnf := [token .lparen, opt (ref .exprList), token .rparen]

/-- `expr COLON expr` -/
def entry : List Ebnf := [ref .expr, token .colon, ref .expr]

def rule : Nonterminal → Ebnf
  | .program => ref .statList
  | .statList => many (ref .stat)
  | .stat => alt
    [ref .emptyStat, ref .blockStat, ref .varDeclStat, ref .ifStat, ref .switchStat, ref .repeatStat,
      ref .whileStat, ref .forloopStat, ref .foreachStat, ref .breakStat, ref .continueStat,
      ref .funcDeclStat, ref .returnStat, ref .assignStat, ref .compoundassignStat, ref .funcCallStat]
  | .emptyStat => token .semi
  | .blockStat => seq [token .lbrace, ref .statList, token .rbrace]
  | .varDeclStat => seq
    [oneOf [.kwVar, .kwConst], ref .nameList, opt (seq [token .assign, ref .exprList])]
  | .ifStat => seq
    [token .kwIf, ref .expr, opt (token .colon), ref .stat, many (clauseOf .kwElif),
      opt (lastOf .kwElse)]
  | .switchStat => seq
    [token .kwSwitch, ref .expr, opt (token .colon), clauseOf .kwCase, many (clauseOf .kwCase),
      opt (lastOf .kwDefault)]
  | .repeatStat => seq
    [token .kwRepeat, opt (token .colon), ref .stat, token .kwUntil, ref .expr]
  | .whileStat => clauseOf .kwWhile
  | .forloopStat => seq
    [token .kwFor, ref .name, token .kwIs, ref .expr, token .comma, ref .expr,
      opt (seq [token .comma, ref .expr]), opt (token .colon), ref .stat]
  | .foreachStat => seq
    [token .kwFor, ref .name, opt (seq [token .comma, ref .name]), token .kwIn, ref .expr,
      opt (token .colon), ref .stat]
  | .breakStat => token .kwBreak
  | .continueStat => token .kwContinue
  | .funcDeclStat => seq [token .kwFunc, ref .name, ref .funcDef]
  | .returnStat => seq [token .kwReturn, alt [ref .expr, token .semi]]
  | .assignStat => seq
    [ref .lvalueExpr, many (seq [token .comma, ref .lvalueExpr]), token .assign, ref .exprList]
  | .compoundassignStat => seq [ref .lvalueExpr, ref .compoundassign, ref .expr]
  | .funcCallStat => ref .funcCall
  | .expr => ref .selectExpr
  | .selectExpr => seq
    [ref .logicOrExpr, opt (seq [token .query, ref .expr, token .colon, ref .expr])]
  | .logicOrExpr => chained [.kwOr] .logicAndExpr
  | .logicAndExpr => chained [.kwAnd] .checkExpr
  | .checkExpr => chained [.kwIn, .kwIs] .relationExpr
  | .relationExpr => compared [.eq, .ne, .lt, .le, .gt, .ge] .bitOrExpr
  | .bitOrExpr => chained [.bor] .bitXorExpr
  | .bitXorExpr => chained [.bxor] .bitAndExpr
  | .bitAndExpr => chained [.band] .bitShiftExpr
  | .bitShiftExpr => chained [.bshl, .bshr] .additionExpr
  | .additionExpr => chained [.add, .sub] .multipleExpr
  | .multipleExpr => chained [.mul, .div, .mod] .unaryExpr
  | .unaryExpr => seq [many (ref .unop), ref .powExpr]
  | .powExpr => chained [.pow] .primaryExpr
  | .primaryExpr => alt
    [token .intLiteral, token .floatLiteral, token .stringLiteral, token .kwTrue, token .kwFalse,
      token .kwNull, seq [token .lparen, ref .expr, token .rparen], ref .listCtorExpr,
      ref .mapCtorExpr, ref .setCtorExpr, ref .funcDefExpr, ref .lvalueExpr, ref .funcCallExpr]
  | .listCtorExpr => seq [token .lbrack, opt (ref .exprList), token .rbrack]
  | .mapCtorExpr => seq
    [token .lbrace, opt (seq (entry ++ [many (seq (token .comma :: entry))])), token .rbrace]
  | .setCtorExpr => seq
    [token .lbrace, ref .expr, many (seq [token .comma, ref .expr]), token .rbrace]
  | .funcDefExpr => seq [token .kwFunc, ref .funcDef]
  | .lvalueExpr => alt
    [ref .name, seq [ref .lvalueExpr, token .lbrack, ref .expr, token .rbrack],
      seq [ref .lvalueExpr, token .dot, ref .name]]
  | .funcCallExpr => ref .funcCall
  | .nameList => listed .name
  | .exprList => listed .expr
  | .paramList => ref .nameList
  | .funcDef => seq
    [token .lparen, opt (ref .paramList), token .rparen, token .lbrace, ref .statList, token .rbrace]
  | .funcCall => alt [seq (ref .lvalueExpr :: args), seq (ref .funcDefExpr :: args)]
  | .name => token .identifier
  | .compoundassign => oneOf
    [.selfAdd, .selfSub, .selfMul, .selfDiv, .selfPow, .selfMod, .selfBshl, .selfBshr, .selfBand,
      .selfBxor, .selfBor]
  | .unop => oneOf [.add, .sub, .kwNot, .len, .bnot]

/-- The lists of kinds of tokens that a right side stands for. -/
inductive Derives : Ebnf → List TokenKind → Prop
  | token (k : TokenKind) : Derives (token k) [k]
  | ref {x w} (h : Derives (rule x) w) : Derives (ref x) w
  | nil : Derives (seq []) []
  | cons {e es u v} (h : Derives e u) (hs : Derives (seq es) v) : Derives (seq (e :: es)) (u ++ v)
  | alt {e es w} (he : e ∈ es) (h : Derives e w) : Derives (alt es) w
  | none {e} : Derives (opt e) []
  | some {e w} (h : Derives e w) : Derives (opt e) w
  | done {e} : Derives (many e) []
  | more {e u v} (h : Derives e u) (hs : Derives (many e) v) : Derives (many e) (u ++ v)

/-! ### Taking derivations apart -/

variable {e e₁ e₂ : Ebnf} {es : List Ebnf} {w : List TokenKind} {k : TokenKind} {x : Nonterminal}

theorem derives_token : Derives (token k) w ↔ w = [k] := by
  constructor
  · intro h
    cases h
    rfl
  · rintro rfl
    exact .token k

theorem derives_ref : Derives (ref x) w ↔ Derives (rule x) w := by
  constructor
  · intro h
    cases h with
    | ref h => exact h
  · exact .ref

theorem derives_seq_nil : Derives (seq []) w ↔ w = [] := by
  constructor
  · intro h
    cases h
    rfl
  · rintro rfl
    exact .nil

theorem derives_seq_cons : Derives (seq (e :: es)) w ↔
    ∃ u v, Derives e u ∧ Derives (seq es) v ∧ w = u ++ v := by
  constructor
  · intro h
    cases h with
    | cons h hs => exact ⟨_, _, h, hs, rfl⟩
  · rintro ⟨u, v, h, hs, rfl⟩
    exact .cons h hs

theorem derives_seq_one : Derives (seq [e]) w ↔ Derives e w := by
  simp only [derives_seq_cons, derives_seq_nil]
  constructor
  · rintro ⟨u, v, h, rfl, rfl⟩
    rwa [append_nil]
  · intro h
    exact ⟨w, [], h, rfl, (append_nil w).symm⟩

theorem derives_alt : Derives (alt es) w ↔ ∃ e ∈ es, Derives e w := by
  constructor
  · intro h
    cases h with
    | alt he h => exact ⟨_, he, h⟩
  · rintro ⟨e, he, h⟩
    exact .alt he h

theorem derives_opt : Derives (opt e) w ↔ w = [] ∨ Derives e w := by
  constructor
  · intro h
    cases h with
    | none => exact .inl rfl
    | some h => exact .inr h
  · rintro (rfl | h)
    · exact .none
    · exact .some h

theorem derives_many : Derives (many e) w ↔
    w = [] ∨ ∃ u v, Derives e u ∧ Derives (many e) v ∧ w = u ++ v := by
  constructor
  · intro h
    cases h with
    | done => exact .inl rfl
    | more h hs => exact .inr ⟨_, _, h, hs, rfl⟩
  · rintro (rfl | ⟨u, v, h, hs, rfl⟩)
    · exact .done
    · exact .more h hs

theorem derives_oneOf {ks : List TokenKind} : Derives (oneOf ks) w ↔ ∃ k ∈ ks, w = [k] := by
  simp only [oneOf, derives_alt, mem_map]
  constructor
  · rintro ⟨_, ⟨k, hk, rfl⟩, h⟩
    exact ⟨k, hk, derives_token.1 h⟩
  · rintro ⟨k, hk, rfl⟩
    exact ⟨_, ⟨k, hk, rfl⟩, .token k⟩

theorem derives_token_seq : Derives (seq (token k :: es)) w ↔
    ∃ v, Derives (seq es) v ∧ w = k :: v := by
  rw [derives_seq_cons]
  constructor
  · rintro ⟨u, v, h, hs, rfl⟩
    rw [derives_token.1 h]
    exact ⟨v, hs, rfl⟩
  · rintro ⟨v, hs, rfl⟩
    exact ⟨[k], v, .token k, hs, rfl⟩

theorem derives_many_snoc {u v : List TokenKind} (hu : Derives (many e) u) (hv : Derives e v) :
    Derives (many e) (u ++ v) := by
  generalize hf : many e = f at hu
  induction hu with
  | done =>
    cases hf
    have h : Derives (many e) (v ++ []) := .more hv .done
    rwa [append_nil] at h
  | more h _ _ ih =>
    cases hf
    rw [List.append_assoc]
    exact .more h (ih rfl)
  | _ => cases hf

theorem Derives.many_mono (he : ∀ w, Derives e₁ w → Derives e₂ w) (h : Derives (many e₁) w) :
    Derives (many e₂) w := by
  generalize hf : many e₁ = f at h
  induction h with
  | done => exact .done
  | more h _ _ ih =>
    cases hf
    exact .more (he _ h) (ih rfl)
  | _ => cases hf

theorem derives_many_congr (he : ∀ w, Derives e₁ w ↔ Derives e₂ w) :
    Derives (many e₁) w ↔ Derives (many e₂) w :=
  ⟨.many_mono fun w => (he w).1, .many_mono fun w => (he w).2⟩

theorem derives_unary : Derives (ref .unaryExpr) w ↔
    Derives (alt [seq [ref .unop, ref .unaryExpr], ref .powExpr]) w := by
  simp only [derives_alt, mem_cons, not_mem_nil, or_false, exists_eq_or_imp,
    exists_eq_left, derives_seq_cons, derives_seq_nil, derives_ref (x := .unaryExpr), rule]
  constructor
  · rintro ⟨u, _, hu, ⟨v, _, hv, rfl, rfl⟩, rfl⟩
    rcases derives_many.1 hu with rfl | ⟨u₁, u₂, hu₁, hu₂, rfl⟩
    · exact .inr (by simpa using hv)
    · refine .inl ⟨u₁, u₂ ++ v, hu₁, ⟨_, [], ⟨u₂, v, hu₂, ⟨v, [], hv, rfl, ?_⟩, rfl⟩, rfl, ?_⟩, ?_⟩
      all_goals simp
  · rintro (⟨u, _, hu, ⟨_, _, ⟨v₁, _, hv₁, ⟨v₂, _, hv₂, rfl, rfl⟩, rfl⟩, rfl, rfl⟩, rfl⟩ | hv)
    · refine ⟨u ++ v₁, v₂, .more hu hv₁, ⟨v₂, [], hv₂, rfl, ?_⟩, ?_⟩
      all_goals simp
    · exact ⟨[], w, .done, ⟨w, [], hv, rfl, (append_nil w).symm⟩, rfl⟩

/-! ### Places -/

/-- What stands after a place to get to a place inside it. -/
def accessor : Ebnf :=
  alt [seq [token .lbrack, ref .expr, token .rbrack], seq [token .dot, ref .name]]

theorem derives_lvalue_access {u v : List TokenKind} (hu : Derives (ref .lvalueExpr) u)
    (hv : Derives accessor v) : Derives (ref .lvalueExpr) (u ++ v) := by
  obtain ⟨e, he, h⟩ := derives_alt.1 hv
  simp only [mem_cons, not_mem_nil, or_false] at he
  rcases he with rfl | rfl
  · exact .ref (.alt (.tail _ (.head _)) (.cons hu h))
  · exact .ref (.alt (.tail _ (.tail _ (.head _))) (.cons hu h))

theorem derives_lvalue_append {u v : List TokenKind} (hu : Derives (ref .lvalueExpr) u)
    (hv : Derives (many accessor) v) : Derives (ref .lvalueExpr) (u ++ v) := by
  generalize hf : many accessor = f at hv
  induction hv generalizing u with
  | done => rwa [append_nil]
  | more h _ _ ih =>
    cases hf
    rw [← List.append_assoc]
    exact ih (derives_lvalue_access hu h) rfl
  | _ => cases hf

/-- The left recursion unrolled: a place is a name, or a place with one more accessor. -/
theorem derives_lvalue_cases (h : Derives (ref .lvalueExpr) w) :
    Derives (ref .name) w ∨
      ∃ u v, Derives (ref .lvalueExpr) u ∧ Derives accessor v ∧ v ≠ [] ∧ w = u ++ v := by
  obtain ⟨e, he, h⟩ := derives_alt.1 (derives_ref.1 h)
  simp only [mem_cons, not_mem_nil, or_false] at he
  rcases he with rfl | rfl | rfl
  · exact .inl h
  · obtain ⟨u, v, hu, hv, rfl⟩ := derives_seq_cons.1 h
    refine .inr ⟨u, v, hu, .alt (.head _) hv, ?_, rfl⟩
    obtain ⟨v, -, rfl⟩ := derives_token_seq.1 hv
    exact cons_ne_nil _ _
  · obtain ⟨u, v, hu, hv, rfl⟩ := derives_seq_cons.1 h
    refine .inr ⟨u, v, hu, .alt (.tail _ (.head _)) hv, ?_, rfl⟩
    obtain ⟨v, -, rfl⟩ := derives_token_seq.1 hv
    exact cons_ne_nil _ _

theorem derives_lvalue :
    Derives (ref .lvalueExpr) w ↔ Derives (seq [ref .name, many accessor]) w := by
  constructor
  · intro h
    induction hn : w.length using Nat.strongRecOn generalizing w with
    | _ n ih =>
      rcases derives_lvalue_cases h with h | ⟨u, v, hu, hv, hne, rfl⟩
      · have h' : Derives (seq [ref .name, many accessor]) (w ++ []) :=
          .cons h (derives_seq_one.2 .done)
        rwa [append_nil] at h'
      · have hlt : u.length < n := by
          have := length_pos_iff.2 hne
          rw [length_append] at hn
          omega
        obtain ⟨u₁, u₂, h₁, h₂, rfl⟩ := derives_seq_cons.1 (ih _ hlt hu rfl)
        rw [List.append_assoc]
        exact .cons h₁ (derives_seq_one.2 (derives_many_snoc (derives_seq_one.1 h₂) hv))
  · intro h
    obtain ⟨u, v, hu, hv, rfl⟩ := derives_seq_cons.1 h
    exact derives_lvalue_append (.ref (.alt (.head _) hu)) (derives_seq_one.1 hv)

/-! ### Phrases at the beginning of a list -/

/-- `l` begins with a phrase of `e`, and `t` is what comes after it. -/
def Begins (e : Ebnf) (l t : List TokenKind) : Prop := ∃ w, Derives e w ∧ l = w ++ t

variable {l m t : List TokenKind}

theorem Begins.mono (h : ∀ w, Derives e₁ w → Derives e₂ w) (hb : Begins e₁ l t) :
    Begins e₂ l t := by
  obtain ⟨w, hw, hl⟩ := hb
  exact ⟨w, h w hw, hl⟩

theorem begins_token : Begins (token k) l t ↔ l = k :: t := by
  simp [Begins, derives_token]

theorem begins_oneOf {ks : List TokenKind} : Begins (oneOf ks) l t ↔ ∃ k ∈ ks, l = k :: t := by
  simp only [Begins, derives_oneOf]
  constructor
  · rintro ⟨_, ⟨k, hk, rfl⟩, rfl⟩
    exact ⟨k, hk, rfl⟩
  · rintro ⟨k, hk, rfl⟩
    exact ⟨[k], ⟨k, hk, rfl⟩, rfl⟩

theorem begins_ref : Begins (ref x) l t ↔ Begins (rule x) l t := by
  simp only [Begins, derives_ref]

theorem begins_seq_nil : Begins (seq []) l t ↔ l = t := by
  simp [Begins, derives_seq_nil]

theorem begins_seq_cons : Begins (seq (e :: es)) l t ↔
    ∃ m, Begins e l m ∧ Begins (seq es) m t := by
  simp only [Begins, derives_seq_cons]
  constructor
  · rintro ⟨_, ⟨u, v, hu, hv, rfl⟩, rfl⟩
    exact ⟨v ++ t, ⟨u, hu, List.append_assoc ..⟩, v, hv, rfl⟩
  · rintro ⟨_, ⟨u, hu, rfl⟩, v, hv, rfl⟩
    exact ⟨u ++ v, ⟨u, v, hu, hv, rfl⟩, (List.append_assoc ..).symm⟩

theorem begins_seq_append {es es' : List Ebnf} : Begins (seq (es ++ es')) l t ↔
    ∃ m, Begins (seq es) l m ∧ Begins (seq es') m t := by
  induction es generalizing l with
  | nil => simp [begins_seq_nil]
  | cons e es ih =>
    simp only [cons_append, begins_seq_cons, ih]
    constructor
    · rintro ⟨m, he, m', hes, hes'⟩
      exact ⟨m', ⟨m, he, hes⟩, hes'⟩
    · rintro ⟨m', ⟨m, he, hes⟩, hes'⟩
      exact ⟨m, he, m', hes, hes'⟩

theorem begins_seq_one : Begins (seq [e]) l t ↔ Begins e l t := by
  simp only [Begins, derives_seq_one]

theorem begins_token_seq : Begins (seq (token k :: es)) l t ↔
    ∃ m, l = k :: m ∧ Begins (seq es) m t := by
  simp only [begins_seq_cons, begins_token]

theorem begins_alt : Begins (alt es) l t ↔ ∃ e ∈ es, Begins e l t := by
  simp only [Begins, derives_alt]
  constructor
  · rintro ⟨w, ⟨e, he, hw⟩, hl⟩
    exact ⟨e, he, w, hw, hl⟩
  · rintro ⟨e, he, w, hw, hl⟩
    exact ⟨w, ⟨e, he, hw⟩, hl⟩

theorem begins_opt : Begins (opt e) l t ↔ l = t ∨ Begins e l t := by
  simp only [Begins, derives_opt]
  constructor
  · rintro ⟨w, rfl | hw, rfl⟩
    · exact .inl rfl
    · exact .inr ⟨w, hw, rfl⟩
  · rintro (rfl | ⟨w, hw, rfl⟩)
    · exact ⟨[], .inl rfl, rfl⟩
    · exact ⟨w, .inr hw, rfl⟩

theorem begins_many : Begins (many e) l t ↔
    l = t ∨ ∃ m, Begins e l m ∧ Begins (many e) m t := by
  constructor
  · rintro ⟨w, hw, rfl⟩
    rcases derives_many.1 hw with rfl | ⟨u, v, hu, hv, rfl⟩
    · exact .inl rfl
    · exact .inr ⟨v ++ t, ⟨u, hu, List.append_assoc ..⟩, v, hv, rfl⟩
  · rintro (rfl | ⟨_, ⟨u, hu, rfl⟩, v, hv, rfl⟩)
    · exact ⟨[], .done, rfl⟩
    · exact ⟨u ++ v, .more hu hv, (List.append_assoc ..).symm⟩

end Ebnf

end TinyScript
