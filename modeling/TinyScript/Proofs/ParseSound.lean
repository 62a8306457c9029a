import TinyScript.Proofs.Ebnf
import TinyScript.Proofs.Reading

/-!
# What the parser takes is a phrase

Pieces of a text have their rules in the grammar (`Ebnf.ofPiece`). Main statement (`begins_of_reads`): the
tokens that are read as a piece are a phrase of its rule.
-/

namespace TinyScript

open Ebnf

namespace Ebnf

variable {e e' f : Ebnf} {es es' : List Ebnf} {k k' : TokenKind} {x : Nonterminal}
  {l m t : List TokenKind}

theorem Begins.ref (h : Begins (rule x) l t) : Begins (ref x) l t := begins_ref.2 h

theorem Begins.alt (he : e ∈ es) (h : Begins e l t) : Begins (alt es) l t :=
  begins_alt.2 ⟨e, he, h⟩

theorem Begins.cons (h : Begins e l m) (hs : Begins (seq es) m t) : Begins (seq (e :: es)) l t :=
  begins_seq_cons.2 ⟨m, h, hs⟩

theorem Begins.last (h : Begins e l t) : Begins (seq [e]) l t := begins_seq_one.2 h

theorem Begins.append (es : List Ebnf) (h : Begins (seq es) l m) (hs : Begins (seq es') m t) :
    Begins (seq (es ++ es')) l t :=
  begins_seq_append.2 ⟨m, h, hs⟩

theorem Begins.split (es : List Ebnf) (h : Begins (seq (es ++ es')) l t) :
    ∃ m, Begins (seq es) l m ∧ Begins (seq es') m t := begins_seq_append.1 h

theorem Begins.token (hk : k' = k) : Begins (token k) (k' :: l) l := begins_token.2 (hk ▸ rfl)

theorem Begins.oneOf {ks : List TokenKind} (hk : k ∈ ks) : Begins (oneOf ks) (k :: l) l :=
  begins_oneOf.2 ⟨k, hk, rfl⟩

theorem Begins.opt_imp (h : Begins e l t → Begins e' l t) (ho : Begins (opt e) l t) :
    Begins (opt e') l t :=
  begins_opt.2 ((begins_opt.1 ho).imp_right h)

theorem Begins.snoc (es : List Ebnf) (h : Begins (seq (es ++ [many f])) l m) (hf : Begins f m t) :
    Begins (seq (es ++ [many f])) l t := by
  obtain ⟨i, hes, u, hu, rfl⟩ := h.split es
  obtain ⟨v, hv, rfl⟩ := hf
  have hm := derives_many_snoc (derives_seq_one.1 hu) hv
  exact .append es hes ⟨u ++ v, derives_seq_one.2 hm, (List.append_assoc ..).symm⟩

theorem Begins.access (hb : Begins (.ref .lvalueExpr) l m) (ha : Begins accessor m t) :
    Begins (.ref .lvalueExpr) l t := by
  obtain ⟨u, hu, rfl⟩ := hb
  obtain ⟨v, hv, rfl⟩ := ha
  exact ⟨u ++ v, derives_lvalue_access hu hv, (List.append_assoc ..).symm⟩

/-- The rule of the grammar for a piece of a text. -/
def ofPiece : Piece → Ebnf
  | .name => .ref .name
  | .place => .ref .lvalueExpr
  | .function => .ref .funcDef
  | .call => .ref .funcCall
  | .primary => .ref .primaryExpr
  | .unary => .ref .unaryExpr
  | .expr => .ref .expr
  | .stat => .ref .stat
  | .body => seq [opt (.token .colon), .ref .stat]
  | .stats => many (.ref .stat)
  | .token k => .token k
  | .after k p => seq [.token k, ofPiece p]
  | .opt p => opt (ofPiece p)
  | .commas p => seq [ofPiece p, many (seq [.token .comma, ofPiece p])]
  | .chain ops p => seq [ofPiece p, many (seq [oneOf ops, ofPiece p])]
  | .once ops p => seq [ofPiece p, opt (seq [oneOf ops, ofPiece p])]
  | .entries _ => seq (entry ++ [many (seq (.token .comma :: entry))])
  | .clauses word _ => seq [.ref .expr, opt (.token .colon), .ref .stat, many (clauseOf word)]

end Ebnf

namespace Grammar

/-! ### The levels of binary operators -/

/-- The levels of binary operators over the prefix operators. -/
def tower (ls : List Level) : Ebnf := ofPiece (.tower ls)

variable {w : List TokenKind} {x y : Nonterminal} {ls : List Level} {ops : List TokenKind}

theorem derives_tower_chained (hy : rule y = chained ops x)
    (h : ∀ w, Derives (tower ls) w ↔ Derives (ref x) w) (w : List TokenKind) :
    Derives (tower (⟨ops, true⟩ :: ls)) w ↔ Derives (ref y) w := by
  have hs : ∀ w, Derives (seq [oneOf ops, tower ls]) w ↔ Derives (seq [oneOf ops, ref x]) w := by
    intro w
    simp only [derives_seq_cons, h]
  have hm := fun w => derives_many_congr (w := w) hs
  have ht : tower (⟨ops, true⟩ :: ls) = seq [tower ls, many (seq [oneOf ops, tower ls])] := rfl
  rw [derives_ref, hy, ht]
  simp only [chained, derives_seq_cons, h, hm]

theorem derives_tower_compared (hy : rule y = compared ops x)
    (h : ∀ w, Derives (tower ls) w ↔ Derives (ref x) w) (w : List TokenKind) :
    Derives (tower (⟨ops, false⟩ :: ls)) w ↔ Derives (ref y) w := by
  have ht : tower (⟨ops, false⟩ :: ls) = seq [tower ls, opt (seq [oneOf ops, tower ls])] := rfl
  rw [derives_ref, hy, ht]
  simp only [compared, derives_seq_cons, derives_opt, h]

theorem derives_tower (w : List TokenKind) :
    Derives (tower levels) w ↔ Derives (ref .logicOrExpr) w := by
  -- from the loosest level to the tightest
  refine derives_tower_chained rfl (derives_tower_chained rfl (derives_tower_chained rfl ?_)) w
  refine derives_tower_compared rfl (derives_tower_chained rfl (derives_tower_chained rfl ?_))
  refine derives_tower_chained rfl (derives_tower_chained rfl (derives_tower_chained rfl ?_))
  exact derives_tower_chained rfl fun _ => Iff.rfl

end Grammar

/-! ### Phrases -/

theorem begins_logicOr {l t : List TokenKind} (h : Begins (Grammar.tower Grammar.levels) l t) :
    Begins (ref .logicOrExpr) l t :=
  h.mono fun w => (Grammar.derives_tower w).1

theorem begins_of_reads {p : Piece} {l l' : List Token} {ns : List Node} (h : Reads p l ns l') :
    Begins (ofPiece p) (l.map (·.kind)) (l'.map (·.kind)) := by
  induction h with
  | token ht => exact .token ht
  | after ht _ ih => exact .cons (.token ht) ih.last
  | absent => exact begins_opt.2 (.inl rfl)
  | present _ ih => exact begins_opt.2 (.inr ih)
  | one _ ih | first _ ih => exact .cons ih (.last (begins_many.2 (.inl rfl)))
  | more _ ht _ ih ihx => exact .snoc [_] ih (.cons (.token ht) ihx.last)
  -- places and functions
  | name ht => exact .ref (.token ht)
  | base _ ih => exact .ref (.alt (.head _) ih)
  | item _ ht _ hu ihb ihk =>
    exact ihb.access (.alt (.head _) (.cons (.token ht) (.cons ihk (.last (.token hu)))))
  | field _ ht hu ihb =>
    exact ihb.access (.alt (.tail _ (.head _)) (.cons (.token ht) (.last (.ref (.token hu)))))
  | function ht _ hu hv _ hw ihp ihb =>
    exact .ref (.cons (.token ht) (.cons (ihp.opt_imp fun h => .ref (.ref h)) (.cons (.token hu)
      (.cons (.token hv) (.cons (.ref ihb) (.last (.token hw)))))))
  | call hp _ ht _ hu ihf iha =>
    have hargs : Begins (seq [token .lparen, opt (ref .exprList), token .rparen]) _ _ :=
      .cons (.token ht) (.cons (iha.opt_imp .ref) (.last (.token hu)))
    rcases hp with rfl | rfl
    · exact .ref (.alt (.head _) (.cons ihf hargs))
    · exact .ref (.alt (.tail _ (.head _)) (.cons (.ref ihf) hargs))
  -- operands
  | int ht | float ht | string ht | null ht => exact .ref (.alt (by simp) (.token ht))
  | bool ht =>
    simp only [List.mem_cons, List.not_mem_nil, or_false] at ht
    rcases ht with ht | ht
    all_goals exact .ref (.alt (by simp) (.token ht))
  | paren ht _ hu ih =>
    refine .ref (.alt (e := seq [token .lparen, ref .expr, token .rparen]) (by simp) ?_)
    exact .cons (.token ht) (.cons ih (.last (.token hu)))
  | listOf ht _ hu ih =>
    refine .ref (.alt (e := ref .listCtorExpr) (by simp) (.ref ?_))
    exact .cons (.token ht) (.cons (ih.opt_imp .ref) (.last (.token hu)))
  | mapNone ht hu =>
    refine .ref (.alt (e := ref .mapCtorExpr) (by simp) (.ref ?_))
    exact .cons (.token ht) (.cons (begins_opt.2 (.inl rfl)) (.last (.token hu)))
  | mapOf ht _ hu ih =>
    refine .ref (.alt (e := ref .mapCtorExpr) (by simp) (.ref ?_))
    exact .cons (.token ht) (.cons (begins_opt.2 (.inr ih)) (.last (.token hu)))
  | setOf ht _ hu ih =>
    refine .ref (.alt (e := ref .setCtorExpr) (by simp) (.ref (.cons (.token ht) ?_)))
    exact .append [_, _] ih (.last (.token hu))
  | operand hp _ ih =>
    rcases hp with rfl | rfl | rfl
    · exact .ref (.alt (e := ref .lvalueExpr) (by simp) ih)
    · exact .ref (.alt (e := ref .funcDefExpr) (by simp) (.ref ih))
    · exact .ref (.alt (e := ref .funcCallExpr) (by simp) (.ref ih))
  | entry _ ht _ ihk ihv =>
    exact .cons ihk (.cons (.token ht) (.cons ihv (.last (begins_many.2 (.inl rfl)))))
  | entries _ ht _ hu _ ih ihk ihv =>
    exact .snoc entry ih (.cons (.token ht) (.cons ihk (.cons (.token hu) ihv.last)))
  -- operators
  | next _ ht _ iha ihb => exact .snoc [_] iha (.cons (.oneOf ht) ihb.last)
  | lone _ ih => exact .cons ih (.last (begins_opt.2 (.inl rfl)))
  | compare _ ht _ iha ihb =>
    exact .cons iha (.last (begins_opt.2 (.inr (.cons (.oneOf ht) ihb.last))))
  | unsigned _ ih =>
    exact Begins.mono (fun _ => derives_unary.2) (.alt (.tail _ (.head _)) (.ref ih))
  | signed ht _ ih =>
    exact Begins.mono (fun _ => derives_unary.2) (.alt (.head _) (.cons (.ref (.oneOf ht)) ih.last))
  | plain _ ih => exact .ref (.ref (.cons (begins_logicOr ih) (.last (begins_opt.2 (.inl rfl)))))
  | select _ ht _ hu _ ihc ihy ihn =>
    refine .ref (.ref (.cons (begins_logicOr ihc) (.last (begins_opt.2 (.inr ?_)))))
    exact .cons (.token ht) (.cons ihy (.cons (.token hu) ihn.last))
  -- statements
  | done => exact begins_many.2 (.inl rfl)
  | line _ _ ih ihs => exact begins_seq_one.1 (.snoc [] ih.last ihs)
  | body _ _ ihk ihb => exact .cons ihk ihb.last
  | clause _ _ ihc ihb =>
    exact .cons ihc (.append [_, _] ihb (.last (begins_many.2 (.inl rfl))))
  | clauses _ ht _ _ ih ihc ihb =>
    exact .snoc [_, _, _] ih (.cons (.token ht) (.cons ihc ihb))
  | empty ht => exact .ref (.alt (e := ref .emptyStat) (by simp) (.ref (.token ht)))
  | block ht _ hu ih =>
    refine .ref (.alt (e := ref .blockStat) (by simp) (.ref ?_))
    exact .cons (.token ht) (.cons (.ref ih) (.last (.token hu)))
  | declare ht _ _ ihn ihi =>
    refine .ref (.alt (e := ref .varDeclStat) (by simp) (.ref ?_))
    refine .cons (.oneOf ht) (.cons (.ref ihn) (.last (ihi.opt_imp fun h => ?_)))
    obtain ⟨m, hm, h⟩ := begins_seq_cons.1 h
    exact .cons hm (.last (.ref (begins_seq_one.1 h)))
  | branch ht _ _ ihc =>
    refine .ref (.alt (e := ref .ifStat) (by simp) (.ref (.cons (.token ht) ?_)))
    exact .append [_, _, _, _] ihc (.last (begins_opt.2 (.inl rfl)))
  | branchElse ht _ hu _ ihc ihb =>
    refine .ref (.alt (e := ref .ifStat) (by simp) (.ref (.cons (.token ht) ?_)))
    exact .append [_, _, _, _] ihc (.last (begins_opt.2 (.inr (.cons (.token hu) ihb))))
  | switch ht _ _ hu _ _ ihe ihk ihc =>
    refine .ref (.alt (e := ref .switchStat) (by simp) (.ref (.cons (.token ht) (.cons ihe ?_))))
    obtain ⟨m, hm, hc⟩ := Begins.split [_, _, _] ihc
    refine .cons ihk (.cons (m := m) (.cons (.token hu) hm) ?_)
    exact .append [_] hc (.last (begins_opt.2 (.inl rfl)))
  | switchDefault ht _ _ hu _ hv _ ihe ihk ihc ihb =>
    refine .ref (.alt (e := ref .switchStat) (by simp) (.ref (.cons (.token ht) (.cons ihe ?_))))
    obtain ⟨m, hm, hc⟩ := Begins.split [_, _, _] ihc
    refine .cons ihk (.cons (m := m) (.cons (.token hu) hm) ?_)
    exact .append [_] hc (.last (begins_opt.2 (.inr (.cons (.token hv) ihb))))
  | repeatUntil ht _ hu _ ihb ihc =>
    refine .ref (.alt (e := ref .repeatStat) (by simp) (.ref (.cons (.token ht) ?_)))
    exact .append [_, _] ihb (.cons (.token hu) ihc.last)
  | whileLoop ht _ _ ihc ihb =>
    refine .ref (.alt (e := ref .whileStat) (by simp) (.ref ?_))
    exact .cons (.token ht) (.cons ihc ihb)
  | forRange ht _ hu _ hv _ _ _ ihx ihs ihe ihd ihb =>
    refine .ref (.alt (e := ref .forloopStat) (by simp) (.ref (.cons (.token ht) (.cons ihx ?_))))
    exact .cons (.token hu) (.cons ihs (.cons (.token hv) (.cons ihe (.cons ihd ihb))))
  | forEach ht _ _ hu _ _ ihx ihy ihe ihb =>
    refine .ref (.alt (e := ref .foreachStat) (by simp) (.ref (.cons (.token ht) (.cons ihx ?_))))
    exact .cons ihy (.cons (.token hu) (.cons ihe ihb))
  | breakLoop ht => exact .ref (.alt (e := ref .breakStat) (by simp) (.ref (.token ht)))
  | continueLoop ht => exact .ref (.alt (e := ref .continueStat) (by simp) (.ref (.token ht)))
  | funcStat ht _ _ ihx ihf =>
    refine .ref (.alt (e := ref .funcDeclStat) (by simp) (.ref ?_))
    exact .cons (.token ht) (.cons ihx ihf.last)
  | returnNone ht hu =>
    refine .ref (.alt (e := ref .returnStat) (by simp) (.ref (.cons (.token ht) (.last ?_))))
    exact .alt (.tail _ (.head _)) (.token hu)
  | returnValue ht _ ih =>
    refine .ref (.alt (e := ref .returnStat) (by simp) (.ref (.cons (.token ht) (.last ?_))))
    exact .alt (.head _) ih
  | assign _ ht _ iha ihe =>
    refine .ref (.alt (e := ref .assignStat) (by simp) (.ref ?_))
    exact .append [_, _] iha (.cons (.token ht) (.last (.ref ihe)))
  | update _ ht _ iha ihe =>
    refine .ref (.alt (e := ref .compoundassignStat) (by simp) (.ref ?_))
    exact .cons iha (.cons (.ref (.oneOf ht)) ihe.last)
  | callStat _ ih => exact .ref (.alt (e := ref .funcCallStat) (by simp) (.ref ih))

end TinyScript
