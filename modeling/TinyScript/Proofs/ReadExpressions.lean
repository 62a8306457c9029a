import TinyScript.Proofs.Wording

/-!
# What is read when an expression is

The tokens that an expression is read from spell it, for a place of the strength of the piece that it is
read as (`spells_of_reads`). That is the converse of building an expression from its spelling. It is shown
of the expressions that can be written (`Node.printed`): trees with functions, lists, sets, maps or
accesses to them are left out.
-/

namespace TinyScript

open Lexeme Precedence Parse
open List hiding chains

variable {e : Node} {c : Nat} {p : Piece} {ns : List Node} {l l' v : List Token}

namespace Node

mutual

/-- The expression is made of choices, operators, calls of names, names and simple literals. -/
def printed : Node → Bool
  | .select cond yes no _ => cond.printed && yes.printed && no.printed
  | .binary _ left right _ => left.printed && right.printed
  | .unary _ operand _ => operand.printed
  | .call callee args _ => callee.ident?.isSome && printedOpt args
  | .name .. | .number .. | .string .. | .bool .. | .null _ => true
  | _ => false

def printedAll : List Node → Bool
  | [] => true
  | e :: es => e.printed && printedAll es

def printedOpt : Option (List Node) → Bool
  | none => true
  | some es => printedAll es

end

@[simp] theorem printedAll_eq (es : List Node) : printedAll es = es.all printed := by
  induction es with
  | nil => rfl
  | cons e es ih => rw [printedAll, ih, all_cons]

@[simp] theorem printedOpt_eq (es : Option (List Node)) :
    printedOpt es = (es.getD []).all printed := by
  cases es with
  | none => rfl
  | some es => rw [printedOpt, printedAll_eq, Option.getD_some]

theorem printed_of_ident? (h : e.ident?.isSome = true) : e.printed = true := by
  cases e with
  | name => rfl
  | _ => cases h

end Node

/-! ### Feeds of texts -/

theorem Lexeme.Scanned.eq_mk {l : Lexeme} (h : l.Scanned) (hk : l.kind ≠ .eof) :
    l = ⟨l.kind, some (l.text.getD "")⟩ := by
  obtain ⟨span, rest, hs, -⟩ := h.resolve_left hk
  cases hs <;> rfl

section

variable {t : Token} {l : List Token} {k : TokenKind}

theorem AllIn.lexeme_mk (h : AllIn Scanned (t :: l)) (hk : t.kind = k) (hne : k ≠ .eof) :
    t.lexeme = ⟨k, some (t.text.getD "")⟩ := by
  subst hk
  exact (h t mem_cons_self).eq_mk hne

theorem AllIn.lexeme_of (h : AllIn Scanned (t :: l)) (hk : t.kind = k)
    (hne : k ∉ [.eof, .identifier, .intLiteral, .floatLiteral, .stringLiteral]) : t.lexeme = of k := by
  subst hk
  exact (h t mem_cons_self).eq_of hne

end

/-! ### Pieces that are expressions -/

namespace Grammar

theorem not_mem_plain_of_mem_operators {op : TokenKind} (h : op ∈ operators c) :
    op ∉ [.eof, .identifier, .intLiteral, .floatLiteral, .stringLiteral] := by
  have hall : ∀ c < closed, ∀ op ∈ operators c,
      op ∉ [.eof, .identifier, .intLiteral, .floatLiteral, .stringLiteral] := by decide
  exact hall c (lt_of_mem_operators h) op h

end Grammar

namespace Piece

/-- The strength of the place that an expression is read for. -/
def strength : Piece → Nat
  | .name | .place => path
  | .call | .primary => closed
  | .unary => sign
  | .chain _ p | .once _ p => p.strength - 1
  | _ => choice

/-- The operators are those of the strength. -/
def isLayered : Piece → Bool
  | .name | .place | .call | .primary | .unary | .expr => true
  | .chain ops p => p.strength - 1 ∈ chains && ops = operators (p.strength - 1) && p.isLayered
  | .once ops p => p.strength - 1 = comparison && ops = operators comparison && p.isLayered
  | _ => false

open Node in
/-- Of an expression that can be written, the tokens spell it. -/
def Spells : Piece → List Node → List Lexeme → Prop
  | .function, ns, _ => Alone (·.printed = false) ns
  | .after _ p, ns, _ => ∃ v, Spells p ns v
  | .opt p, ns, w => Spells p ns w ∨ ns = [] ∧ w = []
  | .commas p, ns, w => ∃ items : List (Node × List Lexeme), ns = items.map (·.1) ∧
      w = Lexeme.commas (items.map (·.2)) ∧ ∀ i ∈ items, Spells p [i.1] i.2
  | p, ns, w => p.isLayered = true → Alone (fun e => e.printed = true → Written p.strength e w) ns

variable {p : Piece} {ops : List TokenKind} {e : Node} {ns : List Node} {w : List Lexeme}

theorem Spells.written (h : p.Spells [e] w) (hp : p.isLayered = true) (he : e.printed = true) :
    Written p.strength e w := by
  cases p with
  | function | after | opt | commas => cases hp
  | _ => exact h hp he

theorem isLayered_chain (h : (Piece.chain ops p).isLayered = true) :
    ∃ c ∈ chains, p.strength = c + 1 ∧ ops = operators c ∧ p.isLayered = true := by
  simp only [isLayered, Bool.and_eq_true, decide_eq_true_eq] at h
  obtain ⟨⟨hc, hops⟩, hp⟩ := h
  refine ⟨_, hc, ?_, hops, hp⟩
  have hpos : ∀ c ∈ chains, 0 < c := by decide
  have := hpos _ hc
  omega

theorem isLayered_once (h : (Piece.once ops p).isLayered = true) :
    p.strength = comparison + 1 ∧ ops = operators comparison ∧ p.isLayered = true := by
  simp only [isLayered, Bool.and_eq_true, decide_eq_true_eq] at h
  obtain ⟨⟨hc, hops⟩, hp⟩ := h
  refine ⟨?_, hops, hp⟩
  unfold comparison at hc ⊢
  omega

theorem Spells.args (h : (Piece.opt (.commas .expr)).Spells ns w)
    (hp : ∀ e ∈ (given ns).getD [], e.printed = true) :
    ∃ args : Option (List (Node × List Lexeme)), args ≠ some [] ∧
      given ns = args.map (List.map (·.1)) ∧ w = Lexeme.commas ((args.getD []).map (·.2)) ∧
      ∀ i ∈ args.getD [], Written choice i.1 i.2 := by
  rw [getD_given] at hp
  rcases h with ⟨items, rfl, rfl, hitems⟩ | ⟨rfl, rfl⟩
  · cases items with
    | nil => exact ⟨none, by simp, rfl, rfl, by simp⟩
    | cons i items =>
      refine ⟨some (i :: items), by simp, rfl, rfl, fun j hj => ?_⟩
      exact (hitems j hj).written rfl (hp _ (mem_map_of_mem hj))
  · exact ⟨none, by simp, rfl, rfl, by simp⟩

end Piece

/-- From the spelling of all tokens between `l` and `l'`. -/
theorem Reads.span {S : List Lexeme → Prop} (h : Reads p l ns l')
    (hS : ∀ v, l = v ++ l' → S (v.map Token.lexeme)) : ∃ v, l = v ++ l' ∧ S (v.map Token.lexeme) := by
  obtain ⟨v, hv⟩ := h.suffix
  exact ⟨v, hv.symm, hS v hv.symm⟩

theorem Lexeme.commas_concat {ws : List (List Lexeme)} (h : ws ≠ []) (w : List Lexeme) :
    commas (ws ++ [w]) = commas ws ++ of .comma :: w := by
  cases ws with
  | nil => exact absurd rfl h
  | cons v ws => simp [commas]

theorem eq_of_append (w : List Token) (h : w ++ l = v ++ l) : w = v :=
  append_cancel_right h

theorem eq_singleton {t : Token} (h : t :: l = v ++ l) : v = [t] :=
  (eq_of_append [t] h).symm

theorem left_of_mem_chains (h : c ∈ chains) : left c = c ∧ c < path := by
  have hall : ∀ c ∈ chains, left c = c ∧ c < path := by decide
  exact hall c h

open Node Piece in
/-- Tokens from which an expression that can be written is read spell it. -/
theorem spells_of_reads (h : Reads p l ns l') (hl : AllIn Scanned l) (hv : l = v ++ l') :
    p.Spells ns (v.map Token.lexeme) := by
  induction h generalizing v with
  | after ht hp ih =>
    obtain ⟨v, hv, hs⟩ := hp.span fun v => ih (v := v) hl.tail
    exact ⟨_, hs⟩
  | absent => exact .inr ⟨rfl, by simpa using hv⟩
  | present _ ih => exact .inl (ih hl hv)
  | one _ ih => exact ⟨[(_, _)], rfl, by simp [Lexeme.commas], forall_mem_singleton.2 (ih hl hv)⟩
  | @more _ _ _ _ _ x _ h ht hx ih ihx =>
    obtain ⟨v₁, rfl, items, rfl, hw, hitems⟩ := h.span fun v => ih (v := v) hl
    obtain ⟨v₂, rfl, hs⟩ := hx.span fun v => ihx (v := v) (hl.after h).tail
    have hc := (hl.after h).lexeme_of ht (by decide)
    obtain rfl := eq_of_append (v₁ ++ _ :: v₂) (by simpa using hv)
    refine ⟨items ++ [(x, v₂.map Token.lexeme)], by simp, ?_, ?_⟩
    · have hne : items.map (·.2) ≠ [] := by simpa using h.ne_nil
      rw [map_append, map_cons, hc, hw, map_append, map_singleton,
        commas_concat hne]
    · exact forall_mem_append.2 ⟨hitems, forall_mem_singleton.2 hs⟩
  -- places and functions
  | name ht =>
    obtain rfl := eq_singleton hv
    intro _ _
    rw [map_singleton, hl.lexeme_mk ht (by decide)]
    exact .name
  | base _ ih => exact fun _ => ih hl hv rfl
  | item | field => exact fun _ he => by cases he
  | function => rfl
  | call hp hf ht ha hu ihf iha =>
    intro _ he
    rw [printed, printedOpt_eq, Bool.and_eq_true, all_eq_true] at he
    have hl₁ := hl.after hf
    obtain ⟨v₁, rfl, hs⟩ := hf.span fun v => ihf (v := v) hl
    obtain ⟨v₂, rfl, hargs⟩ := ha.span fun v => iha (v := v) hl₁.tail
    obtain ⟨args, hne, hgiven, hw, hargs⟩ := hargs.args he.2
    obtain rfl := eq_of_append (v₁ ++ _ :: (v₂ ++ [_])) (by simpa using hv)
    rcases hp with rfl | rfl
    · have hclose := (hl₁.tail.after ha).lexeme_of hu (by decide)
      rw [hgiven, map_append, map_cons, map_append, map_singleton, hw, hclose,
        hl₁.lexeme_of ht (by decide)]
      exact .call (hs rfl (printed_of_ident? he.1)) hne hargs
    · obtain ⟨_, hf⟩ := hs
      exact absurd (printed_of_ident? he.1) (by simp [show _ = false from hf])
  -- operands
  | int ht =>
    obtain rfl := eq_singleton hv
    intro _ _
    rw [map_singleton, hl.lexeme_mk ht (by decide)]
    exact .literal .int
  | float ht =>
    obtain rfl := eq_singleton hv
    intro _ _
    rw [map_singleton, hl.lexeme_mk ht (by decide)]
    exact .literal .float
  | string ht =>
    obtain rfl := eq_singleton hv
    intro _ _
    rw [map_singleton, hl.lexeme_mk ht (by decide)]
    exact .literal .string
  | bool ht =>
    obtain rfl := eq_singleton hv
    intro _ _
    simp only [mem_cons, not_mem_nil, or_false] at ht
    rcases ht with ht | ht
    all_goals
      have hof := hl.lexeme_of ht (by decide)
      rw [map_singleton, hof, show Token.text _ = _ from congrArg Lexeme.text hof]
    · exact .literal .true
    · exact .literal .false
  | null ht =>
    obtain rfl := eq_singleton hv
    intro _ _
    rw [map_singleton, hl.lexeme_of ht (by decide)]
    exact .literal .null
  | paren ht he hu ih =>
    intro _ hp
    obtain ⟨v₁, rfl, hs⟩ := he.span fun v => ih (v := v) hl.tail
    obtain rfl := eq_of_append (_ :: (v₁ ++ [_])) (by simpa using hv)
    rw [map_cons, map_append, map_singleton, hl.lexeme_of ht (by decide),
      (hl.tail.after he).lexeme_of hu (by decide)]
    exact .paren (hs rfl hp)
  | listOf | mapNone | mapOf | setOf => exact fun _ he => by cases he
  | operand hp _ ih =>
    intro _ he
    rcases hp with rfl | rfl | rfl
    · exact .weaken (by decide) (ih hl hv rfl he)
    · obtain ⟨_, hf⟩ := ih hl hv
      exact absurd he (by simp [show _ = false from hf])
    · exact ih hl hv rfl he
  -- operators
  | first _ ih =>
    intro hlay he
    obtain ⟨c, hc, hstrength, -, hp⟩ := isLayered_chain hlay
    have hw := (ih hl hv).written hp he
    rw [hstrength] at hw
    rw [Piece.strength, hstrength]
    exact .weaken (left_of_mem_chains hc).2 hw
  | next ha ht hb iha ihb =>
    intro hlay he
    obtain ⟨c, hc, hstrength, rfl, hp⟩ := isLayered_chain hlay
    rw [printed, Bool.and_eq_true] at he
    have hl₁ := hl.after ha
    obtain ⟨v₁, rfl, hleft⟩ := ha.span fun v => iha (v := v) hl
    obtain ⟨v₂, rfl, hright⟩ := hb.span fun v => ihb (v := v) hl₁.tail
    obtain rfl := eq_of_append (v₁ ++ _ :: v₂) (by simpa using hv)
    have hw₁ := hleft hlay he.1
    have hw₂ := hright.written hp he.2
    rw [hstrength] at hw₂
    rw [Piece.strength, hstrength] at hw₁ ⊢
    rw [map_append, map_cons, hl₁.lexeme_of rfl (Grammar.not_mem_plain_of_mem_operators ht)]
    exact .binary ht ((left_of_mem_chains hc).1.symm ▸ hw₁) hw₂
  | lone _ ih =>
    intro hlay he
    obtain ⟨hstrength, -, hp⟩ := isLayered_once hlay
    have hw := (ih hl hv).written hp he
    rw [hstrength] at hw
    rw [Piece.strength, hstrength]
    exact .weaken (by decide) hw
  | compare ha ht hb iha ihb =>
    intro hlay he
    obtain ⟨hstrength, rfl, hp⟩ := isLayered_once hlay
    rw [printed, Bool.and_eq_true] at he
    have hl₁ := hl.after ha
    obtain ⟨v₁, rfl, hleft⟩ := ha.span fun v => iha (v := v) hl
    obtain ⟨v₂, rfl, hright⟩ := hb.span fun v => ihb (v := v) hl₁.tail
    obtain rfl := eq_of_append (v₁ ++ _ :: v₂) (by simpa using hv)
    have hw₁ := hleft.written hp he.1
    have hw₂ := hright.written hp he.2
    rw [hstrength] at hw₁ hw₂
    rw [Piece.strength, hstrength, map_append, map_cons,
      hl₁.lexeme_of rfl (Grammar.not_mem_plain_of_mem_operators ht)]
    exact .binary ht hw₁ hw₂
  | unsigned _ ih => exact fun _ he => .weaken (by decide) ((ih hl hv).written rfl he)
  | signed ht h ih =>
    intro _ he
    obtain ⟨v₁, rfl, hs⟩ := h.span fun v => ih (v := v) hl.tail
    obtain rfl := eq_of_append (_ :: v₁) (by simpa using hv)
    have hne : ∀ op ∈ TokenKind.unaries,
        op ∉ [.eof, .identifier, .intLiteral, .floatLiteral, .stringLiteral] := by decide
    rw [map_cons, hl.lexeme_of rfl (hne _ ht)]
    exact .unary ht (hs rfl he)
  | plain _ ih => exact fun _ he => .weaken (by decide) ((ih hl hv).written rfl he)
  | select hc ht hy hu hn ihc ihy ihn =>
    intro _ he
    rw [printed, Bool.and_eq_true, Bool.and_eq_true] at he
    have hl₁ := hl.after hc
    have hl₂ := hl₁.tail.after hy
    obtain ⟨v₁, rfl, hs₁⟩ := hc.span fun v => ihc (v := v) hl
    obtain ⟨v₂, rfl, hs₂⟩ := hy.span fun v => ihy (v := v) hl₁.tail
    obtain ⟨v₃, rfl, hs₃⟩ := hn.span fun v => ihn (v := v) hl₂.tail
    obtain rfl := eq_of_append (v₁ ++ _ :: (v₂ ++ _ :: v₃)) (by simpa using hv)
    rw [map_append, map_cons, map_append, map_cons, hl₁.lexeme_of ht (by decide),
      hl₂.lexeme_of hu (by decide)]
    exact .select (hs₁.written rfl he.1.1) (hs₂ rfl he.1.2) (hs₃ rfl he.2)
  -- other pieces are no expressions
  | _ => exact fun hp => by cases hp

/-- An expression at the beginning of a text is read from its spelling. -/
theorem written_of_run {src : String} {s s' : Feed} (hs : Feed.ofSource src = .ok s)
    (hrun : Parse.run (fun n => (Grammar.rules n).expr) s = .ok e s') (he : e.printed = true) :
    ∃ w, s.lexemes = w ++ s'.lexemes ∧ Written choice e w := by
  obtain ⟨-, hread⟩ := ((Grammar.read_rules _).expr s).of_ok (proper_of_source hs) hrun
  obtain ⟨v, hv⟩ := hread.suffix
  refine ⟨v.map Token.lexeme, ?_, spells_of_reads hread (allIn_of_source hs) hv.symm rfl he⟩
  exact (congrArg (List.map Token.lexeme) hv.symm).trans map_append

end TinyScript
