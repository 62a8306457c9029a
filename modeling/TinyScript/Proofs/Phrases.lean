import TinyScript.Proofs.ReadExpressions

/-!
# Phrases

The tokens of a written expression are a phrase: operands, each with the prefix operators before it, and
between them operators or the middle part of a choice. A phrase need not be the spelling of an expression:
there are no parentheses in it, so that comparisons may come one after the other, and a string or a prefix
operator may stand right after a word. What is read from a phrase as an expression is spelled by the phrase,
or the reading has stopped before a token that no statement begins with (`Reads.phrase`).
-/

namespace TinyScript

open Lexeme Precedence TokenKind
open List hiding chains

variable {p : Piece} {l m z : List Token} {e : Node} {ns : List Node} {ws : List (List Lexeme)}
  {w : List Lexeme}

/-- The binary operators. -/
def TokenKind.binaries : List TokenKind := .pow :: Grammar.levels.flatMap (·.ops)

/-- What part of a phrase it is: an operand, what comes after one, or both. -/
inductive Spot
  | operand | tail | whole
deriving DecidableEq

/-- The tokens are part of a phrase. -/
inductive Flat : Spot → List Lexeme → Prop
  | literal {e : Node} {l : Lexeme} (h : Literal e l) : Flat .operand [l]
  | name {x : String} : Flat .operand [⟨.identifier, some x⟩]
  | call {x : String} {args : List (List Lexeme)} (h : ∀ w ∈ args, Flat .whole w) :
      Flat .operand (⟨.identifier, some x⟩ :: of .lparen :: (commas args ++ [of .rparen]))
  | signed {op : TokenKind} {w : List Lexeme} (hop : op ∈ TokenKind.unaries)
      (hnot : op = .kwNot → ∀ l ∈ w.head?, l.kind ∈ [.stringLiteral, .add, .sub, .len, .bnot])
      (h : Flat .operand w) : Flat .operand (of op :: w)
  | nil : Flat .tail []
  | op {op : TokenKind} {w : List Lexeme} (hop : op ∈ TokenKind.binaries) (h : Flat .whole w) :
      Flat .tail (of op :: w)
  | choice {w v : List Lexeme} (h : Flat .whole w) (h' : Flat .whole v) :
      Flat .tail (of .query :: (w ++ of .colon :: v))
  /-- A token that does not go on with the phrase, and anything after it. -/
  | stray {l : Lexeme} {t : List Lexeme} (hl : l.kind ∈ [.stringLiteral, .len, .bnot]) :
      Flat .tail (l :: t)
  | whole {o t : List Lexeme} (ho : Flat .operand o) (ht : Flat .tail t) : Flat .whole (o ++ t)

/-- An operand and what comes after it. -/
abbrev Phrase (w : List Lexeme) : Prop := Flat .whole w

namespace Flat

variable {r : Spot} {w t u : List Lexeme}

theorem append (h : Flat r t) (hr : r ≠ .operand) (hu : Flat .tail u) : Flat r (t ++ u) := by
  induction h with
  | literal | name | call | signed => exact absurd rfl hr
  | nil => exact hu
  | op hop _ ih => exact .op hop (ih (by decide))
  | choice h _ _ ih =>
    rw [cons_append, List.append_assoc]
    exact .choice h (ih (by decide))
  | stray hl => exact .stray hl
  | whole ho _ _ ih =>
    rw [List.append_assoc]
    exact .whole ho (ih (by decide))

theorem alone (h : Flat .operand w) : Phrase w := by simpa using Flat.whole h .nil

theorem prefixed {op : TokenKind} (h : Phrase w) (hop : op ∈ unaries) (hnot : op ≠ .kwNot) :
    Phrase (of op :: w) := by
  cases h with
  | whole ho ht => exact .whole (.signed hop (fun h => absurd h hnot) ho) ht

theorem kind_of_operand (h : Flat .operand w) : ∃ l v, w = l :: v ∧ l.kind ∈ unaries ++
    [.intLiteral, .floatLiteral, .stringLiteral, .kwTrue, .kwFalse, .kwNull, .identifier] := by
  cases h with
  | literal h =>
    refine ⟨_, _, rfl, ?_⟩
    cases h <;> simp [of]
  | name | call => exact ⟨_, _, rfl, by simp⟩
  | signed hop => exact ⟨_, _, rfl, mem_append_left _ hop⟩

/-- An operand that begins with a prefix operator is one with the operator before it. -/
theorem of_signed {l : Lexeme} (h : Flat .operand (l :: w)) (hl : l.kind ∈ unaries) :
    l = of l.kind ∧ Flat .operand w := by
  cases h with
  | literal h => cases h <;> simp [of, unaries] at hl
  | name | call => simp [unaries] at hl
  | signed _ _ h => exact ⟨rfl, h⟩

end Flat

/-! ### Where a reading stops -/

/-- What is left of a phrase where a reading may stop in it. -/
inductive Remainder : List Lexeme → Prop
  | tail {t : List Lexeme} (h : Flat .tail t) : Remainder t
  | args {ws : List (List Lexeme)} {t : List Lexeme} (hws : ∀ w ∈ ws, Phrase w) (h : Flat .tail t) :
      Remainder (of .lparen :: (commas ws ++ of .rparen :: t))

/-- The tokens before which a reading may stop in a phrase. -/
def TokenKind.jams : List TokenKind := [.lparen, .query, .stringLiteral, .len, .bnot] ++ TokenKind.binaries

namespace Remainder

variable {v : List Lexeme} {k : TokenKind} {t : Token} {l z : List Token}

theorem kind (h : Remainder v) : v = [] ∨ ∃ l v', v = l :: v' ∧ l.kind ∈ TokenKind.jams := by
  cases h with
  | args => exact .inr ⟨_, _, rfl, by decide⟩
  | tail h =>
    cases h with
    | nil => exact .inl rfl
    | op hop => exact .inr ⟨_, _, rfl, mem_append_right _ hop⟩
    | choice => exact .inr ⟨_, _, rfl, by decide⟩
    | stray hl =>
      have hall : ∀ k ∈ [.stringLiteral, .len, .bnot], k ∈ TokenKind.jams := by decide
      exact .inr ⟨_, _, rfl, hall _ hl⟩

theorem cases_of (h : Remainder v) : v = [] ∨ StartsIn TokenKind.jams (v.map token ++ z) := by
  rcases h.kind with rfl | ⟨l, v, rfl, hl⟩
  · exact .inl rfl
  · exact .inr ⟨_, _, rfl, hl⟩

theorem eq_nil (h : Remainder v) (he : t :: l = v.map token ++ z) (ht : t.kind ∉ TokenKind.jams) : v = [] := by
  rcases h.kind with rfl | ⟨l, v, rfl, hl⟩
  · rfl
  · obtain ⟨rfl, -⟩ := List.cons.inj he
    exact absurd hl ht

/-- Before a token that goes on with an expression come a phrase, two phrases, or arguments. -/
theorem next (h : Remainder v) (hz : Stops (continuing choice) z) (he : t :: l = v.map token ++ z)
    (ht : t.kind ∈ continuing choice) :
    (∃ w, t.kind ∈ TokenKind.binaries ∧ Phrase w ∧ v = of t.kind :: w ∧ l = w.map token ++ z) ∨
    (∃ w w', t.kind = .query ∧ Phrase w ∧ Phrase w' ∧ v = of .query :: (w ++ of .colon :: w') ∧
      l = w.map token ++ (of .colon).token :: (w'.map token ++ z)) ∨
    ∃ ws u, t.kind = .lparen ∧ (∀ w ∈ ws, Phrase w) ∧ Flat .tail u ∧
      v = of .lparen :: (commas ws ++ of .rparen :: u) ∧
      l = (commas ws).map token ++ (of .rparen).token :: (u.map token ++ z) := by
  cases h with
  | args hws h =>
    obtain ⟨rfl, rfl⟩ := List.cons.inj he
    exact .inr (.inr ⟨_, _, rfl, hws, h, rfl, by simp⟩)
  | tail h =>
    cases h with
    | nil =>
      subst he
      exact absurd ht (hz t rfl)
    | op hop hw =>
      obtain ⟨rfl, rfl⟩ := List.cons.inj he
      exact .inl ⟨_, hop, hw, rfl, rfl⟩
    | choice hw hw' =>
      obtain ⟨rfl, rfl⟩ := List.cons.inj he
      exact .inr (.inl ⟨_, _, rfl, hw, hw', rfl, by simp⟩)
    | stray hl =>
      have hno : ∀ k ∈ [.stringLiteral, .len, .bnot], k ∉ continuing choice := by decide
      obtain ⟨rfl, -⟩ := List.cons.inj he
      exact absurd ht (hno _ hl)

theorem op (h : Remainder v) (hz : Stops (continuing choice) z) (he : t :: l = v.map token ++ z)
    (ht : t.kind ∈ TokenKind.binaries) : ∃ w, Phrase w ∧ v = of t.kind :: w ∧ l = w.map token ++ z := by
  have hgo : ∀ k ∈ TokenKind.binaries, k ∈ continuing choice ∧ k ≠ .query ∧ k ≠ .lparen := by decide
  rcases h.next hz he (hgo _ ht).1 with ⟨w, -, h⟩ | ⟨_, _, hk, -⟩ | ⟨_, _, hk, -⟩
  · exact ⟨w, h⟩
  · exact absurd hk (hgo _ ht).2.1
  · exact absurd hk (hgo _ ht).2.2

theorem query (h : Remainder v) (hz : Stops (continuing choice) z) (he : t :: l = v.map token ++ z)
    (ht : t.kind = .query) : ∃ w w', Phrase w ∧ Phrase w' ∧ v = of .query :: (w ++ of .colon :: w') ∧
      l = w.map token ++ (of .colon).token :: (w'.map token ++ z) := by
  rcases h.next hz he (by rw [ht]; decide) with ⟨w, hk, -⟩ | ⟨w, w', -, h⟩ | ⟨_, _, hk, -⟩
  · rw [ht] at hk
    exact absurd hk (by decide)
  · exact ⟨w, w', h⟩
  · cases ht.symm.trans hk

theorem lparen (h : Remainder v) (hz : Stops (continuing choice) z) (he : t :: l = v.map token ++ z)
    (ht : t.kind = .lparen) : ∃ ws u, (∀ w ∈ ws, Phrase w) ∧ Flat .tail u ∧
      v = of .lparen :: (commas ws ++ of .rparen :: u) ∧
      l = (commas ws).map token ++ (of .rparen).token :: (u.map token ++ z) := by
  rcases h.next hz he (by rw [ht]; decide) with ⟨w, hk, -⟩ | ⟨_, _, hk, -⟩ | ⟨ws, u, -, h⟩
  · rw [ht] at hk
    exact absurd hk (by decide)
  · cases ht.symm.trans hk
  · exact ⟨ws, u, h⟩

end Remainder

section First

variable {w : List Lexeme} {t : Token} {l z : List Token}

theorem Flat.kind (hw : Phrase w) (he : t :: l = w.map token ++ z) : t.kind ∈ unaries ++
    [.intLiteral, .floatLiteral, .stringLiteral, .kwTrue, .kwFalse, .kwNull, .identifier] := by
  cases hw with
  | whole ho =>
    obtain ⟨m, v, rfl, hm⟩ := ho.kind_of_operand
    obtain ⟨rfl, -⟩ := List.cons.inj he
    exact hm

theorem Flat.first (hw : Phrase w) (he : t :: l = w.map token ++ z) :
    (∃ e m v, Literal e m ∧ t = m.token ∧ w = m :: v ∧ Flat .tail v ∧ l = v.map token ++ z) ∨
    (∃ x v, t = token ⟨.identifier, some x⟩ ∧ w = ⟨.identifier, some x⟩ :: v ∧ Remainder v ∧
      l = v.map token ++ z) ∨
    ∃ v, t.kind ∈ unaries ∧ w = of t.kind :: v ∧ Phrase v ∧ l = v.map token ++ z := by
  cases hw with
  | whole ho ht =>
    cases ho with
    | literal h =>
      obtain ⟨rfl, rfl⟩ := List.cons.inj he
      exact .inl ⟨_, _, _, h, rfl, rfl, ht, rfl⟩
    | name =>
      obtain ⟨rfl, rfl⟩ := List.cons.inj he
      exact .inr (.inl ⟨_, _, rfl, rfl, .tail ht, rfl⟩)
    | call hws =>
      obtain ⟨rfl, rfl⟩ := List.cons.inj he
      refine .inr (.inl ⟨_, _, rfl, rfl, ?_, rfl⟩)
      simpa using Remainder.args hws ht
    | signed hop _ ho =>
      obtain ⟨rfl, rfl⟩ := List.cons.inj he
      exact .inr (.inr ⟨_, hop, rfl, .whole ho ht, rfl⟩)

/-- A token that is no name and no operator is a literal. -/
theorem Flat.literal_of (hw : Phrase w) (he : t :: l = w.map token ++ z)
    (ht : t.kind ∉ .identifier :: unaries) :
    ∃ e m v, Literal e m ∧ t = m.token ∧ w = m :: v ∧ Flat .tail v ∧ l = v.map token ++ z := by
  rcases hw.first he with h | ⟨x, v, rfl, -⟩ | ⟨v, hop, -⟩
  · exact h
  · exact absurd mem_cons_self ht
  · exact absurd (mem_cons_of_mem _ hop) ht

end First

/-! ### Reading a phrase -/

open Node in
/-- What is read of phrases with commas between them, or of one phrase. -/
def Grasps : Piece → List Token → List Node → List Token → Prop
  | .opt p, l, ns, m => Grasps p l ns m ∨ ns = [] ∧ m = l
  | .commas p, l, ns, m => p.isLayered = true → ∀ ws z, ws ≠ [] → (∀ w ∈ ws, Phrase w) →
      Stops (.comma :: continuing choice) z → l = (Lexeme.commas ws).map token ++ z →
      StartsIn TokenKind.jams m ∨ ∃ (items : List (Node × List Lexeme)) (ws' : List (List Lexeme)),
        ns = items.map (·.1) ∧ ws = items.map (·.2) ++ ws' ∧ (∀ i ∈ items, Written p.strength i.1 i.2) ∧
        m = (ws'.flatMap (of .comma :: ·)).map token ++ z
  | p, l, ns, m => p.isLayered = true → ∀ w z, Phrase w → Stops (continuing choice) z →
      l = w.map token ++ z → ∃ u v, w = u ++ v ∧ m = v.map token ++ z ∧ Remainder v ∧
        Alone (Written p.strength · u) ns

open Node in
theorem Grasps.phrase (h : Grasps p l [e] m) (hp : p.isLayered = true) (w : List Lexeme) (z : List Token)
    (hw : Phrase w) (hz : Stops (continuing choice) z) (hl : l = w.map token ++ z) :
    ∃ u v, w = u ++ v ∧ m = v.map token ++ z ∧ Remainder v ∧ Written p.strength e u := by
  cases p with
  | opt | commas => cases hp
  | _ => exact h hp w z hw hz hl

/-- Before the rest of a list comes a token that goes on with no expression. -/
theorem stops_commas (ws : List (List Lexeme)) (hz : Stops (.comma :: continuing choice) z) :
    Stops (continuing choice) ((ws.flatMap (of .comma :: ·)).map token ++ z) := by
  cases ws with
  | nil => exact hz.mono (subset_cons_self _ _)
  | cons => exact .cons (by decide)

theorem Reads.opt_cases (h : Reads (.opt p) l ns m) : ns = [] ∧ l = m ∨ Reads p l ns m := by
  cases h with
  | absent => exact .inl ⟨rfl, rfl⟩
  | present h => exact .inr h

theorem Grasps.args {u : Token}
    (h : Grasps (.opt (.commas .expr)) ((commas ws).map token ++ (of .rparen).token :: z) ns (u :: m))
    (hr : Reads (.opt (.commas .expr)) ((commas ws).map token ++ (of .rparen).token :: z) ns (u :: m))
    (hws : ∀ w ∈ ws, Phrase w) (hu : u.kind = .rparen) :
    ∃ args : Option (List (Node × List Lexeme)), args ≠ some [] ∧ given ns = args.map (List.map (·.1)) ∧
      ws = (args.getD []).map (·.2) ∧ (∀ i ∈ args.getD [], Written choice i.1 i.2) ∧ m = z := by
  cases ws with
  | nil =>
    rcases hr.opt_cases with ⟨rfl, hm⟩ | hr
    · exact ⟨none, by simp, rfl, rfl, by simp, (List.cons.inj hm).2.symm⟩
    · obtain ⟨t, l, hl, ht⟩ := hr.startsIn rfl
      obtain ⟨rfl, -⟩ := List.cons.inj hl
      exact absurd ht (by decide)
  | cons w ws =>
    rcases h with h | ⟨-, hm⟩
    · rcases h rfl (w :: ws) _ (cons_ne_nil _ _) hws (.cons (by decide)) rfl with
        ⟨t, l, hl, ht⟩ | ⟨items, ws', rfl, hw, hs, hm⟩
      · obtain ⟨rfl, -⟩ := List.cons.inj hl
        rw [hu] at ht
        exact absurd ht (by decide)
      · cases ws' with
        | cons =>
          obtain ⟨rfl, -⟩ := List.cons.inj hm
          cases hu
        | nil =>
          have hne : items ≠ [] := by
            rintro rfl
            cases hw
          refine ⟨some items, by simpa using hne, given_of_ne_nil (by simpa using hne), by simpa using hw, hs, ?_⟩
          exact (List.cons.inj hm).2
    · rw [commas, map_append, List.append_assoc] at hm
      have hk := (hws w mem_cons_self).kind hm
      rw [hu] at hk
      exact absurd hk (by decide)

open Node in
theorem grasps_of_reads (h : Reads p l ns m) : Grasps p l ns m := by
  induction h with
  | absent => exact .inr ⟨rfl, rfl⟩
  | present _ ih => exact .inl ih
  | one _ ih =>
    intro hp ws z hne hws hz hl
    obtain ⟨w, ws, rfl⟩ := exists_cons_of_ne_nil hne
    rw [Lexeme.commas, map_append, List.append_assoc] at hl
    obtain ⟨u, v, rfl, rfl, hr, hs⟩ := ih.phrase hp w _ (hws w mem_cons_self) (stops_commas ws hz) hl
    rcases hr.cases_of with rfl | hjam
    · exact .inr ⟨[(_, u)], ws, rfl, by simp, by simpa using hs, rfl⟩
    · exact .inl hjam
  | @more _ _ _ _ _ x _ _ ht _ ih ihx =>
    intro hp ws z hne hws hz hl
    rcases ih hp ws z hne hws hz hl with ⟨t, l, hm, hjam⟩ | ⟨items, ws', rfl, rfl, hs, hm⟩
    · obtain ⟨rfl, -⟩ := List.cons.inj hm
      rw [ht] at hjam
      exact absurd hjam (by decide)
    · cases ws' with
      | nil =>
        subst hm
        exact absurd (ht ▸ mem_cons_self) (hz _ rfl)
      | cons w ws' =>
        rw [flatMap_cons, cons_append, map_cons, cons_append, map_append,
          List.append_assoc] at hm
        obtain ⟨-, rfl⟩ := List.cons.inj hm
        obtain ⟨u, v, rfl, rfl, hr, hs'⟩ := ihx.phrase hp w _ (hws w (by simp)) (stops_commas ws' hz) rfl
        rcases hr.cases_of with rfl | hjam
        · refine .inr ⟨items ++ [(x, u)], ws', by simp, by simp, ?_, rfl⟩
          exact forall_mem_append.2 ⟨hs, forall_mem_singleton.2 hs'⟩
        · exact .inl hjam
  | name ht =>
    intro _ w z hw hz hl
    rcases hw.first hl with ⟨e, m, v, he, rfl, rfl, hv, rfl⟩ | ⟨x, v, rfl, rfl, hv, rfl⟩ | ⟨v, hop, rfl, hv, rfl⟩
    · cases he <;> cases ht
    · exact ⟨[_], v, rfl, rfl, hv, .name⟩
    · rw [ht] at hop
      exact absurd hop (by decide)
  | base _ ih => exact ih
  | item hb ht _ _ ihb | field hb ht _ ihb =>
    intro _ w z hw hz hl
    obtain ⟨u, v, -, hm, hr, -⟩ := ihb rfl w z hw hz hl
    obtain rfl := hr.eq_nil hm (by rw [ht]; decide)
    subst hm
    exact absurd (ht ▸ by decide) (hz _ rfl)
  | call hp hf ht ha hu ihf iha =>
    intro _ w z hw hz hl
    rcases hp with rfl | rfl
    · obtain ⟨u, v, rfl, hm, hr, hs⟩ := ihf rfl w z hw hz hl
      obtain ⟨ws, v, hws, hv, rfl, rfl⟩ := hr.lparen hz hm ht
      obtain ⟨args, hne, hgiven, rfl, hargs, rfl⟩ := iha.args ha hws hu
      refine ⟨u ++ of .lparen :: (commas ((args.getD []).map (·.2)) ++ [of .rparen]), v, by simp, rfl,
        .tail hv, ?_⟩
      rw [Alone, hgiven]
      exact .call hs hne hargs
    · obtain ⟨t', l', rfl, ht'⟩ := hf.startsIn rfl
      exact absurd (mem_singleton.1 ht' ▸ hw.kind hl) (by decide)
  | int ht | float ht | string ht | null ht =>
    intro _ w z hw _ hl
    obtain ⟨e, m, v, he, rfl, rfl, hv, rfl⟩ := hw.literal_of hl (by rw [ht]; decide)
    refine ⟨[m], v, rfl, rfl, .tail hv, .literal ?_⟩
    cases he <;> first | constructor | cases ht
  | bool ht =>
    intro _ w z hw _ hl
    have hno : ∀ k ∈ [.kwTrue, .kwFalse], k ∉ .identifier :: unaries := by decide
    obtain ⟨e, m, v, he, rfl, rfl, hv, rfl⟩ := hw.literal_of hl (hno _ ht)
    refine ⟨[m], v, rfl, rfl, .tail hv, .literal ?_⟩
    cases he <;> first | constructor | exact absurd ht (by simp [Lexeme.token, of])
  | paren ht | listOf ht | mapNone ht | mapOf ht | setOf ht =>
    intro _ w z hw hz hl
    have hk := hw.kind hl
    rw [ht] at hk
    exact absurd hk (by decide)
  | operand hp h ih =>
    intro _ w z hw hz hl
    rcases hp with rfl | rfl | rfl
    · obtain ⟨u, v, hu, hm, hr, hs⟩ := ih rfl w z hw hz hl
      exact ⟨u, v, hu, hm, hr, .weaken (by decide) hs⟩
    · obtain ⟨t', l', rfl, ht'⟩ := h.startsIn rfl
      exact absurd (mem_singleton.1 ht' ▸ hw.kind hl) (by decide)
    · exact ih rfl w z hw hz hl
  | first _ ih =>
    intro hlay w z hw hz hl
    obtain ⟨c, hc, hstrength, -, hp⟩ := Piece.isLayered_chain hlay
    obtain ⟨u, v, hu, hm, hr, hs⟩ := ih.phrase hp w z hw hz hl
    refine ⟨u, v, hu, hm, hr, ?_⟩
    rw [hstrength] at hs
    rw [Piece.strength, hstrength]
    exact .weaken (left_of_mem_chains hc).2 hs
  | @next _ _ _ _ t _ _ _ _ ht _ iha ihb =>
    intro hlay w z hw hz hl
    obtain ⟨c, hc, hstrength, rfl, hp⟩ := Piece.isLayered_chain hlay
    have hbin : ∀ c ∈ chains, operators c ⊆ TokenKind.binaries := by decide
    obtain ⟨u, v, rfl, hm, hr, hs⟩ := iha hlay w z hw hz hl
    obtain ⟨w', hw', rfl, rfl⟩ := hr.op hz hm (hbin c hc ht)
    obtain ⟨u', v', rfl, hm', hr', hs'⟩ := ihb.phrase hp w' z hw' hz rfl
    refine ⟨u ++ of t.kind :: u', v', by simp, hm', hr', ?_⟩
    rw [hstrength] at hs'
    rw [Piece.strength, hstrength] at hs ⊢
    exact .binary ht ((left_of_mem_chains hc).1.symm ▸ hs) hs'
  | lone _ ih =>
    intro hlay w z hw hz hl
    obtain ⟨hstrength, -, hp⟩ := Piece.isLayered_once hlay
    obtain ⟨u, v, hu, hm, hr, hs⟩ := ih.phrase hp w z hw hz hl
    refine ⟨u, v, hu, hm, hr, ?_⟩
    rw [hstrength] at hs
    rw [Piece.strength, hstrength]
    exact .weaken (by decide) hs
  | @compare _ _ _ _ t _ _ _ _ ht _ iha ihb =>
    intro hlay w z hw hz hl
    obtain ⟨hstrength, rfl, hp⟩ := Piece.isLayered_once hlay
    have hbin : operators comparison ⊆ TokenKind.binaries := by decide
    obtain ⟨u, v, rfl, hm, hr, hs⟩ := iha.phrase hp w z hw hz hl
    obtain ⟨w', hw', rfl, rfl⟩ := hr.op hz hm (hbin ht)
    obtain ⟨u', v', rfl, hm', hr', hs'⟩ := ihb.phrase hp w' z hw' hz rfl
    refine ⟨u ++ of t.kind :: u', v', by simp, hm', hr', ?_⟩
    rw [hstrength] at hs hs'
    rw [Piece.strength, hstrength]
    exact .binary ht hs hs'
  | unsigned _ ih | plain _ ih =>
    intro _ w z hw hz hl
    obtain ⟨u, v, hu, hm, hr, hs⟩ := ih.phrase rfl w z hw hz hl
    exact ⟨u, v, hu, hm, hr, .weaken (by decide) hs⟩
  | signed ht _ ih =>
    intro _ w z hw hz hl
    rcases hw.first hl with ⟨e, m, v, he, rfl, -⟩ | ⟨x, v, rfl, -⟩ | ⟨v, -, rfl, hv, rfl⟩
    · cases he <;> simp [unaries, Lexeme.token, of] at ht
    · simp [unaries, Lexeme.token] at ht
    · obtain ⟨u, v', rfl, hm, hr, hs⟩ := ih rfl v z hv hz rfl
      exact ⟨of _ :: u, v', rfl, hm, hr, .unary ht hs⟩
  | select _ ht _ hu _ ihc ihy ihn =>
    intro _ w z hw hz hl
    obtain ⟨u, v, rfl, hm, hr, hs⟩ := ihc.phrase rfl w z hw hz hl
    obtain ⟨w₁, w₂, hw₁, hw₂, rfl, rfl⟩ := hr.query hz hm ht
    obtain ⟨u₁, v₁, rfl, hm₁, hr₁, hs₁⟩ := ihy rfl w₁ _ hw₁ (.cons (by decide)) rfl
    obtain rfl := hr₁.eq_nil hm₁ (by rw [hu]; decide)
    obtain ⟨-, rfl⟩ := List.cons.inj hm₁
    obtain ⟨u₂, v₂, rfl, hm₂, hr₂, hs₂⟩ := ihn rfl w₂ z hw₂ hz rfl
    exact ⟨u ++ of .query :: (u₁ ++ of .colon :: u₂), v₂, by simp, hm₂, hr₂, .select hs hs₁ hs₂⟩
  | _ => exact fun hp => by cases hp

section Phrases

variable {p : Piece} {l m z : List Token} {e : Node} {ns : List Node} {w : List Lexeme} {ws : List (List Lexeme)}

/-- What is read from a phrase is spelled by it, unless the reading stops before its end. -/
theorem Reads.phrase (h : Reads p (w.map Lexeme.token ++ z) [e] m) (hp : p.isLayered = true) (hw : Phrase w)
    (hz : Stops (continuing choice) z) : m = z ∧ Written p.strength e w ∨ StartsIn TokenKind.jams m := by
  obtain ⟨u, v, rfl, rfl, hr, hs⟩ := (grasps_of_reads h).phrase hp w z hw hz rfl
  rcases hr.cases_of with rfl | hjam
  · exact .inl ⟨rfl, by rwa [append_nil]⟩
  · exact .inr hjam

theorem Reads.phrases (h : Reads (.commas p) ((Lexeme.commas ws).map Lexeme.token ++ z) ns m)
    (hp : p.isLayered = true) (hne : ws ≠ []) (hws : ∀ w ∈ ws, Phrase w) (hz : Stops (.comma :: continuing choice) z) :
    (m = z ∧ ∀ w ∈ ws, ∃ e, Written p.strength e w) ∨ StartsIn (.comma :: TokenKind.jams) m := by
  rcases grasps_of_reads h hp ws z hne hws hz rfl with hjam | ⟨items, ws', rfl, rfl, hs, rfl⟩
  · exact .inr (hjam.mono (subset_cons_self _ _))
  · cases ws' with
    | nil =>
      rw [append_nil]
      exact .inl ⟨rfl, forall_mem_map.2 fun i hi => ⟨i.1, hs i hi⟩⟩
    | cons => exact .inr ⟨_, _, rfl, mem_cons_self⟩

end Phrases

/-! ### Wordings -/

namespace Lexeme

theorem mem_of_mem_glue {l : Lexeme} (hl : l ∈ glue w) (hk : l.kind = .stringLiteral) : l ∈ w := by
  have hne : ∀ m : Lexeme, m.kind ≠ .stringLiteral → l ≠ m := by
    rintro m hm rfl
    exact hm hk
  cases w with
  | nil => exact absurd (mem_singleton.1 hl) (hne _ (by decide))
  | cons m w =>
    rw [glue] at hl
    split at hl
    · exact (mem_cons.1 hl).resolve_left (hne _ (by decide))
    · split at hl
      · have hfrac : l ∉ m.fraction := by
          unfold fraction
          split <;> simp [hne]
        exact mem_cons_of_mem _ (by simpa [hne, hne (of .dot) (by decide), hfrac] using hl)
      · exact mem_cons_of_mem _ (by simpa [hne] using hl)

theorem eq_or_mem_of_mem_commas {l : Lexeme} (hl : l ∈ commas ws) : l = of .comma ∨ ∃ w ∈ ws, l ∈ w := by
  cases ws with
  | nil => exact absurd hl not_mem_nil
  | cons w ws =>
    simp only [commas, mem_append, mem_flatMap, mem_cons] at hl
    grind

theorem plain_of_kind {l : Lexeme} (h : l.kind ≠ .stringLiteral) : l.Plain := fun hk => absurd hk h

end Lexeme

namespace Node

mutual

/-- No string of the expression needs an escape, and no `not` is written right before a number with a
point. -/
def clear : Node → Bool
  | .select cond yes no _ => cond.clear && yes.clear && no.clear
  | .binary _ left right _ => left.clear && right.clear
  | .unary op operand _ =>
    operand.clear && !(op == .kwNot && operand.wording.head?.any (·.kind == .floatLiteral))
  | .call _ args _ => clearOpt args
  | .string x _ => x.toList.all fun c => c ∉ ['\'', '\\', '\n', '\r']
  | _ => true

def clears : List Node → Bool
  | [] => true
  | e :: es => e.clear && clears es

def clearOpt : Option (List Node) → Bool
  | none => true
  | some es => clears es

end

@[simp] theorem clears_eq (es : List Node) : clears es = es.all clear := by
  induction es with
  | nil => rfl
  | cons e es ih => rw [clears, ih, all_cons]

@[simp] theorem clearOpt_eq (es : Option (List Node)) : clearOpt es = (es.getD []).all clear := by
  cases es with
  | none => rfl
  | some es => rw [clearOpt, clears_eq, Option.getD_some]

end Node

theorem Flat.glue (h : Phrase w) (hfloat : ∀ l ∈ w.head?, l.kind ≠ .floatLiteral) : Phrase (glue w) := by
  cases h with
  | whole ho ht =>
    cases ho with
    | @literal e l hl =>
      cases hl with
      | float => exact absurd rfl (hfloat _ rfl)
      | string =>
        exact .whole (.signed (show .kwNot ∈ unaries by decide) (by simp) (.literal (e := .string _ ⟨0, 0⟩) .string)) ht
      | _ => exact .whole .name ht
    | name => exact .whole .name ht
    | call hws => exact .whole (.call hws) ht
    | @signed op w hop hnot ho =>
      by_cases hop' : op = .kwNot
      · -- two words become one, and what comes after them is what comes after an operand
        subst hop'
        obtain ⟨l, v, rfl, -⟩ := ho.kind_of_operand
        have hsign : ∀ k ∈ [.stringLiteral, .add, .sub, .len, .bnot],
            k ∈ unaries ∧ k ∈ TokenKind.binaries ∨ k ∈ [.stringLiteral, .len, .bnot] := by decide
        rcases hsign _ (hnot rfl l rfl) with ⟨hun, hbin⟩ | hstray
        · obtain ⟨hof, ho⟩ := ho.of_signed hun
          refine .whole (o := [_]) .name ?_
          rw [hof]
          exact .op hbin (.whole ho ht)
        · exact .whole (o := [_]) .name (.stray hstray)
      · have hmem : ∀ op ∈ unaries, op ≠ .kwNot →
            op ∈ .stringLiteral :: operators ∧ op ∈ [.stringLiteral, .add, .sub, .len, .bnot] := by
          decide
        obtain ⟨hmem, hhead⟩ := hmem op hop hop'
        rw [cons_append, Lexeme.glue, if_pos (show (of op).kind ∈ _ from hmem)]
        refine .whole (.signed (show .kwNot ∈ unaries by decide) (fun _ l hl => ?_) (.signed hop hnot ho)) ht
        cases hl
        exact hhead

namespace Node

open Layout

variable {L : Lexeme → Prop} {r : Role} {st : Style}

/-- Of places and functions, names only can be written. -/
theorem Formed.eq_name (h : Formed L r e) (hr : r ∈ [.place, .function])
    (hf : (e.layout st).failure = none) : ∃ x p, e = .name x p := by
  cases h with
  | name => exact ⟨_, _, rfl⟩
  | item | field | funcDef => cases hf
  | _ => simp at hr

/-- The strings of a clear expression may stand between quotes as they are. -/
theorem Formed.plain (h : Formed L r e) (hr : r ≠ .stat) (hc : e.clear = true) :
    ∀ l ∈ e.wording, l.Plain := by
  induction h with
  | @call r callee args p hrole hcallee _ _ ihc iha =>
    have hrole' : ∀ r ∈ [Role.place, .function], r ≠ .stat := by decide
    have hclear : callee.clear = true := by
      cases hcallee with
      | name | item | field | funcDef => rfl
      | _ => simp at hrole
    simp only [clear, clearOpt_eq, all_eq_true] at hc
    simp only [wording, wordingsOpt_eq, forall_mem_append, forall_mem_cons]
    refine ⟨ihc (hrole' r hrole) hclear, plain_of_kind (by decide), fun l hl => ?_,
      plain_of_kind (by decide), by simp⟩
    rcases eq_or_mem_of_mem_commas hl with rfl | ⟨w, hw, hl⟩
    · exact plain_of_kind (by decide)
    · obtain ⟨a, ha, rfl⟩ := mem_map.1 hw
      exact iha a ha (by decide) (hc a ha) l hl
  | operand hr _ ih => exact ih (by rintro rfl; simp at hr) hc
  | select _ _ _ ihc ihy ihn =>
    simp only [clear, Bool.and_eq_true] at hc
    simp only [wording, forall_mem_append, forall_mem_cons]
    exact ⟨ihc (by decide) hc.1.1, plain_of_kind (by decide), ihy (by decide) hc.1.2,
      plain_of_kind (by decide), ihn (by decide) hc.2⟩
  | binary hop _ _ _ ihl ihr =>
    have hops : ∀ op ∈ .pow :: Grammar.levels.flatMap (·.ops), op ≠ .stringLiteral := by decide
    simp only [clear, Bool.and_eq_true] at hc
    simp only [wording, forall_mem_append, forall_mem_cons]
    exact ⟨ihl (by decide) hc.1, plain_of_kind (hops _ hop), ihr (by decide) hc.2⟩
  | @unary op operand p hop _ _ ih =>
    have hops : ∀ op ∈ unaries, op ≠ .stringLiteral := by decide
    simp only [clear, Bool.and_eq_true] at hc
    have hw := ih (by decide) hc.1
    rw [wording]
    split
    · exact fun l hl hk => hw l (mem_of_mem_glue hl hk) hk
    · exact forall_mem_cons.2 ⟨plain_of_kind (hops op hop), hw⟩
  | string hx =>
    simpa [clear, wording, Lexeme.Plain, Lexeme.chars] using hc
  | @bool k x =>
    have hword : ∀ k ∈ .identifier :: keywords, k ≠ .stringLiteral := by decide
    exact forall_mem_singleton.2 (plain_of_kind (hword _ (Scan.ofWord_mem x)))
  | otherwise | null => exact forall_mem_singleton.2 (plain_of_kind (by decide))
  | name | int | float =>
    refine forall_mem_singleton.2 (plain_of_kind ?_)
    simp
  | item | field | funcDef | listOf | mapOf | setOf => simp [wording]
  | _ => exact absurd rfl hr

/-- What is written for an expression is a phrase. -/
theorem Formed.phrase (h : Formed Scanned r e) (hr : r ≠ .stat) (hf : (e.layout st).failure = none)
    (hc : e.clear = true) : Phrase e.wording := by
  induction h with
  | name => exact .alone .name
  | @call r callee args p hrole hcallee hne ha ihc iha =>
    rw [layout_call] at hf
    simp only [failure_append] at hf
    obtain ⟨x, q, rfl⟩ := hcallee.eq_name hrole hf.1.1.1
    simp only [clear, clearOpt_eq, all_eq_true] at hc
    have hargs : ∀ w ∈ (args.getD []).map wording, Phrase w := by
      refine forall_mem_map.2 fun a ha' => iha a ha' (by decide) ?_ (hc a ha')
      exact failure_listed hf.1.2 _ (mem_map_of_mem ha')
    rw [wording, wordingsOpt_eq]
    exact .alone (.call hargs)
  | operand hr _ ih => exact ih (by rintro rfl; simp at hr) hf hc
  | select _ _ _ ihc ihy ihn =>
    rw [layout] at hf
    simp only [failure_append] at hf
    simp only [clear, Bool.and_eq_true] at hc
    have hw := ihc (by decide) hf.1.1.1.1 hc.1.1
    exact hw.append (by decide) (.choice (ihy (by decide) hf.1.1.2 hc.1.2) (ihn (by decide) hf.2 hc.2))
  | binary hop _ _ _ ihl ihr =>
    rw [layout] at hf
    simp only [failure_append] at hf
    simp only [clear, Bool.and_eq_true] at hc
    exact (ihl (by decide) hf.1.1 hc.1).append (by decide) (.op hop (ihr (by decide) hf.2 hc.2))
  | @unary op operand p hop _ _ ih =>
    rw [layout, failure_append] at hf
    simp only [clear, Bool.and_eq_true] at hc
    have hw := ih (by decide) hf.2 hc.1
    rw [wording]
    split
    · rename_i hnot
      refine hw.glue fun l hl hk => ?_
      simp [hnot, Option.mem_def.1 hl, hk] at hc
    · rename_i hnot
      exact hw.prefixed hop hnot
  | int => exact .alone (.literal (e := .number _ true ⟨0, 0⟩) .int)
  | float => exact .alone (.literal (e := .number _ false ⟨0, 0⟩) .float)
  | string => exact .alone (.literal (e := .string _ ⟨0, 0⟩) .string)
  | @bool k x p hk hx =>
    have hword : ∀ k ∈ [kwTrue, .kwFalse], ofWord k.spelling = k ∧
        k ∉ [.eof, .identifier, .intLiteral, .floatLiteral, .stringLiteral] := by decide
    obtain ⟨-, rfl⟩ := hx.stands_of (hword k hk).2
    rw [wording, (hword k hk).1]
    simp only [mem_cons, not_mem_nil, or_false] at hk
    rcases hk with rfl | rfl
    · exact .alone (.literal (e := .bool _ ⟨0, 0⟩) .true)
    · exact .alone (.literal (e := .bool _ ⟨0, 0⟩) .false)
  | otherwise => exact .alone (.literal (e := .bool _ ⟨0, 0⟩) .true)
  | null => exact .alone (.literal (e := .null ⟨0, 0⟩) .null)
  | item | field | funcDef | listOf | mapOf | setOf => cases hf
  | _ => exact absurd rfl hr

end Node

end TinyScript
