import TinyScript.Proofs.Lexing

/-!
# Tokens tile their text

A text that can be read to its end falls into the spans of its tokens, in order, with nothing but
blanks and comments between them. The place of a token is where its span begins, counted on the
text itself: one line for each newline before it, one column for each character after the last.
-/

namespace TinyScript

namespace Position

/-- The place after the text `cs`. -/
def ofText (cs : List Char) : Position :=
  ⟨1 + cs.count '\n', 1 + (cs.reverse.takeWhile (· ≠ '\n')).length⟩

theorem ofText_concat (cs : List Char) (c : Char) : ofText (cs ++ [c]) = (ofText cs).next c := by
  unfold ofText next
  by_cases hc : c = '\n'
  · subst hc
    simp
    omega
  · simp [hc]
    omega

theorem start_after (cs : List Char) : start.after cs = ofText cs := by
  -- the last character moves the place, so the induction is from the end
  rw [← cs.reverse_reverse]
  induction cs.reverse with
  | nil => rfl
  | cons c rs ih =>
    rw [List.reverse_cons, after_append, ih, ofText_concat]
    rfl

theorem ofText_after (before cs : List Char) : (ofText before).after cs = ofText (before ++ cs) := by
  rw [← start_after, ← start_after, after_append]

end Position

/-- The token can stand for the characters `span`: a string literal for quoted text, any other
token for its own text. -/
structure Token.Covers (t : Token) (span : List Char) : Prop where
  ne_nil : span ≠ []
  text (h : t.kind ≠ .stringLiteral) : t.text = some (String.ofList span)
  quoted (h : t.kind = .stringLiteral) :
    ∃ q body, Scan.isQuote q = true ∧ span = q :: (body ++ [q])

/-- Where `before` has been read, `rest` is a gap and the span of a token in turns, one span for
each token of `ts` but the last, which is the end. -/
inductive Tiles : (before rest : List Char) → (ts : List Token) → Prop
  | eof {before g : List Char} (hg : Scan.LastGap g) :
      Tiles before g [⟨.eof, none, .ofText (before ++ g)⟩]
  | token {before g span rest : List Char} {t : Token} {ts : List Token} (hg : Scan.Gap g)
      (hk : t.kind ≠ .eof) (hs : t.Covers span) (hp : t.pos = .ofText (before ++ g))
      (h : Tiles (before ++ g ++ span) rest ts) : Tiles before (g ++ span ++ rest) (t :: ts)

namespace Scan

theorem Spells.covers {span rest : List Char} {l : Lexeme} (h : Spells span l rest)
    (p : Position) : (⟨l.kind, l.text, p⟩ : Token).Covers span := by
  refine ⟨h.ne_nil, fun hk => ?_, fun hk => ?_⟩
  · cases h with
    | int => rfl
    | float => rfl
    | string => exact absurd rfl hk
    | word => rfl
    | operator => simp
  · cases h with
    | int => cases hk
    | float => cases hk
    | string hq hs =>
      obtain ⟨body, rfl⟩ := hs.ends
      exact ⟨_, body, hq, rfl⟩
    | word =>
      have hne : ∀ k ∈ .identifier :: TokenKind.keywords, k ≠ .stringLiteral := by decide
      exact absurd hk (hne _ (ofWord_mem _))
    | operator hop =>
      have hmem := List.mem_of_find?_eq_some hop
      simp only at hk
      subst hk
      exact absurd hmem (by decide)

theorem covers_of_token {c c' : Cursor} {t : Token} (h : token c = .ok t c') (ht : t.kind ≠ .eof) :
    ∃ g span, c.rest = g ++ span ++ c'.rest ∧ Gap g ∧ t.Covers span ∧ t.pos = c.pos.after g ∧
      c'.pos = c.pos.after (g ++ span) := by
  obtain ⟨cs, p⟩ := c
  cases token_eq_ok_iff.1 h with
  | @token g span rest l hg hs _ =>
    exact ⟨g, span, (List.append_assoc ..).symm, hg, hs.covers _, rfl, rfl⟩
  | eof => exact absurd rfl ht

theorem tiles_of_passes {c c' : Cursor} {ts : List Token} (h : Passes c ts c')
    (hg : LastGap c'.rest) {before : List Char} (hc : c.pos = .ofText before) :
    Tiles before c.rest (ts ++ [⟨.eof, none, c'.pos.after c'.rest⟩]) := by
  induction h generalizing before with
  | nil =>
    rw [hc, Position.ofText_after]
    exact .eof hg
  | cons h ht _ ih =>
    obtain ⟨g, span, hrest, hgap, hs, hpos, hpos'⟩ := covers_of_token h ht
    rw [hc, Position.ofText_after] at hpos hpos'
    rw [← List.append_assoc] at hpos'
    rw [hrest]
    exact .token hgap ht hs hpos (ih hg hpos')

end Scan

/-- A text whose tokens can be read to the end is tiled by them. -/
theorem tiles_of_tokenize {src : String} {ts : List Token} (h : tokenize src = (ts, none)) :
    Tiles [] src.toList ts := by
  obtain ⟨_, htokens⟩ := tokenize_eq_iff.1 h
  obtain ⟨us, c', hp, hg, rfl⟩ := Scan.passes_of_tokens htokens
  exact Scan.tiles_of_passes hp hg rfl

/-- A text of a string over two lines, adjacent tokens and a comment that is not closed. -/
theorem tiles_of_tokenize_open_comment :
    (tokenize "a//\n='x\\'' +\x60y\nz\x60/**/ 1.e\t/*/").2 = none ∧
    Tiles [] "a//\n='x\\'' +\x60y\nz\x60/**/ 1.e\t/*/".toList
      (tokenize "a//\n='x\\'' +\x60y\nz\x60/**/ 1.e\t/*/").1 := by
  have h : (tokenize "a//\n='x\\'' +\x60y\nz\x60/**/ 1.e\t/*/").2 = none := by decide +kernel
  exact ⟨h, tiles_of_tokenize (Prod.ext rfl h)⟩

end TinyScript
