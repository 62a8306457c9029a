import TinyScript.Proofs.Lexing

/-!
# Escaped quotes

An escaped quote is read as the character after it, and that character is read once more. So a text that is
written with its quotes escaped is read as another text of the same length, in which each quote has
become the first character of what is written after it; it is read as itself exactly if no quote stands before
its last character (`token_escaped`). And a text that ends right after an escaped quote has no
character there: it is stopped by a fault, and every other text that is not read to its end is
stopped by a report (`tokenize_failure`).
-/

namespace TinyScript

namespace Scan

variable {q : Char} {s cs : List Char}

/-! ### Texts with their quotes escaped -/

/-- How a character is written in a string between the quotes `q`. -/
def escapedChar (q c : Char) : List Char :=
  if c = q then ['\\', q] else if c = '\n' then ['\\', 'n'] else [c]

/-- A text as it is written between the quotes `q`. -/
def escaped (q : Char) (s : List Char) : List Char :=
  s.flatMap (escapedChar q)

/-- The same text as it is read: each quote is the first character of what is written after it. -/
def misread (q : Char) : List Char → List Char
  | [] => []
  | c :: s => (if c = q then (escaped q s).headD q else c) :: misread q s

@[simp] theorem escaped_nil (q : Char) : escaped q [] = [] := rfl

theorem escaped_cons (q c : Char) (s : List Char) :
    escaped q (c :: s) = escapedChar q c ++ escaped q s := rfl

theorem quoted_escaped (hq : isQuote q = true) (hb : '\\' ∉ s) (hr : '\r' ∉ s) :
    Quoted q (escaped q s ++ [q]) (misread q s) := by
  induction s with
  | nil => exact .close
  | cons c s ih =>
    rw [List.mem_cons, not_or] at hb hr
    have ih := ih hb.2 hr.2
    rw [escaped_cons, misread, escapedChar]
    by_cases hcq : c = q
    · rw [if_pos hcq, if_pos hcq]
      -- where nothing else is written the closing quote comes next
      cases hnext : escaped q s with
      | nil | cons e es =>
        rw [hnext] at ih
        exact .quote hq ih
    · rw [if_neg hcq, if_neg hcq]
      by_cases hn : c = '\n'
      · rw [if_pos hn, hn]
        exact .newline ih
      · rw [if_neg hn]
        exact .plain hcq (fun h => absurd h hn) (Ne.symm hr.1) (Ne.symm hb.1) ih

/-- What is written for a character does not begin with a quote. -/
theorem head_escaped_ne (hq : q ≠ '\\') (d : Char) (s : List Char) :
    (escaped q (d :: s)).headD q ≠ q := by
  rw [escaped_cons, escapedChar]
  by_cases hd : d = q
  · rw [if_pos hd]
    exact hq.symm
  · rw [if_neg hd]
    by_cases hn : d = '\n'
    · rw [if_pos hn]
      exact hq.symm
    · rw [if_neg hn]
      exact hd

/-- A quote that is not the last character is read as something else. -/
theorem misread_eq_iff (hq : q ≠ '\\') : misread q s = s ↔ q ∉ s.dropLast := by
  induction s with
  | nil => simp [misread]
  | cons c s ih =>
    cases s with
    | nil =>
      have hc : (if c = q then q else c) = c := by
        split <;> simp_all
      simp [misread, hc]
    | cons d s =>
      have hc : (if c = q then (escaped q (d :: s)).headD q else c) = c ↔ q ≠ c := by
        split
        · rename_i hcq
          rw [hcq]
          exact iff_of_false (head_escaped_ne hq d s) fun h => h rfl
        · rename_i hcq
          exact iff_of_true rfl (Ne.symm hcq)
      rw [misread, List.cons.injEq, ih, hc, List.dropLast_cons_cons, List.mem_cons, not_or]

theorem gapLength_of_isQuote (hq : isQuote q = true) (cs : List Char) : gapLength (q :: cs) = 0 := by
  rw [gapLength_eq_zero_iff]
  simp only [isQuote, Bool.or_eq_true, beq_iff_eq] at hq
  rcases hq with (rfl | rfl) | rfl
  all_goals exact ⟨by decide, fun h => absurd h.1 (by decide)⟩

theorem token_quoted (hq : isQuote q = true) (h : Quoted q cs s) (rest : List Char) (p : Position) :
    token ⟨q :: (cs ++ rest), p⟩ =
      .ok ⟨.stringLiteral, some (String.ofList s), p⟩ ⟨rest, p.after (q :: cs)⟩ :=
  token_of_spells (.string hq h) (gapLength_of_isQuote hq _) p

end Scan

/-- A text with its quotes escaped is read up to the closing quote, as a text of the same length, by the
scanner and so by the lexer (`Lexer.follows_token`). It is read as itself exactly if no quote stands
before its last character. -/
theorem token_escaped {q : Char} {s : List Char} (hq : Scan.isQuote q = true)
    (hb : '\\' ∉ s) (hr : '\r' ∉ s) (rest : List Char) (p : Position) :
    ∃ v, Scan.token ⟨q :: (Scan.escaped q s ++ q :: rest), p⟩ =
        .ok ⟨.stringLiteral, some v, p⟩ ⟨rest, p.after (q :: (Scan.escaped q s ++ [q]))⟩ ∧
      v.toList = Scan.misread q s ∧ (v.toList = s ↔ q ∉ s.dropLast) := by
  have read := Scan.token_quoted hq (Scan.quoted_escaped hq hb hr) rest p
  rw [List.append_assoc, List.singleton_append] at read
  refine ⟨_, read, String.toList_ofList, ?_⟩
  rw [String.toList_ofList, Scan.misread_eq_iff (Scan.isQuote_ne hq).2]

/-- A quote between two letters is read as the second of them, a quote at the end as itself. -/
theorem token_escaped_quotes :
    (∃ v, Scan.token (.start "'a\\'b'+") = .ok ⟨.stringLiteral, some v, .start⟩ ⟨"+".toList, ⟨1, 7⟩⟩ ∧
      v.toList = "abb".toList ∧ v.toList ≠ "a'b".toList) ∧
    ∃ v, Scan.token (.start "'a\\''+") = .ok ⟨.stringLiteral, some v, .start⟩ ⟨"+".toList, ⟨1, 6⟩⟩ ∧
      v.toList = "a'".toList := by
  obtain ⟨v, hinner, hv, hiff⟩ := token_escaped (q := '\'') (s := "a'b".toList) (by decide) (by decide)
    (by decide) "+".toList .start
  obtain ⟨w, hlast, -, hiff'⟩ := token_escaped (q := '\'') (s := "a'".toList) (by decide) (by decide)
    (by decide) "+".toList .start
  exact ⟨⟨v, hinner, hv, fun h => hiff.1 h (by decide)⟩, w, hlast, hiff'.2 (by decide)⟩

/-! ### Texts that end after an escaped quote -/

/-- A report of the scanner. -/
def Failure.IsLexical (f : Failure) : Prop := ∃ p i, f = .report ⟨.lexer, p, i⟩

namespace Scan

variable {q : Char} {cs acc : List Char} {c c' : Cursor} {f : Failure} {p : Position}

/-- After its opening quote `q` a string ends right after an escaped quote, and one more quote `q` would
close it. -/
def CutOff (q : Char) (cs : List Char) : Prop :=
  ∃ body d s, isQuote d = true ∧ cs = body ++ ['\\', d] ∧ Quoted q (body ++ ['\\', d, q]) s

/-- What may stand before the rest of a string may stand before the rest of one that is cut off. -/
theorem CutOff.append (h : CutOff q cs) (before : List Char)
    (hq : ∀ e es s, Quoted q (e :: es) s → ∃ s', Quoted q (before ++ e :: es) s') :
    CutOff q (before ++ cs) := by
  obtain ⟨body, d, s, hd, rfl, hs⟩ := h
  obtain ⟨s', hs'⟩ : ∃ s', Quoted q (before ++ (body ++ ['\\', d, q])) s' := by
    cases body with
    | nil => exact hq _ _ s hs
    | cons b body => exact hq _ _ s hs
  exact ⟨before ++ body, d, s', hd, (List.append_assoc ..).symm, by rwa [List.append_assoc]⟩

theorem escape_error (h : escape ⟨'\\' :: cs, p⟩ = .error f c') : f.IsLexical := by
  rw [escape_eq] at h
  cases cs with
  | nil =>
    cases h
    exact ⟨_, _, rfl⟩
  | cons d ds =>
    simp only at h
    split at h
    · cases h
    · split at h <;> cases h
      exact ⟨_, _, rfl⟩

/-- An escape without a character is a quote at the end of the text. -/
theorem escape_none (h : escape ⟨'\\' :: cs, p⟩ = .ok none c') : ∃ d, isQuote d = true ∧ cs = [d] := by
  rw [escape_eq] at h
  cases cs with
  | nil => cases h
  | cons d ds =>
    simp only at h
    split at h
    · rename_i hd
      cases ds with
      | nil => exact ⟨d, hd, rfl⟩
      | cons e ds => cases h
    · split at h <;> cases h

theorem stringTail_error (h : stringTail q acc c = .error f c') :
    f.IsLexical ∨ f = .fault .wrongKind ∧ CutOff q c.rest := by
  fun_induction stringTail q acc c with
  | case1 | case3 =>
    cases h
    exact .inl ⟨_, _, rfl⟩
  | case2 => cases h
  | case4 acc c tail hc hq hn ih =>
    obtain ⟨_, p⟩ := c
    cases hc
    refine (ih h).imp_right (And.imp_right fun hcut => ?_)
    exact hcut.append ['\r'] fun _ _ s hs => ⟨s, .dropped hs⟩
  | case5 acc c tail f' c₁ hesc hc =>
    obtain ⟨_, p⟩ := c
    cases hc
    cases h
    exact .inl (escape_error hesc)
  | case6 acc c tail c₁ hesc hc =>
    obtain ⟨_, p⟩ := c
    cases hc
    cases h
    obtain ⟨d, hd, rfl⟩ := escape_none hesc
    exact .inr ⟨rfl, [], d, _, hd, rfl, .quote hd .close⟩
  | case7 acc c tail e c₁ hesc hlt hc _ _ _ ih =>
    obtain ⟨_, p⟩ := c
    cases hc
    refine (ih h).imp_right (And.imp_right fun hcut => ?_)
    rcases escape_cases hesc with ⟨d, hd, rfl, -⟩ | ⟨-, rfl, -⟩
    · exact hcut.append ['\\', d] fun _ _ s hs => ⟨_, .quote hd hs⟩
    · exact hcut.append ['\\', 'n'] fun _ _ s hs => ⟨_, .newline hs⟩
  -- an escape takes two characters
  | case8 acc c tail e c₁ hesc hlt hc =>
    obtain ⟨_, p⟩ := c
    cases hc
    refine absurd ?_ hlt
    rcases escape_cases hesc with ⟨d, -, rfl, -⟩ | ⟨-, rfl, -⟩
    · exact Nat.lt_succ_of_lt (Nat.lt_succ_self _)
    · exact Nat.lt_succ_of_lt (Nat.lt_succ_self _)
  | case9 acc c d tail hc hq hn hr hb ih =>
    obtain ⟨_, p⟩ := c
    cases hc
    refine (ih h).imp_right (And.imp_right fun hcut => ?_)
    have hline : d = '\n' → q = '\x60' := fun hd => Classical.not_not.1 fun hq => hn ⟨hd, hq⟩
    exact hcut.append [d] fun _ _ s hs => ⟨_, .plain hq hline hr hb hs⟩

theorem stringTail_of_cutOff (hq : isQuote q = true) (h : CutOff q cs) (acc : List Char) (p : Position) :
    ∃ c', stringTail q acc ⟨cs, p⟩ = .error (.fault .wrongKind) c' := by
  have hne := isQuote_ne hq
  obtain ⟨body, d, s, hd, rfl, hs⟩ := h
  generalize htext : body ++ ['\\', d, q] = text at hs
  induction hs generalizing body acc p with
  | close =>
    have hlen := congrArg List.length htext
    simp at hlen
  | @dropped cs s _ ih =>
    rcases body with _ | ⟨b, body⟩
    · cases htext
    · cases htext
      rw [stringTail]
      simpa [skip_cons, Ne.symm hne.1] using ih acc (p.next '\r') body rfl
  | @plain e cs s heq hn hr hb _ ih =>
    rcases body with _ | ⟨b, body⟩
    · cases htext
      exact absurd rfl hb
    · cases htext
      have hline : ¬(e = '\n' ∧ q ≠ '\x60') := fun h => h.2 (hn h.1)
      rw [stringTail]
      simp only [List.cons_append, if_neg heq, if_neg hline, if_neg hr, if_neg hb, skip_cons]
      exact ih (e :: acc) (p.next e) body rfl
  | @newline cs s _ ih =>
    rcases body with _ | ⟨b, _ | ⟨b', body⟩⟩
    · cases htext
      exact absurd hd (by decide)
    · cases htext
    · cases htext
      obtain ⟨c', h⟩ := ih ('\n' :: acc) ((p.next '\\').next 'n') body rfl
      refine ⟨c', ?_⟩
      rw [stringTail]
      simp [h, Ne.symm hne.2, escape_eq, isQuote]
  | @quote d' e cs s hd' _ ih =>
    rcases body with _ | ⟨b, _ | ⟨b', body⟩⟩
    · cases htext
      rw [stringTail]
      simp [Ne.symm hne.2, escape_eq, hd]
    · cases htext
      exact absurd hd' (by decide)
    · simp only [List.cons_append, List.cons.injEq] at htext
      obtain ⟨rfl, rfl, hrest⟩ := htext
      have hhead : (body ++ ['\\', d]).head? = some e := by
        cases body <;> cases hrest <;> rfl
      obtain ⟨c', h⟩ := ih (e :: acc) ((p.next '\\').next b') body hrest
      refine ⟨c', ?_⟩
      rw [stringTail]
      simp [h, Ne.symm hne.2, escape_eq, hd', hhead]

/-- A text that goes on, after a gap, with a string that is cut off. -/
def EndsEscaped (cs : List Char) : Prop :=
  ∃ g q body, cs = g ++ q :: body ∧ Gap g ∧ isQuote q = true ∧ CutOff q body

theorem number_ne_error (c : Cursor) : number c ≠ .error f c' := by
  intro h
  unfold number at h
  simp only at h
  split at h <;> cases h

theorem operator_error (h : operator c = .error f c') : f.IsLexical := by
  unfold operator at h
  split at h
  · cases h
  · cases h
    exact ⟨_, _, rfl⟩

theorem string_error (h : string ⟨q :: cs, p⟩ = .error f c') :
    f.IsLexical ∨ f = .fault .wrongKind ∧ CutOff q cs := by
  unfold string at h
  simp only [skip_cons] at h
  split at h
  · cases h
  · rename_i hs
    cases h
    exact stringTail_error hs

theorem token_error (h : token c = .error f c') :
    f.IsLexical ∨ f = .fault .wrongKind ∧ EndsEscaped c.rest := by
  obtain ⟨cs, p⟩ := c
  rcases exists_gap cs with ⟨g, rest, rfl, hg, h₀, hne⟩ | hg
  · obtain ⟨d, ds, rfl⟩ := List.exists_cons_of_ne_nil hne
    rw [token_gap_append hg, token_eq, h₀, Cursor.skip_zero] at h
    simp only at h
    by_cases hd : Text.isDigit d = true
    · rw [if_pos hd] at h
      exact absurd h (number_ne_error _)
    rw [if_neg hd] at h
    by_cases hq : isQuote d = true
    · rw [if_pos hq] at h
      refine (string_error h).imp_right (And.imp_right fun hcut => ?_)
      exact ⟨g, d, ds, rfl, hg, hq, hcut⟩
    rw [if_neg hq] at h
    by_cases hw : Text.isWordStart d = true
    · rw [if_pos hw] at h
      cases h
    · rw [if_neg hw] at h
      exact .inl (operator_error h)
  · rw [token_of_lastGap hg] at h
    cases h

theorem token_of_endsEscaped (h : EndsEscaped c.rest) :
    ∃ c', token c = .error (.fault .wrongKind) c' := by
  obtain ⟨cs, p⟩ := c
  obtain ⟨g, q, body, rfl, hg, hq, hcut⟩ := h
  obtain ⟨c', hc'⟩ := stringTail_of_cutOff hq hcut [] ((p.after g).next q)
  refine ⟨c', ?_⟩
  rw [token_gap_append hg, token_eq, gapLength_of_isQuote hq, Cursor.skip_zero]
  simp only [not_isDigit_of_isQuote hq, hq, Bool.false_eq_true, if_false, if_true]
  unfold string
  simp only [skip_cons, hc']

theorem tokens_of_error {c₁ : Cursor} {ts : List Token} (hp : Passes c ts c₁)
    (h : token c₁ = .error f c') : tokens c = (ts, some f) := by
  induction hp with
  | nil =>
    rw [tokens]
    simp only [h]
  | cons htok hne _ ih =>
    rw [tokens]
    simp only [htok, if_neg hne, if_pos (token_lt htok hne), ih h]

theorem exists_token_error (h : (tokens c).2 = some f) :
    ∃ ts c₁ c₂, Passes c ts c₁ ∧ token c₁ = .error f c₂ := by
  fun_induction tokens c with
  | case1 c f' c' htok =>
    cases h
    exact ⟨[], c, c', .nil, htok⟩
  | case2 => cases h
  | case3 c t c' htok hne =>
    rename_i ih
    obtain ⟨ts, c₁, c₂, hp, herr⟩ := ih h
    exact ⟨t :: ts, c₁, c₂, .cons htok hne hp, herr⟩
  | case4 => cases h

/-- The scanner gets to a string that is cut off after an escaped quote. -/
def CutShort (src : String) : Prop := ∃ ts c, Passes (.start src) ts c ∧ EndsEscaped c.rest

end Scan

/-- A text that cannot be read to its end is stopped by a report, unless it ends right after an escaped
quote in a string; then it is stopped by a fault. -/
theorem tokenize_failure {src : String} (hne : src ≠ "") :
    ((∀ f, (tokenize src).2 = some f → f.IsLexical) ↔ ¬Scan.CutShort src) ∧
    (Scan.CutShort src → (tokenize src).2 = some (.fault .wrongKind)) := by
  have hsrc : tokenize src = Scan.tokens (.start src) := by
    rw [tokenize_eq, if_neg (mt String.isEmpty_iff.1 hne)]
  have hcut : Scan.CutShort src → (tokenize src).2 = some (.fault .wrongKind) := by
    rintro ⟨ts, c, hp, hend⟩
    obtain ⟨c', herr⟩ := Scan.token_of_endsEscaped hend
    rw [hsrc, Scan.tokens_of_error hp herr]
  refine ⟨⟨fun hlex hshort => ?_, fun hwhole f hf => ?_⟩, hcut⟩
  · obtain ⟨p, i, hreport⟩ := hlex _ (hcut hshort)
    cases hreport
  · rw [hsrc] at hf
    obtain ⟨ts, c, c', hp, herr⟩ := Scan.exists_token_error hf
    rcases Scan.token_error herr with hlex | ⟨-, hend⟩
    · exact hlex
    · exact absurd ⟨ts, c, hp, hend⟩ hwhole

/-- A string that is cut off after an escaped quote, and one that is cut off a character later. -/
theorem tokenize_failure_cut :
    (tokenize "a '\\'").2 = some (.fault .wrongKind) ∧ Scan.CutShort "a '\\'" ∧
    (tokenize "a '\\'b").2 = some (.report ⟨.lexer, ⟨1, 7⟩, .stringNotEnded⟩) ∧
    ¬Scan.CutShort "a '\\'b" := by
  have cut : (tokenize "a '\\'").2 = some (.fault .wrongKind) := by decide +kernel
  have later : (tokenize "a '\\'b").2 = some (.report ⟨.lexer, ⟨1, 7⟩, .stringNotEnded⟩) := by
    decide +kernel
  refine ⟨cut, Classical.not_not.1 fun h => ?_, later, fun h => ?_⟩
  · obtain ⟨p, i, hreport⟩ := (tokenize_failure (by decide)).1.2 h _ cut
    cases hreport
  · have fault := (tokenize_failure (by decide)).2 h
    rw [later] at fault
    cases fault

end TinyScript
