import Mathlib.Data.List.Find
import TinyScript.Lexer
import TinyScript.Proofs.Scanning

/-!
# The lexer reads what the scanner reads

The scanner is the lexer without the fields that follow from the others: at `c.lexer`, the lexer does
what the scanner does at `c` (`Follows`), and so the tokens of a text are those that the scanner
reads (`tokenize_eq`).
-/

namespace TinyScript

/-- The lexer at a cursor. -/
def Cursor.lexer (c : Cursor) : Lexer := ⟨c, c.rest.length, c.rest.head?⟩

namespace Lexer

variable {α β : Type} {n : Nat} {l l' : Lexer} {d : Char} {ds : List Char} {c : Cursor} {p : Position}

theorem current_lexer (c : Cursor) : c.lexer.current = c.rest.head? := rfl

/-- The outcome at a cursor, for the lexer. -/
def lift : EStateM.Result Failure Cursor α → EStateM.Result Failure Lexer α
  | .ok a c => .ok a c.lexer
  | .error f c => .error f c.lexer

/-- The lexer does at every cursor what the scanner does there. -/
def Follows (x : Lex α) (y : Scan α) : Prop := ∀ c : Cursor, x c.lexer = lift (y c)

theorem Follows.bind {x : Lex α} {y : Scan α} {f : α → Lex β} {g : α → Scan β} (h : Follows x y)
    (hf : ∀ a, Follows (f a) (g a)) : Follows (x >>= f) (y >>= g) := by
  intro c
  simp only [Bind.bind, EStateM.bind, h c]
  cases y c with
  | ok a c' => exact hf a c'
  | error f c' => rfl

theorem bind_ok {x : Lex α} {f : α → Lex β} {a : α} (h : x l = .ok a l') : (x >>= f) l = f a l' := by
  simp only [Bind.bind, EStateM.bind, h]

theorem get_bind (f : Lexer → Lex α) (l : Lexer) : (get >>= f) l = f l l := rfl

theorem advance_lexer (h : n ≤ c.rest.length) : advance n c.lexer = .ok () (c.skip n).lexer := by
  have left : c.rest.length - n = (c.skip n).rest.length := by simp [Cursor.skip]
  have first : (if (c.skip n).rest.length = 0 then none else (c.skip n).rest.head?) =
      (c.skip n).rest.head? := by
    cases (c.skip n).rest <;> rfl
  unfold advance
  simp only [Cursor.lexer, if_pos h, left, first]

theorem follows_advance (n : Nat) : Follows (advance n) (Scan.advance n) := by
  intro c
  by_cases h : n ≤ c.rest.length
  · rw [advance_lexer h, Scan.advance, if_pos h, lift]
  · rw [Scan.advance, if_neg h]
    exact if_neg h

theorem advance_cons : advance 1 (⟨d :: ds, p⟩ : Cursor).lexer = .ok () (⟨ds, p.next d⟩ : Cursor).lexer :=
  advance_lexer (Nat.le_add_left 1 _)

/-! ### Loops -/

theorem readWhile_of_not {g : Lexer → Bool} (h : g l = false) : readWhile g l = .ok [] l := by
  rw [readWhile, h]
  rfl

theorem readWhile_of_advance {g : Lexer → Bool} (h : g l = true) (ha : advance 1 l = .ok () l') :
    readWhile g l = (do return l.current.toList ++ (← readWhile g) : Lex (List Char)) l' := by
  rw [readWhile, if_pos h]
  split
  · rename_i e
    cases ha.symm.trans e
  · rename_i e
    cases ha.symm.trans e
    simp only [Bind.bind, EStateM.bind]
    cases readWhile g l' <;> rfl

theorem readWhile_lexer (q : Char → Bool) (c : Cursor) : readWhile (·.current.any q) c.lexer =
    .ok (c.rest.takeWhile q) (c.skip (c.rest.takeWhile q).length).lexer := by
  obtain ⟨cs, p⟩ := c
  induction cs generalizing p with
  | nil => exact readWhile_of_not rfl
  | cons d ds ih =>
    cases hd : q d with
    | false =>
      rw [readWhile_of_not hd, List.takeWhile_cons_of_neg (by simp [hd])]
      rfl
    | true =>
      rw [readWhile_of_advance hd advance_cons, List.takeWhile_cons_of_pos hd]
      exact bind_ok (ih _)

theorem bind_readWhile_of_advance {g : Lexer → Bool} {x : Lex α} (h : g l = true)
    (ha : advance 1 l = .ok () l') :
    (readWhile g >>= fun _ => x) l = (readWhile g >>= fun _ => x) l' := by
  simp only [Bind.bind, EStateM.bind, readWhile_of_advance h ha]
  cases readWhile g l' <;> rfl

/-! ### Between tokens -/

/-- A comment is read by its length: `n` where it ends, and one more than from the next character on
elsewhere. -/
theorem closeComment_lexer {ends : Lexer → Char → Bool} (length : List Char → Nat) (hnil : length [] = 0)
    (hends : ∀ d ds p, ends (⟨d :: ds, p⟩ : Cursor).lexer d = true →
      length (d :: ds) = n ∧ n ≤ (d :: ds).length)
    (hgoes : ∀ d ds p, ends (⟨d :: ds, p⟩ : Cursor).lexer d = false → length (d :: ds) = length ds + 1)
    (c : Cursor) : closeComment ends n c.lexer = .ok () (c.skip (length c.rest)).lexer := by
  obtain ⟨cs, p⟩ := c
  unfold closeComment
  induction cs generalizing p with
  | nil =>
    rw [bind_ok (readWhile_of_not rfl), hnil]
    rfl
  | cons d ds ih =>
    cases he : ends (⟨d :: ds, p⟩ : Cursor).lexer d with
    | true =>
      have stop : (!ends (⟨d :: ds, p⟩ : Cursor).lexer d) = false := by rw [he]; rfl
      rw [bind_ok (readWhile_of_not stop), (hends d ds p he).1]
      exact advance_lexer (hends d ds p he).2
    | false =>
      have goes : (!ends (⟨d :: ds, p⟩ : Cursor).lexer d) = true := by rw [he]; rfl
      rw [bind_readWhile_of_advance goes advance_cons, ih, hgoes d ds p he]
      rfl

theorem isPrefixOf_pair {a b : Char} : [a, b].isPrefixOf (d :: ds) = true ↔ d = a ∧ ds.head? = some b := by
  rw [List.isPrefixOf_iff_prefix, List.cons_prefix_cons, eq_comm]
  cases ds <;> simp [eq_comm]

theorem closes_iff : (d == '*' && (⟨d :: ds, p⟩ : Cursor).lexer.startsWith "*/") = true ↔
    d = '*' ∧ ds.head? = some '/' := by
  have starts : (⟨d :: ds, p⟩ : Cursor).lexer.startsWith "*/" = true ↔ d = '*' ∧ ds.head? = some '/' :=
    isPrefixOf_pair
  rw [Bool.and_eq_true, beq_iff_eq, starts, ← and_assoc, and_self]

theorem skipComment_lexer (b : Bool) (c : Cursor) (h : 2 ≤ c.rest.length) : skipComment b c.lexer =
    .ok () ((c.skip 2).skip
      (if b then Scan.lineLength (c.skip 2).rest else Scan.blockLength (c.skip 2).rest)).lexer := by
  unfold skipComment
  rw [bind_ok (advance_lexer h)]
  cases b with
  | true =>
    refine closeComment_lexer Scan.lineLength rfl (fun d ds _ he => ?_) (fun d ds _ he => ?_) _
    · rw [Scan.lineLength, if_pos (beq_iff_eq.1 he)]
      exact ⟨rfl, Nat.le_add_left 1 _⟩
    · rw [Scan.lineLength, if_neg (beq_eq_false_iff_ne.1 he)]
  | false =>
    refine closeComment_lexer Scan.blockLength rfl (fun d ds _ he => ?_) (fun d ds _ he => ?_) _
    · have closes := closes_iff.1 he
      rw [Scan.blockLength, if_pos closes]
      obtain ⟨e, hds⟩ := List.head?_eq_some_iff.1 closes.2
      exact ⟨rfl, by simp [hds]⟩
    · rw [Scan.blockLength, if_neg fun closes => Bool.false_ne_true (he.symm.trans (closes_iff.2 closes))]

theorem skipGap_of_none (h : gapPart? l = none) : skipGap l = .ok () l := by
  rw [skipGap]
  split
  · rfl
  · rename_i e
    cases h.symm.trans e

theorem skipGap_of_some {part : Lex Unit} (h : gapPart? l = some part) (hp : part l = .ok () l') :
    skipGap l = skipGap l' := by
  rw [skipGap]
  split
  · rename_i e
    cases h.symm.trans e
  · rename_i e
    cases h.symm.trans e
    split <;> rename_i e <;> cases hp.symm.trans e
    rfl

theorem gapPart_none (h : Scan.gapLength (d :: ds) = 0) : gapPart? (⟨d :: ds, p⟩ : Cursor).lexer = none := by
  obtain ⟨hb, hc⟩ := Scan.gapLength_eq_zero_iff.1 h
  have line : ¬(⟨d :: ds, p⟩ : Cursor).lexer.startsWith "//" = true := fun h =>
    hc ⟨(isPrefixOf_pair.1 h).1, .inl (isPrefixOf_pair.1 h).2⟩
  have block : ¬(⟨d :: ds, p⟩ : Cursor).lexer.startsWith "/*" = true := fun h =>
    hc ⟨(isPrefixOf_pair.1 h).1, .inr (isPrefixOf_pair.1 h).2⟩
  exact (if_neg (by simp [hb])).trans ((if_neg line).trans (if_neg block))

theorem follows_skipGap : Follows skipGap Scan.skipGap := by
  rintro ⟨cs, p⟩
  show skipGap _ = .ok () (Cursor.skip ⟨cs, p⟩ (Scan.gapLength cs)).lexer
  -- by the parts of the gap, of which the lexer reads one in each round
  induction cs using Scan.gapLength.induct generalizing p with
  | case1 =>
    rw [Scan.gapLength]
    exact skipGap_of_none rfl
  | case2 d ds hd ih =>
    have part : gapPart? (⟨d :: ds, p⟩ : Cursor).lexer = some (advance 1) := if_pos hd
    rw [skipGap_of_some part advance_cons, ih, Scan.gapLength_blank hd]
    rfl
  | case3 ds _ ih =>
    have comment := skipComment_lexer true ⟨'/' :: '/' :: ds, p⟩ (Nat.le_add_left 2 _)
    rw [skipGap_of_some rfl comment, Scan.gapLength_line, Nat.add_assoc, Nat.add_comm, Nat.add_comm _ 2,
      ← Cursor.skip_skip, ← Cursor.skip_skip]
    exact ih _
  | case4 ds _ ih =>
    have comment := skipComment_lexer false ⟨'/' :: '*' :: ds, p⟩ (Nat.le_add_left 2 _)
    rw [skipGap_of_some rfl comment, Scan.gapLength_block, Nat.add_assoc, Nat.add_comm, Nat.add_comm _ 2,
      ← Cursor.skip_skip, ← Cursor.skip_skip]
    exact ih _
  | case5 ds h₁ h₂ hb =>
    have zero : Scan.gapLength ('/' :: ds) = 0 := by
      rw [Scan.gapLength, if_neg hb, if_pos rfl]
      · exact h₁
      · exact h₂
    rw [zero]
    exact skipGap_of_none (gapPart_none zero)
  | case6 d ds hb hd =>
    have zero : Scan.gapLength (d :: ds) = 0 :=
      Scan.gapLength_eq_zero_iff.2 ⟨by simpa using hb, fun h => hd h.1⟩
    rw [zero]
    exact skipGap_of_none (gapPart_none zero)

/-! ### Numbers, words and strings -/

theorem follows_number : Follows number Scan.number := by
  intro c
  unfold number Scan.number
  rw [get_bind, bind_ok (readWhile_lexer ..), get_bind, current_lexer]
  dsimp only
  generalize c.rest.takeWhile Text.isDigit = whole
  generalize c.skip whole.length = c₁
  by_cases hp : c₁.rest.head? = some '.'
  · obtain ⟨ds, hds⟩ := List.head?_eq_some_iff.1 hp
    have one : 1 ≤ c₁.rest.length := by simp [hds]
    have tail : (c₁.skip 1).rest = c₁.rest.tail := List.drop_one
    rw [if_pos hp, if_pos hp, bind_ok (advance_lexer one), bind_ok (readWhile_lexer ..), tail,
      Cursor.skip_skip, Nat.add_comm]
    rfl
  · rw [if_neg hp, if_neg hp]
    rfl

theorem follows_word : Follows word Scan.word := by
  intro c
  unfold word
  rw [get_bind, bind_ok (readWhile_lexer ..)]
  rfl

theorem follows_escape : Follows escape Scan.escape := by
  refine (follows_advance 1).bind fun _ c => ?_
  obtain ⟨cs, p⟩ := c
  unfold escaped
  rw [get_bind, current_lexer]
  cases cs with
  | nil => rfl
  | cons d ds =>
    dsimp only
    by_cases hq : Scan.isQuote d = true
    · rw [if_pos hq, if_pos (by exact hq), bind_ok advance_cons]
      rfl
    · rw [if_neg hq, if_neg (by exact hq)]
      by_cases hd : d = 'n'
      · rw [if_pos hd, if_pos (by rw [hd]; rfl), bind_ok advance_cons]
        rfl
      · rw [if_neg hd, if_neg (by simpa using hd)]
        rfl

theorem stringTail_eq_bind {q : Char} (acc : List Char) (h : l.current = some d) (hq : d ≠ q)
    (hn : ¬(d = '\n' ∧ q ≠ '\x60')) : stringTail (some q) acc l =
      (stringPart d >>= fun cs => stringTail (some q) (cs ++ acc) : Lex String) l := by
  rw [stringTail, if_neg (by simpa [h] using hq)]
  split
  · rename_i e
    cases h.symm.trans e
  · rename_i e
    cases h.symm.trans e
    rw [if_neg (by simpa using hn)]
    simp only [Bind.bind, EStateM.bind]
    split <;> rename_i e <;> simp only [e]

theorem stringTail_escape {q : Char} (acc : List Char) (h : c.rest = '\\' :: ds) (hq : '\\' ≠ q) :
    stringTail (some q) acc c.lexer =
      match Scan.escape c with
      | .error f c' => .error f c'.lexer
      | .ok none c' => .error (.fault .wrongKind) c'.lexer
      | .ok (some e) c' => stringTail (some q) (e :: acc) c'.lexer := by
  rw [stringTail_eq_bind acc (congrArg List.head? h) hq fun hn => absurd hn.1 (by decide)]
  unfold stringPart
  rw [if_neg (by decide), if_pos rfl]
  simp only [Bind.bind, EStateM.bind, follows_escape c]
  cases Scan.escape c with
  | ok e c' => cases e <;> rfl
  | error f c' => rfl

theorem stringPart_plain (h : c.rest = d :: ds) (hb : d ≠ '\\') :
    stringPart d c.lexer = .ok (if d = '\r' then [] else [d]) (c.skip 1).lexer := by
  have one : 1 ≤ c.rest.length := by simp [h]
  by_cases hr : d = '\r'
  · rw [stringPart, if_pos hr, if_pos hr, bind_ok (advance_lexer one)]
    rfl
  · rw [stringPart, if_neg hr, if_neg hr, if_neg hb, bind_ok (advance_lexer one)]
    rfl

theorem follows_stringTail (q : Char) (acc : List Char) :
    Follows (stringTail (some q) acc) (Scan.stringTail q acc) := by
  intro c
  fun_induction Scan.stringTail q acc c with
  | case1 acc c h =>
    rw [stringTail, current_lexer, h]
    rfl
  | case2 acc c ds h =>
    have close : c.lexer.current = some q := congrArg List.head? h
    rw [stringTail, if_pos close, bind_ok (advance_lexer (by simp [h]))]
    rfl
  | case3 acc c d ds h hq hn =>
    have here : c.lexer.current = some d := congrArg List.head? h
    rw [stringTail, if_neg (by simpa [here] using hq), here]
    exact if_pos ⟨hn.1, by simpa using hn.2⟩
  | case4 acc c ds h hq hn ih =>
    rw [stringTail_eq_bind acc (congrArg List.head? h) hq hn]
    exact (bind_ok (stringPart_plain h (by decide))).trans ih
  | case5 acc c ds f c' he h hq | case6 acc c ds c' he h hq =>
    rw [stringTail_escape acc h hq, he]
    rfl
  | case7 acc c ds e c' he _ h hq _ _ ih =>
    rw [stringTail_escape acc h hq, he]
    exact ih
  | case8 acc c ds e c' he hlt =>
    have read : escape c.lexer = .ok (some e) c'.lexer := by rw [follows_escape c, he]; rfl
    exact absurd (Forward.escape.residual_lt read) hlt
  | case9 acc c d ds h hq hn hr hb ih =>
    have part := stringPart_plain h hb
    rw [if_neg hr] at part
    rw [stringTail_eq_bind acc (congrArg List.head? h) hq hn]
    exact (bind_ok part).trans ih

theorem follows_string : Follows string Scan.string := by
  rintro ⟨cs, p⟩
  unfold string
  rw [get_bind]
  cases cs with
  | nil => rfl
  | cons q cs =>
    have tail := follows_stringTail q [] ⟨cs, p.next q⟩
    have skip : (⟨q :: cs, p⟩ : Cursor).skip 1 = ⟨cs, p.next q⟩ := rfl
    rw [bind_ok advance_cons]
    simp only [Bind.bind, EStateM.bind, current_lexer, List.head?_cons, tail, Scan.string, skip]
    cases Scan.stringTail q [] ⟨cs, p.next q⟩ <;> rfl

/-! ### Tokens -/

theorem startsOperator {k : TokenKind} (hk : k ∈ TokenKind.operators) (c : Cursor) :
    (k.spelling.toList.head? = c.lexer.current && c.lexer.startsWith k.spelling) =
      k.spelling.toList.isPrefixOf c.rest := by
  obtain ⟨d, ds, hs, -⟩ := Scan.exists_spelling hk
  obtain ⟨cs, p⟩ := c
  have starts : (⟨cs, p⟩ : Cursor).lexer.startsWith k.spelling = k.spelling.toList.isPrefixOf cs := rfl
  rw [starts, hs]
  cases cs with
  | nil => rfl
  | cons e es => by_cases hd : d = e <;> simp [List.isPrefixOf, hd, current_lexer]

theorem follows_operator : Follows operator Scan.operator := by
  intro c
  unfold operator Scan.operator
  rw [get_bind, List.find?_congr fun k hk => startsOperator hk c]
  cases hk : TokenKind.operators.find? fun k => k.spelling.toList.isPrefixOf c.rest with
  | none => rfl
  | some k =>
    have enough : k.spelling.length ≤ c.rest.length := by
      have starts := List.find?_some hk
      rw [List.isPrefixOf_iff_prefix] at starts
      exact String.length_toList ▸ starts.length_le
    dsimp only
    rw [bind_ok (advance_lexer enough)]
    rfl

theorem follows_token : Follows token Scan.token := by
  refine follows_skipGap.bind fun _ c => ?_
  rw [get_bind]
  obtain ⟨cs, p⟩ := c
  cases cs with
  | nil => rfl
  | cons d ds =>
    dsimp only [current_lexer, List.head?_cons]
    split
    · exact follows_number _
    · split
      · exact follows_string _
      · split
        · exact follows_word _
        · exact follows_operator _

theorem tokens_lexer (c : Cursor) : tokens c.lexer = Scan.tokens c := by
  fun_induction Scan.tokens c with
  | case1 c f c' h =>
    rw [tokens, follows_token c, h]
    rfl
  | case2 c t c' h ht =>
    rw [tokens, follows_token c, h]
    exact if_pos ht
  | case3 c t c' h ht hlt more ih =>
    rw [tokens, follows_token c, h]
    simp only [lift, if_neg ht, ih]
    exact if_pos hlt
  | case4 c t c' h ht hlt =>
    rw [tokens, follows_token c, h]
    exact (if_neg ht).trans (if_neg hlt)

theorem start_eq {src : String} (h : src ≠ "") : start src = .ok (Cursor.start src).lexer := by
  unfold start
  split
  · rename_i e
    exact absurd (String.toList_eq_nil_iff.1 e) h
  · rename_i e
    simp only [Cursor.lexer, Cursor.start, e]
    rfl

end Lexer

/-- The tokens of a text are those that the scanner reads. -/
theorem tokenize_eq (src : String) : tokenize src =
    if src.isEmpty then ([], some (.fault .indexRange)) else Scan.tokens (.start src) := by
  by_cases h : src = ""
  · rw [h]
    rfl
  · rw [if_neg (mt String.isEmpty_iff.1 h), tokenize, Lexer.start_eq h]
    exact Lexer.tokens_lexer _

/-- A text whose tokens can be read to the end is not empty. -/
theorem tokenize_eq_iff {src : String} {ts : List Token} :
    tokenize src = (ts, none) ↔ src ≠ "" ∧ Scan.tokens (.start src) = (ts, none) := by
  rw [tokenize_eq]
  split
  · rename_i h
    simp [String.isEmpty_iff.1 h]
  · rename_i h
    simp [← String.isEmpty_iff, h]

end TinyScript
