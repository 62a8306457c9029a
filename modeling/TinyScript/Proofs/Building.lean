import TinyScript.Proofs.Reading

/-!
# What can be read is built

The converse of what the parser reads: tokens that can be read as a piece are taken by the rule of the
piece, with the tree that is read, if the token after them cannot go on with the piece (`Piece.conts`).
Repetitions are told by what is left to do (`Opens`), since they end only with the token after them.

Main statement (`built_of_reads`), and `whole_of_reads` for programs.
-/

namespace TinyScript

open Parse Grammar List

variable {k : TokenKind} {ks : List TokenKind} {ss xs ns es : List Node} {u t : Token} {f : Node}
  {l₂ l₁ : List Token} {s : Feed}

/-! ### Running rules on tokens -/

/-- The feed at the first of the tokens. -/
def Feed.ofList (l : List Token) (stop : Option Failure) : Feed := ⟨l.headD default, l.tail, stop⟩

/-- The next token is one of these. -/
def StartsIn (ks : List TokenKind) (l : List Token) : Prop := ∃ t l₁, l = t :: l₁ ∧ t.kind ∈ ks

/-- The next token, if there is one, is none of these. -/
def Stops (ks : List TokenKind) (l : List Token) : Prop := ∀ t ∈ l.head?, t.kind ∉ ks

namespace Stops

variable {ks ks' : List TokenKind} {t : Token} {l : List Token}

theorem mono (h : Stops ks l) (hs : ks' ⊆ ks) : Stops ks' l := fun t ht hk => h t ht (hs hk)

theorem cons (h : t.kind ∉ ks) : Stops ks (t :: l) := by
  rintro u ⟨⟩
  exact h

theorem nil : Stops [] l := fun _ _ => not_mem_nil

theorem of_kind (h : t.kind = k) (hk : k ∉ ks) : Stops ks (t :: l) :=
  .cons (h ▸ hk)

theorem kind_ne (h : Stops ks (t :: l)) (ht : t.kind = k) : k ∉ ks := ht ▸ h t rfl

end Stops

namespace StartsIn

variable {ks ks' : List TokenKind} {t : Token} {l : List Token}

theorem mono (hs : ks ⊆ ks') (h : StartsIn ks l) : StartsIn ks' l := by
  obtain ⟨t, l₁, rfl, ht⟩ := h
  exact ⟨t, l₁, rfl, hs ht⟩

theorem of_kind (h : t.kind = k) (hk : k ∈ ks) : StartsIn ks (t :: l) :=
  ⟨t, l, rfl, h ▸ hk⟩

theorem stops (h : StartsIn ks l) (hs : ∀ k ∈ ks, k ∉ ks') : Stops ks' l := by
  obtain ⟨t, l₁, rfl, ht⟩ := h
  exact .cons (hs _ ht)

theorem kind (h : StartsIn ks (t :: l)) : t.kind ∈ ks := by
  obtain ⟨_, _, he, ht⟩ := h
  cases he
  exact ht

/-- A token is not in two lists that have none in common. -/
theorem clash {P : Prop} (h : StartsIn ks l) (h' : StartsIn ks' l) (hno : ∀ k ∈ ks, k ∉ ks') : P := by
  obtain ⟨t, l, rfl, ht⟩ := h
  exact absurd h'.kind (hno _ ht)

end StartsIn

namespace Parse

variable {α β : Type} {x : Parse α} {f : α → Parse β} {a : α} {b : β} {k : TokenKind} {t : Token}
  {l l' l'' : List Token}

/-- `x` takes the tokens of `l` before `l'`, whatever follows, and gives `a`. -/
def Gets (x : Parse α) (l : List Token) (a : α) (l' : List Token) : Prop :=
  l' ≠ [] → l ≠ [] ∧ ∀ stop, x (.ofList l stop) = .ok a (.ofList l' stop)

namespace Gets

variable {c : Prop} {y : Parse α}

theorem pure : Gets (Pure.pure a) l a l := fun hl => ⟨hl, fun _ => rfl⟩

theorem bind (hx : Gets x l a l') (hf : Gets (f a) l' b l'') : Gets (x >>= f) l b l'' := by
  intro hl
  obtain ⟨hl', h'⟩ := hf hl
  obtain ⟨hl, h⟩ := hx hl'
  exact ⟨hl, fun stop => (bind_of_ok (h stop)).trans (h' stop)⟩

theorem assoc {γ : Type} {g : β → Parse γ} {c : γ} (h : Gets ((x >>= f) >>= g) l c l') :
    Gets (x >>= fun a => f a >>= g) l c l' := by
  rwa [bind_assoc] at h

theorem current {f : Token → Parse β} (h : Gets (f t) (t :: l) b l') :
    Gets (current >>= f) (t :: l) b l' :=
  .bind (fun hl => ⟨hl, fun _ => rfl⟩) h

theorem kind {f : TokenKind → Parse β} (h : Gets (f t.kind) (t :: l) b l') :
    Gets (kind >>= f) (t :: l) b l' :=
  .bind (fun hl => ⟨hl, fun _ => rfl⟩) h

theorem position {f : Position → Parse β} (h : Gets (f t.pos) (t :: l) b l') :
    Gets (position >>= f) (t :: l) b l' :=
  .bind (fun hl => ⟨hl, fun _ => rfl⟩) h

theorem text {f : String → Parse β} (h : Gets (f (t.text.getD "")) (t :: l) b l') :
    Gets (text >>= f) (t :: l) b l' :=
  .bind (fun hl => ⟨hl, fun _ => rfl⟩) h

theorem kind_of {f : TokenKind → Parse β} (hk : t.kind = k) (h : Gets (f k) (t :: l) b l') :
    Gets (Parse.kind >>= f) (t :: l) b l' :=
  .kind (hk ▸ h)

theorem pos [Decidable c] (hc : c) (h : Gets x l a l') : Gets (if c then x else y) l a l' := by
  rwa [if_pos hc]

theorem neg [Decidable c] (hc : ¬ c) (h : Gets y l a l') : Gets (if c then x else y) l a l' := by
  rwa [if_neg hc]

theorem map {g : α → β} (hx : Gets x l a l') : Gets (g <$> x) l (g a) l' :=
  .bind (f := fun a => Pure.pure (g a)) hx .pure

theorem advance : Gets advance (t :: l) () l := by
  intro hl
  refine ⟨cons_ne_nil _ _, fun _ => ?_⟩
  cases l with
  | nil => exact absurd rfl hl
  | cons u l => rfl

theorem eat (hk : t.kind = k) : Gets (eat k) (t :: l) () l := by
  intro hl
  refine ⟨cons_ne_nil _ _, fun stop => ?_⟩
  exact (if_pos hk).trans ((advance hl).2 stop)

theorem eat? (h : Reads (.opt (.token k)) l [] l') (hs : Stops [k] l') : Gets (eat? k) l () l' := by
  intro hl
  cases h with
  | absent =>
    cases l with
    | nil => exact absurd rfl hl
    | cons t l =>
      have hk : t.kind ≠ k := by simpa using hs t rfl
      exact ⟨hl, fun stop => if_neg hk⟩
  | present h =>
    cases h with
    | token hk => exact ⟨cons_ne_nil _ _, fun stop => (if_pos hk).trans ((advance hl).2 stop)⟩

theorem of_stops (hs : Stops ks l) (h : ∀ t ts, l = t :: ts → t.kind ∉ ks → Gets x (t :: ts) a (t :: ts)) :
    Gets x l a l := by
  intro hl
  cases l with
  | nil => exact absurd rfl hl
  | cons t l => exact h t l rfl (hs t rfl) hl

end Gets

/-- `x` has come from `l` to `l'` when `tail` is left to do, with more fuel than tokens. -/
def Opens (x : Parse α) (tail : Nat → Parse α) (l l' : List Token) : Prop :=
  ∃ m, l'.length < m ∧ ∀ b l'', Gets (tail m) l' b l'' → Gets x l b l''

namespace Opens

variable {tail tail' : Nat → Parse α}

theorem step (h : Opens x tail l l') (hl : l''.length < l'.length)
    (ht : ∀ m b l₁, Gets (tail' m) l'' b l₁ → Gets (tail (m + 1)) l' b l₁) :
    Opens x tail' l l'' := by
  obtain ⟨m, hm, h⟩ := h
  obtain ⟨m, rfl⟩ : ∃ m', m = m' + 1 := ⟨m - 1, by omega⟩
  exact ⟨m, by omega, fun b l₁ hb => h b l₁ (ht m b l₁ hb)⟩

theorem close (h : Opens x tail l l') (ht : ∀ m, Gets (tail (m + 1)) l' a l'') : Gets x l a l'' := by
  obtain ⟨m, hm, h⟩ := h
  obtain ⟨m, rfl⟩ : ∃ m', m = m' + 1 := ⟨m - 1, by omega⟩
  exact h a l'' (ht m)

end Opens
end Parse

/-! ### First tokens and tokens that go on -/

namespace Piece

/-- The rule that reads one tree as the piece. -/
def rule (n : Nat) : Piece → Parse Node
  | .name => Grammar.name
  | .place => Grammar.place n (rules n)
  | .function => funcDef n (rules n)
  | .primary => Grammar.primary n (rules n)
  | .unary => Grammar.unary n (rules n)
  | .expr => Grammar.select n (rules n)
  | .stat => Grammar.stat n (rules n)
  | .chain ops p => Grammar.chain n ops (p.rule n)
  | .once ops p => Grammar.once ops (p.rule n)
  | _ => outOfFuel

theorem rule_tower (n : Nat) (ls : List Level) : (tower ls).rule n = binary n (rules n) ls := by
  induction ls with
  | nil => rfl
  | cons l ls ih =>
    unfold tower binary
    split <;> simp only [rule, ih]

/-- The tokens an operand can begin with. -/
def atoms : List TokenKind :=
  [.intLiteral, .floatLiteral, .stringLiteral, .kwTrue, .kwFalse, .kwNull, .lparen, .lbrack, .lbrace,
    .kwFunc, .identifier]

/-- The tokens a statement can begin with. -/
def openers : List TokenKind :=
  [.semi, .lbrace, .kwVar, .kwConst, .kwIf, .kwSwitch, .kwRepeat, .kwWhile, .kwFor, .kwBreak,
    .kwContinue, .kwFunc, .kwReturn, .identifier]

/-- The tokens a piece can begin with, if it takes a token at all. -/
def starts : Piece → List TokenKind
  | .name | .place => [.identifier]
  | .function => [.lparen]
  | .call => [.identifier, .kwFunc]
  | .primary => atoms
  | .unary | .expr | .entries _ | .clauses _ _ => TokenKind.unaries ++ atoms
  | .stat => openers
  | .body => .colon :: openers
  | .token k | .after k _ => [k]
  | .chain _ p | .once _ p | .commas p => p.starts
  | .opt _ | .stats => []

/-- The tokens that go on with an expression. -/
def exprConts : List TokenKind :=
  .query :: (levels.flatMap (·.ops) ++ [.pow, .lbrack, .dot, .lparen])

/-- The tokens with which a piece that could end goes on. -/
def conts : Piece → List TokenKind
  | .place => [.lbrack, .dot]
  | .primary => [.lbrack, .dot, .lparen]
  | .unary => [.pow, .lbrack, .dot, .lparen]
  | .expr | .entries _ => exprConts
  | .stat | .body | .stats | .clauses _ _ => .comma :: .assign :: exprConts
  | .chain ops p | .once ops p => ops ++ p.conts
  | .after _ p | .opt p | .commas p => p.conts
  | .name | .function | .call | .token _ => []

/-- Pieces with a rule, where an operator does not go on with its operand. -/
def isRule : Piece → Bool
  | .name | .place | .function | .primary | .unary | .expr | .stat => true
  | .chain ops p | .once ops p => p.isRule && ops.all fun k => !p.conts.elem k
  | _ => false

/-- Lists are lists of such pieces, and neither a comma nor the word of a clause goes on with one. -/
def isSane : Piece → Bool
  | .chain ops p => (Piece.chain ops p).isRule
  | .once ops p => (Piece.once ops p).isRule
  | .commas p => p.isRule && !p.conts.elem .comma
  | .clauses word _ => !(Piece.conts .stat).elem word
  | .after _ p | .opt p => p.isSane
  | _ => true

end Piece

namespace Reads

variable {p : Piece} {l l' : List Token} {ns : List Node}

theorem startsIn (h : Reads p l ns l') (hp : p.isSolid = true) : StartsIn p.starts l := by
  induction h with
  | absent | present | done | line => cases hp
  | token ht | after ht => exact .of_kind ht mem_cons_self
  | name ht | function ht | int ht | float ht | string ht | null ht | paren ht | listOf ht | mapNone ht
  | mapOf ht | setOf ht | empty ht | block ht | branch ht | branchElse ht | switch ht | switchDefault ht
  | repeatUntil ht | whileLoop ht | forRange ht | forEach ht | breakLoop ht | continueLoop ht
  | funcStat ht | returnNone ht | returnValue ht => exact .of_kind ht (by decide)
  | bool ht | declare ht | signed ht => exact StartsIn.mono (by decide) ⟨_, _, rfl, ht⟩
  | one _ ih | more _ _ _ ih | base _ ih | item _ _ _ _ ih | field _ _ _ ih | first _ ih | next _ _ _ ih
  | lone _ ih | compare _ _ _ ih | entry _ _ _ ih | entries _ _ _ _ _ ih | clause _ _ ih
  | clauses _ _ _ _ ih => exact ih hp
  | call hq _ _ _ _ ih => rcases hq with rfl | rfl <;> exact .mono (by decide) (ih rfl)
  | operand hq _ ih => rcases hq with rfl | rfl | rfl <;> exact .mono (by decide) (ih rfl)
  | unsigned _ ih | plain _ ih | select _ _ _ _ _ ih | assign _ _ _ ih | update _ _ _ ih
  | callStat _ ih => exact .mono (by decide) (ih rfl)
  | body hk _ _ ih =>
    cases hk with
    | absent => exact .mono (subset_cons_self _ _) (ih rfl)
    | present hk =>
      cases hk with
      | token ht => exact .of_kind ht mem_cons_self

theorem stats_cases (h : Reads .stats l ss l') : l = l' ∨ StartsIn Piece.openers l := by
  generalize hq : Piece.stats = q at h
  induction h with
  | done => exact .inl rfl
  | line _ hs ih =>
    rcases ih rfl with rfl | h
    · exact .inr (hs.startsIn rfl)
    · exact .inr h
  | _ => cases hq

theorem stats_cons {l₀ : List Token} {s : Node} (h : Reads .stats l ss l') (hs : Reads .stat l₀ [s] l) :
    Reads .stats l₀ (if s.isEmpty then ss else s :: ss) l' := by
  generalize hq : Piece.stats = q at h
  induction h with
  | done => exact .line .done hs
  | @line _ ss _ s' _ _ hs' ih =>
    have h := Reads.line (ih hs hq) hs'
    cases hs : s.isEmpty <;> cases hs' : s'.isEmpty <;> simpa [hs, hs'] using h
  | _ => cases hq

end Reads

/-! ### What the rules do -/

/-- What the rule of a piece does with tokens that are read as the piece. -/
def Builds : Piece → List Token → List Node → List Token → Prop
  | .token _, _, _, _ => True
  | .after k p, l, ns, l' => ∃ t l₁, l = t :: l₁ ∧ t.kind = k ∧ Builds p l₁ ns l'
  | .opt p, l, ns, l' => ns = [] ∧ l = l' ∨ Builds p l ns l'
  | .commas p, l, xs, l' => ∀ k, l.length ≤ k → Stops p.conts l' →
      ∃ x l₁, Gets (p.rule k) l x l₁ ∧ (l₁ = l' ∨ StartsIn [.comma] l₁) ∧ ∀ n, l.length ≤ n →
        Opens (commaTail (p.rule k) n [x]) (fun m => commaTail (p.rule k) m xs.reverse) l₁ l'
  | .place, l, ns, l' => ∀ e n, ns = [e] → l.length ≤ n →
      Opens (place n (rules n)) (fun m => placeTail (rules n) m e) l l'
  | .chain ops p, l, ns, l' => ∀ e n, ns = [e] → l.length ≤ n → Stops p.conts l' →
      Opens (chain n ops (p.rule n)) (fun m => chainTail ops (p.rule n) m e) l l'
  | .call, l, ns, l' => ∀ e n, ns = [e] → l.length ≤ n →
      Gets (primary n (rules n)) l e l' ∧ Gets (stat n (rules n)) l e l'
  | .entries ks, l, vs, l' => ∀ t n, t.kind = .lbrace → l.length < n → Stops Piece.exprConts l' →
      ∃ m, l'.length < m ∧ ∀ b u l'', u.kind = .rbrace →
        Gets (entryTail (rules n) m ks.reverse vs.reverse) l' b (u :: l'') →
        Gets (mapOrSet n (rules n)) (t :: l) (.mapOf b.1 b.2 t.pos) l''
  | .stats, l, ss, l' => ∀ n, l.length < n → Stops (Piece.conts .stat) l' →
      Opens (statList n (rules n)) (fun m => statListTail (rules n).stat m ss.reverse) l l'
  | .body, l, ns, l' => ∀ b n, ns = [b] → l.length < n → Stops (Piece.conts .stat) l' →
      ∃ l₁, Gets (eat? .colon) l () l₁ ∧ Gets (rules n).stat l₁ b l'
  | .clauses word cs, l, bs, l' => ∀ k n, l.length < n → l.length < k → Stops (Piece.conts .stat) l' →
      ∃ acc : List (Node × Node), acc.map (·.1) = cs ∧ acc.map (·.2) = bs ∧
        Opens (clause (rules n) >>= fun c => clauseTail (rules n) word k [c])
          (fun m => clauseTail (rules n) word m acc.reverse) l l'
  | p, l, ns, l' => ∀ e n, ns = [e] → l.length ≤ n → Stops p.conts l' → Gets (p.rule n) l e l'

variable {n m : Nat} {p : Piece} {item : Parse Node} {ops : List TokenKind} {e : Node} {l l' : List Token}

theorem gets_commaTail {acc : List Node} (hs : Stops [.comma] l) :
    Gets (commaTail item (m + 1) acc) l acc.reverse l := by
  refine .of_stops hs fun t ts hl hk => .kind ?_
  rw [if_neg (by simpa using hk)]
  exact .pure

theorem gets_chainTail (hs : Stops ops l) : Gets (chainTail ops item (m + 1) e) l e l := by
  refine .of_stops hs fun t ts hl hk => .current ?_
  rw [if_neg hk]
  exact .pure

theorem gets_placeTail {r : Rules} (hs : Stops [.lbrack, .dot] l) :
    Gets (placeTail r (m + 1) e) l e l := by
  refine .of_stops hs fun t ts hl hk => .current ?_
  rw [mem_cons, mem_singleton, not_or] at hk
  rw [if_neg hk.1, if_neg hk.2]
  exact .pure

namespace Builds

theorem gets (h : Builds p l [e] l') (hp : p.isRule = true) (hl : l.length ≤ n)
    (hs : Stops p.conts l') : Gets (p.rule n) l e l' := by
  cases p with
  | place => exact (h e n rfl hl).close fun m => gets_placeTail hs
  | chain ops p =>
    have ho := hs.mono (subset_append_left _ _)
    have hc := hs.mono (subset_append_right _ _)
    exact (h e n rfl hl hc).close fun m => gets_chainTail ho
  | name | function | primary | unary | expr | stat | once => exact h e n rfl hl hs
  | _ => cases hp

theorem expr (h : Builds .expr l [e] l') (hl : l.length < n) (hs : Stops Piece.exprConts l') :
    Gets (rules n).expr l e l' := by
  cases n with
  | zero => cases hl
  | succ n => exact h e n rfl (Nat.le_of_lt_succ hl) hs

theorem unary (h : Builds .unary l [e] l') (hl : l.length < n) (hs : Stops (Piece.conts .unary) l') :
    Gets (rules n).unary l e l' := by
  cases n with
  | zero => cases hl
  | succ n => exact h e n rfl (Nat.le_of_lt_succ hl) hs

theorem stat (h : Builds .stat l [e] l') (hl : l.length < n) (hs : Stops (Piece.conts .stat) l') :
    Gets (rules n).stat l e l' := by
  cases n with
  | zero => cases hl
  | succ n => exact h e n rfl (Nat.le_of_lt_succ hl) hs

theorem commas (h : Builds (.commas p) l xs l') {k : Nat} (hk : l.length ≤ k) (hs : Stops p.conts l')
    (hc : Stops [.comma] l') : ∃ x l₁, Gets (p.rule k) l x l₁ ∧
      (l₁ = l' ∨ StartsIn [.comma] l₁) ∧
      ∀ n, l.length ≤ n → Gets (commaTail (p.rule k) n [x]) l₁ xs l' := by
  obtain ⟨x, l₁, hx, hor, ho⟩ := h k hk hs
  refine ⟨x, l₁, hx, hor, fun n hn => (ho n hn).close fun m => ?_⟩
  have hend : Gets (commaTail (p.rule k) (m + 1) xs.reverse) l' xs.reverse.reverse l' := gets_commaTail hc
  simpa using hend

theorem exprs (h : Builds (.commas .expr) l xs l') (hl : l.length < n)
    (hs : Stops (.comma :: Piece.exprConts) l') : Gets (exprList n (rules n)) l xs l' := by
  cases n with
  | zero => cases hl
  | succ n =>
    obtain ⟨x, l₁, hx, -, ht⟩ := h.commas (Nat.le_of_lt_succ hl) (hs.mono (subset_cons_self _ _))
      (hs.mono (by simp))
    exact .bind hx (ht _ (Nat.le_of_lt hl))

theorem names (h : Builds (.commas .name) l xs l') (hl : l.length ≤ n) (hs : Stops [.comma] l') :
    Gets (nameList n) l xs l' := by
  obtain ⟨x, l₁, hx, -, ht⟩ := h.commas hl (hs.mono (nil_subset _)) hs
  exact .bind hx (ht _ hl)

end Builds

namespace Piece

theorem isSane_of_isRule (h : p.isRule = true) : p.isSane = true := by
  cases p with
  | chain | once => exact h
  | commas | after | opt | clauses => cases h
  | _ => rfl

theorem isSolid_of_isRule (h : p.isRule = true) : p.isSolid = true := by
  induction p with
  | chain ops p ih | once ops p ih => exact ih (Bool.and_eq_true_iff.1 h).1
  | opt | commas | stats => cases h
  | _ => rfl

theorem not_mem_conts (h : (Piece.chain ops p).isRule = true) (hk : k ∈ ops) : k ∉ p.conts := by
  have := all_eq_true.1 (Bool.and_eq_true_iff.1 h).2 k hk
  simpa using this

theorem not_list_of_update (h : k ∈ TokenKind.updates) :
    ¬ (k = .comma ∨ k = .assign) ∧ k ≠ .lparen ∧ k ∉ Piece.conts .place := by
  revert k
  decide

end Piece

/-- A list that is left out, or begins with a token that does not end it. -/
theorem gets_listUnless {ends : List TokenKind} {list : Parse (List Node)}
    (h : Reads (.opt (.commas p)) l ns (u :: l')) (hu : u.kind ∈ ends) (hp : p.isSolid = true)
    (hd : ∀ k ∈ p.starts, k ∉ ends) (hl : ns ≠ [] → Gets list l ns (u :: l')) :
    Gets (listUnless ends list) l (given ns) (u :: l') := by
  cases h with
  | absent => exact .kind (by rw [if_pos hu]; exact .pure)
  | present h =>
    obtain ⟨t, l₁, rfl, ht⟩ := h.startsIn hp
    refine .kind ?_
    rw [if_neg (hd _ ht), given_of_ne_nil h.ne_nil]
    exact (hl h.ne_nil).map

theorem gets_exprs (hn : l.length < n) (h : Reads (.opt (.commas .expr)) l es (u :: l'))
    (hb : Builds (.opt (.commas .expr)) l es (u :: l')) (hu : u.kind = k)
    (hk : k = .rparen ∨ k = .rbrack) :
    Gets (listUnless [k] (exprList n (rules n))) l (given es) (u :: l') := by
  refine gets_listUnless h (by simp [hu]) rfl ?_ fun hne => ?_
  · rcases hk with rfl | rfl <;> decide
  · refine Builds.exprs (hb.resolve_left fun h => hne h.1) hn (.of_kind hu ?_)
    rcases hk with rfl | rfl <;> decide

/-- A list of statements ends before a closing brace or the end. -/
theorem gets_stats (h : Builds .stats l ss (u :: l')) (hl : l.length < n)
    (hu : u.kind = .rbrace ∨ u.kind = .eof) : Gets (statList n (rules n)) l ss (u :: l') := by
  refine (h n hl (.cons ?_)).close fun m => .kind (.pos hu ?_)
  · rcases hu with hu | hu <;> rw [hu] <;> decide
  · rw [reverse_reverse]
    exact .pure

/-- What may be called, and its arguments if there are any. -/
def callOpt (n : Nat) (f : Node) : Parse Node :=
  kind >>= fun k => if k = .lparen then callTail n (rules n) f else pure f

theorem gets_callOpt (hs : Stops [.lparen] l) : Gets (callOpt n e) l e l :=
  .of_stops hs fun _ _ _ hk => .kind (.neg (by simpa using hk) .pure)

theorem gets_primary_place (h : Reads .place l [f] l') (hb : Builds .place l [f] l') (hl : l.length ≤ n)
    (hs : Stops [.lbrack, .dot] l') (hc : Gets (callOpt n f) l' e l₂) :
    Gets (primary n (rules n)) l e l₂ := by
  obtain ⟨t, l₁, rfl, ht⟩ := h.startsIn rfl
  refine .current ?_
  rw [mem_singleton.1 ht]
  exact .bind (hb.gets (p := .place) rfl hl hs) hc

theorem gets_primary_lambda (hb : Builds .lambda l [f] l') (hl : l.length ≤ n)
    (hc : Gets (callOpt n f) l' e l₂) : Gets (primary n (rules n)) l e l₂ := by
  obtain ⟨t, l₁, rfl, ht, hf⟩ := hb
  refine .current ?_
  rw [ht]
  exact .bind .advance (.bind (hf f n rfl (Nat.le_of_succ_le hl) .nil) hc)

theorem built_call {as : List Node} (hp : p = .place ∨ p = .lambda) (hf : Reads p l [f] (t :: l₁))
    (ht : t.kind = .lparen) (ha : Reads (.opt (.commas .expr)) l₁ as (u :: l')) (hu : u.kind = .rparen)
    (hbf : Builds p l [f] (t :: l₁)) (hba : Builds (.opt (.commas .expr)) l₁ as (u :: l')) :
    Builds .call l [.call f (given as) t.pos] l' := by
  rintro e n ⟨⟩ hl
  have hargs : Gets (callTail n (rules n) f) (t :: l₁) (.call f (given as) t.pos) l' := by
    refine .position (.bind (.eat ht) (.bind (gets_exprs ?_ ha hba hu (.inl rfl)) (.bind (.eat hu) .pure)))
    exact Nat.le_trans hf.length_le hl
  have hcall : Gets (callOpt n f) (t :: l₁) (.call f (given as) t.pos) l' := .kind (.pos ht hargs)
  rcases hp with rfl | rfl
  · have hs : Stops [.lbrack, .dot] (t :: l₁) := .of_kind ht (by decide)
    refine ⟨gets_primary_place hf hbf hl hs hcall, ?_⟩
    obtain ⟨v, l₂, rfl, hv⟩ := hf.startsIn rfl
    exact .kind_of (mem_singleton.1 hv) (.bind (hbf.gets (p := .place) rfl hl hs) (.kind_of ht hargs))
  · refine ⟨gets_primary_lambda hbf hl hcall, ?_⟩
    obtain ⟨v, l₂, rfl, hv, hfun⟩ := hbf
    cases hf with
    | after _ hf =>
      obtain ⟨w, l₃, rfl, hw⟩ := hf.startsIn rfl
      refine .kind_of hv (.bind (.eat hv) (.kind_of (mem_singleton.1 hw) ?_))
      exact .bind (hfun f n rfl (Nat.le_of_succ_le hl) .nil) hargs

theorem gets_clause {c b : Node} (hc : Builds .expr l [c] l₁) (hb : Builds .body l₁ [b] l')
    (hr : Reads .body l₁ [b] l') (hl : l.length < n) (hl₁ : l₁.length < n)
    (hs : Stops (Piece.conts .stat) l') : Gets (clause (rules n)) l (c, b) l' := by
  obtain ⟨l₂, hk, hst⟩ := hb b n rfl hl₁ hs
  exact .bind (hc.expr hl ((hr.startsIn rfl).stops (by decide))) (.bind hk (.bind hst .pure))

/-- `(ASSIGN expr_list)?` -/
theorem gets_initializers (h : Reads (.opt (.after .assign (.commas .expr))) l es l')
    (hb : Builds (.opt (.after .assign (.commas .expr))) l es l') (hl : l.length < n)
    (hs : Stops (Piece.conts .stat) l') : Gets (initializers n (rules n)) l (given es) l' := by
  cases h with
  | absent =>
    refine .of_stops hs fun t ts hl hk => .kind (.neg ?_ .pure)
    exact fun h => hk (by rw [h]; decide)
  | present h =>
    cases h with
    | after ht h =>
      obtain ⟨u, l₁, ⟨⟩, -, hb⟩ := hb.resolve_left fun hn => h.ne_nil hn.1
      rw [given_of_ne_nil h.ne_nil]
      refine .kind (.pos ht (.bind .advance (.map (hb.exprs (Nat.lt_of_succ_lt hl) (hs.mono ?_)))))
      decide

theorem Parse.Opens.clauses {x : Parse (List (Node × Node))} {word : TokenKind}
    {acc : List (Node × Node)}
    (ho : Opens x (fun m => clauseTail (rules n) word m acc.reverse) l (u :: l')) (hu : u.kind ≠ word) :
    Gets x l acc (u :: l') := by
  refine ho.close fun m => .kind (.neg hu ?_)
  rw [reverse_reverse]
  exact .pure

theorem gets_cases {v : Token} {cs bs : List Node} (hu : u.kind = .kwCase)
    (hb : Builds (.clauses .kwCase cs) l bs (v :: l')) (hl : l.length + 1 < n)
    (hs : Stops (Piece.conts .stat) (v :: l')) (hv : v.kind ≠ .kwCase) :
    ∃ acc, acc.map (·.1) = cs ∧ acc.map (·.2) = bs ∧
      Gets (clauseTail (rules n) .kwCase n []) (u :: l) acc (v :: l') := by
  cases n with
  | zero => cases hl
  | succ n =>
    obtain ⟨acc, h₁, h₂, ho⟩ := hb n (n + 1) (by omega) (by omega) hs
    exact ⟨acc, h₁, h₂, .kind (.pos hu (.bind .advance (ho.clauses hv)))⟩

/-- What may stand between an expression and a token after an optional one. -/
theorem stops_of_opt (h : Reads (.opt (.token k)) l ns l' ∨ Reads (.opt (.after k p)) l ns l')
    (hk : k ∉ ks) (hs : Stops ks l') : Stops ks l := by
  rcases h with h | h
  all_goals
    cases h with
    | absent => exact hs
    | present h =>
      cases h
      exact .of_kind ‹_› hk

theorem Reads.exists_eq (h : Reads p l ns l') (hp : p.isRule = true) : ∃ e, ns = [e] := by
  cases h with
  | token | after | absent | present | one | more | entry | entries | done | line | body | clause
  | clauses => cases hp
  | _ => exact ⟨_, rfl⟩

theorem gets_afterComma (hp : p.isRule = true) (h : Reads (.opt (.after .comma p)) l xs l')
    (hb : Builds (.opt (.after .comma p)) l xs l') (hs : Stops [.comma] l')
    (hi : ∀ l₁ x, l₁.length ≤ l.length → Builds p l₁ [x] l' → Gets item l₁ x l') :
    Gets (afterComma item) l (xs.headD .missing) l' := by
  cases h with
  | absent => exact .of_stops hs fun _ _ _ hk => .kind (.neg (by simpa using hk) .pure)
  | present h =>
    cases h with
    | after ht h =>
      obtain ⟨x, rfl⟩ := h.exists_eq hp
      obtain ⟨u, l₁, ⟨⟩, -, hb⟩ := hb.resolve_left fun hn => cons_ne_nil _ _ hn.1
      exact .kind (.pos ht (.bind .advance (hi _ x (Nat.le_succ _) hb)))

theorem ne_of_starts (h : t.kind ∈ ks) (hk : k ∉ ks) : t.kind ≠ k := ne_of_mem_of_not_mem h hk

/-- Tokens that are read as a piece are taken by its rule. -/
theorem built_of_reads (h : Reads p l ns l') (hp : p.isSane = true) : Builds p l ns l' := by
  induction h with
  | token => trivial
  | after ht _ ih => exact ⟨_, _, rfl, ht, ih hp⟩
  | absent => exact .inl ⟨rfl, rfl⟩
  | present _ ih => exact .inr (ih hp)
  | one h ih =>
    intro k hk hs
    have hr := (Bool.and_eq_true_iff.1 hp).1
    refine ⟨_, _, (ih (Piece.isSane_of_isRule hr)).gets hr hk hs, .inl rfl, fun n hn => ⟨n, ?_, ?_⟩⟩
    · exact Nat.lt_of_lt_of_le (h.length_lt (Piece.isSolid_of_isRule hr)) hn
    · exact fun b l'' hb => hb
  | more h ht hx ih ihx =>
    intro k hk hs
    obtain ⟨hr, hc⟩ := Bool.and_eq_true_iff.1 hp
    obtain ⟨y, l₂, hy, hor, ho⟩ := ih hp k hk (.of_kind ht (by simpa using hc))
    have hlt := hx.length_lt (Piece.isSolid_of_isRule hr)
    have hle := Nat.le_of_succ_le (Nat.le_trans h.length_le hk)
    refine ⟨y, l₂, hy, .inr ?_, fun n hn => (ho n hn).step (Nat.lt_succ_of_lt hlt) fun m b l₃ hb => ?_⟩
    · rcases hor with rfl | hor
      · exact .of_kind ht mem_cons_self
      · exact hor
    · rw [reverse_append] at hb
      have hitem := (ihx (Piece.isSane_of_isRule hr)).gets hr hle hs
      exact .kind (.pos ht (.bind .advance (.bind hitem hb)))
  | name ht =>
    rintro e n ⟨⟩ hl hs
    exact .text (.position (.bind (.eat ht) .pure))
  | base h ih =>
    rintro e n ⟨⟩ hl
    refine ⟨n, Nat.lt_of_lt_of_le (h.length_lt rfl) hl, fun b l'' hb => .bind ?_ hb⟩
    exact (ih rfl).gets (p := .name) rfl hl .nil
  | item hb ht hk hu ihb ihk =>
    rintro e n ⟨⟩ hl
    have hkey := (ihk rfl).expr (Nat.le_trans hb.length_le hl) (.of_kind hu (by decide))
    refine (ihb rfl _ n rfl hl).step (Nat.lt_succ_of_lt hk.length_le) fun m b l₂ h => ?_
    exact .current (.pos ht (.bind .advance (.bind hkey (.bind (.eat hu) h))))
  | field hb ht hu ihb =>
    rintro e n ⟨⟩ hl
    refine (ihb rfl _ n rfl hl).step (Nat.lt_succ_of_lt (Nat.lt_succ_self _)) fun m b l₂ h => .current ?_
    rw [if_neg (by rw [ht]; decide)]
    exact .pos ht (.bind .advance (.text (.position (.bind (.eat hu) h))))
  | function ht hps hu hv hb hw ihp ihb =>
    rintro e n ⟨⟩ hl hs
    have hle := Nat.le_trans hps.length_le (Nat.le_of_succ_le hl)
    refine .position (.bind (.eat ht) (.bind (gets_listUnless hps (by simp [hu]) rfl (by decide) ?_) ?_))
    · refine fun hne => Builds.names ((ihp rfl).resolve_left fun h => hne h.1) (Nat.le_of_succ_le hl) ?_
      exact .of_kind hu (by decide)
    · refine .bind (.eat hu) (.bind (.eat hv) (.bind ?_ (.bind (.eat hw) .pure)))
      exact gets_stats (ihb rfl) (Nat.lt_of_succ_le (Nat.le_of_succ_le hle)) (.inl hw)
  | call hq hf ht ha hu ihf iha =>
    exact built_call hq hf ht ha hu (ihf (by rcases hq with rfl | rfl <;> rfl)) (iha rfl)
  | int ht | float ht | string ht | null ht =>
    rintro e n ⟨⟩ hl hs
    refine .current ?_
    rw [ht]
    exact .bind .advance .pure
  | bool ht =>
    rintro e n ⟨⟩ hl hs
    rw [mem_cons, mem_singleton] at ht
    refine .current ?_
    rcases ht with ht | ht <;> rw [ht] <;> exact .bind .advance .pure
  | paren ht he hu ih =>
    rintro e n ⟨⟩ hl hs
    refine .current ?_
    rw [ht]
    exact .bind .advance (.bind ((ih rfl).expr hl (.of_kind hu (by decide))) (.bind (.eat hu) .pure))
  | listOf ht he hu ih =>
    rintro e n ⟨⟩ hl hs
    refine .current ?_
    rw [ht]
    exact .position (.bind (.eat ht) (.bind (gets_exprs hl he (ih rfl) hu (.inr rfl)) (.bind (.eat hu) .pure)))
  | mapNone ht hu =>
    rintro e n ⟨⟩ hl hs
    refine .current ?_
    rw [ht]
    exact .position (.bind (.eat ht) (.kind (.pos hu (.bind .advance .pure))))
  | @mapOf t l ks vs u l' ht he hu ih =>
    rintro e n ⟨⟩ hl hs
    obtain ⟨m, hm, h⟩ := ih rfl t n ht hl (.of_kind hu (by decide))
    obtain ⟨m, rfl⟩ : ∃ m', m = m' + 1 := ⟨m - 1, by omega⟩
    refine .current ?_
    rw [ht]
    refine h (ks, vs) u l' hu (.kind (.neg (by rw [hu]; decide) ?_))
    rw [reverse_reverse, reverse_reverse]
    exact .pure
  | setOf ht he hu ih =>
    rintro e n ⟨⟩ hl hs
    obtain ⟨v, l₁, rfl, hv⟩ := he.startsIn rfl
    cases n with
    | zero => cases hl
    | succ n =>
      obtain ⟨x, l₂, hx, hor, hxs⟩ := (ih rfl).commas (Nat.le_of_lt_succ hl) (.of_kind hu (by decide))
        (.of_kind hu (by decide))
      have hnext : StartsIn [.rbrace, .comma] l₂ := by
        rcases hor with rfl | hor
        · exact .of_kind hu mem_cons_self
        · exact hor.mono (subset_cons_self _ _)
      obtain ⟨w, l₃, rfl, hw⟩ := hnext
      refine .current ?_
      rw [ht]
      refine .position (.bind (.eat ht) (.kind (.neg (ne_of_starts hv (by decide)) (.bind hx ?_))))
      refine .kind (.neg (ne_of_starts hw (by decide)) (.bind (hxs _ (Nat.le_of_lt hl)) ?_))
      exact .bind (.eat hu) .pure
  | operand hq h ih =>
    rintro e n ⟨⟩ hl hs
    rcases hq with rfl | rfl | rfl
    · exact gets_primary_place h (ih rfl) hl (hs.mono (by decide)) (gets_callOpt (hs.mono (by decide)))
    · exact gets_primary_lambda (ih rfl) hl (gets_callOpt (hs.mono (by decide)))
    · exact (ih rfl _ n rfl hl).1
  | entry hk ht hv ihk ihv =>
    intro t n ht₀ hl hs
    have hlt := Nat.lt_trans hk.length_le hl
    refine ⟨n, Nat.lt_trans (hv.length_lt rfl) hlt, ?_⟩
    rintro ⟨ks, vs⟩ u l'' hu hb
    have hkey := (ihk rfl).expr hl (.of_kind ht (by decide))
    have hval := (ihv rfl).expr hlt hs
    obtain ⟨v, l₁, rfl, hv⟩ := hk.startsIn rfl
    refine .position (.bind (.eat ht₀) (.kind (.neg (ne_of_starts hv (by decide)) (.bind hkey ?_))))
    exact .kind (.pos ht (.bind .advance (.bind hval (.bind hb (.bind (.eat hu) .pure)))))
  | entries h ht hk hu hv ih ihk ihv =>
    intro t n ht₀ hl hs
    have hlt := Nat.lt_trans h.length_le hl
    have hkey := (ihk rfl).expr hlt (.of_kind hu (by decide))
    have hval := (ihv rfl).expr (Nat.lt_trans hk.length_le hlt) hs
    have h₁ := Nat.lt_trans (hv.length_lt rfl) hk.length_le
    obtain ⟨m, hm, h⟩ := ih rfl t n ht₀ hl (.of_kind ht (by decide))
    obtain ⟨m, rfl⟩ : ∃ m', m = m' + 1 := ⟨m - 1, by omega⟩
    refine ⟨m, Nat.lt_trans h₁ (Nat.lt_of_succ_lt_succ hm), fun b w l'' hw hb => h b w l'' hw ?_⟩
    rw [reverse_append, reverse_append] at hb
    exact .kind (.pos ht (.bind .advance (.bind hkey (.bind (.eat hu) (.bind hval hb)))))
  | first h ih =>
    rintro e n ⟨⟩ hl hs
    have hr := (Bool.and_eq_true_iff.1 hp).1
    refine ⟨n, Nat.lt_of_lt_of_le (h.length_lt (Piece.isSolid_of_isRule hr)) hl, fun b l'' hb => ?_⟩
    exact .bind ((ih (Piece.isSane_of_isRule hr)).gets hr hl hs) hb
  | next ha ht hb iha ihb =>
    rintro e n ⟨⟩ hl hs
    have hr := (Bool.and_eq_true_iff.1 hp).1
    have hlt := hb.length_lt (Piece.isSolid_of_isRule hr)
    have hle := Nat.le_of_succ_le (Nat.le_trans ha.length_le hl)
    have hright := (ihb (Piece.isSane_of_isRule hr)).gets hr hle hs
    refine (iha hp _ n rfl hl (.cons (Piece.not_mem_conts hp ht))).step (Nat.lt_succ_of_lt hlt) ?_
    exact fun m b l₂ h => .current (.pos ht (.bind .advance (.bind hright h)))
  | lone h ih =>
    rintro e n ⟨⟩ hl hs
    have hr := (Bool.and_eq_true_iff.1 hp).1
    have hc := hs.mono (subset_append_right _ _)
    refine .bind ((ih (Piece.isSane_of_isRule hr)).gets hr hl hc) (.of_stops hs fun t ts _ hk => ?_)
    exact .current (.neg (fun h => hk (mem_append_left _ h)) .pure)
  | compare ha ht hb iha ihb =>
    rintro e n ⟨⟩ hl hs
    have hr := (Bool.and_eq_true_iff.1 hp).1
    have hsane := Piece.isSane_of_isRule hr
    have hle := Nat.le_of_succ_le (Nat.le_trans ha.length_le hl)
    have hright := (ihb hsane).gets hr hle (hs.mono (subset_append_right _ _))
    refine .bind ((iha hsane).gets hr hl (.cons (Piece.not_mem_conts hp ht))) ?_
    exact .current (.pos ht (.bind .advance (.bind hright .pure)))
  | unsigned h ih =>
    rintro e n ⟨⟩ hl hs
    obtain ⟨t, l₁, rfl, ht⟩ := h.startsIn rfl
    refine .current (.neg ?_ ((ih rfl).gets (p := .power) rfl hl hs))
    revert ht
    generalize t.kind = k
    revert k
    decide
  | signed ht h ih =>
    rintro e n ⟨⟩ hl hs
    exact .current (.pos ht (.bind .advance (.bind ((ih rfl).unary hl hs) .pure)))
  | plain h ih =>
    rintro e n ⟨⟩ hl hs
    have hc := (ih rfl).gets (p := .tower levels) rfl hl (hs.mono (by decide))
    rw [Piece.rule_tower] at hc
    refine .bind hc (.of_stops hs fun t ts _ hk => .current (.neg ?_ .pure))
    exact fun h => hk (by rw [h]; decide)
  | select hc ht hy hu hn ihc ihy ihn =>
    rintro e n ⟨⟩ hl hs
    have hlt := Nat.lt_of_succ_le (Nat.le_trans hc.length_le hl)
    have hb := (ihc rfl).gets (p := .tower levels) rfl hl (.of_kind ht (by decide))
    rw [Piece.rule_tower] at hb
    have hyes := (ihy rfl).expr hlt (.of_kind hu (by decide))
    have hno := (ihn rfl).expr (Nat.lt_trans hy.length_le hlt) hs
    exact .bind hb (.current (.pos ht (.bind .advance (.bind hyes (.bind (.eat hu) (.bind hno .pure))))))
  | done => exact fun n hl hs => ⟨n, hl, fun b l'' hb => hb⟩
  | line h hst ih ihs =>
    intro n hl hs
    have hstat := (ihs rfl).stat (Nat.lt_of_le_of_lt h.length_le hl) hs
    have hstart := hst.startsIn rfl
    refine (ih rfl n hl (hstart.stops (by decide))).step (hst.length_lt rfl) fun m b l₃ hb => ?_
    obtain ⟨t, l₂, rfl, ht⟩ := hstart
    refine .kind (.neg ?_ (.bind hstat ?_))
    · revert ht
      generalize t.kind = k
      revert k
      decide
    · split at hb <;> rename_i he
      · rwa [if_pos he]
      · rw [if_neg he]
        rwa [reverse_append] at hb
  | body hk hb _ ih =>
    rintro b n ⟨⟩ hl hs
    refine ⟨_, .eat? hk ((hb.startsIn rfl).stops (by decide)), (ih rfl).stat ?_ hs⟩
    exact Nat.lt_of_le_of_lt hk.length_le hl
  | clause hc hb ihc ihb =>
    intro k n hn hk hs
    have h₁ := hc.length_lt rfl
    have h₂ := hb.length_lt rfl
    refine ⟨[(_, _)], rfl, rfl, k, by omega, fun b l'' h => .bind ?_ h⟩
    exact gets_clause (ihc rfl) (ihb rfl) hb hn (by omega) hs
  | clauses h ht hc hb ih ihc ihb =>
    intro k n hn hk hs
    have hlt := Nat.lt_trans h.length_le hn
    have h₁ := hc.length_lt rfl
    have h₂ := hb.length_lt rfl
    have hclause := gets_clause (ihc rfl) (ihb rfl) hb hlt (by omega) hs
    obtain ⟨acc, rfl, rfl, ho⟩ := ih hp k n hn hk (.of_kind ht (by simpa [Piece.isSane] using hp))
    refine ⟨acc ++ [(_, _)], map_append, map_append, ho.step (Nat.lt_succ_of_lt (by omega)) ?_⟩
    intro m a l₃ ha
    rw [reverse_append] at ha
    exact .kind (.pos ht (.bind .advance (.bind hclause ha)))
  | empty ht =>
    rintro e n ⟨⟩ hl hs
    exact .kind_of ht (.bind (.eat ht) .pure)
  | block ht h hu ih =>
    rintro e n ⟨⟩ hl hs
    have hstats := gets_stats (ih rfl) hl (.inl hu)
    exact .kind_of ht (.position (.bind (.eat ht) (.bind hstats (.bind (.eat hu) .pure))))
  | declare ht hn hi ihn ihi =>
    rintro e n ⟨⟩ hl hs
    have hnames := (ihn rfl).names (Nat.le_of_succ_le hl)
      (stops_of_opt (.inr hi) (by decide) (hs.mono (by decide)))
    have hinits := gets_initializers hi (ihi rfl) (Nat.lt_trans (hn.length_lt rfl) hl) hs
    rw [mem_cons, mem_singleton] at ht
    rcases ht with ht | ht
    all_goals exact .kind_of ht (.current (.bind .advance (.bind hnames (.bind hinits .pure))))
  | branch ht hc hu ih =>
    rintro e n ⟨⟩ hl hs
    obtain ⟨hw, he⟩ : _ ∧ _ := by simpa using hu
    obtain ⟨acc, rfl, rfl, ho⟩ := ih rfl n n hl hl hs
    refine .kind_of ht (.position (.bind (.eat ht) (.assoc (.bind (ho.clauses hw) ?_))))
    exact .current (.neg he .pure)
  | branchElse ht hc hu hb ih ihb =>
    rintro e n ⟨⟩ hl hs
    obtain ⟨acc, rfl, rfl, ho⟩ := ih rfl n n hl hl (.of_kind hu (by decide))
    obtain ⟨l₂, hk, hst⟩ := ihb rfl _ n rfl (Nat.lt_trans hc.length_le hl) hs
    have hcs := ho.clauses (by rw [hu]; decide)
    refine .kind_of ht (.position (.bind (.eat ht) (.assoc (.bind hcs (.current ?_)))))
    exact .pos hu (.bind .advance (.bind hk (.bind hst .pure)))
  | switch ht he hk hu hc hv ihe _ ihc =>
    rintro e n ⟨⟩ hl hs
    obtain ⟨hw, hd⟩ : _ ∧ _ := by simpa using hv
    have hlt := Nat.lt_of_le_of_lt hk.length_le (Nat.lt_trans (he.length_lt rfl) hl)
    obtain ⟨acc, rfl, rfl, hcs⟩ := gets_cases hu (ihc rfl) hlt hs hw
    have hsub := (ihe rfl).expr hl (stops_of_opt (p := .expr) (.inl hk) (by decide) (.of_kind hu (by decide)))
    refine .kind_of ht (.position (.bind (.eat ht) (.bind hsub ?_)))
    refine .bind (.eat? hk (.of_kind hu (by decide))) (.current (.pos hu (.bind hcs ?_)))
    exact .kind (.neg hd .pure)
  | switchDefault ht he hk hu hc hv hb ihe _ ihc ihb =>
    rintro e n ⟨⟩ hl hs
    have hlt := Nat.lt_of_le_of_lt hk.length_le (Nat.lt_trans (he.length_lt rfl) hl)
    obtain ⟨acc, rfl, rfl, hcs⟩ := gets_cases hu (ihc rfl) hlt (.of_kind hv (by decide)) (by rw [hv]; decide)
    obtain ⟨l₄, hk', hst⟩ := ihb rfl _ n rfl (Nat.lt_trans hc.length_le (Nat.lt_of_succ_lt hlt)) hs
    have hsub := (ihe rfl).expr hl (stops_of_opt (p := .expr) (.inl hk) (by decide) (.of_kind hu (by decide)))
    refine .kind_of ht (.position (.bind (.eat ht) (.bind hsub ?_)))
    refine .bind (.eat? hk (.of_kind hu (by decide))) (.current (.pos hu (.bind hcs ?_)))
    exact .kind (.pos hv (.bind .advance (.bind hk' (.bind hst .pure))))
  | repeatUntil ht hb hu hc ihb ihc =>
    rintro e n ⟨⟩ hl hs
    obtain ⟨l₂, hk, hst⟩ := ihb rfl _ n rfl hl (.of_kind hu (by decide))
    have hcond := (ihc rfl).expr (Nat.lt_trans hb.length_le hl) (hs.mono (by decide))
    refine .kind_of ht (.position (.bind (.eat ht) (.bind hk (.bind hst ?_))))
    exact .bind (.eat hu) (.bind hcond .pure)
  | whileLoop ht hc hb ihc ihb =>
    rintro e n ⟨⟩ hl hs
    have hclause := gets_clause (ihc rfl) (ihb rfl) hb hl (Nat.lt_trans (hc.length_lt rfl) hl) hs
    exact .kind_of ht (.position (.bind (.eat ht) (.bind hclause .pure)))
  | forRange ht hx hu hst hv he hd hb ihx ihs ihe ihd ihb =>
    rintro e n ⟨⟩ hl hs
    have h₁ := Nat.lt_trans hx.length_le hl
    have h₂ := Nat.lt_trans hst.length_le h₁
    have h₃ := Nat.lt_trans (he.length_lt rfl) h₂
    have hbs := hb.startsIn rfl
    have hvar := (ihx rfl).gets (p := .name) rfl (Nat.le_of_succ_le hl) .nil
    have hstart := (ihs rfl).expr h₁ (.of_kind hv (by decide))
    have hstop := (ihe rfl).expr h₂ (stops_of_opt (.inr hd) (by decide) (hbs.stops (by decide)))
    have hstep := gets_afterComma rfl hd (ihd rfl) (hbs.stops (by decide)) fun l₁ x hlt hx =>
      hx.expr (Nat.lt_of_le_of_lt hlt h₃) (hbs.stops (by decide))
    obtain ⟨l₂, hk, hbody⟩ := ihb rfl _ n rfl (Nat.lt_of_le_of_lt hd.length_le h₃) hs
    refine .kind_of ht (.position (.bind (.eat ht) (.bind hvar (.kind (.pos hu (.bind (.eat hu) ?_))))))
    refine .bind hstart (.bind (.eat hv) (.bind hstop ?_))
    exact .bind hstep (.bind hk (.bind hbody .pure))
  | @forEach t l x l₁ _ _ _ _ _ _ _ ht hx hy hu he hb ihx ihy ihe ihb =>
    rintro e n ⟨⟩ hl hs
    have h₁ := Nat.lt_trans (hx.length_lt rfl) hl
    have h₂ := Nat.lt_of_lt_of_le (Nat.lt_of_succ_le hy.length_le) (Nat.le_of_lt h₁)
    have hvar := (ihx rfl).gets (p := .name) rfl (Nat.le_of_succ_le hl) .nil
    have hval := gets_afterComma rfl hy (ihy rfl) (.of_kind hu (by decide)) fun l₁ x hlt hx =>
      hx.gets (n := n) (p := .name) rfl (Nat.le_trans hlt (Nat.le_of_lt h₁)) .nil
    have hclause := gets_clause (ihe rfl) (ihb rfl) hb h₂ (Nat.lt_trans (he.length_lt rfl) h₂) hs
    have hnot : Stops [.kwIs] _ := stops_of_opt (.inr hy) (by decide) (.of_kind hu (by decide))
    refine .kind_of ht (.position (.bind (.eat ht) (.bind hvar ?_)))
    cases l₁ with
    | nil => cases hy.length_le
    | cons w l₃ =>
      have hw : w.kind ≠ .kwIs := by simpa using hnot w rfl
      exact .kind (.neg hw (.bind hval (.bind (.eat hu) (.bind hclause .pure))))
  | breakLoop ht | continueLoop ht =>
    rintro e n ⟨⟩ hl hs
    exact .kind_of ht (.position (.bind (.eat ht) .pure))
  | funcStat ht hx hf ihx ihf =>
    rintro e n ⟨⟩ hl hs
    have hvar := (ihx rfl).gets (p := .name) rfl (Nat.le_of_succ_le hl) .nil
    have hfun := (ihf rfl).gets (p := .function) rfl (Nat.le_of_lt (Nat.lt_trans (hx.length_lt rfl) hl)) .nil
    obtain ⟨v, l₃, rfl, hv⟩ := hx.startsIn rfl
    refine .kind_of ht (.bind (.eat ht) (.kind (.pos (mem_singleton.1 hv) ?_)))
    exact .bind hvar (.bind hfun (.position .pure))
  | returnNone ht hu =>
    rintro e n ⟨⟩ hl hs
    exact .kind_of ht (.position (.bind (.eat ht) (.kind (.pos hu (.bind .advance .pure)))))
  | returnValue ht he ih =>
    rintro e n ⟨⟩ hl hs
    have hvalue := (ih rfl).expr hl (hs.mono (by decide))
    obtain ⟨v, l₁, rfl, hv⟩ := he.startsIn rfl
    refine .kind_of ht (.position (.bind (.eat ht) (.kind ?_)))
    exact .neg (ne_of_starts hv (by decide)) (.bind hvalue .pure)
  | assign ha ht he iha ihe =>
    rintro e n ⟨⟩ hl hs
    have hsources := (ihe rfl).exprs (Nat.le_trans ha.length_le hl) (hs.mono (by decide))
    obtain ⟨x, l₂, hx, hor, hxs⟩ := (iha rfl).commas hl (.of_kind ht (by decide)) (.of_kind ht (by decide))
    obtain ⟨v, l₃, rfl, hv⟩ := ha.startsIn rfl
    have hnext : StartsIn [.assign, .comma] l₂ := by
      rcases hor with rfl | hor
      · exact .of_kind ht mem_cons_self
      · exact hor.mono (subset_cons_self _ _)
    obtain ⟨w, l₄, rfl, hw⟩ := hnext
    refine .kind_of (mem_singleton.1 hv) (.bind hx (.kind (.pos ?_ ?_)))
    · simpa [or_comm] using hw
    exact .bind (hxs n hl) (.position (.bind (.eat ht) (.bind hsources .pure)))
  | update ha ht he iha ihe =>
    rintro e n ⟨⟩ hl hs
    obtain ⟨hc, hq, hlp⟩ := Piece.not_list_of_update ht
    have htarget := (iha rfl).gets (p := .place) rfl hl (.cons hlp)
    have hsource := (ihe rfl).expr (Nat.le_trans ha.length_le hl) (hs.mono (by decide))
    obtain ⟨v, l₃, rfl, hv⟩ := ha.startsIn rfl
    refine .kind_of (mem_singleton.1 hv) (.bind htarget (.kind (.neg hc (.neg hq ?_))))
    exact .current (.pos ht (.bind .advance (.bind hsource .pure)))
  | callStat _ ih =>
    rintro e n ⟨⟩ hl hs
    exact (ih rfl _ n rfl hl).2

/-! ### Whole programs -/

theorem Feed.Closed.kinds_eq (hs : s.Closed) (hk : s.current.kind = .eof) : s.kinds = [.eof] := by
  obtain ⟨ks, hks, hne⟩ := hs.ends
  cases ks with
  | nil => exact hks
  | cons k ks =>
    have h : s.current.kind = k := (List.cons.inj hks).1
    rw [hk] at h
    exact absurd (h ▸ mem_cons_self) hne

/-- Of a feed up to its end token either all is read as a program or an issue is reported. -/
theorem whole_cases (hs : s.Closed) :
    (∃ ss t, Parse.run whole s = .ok (.program ss) ⟨t, [], s.stop⟩ ∧ t.kind = .eof ∧
      Reads .stats (s.current :: s.rest) ss [t]) ∨
    ∃ r s', Parse.run whole s = .error (.failed (.report r)) s' ∧ r.stage = .parser := by
  unfold Parse.run whole
  cases ensures_program (fuelFor s) s hs.proper with
  | @ok tree t ts hx hl hp =>
    obtain ⟨ss, rfl, hr⟩ := hp
    have hlook : current ⟨t, ts, s.stop⟩ = .ok t ⟨t, ts, s.stop⟩ := rfl
    rw [bind_of_ok hx, bind_of_ok hlook]
    by_cases hend : t.kind = .eof
    · have hleft := (hs.suffix hl).kinds_eq hend
      obtain rfl := map_eq_nil_iff.1 (List.cons.inj hleft).2
      rw [if_pos hend]
      exact .inl ⟨ss, t, rfl, hend, hr⟩
    · rw [if_neg hend]
      exact .inr ⟨_, _, rfl, rfl⟩
  | @error i s' hx hi =>
    obtain ⟨r, rfl, hr⟩ | ⟨f, hf, -⟩ := hi (Nat.lt_add_of_pos_right (by decide))
    · exact .inr ⟨r, s', bind_of_error hx, hr⟩
    · cases hs.stop.symm.trans hf

/-- A list of statements up to the end token is a whole program. -/
theorem whole_of_reads (h : Reads .stats (s.current :: s.rest) ss (t :: l)) (ht : t.kind = .eof) :
    Parse.run whole s = .ok (.program ss) ⟨t, l, s.stop⟩ := by
  have hl : (s.current :: s.rest).length < fuelFor s := Nat.lt_succ_of_lt (Nat.lt_succ_self _)
  have hstats := gets_stats (built_of_reads h rfl) hl (.inr ht)
  have hwhole : Gets (whole (fuelFor s)) (s.current :: s.rest) (.program ss) (t :: l) :=
    .bind (.map hstats) (.current (.pos ht .pure))
  exact (hwhole (cons_ne_nil _ _)).2 s.stop

end TinyScript
