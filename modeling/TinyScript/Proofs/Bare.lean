import TinyScript.Proofs.ParseSound
import TinyScript.Proofs.Lexing

/-!
# Trees and tokens up to places

Two trees differ in places only when they have the same `bare` tree, and a rule of the grammar looks
at the kind and the text of a token when it decides what to build. `Feed.Spends` follows a feed
along the kinds and texts of its tokens, and `Parse.Gives` says what a rule builds on its way from
one feed to another.
-/

namespace TinyScript

variable {s s' : Feed} {tree : Node} {src : String} {ts : List Token}

namespace Node

variable {e e₁ : Node} {p : Position} {op : TokenKind}

mutual

/-- The tree with every place in it replaced by the same one. -/
@[simp] def bare : Node → Node
  | .missing => .missing
  | .empty => .empty
  | .program stats => .program (bareAll stats)
  | .block stats _ => .block (bareAll stats) .start
  | .declare names inits isConst _ => .declare (bareAll names) (bareOpt inits) isConst .start
  | .branch conds bodies _ => .branch (bareAll conds) (bareAll bodies) .start
  | .switch subject cases bodies fallback _ =>
    .switch (bare subject) (bareAll cases) (bareAll bodies) (bare fallback) .start
  | .repeatUntil cond body _ => .repeatUntil (bare cond) (bare body) .start
  | .whileLoop cond body _ => .whileLoop (bare cond) (bare body) .start
  | .forRange var start stop step body _ =>
    .forRange (bare var) (bare start) (bare stop) (bare step) (bare body) .start
  | .forEach key val subject body _ =>
    .forEach (bare key) (bare val) (bare subject) (bare body) .start
  | .breakLoop _ => .breakLoop .start
  | .continueLoop _ => .continueLoop .start
  | .returnValue expr _ => .returnValue (bare expr) .start
  | .assign targets sources _ => .assign (bareAll targets) (bareAll sources) .start
  | .update op target source _ => .update op (bare target) (bare source) .start
  | .funcDef params vararg body _ => .funcDef (bareOpt params) vararg (bareAll body) .start
  | .call callee args _ => .call (bare callee) (bareOpt args) .start
  | .select cond yes no _ => .select (bare cond) (bare yes) (bare no) .start
  | .binary op left right _ => .binary op (bare left) (bare right) .start
  | .unary op operand _ => .unary op (bare operand) .start
  | .listOf items _ => .listOf (bareOpt items) .start
  | .mapOf keys values _ => .mapOf (bareAll keys) (bareAll values) .start
  | .setOf items _ => .setOf (bareOpt items) .start
  | .access base key dot _ => .access (bare base) (bare key) dot .start
  | .name ident _ => .name ident .start
  | .number text isInt _ => .number text isInt .start
  | .string value _ => .string value .start
  | .bool value _ => .bool value .start
  | .null _ => .null .start

def bareAll : List Node → List Node
  | [] => []
  | n :: ns => bare n :: bareAll ns

def bareOpt : Option (List Node) → Option (List Node)
  | none => none
  | some ns => some (bareAll ns)

end

@[simp] theorem bareAll_eq (ns : List Node) : bareAll ns = ns.map bare := by
  induction ns with
  | nil => rfl
  | cons n ns ih => rw [bareAll, ih, List.map_cons]

@[simp] theorem bareOpt_eq (ns : Option (List Node)) : bareOpt ns = ns.map (List.map bare) := by
  cases ns with
  | none => rfl
  | some ns => rw [bareOpt, bareAll_eq, Option.map_some]

theorem exists_of_bare_number {x : String} {b : Bool} (h : e.bare = .number x b p) :
    ∃ q, e = .number x b q := by
  cases e <;> simp at h
  exact ⟨_, by rw [h.1, h.2.1]⟩

theorem exists_of_bare_unary (h : e.bare = .unary op e₁ p) :
    ∃ e₁' q, e = .unary op e₁' q ∧ e₁'.bare = e₁ := by
  cases e <;> simp at h
  exact ⟨_, _, by rw [h.1], h.2.1⟩

theorem exists_of_bare_binary {e₂ : Node} (h : e.bare = .binary op e₁ e₂ p) :
    ∃ e₁' e₂' q, e = .binary op e₁' e₂' q ∧ e₁'.bare = e₁ ∧ e₂'.bare = e₂ := by
  cases e <;> simp at h
  exact ⟨_, _, _, by rw [h.1], h.2.1, h.2.2.1⟩

end Node

/-- The end of a text as a token. -/
def Lexeme.eof : Lexeme := ⟨.eof, none⟩

namespace Feed

variable {s s' : Feed} {w : List Lexeme}

/-- The tokens that are left, the current one first. -/
def tokens (s : Feed) : List Token := s.current :: s.rest

def lexemes (s : Feed) : List Lexeme := s.tokens.map Token.lexeme

theorem eq_of_tokens (h : s.tokens = s'.tokens) (hs : s.stop = s'.stop) : s = s' := by
  obtain ⟨t, ts, stop⟩ := s
  obtain ⟨t', ts', stop'⟩ := s'
  simp only [tokens, List.cons.injEq] at h
  simp only at hs
  rw [h.1, h.2, hs]

/-- Between `s` and `s'` stand tokens that read `w`. -/
def Spends (s : Feed) (w : List Lexeme) (s' : Feed) : Prop :=
  ∃ ts, ts.map Token.lexeme = w ∧ s.tokens = ts ++ s'.tokens ∧ s.stop = s'.stop

/-- What stands before the end token leads to it. -/
theorem exists_spends (h : s.lexemes = w ++ [.eof]) :
    ∃ s', s.Spends w s' ∧ s'.current.kind = .eof := by
  obtain ⟨ts, us, htok, hts, hus⟩ := List.map_eq_append_iff.1 h
  obtain ⟨t, us, rfl, ht, hnil⟩ := List.map_eq_cons_iff.1 hus
  rw [List.map_eq_nil_iff.1 hnil] at htok
  exact ⟨⟨t, [], s.stop⟩, ⟨ts, hts, htok, rfl⟩, congrArg Lexeme.kind ht⟩

end Feed

/-! ### Whole texts -/

namespace Grammar

open Parse

theorem whole_eq_ok {n : Nat} : whole n s = .ok tree s' ↔
    ∃ stats, tree = .program stats ∧ statListTail (rules n).stat n [] s = .ok stats s' ∧
      s'.current.kind = .eof := by
  cases hlist : statListTail (rules n).stat n [] s with
  | error h s₁ =>
    have hp : program n s = .error h s₁ := by
      simp only [program, statList, Functor.map, EStateM.map, hlist]
    have hw : whole n s = .error h s₁ := bind_of_error hp
    simp [hw]
  | ok stats s₁ =>
    have hp : program n s = .ok (.program stats) s₁ := by
      simp only [program, statList, Functor.map, EStateM.map, hlist]
    rw [whole, bind_of_ok hp, bind_of_ok (x := current) rfl]
    constructor
    · intro hw
      split at hw
      · rename_i hk
        cases hw
        exact ⟨stats, rfl, rfl, hk⟩
      · cases hw
    · rintro ⟨_, rfl, hs, hk⟩
      cases hs
      rw [if_pos hk]
      rfl

end Grammar

theorem exists_feed_of_tokenize {ls : List Lexeme} (h : tokenize src = (ts, none))
    (hts : ts.map Token.lexeme = ls ++ [.eof]) (hls : ∀ l ∈ ls, l.kind ≠ .eof) :
    ∃ s, Feed.ofSource src = .ok s ∧ s.lexemes = ls ++ [.eof] ∧ s.stop = none ∧ s.Closed := by
  cases ts with
  | nil => simp at hts
  | cons t ts =>
    refine ⟨⟨t, ts, none⟩, by rw [Feed.ofSource, h]; rfl, hts, rfl, rfl, ls.map (·.kind), ?_, ?_⟩
    · have hk := congrArg (List.map (·.kind)) hts
      rw [List.map_map, List.map_append] at hk
      exact hk
    · intro hm
      obtain ⟨l, hl, hk⟩ := List.mem_map.1 hm
      exact hls l hl hk

theorem exists_feed_of_tokens (h : tokenize src = (ts, none)) :
    ∃ s, Feed.ofSource src = .ok s ∧ s.tokens = ts ∧ s.stop = none ∧ s.Closed := by
  obtain ⟨us, c, hp, -, hts⟩ := Scan.passes_of_tokens (tokenize_eq_iff.1 h).2
  have hlex : ts.map Token.lexeme = us.map Token.lexeme ++ [.eof] := by rw [hts, List.map_append]; rfl
  obtain ⟨s, hs, -, hstop, hw⟩ := exists_feed_of_tokenize h hlex (List.forall_mem_map.2 hp.kind_ne)
  rw [Feed.ofSource, h] at hs
  cases ts with
  | nil => cases hs
  | cons t ts =>
    obtain rfl := Except.ok.inj hs
    exact ⟨_, by rw [Feed.ofSource, h]; rfl, rfl, hstop, hw⟩

theorem parse_eq_ok (h : Feed.ofSource src = .ok s) :
    parse src = .ok tree ↔ ∃ s', Parse.run Grammar.whole s = .ok tree s' := by
  unfold parse
  simp only [h]
  cases Parse.run Grammar.whole s with
  | ok a s' => simp
  | error i s' => simp

theorem parse_eq_error {i : Halt} (h : Feed.ofSource src = .ok s)
    (hi : Parse.run Grammar.whole s = .error i s') : parse src = .error i := by
  unfold parse
  simp only [h, hi]

end TinyScript
