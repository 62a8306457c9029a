import TinyScript.Proofs.Formed

/-!
# Parsing makes progress and ends

A rule that ends with a result has taken a token, and never the end token (`takes_of_drops`). Rules have
that from what they read. The rest of a statement or call is not read as a piece of its own, and what takes
a token in it is looked for (`Parse.Drops`).

Main statement (`rules_take_tokens`): on tokens up to an end token each rule takes a token or reports an
issue, lists of statements stop at a closing brace or at the end, and as much fuel as there are tokens is
enough, so that every text is parsed or rejected.
-/

namespace TinyScript

open Parse Grammar List

/-- The rules that take a token, with the given fuel. One that completes a statement or a call may be given
anything for what stands before. -/
inductive Rule (n : Nat) : Parse Node → Prop
  | name : Rule n name
  | place : Rule n (place n (rules n))
  | funcDef : Rule n (funcDef n (rules n))
  | listOf : Rule n (listOf n (rules n))
  | mapOrSet : Rule n (mapOrSet n (rules n))
  | primary : Rule n (primary n (rules n))
  | power : Rule n (power n (rules n))
  | unary : Rule n (unary n (rules n))
  | binary (i : Nat) : Rule n (binary n (rules n) (levels.drop i))
  | select : Rule n (select n (rules n))
  | emptyStat : Rule n emptyStat
  | block : Rule n (block n (rules n))
  | declare : Rule n (declare n (rules n))
  | branch : Rule n (branch n (rules n))
  | switch : Rule n (switch n (rules n))
  | repeatUntil : Rule n (repeatUntil (rules n))
  | whileLoop : Rule n (whileLoop (rules n))
  | forLoop : Rule n (forLoop (rules n))
  | forRangeTail (var : Node) (p : Position) : Rule n (forRangeTail (rules n) var p)
  | forEachTail (key : Node) (p : Position) : Rule n (forEachTail (rules n) key p)
  | breakLoop : Rule n breakLoop
  | continueLoop : Rule n continueLoop
  | funcStat : Rule n (funcStat n (rules n))
  | returnValue : Rule n (returnValue (rules n))
  | placeStat : Rule n (placeStat n (rules n))
  | assignTail (target : Node) : Rule n (assignTail n (rules n) target)
  | updateTail (target : Node) : Rule n (updateTail (rules n) target)
  | callTail (callee : Node) : Rule n (callTail n (rules n) callee)
  | stat : Rule n (stat n (rules n))

/-! ### Taking a token -/

namespace Parse

variable {α β : Type} {n : Nat} {s : Feed} {x : Parse α} {f : α → Parse β} {P : α → List Token → Prop}
  {k : TokenKind} {t : Token} {ts : List Token} {stop : Option Failure}

/-- With a result fewer tokens are left than before. -/
def Drops (n : Nat) (x : Parse α) (s : Feed) : Prop :=
  Ensures n x s fun _ l => l.length < (s.current :: s.rest).length

namespace Ensures

theorem drops {p : Piece} {x : Parse Node} (h : Parses (n + 1) p x) (hp : p.isSolid = true) (s : Feed) :
    Drops n x s :=
  ((h s).mono (Nat.le_succ n)).imp fun _ _ h => h.length_lt hp

theorem any (hx : Ensures n x s P) : Ensures n x s fun _ _ => True := hx.imp fun _ _ _ => trivial

/-- Nothing that follows gives a token back. -/
theorem drops_bind (hx : Drops n x s) (hf : ∀ a t ts, Ensures n (f a) ⟨t, ts, s.stop⟩ fun _ _ => True) :
    Drops n (x >>= f) s := by
  refine hx.bind_of fun a t ts hl hlt => ⟨Nat.lt_of_le_of_lt (Nat.le_of_succ_le_succ hl.length_le), ?_⟩
  intro hs
  cases hf a t ts hs with
  | ok h hl' => exact .ok h hl' (Nat.lt_of_le_of_lt hl'.length_le hlt)
  | error h hi => exact .error h hi

theorem bind_drops (hx : Ensures n x s P) (hf : ∀ a t ts, Drops n (f a) ⟨t, ts, s.stop⟩) :
    Drops n (x >>= f) s :=
  hx.bind_of fun a t ts hl _ => ⟨Nat.lt_of_le_of_lt (Nat.le_of_succ_le_succ hl.length_le),
    (hf a t ts).imp fun _ _ h => Nat.lt_of_lt_of_le h hl.length_le⟩

theorem drops_advance (ht : t.kind ≠ .eof) : Drops n Parse.advance ⟨t, ts, stop⟩ := by
  have h : Drops n (Parse.advance >>= Pure.pure) ⟨t, ts, stop⟩ := by
    refine .advance rfl ht ?_
    rintro u us rfl
    exact .pure (Nat.lt_succ_self _)
  rwa [bind_pure] at h

theorem drops_eat (hk : k ≠ .eof) (s : Feed) : Drops n (Parse.eat k) s := by
  obtain ⟨t, ts, stop⟩ := s
  have h : Drops n (Parse.eat k >>= Pure.pure) ⟨t, ts, stop⟩ := by
    refine .eat hk ?_
    rintro u us - rfl
    exact .pure (Nat.lt_succ_self _)
  rwa [bind_pure] at h

end Ensures
end Parse

namespace Grammar

variable {n : Nat} {r : Rules}

theorem drops_callTail (hr : r.Read n) (callee : Node) (s : Feed) : Drops n (callTail n r callee) s := by
  refine .look rfl (.drops_bind (.drops_eat (by decide) s) fun _ _ _ => ?_)
  refine .bind (ensures_listUnless (parsesAll_commaList hr.expr) _) fun _ _ _ _ => ?_
  exact .bind (.drops_eat (by decide) _) fun _ _ _ _ => .pure trivial

theorem drops_forRangeTail (hr : r.Read n) (var : Node) (p : Position) (s : Feed) :
    Drops n (forRangeTail r var p) s := by
  refine .drops_bind (.drops_eat (by decide) s) fun _ _ _ => .bind (hr.expr _) fun _ _ _ _ => ?_
  refine .bind (.drops_eat (by decide) _) fun _ _ _ _ => .bind (hr.expr _) fun _ _ _ _ => ?_
  exact .bind (ensures_afterComma hr.expr _) fun _ _ _ _ => (ensures_body hr _).any

theorem drops_forEachTail (hr : r.Read n) (key : Node) (p : Position) (s : Feed) :
    Drops n (forEachTail r key p) s := by
  refine .bind_drops (ensures_afterComma parses_name s) fun _ _ _ => ?_
  refine .drops_bind (.drops_eat (by decide) _) fun _ _ _ => ?_
  exact .bind (ensures_clause hr _) fun _ _ _ _ => .pure trivial

theorem drops_assignTail (hr : r.Read n) (target : Node) (s : Feed) :
    Drops n (assignTail n r target) s := by
  have hp := (parses_place hr).mono (Nat.le_succ n)
  refine .bind_drops (ensures_commaTail_of hp (Nat.le_refl n) (P := fun _ _ => True)
    (fun _ _ _ => trivial) trivial) fun _ _ _ => ?_
  refine .look rfl (.drops_bind (.drops_eat (by decide) _) fun _ _ _ => ?_)
  exact .bind (parsesAll_commaList hr.expr _) fun _ _ _ _ => .pure trivial

theorem drops_updateTail (hr : r.Read n) (target : Node) (s : Feed) :
    Drops n (updateTail r target) s := by
  refine .look rfl ?_
  split
  · rename_i hk
    refine .drops_bind (.drops_advance (ne_of_mem_of_not_mem hk (by decide))) fun _ _ _ => ?_
    exact .bind (hr.expr _) fun _ _ _ _ => .pure trivial
  · exact .fail

/-- A declaration takes any token, but no name follows the last one. -/
theorem drops_declare (hr : r.Read n) (s : Feed) : Drops n (declare n r) s := by
  obtain ⟨t, ts, stop⟩ := s
  cases ts with
  | cons u us =>
    have first : Drops n advance ⟨t, u :: us, stop⟩ :=
      fun _ => .ok rfl (suffix_cons _ _) (Nat.lt_succ_self _)
    refine .look rfl (.drops_bind first fun _ _ _ => ?_)
    refine .bind (parsesAll_commaList parses_name _) fun _ _ _ _ => ?_
    exact .bind (ensures_initializers hr _) fun _ _ _ _ => .pure trivial
  | nil =>
    intro hs
    cases stop with
    | some f => exact .error rfl fun _ => .inr ⟨f, rfl, rfl⟩
    | none =>
      have ht : t.kind = .eof := by simpa [Feed.kinds] using hs rfl
      have h : declare n r ⟨t, [], none⟩ =
          .error (.failed (.report ⟨.parser, t.pos, .expected .identifier⟩)) ⟨t, [], none⟩ := by
        simp [declare, nameList, commaList, name, bind, EStateM.bind, current, advance, text, position, eat,
          fail, ht]
      exact .error h fun _ => .inl ⟨_, rfl, rfl⟩

end Grammar

theorem Rule.drops {n : Nat} {x : Parse Node} (h : Rule n x) (s : Feed) : Drops n x s := by
  have hr := read_rules n
  have hops : ∀ l ∈ levels, .eof ∉ l.ops := by decide
  cases h with
  | name => exact .drops parses_name rfl s
  | place => exact .drops (parses_place hr) rfl s
  | funcDef => exact .drops (parses_funcDef hr) rfl s
  | listOf => exact .drops (parses_listOf hr) rfl s
  | mapOrSet => exact .drops (parses_mapOrSet hr) rfl s
  | primary => exact .drops (parses_primary hr) rfl s
  | power => exact .drops (parses_chain [.pow] (by decide) rfl (parses_primary hr)) rfl s
  | unary => exact .drops (parses_unary hr) rfl s
  | binary i =>
    have hi := parses_binary hr fun l hl => hops l (mem_of_mem_drop (i := i) hl)
    exact .drops hi (Piece.isSolid_tower _) s
  | select => exact .drops (parses_select hr) rfl s
  | emptyStat => exact .drops parses_emptyStat rfl s
  | block => exact .drops (parses_block hr) rfl s
  | declare => exact drops_declare hr s
  | branch => exact .drops (parses_branch hr) rfl s
  | switch => exact .drops (parses_switch hr) rfl s
  | repeatUntil => exact .drops (parses_repeatUntil hr) rfl s
  | whileLoop => exact .drops (parses_whileLoop hr) rfl s
  | forLoop => exact .drops (parses_forLoop hr) rfl s
  | forRangeTail var p => exact drops_forRangeTail hr var p s
  | forEachTail key p => exact drops_forEachTail hr key p s
  | breakLoop => exact .drops parses_breakLoop rfl s
  | continueLoop => exact .drops parses_continueLoop rfl s
  | funcStat => exact .drops (parses_funcStat hr) rfl s
  | returnValue => exact .drops (parses_returnValue hr) rfl s
  | placeStat => exact .drops (parses_placeStat hr) rfl s
  | assignTail target => exact drops_assignTail hr target s
  | updateTail target => exact drops_updateTail hr target s
  | callTail callee => exact drops_callTail hr callee s
  | stat => exact .drops (parses_stat hr) rfl s

/-! ### Ending -/

/-- The action ends with a feed for which `Q` holds, or the parser reports an issue. -/
def Finishes {α : Type} (Q : Feed → Prop) : EStateM.Result Halt Feed α → Prop
  | .ok _ s => Q s
  | .error i _ => ∃ r, i = .failed (.report r) ∧ r.stage = .parser

/-- From `s` on to `s'` tokens are taken, and the end token is not one of them. -/
def Feed.Takes (s s' : Feed) : Prop := ∃ w, w ≠ [] ∧ (∀ l ∈ w, l.kind ≠ .eof) ∧ s.Spends w s'

section

variable {α : Type} {n : Nat} {s : Feed} {x : Parse α} {P : α → List Token → Prop} {Q : Feed → Prop}

theorem finishes_of_ensures (hx : Ensures n x s P) (hs : s.Closed) (hn : s.rest.length < n)
    (hP : ∀ a t ts, (t :: ts) <:+ s.tokens → P a (t :: ts) → Q ⟨t, ts, s.stop⟩) : Finishes Q (x s) := by
  cases hx hs.proper with
  | ok h hl hq =>
    rw [h]
    exact hP _ _ _ hl hq
  | error h hi =>
    rw [h]
    obtain hr | ⟨f, hf, -⟩ := hi hn
    · exact hr
    · cases hs.stop.symm.trans hf

theorem takes_of_drops (hx : Drops n x s) (hs : s.Closed) (hn : s.rest.length < n) :
    Finishes s.Takes (x s) := by
  refine finishes_of_ensures hx hs hn fun a t ts hl hlt => ?_
  obtain ⟨w, hw⟩ := hl
  obtain ⟨ks, hks, hne⟩ := hs.ends
  have hkinds : ks ++ [.eof] = w.map (·.kind) ++ (t :: ts).map (·.kind) := by
    rw [← hks, ← map_append, hw]
    rfl
  refine ⟨w.map Token.lexeme, ?_, forall_mem_map.2 fun u hu hk => hne ?_, w, rfl, hw.symm, rfl⟩
  · intro hnil
    rw [map_eq_nil_iff.1 hnil, nil_append] at hw
    exact Nat.lt_irrefl _ (hw ▸ hlt)
  · have hks := congrArg List.dropLast hkinds
    rw [dropLast_concat, dropLast_append_of_ne_nil (by simp)] at hks
    rw [hks, ← hk]
    exact mem_append_left _ (mem_map_of_mem hu)

end

namespace Scan

variable {c c' : Cursor} {t : Token}

/-- The end token is read again and again, and any other one takes characters. -/
theorem token_takes (h : token c = .ok t c') :
    (t.kind ≠ .eof → ∃ w, w ≠ [] ∧ c.rest = w ++ c'.rest) ∧ (t.kind = .eof → token c' = .ok t c') := by
  obtain ⟨cs, p⟩ := c
  cases token_eq_ok_iff.1 h with
  | @token g span rest l hg hs h₀ =>
    refine ⟨fun _ => ⟨g ++ span, ?_, by simp⟩, fun he => absurd he hs.kind_ne_eof⟩
    simp [hs.ne_nil]
  | eof =>
    refine ⟨fun hne => absurd rfl hne, fun _ => ?_⟩
    simp [token, skipGap, bind, EStateM.bind, gapLength]

end Scan

/-! ### Whole texts -/

/-- The next token closes a brace or is the end token. -/
def Feed.AtClose (s : Feed) : Prop := s.current.kind = .rbrace ∨ s.current.kind = .eof

namespace Grammar

variable (n : Nat) (s : Feed)

theorem ensures_statList : Ensures n (statList n (rules n)) s fun _ l =>
    ∀ t ∈ l.head?, t.kind = .rbrace ∨ t.kind = .eof :=
  (ensures_statListTail (read_rules n) (Nat.le_refl n) .done).imp fun _ _ h => h.2

theorem ensures_whole : Ensures n (whole n) s fun _ l => ∀ t ∈ l.head?, t.kind = .eof := by
  refine .bind (ensures_program n s) fun _ t ts _ => .look rfl ?_
  split
  · rename_i hk
    refine .pure ?_
    rintro u ⟨⟩
    exact hk
  · exact .fail

end Grammar

theorem parse_ends (src : String) :
    (∃ tree, parse src = .ok tree) ∨ ∃ f, parse src = .error (.failed f) := by
  unfold parse
  split
  · exact .inr ⟨_, rfl⟩
  · rename_i s hs
    have hfuel : s.rest.length < fuelFor s := Nat.lt_add_of_pos_right (by decide)
    unfold Parse.run
    cases ensures_whole (fuelFor s) s (proper_of_source hs) with
    | ok h =>
      rw [h]
      exact .inl ⟨_, rfl⟩
    | error h hi =>
      rw [h]
      obtain ⟨r, rfl, -⟩ | ⟨f, -, rfl⟩ := hi hfuel <;> exact .inr ⟨_, rfl⟩

/-- On tokens up to an end token, with as much fuel as there are tokens or more, every rule that ends with a
result has taken tokens but not the end token, lists of statements and programs end before a closing brace
or the end token, and whole texts before the end token; all that can happen otherwise is that the parser
reports an issue. A token other than the end token takes characters, and the end token comes again and
again, for the scanner and so for the lexer (`Lexer.follows_token`). So every text has a tree or is
rejected. -/
theorem rules_take_tokens {s : Feed} (hs : s.Closed) {n : Nat} (hn : fuelFor s ≤ n) :
    (∀ x, Rule n x → Finishes s.Takes (x s)) ∧
    Finishes s.Takes (nameList n s) ∧ Finishes s.Takes (exprList n (rules n) s) ∧
    Finishes Feed.AtClose (statList n (rules n) s) ∧ Finishes Feed.AtClose (program n s) ∧
    Finishes (fun s' => s'.current.kind = .eof) (whole n s) ∧
    (∀ c c' t, Scan.token c = .ok t c' →
      (t.kind ≠ .eof → ∃ w, w ≠ [] ∧ c.rest = w ++ c'.rest) ∧
      (t.kind = .eof → Scan.token c' = .ok t c')) ∧
    ∀ src, src ≠ "" → (∃ tree, parse src = .ok tree) ∨ ∃ f, parse src = .error (.failed f) := by
  have hlt : s.rest.length < n := Nat.lt_of_lt_of_le (Nat.lt_add_of_pos_right (by decide)) hn
  refine ⟨fun x hx => takes_of_drops (hx.drops s) hs hlt, ?_, ?_, ?_, ?_, ?_, fun _ _ _ => Scan.token_takes,
    fun src _ => parse_ends src⟩
  · exact takes_of_drops ((parsesAll_commaList parses_name s).imp fun _ _ h => h.length_lt rfl) hs hlt
  · exact takes_of_drops ((parsesAll_commaList (read_rules n).expr s).imp fun _ _ h => h.length_lt rfl) hs hlt
  · exact finishes_of_ensures (ensures_statList n s) hs hlt fun _ t _ _ h => h t rfl
  · have hprogram : Ensures n (program n) s fun _ l => ∀ t ∈ l.head?, t.kind = .rbrace ∨ t.kind = .eof :=
      .map (ensures_statList n s)
    exact finishes_of_ensures hprogram hs hlt fun _ t _ _ h => h t rfl
  · exact finishes_of_ensures (ensures_whole n s) hs hlt fun _ t _ _ h => h t rfl

/-- `x = 1` and a brace that closes nothing. -/
def braceLeft : Feed :=
  ⟨⟨.identifier, some "x", ⟨1, 1⟩⟩, [⟨.assign, some "=", ⟨1, 3⟩⟩, ⟨.intLiteral, some "1", ⟨1, 5⟩⟩,
    ⟨.rbrace, some "\x7d", ⟨1, 7⟩⟩, ⟨.eof, none, ⟨1, 8⟩⟩], none⟩

theorem rules_take_tokens_braceLeft :
    braceLeft.Closed ∧ Finishes braceLeft.Takes (stat 7 (rules 7) braceLeft) ∧
      Finishes Feed.AtClose (statList 7 (rules 7) braceLeft) ∧
      Finishes (fun s' => s'.current.kind = .eof) (whole 7 braceLeft) := by
  have hs : braceLeft.Closed := ⟨rfl, [.identifier, .assign, .intLiteral, .rbrace], rfl, by decide⟩
  obtain ⟨rules, -, -, stats, -, whole, -⟩ := rules_take_tokens hs (n := 7) (by decide)
  exact ⟨hs, rules _ .stat, stats, whole⟩

end TinyScript
