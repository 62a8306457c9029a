import TinyScript.Proofs.Bare
import TinyScript.Proofs.Building

/-!
# Parsing without places

No rule looks at the place of a token. On a feed without places it does what it does on the feed itself,
and gives the tree without places; where it fails, it does so at the same token (`strips_whole`).

Main statement (`parse_of_same_lexemes`): texts with the same tokens have the same tree but for places, or
are both rejected at the same token.
-/

namespace TinyScript

open List

variable {s s' t : Feed} {w : List Lexeme}

def Token.bare (t : Token) : Token := ⟨t.kind, t.text, .start⟩

/-- The feed without places. -/
def Feed.bare (s : Feed) : Feed := ⟨s.current.bare, s.rest.map Token.bare, s.stop⟩

/-- What is left of the feed `s` at some point. -/
structure Feed.Later (s s' : Feed) : Prop where
  tokens : s'.tokens <:+ s.tokens
  stop : s'.stop = s.stop

theorem Feed.Later.refl : s.Later s := ⟨suffix_rfl, rfl⟩

theorem Feed.Later.trans {s'' : Feed} (h : s.Later s') (h' : s'.Later s'') : s.Later s'' :=
  ⟨h'.tokens.trans h.tokens, h'.stop.trans h.stop⟩

namespace Parse

variable {α β γ δ : Type} {φ : α → β} {ψ : γ → δ} {x x' : Parse α} {y y' : Parse β} {f : α → Parse γ}
  {g : β → Parse δ}
variable {a : α} {b : β} {r : EStateM.Result Halt Feed α}

/-- How the same action ends on the feed `s` and on the feed without places. -/
inductive Matches (φ : α → β) (s : Feed) :
    EStateM.Result Halt Feed α → EStateM.Result Halt Feed β → Prop
  | ok (a : α) {s' : Feed} (hs : s.Later s') : Matches φ s (.ok a s') (.ok (φ a) s'.bare)
  | report (i j : Issue) {s' : Feed} (hs : s.Later s') :
      Matches φ s (.error (.failed (.report ⟨.parser, s'.current.pos, i⟩)) s')
        (.error (.failed (.report ⟨.parser, .start, j⟩)) s'.bare)
  | stopped {s' : Feed} {i : Failure} (h : s.stop = some i) :
      Matches φ s (.error (.failed i) s') (.error (.failed i) s'.bare)
  | outOfFuel (s' : Feed) : Matches φ s (.error .outOfFuel s') (.error .outOfFuel s'.bare)

theorem Matches.right {r : EStateM.Result Halt Feed β} (h : Matches φ s (.ok a s') r) :
    r = .ok (φ a) s'.bare := by
  cases h
  rfl

theorem Matches.left (h : Matches φ s r (.ok b t)) :
    ∃ a s', r = .ok a s' ∧ φ a = b ∧ s'.bare = t ∧ s.Later s' := by
  cases h with
  | ok a hs => exact ⟨a, _, rfl, rfl, rfl, hs⟩

/-- Where a report is made, it is made without places too. -/
theorem Matches.report_of {r' : EStateM.Result Halt Feed β} (h : Matches φ s r r') (hs : s.stop = none)
    {q : Report} (hr : r = .error (.failed (.report q)) s' ∨ r' = .error (.failed (.report q)) s') :
    ∃ i j t, s.Later t ∧ r = .error (.failed (.report ⟨.parser, t.current.pos, i⟩)) t ∧
      r' = .error (.failed (.report ⟨.parser, .start, j⟩)) t.bare := by
  cases h with
  | ok => simp at hr
  | report i j ht => exact ⟨i, j, _, ht, rfl, rfl⟩
  | stopped h => rw [hs] at h; cases h
  | outOfFuel => simp at hr

/-- What `x` does, `y` does without places. -/
def Strips (φ : α → β) (x : Parse α) (y : Parse β) : Prop := ∀ s, Matches φ s (x s) (y s.bare)

namespace Strips

variable {k : TokenKind}

theorem pure (h : φ a = b) : Strips φ (Pure.pure a) (Pure.pure b) :=
  fun _ => h ▸ .ok a .refl

theorem bind (hx : Strips φ x y) (hf : ∀ a, Strips ψ (f a) (g (φ a))) : Strips ψ (x >>= f) (y >>= g) := by
  intro s
  have h := hx s
  simp only [Bind.bind, EStateM.bind]
  generalize x s = r, y s.bare = r' at h
  cases h with
  | @ok a s₁ hs =>
    have h := hf a s₁
    simp only
    generalize f a s₁ = r, g (φ a) s₁.bare = r' at h
    cases h with
    | ok b hs' => exact .ok b (hs.trans hs')
    | report i j hs' => exact .report i j (hs.trans hs')
    | stopped h => exact .stopped (hs.stop ▸ h)
    | outOfFuel s' => exact .outOfFuel s'
  | report i j hs => exact .report i j hs
  | stopped h => exact .stopped h
  | outOfFuel s' => exact .outOfFuel s'

theorem map {h : α → γ} {k : β → δ} (hx : Strips φ x y) (hf : ∀ a, ψ (h a) = k (φ a)) :
    Strips ψ (h <$> x) (k <$> y) :=
  .bind hx fun a => .pure (hf a)

theorem ite {c : Prop} [Decidable c] (h : Strips φ x y) (h' : Strips φ x' y') :
    Strips φ (if c then x else x') (if c then y else y') := by
  split
  · exact h
  · exact h'

theorem current : Strips Token.bare current current := fun s => .ok s.current .refl

theorem kind : Strips id kind kind := fun s => .ok s.current.kind .refl

theorem position : Strips (fun _ => .start) position position := fun s => .ok s.current.pos .refl

theorem text : Strips id text text := fun s => .ok (s.current.text.getD "") .refl

theorem fail {i j : Issue} : Strips φ (fail i) (fail j) := fun _ => .report i j .refl

theorem outOfFuel : Strips φ outOfFuel outOfFuel := fun s => .outOfFuel s

theorem advance : Strips id advance advance := by
  rintro ⟨t, ts, stop⟩
  cases ts with
  | cons u ts => exact .ok () (show Feed.Later _ ⟨u, ts, stop⟩ from ⟨suffix_cons _ _, rfl⟩)
  | nil =>
    cases stop with
    | none => exact .ok () .refl
    | some i => exact .stopped rfl

theorem choose (h : Strips φ x y) (h' : Strips φ x' y') : Strips φ
    (fun s => if s.current.kind = k then x s else x' s) (fun s => if s.current.kind = k then y s else y' s) := by
  intro s
  by_cases hk : s.current.kind = k
  · have hk' : s.bare.current.kind = k := hk
    simpa only [if_pos hk, if_pos hk'] using h s
  · have hk' : ¬ s.bare.current.kind = k := hk
    simpa only [if_neg hk, if_neg hk'] using h' s

theorem eat : Strips id (eat k) (eat k) := choose advance fail

theorem eat? : Strips id (eat? k) (eat? k) :=
  choose advance fun _ => .ok () .refl

end Strips

end Parse

/-- The rules do not look at places. -/
structure Rules.Strip (r : Rules) : Prop where
  expr : Parse.Strips Node.bare r.expr r.expr
  unary : Parse.Strips Node.bare r.unary r.unary
  stat : Parse.Strips Node.bare r.stat r.stat

namespace Grammar

open Parse Node

variable {r : Rules} {n : Nat} {item : Parse Node} {ops : List TokenKind}

theorem strips_commaTail (hi : Strips bare item item) (acc : List Node) :
    Strips (List.map bare) (commaTail item n acc) (commaTail item n (acc.map bare)) := by
  induction n generalizing acc with
  | zero => exact .outOfFuel
  | succ n ih =>
    exact .bind .kind fun k => .ite (.bind .advance fun _ => .bind hi fun x => ih (x :: acc))
      (.pure (map_reverse ..))

theorem strips_commaList (hi : Strips bare item item) :
    Strips (List.map bare) (commaList n item) (commaList n item) :=
  .bind hi fun x => strips_commaTail hi [x]

theorem strips_chainTail (hi : Strips bare item item) (left : Node) :
    Strips bare (chainTail ops item n left) (chainTail ops item n left.bare) := by
  induction n generalizing left with
  | zero => exact .outOfFuel
  | succ n ih =>
    exact .bind .current fun t => .ite (.bind .advance fun _ => .bind hi fun x => ih (.binary t.kind left x t.pos))
      (.pure rfl)

theorem strips_chain (hi : Strips bare item item) : Strips bare (chain n ops item) (chain n ops item) :=
  .bind hi fun x => strips_chainTail hi x

theorem isEmpty_bare (x : Node) : x.bare.isEmpty = x.isEmpty := by cases x <;> rfl

theorem strips_statListTail (hs : Strips bare item item) (acc : List Node) :
    Strips (List.map bare) (statListTail item n acc) (statListTail item n (acc.map bare)) := by
  induction n generalizing acc with
  | zero => exact .outOfFuel
  | succ n ih =>
    refine .bind .kind fun k => .ite (.pure (map_reverse ..)) (.bind hs fun x => ?_)
    rw [isEmpty_bare]
    have h := ih (if x.isEmpty then acc else x :: acc)
    rwa [apply_ite (List.map bare)] at h

theorem strips_name : Strips bare name name :=
  .bind .text fun _ => .bind .position fun _ => .bind .eat fun _ => .pure rfl

section Rules

variable (hr : r.Strip)
include hr

theorem strips_placeTail (base : Node) :
    Strips bare (placeTail r n base) (placeTail r n base.bare) := by
  induction n generalizing base with
  | zero => exact .outOfFuel
  | succ n ih =>
    exact .bind .current fun t => .ite
      (.bind .advance fun _ => .bind hr.expr fun k => .bind .eat fun _ => ih (.access base k false t.pos))
      (.ite (.bind .advance fun _ => .bind .text fun x => .bind .position fun p => .bind .eat fun _ =>
        ih (.access base (.string x p) true t.pos)) (.pure rfl))

theorem strips_place : Strips bare (place n r) (place n r) :=
  .bind strips_name fun x => strips_placeTail hr x

omit hr in
theorem strips_listUnless {list : Parse (List Node)} (h : Strips (List.map bare) list list) :
    Strips (Option.map (List.map bare)) (listUnless ops list) (listUnless ops list) :=
  .bind .kind fun _ => .ite (.pure rfl) (.map h fun _ => rfl)

theorem strips_funcDef : Strips bare (funcDef n r) (funcDef n r) :=
  .bind .position fun _ => .bind .eat fun _ => .bind (strips_listUnless (strips_commaList strips_name)) fun _ =>
    .bind .eat fun _ => .bind .eat fun _ => .bind (strips_statListTail hr.stat []) fun _ =>
    .bind .eat fun _ => .pure (by simp)

theorem strips_callTail (callee : Node) :
    Strips bare (callTail n r callee) (callTail n r callee.bare) :=
  .bind .position fun _ => .bind .eat fun _ => .bind (strips_listUnless (strips_commaList hr.expr)) fun _ =>
    .bind .eat fun _ => .pure (by simp)

theorem strips_listOf : Strips bare (listOf n r) (listOf n r) :=
  .bind .position fun _ => .bind .eat fun _ => .bind (strips_listUnless (strips_commaList hr.expr)) fun _ =>
    .bind .eat fun _ => .pure (by simp)

theorem strips_entryTail (ks vs : List Node) :
    Strips (Prod.map (List.map bare) (List.map bare)) (entryTail r n ks vs)
      (entryTail r n (ks.map bare) (vs.map bare)) := by
  induction n generalizing ks vs with
  | zero => exact .outOfFuel
  | succ n ih =>
    exact .bind .kind fun _ => .ite
      (.bind .advance fun _ => .bind hr.expr fun k => .bind .eat fun _ => .bind hr.expr fun v =>
        ih (k :: ks) (v :: vs))
      (.pure (by simp))

theorem strips_mapOrSet : Strips bare (mapOrSet n r) (mapOrSet n r) :=
  .bind .position fun _ => .bind .eat fun _ => .bind .kind fun _ => .ite (.bind .advance fun _ => .pure rfl)
    (.bind hr.expr fun e => .bind .kind fun _ => .ite
      (.bind .advance fun _ => .bind hr.expr fun v => .bind (strips_entryTail hr [e] [v]) fun _ =>
        .bind .eat fun _ => .pure (by simp))
      (.bind (strips_commaTail hr.expr [e]) fun _ => .bind .eat fun _ => .pure (by simp)))

theorem strips_callOpt (f : Node) :
    Strips bare (kind >>= fun k => if k = .lparen then callTail n r f else pure f)
      (kind >>= fun k => if k = .lparen then callTail n r f.bare else pure f.bare) :=
  .bind .kind fun _ => .ite (strips_callTail hr f) (.pure rfl)

theorem strips_primary : Strips bare (primary n r) (primary n r) := by
  refine .bind .current fun t => ?_
  simp only [Token.bare]
  split
  case h_7 => exact .bind .advance fun _ => .bind hr.expr fun e => .bind .eat fun _ => .pure rfl
  case h_8 => exact strips_listOf hr
  case h_9 => exact strips_mapOrSet hr
  case h_10 => exact .bind .advance fun _ => .bind (strips_funcDef hr) fun f => strips_callOpt hr f
  case h_11 => exact .bind (strips_place hr) fun e => strips_callOpt hr e
  case h_12 => exact .fail
  all_goals exact .bind .advance fun _ => .pure rfl

theorem strips_unary : Strips bare (unary n r) (unary n r) :=
  .bind .current fun _ => .ite (.bind .advance fun _ => .bind hr.unary fun _ => .pure rfl)
    (strips_chain (strips_primary hr))

omit hr in
theorem strips_once (hi : Strips bare item item) : Strips bare (once ops item) (once ops item) :=
  .bind hi fun _ => .bind .current fun _ => .ite
    (.bind .advance fun _ => .bind hi fun _ => .pure rfl) (.pure rfl)

theorem strips_binary (ls : List Level) : Strips bare (binary n r ls) (binary n r ls) := by
  induction ls with
  | nil => exact strips_unary hr
  | cons l ls ih => exact .ite (strips_chain ih) (strips_once ih)

theorem strips_select : Strips bare (select n r) (select n r) :=
  .bind (strips_binary hr levels) fun _ => .bind .current fun _ => .ite
    (.bind .advance fun _ => .bind hr.expr fun _ => .bind .eat fun _ => .bind hr.expr fun _ => .pure rfl)
    (.pure rfl)

theorem strips_block : Strips bare (block n r) (block n r) :=
  .bind .position fun _ => .bind .eat fun _ => .bind (strips_statListTail hr.stat []) fun _ =>
    .bind .eat fun _ => .pure (by simp)

theorem strips_declare : Strips bare (declare n r) (declare n r) :=
  .bind .current fun _ => .bind .advance fun _ => .bind (strips_commaList strips_name) fun _ =>
    .bind (φ := Option.map (List.map bare)) (.bind .kind fun _ => .ite
      (.bind .advance fun _ => .map (strips_commaList hr.expr) fun _ => rfl) (.pure rfl)) fun _ =>
    .pure (by rw [bare, bareAll_eq, bareOpt_eq]; rfl)

theorem strips_clause : Strips (Prod.map bare bare) (clause r) (clause r) :=
  .bind hr.expr fun _ => .bind .eat? fun _ => .bind hr.stat fun _ => .pure rfl

theorem strips_clauseTail {word : TokenKind} (acc : List (Node × Node)) :
    Strips (List.map (Prod.map bare bare)) (clauseTail r word n acc)
      (clauseTail r word n (acc.map (Prod.map bare bare))) := by
  induction n generalizing acc with
  | zero => exact .outOfFuel
  | succ n ih =>
    exact .bind .kind fun _ => .ite (.bind .advance fun _ => .bind (strips_clause hr) fun c => ih (c :: acc))
      (.pure (map_reverse ..))

theorem strips_branch : Strips bare (branch n r) (branch n r) :=
  .bind .position fun _ => .bind .eat fun _ => .bind (strips_clause hr) fun c =>
    .bind (strips_clauseTail hr [c]) fun _ => .bind .current fun _ => .ite
      (.bind .advance fun _ => .bind .eat? fun _ => .bind hr.stat fun _ => .pure (by simp [Token.bare]))
      (.pure (by simp))

theorem strips_switch : Strips bare (switch n r) (switch n r) :=
  .bind .position fun _ => .bind .eat fun _ => .bind hr.expr fun _ => .bind .eat? fun _ =>
    .bind .current fun _ => .ite
      (.bind (strips_clauseTail hr []) fun _ => .bind .kind fun _ => .ite
        (.bind .advance fun _ => .bind .eat? fun _ => .bind hr.stat fun _ => .pure (by simp))
        (.pure (by simp)))
      .fail

theorem strips_repeatUntil : Strips bare (repeatUntil r) (repeatUntil r) :=
  .bind .position fun _ => .bind .eat fun _ => .bind .eat? fun _ => .bind hr.stat fun _ =>
    .bind .eat fun _ => .bind hr.expr fun _ => .pure rfl

theorem strips_whileLoop : Strips bare (whileLoop r) (whileLoop r) :=
  .bind .position fun _ => .bind .eat fun _ => .bind (strips_clause hr) fun _ => .pure rfl

omit hr in
theorem strips_afterComma (hi : Strips bare item item) : Strips bare (afterComma item) (afterComma item) :=
  .bind .kind fun _ => .ite (.bind .advance fun _ => hi) (.pure rfl)

theorem strips_forLoop : Strips bare (forLoop r) (forLoop r) :=
  .bind .position fun _ => .bind .eat fun _ => .bind strips_name fun _ => .bind .kind fun _ => .ite
    (.bind .eat fun _ => .bind hr.expr fun _ => .bind .eat fun _ => .bind hr.expr fun _ =>
      .bind (strips_afterComma hr.expr) fun _ => .bind .eat? fun _ => .bind hr.stat fun _ => .pure rfl)
    (.bind (strips_afterComma strips_name) fun _ => .bind .eat fun _ => .bind (strips_clause hr) fun _ =>
      .pure rfl)

theorem strips_funcStat : Strips bare (funcStat n r) (funcStat n r) :=
  .bind .eat fun _ => .bind .kind fun _ => .ite
    (.bind strips_name fun _ => .bind (strips_funcDef hr) fun _ => .bind .position fun _ => .pure rfl)
    (.bind (strips_funcDef hr) fun f => strips_callTail hr f)

theorem strips_returnValue : Strips bare (returnValue r) (returnValue r) :=
  .bind .position fun _ => .bind .eat fun _ => .bind .kind fun _ => .ite
    (.bind .advance fun _ => .pure rfl) (.bind hr.expr fun _ => .pure rfl)

theorem strips_placeStat : Strips bare (placeStat n r) (placeStat n r) :=
  .bind (strips_place hr) fun e => .bind .kind fun _ => .ite
    (.bind (strips_commaTail (strips_place hr) [e]) fun _ => .bind .position fun _ => .bind .eat fun _ =>
      .bind (strips_commaList hr.expr) fun _ => .pure (by simp))
    (.ite (strips_callTail hr e) (.bind .current fun _ => .ite
      (.bind .advance fun _ => .bind hr.expr fun _ => .pure rfl) .fail))

theorem strips_stat : Strips bare (stat n r) (stat n r) := by
  refine .bind .kind fun k => ?_
  simp only [id]
  split
  · exact .bind .eat fun _ => .pure rfl
  · exact strips_block hr
  · exact strips_declare hr
  · exact strips_declare hr
  · exact strips_branch hr
  · exact strips_switch hr
  · exact strips_repeatUntil hr
  · exact strips_whileLoop hr
  · exact strips_forLoop hr
  · exact .bind .position fun _ => .bind .eat fun _ => .pure rfl
  · exact .bind .position fun _ => .bind .eat fun _ => .pure rfl
  · exact strips_funcStat hr
  · exact strips_returnValue hr
  · exact strips_placeStat hr

end Rules

theorem strip_rules (n : Nat) : (rules n).Strip := by
  induction n with
  | zero => exact ⟨.outOfFuel, .outOfFuel, .outOfFuel⟩
  | succ n ih => exact ⟨strips_select ih, strips_unary ih, strips_stat ih⟩

theorem strips_whole (s : Feed) : Matches bare s (Parse.run whole s) (Parse.run whole s.bare) := by
  have strips (n : Nat) : Strips bare (whole n) (whole n) :=
    .bind (.map (strips_statListTail (strip_rules n).stat []) fun _ => by simp) fun _ =>
      .bind .current fun _ => .ite (.pure rfl) .fail
  have hfuel : fuelFor s.bare = fuelFor s := by simp [fuelFor, Feed.bare]
  rw [Parse.run, Parse.run, hfuel]
  exact strips _ s

end Grammar

/-! ### Texts and expressions -/

/-- The token, at no place. -/
def Lexeme.token (l : Lexeme) : Token := ⟨l.kind, l.text, .start⟩

@[simp] theorem Lexeme.pos_token (l : Lexeme) : l.token.pos = .start := rfl

namespace Feed

variable {s s' : Feed}

theorem tokens_bare (s : Feed) : s.bare.tokens = s.lexemes.map Lexeme.token := by
  simp [tokens, lexemes, bare, Token.bare, Lexeme.token, Token.lexeme]

theorem bare_eq (h : s.lexemes = s'.lexemes) (hstop : s.stop = s'.stop) : s.bare = s'.bare := by
  have htokens : s.bare.tokens = s'.bare.tokens := by rw [tokens_bare, tokens_bare, h]
  obtain ⟨hcurrent, hrest⟩ := List.cons.inj htokens
  have hrest : s.rest.map Token.bare = s'.rest.map Token.bare := hrest
  rw [Feed.bare, Feed.bare, hstop, hrest, show s.current.bare = s'.current.bare from hcurrent]

theorem Later.getElem? (h : s.Later t) :
    s.tokens[s.tokens.length - t.tokens.length]? = some t.current := by
  obtain ⟨v, hv⟩ := h.tokens
  rw [← hv, length_append, Nat.add_sub_cancel, getElem?_append_right (Nat.le_refl _), Nat.sub_self]
  rfl

theorem length_tokens_bare (s : Feed) : s.bare.tokens.length = s.tokens.length := by
  simp [bare, tokens]

theorem Closed.bare (hs : s.Closed) : s.bare.Closed := by
  have hk : s.bare.kinds = s.kinds := by simp [kinds, Feed.bare, Token.bare]
  exact ⟨hs.stop, hk ▸ hs.ends⟩

/-- Points of a feed with the same tokens but for places are the same. -/
theorem Later.eq_of_bare {s₀ : Feed} (h : s₀.Later s) (h' : s₀.Later s') (hb : s.bare = s'.bare) : s = s' := by
  refine eq_of_tokens ?_ (h.stop.trans h'.stop.symm)
  have hlen := congrArg (fun s : Feed => s.tokens.length) hb
  simp only [tokens_bare, lexemes, length_map] at hlen
  exact (suffix_of_suffix_length_le h.tokens h'.tokens (Nat.le_of_eq hlen)).eq_of_length hlen

theorem Spends.later (h : s.Spends w s') : s.Later s' := by
  obtain ⟨ts, -, htok, hstop⟩ := h
  exact ⟨⟨ts, htok.symm⟩, hstop.symm⟩

theorem Spends.tokens_bare (h : s.Spends w s') :
    s.bare.tokens = w.map Lexeme.token ++ s'.bare.tokens := by
  obtain ⟨ts, rfl, htok, -⟩ := h
  simp [Feed.tokens_bare, lexemes, htok]

end Feed

/-- A text is a program as its tokens are read without places. -/
theorem exists_parse_iff_reads {src : String} {ts : List Token} {ls : List Lexeme} {ss : List Node}
    (h : tokenize src = (ts, none)) (hts : ts.map Token.lexeme = ls ++ [Lexeme.eof])
    (hls : ∀ l ∈ ls, l.kind ≠ .eof) : (∃ tree, parse src = .ok tree ∧ tree.bare = .program ss) ↔
      Reads .stats ((ls ++ [Lexeme.eof]).map Lexeme.token) ss [Lexeme.eof.token] := by
  obtain ⟨s, hs, hlex, -, hw⟩ := exists_feed_of_tokenize h hts hls
  have hmatch := Grammar.strips_whole s
  have htokens : s.bare.tokens = (ls ++ [Lexeme.eof]).map Lexeme.token := hlex ▸ s.tokens_bare
  rw [← htokens]
  constructor
  · rintro ⟨tree, htree, hbare⟩
    obtain ⟨s', hrun⟩ := (parse_eq_ok hs).1 htree
    rw [hrun] at hmatch
    rcases whole_cases hw.bare with ⟨_, t, hok, ht, hreads⟩ | ⟨r, _, herr, -⟩
    · obtain ⟨htree', -⟩ := EStateM.Result.ok.inj (hok.symm.trans hmatch.right)
      cases htree'.trans hbare
      have hlast := hreads.suffix
      rw [show s.bare.current :: s.bare.rest = _ from htokens, map_append] at hlast
      obtain ⟨us, hus⟩ := hlast
      obtain ⟨-, hend⟩ := append_inj' hus rfl
      rwa [hend] at hreads
    · cases herr.symm.trans hmatch.right
  · intro hreads
    rw [whole_of_reads hreads rfl] at hmatch
    obtain ⟨tree, s', hok, hbare, -⟩ := hmatch.left
    exact ⟨tree, (parse_eq_ok hs).2 ⟨s', hok⟩, hbare⟩

/-- An expression is built from tokens that are read as one without places. -/
theorem Grammar.expr_of_reads {e : Node} (hs : s.Spends w s')
    (h : Reads .expr (w.map Lexeme.token ++ s'.bare.tokens) [e] s'.bare.tokens)
    (hk : s'.current.kind ∉ Piece.exprConts) :
    ∃ e', Parse.run (fun n => (rules n).expr) s = .ok e' s' ∧ e'.bare = e := by
  rw [← hs.tokens_bare] at h
  have hlen : s.bare.tokens.length < fuelFor s := by simp [Feed.tokens, Feed.bare, fuelFor]
  have hgets := (built_of_reads h rfl).expr hlen (.cons hk)
  have hend : Feed.ofList s'.bare.tokens s.stop = s'.bare := by rw [← hs.later.stop]; rfl
  have hrun := (hgets (cons_ne_nil _ _)).2 s.stop
  have hmatch := (strip_rules (fuelFor s)).expr s
  rw [show (rules (fuelFor s)).expr s.bare = .ok e s'.bare from hend ▸ hrun] at hmatch
  obtain ⟨e', s₁, hok, hbare, heq, hlater⟩ := hmatch.left
  exact ⟨e', hlater.eq_of_bare hs.later heq ▸ hok, hbare⟩

/-! ### Two texts with the same tokens -/

/-- What is read does not depend on the places of tokens: two texts with the same tokens have the same tree
but for places, or both are rejected at the same token. -/
theorem parse_of_same_lexemes {a b : String} {ts us : List Token} (ha : tokenize a = (ts, none))
    (hb : tokenize b = (us, none)) (h : ts.map Token.lexeme = us.map Token.lexeme) :
    (∃ ta tb, parse a = .ok ta ∧ parse b = .ok tb ∧ ta.bare = tb.bare) ∨
      ∃ (i : Nat) (t u : Token) (r q : Report), ts[i]? = some t ∧ us[i]? = some u ∧
        parse a = .error (.failed (.report r)) ∧ parse b = .error (.failed (.report q)) ∧
        r.stage = .parser ∧ q.stage = .parser ∧ r.pos = t.pos ∧ q.pos = u.pos := by
  obtain ⟨s, hs, rfl, hss, hsw⟩ := exists_feed_of_tokens ha
  obtain ⟨s', hs', rfl, hss', -⟩ := exists_feed_of_tokens hb
  have hbare : s.bare = s'.bare := Feed.bare_eq h (hss.trans hss'.symm)
  have hlen : s.tokens.length = s'.tokens.length := by
    rw [← s.length_tokens_bare, hbare, s'.length_tokens_bare]
  have hm := Grammar.strips_whole s
  have hm' := Grammar.strips_whole s'
  rw [← hbare] at hm'
  rcases whole_cases hsw with ⟨ss, t, hok, -, -⟩ | ⟨r, u, hr, -⟩
  · rw [hok] at hm
    rw [hm.right] at hm'
    obtain ⟨tree, u, hok', htree, -⟩ := hm'.left
    exact .inl ⟨.program ss, tree, (parse_eq_ok hs).2 ⟨_, hok⟩, (parse_eq_ok hs').2 ⟨_, hok'⟩,
      htree.symm⟩
  · obtain ⟨i, j, t, ht, hrt, hrt'⟩ := hm.report_of hss (.inl hr)
    obtain ⟨i', j', t', ht', hrt₁, hrt₁'⟩ := hm'.report_of hss' (.inr hrt')
    have htt : t.bare = t'.bare := by
      rw [hrt'] at hrt₁'
      exact (EStateM.Result.error.inj hrt₁').2
    have hlent : t.tokens.length = t'.tokens.length := by
      rw [← t.length_tokens_bare, htt, t'.length_tokens_bare]
    refine .inr ⟨_, _, _, _, _, ht.getElem?, ?_, parse_eq_error hs hrt, parse_eq_error hs' hrt₁, rfl, rfl, rfl, rfl⟩
    rw [hlen, hlent]
    exact ht'.getElem?

/-- Two layouts of a declaration, with other quotes and a comment in one of them. -/
theorem parse_of_same_lexemes_reflowed :
    (tokenize "x='a'+y").2 = none ∧ (tokenize "x // name\n =\n\t\"a\" + y\n").2 = none ∧
    (tokenize "x='a'+y").1.map Token.lexeme =
      (tokenize "x // name\n =\n\t\"a\" + y\n").1.map Token.lexeme ∧
    ((∃ ta tb, parse "x='a'+y" = .ok ta ∧ parse "x // name\n =\n\t\"a\" + y\n" = .ok tb ∧
      ta.bare = tb.bare) ∨
      ∃ (i : Nat) (t u : Token) (r q : Report), (tokenize "x='a'+y").1[i]? = some t ∧
        (tokenize "x // name\n =\n\t\"a\" + y\n").1[i]? = some u ∧
        parse "x='a'+y" = .error (.failed (.report r)) ∧
        parse "x // name\n =\n\t\"a\" + y\n" = .error (.failed (.report q)) ∧
        r.stage = .parser ∧ q.stage = .parser ∧ r.pos = t.pos ∧ q.pos = u.pos) := by
  have ha : (tokenize "x='a'+y").2 = none := by decide +kernel
  have hb : (tokenize "x // name\n =\n\t\"a\" + y\n").2 = none := by decide +kernel
  have h : (tokenize "x='a'+y").1.map Token.lexeme =
      (tokenize "x // name\n =\n\t\"a\" + y\n").1.map Token.lexeme := by decide +kernel
  exact ⟨ha, hb, h, parse_of_same_lexemes (Prod.ext rfl ha) (Prod.ext rfl hb) h⟩

end TinyScript
