import TinyScript.Proofs.ParseSound
import TinyScript.Proofs.Building

/-!
# The parser accepts exactly the grammar

What the grammar derives can be read. Where a derivation gives a clause to an outer choice the parser may
give it to an inner one, but then it takes more and not less, and at the end of a block or of the program
no clause is left.

Main statement (`whole_ok_iff_derives`): tokens before an end token have a tree exactly if they are
derived from `program`, and all others are reported.
-/

namespace TinyScript

open Ebnf Parse List

namespace Grammar

variable {n : Nat} {e : Ebnf} {es : List Ebnf} {p : Piece} {l : List Token} {t z : List TokenKind}
  {k word : TokenKind}
variable {ops ks : List TokenKind} {ds : List (List TokenKind)} {u : Token} {s : Feed}

abbrev kinds (l : List Token) : List TokenKind := l.map (·.kind)

/-- There are fewer than `n` tokens, which begin with phrases of all of `es`, and `t` is left after them. -/
structure Left (n : Nat) (es : List Ebnf) (l : List Token) (t : List TokenKind) : Prop where
  lt : l.length < n
  begins : Begins (seq es) (kinds l) t

namespace Left

variable {es' : List Ebnf}

theorem eq (h : Left n [] l t) : kinds l = t := begins_seq_nil.1 h.begins

theorem up (h : Left n es l t) : Left (n + 1) es l t := ⟨Nat.lt_succ_of_lt h.lt, h.begins⟩

theorem drop (h : Left (n + 1) (token k :: es) l t) :
    ∃ u l', l = u :: l' ∧ u.kind = k ∧ Left n es l' t := by
  obtain ⟨m, hm, hb⟩ := begins_token_seq.1 h.begins
  obtain ⟨u, l', rfl, hu, rfl⟩ := map_eq_cons_iff.1 hm
  exact ⟨u, l', rfl, hu, Nat.lt_of_succ_lt_succ h.lt, hb⟩

theorem token (h : Left n (token k :: es) l t) : ∃ u l', l = u :: l' ∧ u.kind = k ∧ Left n es l' t :=
  h.up.drop

theorem mono {e' : Ebnf} (he : ∀ w, Derives e w → Derives e' w) (h : Left n (e :: es) l t) :
    Left n (e' :: es) l t := by
  obtain ⟨m, hm, hb⟩ := begins_seq_cons.1 h.begins
  exact ⟨h.lt, begins_seq_cons.2 ⟨m, hm.mono he, hb⟩⟩

theorem rule {x : Nonterminal} (h : Left n (ref x :: es) l t) : Left n (rule x :: es) l t :=
  h.mono fun _ => derives_ref.1

theorem seq (h : Left n (seq es' :: es) l t) : Left n (es' ++ es) l t :=
  ⟨h.lt, begins_seq_append.2 (begins_seq_cons.1 h.begins)⟩

theorem pack (es' : List Ebnf) (h : Left n (es' ++ es) l t) : Left n (Ebnf.seq es' :: es) l t :=
  ⟨h.lt, begins_seq_cons.2 (begins_seq_append.1 h.begins)⟩

theorem alt (h : Left n (alt es' :: es) l t) : ∃ e ∈ es', Left n (e :: es) l t := by
  obtain ⟨m, hm, hb⟩ := begins_seq_cons.1 h.begins
  obtain ⟨e, he, hm⟩ := begins_alt.1 hm
  exact ⟨e, he, h.lt, begins_seq_cons.2 ⟨m, hm, hb⟩⟩

theorem oneOf (h : Left (n + 1) (oneOf ops :: es) l t) :
    ∃ u l', l = u :: l' ∧ u.kind ∈ ops ∧ Left n es l' t := by
  obtain ⟨e, he, h⟩ := h.alt
  obtain ⟨k, hk, rfl⟩ := mem_map.1 he
  obtain ⟨u, l', rfl, rfl, hl⟩ := h.drop
  exact ⟨u, l', rfl, hk, hl⟩

theorem opt (h : Left n (opt e :: es) l t) : Left n es l t ∨ Left n (e :: es) l t := by
  obtain ⟨m, hm, hb⟩ := begins_seq_cons.1 h.begins
  rcases begins_opt.1 hm with rfl | hm
  · exact .inl ⟨h.lt, hb⟩
  · exact .inr ⟨h.lt, begins_seq_cons.2 ⟨m, hm, hb⟩⟩

theorem many {M : List Token → Prop} (h : Left n (many e :: es) l t) (hl : M l)
    (step : ∀ m t, M m → Left n [e] m t → ∃ m', M m' ∧ Left n [] m' t) :
    ∃ m', M m' ∧ Left n es m' t := by
  have lt := h.lt
  obtain ⟨m, ⟨w, hw, hk⟩, hb⟩ := begins_seq_cons.1 h.begins
  clear h
  generalize hf : Ebnf.many e = f at hw
  induction hw generalizing l with
  | done => exact ⟨l, hl, lt, hk ▸ hb⟩
  | @more _ u v hu _ _ ih =>
    cases hf
    have hb : Begins e (kinds l) (v ++ m) := ⟨u, hu, hk.trans (List.append_assoc ..)⟩
    obtain ⟨m', hm', h⟩ := step l _ hl ⟨lt, begins_seq_one.2 hb⟩
    exact ih hm' h.lt h.eq rfl
  | _ => cases hf

end Left

/-- Where fewer than `n` tokens are left, a phrase of `e` before others can be read as a `p`. -/
def Readable (n : Nat) (e : Ebnf) (p : Piece) : Prop :=
  ∀ es l t, Left n (e :: es) l t → ∃ ns l', Reads p l ns l' ∧ Left n es l' t

namespace Readable

theorem one (h : Readable n e p) (hp : p.isRule = true) (hb : Left n (e :: es) l t) :
    ∃ x l', Reads p l [x] l' ∧ Left n es l' t := by
  obtain ⟨ns, l', hr, hb⟩ := h es l t hb
  obtain ⟨x, rfl⟩ := hr.exists_eq hp
  exact ⟨x, l', hr, hb⟩

theorem after (h : Readable n e p) : Readable n (Ebnf.seq [.token k, e]) (.after k p) := by
  intro es l t hb
  obtain ⟨u, l, rfl, hu, hb⟩ := hb.seq.token
  obtain ⟨ns, l', hr, hb⟩ := h _ _ _ hb
  exact ⟨ns, l', .after hu hr, hb⟩

theorem opt (h : Readable n e p) : Readable n (opt e) (.opt p) := by
  intro es l t hb
  rcases hb.opt with hb | hb
  · exact ⟨[], l, .absent, hb⟩
  · obtain ⟨ns, l', hr, hb⟩ := h _ _ _ hb
    exact ⟨ns, l', .present hr, hb⟩

theorem commas (hp : p.isRule = true) (h : Readable n e p) :
    Readable n (Ebnf.seq [e, .many (.seq [.token .comma, e])]) (.commas p) := by
  intro es l t hb
  obtain ⟨x, l₁, hx, hb⟩ := h.one hp hb.seq
  obtain ⟨l', ⟨ns, hr⟩, hb⟩ := hb.many (M := fun m => ∃ ns, Reads (.commas p) l ns m) ⟨_, .one hx⟩ (by
    rintro m t ⟨xs, hm⟩ hb
    obtain ⟨u, m, rfl, hu, hb⟩ := hb.seq.token
    obtain ⟨y, m', hy, hb⟩ := h.one hp hb
    exact ⟨m', ⟨_, .more hm hu hy⟩, hb⟩)
  exact ⟨ns, l', hr, hb⟩

theorem chain (hp : p.isRule = true) (h : Readable n e p) :
    Readable n (Ebnf.seq [e, .many (.seq [oneOf ops, e])]) (.chain ops p) := by
  intro es l t hb
  obtain ⟨x, l₁, hx, hb⟩ := h.one hp hb.seq
  obtain ⟨l', ⟨a, hr⟩, hb⟩ := hb.many (M := fun m => ∃ a, Reads (.chain ops p) l [a] m) ⟨_, .first hx⟩ (by
    rintro m t ⟨a, hm⟩ hb
    obtain ⟨u, m, rfl, hu, hb⟩ := hb.seq.up.oneOf
    obtain ⟨y, m', hy, hb⟩ := h.one hp hb
    exact ⟨m', ⟨_, .next hm hu hy⟩, hb⟩)
  exact ⟨_, l', hr, hb⟩

theorem once (hp : p.isRule = true) (h : Readable n e p) :
    Readable n (Ebnf.seq [e, .opt (.seq [oneOf ops, e])]) (.once ops p) := by
  intro es l t hb
  obtain ⟨x, l₁, hx, hb⟩ := h.one hp hb.seq
  rcases hb.opt with hb | hb
  · exact ⟨_, l₁, .lone hx, hb⟩
  · obtain ⟨u, m, rfl, hu, hb⟩ := hb.seq.up.oneOf
    obtain ⟨y, m', hy, hb⟩ := h.one hp hb
    exact ⟨_, m', .compare hx hu hy, hb⟩

end Readable

/-! ### Clauses -/

variable {cs : List (List TokenKind)}

/-- A clause of a choice, after the first one of an `if`. -/
inductive IsClause : List TokenKind → Prop
  | cond {word v} (hw : word ∈ [.kwElif, .kwCase])
      (hv : Derives (seq [ref .expr, opt (token .colon), ref .stat]) v) : IsClause (word :: v)
  | last {word v} (hw : word ∈ [.kwElse, .kwDefault])
      (hv : Derives (seq [opt (token .colon), ref .stat]) v) : IsClause (word :: v)

/-- What may come after a statement and the clauses after it. -/
def EndsStat (z : List TokenKind) : Prop :=
  ∃ k ∈ Piece.openers ++ [.rbrace, .kwUntil, .eof], k ∈ z.head?

/-- The clauses `cs` and then `z` may come after a statement. -/
structure Follow (cs : List (List TokenKind)) (z : List TokenKind) : Prop where
  clauses : ∀ c ∈ cs, IsClause c
  ends : EndsStat z

theorem Follow.suffix (h : Follow cs z) (hs : ds <:+ cs) : Follow ds z :=
  ⟨fun c hc => h.clauses c (hs.subset hc), h.ends⟩

/-- `l` is what is left of the clauses `cs` and of `z`, with nothing of `z` taken. -/
def Remains (n : Nat) (cs : List (List TokenKind)) (z : List TokenKind) (l : List Token) : Prop :=
  ∃ cs', cs' <:+ cs ∧ Left n [] l (cs'.flatten ++ z)

theorem Remains.up (h : Remains n cs z l) : Remains (n + 1) cs z l := by
  obtain ⟨cs', hs, h⟩ := h
  exact ⟨cs', hs, h.up⟩

/-- A phrase that ends with a statement can be read, maybe with some of the clauses after it. -/
def ReadableStat (n : Nat) (e : Ebnf) (p : Piece) : Prop :=
  ∀ l cs z, Left n [e] l (cs.flatten ++ z) → Follow cs z → ∃ x l', Reads p l [x] l' ∧ Remains n cs z l'

/-- The words that clauses begin with. -/
def clauseWords : List TokenKind := [.kwElif, .kwElse, .kwCase, .kwDefault]

theorem exists_clause (hf : Follow cs z) (hw : word ∈ clauseWords) (hk : word ∈ (cs.flatten ++ z).head?) :
    ∃ v cs', cs = (word :: v) :: cs' ∧ IsClause (word :: v) := by
  cases cs with
  | nil =>
    obtain ⟨k, hk', hz⟩ := hf.ends
    have hd : ∀ k ∈ Piece.openers ++ [.rbrace, .kwUntil, .eof], k ∉ clauseWords := by decide
    exact absurd (Option.mem_unique hk hz ▸ hw) (hd k hk')
  | cons c cs =>
    have hc := hf.clauses c mem_cons_self
    cases hc with
    | cond hw hv =>
      cases hk
      exact ⟨_, cs, rfl, .cond hw hv⟩
    | last hw hv =>
      cases hk
      exact ⟨_, cs, rfl, .last hw hv⟩

theorem Left.clause {v : List TokenKind} (hv : Derives (Ebnf.seq es) v)
    (h : Left n [] (u :: l) (((word :: v) :: cs).flatten ++ z)) : Left n es l (cs.flatten ++ z) :=
  ⟨Nat.lt_of_succ_lt h.lt, v, hv, (List.cons.inj h.eq).2.trans (List.append_assoc ..)⟩

/-- The rules of expressions and statements can be read, where fewer than `n` tokens are left. -/
structure Complete (n : Nat) : Prop where
  expr : Readable n (ref .expr) .expr
  unary : Readable n (ref .unaryExpr) .unary
  stat : ReadableStat n (ref .stat) .stat

theorem read_colon (hb : Left n (opt (token .colon) :: es) l t) :
    ∃ l', Reads (.opt (.token .colon)) l [] l' ∧ Left n es l' t := by
  rcases hb.opt with hb | hb
  · exact ⟨l, .absent, hb⟩
  · obtain ⟨u, l', rfl, hu, hb⟩ := hb.token
    exact ⟨l', .present (.token hu), hb⟩

section Rules

variable (hc : Complete n)
include hc

theorem read_body (hb : Left n [opt (token .colon), ref .stat] l (cs.flatten ++ z))
    (hf : Follow cs z) : ∃ b l', Reads .body l [b] l' ∧ Remains n cs z l' := by
  obtain ⟨l₁, hk, hb⟩ := read_colon hb
  obtain ⟨b, l', hr, hrem⟩ := hc.stat l₁ cs z hb hf
  exact ⟨b, l', .body hk hr, hrem⟩

theorem read_clause
    (hb : Left n [ref .expr, opt (token .colon), ref .stat] l (cs.flatten ++ z)) (hf : Follow cs z) :
    ∃ c l₁ b l', Reads .expr l [c] l₁ ∧ Reads .body l₁ [b] l' ∧ Remains n cs z l' := by
  obtain ⟨c, l₁, hr, hb⟩ := hc.expr.one rfl hb
  obtain ⟨b, l', hbody, hrem⟩ := read_body hc hb hf
  exact ⟨c, l₁, b, l', hr, hbody, hrem⟩

/-- The clauses of a word are read to the last one, those of the choices around it included. -/
theorem read_clauses (hw : word ∈ [.kwElif, .kwCase]) {conds bodies : List Node}
    {l₁ : List Token} (h : Reads (.clauses word conds) l bodies l₁)
    (hb : Left n [] l₁ (cs.flatten ++ z)) (hf : Follow cs z) :
    ∃ conds' bodies' l₂ cs', Reads (.clauses word conds') l bodies' l₂ ∧ cs' <:+ cs ∧
      Left n [] l₂ (cs'.flatten ++ z) ∧ Stops [word] l₂ := by
  induction hn : l₁.length using Nat.strongRecOn generalizing conds bodies l₁ cs with
  | _ m ih =>
    by_cases hstop : Stops [word] l₁
    · exact ⟨conds, bodies, l₁, cs, h, suffix_rfl, hb, hstop⟩
    · obtain ⟨u, l₁, rfl, hu⟩ : ∃ u l', l₁ = u :: l' ∧ u.kind = word := by
        cases l₁ with
        | nil => exact absurd (fun _ ht => by cases ht) hstop
        | cons u l' =>
          refine ⟨u, l', rfl, Decidable.byContradiction fun hu => hstop (.cons ?_)⟩
          simpa using hu
      have hwords : ∀ k ∈ [.kwElif, .kwCase], k ∈ clauseWords ∧ k ∉ [TokenKind.kwElse, .kwDefault] := by decide
      obtain ⟨v, cs₁, rfl, hclause⟩ := exists_clause hf (hwords word hw).1 (hb.eq ▸ hu ▸ rfl)
      cases hclause with
      | last hw' _ => exact absurd hw' (hwords word hw).2
      | cond _ hv =>
        have hf₁ : Follow cs₁ z := hf.suffix (suffix_cons _ _)
        obtain ⟨c, l₂, b, l₃, hcond, hbody, ds, hsuf, hb₃⟩ := read_clause hc (hb.clause hv) hf₁
        have hlt : l₃.length < (u :: l₁).length :=
          Nat.lt_trans (hbody.length_lt rfl) (Nat.lt_trans (hcond.length_lt rfl) (Nat.lt_succ_self _))
        obtain ⟨conds', bodies', l₄, cs', hr, hsuf', hrest⟩ := ih _ (hn ▸ hlt) (.clauses h hu hcond hbody)
          hb₃ (hf₁.suffix hsuf) rfl
        exact ⟨conds', bodies', l₄, cs', hr, hsuf'.trans (hsuf.trans (suffix_cons _ _)), hrest⟩

omit hc in
theorem suffix_of_stops {own : List (List TokenKind)} (hown : ∀ c ∈ own, ∃ v, c = word :: v)
    (hds : ds <:+ own ++ cs) (hk : kinds l = ds.flatten ++ z) (hstop : Stops [word] l) : ds <:+ cs := by
  induction own with
  | nil => exact hds
  | cons c own ih =>
    rcases suffix_cons_iff.1 hds with rfl | hds
    · obtain ⟨v, rfl⟩ := hown c mem_cons_self
      obtain ⟨u, l, rfl, hu, -⟩ := map_eq_cons_iff.1 hk
      exact absurd (mem_singleton.2 hu) (hstop u rfl)
    · exact ih (fun c hc => hown c (mem_cons_of_mem _ hc)) hds

omit hc in
theorem exists_clauses (hw : word ∈ [.kwElif, .kwCase]) {l : List TokenKind}
    (hb : Begins (many (clauseOf word)) l t) : ∃ own : List (List TokenKind), l = own.flatten ++ t ∧
      ∀ c ∈ own, IsClause c ∧ ∃ v, c = word :: v := by
  obtain ⟨w, hw', rfl⟩ := hb
  generalize hf : many (clauseOf word) = f at hw'
  induction hw' with
  | done => exact ⟨[], rfl, by simp⟩
  | @more e u v h hs _ ih =>
    cases hf
    obtain ⟨u, hu, rfl⟩ := derives_token_seq.1 h
    obtain ⟨own, hl, hown⟩ := ih rfl
    refine ⟨(word :: u) :: own, ?_, forall_mem_cons.2 ⟨⟨.cond hw hu, u, rfl⟩, hown⟩⟩
    rw [List.append_assoc, hl, flatten_cons, List.append_assoc]
  | _ => cases hf

omit hc in
theorem exists_last (hw : word ∈ [.kwElse, .kwDefault]) {l : List TokenKind}
    (hb : Begins (opt (lastOf word)) l t) : ∃ own : List (List TokenKind), l = own.flatten ++ t ∧
      (∀ c ∈ own, IsClause c) ∧ (own = [] ∨ ∃ v, own = [word :: v]) := by
  rcases begins_opt.1 hb with rfl | ⟨w, hw', rfl⟩
  · exact ⟨[], rfl, by simp, .inl rfl⟩
  · obtain ⟨v, hv, rfl⟩ := derives_token_seq.1 hw'
    refine ⟨[word :: v], by simp, ?_, .inr ⟨v, rfl⟩⟩
    simpa using IsClause.last hw hv

/-- All clauses of a choice after its first one: those with the word `w`, and a last one if it is there. -/
theorem read_choice {w w' : TokenKind} (hw : w ∈ [.kwElif, .kwCase])
    (hw' : w' ∈ [.kwElse, .kwDefault]) {c : Node} {l₀ : List Token} (hcond : Reads .expr l [c] l₀)
    (hb : Left n [opt (token .colon), ref .stat, many (clauseOf w), opt (lastOf w')] l₀ (cs.flatten ++ z))
    (hf : Follow cs z) : ∃ conds bodies u l₂, Reads (.clauses w conds) l bodies (u :: l₂) ∧ u.kind ≠ w ∧
      (u.kind ≠ w' ∧ Remains n cs z (u :: l₂) ∨
        u.kind = w' ∧ ∃ b l', Reads .body l₂ [b] l' ∧ Remains n cs z l') := by
  obtain ⟨m, hbody, hrest⟩ := Begins.split [_, _] hb.begins
  obtain ⟨m', hmany, hopt⟩ := begins_seq_cons.1 hrest
  obtain ⟨own, rfl, hown⟩ := exists_clauses hw hmany
  obtain ⟨last, rfl, hlast, hshape⟩ := exists_last hw' (begins_seq_one.1 hopt)
  have hall : Follow (own ++ (last ++ cs)) z := by
    refine ⟨?_, hf.ends⟩
    simp only [forall_mem_append]
    exact ⟨fun c hc => (hown c hc).1, hlast, hf.clauses⟩
  have hflat : own.flatten ++ (last.flatten ++ (cs.flatten ++ z)) = (own ++ (last ++ cs)).flatten ++ z := by
    simp
  obtain ⟨b, l₁, hread, ds, hds, hb₁⟩ := read_body hc ⟨hb.lt, hflat ▸ hbody⟩ hall
  obtain ⟨conds, bodies, l₂, ds', hr, hds', hb₂, hstop⟩ := read_clauses hc hw (.clause hcond hread) hb₁
    (hall.suffix hds)
  have hsuf := suffix_of_stops (fun c hc => (hown c hc).2) (hds'.trans hds) hb₂.eq hstop
  cases l₂ with
  | nil =>
    obtain ⟨k, -, hk⟩ := hf.ends
    rw [(append_eq_nil_iff.1 hb₂.eq.symm).2] at hk
    cases hk
  | cons u l₂ =>
    refine ⟨conds, bodies, u, l₂, hr, by simpa using hstop u rfl, ?_⟩
    by_cases hu : u.kind = w'
    · refine .inr ⟨hu, ?_⟩
      have hwords : ∀ k ∈ [.kwElse, .kwDefault], k ∈ clauseWords ∧ k ∉ [TokenKind.kwElif, .kwCase] := by decide
      obtain ⟨v, ds₁, rfl, hclause⟩ := exists_clause (hall.suffix (hds'.trans hds)) (hwords w' hw').1
        (hb₂.eq ▸ hu ▸ rfl)
      have hds₁ : ds₁ <:+ cs := by
        rcases hshape with rfl | ⟨v', rfl⟩
        · exact (suffix_cons _ _).trans hsuf
        · rcases suffix_cons_iff.1 hsuf with h | h
          · exact (List.cons.inj h).2 ▸ suffix_rfl
          · exact (suffix_cons _ _).trans h
      cases hclause with
      | cond h _ => exact absurd h (hwords w' hw').2
      | last _ hv =>
        obtain ⟨b, l', hbody, ds₂, hds₂, hb'⟩ := read_body hc (hb₂.clause hv) (hf.suffix hds₁)
        exact ⟨b, l', hbody, ds₂, hds₂.trans hds₁, hb'⟩
    · have hlast' : ∀ c ∈ last, ∃ v, c = w' :: v := by
        rcases hshape with rfl | ⟨v, rfl⟩ <;> simp
      exact .inl ⟨hu, ds', suffix_of_stops hlast' hsuf hb₂.eq (.cons (by simpa using hu)), hb₂⟩

theorem readable_if : ReadableStat (n + 1) (ref .ifStat) .stat := by
  intro l cs z hb hf
  obtain ⟨t, l, rfl, ht, hb⟩ := hb.rule.seq.drop
  obtain ⟨c, l₁, hcond, hb⟩ := hc.expr.one rfl hb
  obtain ⟨conds, bodies, u, l₂, hr, hu, ⟨hu', hrem⟩ | ⟨hu', b, l', hb, hrem⟩⟩ := read_choice hc (by decide)
    (by decide) hcond hb hf
  · exact ⟨_, _, .branch ht hr (by simp [hu, hu']), hrem.up⟩
  · exact ⟨_, l', .branchElse ht hr hu' hb, hrem.up⟩

theorem readable_switch : ReadableStat (n + 1) (ref .switchStat) .stat := by
  intro l cs z hb hf
  obtain ⟨t, l, rfl, ht, hb⟩ := hb.rule.seq.drop
  obtain ⟨e, l₁, he, hb⟩ := hc.expr.one rfl hb
  obtain ⟨l₂, hk, hb⟩ := read_colon hb
  obtain ⟨v, l₂, rfl, hv, hb⟩ := hb.seq.token
  obtain ⟨c, l₃, hcond, hb⟩ := hc.expr.one rfl hb
  obtain ⟨conds, bodies, u, l₄, hr, hu, ⟨hu', hrem⟩ | ⟨hu', b, l', hb, hrem⟩⟩ := read_choice hc (by decide)
    (by decide) hcond hb hf
  · exact ⟨_, _, .switch ht he hk hv hr (by simp [hu, hu']), hrem.up⟩
  · exact ⟨_, l', .switchDefault ht he hk hv hr hu' hb, hrem.up⟩

theorem readable_while : ReadableStat (n + 1) (ref .whileStat) .stat := by
  intro l cs z hb hf
  obtain ⟨t, l, rfl, ht, hb⟩ := hb.rule.seq.drop
  obtain ⟨c, l₁, b, l', hcond, hb, hrem⟩ := read_clause hc hb hf
  exact ⟨_, l', .whileLoop ht hcond hb, hrem.up⟩

omit hc in
theorem readable_name : Readable n (ref .name) .name := by
  intro es l t hb
  obtain ⟨u, l', rfl, hu, hb⟩ := hb.rule.token
  exact ⟨_, l', .name hu, hb⟩

theorem readable_forloop : ReadableStat (n + 1) (ref .forloopStat) .stat := by
  intro l cs z hb hf
  obtain ⟨t, l, rfl, ht, hb⟩ := hb.rule.seq.drop
  obtain ⟨x, l₁, hx, hb⟩ := readable_name.one rfl hb
  obtain ⟨u, l₁, rfl, hu, hb⟩ := hb.token
  obtain ⟨s, l₂, hs, hb⟩ := hc.expr.one rfl hb
  obtain ⟨v, l₂, rfl, hv, hb⟩ := hb.token
  obtain ⟨e, l₃, he, hb⟩ := hc.expr.one rfl hb
  obtain ⟨ds, l₄, hd, hb⟩ := hc.expr.after.opt _ _ _ hb
  obtain ⟨b, l', hbody, hrem⟩ := read_body hc hb hf
  exact ⟨_, l', .forRange ht hx hu hs hv he hd hbody, hrem.up⟩

theorem readable_foreach : ReadableStat (n + 1) (ref .foreachStat) .stat := by
  intro l cs z hb hf
  obtain ⟨t, l, rfl, ht, hb⟩ := hb.rule.seq.drop
  obtain ⟨x, l₁, hx, hb⟩ := readable_name.one rfl hb
  obtain ⟨ys, l₂, hy, hb⟩ := readable_name.after.opt _ _ _ hb
  obtain ⟨u, l₂, rfl, hu, hb⟩ := hb.token
  obtain ⟨c, l₃, b, l', hcond, hb, hrem⟩ := read_clause hc hb hf
  exact ⟨_, l', .forEach ht hx hy hu hcond hb, hrem.up⟩

/-! ### Expressions and other statements -/

/-- A list of statements up to where no statement can begin. -/
theorem readable_stats (hb : Left n [ref .statList] l t) (ht : EndsStat t) :
    ∃ ss l', Reads .stats l ss l' ∧ Left n [] l' t := by
  have hl := hb.lt
  obtain ⟨w, hw, hk⟩ : Begins (many (ref .stat)) (kinds l) t := begins_seq_one.1 hb.rule.begins
  clear hb
  generalize hf : many (ref .stat) = f at hw
  induction hw generalizing l with
  | done => exact ⟨[], l, .done, hl, begins_seq_nil.2 hk⟩
  | @more _ u v hu _ _ ih =>
    cases hf
    rw [List.append_assoc] at hk
    -- the statements after the first one tell where it ends
    obtain ⟨l₀, l₁, rfl, -, hl₁⟩ := map_eq_append_iff.1 hk
    obtain ⟨ss, l', hss, hb'⟩ := ih (by rw [length_append] at hl; omega) hl₁ rfl
    have hends : EndsStat (v ++ t) := by
      rcases hss.stats_cases with rfl | ⟨a, l₁, rfl, ha⟩
      · have e : List.map (·.kind) l₁ = t := hb'.eq
        rwa [← hl₁, e]
      · exact ⟨a.kind, mem_append_left _ ha, by rw [← hl₁]; rfl⟩
    obtain ⟨s, l₂, hs, ds, hds, hb₂⟩ := hc.stat _ [] _ ⟨hl, begins_seq_one.2 ⟨u, hu, hk⟩⟩ ⟨by simp, hends⟩
    rw [suffix_nil.1 hds] at hb₂
    obtain ⟨ss, l'', hss, hb''⟩ := ih hb₂.lt hb₂.eq rfl
    exact ⟨_, l'', hss.stats_cons hs, hb''⟩
  | _ => cases hf

theorem read_braced (hb : Left n (ref .statList :: token .rbrace :: es) l t) :
    ∃ ss u l', Reads .stats l ss (u :: l') ∧ u.kind = .rbrace ∧ Left n es l' t := by
  obtain ⟨m, hstats, hrest⟩ := begins_seq_cons.1 hb.begins
  obtain ⟨m', rfl, hend⟩ := begins_token_seq.1 hrest
  obtain ⟨ss, l₁, hss, hb₁⟩ := readable_stats hc ⟨hb.lt, begins_seq_one.2 hstats⟩ ⟨.rbrace, by decide, rfl⟩
  obtain ⟨u, l', rfl, hu, rfl⟩ := map_eq_cons_iff.1 hb₁.eq
  exact ⟨ss, u, l', hss, hu, Nat.lt_of_succ_lt hb₁.lt, hend⟩

theorem readable_place : Readable (n + 1) (ref .lvalueExpr) .place := by
  intro es l t hb
  obtain ⟨x, l₁, hx, hb⟩ := readable_name.one rfl (hb.mono fun _ => derives_lvalue.1).seq
  obtain ⟨l', ⟨a, hr⟩, hb⟩ := hb.many (M := fun m => ∃ a, Reads .place l [a] m) ⟨_, .base hx⟩ (by
    rintro m t ⟨a, hm⟩ hb
    obtain ⟨e, he, hb⟩ := hb.alt
    simp only [mem_cons, not_mem_nil, or_false] at he
    rcases he with rfl | rfl
    · obtain ⟨u, m, rfl, hu, hb⟩ := hb.seq.drop
      obtain ⟨k, l₂, hk, hb⟩ := hc.expr.one rfl hb
      obtain ⟨v, l₂, rfl, hv, hb⟩ := hb.token
      exact ⟨l₂, ⟨_, .item hm hu hk hv⟩, hb.up⟩
    · obtain ⟨u, m, rfl, hu, hb⟩ := hb.seq.token
      obtain ⟨v, m, rfl, hv, hb⟩ := hb.rule.token
      exact ⟨m, ⟨_, .field hm hu hv⟩, hb⟩)
  exact ⟨_, l', hr, hb⟩

theorem readable_exprs : Readable n (ref .exprList) (.commas .expr) :=
  fun es l t hb => hc.expr.commas rfl es l t hb.rule

omit hc in
theorem readable_names : Readable n (ref .nameList) (.commas .name) :=
  fun es l t hb => readable_name.commas rfl es l t hb.rule

theorem readable_function : Readable (n + 1) (ref .funcDef) .function := by
  intro es l t hb
  obtain ⟨u, l, rfl, hu, hb⟩ := hb.rule.seq.drop
  have hparams : Readable n (ref .paramList) (.commas .name) := fun es l t hb => readable_names es l t hb.rule
  obtain ⟨ps, l₁, hps, hb⟩ := hparams.opt _ _ _ hb
  obtain ⟨v, l₁, rfl, hv, hb⟩ := hb.token
  obtain ⟨w, l₁, rfl, hw, hb⟩ := hb.token
  obtain ⟨ss, y, l', hss, hy, hb⟩ := read_braced hc hb
  exact ⟨_, l', .function hu hps hv hw hss hy, hb.up⟩

theorem readable_lambda : Readable (n + 1) (ref .funcDefExpr) .lambda :=
  fun es l t hb => (readable_function hc).after es l t hb.rule

theorem readable_call : Readable (n + 1) (ref .funcCall) .call := by
  intro es l t hb
  have hargs : ∀ {p f l₁}, (p = .place ∨ p = .lambda) → Reads p l [f] l₁ → Left (n + 1) (args ++ es) l₁ t →
      ∃ ns l', Reads .call l ns l' ∧ Left (n + 1) es l' t := by
    intro p f l₁ hp hf hb
    obtain ⟨u, l₁, rfl, hu, hb⟩ := hb.drop
    obtain ⟨as, l₂, ha, hb⟩ := (readable_exprs hc).opt _ _ _ hb
    obtain ⟨v, l₂, rfl, hv, hb⟩ := hb.token
    exact ⟨_, l₂, .call hp hf hu ha hv, hb.up⟩
  obtain ⟨e, he, hb⟩ := hb.rule.alt
  simp only [mem_cons, not_mem_nil, or_false] at he
  rcases he with rfl | rfl
  · obtain ⟨f, l₁, hf, hb⟩ := (readable_place hc).one rfl hb.seq
    exact hargs (.inl rfl) hf hb
  · obtain ⟨ns, l₁, hf, hb⟩ := readable_lambda hc _ _ _ hb.seq
    obtain ⟨f, rfl⟩ : ∃ f, ns = [f] := by
      cases hf with
      | after _ hf => exact hf.exists_eq rfl
    exact hargs (.inr rfl) hf hb

theorem read_entries
    (hb : Left n (entry ++ many (seq (token .comma :: entry)) :: es) l t) :
    ∃ l', (∃ ks vs, Reads (.entries ks) l vs l') ∧ Left n es l' t := by
  have one : ∀ {m es t}, Left n (entry ++ es) m t → ∃ k u m₁ v m',
      Reads .expr m [k] (u :: m₁) ∧ u.kind = .colon ∧ Reads .expr m₁ [v] m' ∧ Left n es m' t := by
    intro m es t hb
    obtain ⟨k, m₁, hk, hb⟩ := hc.expr.one rfl hb
    obtain ⟨u, m₁, rfl, hu, hb⟩ := hb.token
    obtain ⟨v, m', hv, hb⟩ := hc.expr.one rfl hb
    exact ⟨k, u, m₁, v, m', hk, hu, hv, hb⟩
  obtain ⟨k, u, m₁, v, m', hk, hu, hv, hb⟩ := one hb
  refine hb.many ⟨_, _, .entry hk hu hv⟩ ?_
  rintro m t ⟨ks, vs, hm⟩ hb
  obtain ⟨w, m, rfl, hw, hb⟩ := hb.seq.token
  obtain ⟨k, u, m₁, v, m', hk, hu, hv, hb⟩ := one hb
  exact ⟨m', ⟨_, _, .entries hm hw hk hu hv⟩, hb⟩

theorem readable_primary : Readable (n + 1) (ref .primaryExpr) .primary := by
  intro es l t hb
  obtain ⟨e, he, hb⟩ := hb.rule.alt
  simp only [mem_cons, not_mem_nil, or_false] at he
  rcases he with rfl | rfl | rfl | rfl | rfl | rfl | rfl | rfl | rfl | rfl | rfl | rfl | rfl
  case inr.inr.inr.inr.inr.inr.inl =>
    obtain ⟨u, l, rfl, hu, hb⟩ := hb.seq.drop
    obtain ⟨x, l₁, hx, hb⟩ := hc.expr.one rfl hb
    obtain ⟨v, l₁, rfl, hv, hb⟩ := hb.token
    exact ⟨_, l₁, .paren hu hx hv, hb.up⟩
  case inr.inr.inr.inr.inr.inr.inr.inl =>
    obtain ⟨u, l, rfl, hu, hb⟩ := hb.rule.seq.drop
    obtain ⟨xs, l₁, hx, hb⟩ := (readable_exprs hc).opt _ _ _ hb
    obtain ⟨v, l₁, rfl, hv, hb⟩ := hb.token
    exact ⟨_, l₁, .listOf hu hx hv, hb.up⟩
  case inr.inr.inr.inr.inr.inr.inr.inr.inl =>
    obtain ⟨u, l, rfl, hu, hb⟩ := hb.rule.seq.drop
    rcases hb.opt with hb | hb
    · obtain ⟨v, l₁, rfl, hv, hb⟩ := hb.token
      exact ⟨_, l₁, .mapNone hu hv, hb.up⟩
    · obtain ⟨l₁, ⟨ks, vs, he⟩, hb⟩ := read_entries hc hb.seq
      obtain ⟨v, l₁, rfl, hv, hb⟩ := hb.token
      exact ⟨_, l₁, .mapOf hu he hv, hb.up⟩
  case inr.inr.inr.inr.inr.inr.inr.inr.inr.inl =>
    obtain ⟨u, l, rfl, hu, hb⟩ := hb.rule.seq.drop
    obtain ⟨xs, l₁, hx, hb⟩ := hc.expr.commas rfl _ _ _ (hb.pack [_, _])
    obtain ⟨v, l₁, rfl, hv, hb⟩ := hb.token
    exact ⟨_, l₁, .setOf hu hx hv, hb.up⟩
  case inr.inr.inr.inr.inr.inr.inr.inr.inr.inr.inl =>
    obtain ⟨ns, l', hr, hb'⟩ := readable_lambda hc _ _ _ hb
    cases hr with
    | after hk hr =>
      obtain ⟨f, rfl⟩ := hr.exists_eq rfl
      exact ⟨_, l', .operand (.inr (.inl rfl)) (.after hk hr), hb'⟩
  case inr.inr.inr.inr.inr.inr.inr.inr.inr.inr.inr.inl =>
    obtain ⟨f, l', hr, hb⟩ := (readable_place hc).one rfl hb
    exact ⟨_, l', .operand (.inl rfl) hr, hb⟩
  case inr.inr.inr.inr.inr.inr.inr.inr.inr.inr.inr.inr =>
    obtain ⟨ns, l', hr, hb⟩ := readable_call hc _ _ _ hb.rule
    cases hr with
    | call hp hf hk ha hu => exact ⟨_, l', .operand (.inr (.inr rfl)) (.call hp hf hk ha hu), hb⟩
  all_goals
    obtain ⟨u, l', rfl, hu, hb⟩ := hb.token
  · exact ⟨_, l', .int hu, hb⟩
  · exact ⟨_, l', .float hu, hb⟩
  · exact ⟨_, l', .string hu, hb⟩
  · exact ⟨_, l', .bool (by simp [hu]), hb⟩
  · exact ⟨_, l', .bool (by simp [hu]), hb⟩
  · exact ⟨_, l', .null hu, hb⟩

theorem readable_unary : Readable (n + 1) (ref .unaryExpr) .unary := by
  intro es l t hb
  obtain ⟨e, he, hb⟩ := (hb.mono fun _ => derives_unary.1).alt
  simp only [mem_cons, not_mem_nil, or_false] at he
  rcases he with rfl | rfl
  · obtain ⟨u, l, rfl, hk, hb⟩ := hb.seq.rule.oneOf
    obtain ⟨x, l', hx, hb⟩ := hc.unary.one rfl hb
    exact ⟨_, l', .signed hk hx, hb.up⟩
  · have hchain : Readable _ _ (.chain [.pow] _) := (readable_primary hc).chain rfl
    obtain ⟨x, l', hr, hb⟩ := hchain.one rfl hb.rule
    exact ⟨_, l', .unsigned hr, hb⟩

theorem readable_tower {ls : List Level} (hls : (Piece.tower ls).isRule = true) :
    Readable (n + 1) (tower ls) (.tower ls) := by
  induction ls with
  | nil => exact readable_unary hc
  | cons l ls ih =>
    obtain ⟨ops, chained⟩ := l
    cases chained with
    | true =>
      have hr := (Bool.and_eq_true_iff.1 hls).1
      exact (ih hr).chain hr
    | false =>
      have hr := (Bool.and_eq_true_iff.1 hls).1
      exact (ih hr).once hr

theorem readable_expr : Readable (n + 1) (ref .expr) .expr := by
  intro es l t hb
  have hb := hb.rule.rule.seq.mono fun w => (derives_tower w).2
  obtain ⟨c, l₁, hr, hb⟩ := (readable_tower hc (by decide)).one (by decide) hb
  rcases hb.opt with hb | hb
  · exact ⟨_, l₁, .plain hr, hb⟩
  · obtain ⟨u, l₁, rfl, hu, hb⟩ := hb.seq.drop
    obtain ⟨y, l₂, hy, hb⟩ := hc.expr.one rfl hb
    obtain ⟨v, l₂, rfl, hv, hb⟩ := hb.token
    obtain ⟨x, l₃, hx, hb⟩ := hc.expr.one rfl hb
    exact ⟨_, l₃, .select hr hu hy hv hx, hb.up⟩

theorem readable_block : Readable (n + 1) (ref .blockStat) .stat := by
  intro es l t hb
  obtain ⟨u, l, rfl, hu, hb⟩ := hb.rule.seq.drop
  obtain ⟨ss, y, l', hss, hy, hb⟩ := read_braced hc hb
  exact ⟨_, l', .block hu hss hy, hb.up⟩

theorem readable_declare : Readable (n + 1) (ref .varDeclStat) .stat := by
  intro es l t hb
  obtain ⟨u, l, rfl, hu, hb⟩ := hb.rule.seq.oneOf
  obtain ⟨ns, l₁, hn, hb⟩ := readable_names _ _ _ hb
  obtain ⟨es, l', he, hb⟩ := (readable_exprs hc).after.opt _ _ _ hb
  exact ⟨_, l', .declare hu hn he, hb.up⟩

theorem readable_repeat : Readable (n + 1) (ref .repeatStat) .stat := by
  intro es l t hb
  obtain ⟨u, l, rfl, hu, hb⟩ := hb.rule.seq.drop
  obtain ⟨m, hbody, hrest⟩ := Begins.split [_, _] hb.begins
  obtain ⟨m', rfl, hend⟩ := begins_token_seq.1 hrest
  have hf : Follow [] (.kwUntil :: m') := ⟨by simp, .kwUntil, by decide, rfl⟩
  obtain ⟨b, l₁, hread, ds, hds, hb₁⟩ := read_body hc ⟨hb.lt, hbody⟩ hf
  rw [suffix_nil.1 hds] at hb₁
  obtain ⟨v, l₁, rfl, hv, rfl⟩ := map_eq_cons_iff.1 hb₁.eq
  obtain ⟨c, l', hcond, hb⟩ := hc.expr.one rfl ⟨Nat.lt_of_succ_lt hb₁.lt, hend⟩
  exact ⟨_, l', .repeatUntil hu hread hv hcond, hb.up⟩

theorem readable_funcDecl (hne : t ≠ []) (hb : Left (n + 1) [ref .funcDeclStat] l t) :
    ∃ x l', Reads .stat l [x] l' ∧ Left (n + 1) [] l' t := by
  obtain ⟨u, l, rfl, hu, hb⟩ := hb.rule.seq.token
  obtain ⟨x, l₁, hx, hb⟩ := readable_name.one rfl hb
  obtain ⟨f, l₂, hf, hb⟩ := (readable_function hc).one rfl hb
  cases l₂ with
  | nil => exact absurd hb.eq.symm hne
  | cons v l₂ => exact ⟨_, _, .funcStat hu hx hf, hb⟩

theorem readable_return : Readable (n + 1) (ref .returnStat) .stat := by
  intro es l t hb
  obtain ⟨u, l, rfl, hu, hb⟩ := hb.rule.seq.drop
  obtain ⟨e, he, hb⟩ := hb.alt
  simp only [mem_cons, not_mem_nil, or_false] at he
  rcases he with rfl | rfl
  · obtain ⟨x, l', hr, hb⟩ := hc.expr.one rfl hb
    exact ⟨_, l', .returnValue hu hr, hb.up⟩
  · obtain ⟨v, l', rfl, hv, hb⟩ := hb.token
    exact ⟨_, l', .returnNone hu hv, hb.up⟩

theorem readable_assign : Readable (n + 1) (ref .assignStat) .stat := by
  intro es l t hb
  obtain ⟨as, l₁, ha, hb⟩ := (readable_place hc).commas rfl _ _ _ (hb.rule.seq.pack [_, _])
  obtain ⟨u, l₁, rfl, hu, hb⟩ := hb.drop
  obtain ⟨es, l', he, hb⟩ := readable_exprs hc _ _ _ hb
  exact ⟨_, l', .assign ha hu he, hb.up⟩

theorem readable_update : Readable (n + 1) (ref .compoundassignStat) .stat := by
  intro es l t hb
  obtain ⟨a, l₁, ha, hb⟩ := (readable_place hc).one rfl hb.rule.seq
  obtain ⟨u, l₁, rfl, hk, hb⟩ := hb.rule.oneOf
  obtain ⟨x, l', hx, hb⟩ := hc.expr.one rfl hb
  exact ⟨_, l', .update ha hk hx, hb.up⟩

omit hc in
theorem Readable.stat (h : Readable n e .stat) : ReadableStat n e .stat := by
  intro l cs z hb hf
  obtain ⟨x, l', hr, hb⟩ := h.one rfl hb
  exact ⟨x, l', hr, cs, suffix_rfl, hb⟩

theorem readable_stat : ReadableStat (n + 1) (ref .stat) .stat := by
  intro l cs z hb hf
  obtain ⟨e, he, hb⟩ := hb.rule.alt
  have word : ∀ {k : TokenKind} {x : Nonterminal}, rule x = token k →
      (∀ (u : Token) l', u.kind = k → ∃ s, Reads .stat (u :: l') [s] l') → Readable (n + 1) (ref x) .stat := by
    intro k x hx hf es l t hb
    have hb := hb.rule
    rw [hx] at hb
    obtain ⟨u, l', rfl, hu, hb⟩ := hb.token
    obtain ⟨s, hs⟩ := hf u l' hu
    exact ⟨_, l', hs, hb⟩
  simp only [mem_cons, not_mem_nil, or_false] at he
  rcases he with rfl | rfl | rfl | rfl | rfl | rfl | rfl | rfl | rfl | rfl | rfl | rfl | rfl | rfl | rfl | rfl
  · exact (word rfl fun u l' hu => ⟨_, .empty hu⟩).stat l cs z hb hf
  · exact (readable_block hc).stat l cs z hb hf
  · exact (readable_declare hc).stat l cs z hb hf
  · exact readable_if hc l cs z hb hf
  · exact readable_switch hc l cs z hb hf
  · exact (readable_repeat hc).stat l cs z hb hf
  · exact readable_while hc l cs z hb hf
  · exact readable_forloop hc l cs z hb hf
  · exact readable_foreach hc l cs z hb hf
  · exact (word rfl fun u l' hu => ⟨_, .breakLoop hu⟩).stat l cs z hb hf
  · exact (word rfl fun u l' hu => ⟨_, .continueLoop hu⟩).stat l cs z hb hf
  · obtain ⟨k, -, hk⟩ := hf.ends
    have hne : cs.flatten ++ z ≠ [] := fun h => by simp [(append_eq_nil_iff.1 h).2] at hk
    obtain ⟨x, l', hr, hb⟩ := readable_funcDecl hc hne hb
    exact ⟨x, l', hr, cs, suffix_rfl, hb⟩
  · exact (readable_return hc).stat l cs z hb hf
  · exact (readable_assign hc).stat l cs z hb hf
  · exact (readable_update hc).stat l cs z hb hf
  · obtain ⟨ns, l', hr, hb⟩ := readable_call hc _ _ _ hb.rule
    cases hr with
    | call hp hf hk ha hu => exact ⟨_, l', .callStat (.call hp hf hk ha hu), cs, suffix_rfl, hb⟩

end Rules

theorem complete (n : Nat) : Complete n := by
  induction n with
  | zero => exact ⟨fun _ _ _ h => absurd h.lt (Nat.not_lt_zero _),
      fun _ _ _ h => absurd h.lt (Nat.not_lt_zero _), fun _ _ _ h => absurd h.lt (Nat.not_lt_zero _)⟩
  | succ n ih => exact ⟨readable_expr ih, readable_unary ih, readable_stat ih⟩

/-! ### Whole programs -/

theorem derives_of_reads {ss : List Node} (hk : s.kinds = ks ++ [.eof]) (hu : u.kind = .eof)
    (h : Reads .stats (s.current :: s.rest) ss [u]) : Derives (ref .program) ks := by
  obtain ⟨w, hw, hkw⟩ := begins_of_reads h
  have hkw : s.kinds = w ++ [.eof] := hu ▸ hkw
  exact .ref (.ref (append_cancel_right (hk.symm.trans hkw) ▸ hw))

theorem exists_whole (hk : s.kinds = ks ++ [.eof]) (hd : Derives (ref .program) ks) :
    ∃ tree s', Parse.run whole s = .ok tree s' := by
  have hb : Begins (ref .statList) (kinds (s.current :: s.rest)) [.eof] := ⟨ks, derives_ref.1 hd, hk⟩
  obtain ⟨ss, l', hss, hb'⟩ := readable_stats (complete _) ⟨Nat.lt_succ_self _, begins_seq_one.2 hb⟩
    ⟨.eof, by decide, rfl⟩
  obtain ⟨t, l', rfl, ht, -⟩ := map_eq_cons_iff.1 hb'.eq
  exact ⟨_, _, whole_of_reads hss ht⟩

end Grammar

/-! ### The grammar of whole programs -/

theorem exists_feed {ts : List Token} {last : Token} (hts : ∀ t ∈ ts, t.kind ≠ .eof)
    (hlast : last.kind = .eof) : ∃ s, Feed.ofTokens (ts ++ [last]) none = .ok s ∧
      s.Closed ∧ s.kinds = ts.map (·.kind) ++ [.eof] := by
  have hne : .eof ∉ ts.map (·.kind) := by
    intro h
    obtain ⟨t, ht, hk⟩ := mem_map.1 h
    exact hts t ht hk
  have hk : (ts ++ [last]).map (·.kind) = ts.map (·.kind) ++ [.eof] := by simp [hlast]
  cases htl : ts ++ [last] with
  | nil => simp at htl
  | cons t tl =>
    rw [htl] at hk
    exact ⟨⟨t, tl, none⟩, rfl, ⟨rfl, _, hk, hne⟩, hk⟩

/-- Tokens before an end token are a program exactly if the grammar derives them, and otherwise the
parser reports an issue. -/
theorem whole_ok_iff_derives (ts : List Token) (last : Token) (hts : ∀ t ∈ ts, t.kind ≠ .eof)
    (hlast : last.kind = .eof) : ∃ s, Feed.ofTokens (ts ++ [last]) none = .ok s ∧
      ((∃ tree s', Parse.run Grammar.whole s = .ok tree s') ↔
        Derives (ref .program) (ts.map (·.kind))) ∧
      (¬ Derives (ref .program) (ts.map (·.kind)) → ∃ r s',
        Parse.run Grammar.whole s = .error (.failed (.report r)) s' ∧ r.stage = .parser) := by
  obtain ⟨s, hof, hs, hk⟩ := exists_feed hts hlast
  refine ⟨s, hof, ⟨?_, Grammar.exists_whole hk⟩, fun hd => ?_⟩
  · rintro ⟨tree, s', h⟩
    rcases whole_cases hs with ⟨ss, u, -, hu, hr⟩ | ⟨r, s'', h', -⟩
    · exact Grammar.derives_of_reads hk hu hr
    · cases h.symm.trans h'
  · rcases whole_cases hs with ⟨ss, u, -, hu, hr⟩ | h
    · exact absurd (Grammar.derives_of_reads hk hu hr) hd
    · exact h

/-- `if a if b ; else ;`, where the `else` may belong to either `if`. -/
def danglingElse : List Token :=
  [⟨.kwIf, some "if", ⟨1, 1⟩⟩, ⟨.identifier, some "a", ⟨1, 4⟩⟩, ⟨.kwIf, some "if", ⟨1, 6⟩⟩,
    ⟨.identifier, some "b", ⟨1, 9⟩⟩, ⟨.semi, some ";", ⟨1, 11⟩⟩, ⟨.kwElse, some "else", ⟨1, 13⟩⟩,
    ⟨.semi, some ";", ⟨1, 18⟩⟩]

def endToken : Token := ⟨.eof, none, ⟨1, 19⟩⟩

theorem whole_ok_iff_derives_danglingElse :
    (∀ t ∈ danglingElse, t.kind ≠ .eof) ∧ endToken.kind = .eof ∧
      ∃ s, Feed.ofTokens (danglingElse ++ [endToken]) none = .ok s ∧
        ((∃ tree s', Parse.run Grammar.whole s = .ok tree s') ↔
          Derives (ref .program) (danglingElse.map (·.kind))) ∧
        (¬ Derives (ref .program) (danglingElse.map (·.kind)) → ∃ r s',
          Parse.run Grammar.whole s = .error (.failed (.report r)) s' ∧ r.stage = .parser) :=
  ⟨by decide, rfl, whole_ok_iff_derives danglingElse endToken (by decide) rfl⟩

end TinyScript
