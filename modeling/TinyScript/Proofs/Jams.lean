import TinyScript.Proofs.Rereading

/-!
# What is read of a written statement

What is read as a statement, where one has been written, is the statement up to semicolons, or the reading
stops where no list of statements can go on (`Formed.leaves`): before a token that goes on with no
statement, or before semicolons and then an `elif` or `else`. The latter is what happens in the tight style
to a clause after a body that is no block. So a program can be read from its text only if each expression
is a spelling of one, and, in the tight style, if no clause comes after such a body (`FormedProgram.fits`).
-/

namespace TinyScript

open Lexeme Precedence List TokenKind

variable {o : Bool} {z : List Token} {y : Node}

def semis (k : Nat) : List Token := List.replicate k (of .semi).token

/-- Tokens before which a reading may stop in a statement, and with which no statement begins. -/
def TokenKind.halts : List TokenKind := .comma :: .assign :: TokenKind.jams

/-- No statement can be read here, or only empty ones up to a token where none can. -/
def Jammed (m : List Token) : Prop :=
  StartsIn TokenKind.halts m ∨ ∃ k z, m = semis (k + 1) ++ z ∧ StartsIn [.kwElif, .kwElse] z

namespace Node

/-- What is written for the expression spells one. -/
def Readable (e : Node) : Prop := ∃ e', Written choice e' e.wording

/-- What is written for the statement can be read. -/
structure Fits (t : Bool) (x : Node) : Prop where
  readable : ∀ e ∈ x.exprs, e.Readable
  roomy : t = true → x.roomy = true

/-- The statement has been read up to `m`, and there are semicolons left up to `z`. -/
structure Ends (t : Bool) (x : Node) (m z : List Token) : Prop where
  fits : x.Fits t
  semis : ∃ k, m = semis k ++ z ∧ (t = false ∨ x.isBlock = true → k = 0)

/-- A body has been read; in the tight style there are semicolons left, unless it is a block. -/
structure BodyEnds (t : Bool) (x : Node) (m z : List Token) : Prop where
  fits : x.Fits t
  semis : ∃ k, m = semis k ++ z ∧ (t = false ∨ x.isBlock = true ↔ k = 0)

end Node

/-! ### What is read after the first token of a statement -/

/-- What is read after the first body of a branch. -/
inductive Branching : List Token → List Token → Prop
  | stop {m} (h : Stops [.kwElif, .kwElse] m) : Branching m m
  | elif {t l c l₁ b l₂ m} (ht : t.kind = .kwElif) (hc : Reads .expr l [c] l₁) (hb : Reads .body l₁ [b] l₂)
      (h : Branching l₂ m) : Branching (t :: l) m
  | els {t l b m} (ht : t.kind = .kwElse) (hb : Reads .body l [b] m) : Branching (t :: l) m

theorem Branching.eq {l m : List Token} (h : Branching l m) (hl : Stops [.kwElif, .kwElse] l) : m = l := by
  cases h with
  | stop => rfl
  | elif ht | els ht => exact absurd (by decide) (hl.kind_ne ht)

/-- From the token `t` and the tokens `l` after it a statement is read, with `m` left. -/
def Onward (t : Token) (l m : List Token) : Prop :=
  match t.kind with
  | .semi | .kwBreak | .kwContinue => m = l
  | .lbrace => ∃ ss u, Reads .stats l ss (u :: m) ∧ u.kind = .rbrace
  | .kwVar | .kwConst => ∃ ns l₁ es, Reads (.commas .name) l ns l₁ ∧
      Reads (.opt (.after .assign (.commas .expr))) l₁ es m
  | .kwIf => ∃ c l₁ b l₂, Reads .expr l [c] l₁ ∧ Reads .body l₁ [b] l₂ ∧ Branching l₂ m
  | .kwWhile => ∃ c l₁ b, Reads .expr l [c] l₁ ∧ Reads .body l₁ [b] m
  | .kwFor => ∃ x l₁, Reads .name l [x] l₁ ∧ (StartsIn [.comma, .kwIn] l₁ ∨
      ∃ u l₂ s v l₃ e l₄ ds l₅ b, l₁ = u :: l₂ ∧ Reads .expr l₂ [s] (v :: l₃) ∧ v.kind = .comma ∧
        Reads .expr l₃ [e] l₄ ∧ Reads (.opt (.after .comma .expr)) l₄ ds l₅ ∧ Reads .body l₅ [b] m)
  | .identifier =>
    (∃ as u l₁ es, Reads (.commas .place) (t :: l) as (u :: l₁) ∧ u.kind = .assign ∧
      Reads (.commas .expr) l₁ es m) ∨
    ∃ a u l₁, Reads .place (t :: l) [a] (u :: l₁) ∧
      (u.kind ∈ TokenKind.updates ∧ (∃ e, Reads .expr l₁ [e] m) ∨
        u.kind = .lparen ∧ ∃ as v, Reads (.opt (.commas .expr)) l₁ as (v :: m) ∧ v.kind = .rparen)
  | _ => True

namespace Reads

variable {l m z : List Token} {t : Token} {word : TokenKind} {cs bs ss : List Node} {s a : Node}

theorem stats_uncons (h : Reads .stats l ss m) :
    l = m ∨ ∃ s l₁ ss', Reads .stat l [s] l₁ ∧ Reads .stats l₁ ss' m := by
  generalize hq : Piece.stats = q at h
  induction h with
  | done => exact .inl rfl
  | line _ hs ih =>
    rcases ih rfl with rfl | ⟨s, l₁, ss', h₁, h₂⟩
    · exact .inr ⟨_, _, [], hs, .done⟩
    · exact .inr ⟨s, l₁, _, h₁, .line h₂ hs⟩
  | _ => cases hq

theorem clauses_uncons (h : Reads (.clauses .kwElif cs) l bs z) (hm : Branching z m) :
    ∃ c l₁ b l₂, Reads .expr l [c] l₁ ∧ Reads .body l₁ [b] l₂ ∧ Branching l₂ m := by
  generalize hq : Piece.clauses .kwElif cs = q at h
  induction h generalizing cs with
  | clause hc hb => exact ⟨_, _, _, _, hc, hb, hm⟩
  | clauses _ ht hc hb ih =>
    cases hq
    exact ih (.elif ht hc hb hm) rfl
  | _ => cases hq

theorem place_eq (h : Reads .place (t :: z) [a] m) (hz : Stops [.lbrack, .dot] z) : m = z := by
  generalize hq : Piece.place = q, hl : t :: z = l, hns : [a] = ns at h
  induction h generalizing a with
  | base h =>
    cases h
    exact (List.cons.inj hl).2.symm
  | item _ ht _ _ ih | field _ ht _ ih =>
    obtain rfl := ih hq hl rfl
    exact absurd (by decide) (hz.kind_ne ht)
  | _ => cases hq

theorem places_eq {as : List Node} (h : Reads (.commas .place) (t :: z) as m)
    (hz : Stops [.comma, .lbrack, .dot] z) : m = z := by
  generalize hq : Piece.commas .place = q, hl : t :: z = l at h
  induction h with
  | one h =>
    cases hq
    subst hl
    exact h.place_eq (hz.mono (by decide))
  | more _ ht _ ih =>
    obtain rfl := ih hq hl
    exact absurd (by decide) (hz.kind_ne ht)
  | _ => cases hq

theorem onward (h : Reads .stat (t :: l) [s] m) : Onward t l m := by
  unfold Onward
  cases h with
  | empty ht | breakLoop ht | continueLoop ht => rw [ht]
  | block ht hs hu =>
    rw [ht]
    exact ⟨_, _, hs, hu⟩
  | declare ht hn hi =>
    simp only [mem_cons, not_mem_nil, or_false] at ht
    rcases ht with ht | ht
    all_goals
      rw [ht]
      exact ⟨_, _, _, hn, hi⟩
  | branch ht hc hu =>
    rw [ht]
    exact hc.clauses_uncons (.stop (.cons hu))
  | branchElse ht hc hu hb =>
    rw [ht]
    exact hc.clauses_uncons (.els hu hb)
  | whileLoop ht hc hb =>
    rw [ht]
    exact ⟨_, _, _, hc, hb⟩
  | forRange ht hx hu hs hv he hd hb =>
    rw [ht]
    exact ⟨_, _, hx, .inr ⟨_, _, _, _, _, _, _, _, _, _, rfl, hs, hv, he, hd, hb⟩⟩
  | forEach ht hx hy hu he hb =>
    rw [ht]
    refine ⟨_, _, hx, .inl ?_⟩
    cases hy with
    | absent => exact .of_kind hu (by decide)
    | present hy =>
      cases hy with
      | after ht => exact .of_kind ht (by decide)
  | switch ht | switchDefault ht | repeatUntil ht | funcStat ht | returnNone ht | returnValue ht => rw [ht]; trivial
  | assign ha ht he =>
    rw [mem_singleton.1 (ha.startsIn rfl).kind]
    exact .inl ⟨_, _, _, _, ha, ht, he⟩
  | update ha ht he =>
    rw [mem_singleton.1 (ha.startsIn rfl).kind]
    exact .inr ⟨_, _, _, ha, .inl ⟨ht, _, he⟩⟩
  | callStat h =>
    cases h with
    | call hp hf ht ha hu =>
      rcases hp with rfl | rfl
      · rw [mem_singleton.1 (hf.startsIn rfl).kind]
        exact .inr ⟨_, _, _, hf, .inr ⟨ht, _, _, ha, hu⟩⟩
      · rw [mem_singleton.1 (hf.startsIn rfl).kind]
        trivial

end Reads

/-! ### Jams -/

section Jams

variable {m z : List Token} {t : Token} {s : Node} {ss : List Node} {k : Nat}
variable {ks : List TokenKind}

theorem stops_semis (hks : .semi ∉ ks) (hz : Stops ks z) (k : Nat) : Stops ks (semis k ++ z) := by
  cases k with
  | zero => exact hz
  | succ k => exact .cons hks

theorem Jammed.stops (h : Jammed m) (hks : .semi ∉ ks) (hno : ∀ k ∈ TokenKind.halts, k ∉ ks) :
    Stops ks m := by
  rcases h with h | ⟨k, z, rfl, -⟩
  · exact h.stops hno
  · exact .cons hks

theorem stat_semi (h : Reads .stat ((of .semi).token :: z) [s] m) : m = z := h.onward

/-- Semicolons in a list are passed over. -/
theorem stats_semis (h : Reads .stats (semis k ++ z) ss m) (hm : StartsIn [.rbrace, .eof] m) :
    ∃ ss', Reads .stats z ss' m := by
  induction k generalizing ss with
  | zero => exact ⟨ss, h⟩
  | succ k ih =>
    rcases h.stats_uncons with rfl | ⟨s, l₁, ss', hs, h⟩
    · exact absurd hm.kind (by decide)
    · obtain rfl := stat_semi hs
      exact ih h

theorem Jammed.not_stats (h : Jammed z) (hm : StartsIn [.rbrace, .eof] m) : ¬ Reads .stats z ss m := by
  have hstray {z ss} (hz : StartsIn (.kwElif :: .kwElse :: TokenKind.halts) z) : ¬ Reads .stats z ss m := by
    intro h
    rcases h.stats_cases with rfl | h
    · exact hm.clash hz (by decide)
    · exact h.clash hz (by decide)
  rcases h with h | ⟨k, z, rfl, hz⟩
  · exact hstray (h.mono fun _ hk => mem_cons_of_mem _ (mem_cons_of_mem _ hk))
  · intro h
    obtain ⟨ss', h⟩ := stats_semis h hm
    exact hstray (hz.mono (subset_append_left _ TokenKind.halts)) h

end Jams

/-- The next token does not go on with a statement before it. -/
def FollowsStat (o : Bool) (z : List Token) : Prop := ∃ u z', z = u :: z' ∧ CanFollow o u.kind

theorem FollowsStat.of_startsIn (h : StartsIn (.rbrace :: .eof :: openers) z) :
    FollowsStat o z := by
  obtain ⟨u, z, rfl, hu⟩ := h
  exact ⟨u, z, rfl, .of_mem hu⟩

theorem FollowsStat.stops (h : FollowsStat o z) : Stops (.comma :: .assign :: continuing choice) z := by
  obtain ⟨u, z, rfl, hu⟩ := h
  exact .cons hu.ends

/-- What is read as a statement is `x` up to semicolons, or the reading is jammed. -/
def Node.Leaves (t : Bool) (x : Node) : Prop := ∀ s z m, FollowsStat (!x.shut) z →
  TinyScript.Reads .stat ((x.tokens t).map token ++ z) [s] m → x.Ends t m z ∨ Jammed m

section Lists

open Node hiding Reads

variable {t : Bool} {e y : Node} {es ns stats : List Node} {m z : List Token}

/-! ### Lists -/

theorem reads_expr (h : Reads .expr (e.wording.map token ++ z) [y] m) (he : Phrase e.wording)
    (hz : Stops (continuing choice) z) : m = z ∧ e.Readable ∨ StartsIn jams m :=
  (h.phrase rfl he hz).imp_left fun h => ⟨h.1, y, h.2⟩

theorem reads_exprs (h : Reads (.commas .expr) ((commas (es.map wording)).map token ++ z) ns m)
    (hne : es ≠ []) (he : ∀ e ∈ es, Phrase e.wording) (hz : Stops (.comma :: continuing choice) z) :
    (m = z ∧ ∀ e ∈ es, e.Readable) ∨ StartsIn (.comma :: jams) m := by
  refine (h.phrases rfl (by simpa using hne) (forall_mem_map.2 he) hz).imp_left fun h => ⟨h.1, ?_⟩
  exact fun e he => h.2 _ (mem_map_of_mem he)

theorem closing_token (t : Bool) : (closing t).map token = semis t.toNat := by
  cases t <;> rfl

theorem semis_append (k j : Nat) (z : List Token) : semis k ++ (semis j ++ z) = semis (k + j) ++ z := by
  rw [← List.append_assoc, semis, semis, semis, ← replicate_add]

/-- After semicolons come more of them, another statement or the end. -/
theorem startsIn_lines (hh : ∀ x ∈ stats, ∃ l v, x.tokens t = l :: v ∧ l.kind ∈ openers)
    (hz : StartsIn [.rbrace, .eof] z) (k : Nat) : StartsIn (.rbrace :: .eof :: openers)
      (semis k ++ ((lines t stats).map token ++ z)) := by
  cases k with
  | succ k => exact ⟨_, _, rfl, by decide⟩
  | zero =>
    cases stats with
    | nil => exact hz.mono (subset_append_left _ openers)
    | cons x stats =>
      obtain ⟨l, v, hv, hl⟩ := hh x mem_cons_self
      rw [lines, hv]
      exact ⟨_, _, rfl, mem_cons_of_mem _ (mem_cons_of_mem _ hl)⟩

theorem reads_lines (h : ∀ x ∈ stats, x.Leaves t)
    (hh : ∀ x ∈ stats, ∃ l v, x.tokens t = l :: v ∧ l.kind ∈ openers)
    (hz : StartsIn [.rbrace, .eof] z) (hm : StartsIn [.rbrace, .eof] m)
    (hr : Reads .stats ((lines t stats).map token ++ z) ns m) : m = z ∧ ∀ x ∈ stats, x.Fits t := by
  induction stats generalizing ns with
  | nil =>
    rcases hr.stats_cases with rfl | hr
    · exact ⟨rfl, by simp⟩
    · exact hr.clash hz (by decide)
  | cons x stats ih =>
    rw [forall_mem_cons] at h hh
    rw [lines, List.append_assoc, map_append, map_append, closing_token, List.append_assoc,
      List.append_assoc] at hr
    rcases hr.stats_uncons with rfl | ⟨s, l₁, ns', hs, hr⟩
    · obtain ⟨l, w, hw, hl⟩ := hh.1
      rw [hw] at hm
      exact hm.clash ⟨_, _, rfl, hl⟩ (by decide)
    · rcases h.1 s _ l₁ (.of_startsIn (startsIn_lines hh.2 hz t.toNat)) hs with ⟨hfits, k, rfl, -⟩ | hjam
      · rw [semis_append] at hr
        obtain ⟨ns', hr⟩ := stats_semis hr hm
        obtain ⟨rfl, hall⟩ := ih h.2 hh.2 hr
        exact ⟨rfl, forall_mem_cons.2 ⟨hfits, hall⟩⟩
      · exact absurd hr (hjam.not_stats hm)

end Lists

/-! ### Bodies and clauses -/

section Bodies

open Node hiding Reads

variable {t : Bool} {b c s : Node} {m z : List Token}

theorem startsIn_body (t : Bool) (b : Node) (z : List Token) :
    StartsIn [.colon, .lbrace] ((bodyTokens t b (b.tokens t)).map token ++ z) := by
  rw [bodyTokens]
  split
  · cases b with
    | block => exact ⟨_, _, rfl, by decide⟩
    | _ => contradiction
  · exact ⟨_, _, rfl, by decide⟩

theorem reads_body (hb : b.Leaves t) (hz : FollowsStat (!b.shut) z)
    (h : Reads .body ((bodyTokens t b (b.tokens t)).map token ++ z) [s] m) :
    b.BodyEnds t m z ∨ Jammed m := by
  cases h with
  | body hk hs =>
    cases hblock : b.isBlock with
    | true =>
      rw [bodyTokens, if_pos hblock] at hk
      rcases hk.opt_cases with ⟨-, rfl⟩ | hk
      · refine (hb s z m hz hs).imp_left ?_
        rintro ⟨hfits, k, hm, hzero⟩
        exact ⟨hfits, k, hm, hzero, fun _ => .inr hblock⟩
      · cases b with
        | block =>
          exact absurd (hk.startsIn rfl).kind (by decide)
        | _ => cases hblock
    | false =>
      rw [bodyTokens, if_neg (by simp [hblock])] at hk
      rcases hk.opt_cases with ⟨-, rfl⟩ | hk
      · exact absurd (hs.startsIn rfl).kind (by decide)
      · cases hk with
        | token =>
          have hs : Reads .stat ((b.tokens t).map token ++ (semis t.toNat ++ z)) [s] m := by
            simpa [closing_token] using hs
          have hnext : FollowsStat (!b.shut) (semis t.toNat ++ z) := by
            cases t with
            | true => exact ⟨_, _, rfl, .of_mem (by decide)⟩
            | false => exact hz
          refine (hb s _ m hnext hs).imp_left ?_
          rintro ⟨hfits, k, rfl, hzero⟩
          refine ⟨hfits, k + t.toNat, semis_append .., ?_⟩
          cases t with
          | true => simp [hblock]
          | false => simp [hzero (.inl rfl)]

theorem reads_clause {l l' : List Token} (hc : Phrase c.wording) (hb : b.Leaves t)
    (hz : FollowsStat (!b.shut) z) (h : Reads .expr l [y] l') (h' : Reads .body l' [s] m)
    (hl : l = c.wording.map token ++ ((bodyTokens t b (b.tokens t)).map token ++ z)) :
    (c.Readable ∧ b.BodyEnds t m z) ∨ Jammed m := by
  subst hl
  rcases reads_expr h hc ((startsIn_body t b _).stops (by decide)) with ⟨rfl, hread⟩ | hjam
  · exact (reads_body hb hz h').imp_left fun h => ⟨hread, h⟩
  · exact hjam.clash (h'.startsIn rfl) (by decide)

end Bodies

/-! ### Branches -/

namespace Node

/-- The tokens of the clauses after the first. -/
def laterTokens (t : Bool) (cs : List (Node × Node)) : List Lexeme :=
  later (fun c b => of .kwElif :: (c.wording ++ b)) (fun _ b => of .kwElse :: b)
    (cs.map fun d => (d.1, bodyTokens t d.2 (d.2.tokens t)))

/-- What is written from the clause `c` on can be read. -/
structure FitsFrom (t : Bool) (c : Node × Node) (cs : List (Node × Node)) : Prop where
  cond : c.1.Readable
  body : ∀ e ∈ c.2.exprs, e.Readable
  readable : ∀ e ∈ later (fun c es => c :: es) (fun _ es => es) (cs.map fun d => (d.1, d.2.exprs)), e.Readable
  roomy : t = true → ∀ d ∈ c :: written cs, d.2.roomy = true
  block : t = true → ∀ d ∈ (c :: written cs).dropLast, d.2.isBlock = true

/-- The branch has been read up to semicolons. -/
def BranchEnds (t : Bool) (c : Node × Node) (cs : List (Node × Node)) (m z : List Token) : Prop :=
  FitsFrom t c cs ∧ ∃ k, m = semis k ++ z ∧ (t = false → k = 0)

end Node

section Later

open Node hiding Reads

variable {t : Bool} {c : Node × Node} {cs : List (Node × Node)} {l m z : List Token}

theorem Jammed.branching (h : Jammed l) (hb : Branching l m) : Jammed m :=
  hb.eq (h.stops (by decide) (by decide)) ▸ h

/-- None of the clauses are written. -/
structure Unwritten (t : Bool) (cs : List (Node × Node)) : Prop where
  tokens : laterTokens t cs = []
  written : written cs = []
  exprs : later (fun c es => c :: es) (fun _ es => es) (cs.map fun d => (d.1, d.2.exprs)) = []
  last : (cs.getLast?.any fun d => d.1.isTrue && d.2.shut) = false

/-- What comes after a body is a later clause, or the end of the branch. -/
theorem later_cases (t : Bool) (cs : List (Node × Node)) : Unwritten t cs ∨
    (∃ d, cs = [d] ∧ d.1.isTrue = true) ∨ ∃ d d' ds, cs = d :: d' :: ds := by
  cases cs with
  | nil => exact .inl ⟨rfl, rfl, rfl, rfl⟩
  | cons d cs =>
    cases cs with
    | cons d' ds => exact .inr (.inr ⟨d, d', ds, rfl⟩)
    | nil =>
      by_cases htrue : d.1.isTrue = true
      · exact .inr (.inl ⟨d, rfl, htrue⟩)
      · exact .inl (by constructor <;> simp [laterTokens, later, Node.written, htrue])

theorem laterTokens_else {d : Node × Node} (h : d.1.isTrue = true) :
    laterTokens t [d] = of .kwElse :: bodyTokens t d.2 (d.2.tokens t) := by
  simp [laterTokens, later, h]

theorem laterTokens_elif (d d' : Node × Node) (ds : List (Node × Node)) : laterTokens t (d :: d' :: ds) =
    of .kwElif :: (d.1.wording ++ bodyTokens t d.2 (d.2.tokens t) ++ laterTokens t (d' :: ds)) := rfl

/-- A clause does not go on with a shut body before it. -/
theorem FollowsStat.later {b : Bool} (hz : FollowsStat (!cs.getLast?.any fun d => d.1.isTrue && d.2.shut) z)
    (hb : cs ≠ [] → b = true) : FollowsStat (!b) ((laterTokens t cs).map token ++ z) := by
  have hclause {k : TokenKind} (hk : k ∈ [.kwElif, .kwElse]) (hne : cs ≠ []) : CanFollow (!b) k := by
    have hends : ∀ k ∈ [.kwElif, .kwElse], k ∉ .comma :: .assign :: continuing choice := by decide
    exact ⟨hends k hk, fun _ => by rw [hb hne, Bool.not_true]⟩
  rcases later_cases t cs with hnone | ⟨d, rfl, htrue⟩ | ⟨d, d', ds, rfl⟩
  · rw [hnone.tokens]
    rw [hnone.last] at hz
    obtain ⟨u, z, rfl, hu⟩ := hz
    exact ⟨u, z, rfl, hu.ends, fun hm => by simpa using hu.clause hm⟩
  · rw [laterTokens_else htrue]
    exact ⟨_, _, rfl, hclause (by decide) (by simp)⟩
  · exact ⟨(of .kwElif).token, _, rfl, hclause (by decide) (by simp)⟩

theorem Unwritten.ends (h : Unwritten t cs) (hz : FollowsStat true z) (hread : c.1.Readable)
    (hb : Branching l m) (hend : c.2.BodyEnds t l z) : BranchEnds t c cs m z := by
  obtain ⟨hfits, k, rfl, hzero⟩ := hend
  obtain ⟨u, z, rfl, hu⟩ := hz
  have hstop : Stops [.kwElif, .kwElse] (u :: z) := .cons fun hm => by simpa using hu.clause hm
  obtain rfl := hb.eq (stops_semis (by decide) hstop k)
  refine ⟨⟨hread, hfits.readable, ?_, ?_, ?_⟩, k, rfl, fun ht => hzero.1 (.inl ht)⟩
  · rw [h.exprs]
    simp
  · simpa [h.written] using hfits.roomy
  · simp [h.written]

theorem reads_later (hp : ∀ d ∈ cs.dropLast, Phrase d.1.wording) (hleaves : ∀ d ∈ written cs, d.2.Leaves t)
    (hshut : ∀ d ∈ (c :: cs).dropLast, d.2.shut = true)
    (hz : FollowsStat (!cs.getLast?.any fun d => d.1.isTrue && d.2.shut) z)
    (hclause : (c.1.Readable ∧ c.2.BodyEnds t l ((laterTokens t cs).map token ++ z)) ∨ Jammed l)
    (hb : Branching l m) : BranchEnds t c cs m z ∨ Jammed m := by
  rcases hclause with ⟨hread, hfits, k, rfl, hzero⟩ | hjam
  swap
  · exact .inr (hjam.branching hb)
  induction cs generalizing c k with
  | nil => exact .inl (Unwritten.ends ⟨rfl, rfl, rfl, rfl⟩ hz hread hb ⟨hfits, k, rfl, hzero⟩)
  | cons d cs ih =>
  rcases later_cases t (d :: cs) with hnone | ⟨d, hd, htrue⟩ | ⟨d, d', ds, hd⟩
  · rw [hnone.tokens] at hb
    rw [hnone.last] at hz
    exact .inl (hnone.ends hz hread hb ⟨hfits, k, rfl, hzero⟩)
  · cases hd
    rw [laterTokens_else htrue] at hb
    cases k with
    | succ k => exact .inr (Jammed.branching (.inr ⟨k, _, rfl, _, _, rfl, by decide⟩) hb)
    | zero =>
      cases hb with
      | stop h => exact absurd (by decide) (h.kind_ne rfl)
      | elif ht => cases ht
      | els _ hb =>
        rw [written_singleton, if_pos htrue] at hleaves
        refine (reads_body (hleaves d mem_cons_self) (by simpa [htrue] using hz) hb).imp_left ?_
        rintro ⟨hfits', k', hm, hzero'⟩
        refine ⟨⟨hread, hfits.readable, ?_, fun ht => ?_, ?_⟩, k', hm, fun ht => hzero'.1 (.inl ht)⟩
        · simpa [later, htrue] using hfits'.readable
        · simp [written_singleton, htrue, hfits.roomy ht, hfits'.roomy ht]
        · rintro rfl
          simpa [written_singleton, htrue] using hzero.2 rfl
  · cases hd
    rw [laterTokens_elif] at hb
    cases k with
    | succ k => exact .inr (Jammed.branching (.inr ⟨k, _, rfl, _, _, rfl, by decide⟩) hb)
    | zero =>
      cases hb with
      | stop h => exact absurd (by decide) (h.kind_ne rfl)
      | els ht => cases ht
      | elif _ hc hbody hb =>
        rw [written_cons, forall_mem_cons] at hleaves
        rw [dropLast_cons_cons, forall_mem_cons] at hp hshut
        rw [getLast?_cons_cons] at hz
        have hnext : FollowsStat (!d.2.shut) ((laterTokens t (d' :: ds)).map token ++ z) :=
          hz.later fun _ => hshut.2 d mem_cons_self
        rcases reads_clause hp.1 hleaves.1 hnext hc hbody (by simp) with ⟨hread', hfits', k', rfl, hzero'⟩ | hjam
        swap
        · exact .inr (hjam.branching hb)
        refine (ih hp.2 hleaves.2 hshut.2 hz hread' hfits' k' hzero' hb).imp_left ?_
        rintro ⟨hfrom, hsemis⟩
        refine ⟨⟨hread, hfits.readable, ?_, fun ht => ?_, ?_⟩, hsemis⟩
        · simp only [map_cons, later, forall_mem_append, forall_mem_cons]
          exact ⟨⟨hfrom.cond, hfrom.body⟩, hfrom.readable⟩
        · exact forall_mem_cons.2 ⟨hfits.roomy ht, hfrom.roomy ht⟩
        · rintro rfl
          rw [written_cons, dropLast_cons_cons]
          exact forall_mem_cons.2 ⟨by simpa using hzero.2 rfl, hfrom.block rfl⟩

end Later

/-! ### Statements -/

namespace Node

variable {t : Bool} {st : Style} {x b : Node} {m z : List Token}

theorem Ends.whole (hx : x.roomy = true) (h : ∀ e ∈ x.exprs, e.Readable) : x.Ends t z z :=
  ⟨⟨h, fun _ => hx⟩, 0, rfl, fun _ => rfl⟩

theorem BodyEnds.ends (h : b.BodyEnds t m z) (hx : x.roomy = b.roomy)
    (he : ∀ e ∈ x.exprs, e ∈ b.exprs ∨ e.Readable) (hblock : x.isBlock = false) : x.Ends t m z := by
  obtain ⟨hfits, k, hs, hk⟩ := h
  refine ⟨⟨fun e hmem => (he e hmem).elim (hfits.readable e) id, hx ▸ hfits.roomy⟩, k, hs, ?_⟩
  rintro (ht | hb)
  · exact hk.1 (.inl ht)
  · rw [hblock] at hb
    cases hb

theorem NameOf.phrase {L : Lexeme → Prop} (h : NameOf L x) : Phrase x.wording := by
  obtain ⟨y, p, rfl, -⟩ := h
  exact .alone .name

theorem Formed.phrase_expr {e : Node} (h : Formed Scanned .expr e) (hf : (e.layout st).failure = none)
    (hc : e.clear = true) : Phrase e.wording :=
  h.phrase (by decide) hf hc

end Node

section Statements

open Layout
open Node hiding Reads

variable {t : Bool} {m z l : List Token} {ns es names sources : List Node} {u : Token}
variable {x : String}

theorem reads_inits {inits : Option (List Node)} (hz : Stops (.comma :: .assign :: continuing choice) z)
    (hi : inits ≠ some []) (he : ∀ e ∈ inits.getD [], Phrase e.wording) (hne : names ≠ [])
    (hn : ∀ n ∈ names, Phrase n.wording)
    (h : Reads (.commas .name) ((commas (names.map wording)).map token ++
      ((inits.elim [] fun es => of .assign :: commas (es.map wording)).map token ++ z)) ns l)
    (h' : Reads (.opt (.after .assign (.commas .expr))) l es m) :
    (m = z ∧ ∀ e ∈ inits.getD [], e.Readable) ∨ StartsIn TokenKind.halts m := by
  have hsub : .comma :: jams ⊆ TokenKind.halts := by decide
  have hsub' : .comma :: continuing choice ⊆ .comma :: .assign :: continuing choice := by decide
  have hstop : Stops (.comma :: continuing choice)
      ((inits.elim [] fun es => of .assign :: commas (es.map wording)).map token ++ z) := by
    cases inits with
    | none => exact hz.mono hsub'
    | some => exact .cons (by decide)
  rcases h.phrases rfl (by simpa using hne) (forall_mem_map.2 hn) hstop with ⟨rfl, -⟩ | hjam
  · cases inits with
    | none =>
      rcases h'.opt_cases with ⟨-, rfl⟩ | h'
      · exact .inl ⟨rfl, by simp⟩
      · obtain ⟨v, z, rfl, hv⟩ := h'.startsIn rfl
        exact absurd (by decide) (hz.kind_ne (mem_singleton.1 hv))
    | some es =>
      rcases h'.opt_cases with ⟨-, rfl⟩ | h'
      · exact .inr ⟨_, _, rfl, by decide⟩
      · cases h' with
        | after _ h' => exact (reads_exprs h' (fun h => hi (h ▸ rfl)) he (hz.mono hsub')).imp_right (.mono hsub)
  · rcases h'.opt_cases with ⟨-, rfl⟩ | h'
    · exact .inr (hjam.mono hsub)
    · exact hjam.clash (h'.startsIn rfl) (by decide)

theorem reads_forRange {var start stop step body : Node} (hvar : ∃ x p, var = .name x p)
    (hstart : Phrase start.wording) (hstop : Phrase stop.wording)
    (hstep : step.isMissing = false → Phrase step.wording) (hb : body.Leaves t)
    (hz : FollowsStat (!body.shut) z)
    (h : Reads .stat ((of .kwFor :: (var.wording ++ of .kwIs :: (start.wording ++ of .comma ::
      (stop.wording ++ ((if step.isMissing then [] else of .comma :: step.wording) ++
        bodyTokens t body (body.tokens t)))))).map token ++ z) [y] m) :
    (start.Readable ∧ stop.Readable ∧ (step.isMissing = false → step.Readable) ∧ body.BodyEnds t m z) ∨
      Jammed m := by
  obtain ⟨x, p, rfl⟩ := hvar
  obtain ⟨_, _, hx, h⟩ := h.onward
  cases hx with
  | name =>
  rcases h with h | ⟨_, _, _, v, _, _, l, _, l', _, hl, hs, hv, he, hd, hbody⟩
  · exact absurd h.kind (by decide)
  obtain ⟨-, rfl⟩ := List.cons.inj hl
  simp only [append_eq, map_append, map_cons, cons_append, List.append_assoc] at hs
  rcases reads_expr hs hstart (.cons (by decide)) with ⟨hm, hreads⟩ | hjam
  swap
  · exact absurd (hv ▸ hjam.kind) (by decide)
  obtain ⟨-, rfl⟩ := List.cons.inj hm
  have hbodyStarts := startsIn_body t body z
  have hnext : Stops (continuing choice) ((if step.isMissing then [] else of .comma :: step.wording).map token ++
      ((bodyTokens t body (body.tokens t)).map token ++ z)) := by
    split
    · exact hbodyStarts.stops (by decide)
    · exact .cons (by decide)
  rcases reads_expr he hstop hnext with ⟨rfl, hreade⟩ | hjam
  swap
  · rcases hd.opt_cases with ⟨-, rfl⟩ | hd
    · exact hjam.clash (hbody.startsIn rfl) (by decide)
    · exact hjam.clash (hd.startsIn rfl) (by decide)
  cases hmissing : step.isMissing with
  | true =>
    rw [hmissing, if_pos rfl] at hd
    rcases hd.opt_cases with ⟨-, rfl⟩ | hd
    · exact (reads_body hb hz hbody).imp_left fun h => ⟨hreads, hreade, by simp, h⟩
    · exact hbodyStarts.clash (hd.startsIn rfl) (by decide)
  | false =>
    rw [hmissing, if_neg Bool.false_ne_true] at hd
    rcases hd.opt_cases with ⟨-, rfl⟩ | hd
    · exact absurd (hbody.startsIn rfl).kind (by decide)
    · cases hd with
      | after _ hd =>
        obtain ⟨_, rfl⟩ := hd.exists_eq rfl
        rcases reads_expr hd (hstep hmissing) (hbodyStarts.stops (by decide)) with ⟨rfl, hreadd⟩ | hjam
        · exact (reads_body hb hz hbody).imp_left fun h => ⟨hreads, hreade, fun _ => hreadd, h⟩
        · exact hjam.clash (hbody.startsIn rfl) (by decide)

theorem reads_assign {p : Position} (hn : ∀ n ∈ names, Phrase n.wording) (hs : sources ≠ [])
    (he : ∀ e ∈ sources, Phrase e.wording) (hz : Stops (.comma :: .assign :: continuing choice) z)
    (h : Reads .stat ((commas ((.name x p :: names).map wording) ++
      of .assign :: commas (sources.map wording)).map token ++ z) [y] m) :
    (m = z ∧ ∀ e ∈ sources, e.Readable) ∨ StartsIn TokenKind.halts m := by
  have hsub : .comma :: jams ⊆ TokenKind.halts := by decide
  rw [map_append, List.append_assoc] at h
  rcases h.onward with ⟨_, u, _, _, hp, hu, hes⟩ | ⟨_, u, _, hp, h⟩
  · have hphrases : ∀ n ∈ Node.name x p :: names, Phrase n.wording :=
      forall_mem_cons.2 ⟨.alone .name, hn⟩
    rcases hp.phrases rfl (by simp) (forall_mem_map.2 hphrases) (.cons (by decide)) with ⟨hm, -⟩ | hjam
    · obtain ⟨-, rfl⟩ := List.cons.inj hm
      exact (reads_exprs hes hs he (hz.mono (by decide))).imp_right (.mono hsub)
    · exact absurd (hu ▸ hjam.kind) (by decide)
  · -- what comes after the first name is another name, or the sources
    have hnext : StartsIn [.comma, .assign] ((names.map wording).flatMap (of .comma :: ·) |>.map token |>.append
        ((of .assign :: commas (sources.map wording)).map token ++ z)) := by
      cases names with
      | nil | cons => exact ⟨_, _, rfl, by decide⟩
    have hu' : u.kind ∈ [.comma, .assign] :=
      StartsIn.kind (l := _) (hp.place_eq (hnext.stops (by decide)) ▸ hnext)
    have hno : ∀ k ∈ [.comma, .assign], k ∉ updates ∧ k ≠ .lparen := by decide
    rcases h with ⟨hu, -⟩ | ⟨hu, -⟩
    · exact absurd hu (hno _ hu').1
    · exact absurd hu (hno _ hu').2

theorem reads_update {op : TokenKind} {source : Node} (hop : op ∈ updates)
    (he : Phrase source.wording) (hz : Stops (continuing choice) z)
    (h : Reads .stat ((⟨.identifier, some x⟩ :: of op :: source.wording).map token ++ z) [y] m) :
    m = z ∧ source.Readable ∨ StartsIn jams m := by
  have hops : ∀ k ∈ updates, k ∉ [.comma, .lbrack, .dot] ∧ k ≠ .assign ∧ k ≠ .lparen := by decide
  obtain ⟨hpath, hassign, hparen⟩ := hops op hop
  rcases h.onward with ⟨_, u, _, _, hp, hu, -⟩ | ⟨_, u, _, hp, h⟩
  · obtain ⟨rfl, -⟩ := List.cons.inj (hp.places_eq (.cons hpath))
    exact absurd hu hassign
  · obtain ⟨rfl, rfl⟩ := List.cons.inj (hp.place_eq (.cons fun h => hpath (mem_cons_of_mem _ h)))
    rcases h with ⟨-, e, h⟩ | ⟨hu, -⟩
    · exact reads_expr h he hz
    · exact absurd hu hparen

theorem reads_call {args : List Node} (he : ∀ e ∈ args, Phrase e.wording)
    (h : Reads .stat ((⟨.identifier, some x⟩ :: of .lparen :: (commas (args.map wording) ++
      [of .rparen])).map token ++ z) [y] m) : m = z ∧ ∀ e ∈ args, e.Readable := by
  rcases h.onward with ⟨_, u, _, _, hp, hu, -⟩ | ⟨_, u, _, hp, h⟩
  · obtain ⟨rfl, -⟩ := List.cons.inj (hp.places_eq (.cons (by decide)))
    cases hu
  · obtain ⟨rfl, rfl⟩ := List.cons.inj (hp.place_eq (.cons (by decide)))
    rcases h with ⟨hu, -⟩ | ⟨-, as, v, h, hv⟩
    · exact absurd hu (by decide)
    · simp only [append_eq, map_append, List.append_assoc] at h
      obtain ⟨items, -, -, hws, hs, rfl⟩ := (grasps_of_reads h).args h (forall_mem_map.2 he) hv
      refine ⟨rfl, fun e hmem => ?_⟩
      obtain ⟨i, hi, hw⟩ := mem_map.1 (hws ▸ mem_map_of_mem hmem)
      exact ⟨i.1, hw ▸ hs i hi⟩

theorem Node.Formed.leaves {r : Role} {x : Node} {st : Style} (h : Formed Scanned r x) (hr : r = .stat)
    (hf : (x.layout st).failure = none) (hc : ∀ e ∈ x.exprs, e.clear = true) : x.Leaves t := by
  induction h generalizing st with
  | empty =>
    intro s z m hz h
    exact .inl (stat_semi h ▸ .whole rfl (by simp [exprs]))
  | @block stats p he hs ih =>
    rw [layout] at hf
    simp only [failure_append] at hf
    rw [exprs, exprsAll_eq] at hc
    have hfs := failure_lines hf.1.1.2
    have hleaves : ∀ x ∈ stats, Leaves t x := fun x hx =>
      ih x hx rfl (hfs x hx) fun e he => hc e (mem_flatMap.2 ⟨x, hx, he⟩)
    intro s z m hz h
    obtain ⟨ss, u, h, hu⟩ := h.onward
    simp only [append_eq, map_append, List.append_assoc] at h
    obtain ⟨hm, hfits⟩ := reads_lines hleaves (fun x hx => (hs x hx).head_tokens rfl (hfs x hx) t)
      ⟨_, _, rfl, by decide⟩ ⟨u, m, rfl, hu ▸ mem_cons_self⟩ h
    obtain rfl := (List.cons.inj hm).2
    refine .inl ⟨⟨?_, ?_⟩, 0, rfl, fun _ => rfl⟩
    · rw [exprs, exprsAll_eq]
      intro e he
      obtain ⟨x, hx, he⟩ := mem_flatMap.1 he
      exact (hfits x hx).readable e he
    · intro ht
      rw [roomy, roomyAll_eq, all_eq_true]
      exact fun x hx => (hfits x hx).roomy ht
  | @declare names inits isConst p hne hn hin hi =>
    rw [layout_declare st hin] at hf
    simp only [failure_append] at hf
    have hphrase : ∀ e ∈ inits.getD [], Phrase e.wording := by
      intro e he
      cases inits with
      | none => simp at he
      | some es =>
        simp only [Option.elim_some, failure_append] at hf
        exact (hi e he).phrase_expr (failure_commas hf.2.2 _ (mem_map_of_mem he)) (hc e he)
    intro s z m hz h
    have hread : ∃ ns l es, TinyScript.Reads (.commas .name) ((commas (names.map wording)).map token ++
        ((inits.elim [] fun es => of .assign :: commas (es.map wording)).map token ++ z)) ns l ∧
        TinyScript.Reads (.opt (.after .assign (.commas .expr))) l es m := by
      cases isConst
      all_goals
        obtain ⟨ns, l, es, hn, hi⟩ := h.onward
        exact ⟨ns, l, es, by simpa using hn, hi⟩
    obtain ⟨ns, l, es, hns, hes⟩ := hread
    refine (reads_inits hz.stops hin hphrase hne (fun n hmem => (hn n hmem).phrase) hns hes).imp ?_ .inl
    rintro ⟨rfl, hread⟩
    exact .whole rfl hread
  | @branch conds bodies p hlen hne hconds hb hs ihc ihb =>
    obtain ⟨c, cs, rfl, rfl⟩ := exists_clauses hlen hne
    rw [exprs_branch, forall_mem_cons, forall_mem_append] at hc
    rw [layout_branch] at hf
    simp only [failure_append] at hf
    rw [forall_mem_map] at hconds ihb
    have hlast : ∀ d ∈ cs.getLast?, (cs.map fun d => writtenBody st d.2).getLastD (writtenBody st c.2) =
        writtenBody st d.2 := fun d hd => by
      simp [getLastD_eq_getLast?, Option.mem_def.1 hd]
    have hwhole : ∀ d ∈ c :: written cs, (writtenBody st d.2).failure = none :=
      forall_mem_cons.2 ⟨hf.1.2, failure_written hlast hf.2⟩
    have hclear : ∀ d ∈ c :: written cs, ∀ e ∈ d.2.exprs, e.clear = true :=
      forall_mem_cons.2 ⟨hc.2.1, fun d hd e he => hc.2.2 e (exprs_subset_later hd he)⟩
    have hphrase : ∀ d ∈ c :: cs.dropLast, Phrase d.1.wording := by
      rw [forall_mem_cons] at hconds ⊢
      refine ⟨hconds.1.phrase_expr hf.1.1.2 hc.1, fun d hd => ?_⟩
      exact (hconds.2 d (dropLast_subset _ hd)).phrase_expr (failure_conds hf.2 d hd)
        (hc.2.2 _ (cond_mem_later hd))
    have hshut : ∀ d ∈ (c :: cs).dropLast, d.2.shut = true := by
      rw [← map_dropLast, forall_mem_map] at hs
      exact hs
    have hleaves : ∀ d ∈ c :: written cs, Leaves t d.2 := fun d hd =>
      ihb d (cons_subset_cons c (written_subset cs) hd) rfl (failure_body (hwhole d hd)) (hclear d hd)
    intro s z m hz h
    rw [shut_branch] at hz
    rw [tokens_branch] at h
    rw [forall_mem_cons] at hphrase hleaves
    obtain ⟨_, _, _, l, hcond, hbody, hlater⟩ := h.onward
    have hfollows : FollowsStat (!c.2.shut) ((laterTokens t cs).map token ++ z) :=
      hz.later fun hne => hshut c (by simp [dropLast_cons_of_ne_nil hne])
    have hclause := reads_clause hphrase.1 hleaves.1 hfollows hcond hbody (by simp [laterTokens])
    refine (reads_later hphrase.2 hleaves.2 hshut hz hclause hlater).imp_left ?_
    rintro ⟨hfrom, k, hm, hzero⟩
    refine ⟨⟨?_, fun ht => ?_⟩, k, hm, fun h => hzero (h.resolve_right fun h => by cases h)⟩
    · rw [exprs_branch, forall_mem_cons, forall_mem_append]
      exact ⟨hfrom.cond, hfrom.body, hfrom.readable⟩
    · rw [roomy_branch, Bool.and_eq_true, all_eq_true, all_eq_true]
      exact ⟨hfrom.roomy ht, hfrom.block ht⟩
  | @whileLoop cond body p hcond hbody _ ih =>
    rw [layout_whileLoop] at hf
    simp only [failure_append] at hf
    rw [exprs, forall_mem_cons] at hc
    intro s z m hz h
    rw [Node.tokens] at h
    obtain ⟨_, _, _, hcond', hbody'⟩ := h.onward
    refine (reads_clause (hcond.phrase_expr hf.1.2 hc.1) (ih rfl (failure_body hf.2) hc.2) hz hcond' hbody'
      (by simp)).imp_left fun h => h.2.ends rfl (fun e he => ?_) rfl
    rw [exprs, mem_cons] at he
    rcases he with rfl | he
    · exact .inr h.1
    · exact .inl he
  | @forRange var start stop step body p hv hstart hstop hstep hb _ _ _ ih =>
    rw [layout_forRange] at hf
    simp only [failure_append] at hf
    rw [exprs, forall_mem_cons, forall_mem_cons, forall_mem_append] at hc
    have hphrase (hmissing : step.isMissing = false) : Phrase step.wording := by
      have hne : step ≠ .missing := by
        rintro rfl
        cases hmissing
      simp only [hmissing, Bool.false_eq_true, if_false, forall_mem_singleton, failure_append] at hc hf
      exact (hstep hne).phrase_expr hf.1.2.2 hc.2.2.1
    obtain ⟨x, q, rfl, -⟩ := hv
    intro s z m hz h
    rw [Node.tokens] at h
    refine (reads_forRange ⟨x, q, rfl⟩ (hstart.phrase_expr hf.1.1.1.1.2 hc.1)
      (hstop.phrase_expr hf.1.1.2 hc.2.1) hphrase (ih rfl (failure_body hf.2) hc.2.2.2) hz h).imp_left ?_
    rintro ⟨hstart, hstop, hstep, hend⟩
    refine hend.ends rfl (fun e he => ?_) rfl
    rw [exprs, mem_cons, mem_cons, mem_append] at he
    rcases he with rfl | rfl | he | he
    · exact .inr hstart
    · exact .inr hstop
    · split at he
      · simp at he
      · rename_i hmissing
        rw [mem_singleton.1 he]
        exact .inr (hstep (by simpa using hmissing))
    · exact .inl he
  | breakLoop | continueLoop =>
    intro s z m hz h
    obtain rfl := h.onward
    exact .inl (.whole rfl (by simp [exprs]))
  | @assign targets sources p hne ht hsn hs _ ihs =>
    rw [layout_assign st hsn] at hf
    simp only [failure_append] at hf
    have hnames : ∀ e ∈ targets, ∃ x p, e = .name x p := fun e he =>
      (ht e he).eq_name (by decide) (failure_commas hf.1 _ (mem_map_of_mem he))
    obtain ⟨y, targets, rfl⟩ := exists_cons_of_ne_nil hne
    rw [forall_mem_cons] at hnames
    obtain ⟨⟨x, q, rfl⟩, hnames⟩ := hnames
    have hphrase : ∀ e ∈ sources, Phrase e.wording := fun e he =>
      (hs e he).phrase_expr (failure_commas hf.2.2 _ (mem_map_of_mem he)) (hc e he)
    intro s z m hz h
    refine (reads_assign (fun n hn => ?_) hsn hphrase hz.stops h).imp ?_ .inl
    · obtain ⟨x, q, rfl⟩ := hnames n hn
      exact .alone .name
    · rintro ⟨rfl, hread⟩
      exact .whole rfl hread
  | @update op target source p hop ho ht hs =>
    rw [layout] at hf
    simp only [failure_append] at hf
    obtain ⟨x, q, rfl⟩ := ht.eq_name (by decide) hf.1.1
    intro s z m hz h
    have hsub (ks : List TokenKind) : ks ⊆ .comma :: .assign :: ks := subset_append_right [_, _] ks
    refine (reads_update hop (hs.phrase_expr hf.2 (hc source mem_cons_self)) (hz.stops.mono (hsub _)) h).imp
      ?_ fun h => .inl (h.mono (hsub _))
    rintro ⟨rfl, hread⟩
    exact .whole rfl (forall_mem_singleton.2 hread)
  | callStat h =>
    cases h with
    | @call r callee args p hrole hcallee hne ha =>
      rw [layout_call] at hf
      simp only [failure_append] at hf
      obtain ⟨x, q, rfl⟩ := hcallee.eq_name hrole hf.1.1.1
      intro s z m hz h
      obtain ⟨rfl, hread⟩ := reads_call (fun e he => (ha e he).phrase_expr
        (failure_listed hf.1.2 _ (mem_map_of_mem he)) (hc e he)) h
      exact .inl (.whole rfl hread)
  | switch | repeatUntil | forEach | returnValue => cases hf
  | _ => cases hr

end Statements

/-! ### Programs -/

/-- If the text of a program can be read, each statement of it can. -/
theorem FormedProgram.fits {stats : List Node} {t : Bool} {tree : Node} (h : FormedProgram stats) (hne : stats ≠ [])
    (hf : (format t (.program stats)).failure = none)
    (hc : ∀ e ∈ (Node.program stats).exprs, e.clear = true)
    (hp : parse (format t (.program stats)).text = .ok tree) : ∀ x ∈ stats, x.Fits t := by
  obtain ⟨-, ss, rfl, -⟩ := formed_of_parse hp
  have hreads := ((h.lays hf hc).exists_parse_iff_reads (h.lines_ne_nil hne hf)).1 ⟨_, hp, rfl⟩
  rw [Node.exprs, Node.exprsAll_eq] at hc
  have hfs := Node.failure_lines hf
  have hleaves : ∀ x ∈ stats, x.Leaves t := fun x hx =>
    (h.formed x hx).leaves rfl (hfs x hx) fun e he => hc e (mem_flatMap.2 ⟨x, hx, he⟩)
  rw [map_append] at hreads
  exact (reads_lines hleaves (fun x hx => (h.formed x hx).head_tokens rfl (hfs x hx) t)
    ⟨_, _, rfl, by decide⟩ ⟨_, _, rfl, by decide⟩ hreads).2

end TinyScript
