import TinyScript.Proofs.Precedence

/-!
# Spellings of statements

`Spelling o y w`: the tokens `w` spell the statement `y`, and `o` says whether an `if` at the right edge
of `w` could take one more clause. The colon before a body may be left out, and any number of semicolons
may stand after a statement of a list. Main statement: `y` is read from `w`, unless a clause comes after it
that would belong to it (`Spelling.reads`).
-/

namespace TinyScript

open Lexeme Precedence Parse List

variable {o : Bool} {k : TokenKind} {y : Node} {w : List Lexeme} {z : List Token} {c : Clause}

/-- The tokens `w` of a body, after a colon or not. -/
def bodyOf (colon : Bool) (w : List Lexeme) : List Lexeme := if colon then of .colon :: w else w

/-- A condition and a body with their tokens. -/
structure Clause where
  cond : Node
  condTokens : List Lexeme
  colon : Bool
  body : Node
  bodyTokens : List Lexeme
  isOpen : Bool

namespace Clause

def bodyPart (c : Clause) : List Lexeme := bodyOf c.colon c.bodyTokens

def tokens (c : Clause) : List Lexeme := c.condTokens ++ c.bodyPart

end Clause

/-- A statement of a list with its tokens, and how many semicolons come after it. -/
structure Line where
  stat : Node
  tokens : List Lexeme
  isOpen : Bool
  semis : Nat

def Line.all (i : Line) : List Lexeme := i.tokens ++ List.replicate i.semis (of .semi)

/-- `w` spells the statement; `o` says whether one more clause after it would belong to it. -/
inductive Spelling : Bool → Node → List Lexeme → Prop
  | empty : Spelling false .empty [of .semi]
  | block {items : List Line} {p : Position} (he : ∀ i ∈ items, i.stat.isEmpty = false)
      (h : ∀ i ∈ items, Spelling i.isOpen i.stat i.tokens) :
      Spelling false (.block (items.map (·.stat)) p)
        (of .lbrace :: (items.flatMap Line.all ++ [of .rbrace]))
  | declare {names : List (String × Position)} {inits : Option (List (Node × List Lexeme))}
      {isConst : Bool} {p : Position} (hn : names ≠ []) (hi : inits ≠ some [])
      (h : ∀ i ∈ inits.getD [], Written choice i.1 i.2) :
      Spelling false (.declare (names.map fun x => .name x.1 x.2) (inits.map (List.map (·.1))) isConst p)
        (of (if isConst then .kwConst else .kwVar) ::
          (commas (names.map fun x => [⟨.identifier, some x.1⟩]) ++
            inits.elim [] fun is => of .assign :: commas (is.map (·.2))))
  | branch {first : Clause} {more : List Clause} {last : Option Clause} {p : Position}
      (hc : ∀ c ∈ first :: more, Written choice c.cond c.condTokens)
      (ht : ∀ c ∈ last, ∃ q, c.cond = .bool "true" q)
      (hb : ∀ c ∈ first :: (more ++ last.toList), Spelling c.isOpen c.body c.bodyTokens)
      (hs : ∀ c ∈ (first :: (more ++ last.toList)).dropLast, c.isOpen = false) :
      Spelling (last.all (·.isOpen))
        (.branch ((first :: (more ++ last.toList)).map (·.cond))
          ((first :: (more ++ last.toList)).map (·.body)) p)
        (of .kwIf :: (first.tokens ++ (more.flatMap (of .kwElif :: ·.tokens) ++
          last.toList.flatMap (of .kwElse :: ·.bodyPart))))
  | whileLoop {c : Clause} {p : Position} (hc : Written choice c.cond c.condTokens)
      (hb : Spelling c.isOpen c.body c.bodyTokens) :
      Spelling c.isOpen (.whileLoop c.cond c.body p) (of .kwWhile :: c.tokens)
  | forRange {x : String} {start stop : Node × List Lexeme} {step : Option (Node × List Lexeme)}
      {colon o : Bool} {body : Node} {v : List Lexeme} {p q : Position}
      (hs : Written choice start.1 start.2) (he : Written choice stop.1 stop.2)
      (hd : ∀ i ∈ step, Written choice i.1 i.2) (hb : Spelling o body v) :
      Spelling o (.forRange (.name x q) start.1 stop.1 (step.elim .missing (·.1)) body p)
        (of .kwFor :: ⟨.identifier, some x⟩ :: of .kwIs :: (start.2 ++ of .comma :: (stop.2 ++
          (step.elim [] (of .comma :: ·.2) ++ bodyOf colon v))))
  | breakLoop {p : Position} : Spelling false (.breakLoop p) [of .kwBreak]
  | continueLoop {p : Position} : Spelling false (.continueLoop p) [of .kwContinue]
  | assign {targets sources : List (Node × List Lexeme)} {p : Position} (hn : targets ≠ [])
      (ht : ∀ i ∈ targets, Written path i.1 i.2) (hn' : sources ≠ [])
      (hs : ∀ i ∈ sources, Written choice i.1 i.2) :
      Spelling false (.assign (targets.map (·.1)) (sources.map (·.1)) p)
        (commas (targets.map (·.2)) ++ of .assign :: commas (sources.map (·.2)))
  | update {op : TokenKind} {target source : Node} {w v : List Lexeme} {p : Position}
      (hop : op ∈ TokenKind.updates) (ht : Written path target w) (hs : Written choice source v) :
      Spelling false (.update op target source p) (w ++ of op :: v)
  | call {callee : Node} {args : Option (List (Node × List Lexeme))} {p : Position} {w : List Lexeme}
      (hc : Written path callee w) (hn : args ≠ some []) (h : ∀ i ∈ args.getD [], Written choice i.1 i.2) :
      Spelling false (.call callee (args.map (List.map (·.1))) p)
        (w ++ of .lparen :: (commas ((args.getD []).map (·.2)) ++ [of .rparen]))

/-- Tokens that a statement begins with. -/
def TokenKind.openers : List TokenKind :=
  [.semi, .lbrace, .kwVar, .kwConst, .kwIf, .kwWhile, .kwFor, .kwBreak, .kwContinue, .identifier]

/-- A token of kind `k` does not go on with a statement before it. -/
structure CanFollow (o : Bool) (k : TokenKind) : Prop where
  ends : k ∉ .comma :: .assign :: continuing choice
  clause : k ∈ [.kwElif, .kwElse] → o = false

theorem CanFollow.of_mem (hk : k ∈ .rbrace :: .eof :: TokenKind.openers) : CanFollow o k := by
  have hall : ∀ k ∈ .rbrace :: .eof :: TokenKind.openers,
      k ∉ .comma :: .assign :: continuing choice ∧ k ∉ [.kwElif, .kwElse] := by decide
  exact ⟨(hall k hk).1, fun h => absurd h (hall k hk).2⟩

/-! ### Reading a spelling -/

/-- The statement is read from its tokens before a token that does not go on with it. -/
def IsRead (o : Bool) (y : Node) (w : List Lexeme) : Prop :=
  ∀ u z, (u.kind ∈ [.kwElif, .kwElse] → o = false) → Reads .stat (w.map token ++ u :: z) [y.bare] (u :: z)

theorem Reads.bodyOf {c : Bool} {l : List Token} (h : Reads .stat (w.map Lexeme.token ++ z) [y] l) :
    Reads .body ((bodyOf c w).map Lexeme.token ++ z) [y] l := by
  cases c with
  | true => exact .body (.present (.token rfl)) h
  | false => exact .body .absent h

theorem Clause.reads {u : Token} (hc : Written choice c.cond c.condTokens)
    (hb : IsRead c.isOpen c.body c.bodyTokens) (hu : u.kind ∈ [.kwElif, .kwElse] → c.isOpen = false) :
    ∃ l, Reads .expr (c.tokens.map token ++ u :: z) [c.cond.bare] l ∧
      Reads .body l [c.body.bare] (u :: z) := by
  refine ⟨c.bodyPart.map token ++ u :: z, ?_, .bodyOf (hb u z hu)⟩
  rw [Clause.tokens, map_append, List.append_assoc]
  exact hc.reads _

/-- Of clauses before a token of kind `k` all but the last one are shut, and that one is too if it has to be. -/
structure Shut (k : TokenKind) (cs : List Clause) : Prop where
  init : ∀ c ∈ cs.dropLast, c.isOpen = false
  last : ∀ c ∈ cs.getLast?, k ∈ [.kwElif, .kwElse] → c.isOpen = false

theorem Shut.tail {cs : List Clause} (h : Shut k (c :: cs)) : Shut k cs := by
  cases cs with
  | nil => exact ⟨by simp, by simp⟩
  | cons d cs =>
    exact ⟨fun e he => h.init e (mem_cons_of_mem _ he), fun e he => h.last e (by simpa using he)⟩

namespace Reads

variable {u : Token} {l l' z : List Token} {ss : List Node}
variable {more : List Clause}

theorem semis (k : Nat) (h : Reads .stats l ss l') :
    Reads .stats ((List.replicate k (of .semi)).map Lexeme.token ++ l) ss l' := by
  induction k with
  | zero => exact h
  | succ k ih => exact ih.stats_cons (.empty rfl)

theorem lines {items : List Line} (he : ∀ i ∈ items, i.stat.isEmpty = false)
    (h : ∀ i ∈ items, IsRead i.isOpen i.stat i.tokens) (hu : u.kind ∉ [.kwElif, .kwElse]) :
    Reads .stats ((items.flatMap Line.all).map Lexeme.token ++ u :: z) (items.map (·.stat.bare)) (u :: z) := by
  induction items with
  | nil => exact .done
  | cons i items ih =>
    rw [forall_mem_cons] at he h
    have hrest := (ih he.2 h.2).semis i.semis
    -- what comes after the statement begins no clause
    have hnext : ∃ v z', v.kind ∉ [.kwElif, .kwElse] ∧ (List.replicate i.semis (of .semi)).map Lexeme.token ++
        ((items.flatMap Line.all).map Lexeme.token ++ u :: z) = v :: z' := by
      have hopen : ∀ k ∈ Piece.openers, k ∉ [.kwElif, .kwElse] := by decide
      rcases hrest.stats_cases with heq | ⟨v, z', heq, hv⟩
      · exact ⟨u, z, hu, heq⟩
      · exact ⟨v, z', hopen _ hv, heq⟩
    obtain ⟨v, z', hv, heq⟩ := hnext
    rw [heq] at hrest
    have hall := hrest.stats_cons (h.1 v z' fun hm => absurd hm hv)
    rw [Grammar.isEmpty_bare, he.1] at hall
    simpa [Line.all, ← heq] using hall

theorem exists_next (hs : Shut u.kind (c :: more)) :
    ∃ v z', (v.kind ∈ [.kwElif, .kwElse] → c.isOpen = false) ∧
      (more.flatMap (of .kwElif :: ·.tokens)).map Lexeme.token ++ u :: z = v :: z' := by
  cases more with
  | nil => exact ⟨u, z, hs.last c rfl, rfl⟩
  | cons d more => exact ⟨_, _, fun _ => hs.init c mem_cons_self, rfl⟩

theorem clauseTail {cs bs : List Node} (hc : ∀ c ∈ more, Written choice c.cond c.condTokens)
    (hb : ∀ c ∈ more, IsRead c.isOpen c.body c.bodyTokens) (hs : Shut u.kind more)
    (h : Reads (.clauses .kwElif cs) l bs
      ((more.flatMap (of .kwElif :: ·.tokens)).map Lexeme.token ++ u :: z)) :
    Reads (.clauses .kwElif (cs ++ more.map (·.cond.bare))) l (bs ++ more.map (·.body.bare)) (u :: z) := by
  induction more generalizing cs bs with
  | nil => simpa using h
  | cons c more ih =>
    rw [forall_mem_cons] at hc hb
    obtain ⟨v, z', hv, heq⟩ := exists_next (z := z) hs
    obtain ⟨l₁, hcond, hbody⟩ := Clause.reads (z := z') hc.1 hb.1 hv
    rw [← heq] at hcond hbody
    simp only [flatMap_cons, cons_append, map_cons, map_append, List.append_assoc] at h
    have hmore := ih hc.2 hb.2 hs.tail (.clauses h rfl hcond hbody)
    simpa using hmore

theorem clauseList {first : Clause} (hc : ∀ c ∈ first :: more, Written choice c.cond c.condTokens)
    (hb : ∀ c ∈ first :: more, IsRead c.isOpen c.body c.bodyTokens) (hs : Shut u.kind (first :: more)) :
    Reads (.clauses .kwElif ((first :: more).map (·.cond.bare)))
      (first.tokens.map Lexeme.token ++ ((more.flatMap (of .kwElif :: ·.tokens)).map Lexeme.token ++ u :: z))
      ((first :: more).map (·.body.bare)) (u :: z) := by
  rw [forall_mem_cons] at hc hb
  obtain ⟨v, z', hv, heq⟩ := exists_next (z := z) hs
  obtain ⟨l₁, hcond, hbody⟩ := Clause.reads (z := z') hc.1 hb.1 hv
  rw [← heq] at hcond hbody
  exact clauseTail hc.2 hb.2 hs.tail (.clause hcond hbody)

end Reads

open Node in
/-- A statement is read from its spelling. -/
theorem Spelling.reads (h : Spelling o y w) : IsRead o y w := by
  induction h with
  | empty => exact fun u z _ => .empty rfl
  | @block items p he _ ih =>
    intro u z _
    have hlines := Reads.lines (u := (of .rbrace).token) (z := u :: z) he ih (by decide)
    rw [bare, bareAll_eq, map_map]
    simp only [map_append, map_cons, List.append_assoc, cons_append]
    exact .block rfl hlines rfl
  | @declare names inits isConst p hn hi h =>
    intro u z _
    have hread : ∀ i ∈ names.map fun x => (Node.name x.1 x.2, [⟨.identifier, some x.1⟩]), ∀ z,
        Reads .name (i.2.map token ++ z) [i.1.bare] z := forall_mem_map.2 fun x _ z => .name rfl
    have hnames := Reads.commas
      (z := (inits.elim [] fun is => of .assign :: Lexeme.commas (is.map (·.2))).map token ++ u :: z)
      (by simpa using hn) hread
    have hinits : Reads (.opt (.after .assign (.commas .expr)))
        ((inits.elim [] fun is => of .assign :: Lexeme.commas (is.map (·.2))).map token ++ u :: z)
        ((inits.getD []).map (·.1.bare)) (u :: z) := by
      cases inits with
      | none => exact .absent
      | some is => exact .present (.after rfl (.commas (by simpa using hi) fun i hi => (h i hi).reads))
    rw [bare, bareAll_eq, bareOpt_eq, ← given_items hi]
    simp only [map_append, map_cons, List.append_assoc, cons_append, map_map] at hnames ⊢
    cases isConst with
    | true => exact .declare (t := (of .kwConst).token) (by decide) hnames hinits
    | false => exact .declare (t := (of .kwVar).token) (by decide) hnames hinits
  | @branch first more last p hc ht _ hs ih =>
    intro u z hu
    cases last with
    | none =>
      rw [Option.toList_none, append_nil] at ih hs ⊢
      have hend : u.kind ∉ [.kwElif, .kwElse] := fun hm => Bool.noConfusion (hu hm)
      have hclauses := Reads.clauseList (z := z) hc ih ⟨hs, fun c _ hm => absurd hm hend⟩
      simpa [Function.comp_def] using Reads.branch (t := (of .kwIf).token) rfl hclauses hend
    | some d =>
      rw [Option.toList_some, ← cons_append] at ih hs ⊢
      rw [dropLast_concat] at hs
      rw [forall_mem_append, forall_mem_singleton] at ih
      have hclauses := Reads.clauseList (u := (of .kwElse).token) (z := d.bodyPart.map token ++ u :: z) hc ih.1
        ⟨fun c hm => hs c (dropLast_subset _ hm), fun c hm _ => hs c (mem_of_mem_getLast? hm)⟩
      have hbody := (ih.2 u z hu).bodyOf (c := d.colon)
      obtain ⟨q, hq⟩ := ht d rfl
      simpa [hq, Function.comp_def] using Reads.branchElse (t := (of .kwIf).token) rfl hclauses rfl hbody
  | whileLoop hc _ ih =>
    intro u z hu
    obtain ⟨l, hcond, hbody⟩ := Clause.reads (z := z) hc ih hu
    exact .whileLoop rfl hcond hbody
  | @forRange x start stop step colon o body v p q hs he hd _ ih =>
    intro u z hu
    have hbody := (ih u z hu).bodyOf (c := colon)
    have hstep : Reads (.opt (.after .comma .expr))
        ((step.elim [] (of .comma :: ·.2)).map token ++ ((bodyOf colon v).map token ++ u :: z))
        (step.toList.map (·.1.bare)) ((bodyOf colon v).map token ++ u :: z) := by
      cases step with
      | none => exact .absent
      | some i => exact .present (.after rfl ((hd i rfl).reads _))
    simp only [map_append, map_cons, List.append_assoc, cons_append]
    cases step <;> exact .forRange rfl (.name rfl) rfl (hs.reads _) rfl (he.reads _) hstep hbody
  | breakLoop => exact fun u z _ => .breakLoop rfl
  | continueLoop => exact fun u z _ => .continueLoop rfl
  | @assign targets sources p hn ht hn' hs =>
    intro u z _
    simp only [map_append, map_cons, List.append_assoc, cons_append]
    rw [bare, bareAll_eq, bareAll_eq, map_map, map_map]
    exact .assign (.commas hn fun i hi => (ht i hi).reads) rfl (.commas hn' fun i hi => (hs i hi).reads)
  | update hop ht hs =>
    intro u z _
    simp only [map_append, map_cons, List.append_assoc, cons_append]
    exact .update (ht.reads _) hop (hs.reads _)
  | call hc hn h =>
    intro u z _
    simp only [map_append, map_cons, List.append_assoc, cons_append]
    rw [bare, bareOpt_eq, ← given_items hn]
    exact .callStat (.call (.inl rfl) (hc.reads _) rfl (.optCommas fun i hi => (h i hi).reads) rfl)

end TinyScript
