import TinyScript.Layout
import TinyScript.Proofs.Bare
import TinyScript.Proofs.Syntax

/-!
# What the parser builds

`Formed L r n`: the tree `n` is built as the grammar builds a place, a function, a call, an
expression or a statement, from tokens in `L`. Lists that the grammar asks for are not empty, lists
that belong together are of the same length, operators are operators, and no statement of a list is
empty. A clause goes to the nearest `if` that can take it, so that whatever stands before a clause is
shut: no `if` at its right edge could take the clause.

Main statement (`formed_of_parse`): trees of texts are formed, and so they are programs.
-/

namespace TinyScript

open Parse List

variable {n tree : Node} {t : Token} {src : String} {s : Feed}

/-- What a tree is built as. -/
inductive Role
  | place | function | call | expr | stat
deriving DecidableEq

/-- `x` is the text of a token of kind `k`. -/
def TextOf (L : Lexeme → Prop) (k : TokenKind) (x : String) : Prop :=
  ∃ l, L l ∧ l.kind = k ∧ l.text.getD "" = x

namespace Node

mutual

/-- No `if` at the right edge of the statement could take one more clause. -/
def shut : Node → Bool
  | .branch conds bodies _ =>
    2 ≤ conds.length && (conds.getLast?.map Node.isTrue).getD false && shutLast bodies
  | .switch _ _ bodies fallback _ => if fallback.isMissing then shutLast bodies else shut fallback
  | .whileLoop _ body _ => shut body
  | .forRange _ _ _ _ body _ => shut body
  | .forEach _ _ _ body _ => shut body
  | _ => true

def shutLast : List Node → Bool
  | [] => true
  | [n] => shut n
  | _ :: ns => shutLast ns

end

@[simp] theorem shutLast_concat (ns : List Node) (n : Node) : shutLast (ns ++ [n]) = shut n := by
  induction ns with
  | nil => rfl
  | cons m ns ih =>
    rw [cons_append, shutLast, ih]
    simp

/-- A name whose identifier is the text of a token. -/
def NameOf (L : Lexeme → Prop) (n : Node) : Prop := ∃ x p, n = .name x p ∧ TextOf L .identifier x

/-- The tree is built as `r`, from tokens in `L`. -/
inductive Formed (L : Lexeme → Prop) : Role → Node → Prop
  | name {x p} (hx : TextOf L .identifier x) : Formed L .place (.name x p)
  | item {base key p} (hb : Formed L .place base) (hk : Formed L .expr key) :
      Formed L .place (.access base key false p)
  | field {base x p q} (hb : Formed L .place base) (hx : TextOf L .identifier x) :
      Formed L .place (.access base (.string x q) true p)
  | funcDef {params body p} (hne : params ≠ some []) (hp : ∀ x ∈ params.getD [], NameOf L x)
      (he : .empty ∉ body) (hb : ∀ s ∈ body, Formed L .stat s) :
      Formed L .function (.funcDef params false body p)
  | call {r callee args p} (hr : r ∈ [.place, .function]) (hc : Formed L r callee)
      (hne : args ≠ some []) (ha : ∀ a ∈ args.getD [], Formed L .expr a) :
      Formed L .call (.call callee args p)
  | operand {r e} (hr : r ∈ [.place, .function, .call]) (h : Formed L r e) : Formed L .expr e
  | select {cond yes no p} (hc : Formed L .expr cond) (hy : Formed L .expr yes)
      (hn : Formed L .expr no) : Formed L .expr (.select cond yes no p)
  | binary {op left right p} (hop : op ∈ .pow :: Grammar.levels.flatMap (·.ops))
      (ht : ∃ x, TextOf L op x) (hl : Formed L .expr left) (hr : Formed L .expr right) :
      Formed L .expr (.binary op left right p)
  | unary {op operand p} (hop : op ∈ TokenKind.unaries) (ht : ∃ x, TextOf L op x)
      (ho : Formed L .expr operand) : Formed L .expr (.unary op operand p)
  | listOf {items p} (hne : items ≠ some []) (hi : ∀ e ∈ items.getD [], Formed L .expr e) :
      Formed L .expr (.listOf items p)
  | mapOf {keys values p} (hlen : keys.length = values.length) (hk : ∀ e ∈ keys, Formed L .expr e)
      (hv : ∀ e ∈ values, Formed L .expr e) : Formed L .expr (.mapOf keys values p)
  | setOf {items p} (hne : items ≠ []) (hi : ∀ e ∈ items, Formed L .expr e) :
      Formed L .expr (.setOf (some items) p)
  | int {x p} (hx : TextOf L .intLiteral x) : Formed L .expr (.number x true p)
  | float {x p} (hx : TextOf L .floatLiteral x) : Formed L .expr (.number x false p)
  | string {x p} (hx : TextOf L .stringLiteral x) : Formed L .expr (.string x p)
  | bool {k x p} (hk : k ∈ [.kwTrue, .kwFalse]) (hx : TextOf L k x) : Formed L .expr (.bool x p)
  /-- The condition of an `else`. -/
  | otherwise {p} : Formed L .expr (.bool "true" p)
  | null {p} : Formed L .expr (.null p)
  | empty : Formed L .stat .empty
  | block {stats p} (he : .empty ∉ stats) (hs : ∀ s ∈ stats, Formed L .stat s) :
      Formed L .stat (.block stats p)
  | declare {names inits isConst p} (hne : names ≠ []) (hn : ∀ x ∈ names, NameOf L x)
      (hin : inits ≠ some []) (hi : ∀ e ∈ inits.getD [], Formed L .expr e) :
      Formed L .stat (.declare names inits isConst p)
  | branch {conds bodies p} (hlen : conds.length = bodies.length) (hne : conds ≠ [])
      (hc : ∀ e ∈ conds, Formed L .expr e) (hb : ∀ s ∈ bodies, Formed L .stat s)
      (hs : ∀ s ∈ bodies.dropLast, s.shut = true) :
      Formed L .stat (.branch conds bodies p)
  | switch {subject cases bodies fallback p} (hs : Formed L .expr subject)
      (hlen : cases.length = bodies.length) (hne : cases ≠ []) (hc : ∀ e ∈ cases, Formed L .expr e)
      (hb : ∀ s ∈ bodies, Formed L .stat s) (hf : fallback ≠ .missing → Formed L .stat fallback) :
      Formed L .stat (.switch subject cases bodies fallback p)
  | repeatUntil {cond body p} (hc : Formed L .expr cond) (hb : Formed L .stat body) :
      Formed L .stat (.repeatUntil cond body p)
  | whileLoop {cond body p} (hc : Formed L .expr cond) (hb : Formed L .stat body) :
      Formed L .stat (.whileLoop cond body p)
  | forRange {var start stop step body p} (hv : NameOf L var) (hs : Formed L .expr start)
      (he : Formed L .expr stop) (hd : step ≠ .missing → Formed L .expr step)
      (hb : Formed L .stat body) : Formed L .stat (.forRange var start stop step body p)
  | forEach {key val subject body p} (hk : NameOf L key) (hv : val ≠ .missing → NameOf L val)
      (hs : Formed L .expr subject) (hb : Formed L .stat body) :
      Formed L .stat (.forEach key val subject body p)
  | breakLoop {p} : Formed L .stat (.breakLoop p)
  | continueLoop {p} : Formed L .stat (.continueLoop p)
  | returnValue {expr p} (he : expr ≠ .missing → Formed L .expr expr) :
      Formed L .stat (.returnValue expr p)
  | assign {targets sources p} (hne : targets ≠ []) (ht : ∀ e ∈ targets, Formed L .place e)
      (hsn : sources ≠ []) (hs : ∀ e ∈ sources, Formed L .expr e) :
      Formed L .stat (.assign targets sources p)
  | update {op target source p} (hop : op ∈ TokenKind.updates) (ho : ∃ x, TextOf L op x)
      (ht : Formed L .place target) (hs : Formed L .expr source) :
      Formed L .stat (.update op target source p)
  | callStat {c} (h : Formed L .call c) : Formed L .stat c

theorem Formed.isMissing {L : Lexeme → Prop} {r : Role} (h : Formed L r n) : n.isMissing = false := by
  induction h with
  | operand _ _ ih => exact ih
  | callStat _ ih => exact ih
  | _ => rfl

end Node

/-! ### Programs -/

namespace Node

variable {L : Lexeme → Prop} {r : Role} {n : Node}

/-- A tree is an expression or a statement by what it is built as. -/
def Is : Role → Node → Prop
  | .stat => IsStat
  | _ => IsExpr

theorem NameOf.isName (h : NameOf L n) : n.IsName := by
  obtain ⟨x, p, rfl, -⟩ := h
  exact ⟨x, p, rfl⟩

theorem NameOf.formed (h : NameOf L n) : Formed L .place n := by
  obtain ⟨x, p, rfl, hx⟩ := h
  exact .name hx

theorem isExpr_of_is (h : Is r n) (hr : r ≠ .stat) : n.IsExpr := by
  cases r with
  | stat => exact absurd rfl hr
  | _ => exact h

theorem Formed.is (h : Formed L r n) : Is r n := by
  induction h with
  | name => exact .name
  | item _ _ ihb ihk => exact .access ihb ihk
  | field _ _ ihb => exact .access ihb .string
  | funcDef _ hp _ _ ih => exact .funcDef (fun x hx => (hp x hx).isName) ih
  | call hr _ _ _ ihc iha => exact .call (isExpr_of_is ihc (ne_of_mem_of_not_mem hr (by decide))) iha
  | operand hr _ ih => exact isExpr_of_is ih (ne_of_mem_of_not_mem hr (by decide))
  | select _ _ _ ihc ihy ihn => exact .select ihc ihy ihn
  | binary hop _ _ _ ihl ihr =>
    have hall : ∀ op ∈ .pow :: Grammar.levels.flatMap (·.ops), op ∉ TokenKind.updates := by decide
    exact .binary (hall _ hop) ihl ihr
  | unary _ _ _ ih => exact .unary ih
  | listOf _ _ ih => exact .listOf ih
  | mapOf _ _ _ ihk ihv => exact .mapOf ihk ihv
  | setOf _ _ ih => exact .setOf ih
  | int | float => exact .number
  | string => exact .string
  | bool | otherwise => exact .bool
  | null => exact .null
  | empty => exact .empty
  | block _ _ ih => exact .block ih
  | declare _ hn _ _ ih => exact .declare (fun x hx => (hn x hx).isName) ih
  | branch _ _ _ _ _ ihc ihb => exact .branch ihc ihb
  | switch _ _ _ _ _ _ ihs ihc ihb ihf => exact .switch ihs ihc ihb ihf
  | repeatUntil _ _ ihc ihb => exact .repeatUntil ihc ihb
  | whileLoop _ _ ihc ihb => exact .whileLoop ihc ihb
  | forRange hv _ _ _ _ ihs ihe ihd ihb => exact .forRange hv.isName ihs ihe ihd ihb
  | forEach hk hv _ _ ihs ihb => exact .forEach hk.isName (fun h => (hv h).isName) ihs ihb
  | breakLoop => exact .breakLoop
  | continueLoop => exact .continueLoop
  | returnValue _ ih => exact .returnValue ih
  | assign _ _ _ _ iht ihs => exact .assign iht ihs
  | update _ _ _ _ iht ihs => exact .update iht ihs
  | callStat h ih =>
    cases h with
    | call =>
      cases ih with
      | call hc ha => exact .call hc ha

end Node

/-! ### Trees that are read -/

namespace Node

variable {L : Lexeme → Prop} {p : Piece} {l l' : List Token} {ns : List Node}
variable {word : TokenKind} {cs bs : List Node}

/-- The next token begins a clause of an `if`. -/
def BeforeClause (l : List Token) : Prop := ∃ t ∈ l.head?, t.kind ∈ [.kwElif, .kwElse]

/-- The tree is a statement, and shut before a clause. -/
def StatBefore (L : Lexeme → Prop) (l : List Token) (x : Node) : Prop :=
  Formed L .stat x ∧ (BeforeClause l → x.shut = true)

/-- The clauses are formed, and the last of them is shut before a clause; all others are shut if the
clauses are those of an `if`. -/
structure Clauses (L : Lexeme → Prop) (word : TokenKind) (cs bs : List Node) (l : List Token) :
    Prop where
  length : cs.length = bs.length
  ne : cs ≠ []
  conds : ∀ e ∈ cs, Formed L .expr e
  bodies : ∀ x ∈ bs, Formed L .stat x
  last : BeforeClause l → shutLast bs = true
  inner : word = .kwElif → ∀ x ∈ bs.dropLast, x.shut = true

theorem Clauses.shut (h : Clauses L word cs bs l) (hword : word = .kwElif) (hk : BeforeClause l) :
    ∀ x ∈ bs, x.shut = true := by
  have hlast := h.last hk
  have hinner := h.inner hword
  rcases eq_nil_or_concat bs with rfl | ⟨xs, x, rfl⟩
  · simp
  · rw [concat_eq_append] at hlast hinner ⊢
    rw [shutLast_concat] at hlast
    rw [dropLast_concat] at hinner
    exact forall_mem_append.2 ⟨hinner, forall_mem_singleton.2 hlast⟩

theorem Clauses.concat {c b : Node} (h : Clauses L word cs bs (t :: l)) (hk : t.kind = word)
    (hc : Formed L .expr c) (hb : StatBefore L l' b) : Clauses L word (cs ++ [c]) (bs ++ [b]) l' where
  length := by simp [h.length]
  ne := by simp
  conds := forall_mem_append.2 ⟨h.conds, forall_mem_singleton.2 hc⟩
  bodies := forall_mem_append.2 ⟨h.bodies, forall_mem_singleton.2 hb.1⟩
  last := by simpa using hb.2
  inner hw := by
    rw [dropLast_concat]
    exact h.shut hw ⟨t, rfl, by simp [hk, hw]⟩

/-- The list is one tree with the property. -/
def Alone (P : Node → Prop) : List Node → Prop
  | [n] => P n
  | _ => False

end Node

namespace Piece

open Node

variable {L : Lexeme → Prop} {p : Piece} {l l' : List Token} {ns : List Node}
variable {P : Node → Prop}

/-- What is known of trees that are read as a piece, where `l` is left. -/
def Forms (L : Lexeme → Prop) : Piece → List Node → List Token → Prop
  | .name, ns, _ => Alone (NameOf L) ns
  | .place, ns, _ => Alone (Formed L .place) ns
  | .function, ns, _ => Alone (Formed L .function) ns
  | .call, ns, _ => Alone (Formed L .call) ns
  | .primary, ns, _ | .unary, ns, _ | .expr, ns, _ => Alone (Formed L .expr) ns
  | .stat, ns, l | .body, ns, l => Alone (StatBefore L l) ns
  | .stats, ns, _ => .empty ∉ ns ∧ ∀ x ∈ ns, Formed L .stat x
  | .token _, _, _ => True
  | .after _ p, ns, l => Forms L p ns l
  | .opt p, ns, l => ns = [] ∨ Forms L p ns l
  | .commas p, ns, _ => ∀ n ∈ ns, ∃ l, Forms L p [n] l
  | .chain ops p, ns, _ | .once ops p, ns, _ =>
    ops ⊆ .pow :: Grammar.levels.flatMap (·.ops) →
      (∀ n l, Forms L p [n] l → Formed L .expr n) → Alone (Formed L .expr) ns
  | .entries keys, ns, _ =>
    keys.length = ns.length ∧ (∀ e ∈ keys, Formed L .expr e) ∧ ∀ e ∈ ns, Formed L .expr e
  | .clauses word conds, ns, l => Clauses L word conds ns l

theorem Forms.tower {ls : List Grammar.Level} (hls : ls ⊆ Grammar.levels) (h : Forms L (.tower ls) [n] l) :
    Formed L .expr n := by
  induction ls generalizing n l with
  | nil => exact h
  | cons level ls ih =>
    rw [cons_subset] at hls
    have hops : level.ops ⊆ .pow :: Grammar.levels.flatMap (·.ops) := fun op hop =>
      mem_cons_of_mem _ (mem_flatMap.2 ⟨level, hls.1, hop⟩)
    unfold Piece.tower at h
    split at h
    · exact h hops fun n l h => ih hls.2 h
    · exact h hops fun n l h => ih hls.2 h

theorem Forms.given (h : Forms L (.opt p) ns l) (hP : Forms L p ns l → ∀ n ∈ ns, P n) :
    ∀ n ∈ (given ns).getD [], P n := by
  rw [getD_given]
  rcases h with rfl | h
  · simp
  · exact hP h

theorem Forms.headD (h : Forms L (.opt p) ns l) (hP : Forms L p ns l → Alone P ns) :
    ns.headD .missing ≠ .missing → P (ns.headD .missing) := by
  intro hne
  rcases h with rfl | h
  · exact absurd rfl hne
  · rcases ns with _ | ⟨n, _ | ⟨m, ns⟩⟩
    · exact (hP h).elim
    · exact hP h
    · exact (hP h).elim

end Piece

/-- All tokens are in `L`. -/
def AllIn (L : Lexeme → Prop) (l : List Token) : Prop := ∀ t ∈ l, L t.lexeme

section

open Node

variable {L : Lexeme → Prop} {p : Piece} {l l' : List Token} {ns : List Node} {t : Token}

theorem AllIn.text (h : AllIn L (t :: l)) {k : TokenKind} (hk : t.kind = k) :
    TextOf L k (t.text.getD "") := ⟨t.lexeme, h t mem_cons_self, hk, rfl⟩

theorem AllIn.tail (h : AllIn L (t :: l)) : AllIn L l := fun u hu => h u (mem_cons_of_mem t hu)

theorem AllIn.after (h : AllIn L l) (hr : Reads p l ns l') : AllIn L l' :=
  fun u hu => h u (hr.suffix.subset hu)

/-- Trees that are read from tokens in `L` are formed. -/
theorem forms_of_reads (h : Reads p l ns l') (hl : AllIn L l) : p.Forms L ns l' := by
  induction h with
  | token => trivial
  | after _ _ ih => exact ih hl.tail
  | absent => exact .inl rfl
  | present _ ih => exact .inr (ih hl)
  | one _ ih => exact forall_mem_singleton.2 ⟨_, ih hl⟩
  | more h _ _ ih ihx =>
    exact forall_mem_append.2 ⟨ih hl, forall_mem_singleton.2 ⟨_, ihx (hl.after h).tail⟩⟩
  -- places and functions
  | name ht => exact ⟨_, _, rfl, hl.text ht⟩
  | base _ ih => exact NameOf.formed (ih hl)
  | item hb _ _ _ ihb ihk => exact .item (ihb hl) (ihk (hl.after hb).tail)
  | field hb _ hu ih => exact .field (ih hl) ((hl.after hb).tail.text hu)
  | function _ hp _ _ _ _ ihp ihb =>
    have hps := (ihp hl.tail).given fun h n hn => (h n hn).elim fun _ h => h
    obtain ⟨he, hs⟩ := ihb (hl.tail.after hp).tail.tail
    exact .funcDef (given_ne _) hps he hs
  | call hp hf _ _ _ ihf iha =>
    have has := (iha (hl.after hf).tail).given fun h n hn => (h n hn).elim fun _ h => h
    rcases hp with rfl | rfl
    · exact .call (r := .place) (by decide) (ihf hl) (given_ne _) has
    · exact .call (r := .function) (by decide) (ihf hl) (given_ne _) has
  -- operands
  | int ht => exact .int (hl.text ht)
  | float ht => exact .float (hl.text ht)
  | string ht => exact .string (hl.text ht)
  | bool ht => exact .bool ht (hl.text rfl)
  | null => exact .null
  | paren _ _ _ ih => exact ih hl.tail
  | listOf _ _ _ ih =>
    exact .listOf (given_ne _) ((ih hl.tail).given fun h n hn => (h n hn).elim fun _ h => h)
  | mapNone => exact .mapOf rfl (by simp) (by simp)
  | mapOf _ _ _ ih =>
    obtain ⟨hlen, hk, hv⟩ := ih hl.tail
    exact .mapOf hlen hk hv
  | setOf _ he _ ih => exact .setOf he.ne_nil fun n hn => (ih hl.tail n hn).elim fun _ h => h
  | operand hp _ ih =>
    rcases hp with rfl | rfl | rfl
    · exact .operand (r := .place) (by decide) (ih hl)
    · exact .operand (r := .function) (by decide) (ih hl)
    · exact .operand (r := .call) (by decide) (ih hl)
  | entry hk _ _ ihk ihv =>
    exact ⟨rfl, forall_mem_singleton.2 (ihk hl),
      forall_mem_singleton.2 (ihv (hl.after hk).tail)⟩
  | entries h _ hk _ _ ih ihk ihv =>
    have hl₁ := (hl.after h).tail
    obtain ⟨hlen, hks, hvs⟩ := ih hl
    exact ⟨by simp [hlen], forall_mem_append.2 ⟨hks, forall_mem_singleton.2 (ihk hl₁)⟩,
      forall_mem_append.2 ⟨hvs, forall_mem_singleton.2 (ihv (hl₁.after hk).tail)⟩⟩
  -- operators
  | first _ ih | lone _ ih => exact fun _ hp => hp _ _ (ih hl)
  | next ha ht _ iha ihb | compare ha ht _ iha ihb =>
    intro hops hp
    have hl₁ := hl.after ha
    refine .binary (hops ht) ⟨_, hl₁.text rfl⟩ ?_ (hp _ _ (ihb hl₁.tail))
    first | exact iha hl hops hp | exact hp _ _ (iha hl)
  | unsigned _ ih => exact ih hl (by decide) fun _ _ h => h
  | signed ht _ ih => exact .unary ht ⟨_, hl.text rfl⟩ (ih hl.tail)
  | plain _ ih => exact (ih hl).tower (List.Subset.refl _)
  | select hc _ hy _ _ ihc ihy ihn =>
    have hl₁ := (hl.after hc).tail
    exact .select ((ihc hl).tower (List.Subset.refl _)) (ihy hl₁) (ihn (hl₁.after hy).tail)
  -- statements
  | done => exact ⟨by simp, by simp⟩
  | line h _ ih ihs =>
    obtain ⟨he, hss⟩ := ih hl
    split
    · exact ⟨he, hss⟩
    · rename_i hne
      refine ⟨?_, forall_mem_append.2 ⟨hss, forall_mem_singleton.2 (ihs (hl.after h)).1⟩⟩
      rw [mem_append, not_or, mem_singleton]
      exact ⟨he, fun h => hne (h ▸ rfl)⟩
  | body hk _ _ ihb => exact ihb (hl.after hk)
  | clause hc _ ihc ihb =>
    have hb := ihb (hl.after hc)
    exact ⟨rfl, cons_ne_nil _ _, forall_mem_singleton.2 (ihc hl),
      forall_mem_singleton.2 hb.1, hb.2, by simp⟩
  | clauses h ht hc _ ih ihc ihb =>
    have hl₁ := (hl.after h).tail
    exact (ih hl).concat ht (ihc hl₁) (ihb (hl₁.after hc))
  | empty => exact ⟨.empty, fun _ => rfl⟩
  | block _ _ _ ih =>
    obtain ⟨he, hs⟩ := ih hl.tail
    exact ⟨.block he hs, fun _ => rfl⟩
  | declare _ hn _ ihn ihi =>
    have his := (ihi (hl.tail.after hn)).given fun h n hn => (h n hn).elim fun _ h => h
    refine ⟨.declare hn.ne_nil (fun n hn => ?_) (given_ne _) his, fun _ => rfl⟩
    exact (ihn hl.tail n hn).elim fun _ h => h
  | branch _ _ hu ihc =>
    have hc := ihc hl.tail
    refine ⟨.branch hc.length hc.ne hc.conds hc.bodies (hc.inner rfl), ?_⟩
    rintro ⟨t, ⟨⟩, ht⟩
    exact absurd ht hu
  | branchElse _ hc hu _ ihc ihb =>
    have hcs := ihc hl.tail
    have hb := ihb (hl.tail.after hc).tail
    have hpos := length_pos_iff.2 hcs.ne
    refine ⟨.branch (by simp [hcs.length]) (by simp) ?_ ?_ ?_, fun hk => ?_⟩
    · exact forall_mem_append.2 ⟨hcs.conds, forall_mem_singleton.2 .otherwise⟩
    · exact forall_mem_append.2 ⟨hcs.bodies, forall_mem_singleton.2 hb.1⟩
    · rw [dropLast_concat]
      exact hcs.shut rfl ⟨_, rfl, by simp [hu]⟩
    · simpa [Node.shut, Node.isTrue, hb.2 hk] using Nat.succ_le_of_lt hpos
  | switch _ he hk _ _ _ ihe _ ihc =>
    have hcs := ihc ((hl.tail.after he).after hk).tail
    refine ⟨.switch (ihe hl.tail) hcs.length hcs.ne hcs.conds hcs.bodies ?_, fun hk => ?_⟩
    · exact fun hne => absurd rfl hne
    · simpa [Node.shut, Node.isMissing] using hcs.last hk
  | switchDefault _ he hk _ hc _ _ ihe _ ihc ihb =>
    have hl₁ := ((hl.tail.after he).after hk).tail
    have hcs := ihc hl₁
    have hb := ihb (hl₁.after hc).tail
    refine ⟨.switch (ihe hl.tail) hcs.length hcs.ne hcs.conds hcs.bodies fun _ => hb.1, fun hk => ?_⟩
    simpa [Node.shut, hb.1.isMissing] using hb.2 hk
  | repeatUntil _ hb _ _ ihb ihc =>
    exact ⟨.repeatUntil (ihc (hl.tail.after hb).tail) (ihb hl.tail).1, fun _ => rfl⟩
  | whileLoop _ hc _ ihc ihb =>
    have hb := ihb (hl.tail.after hc)
    exact ⟨.whileLoop (ihc hl.tail) hb.1, hb.2⟩
  | forRange _ hx _ hs _ he hd _ ihx ihs ihe ihd ihb =>
    have hl₁ := (hl.tail.after hx).tail
    have hl₂ := (hl₁.after hs).tail
    have hl₃ := hl₂.after he
    have hb := ihb (hl₃.after hd)
    exact ⟨.forRange (ihx hl.tail) (ihs hl₁) (ihe hl₂) ((ihd hl₃).headD id) hb.1, hb.2⟩
  | forEach _ hx hy _ he _ ihx ihy ihe ihb =>
    have hl₁ := hl.tail.after hx
    have hl₂ := (hl₁.after hy).tail
    have hb := ihb (hl₂.after he)
    exact ⟨.forEach (ihx hl.tail) ((ihy hl₁).headD id) (ihe hl₂) hb.1, hb.2⟩
  | breakLoop => exact ⟨.breakLoop, fun _ => rfl⟩
  | continueLoop => exact ⟨.continueLoop, fun _ => rfl⟩
  | funcStat _ hx _ ihx ihf =>
    have hf := Formed.operand (r := .function) (by decide) (ihf (hl.tail.after hx))
    exact ⟨.declare (cons_ne_nil _ _) (forall_mem_singleton.2 (ihx hl.tail)) (by simp)
      (forall_mem_singleton.2 hf), fun _ => rfl⟩
  | returnNone => exact ⟨.returnValue fun h => absurd rfl h, fun _ => rfl⟩
  | returnValue _ _ ih => exact ⟨.returnValue fun _ => ih hl.tail, fun _ => rfl⟩
  | assign ha _ he iha ihe =>
    refine ⟨.assign ha.ne_nil (fun n hn => ?_) he.ne_nil fun n hn => ?_, fun _ => rfl⟩
    · exact (iha hl n hn).elim fun _ h => h
    · exact (ihe (hl.after ha).tail n hn).elim fun _ h => h
  | update ha ht _ iha ihe =>
    have hl₁ := hl.after ha
    exact ⟨.update ht ⟨_, hl₁.text rfl⟩ (iha hl) (ihe hl₁.tail), fun _ => rfl⟩
  | callStat _ ih =>
    have hc := ih hl
    refine ⟨.callStat hc, fun _ => ?_⟩
    cases hc
    rfl

end

/-! ### Whole texts -/

/-- The token is the end, or some text spells it. -/
def Lexeme.Scanned (l : Lexeme) : Prop :=
  l.kind = .eof ∨ ∃ span rest, Scan.Spells span l rest ∧ Scan.gapLength (span ++ rest) = 0

namespace Scan

theorem scanned_of_tokens (c : Cursor) : ∀ t ∈ (tokens c).1, t.lexeme.Scanned := by
  have scanned : ∀ {c c' t}, token c = .ok t c' → t.lexeme.Scanned := by
    rintro ⟨cs, p⟩ c' t h
    cases token_eq_ok_iff.1 h with
    | token _ hs h₀ => exact .inr ⟨_, _, hs, h₀⟩
    | eof _ => exact .inl rfl
  fun_induction tokens c with
  | case1 => simp
  | case2 c t c' h => simpa using scanned h
  | case3 c t c' h _ _ _ ih => exact forall_mem_cons.2 ⟨scanned h, ih⟩
  | case4 c t c' h => simpa using scanned h

/-- The end is the token of a text that is read to its end. -/
theorem tokens_stop_of_eof (c : Cursor) (ht : t ∈ (tokens c).1) (hk : t.kind = .eof) :
    (tokens c).2 = none := by
  fun_induction tokens c with
  | case1 => simp at ht
  | case2 => rfl
  | case3 c t' c' h hne _ _ ih =>
    rcases mem_cons.1 ht with rfl | ht
    · exact absurd hk hne
    · exact ih ht
  | case4 => rfl

end Scan

theorem scanned_of_tokenize (src : String) : ∀ t ∈ (tokenize src).1, t.lexeme.Scanned := by
  rw [tokenize_eq]
  split
  · simp
  · exact Scan.scanned_of_tokens _

/-- The tokens of a feed are those of its text, which is not empty. -/
theorem tokens_of_feed (h : Feed.ofSource src = .ok s) :
    tokenize src = (s.tokens, s.stop) ∧ Scan.tokens (.start src) = (s.tokens, s.stop) := by
  have htok : tokenize src = (s.tokens, s.stop) := by
    unfold Feed.ofSource at h
    generalize tokenize src = ts at h ⊢
    rcases ts with ⟨_ | ⟨t, ts⟩, stop⟩
    · cases stop <;> cases h
    · cases h
      rfl
  refine ⟨htok, ?_⟩
  rw [tokenize_eq] at htok
  split at htok
  · cases congrArg Prod.fst htok
  · exact htok

theorem scanned_of_feed (h : Feed.ofSource src = .ok s) : ∀ l ∈ s.lexemes, l.Scanned := by
  have hts := scanned_of_tokenize src
  rw [(tokens_of_feed h).1] at hts
  exact forall_mem_map.2 hts

theorem allIn_of_source (h : Feed.ofSource src = .ok s) : AllIn Lexeme.Scanned s.tokens :=
  forall_mem_map.1 (scanned_of_feed h)

theorem proper_of_source (h : Feed.ofSource src = .ok s) : s.Proper := by
  intro hstop
  have htok := (tokens_of_feed h).2
  rw [hstop] at htok
  obtain ⟨us, c, -, -, hus⟩ := Scan.passes_of_tokens htok
  have hk : s.kinds = s.tokens.map (·.kind) := rfl
  simp [hk, hus]

theorem formed_of_run {s' : Feed} {e : Node} (hs : Feed.ofSource src = .ok s)
    (hrun : Parse.run (fun n => (Grammar.rules n).expr) s = .ok e s') :
    Node.Formed Lexeme.Scanned .expr e := by
  obtain ⟨-, hread⟩ := ((Grammar.read_rules _).expr s).of_ok (proper_of_source hs) hrun
  exact forms_of_reads hread (allIn_of_source hs)

/-- What a program is made of. -/
structure FormedProgram (stats : List Node) : Prop where
  empty : .empty ∉ stats
  formed : ∀ x ∈ stats, Node.Formed Lexeme.Scanned .stat x

/-- The statements of a text are read from its tokens up to the end. -/
theorem reads_of_parse (h : parse src = .ok tree) :
    ∃ stats ts t ts', tree = .program stats ∧ tokenize src = (ts, none) ∧ AllIn Lexeme.Scanned ts ∧
      t.kind = .eof ∧ Reads .stats ts stats (t :: ts') := by
  unfold parse at h
  split at h
  · cases h
  · rename_i s hs
    split at h
    · rename_i tree' s' hrun
      cases h
      obtain ⟨stats, rfl, hlist, hk⟩ := Grammar.whole_eq_ok.1 hrun
      have hlists := Grammar.parsesAll_statList (Grammar.read_rules (Grammar.fuelFor s)) s
      obtain ⟨hsuffix, hread⟩ := hlists.of_ok (proper_of_source hs) hlist
      obtain ⟨htok, hscan⟩ := tokens_of_feed hs
      have hstop := Scan.tokens_stop_of_eof (t := s'.current) (.start src)
      rw [hscan] at hstop
      have hnone : s.stop = none := hstop (hsuffix.subset mem_cons_self) hk
      exact ⟨stats, s.tokens, _, _, rfl, hnone ▸ htok, allIn_of_source hs, hk, hread⟩
    · cases h

/-- A text that has a tree is read to its end, and its tree is built as the grammar builds trees. -/
theorem formed_of_parse (h : parse src = .ok tree) :
    (tokenize src).2 = none ∧ ∃ stats, tree = .program stats ∧ FormedProgram stats := by
  obtain ⟨stats, ts, t, ts', rfl, htok, hts, -, hread⟩ := reads_of_parse h
  obtain ⟨he, hstats⟩ := forms_of_reads hread hts
  exact ⟨congrArg Prod.snd htok, stats, rfl, he, hstats⟩

/-- What the parser builds is a program. -/
theorem isProgram_of_parse (h : parse src = .ok tree) : tree.IsProgram := by
  obtain ⟨-, stats, rfl, -, hstats⟩ := formed_of_parse h
  exact ⟨stats, rfl, fun x hx => (hstats x hx).is⟩

end TinyScript
