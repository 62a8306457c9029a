import TinyScript.Grammar

/-!
# What the parser reads

`Reads p l ns l'`: from the tokens `l` the trees `ns` can be read as a piece `p` of a text, with `l'` left.
The trees have the places of tokens that are read for them, with one exception: a function that is declared
has the place of the token after it. Where clauses may follow a statement, an `if` takes them all.

Main statement (`read_rules`): rules read the pieces they are named for, or report an issue. Running out of
fuel is neither of the two, so that as much fuel as there are tokens is enough.
-/

namespace TinyScript

open List

/-! ### Feeds -/

namespace Feed

/-- The kinds of the tokens that are left, the current one first. -/
def kinds (s : Feed) : List TokenKind := s.current.kind :: s.rest.map (·.kind)

/-- There is one end token, the last one, and reading does not fail before it. -/
structure Closed (s : Feed) : Prop where
  stop : s.stop = none
  ends : ∃ ks, s.kinds = ks ++ [.eof] ∧ .eof ∉ ks

/-- The last token is the end token, unless reading fails after it. -/
def Proper (s : Feed) : Prop := s.stop = none → s.kinds.getLast? = some .eof

/-- How parsing is given up: with an issue that the parser reports, or with the failure after the last
token. -/
def Rejects (s : Feed) (i : Halt) : Prop :=
  (∃ r, i = .failed (.report r) ∧ r.stage = .parser) ∨ ∃ f, s.stop = some f ∧ i = .failed f

variable {s : Feed} {t : Token} {ts : List Token}

theorem Closed.proper (hs : s.Closed) : s.Proper := by
  intro _
  obtain ⟨ks, hks, -⟩ := hs.ends
  rw [hks, getLast?_concat]

theorem exists_kinds (h : (t :: ts) <:+ (s.current :: s.rest)) :
    ∃ ks, s.kinds = ks ++ kinds ⟨t, ts, s.stop⟩ := by
  obtain ⟨w, hw⟩ := h
  exact ⟨w.map (·.kind), by simpa [kinds] using (congrArg (List.map (·.kind)) hw).symm⟩

theorem Proper.suffix (hs : s.Proper) (h : (t :: ts) <:+ (s.current :: s.rest)) :
    Proper ⟨t, ts, s.stop⟩ := by
  intro hstop
  obtain ⟨ks, hks⟩ := exists_kinds h
  have hlast := hs hstop
  rw [hks, getLast?_append] at hlast
  simpa [kinds, getLast?_cons] using hlast

theorem Closed.suffix (hs : s.Closed) (h : (t :: ts) <:+ (s.current :: s.rest)) :
    Closed ⟨t, ts, s.stop⟩ := by
  obtain ⟨ks, hks⟩ := exists_kinds h
  obtain ⟨ks', hks', hne⟩ := hs.ends
  have hlast := hs.proper.suffix h hs.stop
  obtain ⟨us, hus⟩ := getLast?_eq_some_iff.1 hlast
  refine ⟨hs.stop, us, hus, fun hm => hne ?_⟩
  rw [hus, ← List.append_assoc, hks'] at hks
  rw [append_cancel_right hks]
  exact mem_append_right _ hm

end Feed

/-! ### Pieces of a text -/

/-- What a list of trees is read as. -/
inductive Piece
  | name | place | function | call | primary | unary | expr | stat
  /-- The body of a clause or loop, after a colon or not. -/
  | body
  | stats
  | token (k : TokenKind)
  | after (k : TokenKind) (p : Piece)
  | opt (p : Piece)
  | commas (p : Piece)
  /-- Operands with operators between them. -/
  | chain (ops : List TokenKind) (p : Piece)
  /-- One operand, or two with an operator between them. -/
  | once (ops : List TokenKind) (p : Piece)
  /-- The entries of a map with the given keys; the trees are the values. -/
  | entries (keys : List Node)
  /-- Clauses with the given conditions, from the first condition on; the trees are the bodies. -/
  | clauses (word : TokenKind) (conds : List Node)

namespace Piece

def power : Piece := .chain [.pow] .primary

/-- An expression of the given levels of binary operators. -/
def tower : List Grammar.Level → Piece
  | [] => .unary
  | l :: ls => if l.chained then .chain l.ops (tower ls) else .once l.ops (tower ls)

/-- A function together with its keyword. -/
def lambda : Piece := .after .kwFunc .function

end Piece

/-- A list that is left out if it is empty. -/
def given : List Node → Option (List Node)
  | [] => none
  | ns => some ns

theorem given_of_ne_nil {ns : List Node} (h : ns ≠ []) : given ns = some ns := by
  cases ns with
  | nil => exact absurd rfl h
  | cons n ns => rfl

theorem getD_given (ns : List Node) : (given ns).getD [] = ns := by cases ns <;> rfl

theorem given_ne (ns : List Node) : given ns ≠ some [] := by cases ns <;> simp [given]

inductive Reads : Piece → List Token → List Node → List Token → Prop
  | token {k t l} (ht : t.kind = k) : Reads (.token k) (t :: l) [] l
  | after {k t p l ns l'} (ht : t.kind = k) (h : Reads p l ns l') : Reads (.after k p) (t :: l) ns l'
  | absent {p l} : Reads (.opt p) l [] l
  | present {p l ns l'} (h : Reads p l ns l') : Reads (.opt p) l ns l'
  | one {p l x l'} (h : Reads p l [x] l') : Reads (.commas p) l [x] l'
  | more {p l xs t l₁ x l'} (h : Reads (.commas p) l xs (t :: l₁)) (ht : t.kind = .comma)
      (hx : Reads p l₁ [x] l') : Reads (.commas p) l (xs ++ [x]) l'
  -- places and functions
  | name {t l} (ht : t.kind = .identifier) : Reads .name (t :: l) [.name (t.text.getD "") t.pos] l
  | base {l x l'} (h : Reads .name l [x] l') : Reads .place l [x] l'
  | item {l b t l₁ k u l'} (hb : Reads .place l [b] (t :: l₁)) (ht : t.kind = .lbrack)
      (hk : Reads .expr l₁ [k] (u :: l')) (hu : u.kind = .rbrack) :
      Reads .place l [.access b k false t.pos] l'
  | field {l b t u l'} (hb : Reads .place l [b] (t :: u :: l')) (ht : t.kind = .dot)
      (hu : u.kind = .identifier) :
      Reads .place l [.access b (.string (u.text.getD "") u.pos) true t.pos] l'
  | function {t l ps u v l₁ body w l'} (ht : t.kind = .lparen)
      (hp : Reads (.opt (.commas .name)) l ps (u :: v :: l₁)) (hu : u.kind = .rparen)
      (hv : v.kind = .lbrace) (hb : Reads .stats l₁ body (w :: l')) (hw : w.kind = .rbrace) :
      Reads .function (t :: l) [.funcDef (given ps) false body t.pos] l'
  | call {p l f t l₁ as u l'} (hp : p = .place ∨ p = .lambda) (hf : Reads p l [f] (t :: l₁))
      (ht : t.kind = .lparen) (ha : Reads (.opt (.commas .expr)) l₁ as (u :: l'))
      (hu : u.kind = .rparen) : Reads .call l [.call f (given as) t.pos] l'
  -- operands
  | int {t l} (ht : t.kind = .intLiteral) : Reads .primary (t :: l) [.number (t.text.getD "") true t.pos] l
  | float {t l} (ht : t.kind = .floatLiteral) :
      Reads .primary (t :: l) [.number (t.text.getD "") false t.pos] l
  | string {t l} (ht : t.kind = .stringLiteral) : Reads .primary (t :: l) [.string (t.text.getD "") t.pos] l
  | bool {t l} (ht : t.kind ∈ [.kwTrue, .kwFalse]) :
      Reads .primary (t :: l) [.bool (t.text.getD "") t.pos] l
  | null {t l} (ht : t.kind = .kwNull) : Reads .primary (t :: l) [.null t.pos] l
  | paren {t l e u l'} (ht : t.kind = .lparen) (he : Reads .expr l [e] (u :: l'))
      (hu : u.kind = .rparen) : Reads .primary (t :: l) [e] l'
  | listOf {t l es u l'} (ht : t.kind = .lbrack) (he : Reads (.opt (.commas .expr)) l es (u :: l'))
      (hu : u.kind = .rbrack) : Reads .primary (t :: l) [.listOf (given es) t.pos] l'
  | mapNone {t u l} (ht : t.kind = .lbrace) (hu : u.kind = .rbrace) :
      Reads .primary (t :: u :: l) [.mapOf [] [] t.pos] l
  | mapOf {t l ks vs u l'} (ht : t.kind = .lbrace) (he : Reads (.entries ks) l vs (u :: l'))
      (hu : u.kind = .rbrace) : Reads .primary (t :: l) [.mapOf ks vs t.pos] l'
  | setOf {t l es u l'} (ht : t.kind = .lbrace) (he : Reads (.commas .expr) l es (u :: l'))
      (hu : u.kind = .rbrace) : Reads .primary (t :: l) [.setOf (some es) t.pos] l'
  | operand {p l e l'} (hp : p = .place ∨ p = .lambda ∨ p = .call) (h : Reads p l [e] l') :
      Reads .primary l [e] l'
  | entry {l k t l₁ v l'} (hk : Reads .expr l [k] (t :: l₁)) (ht : t.kind = .colon)
      (hv : Reads .expr l₁ [v] l') : Reads (.entries [k]) l [v] l'
  | entries {ks l vs t l₁ k u l₂ v l'} (h : Reads (.entries ks) l vs (t :: l₁)) (ht : t.kind = .comma)
      (hk : Reads .expr l₁ [k] (u :: l₂)) (hu : u.kind = .colon) (hv : Reads .expr l₂ [v] l') :
      Reads (.entries (ks ++ [k])) l (vs ++ [v]) l'
  -- operators
  | first {ops p l e l'} (h : Reads p l [e] l') : Reads (.chain ops p) l [e] l'
  | next {ops p l a t l₁ b l'} (ha : Reads (.chain ops p) l [a] (t :: l₁)) (ht : t.kind ∈ ops)
      (hb : Reads p l₁ [b] l') : Reads (.chain ops p) l [.binary t.kind a b t.pos] l'
  | lone {ops p l e l'} (h : Reads p l [e] l') : Reads (.once ops p) l [e] l'
  | compare {ops p l a t l₁ b l'} (ha : Reads p l [a] (t :: l₁)) (ht : t.kind ∈ ops)
      (hb : Reads p l₁ [b] l') : Reads (.once ops p) l [.binary t.kind a b t.pos] l'
  | unsigned {l e l'} (h : Reads .power l [e] l') : Reads .unary l [e] l'
  | signed {t l e l'} (ht : t.kind ∈ TokenKind.unaries) (h : Reads .unary l [e] l') :
      Reads .unary (t :: l) [.unary t.kind e t.pos] l'
  | plain {l e l'} (h : Reads (.tower Grammar.levels) l [e] l') : Reads .expr l [e] l'
  | select {l c t l₁ y u l₂ n l'} (hc : Reads (.tower Grammar.levels) l [c] (t :: l₁))
      (ht : t.kind = .query) (hy : Reads .expr l₁ [y] (u :: l₂)) (hu : u.kind = .colon)
      (hn : Reads .expr l₂ [n] l') : Reads .expr l [.select c y n t.pos] l'
  -- statements
  | done {l} : Reads .stats l [] l
  | line {l ss l₁ s l'} (h : Reads .stats l ss l₁) (hs : Reads .stat l₁ [s] l') :
      Reads .stats l (if s.isEmpty then ss else ss ++ [s]) l'
  | body {l l₁ b l'} (hk : Reads (.opt (.token .colon)) l [] l₁) (hb : Reads .stat l₁ [b] l') :
      Reads .body l [b] l'
  | clause {word l c l₁ b l'} (hc : Reads .expr l [c] l₁) (hb : Reads .body l₁ [b] l') :
      Reads (.clauses word [c]) l [b] l'
  | clauses {word cs l bs t l₁ c l₂ b l'} (h : Reads (.clauses word cs) l bs (t :: l₁))
      (ht : t.kind = word) (hc : Reads .expr l₁ [c] l₂) (hb : Reads .body l₂ [b] l') :
      Reads (.clauses word (cs ++ [c])) l (bs ++ [b]) l'
  | empty {t l} (ht : t.kind = .semi) : Reads .stat (t :: l) [.empty] l
  | block {t l ss u l'} (ht : t.kind = .lbrace) (hs : Reads .stats l ss (u :: l'))
      (hu : u.kind = .rbrace) : Reads .stat (t :: l) [.block ss t.pos] l'
  | declare {t l ns l₁ es l'} (ht : t.kind ∈ [.kwVar, .kwConst]) (hn : Reads (.commas .name) l ns l₁)
      (hi : Reads (.opt (.after .assign (.commas .expr))) l₁ es l') :
      Reads .stat (t :: l) [.declare ns (given es) (t.kind = .kwConst) t.pos] l'
  | branch {t l cs bs u l'} (ht : t.kind = .kwIf) (hc : Reads (.clauses .kwElif cs) l bs (u :: l'))
      (hu : u.kind ∉ [.kwElif, .kwElse]) : Reads .stat (t :: l) [.branch cs bs t.pos] (u :: l')
  | branchElse {t l cs bs u l₁ b l'} (ht : t.kind = .kwIf)
      (hc : Reads (.clauses .kwElif cs) l bs (u :: l₁)) (hu : u.kind = .kwElse)
      (hb : Reads .body l₁ [b] l') :
      Reads .stat (t :: l) [.branch (cs ++ [.bool "true" u.pos]) (bs ++ [b]) t.pos] l'
  | switch {t l e l₁ u l₂ cs bs v l'} (ht : t.kind = .kwSwitch) (he : Reads .expr l [e] l₁)
      (hk : Reads (.opt (.token .colon)) l₁ [] (u :: l₂)) (hu : u.kind = .kwCase)
      (hc : Reads (.clauses .kwCase cs) l₂ bs (v :: l')) (hv : v.kind ∉ [.kwCase, .kwDefault]) :
      Reads .stat (t :: l) [.switch e cs bs .missing t.pos] (v :: l')
  | switchDefault {t l e l₁ u l₂ cs bs v l₃ f l'} (ht : t.kind = .kwSwitch) (he : Reads .expr l [e] l₁)
      (hk : Reads (.opt (.token .colon)) l₁ [] (u :: l₂)) (hu : u.kind = .kwCase)
      (hc : Reads (.clauses .kwCase cs) l₂ bs (v :: l₃)) (hv : v.kind = .kwDefault)
      (hb : Reads .body l₃ [f] l') : Reads .stat (t :: l) [.switch e cs bs f t.pos] l'
  | repeatUntil {t l b u l₁ c l'} (ht : t.kind = .kwRepeat) (hb : Reads .body l [b] (u :: l₁))
      (hu : u.kind = .kwUntil) (hc : Reads .expr l₁ [c] l') :
      Reads .stat (t :: l) [.repeatUntil c b t.pos] l'
  | whileLoop {t l c l₁ b l'} (ht : t.kind = .kwWhile) (hc : Reads .expr l [c] l₁)
      (hb : Reads .body l₁ [b] l') : Reads .stat (t :: l) [.whileLoop c b t.pos] l'
  | forRange {t l x u l₁ s v l₂ e l₃ ds l₄ b l'} (ht : t.kind = .kwFor) (hx : Reads .name l [x] (u :: l₁))
      (hu : u.kind = .kwIs) (hs : Reads .expr l₁ [s] (v :: l₂)) (hv : v.kind = .comma)
      (he : Reads .expr l₂ [e] l₃) (hd : Reads (.opt (.after .comma .expr)) l₃ ds l₄)
      (hb : Reads .body l₄ [b] l') :
      Reads .stat (t :: l) [.forRange x s e (ds.headD .missing) b t.pos] l'
  | forEach {t l x l₁ ys u l₂ e l₃ b l'} (ht : t.kind = .kwFor) (hx : Reads .name l [x] l₁)
      (hy : Reads (.opt (.after .comma .name)) l₁ ys (u :: l₂)) (hu : u.kind = .kwIn)
      (he : Reads .expr l₂ [e] l₃) (hb : Reads .body l₃ [b] l') :
      Reads .stat (t :: l) [.forEach x (ys.headD .missing) e b t.pos] l'
  | breakLoop {t l} (ht : t.kind = .kwBreak) : Reads .stat (t :: l) [.breakLoop t.pos] l
  | continueLoop {t l} (ht : t.kind = .kwContinue) : Reads .stat (t :: l) [.continueLoop t.pos] l
  | funcStat {t l x l₁ f u l'} (ht : t.kind = .kwFunc) (hx : Reads .name l [x] l₁)
      (hf : Reads .function l₁ [f] (u :: l')) :
      Reads .stat (t :: l) [.declare [x] (some [f]) true u.pos] (u :: l')
  | returnNone {t u l} (ht : t.kind = .kwReturn) (hu : u.kind = .semi) :
      Reads .stat (t :: u :: l) [.returnValue .missing t.pos] l
  | returnValue {t l e l'} (ht : t.kind = .kwReturn) (he : Reads .expr l [e] l') :
      Reads .stat (t :: l) [.returnValue e t.pos] l'
  | assign {l as t l₁ es l'} (ha : Reads (.commas .place) l as (t :: l₁)) (ht : t.kind = .assign)
      (he : Reads (.commas .expr) l₁ es l') : Reads .stat l [.assign as es t.pos] l'
  | update {l a t l₁ e l'} (ha : Reads .place l [a] (t :: l₁)) (ht : t.kind ∈ TokenKind.updates)
      (he : Reads .expr l₁ [e] l') : Reads .stat l [.update t.kind a e t.pos] l'
  | callStat {l c l'} (h : Reads .call l [c] l') : Reads .stat l [c] l'

namespace Piece

/-- Reading the piece takes a token at least. -/
def isSolid : Piece → Bool
  | .stats | .opt _ => false
  | .chain _ p | .once _ p | .commas p => p.isSolid
  | _ => true

theorem isSolid_tower (ls : List Grammar.Level) : (tower ls).isSolid = true := by
  induction ls with
  | nil => rfl
  | cons l ls ih =>
    unfold tower
    split <;> exact ih

end Piece

namespace Reads

variable {p : Piece} {l l' : List Token} {ns : List Node}

theorem suffix (h : Reads p l ns l') : l' <:+ l := by
  induction h <;> grind [List.IsSuffix.trans, suffix_cons, suffix_refl]

theorem length_le (h : Reads p l ns l') : l'.length ≤ l.length := h.suffix.length_le

theorem length_add_le (h : Reads p l ns l') : l'.length + p.isSolid.toNat ≤ l.length := by
  induction h with
  | operand hp _ ih =>
    rcases hp with rfl | rfl | rfl <;> exact ih
  | plain _ ih =>
    rw [Piece.isSolid_tower] at ih
    exact ih
  | unsigned _ ih => exact ih
  | _ =>
    simp only [Piece.isSolid, length_cons, Bool.toNat_true, Bool.toNat_false] at *
    omega

theorem length_lt (h : Reads p l ns l') (hp : p.isSolid = true) : l'.length < l.length := by
  have := h.length_add_le
  rw [hp] at this
  exact this

theorem ne_nil (h : Reads (.commas p) l ns l') : ns ≠ [] := by
  cases h <;> simp

end Reads

/-! ### Running rules -/

namespace Parse

variable {α β : Type} {x : Parse α} {f : α → Parse β} {s : Feed} {n m : Nat} {k : TokenKind}

theorem bind_of_ok {a : α} {s' : Feed} (h : x s = .ok a s') : (x >>= f) s = f a s' := by
  simp only [bind, EStateM.bind, h]

theorem bind_of_error {i : Halt} {s' : Feed} (h : x s = .error i s') :
    (x >>= f) s = .error i s' := by
  simp only [bind, EStateM.bind, h]

/-- How `x` ends at `s`: with a result and the tokens left, or with a halt. Parsing is given up then, if
there are no more than `n` tokens. -/
inductive Ends (n : Nat) (x : Parse α) (s : Feed) (Q : α → List Token → Prop) : Prop
  | ok {a t ts} (h : x s = .ok a ⟨t, ts, s.stop⟩) (hs : (t :: ts) <:+ (s.current :: s.rest))
      (hq : Q a (t :: ts))
  | error {i s'} (h : x s = .error i s')
      (hi : s.rest.length < n → s.Rejects i)

def Ensures (n : Nat) (x : Parse α) (s : Feed) (Q : α → List Token → Prop) : Prop :=
  s.Proper → Ends n x s Q

/-- `x` reads one tree as a `p`, wherever it starts. -/
def Parses (n : Nat) (p : Piece) (x : Parse Node) : Prop :=
  ∀ s, Ensures n x s fun e => Reads p (s.current :: s.rest) [e]

/-- `x` reads any number of trees as a `p`. -/
def ParsesAll (n : Nat) (p : Piece) (x : Parse (List Node)) : Prop :=
  ∀ s, Ensures n x s (Reads p (s.current :: s.rest))

namespace Ensures

variable {a : α} {P : α → List Token → Prop} {Q : β → List Token → Prop}

theorem pure (h : P a (s.current :: s.rest)) : Ensures n (Pure.pure a) s P :=
  fun _ => .ok rfl (suffix_refl _) h

theorem fail {i : Issue} : Ensures n (Parse.fail i) s P :=
  fun _ => .error rfl fun _ => .inl ⟨_, rfl, rfl⟩

theorem outOfFuel : Ensures 0 Parse.outOfFuel s P :=
  fun _ => .error rfl fun h => absurd h (Nat.not_lt_zero _)

theorem mono (hx : Ensures n x s P) (hm : m ≤ n) : Ensures m x s P := by
  intro hs
  cases hx hs with
  | ok h hs hq => exact .ok h hs hq
  | error h hi => exact .error h fun hn => hi (Nat.lt_of_lt_of_le hn hm)

theorem of_ok {s' : Feed} (hx : Ensures n x s P) (hs : s.Proper) (h : x s = .ok a s') :
    (s'.current :: s'.rest) <:+ (s.current :: s.rest) ∧ P a (s'.current :: s'.rest) := by
  cases hx hs with
  | ok h' hl hq =>
    cases h.symm.trans h'
    exact ⟨hl, hq⟩
  | error h' => cases h.symm.trans h'

theorem imp {P' : α → List Token → Prop} (hx : Ensures n x s P) (h : ∀ a l, P a l → P' a l) :
    Ensures n x s P' := by
  intro hs
  cases hx hs with
  | ok h' hs hq => exact .ok h' hs (h _ _ hq)
  | error h hi => exact .error h hi

theorem look (h : x s = .ok a s) (hf : Ensures n (f a) s Q) : Ensures n (x >>= f) s Q := by
  intro hs
  cases hf hs with
  | ok h' hs hq => exact .ok ((bind_of_ok h).trans h') hs hq
  | error h' hi => exact .error ((bind_of_ok h).trans h') hi

/-- One after the other, where as much is left for the second as it needs. -/
theorem bind_of (hx : Ensures n x s P)
    (hf : ∀ a t ts, (t :: ts) <:+ (s.current :: s.rest) → P a (t :: ts) →
      (s.rest.length < n → ts.length < m) ∧ Ensures m (f a) ⟨t, ts, s.stop⟩ Q) :
    Ensures n (x >>= f) s Q := by
  intro hs
  cases hx hs with
  | @ok a t ts h hl hq =>
    obtain ⟨hw, hy⟩ := hf a t ts hl hq
    cases hy (hs.suffix hl) with
    | ok h' hl' hq' => exact .ok ((bind_of_ok h).trans h') (hl'.trans hl) hq'
    | error h' hi => exact .error ((bind_of_ok h).trans h') fun hn => hi (hw hn)
  | error h hi => exact .error (bind_of_error h) hi

theorem bind (hx : Ensures n x s P)
    (hf : ∀ a t ts, P a (t :: ts) → Ensures n (f a) ⟨t, ts, s.stop⟩ Q) : Ensures n (x >>= f) s Q :=
  hx.bind_of fun a t ts hl hq =>
    ⟨Nat.lt_of_le_of_lt (Nat.le_of_succ_le_succ hl.length_le), hf a t ts hq⟩

/-- After something that takes a token there is less left. -/
theorem bind_lt (hx : Ensures (n + 1) x s P)
    (hlt : ∀ a l, P a l → l.length < (s.current :: s.rest).length)
    (hf : ∀ a t ts, P a (t :: ts) → Ensures n (f a) ⟨t, ts, s.stop⟩ Q) :
    Ensures (n + 1) (x >>= f) s Q := by
  refine hx.bind_of fun a t ts hl hq => ⟨fun hn => ?_, hf a t ts hq⟩
  exact Nat.lt_of_lt_of_le (Nat.lt_of_succ_lt_succ (hlt a _ hq)) (Nat.le_of_lt_succ hn)

theorem map {g : α → β} (hx : Ensures n x s fun a => Q (g a)) : Ensures n (g <$> x) s Q :=
  hx.bind (f := fun a => Pure.pure (g a)) fun _ _ _ h => .pure h

variable {t : Token} {ts : List Token} {stop : Option Failure} {f : Unit → Parse β}

theorem advance_lt (hk : t.kind = k) (hne : k ≠ .eof)
    (hf : ∀ u us, ts = u :: us → Ensures n (f ()) ⟨u, us, stop⟩ Q) :
    Ensures (n + 1) (Parse.advance >>= f) ⟨t, ts, stop⟩ Q := by
  intro hs
  cases ts with
  | cons u us =>
    have hx : Ensures (n + 1) Parse.advance ⟨t, u :: us, stop⟩ fun _ l => l = u :: us :=
      fun _ => .ok rfl (suffix_cons _ _) rfl
    refine hx.bind_lt (fun _ l hl => hl ▸ Nat.lt_succ_self _) (fun _ v vs h => ?_) hs
    cases h
    exact hf u us rfl
  | nil =>
    cases stop with
    | none =>
      have ht : t.kind = .eof := by simpa [Feed.kinds] using hs rfl
      exact absurd (hk.symm.trans ht) hne
    | some i => exact .error rfl fun _ => .inr ⟨i, rfl, rfl⟩

theorem advance (hk : t.kind = k) (hne : k ≠ .eof)
    (hf : ∀ u us, ts = u :: us → Ensures n (f ()) ⟨u, us, stop⟩ Q) :
    Ensures n (Parse.advance >>= f) ⟨t, ts, stop⟩ Q :=
  (advance_lt hk hne hf).mono (Nat.le_succ n)

theorem eat_lt (hne : k ≠ .eof)
    (hf : ∀ u us, t.kind = k → ts = u :: us → Ensures n (f ()) ⟨u, us, stop⟩ Q) :
    Ensures (n + 1) (Parse.eat k >>= f) ⟨t, ts, stop⟩ Q := by
  intro hs
  by_cases hk : t.kind = k
  · have h : (Parse.eat k >>= f) ⟨t, ts, stop⟩ = (Parse.advance >>= f) ⟨t, ts, stop⟩ := by
      simp only [Bind.bind, EStateM.bind, Parse.eat, hk, if_true]
    cases advance_lt hk hne (fun u us => hf u us hk) hs with
    | ok h' hl hq => exact .ok (h.trans h') hl hq
    | error h' hi => exact .error (h.trans h') hi
  · exact .error (bind_of_error (if_neg hk)) fun _ => .inl ⟨_, rfl, rfl⟩

theorem eat (hne : k ≠ .eof)
    (hf : ∀ u us, t.kind = k → ts = u :: us → Ensures n (f ()) ⟨u, us, stop⟩ Q) :
    Ensures n (Parse.eat k >>= f) ⟨t, ts, stop⟩ Q :=
  (eat_lt hne hf).mono (Nat.le_succ n)

theorem eat? (hne : k ≠ .eof) (hf : ∀ u us, Reads (.opt (.token k)) (t :: ts) [] (u :: us) →
      Ensures n (f ()) ⟨u, us, stop⟩ Q) :
    Ensures n (Parse.eat? k >>= f) ⟨t, ts, stop⟩ Q := by
  intro hs
  by_cases hk : t.kind = k
  · have h : (Parse.eat? k >>= f) ⟨t, ts, stop⟩ = (Parse.advance >>= f) ⟨t, ts, stop⟩ := by
      simp only [Bind.bind, EStateM.bind, Parse.eat?, hk, if_true]
    have ht : ∀ u us, ts = u :: us → Ensures n (f ()) ⟨u, us, stop⟩ Q := by
      rintro u us rfl
      exact hf u us (.present (.token hk))
    cases advance hk hne ht hs with
    | ok h' hl hq => exact .ok (h.trans h') hl hq
    | error h' hi => exact .error (h.trans h') hi
  · exact look (if_neg hk) (hf t ts .absent) hs

end Ensures

theorem Parses.mono {p : Piece} {x : Parse Node} (h : Parses n p x) (hm : m ≤ n) : Parses m p x :=
  fun s => (h s).mono hm

end Parse

open Parse

/-- The rules read what they are named for. -/
structure Rules.Read (n : Nat) (r : Rules) : Prop where
  expr : Parses n .expr r.expr
  unary : Parses n .unary r.unary
  stat : Parses n .stat r.stat

namespace Grammar

variable {n m : Nat} {r : Rules} {p : Piece} {item : Parse Node} {s : Feed} {l : List Token}
variable {acc : List Node} {ops : List TokenKind} {f : Node} {t : Token} {ts : List Token}
  {stop : Option Failure}

/-! ### Repetition -/

/-- What holds of the trees before a list and is kept by each further one holds of all of them. -/
theorem ensures_commaTail_of (hi : Parses n p item) (hm : m ≤ n) {P : List Node → List Token → Prop}
    (hP : ∀ {xs t l₁ x l'}, P xs (t :: l₁) → t.kind = .comma → Reads p l₁ [x] l' → P (xs ++ [x]) l')
    (ha : P acc.reverse (s.current :: s.rest)) : Ensures m (commaTail item m acc) s P := by
  induction m generalizing acc s with
  | zero => exact .outOfFuel
  | succ m ih =>
    obtain ⟨t, ts, stop⟩ := s
    unfold commaTail
    refine .look rfl ?_
    split
    · rename_i hk
      refine .advance_lt hk (by decide) ?_
      rintro u us rfl
      refine .bind ((hi _).mono (Nat.le_of_succ_le hm)) fun x v vs hx => ih (by omega) ?_
      rw [reverse_cons]
      exact hP ha hk hx
    · exact .pure ha

theorem ensures_commaTail (hi : Parses n p item) (hm : m ≤ n)
    (ha : Reads (.commas p) l acc.reverse (s.current :: s.rest)) :
    Ensures m (commaTail item m acc) s (Reads (.commas p) l) :=
  ensures_commaTail_of hi hm .more ha

theorem parsesAll_commaList (hi : Parses n p item) : ParsesAll n (.commas p) (commaList n item) :=
  fun s => .bind (hi s) fun _ _ _ hx => ensures_commaTail hi (Nat.le_refl n) (.one hx)

theorem ensures_chainTail (hops : .eof ∉ ops) (hi : Parses n p item) (hm : m ≤ n) {left : Node}
    (ha : Reads (.chain ops p) l [left] (s.current :: s.rest)) :
    Ensures m (chainTail ops item m left) s fun e => Reads (.chain ops p) l [e] := by
  induction m generalizing left s with
  | zero => exact .outOfFuel
  | succ m ih =>
    obtain ⟨t, ts, stop⟩ := s
    unfold chainTail
    refine .look rfl ?_
    split
    · rename_i hk
      refine .advance_lt rfl (ne_of_mem_of_not_mem hk hops) ?_
      rintro u us rfl
      refine .bind ((hi _).mono (Nat.le_of_succ_le hm)) fun x v vs hx => ih (by omega) ?_
      exact .next ha hk hx
    · exact .pure ha

theorem parses_chain (ops : List TokenKind) (hops : .eof ∉ ops) (hp : p.isSolid = true)
    (hi : Parses (n + 1) p item) : Parses (n + 1) (.chain ops p) (chain n ops item) := by
  intro s
  refine .bind_lt (hi s) (fun _ _ h => h.length_lt hp) fun left t ts h => ?_
  exact ensures_chainTail hops hi (Nat.le_succ n) (.first h)

theorem parses_once (hops : .eof ∉ ops) (hi : Parses n p item) :
    Parses n (.once ops p) (once ops item) := by
  intro s
  refine .bind (hi s) fun left t ts ha => .look rfl ?_
  split
  · rename_i hk
    refine .advance rfl (ne_of_mem_of_not_mem hk hops) ?_
    rintro u us rfl
    exact .bind (hi _) fun right v vs hb => .pure (.compare ha hk hb)
  · exact .pure (.lone ha)

section Rules

variable (hr : r.Read n)
include hr

/-- After all statements a brace is closed, or the tokens end. -/
theorem ensures_statListTail (hm : m ≤ n)
    (ha : Reads .stats l acc.reverse (s.current :: s.rest)) :
    Ensures m (statListTail r.stat m acc) s fun ss l' =>
      Reads .stats l ss l' ∧ ∀ t ∈ l'.head?, t.kind = .rbrace ∨ t.kind = .eof := by
  induction m generalizing acc s with
  | zero => exact .outOfFuel
  | succ m ih =>
    unfold statListTail
    refine .look rfl ?_
    split
    · rename_i hk
      refine .pure ⟨ha, ?_⟩
      rintro t ⟨⟩
      exact hk
    · refine .bind_lt ((hr.stat s).mono hm) (fun _ _ h => h.length_lt rfl) fun x u us hx => ?_
      refine ih (by omega) ?_
      have h := Reads.line ha hx
      split at h <;> rename_i he
      · rwa [if_pos he]
      · rwa [if_neg he, reverse_cons]

theorem parsesAll_statList : ParsesAll n .stats (statList n r) :=
  fun _ => (ensures_statListTail hr (Nat.le_refl n) .done).imp fun _ _ h => h.1

/-! ### Names and places -/

omit hr in
theorem parses_name : Parses n .name name := by
  rintro ⟨t, ts, stop⟩
  refine .look rfl (.look rfl (.eat (by decide) ?_))
  rintro u us hk rfl
  exact .pure (.name hk)

theorem ensures_placeTail (hm : m ≤ n) {base : Node}
    (hb : Reads .place l [base] (s.current :: s.rest)) :
    Ensures m (placeTail r m base) s fun e => Reads .place l [e] := by
  induction m generalizing base s with
  | zero => exact .outOfFuel
  | succ m ih =>
    obtain ⟨t, ts, stop⟩ := s
    unfold placeTail
    refine .look rfl ?_
    split
    · rename_i hk
      refine .advance_lt hk (by decide) ?_
      rintro u us rfl
      refine .bind ((hr.expr _).mono (by omega)) fun key v vs he => .eat (by decide) ?_
      rintro w ws hv rfl
      exact ih (by omega) (.item hb hk he hv)
    · split
      · rename_i hk
        refine .advance_lt hk (by decide) ?_
        rintro u us rfl
        refine .look rfl (.look rfl (.eat (by decide) ?_))
        rintro v vs hu rfl
        exact ih (by omega) (.field hb hk hu)
      · exact .pure hb

theorem parses_place : Parses (n + 1) .place (place n r) := by
  intro s
  refine .bind_lt (parses_name s) (fun _ _ h => h.length_lt rfl) fun base t ts h => ?_
  exact ensures_placeTail hr (Nat.le_refl n) (.base h)

/-! ### Functions and constructors -/

omit hr in
theorem ensures_listUnless {ends : List TokenKind} {list : Parse (List Node)}
    (hl : ParsesAll n (.commas p) list) (s : Feed) :
    Ensures n (listUnless ends list) s fun o l =>
      ∃ ns, o = given ns ∧ Reads (.opt (.commas p)) (s.current :: s.rest) ns l := by
  refine .look rfl ?_
  split
  · exact .pure ⟨[], rfl, .absent⟩
  · refine .map ((hl s).imp fun ns l h => ?_)
    exact ⟨ns, (given_of_ne_nil h.ne_nil).symm, .present h⟩

theorem parses_funcDef : Parses (n + 1) .function (funcDef n r) := by
  rintro ⟨t, ts, stop⟩
  refine .look rfl (.eat_lt (by decide) ?_)
  rintro u us hk rfl
  refine .bind (ensures_listUnless (parsesAll_commaList parses_name) _) ?_
  rintro _ v vs ⟨ps, rfl, hp⟩
  refine .eat (by decide) ?_
  rintro w ws hv rfl
  refine .eat (by decide) ?_
  rintro y ys hw rfl
  refine .bind (parsesAll_statList hr _) fun body z zs hb => .eat (by decide) ?_
  rintro a as hz rfl
  exact .pure (.function hk hp hv hw hb hz)

theorem ensures_callTail (hp : p = .place ∨ p = .lambda)
    (hf : Reads p l [f] (s.current :: s.rest)) :
    Ensures n (callTail n r f) s fun e => Reads .call l [e] := by
  obtain ⟨t, ts, stop⟩ := s
  refine .look rfl (.eat (by decide) ?_)
  rintro u us hk rfl
  refine .bind (ensures_listUnless (parsesAll_commaList hr.expr) _) ?_
  rintro _ v vs ⟨as, rfl, ha⟩
  refine .eat (by decide) ?_
  rintro w ws hv rfl
  exact .pure (.call hp hf hk ha hv)

/-- What may be called is followed by arguments or by nothing more of the expression. -/
theorem ensures_callOpt (hp : p = .place ∨ p = .lambda)
    (hf : Reads p l [f] (s.current :: s.rest)) :
    Ensures n (do if (← kind) = .lparen then callTail n r f else return f) s
      fun e => Reads .primary l [e] := by
  refine .look rfl ?_
  split
  · exact (ensures_callTail hr hp hf).imp fun _ _ h => .operand (.inr (.inr rfl)) h
  · exact .pure (.operand (hp.imp_right .inl) hf)

theorem parses_listOf : Parses (n + 1) .primary (listOf n r) := by
  rintro ⟨t, ts, stop⟩
  refine .look rfl (.eat_lt (by decide) ?_)
  rintro u us hk rfl
  refine .bind (ensures_listUnless (parsesAll_commaList hr.expr) _) ?_
  rintro _ v vs ⟨es, rfl, he⟩
  refine .eat (by decide) ?_
  rintro w ws hv rfl
  exact .pure (.listOf hk he hv)

theorem ensures_entryTail (hm : m ≤ n) {keys values : List Node}
    (h : Reads (.entries keys.reverse) l values.reverse (s.current :: s.rest)) :
    Ensures m (entryTail r m keys values) s fun e => Reads (.entries e.1) l e.2 := by
  induction m generalizing keys values s with
  | zero => exact .outOfFuel
  | succ m ih =>
    obtain ⟨t, ts, stop⟩ := s
    unfold entryTail
    refine .look rfl ?_
    split
    · rename_i hk
      refine .advance_lt hk (by decide) ?_
      rintro u us rfl
      refine .bind ((hr.expr _).mono (by omega)) fun key v vs hkey => .eat (by decide) ?_
      rintro w ws hv rfl
      refine .bind ((hr.expr _).mono (by omega)) fun value y ys hval => ih (by omega) ?_
      rw [reverse_cons, reverse_cons]
      exact .entries h hk hkey hv hval
    · exact .pure h

theorem parses_mapOrSet : Parses (n + 1) .primary (mapOrSet n r) := by
  rintro ⟨t, ts, stop⟩
  refine .look rfl (.eat_lt (by decide) ?_)
  rintro u us ht rfl
  refine .look rfl ?_
  split
  · rename_i hu
    refine .advance hu (by decide) ?_
    rintro v vs rfl
    exact .pure (.mapNone ht hu)
  · refine .bind (hr.expr _) fun first v vs hfirst => .look rfl ?_
    split
    · rename_i hv
      refine .advance hv (by decide) ?_
      rintro w ws rfl
      refine .bind (hr.expr _) fun value y ys hvalue => ?_
      refine .bind (ensures_entryTail hr (Nat.le_refl n) (.entry hfirst hv hvalue)) ?_
      refine fun entries z zs he => .eat (by decide) ?_
      rintro a as hz rfl
      exact .pure (.mapOf ht he hz)
    · refine .bind (ensures_commaTail hr.expr (Nat.le_refl n) (.one hfirst)) ?_
      refine fun items z zs he => .eat (by decide) ?_
      rintro a as hz rfl
      exact .pure (.setOf ht he hz)

/-! ### Expressions -/

omit hr in
/-- A literal is one token. -/
theorem ensures_literal {k : TokenKind} {x : Node} (hk : t.kind = k) (hne : k ≠ .eof)
    (h : ∀ l, Reads .primary (t :: l) [x] l) :
    Ensures n (do advance; return x) ⟨t, ts, stop⟩ fun e => Reads .primary (t :: ts) [e] := by
  refine .advance hk hne ?_
  rintro u us rfl
  exact .pure (h _)

theorem parses_primary : Parses (n + 1) .primary (primary n r) := by
  rintro ⟨t, ts, stop⟩
  refine .look rfl ?_
  split
  case h_1 hk => exact ensures_literal hk (by decide) fun _ => .int hk
  case h_2 hk => exact ensures_literal hk (by decide) fun _ => .float hk
  case h_3 hk => exact ensures_literal hk (by decide) fun _ => .string hk
  case h_4 hk => exact ensures_literal hk (by decide) fun _ => .bool (by simp [show t.kind = _ from hk])
  case h_5 hk => exact ensures_literal hk (by decide) fun _ => .bool (by simp [show t.kind = _ from hk])
  case h_6 hk => exact ensures_literal hk (by decide) fun _ => .null hk
  case h_7 hk =>
    refine .advance_lt hk (by decide) ?_
    rintro u us rfl
    refine .bind (hr.expr _) fun e v vs he => .eat (by decide) ?_
    rintro w ws hv rfl
    exact .pure (.paren hk he hv)
  case h_8 => exact parses_listOf hr _
  case h_9 => exact parses_mapOrSet hr _
  case h_10 hk =>
    refine .advance_lt hk (by decide) ?_
    rintro u us rfl
    refine .bind ((parses_funcDef hr).mono (Nat.le_succ n) _) fun f v vs hf => ?_
    exact ensures_callOpt hr (.inr rfl) (.after hk hf)
  case h_11 =>
    refine .bind_lt (parses_place hr _) (fun _ _ h => h.length_lt rfl) fun e u us he => ?_
    exact ensures_callOpt hr (.inl rfl) he
  case h_12 => exact .fail

theorem parses_unary : Parses (n + 1) .unary (unary n r) := by
  rintro ⟨t, ts, stop⟩
  refine .look rfl ?_
  split
  · rename_i hk
    refine .advance_lt rfl (ne_of_mem_of_not_mem hk (by decide)) ?_
    rintro u us rfl
    exact .bind (hr.unary _) fun e v vs he => .pure (.signed hk he)
  · refine .imp (parses_chain [.pow] (by decide) rfl (parses_primary hr) _) ?_
    exact fun _ _ he => .unsigned he

theorem parses_binary {ls : List Level} (hls : ∀ l ∈ ls, .eof ∉ l.ops) :
    Parses (n + 1) (.tower ls) (binary n r ls) := by
  induction ls with
  | nil => exact parses_unary hr
  | cons l ls ih =>
    have hi := ih fun l hl => hls l (mem_cons_of_mem _ hl)
    have hops := hls l mem_cons_self
    unfold Piece.tower binary
    split
    · exact parses_chain _ hops (Piece.isSolid_tower ls) hi
    · exact parses_once hops hi

theorem parses_select : Parses (n + 1) .expr (select n r) := by
  intro s
  have hlt := fun {l l' : List Token} {e : Node} (h : Reads (.tower levels) l [e] l') =>
    h.length_lt (Piece.isSolid_tower levels)
  refine .bind_lt (parses_binary hr (by decide) s) (fun _ _ h => hlt h) fun cond t ts hc => ?_
  refine .look rfl ?_
  split
  · rename_i hk
    refine .advance hk (by decide) ?_
    rintro u us rfl
    refine .bind (hr.expr _) fun yes v vs hy => .eat (by decide) ?_
    rintro w ws hv rfl
    exact .bind (hr.expr _) fun no y ys hn => .pure (.select hc hk hy hv hn)
  · exact .pure (.plain hc)

/-! ### Statements -/

omit hr in
theorem parses_emptyStat : Parses n .stat emptyStat := by
  rintro ⟨t, ts, stop⟩
  refine .eat (by decide) ?_
  rintro u us hk rfl
  exact .pure (.empty hk)

theorem parses_block : Parses (n + 1) .stat (block n r) := by
  rintro ⟨t, ts, stop⟩
  refine .look rfl (.eat_lt (by decide) ?_)
  rintro u us hk rfl
  refine .bind (parsesAll_statList hr _) fun stats v vs hs => .eat (by decide) ?_
  rintro w ws hv rfl
  exact .pure (.block hk hs hv)

theorem ensures_initializers (s : Feed) :
    Ensures n (initializers n r) s fun o l => ∃ es, o = given es ∧
      Reads (.opt (.after .assign (.commas .expr))) (s.current :: s.rest) es l := by
  obtain ⟨t, ts, stop⟩ := s
  refine .look rfl ?_
  split
  · rename_i hk
    refine .advance hk (by decide) ?_
    rintro u us rfl
    refine .map ((parsesAll_commaList hr.expr _).imp fun es l he => ?_)
    exact ⟨es, (given_of_ne_nil he.ne_nil).symm, .present (.after hk he)⟩
  · exact .pure ⟨[], rfl, .absent⟩

theorem ensures_declare (hk : t.kind ∈ [.kwVar, .kwConst]) :
    Ensures (n + 1) (declare n r) ⟨t, ts, stop⟩ fun e => Reads .stat (t :: ts) [e] := by
  refine .look rfl (.advance_lt rfl (ne_of_mem_of_not_mem hk (by decide)) ?_)
  rintro u us rfl
  refine .bind (parsesAll_commaList parses_name _) fun names v vs hn => ?_
  refine .bind (ensures_initializers hr _) ?_
  rintro _ w ws ⟨es, rfl, he⟩
  exact .pure (.declare hk hn he)

theorem ensures_body {α : Type} {g : Node → α} (s : Feed) :
    Ensures n (do eat? .colon; let body ← r.stat; return g body) s
      fun a l => ∃ b, a = g b ∧ Reads .body (s.current :: s.rest) [b] l := by
  obtain ⟨t, ts, stop⟩ := s
  refine .eat? (by decide) fun u us hc => .bind (hr.stat _) fun b v vs hb => ?_
  exact .pure ⟨b, rfl, .body hc hb⟩

theorem ensures_clause (s : Feed) :
    Ensures n (clause r) s fun c l => ∃ l₁, Reads .expr (s.current :: s.rest) [c.1] l₁ ∧
      Reads .body l₁ [c.2] l := by
  refine .bind (hr.expr s) fun cond t ts hc => ?_
  refine (ensures_body hr _).imp ?_
  rintro _ l ⟨b, rfl, hb⟩
  exact ⟨_, hc, hb⟩

/-- After all clauses the word of a clause does not follow. -/
theorem ensures_clauseTail {word : TokenKind} (hw : word ≠ .eof) (hm : m ≤ n)
    {acc : List (Node × Node)}
    (h : Reads (.clauses word (acc.reverse.map (·.1))) l (acc.reverse.map (·.2))
      (s.current :: s.rest)) :
    Ensures m (clauseTail r word m acc) s fun cs l' =>
      Reads (.clauses word (cs.map (·.1))) l (cs.map (·.2)) l' ∧ ∀ t ∈ l'.head?, t.kind ≠ word := by
  induction m generalizing acc s with
  | zero => exact .outOfFuel
  | succ m ih =>
    obtain ⟨t, ts, stop⟩ := s
    unfold clauseTail
    refine .look rfl ?_
    split
    · rename_i hk
      refine .advance_lt hk hw ?_
      rintro u us rfl
      refine .bind ((ensures_clause hr _).mono (by omega)) ?_
      rintro c v vs ⟨l₁, hc, hb⟩
      refine ih (by omega) ?_
      rw [reverse_cons, map_append, map_append]
      exact .clauses h hk hc hb
    · rename_i hk
      refine .pure ⟨h, ?_⟩
      rintro u ⟨⟩
      exact hk

theorem parses_branch : Parses (n + 1) .stat (branch n r) := by
  rintro ⟨t, ts, stop⟩
  refine .look rfl (.eat_lt (by decide) ?_)
  rintro u us hk rfl
  refine .bind (ensures_clause hr _) ?_
  rintro first v vs ⟨l₁, hc, hb⟩
  refine .bind (ensures_clauseTail hr (by decide) (Nat.le_refl n) (.clause hc hb)) ?_
  rintro clauses w ws ⟨hcs, hw⟩
  refine .look rfl ?_
  split
  · rename_i he
    refine .advance he (by decide) ?_
    rintro y ys rfl
    refine (ensures_body hr _).imp ?_
    rintro _ l ⟨b, rfl, hb⟩
    exact .branchElse hk hcs he hb
  · rename_i he
    refine .pure (.branch hk hcs ?_)
    simpa using ⟨hw w rfl, he⟩

theorem parses_switch : Parses (n + 1) .stat (switch n r) := by
  rintro ⟨t, ts, stop⟩
  refine .look rfl (.eat_lt (by decide) ?_)
  rintro u us ht rfl
  refine .bind (hr.expr _) fun subject v vs he => ?_
  refine .eat? (by decide) fun w ws hc => .look rfl ?_
  split
  · rename_i hw
    have hcs : Ensures n (clauseTail r .kwCase n []) ⟨w, ws, stop⟩ fun cs l' =>
        Reads (.clauses .kwCase (cs.map (·.1))) ws (cs.map (·.2)) l' ∧
          ∀ t ∈ l'.head?, t.kind ≠ .kwCase := by
      cases n with
      | zero => exact .outOfFuel
      | succ n =>
        -- the loop begins at the word of a clause, so that there is a first one
        unfold clauseTail
        refine .look rfl ?_
        rw [if_pos hw]
        refine .advance_lt hw (by decide) ?_
        rintro y ys rfl
        refine .bind ((ensures_clause hr _).mono (Nat.le_succ n)) ?_
        rintro c z zs ⟨l₁, hc, hb⟩
        exact ensures_clauseTail hr (by decide) (Nat.le_succ n) (.clause hc hb)
    refine .bind hcs ?_
    rintro clauses y ys ⟨hcs, hy⟩
    refine .look rfl ?_
    split
    · rename_i hd
      refine .advance hd (by decide) ?_
      rintro z zs rfl
      refine (ensures_body hr _).imp ?_
      rintro _ l ⟨b, rfl, hb⟩
      exact .switchDefault ht he hc hw hcs hd hb
    · rename_i hd
      refine .pure (.switch ht he hc hw hcs ?_)
      simpa using ⟨hy y rfl, hd⟩
  · exact .fail

theorem parses_repeatUntil : Parses (n + 1) .stat (repeatUntil r) := by
  rintro ⟨t, ts, stop⟩
  refine .look rfl (.eat_lt (by decide) ?_)
  rintro u us hk rfl
  refine .eat? (by decide) fun v vs hc => .bind (hr.stat _) fun body w ws hb => ?_
  refine .eat (by decide) ?_
  rintro y ys hw rfl
  exact .bind (hr.expr _) fun cond z zs he => .pure (.repeatUntil hk (.body hc hb) hw he)

theorem parses_whileLoop : Parses (n + 1) .stat (whileLoop r) := by
  rintro ⟨t, ts, stop⟩
  refine .look rfl (.eat_lt (by decide) ?_)
  rintro u us hk rfl
  refine .bind (ensures_clause hr _) ?_
  rintro c v vs ⟨l₁, hc, hb⟩
  exact .pure (.whileLoop hk hc hb)

omit hr in
theorem ensures_afterComma (hi : Parses n p item) (s : Feed) :
    Ensures n (afterComma item) s fun e l => ∃ es, e = es.headD .missing ∧
      Reads (.opt (.after .comma p)) (s.current :: s.rest) es l := by
  obtain ⟨t, ts, stop⟩ := s
  refine .look rfl ?_
  split
  · rename_i hk
    refine .advance hk (by decide) ?_
    rintro u us rfl
    exact (hi _).imp fun e l he => ⟨[e], rfl, .present (.after hk he)⟩
  · exact .pure ⟨[], rfl, .absent⟩

theorem parses_forLoop : Parses (n + 1) .stat (forLoop r) := by
  rintro ⟨t, ts, stop⟩
  refine .look rfl (.eat_lt (by decide) ?_)
  rintro u us hk rfl
  refine .bind (parses_name _) fun x v vs hx => .look rfl ?_
  split
  · refine .eat (by decide) ?_
    rintro w ws hv rfl
    refine .bind (hr.expr _) fun start y ys hs => .eat (by decide) ?_
    rintro z zs hy rfl
    refine .bind (hr.expr _) fun stop a as he => .bind (ensures_afterComma hr.expr _) ?_
    rintro _ b bs ⟨ds, rfl, hd⟩
    refine (ensures_body hr _).imp ?_
    rintro _ l ⟨body, rfl, hb⟩
    exact .forRange hk hx hv hs hy he hd hb
  · refine .bind (ensures_afterComma parses_name _) ?_
    rintro _ w ws ⟨ys, rfl, hy⟩
    refine .eat (by decide) ?_
    rintro z zs hw rfl
    refine .bind (ensures_clause hr _) ?_
    rintro c a as ⟨l₁, hc, hb⟩
    exact .pure (.forEach hk hx hy hw hc hb)

omit hr in
theorem parses_breakLoop : Parses n .stat breakLoop := by
  rintro ⟨t, ts, stop⟩
  refine .look rfl (.eat (by decide) ?_)
  rintro u us hk rfl
  exact .pure (.breakLoop hk)

omit hr in
theorem parses_continueLoop : Parses n .stat continueLoop := by
  rintro ⟨t, ts, stop⟩
  refine .look rfl (.eat (by decide) ?_)
  rintro u us hk rfl
  exact .pure (.continueLoop hk)

theorem parses_funcStat : Parses (n + 1) .stat (funcStat n r) := by
  rintro ⟨t, ts, stop⟩
  have hd := (parses_funcDef hr).mono (Nat.le_succ n)
  refine .eat_lt (by decide) ?_
  rintro u us hk rfl
  refine .look rfl ?_
  split
  · refine .bind (parses_name _) fun x v vs hx => .bind (hd _) fun f w ws hf => ?_
    exact .look rfl (.pure (.funcStat hk hx hf))
  · refine .bind (hd _) fun f v vs hf => ?_
    exact (ensures_callTail hr (.inr rfl) (.after hk hf)).imp fun _ _ h => .callStat h

theorem parses_returnValue : Parses (n + 1) .stat (returnValue r) := by
  rintro ⟨t, ts, stop⟩
  refine .look rfl (.eat_lt (by decide) ?_)
  rintro u us hk rfl
  refine .look rfl ?_
  split
  · rename_i hu
    refine .advance hu (by decide) ?_
    rintro v vs rfl
    exact .pure (.returnNone hk hu)
  · exact .bind (hr.expr _) fun e v vs he => .pure (.returnValue hk he)

theorem parses_placeStat : Parses (n + 1) .stat (placeStat n r) := by
  intro s
  refine .bind_lt (parses_place hr s) (fun _ _ h => h.length_lt rfl) fun target t ts ht => ?_
  refine .look rfl ?_
  split
  · have hp := (parses_place hr).mono (Nat.le_succ n)
    refine .bind (ensures_commaTail hp (Nat.le_refl n) (.one ht)) fun targets u us hts => ?_
    refine .look rfl (.eat (by decide) ?_)
    rintro v vs hu rfl
    exact .bind (parsesAll_commaList hr.expr _) fun es w ws he => .pure (.assign hts hu he)
  · split
    · exact (ensures_callTail hr (.inl rfl) ht).imp fun _ _ h => .callStat h
    · refine .look rfl ?_
      split
      · rename_i hk
        refine .advance rfl (ne_of_mem_of_not_mem hk (by decide)) ?_
        rintro u us rfl
        exact .bind (hr.expr _) fun e v vs he => .pure (.update ht hk he)
      · exact .fail

theorem parses_stat : Parses (n + 1) .stat (stat n r) := by
  intro s
  refine .look rfl ?_
  split
  case h_1 => exact parses_emptyStat s
  case h_2 => exact parses_block hr s
  case h_3 hk => exact ensures_declare hr (by simp [hk])
  case h_4 hk => exact ensures_declare hr (by simp [hk])
  case h_5 => exact parses_branch hr s
  case h_6 => exact parses_switch hr s
  case h_7 => exact parses_repeatUntil hr s
  case h_8 => exact parses_whileLoop hr s
  case h_9 => exact parses_forLoop hr s
  case h_10 => exact parses_breakLoop s
  case h_11 => exact parses_continueLoop s
  case h_12 => exact parses_funcStat hr s
  case h_13 => exact parses_returnValue hr s
  case h_14 => exact parses_placeStat hr s

end Rules

theorem read_rules (n : Nat) : (rules n).Read n := by
  induction n with
  | zero => exact ⟨fun _ => .outOfFuel, fun _ => .outOfFuel, fun _ => .outOfFuel⟩
  | succ n ih => exact ⟨parses_select ih, parses_unary ih, parses_stat ih⟩

theorem ensures_program (n : Nat) (s : Feed) : Ensures n (program n) s fun e l =>
    ∃ ss, e = .program ss ∧ Reads .stats (s.current :: s.rest) ss l :=
  .map ((parsesAll_statList (read_rules n) s).imp fun ss _ h => ⟨ss, rfl, h⟩)

end Grammar
end TinyScript
