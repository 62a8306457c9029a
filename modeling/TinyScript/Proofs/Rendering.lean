import TinyScript.Proofs.Precedence

/-!
# Expressions as tokens

`Node.render` writes an expression with parentheses only where the strength of an operand is less
than its place asks for. Main statement: the parser builds the expression again from these tokens and
leaves what comes after them (`expr_of_render`).
-/

namespace TinyScript

open Lexeme Precedence List

namespace Node

/-- How tightly the outermost operator of an expression binds. -/
def strength : Node → Nat
  | .select .. => choice
  | .binary op .. => table.findIdx (op ∈ ·)
  | .unary .. => sign
  | .name .. | .access .. => path
  | _ => closed

/-- The tokens `w` of an expression of strength `d`, for a place of strength `c`. -/
def enclose (c d : Nat) (w : List Lexeme) : List Lexeme :=
  if d < c then of .lparen :: (w ++ [of .rparen]) else w

/-- The name after a dot. -/
def fieldName : Node → String
  | .string x _ => x
  | _ => ""

mutual

/-- The tokens of an expression. -/
def render : Node → List Lexeme
  | .select cond yes no _ =>
    enclose (choice + 1) cond.strength (render cond) ++
      of .query :: (render yes ++ of .colon :: render no)
  | .binary op l r _ =>
    enclose (left (table.findIdx (op ∈ ·))) l.strength (render l) ++
      of op :: enclose (table.findIdx (op ∈ ·) + 1) r.strength (render r)
  | .unary op e _ => of op :: enclose sign e.strength (render e)
  | .listOf items _ => of .lbrack :: (commas (renderOpt items) ++ [of .rbrack])
  | .setOf items _ => of .lbrace :: (commas (renderOpt items) ++ [of .rbrace])
  | .mapOf keys values _ =>
    of .lbrace :: (commas (List.zipWith (fun k v => k ++ of .colon :: v) (renderAll keys)
      (renderAll values)) ++ [of .rbrace])
  | .access base key dot _ =>
    render base ++ if dot then [of .dot, ⟨.identifier, some key.fieldName⟩]
      else of .lbrack :: (render key ++ [of .rbrack])
  | .call callee args _ => render callee ++ of .lparen :: (commas (renderOpt args) ++ [of .rparen])
  | .name x _ => [⟨.identifier, some x⟩]
  | .number x isInt _ => [⟨if isInt then .intLiteral else .floatLiteral, some x⟩]
  | .string x _ => [⟨.stringLiteral, some x⟩]
  | .bool x _ => [of (if x = "true" then .kwTrue else .kwFalse)]
  | .null _ => [of .kwNull]
  | _ => []

def renderAll : List Node → List (List Lexeme)
  | [] => []
  | e :: es => render e :: renderAll es

def renderOpt : Option (List Node) → List (List Lexeme)
  | none => []
  | some es => renderAll es

end

theorem renderAll_eq (es : List Node) : renderAll es = es.map render := by
  induction es with
  | nil => rfl
  | cons e es ih => rw [renderAll, ih, map_cons]

/-- The expressions of the grammar that define no function. -/
inductive IsFormula : Node → Prop
  | select {cond yes no : Node} {p : Position} (hc : IsFormula cond) (hy : IsFormula yes)
      (hn : IsFormula no) : IsFormula (.select cond yes no p)
  | binary {c : Nat} {op : TokenKind} {l r : Node} {p : Position} (hop : op ∈ operators c)
      (hl : IsFormula l) (hr : IsFormula r) : IsFormula (.binary op l r p)
  | unary {op : TokenKind} {e : Node} {p : Position} (hop : op ∈ TokenKind.unaries)
      (he : IsFormula e) : IsFormula (.unary op e p)
  | listOf {items : Option (List Node)} {p : Position} (hne : items ≠ some [])
      (h : ∀ e ∈ items.getD [], IsFormula e) : IsFormula (.listOf items p)
  | setOf {items : List Node} {p : Position} (hne : items ≠ []) (h : ∀ e ∈ items, IsFormula e) :
      IsFormula (.setOf (some items) p)
  | mapOf {keys values : List Node} {p : Position} (hlen : keys.length = values.length)
      (hk : ∀ e ∈ keys, IsFormula e) (hv : ∀ e ∈ values, IsFormula e) :
      IsFormula (.mapOf keys values p)
  | item {base key : Node} {p : Position} (hb : IsFormula base) (hs : base.strength = path)
      (hk : IsFormula key) : IsFormula (.access base key false p)
  | field {base : Node} {x : String} {p q : Position} (hb : IsFormula base)
      (hs : base.strength = path) : IsFormula (.access base (.string x q) true p)
  | call {callee : Node} {args : Option (List Node)} {p : Position} (hc : IsFormula callee)
      (hs : callee.strength = path) (hne : args ≠ some []) (h : ∀ e ∈ args.getD [], IsFormula e) :
      IsFormula (.call callee args p)
  | name {x : String} {p : Position} : IsFormula (.name x p)
  | number {x : String} {isInt : Bool} {p : Position} : IsFormula (.number x isInt p)
  | string {x : String} {p : Position} : IsFormula (.string x p)
  | bool {x : String} {p : Position} (hx : x = "true" ∨ x = "false") : IsFormula (.bool x p)
  | null {p : Position} : IsFormula (.null p)

end Node

namespace Written

variable {c d : Nat} {e : Node} {w : List Lexeme}

theorem enclose (h : Written d e w) (hc : c ≤ closed) (hd : d ≤ path) :
    Written c e (Node.enclose c d w) := by
  unfold Node.enclose
  split
  · exact mono (.paren (h.mono (Nat.zero_le d) hd)) hc (by decide)
  · rename_i hcd
    exact h.mono (Nat.le_of_not_lt hcd) hd

end Written

namespace Node

theorem findIdx_table {c : Nat} {op : TokenKind} (h : op ∈ operators c) :
    table.findIdx (op ∈ ·) = c := by
  have hall : ∀ c < closed, ∀ op ∈ operators c, table.findIdx (op ∈ ·) = c := by decide
  exact hall c (lt_of_mem_operators h) op h

theorem strength_le (e : Node) : e.strength ≤ path := by
  unfold strength
  split
  · decide
  · exact Nat.le_trans findIdx_le_length (by decide)
  all_goals decide

/-- The expressions with their tokens. -/
def spelled (es : List Node) : List (Node × List Lexeme) := es.map fun e => (e, e.render)

@[simp] theorem map_fst_spelled (es : List Node) : (spelled es).map (·.1) = es := by
  simp [spelled, Function.comp_def]

@[simp] theorem map_snd_spelled (es : List Node) : (spelled es).map (·.2) = renderAll es := by
  simp [spelled, renderAll_eq, Function.comp_def]

theorem written_spelled {es : List Node} (h : ∀ e ∈ es, Written e.strength e e.render) :
    ∀ i ∈ spelled es, Written choice i.1 i.2 := by
  intro i hi
  obtain ⟨e, he, rfl⟩ := mem_map.1 hi
  exact (h e he).mono (Nat.zero_le _) (strength_le e)

theorem spelled_opt {es : Option (List Node)} (hne : es ≠ some [])
    (h : ∀ e ∈ es.getD [], Written e.strength e e.render) :
    ∃ items : Option (List (Node × List Lexeme)), items ≠ some [] ∧
      (∀ i ∈ items.getD [], Written choice i.1 i.2) ∧ items.map (List.map (·.1)) = es ∧
      (items.getD []).map (·.2) = renderOpt es := by
  cases es with
  | none => exact ⟨none, by simp, by simp, rfl, rfl⟩
  | some es =>
    refine ⟨some (spelled es), ?_, written_spelled h, congrArg some (map_fst_spelled es),
      map_snd_spelled es⟩
    simpa [spelled] using hne

theorem written_mapOf {keys values : List Node} {p : Position} (hlen : keys.length = values.length)
    (hk : ∀ e ∈ keys, Written e.strength e e.render)
    (hv : ∀ e ∈ values, Written e.strength e e.render) :
    Written closed (.mapOf keys values p) (Node.mapOf keys values p).render := by
  have hk' : ∀ i ∈ (spelled keys).zip (spelled values), Written choice i.1.1 i.1.2 := fun i hi =>
    written_spelled hk _ (of_mem_zip hi).1
  have hv' : ∀ i ∈ (spelled keys).zip (spelled values), Written choice i.2.1 i.2.2 := fun i hi =>
    written_spelled hv _ (of_mem_zip hi).2
  have hzip := Written.mapOf (p := p) hk' hv'
  have hlen' : (spelled keys).length = (spelled values).length := by simpa [spelled] using hlen
  have hkeys : ((spelled keys).zip (spelled values)).map (·.1.1) = keys := by
    have h := congrArg (List.map (·.1)) (map_fst_zip (Nat.le_of_eq hlen'))
    rwa [map_map, map_fst_spelled] at h
  have hvalues : ((spelled keys).zip (spelled values)).map (·.2.1) = values := by
    have h := congrArg (List.map (·.1)) (map_snd_zip (Nat.le_of_eq hlen'.symm))
    rwa [map_map, map_fst_spelled] at h
  have htokens : ((spelled keys).zip (spelled values)).map (fun i => i.1.2 ++ of .colon :: i.2.2) =
      List.zipWith (fun k v => k ++ of .colon :: v) (renderAll keys) (renderAll values) := by
    rw [← map_snd_spelled keys, ← map_snd_spelled values, zipWith_map, zip_eq_zipWith,
      map_zipWith]
  rwa [hkeys, hvalues, htokens] at hzip

theorem IsFormula.written {e : Node} (h : e.IsFormula) : Written e.strength e e.render := by
  induction h with
  | select _ _ _ ihc ihy ihn =>
    exact .select (ihc.enclose (by decide) (strength_le _)) (ihy.mono (Nat.zero_le _) (strength_le _))
      (ihn.mono (Nat.zero_le _) (strength_le _))
  | @binary c op l r p hop _ _ ihl ihr =>
    have hlt := lt_of_mem_operators hop
    have hleft : left c ≤ closed := by
      unfold left
      split <;> omega
    rw [render, strength, findIdx_table hop]
    exact .binary hop (ihl.enclose hleft (strength_le _)) (ihr.enclose hlt (strength_le _))
  | unary hop _ ih => exact .unary hop (ih.enclose (by decide) (strength_le _))
  | listOf hne _ ih =>
    obtain ⟨items, hne', hw, rfl, hw'⟩ := spelled_opt hne ih
    rw [render, ← hw']
    exact .listOf hne' hw
  | @setOf items p hne _ ih =>
    have hset := Written.setOf (p := p) (by simpa [spelled] using hne) (written_spelled ih)
    rw [map_fst_spelled, map_snd_spelled] at hset
    exact hset
  | mapOf hlen _ _ ihk ihv => exact written_mapOf hlen ihk ihv
  | item _ hs _ ihb ihk =>
    rw [hs] at ihb
    exact .item ihb (ihk.mono (Nat.zero_le _) (strength_le _))
  | field _ hs ihb =>
    rw [hs] at ihb
    exact .field ihb
  | call _ hs hne _ ihc ih =>
    obtain ⟨items, hne', hw, rfl, hw'⟩ := spelled_opt hne ih
    rw [hs] at ihc
    rw [render, ← hw']
    exact .call ihc hne' hw
  | name => exact .name
  | @number x isInt p =>
    cases isInt with
    | true => exact .literal .int
    | false => exact .literal .float
  | string => exact .literal .string
  | bool hx =>
    rcases hx with rfl | rfl
    · exact .literal .true
    · exact .literal .false
  | null => exact .literal .null

end Node

/-- An expression written with parentheses only where its operators ask for them is read back, up to
places, whatever comes after it that cannot go on with an expression. -/
theorem expr_of_render {e : Node} (he : e.IsFormula) {ts rest : List Token} {t : Token}
    {stop : Option Failure} (hts : ts.map Token.lexeme = e.render)
    (ht : t.kind ∉ continuing choice) :
    ∃ s e', Feed.ofTokens (ts ++ t :: rest) stop = .ok s ∧
      Parse.run (fun n => (Grammar.rules n).expr) s = .ok e' ⟨t, rest, stop⟩ ∧
      e'.bare = e.bare := by
  have hfeed : ∃ s, Feed.ofTokens (ts ++ t :: rest) stop = .ok s ∧
      s.Spends e.render ⟨t, rest, stop⟩ := by
    cases ts with
    | nil => exact ⟨⟨t, rest, stop⟩, rfl, [], hts, rfl, rfl⟩
    | cons u us => exact ⟨⟨u, us ++ t :: rest, stop⟩, rfl, u :: us, hts, rfl, rfl⟩
  obtain ⟨s, hs, hspends⟩ := hfeed
  have hw : Written choice e e.render := he.written.mono (Nat.zero_le _) (Node.strength_le e)
  obtain ⟨e', he', hbare⟩ := Grammar.expr_of_written hw hspends ht
  exact ⟨s, e', hs, he', hbare⟩

/-- Comparisons do not associate, a choice needs no parentheses between brackets, and a sign comes
before a power: `(a < b) == - x[i ? 1 : 2](c) ** d`. -/
theorem expr_of_render_comparison :
    let p := Position.start
    let e : Node := .binary .eq (.binary .lt (.name "a" p) (.name "b" p) p)
      (.unary .sub (.binary .pow (.call (.access (.name "x" p)
        (.select (.name "i" p) (.number "1" true p) (.number "2" true p) p) false p)
        (some [.name "c" p]) p) (.name "d" p) p) p) p
    e.IsFormula ∧ ∃ s e', Feed.ofTokens (e.render.map (fun l => ⟨l.kind, l.text, p⟩) ++
      [⟨.semi, some ";", p⟩, ⟨.eof, none, p⟩]) none = .ok s ∧
      Parse.run (fun n => (Grammar.rules n).expr) s =
        .ok e' ⟨⟨.semi, some ";", p⟩, [⟨.eof, none, p⟩], none⟩ ∧
      e'.bare = e.bare := by
  intro p e
  have he : e.IsFormula := by
    refine .binary (c := comparison) (by decide) (.binary (c := comparison) (by decide) .name .name)
      (.unary (by decide) (.binary (c := 12) (by decide) (.call (.item .name rfl ?_) rfl ?_ ?_) .name))
    · exact .select .name .number .number
    · simp
    · simp [Node.IsFormula.name]
  have htokens : (e.render.map fun l => (⟨l.kind, l.text, p⟩ : Token)).map Token.lexeme =
      e.render := by
    rw [List.map_map]
    exact List.map_id _
  exact ⟨he, expr_of_render he htokens (by decide)⟩

end TinyScript
