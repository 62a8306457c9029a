import TinyScript.Proofs.Formed
import TinyScript.Proofs.Raises
import TinyScript.Proofs.Tiling

/-!
# Places of nodes

Each node of a tree is read from a stretch of tokens, and its place is that of one of them: of a token
that is characteristic of it (`Node.anchors`). There is one exception: a function declaration has the
place of the token after it. Main statement: `located_of_parse`.
-/

namespace TinyScript

open Node List

/-! ### Tokens have places of their own -/

theorem Position.ofText_ne (before : List Char) {cs : List Char} (h : cs ≠ []) :
    ofText before ≠ ofText (before ++ cs) := by
  intro e
  obtain ⟨hline, hcol⟩ := Position.mk.inj e
  by_cases hc : '\n' ∈ cs
  · have := count_pos_iff.2 hc
    simp only [count_append] at hline
    omega
  · have hall : ∀ c ∈ cs.reverse, decide (c ≠ '\n') = true := fun c hm =>
      decide_eq_true fun hn => hc (hn ▸ mem_reverse.1 hm)
    have := length_pos_of_ne_nil h
    rw [reverse_append, takeWhile_append_of_pos hall] at hcol
    simp only [length_append, length_reverse] at hcol
    omega

theorem Tiles.pos_mem {before rest : List Char} {ts : List Token} (h : Tiles before rest ts) {t : Token}
    (ht : t ∈ ts) : ∃ cs, t.pos = .ofText (before ++ cs) := by
  induction h with
  | eof =>
    obtain rfl := mem_singleton.1 ht
    exact ⟨_, rfl⟩
  | token _ _ _ hp _ ih =>
    rcases mem_cons.1 ht with rfl | ht
    · exact ⟨_, hp⟩
    · obtain ⟨cs, hcs⟩ := ih ht
      exact ⟨_, by rw [hcs, List.append_assoc, List.append_assoc]⟩

theorem Tiles.nodup {before rest : List Char} {ts : List Token} (h : Tiles before rest ts) :
    (ts.map (·.pos)).Nodup := by
  induction h with
  | eof => simp
  | token _ _ hs hp h ih =>
    refine nodup_cons.2 ⟨fun hmem => ?_, ih⟩
    obtain ⟨u, hu, hpos⟩ := mem_map.1 hmem
    obtain ⟨cs, hcs⟩ := h.pos_mem hu
    have e := hp.symm.trans (hpos.symm.trans hcs)
    rw [List.append_assoc _ _ cs] at e
    exact Position.ofText_ne _ (append_ne_nil_of_left_ne_nil hs.ne_nil _) e

/-! ### Where a node is read -/

/-- The kinds of tokens at which the place of a node can be. -/
def Node.anchors : Node → List TokenKind
  | .missing | .empty | .program _ => []
  | .block .. | .mapOf .. | .setOf .. => [.lbrace]
  | .declare .. => [.kwVar, .kwConst]
  | .branch .. => [.kwIf]
  | .switch .. => [.kwSwitch]
  | .repeatUntil .. => [.kwRepeat]
  | .whileLoop .. => [.kwWhile]
  | .forRange .. | .forEach .. => [.kwFor]
  | .breakLoop _ => [.kwBreak]
  | .continueLoop _ => [.kwContinue]
  | .returnValue .. => [.kwReturn]
  | .assign .. => [.assign]
  | .update op .. | .binary op .. | .unary op .. => [op]
  | .funcDef .. | .call .. => [.lparen]
  | .select .. => [.query]
  | .listOf .. => [.lbrack]
  | .access _ _ dot _ => [if dot then .dot else .lbrack]
  | .name .. => [.identifier]
  | .number _ isInt _ => [if isInt then .intLiteral else .floatLiteral]
  | .string .. => [.stringLiteral]
  | .bool .. => [.kwTrue, .kwFalse]
  | .null _ => [.kwNull]

/-- The piece is one tree, with nothing before or after it. -/
def Piece.isTree : Piece → Bool
  | .name | .place | .function | .call | .primary | .chain .. | .once .. | .unary | .expr | .stat => true
  | _ => false

/-- The node is read from the tokens `w`, before the tokens `rest`, and its place is that of a token. -/
inductive Located : Node → (w rest : List Token) → Prop
  | own {p n w rest t} (hp : p.isTree = true) (h : Reads p (w ++ rest) [n] rest) (ht : t ∈ w)
      (hk : t.kind ∈ n.anchors) (hn : n.pos? = some t.pos) : Located n w rest
  /-- The key after a dot. -/
  | field {t rest} (ht : t.kind = .identifier) : Located (.string (t.text.getD "") t.pos) [t] rest
  /-- The condition of an `else`. -/
  | otherwise {t rest} (ht : t.kind = .kwElse) : Located (.bool "true" t.pos) [t] rest
  /-- A function declaration has the place of the token after it. -/
  | function {t w x f next rest} (ht : t.kind = .kwFunc)
      (h : Reads .stat (t :: w ++ next :: rest) [.declare [x] (some [f]) true next.pos] (next :: rest)) :
      Located (.declare [x] (some [f]) true next.pos) (t :: w) (next :: rest)

/-- The nodes of the trees that have a place are read between `l` and `l'`. -/
def Within (l l' : List Token) (ns : List Node) : Prop :=
  ∀ n ∈ ns, ∀ k, n.Occurs k → k.pos? ≠ none →
    ∃ before w rest, l = before ++ (w ++ rest) ∧ l' <:+ rest ∧ Located k w rest

namespace Within

variable {l l' l₁ l₂ : List Token} {ns ns' : List Node} {n : Node} {p : Piece} {t : Token}

theorem nil : Within l l' [] := fun _ h => nomatch h

theorem append (h : Within l l' ns) (h' : Within l l' ns') : Within l l' (ns ++ ns') :=
  forall_mem_append.2 ⟨h, h'⟩

theorem left (h : Within l l' (ns ++ ns')) : Within l l' ns := (forall_mem_append.1 h).1

theorem right (h : Within l l' (ns ++ ns')) : Within l l' ns' := (forall_mem_append.1 h).2

theorem cons (h : Within l l' [n]) (h' : Within l l' ns) : Within l l' (n :: ns) := append h h'

theorem mono (h : Within l₁ l₂ ns)
    (hl : l₁ <:+ l := by grind [→ Reads.suffix, List.IsSuffix.trans, suffix_cons, suffix_refl])
    (hl' : l' <:+ l₂ := by grind [→ Reads.suffix, List.IsSuffix.trans, suffix_cons, suffix_refl]) :
    Within l l' ns := by
  intro n hn k hk hp
  obtain ⟨before, w, rest, rfl, hr, hloc⟩ := h n hn k hk hp
  obtain ⟨v, rfl⟩ := hl
  exact ⟨v ++ before, w, rest, (List.append_assoc ..).symm, hl'.trans hr, hloc⟩

theorem of_located (w : List Token) (h : Located n w l') (hparts : Within (w ++ l') l' n.parts) :
    Within (w ++ l') l' [n] := by
  intro n hn k hk hp
  obtain rfl := mem_singleton.1 hn
  rcases occurs_iff.1 hk with rfl | ⟨m, hm, hk⟩
  · exact ⟨[], w, l', rfl, suffix_refl _, h⟩
  · exact hparts m hm k hk hp

theorem node (h : Reads p l [n] l') (hl : t :: l₁ <:+ l) (hk : t.kind ∈ n.anchors)
    (hparts : Within l l' n.parts) (hp : p.isTree = true := by rfl) (hn : n.pos? = some t.pos := by rfl)
    (hl' : l' <:+ l₁ := by grind [→ Reads.suffix, List.IsSuffix.trans, suffix_cons, suffix_refl]) :
    Within l l' [n] := by
  obtain ⟨v, rfl⟩ := hl
  obtain ⟨v', rfl⟩ := hl'
  have e : v ++ t :: (v' ++ l') = (v ++ t :: v') ++ l' := by simp
  rw [e] at h hparts ⊢
  exact of_located _ (.own hp h (by simp) hk hn) hparts

theorem lead (h : Reads p (t :: l) [n] l') (hk : t.kind ∈ n.anchors) (hparts : Within (t :: l) l' n.parts)
    (hp : p.isTree = true := by rfl) (hn : n.pos? = some t.pos := by rfl)
    (hl' : l' <:+ l := by grind [→ Reads.suffix, List.IsSuffix.trans, suffix_cons, suffix_refl]) :
    Within (t :: l) l' [n] :=
  node h (suffix_refl _) hk hparts hp hn hl'

theorem of_placeless (hn : n.pos? = none) (hparts : n.parts = []) : Within l l' [n] := by
  intro n hn k hk hp
  obtain rfl := mem_singleton.1 hn
  rcases occurs_iff.1 hk with rfl | ⟨m, hm, -⟩
  · contradiction
  · rw [hparts] at hm
    cases hm

theorem headD (h : Within l l' ns) : Within l l' [ns.headD .missing] := by
  cases ns with
  | nil => exact of_placeless rfl rfl
  | cons n ns => exact fun x hx => h x (mem_singleton.1 hx ▸ mem_cons_self)

theorem given (h : Within l l' ns) : Within l l' ((TinyScript.given ns).getD []) := by
  rwa [getD_given]

end Within

/-- The trees that belong to the piece besides those that are read. -/
def Piece.carried : Piece → List Node
  | .entries ks => ks
  | .clauses _ cs => cs
  | _ => []

/-- By induction on the reading: a node is read where it is built, its parts where they were read. -/
theorem within_of_reads {p : Piece} {l l' : List Token} {ns : List Node} (h : Reads p l ns l') :
    Within l l' (p.carried ++ ns) := by
  induction h with
  | token | absent | done => exact .nil
  | after _ _ ih => exact ih.right.mono
  | present _ ih | one _ ih => exact ih.right
  | more h _ hx ih ihx => exact ih.mono.append ihx.right.mono
  -- places and functions
  | name ht => exact .lead (.name ht) (mem_singleton.2 ht) .nil
  | base _ ih => exact ih
  | item hb ht hk hu ihb ihk =>
    exact .node (.item hb ht hk hu) hb.suffix (mem_singleton.2 ht) (ihb.mono.cons ihk.mono)
  | @field _ _ _ u l' hb ht hu ihb =>
    have key : Within (u :: l') l' _ := .of_located [u] (.field hu) .nil
    exact .node (.field hb ht hu) hb.suffix (mem_singleton.2 ht) (ihb.mono.cons key.mono)
  | function ht hp hu hv hb hw ihp ihb =>
    exact .lead (.function ht hp hu hv hb hw) (mem_singleton.2 ht) (ihp.mono.given.append ihb.mono)
  | call hp hf ht ha hu ihf iha =>
    exact .node (.call hp hf ht ha hu) hf.suffix (mem_singleton.2 ht)
      (ihf.right.mono.cons iha.mono.given)
  -- operands
  | int ht => exact .lead (.int ht) (mem_singleton.2 ht) .nil
  | float ht => exact .lead (.float ht) (mem_singleton.2 ht) .nil
  | string ht => exact .lead (.string ht) (mem_singleton.2 ht) .nil
  | bool ht => exact .lead (.bool ht) ht .nil
  | null ht => exact .lead (.null ht) (mem_singleton.2 ht) .nil
  | paren _ he _ ih => exact ih.mono
  | listOf ht he hu ih => exact .lead (.listOf ht he hu) (mem_singleton.2 ht) ih.mono.given
  | mapNone ht hu => exact .lead (.mapNone ht hu) (mem_singleton.2 ht) .nil
  | mapOf ht he hu ih => exact .lead (.mapOf ht he hu) (mem_singleton.2 ht) ih.mono
  | setOf ht he hu ih => exact .lead (.setOf ht he hu) (mem_singleton.2 ht) ih.mono
  | operand _ _ ih => exact ih.right
  | entry hk _ hv ihk ihv => exact ihk.mono.append ihv.mono
  | entries h _ hk _ hv ih ihk ihv =>
    exact (ih.left.mono.append ihk.mono).append (ih.right.mono.append ihv.mono)
  -- operators
  | first _ ih | lone _ ih => exact ih.right
  | next ha ht hb iha ihb =>
    exact .node (.next ha ht hb) ha.suffix (mem_singleton_self _) (iha.mono.append ihb.right.mono)
  | compare ha ht hb iha ihb =>
    exact .node (.compare ha ht hb) ha.suffix (mem_singleton_self _)
      (iha.right.mono.append ihb.right.mono)
  | unsigned _ ih => exact ih
  | signed ht h ih => exact .lead (.signed ht h) (mem_singleton_self _) ih.mono
  | plain _ ih => exact ih.right
  | select hc ht hy hu hn ihc ihy ihn =>
    exact .node (.select hc ht hy hu hn) hc.suffix (mem_singleton.2 ht)
      (ihc.right.mono.cons (ihy.mono.cons ihn.mono))
  -- statements
  | @line l ss _ s l' h hs ih ihs =>
    have both : Within l l' (ss ++ [s]) := ih.mono.append ihs.mono
    split
    · exact both.left
    · exact both
  | body _ _ _ ih => exact ih.mono
  | clause hc hb ihc ihb => exact ihc.mono.append ihb.mono
  | clauses h _ hc hb ih ihc ihb =>
    exact (ih.left.mono.append ihc.mono).append (ih.right.mono.append ihb.mono)
  | empty => exact .of_placeless rfl rfl
  | block ht hs hu ih => exact .lead (.block ht hs hu) (mem_singleton.2 ht) ih.mono
  | declare ht hn hi ihn ihi =>
    exact .lead (.declare ht hn hi) ht (ihn.mono.append ihi.mono.given)
  | branch ht hc hu ih => exact .lead (.branch ht hc hu) (mem_singleton.2 ht) ih.mono
  | @branchElse _ _ _ _ u l₁ _ _ ht hc hu hb ih ihb =>
    have cond : Within (u :: l₁) l₁ _ := .of_located [u] (.otherwise hu) .nil
    exact .lead (.branchElse ht hc hu hb) (mem_singleton.2 ht)
      ((ih.left.mono.append cond.mono).append (ih.right.mono.append ihb.mono))
  | switch ht he hk hu hc hv ihe _ ihc =>
    exact .lead (.switch ht he hk hu hc hv) (mem_singleton.2 ht)
      (ihe.mono.cons (.cons (.of_placeless rfl rfl) ihc.mono))
  | switchDefault ht he hk hu hc hv hb ihe _ ihc ihb =>
    exact .lead (.switchDefault ht he hk hu hc hv hb) (mem_singleton.2 ht)
      (ihe.mono.cons (ihb.mono.append ihc.mono))
  | repeatUntil ht hb hu hc ihb ihc =>
    exact .lead (.repeatUntil ht hb hu hc) (mem_singleton.2 ht) (ihc.mono.cons ihb.mono)
  | whileLoop ht hc hb ihc ihb =>
    exact .lead (.whileLoop ht hc hb) (mem_singleton.2 ht) (ihc.mono.cons ihb.mono)
  | forRange ht hx hu hs hv he hd hb ihx ihs ihe ihd ihb =>
    exact .lead (.forRange ht hx hu hs hv he hd hb) (mem_singleton.2 ht)
      (ihx.mono.cons (ihs.mono.cons (ihe.mono.cons (ihd.mono.headD.cons ihb.mono))))
  | forEach ht hx hy hu he hb ihx ihy ihe ihb =>
    exact .lead (.forEach ht hx hy hu he hb) (mem_singleton.2 ht)
      (ihx.mono.cons (ihy.mono.headD.cons (ihe.mono.cons ihb.mono)))
  | breakLoop ht => exact .lead (.breakLoop ht) (mem_singleton.2 ht) .nil
  | continueLoop ht => exact .lead (.continueLoop ht) (mem_singleton.2 ht) .nil
  | @funcStat t _ _ _ _ _ _ ht hx hf ihx ihf =>
    have whole := Reads.funcStat ht hx hf
    obtain ⟨w, rfl⟩ := hf.suffix.trans hx.suffix
    exact .of_located (t :: w) (.function ht whole) (ihx.mono.cons ihf.mono)
  | returnNone ht hu => exact .lead (.returnNone ht hu) (mem_singleton.2 ht) (.of_placeless rfl rfl)
  | returnValue ht he ih => exact .lead (.returnValue ht he) (mem_singleton.2 ht) ih.mono
  | assign ha ht he iha ihe =>
    exact .node (.assign ha ht he) ha.suffix (mem_singleton.2 ht) (iha.mono.append ihe.mono)
  | update ha ht he iha ihe =>
    exact .node (.update ha ht he) ha.suffix (mem_singleton_self _) (iha.mono.append ihe.mono)
  | callStat _ ih => exact ih

theorem nodup_pos_of_tokenize {src : String} {ts : List Token} (h : tokenize src = (ts, none)) :
    (ts.map (·.pos)).Nodup := by
  obtain ⟨us, c', hp, hg, rfl⟩ := Scan.passes_of_tokens (tokenize_eq_iff.1 h).2
  have tiles : Tiles [] _ _ := Scan.tiles_of_passes hp hg rfl
  exact tiles.nodup

/-- In the tree of a text each node is read from a stretch of tokens and has the place of one of them,
but for function declarations, which have the place of the token after them. No two tokens have the same
place. -/
theorem located_of_parse {src : String} {tree : Node} (h : parse src = .ok tree) :
    ∃ ts, tokenize src = (ts, none) ∧ (ts.map (·.pos)).Nodup ∧
      ∀ n, tree.Occurs n → n.pos? ≠ none →
        ∃ before w rest, ts = before ++ (w ++ rest) ∧ Located n w rest := by
  obtain ⟨stats, ts, t, ts', rfl, htok, -, -, hread⟩ := reads_of_parse h
  refine ⟨ts, htok, nodup_pos_of_tokenize htok, fun n hn hp => ?_⟩
  rcases occurs_iff.1 hn with rfl | ⟨s, hs, hn⟩
  · exact absurd rfl hp
  · obtain ⟨before, w, rest, e, -, hloc⟩ := within_of_reads hread s hs n hn hp
    exact ⟨before, w, rest, e, hloc⟩

def functionFirst : String := "func f() {} x = 1"

theorem located_of_parse_functionFirst : parse functionFirst = .ok (treeOf functionFirst) ∧
    ∃ n, (treeOf functionFirst).Occurs n ∧ n.anchors = [.kwVar, .kwConst] ∧ n.pos? = some ⟨1, 13⟩ ∧
      ∃ before w rest, (tokenize functionFirst).1 = before ++ (w ++ rest) ∧ Located n w rest := by
  have h : parse functionFirst = .ok (treeOf functionFirst) := parse_eq_treeOf (by decide +kernel)
  have first : (treeOf functionFirst).parts.head?.any
      (fun n => decide (n.anchors = [.kwVar, .kwConst] ∧ n.pos? = some ⟨1, 13⟩)) = true := by decide +kernel
  obtain ⟨n, hn, hdecl⟩ := (Option.any_eq_true _ _).1 first
  obtain ⟨hanchors, hp⟩ := of_decide_eq_true hdecl
  have occurs := Occurs.part .self (List.mem_of_head? hn)
  obtain ⟨ts, htok, -, hloc⟩ := located_of_parse h
  exact ⟨h, n, occurs, hanchors, hp, by rw [htok]; exact hloc n occurs (by simp [hp])⟩

end TinyScript
