import TinyScript.Proofs.Syntax

/-!
# Where a program finds its names

One name at most, that in `w`, is followed through a program. What is known of it is a list with an entry
for each record that a run is in, the innermost first: `none` if the record does not bind the name, `some b`
if it does, as a constant or not. There may also be nothing known (`View`). `Finds w W e`: with that much
known, the expression `e` is never in want of the name. `Passes w W s W'`: the statement `s` is never in want
of it, nor declares it twice or assigns to a constant, and leaves `W'` known. Functions are not followed, so
they may not mention the name. What does not mention it passes whatever is known (`passes_of_avoids`).
-/

namespace TinyScript

open List

/-- What is known of the bindings of a name. -/
abbrev View := Option (List (Option Bool))

namespace View

/-- One more record. -/
def push (o : Option Bool) (W : View) : View := W.map (o :: ·)

/-- The innermost binding. -/
def found (W : View) : Option Bool := W.bind (·.findSome? id)

/-- The name `y` is bound in the innermost record. -/
def set (w : Option String) (y : String) (b : Bool) (W : View) : View :=
  if w = some y then W.map fun V => some b :: V.tail else W

theorem set_push (w : Option String) (y : String) (b : Bool) (o : Option Bool) (W : View) :
    (W.push o).set w y b = W.push (if w = some y then some b else o) := by
  unfold set
  split
  · cases W <;> rfl
  · rfl

/-- What a loop binds in its record. -/
def entry (w : Option String) (names : List String) : Option Bool :=
  if ∃ y ∈ names, w = some y then some true else none

theorem entry_singleton (w : Option String) (y : String) :
    entry w [y] = if w = some y then some true else none := by
  simp only [entry, mem_singleton, exists_eq_left]

theorem entry_of_set {w : Option String} {names : List String} {o : Option Bool} {P : Prop} [Decidable P]
    (ho : o = none ∨ o = entry w names) (hP : P ↔ ∃ y ∈ names, w = some y) :
    (if P then some true else o) = entry w names := by
  unfold entry at ho ⊢
  by_cases h : P
  · rw [if_pos h, if_pos (hP.1 h)]
  · rw [if_neg (mt hP.2 h), or_self] at ho
    rw [if_neg h, if_neg (mt hP.2 h), ho]

end View

/-! ### Expressions -/

/-- The expression is not in want of the name. -/
inductive Finds (w : Option String) (W : View) : Node → Prop
  | avoids {e} (he : e.IsExpr) (h : e.Avoids w) : Finds w W e
  | name {y p} (h : w = some y → W.found.isSome = true) : Finds w W (.name y p)
  | call {callee args p} (hc : Finds w W callee) (ha : ∀ a ∈ args.getD [], Finds w W a) :
      Finds w W (.call callee args p)
  | select {cond yes no p} (hc : Finds w W cond) (hy : Finds w W yes) (hn : Finds w W no) :
      Finds w W (.select cond yes no p)
  | binary {op left right p} (hop : op ∉ TokenKind.updates) (hl : Finds w W left)
      (hr : Finds w W right) : Finds w W (.binary op left right p)
  | unary {op operand p} (ho : Finds w W operand) : Finds w W (.unary op operand p)

namespace Finds

variable {w : Option String} {W : View}

theorem isExpr {e : Node} (h : Finds w W e) : e.IsExpr := by
  induction h with
  | avoids he _ => exact he
  | name => exact .name
  | call _ _ ihc iha => exact .call ihc iha
  | select _ _ _ ihc ihy ihn => exact .select ihc ihy ihn
  | binary hop _ _ ihl ihr => exact .binary hop ihl ihr
  | unary _ iho => exact .unary iho

theorem unmentioned {x : String} {e : Node} (he : e.IsExpr) (h : ¬e.Mentions x) : Finds (some x) W e :=
  .avoids he fun _ hx => Option.mem_some.1 hx ▸ h

theorem part {e k : Node} (h : Finds w W e) (hk : k ∈ e.parts) (he : k.IsExpr) : Finds w W k := by
  cases h with
  | avoids _ h => exact .avoids he (h.part hk)
  | name => cases hk
  | call hc ha => exact forall_mem_cons.2 ⟨hc, ha⟩ k hk
  | select hc hy hn =>
    simp only [Node.parts, mem_cons, not_mem_nil, or_false] at hk
    rcases hk with rfl | rfl | rfl
    · exact hc
    · exact hy
    · exact hn
  | binary _ hl hr =>
    simp only [Node.parts, mem_cons, not_mem_nil, or_false] at hk
    rcases hk with rfl | rfl
    · exact hl
    · exact hr
  | unary ho =>
    rw [mem_singleton.1 hk]
    exact ho

theorem found {y : String} {p : Position} (h : Finds w W (.name y p)) (hw : w = some y) :
    W.found.isSome = true := by
  cases h with
  | avoids _ h => exact absurd ⟨p, .self⟩ (h y hw)
  | name h => exact h hw

end Finds

/-! ### Statements -/

/-- The names are declared one after the other, the one that is followed for the first time. -/
inductive Declares (w : Option String) (b : Bool) : View → List Node → View → Prop
  | nil {W} : Declares w b W [] W
  | cons {W W' : View} {y p ns} (hy : w = some y → ∃ V, W = some (none :: V))
      (hs : Declares w b (W.set w y b) ns W') : Declares w b W (.name y p :: ns) W'

namespace Declares

variable {w : Option String} {b : Bool} {ns : List Node}

theorem others {W : View} (hn : ∀ n ∈ ns, n.IsName) (hx : ∀ x ∈ w, x ∉ ns.filterMap Node.ident?) :
    Declares w b W ns W := by
  induction ns with
  | nil => exact .nil
  | cons n ns ih =>
    obtain ⟨⟨y, p, rfl⟩, hns⟩ := forall_mem_cons.1 hn
    have ne : w ≠ some y := fun h => hx y h mem_cons_self
    refine .cons (fun h => absurd h ne) ?_
    rw [View.set, if_neg ne]
    exact ih hns fun x hw h => hx x hw (mem_cons_of_mem _ h)

theorem once {x : String} {V : List (Option Bool)} (hn : ∀ n ∈ ns, n.IsName)
    (hx : (ns.filterMap Node.ident?).count x = 1) :
    Declares (some x) b (some (none :: V)) ns (some (some b :: V)) := by
  induction ns with
  | nil => cases hx
  | cons n ns ih =>
    obtain ⟨⟨y, p, rfl⟩, hns⟩ := forall_mem_cons.1 hn
    rw [filterMap_cons_some (rfl : (Node.name y p).ident? = some y)] at hx
    refine .cons (fun _ => ⟨V, rfl⟩) ?_
    by_cases hy : y = x
    · subst hy
      rw [count_cons_self] at hx
      rw [View.set, if_pos rfl]
      refine others hns fun z hz => ?_
      cases hz
      exact count_eq_zero.1 (Nat.succ.inj hx)
    · rw [count_cons_of_ne hy] at hx
      rw [View.set, if_neg fun h => hy (Option.some.inj h).symm]
      exact ih hns hx

end Declares

/-- What is assigned to is not in want of the name, and is not the name of a constant. -/
def Settable (w : Option String) (W : View) (t : Node) : Prop :=
  Finds w W t ∧ ∀ y p, t = .name y p → w = some y → W.found = some false

mutual

/-- The statement is not in want of the name, and leaves the second view. -/
inductive Passes (w : Option String) : View → Node → View → Prop
  | empty {W} : Passes w W .empty W
  | block {W W' stats p} (h : PassesAll w (W.push none) stats W') : Passes w W (.block stats p) W
  | declare {W W' names inits isConst p} (hi : ∀ e ∈ inits.getD [], Finds w W e)
      (hn : Declares w isConst W names W') : Passes w W (.declare names inits isConst p) W'
  | branch {W conds bodies p} (hc : ∀ k ∈ conds.zip bodies, Finds w W k.1)
      (hb : ∀ k ∈ conds.zip bodies, Passes w W k.2 W) : Passes w W (.branch conds bodies p) W
  | switch {W subject cases bodies fallback p} (hs : Finds w W subject)
      (hc : ∀ k ∈ cases.zip bodies, Finds w W k.1) (hb : ∀ k ∈ cases.zip bodies, Passes w W k.2 W)
      (hf : fallback ≠ .missing → Passes w W fallback W) :
      Passes w W (.switch subject cases bodies fallback p) W
  | repeatUntil {W cond body p} (hc : Finds w (W.push none) cond)
      (hb : Passes w (W.push none) body (W.push none)) : Passes w W (.repeatUntil cond body p) W
  | whileLoop {W cond body p} (hc : Finds w (W.push none) cond)
      (hb : Passes w (W.push none) body (W.push none)) : Passes w W (.whileLoop cond body p) W
  | forRange {W W' y q start stop step body p} (hs : Finds w W start) (he : Finds w W stop)
      (hd : step ≠ .missing → Finds w W step) (hW : W' = W.push (View.entry w [y]))
      (hb : Passes w W' body W') : Passes w W (.forRange (.name y q) start stop step body p) W
  | forEach {W W' key val subject body p} (hk : key.IsName) (hv : val ≠ .missing → val.IsName)
      (hs : Finds w (W.push none) subject)
      (hW : W' = W.push (View.entry w ([key, val].filterMap Node.ident?))) (hb : Passes w W' body W') :
      Passes w W (.forEach key val subject body p) W
  | breakLoop {W p} : Passes w W (.breakLoop p) W
  | continueLoop {W p} : Passes w W (.continueLoop p) W
  | returnValue {W expr p} (he : expr ≠ .missing → Finds w W expr) : Passes w W (.returnValue expr p) W
  | assign {W targets sources p} (ht : ∀ t ∈ targets, Settable w W t)
      (hs : ∀ e ∈ sources, Finds w W e) : Passes w W (.assign targets sources p) W
  | update {W op target source p} (ht : Finds w W target) (hs : Finds w W source) :
      Passes w W (.update op target source p) W
  | call {W callee args p} (hc : Finds w W callee) (ha : ∀ a ∈ args.getD [], Finds w W a) :
      Passes w W (.call callee args p) W

/-- Statements one after the other. -/
inductive PassesAll (w : Option String) : View → List Node → View → Prop
  | nil {W} : PassesAll w W [] W
  | cons {W W' W'' s ss} (h : Passes w W s W') (hs : PassesAll w W' ss W'') : PassesAll w W (s :: ss) W''

end

variable {w : Option String} {W : View}

theorem PassesAll.of_forall {ss : List Node} (h : ∀ s ∈ ss, Passes w W s W) : PassesAll w W ss W := by
  induction ss with
  | nil => exact .nil
  | cons s ss ih =>
    obtain ⟨hs, hss⟩ := forall_mem_cons.1 h
    exact .cons hs (ih hss)

theorem passes_of_avoids {s : Node} (hs : s.IsStat) (h : s.Avoids w) : Passes w W s W := by
  induction s using Node.induct_parts generalizing W with
  | h s ih =>
    have expr : ∀ {k : Node} {W : View}, k ∈ s.parts → k.IsExpr → Finds w W k :=
      fun hk he => .avoids he (h.part hk)
    have stat : ∀ {k : Node} {W : View}, k ∈ s.parts → k.IsStat → Passes w W k W :=
      fun hk hs => ih _ hk hs (h.part hk)
    -- clauses come in pairs
    have conds : ∀ {es ss : List Node}, (∀ e ∈ es, e ∈ s.parts ∧ e.IsExpr) →
        ∀ k ∈ es.zip ss, Finds w W k.1 :=
      fun he k hk => expr (he _ (of_mem_zip hk).1).1 (he _ (of_mem_zip hk).1).2
    have bodies : ∀ {es ss : List Node}, (∀ b ∈ ss, b ∈ s.parts ∧ b.IsStat) →
        ∀ k ∈ es.zip ss, Passes w W k.2 W :=
      fun hb k hk => stat (hb _ (of_mem_zip hk).2).1 (hb _ (of_mem_zip hk).2).2
    cases hs with
    | empty => exact .empty
    | block hs => exact .block (.of_forall fun s hmem => stat hmem (hs s hmem))
    | declare hn hi =>
      refine .declare (fun e he => expr (mem_append_right _ he) (hi e he)) (.others hn fun x hx hm => ?_)
      obtain ⟨n, hmem, hname⟩ := mem_filterMap.1 hm
      exact h.part (mem_append_left _ hmem) x hx (Node.mentions_iff.2 (.inl hname))
    | branch hc hb =>
      exact .branch (conds fun e he => ⟨mem_append_left _ he, hc e he⟩)
        (bodies fun b hmem => ⟨mem_append_right _ hmem, hb b hmem⟩)
    | switch hs hc hb hf =>
      exact .switch (expr mem_cons_self hs) (conds fun e he => ⟨by simp [Node.parts, he], hc e he⟩)
        (bodies fun b hmem => ⟨by simp [Node.parts, hmem], hb b hmem⟩)
        fun ne => stat (by simp [Node.parts]) (hf ne)
    | repeatUntil hc hb => exact .repeatUntil (expr (by simp [Node.parts]) hc) (stat (by simp [Node.parts]) hb)
    | whileLoop hc hb => exact .whileLoop (expr (by simp [Node.parts]) hc) (stat (by simp [Node.parts]) hb)
    | forRange hv hs he hd hb =>
      obtain ⟨y, q, rfl⟩ := hv
      exact .forRange (expr (by simp [Node.parts]) hs) (expr (by simp [Node.parts]) he)
        (fun ne => expr (by simp [Node.parts]) (hd ne)) rfl (stat (by simp [Node.parts]) hb)
    | forEach hk hv hs hb =>
      exact .forEach hk hv (expr (by simp [Node.parts]) hs) rfl (stat (by simp [Node.parts]) hb)
    | breakLoop => exact .breakLoop
    | continueLoop => exact .continueLoop
    | returnValue he => exact .returnValue fun ne => expr mem_cons_self (he ne)
    | assign ht hs =>
      refine .assign (fun t hmem => ⟨expr (mem_append_left _ hmem) (ht t hmem), fun y p e hw => ?_⟩)
        fun e he => expr (mem_append_right _ he) (hs e he)
      subst e
      exact absurd ⟨p, .self⟩ (h.part (mem_append_left _ hmem) y hw)
    | update ht hs => exact .update (expr (by simp [Node.parts]) ht) (expr (by simp [Node.parts]) hs)
    | call hc ha =>
      exact .call (expr mem_cons_self hc) fun a hmem => expr (mem_cons_of_mem _ hmem) (ha a hmem)

end TinyScript
