import TinyScript.Proofs.Raises

/-!
# What becomes of a machine in a run

The evaluator is gone through once. A run of a statement or expression of the grammar, on any good
machine, keeps the machine good, proceeds or breaks off as `Evolution` has it, and fails with an
excuse only (`visits_visitCut`); an expression yields a value. Frozen cells stay as they are as long
as runs are cut short at the operators that would write to them. Of the two loops that bind names in
their own record, one needs to know that its variable stays a number, the other that its container
stays one; both follow from what the body of the loop keeps.
-/

namespace TinyScript

open Exec List CallStack

variable {c : Setting} {S : List String} {W W' : View} {m m' : Machine} {n : Node} {α : Type}

/-- An expression of the setting, which finds the watched name. -/
structure Setting.Expr (c : Setting) (W : View) (e : Node) : Prop where
  node : c.nodes e
  finds : Finds c.watched W e

/-- A statement of the setting, and what is known of the watched name after it. -/
structure Setting.Stat (c : Setting) (W : View) (s : Node) (W' : View) : Prop where
  node : c.nodes s
  passes : Passes c.watched W s W'

theorem Setting.Expr.part {e k : Node} (hc : c.Closed) (h : c.Expr W e) (hk : k ∈ e.parts)
    (he : k.IsExpr) : c.Expr W k := ⟨hc e h.node k hk, h.finds.part hk he⟩

theorem Setting.avoids (hw : c.watched = none) (n : Node) : n.Avoids c.watched := by
  intro x hx
  rw [hw] at hx
  cases hx

/-- Where no name is watched, nothing need be known of one. -/
theorem Setting.Expr.unwatched {e : Node} (hw : c.watched = none) (he : e.IsExpr) (hn : c.nodes e) :
    c.Expr W e := ⟨hn, .avoids he (Setting.avoids hw e)⟩

theorem Setting.Stat.unwatched {s : Node} (hw : c.watched = none) (hs : s.IsStat) (hn : c.nodes s) :
    c.Stat W s W := ⟨hn, passes_of_avoids hs (Setting.avoids hw s)⟩

theorem PassesAll.unwatched {ss : List Node} (hw : c.watched = none) (hs : ∀ s ∈ ss, s.IsStat) :
    PassesAll c.watched W ss W :=
  .of_forall fun s hmem => passes_of_avoids (hs s hmem) (Setting.avoids hw s)

/-- Runs of nodes in the setting go as they should. -/
structure Visits (c : Setting) (visit : Node → Exec Slot) : Prop where
  expr : ∀ {e : Node} {S : List String} {W : View} {m : Machine}, c.Expr W e → m.Good c W →
    Yields c S W (visit e) m
  stat : ∀ {s : Node} {S : List String} {W W' : View} {m : Machine}, c.Stat W s W' → m.Good c W →
    Does c S W' (visit s) m

/-- There is a record on top of the one at the bottom. -/
def MachineOf.Nested (m : Machine) : Prop := ∃ r r₁ rs, m.stack.records = r :: r₁ :: rs

theorem Proceeds.nested (h : Proceeds c S m m') (hm : m.Nested) : m'.Nested := by
  obtain ⟨r, r₁, rs, e⟩ := hm
  have hk := h.records
  rw [e] at hk
  generalize e' : m'.stack.records = rs' at hk
  cases hk with
  | cons _ hk =>
    cases hk with
    | cons => exact ⟨_, _, _, e'⟩

theorem Proceeds.top {r : Record} {rs : List Record} {x : String} {b : Binding}
    (h : Proceeds c [] m m') (hr : m.stack.records = r :: rs) (hx : r.get? x = some b)
    (hb : b.isConst = true) : ∃ r' rs', m'.stack.records = r' :: rs' ∧ r'.get? x = some b := by
  have hk := h.records
  rw [hr] at hk
  generalize m'.stack.records = rs' at hk
  cases hk with
  | cons hr _ => exact ⟨_, _, rfl, hr.constants x _ hx hb not_mem_nil⟩

/-- The innermost record belongs to a loop over a range: it binds `x` as a constant to a number, the
end of the range is a number, and so is the step unless one was given. -/
structure InRange (x : String) (stop step : Slot) (given : Bool) (m : Machine) : Prop where
  nested : m.Nested
  top : ∃ r rs v, m.stack.records = r :: rs ∧ r.get? x = some ⟨some v, true⟩ ∧
    m.store.IsNum (some v)
  stop : m.store.IsNum stop
  live : Live m.store.cells.size step
  step : given = false → m.store.IsNum step

theorem InRange.proceeds {x : String} {stop step : Slot} {given : Bool}
    (h : InRange x stop step given m) (hp : Proceeds c [] m m') : InRange x stop step given m' := by
  obtain ⟨r, rs, v, e, hx, hnum⟩ := h.top
  obtain ⟨r', rs', e', hx'⟩ := hp.top e hx rfl
  exact ⟨hp.nested h.nested, ⟨r', rs', v, e', hx', hp.store.isNum hnum⟩, hp.store.isNum h.stop,
    hp.live h.live, fun hg => hp.store.isNum (h.step hg)⟩

/-- A loop goes through the list or map `x` and has come to the key `k`. -/
structure InEach (x k : Slot) (m : Machine) : Prop where
  nested : m.Nested
  live : Live m.store.cells.size x
  container : m.store.IsContainer x
  key : Live m.store.cells.size k
  cursor : m.store.IsCursor x k

theorem InEach.evolves {x k : Slot} (h : InEach x k m) (ev : m.store.Evolves c m'.store)
    (hd : m'.Nested) : InEach x k m' :=
  ⟨hd, h.live.mono ev.size, ev.isContainer h.live h.container, h.key.mono ev.size,
    ev.isCursor h.live h.key h.cursor⟩

theorem InEach.proceeds {x k : Slot} (h : InEach x k m) (hp : Proceeds c S m m') : InEach x k m' :=
  h.evolves hp.store (hp.nested h.nested)

/-! ### What is left of a list or a loop -/

namespace Eval

/-- Goes on with the statements of a block or function, after one of them. -/
def goOn (visit : Node → Exec Slot) (settle : Exec Bool) (ns : List Node) : Exec Unit := do
  if ← settle then runSettled visit settle ns else pure ()

theorem runSettled_cons (visit : Node → Exec Slot) (settle : Exec Bool) (n : Node) (ns : List Node) :
    runSettled visit settle (n :: ns) = (do let _ ← visit n; goOn visit settle ns) := rfl

/-- Goes on with a loop of up to `n` rounds, at the end of one. -/
def goRound {γ : Type} (round : γ → Exec (Option γ)) (n : Nat) (tail : Exec (Option γ)) :
    Exec Unit := do
  match ← tail with
  | some a => iterate round n a
  | none => pure ()

theorem iterate_succ {γ : Type} (round : γ → Exec (Option γ)) (n : Nat) (a : γ) :
    iterate round (n + 1) a = goRound round n (round a) := rfl

/-- What follows the body in a round of `repeat`. -/
def repeatTail (visit : Node → Exec Slot) (cond : Node) : Exec (Option Unit) := do
  if ← settleLoop then
    return if ← condition visit cond then none else some ()
  else return none

/-- What follows the body in a round of a loop over a range, if the variable was `v` in it. -/
def rangeTail (x : String) (p : Position) (v step : Slot) : Exec (Option Unit) := do
  if ← settleLoop then
    let v' ← mem (Mem.add v step)
    setName x p (some v') true
    return some ()
  else return none

/-- What follows the body in a round of other loops, which go on from `a`. -/
def loopTail {γ : Type} (a : γ) : Exec (Option γ) := do
  return if ← settleLoop then some a else none

def repeatRound (visit : Node → Exec Slot) (cond body : Node) : Exec (Option Unit) := do
  let _ ← visit body
  repeatTail visit cond

def whileRound (visit : Node → Exec Slot) (cond body : Node) : Exec (Option Unit) := do
  if ← condition visit cond then
    let _ ← visit body
    loopTail ()
  else return none

end Eval

namespace Runs

variable {X : Halt → Prop} {x : Exec α} {Q : α → Machine → Prop}

/-- What an action keeps of a record stands also where names of `S` may change. -/
theorem steady (hx : Runs c [] W X x Q m) :
    Runs c S W X x (fun a m' => Q a m' ∧ Proceeds c [] m m') m :=
  wp_mono hx (fun _ _ h => ⟨h.1, h.2.1.widen (nil_subset S), h.2.2, h.2.1⟩)
    fun _ _ h => ⟨h.1, h.2.1.widen (nil_subset S), h.2.2⟩

theorem witness (hx : Runs c S W X x Q m) :
    Runs c S W X x (fun a m' => Q a m' ∧ x m = .ok a m') m := by
  unfold Runs at hx ⊢
  cases h : x m with
  | ok a m₁ =>
    obtain ⟨hm₁, hp, hq⟩ := (wp_of_ok h).1 hx
    exact (wp_of_ok h).2 ⟨hm₁, hp, hq, rfl⟩
  | error e m₁ => exact (wp_of_error h).2 ((wp_of_error h).1 hx)

theorem new {v : Value} (hm : m.Good c W) (hs : v.Sound 0) (hv : v.Made c)
    (ht : v.isContainer = false) :
    Runs c S W X (Eval.new v) (fun x m' => Live m'.store.cells.size x ∧ m'.store.get? x = some v) m := by
  have acts := Mem.Acts.allocPlain (X := fun _ => False) hm.store hs hv ht
  refine map (mem hm acts fun _ h => h.elim) fun r m₁ h => ?_
  exact ⟨.some h.1, congrArg some h.2⟩

theorem newNull (hm : m.Good c W) :
    Runs c S W X (some <$> Exec.mem Mem.newNull)
      (fun x m' => Live m'.store.cells.size x ∧ m'.store.get? x = some .null) m :=
  new hm trivial trivial rfl

section Parts

variable {visit : Node → Exec Slot} (hv : Visits c visit)
variable {ns es : List Node} {settle : Exec Bool} {clauses : List (Node × Node)} {vs : List Slot}
  {v : Slot} {st : RecordState} {word : String} {cond body start stop step key val : Node}
  {q p : Position} {f : Closure} {args : Option (List Node)} {action : HostAction}
include hv

theorem runAll (hn : ∀ s ∈ ns, c.nodes s) (hp : PassesAll c.watched W ns W') (hm : m.Good c W) :
    Does c S W' (Eval.runAll visit ns) m := by
  induction ns generalizing W m with
  | nil =>
    cases hp
    exact pure hm trivial
  | cons s ss ih =>
    obtain ⟨hn₁, hn₂⟩ := forall_mem_cons.1 hn
    cases hp with
    | cons h hs => exact bind (hv.stat ⟨hn₁, h⟩ hm) fun _ _ hm₁ _ _ => ih hn₂ hs hm₁

theorem values (he : ∀ e ∈ es, c.Expr W e) (hm : m.Good c W) :
    Runs c S W (Excused c) (Eval.values visit es) (fun vs m' => ∀ v ∈ vs, Live m'.store.cells.size v) m := by
  induction es generalizing m with
  | nil => exact pure hm fun _ h => absurd h not_mem_nil
  | cons e es ih =>
    obtain ⟨he₁, he₂⟩ := forall_mem_cons.1 he
    refine bind (hv.expr he₁ hm) fun v m₁ hm₁ _ hv₁ => ?_
    refine bind (ih he₂ hm₁) fun vs m₂ hm₂ hp₂ hvs => pure hm₂ ?_
    exact forall_mem_cons.2 ⟨hp₂.live hv₁, hvs⟩

theorem valueOr {v : Value} (he : n ≠ .missing → c.Expr W n) (hm : m.Good c W)
    (hs : v.Sound 0) (hv' : v.Made c) (ht : v.isContainer = false) :
    Runs c S W (Excused c) (Eval.valueOr visit v n) (fun x m' => Live m'.store.cells.size x ∧
      (n.isMissing = true → m'.store.get? x = some v)) m := by
  unfold Eval.valueOr
  split
  · exact (new hm hs hv' ht).mono (fun _ _ h => ⟨h.1, fun _ => h.2⟩) fun _ h => h
  · rename_i hmiss
    exact (hv.expr (he (Node.ne_missing hmiss)) hm).mono (fun _ _ h => ⟨h, fun e => absurd e hmiss⟩) fun _ h => h

theorem condition (he : c.Expr W n) (hm : m.Good c W) : Does c S W (Eval.condition visit n) m := by
  obtain ⟨p, hp⟩ := he.finds.isExpr.exists_pos
  refine reportTurn (k := .operand) ?_ fun o => ⟨p, _, by rw [Exec.reportAt, hp], rfl⟩
  refine bind ((hv.expr he hm).failing fun _ h => .inl h) fun v m₁ hm₁ _ _ => ?_
  exact mem hm₁ (Mem.Acts.truth hm₁.store v) fun f hf => .inr ⟨f, rfl, hf⟩

/-! ### Blocks and functions -/

omit hv in
theorem reset (hm : m.Good c W) (hd : m.Nested) (name what : String) (b : Bool) :
    Runs c S W X (do Exec.setState .normal; Exec.noteJump name what; return b) (fun _ _ => True) m := by
  obtain ⟨r, r₁, rs, e⟩ := hd
  refine bind (setState hm e .normal) fun _ m₁ hm₁ _ _ => ?_
  exact bind (noteJump hm₁ name what) fun _ m₂ hm₂ _ _ => pure hm₂ trivial

omit hv in
theorem settleBlock (hm : m.Good c W) (hd : m.Nested) :
    Runs c S W X Eval.settleBlock (fun _ _ => True) m := by
  obtain ⟨r, r₁, rs, e⟩ := hd
  refine bind (currentRecord hm e) fun r' m₁ hm₁ _ h => ?_
  obtain ⟨rfl, rfl⟩ := h
  split
  · exact pure hm₁ trivial
  all_goals exact reset hm₁ ⟨_, _, _, e⟩ _ _ _

omit hv in
theorem settleLoop (hm : m.Good c W) (hd : m.Nested) :
    Runs c S W X Eval.settleLoop (fun _ _ => True) m := by
  obtain ⟨r, r₁, rs, e⟩ := hd
  refine bind (currentRecord hm e) fun r' m₁ hm₁ _ h => ?_
  obtain ⟨rfl, rfl⟩ := h
  split
  · exact pure hm₁ trivial
  all_goals exact reset hm₁ ⟨_, _, _, e⟩ _ _ _

omit hv in
theorem settleFunction (hm : m.Good c W) (hd : m.Nested) :
    Runs c S W X Eval.settleFunction (fun _ _ => True) m := by
  obtain ⟨r, r₁, rs, e⟩ := hd
  refine bind (currentRecord hm e) fun r' m₁ hm₁ _ h => ?_
  obtain ⟨rfl, rfl⟩ := h
  split
  · exact reset hm₁ ⟨_, _, _, e⟩ _ _ _
  · exact pure hm₁ trivial

omit hv in
theorem goOn (settles : ∀ {m : Machine}, m.Good c W → m.Nested →
      Runs c S W X settle (fun _ _ => True) m) (rest : ∀ {m : Machine}, m.Good c W → m.Nested →
      Runs c S none X (Eval.runSettled visit settle ns) (fun _ _ => True) m) (hm : m.Good c W)
    (hd : m.Nested) : Runs c S none X (Eval.goOn visit settle ns) (fun _ _ => True) m := by
  refine bind (settles hm hd) fun b m₁ hm₁ hp₁ _ => ?_
  split
  · exact rest hm₁ (hp₁.nested hd)
  · exact pure hm₁.blind trivial

theorem runSettled (hn : ∀ s ∈ ns, c.nodes s) (hp : PassesAll c.watched W ns W')
    (settles : ∀ {W : View} {m : Machine}, m.Good c W → m.Nested → Does c S W settle m) (hm : m.Good c W)
    (hd : m.Nested) : Does c S none (Eval.runSettled visit settle ns) m := by
  induction ns generalizing W m with
  | nil => exact pure hm.blind trivial
  | cons s ss ih =>
    obtain ⟨hn₁, hn₂⟩ := forall_mem_cons.1 hn
    cases hp with
    | cons h hs =>
      rw [Eval.runSettled_cons]
      refine bind (hv.stat ⟨hn₁, h⟩ hm) fun _ m₁ hm₁ hp₁ _ => ?_
      exact goOn settles (ih hn₂ hs) hm₁ (hp₁.nested hd)

omit hv in
theorem withinNew {name : String} {kind : RecordKind} {x : Exec Unit} (hm : m.Good c W)
    (hx : ∀ m₁, m₁.Good c (W.push none) → m₁.Nested → Does c S none x m₁) :
    Does c [] W (Exec.within { name := name, kind := kind } x) m := by
  refine within (S := S) (U := none) (Q := fun _ _ => True) hm (RecordOf.good_new _ _ _) (.known fun _ _ => .none)
    (fun h f => .shown h f) (fun m₁ hm₁ _ e => ?_)
    fun _ _ _ _ _ => trivial
  obtain ⟨r, rs, e₀⟩ := exists_records hm
  rw [e₀] at e
  exact hx m₁ hm₁ ⟨_, _, _, e⟩

/-! ### Clauses -/

theorem runBranches (hs : ∀ k ∈ clauses, c.Expr W k.1 ∧ c.Stat W k.2 W) (hm : m.Good c W) :
    Does c S W (Eval.runBranches visit clauses) m := by
  induction clauses generalizing m with
  | nil => exact pure hm trivial
  | cons k ks ih =>
    obtain ⟨⟨he, hb⟩, hs₂⟩ := forall_mem_cons.1 hs
    refine bind (condition hv he hm) fun b m₁ hm₁ _ _ => ?_
    split
    · exact bind (hv.stat hb hm₁) fun _ _ hm₂ _ _ => pure hm₂ trivial
    · exact ih hs₂ hm₁

theorem runCases {subject : Slot} (hsw : c.nodes n)
    (hr : n.raises = [.operand .typesDiffer, .fault .missingPart])
    (hs : ∀ k ∈ clauses, c.Expr W k.1 ∧ c.Stat W k.2 W) (hm : m.Good c W) :
    Does c S W (Eval.runCases visit subject clauses) m := by
  induction clauses generalizing m with
  | nil => exact pure hm trivial
  | cons k ks ih =>
    obtain ⟨⟨he, hb⟩, hs₂⟩ := forall_mem_cons.1 hs
    refine bind (hv.expr he hm) fun v m₁ hm₁ _ _ => ?_
    refine bind (mem hm₁ (Mem.Acts.equals hm₁.store subject v) fun f hf => ?_) fun b m₂ hm₂ _ _ => ?_
    · refine .of_raises hsw ?_
      rw [hr]
      rcases hf with rfl | rfl <;> simp
    · split
      · exact bind (hv.stat hb hm₂) fun _ _ hm₃ _ _ => pure hm₃ trivial
      · exact ih hs₂ hm₂

/-! ### Declarations and assignments -/

theorem valuesFor (count : Nat) (he : ∀ e ∈ es, c.Expr W e) (hm : m.Good c W) :
    Runs c S W (Excused c) (Eval.valuesFor visit count es)
      (fun vs m' => vs.length = count ∧ ∀ v ∈ vs, Live m'.store.cells.size v) m := by
  -- one value, and then the others
  have more {v : Slot} {m₁ m₂ : Machine} {vs : List Slot} {count : Nat} (hv : Live m₁.store.cells.size v)
      (hp : Proceeds c S m₁ m₂) (h : vs.length = count ∧ ∀ v ∈ vs, Live m₂.store.cells.size v) :
      (v :: vs).length = count + 1 ∧ ∀ w ∈ v :: vs, Live m₂.store.cells.size w :=
    ⟨congrArg (· + 1) h.1, forall_mem_cons.2 ⟨hp.live hv, h.2⟩⟩
  induction count generalizing es m with
  | zero => exact pure hm ⟨rfl, fun _ h => absurd h not_mem_nil⟩
  | succ count ih =>
    cases es with
    | nil =>
      have acts := Mem.Acts.newNull (X := fun _ => False) hm.store
      refine bind (mem hm acts fun _ h => h.elim) fun r m₁ hm₁ _ hr => ?_
      exact bind (ih he hm₁) fun vs m₂ hm₂ hp₂ hvs => pure hm₂ (more (.some hr.1) hp₂ hvs)
    | cons e es =>
      obtain ⟨he₁, he₂⟩ := forall_mem_cons.1 he
      refine bind (hv.expr he₁ hm) fun v m₁ hm₁ _ hv₁ => ?_
      exact bind (ih he₂ hm₁) fun vs m₂ hm₂ hp₂ hvs => pure hm₂ (more hv₁ hp₂ hvs)

omit hv in
theorem declareAll {isConst : Bool} (hd : Declares c.watched isConst W ns W')
    (hlen : vs.length = ns.length) (hvs : ∀ v ∈ vs, Live m.store.cells.size v) (hm : m.Good c W) :
    Does c S W' (Eval.declareAll isConst ns vs) m := by
  induction ns generalizing W vs m with
  | nil =>
    cases hd
    exact pure hm trivial
  | cons x ns ih =>
    cases vs with
    | nil => cases hlen
    | cons v vs =>
      cases hd with
      | @cons _ _ y p _ hy hd =>
        obtain ⟨hv₁, hv₂⟩ := forall_mem_cons.1 hvs
        obtain ⟨r, rs, e⟩ := exists_records hm
        refine bind (currentRecord hm e) fun r' m₁ hm₁ _ h => ?_
        obtain ⟨rfl, rfl⟩ := h
        split
        · rename_i hhas
          refine throw hm₁ (.named p rfl fun hw => ?_)
          -- the record does not have the name that is watched yet
          obtain ⟨V, rfl⟩ := hy hw
          have shows := hm₁.shows y hw _ rfl
          rw [e] at shows
          cases shows with
          | cons h =>
            unfold RecordOf.has at hhas
            generalize r'.get? y = o at h hhas
            cases h
            cases hhas
        · rename_i hhas
          have absent : ∀ b', r'.get? y = some b' → b'.isConst = false := fun b' hb' =>
            absurd (Option.isSome_iff_exists.2 ⟨b', hb'⟩) hhas
          exact bind (bindTop hm₁ e (b := ⟨v, isConst⟩) hv₁ (.inr absent))
            fun _ m₂ hm₂ hp₂ _ => ih hd (Nat.succ.inj hlen) (fun w hw => hp₂.live (hv₂ w hw)) hm₂

/-- Assigning to a name or a member; the node that is assigned to answers for its index. -/
theorem assignTo {target : Node} (hc : c.Closed) (hn : c.nodes target) (ht : Settable c.watched W target)
    (hplace : target.isPlace = false → c.nodes n ∧ .fault .assertion ∈ n.raises)
    (hl : Live m.store.cells.size v) (hm : m.Good c W) :
    Does c S W (Eval.assignTo visit target v) m := by
  obtain ⟨hf, hset⟩ := ht
  have part : ∀ {k : Node}, k ∈ target.parts → k.IsExpr → c.Expr W k := Setting.Expr.part hc ⟨hn, hf⟩
  cases hf.isExpr with
  | @name y p =>
    refine setName hm p hl (hset y p rfl) fun hw i hi => .named p (y := y) ?_ hw
    simp only [mem_cons, not_mem_nil, or_false] at hi
    rcases hi with rfl | rfl <;> rfl
  | @access base key dot p hb hk =>
    refine bind (hv.expr (part (by simp [Node.parts]) hb) hm) fun x m₁ hm₁ hp₁ hx => get ?_
    -- the container stays one while the key is found
    have member : m₁.store.IsContainer x → Does c S W
        (Exec.onMember (fun e => Exec.report p (.member e))
          (do let k ← visit key; Exec.mem (Mem.setMember x k v))) m₁ := by
      intro hcont
      refine reportTurn (k := .member) ?_ fun o => ⟨p, _, rfl, rfl⟩
      refine bind ((hv.expr (part (by simp [Node.parts]) hk) hm₁).failing fun _ h => .inl h)
        fun k m₂ hm₂ hp₂ hk₂ => ?_
      have acts := Mem.Acts.setMember hm₂.store (hp₂.live hx) (hp₂.store.isContainer hx hcont) hk₂
        (hp₂.live (hp₁.live hl))
      refine mem hm₂ acts fun f hf => ?_
      rcases hf.1 with hf | rfl
      · exact .inr ⟨f, rfl, hf⟩
      · exact .inl (.of_raises hn (by simp [Node.raises]))
    split
    · exact member (.inl ⟨_, ‹_›⟩)
    · exact member (.inr ⟨_, ‹_›⟩)
    · exact reportAt hm₁ hb rfl
  | _ =>
    obtain ⟨hn', ha⟩ := hplace rfl
    exact throw hm (.of_raises hn' ha)

theorem assignAll {targets : List Node} (hc : c.Closed) (hn : ∀ e ∈ targets, c.nodes e)
    (ht : ∀ e ∈ targets, Settable c.watched W e)
    (hplace : ∀ e ∈ targets, e.isPlace = false → c.nodes n ∧ .fault .assertion ∈ n.raises)
    (hl : ∀ v ∈ vs, Live m.store.cells.size v) (hm : m.Good c W) :
    Does c S W (Eval.assignAll visit targets vs) m := by
  induction targets generalizing vs m with
  | nil => exact pure hm trivial
  | cons e es ih =>
    cases vs with
    | nil => exact pure hm trivial
    | cons v vs =>
      obtain ⟨hn₁, hn₂⟩ := forall_mem_cons.1 hn
      obtain ⟨ht₁, ht₂⟩ := forall_mem_cons.1 ht
      obtain ⟨hp₁, hp₂⟩ := forall_mem_cons.1 hplace
      obtain ⟨hl₁, hl₂⟩ := forall_mem_cons.1 hl
      refine bind (assignTo hv hc hn₁ ht₁ hp₁ hl₁ hm) fun _ m₁ hm₁ hpr _ => ?_
      exact ih hn₂ ht₂ hp₂ (fun w hw => hpr.live (hl₂ w hw)) hm₁

/-! ### Jumps -/

omit hv in
/-- A jump that finds where to go leaves the program at the bottom as it was; any other is a
stray one. -/
theorem sendJump {goal : RecordKind} {f : Bool → Exec α} (hg : goal ≠ .program) (hst : st ≠ .normal)
    (hm : m.Good c W) (found : ∀ m₁, m₁.Good c W → Proceeds c S m m₁ → Runs c S W' X (f true) Q m₁)
    (stray : ∀ m₁, ∃ e : Halt, f false m₁ = .error e m₁ ∧ e.IsStray ∧ X e) :
    Runs c S W' X (Eval.sendJump st goal word >>= f) Q m := by
  have kept : Kept S true m.stack.records (jump st goal m.stack.records).records :=
    kept_jump st goal _
  have jumped : { m with stack := { m.stack with
      records := (jump st goal m.stack.records).records } }.Good c W :=
    hm.restack (good_jump hm.records st goal) kept
  have notes := noteJumps (S := S) (X := fun _ => False) jumped s!"set {word}"
    (jump st goal m.stack.records).passed
  refine wp_bind.2 ?_
  rw [Eval.sendJump, wp_bind, wp_get, wp_bind, Exec.modifyRecords, wp_modifyStack, wp_bind]
  refine wp_mono notes (fun _ m₁ h₁ => (wp_pure _).2 ?_) fun _ _ h => h.2.2.elim
  obtain ⟨hm₁, -, est, ess⟩ := h₁
  have store : m₁.store = m.store := ess
  have records : m₁.stack.records = (jump st goal m.stack.records).records := by rw [est]
  have kept₁ : Kept S false m.stack.records m₁.stack.records := by
    rw [records]
    exact kept.widen (List.Subset.refl _)
  -- the marks are set before it is known whether the jump finds where to go
  have ground := ground_jump st hg hm.program
  rw [← records] at ground
  cases hf : (jump st goal m.stack.records).found with
  | true =>
    have hp : Proceeds c S m m₁ := by
      refine ⟨by rw [store]; exact .refl, kept₁, ground.resolve_right fun h => ?_⟩
      rw [hf] at h
      cases h.1
    exact wp_mono (found m₁ hm₁ hp) (fun _ _ h => ⟨h.1, hp.trans h.2.1, h.2.2⟩)
      fun _ _ h => ⟨h.1, hp.breaksOff h.2.1, h.2.2⟩
  | false =>
    obtain ⟨e, he, hs, hx⟩ := stray m₁
    refine (wp_of_error he).2 ⟨hm₁.blind, ⟨by rw [store]; exact .refl, [], _, rfl, kept₁, .inr ?_⟩, hx⟩
    rcases ground with h | ⟨-, h⟩
    · exact .inl h
    · exact .inr ⟨hs, st, hst, h⟩

omit hv in
theorem jumpLoop (hst : st ≠ .normal) (hw : word ∈ ["break", "continue", "return"]) (p : Position)
    (hm : m.Good c W) : Does c S W (Eval.jumpLoop st word p) m :=
  sendJump (by decide) hst hm (fun _ hm₁ _ => pure hm₁ trivial)
    fun _ => ⟨_, rfl, ⟨p, word, hw, rfl⟩, .nameless p rfl⟩

theorem jumpReturn {expr : Node} (he : expr ≠ .missing → c.Expr W expr) (p : Position) (hm : m.Good c W) :
    Does c S W (Eval.jumpReturn visit expr p) m := by
  refine sendJump (by decide) (by decide) hm (fun m₁ hm₁ _ => ?_)
    fun _ => ⟨_, rfl, ⟨p, "return", by decide, rfl⟩, .nameless p rfl⟩
  refine bind (valueOr hv he hm₁ trivial trivial rfl) fun v m₂ hm₂ _ h => ?_
  exact (modifyStack hm₂ (good_setRetval hm₂.records h.1) (kept_setRetval v _)
    (ground_setRetval v _)).forget

/-! ### Loops -/

omit hv in
theorem goRound {γ : Type} {round : γ → Exec (Option γ)} {tail : Exec (Option γ)} {k : Nat}
    {I : γ → Machine → Prop}
    (rounds : ∀ {a : γ} {m : Machine}, m.Good c W → I a m →
      Runs c S W X (Eval.iterate round k a) (fun _ _ => True) m)
    (htail : Runs c S W X tail (fun b m' => ∀ a, b = some a → I a m') m) :
    Runs c S W X (Eval.goRound round k tail) (fun _ _ => True) m := by
  refine bind htail fun b m₁ hm₁ _ hb => ?_
  split
  · exact rounds hm₁ (hb _ rfl)
  · exact pure hm₁ trivial

omit hv in
theorem iterate {γ : Type} {round : γ → Exec (Option γ)} {I : γ → Machine → Prop}
    (hround : ∀ a m, m.Good c W → I a m →
      Runs c S W (Excused c) (round a) (fun b m' => ∀ a', b = some a' → I a' m') m)
    (k : Nat) {a : γ} (hm : m.Good c W) (hI : I a m) :
    Does c S W (Eval.iterate round k a) m := by
  induction k generalizing a m with
  | zero => exact throw hm trivial
  | succ k ih =>
    rw [Eval.iterate_succ]
    exact goRound ih (hround a m hm hI)

theorem repeatTail (he : c.Expr W cond) (hm : m.Good c W) (hd : m.Nested) :
    Runs c S W (Excused c) (Eval.repeatTail visit cond) (fun _ m' => m'.Nested) m := by
  refine bind (settleLoop hm hd) fun b m₁ hm₁ hp₁ _ => ?_
  have hd₁ := hp₁.nested hd
  split
  · exact bind (condition hv he hm₁) fun _ _ hm₂ hp₂ _ => pure hm₂ (hp₂.nested hd₁)
  · exact pure hm₁ hd₁

omit hv in
theorem loopTail {γ : Type} {I : γ → Machine → Prop} {a : γ} (hm : m.Good c W) (hd : m.Nested)
    (hI : ∀ m', m'.Good c W → Proceeds c S m m' → I a m') :
    Runs c S W X (Eval.loopTail a) (fun b m' => ∀ a', b = some a' → I a' m') m := by
  refine bind (settleLoop hm hd) fun b m₁ hm₁ hp₁ _ => pure hm₁ fun a' h => ?_
  split at h
  · cases h
    exact hI m₁ hm₁ hp₁
  · cases h

theorem repeatRound (he : c.Expr W cond) (hb : c.Stat W body W) (hm : m.Good c W) (hd : m.Nested) :
    Runs c S W (Excused c) (Eval.repeatRound visit cond body) (fun _ m' => m'.Nested) m :=
  bind (hv.stat hb hm) fun _ _ hm₁ hp₁ _ => repeatTail hv he hm₁ (hp₁.nested hd)

theorem whileRound (he : c.Expr W cond) (hb : c.Stat W body W) (hm : m.Good c W) (hd : m.Nested) :
    Runs c S W (Excused c) (Eval.whileRound visit cond body)
      (fun b m' => ∀ a, b = some a → m'.Nested) m := by
  refine bind (condition hv he hm) fun b m₁ hm₁ hp₁ _ => ?_
  have hd₁ := hp₁.nested hd
  split
  · refine bind (hv.stat hb hm₁) fun _ m₂ hm₂ hp₂ _ => ?_
    have hd₂ := hp₂.nested hd₁
    exact loopTail (I := fun _ m => m.Nested) hm₂ hd₂ fun _ _ hp => hp.nested hd₂
  · exact pure hm₁ fun _ h => by cases h

theorem runRepeat (k : Nat) (he : c.Expr (W.push none) cond)
    (hb : c.Stat (W.push none) body (W.push none)) (p : Position) (hm : m.Good c W) :
    Does c [] W (Eval.runRepeat k visit cond body p) m := by
  refine withinNew (S := []) hm fun _ hm₁ hd₁ => blind (W := W.push none) ?_
  refine iterate (I := fun _ m => m.Nested) (fun _ _ hm₂ hd₂ => ?_) k hm₁ hd₁
  exact (repeatRound hv he hb hm₂ hd₂).mono (fun _ _ h _ _ => h) fun _ h => h

theorem runWhile (k : Nat) (he : c.Expr (W.push none) cond)
    (hb : c.Stat (W.push none) body (W.push none)) (p : Position) (hm : m.Good c W) :
    Does c [] W (Eval.runWhile k visit cond body p) m := by
  refine withinNew (S := []) hm fun _ hm₁ hd₁ => blind (W := W.push none) ?_
  exact iterate (I := fun _ m => m.Nested) (fun _ _ hm₂ hd₂ => whileRound hv he hb hm₂ hd₂) k hm₁ hd₁

/-! ### Loops over a range -/

theorem rangeBound (he : c.Expr W n) (hm : m.Good c W) :
    Runs c S W (Excused c) (Eval.rangeBound visit n) (fun v m' => m'.store.IsNum v) m := by
  refine bind (hv.expr he hm) fun v m₁ hm₁ _ _ => get ?_
  split
  · exact pure hm₁ ⟨_, ‹_›⟩
  · exact reportAt hm₁ he.finds.isExpr rfl

theorem rangeValues (hs : c.Expr W start) (he : c.Expr W stop) (hd : step ≠ .missing → c.Expr W step)
    (hm : m.Good c W) :
    Runs c S W (Excused c) (Eval.rangeValues visit start stop step)
      (fun v m' => m'.store.IsNum v.1 ∧ m'.store.IsNum v.2.1 ∧ Live m'.store.cells.size v.2.2 ∧
        (step.isMissing = true → m'.store.IsNum v.2.2)) m := by
  refine bind (rangeBound hv hs hm) fun s m₁ hm₁ _ h₁ => ?_
  refine bind (rangeBound hv he hm₁) fun e m₂ hm₂ hp₂ h₂ => ?_
  refine bind (valueOr hv hd hm₂ trivial trivial rfl) fun d m₃ hm₃ hp₃ h₃ => pure hm₃ ?_
  exact ⟨hp₃.store.isNum (hp₂.store.isNum h₁), hp₃.store.isNum h₂, h₃.1, fun h => ⟨_, h₃.2 h⟩⟩

omit hv in
theorem rangeTail {x : String} {stop step : Slot} {given : Bool} (hloop : c.nodes n)
    (hr : .fault .overflow ∈ n.raises) (hr' : given = true → .operand .rightNotNumber ∈ n.raises)
    (hm : m.Good c W) (hI : InRange x stop step given m) (hnum : m.store.IsNum v) :
    Runs c [x] W (Excused c) (Eval.rangeTail x q v step)
      (fun b m' => b = some () → InRange x stop step given m') m := by
  refine bind (settleLoop hm hI.nested).steady fun b m₁ hm₁ _ h₁ => ?_
  have hI₁ := hI.proceeds h₁.2
  have hnum₁ := h₁.2.store.isNum hnum
  split
  · have add := mem (S := []) (X := Excused c) hm₁
      (Mem.Acts.calculated (Mem.Acts.sum hm₁.store v step)) fun f hf => by
        rcases hf with rfl | ⟨-, hf⟩ | ⟨-, hf⟩
        · exact .of_raises hloop hr
        · exact absurd hnum₁ hf
        · obtain ⟨rfl, hstep⟩ := hf hnum₁
          refine .of_raises hloop (hr' ?_)
          cases given with
          | true => rfl
          | false => exact absurd (hI₁.step rfl) hstep
    refine bind add.steady fun v' m₂ hm₂ _ h₂ => ?_
    obtain ⟨⟨fresh, num⟩, hp₂⟩ := h₂
    have hI₂ := hI₁.proceeds hp₂
    -- the name is found in the record of the loop, so that no other record is written to
    obtain ⟨r, rs, q', e, hb', -⟩ := hI₂.top
    have has : r.has x = true := by rw [RecordOf.has, hb']; rfl
    refine bind (setLoopName hm₂ e has q (.some fresh)) fun _ m₃ hm₃ hp₃ h₃ => pure hm₃ fun _ => ?_
    obtain ⟨es, b', hb₁, er⟩ := h₃
    rw [hb'] at hb₁
    cases hb₁
    refine ⟨hp₃.nested hI₂.nested, ⟨_, _, v', er, ?_, ?_⟩, ?_, ?_, fun h => ?_⟩
    · rw [RecordOf.get?_set, if_pos rfl]
    · rw [es]
      exact num hnum₁
    · rw [es]
      exact hI₂.stop
    · exact hp₃.live hI₂.live
    · rw [es]
      exact hI₂.step h
  · exact pure hm₁ fun h => by cases h

theorem rangeRound {x : String} {stop step : Slot} {given : Bool} (hloop : c.nodes n)
    (hr : .fault .overflow ∈ n.raises) (hr' : given = true → .operand .rightNotNumber ∈ n.raises)
    (hb : c.Stat W body W) (hm : m.Good c W) (hI : InRange x stop step given m) :
    Runs c [x] W (Excused c) (Eval.rangeRound visit x q stop step body)
      (fun b m' => b = some () → InRange x stop step given m') m := by
  obtain ⟨r, rs, v, e, hbound, hnum⟩ := hI.top
  -- the variable is read from the innermost record, and is a number there
  have name : Exec.getName x q m = .ok (some v) m := by
    have hval : valueOf? x m.stack.records = some v := by
      rw [e, valueOf?, hbound]
      rfl
    simp only [Exec.getName, bind_of_ok (rfl : (MonadState.get : Exec Machine) m = .ok m m), hval]
    rfl
  refine wp_bind.2 ((wp_of_ok name).2 ?_)
  refine bind (mem (S := []) hm (Mem.Acts.less hm.store (some v) stop) fun f hf => ?_).steady
    fun b m₁ hm₁ _ h₁ => ?_
  · exact absurd ⟨hnum, hI.stop⟩ hf.2
  · have hI₁ := hI.proceeds h₁.2
    split
    · refine bind (hv.stat hb hm₁).steady fun _ m₂ hm₂ _ h₂ => ?_
      have hnum₂ := h₂.2.store.isNum (h₁.2.store.isNum hnum)
      exact rangeTail hloop hr hr' hm₂ (hI₁.proceeds h₂.2) hnum₂
    · exact pure hm₁ fun h => by cases h

theorem runRange (k : Nat) {x : String} (hc : c.Closed)
    (hn : c.nodes (.forRange (.name x q) start stop step body p)) (hs : Finds c.watched W start)
    (he : Finds c.watched W stop) (hd : step ≠ .missing → Finds c.watched W step)
    (hb : Passes c.watched (W.push (View.entry c.watched [x])) body (W.push (View.entry c.watched [x])))
    (hm : m.Good c W) : Does c [] W (Eval.runRange k visit (.name x q) start stop step body p) m := by
  have part : ∀ a ∈ [Node.name x q, start, stop, step, body], c.nodes a := hc _ hn
  simp only [forall_mem_cons] at part
  obtain ⟨-, hns, hne, hnd, hnb, -⟩ := part
  refine bind (rangeValues hv ⟨hns, hs⟩ ⟨hne, he⟩ (fun h => ⟨hnd, hd h⟩) hm) fun v m₁ hm₁ _ h₁ => ?_
  obtain ⟨s, e, d⟩ := v
  obtain ⟨hs₁, he₁, hd₁, hd₁'⟩ := h₁
  obtain ⟨w, rfl, hw⟩ := hs₁.live
  obtain ⟨r, rs, e₀⟩ := exists_records hm₁
  have enters : ∀ y ∈ c.watched, Fits (View.entry c.watched [x])
      (((Eval.loopRecord "for" p : Record).set x ⟨some w, true⟩).get? y) := by
    intro y hy
    rw [RecordOf.get?_set, View.entry_singleton, Option.mem_def.1 hy]
    by_cases hxy : y = x
    · rw [if_pos hxy, if_pos (congrArg some hxy)]
      exact .some
    · rw [if_neg hxy, if_neg fun h => hxy (Option.some.inj h)]
      exact .none
  refine within (S := [x]) (U := none) (Q := fun _ _ => True) hm₁ ?_ (.known enters) (fun h f => .shown h f)
    (fun m₂ hm₂ es e₂ => ?_) fun _ _ _ _ _ => trivial
  · exact (RecordOf.good_new _ _ _).set (.inl (.some hw))
  · have start : InRange x e d (!step.isMissing) m₂ := by
      refine ⟨⟨_, _, _, e₀ ▸ e₂⟩, ⟨_, _, w, e₂, ?_, es ▸ hs₁⟩, es ▸ he₁, es ▸ hd₁, fun h => ?_⟩
      · exact (RecordOf.get?_set _ x x _).trans (if_pos rfl)
      · rw [es]
        exact hd₁' (by simpa using h)
    refine (iterate (I := fun _ m => InRange x e d (!step.isMissing) m) (fun _ m₃ hm₃ hI => ?_) k hm₂
      start).blind
    refine (rangeRound hv hn ?_ (fun h => ?_) ⟨hnb, hb⟩ hm₃ hI).mono
      (fun _ _ h a ha => h ha) fun _ h => h
    · simp [Node.raises]
    · simp only [Bool.not_eq_true'] at h
      simp [Node.raises, h]

/-! ### Loops over a container -/

omit hv in
/-- The names that a loop over a container binds in its record. -/
def entryNames (key val : Node) : List String := [key, val].filterMap Node.ident?

omit hv in
/-- The names are bound in the record, for the first time or again. -/
theorem bindEntry {o : Option Bool} {k : Slot} (hk : key.IsName) (hval : val ≠ .missing → val.IsName)
    (ho : o = none ∨ o = View.entry c.watched (entryNames key val)) (hlk : Live m.store.cells.size k)
    (hlv : Live m.store.cells.size v) (hm : m.Good c (W.push o)) :
    Runs c (entryNames key val) (W.push (View.entry c.watched (entryNames key val))) X
      (Eval.bindEntry key val k v) (fun _ _ => True) m := by
  -- each name is one of those that may change
  have set : ∀ {o : Option Bool} {y : String} {w : Slot} {m : Machine}, y ∈ entryNames key val →
      m.Good c (W.push o) → Live m.store.cells.size w →
      Runs c (entryNames key val) (W.push (if c.watched = some y then some true else o)) X
        (Exec.modifyStack (·.modifyTop (·.set y ⟨w, true⟩))) (fun _ _ => True) m := by
    intro o y w m hy hm hw
    obtain ⟨r, rs, e⟩ := exists_records hm
    rw [← View.set_push]
    exact (bindTop hm e hw (.inl hy)).forget
  obtain ⟨x, p, rfl⟩ := hk
  have hx : x ∈ entryNames (.name x p) val := by simp [entryNames, Node.ident?]
  unfold Eval.bindEntry
  split
  · rename_i hmiss
    obtain rfl : val = .missing := by
      cases val with
      | missing => rfl
      | _ => cases hmiss
    have same : (if c.watched = some x then some true else o) =
        View.entry c.watched (entryNames (.name x p) .missing) := View.entry_of_set ho (by simp [entryNames, Node.ident?])
    rw [← same]
    exact set hx hm hlv
  · rename_i hmiss
    obtain ⟨y, p', rfl⟩ := hval (Node.ne_missing hmiss)
    have hy : y ∈ entryNames (.name x p) (.name y p') := by simp [entryNames, Node.ident?]
    refine bind (set hx hm hlk) fun _ m₁ hm₁ hp₁ _ => ?_
    have same : (if c.watched = some y then some true else if c.watched = some x then some true else o) =
        View.entry c.watched (entryNames (.name x p) (.name y p')) := by
      rw [← ite_or]
      exact View.entry_of_set ho (by simp [entryNames, Node.ident?, or_comm])
    rw [← same]
    exact set hy hm₁ (hp₁.live hlv)

theorem eachRound {o : Option Bool} {x k : Slot} (hloop : c.nodes n)
    (hr : n.raises = [.fault .wrongKind, .fault .indexRange, .fault .missingKey]) (hk : key.IsName)
    (hval : val ≠ .missing → val.IsName) (hW : W' = W.push (View.entry c.watched (entryNames key val)))
    (ho : o = none ∨ o = View.entry c.watched (entryNames key val)) (hb : c.Stat W' body W')
    (hm : m.Good c (W.push o)) (hI : InEach x k m) :
    Runs c (entryNames key val) none (Excused c) (Eval.eachRound visit key val x body k)
      (fun b m' => ∀ k', b = some k' → InEach x k' m' ∧ m'.Good c W') m := by
  refine bind (mem hm (Mem.Acts.next hm.store hI.container hI.cursor) fun f hf => ?_)
    fun kv m₁ hm₁ hp₁ h₁ => ?_
  · refine .of_raises hloop ?_
    rw [hr]
    rcases hf with rfl | rfl | rfl <;> simp
  · obtain ⟨k', v⟩ := kv
    obtain ⟨hlk, hlv, cursor⟩ := h₁
    have hI₁ : InEach x k' m₁ :=
      ⟨hp₁.nested hI.nested, hp₁.live hI.live, hp₁.store.isContainer hI.live hI.container, hlk, cursor⟩
    refine get ?_
    split
    · exact pure hm₁.blind fun _ h => by cases h
    · refine bind (bindEntry hk hval ho hlk hlv hm₁) fun _ m₂ hm₂ hp₂ _ => ?_
      rw [← hW] at hm₂
      have hI₂ := hI₁.proceeds hp₂
      refine bind (hv.stat hb hm₂) fun _ m₃ hm₃ hp₃ _ => ?_
      have hI₃ := hI₂.proceeds hp₃
      exact (loopTail (I := fun k m => InEach x k m ∧ m.Good c W') hm₃ hI₃.nested
        fun _ hm' hp => ⟨hI₃.proceeds hp, hm'⟩).blind

theorem runEach (k : Nat) {subject : Node} (hk : key.IsName) (hval : val ≠ .missing → val.IsName)
    (hc : c.Closed) (hn : c.nodes (.forEach key val subject body p))
    (hs : Finds c.watched (W.push none) subject)
    (hW : W' = W.push (View.entry c.watched (entryNames key val))) (hb : Passes c.watched W' body W')
    (hm : m.Good c W) : Does c [] W (Eval.runEach k visit key val subject body p) m := by
  have part : ∀ a ∈ [key, val, subject, body], c.nodes a := hc _ hn
  simp only [forall_mem_cons] at part
  obtain ⟨-, -, hns, hnb, -⟩ := part
  refine withinNew (S := entryNames key val) hm fun m₁ hm₁ hd₁ => ?_
  refine bind (hv.expr ⟨hns, hs⟩ hm₁) fun x m₂ hm₂ hp₂ hx => get ?_
  have rounds : m₂.store.IsContainer x → Does c (entryNames key val) none
      (do
        let k₀ ← Exec.mem Mem.newNull
        Eval.iterate (Eval.eachRound visit key val x body) k (some k₀)) m₂ := by
    intro hcont
    have acts := Mem.Acts.newNull (X := fun _ => False) hm₂.store
    refine bind (mem hm₂ acts fun _ h => h.elim) fun k₀ m₃ hm₃ hp₃ h₃ => ?_
    -- the names are bound from the first round on
    refine iterate (I := fun k m => InEach x k m ∧ ∃ o, (o = none ∨
        o = View.entry c.watched (entryNames key val)) ∧ m.Good c (W.push o)) (fun a m₄ _ hI => ?_) k
      hm₃.blind ⟨⟨?_, hp₃.live hx, hp₃.store.isContainer hx hcont, .some h₃.1, ?_⟩, none, .inl rfl, hm₃⟩
    · obtain ⟨hI, o, ho, hm₄⟩ := hI
      refine (eachRound hv hn rfl hk hval hW ho ⟨hnb, hb⟩ hm₄ hI).mono (fun _ _ h a' ha' => ?_) fun _ h => h
      exact ⟨(h a' ha').1, _, .inr rfl, hW ▸ (h a' ha').2⟩
    · exact hp₃.nested (hp₂.nested hd₁)
    · exact ⟨.null, congrArg some h₃.2, rfl, fun _ _ _ h => by cases h⟩
  split
  · exact rounds (.inl ⟨_, ‹_›⟩)
  · exact rounds (.inr ⟨_, ‹_›⟩)
  · exact report hm₂ p rfl

/-! ### Calls -/

theorem argument {args : List Node} (he : ∀ a ∈ args, c.Expr W a) (hm : m.Good c W) : Runs c S W (Excused c) (Eval.argument visit args)
      (fun v m' => ∀ r, v = some r → r.index < m'.store.cells.size) m := by
  unfold Eval.argument
  split
  · exact pure hm fun _ h => by cases h
  · exact pure hm fun _ h => by cases h
  · obtain ⟨he₁, -⟩ := forall_mem_cons.1 he
    refine (hv.expr he₁ hm).mono (fun v m₁ h r hr => ?_) fun _ h => h
    subst hr
    exact h.index_lt

theorem bindParams {r : Record} {ps args : List Node} (hp : ∀ x ∈ ps, x.IsName)
    (he : ∀ a ∈ args, c.Expr W a) (hr : r.Good m.store.cells.size)
    (hk : r.kind = .function) (hm : m.Good c W) : Runs c S W (Excused c) (Eval.bindParams visit r ps args)
      (fun r' m' => r'.Good m'.store.cells.size) m := by
  induction ps generalizing r args m with
  | nil => exact pure hm hr
  | cons x ps ih =>
    obtain ⟨⟨y, p, rfl⟩, hps⟩ := forall_mem_cons.1 hp
    refine bind (argument hv he hm) fun v m₁ hm₁ hp₁ hl => ?_
    exact ih hps (fun a ha => he a (mem_of_mem_tail ha)) ((hr.mono hp₁.store.size).setParam hk hl) hk hm₁

theorem callRecord (hf : f.Parsed) (hvar : f.vararg = false) (he : ∀ a ∈ args.getD [], c.Expr W a)
    (hm : m.Good c W) :
    Runs c S W (Excused c) (Eval.callRecord visit f args p)
      (fun r m' => r.Good m'.store.cells.size) m := by
  refine bind (bindParams hv hf.params he (RecordOf.good_new _ _ _) rfl hm)
    fun r m₁ hm₁ _ hr => ?_
  have none : (Eval.checkFurther f args p : Exec Unit) = Pure.pure () := by
    unfold Eval.checkFurther
    rw [hvar]
    rfl
  rw [none]
  exact pure hm₁ hr

theorem callBody {r : Record} (hf : f.Parsed) (hbody : ∀ s ∈ f.body, c.nodes s ∧ s.Avoids c.watched)
    (hr : r.Good m.store.cells.size) (hm : m.Good c W) :
    Yields c [] W
      (Exec.within r do
        Eval.runSettled visit Eval.settleFunction f.body
        match (← Exec.currentRecord).retval with
        | some v => return some v
        | none => some <$> Exec.mem Mem.newNull) m := by
  obtain ⟨r₀, rs₀, e₀⟩ := exists_records hm
  refine within (S := []) (U := none) (Q := fun v m' => Live m'.store.cells.size v) hm hr .unknown
    (fun h f => .shown h f) (fun m₂ hm₂ _ e₂ => ?_) fun v _ _ e h => e ▸ h
  rw [e₀] at e₂
  have hd₂ : m₂.Nested := ⟨_, _, _, e₂⟩
  have passes : PassesAll c.watched none f.body none :=
    .of_forall fun s hs => passes_of_avoids (hf.body s hs) (hbody s hs).2
  refine bind (runSettled hv (fun s hs => (hbody s hs).1) passes settleFunction hm₂ hd₂) fun _ m₃ hm₃ _ _ => ?_
  obtain ⟨r₃, rs₃, e₃⟩ := exists_records hm₃
  refine bind (currentRecord hm₃ e₃) fun r' m₄ hm₄ _ h => ?_
  obtain ⟨rfl, rfl⟩ := h
  split
  -- a result that was set, or null
  · rename_i v hv
    exact pure hm₄ (.some ((hm₄.records r' (by rw [e₃]; simp)).retval v hv))
  · exact (newNull hm₄).left

theorem callClosure (hf : f.Parsed) (hvar : f.vararg = false)
    (hbody : ∀ s ∈ f.body, c.nodes s ∧ s.Avoids c.watched) (he : ∀ a ∈ args.getD [], c.Expr W a)
    (hm : m.Good c W) : Yields c [] W (Eval.callClosure visit f args p) m :=
  bind (callRecord hv hf hvar he hm) fun _ _ hm₁ _ hr => callBody hv hf hbody hr hm₁

omit hv in
theorem hostCall {args : List Slot} (hcall : c.nodes n) (hb : .fault .badNumeral ∈ n.raises)
    (hb' : .fault .missingPart ∈ n.raises) (ha : ∀ v ∈ args, Live m.store.cells.size v) (hm : m.Good c W) :
    Yields c S W
      (do
        let result ← Exec.onOperand (fun e => Exec.report p (.operand e)) (Host.run action args)
        match result with
        | .ok (some v) => return some v
        | .ok none => some <$> Exec.mem Mem.newNull
        | .error () => Exec.report p .hostResult) m := by
  refine bind (reportTurn (k := .operand) (hostRun action hm hcall hb hb' ha) fun o => ⟨p, _, rfl, rfl⟩)
    fun result m₂ hm₂ _ h => ?_
  split
  · exact pure hm₂ (.some (h _ rfl))
  · exact (newNull hm₂).left
  · exact report hm₂ p rfl

theorem callHost (hcall : c.nodes n) (hb : .fault .badNumeral ∈ n.raises)
    (hb' : .fault .missingPart ∈ n.raises) (he : ∀ a ∈ args.getD [], c.Expr W a) (hm : m.Good c W) :
    Yields c S W (Eval.callHost visit action args p) m :=
  bind (values hv he hm) fun _ _ hm₁ _ hvs => hostCall hcall hb hb' hvs hm₁

theorem call {callee : Node} (hn : c.nodes (.call callee args p)) (hcallee : c.Expr W callee)
    (hargs : ∀ a ∈ args.getD [], c.Expr W a) (hm : m.Good c W) :
    Yields c [] W
      (do
        let f ← visit callee
        match (← MonadState.get).store.get? f with
        | some (.host _ action) => Eval.callHost visit action args p
        | some (.func g) => Eval.callClosure visit g args p
        | _ => Exec.fault .assertion) m := by
  refine bind (hv.expr hcallee hm) fun f m₁ hm₁ _ hf => get ?_
  split
  · exact callHost hv hn (by simp [Node.raises]) (by simp [Node.raises]) hargs hm₁
  · rename_i g hg
    obtain ⟨r, rfl, hr⟩ := hf
    have hg := Option.some.inj hg
    have sound := hm₁.store.sound r
    have made := hm₁.store.made r hr
    rw [hg] at sound made
    exact callClosure hv sound made.1 made.2 hargs hm₁
  · exact throw hm₁ (.of_raises hn (by simp [Node.raises]))

/-! ### Expressions -/

theorem fillMap {r : Ref} {entries : List (Node × Node)} (hmap : c.nodes n)
    (hr : .member .keyNotAllowed ∈ n.raises) (he : ∀ e ∈ entries, c.Expr W e.1 ∧ c.Expr W e.2)
    (ht : ∃ t, m.store.get r = .map t)
    (hm : m.Good c W) : Runs c S W (Excused c) (Eval.fillMap visit r entries)
      (fun _ m' => ∃ t, m'.store.get r = .map t) m := by
  induction entries generalizing m with
  | nil => exact pure hm ht
  | cons e es ih =>
    obtain ⟨⟨he₁, he₂⟩, hes⟩ := forall_mem_cons.1 he
    -- the cell of the map holds a map throughout
    have stays : ∀ {m m' : Machine}, Proceeds c S m m' → (∃ t, m.store.get r = .map t) →
        ∃ t, m'.store.get r = .map t := by
      rintro m m' hp ⟨t, ht⟩
      have kin := hp.store.kin r (Store.lt_of_get_ne (by simp [ht]))
      rw [ht] at kin
      obtain ⟨t', ht', -⟩ := kin.eq_map
      exact ⟨t', ht'⟩
    refine bind (hv.expr he₁ hm) fun k m₁ hm₁ hp₁ hk => ?_
    refine bind (valueOr hv (fun _ => he₂) hm₁ trivial trivial rfl) fun v m₂ hm₂ hp₂ hv₂ => ?_
    obtain ⟨t, ht₂⟩ := stays hp₂ (stays hp₁ ht)
    have lt : r.index < m₂.store.cells.size := Store.lt_of_get_ne (by simp [ht₂])
    have acts := Mem.Acts.setMember hm₂.store (.some lt) (.inr ⟨t, congrArg some ht₂⟩) (hp₂.live hk)
      hv₂.1
    refine bind (mem hm₂ acts fun f hf => ?_) fun _ m₃ hm₃ hp₃ _ => ?_
    · rw [hf.2 ⟨t, congrArg some ht₂⟩]
      exact .of_raises hmap hr
    · exact ih hes (stays hp₃ ⟨t, ht₂⟩) hm₃

theorem runAccess {base : Node} {dot : Bool} (hn : c.nodes (.access base key dot p)) (hb : c.Expr W base)
    (hk : c.Expr W key) (hm : m.Good c W) : Yields c S W (Eval.runAccess visit base key p) m := by
  refine bind (hv.expr hb hm) fun x m₁ hm₁ _ hx => ?_
  refine bind (hv.expr hk hm₁) fun k m₂ hm₂ hp₂ hk₂ => get ?_
  have member : m₂.store.IsContainer x → Yields c S W
      (Exec.onMember (fun e => Exec.report p (.member e)) (Eval.getMember x k)) m₂ := fun hcont =>
    reportTurn (k := .member) (getMember hm₂ hn (by simp [Node.raises]) (hp₂.live hx) hcont hk₂)
      fun o => ⟨p, _, rfl, rfl⟩
  split
  · exact member (.inl ⟨_, ‹_›⟩)
  · exact member (.inr ⟨_, ‹_›⟩)
  · exact report hm₂ p rfl

omit hv in
theorem funcDef {params : Option (List Node)} {body : List Node} (hp : ∀ x ∈ params.getD [], x.IsName)
    (hb : ∀ s ∈ body, s.IsStat) (hn : ∀ s ∈ body, c.nodes s ∧ s.Avoids c.watched) (hm : m.Good c W) :
    Runs c S W X (do Eval.new (.func (← Exec.ofExcept (Closure.make params false body))))
      (fun v m' => Live m'.store.cells.size v) m := by
  have named : FailsOnly (fun _ => False) (Closure.paramNames params) := by
    refine .mapM fun p hmem => ?_
    obtain ⟨x, q, rfl⟩ := hp p hmem
    exact .ok x
  have made : FailsOnly (fun _ => False) (Closure.make params false body) :=
    named.bind fun _ => .ok _
  refine bind (ofExcept (Q := fun f _ => Closure.make params false body = .ok f) hm (fun _ h => h)
    made fun _ h => h.elim) fun f m₁ hm₁ _ hf => ?_
  have parts : f.params = params ∧ f.vararg = false ∧ f.body = body := by
    unfold Closure.make at hf
    cases hnames : Closure.paramNames params with
    | error e =>
      rw [hnames] at hf
      cases hf
    | ok names =>
      rw [hnames] at hf
      cases hf
      exact ⟨rfl, rfl, rfl⟩
  obtain ⟨rfl, hvar, rfl⟩ := parts
  exact (new (v := .func f) hm₁ ⟨hp, hb⟩ ⟨hvar, hn⟩ rfl).left

theorem listOf {items : List Node} (he : ∀ e ∈ items, c.Expr W e) (hm : m.Good c W) :
    Yields c S W (do Eval.new (.list (← Eval.values visit items))) m := by
  refine bind (values hv he hm) fun vs m₁ hm₁ _ hvs => ?_
  have acts := Mem.Acts.alloc (X := fun _ => False) (v := .list vs) hm₁.store hvs trivial
    fun _ h => by cases h
  exact map (mem hm₁ acts fun _ h => h.elim) fun r _ h => .some h.1

theorem mapOf {keys vals : List Node} (hn : c.nodes (.mapOf keys vals p)) (hk : ∀ e ∈ keys, c.Expr W e)
    (hvals : ∀ e ∈ vals, c.Expr W e) (hm : m.Good c W) : Yields c S W
      (do
        let r ← Exec.mem (Mem.alloc (.map .empty))
        Eval.fillMap visit r (keys.zip vals)
        return some r) m := by
  have acts := Mem.Acts.alloc (X := fun _ => False) (v := .map .empty) hm.store
    (Table.sound_empty _) trivial fun t e => by
      cases e
      rfl
  refine bind (mem hm acts fun _ h => h.elim) fun r m₁ hm₁ _ hr => ?_
  refine bind (fillMap hv hn (by simp [Node.raises]) (fun e he => ?_) ⟨_, hr.2⟩ hm₁) fun _ m₂ hm₂ _ ht => ?_
  · obtain ⟨h₁, h₂⟩ := of_mem_zip he
    exact ⟨hk _ h₁, hvals _ h₂⟩
  · obtain ⟨t, ht⟩ := ht
    exact pure hm₂ (.some (Store.lt_of_get_ne (by simp [ht])))

omit hv in
theorem number {text : String} {isInt : Bool} (hn : c.nodes (.number text isInt p)) (hm : m.Good c W) :
    Yields c S W (do Eval.new (← Exec.ofExcept (Eval.literal text isInt))) m := by
  unfold Eval.literal
  cases (if isInt then (Numeral.int? text).map Number.int
    else (Numeral.float? text).map Number.float : Option Number) with
  | none => exact throw hm (.of_raises hn (by simp [Node.raises]))
  | some k =>
    exact (new (v := .num k) hm trivial trivial rfl).left

/-! ### One step down the tree -/

theorem visitWith_expr (hc : c.Closed) (k : Nat) {e : Node} (he : c.Expr W e) (hm : m.Good c W) :
    Yields c S W (Eval.visitWith k visit e) m := by
  have part : ∀ {k : Node}, k ∈ e.parts → k.IsExpr → c.Expr W k := he.part hc
  obtain ⟨hn, hfinds⟩ := he
  cases hfinds.isExpr with
  | @funcDef params body p hp hb =>
    have body : ∀ s ∈ body, s ∈ (Node.funcDef params false body p).parts := fun s hs => mem_append_right _ hs
    cases hfinds with
    | avoids _ h => exact funcDef hp hb (fun s hs => ⟨hc _ hn s (body s hs), h.part (body s hs)⟩) hm
  | call hcallee ha =>
    exact (call hv hn (part mem_cons_self hcallee)
      (fun a hmem => part (mem_cons_of_mem _ hmem) (ha a hmem)) hm).widen
  | select hcond hy hno =>
    refine bind (condition hv (part (by simp [Node.parts]) hcond) hm) fun b m₁ hm₁ _ _ => ?_
    split
    · exact hv.expr (part (by simp [Node.parts]) hy) hm₁
    · exact hv.expr (part (by simp [Node.parts]) hno) hm₁
  | binary hop hl hr =>
    refine bind (hv.expr (part (by simp [Node.parts]) hl) hm) fun a m₁ hm₁ _ ha => ?_
    refine bind (hv.expr (part (by simp [Node.parts]) hr) hm₁) fun b m₂ hm₂ hp₂ _ => ?_
    exact runBinary hop hm₂ hn rfl (hp₂.live ha)
  | unary ho =>
    refine bind (hv.expr (part mem_cons_self ho) hm) fun a m₁ hm₁ _ ha => ?_
    exact runUnary hm₁ hn ha
  | listOf hi => exact listOf hv (fun e he => part he (hi e he)) hm
  | mapOf hk hvals =>
    exact mapOf hv hn (fun e he => part (mem_append_left _ he) (hk e he))
      (fun e he => part (mem_append_right _ he) (hvals e he)) hm
  | setOf => exact report hm _ rfl
  | access hb hk =>
    exact runAccess hv hn (part (by simp [Node.parts]) hb) (part (by simp [Node.parts]) hk) hm
  | name => exact getName hm _ _ hfinds.found fun hw => .named _ rfl hw
  | number => exact number hn hm
  | string => exact (new (v := .str _) hm trivial trivial rfl).left
  | bool => exact (new (v := .bool _) hm trivial trivial rfl).left
  | null => exact (new (v := .null) hm trivial trivial rfl).left

omit hv in
theorem statement {x : Exec Unit} (hx : Does c S W x m) :
    Does c S W (Eval.statement x) m :=
  bind hx fun _ _ hm₁ _ _ => pure hm₁ trivial

/-- Compound assignments are the one place where frozen cells matter. -/
theorem visitWith_stat (hc : c.Closed) (k : Nat) {s : Node} (hs : c.Stat W s W')
    (hf : ∀ op t e p, s = .update op t e p → ∀ r m₁, visit t m = .ok (some r) m₁ → ¬c.frozen r)
    (hm : m.Good c W) : Does c S W' (Eval.visitWith k visit s) m := by
  obtain ⟨hn, hs⟩ := hs
  have part := hc _ hn
  -- clauses come in pairs
  have clauses : ∀ {es ss : List Node}, (∀ e ∈ es ++ ss, c.nodes e) →
      (∀ x ∈ es.zip ss, Finds c.watched W x.1) → (∀ x ∈ es.zip ss, Passes c.watched W x.2 W) →
      ∀ x ∈ es.zip ss, c.Expr W x.1 ∧ c.Stat W x.2 W := by
    intro es ss h he hb x hx
    obtain ⟨h₁, h₂⟩ := of_mem_zip hx
    exact ⟨⟨h _ (mem_append_left _ h₁), he x hx⟩, h _ (mem_append_right _ h₂), hb x hx⟩
  cases hs with
  | empty => exact pure hm trivial
  | block h =>
    refine statement (withinNew (S := []) hm fun _ hm₁ hd₁ => ?_).widen
    exact runSettled hv part h settleBlock hm₁ hd₁
  | @declare _ _ names _ _ _ hi hd =>
    refine statement (bind (valuesFor hv _ (fun e he => ⟨part e (mem_append_right _ he), hi e he⟩) hm)
      fun vs m₁ hm₁ _ hvs => ?_)
    exact declareAll hd hvs.1 hvs.2 hm₁
  | branch hcond hb => exact statement (runBranches hv (clauses part hcond hb) hm)
  | switch hsub hcases hb hfb =>
    simp only [Node.parts, forall_mem_cons] at part
    obtain ⟨hn₁, hn₂, hn₃⟩ := part
    refine statement (bind (hv.expr ⟨hn₁, hsub⟩ hm) fun v m₁ hm₁ _ _ => ?_)
    refine bind (runCases hv hn rfl (clauses hn₃ hcases hb) hm₁) fun b m₂ hm₂ _ _ => ?_
    split
    · exact pure hm₂ trivial
    · split
      · exact pure hm₂ trivial
      · rename_i hmiss
        exact bind (hv.stat ⟨hn₂, hfb (Node.ne_missing hmiss)⟩ hm₂) fun _ _ hm₃ _ _ => pure hm₃ trivial
  | repeatUntil hcond hb =>
    simp only [Node.parts, forall_mem_cons] at part
    exact statement (runRepeat hv k ⟨part.1, hcond⟩ ⟨part.2.1, hb⟩ _ hm).widen
  | whileLoop hcond hb =>
    simp only [Node.parts, forall_mem_cons] at part
    exact statement (runWhile hv k ⟨part.1, hcond⟩ ⟨part.2.1, hb⟩ _ hm).widen
  | forRange hst he hd hW hb =>
    subst hW
    exact statement (runRange hv k hc hn hst he hd hb hm).widen
  | forEach hk hval hsub hW hb => exact statement (runEach hv k hk hval hc hn hsub hW hb hm).widen
  | breakLoop | continueLoop => refine statement (jumpLoop ?_ ?_ _ hm) <;> decide
  | returnValue he =>
    exact statement (jumpReturn hv (fun h => ⟨part _ (mem_singleton.2 rfl), he h⟩) _ hm)
  | @assign _ targets sources p ht hsrc =>
    refine statement (bind (valuesFor hv _ (fun e he => ⟨part e (mem_append_right _ he), hsrc e he⟩) hm)
      fun vs m₁ hm₁ _ hvs => ?_)
    refine assignAll hv hc (fun e he => part e (mem_append_left _ he)) ht
      (fun e he hpl => ⟨hn, ?_⟩) hvs.2 hm₁
    have some : targets.all Node.isPlace = false := by
      rw [all_eq_false]
      exact ⟨e, he, by simp [hpl]⟩
    simp [Node.raises, some]
  | update ht hsrc =>
    simp only [Node.parts, forall_mem_cons] at part
    obtain ⟨hn₁, hn₂, -⟩ := part
    refine statement (bind (hv.expr ⟨hn₁, ht⟩ hm).witness fun a m₁ hm₁ _ ha => ?_)
    refine bind (hv.expr ⟨hn₂, hsrc⟩ hm₁) fun b m₂ hm₂ hp₂ _ => ?_
    refine bind (runUpdate hm₂ hn rfl (hp₂.live ha.1) fun r h => ?_) fun _ _ hm₃ _ _ => pure hm₃ trivial
    subst h
    exact hf _ _ _ _ rfl r m₁ ha.2
  | call hcallee ha =>
    obtain ⟨hn₁, hn₂⟩ := forall_mem_cons.1 part
    exact (call hv hn ⟨hn₁, hcallee⟩ (fun a hmem => ⟨hn₂ a hmem, ha a hmem⟩) hm).widen.forget

end Parts

end Runs

/-- A run that may be cut short on entering the node, which leaves the machine as it is. -/
theorem Runs.visitCut {stop : Nat → Node → Machine → Bool} {k : Nat} {Q : Slot → Machine → Prop}
    (hm : m.Good c W) (h : stop k n m = false →
      Runs c S W' (Excused c) (Eval.visitWith k (Eval.visitCut stop k) n) Q m) :
    Runs c S W' (Excused c) (Eval.visitCut stop (k + 1) n) Q m := by
  cases hs : stop k n m with
  | true =>
    have halt : Eval.visitCut stop (k + 1) n m = .error .outOfFuel m := by
      simp only [Eval.visitCut, hs, if_true]
    exact (wp_of_error halt).2 ⟨hm.blind, Proceeds.refl.halt, trivial⟩
  | false =>
    have run : Eval.visitCut stop (k + 1) n m =
        Eval.visitWith k (Eval.visitCut stop k) n m := by
      simp only [Eval.visitCut, hs, Bool.false_eq_true, if_false]
    exact (wp_congr run).2 (h hs)

/-- Runs are cut short before compound assignments to frozen cells. -/
def Setting.Spared (c : Setting) (stop : Nat → Node → Machine → Bool) : Prop :=
  ∀ k op t e p m, c.nodes (.update op t e p) → stop k (.update op t e p) m = false →
    ∀ r m₁, Eval.visitCut stop k t m = .ok (some r) m₁ → ¬c.frozen r

/-- Runs go as they should, whole or cut short, as long as frozen cells are spared. -/
theorem visits_visitCut {stop : Nat → Node → Machine → Bool} (hc : c.Closed) (hs : c.Spared stop)
    (k : Nat) : Visits c (Eval.visitCut stop k) := by
  induction k with
  | zero => exact ⟨fun _ hm => Runs.throw hm trivial, fun _ hm => Runs.throw hm trivial⟩
  | succ k ih =>
    refine ⟨fun he hm => Runs.visitCut hm fun _ => Runs.visitWith_expr ih hc k he hm,
      fun hst hm => Runs.visitCut hm fun hgo => Runs.visitWith_stat ih hc k hst ?_ hm⟩
    rintro op t e p rfl r m₁ h
    exact hs k op t e p _ hst.node hgo r m₁ h

theorem runs_program {stop : Nat → Node → Machine → Bool} {ss : List Node} (hc : c.Closed)
    (hs : c.Spared stop) (k : Nat) (hn : c.nodes (.program ss)) (hp : PassesAll c.watched W ss W')
    (hm : m.Good c W) : Does c S W' (Eval.visitCut stop k (.program ss)) m := by
  cases k with
  | zero => exact Runs.throw hm trivial
  | succ k =>
    refine Runs.visitCut hm fun _ => Runs.statement ?_
    exact Runs.runAll (visits_visitCut hc hs k) (hc _ hn) hp hm

theorem runs_unwatched {stop : Nat → Node → Machine → Bool} (hc : c.Closed) (hs : c.Spared stop)
    (hw : c.watched = none) (k : Nat) (ht : n.IsProgram) (hn : c.nodes n) (hm : m.Good c none) :
    Does c S none (Eval.visitCut stop k n) m := by
  obtain ⟨ss, rfl, hst⟩ := ht
  exact runs_program hc hs k hn (.unwatched hw hst) hm

/-! ### Sessions -/

/-- All nodes may occur and no cell is frozen. -/
def Setting.free (level : Int) : Setting := ⟨fun _ => True, level, fun _ => False, none⟩

theorem Setting.closed_free (level : Int) : (Setting.free level).Closed := fun _ _ _ _ => trivial

theorem Setting.spared_free (level : Int) (stop : Nat → Node → Machine → Bool) :
    (Setting.free level).Spared stop := fun _ _ _ _ _ _ _ _ _ _ _ h => h

theorem made_builtins (x : String × Value) (hx : x ∈ Host.builtins) :
    x.2.Sound 0 ∧ x.2.Made c ∧ x.2.isContainer = false := by
  rcases mem_append.1 hx with hx | hx
  · obtain ⟨_, -, rfl⟩ := mem_map.1 hx
    exact ⟨trivial, trivial, rfl⟩
  · simp only [mem_cons, not_mem_nil, or_false] at hx
    rcases hx with rfl | rfl | rfl <;> exact ⟨trivial, trivial, rfl⟩

/-- Values of the host are bound as constants in a record that is not yet on the stack. -/
theorem wp_bindAll_good {xs : List (String × Value)} {r : Record} {o : Option Bool}
    (hx : ∀ x ∈ xs, x.2.Sound 0 ∧ x.2.Made c ∧ x.2.isContainer = false) (hs : m.store.Good c)
    (ht : m.store.Tidy) (hr : r.Good m.store.cells.size) (hf : ∀ x ∈ c.watched, Fits o (r.get? x)) :
    wp (Host.bindAll r xs) (fun r' m' => m'.store.Good c ∧ r'.Good m'.store.cells.size ∧
      r'.kind = r.kind ∧ r'.state = r.state ∧ m'.stack = m.stack ∧ m'.level = m.level ∧
      m'.store.Tidy ∧ ∀ x ∈ c.watched, Fits (if xs.any (·.1 == x) then some true else o) (r'.get? x))
      (fun _ _ => False) m := by
  induction xs generalizing r o m with
  | nil => exact (wp_pure r).2 ⟨hs, hr, rfl, rfl, rfl, rfl, ht, hf⟩
  | cons x xs ih =>
    obtain ⟨⟨sound, made, plain⟩, hxs⟩ := forall_mem_cons.1 hx
    obtain ⟨hs₁, ev, lt, -⟩ := Mem.Acts.allocPlain (X := fun _ => False) hs sound made plain
    have run : Exec.mem (Mem.alloc x.2) m =
      .ok (m.store.alloc x.2).1 { m with store := (m.store.alloc x.2).2 } := rfl
    refine wp_bind.2 ((wp_of_ok run).2 ?_)
    have bound : (r.set x.1 ⟨some (m.store.alloc x.2).1, true⟩).Good
        (m.store.alloc x.2).2.cells.size := (hr.mono ev.size).set (.inl (.some lt))
    have fits : ∀ y ∈ c.watched, Fits (if c.watched = some x.1 then some true else o)
        ((r.set x.1 ⟨some (m.store.alloc x.2).1, true⟩).get? y) := by
      intro y hy
      rw [RecordOf.get?_set, Option.mem_def.1 hy]
      by_cases hxy : y = x.1
      · rw [if_pos hxy, if_pos (congrArg some hxy)]
        exact .some
      · rw [if_neg hxy, if_neg fun h => hxy (Option.some.inj h)]
        exact hf y hy
    have rest := ih (m := { m with store := (m.store.alloc x.2).2 }) hxs hs₁ (ht.alloc fun t e => by
      rw [e] at plain
      cases plain) bound fits
    refine wp_mono rest (fun r' m' h => ?_) fun _ _ h => h
    obtain ⟨hs', hr', hk, hst, hstack, hl, tidy, fitted⟩ := h
    refine ⟨hs', hr', hk, hst, hstack, hl, tidy, fun y hy => ?_⟩
    have fitted := fitted y hy
    have bound : c.watched = some x.1 ↔ (x.1 == y) = true := by
      rw [Option.mem_def.1 hy, Option.some.injEq, beq_iff_eq, eq_comm]
    simpa only [bound, ← ite_or, any_cons, Bool.or_eq_true, or_comm] using fitted

/-- The names known from the start are constants. -/
def View.start (w : Option String) : View := w.map fun x => [if Host.isBuiltin x then some true else none]

theorem good_boot (input : List Char) (level : Int) (hl : c.level = level) :
    wp Host.boot (fun _ m => m.Good c (.start c.watched) ∧ m.store.Tidy ∧
      ∃ r, m.stack.records = [r] ∧ r.state = .normal)
      (fun _ _ => True) { input := input, level := level } := by
  have empty : Store.empty.Good c := by
    refine ⟨fun r => by simp [Store.get, Store.empty, Value.Sound], fun r h => ?_, fun r t h => ?_⟩
    · cases h
    · cases h
  have tidy : Store.empty.Tidy := by
    refine ⟨fun r t h => ?_, fun r t h => ?_⟩ <;> cases h
  refine wp_bind.2 (wp_mono (wp_bindAll_good made_builtins empty tidy (RecordOf.good_new _ _ _) fun _ _ => .none)
    (fun r m₁ h => ?_) fun _ _ h => h.elim)
  obtain ⟨hs, hr, hk, hst, hstack, hlevel, tidy, fits⟩ := h
  have records : (m₁.stack.push r).records =
      [{ r with outer := m₁.stack.current, level := m₁.stack.level + 1 }] := by
    rw [CallStackOf.push, hstack]
  have pushed : { m₁ with stack := m₁.stack.push r }.Good c (.start c.watched) := by
    refine ⟨hs, ?_, ?_, hlevel.trans hl.symm, fun x hx V hV => ?_⟩
    · rw [records]
      exact forall_mem_singleton.2 ⟨hr.sound, hr.retval, hr.filled⟩
    · rw [records]
      exact congrArg some hk
    · rw [Option.mem_def.1 hx] at hV
      cases hV
      rw [records]
      exact .cons (fits x hx) .nil
  rw [Exec.enter, wp_bind, wp_modifyStack]
  refine wp_mono (Runs.note (S := []) (X := fun _ => True) pushed (fun _ _ => trivial) _)
    (fun _ m₂ h₂ => ?_) fun _ _ _ => trivial
  obtain ⟨hm₂, -, est, estore⟩ := h₂
  have alone : m₂.stack.records =
      [{ r with outer := m₁.stack.current, level := m₁.stack.level + 1 }] := by
    rw [est]
    exact records
  exact ⟨hm₂, by rwa [estore], _, alone, hst⟩

theorem good_of_reachable (hm : Reachable Node.IsProgram m) : m.Good (.free m.level) none := by
  refine Reachable.induct_runs (I := fun m => m.Good (.free m.level) none) (fun input level => ?_)
    (fun _ _ _ h => h.congr rfl rfl rfl) (fun stop fuel tree m ht h => ?_) hm
  · refine wp_mono (good_boot (c := .free level) input level rfl) (fun _ m₁ h => ?_) fun _ _ h => h
    have level₁ := h.1.level
    rw [level₁]
    exact h.1
  · have stays : ∀ {m' : Machine}, m'.Good (.free m.level) none → m'.Good (.free m'.level) none := by
      intro m' h'
      rw [h'.level]
      exact h'
    exact wp_mono (runs_unwatched (S := []) (Setting.closed_free _) (Setting.spared_free _ _) rfl fuel ht
      trivial h) (fun _ _ h' => stays h'.1) fun _ _ h' => stays h'.1

end TinyScript
