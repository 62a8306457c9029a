import TinyScript.Proofs.Paired

/-!
# Marks on records follow outcomes

An expression leaves all marks as they were. A statement leaves them as its outcome says: the records
from the innermost up to the one the jump goes to are marked, and nothing else. This holds of every
statement and expression of the grammar (`sim_visitCut`), on any machine, whatever marks are there
before.
-/

namespace TinyScript

open Exec List Eval CallStack

namespace Sim

variable {cut : Prop} {n : Nat} {t : List Record}
variable {w a b : Slot} {op : TokenKind} {z : Mem Slot} {v : Value} {start stop step key : Node}
  {r g : Record} {args : Option (List Node)} {o : Outcome} {α β : Type} {x : Exec α} {x' : Plain β}
  {Q : α → β → Nat → List Record → Prop}

/-! ### Operators -/

theorem runOp (op : TokenKind) (p : Position) {P : Nat → Slot → Prop} {y : Option (Mem Slot)}
    (hy : ∀ z, y = some z → Mem.Keeps w n z P) :
    Sim cut n t (Eval.runOp op p y) (Eval.runOp op p y) (Same t P) := by
  cases y with
  | none => exact report _ _
  | some z => exact turn (k := .operand) (fun _ _ _ hp => .error hp) (mem (hy z rfl))

/-- Operators yield new cells, but for those that change a variable. -/
theorem binaryOp_cases (h : binaryOp? op a b = some z) :
    (∀ w n, Mem.Keeps w n z Live) ∨ op ∈ TokenKind.updates ∧ ∀ n, Mem.Keeps a n z Any := by
  have live : ∀ {y : Mem Ref}, (∀ w n, Mem.Keeps w n y Mem.Fresh) → ∀ w n,
      Mem.Keeps w n (some <$> y) Live := fun hy w n => (hy w n).map fun _ _ _ hr => .some hr
  unfold binaryOp? at h
  split at h <;> cases h
  · exact .inl (live fun _ _ => .eq a b)
  · exact .inl (live fun _ _ => .lt a b)
  · exact .inl (live fun _ _ => .le a b)
  · exact .inl (live fun _ _ => .calculated (.sum a b))
  · exact .inl (live fun _ _ => .calculated (.arithmetic _ a b))
  · exact .inl (live fun _ _ => .calculated (.arithmetic _ a b))
  · exact .inl (live fun _ _ => .calculated (.arithmetic _ a b))
  · exact .inr ⟨by decide, fun _ => (Mem.Keeps.updateAdd a b).map fun _ _ _ _ => trivial⟩
  · exact .inr ⟨by decide, fun _ => (Mem.Keeps.updateSub a b).map fun _ _ _ _ => trivial⟩

theorem binaryOp_keeps (hop : op ∉ TokenKind.updates) (h : binaryOp? op a b = some z) :
    Mem.Keeps w n z Live := by
  rcases binaryOp_cases h with h | ⟨hu, -⟩
  · exact h w n
  · exact absurd hu hop

/-- A binary operator that changes nothing is one operation, which yields a new cell. -/
theorem runBinary_eq (hop : op ∉ TokenKind.updates) (a b : Slot) (p : Position) (n : Nat) : ∃ op' y,
      (∀ {σ ρ : Type}, (Eval.runBinary op a b p : ExecOf σ ρ Slot) = Eval.runOp op' p y) ∧
      ∀ z, y = some z → Mem.Keeps none n z Live := by
  cases hneg : negatedOp? op with
  | none =>
    refine ⟨op, binaryOp? op a b, ?_, fun z hz => binaryOp_keeps hop hz⟩
    simp only [Eval.runBinary, hneg, implies_true]
  | some op' =>
    refine ⟨op', (binaryOp? op' a b).map fun x => do Mem.negate (← x), ?_, fun z hz => ?_⟩
    · simp only [Eval.runBinary, hneg, implies_true]
    unfold negatedOp? at hneg
    split at hneg <;> cases hneg <;> cases hz
    · exact .negated (.equals a b)
    · exact .negated (.less a b)
    · exact .negated (.lessEq a b)

theorem runBinary (hop : op ∉ TokenKind.updates) (a b : Slot) (p : Position) :
    Sim cut n t (Eval.runBinary op a b p) (Eval.runBinary op a b p) (Same t Live) := by
  obtain ⟨op', y, e, hy⟩ := runBinary_eq hop a b p n
  rw [e, e]
  exact runOp op' p hy

theorem unaryOp_keeps (ha : Live n a) (h : unaryOp? op a = some z) : Mem.Keeps none n z Live := by
  unfold unaryOp? at h
  split at h <;> cases h
  · exact .plus ha
  · exact (Mem.Keeps.minus a).map fun _ _ _ hr => .some hr
  · exact (Mem.Keeps.not a).map fun _ _ _ hr => .some hr

theorem new (hv : v.Sound n) : Sim cut n t (Eval.new v) (Eval.new v) (Same t Live) :=
  map some (mem (w := none) (.alloc hv)) fun _ _ _ hr => .some hr

theorem newNull : Sim cut n t (some <$> Exec.mem Mem.newNull) (some <$> Exec.mem Mem.newNull)
    (Same t Live) := new (v := .null) trivial

/-! ### Parts of nodes -/

section Parts

variable {visit : Node → Exec Slot} {eval : Node → Plain Slot}
  (hv : ∀ e : Node, e.IsExpr → ∀ n t, Sim cut n t (visit e) (eval e) (Same t Live))
variable {ns : List Node} {k : Node} {vs : List Slot}
include hv

theorem values (hns : ∀ e ∈ ns, e.IsExpr) :
    Sim cut n t (Eval.values visit ns) (Eval.values eval ns) (Same t fun n' vs => ∀ v ∈ vs, Live n' v) := by
  induction ns generalizing n with
  | nil => exact same fun _ _ _ h => absurd h not_mem_nil
  | cons e es ih =>
    obtain ⟨he, hes⟩ := forall_mem_cons.1 hns
    refine then_ (hv e he n t) fun v n₁ _ hl => then_ (ih hes) fun vs n₂ hn₂ hls => ?_
    exact same fun n' hn' => forall_mem_cons.2
      ⟨hl.mono (Nat.le_trans hn₂ hn'), fun u hu => (hls u hu).mono hn'⟩

theorem valueOr (hs : v.Sound n) (hk : k ≠ .missing → k.IsExpr) :
    Sim cut n t (Eval.valueOr visit v k) (Eval.valueOr eval v k) (Same t Live) := by
  unfold Eval.valueOr
  by_cases h : k = .missing
  · subst h
    exact new hs
  · rw [Node.isMissing_of_ne h]
    exact hv k (hk h) n t

theorem condition (hk : k.IsExpr) :
    Sim cut n t (Eval.condition visit k) (Eval.condition eval k) (Same t Any) := by
  refine turn (k := .operand) (fun e m m' hp => ?_) (then_ (hv k hk n t) fun v _ _ _ => mem (w := none) (.truth v))
  unfold Exec.reportAt
  cases k.pos? with
  | none => exact .error hp
  | some p => exact .error hp

theorem valuesFor (count : Nat) (hns : ∀ e ∈ ns, e.IsExpr) :
    Sim cut n t (Eval.valuesFor visit count ns) (Eval.valuesFor eval count ns)
      (Same t fun n' vs => ∀ v ∈ vs, Live n' v) := by
  induction count generalizing n ns with
  | zero => exact same fun _ _ _ h => absurd h not_mem_nil
  | succ count ih =>
    cases ns with
    | nil =>
      refine then_ (mem (w := none) .newNull) fun v n₁ _ hl => then_ (ih hns) fun vs n₂ hn₂ hls => ?_
      exact same fun n' hn' => forall_mem_cons.2
        ⟨(Live.some hl).mono (Nat.le_trans hn₂ hn'), fun u hu => (hls u hu).mono hn'⟩
    | cons e es =>
      obtain ⟨he, hes⟩ := forall_mem_cons.1 hns
      refine then_ (hv e he n t) fun v n₁ _ hl => then_ (ih hes) fun vs n₂ hn₂ hls => ?_
      exact same fun n' hn' => forall_mem_cons.2
        ⟨hl.mono (Nat.le_trans hn₂ hn'), fun u hu => (hls u hu).mono hn'⟩

omit hv in
theorem declareAll (isConst : Bool) (ns : List Node) (hvs : ∀ v ∈ vs, Live n v) :
    Sim cut n t (Eval.declareAll isConst ns vs) (Eval.declareAll isConst ns vs) (Same t Any) := by
  induction ns generalizing n vs with
  | nil => exact same fun _ _ => trivial
  | cons k ks ih =>
    cases vs with
    | nil => exact same fun _ _ => trivial
    | cons v vs =>
      obtain ⟨hl, hls⟩ := forall_mem_cons.1 hvs
      unfold Eval.declareAll
      split
      · refine bind currentRecord fun r r' n₁ t₁ hn₁ h => ?_
        obtain ⟨rfl, rfl, -⟩ := h
        refine ite (report _ _) ?_
        refine then_ (bindTop _ fun q hq => ?_) fun _ n₂ hn₂ _ => ih fun u hu => ?_
        · exact Live.index_lt (hq ▸ hl.mono hn₁)
        · exact (hls u hu).mono (Nat.le_trans hn₁ hn₂)
      · exact fault _

theorem assignTo {target : Node} (ht : target.IsExpr) {v : Slot} (hl : Live n v) :
    Sim cut n t (Eval.assignTo visit target v) (Eval.assignTo eval target v) (Same t Any) := by
  have member : ∀ {n₁ c key p}, n ≤ n₁ → Node.IsExpr key → Sim cut n₁ t
      (Exec.onMember (fun e => Exec.report p (.member e))
        (do let k ← visit key; Exec.mem (Mem.setMember c k v)))
      (Exec.onMember (fun e => Exec.report p (.member e))
        (do let k ← eval key; Exec.mem (Mem.setMember c k v))) (Same t Any) := fun hn hk =>
    turn (k := .member) (fun _ _ _ hp => .error hp) (then_ (hv _ hk _ t) fun k n₂ hn₂ hlk =>
      mem (.setMember hlk (hl.mono (Nat.le_trans hn hn₂))))
  cases ht with
  | name => exact setName _ _ hl false
  | access hb hk =>
    refine then_ (hv _ hb n t) fun c n₁ hn₁ _ => get fun m m' hp hn₂ _ => ?_
    rw [hp.store]
    split
    · exact member (Nat.le_trans hn₁ hn₂) hk
    · exact member (Nat.le_trans hn₁ hn₂) hk
    · exact reportAt _ _
  | _ => exact fault _

theorem assignAll {targets : List Node} (ht : ∀ e ∈ targets, e.IsExpr) (hvs : ∀ v ∈ vs, Live n v) :
    Sim cut n t (Eval.assignAll visit targets vs) (Eval.assignAll eval targets vs) (Same t Any) := by
  induction targets generalizing n vs with
  | nil => exact same fun _ _ => trivial
  | cons k ks ih =>
    cases vs with
    | nil => exact same fun _ _ => trivial
    | cons v vs =>
      obtain ⟨hk, hks⟩ := forall_mem_cons.1 ht
      obtain ⟨hl, hls⟩ := forall_mem_cons.1 hvs
      exact then_ (assignTo hv hk hl) fun _ _ hn _ => ih hks fun u hu => (hls u hu).mono hn

theorem rangeBound (hk : k.IsExpr) :
    Sim cut n t (Eval.rangeBound visit k) (Eval.rangeBound eval k) (Same t Live) := by
  refine then_ (hv k hk n t) fun v n₁ _ hl => get fun m m' hp hn _ => ?_
  rw [hp.store]
  split
  · exact same fun n' hn' => hl.mono (Nat.le_trans hn hn')
  · exact reportAt _ _

theorem rangeValues (hs : start.IsExpr) (he : stop.IsExpr) (hd : step ≠ .missing → step.IsExpr) :
    Sim cut n t (Eval.rangeValues visit start stop step) (Eval.rangeValues eval start stop step)
      (Same t fun n' v => Live n' v.1 ∧ Live n' v.2.1 ∧ Live n' v.2.2) := by
  refine then_ (rangeBound hv hs) fun s n₁ _ hs => then_ (rangeBound hv he) fun e n₂ hn₂ he => ?_
  refine then_ (valueOr hv (v := .num (.int 1)) trivial hd) fun d n₃ hn₃ hd => same fun n' hn' => ⟨?_, ?_, hd.mono hn'⟩
  · exact hs.mono (Nat.le_trans hn₂ (Nat.le_trans hn₃ hn'))
  · exact he.mono (Nat.le_trans hn₃ hn')

omit hv in
theorem bindEntry (key val : Node) {k v : Slot} (hk : Live n k) (hl : Live n v) :
    Sim cut n t (Eval.bindEntry key val k v) (Eval.bindEntry key val k v) (Same t Any) := by
  have set : ∀ {n₁} (x : String) {u : Slot}, Live n₁ u → Sim cut n₁ t
      (Exec.modifyStack (·.modifyTop (·.set x ⟨u, true⟩)))
      (Exec.modifyStack (·.modifyTop (·.set x ⟨u, true⟩))) (Same t Any) :=
    fun x _ hu => bindTop x fun q hq => Live.index_lt (hq ▸ hu)
  simp only [Eval.bindEntry]
  refine ite ?_ (then_ (P := Any) ?_ fun _ _ hn _ => ?_) <;> split
  · exact set _ hl
  · exact fault _
  · exact set _ hk
  · exact fault _
  · exact set _ (hl.mono hn)
  · exact fault _

omit hv in
theorem getMember (c key : Slot) :
    Sim cut n t (Eval.getMember c key) (Eval.getMember c key) (Same t Live) := by
  refine then_ (mem (w := none) (.member? c key)) fun v n₁ _ hl => ?_
  cases v with
  | some v => exact same fun n' hn' => (hl v rfl).mono hn'
  | none =>
    refine then_ (emit _) fun _ n₂ _ _ => get fun m m' hp _ _ => ?_
    rw [hp.store]
    exact then_ (ofExcept _) fun _ _ _ _ => then_ (emit _) fun _ _ _ _ =>
      then_ (text key) fun _ _ _ _ => fail _

theorem runAccess {base : Node} (hb : base.IsExpr) (hk : key.IsExpr) (p : Position) :
    Sim cut n t (Eval.runAccess visit base key p) (Eval.runAccess eval base key p) (Same t Live) := by
  refine then_ (hv base hb n t) fun c n₁ _ _ => then_ (hv key hk n₁ t) fun k n₂ _ _ => ?_
  refine get fun m m' hp _ _ => ?_
  rw [hp.store]
  split
  · exact turn (k := .member) (fun _ _ _ hp => .error hp) (getMember c k)
  · exact turn (k := .member) (fun _ _ _ hp => .error hp) (getMember c k)
  · exact report _ _

theorem fillMap {c : Ref} {entries : List (Node × Node)}
    (he : ∀ e ∈ entries, e.1.IsExpr ∧ e.2.IsExpr) :
    Sim cut n t (Eval.fillMap visit c entries) (Eval.fillMap eval c entries) (Same t Any) := by
  induction entries generalizing n with
  | nil => exact same fun _ _ => trivial
  | cons e es ih =>
    obtain ⟨he, hes⟩ := forall_mem_cons.1 he
    refine then_ (hv e.1 he.1 n t) fun k n₁ _ hk => ?_
    refine then_ (valueOr hv (v := .null) trivial fun _ => he.2) fun v n₂ hn₂ hl => ?_
    exact then_ (mem (.setMember (hk.mono hn₂) hl)) fun _ _ _ _ => ih hes

/-! ### Calls -/

theorem argument {args : List Node} (ha : ∀ a ∈ args, a.IsExpr) :
    Sim cut n t (Eval.argument visit args) (Eval.argument eval args)
      (Same t fun n' v => ∀ r, v = some r → r.index < n') := by
  cases args with
  | nil => exact same fun _ _ _ h => by cases h
  | cons a as =>
    have he := ha a (by simp)
    unfold Eval.argument
    split
    · exact same fun _ _ _ h => by cases h
    · exact same fun _ _ _ h => by cases h
    · rename_i e
      cases e
      exact (hv a he n t).mono fun v _ n' _ _ h =>
        ⟨h.1, h.2.1, fun r hr => Live.index_lt (hr ▸ h.2.2)⟩

/-- Binding parameters to arguments goes the same way with and without marks. -/
theorem bindParams (hr : r.Sound n) (ps : List Node) {args : List Node} (ha : ∀ a ∈ args, a.IsExpr) :
    Sim cut n t (Eval.bindParams visit r ps args) (Eval.bindParams eval r.plain ps args)
      fun r₁ r₁' n' t' => r₁' = r₁.plain ∧ t' = t ∧ r₁.Sound n' ∧ r₁.tag = r.tag := by
  induction ps generalizing n r args with
  | nil => exact pure fun n' hn' => ⟨rfl, rfl, hr.mono hn', rfl⟩
  | cons p ps ih =>
    unfold Eval.bindParams
    cases p.ident? with
    | none => exact fault _
    | some x =>
      refine then_ (argument hv ha) fun v n₁ hn₁ hl => ?_
      exact ih ((hr.mono hn₁).set x hl) fun a h => ha a (mem_of_mem_tail h)

omit hv in
theorem checkFurther (f : Closure) (args : Option (List Node)) (p : Position) :
    Sim cut n t (Eval.checkFurther f args p) (Eval.checkFurther f args p) (Same t Any) := by
  unfold Eval.checkFurther
  refine ite ?_ (same fun _ _ => trivial)
  cases args with
  | none => exact fault _
  | some args => exact ite (report _ _) (same fun _ _ => trivial)

/-- The mark of a function that has just been called. -/
def called (name : String) : Record := { name := name, kind := .function }

theorem callRecord (f : Closure) (ha : ∀ a ∈ args.getD [], a.IsExpr) (p : Position) :
    Sim cut n t (Eval.callRecord visit f args p) (Eval.callRecord eval f args p)
      fun r r' n' t' => r' = r.plain ∧ t' = t ∧ r.Sound n' ∧
        r.tag = called s!"{f.signature}<{p.render}>" := by
  refine bind (bindParams hv (fun _ he => absurd he not_mem_nil) _ ha)
    fun r r' n₁ t₁ hn₁ h => ?_
  obtain ⟨rfl, rfl, hr, htag⟩ := h
  refine then_ (checkFurther f args p) fun _ n₂ hn₂ _ => pure fun n' hn' => ?_
  exact ⟨rfl, rfl, hr.mono (Nat.le_trans hn₂ hn'), htag⟩

theorem callHost (action : HostAction) (ha : ∀ a ∈ args.getD [], a.IsExpr) (p : Position) :
    Sim cut n t (Eval.callHost visit action args p) (Eval.callHost eval action args p)
      (Same t Live) := by
  refine then_ (values hv ha) fun vs n₁ _ _ => ?_
  refine then_ (turn (k := .operand) (fun _ _ _ hp => .error hp) (hostRun action vs)) fun result n₂ _ hl => ?_
  rcases result with _ | _ | v
  · exact report _ _
  · exact newNull
  · exact same fun n' hn' => (Live.some (hl v rfl)).mono hn'

end Parts

/-! ### Jumps -/

open Structured (route)

/-- A jump that marks its way goes as far as one that looks ahead. -/
theorem sendJump (st : RecordState) (goal : RecordKind) (word : String) :
    Sim cut n t (Eval.sendJump st goal word) (Structured.announce goal word)
      fun b b' _ t' => b' = b ∧ b = (route goal t).2 ∧ t' = (jump st goal t).records := by
  have e : Eval.sendJump st goal word = (do
      let m ← MonadState.get
      Exec.modifyRecords fun rs => (jump st goal rs).records
      Exec.noteJumps s!"set {word}" (jump st goal m.stack.records).passed
      return (jump st goal m.stack.records).found) := rfl
  rw [e]
  refine get fun m m' hp hn ht => ?_
  have way' : route goal m'.stack.records = route goal t := by
    rw [hp.stack, CallStackOf.plain, route_plain, ← ht, marks, route_tag]
  have way : ((jump st goal m.stack.records).passed,
      (jump st goal m.stack.records).found) = route goal t := by
    rw [jump_route, ← ht, marks, route_tag]
  refine remarkRecords (jump st goal t).records (jump_plain st goal)
    (fun rs hrs => ?_) ?_
  · rw [← hrs, jump_tag]
  · simp only [way', ← way]
    exact then_ (noteJumps _ _) fun _ _ _ _ => pure fun _ _ => ⟨rfl, rfl, rfl⟩

theorem jumpLoop {st : RecordState} (word : String) (p : Position) (ho : ∀ n', (route .loop t).2 = true →
      Outcome.Ends t o n' (jump st .loop t).records) :
    Sim cut n t (Eval.jumpLoop st word p) (Structured.jumpLoop o word p)
      fun _ o' n' t' => o'.Ends t n' t' := by
  refine bind (sendJump st .loop word) fun b b' n₁ t₁ _ h => ?_
  obtain ⟨rfl, hb, rfl⟩ := h
  cases b' with
  | true => exact pure fun n' _ => ho n' hb.symm
  | false => exact report _ _

theorem jumpReturn {visit : Node → Exec Slot} {eval : Node → Plain Slot}
    (hv : ∀ e : Node, e.IsExpr → ∀ n t, Sim cut n t (visit e) (eval e) (Same t Live)) {expr : Node}
    (he : expr ≠ .missing → expr.IsExpr) (p : Position) :
    Sim cut n t (Eval.jumpReturn visit expr p) (Structured.jumpReturn eval expr p)
      fun _ o' n' t' => o'.Ends t n' t' := by
  refine bind (sendJump .returned .function "return") fun b b' n₁ t₁ _ h => ?_
  obtain ⟨rfl, hb, rfl⟩ := h
  cases b' with
  | true =>
    refine then_ (valueOr hv (v := .null) trivial he) fun v n₂ _ hl => ?_
    refine remarkRecords (x := Pure.pure ()) (Outcome.mark (.returned v) t)
      (setRetval_plain v) (fun rs hrs => ?_) ?_
    · rw [← setRetval_tag, hrs]
      rfl
    · refine pure fun n' hn' => ⟨rfl, hb.symm, fun u hu => ?_⟩
      cases hu
      exact hl.mono hn'
  | false => exact report _ _

/-! ### Marks on the innermost record -/

theorem reset (what : String) (hx : ∀ n', n ≤ n' → Sim cut n' ({ g with state := .normal } :: t) x x' Q) :
    Sim cut n (g :: t) (do Exec.setState .normal; Exec.noteJump g.name what; x)
      (do Structured.note what; x') Q := by
  refine setState .normal ?_
  rw [Structured.note, bind_assoc]
  refine currentRecord_right fun r hr => ?_
  rw [hr]
  exact then_ (noteJump _ _) fun _ n' hn' _ => hx n' hn'

/-- The state that a jump with the given outcome marks records with. -/
def stateOf : Outcome → RecordState
  | .normal => .normal
  | .broken => .breaked
  | .continued => .continued
  | .returned _ => .returned

section Statements

variable {visit : Node → Exec Slot} {eval : Node → Plain Slot} {exec : Node → Plain Outcome}
  (hv : ∀ e : Node, e.IsExpr → ∀ n t, Sim cut n t (visit e) (eval e) (Same t Live))
  (hs : ∀ s : Node, s.IsStat → ∀ n t, Sim cut n t (visit s) (exec s) fun _ o n' t' => o.Ends t n' t')
variable {n' : Nat} {t' : List Record} {f : Bool → Exec α} {stats : List Node} {γ : Type}
  {next : Plain (Structured.Round γ)} {P : Nat → γ → Prop} {body cond : Node}
  {clauses : List (Node × Node)}

/-! ### Blocks -/

theorem ends_block (hk : g.kind = .block) (hg : g.state = .normal) (h : o.Ends (g :: t) n' t') :
    ∃ t₁, t' = { g with state := stateOf o } :: t₁ ∧ o.Ends t n' t₁ := by
  obtain ⟨hm, ha, hl⟩ := h
  cases o with
  | normal => exact ⟨t, by rw [hm, stateOf, ← hg]; rfl, rfl, trivial, hl⟩
  | broken | continued =>
    refine ⟨_, ?_, rfl, ?_, hl⟩
    · rw [hm]
      simp [Outcome.mark, jump, hk, stateOf]
    · simpa [Outcome.Allowed, route, hk] using ha
  | returned v =>
    refine ⟨_, ?_, rfl, ?_, hl⟩
    · rw [hm]
      simp [Outcome.mark, jump, setRetval, hk, stateOf]
    · simpa [Outcome.Allowed, route, hk] using ha

theorem settleBlock_normal (hg : g.state = .normal) (hf : Sim cut n (g :: t) (f true) x' Q) :
    Sim cut n (g :: t) (Eval.settleBlock >>= f) x' Q := by
  rw [Eval.settleBlock, bind_assoc]
  refine currentRecord_left fun r hr => ?_
  have hst : r.state = .normal := by rw [← hg, ← hr]; rfl
  rw [hst]
  exact hf

theorem settleBlock (hg : g.state = .normal) (ho : o ≠ .normal) :
    Sim cut n ({ g with state := stateOf o } :: t) Eval.settleBlock (Structured.endBlock o)
      fun b o' _ t' => b = false ∧ o' = o ∧ t' = g :: t := by
  refine currentRecord_left fun r hr => ?_
  have hst : r.state = stateOf o := congrArg (·.state) hr
  have hname : r.name = g.name := congrArg (·.name) hr
  have back : ({ g with state := .normal } : Record) = g := by rw [← hg]
  rw [hst, hname]
  cases o with
  | normal => exact absurd rfl ho
  | broken => exact reset "pass break" fun _ _ => pure fun _ _ => ⟨rfl, rfl, by rw [← back]⟩
  | continued => exact reset "pass continue" fun _ _ => pure fun _ _ => ⟨rfl, rfl, by rw [← back]⟩
  | returned v => exact reset "pass return" fun _ _ => pure fun _ _ => ⟨rfl, rfl, by rw [← back]⟩

include hs in
theorem runBlock (hk : g.kind = .block) (hg : g.state = .normal) (hst : ∀ s ∈ stats, s.IsStat) :
    Sim cut n (g :: t) (runSettled visit Eval.settleBlock stats)
      (do let o ← Structured.sequence exec stats; Structured.endBlock o)
      fun _ o n' t' => ∃ t₁, t' = g :: t₁ ∧ o.Ends t n' t₁ := by
  induction stats generalizing n with
  | nil => exact pure fun n' _ => ⟨t, rfl, Outcome.ends_normal t n'⟩
  | cons s ss ih =>
    obtain ⟨h₁, h₂⟩ := forall_mem_cons.1 hst
    rw [Structured.sequence, bind_assoc]
    refine bind (hs s h₁ n (g :: t)) fun _ o n₁ t₁ _ h => ?_
    obtain ⟨t₂, rfl, he⟩ := ends_block hk hg h
    by_cases ho : o = .normal
    · subst ho
      have hg' : ({ g with state := .normal } : Record) = g := by rw [← hg]
      obtain rfl : t₂ = t := he.marks
      rw [stateOf, hg']
      exact settleBlock_normal hg (ih h₂)
    · rw [Structured.proceed_of_ne ho, pure_bind, ← bind_pure (Structured.endBlock o)]
      refine bind (settleBlock hg ho) fun b o' n₂ t₃ hn₂ h => ?_
      obtain ⟨rfl, rfl, rfl⟩ := h
      exact pure fun n' hn' => ⟨t₂, rfl, he.mono (Nat.le_trans hn₂ hn')⟩

/-! ### Loops -/

/-- How a loop ends after a body with the given outcome, unless it goes on. -/
def passed : Outcome → Outcome
  | .returned v => .returned v
  | _ => .normal

theorem ends_loop (hk : g.kind = .loop) (hg : g.state = .normal) (h : o.Ends (g :: t) n' t') :
    ∃ t₁, t' = { g with state := stateOf o } :: t₁ ∧ (passed o).Ends t n' t₁ := by
  obtain ⟨hm, ha, hl⟩ := h
  cases o with
  | normal => exact ⟨t, by rw [hm, stateOf, ← hg]; rfl, Outcome.ends_normal t n'⟩
  | broken | continued =>
    refine ⟨t, ?_, Outcome.ends_normal t n'⟩
    rw [hm]
    simp [Outcome.mark, jump, hk, stateOf]
  | returned v =>
    refine ⟨_, ?_, rfl, ?_, hl⟩
    · rw [hm]
      simp [Outcome.mark, jump, setRetval, hk, stateOf, passed]
    · simpa [Outcome.Allowed, route, hk, passed] using ha

/-- After the body a loop goes on or ends, and its record is normal again. -/
theorem settleLoop (hg : g.state = .normal) {Q : α → Structured.Round γ → Nat → List Record → Prop}
    (again : ∀ n', n ≤ n' → passed o = .normal → Sim cut n' (g :: t) (f true) next Q)
    (done : ∀ n', n ≤ n' → Sim cut n' (g :: t) (f false) (Pure.pure (.done (passed o))) Q) :
    Sim cut n ({ g with state := stateOf o } :: t) (Eval.settleLoop >>= f)
      (Structured.settle o next) Q := by
  rw [Eval.settleLoop, bind_assoc]
  refine currentRecord_left fun r hr => ?_
  have hst : r.state = stateOf o := congrArg (·.state) hr
  have hname : r.name = g.name := congrArg (·.name) hr
  have back : ({ g with state := .normal } : Record) = g := by rw [← hg]
  rw [hst, hname]
  cases o with
  | normal => exact back.symm ▸ again n (Nat.le_refl _) rfl
  | broken => exact reset "handle break" fun n' hn' => back.symm ▸ done n' hn'
  | continued => exact reset "handle continue" fun n' hn' => back.symm ▸ again n' hn' rfl
  | returned v => exact reset "pass return" fun n' hn' => back.symm ▸ done n' hn'

/-- How rounds of both evaluators belong together, below the record `g` of the loop. -/
def RoundEnds {γ : Type} (g : Record) (t : List Record) (P : Nat → γ → Prop) :
    Option γ → Structured.Round γ → Nat → List Record → Prop
  | some a, .again b, n', t' => b = a ∧ t' = g :: t ∧ P n' a
  | none, .done o, n', t' => ∃ t₁, t' = g :: t₁ ∧ o.Ends t n' t₁
  | _, _, _, _ => False

theorem iterate {step : γ → Exec (Option γ)} {round : γ → Plain (Structured.Round γ)}
    (hr : ∀ a n', P n' a → Sim cut n' (g :: t) (step a) (round a) (RoundEnds g t P)) (k : Nat) {a : γ}
    (ha : P n a) :
    Sim cut n (g :: t) (Eval.iterate step k a) (Structured.loop round k a)
      fun _ o n' t' => ∃ t₁, t' = g :: t₁ ∧ o.Ends t n' t₁ := by
  induction k generalizing n a with
  | zero => exact outOfFuel
  | succ k ih =>
    refine bind (hr a n ha) fun next next' n₁ t₁ _ h => ?_
    rcases next with _ | b <;> rcases next' with b' | o
    · exact h.elim
    · obtain ⟨t₂, rfl, he⟩ := h
      exact pure fun n' hn' => ⟨t₂, rfl, he.mono hn'⟩
    · obtain ⟨rfl, rfl, hb⟩ := h
      exact ih hb
    · exact h.elim

include hs in
theorem runBody (hk : g.kind = .loop) (hg : g.state = .normal) (hb : body.IsStat)
    {f : Bool → Exec (Option γ)}
    (again : ∀ n', n ≤ n' → Sim cut n' (g :: t) (f true) next (RoundEnds g t P))
    (done : f false = Pure.pure none) :
    Sim cut n (g :: t) (do let _ ← visit body; Eval.settleLoop >>= f)
      (do let o ← exec body; Structured.settle o next) (RoundEnds g t P) := by
  refine bind (hs body hb n (g :: t)) fun _ o n₁ t₁ hn₁ h => ?_
  obtain ⟨t₂, rfl, he⟩ := ends_loop hk hg h
  refine settleLoop hg (fun n' hn' ho => ?_) fun n' hn' => ?_
  · rw [ho] at he
    obtain rfl : t₂ = t := he.marks
    exact again n' (Nat.le_trans hn₁ hn')
  · rw [done]
    exact pure fun n'' hn'' => ⟨t₂, rfl, he.mono (Nat.le_trans hn' hn'')⟩

theorem withinEnds {r' : RecordOf Unit Unit} {x' : Plain Outcome} (he : r' = r.plain) (hr : r.Sound n)
    (hx : ∀ n', n ≤ n' → Sim cut n' (r.tag :: t) x x'
      fun _ o n' t' => ∃ t₁, t' = r.tag :: t₁ ∧ o.Ends t n' t₁) :
    Sim cut n t (Exec.within r x) (Exec.within r' x') fun _ o n' t' => o.Ends t n' t' := by
  refine within he hr hx fun a o n' t' h => ?_
  obtain ⟨t₁, rfl, h⟩ := h
  exact ⟨_, t₁, rfl, fun n'' hn => h.mono hn⟩

include hv hs

theorem runRepeat (k : Nat) (hc : cond.IsExpr) (hb : body.IsStat) (p : Position) :
    Sim cut n t (Eval.runRepeat k visit cond body p)
      (Exec.within (loopRecord "repeat" p)
        (Structured.loop (fun _ => Structured.repeatRound eval exec cond body) k ()))
      fun _ o n' t' => o.Ends t n' t' := by
  refine withinEnds rfl (fun _ he => absurd he not_mem_nil) fun n₁ _ => ?_
  refine iterate (P := Any) (fun _ n₂ _ => ?_) k trivial
  refine runBody hs rfl rfl hb (fun n₃ _ => ?_) rfl
  refine then_ (condition hv hc) fun b _ _ _ => ?_
  cases b with
  | true => exact pure fun n' _ => ⟨t, rfl, Outcome.ends_normal t n'⟩
  | false => exact pure fun _ _ => ⟨rfl, rfl, trivial⟩

theorem runWhile (k : Nat) (hc : cond.IsExpr) (hb : body.IsStat) (p : Position) :
    Sim cut n t (Eval.runWhile k visit cond body p)
      (Exec.within (loopRecord "while" p)
        (Structured.loop (fun _ => Structured.whileRound eval exec cond body) k ()))
      fun _ o n' t' => o.Ends t n' t' := by
  refine withinEnds rfl (fun _ he => absurd he not_mem_nil) fun n₁ _ => ?_
  refine iterate (P := Any) (fun _ n₂ _ => ?_) k trivial
  refine then_ (condition hv hc) fun b _ _ _ => ?_
  cases b with
  | true => exact runBody hs rfl rfl hb (fun _ _ => pure fun _ _ => ⟨rfl, rfl, trivial⟩) rfl
  | false => exact pure fun n' _ => ⟨t, rfl, Outcome.ends_normal t n'⟩

theorem runRange (k : Nat) {var : Node} (hvar : var.IsName) (hst : start.IsExpr) (he : stop.IsExpr)
    (hd : step ≠ .missing → step.IsExpr) (hb : body.IsStat) (p : Position) :
    Sim cut n t (Eval.runRange k visit var start stop step body p)
      (Structured.runRange k eval exec var start stop step body p)
      fun _ o n' t' => o.Ends t n' t' := by
  obtain ⟨x, q, rfl⟩ := hvar
  refine then_ (rangeValues hv hst he hd) fun v n₁ _ hl => ?_
  obtain ⟨s, e, d⟩ := v
  obtain ⟨hls, -, -⟩ := hl
  have empty : RecordOf.Sound n₁ (loopRecord "for" p : Record) :=
    fun _ he => absurd he not_mem_nil
  have sound : RecordOf.Sound n₁ ((loopRecord "for" p : Record).set x ⟨s, true⟩) := by
    refine empty.set x fun r hr => ?_
    obtain rfl : s = some r := hr
    exact hls.index_lt
  refine withinEnds rfl sound fun n₂ _ => ?_
  refine iterate (P := Any) (fun _ n₃ _ => ?_) k trivial
  refine then_ (getName x q) fun u n₄ _ hu => then_ (mem (w := none) (.less u e)) fun b n₅ _ _ => ?_
  cases b with
  | true =>
    refine runBody hs rfl rfl hb (fun n₆ _ => ?_) rfl
    refine then_ (mem (w := none) (.calculated (.sum u d))) fun u' n₇ _ hu' => ?_
    exact then_ (setName x q (.some hu') true) fun _ _ _ _ => pure fun _ _ => ⟨rfl, rfl, trivial⟩
  | false => exact pure fun n' _ => ⟨t, rfl, Outcome.ends_normal t n'⟩

omit hv in
theorem eachRound (hk : g.kind = .loop) (hg : g.state = .normal) (hb : body.IsStat) (key val : Node)
    (c i : Slot) :
    Sim cut n (g :: t) (Eval.eachRound visit key val c body i)
      (Structured.eachRound exec key val c body i) (RoundEnds g t Live) := by
  refine then_ (mem (.next c i)) fun kv n₁ _ hkv => ?_
  obtain ⟨i', v⟩ := kv
  obtain ⟨hi, hl⟩ := hkv
  refine get fun m m' hp hn₁ _ => ?_
  rw [hp.store]
  have entry : Sim cut m.store.cells.size (g :: t)
      (do
        Eval.bindEntry key val i' v
        let _ ← visit body
        return if ← Eval.settleLoop then some i' else none)
      (do
        Eval.bindEntry key val i' v
        let o ← exec body
        Structured.settle o (return .again i')) (RoundEnds g t Live) := by
    refine then_ (bindEntry key val (hi.mono hn₁) (hl.mono hn₁)) fun _ n₂ hn₂ _ => ?_
    refine runBody hs hk hg hb (fun n₃ hn₃ => pure fun n' hn' => ⟨rfl, rfl, ?_⟩) rfl
    exact hi.mono (Nat.le_trans hn₁ (Nat.le_trans hn₂ (Nat.le_trans hn₃ hn')))
  generalize m.store.get? i' = u
  rcases u with _ | u
  · exact entry
  · cases u with
    | null => exact pure fun n' _ => ⟨t, rfl, Outcome.ends_normal t n'⟩
    | _ => exact entry

theorem runEach (k : Nat) {val subject : Node} (hsub : subject.IsExpr) (hb : body.IsStat) (p : Position) :
    Sim cut n t (Eval.runEach k visit key val subject body p)
      (Structured.runEach k eval exec key val subject body p)
      fun _ o n' t' => o.Ends t n' t' := by
  refine withinEnds rfl (fun _ he => absurd he not_mem_nil) fun n₁ _ => ?_
  refine then_ (hv subject hsub n₁ _) fun c n₂ _ _ => get fun m m' hp _ _ => ?_
  rw [hp.store]
  have rounds : Sim cut m.store.cells.size ((loopRecord "for" p).tag :: t)
      (do let i ← Exec.mem Mem.newNull; Eval.iterate (Eval.eachRound visit key val c body) k (some i))
      (do
        let i ← Exec.mem Mem.newNull
        Structured.loop (Structured.eachRound exec key val c body) k (some i))
      fun _ o n' t' => ∃ t₁, t' = (loopRecord "for" p).tag :: t₁ ∧ o.Ends t n' t₁ :=
    then_ (mem (w := none) .newNull) fun i _ _ hi =>
      iterate (P := Live) (fun i _ _ => eachRound hs rfl rfl hb key val c i) k (.some hi)
  generalize m.store.get? c = u
  rcases u with _ | u
  · exact report _ _
  · cases u with
    | list items => exact rounds
    | map table => exact rounds
    | _ => exact report _ _

/-! ### Branches -/

theorem runBranches (hc : ∀ c ∈ clauses, c.1.IsExpr ∧ c.2.IsStat) :
    Sim cut n t (Eval.runBranches visit clauses) (Structured.runBranches eval exec clauses)
      fun _ o n' t' => o.Ends t n' t' := by
  induction clauses generalizing n with
  | nil => exact pure fun n' _ => Outcome.ends_normal t n'
  | cons c cs ih =>
    obtain ⟨⟨he, hb⟩, hcs⟩ := forall_mem_cons.1 hc
    refine then_ (condition hv he) fun b n₁ _ _ => ?_
    cases b with
    | true => exact andPure () (hs c.2 hb n₁ t)
    | false => exact ih hcs

/-- The cases of a switch, with what follows them where there is no match. -/
theorem runCases (hc : ∀ c ∈ clauses, c.1.IsExpr ∧ c.2.IsStat) (subject : Slot) {fallback : Node}
    (hf : fallback ≠ .missing → fallback.IsStat) :
    Sim cut n t
      (do
        if ← Eval.runCases visit subject clauses then return ()
        else if fallback.isMissing then return ()
        else
          let _ ← visit fallback)
      (Structured.runCases eval exec subject fallback clauses)
      fun _ o n' t' => o.Ends t n' t' := by
  induction clauses generalizing n with
  | nil =>
    by_cases h : fallback = .missing
    · subst h
      exact pure fun n' _ => Outcome.ends_normal t n'
    · rw [Eval.runCases, Structured.runCases, pure_bind, Node.isMissing_of_ne h]
      exact andPure () (hs fallback (hf h) n t)
  | cons c cs ih =>
    obtain ⟨⟨he, hb⟩, hcs⟩ := forall_mem_cons.1 hc
    rw [Eval.runCases, bind_assoc]
    refine then_ (hv c.1 he n t) fun v n₁ _ _ => ?_
    rw [bind_assoc]
    refine then_ (mem (w := none) (.equals subject v)) fun b n₂ _ _ => ?_
    cases b with
    | true =>
      rw [if_pos rfl, bind_assoc]
      exact andPure () (hs c.2 hb n₂ t)
    | false => exact ih hcs

/-! ### Calls of functions -/

omit hv hs in
/-- A `break` or `continue` does not get out of a function. -/
theorem ends_function (hk : g.kind = .function) (h : o.Ends (g :: t) n' t') :
    o = .normal ∧ t' = g :: t ∨ ∃ v, o = .returned v ∧ Live n' v ∧
      t' = { g with state := .returned, retval := v } :: t := by
  obtain ⟨hm, ha, hl⟩ := h
  cases o with
  | normal => exact .inl ⟨rfl, hm⟩
  | broken | continued => simp [Outcome.Allowed, route, hk] at ha
  | returned v =>
    refine .inr ⟨v, rfl, hl v rfl, ?_⟩
    rw [hm]
    simp [Outcome.mark, jump, setRetval, hk]

/-- The result that a function has left in its record. -/
def takeResult : Exec Slot := do
  match (← Exec.currentRecord).retval with
  | some v => return some v
  | none => some <$> Exec.mem Mem.newNull

omit hv in
theorem runFunction {name : String} (hst : ∀ s ∈ stats, s.IsStat) :
    Sim cut n (called name :: t)
      (do runSettled visit settleFunction stats; takeResult)
      (do let o ← Structured.sequence exec stats; Structured.endCall o)
      fun v v' n' t' => v' = v ∧ Live n' v ∧ ∃ g, t' = g :: t := by
  induction stats generalizing n with
  | nil =>
    refine currentRecord_left fun r hr => ?_
    have hret : r.retval = none := congrArg (·.retval) hr
    rw [hret]
    exact newNull.mono fun _ _ _ _ _ h => ⟨h.1, h.2.2, _, h.2.1⟩
  | cons s ss ih =>
    obtain ⟨h₁, h₂⟩ := forall_mem_cons.1 hst
    simp only [runSettled, Structured.sequence, bind_assoc]
    refine bind (hs s h₁ n _) fun _ o n₁ t₁ _ h => ?_
    rw [settleFunction, bind_assoc]
    rcases ends_function rfl h with ⟨rfl, rfl⟩ | ⟨v, rfl, hl, rfl⟩
    · refine currentRecord_left fun r hr => ?_
      have hst : r.state = .normal := congrArg (·.state) hr
      rw [hst]
      exact ih h₂
    · refine currentRecord_left fun r hr => ?_
      have hst : r.state = .returned := congrArg (·.state) hr
      have hname : r.name = name := congrArg (·.name) hr
      rw [hst, hname]
      refine reset "handle return" fun n₂ hn₂ => currentRecord_left fun r hr => ?_
      have hret : r.retval = v := congrArg (·.retval) hr
      obtain ⟨q, rfl, hq⟩ := hl
      rw [hret]
      exact pure fun n' hn' => ⟨rfl, .some (Nat.lt_of_lt_of_le hq (Nat.le_trans hn₂ hn')), _, rfl⟩

theorem callClosure {f : Closure} (hf : f.Parsed) (ha : ∀ a ∈ args.getD [], a.IsExpr) (p : Position) :
    Sim cut n t (Eval.callClosure visit f args p) (Structured.callClosure eval exec f args p)
      (Same t Live) := by
  refine bind (callRecord hv f ha p) fun r r' n₁ t₁ _ h => ?_
  obtain ⟨rfl, rfl, hr, htag⟩ := h
  refine within rfl hr (fun n₂ _ => htag ▸ runFunction hs hf.body) fun v v' n' t' h => ?_
  obtain ⟨rfl, hl, g, rfl⟩ := h
  exact ⟨g, _, rfl, fun n'' hn'' => ⟨rfl, rfl, hl.mono hn''⟩⟩

theorem call {callee : Node} (hc : callee.IsExpr) (ha : ∀ a ∈ args.getD [], a.IsExpr) (p : Position)
    (k : Nat) :
    Sim cut n t (visitWith k visit (.call callee args p))
      (Structured.call eval exec callee args p) (Same t Live) := by
  refine then_ (hv callee hc n t) fun f n₁ _ _ => get fun m m' hp _ _ => ?_
  rw [hp.store]
  have sound : ∀ u, m.store.get? f = some u → u.Sound m.store.cells.size :=
    fun u hu => hp.sound.store.get? hu
  generalize m.store.get? f = u at sound
  rcases u with _ | u
  · exact fault _
  · cases u with
    | host name action => exact callHost hv action ha p
    | func c => exact callClosure hv hs (sound _ rfl) ha p
    | _ => exact fault _

/-! ### Nodes -/

omit hv hs in
theorem make_eq_ok {params : Option (List Node)} {vararg : Bool} {body : List Node} {f : Closure}
    (h : Closure.make params vararg body = .ok f) : f.params = params ∧ f.body = body := by
  unfold Closure.make at h
  cases hn : Closure.paramNames params with
  | error e =>
    rw [hn] at h
    cases h
  | ok names =>
    rw [hn] at h
    cases h
    exact ⟨rfl, rfl⟩

omit hv hs in
theorem literal_sound {text : String} {isInt : Bool} (h : literal text isInt = .ok v) :
    v.Sound n := by
  unfold literal at h
  generalize (if isInt then _ else _ : Option Number) = m at h
  cases m <;> cases h
  trivial

theorem evalWith (k : Nat) {e : Node} (he : e.IsExpr) :
    Sim cut n t (visitWith k visit e) (Structured.evalWith eval exec e) (Same t Live) := by
  cases he with
  | @funcDef params body p hp hb =>
    refine then_ (ofExcept _) fun f n₁ _ hf => new ?_
    obtain ⟨rfl, rfl⟩ := make_eq_ok hf
    exact ⟨hp, hb⟩
  | call hc ha => exact call hv hs hc ha _ k
  | select hc hy hn =>
    refine then_ (condition hv hc) fun b n₁ _ _ => ?_
    exact ite (hv _ hy n₁ t) (hv _ hn n₁ t)
  | binary hop hl hr =>
    exact then_ (hv _ hl n t) fun a n₁ _ _ => then_ (hv _ hr n₁ t) fun b n₂ _ _ => runBinary hop a b _
  | unary ho =>
    exact then_ (hv _ ho n t) fun a n₁ _ ha => runOp (w := none) _ _ fun z hz => unaryOp_keeps ha hz
  | listOf hi => exact then_ (values hv hi) fun vs n₁ _ hl => new hl
  | @mapOf keys vals p hk hvals =>
    refine then_ (mem (w := none) (.alloc (v := .map .empty) (Table.sound_empty n))) fun c n₁ _ hc => ?_
    have entries : ∀ e ∈ keys.zip vals, e.1.IsExpr ∧ e.2.IsExpr := fun e he =>
      ⟨hk e.1 (of_mem_zip he).1, hvals e.2 (of_mem_zip he).2⟩
    exact then_ (fillMap hv entries) fun _ n₂ hn₂ _ =>
      same fun n' hn' => .some (Nat.lt_of_lt_of_le hc (Nat.le_trans hn₂ hn'))
  | setOf hi => exact report _ _
  | access hb hk => exact runAccess hv hb hk _
  | name => exact getName _ _
  | number => exact then_ (ofExcept _) fun v n₁ _ h => new (literal_sound h)
  | string => exact new (v := .str _) trivial
  | bool => exact new (v := .bool _) trivial
  | null => exact new (v := .null) trivial

theorem execWith (k : Nat) {s : Node} (hst : s.IsStat) :
    Sim cut n t (visitWith k visit s) (Structured.execWith k eval exec s)
      fun _ o n' t' => o.Ends t n' t' := by
  have normal : ∀ {α : Type} {n : Nat} {x : Exec α} {x' : Plain α} {P : Nat → α → Prop},
      Sim cut n t x x' (Same t P) → Sim cut n t x (do let _ ← x'; return Outcome.normal)
        fun _ o n' t' => o.Ends t n' t' :=
    fun h => endNormal (h.mono fun _ _ _ _ _ hq => hq.2.1)
  have clauses : ∀ {es ss : List Node}, (∀ e ∈ es, e.IsExpr) → (∀ s ∈ ss, s.IsStat) →
      ∀ c ∈ es.zip ss, c.1.IsExpr ∧ c.2.IsStat := fun he hb c hc =>
    ⟨he c.1 (of_mem_zip hc).1, hb c.2 (of_mem_zip hc).2⟩
  cases hst with
  | empty => exact pure fun n' _ => Outcome.ends_normal t n'
  | block hb =>
    exact andPure none (withinEnds rfl (fun _ he => absurd he not_mem_nil)
      fun _ _ => runBlock hs rfl rfl hb)
  | declare hn hi =>
    exact andPure none (then_ (valuesFor hv _ hi) fun vs n₁ _ hl => normal (declareAll _ _ hl))
  | branch hc hb => exact andPure none (runBranches hv hs (clauses hc hb))
  | switch hsub hc hb hf =>
    refine andPure none (then_ (hv _ hsub n t) fun v n₁ _ _ => ?_)
    exact runCases hv hs (clauses hc hb) v hf
  | repeatUntil hc hb => exact andPure none (runRepeat hv hs k hc hb _)
  | whileLoop hc hb => exact andPure none (runWhile hv hs k hc hb _)
  | forRange hvar hst he hd hb => exact andPure none (runRange hv hs k hvar hst he hd hb _)
  | forEach hk hval hsub hb => exact andPure none (runEach hv hs k hsub hb _)
  | breakLoop => exact andPure none (jumpLoop "break" _ fun _ h => ⟨rfl, h, fun _ h => by cases h⟩)
  | continueLoop =>
    exact andPure none (jumpLoop "continue" _ fun _ h => ⟨rfl, h, fun _ h => by cases h⟩)
  | returnValue he => exact andPure none (jumpReturn hv he _)
  | assign ht hsrc =>
    exact andPure none (then_ (valuesFor hv _ hsrc) fun vs n₁ _ hl => normal (assignAll hv ht hl))
  | update ht hsrc =>
    refine andPure none (then_ (hv _ ht n t) fun a n₁ _ _ => then_ (hv _ hsrc n₁ t) fun b n₂ _ _ => ?_)
    refine andPure () (normal (P := Any) (runOp (w := a) _ _ fun z hz => ?_))
    rcases binaryOp_cases hz with hk | ⟨-, hk⟩
    · exact (hk a n₂).mono fun _ _ _ _ => trivial
    · exact hk n₂
  | call hc ha => exact normal (call hv hs hc ha _ k)

end Statements

end Sim

/-- Runs of statements and expressions of the grammar, also those that are cut short, follow the
structured ones. -/
theorem sim_visitCut (stop : Nat → Node → Machine → Bool) (k : Nat) :
    (∀ e : Node, e.IsExpr → ∀ n t,
      Sim True n t (visitCut stop k e) (Structured.eval k e) (Same t Live)) ∧
    ∀ s : Node, s.IsStat → ∀ n t,
      Sim True n t (visitCut stop k s) (Structured.exec k s) fun _ o n' t' => o.Ends t n' t' := by
  induction k with
  | zero => exact ⟨fun _ _ _ _ => .outOfFuel, fun _ _ _ _ => .outOfFuel⟩
  | succ k ih =>
    refine ⟨fun e he n t m m' hp hn ht => ?_, fun s hs n t m m' hp hn ht => ?_⟩
    · rcases visitCut_cases stop k e m with h | h
      · exact h ▸ .cut trivial hp.sound
      · exact h ▸ Sim.evalWith ih.1 ih.2 k he m m' hp hn ht
    · rcases visitCut_cases stop k s m with h | h
      · exact h ▸ .cut trivial hp.sound
      · exact h ▸ Sim.execWith ih.1 ih.2 k hs m m' hp hn ht

/-- Whole runs keep step with the structured ones. -/
theorem sim_visit (k : Nat) :
    (∀ e : Node, e.IsExpr → ∀ n t,
      Sim False n t (Eval.visit k e) (Structured.eval k e) (Same t Live)) ∧
    ∀ s : Node, s.IsStat → ∀ n t,
      Sim False n t (Eval.visit k s) (Structured.exec k s) fun _ o n' t' => o.Ends t n' t' := by
  induction k with
  | zero => exact ⟨fun _ _ _ _ => .outOfFuel, fun _ _ _ _ => .outOfFuel⟩
  | succ k ih =>
    exact ⟨fun e he n t => Sim.evalWith ih.1 ih.2 k he, fun s hs n t => Sim.execWith ih.1 ih.2 k hs⟩

end TinyScript
