import TinyScript.Proofs.CheckedNames

/-!
# Jumps in a check

The check of a node is a list of tasks, done in a scope of their own or in the one around the node
(`node_eq_steps`). `Reaches` says which nodes a check comes to, and in which state. A scope takes from the
one around it whether it is in a loop, and no task says that it is. So no scope ever is, and every jump that
a check comes to is reported, whether it is in a loop or not (`analyze_jumps`).
-/

namespace TinyScript

open List

namespace Check

/-- One thing that the check of a node does. -/
inductive Task
  | act (x : Check Unit)
  | visit (n : Node)

def Task.run : Task → Check Unit
  | .act x => x
  | .visit n => node n

/-- A name that is assigned to is looked up, all else is checked. -/
def Task.target : Node → Task
  | .name x p => .act (assignable x p)
  | n => .visit n

/-- Checks in pairs, as far as there are both. -/
def Task.pairs (ns ks : List Node) : List Task := (ns.zip ks).flatMap fun z => [.visit z.1, .visit z.2]

end Check

open Check (Task)

/-- Which of the scopes count as being in a loop. -/
def Analysis.loops (a : Analysis) : List Bool := a.scopes.map (·.inLoop)

namespace Node

/-- The scope that the check of a node opens, and whether it inherits from the one around it. -/
def scope? : Node → Option (String × Bool)
  | .program _ => some ("program", false)
  | .block .. => some ("block", true)
  | .forRange .. | .forEach .. => some ("for", true)
  | _ => none

/-- What the check of a node does in its scope, in order. -/
def tasks : Node → List Task
  | .program stats | .block stats _ => stats.map .visit
  | .declare names inits _ p => .act (Check.declareAll p names) :: (inits.getD []).map .visit
  | .branch conds bodies _ => Task.pairs conds bodies
  | .switch subject cases bodies fallback _ => .visit subject :: Task.pairs cases bodies ++ [.visit fallback]
  | .repeatUntil cond body _ => [.act (modify fun a => { a with metLoop := true }), .visit cond, .visit body]
  | .whileLoop cond body _ => [.visit cond, .visit body]
  | .forRange var start stop step body _ =>
    [.act (Check.bindName var), .visit start, .visit stop] ++
      (if step.isMissing then [] else [.visit step]) ++ [.visit body]
  | .forEach key val subject body _ => [.act (Check.bindEntry key val), .visit subject, .visit body]
  | .assign targets sources _ => targets.map .target ++ sources.map .visit
  | .update _ target source _ => [.target target, .visit source]
  | .call _ (some args) _ => args.map .visit
  | .select cond yes no _ => [.visit cond, .visit yes, .visit no]
  | .binary _ left right _ => [.visit left, .visit right]
  | .unary _ operand _ => [.visit operand]
  | n => [.act (Check.node n)]

end Node

namespace Check

def opening (n : Node) : Check Unit :=
  match n.scope? with
  | some s => enter s.1 s.2
  | none => pure ()

def closing (n : Node) : Check Unit := if n.scope?.isSome then leave else pure ()

def steps (ss : List Task) : Check Unit := inOrder (ss.map Task.run)

theorem steps_append (ss ts : List Task) : steps (ss ++ ts) = (do steps ss; steps ts) := by
  induction ss with
  | nil => rfl
  | cons s ss ih =>
    rw [cons_append]
    show (do s.run; steps (ss ++ ts)) = (do s.run; steps ss) >>= fun _ => steps ts
    rw [ih, bind_assoc]

theorem nodes_eq (ns : List Node) : inOrder (nodes ns) = steps (ns.map .visit) := by
  induction ns with
  | nil => rfl
  | cons n ns ih => exact congrArg (fun x => do node n; x) ih

theorem run_target (n : Node) : (Task.target n).run = target n := by
  cases n <;> rfl

theorem targets_eq (ns : List Node) : inOrder (nodesAsTargets ns) = steps (ns.map .target) := by
  induction ns with
  | nil => rfl
  | cons n ns ih =>
    rw [nodesAsTargets_cons, map_cons]
    show (do target n; inOrder (nodesAsTargets ns)) = (do (Task.target n).run; steps (ns.map .target))
    rw [ih, run_target]

theorem pairs_eq (ns ks : List Node) : inPairs (nodes ns) (nodes ks) = steps (Task.pairs ns ks) := by
  induction ns generalizing ks with
  | nil => rfl
  | cons n ns ih =>
    cases ks with
    | nil => rfl
    | cons k ks =>
      have h := ih ks
      show (do node n; node k; inPairs (nodes ns) (nodes ks)) = (do node n; node k; steps (Task.pairs ns ks))
      rw [h]

theorem node_eq_steps (n : Node) : node n = (do opening n; steps n.tasks; closing n) := by
  have cons (s : Task) (ss : List Task) : steps (s :: ss) = (do s.run; steps ss) := rfl
  have nil : steps [] = pure () := rfl
  cases n with
  | program | block => simp [node, nodes_eq, opening, closing, Node.scope?, Node.tasks]
  | declare => simp [node_declare, nodes_eq, opening, closing, Node.scope?, Node.tasks, cons, Task.run]
  | branch => simp [node, pairs_eq, opening, closing, Node.scope?, Node.tasks]
  | switch => simp [node, pairs_eq, opening, closing, Node.scope?, Node.tasks, cons, nil, steps_append, Task.run]
  | forRange var start stop step =>
    rw [node_forRange]
    by_cases h : step.isMissing = true
    all_goals simp [optional, bindName, opening, closing, Node.scope?, Node.tasks, cons, nil, Task.run, h]
  | forEach => simp [node_forEach, opening, closing, Node.scope?, Node.tasks, cons, nil, Task.run]
  | assign => simp [node, targets_eq, nodes_eq, opening, closing, Node.scope?, Node.tasks, steps_append]
  | update _ n source =>
    have visit : (Task.visit source).run = node source := rfl
    simp [node_update, opening, closing, Node.scope?, Node.tasks, cons, nil, run_target, visit]
  | call _ args =>
    cases args with
    | none => simp [opening, closing, Node.scope?, Node.tasks, cons, nil, Task.run]
    | some args => simp [node, nodes_eq, opening, closing, Node.scope?, Node.tasks]
  | repeatUntil | whileLoop | select | binary | unary =>
    simp [node, opening, closing, Node.scope?, Node.tasks, cons, nil, Task.run]
  | _ => simp [opening, closing, Node.scope?, Node.tasks, cons, nil, Task.run]

/-! ### What the steps do to the loops of the scopes -/

/-- The report of a jump that is not in a loop. -/
def misplaced (word : String) (p : Position) : Failure := .report ⟨.semantic, p, .invalidSyntax word⟩

variable {α β : Type} {x : Check α} {f : α → Check β}

/-- The check does not complain about jumps. -/
def Silent (x : Check α) : Prop := ∀ a a' word p, x a ≠ .error (misplaced word p) a'

theorem Silent.bind (hx : Silent x) (hf : ∀ v, Silent (f v)) : Silent (x >>= f) := by
  intro a a' word p h
  simp only [Bind.bind, EStateM.bind] at h
  split at h
  · exact hf _ _ _ _ _ h
  · rename_i he
    cases h
    exact hx _ _ _ _ he

/-- The check changes nothing about loops either. -/
structure Mild (x : Check α) : Prop where
  loops : ∀ {a v a'}, x a = .ok v a' → a'.loops = a.loops
  silent : Silent x

theorem silent_modify (g : Analysis → Analysis) : Silent (modify g : Check Unit) :=
  fun _ _ _ _ h => by cases h

namespace Mild

theorem pure (v : α) : Mild (Pure.pure v : Check α) :=
  ⟨fun h => by cases h; rfl, fun _ _ _ _ h => by cases h⟩

theorem throw {i : Failure} (hi : ∀ word p, i ≠ misplaced word p) : Mild (MonadExcept.throw i : Check α) :=
  ⟨fun h => (by cases h), fun _ _ _ _ h => hi _ _ (EStateM.Result.error.inj h).1⟩

theorem bind (hx : Mild x) (hf : ∀ v, Mild (f v)) : Mild (x >>= f) := by
  refine ⟨fun h => ?_, hx.silent.bind fun v => (hf v).silent⟩
  obtain ⟨u, a₁, h₁, h₂⟩ := exists_of_bind_eq_ok h
  exact ((hf u).loops h₂).trans (hx.loops h₁)

theorem get : Mild (MonadState.get : Check Analysis) :=
  ⟨fun h => by cases h; rfl, fun _ _ _ _ h => by cases h⟩

theorem change {g : Analysis → Analysis} (hg : ∀ a, (g a).loops = a.loops) : Mild (modify g : Check Unit) :=
  ⟨fun h => by cases h; exact hg _, silent_modify g⟩

theorem note (msg : String) : Mild (note msg) := .change fun a => by split <;> rfl

theorem scopeNotes (msgs : List String) : Mild (scopeNotes msgs) := .change fun a => by split <;> rfl

theorem currentScope : Mild currentScope := by
  refine .bind .get fun a => ?_
  split
  · exact .pure _
  · exact .throw fun _ _ => Failure.noConfusion

theorem lookup (x : String) (here : Bool) : Mild (lookup x here) :=
  .bind .get fun _ => .bind (.scopeNotes _) fun _ => .pure _

theorem report {p : Position} {i : Issue} (hi : ∀ word, i ≠ .invalidSyntax word) : Mild (report p i : Check α) :=
  .throw fun word _ h => by cases h; exact hi word rfl

theorem insert (k : SymbolKind) (x : String) : Mild (insert k x) := by
  refine ⟨fun {a v a'} h => ?_, currentScope.silent.bind fun _ =>
    (scopeNotes _).silent.bind fun _ => silent_modify _⟩
  obtain ⟨s, a₁, h₁, h⟩ := exists_of_bind_eq_ok h
  obtain ⟨_, a₂, h₂, h⟩ := exists_of_bind_eq_ok h
  cases h
  obtain ⟨rfl, outer, hs⟩ := currentScope_ok h₁
  show (s.insert k x :: a₂.scopes.tail).map (·.inLoop) = a₁.scopes.map (·.inLoop)
  rw [scopeNotes_scopes h₂, hs]
  rfl

theorem identOf (n : Node) : Mild (identOf n) := by
  unfold Check.identOf
  split
  · exact .pure _
  · exact .throw fun _ _ => Failure.noConfusion

theorem bindName (n : Node) : Mild (bindName n) := .bind (.identOf n) fun _ => .insert ..

theorem bindEntry (key val : Node) : Mild (bindEntry key val) := by
  refine .bind (.bindName key) fun _ => ?_
  split
  · exact .pure _
  · exact .bindName val

theorem assignable (x : String) (p : Position) : Mild (assignable x p) := by
  refine .bind (.lookup x false) fun s => ?_
  split
  · exact .report fun _ => Issue.noConfusion
  · split
    · exact .pure _
    · exact .report fun _ => Issue.noConfusion

theorem declareAll (p : Position) (ns : List Node) : Mild (declareAll p ns) := by
  induction ns with
  | nil => exact .pure _
  | cons n ns ih =>
    refine .bind (.identOf n) fun x => .bind (.lookup x true) fun s => ?_
    split
    · exact .report fun _ => Issue.noConfusion
    · exact .bind (.insert ..) fun _ => ih

end Mild

theorem silent_enter (name : String) (inherits : Bool) : Silent (enter name inherits) := by
  refine (Mild.note _).silent.bind fun _ => Mild.get.silent.bind fun a => ?_
  dsimp only
  split
  · exact Mild.currentScope.silent.bind fun _ => (Mild.pure _).silent.bind fun _ => silent_modify _
  · exact (Mild.pure _).silent.bind fun _ => silent_modify _

theorem silent_leave : Silent leave :=
  Mild.currentScope.silent.bind fun _ => (Mild.note _).silent.bind fun _ => (Mild.note _).silent.bind fun _ =>
    (Mild.note _).silent.bind fun _ => silent_modify _

theorem silent_opening (n : Node) : Silent (opening n) := by
  unfold opening
  split
  · exact silent_enter _ _
  · exact (Mild.pure ()).silent

theorem silent_closing (n : Node) : Silent (closing n) := by
  unfold closing
  split
  · exact silent_leave
  · exact (Mild.pure ()).silent

end Check

/-! ### Jumps -/

namespace Node

/-- The word and the place of a jump. -/
def jump? : Node → Option (String × Position)
  | .breakLoop p => some ("break", p)
  | .continueLoop p => some ("continue", p)
  | _ => none

end Node

namespace Check

variable {n m k : Node} {a a' a₁ a₂ : Analysis} {s : Task} {ss : List Task} {x : Check Unit} {f : Failure}
  {word : String} {p : Position}

/-- What the tasks of a node are. -/
inductive Task.Of (n : Node) : Task → Prop
  | visit {k : Node} (hk : k ∈ n.parts) : Of n (.visit k)
  | act {x : Check Unit} (hx : Mild x) : Of n (.act x)
  | jump {word : String} {p : Position} (hn : n.jump? = some (word, p)) : Of n (.act (insideLoop word p))

theorem Task.Of.target (hk : k ∈ n.parts) : (Task.target k).Of n := by
  cases k with
  | name x p => exact .act (.assignable x p)
  | _ => exact .visit hk

theorem Task.Of.pairs {ns ks : List Node} (hn : ∀ k ∈ ns, k ∈ n.parts) (hk : ∀ k ∈ ks, k ∈ n.parts) :
    ∀ s ∈ Task.pairs ns ks, s.Of n := by
  intro s hs
  obtain ⟨z, hz, hs⟩ := mem_flatMap.1 hs
  obtain ⟨h₁, h₂⟩ := of_mem_zip hz
  simp only [mem_cons, not_mem_nil, or_false] at hs
  rcases hs with rfl | rfl
  · exact .visit (hn _ h₁)
  · exact .visit (hk _ h₂)

theorem Task.of_mem (n : Node) : ∀ s ∈ n.tasks, s.Of n := by
  have visits {l : List Node} (h : ∀ k ∈ l, k ∈ n.parts) : ∀ s ∈ l.map Task.visit, s.Of n :=
    forall_mem_map.2 fun k hk => .visit (h k hk)
  cases n with
  | program | block => exact visits fun _ h => h
  | declare =>
    exact forall_mem_cons.2 ⟨.act (.declareAll ..), visits fun _ => mem_append_right _⟩
  | branch => exact .pairs (fun _ => mem_append_left _) fun _ => mem_append_right _
  | switch =>
    refine forall_mem_append.2 ⟨forall_mem_cons.2 ⟨.visit (by simp [Node.parts]), ?_⟩,
      forall_mem_singleton.2 (.visit (by simp [Node.parts]))⟩
    exact .pairs (fun _ h => by simp [Node.parts, h]) fun _ h => by simp [Node.parts, h]
  | forRange _ _ _ step =>
    simp only [Node.tasks, forall_mem_append, forall_mem_cons]
    refine ⟨⟨⟨.act (.bindName _), .visit (by simp [Node.parts]), .visit (by simp [Node.parts]), by simp⟩, ?_⟩,
      .visit (by simp [Node.parts]), by simp⟩
    split
    · simp
    · exact forall_mem_singleton.2 (.visit (by simp [Node.parts]))
  | assign =>
    exact forall_mem_append.2 ⟨forall_mem_map.2 fun k hk => .target (mem_append_left _ hk),
      visits fun _ => mem_append_right _⟩
  | call _ args =>
    cases args with
    | none => exact forall_mem_singleton.2 (.act (.throw fun _ _ => Failure.noConfusion))
    | some => exact visits fun _ => mem_cons_of_mem _
  | breakLoop | continueLoop => exact forall_mem_singleton.2 (.jump rfl)
  | name y p =>
    refine forall_mem_singleton.2 (.act (.bind (.lookup y false) fun s => ?_))
    split
    · exact .pure _
    · exact .report fun _ => Issue.noConfusion
  | missing | returnValue | funcDef | listOf | mapOf | setOf | access =>
    exact forall_mem_singleton.2 (.act (.throw fun _ _ => Failure.noConfusion))
  | empty | number | string | bool | null => exact forall_mem_singleton.2 (.act (.pure _))
  | repeatUntil =>
    simp only [Node.tasks, forall_mem_cons]
    exact ⟨.act (.change fun _ => rfl), .visit (by simp [Node.parts]), .visit (by simp [Node.parts]), by simp⟩
  | forEach =>
    simp only [Node.tasks, forall_mem_cons]
    exact ⟨.act (.bindEntry ..), .visit (by simp [Node.parts]), .visit (by simp [Node.parts]), by simp⟩
  | update =>
    simp only [Node.tasks, forall_mem_cons]
    exact ⟨.target (by simp [Node.parts]), .visit (by simp [Node.parts]), by simp⟩
  | whileLoop | select | binary | unary =>
    exact visits (l := Node.parts _) fun _ h => h

/-! ### Loops of the scopes -/

theorem loops_enter {name : String} {inherits : Bool} {u : Unit} (h : enter name inherits a = .ok u a') :
    ∃ b, a'.loops = b :: a.loops ∧ (b = true → true ∈ a.loops) := by
  obtain ⟨_, a₁, h₁, h⟩ := exists_of_bind_eq_ok h
  obtain ⟨_, _, h₂, h⟩ := exists_of_bind_eq_ok h
  cases h₂
  rw [← (Mild.note _).loops h₁]
  cases inherits with
  | false =>
    cases h
    refine ⟨_, rfl, fun hb => ?_⟩
    dsimp only at hb
    split at hb <;> cases hb
  | true =>
    obtain ⟨outer, a₂, h₂, h⟩ := exists_of_bind_eq_ok h
    obtain ⟨rfl, rest, hs⟩ := currentScope_ok h₂
    cases h
    refine ⟨outer.inLoop, rfl, fun hb => ?_⟩
    rw [Analysis.loops, hs, map_cons, hb]
    exact mem_cons_self

theorem loops_leave {u : Unit} (h : leave a = .ok u a') : a'.loops = a.loops.tail := by
  obtain ⟨s, a₁, h₁, h⟩ := exists_of_bind_eq_ok h
  obtain ⟨_, a₂, h₂, h⟩ := exists_of_bind_eq_ok h
  obtain ⟨_, a₃, h₃, h⟩ := exists_of_bind_eq_ok h
  obtain ⟨_, a₄, h₄, h⟩ := exists_of_bind_eq_ok h
  cases h
  rw [← Mild.currentScope.loops h₁, ← (Mild.note _).loops h₂, ← (Mild.note _).loops h₃,
    ← (Mild.note _).loops h₄, Analysis.loops, Analysis.loops, map_tail]

theorem loops_opening (h : opening n a = .ok () a') :
    a'.loops = a.loops ∧ n.scope? = none ∨ n.scope? ≠ none ∧
      ∃ b, a'.loops = b :: a.loops ∧ (b = true → true ∈ a.loops) := by
  unfold opening at h
  cases hs : n.scope? with
  | none =>
    rw [hs] at h
    cases h
    exact .inl ⟨rfl, rfl⟩
  | some s =>
    rw [hs] at h
    exact .inr ⟨nofun, loops_enter h⟩

theorem loops_closing (h : closing n a = .ok () a') :
    a'.loops = if n.scope? = none then a.loops else a.loops.tail := by
  unfold closing at h
  cases hs : n.scope? with
  | none =>
    rw [hs] at h
    cases h
    rfl
  | some s =>
    rw [hs] at h
    exact loops_leave h

theorem loops_steps (hss : ∀ s ∈ ss, ∀ {a a'}, s.run a = .ok () a' → a'.loops = a.loops)
    (h : steps ss a = .ok () a') : a'.loops = a.loops := by
  induction ss generalizing a with
  | nil =>
    cases h
    rfl
  | cons s ss ih =>
    rw [forall_mem_cons] at hss
    obtain ⟨_, a₁, h₁, h₂⟩ := exists_of_bind_eq_ok h
    exact (ih hss.2 h₂).trans (hss.1 h₁)

/-- A check that goes well leaves the loops of the scopes as they were. -/
theorem loops_node (h : node n a = .ok () a') : a'.loops = a.loops := by
  induction n using Node.induct_parts generalizing a a' with
  | _ n ih =>
    have hss : ∀ s ∈ n.tasks, ∀ {a a'}, s.run a = .ok () a' → a'.loops = a.loops := by
      intro s hs a a' h
      cases Task.of_mem n s hs with
      | act hx => exact hx.loops h
      | visit hk => exact ih _ hk h
      | jump => rw [insideLoop_ok h]
    rw [node_eq_steps] at h
    obtain ⟨_, a₁, h₁, h⟩ := exists_of_bind_eq_ok h
    obtain ⟨_, a₂, h₂, h₃⟩ := exists_of_bind_eq_ok h
    rw [loops_closing h₃, loops_steps hss h₂]
    rcases loops_opening h₁ with ⟨e, hs⟩ | ⟨hs, b, e, -⟩
    · rw [if_pos hs, e]
    · rw [if_neg hs, e, tail_cons]

/-- The check is in some scope, and in none that counts as being in a loop. -/
structure Loopless (a : Analysis) : Prop where
  ne_nil : a.loops ≠ []
  not_mem : true ∉ a.loops

theorem Loopless.of_eq (h : Loopless a) (e : a'.loops = a.loops) : Loopless a' :=
  ⟨e ▸ h.ne_nil, e ▸ h.not_mem⟩

theorem Loopless.cons {b : Bool} (h : true ∉ a.loops) (e : a'.loops = b :: a.loops)
    (hb : b = true → true ∈ a.loops) : Loopless a' := by
  refine ⟨e ▸ cons_ne_nil _ _, fun hm => ?_⟩
  rw [e, mem_cons] at hm
  exact h (hm.elim (fun hb' => hb hb'.symm) id)

theorem Loopless.opening (h : Loopless a) (ho : opening n a = .ok () a') : Loopless a' := by
  rcases loops_opening ho with ⟨e, -⟩ | ⟨-, b, e, hb⟩
  · exact h.of_eq e
  · exact .cons h.not_mem e hb

/-- Every jump is misplaced where no scope counts as being in a loop. -/
theorem Loopless.insideLoop (h : Loopless a) : insideLoop word p a = .error (misplaced word p) a := by
  obtain ⟨scopes, metLoop, out, logScopes, logSteps⟩ := a
  cases scopes with
  | nil => exact absurd rfl h.ne_nil
  | cons s rest =>
    have hl : s.inLoop = false := Bool.eq_false_iff.2 fun e => h.not_mem (e ▸ mem_cons_self)
    show (if s.inLoop then pure () else report p (.invalidSyntax word) : Check Unit) _ = _
    rw [if_neg (by simp [hl])]
    rfl

/-! ### What a check comes to -/

/-- The check of `n` in `a` comes to the check of another node in `a'`. -/
inductive Reaches : Node → Analysis → Node → Analysis → Prop
  | here (n : Node) (a : Analysis) : Reaches n a n a
  /-- The check of a part is reached if all that is done before it goes well. -/
  | part {n m k : Node} {a a₁ a₂ a' : Analysis} {before after : List Task}
      (hm : n.tasks = before ++ .visit m :: after) (ho : opening n a = .ok () a₁)
      (hb : steps before a₁ = .ok () a₂) (hk : Reaches m a₂ k a') : Reaches n a k a'

theorem bind_ok {y : Check Unit} (h : x a = .ok () a₁) : (do x; y) a = y a₁ := by
  simp only [Bind.bind, EStateM.bind, h]

theorem bind_error {y : Check Unit} (h : x a = .error f a₁) : (do x; y) a = .error f a₁ := by
  simp only [Bind.bind, EStateM.bind, h]

/-- Where the steps of a node fail, one of them does after those before it went well. -/
theorem exists_of_steps_error (h : steps ss a = .error f a') :
    ∃ before s after a₁, ss = before ++ s :: after ∧ steps before a = .ok () a₁ ∧ s.run a₁ = .error f a' := by
  induction ss generalizing a with
  | nil => cases h
  | cons s ss ih =>
    cases hs : s.run a with
    | ok u a₁ =>
      obtain ⟨before, t, after, a₂, rfl, hb, ht⟩ := ih ((bind_ok hs).symm.trans h)
      exact ⟨s :: before, t, after, a₂, rfl, (bind_ok hs).trans hb, ht⟩
    | error i a₁ =>
      cases (bind_error hs).symm.trans h
      exact ⟨[], s, ss, a, rfl, rfl, hs⟩

namespace Reaches

/-- What fails where it is reached fails the whole check. -/
theorem error (h : Reaches n a k a') (hk : node k a' = .error f a₂) : node n a = .error f a₂ := by
  induction h with
  | here => exact hk
  | part hm ho hb _ ih =>
    rw [node_eq_steps, bind_ok ho]
    refine bind_error ?_
    rw [hm, steps_append, bind_ok hb]
    exact bind_error (ih hk)

theorem loopless (h : Reaches n a k a') (ha : Loopless a) : Loopless a' := by
  induction h with
  | here => exact ha
  | @part n m k a a₁ a₂ a' before after hm ho hb _ ih =>
    refine ih ((ha.opening ho).of_eq (loops_steps (fun s hs => ?_) hb))
    intro b b' h
    cases Task.of_mem n s (hm ▸ mem_append_left _ hs) with
    | visit => exact loops_node h
    | act hx => exact hx.loops h
    | jump => rw [insideLoop_ok h]

end Reaches

theorem node_of_jump (h : n.jump? = some (word, p)) : node n = insideLoop word p := by
  cases n with
  | breakLoop | continueLoop =>
    cases h
    rfl
  | _ => cases h

/-- A complaint about a jump is made at a jump that the check comes to. -/
theorem exists_jump_of_misplaced (h : node n a = .error (misplaced word p) a') (ha : Loopless a) :
    ∃ k, Reaches n a k a' ∧ k.jump? = some (word, p) := by
  induction n using Node.induct_parts generalizing a with
  | _ n ih =>
    cases hn : n.jump? with
    | some j =>
      rw [node_of_jump (show n.jump? = some (j.1, j.2) from hn), ha.insideLoop] at h
      cases h
      exact ⟨n, .here n _, hn⟩
    | none =>
      rw [node_eq_steps] at h
      cases ho : opening n a with
      | error i a₁ =>
        cases (bind_error ho).symm.trans h
        exact absurd ho (silent_opening n _ _ _ _)
      | ok u a₁ =>
        rw [bind_ok ho] at h
        cases hs : steps n.tasks a₁ with
        | ok u a₂ =>
          rw [bind_ok hs] at h
          exact absurd h (silent_closing n _ _ _ _)
        | error i a₂ =>
          cases (bind_error hs).symm.trans h
          obtain ⟨before, s, after, a₂, e, hb, hs⟩ := exists_of_steps_error hs
          cases Task.of_mem n s (e ▸ mem_append_right _ mem_cons_self) with
          | act hx => exact absurd hs (hx.silent _ _ _ _)
          | @visit k hk =>
            have hr : Reaches n a k a₂ := .part e ho hb (.here k a₂)
            obtain ⟨j, hj, hjump⟩ := ih k hk hs (hr.loopless ha)
            exact ⟨j, .part e ho hb hj, hjump⟩
          | jump hj => cases hn.symm.trans hj

/-- The check of a whole tree comes to the check of the node `n` in `a'`. -/
def Comes (tree : Node) (a : Analysis) (n : Node) (a' : Analysis) : Prop :=
  ∃ a₁, enter "__scope_0" false a = .ok () a₁ ∧ Reaches tree a₁ n a'

/-- Every jump that the check of a tree comes to is reported as misplaced, whether it is in a loop or not,
and nothing else is. -/
theorem analyze_jumps {tree : Node} (ha : a.scopes = []) (word : String) (p : Position) (a' : Analysis) :
    analyze tree a = .error (misplaced word p) a' ↔ ∃ n, Comes tree a n a' ∧ n.jump? = some (word, p) := by
  obtain ⟨a₁, ho⟩ : ∃ a₁, enter "__scope_0" false a = .ok () a₁ := ⟨_, rfl⟩
  obtain ⟨b, e, hb⟩ := loops_enter ho
  have hl : Loopless a₁ := .cons (by simp [Analysis.loops, ha]) e hb
  constructor
  · intro h
    rw [analyze, bind_ok ho] at h
    cases hc : node tree a₁ with
    | ok u a₂ =>
      rw [bind_ok hc] at h
      exact absurd h (silent_leave _ _ _ _)
    | error f a₂ =>
      cases (bind_error hc).symm.trans h
      obtain ⟨n, hr, hj⟩ := exists_jump_of_misplaced hc hl
      exact ⟨n, ⟨a₁, ho, hr⟩, hj⟩
  · rintro ⟨n, ⟨a₂, ho', hr⟩, hj⟩
    cases ho.symm.trans ho'
    have hn : node n a' = .error (misplaced word p) a' := by
      rw [node_of_jump hj, (hr.loopless hl).insideLoop]
    exact (bind_ok ho).trans (bind_error (hr.error hn))

/-- The failure that a check ends in. -/
def failure? (act : Check Unit) (a : Analysis) : Option Failure :=
  match act a with
  | .ok _ _ => none
  | .error f _ => some f

theorem exists_of_failure? {act : Check Unit} (h : act.failure? a = some f) : ∃ a', act a = .error f a' := by
  unfold failure? at h
  cases he : act a with
  | ok _ _ =>
    rw [he] at h
    cases h
  | error _ a' =>
    rw [he] at h
    cases h
    exact ⟨a', rfl⟩

/-- A jump in a loop, which is reported all the same. -/
def jumpInLoop : String := "var i = 0 while i < 3 \x7b i += 1 if i == 2 : break \x7d"

theorem analyze_jumps_jumpInLoop : parse jumpInLoop = .ok (treeOf jumpInLoop) ∧ ({} : Analysis).scopes = [] ∧
    ∃ n a', Comes (treeOf jumpInLoop) {} n a' ∧ n.jump? = some ("break", ⟨1, 44⟩) ∧
      analyze (treeOf jumpInLoop) {} = .error (misplaced "break" ⟨1, 44⟩) a' := by
  have hp : parse jumpInLoop = .ok (treeOf jumpInLoop) := parse_eq_treeOf (by decide +kernel)
  have hf : failure? (analyze (treeOf jumpInLoop)) {} = some (misplaced "break" ⟨1, 44⟩) := by decide +kernel
  obtain ⟨a', ha⟩ := exists_of_failure? hf
  obtain ⟨n, hc, hj⟩ := (analyze_jumps rfl _ _ _).1 ha
  exact ⟨hp, rfl, n, a', hc, hj, ha⟩

end Check

end TinyScript
