import TinyScript.Proofs.Simulation

/-!
# Expressions without calls

An expression with no call outside the bodies of functions does nothing but add cells
(`adds_visit`): no record and no old cell is changed, and unless it fails nothing is written or read.
`Adds w n x P` says this of an action, but for the cell in `w`, which is the map that a map literal is
filling.
-/

namespace TinyScript

open Exec List

variable {c : Ref} {e : Node} {k : Nat}

/-- There is no call in the tree, but for those in bodies of functions. -/
inductive Node.CallFree : Node → Prop
  | funcDef {params vararg body p} : CallFree (.funcDef params vararg body p)
  | select {cond yes no p} (hc : CallFree cond) (hy : CallFree yes) (hn : CallFree no) :
      CallFree (.select cond yes no p)
  | binary {op left right p} (hl : CallFree left) (hr : CallFree right) :
      CallFree (.binary op left right p)
  | unary {op operand p} (ho : CallFree operand) : CallFree (.unary op operand p)
  | listOf {items p} (hi : ∀ e ∈ items.getD [], CallFree e) : CallFree (.listOf items p)
  | mapOf {keys values p} (hk : ∀ e ∈ keys, CallFree e) (hv : ∀ e ∈ values, CallFree e) :
      CallFree (.mapOf keys values p)
  | setOf {items p} (hi : ∀ e ∈ items.getD [], CallFree e) : CallFree (.setOf items p)
  | access {base key dot p} (hb : CallFree base) (hk : CallFree key) :
      CallFree (.access base key dot p)
  | name {x p} : CallFree (.name x p)
  | number {text isInt p} : CallFree (.number text isInt p)
  | string {text p} : CallFree (.string text p)
  | bool {text p} : CallFree (.bool text p)
  | null {p} : CallFree (.null p)

namespace Store.Grows

variable {w : Slot} {s s' s'' : Store}

theorem weaken (h : Grows none s s') : Grows w s s' :=
  ⟨h.size, fun r hr _ => h.kept r hr (by simp)⟩

/-- Changes of a new cell are no changes. -/
theorem fill (h : Grows w s s') (hc : s.cells.size ≤ c.index) (h' : Grows (some c) s' s'') :
    Grows w s s'' where
  size := Nat.le_trans h.size h'.size
  kept r hr hw := by
    have hrc : some c ≠ some r := by
      rintro ⟨⟩
      exact absurd hr (Nat.not_lt.2 hc)
    rw [h'.kept r (Nat.lt_of_lt_of_le hr h.size) hrc, h.kept r hr hw]

end Store.Grows

/-! ### Keys that are not there -/

/-- The failure of a map that has no entry for the key. Both are to be shown first. -/
def Store.absence (s : Store) (c key : Slot) : Failure :=
  match s.repr c, s.text key with
  | .ok _, .ok k => .member (.keyNotFound k)
  | .ok _, .error f => f
  | .error f, _ => f

theorem keyNotFound_fails {σ ρ α : Type} (c key : Slot) (m : MachineOf σ ρ) : ∃ out, (do
    Exec.emit "container: "
    Exec.emit ((← Exec.ofExcept ((← MonadState.get).store.repr c)) ++ "\n")
    Exec.fail (.member (.keyNotFound (← Exec.text key))) : ExecOf σ ρ α) m =
      .error (.failed (m.store.absence c key)) { m with out := out } := by
  have emit (s : String) (m : MachineOf σ ρ) : Exec.emit s m = .ok () { m with out := m.out ++ s } := rfl
  have get (m : MachineOf σ ρ) : (MonadState.get : ExecOf σ ρ _) m = .ok m m := rfl
  rw [bind_of_ok (emit ..), bind_of_ok (get _)]
  dsimp only
  unfold Store.absence
  cases m.store.repr c with
  | error f => exact ⟨_, rfl⟩
  | ok shown =>
    have done (m : MachineOf σ ρ) : Exec.ofExcept (.ok shown) m = .ok shown m := rfl
    have text (m : MachineOf σ ρ) : Exec.text key m = Exec.ofExcept (m.store.text key) m := rfl
    rw [bind_of_ok (done _), bind_of_ok (emit ..)]
    cases h : m.store.text key with
    | error f => exact ⟨_, bind_of_error ((text _).trans (by rw [h]; rfl))⟩
    | ok k => exact ⟨_, bind_of_ok ((text _).trans (by rw [h]; rfl))⟩

/-! ### Actions that add cells -/

/-- `m'` is `m` with cells added, and the one in `w` changed. -/
structure Grown (w : Slot) (m m' : Machine) : Prop where
  rest : m' = { m with store := m'.store }
  sound : m'.store.Sound
  grows : m.store.Grows w m'.store

/-- What an action that fails leaves behind: it may have written something. -/
structure Stopped (w : Slot) (m m' : Machine) : Prop where
  stack : m'.stack = m.stack
  sound : m'.store.Sound
  grows : m.store.Grows w m'.store

variable {α β : Type} {w : Slot} {n : Nat} {m m' m'' : Machine}

namespace Grown

theorem machine (hm : m.Sound) (h : Grown w m m') : m'.Sound := by
  refine ⟨h.sound, ?_⟩
  rw [h.rest]
  exact fun r hr => (hm.records r hr).mono h.grows.size

theorem trans (h : Grown w m m') (h' : Grown w m' m'') : Grown w m m'' := by
  refine ⟨?_, h'.sound, h.grows.trans h'.grows⟩
  rw [h'.rest, h.rest]

theorem stopped (h : Grown w m m') (h' : Stopped w m' m'') : Stopped w m m'' := by
  refine ⟨?_, h'.sound, h.grows.trans h'.grows⟩
  rw [h'.stack, h.rest]

end Grown

def Adds (w : Slot) (n : Nat) (x : Exec α) (P : Nat → α → Prop) : Prop :=
  ∀ m : Machine, m.Sound → n ≤ m.store.cells.size →
    wp x (fun a m' => Grown w m m' ∧ P m'.store.cells.size a) (fun _ m' => Stopped w m m') m

namespace Adds

variable {P : Nat → α → Prop} {Q : Nat → β → Prop} {x : Exec α}

theorem pure {a : α} (h : ∀ n', n ≤ n' → P n' a) : Adds w n (Pure.pure a) P :=
  fun _ hm hn => (wp_pure a).2 ⟨⟨rfl, hm.store, .refl⟩, h _ hn⟩

theorem bind {f : α → Exec β} (hx : Adds w n x P)
    (hf : ∀ a n', n ≤ n' → P n' a → Adds w n' (f a) Q) : Adds w n (x >>= f) Q := by
  intro m hm hn
  refine wp_bind.2 (wp_mono (hx m hm hn) (fun a m₁ h₁ => ?_) fun _ _ h => h)
  obtain ⟨g₁, ha⟩ := h₁
  have rest := hf a _ (Nat.le_trans hn g₁.grows.size) ha m₁ (g₁.machine hm) (Nat.le_refl _)
  exact wp_mono rest (fun _ _ h => ⟨g₁.trans h.1, h.2⟩) fun _ _ h => g₁.stopped h

theorem weaken (hx : Adds none n x P) : Adds w n x P :=
  fun m hm hn => wp_mono (hx m hm hn)
    (fun _ _ h => ⟨⟨h.1.rest, h.1.sound, h.1.grows.weaken⟩, h.2⟩)
    fun _ _ h => ⟨h.stack, h.sound, h.grows.weaken⟩

theorem ite {c : Prop} [Decidable c] {y : Exec α} (hx : Adds w n x P) (hy : Adds w n y P) :
    Adds w n (if c then x else y) P := by
  split
  · exact hx
  · exact hy

theorem halt (e : Halt) : Adds w n (throw e : Exec α) P :=
  fun _ hm _ => (wp_throw e).2 ⟨rfl, hm.store, .refl⟩

theorem report (p : Position) (i : Issue) : Adds w n (Exec.report p i : Exec α) P := halt _

theorem mem {z : Mem α} (hz : Mem.Keeps w n z P) : Adds w n (Exec.mem z) P := by
  intro m hm hn
  have h := hz m.store hm.store hn
  cases e : z m.store with
  | ok a s =>
    have e' : Exec.mem z m = .ok a { m with store := s } := by simp only [Exec.mem, e]
    rw [e] at h
    exact (wp_of_ok e').2 ⟨⟨rfl, h.1, h.2.1⟩, h.2.2⟩
  | error f s =>
    have e' : Exec.mem z m = .error (.failed f) { m with store := s } := by simp only [Exec.mem, e]
    rw [e] at h
    exact (wp_of_error e').2 ⟨rfl, h.1, h.2⟩

theorem get {f : Machine → Exec α}
    (hf : ∀ m : Machine, Adds w m.store.cells.size (f m) P) : Adds w n (MonadState.get >>= f) P := by
  intro m hm _
  exact wp_bind.2 (wp_get.2 (hf m m hm (Nat.le_refl _)))

theorem ofExcept {z : Except Failure α} (hz : ∀ a, z = .ok a → ∀ n', n ≤ n' → P n' a) :
    Adds w n (Exec.ofExcept z) P := by
  cases z with
  | ok a => exact pure (hz a rfl)
  | error f => exact halt _

theorem turn (k : Handled) {handle : k.Error → Exec α}
    (hh : ∀ e m, ∃ h, handle e m = .error h m) (hx : Adds w n x P) : Adds w n (k.turn handle x) P := by
  intro m hm hn
  rcases k.turn_cases handle x m with h | ⟨e, m', h, h'⟩
  · exact (wp_congr h).2 (hx m hm hn)
  · obtain ⟨h₁, e₁⟩ := hh e m'
    exact (wp_of_error (h'.trans e₁)).2 ((wp_of_error h).1 (hx m hm hn))

theorem new {v : Value} (hv : v.Sound n) : Adds none n (Eval.new v) Live :=
  mem (.map (.alloc hv) fun _ _ _ hr => .some hr)

theorem getName (y : String) (p : Position) : Adds none n (Exec.getName y p) Live := by
  intro m hm hn
  rw [Exec.getName, wp_bind, wp_get]
  split
  · rename_i r hr
    exact (wp_pure _).2 ⟨⟨rfl, hm.store, .refl⟩, .some (CallStack.lt_of_valueOf? hm.records hr)⟩
  · exact report _ _ m hm hn

theorem runOp (op : TokenKind) (p : Position) {y : Option (Mem Slot)}
    (hy : ∀ z, y = some z → Mem.Keeps none n z Live) : Adds none n (Eval.runOp op p y) Live := by
  cases y with
  | none => exact report _ _
  | some z => exact turn .operand (fun _ _ => ⟨_, rfl⟩) (mem (hy z rfl))

theorem keyNotFound (c key : Slot) : Adds w n (do
    Exec.emit "container: "
    Exec.emit ((← Exec.ofExcept ((← MonadState.get).store.repr c)) ++ "\n")
    Exec.fail (.member (.keyNotFound (← Exec.text key))) : Exec α) P := by
  intro m hm _
  obtain ⟨out, h⟩ := keyNotFound_fails (α := α) c key m
  exact (wp_of_error h).2 ⟨rfl, hm.store, .refl⟩

theorem getMember (c key : Slot) : Adds none n (Eval.getMember c key) Live := by
  refine bind (mem (.member? c key)) fun v n₁ _ hl => ?_
  cases v with
  | some v => exact pure fun n' hn' => (hl v rfl).mono hn'
  | none => exact keyNotFound c key

/-! ### Parts of expressions -/

section Parts

variable {visit : Node → Exec Slot}
  (hv : ∀ e : Node, e.IsExpr → e.CallFree → ∀ n, Adds none n (visit e) Live)
variable {entries : List (Node × Node)}
include hv

theorem values {es : List Node} (he : ∀ e ∈ es, e.IsExpr) (hc : ∀ e ∈ es, e.CallFree) :
    Adds none n (Eval.values visit es) fun n' vs => ∀ v ∈ vs, Live n' v := by
  induction es generalizing n with
  | nil => exact pure fun _ _ _ h => absurd h not_mem_nil
  | cons e es ih =>
    obtain ⟨he, hes⟩ := forall_mem_cons.1 he
    obtain ⟨hc, hcs⟩ := forall_mem_cons.1 hc
    refine bind (hv e he hc n) fun v n₁ _ hl => bind (ih hes hcs) fun vs n₂ hn₂ hls => ?_
    exact pure fun n' hn' => forall_mem_cons.2
      ⟨hl.mono (Nat.le_trans hn₂ hn'), fun u hu => (hls u hu).mono hn'⟩

theorem condition (he : e.IsExpr) (hc : e.CallFree) :
    Adds none n (Eval.condition visit e) fun _ _ => True :=
  turn .operand (fun _ m => exists_reportAt e _ m) (bind (hv e he hc n) fun v _ _ _ => mem (.truth v))

theorem fillMap (he : ∀ e ∈ entries, e.1.IsExpr ∧ e.2.IsExpr)
    (hc : ∀ e ∈ entries, e.1.CallFree ∧ e.2.CallFree) :
    Adds (some c) n (Eval.fillMap visit c entries) fun _ _ => True := by
  induction entries generalizing n with
  | nil => exact pure fun _ _ => trivial
  | cons e es ih =>
    obtain ⟨he, hes⟩ := forall_mem_cons.1 he
    obtain ⟨hc, hcs⟩ := forall_mem_cons.1 hc
    have value : ∀ n, Adds none n (Eval.valueOr visit .null e.2) Live := by
      intro n
      exact ite (new trivial) (hv e.2 he.2 hc.2 n)
    refine bind (hv e.1 he.1 hc.1 n).weaken fun k n₁ _ hk => ?_
    refine bind (value n₁).weaken fun v n₂ hn₂ hl => ?_
    exact bind (mem (.setMember (hk.mono hn₂) hl)) fun _ _ _ _ => ih hes hcs

theorem mapOf (he : ∀ e ∈ entries, e.1.IsExpr ∧ e.2.IsExpr)
    (hc : ∀ e ∈ entries, e.1.CallFree ∧ e.2.CallFree) :
    Adds none n (do
      let c ← Exec.mem (Mem.alloc (.map .empty))
      Eval.fillMap visit c entries
      return some c) Live := by
  intro m hm hn
  let m₁ : Machine := { m with store := (m.store.alloc (.map .empty)).2 }
  have e : Exec.mem (Mem.alloc (.map .empty)) m = .ok ⟨m.store.cells.size⟩ m₁ := rfl
  have g₁ : Grown none m m₁ := ⟨rfl, hm.store.alloc (v := .map .empty) (Table.sound_empty _), .alloc⟩
  rw [wp_bind, wp_of_ok e, wp_bind]
  refine wp_mono (fillMap hv he hc m₁ (g₁.machine hm) (Nat.le_refl _)) (fun _ m₂ h => ?_) fun _ m₂ h => ?_
  · obtain ⟨g₂, -⟩ := h
    refine (wp_pure _).2 ⟨⟨by rw [g₂.rest], g₂.sound, g₁.grows.fill (Nat.le_refl _) g₂.grows⟩, .some ?_⟩
    exact Nat.lt_of_lt_of_le (by simp [m₁]) g₂.grows.size
  · exact ⟨h.stack, h.sound, g₁.grows.fill (Nat.le_refl _) h.grows⟩

theorem runAccess {base key : Node} (hb : base.IsExpr) (hbc : base.CallFree) (hk : key.IsExpr)
    (hkc : key.CallFree) (p : Position) : Adds none n (Eval.runAccess visit base key p) Live := by
  refine bind (hv base hb hbc n) fun c n₁ _ _ => bind (hv key hk hkc n₁) fun k n₂ _ _ => ?_
  refine get fun m => ?_
  split
  · exact turn .member (fun _ _ => ⟨_, rfl⟩) (getMember c k)
  · exact turn .member (fun _ _ => ⟨_, rfl⟩) (getMember c k)
  · exact report _ _

theorem visitWith (k : Nat) (he : e.IsExpr) (hc : e.CallFree) :
    Adds none n (Eval.visitWith k visit e) Live := by
  cases hc with
  | funcDef =>
    cases he with
    | funcDef hp hb =>
      refine bind (P := fun _ f => f.Parsed) (ofExcept fun f hf _ _ => ?_) fun f n₁ _ hf => new hf
      obtain ⟨rfl, rfl⟩ := Sim.make_eq_ok hf
      exact ⟨hp, hb⟩
  | select hc hy hn =>
    cases he with
    | select he hye hne =>
      exact bind (condition hv he hc) fun b n₁ _ _ => ite (hv _ hye hy n₁) (hv _ hne hn n₁)
  | binary hl hr =>
    cases he with
    | binary hop hle hre =>
      refine bind (hv _ hle hl n) fun a n₁ _ _ => bind (hv _ hre hr n₁) fun b n₂ _ _ => ?_
      obtain ⟨op', y, e, hy⟩ := Sim.runBinary_eq hop a b _ n₂
      rw [e]
      exact runOp op' _ hy
  | unary ho =>
    cases he with
    | unary hoe =>
      exact bind (hv _ hoe ho n) fun a n₁ _ ha => runOp _ _ fun z hz => Sim.unaryOp_keeps ha hz
  | listOf hi =>
    cases he with
    | listOf hie => exact bind (values hv hie hi) fun vs n₁ _ hl => new hl
  | mapOf hk hvals =>
    cases he with
    | mapOf hke hve =>
      exact mapOf hv
        (fun e he => ⟨hke e.1 (of_mem_zip he).1, hve e.2 (of_mem_zip he).2⟩)
        fun e he => ⟨hk e.1 (of_mem_zip he).1, hvals e.2 (of_mem_zip he).2⟩
  | setOf hi => exact report _ _
  | access hb hk =>
    cases he with
    | access hbe hke => exact runAccess hv hbe hb hke hk _
  | name => exact getName _ _
  | number =>
    refine bind (P := fun n' v => v.Sound n') (ofExcept fun v h _ _ => Sim.literal_sound h) ?_
    exact fun v n₁ _ h => new h
  | string => exact new (v := .str _) trivial
  | bool => exact new (v := .bool _) trivial
  | null => exact new (v := .null) trivial

end Parts

end Adds

/-- Expressions without calls only add cells. -/
theorem adds_visit (k : Nat) : ∀ e : Node, e.IsExpr → e.CallFree → ∀ n,
    Adds none n (Eval.visit k e) Live := by
  induction k with
  | zero => exact fun _ _ _ _ => .halt _
  | succ k ih => exact fun e he hc n => Adds.visitWith ih k he hc

theorem grown_of_visit (he : e.IsExpr) (hc : e.CallFree) (hm : m.Sound) {v : Slot}
    (h : Eval.visit k e m = .ok v m') : Grown none m m' :=
  ((wp_of_ok h).1 (adds_visit k e he hc 0 m hm (Nat.zero_le _))).1

theorem stopped_of_visit (he : e.IsExpr) (hc : e.CallFree) (hm : m.Sound) {h : Halt}
    (run : Eval.visit k e m = .error h m') : Stopped none m m' :=
  (wp_of_error run).1 (adds_visit k e he hc 0 m hm (Nat.zero_le _))

end TinyScript
