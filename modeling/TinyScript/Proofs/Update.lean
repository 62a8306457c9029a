import TinyScript.Proofs.BareStore
import TinyScript.Proofs.CallFree
import TinyScript.Proofs.ControlFlow
import TinyScript.Proofs.Fuel
import TinyScript.Proofs.Places

/-!
# Updates in place

`x += e` calculates what `x = x + e` does, but writes it to the cell that `x` holds, while the
assignment binds `x` to a new cell. The difference is to be seen wherever else that cell is found:
the two leave machines alike exactly if the cell is at no other place, or the update does not change
the look of it (`alike_update_iff`).
-/

namespace TinyScript

open Exec CallStack Eval

/-! ### What is calculated -/

/-- The operators that update a variable, with the ones that only calculate. -/
inductive TokenKind.IsUpdateOf : TokenKind → TokenKind → Prop
  | add : IsUpdateOf .selfAdd .add
  | sub : IsUpdateOf .selfSub .sub

/-- An update and its operator calculate the same; one writes the result to the cell of the left
operand, the other one to a new cell. -/
theorem TokenKind.IsUpdateOf.exists_calculation {op op' : TokenKind} (h : op.IsUpdateOf op') :
    ∃ f, Mem.Calculates f ∧ negatedOp? op' = none ∧ ∀ a b,
      binaryOp? op a b = some ((fun _ => none) <$> (do Mem.writeSlot a (← f a b))) ∧
      binaryOp? op' a b = some (some <$> (do Mem.alloc (← f a b))) := by
  cases h with
  | add => exact ⟨Mem.sum, Mem.calculates_sum, rfl, fun _ _ => ⟨rfl, rfl⟩⟩
  | sub =>
    exact ⟨Mem.arithmetic Number.sub, Mem.calculates_arithmetic _, rfl, fun _ _ => ⟨rfl, rfl⟩⟩

/-! ### The two statements -/

variable {m m₁ m₂ : Machine} {v : Slot} {x : String} {r : Ref} {e : Node} {k : Nat}

theorem runOp_eq_ok {op : TokenKind} {p : Position} {z : Mem Slot}
    (h : runOp op p (some z) m = .ok v m₁) :
    ∃ s, z m.store = .ok v s ∧ m₁ = { m with store := s } := by
  rcases Handled.operand.turn_cases (fun e => Exec.report p (.badValue e.message)) (Exec.mem z) m with e | ⟨e, m', -, e'⟩
  · have h : Exec.mem z m = .ok v m₁ := e.symm.trans h
    unfold Exec.mem at h
    split at h <;> cases h
    exact ⟨_, ‹_›, rfl⟩
  · cases e'.symm.trans h

theorem visit_name_eq_ok {p : Position} (hx : valueOf? x m.stack.records = some r)
    (h : visit k (.name x p) m = .ok v m₁) : v = some r ∧ m₁ = m := by
  cases k with
  | zero => cases h
  | succ k =>
    have e : visit (k + 1) (.name x p) m = .ok (some r) m := by
      simp only [visit, visitWith, Exec.getName]
      rw [bind_of_ok (rfl : (MonadState.get : Exec Machine) m = .ok m m), hx]
      rfl
    rw [e] at h
    cases h
    exact ⟨rfl, rfl⟩

variable {f : Slot → Slot → Mem Value} {op : TokenKind} {p q : Position}

/-- An update writes to the cell of the variable. -/
theorem update_eq_ok (hf : Mem.Calculates f)
    (hop : ∀ a b, binaryOp? op a b = some ((fun _ => none) <$> (do Mem.writeSlot a (← f a b))))
    (hx : valueOf? x m.stack.records = some r)
    (h : visit k (.update op (.name x p) e q) m = .ok v m₁) :
    ∃ j b m' w, visit j e m = .ok b m' ∧ f (some r) b m'.store = .ok w m'.store ∧
      m₁ = { m' with store := m'.store.set r w } := by
  cases k with
  | zero => cases h
  | succ k =>
    simp only [visit, visitWith, statement] at h
    obtain ⟨_, _, body, last⟩ := exists_of_bind_eq_ok h
    cases last
    obtain ⟨a, m', ha, rest⟩ := exists_of_bind_eq_ok body
    obtain ⟨rfl, rfl⟩ := visit_name_eq_ok hx ha
    obtain ⟨b, m₂, hb, rest⟩ := exists_of_bind_eq_ok rest
    obtain ⟨u, _, run, last⟩ := exists_of_bind_eq_ok rest
    cases last
    rw [hop] at run
    obtain ⟨s, change, rfl⟩ := runOp_eq_ok run
    obtain ⟨_, change', -⟩ := map_eq_ok change
    obtain ⟨w, s₁, hw, write⟩ := exists_of_bind_eq_ok change'
    obtain ⟨rfl, -⟩ := hf _ _ _ _ _ hw
    cases write
    exact ⟨k, b, m₂, w, hb, hw, rfl⟩

/-- An operator without update writes to a new cell. -/
theorem binary_eq_ok (hf : Mem.Calculates f)
    (hop : ∀ a b, binaryOp? op a b = some (some <$> (do Mem.alloc (← f a b))))
    (hneg : negatedOp? op = none) (hx : valueOf? x m.stack.records = some r)
    (h : visit k (.binary op (.name x p) e q) m = .ok v m₁) :
    ∃ j b m' w, visit j e m = .ok b m' ∧ f (some r) b m'.store = .ok w m'.store ∧
      v = some ⟨m'.store.cells.size⟩ ∧ m₁ = { m' with store := (m'.store.alloc w).2 } := by
  cases k with
  | zero => cases h
  | succ k =>
    simp only [visit, visitWith] at h
    obtain ⟨a, m', ha, rest⟩ := exists_of_bind_eq_ok h
    obtain ⟨rfl, rfl⟩ := visit_name_eq_ok hx ha
    obtain ⟨b, m₂, hb, run⟩ := exists_of_bind_eq_ok rest
    rw [runBinary, hneg, hop] at run
    obtain ⟨s, change, rfl⟩ := runOp_eq_ok run
    obtain ⟨c, change', rfl⟩ := map_eq_ok change
    obtain ⟨w, s₁, hw, alloc⟩ := exists_of_bind_eq_ok change'
    obtain ⟨rfl, -⟩ := hf _ _ _ _ _ hw
    cases alloc
    exact ⟨k, b, m₂, w, hb, hw, rfl, rfl⟩

/-- An assignment to a variable binds it to the value. -/
theorem assign_eq_ok (h : visit k (.assign [.name x p] [e] q) m = .ok v m₁) :
    ∃ j c m', visit j e m = .ok c m' ∧ m₁ = { m' with
      stack := { m'.stack with records := rebind x c m'.stack.records } } := by
  cases k with
  | zero => cases h
  | succ k =>
    simp only [visit, visitWith, statement] at h
    obtain ⟨_, _, body, last⟩ := exists_of_bind_eq_ok h
    cases last
    obtain ⟨vs, m', values, assign⟩ := exists_of_bind_eq_ok body
    obtain ⟨c, m₂, value, rest⟩ := exists_of_bind_eq_ok values
    cases rest
    obtain ⟨_, _, set, last⟩ := exists_of_bind_eq_ok assign
    cases last
    obtain ⟨n, _, get, change⟩ := exists_of_bind_eq_ok set
    cases hb : bindingOf? x n.stack.records with
    | none =>
      rw [hb] at change
      cases change
    | some b =>
      rw [hb] at change
      dsimp only at change
      split at change <;> cases change
      cases get
      exact ⟨k, c, _, value, rfl⟩

/-! ### What is to be seen of it -/

/-- The place of a variable. -/
def placeOf (x : String) (m : Machine) : Place := { record := home x m.stack.records, name := x }

/-- After an update, where `s` is what calculating `w` has left of the store. -/
def updated (m : Machine) (s : Store) (r : Ref) (w : Value) : Machine :=
  { m with store := s.set r w }

/-- After an assignment. -/
def assigned (m : Machine) (s : Store) (x : String) (w : Value) : Machine :=
  { m with
    store := (s.alloc w).2
    stack := { m.stack with records := rebind x (some ⟨s.cells.size⟩) m.stack.records } }

section Compared

variable {s : Store} {w : Value} {y : Slot}

theorem slotAt?_placeOf (hx : bindingOf? x m.stack.records = some ⟨some r, false⟩) :
    m.slotAt? (placeOf x m) = some (some r) := by
  simp only [MachineOf.slotAt?, placeOf, bindingAt?_home hx, Option.bind_some, Store.follow?]

variable (hg : m.store.Grows none s)
include hg

theorem get?_set (hy : Store.Within m.store.cells.size y) (hyr : y ≠ some r) :
    (s.set r w).get? y = m.store.get? y := by
  rw [← hg.get? hy]
  cases y with
  | none => rfl
  | some q => exact congrArg some (Store.get_set_of_ne fun h => hyr (congrArg some h))

variable (hr : (m.store.get r).IsScalar)
include hr

theorem get?_set_self : (s.set r w).get? (some r) = some w := by
  have hlt : r.index < m.store.cells.size := by
    refine Store.lt_of_get_ne fun hb => ?_
    rw [hb] at hr
    obtain ⟨_, h⟩ | ⟨_, h⟩ := hr <;> cases h
  exact congrArg some (Store.get_set_self (Nat.lt_of_lt_of_le hlt hg.size))

variable (hm : m.Sound) (hw : w.IsScalar)
include hm hw

/-- An update leaves everything at its place: numbers and strings have no parts. -/
theorem slotAt?_updated (p : Place) : (updated m s r w).slotAt? p = m.slotAt? p := by
  have steps : ∀ y, Store.Within m.store.cells.size y → ∀ a,
      (s.set r w).step? y a = m.store.step? y a := by
    intro y hy a
    by_cases hyr : y = some r
    · subst hyr
      rw [Store.step?_of_scalar hw (get?_set_self hg hr), Store.step?_of_scalar hr rfl]
    · exact Store.step?_congr (get?_set hg hy hyr) a
  simp only [MachineOf.slotAt?, updated]
  cases hb : bindingAt? m.stack.records p.record p.name with
  | none => rfl
  | some b =>
    exact Store.follow?_congr (fun x _ => hm.store.within x) steps (within_bindingAt? hm.records hb) _

variable (hx : bindingOf? x m.stack.records = some ⟨some r, false⟩)
include hx

/-- An assignment leaves everything at its place, but for the variable. -/
theorem slotAt?_assigned (p : Place) :
    (assigned m s x w).slotAt? p =
      if p = placeOf x m then some (some ⟨s.cells.size⟩) else m.slotAt? p := by
  obtain ⟨i, z, path⟩ := p
  simp only [MachineOf.slotAt?, assigned, bindingAt?_rebind hx, placeOf, Place.mk.injEq]
  by_cases h : i = home x m.stack.records ∧ z = x
  · obtain ⟨rfl, rfl⟩ := h
    have new : (s.alloc w).2.get? (some ⟨s.cells.size⟩) = some w := congrArg some (s.get_alloc_self w)
    cases path with
    | nil => simp only [and_self, if_true, Option.bind_some, Store.follow?]
    | cons a path =>
      simp only [and_self, if_true, Option.bind_some, Store.follow?, Store.step?_of_scalar hw new,
        bindingAt?_home hx, Store.step?_of_scalar (x := some r) hr rfl, Option.bind_none, reduceCtorEq,
        and_false, if_false]
  · rw [if_neg h, if_neg fun hp => h ⟨hp.1, hp.2.1⟩]
    cases hb : bindingAt? m.stack.records i z with
    | none => rfl
    | some b =>
      have grown : m.store.Grows none (s.alloc w).2 := hg.trans .alloc
      exact Store.follow?_congr (fun x _ => hm.store.within x)
        (fun y hy => Store.step?_congr (grown.get? hy)) (within_bindingAt? hm.records hb) _

omit hr hw hx in
/-- An assignment changes the look of nothing that was there. -/
theorem look_assigned (hy : Store.Within m.store.cells.size y) :
    (s.alloc w).2.look y = m.store.look y :=
  have grown : m.store.Grows none (s.alloc w).2 := hg.trans .alloc
  Store.look_congr (fun z _ => hm.store.within z) (fun _ hz => .inl (grown.get? hz)) hy

omit hr hw hx in
/-- Where the cell is found at one place only, an update does not change the look of other places. -/
theorem look_updated_of_alone {p₀ : Place} (hp₀ : p₀.path = [])
    (alone : ∀ p, m.slotAt? p = some (some r) → p = p₀) {p : Place} (hp : p ≠ p₀)
    (hy : m.slotAt? p = some y) : (s.set r w).look y = m.store.look y := by
  -- what is inside a place is never at the place of a variable
  let K : Slot → Prop := fun z => ∃ p, p ≠ p₀ ∧ m.slotAt? p = some z
  refine Store.look_congr (K := K) (fun z hz u hu => ?_) (fun z hz => .inl ?_) ⟨p, hp, hy⟩
  · obtain ⟨p, -, hz⟩ := hz
    obtain ⟨a, ha⟩ := MachineOf.slotAt?_part hz hu
    refine ⟨_, fun h => ?_, ha⟩
    rw [← h] at hp₀
    exact absurd hp₀ (by simp)
  · obtain ⟨p, hp, hz⟩ := hz
    refine get?_set hg (MachineOf.within_slotAt? hm hz) fun h => hp (alone p ?_)
    rw [hz, h]

omit hx in
/-- An update that does not change the look of the cell does not change the look of anything. -/
theorem look_updated_of_same (same : (s.set r w).look (some r) = m.store.look (some r))
    (hy : Store.Within m.store.cells.size y) : (s.set r w).look y = m.store.look y := by
  refine Store.look_congr (fun z _ => hm.store.within z) (fun z hz => ?_) hy
  by_cases hzr : z = some r
  · subst hzr
    exact .inr ⟨⟨_, hr, rfl⟩, ⟨w, hw, get?_set_self hg hr⟩, same⟩
  · exact .inl (get?_set hg hz hzr)

/-- The machines after an update and after an assignment are alike if the cell is at no other place,
or looks as before. -/
theorem alike_updated_iff : (updated m s r w).Alike (assigned m s x w) ↔
    (∀ p, m.slotAt? p = some (some r) → p = placeOf x m) ∨
      (s.set r w).look (some r) = m.store.look (some r) := by
  have updatedAt := slotAt?_updated hg hr hm hw
  have assignedAt := slotAt?_assigned hg hr hm hw hx
  constructor
  · intro h
    by_contra hno
    obtain ⟨hno, hl⟩ := not_or.1 hno
    obtain ⟨p, hp⟩ := not_forall.1 hno
    obtain ⟨hp, hne⟩ := Classical.not_imp.1 hp
    have e := h p
    simp only [MachineOf.lookAt?, updatedAt, assignedAt, if_neg hne, hp, Option.map_some,
      Option.some.injEq] at e
    exact hl (e.trans (look_assigned hg hm (MachineOf.within_slotAt? hm hp)))
  · intro h p
    simp only [MachineOf.lookAt?, updatedAt, assignedAt]
    by_cases hp : p = placeOf x m
    · rw [if_pos hp, hp, slotAt?_placeOf hx]
      have new : (s.alloc w).2.get? (some ⟨s.cells.size⟩) = some w := congrArg some (s.get_alloc_self w)
      exact congrArg some (Store.look_of_scalar hw new (get?_set_self hg hr))
    · rw [if_neg hp]
      cases hy : m.slotAt? p with
      | none => rfl
      | some y =>
        have within := MachineOf.within_slotAt? hm hy
        refine congrArg some (Eq.trans ?_ (look_assigned hg hm within).symm)
        rcases h with alone | same
        · exact look_updated_of_alone hg hm rfl alone hp hy
        · exact look_updated_of_same hg hr hm hw same within

end Compared

/-- Wherever a session leads, an update `x += e` or `x -= e` and the assignment `x = x + e` or
`x = x - e`, for a variable with a value and an expression without calls, leave machines alike if and
only if the cell of the variable is at no other place, or has the same type and text after the
update as before. -/
theorem alike_update_iff (hm : Reachable Node.IsProgram m)
    (hx : bindingOf? x m.stack.records = some ⟨some r, false⟩) (he : e.IsExpr) (hc : e.CallFree)
    {op op' : TokenKind} (hop : op.IsUpdateOf op') {p₁ p₂ p₃ p₄ p₅ p₆ : Position} {k₁ k₂ : Nat}
    {v₁ v₂ : Slot} (h₁ : Eval.visit k₁ (.update op (.name x p₁) e p₂) m = .ok v₁ m₁)
    (h₂ : Eval.visit k₂ (.assign [.name x p₃] [.binary op' (.name x p₄) e p₅] p₆) m = .ok v₂ m₂) :
    m₁.Alike m₂ ↔ (∀ p, m.slotAt? p = some (some r) → p = placeOf x m) ∨
      m₁.store.look (some r) = m.store.look (some r) := by
  have sound := sound_of_reachable hm
  have value := valueOf?_of_bindingOf? hx rfl
  obtain ⟨f, hf, hneg, hops⟩ := hop.exists_calculation
  obtain ⟨j₁, b, m', w, hb, hw, rfl⟩ := update_eq_ok hf (fun a b => (hops a b).1) value h₁
  obtain ⟨j, c, m'', hsum, rfl⟩ := assign_eq_ok h₂
  obtain ⟨j₂, b₂, n, w₂, hb₂, hw₂, rfl, rfl⟩ :=
    binary_eq_ok hf (fun a b => (hops a b).2) hneg value hsum
  obtain ⟨rfl, rfl⟩ := visit_unique hb hb₂
  obtain rfl : w = w₂ := by
    rw [hw] at hw₂
    cases hw₂
    rfl
  obtain ⟨-, scalar, u, hu, hr⟩ := hf _ _ _ _ _ hw
  have grown := grown_of_visit he hc sound hb
  have hlt : r.index < m.store.cells.size := lt_of_valueOf? sound.records value
  have hr : (m.store.get r).IsScalar := by
    rw [← grown.grows.kept r hlt (by simp)]
    cases hr
    exact hu
  have iff := alike_updated_iff grown.grows hr sound scalar hx
  rw [updated, assigned] at iff
  rw [grown.rest]
  exact iff

/-- `var a = 1` and `var b = a`. -/
def sharing : Node :=
  .program
    [.declare [.name "a" ⟨1, 5⟩] (some [.number "1" true ⟨1, 9⟩]) false ⟨1, 1⟩,
      .declare [.name "b" ⟨2, 5⟩] (some [.name "a" ⟨2, 9⟩]) false ⟨2, 1⟩]

theorem isProgram_sharing : sharing.IsProgram := by
  refine ⟨_, rfl, List.forall_mem_cons.2 ⟨.declare ?_ ?_, List.forall_mem_singleton.2 (.declare ?_ ?_)⟩⟩
  · exact List.forall_mem_singleton.2 ⟨_, _, rfl⟩
  · exact List.forall_mem_singleton.2 .number
  · exact List.forall_mem_singleton.2 ⟨_, _, rfl⟩
  · exact List.forall_mem_singleton.2 .name

/-- The machine where `a` and `b` share a cell. -/
def shared : Machine := leaves (Eval.visit 5 sharing) (leaves Host.boot {})

theorem reachable_shared : Reachable Node.IsProgram shared :=
  (Reachable.boot [] 1 (by decide +kernel)).run isProgram_sharing 5

theorem bindingOf?_shared : bindingOf? "a" shared.stack.records = some ⟨some ⟨12⟩, false⟩ := by
  decide +kernel

/-- `a +=    n` -/
def updateBy (n : String) : Node :=
  .update .selfAdd (.name "a" ⟨3, 1⟩) (.number n true ⟨3, 9⟩) ⟨3, 3⟩

/-- `a = a + n` -/
def assignSum (n : String) : Node :=
  .assign [.name "a" ⟨3, 1⟩] [.binary .add (.name "a" ⟨3, 5⟩) (.number n true ⟨3, 9⟩) ⟨3, 7⟩] ⟨3, 3⟩

/-- Where two variables share a cell, it depends on the number that is added. -/
theorem alike_update_iff_shared :
    (leaves (Eval.visit 3 (updateBy "0")) shared).Alike (leaves (Eval.visit 3 (assignSum "0")) shared) ∧
      ¬(leaves (Eval.visit 3 (updateBy "1")) shared).Alike
        (leaves (Eval.visit 3 (assignSum "1")) shared) := by
  constructor
  · obtain ⟨v₁, h₁⟩ := eq_ok_of_succeeds (x := Eval.visit 3 (updateBy "0")) (m := shared) (by decide +kernel)
    obtain ⟨v₂, h₂⟩ := eq_ok_of_succeeds (x := Eval.visit 3 (assignSum "0")) (m := shared) (by decide +kernel)
    have iff := alike_update_iff reachable_shared bindingOf?_shared .number .number .add h₁ h₂
    exact iff.2 (.inr (by decide +kernel))
  · obtain ⟨v₁, h₁⟩ := eq_ok_of_succeeds (x := Eval.visit 3 (updateBy "1")) (m := shared) (by decide +kernel)
    obtain ⟨v₂, h₂⟩ := eq_ok_of_succeeds (x := Eval.visit 3 (assignSum "1")) (m := shared) (by decide +kernel)
    have iff := alike_update_iff reachable_shared bindingOf?_shared .number .number .add h₁ h₂
    intro h
    rcases iff.1 h with alone | same
    · have place := alone { record := 0, name := "b" } (by decide +kernel)
      exact absurd (congrArg Place.name place) (by decide)
    · exact absurd same (by decide +kernel)

/-- Updates are not what assignments are in every machine: with `a` and `b` sharing a cell, `a += 1`
changes `b`. -/
theorem not_forall_alike_update : ¬∀ {m m₁ m₂ : Machine} {x : String} {r : Ref} {e : Node}
    {op op' : TokenKind} {p₁ p₂ p₃ p₄ p₅ p₆ : Position} {k₁ k₂ : Nat} {v₁ v₂ : Slot},
    Reachable Node.IsProgram m → bindingOf? x m.stack.records = some ⟨some r, false⟩ → e.IsExpr →
    e.CallFree → op.IsUpdateOf op' →
    Eval.visit k₁ (.update op (.name x p₁) e p₂) m = .ok v₁ m₁ →
    Eval.visit k₂ (.assign [.name x p₃] [.binary op' (.name x p₄) e p₅] p₆) m = .ok v₂ m₂ →
    m₁.Alike m₂ := by
  intro all
  obtain ⟨v₁, h₁⟩ := eq_ok_of_succeeds (x := Eval.visit 3 (updateBy "1")) (m := shared) (by decide +kernel)
  obtain ⟨v₂, h₂⟩ := eq_ok_of_succeeds (x := Eval.visit 3 (assignSum "1")) (m := shared) (by decide +kernel)
  have same := all reachable_shared bindingOf?_shared .number .number .add h₁ h₂
    { record := 0, name := "b" }
  exact absurd same (by decide +kernel)

end TinyScript
