import TinyScript.Proofs.Traversal

/-!
# More fuel changes nothing but runs that lack it

`Refines x y`: `x` runs out of fuel, or does what `y` does. A run refines the one with more fuel
(`refines_visit`), so that two runs of a node that end well end alike (`visit_unique`).
-/

namespace TinyScript

open Exec

variable {α β : Type}
variable {n n' : Nat} {node : Node} {m m' : Machine} {v : Slot}

/-- The first action does what the second one does, unless it runs out of fuel. -/
def Refines (x y : Exec α) : Prop := ∀ m, (∃ m', x m = .error .outOfFuel m') ∨ x m = y m

namespace Refines

variable {x y : Exec α} {f g : α → Exec β}

theorem refl (x : Exec α) : Refines x x := fun _ => .inr rfl

theorem outOfFuel (y : Exec α) : Refines Exec.outOfFuel y := fun m => .inl ⟨m, rfl⟩

theorem bind (hx : Refines x y) (hf : ∀ a, Refines (f a) (g a)) :
    Refines (x >>= f) (y >>= g) := by
  intro m
  rcases hx m with ⟨m', h⟩ | h
  · exact .inl ⟨m', bind_of_error h⟩
  · cases hy : y m with
    | ok a m' =>
      rw [bind_of_ok (h.trans hy), bind_of_ok hy]
      exact hf a m'
    | error e m' =>
      rw [bind_of_error (h.trans hy), bind_of_error hy]
      exact .inr rfl

theorem turn {k : Handled} {handle : k.Error → Exec α} (hx : Refines x y) :
    Refines (k.turn handle x) (k.turn handle y) := by
  intro m
  rcases hx m with ⟨m', h⟩ | h
  · exact .inl ⟨m', Handled.turn_other h (by simp)⟩
  · exact .inr (by cases k <;> simp only [Handled.turn, Exec.onOperand, Exec.onMember, h])

theorem within {r : Record} (hx : Refines x y) :
    Refines (Exec.within r x) (Exec.within r y) :=
  bind (refl _) fun _ => bind hx fun _ => refl _

theorem respected : Respected Refines where
  pure _ := refl _
  bind := bind
  halt _ := refl _
  read hg := bind (refl _) fun m => hg m m rfl rfl
  mem _ := refl _
  ofExcept _ := refl _
  emit _ := refl _
  log _ _ := refl _
  readLine := refl _
  modifyStack _ := refl _
  within := within
  turn _ := turn

theorem iterate {γ : Type} {step step' : γ → Exec (Option γ)} (hs : ∀ c, Refines (step c) (step' c))
    (h : n ≤ n') (c : γ) : Refines (Eval.iterate step n c) (Eval.iterate step' n' c) := by
  induction n generalizing n' c with
  | zero => exact outOfFuel _
  | succ n ih =>
    obtain ⟨k, rfl⟩ := Nat.exists_eq_add_of_lt h
    refine bind (hs c) fun next => ?_
    split
    · exact ih (Nat.le_add_right n k) _
    · exact refl _

end Refines

theorem refines_visit (h : n ≤ n') (node : Node) : Refines (Eval.visit n node) (Eval.visit n' node) := by
  induction n generalizing n' node with
  | zero => exact .outOfFuel _
  | succ n ih =>
    obtain ⟨k, rfl⟩ := Nat.exists_eq_add_of_lt h
    have hk : n ≤ n + k := Nat.le_add_right n k
    exact Refines.respected.visitWith (ih hk) (fun hs => Refines.iterate hs hk) node

/-- A run that may be cut short does what the whole run does, unless it is cut. -/
theorem refines_visitCut (stop : Nat → Node → Machine → Bool) (n : Nat) (node : Node) :
    Refines (Eval.visitCut stop n node) (Eval.visit n node) := by
  induction n generalizing node with
  | zero => exact .outOfFuel _
  | succ n ih =>
    intro m
    rcases Eval.visitCut_cases stop n node m with h | h
    · exact .inl ⟨m, h⟩
    · rw [h]
      have step := Refines.respected.visitWith ih (fun hs => Refines.iterate hs (Nat.le_refl n)) node
      exact step m

/-- What ends well without being cut short ends so when it is run whole. -/
theorem visit_of_visitCut {stop : Nat → Node → Machine → Bool}
    (h : Eval.visitCut stop n node m = .ok v m') : Eval.visit n node m = .ok v m' := by
  rcases refines_visitCut stop n node m with ⟨m₁, h₁⟩ | h₁
  · rw [h] at h₁
    cases h₁
  · rw [← h₁, h]

/-- A run that ends well ends so with more fuel, too. -/
theorem visit_mono (h : n ≤ n') (hv : Eval.visit n node m = .ok v m') :
    Eval.visit n' node m = .ok v m' := by
  rcases refines_visit h node m with ⟨m₁, h₁⟩ | h₁
  · rw [hv] at h₁
    cases h₁
  · rw [← h₁, hv]

/-- Runs that end well end alike, whatever their fuel. -/
theorem visit_unique {m₁ m₂ : Machine} {v₁ v₂ : Slot} (h₁ : Eval.visit n node m = .ok v₁ m₁)
    (h₂ : Eval.visit n' node m = .ok v₂ m₂) : v₁ = v₂ ∧ m₁ = m₂ := by
  have e := visit_mono (Nat.le_max_left n n') h₁
  rw [visit_mono (Nat.le_max_right n n') h₂] at e
  cases e
  exact ⟨rfl, rfl⟩

end TinyScript
