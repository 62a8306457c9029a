import TinyScript.Proofs.Bare
import TinyScript.Proofs.Reachable
import TinyScript.Proofs.SoundStore

/-!
# Stores up to places

The places of a source text get into a store with the bodies of functions. `Store.bare` takes them
out again. What is seen of a value does not depend on them, and `Mem.Blind x` says that an action on
the store does not either: on the bare store it does the same, and leaves the bare store of what it
leaves otherwise.
-/

namespace TinyScript

open Node

variable {α β : Type}
variable {v : Value} {s s' : Store}

namespace Node

@[simp] theorem bare_bare (n : Node) : n.bare.bare = n.bare := by
  -- along the constructors, for lists and optional lists of nodes alongside
  apply @Node.rec (fun n => n.bare.bare = n.bare) (fun ns => (ns.map bare).map bare = ns.map bare)
    (fun o => (o.map (List.map bare)).map (List.map bare) = o.map (List.map bare))
  all_goals intros
  all_goals simp_all

end Node

/-! ### Values and cells without places -/

/-- A function without the places of its parameters and its body. -/
def Closure.bare (f : Closure) : Closure :=
  { f with params := f.params.map (List.map Node.bare), body := f.body.map Node.bare }

@[simp] theorem Closure.bare_bare (f : Closure) : f.bare.bare = f.bare := by
  simp [Closure.bare, Function.comp_def]

namespace Value

def bare : Value → Value
  | .func f => .func f.bare
  | v => v

/-- Two values without places are the same if the values are, or are functions. -/
theorem eq_or_func {v w : Option Value} (h : v.map bare = w.map bare) :
    v = w ∨ ∃ f g, v = some (.func f) ∧ w = some (.func g) ∧ f.bare = g.bare := by
  cases v with
  | none =>
    cases w with
    | none => exact .inl rfl
    | some w => cases h
  | some v =>
    cases w with
    | none => cases h
    | some w =>
      have hvw : v.bare = w.bare := Option.some.inj h
      cases v with
      | func f =>
        cases w with
        | func g => exact .inr ⟨f, g, rfl, rfl, Value.func.inj hvw⟩
        | _ => cases hvw
      | _ =>
        cases w with
        | func g => cases hvw
        | _ => exact .inl (congrArg some hvw)

/-- What is the same for all functions is the same for a value without places. -/
theorem congr_bare {f : Option Value → α}
    (h : ∀ c d : Closure, f (some (.func c)) = f (some (.func d))) (v : Option Value) :
    f (v.map bare) = f v := by
  rcases v with _ | v
  · rfl
  · cases v with
    | func c => exact h c.bare c
    | _ => rfl

theorem IsScalar.bare_eq (h : v.IsScalar) : v.bare = v := by
  obtain ⟨n, rfl⟩ | ⟨t, rfl⟩ := h <;> rfl

end Value

namespace Store

/-- The store without the places of its functions. -/
def bare (s : Store) : Store := ⟨s.cells.map Value.bare⟩

variable (s : Store)

@[simp] theorem get_bare (r : Ref) : s.bare.get r = (s.get r).bare := by
  simp only [bare, get, Array.getD_eq_getD_getElem?, Array.getElem?_map]
  cases s.cells[r.index]? <;> rfl

@[simp] theorem get?_bare (x : Slot) : s.bare.get? x = (s.get? x).map Value.bare := by
  cases x <;> simp [get?]

theorem bare_set (r : Ref) (v : Value) : (s.set r v).bare = s.bare.set r v.bare := by
  simp [bare, set]

theorem bare_alloc (v : Value) :
    s.bare.alloc v.bare = ((s.alloc v).1, (s.alloc v).2.bare) := by
  simp [bare, alloc]

/-! ### What does not depend on places -/

@[simp] theorem equal_bare (a b : Ref) : s.bare.equal a b = s.equal a b := by
  simp only [equal, get_bare]
  cases s.get a <;> cases s.get b <;> rfl

@[simp] theorem alike_bare (x y : Slot) : s.bare.alike x y = s.alike x y := by
  cases x <;> cases y <;> simp [alike]

@[simp] theorem mark_bare (k : Ref) : s.bare.mark k = s.mark k := by
  simp only [mark, get_bare]
  cases s.get k <;> rfl

@[simp] theorem fits_bare (m : Mark) (k : Ref) (e : Entry α) : s.bare.fits m k e = s.fits m k e := by
  simp [fits]

@[simp] theorem find?_bare (m : Mark) (k : Ref) (es : List (Entry α)) :
    s.bare.find? m k es = s.find? m k es := by
  simp only [find?]
  congr 1
  funext e
  exact s.fits_bare m k e

@[simp] theorem put_bare (k : Ref) (v : α) (es : List (Entry α)) :
    s.bare.put k v es = s.put k v es := by
  induction es with
  | nil => simp [put]
  | cons e es ih => simp [put, ih]

@[simp] theorem inner_bare (depth : Nat) (x : Slot) : s.bare.inner depth x = s.inner depth x := by
  induction depth generalizing x with
  | zero => rfl
  | succ depth ih =>
    have same : s.bare.inner depth = s.inner depth := funext ih
    simp only [inner, get?_bare, same]
    rcases s.get? x with _ | v
    · rfl
    · cases v <;> rfl

@[simp] theorem repr_bare (x : Slot) : s.bare.repr x = s.repr x := by
  have same : s.bare.depth = s.depth := by simp [depth, bare]
  rw [repr, repr, same, inner_bare]

@[simp] theorem text_bare (x : Slot) : s.bare.text x = s.text x := by
  simp only [text, get?_bare, repr_bare]
  rcases s.get? x with _ | v
  · rfl
  · cases v <;> rfl

@[simp] theorem prompt_bare (x : Slot) : s.bare.prompt x = s.prompt x := by
  simp only [prompt, get?_bare, text_bare]
  rcases s.get? x with _ | v
  · rfl
  · cases v <;> rfl

end Store

/-! ### Actions that do not depend on places -/

namespace Mem

variable {x : Mem α}

/-- What an action on the store ends in, without places. -/
def bareEnd : EStateM.Result Failure Store α → EStateM.Result Failure Store α
  | .ok a s => .ok a s.bare
  | .error f s => .error f s.bare

/-- On a store without places the action does the same. -/
def Blind (x : Mem α) : Prop := ∀ s, x s.bare = bareEnd (x s)

namespace Blind

variable {f : α → Mem β}

theorem pure (a : α) : Blind (Pure.pure a : Mem α) := fun _ => rfl

theorem throw (f : Failure) : Blind (throw f : Mem α) := fun _ => rfl

theorem ofExcept (z : Except Failure α) : Blind (ofExcept z) := by
  intro s
  cases z <;> rfl

theorem bind_of (hx : Blind x) (hf : ∀ a s s', x s = .ok a s' → Blind (f a)) : Blind (x >>= f) := by
  intro s
  simp only [Bind.bind, EStateM.bind, hx s]
  cases h : x s with
  | ok a s' => exact hf a s s' h s'
  | error e s' => rfl

theorem bind (hx : Blind x) (hf : ∀ a, Blind (f a)) : Blind (x >>= f) :=
  bind_of hx fun a _ _ _ => hf a

theorem map (g : α → β) (hx : Blind x) : Blind (g <$> x) := by
  intro s
  simp only [Functor.map, EStateM.map, hx s]
  cases x s <;> rfl

theorem get_bind {f : Store → Mem α} (hf : ∀ s, Blind (f s)) (h : ∀ s, f s.bare = f s) :
    Blind (get >>= f) := by
  intro s
  have e : (get >>= f : Mem α) s.bare = f s.bare s.bare := rfl
  rw [e, h]
  exact hf s s

theorem read_bind {v : Slot} {f : Option Value → Mem α} (hf : ∀ v, Blind (f v))
    (h : ∀ c d : Closure, f (some (.func c)) = f (some (.func d))) : Blind (read v >>= f) := by
  intro s
  have e : (read v >>= f) s.bare = f (s.bare.get? v) s.bare := rfl
  rw [e, Store.get?_bare, Value.congr_bare h]
  exact hf _ s

theorem alloc (hv : v.bare = v) : Blind (alloc v) := by
  intro s
  have e := s.bare_alloc v
  rw [hv] at e
  simp only [Mem.alloc, e, bareEnd]

theorem write (hv : v.bare = v) (r : Ref) : Blind (write r v) := by
  intro s
  simp only [Mem.write, bareEnd, s.bare_set, hv]

theorem writeSlot (hv : v.bare = v) (y : Slot) : Blind (writeSlot y v) := by
  cases y with
  | none => exact pure ()
  | some r => exact write hv r

end Blind

/-! ### The operators -/

end Mem

/-- A calculation reads numbers or strings, and changes nothing. -/
def Mem.Calculates (f : Slot → Slot → Mem Value) : Prop :=
  ∀ a b s w s', f a b s = .ok w s' → s' = s ∧ w.IsScalar ∧ ∃ v, v.IsScalar ∧ s.get? a = some v

theorem Mem.ofExcept_eq_ok {x : Except Failure α} {a : α} (h : Mem.ofExcept x s = .ok a s') :
    s' = s := by
  unfold Mem.ofExcept at h
  split at h <;> cases h
  rfl

theorem Mem.exists_of_read {x : Slot} {f : Option Value → Mem α} {a : α}
    (h : (Mem.read x >>= f) s = .ok a s') : ∃ v, s.get? x = v ∧ f v s = .ok a s' :=
  ⟨_, rfl, h⟩

theorem Mem.calculates_sum : Calculates Mem.sum := by
  intro a b s w s' h
  obtain ⟨va, ha, h⟩ := Mem.exists_of_read h
  split at h
  · obtain ⟨vb, -, h⟩ := Mem.exists_of_read h
    split at h
    · obtain ⟨k, s₁, hk, h⟩ := exists_of_bind_eq_ok h
      cases h
      exact ⟨Mem.ofExcept_eq_ok hk, .inl ⟨_, rfl⟩, _, .inl ⟨_, rfl⟩, ha⟩
    · cases h
  · obtain ⟨vb, -, h⟩ := Mem.exists_of_read h
    split at h
    · obtain ⟨k, s₁, hk, h⟩ := exists_of_bind_eq_ok h
      cases h
      exact ⟨Mem.ofExcept_eq_ok hk, .inr ⟨_, rfl⟩, _, .inr ⟨_, rfl⟩, ha⟩
    · cases h
      exact ⟨rfl, .inr ⟨_, rfl⟩, _, .inr ⟨_, rfl⟩, ha⟩
    · cases h
  · cases h

theorem Mem.calculates_arithmetic (op : Number → Number → Except Failure Number) :
    Calculates (Mem.arithmetic op) := by
  intro a b s w s' h
  obtain ⟨mn, s₁, hmn, h⟩ := exists_of_bind_eq_ok h
  obtain ⟨k, s₂, hk, h⟩ := exists_of_bind_eq_ok h
  cases h
  obtain rfl := Mem.ofExcept_eq_ok hk
  obtain ⟨va, ha, hmn⟩ := Mem.exists_of_read hmn
  split at hmn
  · obtain ⟨vb, -, hmn⟩ := Mem.exists_of_read hmn
    split at hmn <;> cases hmn
    exact ⟨rfl, .inl ⟨_, rfl⟩, _, .inl ⟨_, rfl⟩, ha⟩
  · cases hmn

namespace Mem

variable {f : Slot → Slot → Mem Value} {a b : Slot} {op : TokenKind} {x : Mem Slot}

theorem blind_newNull : Blind newNull := .alloc rfl

theorem blind_newBool (b : Bool) : Blind (newBool b) := .alloc rfl

theorem blind_newNum (n : Number) : Blind (newNum n) := .alloc rfl

theorem listsEqual_bare (s : Store) (xs ys : List Slot) :
    listsEqual s.bare xs ys = listsEqual s xs ys := by
  induction xs generalizing ys with
  | nil => cases ys <;> rfl
  | cons x xs ih => cases ys <;> simp [listsEqual, ih]

theorem mapsEqual_bare (s : Store) (a b : List (Entry Slot)) :
    mapsEqual s.bare a b = mapsEqual s a b := by
  simp [mapsEqual]

theorem isEqual_bare (s : Store) (v w : Option Value) :
    isEqual s.bare (v.map Value.bare) (w.map Value.bare) = isEqual s v w := by
  rcases v with _ | v <;> rcases w with _ | w
  · rfl
  · rfl
  · rfl
  · cases v <;> cases w <;>
      simp [isEqual, Value.bare, Value.sameKind, listsEqual_bare, mapsEqual_bare]

theorem blind_equals (a b : Slot) : Blind (equals a b) :=
  .get_bind (fun _ => .ofExcept _) fun s => by
    rw [Store.get?_bare, Store.get?_bare, isEqual_bare]

theorem blind_eq (a b : Slot) : Blind (eq a b) := .bind (blind_equals a b) fun _ => blind_newBool _

theorem blind_numbers (left right : OperandError) (a b : Slot) : Blind (numbers left right a b) := by
  refine .read_bind (fun v => ?_) fun _ _ => rfl
  split
  · refine .read_bind (fun w => ?_) fun _ _ => rfl
    split
    · exact .pure _
    · exact .throw _
  · exact .throw _

theorem blind_less (a b : Slot) : Blind (less a b) := .bind (blind_numbers _ _ a b) fun _ => .pure _

theorem blind_lt (a b : Slot) : Blind (lt a b) := .bind (blind_less a b) fun _ => blind_newBool _

theorem blind_le (a b : Slot) : Blind (le a b) :=
  .bind (.bind (blind_numbers _ _ a b) fun _ => .pure _) fun _ => blind_newBool _

theorem blind_sum (a b : Slot) : Blind (sum a b) := by
  refine .read_bind (fun v => ?_) fun _ _ => rfl
  split
  · refine .read_bind (fun w => ?_) fun _ _ => rfl
    split
    · exact .bind (.ofExcept _) fun _ => .pure _
    · exact .throw _
  · refine .read_bind (fun w => ?_) fun _ _ => rfl
    split
    · exact .bind (.ofExcept _) fun _ => .pure _
    · exact .pure _
    · exact .throw _
  · exact .throw _

theorem blind_arithmetic (op : Number → Number → Except Failure Number) (a b : Slot) :
    Blind (arithmetic op a b) :=
  .bind (blind_numbers _ _ a b) fun _ => .bind (.ofExcept _) fun _ => .pure _

theorem Calculates.blind_alloc (hf : Calculates f) (h : Blind (f a b)) : Blind (do alloc (← f a b)) :=
  .bind_of h fun v s s' hv => .alloc (hf a b s v s' hv).2.1.bare_eq

/-- The result of a calculation goes to the cell of an operand. -/
theorem Calculates.blind_writeSlot (hf : Calculates f) (h : Blind (f a b)) :
    Blind (do writeSlot a (← f a b)) :=
  .bind_of h fun v s s' hv => .writeSlot (hf a b s v s' hv).2.1.bare_eq a

theorem blind_add (a b : Slot) : Blind (add a b) := calculates_sum.blind_alloc (blind_sum a b)

theorem blind_truth (a : Slot) : Blind (truth a) := by
  refine .read_bind (fun v => ?_) fun _ _ => rfl
  split
  · exact .pure _
  · exact .pure _
  · exact .pure _
  · exact .throw _

theorem blind_not (a : Slot) : Blind (not a) := .bind (blind_truth a) fun _ => blind_newBool _

theorem blind_negate (a : Slot) : Blind (negate a) :=
  .bind (blind_truth a) fun _ => .bind (.writeSlot rfl a) fun _ => .pure a

/-- No operator looks at places. -/
theorem blind_of_binaryOp? (h : Eval.binaryOp? op a b = some x) : Blind x := by
  have arith := fun op => (calculates_arithmetic op).blind_alloc (blind_arithmetic op a b)
  unfold Eval.binaryOp? at h
  split at h <;> cases h
  · exact .map _ (blind_eq a b)
  · exact .map _ (blind_lt a b)
  · exact .map _ (blind_le a b)
  · exact .map _ (blind_add a b)
  · exact .map _ (arith Number.sub)
  · exact .map _ (arith Number.mul)
  · exact .map _ (arith Number.div)
  · exact .map _ (calculates_sum.blind_writeSlot (blind_sum a b))
  · exact .map _ ((calculates_arithmetic Number.sub).blind_writeSlot (blind_arithmetic _ a b))

theorem blind_of_unaryOp? (h : Eval.unaryOp? op a = some x) : Blind x := by
  unfold Eval.unaryOp? at h
  split at h <;> cases h
  · refine .read_bind (fun v => ?_) fun _ _ => rfl
    split
    · exact .pure _
    · exact .throw _
  · refine .map _ (.read_bind (fun v => ?_) fun _ _ => rfl)
    split
    · exact blind_newNum _
    · exact .throw _
  · exact .map _ (blind_not a)

/-! ### Members -/

theorem listPlace_bare (n : Nat) (key : Option Value) :
    listPlace n (key.map Value.bare) = listPlace n key :=
  Value.congr_bare (fun _ _ => rfl) key

theorem mapKey_bare (s : Store) (key : Slot) : mapKey s.bare key = mapKey s key := by
  cases key with
  | none => rfl
  | some k =>
    simp only [mapKey, Store.get_bare]
    cases s.get k <;> rfl

theorem putEntry_bare (s : Store) (t : Table) (k : Ref) (v : Slot) :
    putEntry s.bare t k v = putEntry s t k v := by
  simp [putEntry]

theorem linkKeys_bare (s : Store) (start last : Ref) (keys : List Ref) :
    linkKeys s.bare start last keys = linkKeys s start last keys := by
  simp [linkKeys]

theorem blind_setMember (c key v : Slot) : Blind (setMember c key v) := by
  refine .get_bind (fun s => ?_) fun s => ?_
  · split
    · exact .bind (.ofExcept _) fun _ => .writeSlot rfl c
    · exact .bind (.ofExcept _) fun _ => .writeSlot rfl c
    · exact .throw _
  · simp only [Store.get?_bare, listPlace_bare, mapKey_bare, putEntry_bare]
    rcases s.get? c with _ | w
    · rfl
    · cases w <;> rfl

theorem blind_member? (c key : Slot) : Blind (member? c key) := by
  refine .get_bind (fun s => ?_) fun s => ?_
  · split
    · exact .bind (.ofExcept _) fun _ => .pure _
    · exact .bind (.ofExcept _) fun _ => .pure _
    · exact .throw _
  · simp only [Store.get?_bare, listPlace_bare, mapKey_bare, Store.mark_bare, Store.find?_bare]
    rcases s.get? c with _ | w
    · rfl
    · cases w <;> rfl

theorem blind_successors (c : Ref) (t : Table) : Blind (successors c t) := by
  unfold successors
  split
  · refine .bind blind_newNull fun start => .bind blind_newNull fun last => ?_
    refine .get_bind (fun s => .bind (.write rfl c) fun _ => .pure _) fun s => ?_
    simp only [linkKeys_bare]
  · split
    · exact .pure _
    · exact .throw _

theorem blind_next (c key : Slot) : Blind (next c key) := by
  have nothing : Blind (do return (some (← newNull), some (← newNull)) : Mem (Slot × Slot)) :=
    .bind blind_newNull fun _ => .bind blind_newNull fun _ => .pure _
  refine .read_bind (fun v => ?_) fun _ _ => by cases c <;> rfl
  split
  · refine .read_bind (fun w => ?_) fun _ _ => rfl
    split
    · split
      · exact nothing
      · exact .bind (blind_newNum _) fun _ => .pure _
    · split
      · split
        · exact .throw _
        · split
          · exact .bind (blind_newNum _) fun _ => .pure _
          · exact .throw _
      · exact nothing
    · exact .throw _
  · refine .get_bind (fun s => ?_) fun s => by simp only [mapKey_bare]
    refine .bind (.ofExcept _) fun k => .bind (blind_successors _ _) fun links => ?_
    refine .get_bind (fun s => ?_) fun s => ?_
    · split
      · exact .throw _
      · split
        · exact .bind blind_newNull fun _ => .pure _
        · split
          · exact .pure _
          · exact .throw _
    · have null : ∀ r, (s.bare.get r).isNull = (s.get r).isNull := fun r => by
        rw [Store.get_bare]
        cases s.get r <;> rfl
      simp only [Store.mark_bare, Store.find?_bare, null]
  · exact nothing

end Mem

end TinyScript
