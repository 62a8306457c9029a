import TinyScript.Proofs.NameFlow
import TinyScript.Proofs.Places
import TinyScript.Proofs.Reachable
import TinyScript.Proofs.StoreEvolution

/-!
# What becomes of a machine

While a record is on the stack, the constants it holds keep their bindings, but for the variables
that a loop binds anew in its own record; and in the records under the innermost one all names stay bound
as constants or variables (`Kept`). A run that ends well leaves the records it found (`Proceeds`); one that
breaks off leaves them under those it was in (`BreaksOff`). The state of the
record at the bottom is the same in the end, unless a run breaks off in a record above it, or in a
jump that has nowhere to go. A good machine binds the name that is watched as a view has it.
`Runs c S W X x Q m`: from the machine `m`, `x` proceeds to a good machine with the view `W` and with `Q`, or
breaks off at a good one for a reason in `X`. One lemma for each action of the machine.
-/

namespace TinyScript

open Exec List CallStack

variable {c : Setting} {S : List String}
variable {x y : String} {S' : List String} {n : Nat}

/-! ### Records -/

/-- No binding, or one with a value, as a constant or not. -/
inductive Fits : Option Bool → Option Binding → Prop
  | none : Fits none none
  | some {b v} : Fits (some b) (some ⟨some v, b⟩)

/-- The records bind the name as the list says. -/
inductive Fitted (x : String) : List (Option Bool) → List Record → Prop
  | nil : Fitted x [] []
  | cons {o V r rs} (h : Fits o (r.get? x)) (hs : Fitted x V rs) : Fitted x (o :: V) (r :: rs)

/-- The innermost binding is the first one that is known. -/
theorem Fitted.exists_binding {V : List (Option Bool)} {rs : List Record} {b : Bool} (h : Fitted x V rs)
    (hb : V.findSome? id = some b) :
    ∃ v, valueOf? x rs = some v ∧ bindingOf? x rs = some ⟨some v, b⟩ := by
  induction h with
  | nil => cases hb
  | @cons o V r rs h _ ih =>
    rw [valueOf?, bindingOf?]
    generalize r.get? x = o' at h ⊢
    cases h with
    | none => exact ih hb
    | @some b' v =>
      cases hb
      exact ⟨v, rfl, rfl⟩

namespace RecordOf

/-- The constants of a record keep their bindings, but for the names in `S`; all names do if `t`
holds, but for their values. -/
structure Keeps (S : List String) (t : Bool) (r r' : Record) : Prop where
  kind : r'.kind = r.kind
  constants : ∀ x b, r.get? x = some b → b.isConst = true → x ∉ S → r'.get? x = some b
  fits : t = true → ∀ x o, Fits o (r.get? x) → Fits o (r'.get? x)

/-- A record whose members and result lead to the first `n` cells. Only variables of a function may
be without a value. -/
structure Good (n : Nat) (r : Record) : Prop where
  sound : r.Sound n
  retval : ∀ v, r.retval = some v → v.index < n
  filled : ∀ x b, r.get? x = some b → b.value = none → r.kind = .function ∧ b.isConst = false

variable {r r' r'' : Record} {x : String} {b : Binding} {n n' : Nat} {t : Bool}

theorem Keeps.of_members (hk : r'.kind = r.kind) (hm : r'.members = r.members) : r.Keeps S t r' :=
  ⟨hk, fun x b hb _ _ => by rwa [get?, hm], fun _ x o ho => by rwa [get?, hm]⟩

theorem Keeps.trans (h : r.Keeps S t r') (h' : r'.Keeps S t r'') : r.Keeps S t r'' where
  kind := h'.kind.trans h.kind
  constants x b hb hc hx := h'.constants x b (h.constants x b hb hc hx) hc hx
  fits ht x o ho := h'.fits ht x o (h.fits ht x o ho)

theorem Keeps.widen (h : r.Keeps S t r') (hS : S ⊆ S') : r.Keeps S' false r' where
  kind := h.kind
  constants x b hb hc hx := h.constants x b hb hc fun hm => hx (hS hm)
  fits ht := by cases ht

/-- A name may be bound anew if it is no constant, or one of `S`. -/
theorem Keeps.set (h : x ∈ S ∨ ∀ b', r.get? x = some b' → b'.isConst = false)
    (ht : t = true → ∃ b', r.get? x = some b' ∧ b.isConst = b'.isConst ∧ b.value.isSome = true) :
    r.Keeps S t (r.set x b) := by
  refine ⟨rfl, fun y b' hb hc hy => ?_, fun e y o ho => ?_⟩
  · rw [get?_set, if_neg, hb]
    rintro rfl
    rcases h with h | h
    · exact hy h
    · rw [h b' hb] at hc
      cases hc
  · rw [get?_set]
    split
    · rename_i hy
      subst hy
      obtain ⟨b', hb', hc, hv⟩ := ht e
      obtain ⟨_ | v, k⟩ := b
      · cases hv
      · rw [hb'] at ho
        cases ho
        cases hc
        exact .some
    · exact ho

/-- A new record leads nowhere. -/
theorem good_new (n : Nat) (name : String) (kind : RecordKind) :
    Good n { name := name, kind := kind } := by
  refine ⟨fun e he => absurd he not_mem_nil, fun v hv => ?_, fun x b hb => ?_⟩
  · cases hv
  · cases hb

theorem Good.mono (h : r.Good n) (hn : n ≤ n') : r.Good n' :=
  ⟨h.sound.mono hn, fun v hv => Nat.lt_of_lt_of_le (h.retval v hv) hn, h.filled⟩

theorem Good.set (h : r.Good n)
    (hb : Live n b.value ∨ b.value = none ∧ r.kind = .function ∧ b.isConst = false) :
    (r.set x b).Good n := by
  refine ⟨h.sound.set x fun v hv => ?_, h.retval, fun y b' hb' hv => ?_⟩
  · rcases hb with hb | ⟨hb, -⟩
    · rw [hv] at hb
      exact hb.index_lt
    · cases hv.symm.trans hb
  · rw [get?_set] at hb'
    split at hb'
    · cases hb'
      rcases hb with ⟨q, hb, -⟩ | hb
      · cases hv.symm.trans hb
      · exact hb.2
    · exact h.filled y b' hb' hv

theorem Good.setParam (h : r.Good n) (hk : r.kind = .function) {v : Slot}
    (hv : ∀ q, v = some q → q.index < n) : (r.set x ⟨v, false⟩).Good n := by
  cases v with
  | none => exact h.set (.inr ⟨rfl, hk, rfl⟩)
  | some q => exact h.set (.inl (.some (hv q rfl)))

end RecordOf

/-- Every record of a stack keeps its constants; in the innermost one names of `S` may be bound
anew, and unless `t` holds others may be added. -/
inductive Kept : List String → Bool → List Record → List Record → Prop
  | nil {T : List String} {t : Bool} : Kept T t [] []
  | cons {T : List String} {t : Bool} {r r' : Record} {rs rs' : List Record} (h : r.Keeps T t r')
      (hs : Kept [] true rs rs') : Kept T t (r :: rs) (r' :: rs')

namespace Kept

variable {rs rs' rs'' : List Record} {t : Bool}

theorem refl (rs : List Record) : Kept S t rs rs := by
  induction rs generalizing S t with
  | nil => exact .nil
  | cons r rs ih => exact .cons (.of_members rfl rfl) ih

theorem trans (h : Kept S t rs rs') (h' : Kept S t rs' rs'') : Kept S t rs rs'' := by
  induction h generalizing rs'' with
  | nil => exact h'
  | cons h _ ih =>
    cases h' with
    | cons h₁ hs₁ => exact .cons (h.trans h₁) (ih hs₁)

theorem widen (h : Kept S t rs rs') (hS : S ⊆ S') : Kept S' false rs rs' := by
  cases h with
  | nil => exact .nil
  | cons h hs => exact .cons (h.widen hS) hs

theorem length_eq (h : Kept S t rs rs') : rs'.length = rs.length := by
  induction h with
  | nil => rfl
  | cons _ _ ih => rw [length_cons, length_cons, ih]

theorem kind_getLast? (h : Kept S t rs rs') :
    rs'.getLast?.map (·.kind) = rs.getLast?.map (·.kind) := by
  induction h with
  | nil => rfl
  | @cons S t r r' rs rs' h hs ih =>
    cases hs with
    | nil => exact congrArg some h.kind
    | cons => simpa only [getLast?_cons_cons] using ih

theorem get (h : Kept S t rs rs') {i : Nat} {r : Record} (hr : rs[i]? = some r) :
    ∃ r', rs'[i]? = some r' ∧ r.Keeps (if i = 0 then S else []) false r' := by
  induction h generalizing i with
  | nil => cases hr
  | cons h _ ih =>
    cases i with
    | zero =>
      cases hr
      exact ⟨_, rfl, h.widen (List.Subset.refl _)⟩
    | succ i =>
      obtain ⟨r', hr', hk⟩ := ih hr
      refine ⟨r', hr', ?_⟩
      rw [if_neg (Nat.succ_ne_zero i)]
      rwa [ite_self] at hk

theorem fitted (h : Kept S true rs rs') {V : List (Option Bool)} (hV : Fitted x V rs) :
    Fitted x V rs' := by
  generalize ht : true = t at h
  induction h generalizing V with
  | nil => exact hV
  | cons h _ ih =>
    cases hV with
    | cons ho hV => exact .cons (h.fits ht.symm _ _ ho) (ih hV rfl)

end Kept

namespace CallStack

variable {rs : List Record} {x : String} {b : Binding} {t : Bool}
variable {goal : RecordKind}

theorem kept_rebind (hb : bindingOf? x rs = some b) (hc : b.isConst = false) {v : Slot}
    (hv : v.isSome = true) : Kept S t rs (rebind x v rs) := by
  induction rs generalizing S t with
  | nil => cases hb
  | cons r rs ih =>
    simp only [bindingOf?] at hb
    simp only [rebind]
    split at hb
    · rename_i b' hb'
      cases hb
      refine .cons (.set (.inr fun b₁ h₁ => ?_) fun _ => ⟨b, hb', rfl, hv⟩) (.refl _)
      rw [hb'] at h₁
      cases h₁
      exact hc
    · exact .cons (.of_members rfl rfl) (ih hb)

theorem kept_rebind_top {r : Record} (hr : r.has x = true) {v : Slot} (hv : v.isSome = true) :
    Kept [x] t (r :: rs) (rebind x v (r :: rs)) := by
  obtain ⟨b', hb'⟩ := Option.isSome_iff_exists.1 hr
  simp only [rebind, hb']
  exact .cons (.set (.inl (by simp)) fun _ => ⟨b', hb', rfl, hv⟩) (.refl _)

theorem kept_jump (st : RecordState) (goal : RecordKind) (rs : List Record) :
    Kept S t rs (jump st goal rs).records := by
  induction rs generalizing S t with
  | nil => exact .nil
  | cons r rs ih =>
    simp only [jump]
    split
    · exact .cons (.of_members rfl rfl) (.refl _)
    · split
      · exact .cons (.of_members rfl rfl) (.refl _)
      · exact .cons (.of_members rfl rfl) ih

theorem kept_setRetval (v : Slot) (rs : List Record) : Kept S t rs (setRetval v rs) := by
  induction rs generalizing S t with
  | nil => exact .nil
  | cons r rs ih =>
    simp only [setRetval]
    split
    · exact .cons (.of_members rfl rfl) (.refl _)
    · exact .cons (.of_members rfl rfl) ih

/-- The state of the record at the bottom. -/
def ground (rs : List Record) : Option RecordState := rs.getLast?.map (·.state)

theorem ground_cons (r : Record) (h : rs ≠ []) : ground (r :: rs) = ground rs := by
  cases rs with
  | nil => exact absurd rfl h
  | cons r' rs => rw [ground, getLast?_cons_cons, ground]

theorem jump_ne_nil {st : RecordState} (h : rs ≠ []) : (jump st goal rs).records ≠ [] := by
  cases rs with
  | nil => exact absurd rfl h
  | cons r rs =>
    simp only [jump]
    split
    · exact cons_ne_nil _ _
    · split <;> exact cons_ne_nil _ _

/-- A jump comes to the program at the bottom only if it does not find where to go. -/
theorem ground_jump (st : RecordState) (hg : goal ≠ .program)
    (hp : rs.getLast?.map (·.kind) = some .program) :
    ground (jump st goal rs).records = ground rs ∨
      (jump st goal rs).found = false ∧ ground (jump st goal rs).records = some st := by
  induction rs with
  | nil => exact .inl rfl
  | cons r rs ih =>
    by_cases hrs : rs = []
    · subst hrs
      have hk : r.kind = .program := Option.some.inj hp
      rw [jump, hk, if_neg hg.symm, if_neg (by decide)]
      exact .inr ⟨rfl, rfl⟩
    · rw [getLast?_cons, getLast?_eq_some_getLast hrs] at hp
      rw [getLast?_eq_some_getLast hrs] at ih
      simp only [jump]
      split
      · exact .inl (by rw [ground_cons _ hrs, ground_cons _ hrs])
      · split
        · exact .inl (by rw [ground_cons _ hrs, ground_cons _ hrs])
        · rw [ground_cons _ (jump_ne_nil hrs), ground_cons _ hrs]
          exact ih hp

theorem ground_setRetval (v : Slot) (rs : List Record) : ground (setRetval v rs) = ground rs := by
  induction rs with
  | nil => rfl
  | cons r rs ih =>
    simp only [setRetval]
    split
    · cases rs with
      | nil => rfl
      | cons => rw [ground_cons _ (cons_ne_nil _ _), ground_cons _ (cons_ne_nil _ _)]
    · cases rs with
      | nil => rfl
      | cons r' rs =>
        rw [ground_cons _ (cons_ne_nil _ _), ← ih]
        refine ground_cons _ ?_
        simp only [setRetval]
        split <;> exact cons_ne_nil _ _

theorem ground_rebind (x : String) (v : Slot) (rs : List Record) :
    ground (rebind x v rs) = ground rs := by
  have tags := congrArg List.getLast? (tag_rebind x v rs)
  rw [getLast?_map, getLast?_map] at tags
  have states := congrArg (Option.map (·.state)) tags
  rw [Option.map_map, Option.map_map] at states
  exact states

end CallStack

open CallStack (ground ground_cons)

/-! ### Machines -/

/-- A jump found no loop or function to go to. -/
def Halt.IsStray (e : Halt) : Prop :=
  ∃ p w, w ∈ ["break", "continue", "return"] ∧
    e = .failed (.report ⟨.interpreter, p, .invalidSyntax w⟩)

/-- A good store, records that lead to its cells and bind the watched name as the view has it, and a
program at the bottom. -/
structure MachineOf.Good (c : Setting) (W : View) (m : Machine) : Prop where
  store : m.store.Good c
  records : ∀ r ∈ m.stack.records, r.Good m.store.cells.size
  program : m.stack.records.getLast?.map (·.kind) = some .program
  level : m.level = c.level
  shows : ∀ x ∈ c.watched, ∀ V ∈ W, Fitted x V m.stack.records

structure Proceeds (c : Setting) (S : List String) (m m' : Machine) : Prop where
  store : m.store.Evolves c m'.store
  records : Kept S false m.stack.records m'.stack.records
  ground : ground m'.stack.records = ground m.stack.records

structure BreaksOff (c : Setting) (S : List String) (e : Halt) (m m' : Machine) : Prop where
  store : m.store.Evolves c m'.store
  records : ∃ top base, m'.stack.records = top ++ base ∧ Kept S false m.stack.records base ∧
    (top ≠ [] ∨ ground base = ground m.stack.records ∨
      e.IsStray ∧ ∃ st, st ≠ .normal ∧ ground base = some st)

variable {W W' : View} {m m' m'' : Machine} {e : Halt}

theorem MachineOf.Good.records_ne_nil (h : m.Good c W) : m.stack.records ≠ [] := by
  intro e
  have := h.program
  rw [e] at this
  cases this

theorem MachineOf.Good.blind (h : m.Good c W) : m.Good c none :=
  ⟨h.store, h.records, h.program, h.level, fun _ _ _ hV => by cases hV⟩

theorem MachineOf.Good.exists_binding (h : m.Good c W) {b : Bool} (hx : c.watched = some x)
    (hb : W.found = some b) : ∃ v, valueOf? x m.stack.records = some v ∧
      bindingOf? x m.stack.records = some ⟨some v, b⟩ := by
  obtain ⟨V, hV, hb⟩ := Option.bind_eq_some_iff.1 hb
  exact (h.shows x hx V hV).exists_binding hb

theorem MachineOf.Good.congr (h : m.Good c W) (hs : m'.store = m.store)
    (hr : m'.stack.records = m.stack.records) (hl : m'.level = m.level) : m'.Good c W := by
  refine ⟨by rw [hs]; exact h.store, ?_, by rw [hr]; exact h.program, hl.trans h.level,
    by rw [hr]; exact h.shows⟩
  rw [hs, hr]
  exact h.records

theorem MachineOf.Good.restore (h : m.Good c W) {s : Store} (hs : s.Good c)
    (ev : m.store.Evolves c s) : { m with store := s }.Good c W :=
  ⟨hs, fun r hr => (h.records r hr).mono ev.size, h.program, h.level, h.shows⟩

theorem MachineOf.Good.restack (h : m.Good c W) {cs : CallStack}
    (hr : ∀ r ∈ cs.records, r.Good m.store.cells.size)
    (hk : Kept S true m.stack.records cs.records) : { m with stack := cs }.Good c W :=
  ⟨h.store, hr, hk.kind_getLast?.trans h.program, h.level,
    fun x hx V hV => hk.fitted (h.shows x hx V hV)⟩

/-- What is known inside a new record. -/
inductive Enters (w : Option String) (r : Record) (W : View) : View → Prop
  | unknown : Enters w r W none
  | known {o} (h : ∀ x ∈ w, Fits o (r.get? x)) : Enters w r W (W.push o)

theorem MachineOf.Good.push (h : m.Good c W) {r : Record} (hr : r.Good m.store.cells.size)
    (hW : Enters c.watched r W W') : { m with stack := m.stack.push r }.Good c W' := by
  refine ⟨h.store, forall_mem_cons.2 ⟨⟨hr.sound, hr.retval, hr.filled⟩, h.records⟩, ?_, h.level,
    fun x hx V hV => ?_⟩
  · obtain ⟨r₁, rs₁, hrs⟩ := exists_cons_of_ne_nil h.records_ne_nil
    have := h.program
    rw [hrs] at this
    rw [CallStackOf.push, hrs, getLast?_cons_cons, this]
  · cases hW with
    | unknown => cases hV
    | known ho =>
      obtain ⟨V₀, hV₀, rfl⟩ := Option.map_eq_some_iff.1 hV
      exact .cons (ho x hx) (h.shows x hx V₀ hV₀)

namespace Proceeds

theorem refl : Proceeds c S m m := ⟨.refl, .refl _, rfl⟩

theorem trans (h : Proceeds c S m m') (h' : Proceeds c S m' m'') : Proceeds c S m m'' :=
  ⟨h.store.trans h'.store, h.records.trans h'.records, h'.ground.trans h.ground⟩

theorem widen (h : Proceeds c S m m') (hS : S ⊆ S') : Proceeds c S' m m' :=
  ⟨h.store, h.records.widen hS, h.ground⟩

theorem breaksOff (h : Proceeds c S m m') (h' : BreaksOff c S e m' m'') :
    BreaksOff c S e m m'' := by
  obtain ⟨top, base, hr, hk, hg⟩ := h'.records
  exact ⟨h.store.trans h'.store, top, base, hr, h.records.trans hk, by rwa [h.ground] at hg⟩

theorem live {v : Slot} (h : Proceeds c S m m') (hv : Live m.store.cells.size v) :
    Live m'.store.cells.size v := hv.mono h.store.size

theorem of_eq (hs : m'.store = m.store) (hr : m'.stack.records = m.stack.records) :
    Proceeds c S m m' :=
  ⟨by rw [hs]; exact .refl, by rw [hr]; exact .refl _, by rw [hr]⟩

end Proceeds

theorem Proceeds.halt (h : Proceeds c S m m') : BreaksOff c S e m m' :=
  ⟨h.store, [], _, rfl, h.records, .inr (.inl h.ground)⟩

/-- Another reason, where the first one was no stray jump. -/
theorem BreaksOff.turn {e' : Halt} (h : BreaksOff c S e m m') (he : ¬e.IsStray) :
    BreaksOff c S e' m m' := by
  obtain ⟨top, base, hr, hk, hg⟩ := h.records
  refine ⟨h.store, top, base, hr, hk, ?_⟩
  rcases hg with hg | hg | hg
  · exact .inl hg
  · exact .inr (.inl hg)
  · exact absurd hg.1 he

theorem BreaksOff.widen (h : BreaksOff c S e m m') (hS : S ⊆ S') : BreaksOff c S' e m m' := by
  obtain ⟨top, base, hr, hk, hg⟩ := h.records
  exact ⟨h.store, top, base, hr, hk.widen hS, hg⟩

/-! ### Runs -/

variable {α β : Type}

def Runs (c : Setting) (S : List String) (W : View) (X : Halt → Prop) (x : Exec α)
    (Q : α → Machine → Prop) (m : Machine) : Prop :=
  wp x (fun a m' => m'.Good c W ∧ Proceeds c S m m' ∧ Q a m')
    (fun e m' => m'.Good c none ∧ BreaksOff c S e m m' ∧ X e) m

namespace Runs

variable {X : Halt → Prop} {x : Exec α} {Q : α → Machine → Prop}
variable {R : β → Machine → Prop} {Y : Halt → Prop}

theorem pure {a : α} (hm : m.Good c W) (h : Q a m) : Runs c S W X (Pure.pure a) Q m :=
  (wp_pure a).2 ⟨hm, .refl, h⟩

theorem throw (hm : m.Good c W') (h : X e) : Runs c S W X (MonadExcept.throw e : Exec α) Q m :=
  (wp_throw e).2 ⟨hm.blind, Proceeds.refl.halt, h⟩

theorem bind {f : α → Exec β} (hx : Runs c S W X x Q m)
    (hf : ∀ a m', m'.Good c W → Proceeds c S m m' → Q a m' → Runs c S W' X (f a) R m') :
    Runs c S W' X (x >>= f) R m := by
  refine wp_bind.2 (wp_mono hx (fun a m₁ h₁ => ?_) fun _ _ h => h)
  obtain ⟨hm₁, hp₁, hq⟩ := h₁
  refine wp_mono (hf a m₁ hm₁ hp₁ hq) (fun b m₂ h₂ => ?_) fun e m₂ h₂ => ?_
  · exact ⟨h₂.1, hp₁.trans h₂.2.1, h₂.2.2⟩
  · exact ⟨h₂.1, hp₁.breaksOff h₂.2.1, h₂.2.2⟩

theorem mono {R : α → Machine → Prop} (hx : Runs c S W X x Q m) (hQ : ∀ a m', Q a m' → R a m')
    (hX : ∀ e, X e → Y e) : Runs c S W Y x R m :=
  wp_mono hx (fun a m' h => ⟨h.1, h.2.1, hQ a m' h.2.2⟩) fun e _ h => ⟨h.1, h.2.1, hX e h.2.2⟩

theorem failing (hx : Runs c S W X x Q m) (hX : ∀ e, X e → Y e) : Runs c S W Y x Q m :=
  hx.mono (fun _ _ h => h) hX

theorem left {R : α → Machine → Prop} (hx : Runs c S W X x (fun a m' => Q a m' ∧ R a m') m) :
    Runs c S W X x Q m :=
  hx.mono (fun _ _ h => h.1) fun _ h => h

theorem blind (hx : Runs c S W X x Q m) : Runs c S none X x Q m :=
  wp_mono hx (fun _ _ h => ⟨h.1.blind, h.2⟩) fun _ _ h => h

theorem forget (hx : Runs c S W X x Q m) : Runs c S W X x (fun _ _ => True) m :=
  hx.mono (fun _ _ _ => trivial) fun _ h => h

theorem widen (hx : Runs c [] W X x Q m) : Runs c S W X x Q m :=
  wp_mono hx (fun _ _ h => ⟨h.1, h.2.1.widen (nil_subset S), h.2.2⟩)
    fun _ _ h => ⟨h.1, h.2.1.widen (nil_subset S), h.2.2⟩

theorem get {f : Machine → Exec α} (h : Runs c S W X (f m) Q m) :
    Runs c S W X (MonadState.get >>= f) Q m := wp_bind.2 (wp_get.2 h)

theorem map {g : α → β} (hx : Runs c S W X x Q m) (h : ∀ a m', Q a m' → R (g a) m') :
    Runs c S W X (g <$> x) R m :=
  bind (f := fun a => Pure.pure (g a)) hx fun a m' hm' _ hq => pure hm' (h a m' hq)

theorem mem {z : Mem α} {P : α → Store → Prop} {Y : Failure → Prop} (hm : m.Good c W)
    (hz : Mem.Acts c z P Y m.store) (hX : ∀ f, Y f → X (.failed f)) :
    Runs c S W X (Exec.mem z) (fun a m' => P a m'.store) m := by
  unfold Mem.Acts at hz
  cases h : z m.store with
  | ok a s =>
    rw [h] at hz
    obtain ⟨hs, ev, hP⟩ := hz
    have run : Exec.mem z m = .ok a { m with store := s } := by simp only [Exec.mem, h]
    exact (wp_of_ok run).2 ⟨hm.restore hs ev, ⟨ev, .refl _, rfl⟩, hP⟩
  | error f s =>
    rw [h] at hz
    obtain ⟨hs, ev, hY⟩ := hz
    have run : Exec.mem z m = .error (.failed f) { m with store := s } := by simp only [Exec.mem, h]
    exact (wp_of_error run).2
      ⟨(hm.restore hs ev).blind, Proceeds.halt ⟨ev, .refl _, rfl⟩, hX f hY⟩

theorem ofExcept {z : Except Failure α} {Y : Failure → Prop} (hm : m.Good c W)
    (hQ : ∀ a, z = .ok a → Q a m) (hz : FailsOnly Y z) (hX : ∀ f, Y f → X (.failed f)) :
    Runs c S W X (Exec.ofExcept z) Q m := by
  cases z with
  | ok a => exact (wp_ofExcept_ok a).2 ⟨hm, .refl, hQ a rfl⟩
  | error f => exact (wp_ofExcept_error f).2 ⟨hm.blind, Proceeds.refl.halt, hX f (hz f rfl)⟩

/-! ### Output and input -/

theorem emit (hm : m.Good c W) (s : String) : Runs c S W X (Exec.emit s) (fun _ _ => True) m :=
  (wp_emit s).2 ⟨hm.congr rfl rfl rfl, .of_eq rfl rfl, trivial⟩

/-- The message goes to the output, and nothing else is changed. -/
theorem log (hm : m.Good c W) (l : LogLevel) (s : String) :
    Runs c S W X (Exec.log l s) (fun _ m' => m'.stack = m.stack ∧ m'.store = m.store) m := by
  have run : Exec.log l s m = .ok () { m with out := m.out ++ l.log m.level s } := rfl
  exact (wp_of_ok run).2 ⟨hm.congr rfl rfl rfl, .of_eq rfl rfl, rfl, rfl⟩

/-- The call stack is listed only where messages for debugging are written. -/
theorem logStack (hm : m.Good c W) (hX : LogLevel.debug.shows c.level = true → ∀ f, X (.failed f)) :
    Runs c S W X Exec.logStack (fun _ m' => m'.stack = m.stack ∧ m'.store = m.store) m := by
  refine get ?_
  rw [hm.level]
  split
  · rename_i hd
    have listing : Runs c S W X Exec.stackListing (fun _ m' => m' = m) m := by
      have same : (Exec.stackListing : Exec String) m =
          Exec.ofExcept (m.stack.render m.store) m := rfl
      refine (wp_congr same).2 ?_
      exact ofExcept (Y := fun _ => True) hm (fun _ _ => rfl) (fun _ _ => trivial) fun f _ => hX hd f
    refine bind listing fun s m₁ hm₁ _ h₁ => (wp_emit _).2 ?_
    subst h₁
    exact ⟨hm₁.congr rfl rfl rfl, .of_eq rfl rfl, rfl, rfl⟩
  · exact pure hm ⟨rfl, rfl⟩

theorem note (hm : m.Good c W) (hX : LogLevel.debug.shows c.level = true → ∀ f, X (.failed f))
    (s : String) : Runs c S W X (do Exec.log .debug s; Exec.logStack)
      (fun _ m' => m'.stack = m.stack ∧ m'.store = m.store) m := by
  refine bind (log hm _ s) fun _ m₁ hm₁ _ h₁ => ?_
  exact (logStack hm₁ hX).mono (fun _ _ h => ⟨h.1.trans h₁.1, h.2.trans h₁.2⟩) fun _ h => h

theorem readLine (hm : m.Good c W) (hX : X (.failed (.fault .endOfInput))) :
    Runs c S W X Exec.readLine (fun _ _ => True) m := by
  cases h : m.input with
  | nil =>
    have run : (Exec.readLine : Exec String) m = .error (.failed (.fault .endOfInput)) m := by
      simp only [Exec.readLine, h]
      rfl
    exact (wp_of_error run).2 ⟨hm.blind, Proceeds.refl.halt, hX⟩
  | cons ch cs =>
    have run : (Exec.readLine : Exec String) m =
        .ok (String.ofList ((ch :: cs).takeWhile (· ≠ '\n')))
          { m with input := ((ch :: cs).dropWhile (· ≠ '\n')).tail } := by
      simp only [Exec.readLine, h]
    exact (wp_of_ok run).2 ⟨hm.congr rfl rfl rfl, .of_eq rfl rfl, trivial⟩

/-- Some failures are turned into others, all else is passed on. -/
theorem turn {k : Handled} {handle : k.Error → Exec α} (hx : Runs c S W Y x Q m)
    (hh : ∀ o m', ∃ e', handle o m' = .error e' m' ∧ X e')
    (hX : ∀ e, Y e → (¬∃ o, e = .failed (k.failure o)) → X e) : Runs c S W X (k.turn handle x) Q m := by
  unfold Runs at hx
  cases h : x m with
  | ok a m₁ => exact (wp_of_ok (Handled.turn_ok h)).2 ((wp_of_ok h).1 hx)
  | error e m₁ =>
    obtain ⟨hm₁, hb, hy⟩ := (wp_of_error h).1 hx
    by_cases he : ∃ o, e = .failed (k.failure o)
    · obtain ⟨o, rfl⟩ := he
      obtain ⟨e', he', hX'⟩ := hh o m₁
      refine (wp_of_error ((Handled.turn_failure h).trans he')).2 ⟨hm₁, hb.turn ?_, hX'⟩
      rintro ⟨p, w, -, h⟩
      cases k <;> cases h
    · exact (wp_of_error (Handled.turn_other h he)).2 ⟨hm₁, hb, hX e hy he⟩

/-! ### Records -/

theorem modifyStack {g : CallStack → CallStack} (hm : m.Good c W)
    (hr : ∀ r ∈ (g m.stack).records, r.Good m.store.cells.size)
    (hk : Kept S true m.stack.records (g m.stack).records)
    (hg : ground (g m.stack).records = ground m.stack.records) :
    Runs c S W X (Exec.modifyStack g) (fun _ m' => m' = { m with stack := g m.stack }) m :=
  (wp_modifyStack g).2 ⟨hm.restack hr hk, ⟨.refl, hk.widen (List.Subset.refl _), hg⟩, rfl⟩

theorem exists_records (hm : m.Good c W) : ∃ r rs, m.stack.records = r :: rs :=
  exists_cons_of_ne_nil hm.records_ne_nil

theorem currentRecord {r : Record} {rs : List Record} (hm : m.Good c W)
    (hr : m.stack.records = r :: rs) :
    Runs c S W X Exec.currentRecord (fun r' m' => r' = r ∧ m' = m) m := by
  have hc : m.stack.current? = some r := by rw [CallStackOf.current?, hr]; rfl
  refine get ?_
  rw [hc]
  exact pure hm ⟨rfl, rfl⟩

/-- Binding a name in the innermost record, where it is no constant or one of `S`. -/
theorem bindTop {r : Record} {rs : List Record} (hm : m.Good c W) (hr : m.stack.records = r :: rs)
    {b : Binding} (hb : Live m.store.cells.size b.value)
    (hy : y ∈ S ∨ ∀ b', r.get? y = some b' → b'.isConst = false) :
    Runs c S (W.set c.watched y b.isConst) X (Exec.modifyStack (·.modifyTop (·.set y b)))
      (fun _ m' => m'.store = m.store ∧ m'.stack.records = r.set y b :: rs) m := by
  have e : (m.stack.modifyTop (·.set y b)).records = r.set y b :: rs := by
    simp only [CallStackOf.modifyTop, hr]
  have kept : Kept S false m.stack.records (r.set y b :: rs) := by
    rw [hr]
    exact .cons (.set hy fun h => by cases h) (.refl _)
  have good := hm.records
  rw [hr] at good
  obtain ⟨hr₁, hrs⟩ := forall_mem_cons.1 good
  refine (wp_modifyStack _).2 ⟨⟨hm.store, ?_, ?_, hm.level, fun x hx V hV => ?_⟩, ⟨.refl, ?_, ?_⟩, rfl, e⟩
  · show ∀ r' ∈ (m.stack.modifyTop (·.set y b)).records, _
    rw [e]
    exact forall_mem_cons.2 ⟨hr₁.set (.inl hb), hrs⟩
  · show (m.stack.modifyTop (·.set y b)).records.getLast?.map _ = _
    rw [e, kept.kind_getLast?, hm.program]
  · have shows := hm.shows x hx
    rw [hr] at shows
    show Fitted x V (m.stack.modifyTop (·.set y b)).records
    rw [e]
    rw [Option.mem_def.1 hx, View.set] at hV
    by_cases hxy : x = y
    · subst hxy
      rw [if_pos rfl] at hV
      obtain ⟨V₀, hV₀, rfl⟩ := Option.map_eq_some_iff.1 hV
      cases shows V₀ hV₀ with
      | cons _ hs =>
        refine .cons ?_ hs
        obtain ⟨v, k⟩ := b
        obtain ⟨q, rfl, -⟩ := hb
        rw [RecordOf.get?_set, if_pos rfl]
        exact .some
    · rw [if_neg fun h => hxy (Option.some.inj h)] at hV
      cases shows V hV with
      | cons h hs =>
        refine .cons ?_ hs
        rwa [RecordOf.get?_set, if_neg hxy]
  · show Kept S false m.stack.records (m.stack.modifyTop (·.set y b)).records
    rwa [e]
  · show ground (m.stack.modifyTop (·.set y b)).records = _
    rw [e, hr]
    cases rs with
    | nil => rfl
    | cons => rw [ground_cons _ (cons_ne_nil _ _), ground_cons _ (cons_ne_nil _ _)]

/-- Marking the innermost record, where it is not the one at the bottom. -/
theorem setState {r r₁ : Record} {rs : List Record} (hm : m.Good c W)
    (hr : m.stack.records = r :: r₁ :: rs) (st : RecordState) :
    Runs c S W X (Exec.setState st) (fun _ _ => True) m := by
  have e : (m.stack.modifyTop fun r => { r with state := st }).records =
      { r with state := st } :: r₁ :: rs := by
    simp only [CallStackOf.modifyTop, hr]
  have good := hm.records
  rw [hr] at good
  obtain ⟨⟨hs, hv, hf⟩, hrs⟩ := forall_mem_cons.1 good
  refine (modifyStack hm ?_ ?_ ?_).forget
  · rw [e]
    exact forall_mem_cons.2 ⟨⟨hs, hv, hf⟩, hrs⟩
  · rw [e, hr]
    exact .cons (.of_members rfl rfl) (.refl _)
  · rw [e, hr, ground_cons _ (cons_ne_nil _ _), ground_cons _ (cons_ne_nil _ _)]

theorem noteJump (hm : m.Good c W) (name what : String) :
    Runs c S W X (Exec.noteJump name what) (fun _ _ => True) m := (log hm _ _).forget

theorem noteJumps (hm : m.Good c W) (what : String) (names : List String) :
    Runs c S W X (Exec.noteJumps what names)
      (fun _ m' => m'.stack = m.stack ∧ m'.store = m.store) m := by
  induction names generalizing m with
  | nil => exact pure hm ⟨rfl, rfl⟩
  | cons name names ih =>
    refine bind (log hm _ _) fun _ m₁ hm₁ _ h₁ => ?_
    exact (ih hm₁).mono (fun _ _ h => ⟨h.1.trans h₁.1, h.2.trans h₁.2⟩) fun _ h => h

theorem getName (hm : m.Good c W) (y : String) (p : Position)
    (hy : c.watched = some y → W.found.isSome = true)
    (hX : c.watched ≠ some y → X (.failed (.report ⟨.interpreter, p, .nameNotDeclared y⟩))) :
    Runs c S W X (Exec.getName y p) (fun v m' => Live m'.store.cells.size v) m := by
  refine get ?_
  split
  · rename_i r hr
    exact pure hm (.some (lt_of_valueOf? (fun r hr => (hm.records r hr).sound) hr))
  · rename_i hr
    refine throw hm (hX fun hw => ?_)
    obtain ⟨b, hb⟩ := Option.isSome_iff_exists.1 (hy hw)
    obtain ⟨v, hv, -⟩ := hm.exists_binding hw hb
    cases hv.symm.trans hr

end Runs

theorem good_rebind {rs : List Record} (h : ∀ r ∈ rs, r.Good n) {v : Slot} (hv : Live n v) (x : String) :
    ∀ r ∈ rebind x v rs, r.Good n := by
  induction rs with
  | nil => exact h
  | cons r rs ih =>
    obtain ⟨hr, hrs⟩ := forall_mem_cons.1 h
    simp only [rebind]
    split
    · exact forall_mem_cons.2 ⟨hr.set (.inl hv), hrs⟩
    · exact forall_mem_cons.2 ⟨hr, ih hrs⟩

theorem good_jump {rs : List Record} (h : ∀ r ∈ rs, r.Good n) (st : RecordState) (goal : RecordKind) :
    ∀ r ∈ (jump st goal rs).records, r.Good n := by
  induction rs with
  | nil => exact h
  | cons r rs ih =>
    obtain ⟨⟨hs, hv, hf⟩, hrs⟩ := forall_mem_cons.1 h
    have hr : { r with state := st }.Good n := ⟨hs, hv, hf⟩
    simp only [jump]
    split
    · exact forall_mem_cons.2 ⟨hr, hrs⟩
    · split
      · exact forall_mem_cons.2 ⟨hr, hrs⟩
      · exact forall_mem_cons.2 ⟨hr, ih hrs⟩

theorem good_setRetval {rs : List Record} (h : ∀ r ∈ rs, r.Good n) {v : Slot} (hv : Live n v) :
    ∀ r ∈ setRetval v rs, r.Good n := by
  induction rs with
  | nil => exact h
  | cons r rs ih =>
    obtain ⟨hr, hrs⟩ := forall_mem_cons.1 h
    simp only [setRetval]
    split
    · obtain ⟨q, rfl, hq⟩ := hv
      exact forall_mem_cons.2 ⟨⟨hr.sound, fun _ e => by cases e; exact hq, hr.filled⟩, hrs⟩
    · exact forall_mem_cons.2 ⟨hr, ih hrs⟩

namespace Runs

variable {X : Halt → Prop} {x : Exec α} {Q : α → Machine → Prop}

/-- An assignment changes no constant. -/
theorem setName (hm : m.Good c W) (p : Position) {v : Slot} (hv : Live m.store.cells.size v)
    (hy : c.watched = some y → W.found = some false)
    (hX : c.watched ≠ some y → ∀ i ∈ [Issue.nameNotDeclared y, .nameNotAssignable y],
      X (.failed (.report ⟨.interpreter, p, i⟩))) :
    Runs c S W X (Exec.setName y p v false) (fun _ _ => True) m := by
  have found (hw : c.watched = some y) :
      ∃ v, bindingOf? y m.stack.records = some ⟨some v, false⟩ := by
    obtain ⟨v, -, hb⟩ := hm.exists_binding hw (hy hw)
    exact ⟨v, hb⟩
  refine get ?_
  split
  · rename_i hb
    refine throw hm (hX (fun hw => ?_) _ (by simp))
    obtain ⟨_, hb'⟩ := found hw
    cases hb'.symm.trans hb
  · rename_i b hb
    split
    · rename_i hc
      refine throw hm (hX (fun hw => ?_) _ (by simp))
      obtain ⟨_, hb'⟩ := found hw
      cases hb'.symm.trans hb
      cases hc
    · rename_i hc
      have hc : b.isConst = false := by simpa using hc
      obtain ⟨q, rfl, hq⟩ := hv
      exact (modifyStack hm (good_rebind hm.records (.some hq) y) (CallStack.kept_rebind hb hc rfl)
        (CallStack.ground_rebind y _ _)).forget

theorem setLoopName {r : Record} {rs : List Record} (hm : m.Good c W) (hr : m.stack.records = r :: rs)
    (hy : r.has y = true) (p : Position) {v : Slot} (hv : Live m.store.cells.size v) :
    Runs c [y] W X (Exec.setName y p v true)
      (fun _ m' => m'.store = m.store ∧ ∃ b, r.get? y = some b ∧
        m'.stack.records = r.set y ⟨v, b.isConst⟩ :: rs) m := by
  obtain ⟨b, hb⟩ := Option.isSome_iff_exists.1 hy
  have found : bindingOf? y m.stack.records = some b := by
    rw [hr, bindingOf?, hb]
  refine get ?_
  rw [found]
  simp only [Bool.not_true, Bool.and_false, Bool.false_eq_true, if_false]
  have kept : Kept [y] true m.stack.records (rebind y v m.stack.records) := by
    obtain ⟨q, rfl, -⟩ := hv
    rw [hr]
    exact CallStack.kept_rebind_top hy rfl
  refine (modifyStack hm (good_rebind hm.records hv y) kept
    (CallStack.ground_rebind y v _)).mono (fun _ m' h => ?_) fun _ h => h
  subst h
  refine ⟨rfl, b, hb, ?_⟩
  show rebind y v m.stack.records = _
  rw [hr, rebind, hb]

/-- What breaks off inside a record leaves the record on the stack. -/
theorem breaksOff_push {r : Record} (h : BreaksOff c S e { m with stack := m.stack.push r } m') :
    BreaksOff c [] e m m' := by
  obtain ⟨top, base, e₁, hk, -⟩ := h.records
  cases hk with
  | @cons _ _ _ r' _ rs' _ hk =>
    refine ⟨h.store, top ++ [r'], rs', by simp [e₁], hk.widen (List.Subset.refl _), .inl ?_⟩
    simp

/-- Leaving a record that lies on others; where that fails, the record is still there. -/
theorem wp_leave {r : Record} {rs : List Record} (hm : m.Good c W) (hr : m.stack.records = r :: rs)
    (hp : rs.getLast?.map (·.kind) = some .program)
    (hs : ∀ x ∈ c.watched, ∀ V ∈ W', Fitted x V rs)
    (hX : LogLevel.debug.shows c.level = true → ∀ f, X (.failed f)) :
    wp Exec.leave (fun _ m' => m'.Good c W' ∧ m'.store = m.store ∧ m'.stack.records = rs)
      (fun e m' => m'.Good c none ∧ BreaksOff c [] e m m' ∧ X e) m := by
  have hc : m.stack.current? = some r := by rw [CallStackOf.current?, hr]; rfl
  rw [Exec.leave, wp_bind, wp_get, hc]
  refine wp_bind.2 (wp_mono (wp_bind.1 (note (S := []) hm hX _)) (fun _ m₁ h₁ => ?_) fun _ _ h => h)
  refine wp_bind.2 (wp_mono h₁ (fun _ m₂ h₂ => (wp_modifyStack _).2 ?_) fun _ _ h => h)
  obtain ⟨hm₂, -, est, ess⟩ := h₂
  have e : m₂.stack.pop.2.records = rs := by rw [CallStackOf.pop, est, hr, tail_cons]
  refine ⟨⟨hm₂.store, fun r' hr' => ?_, ?_, hm₂.level, fun x hx V hV => ?_⟩, ess, e⟩
  · exact hm₂.records r' (mem_of_mem_tail hr')
  · show m₂.stack.pop.2.records.getLast?.map _ = _
    rw [e, hp]
  · show Fitted x V m₂.stack.pop.2.records
    rw [e]
    exact hs x hx V hV

theorem within {W₁ U : View} {r : Record} {R : α → Machine → Prop} (hm : m.Good c W)
    (hr : r.Good m.store.cells.size) (hW : Enters c.watched r W W₁)
    (hX : LogLevel.debug.shows c.level = true → ∀ f, X (.failed f))
    (hx : ∀ m₁, m₁.Good c W₁ → m₁.store = m.store →
      m₁.stack.records = { r with outer := m.stack.current, level := m.stack.level + 1 } ::
        m.stack.records → Runs c S U X x Q m₁)
    (hQ : ∀ a m₁ m₂, m₂.store = m₁.store → Q a m₁ → R a m₂) :
    Runs c [] W X (Exec.within r x) R m := by
  unfold Runs
  rw [Exec.within, wp_bind, Exec.enter, wp_bind, wp_modifyStack]
  refine wp_mono (note (S := S) (hm.push hr hW) hX _) (fun _ m₁ h₁ => ?_) fun e m₁ h₁ =>
    ⟨h₁.1, breaksOff_push h₁.2.1, h₁.2.2⟩
  obtain ⟨hm₁, hp₁, est, ess⟩ := h₁
  refine wp_bind.2 (wp_mono (hx m₁ hm₁ ess (by rw [est]; rfl)) (fun a m₂ h₂ => ?_) fun e m₂ h₂ =>
    ⟨h₂.1, breaksOff_push (hp₁.breaksOff h₂.2.1), h₂.2.2⟩)
  obtain ⟨hm₂, hp₂, hq⟩ := h₂
  have hp := hp₁.trans hp₂
  -- the new record is still the innermost one, on top of those that were there
  obtain ⟨r', rs', e', hk⟩ : ∃ r' rs', m₂.stack.records = r' :: rs' ∧
      Kept [] true m.stack.records rs' := by
    have hk := hp.records
    generalize m₂.stack.records = rs₂ at hk
    cases hk with
    | cons _ hk => exact ⟨_, _, rfl, hk⟩
  have left := wp_leave hm₂ e' (hk.kind_getLast?.trans hm.program)
    (fun x hx V hV => hk.fitted (hm.shows x hx V hV)) hX
  refine wp_bind.2 (wp_mono left (fun _ m₃ h₃ => (wp_pure a).2 ?_) fun e m₃ h₃ => ?_)
  · obtain ⟨hm₃, es, er⟩ := h₃
    have ne : m.stack.records ≠ [] := hm.records_ne_nil
    have ne' : rs' ≠ [] := by
      rw [← length_pos_iff, hk.length_eq]
      exact length_pos_iff.2 ne
    refine ⟨hm₃, ⟨es ▸ hp.store, er ▸ hk.widen (List.Subset.refl _), ?_⟩, hQ a m₂ m₃ es hq⟩
    have hg := hp.ground
    rw [e', ground_cons _ ne'] at hg
    rw [er, hg]
    exact ground_cons _ ne
  · obtain ⟨hm₃, hb, hx₃⟩ := h₃
    refine ⟨hm₃, ?_, hx₃⟩
    exact breaksOff_push (hp.breaksOff (hb.widen (nil_subset S)))

end Runs

end TinyScript
