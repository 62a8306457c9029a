import TinyScript.Proofs.Reachable
import TinyScript.Proofs.SoundStore
import TinyScript.Proofs.Structured

/-!
# Machines that differ in marks only

`Sim cut n t x x' Q`: from machines that differ in marks only, with at least `n` cells and with the
marks `t`, the actions `x` and `x'` end alike, again in machines that differ in marks only, and with
`Q` of their results, of the number of cells and of the marks that `x` leaves. Where `cut` holds, `x`
may also stop on the way. One lemma for each action of the machine and each host function;
`Outcome.mark` tells which marks a statement leaves.
-/

namespace TinyScript

open Exec List

variable {σ ρ α β : Type}
variable {n n' : Nat} {x : String} {v : Slot} {R : α → β → Nat → List Record → Prop}

/-! ### Records without marks, and marks without records -/

namespace RecordOf

variable {r : RecordOf σ ρ}

/-- A record without its marks. -/
def plain (r : RecordOf σ ρ) : RecordOf Unit Unit :=
  { name := r.name, kind := r.kind, members := r.members, level := r.level, outer := r.outer }

/-- A record with nothing but its name, its kind and its marks. -/
def tag (r : RecordOf σ ρ) : RecordOf σ ρ := { r with members := [], level := 0, outer := none }

@[simp] theorem plain_name (r : RecordOf σ ρ) : r.plain.name = r.name := rfl

@[simp] theorem plain_kind (r : RecordOf σ ρ) : r.plain.kind = r.kind := rfl

@[simp] theorem tag_name (r : RecordOf σ ρ) : r.tag.name = r.name := rfl

@[simp] theorem tag_kind (r : RecordOf σ ρ) : r.tag.kind = r.kind := rfl

/-- A record whose members lead to the first `n` cells. -/
def Sound (n : Nat) (r : RecordOf σ ρ) : Prop := ∀ e ∈ r.members, ∀ v, e.2.value = some v → v.index < n

theorem Sound.mono (h : r.Sound n) (hn : n ≤ n') : r.Sound n' :=
  fun e he v hv => Nat.lt_of_lt_of_le (h e he v hv) hn

theorem mem_bind {b : Binding} {ms : List (String × Binding)} {e : String × Binding}
    (h : e ∈ RecordOf.bind x b ms) : e ∈ ms ∨ e.2 = b := by
  induction ms with
  | nil =>
    obtain rfl := mem_singleton.1 h
    exact .inr rfl
  | cons m ms ih =>
    unfold RecordOf.bind at h
    split at h
    · rcases mem_cons.1 h with rfl | h
      · exact .inr rfl
      · exact .inl (mem_cons_of_mem _ h)
    · rcases mem_cons.1 h with rfl | h
      · exact .inl (by simp)
      · rcases ih h with h | h
        · exact .inl (mem_cons_of_mem _ h)
        · exact .inr h

theorem Sound.set (h : r.Sound n) (x : String) {b : Binding} (hb : ∀ v, b.value = some v → v.index < n) :
    (r.set x b).Sound n := by
  intro e he v hv
  rcases mem_bind he with he | he
  · exact h e he v hv
  · exact hb v (he ▸ hv)

theorem Sound.lookup (h : r.Sound n) {b : Binding} (hb : r.get? x = some b) {v : Ref}
    (hv : b.value = some v) : v.index < n := by
  have mem : ∀ ms : List (String × Binding), ms.lookup x = some b → ∃ e ∈ ms, e.2 = b := by
    intro ms hl
    obtain ⟨l₁, l₂, rfl, -⟩ := lookup_eq_some_iff.1 hl
    exact ⟨(x, b), by simp, rfl⟩
  obtain ⟨e, he, rfl⟩ := mem r.members hb
  exact h e he v hv

end RecordOf

namespace CallStackOf

def plain (cs : CallStackOf σ ρ) : CallStackOf Unit Unit :=
  ⟨cs.records.map (·.plain), cs.current, cs.level⟩

theorem plain_push (cs : CallStackOf σ ρ) (r : RecordOf σ ρ) :
    (cs.push r).plain = cs.plain.push r.plain := by
  simp [push, plain, RecordOf.plain]

theorem plain_pop (cs : CallStackOf σ ρ) : cs.pop.2.plain = cs.plain.pop.2 := by
  cases h : cs.records <;> simp [pop, current?, plain, RecordOf.plain, h]

theorem plain_modifyTop (cs : CallStackOf σ ρ) {f : RecordOf σ ρ → RecordOf σ ρ}
    {f' : RecordOf Unit Unit → RecordOf Unit Unit} (hf : ∀ r, (f r).plain = f' r.plain) :
    (cs.modifyTop f).plain = cs.plain.modifyTop f' := by
  cases h : cs.records <;> simp [modifyTop, plain, h, hf]

end CallStackOf

/-! ### Listings -/

/-- Both have a result, or the same failure. -/
def EndAlike : Except Failure α → Except Failure β → Prop
  | .ok _, .ok _ => True
  | .error e, .error e' => e = e'
  | _, _ => False

theorem EndAlike.refl (x : Except Failure α) : EndAlike x x := by
  cases x <;> trivial

theorem EndAlike.bind {γ δ : Type} {x : Except Failure α} {x' : Except Failure β}
    {f : α → Except Failure γ} {f' : β → Except Failure δ} (hx : EndAlike x x')
    (hf : ∀ a b, EndAlike (f a) (f' b)) : EndAlike (x >>= f) (x' >>= f') := by
  cases x <;> cases x'
  · exact hx
  · exact hx.elim
  · exact hx.elim
  · exact hf _ _

/-- Marks have no part in whether a record can be listed. -/
theorem RecordOf.render_plain [ToString σ] (s : Store) (r : RecordOf σ ρ) :
    EndAlike (r.render s) (r.plain.render s) :=
  .bind (.refl _) fun _ _ => trivial

theorem CallStackOf.render_plain [ToString σ] (s : Store) (cs : CallStackOf σ ρ) :
    EndAlike (cs.render s) (cs.plain.render s) := by
  refine .bind ?_ fun _ _ => trivial
  rw [plain]
  generalize cs.records = rs
  induction rs with
  | nil => exact EndAlike.refl _
  | cons r rs ih =>
    rw [map_cons, mapM_cons, mapM_cons]
    exact .bind (r.render_plain s) fun _ _ => .bind ih fun _ _ => trivial

namespace CallStack

variable {rs : List (RecordOf σ ρ)}

theorem valueOf?_plain (x : String) (rs : List (RecordOf σ ρ)) :
    valueOf? x (rs.map (·.plain)) = valueOf? x rs := by
  induction rs with
  | nil => rfl
  | cons r rs ih =>
    have hg : r.plain.get? x = r.get? x := rfl
    simp only [map_cons, valueOf?, hg, ih]

theorem bindingOf?_plain (x : String) (rs : List (RecordOf σ ρ)) :
    bindingOf? x (rs.map (·.plain)) = bindingOf? x rs := by
  induction rs with
  | nil => rfl
  | cons r rs ih =>
    have hg : r.plain.get? x = r.get? x := rfl
    simp only [map_cons, bindingOf?, hg, ih]

theorem rebind_plain (x : String) (v : Slot) (rs : List (RecordOf σ ρ)) :
    rebind x v (rs.map (·.plain)) = (rebind x v rs).map (·.plain) := by
  induction rs with
  | nil => rfl
  | cons r rs ih =>
    have hg : r.plain.get? x = r.get? x := rfl
    simp only [map_cons, rebind, hg, ih]
    split <;> rfl

theorem tag_rebind (x : String) (v : Slot) (rs : List (RecordOf σ ρ)) :
    (rebind x v rs).map (·.tag) = rs.map (·.tag) := by
  induction rs with
  | nil => rfl
  | cons r rs ih =>
    simp only [rebind]
    split
    · rfl
    · rw [map_cons, ih, map_cons]

theorem sound_rebind (hv : Live n v) (h : ∀ r ∈ rs, r.Sound n) : ∀ r ∈ rebind x v rs, r.Sound n := by
  induction rs with
  | nil => exact h
  | cons r rs ih =>
    have hr := h r (by simp)
    have hrs := fun r' hr' => h r' (mem_cons_of_mem _ hr')
    simp only [rebind]
    split
    · obtain ⟨q, rfl, hq⟩ := hv
      exact forall_mem_cons.2 ⟨hr.set x fun _ e => by cases e; exact hq, hrs⟩
    · exact forall_mem_cons.2 ⟨hr, ih hrs⟩

theorem lt_of_valueOf? {v : Ref} (h : ∀ r ∈ rs, r.Sound n) (hv : valueOf? x rs = some v) :
    v.index < n := by
  induction rs with
  | nil => cases hv
  | cons r rs ih =>
    simp only [valueOf?] at hv
    split at hv
    · rename_i q hq
      cases hv
      obtain ⟨b, hb, hq⟩ := Option.bind_eq_some_iff.1 hq
      exact (h r (by simp)).lookup hb hq
    · exact ih (fun r' hr' => h r' (mem_cons_of_mem _ hr')) hv

end CallStack

/-! ### Marks and outcomes -/

namespace CallStack

open Structured (route)

theorem jump_route (st : RecordState) (goal : RecordKind) (rs : List Record) :
    ((jump st goal rs).passed, (jump st goal rs).found) = route goal rs := by
  induction rs with
  | nil => rfl
  | cons r rs ih =>
    simp only [jump, route, ← ih]
    split
    · rfl
    · split <;> rfl

theorem route_plain (goal : RecordKind) (rs : List (RecordOf σ ρ)) :
    route goal (rs.map (·.plain)) = route goal rs := by
  induction rs with
  | nil => rfl
  | cons r rs ih => simp only [map_cons, route, ih, RecordOf.plain_name, RecordOf.plain_kind]

theorem route_tag (goal : RecordKind) (rs : List (RecordOf σ ρ)) :
    route goal (rs.map (·.tag)) = route goal rs := by
  induction rs with
  | nil => rfl
  | cons r rs ih => simp only [map_cons, route, ih, RecordOf.tag_name, RecordOf.tag_kind]

theorem jump_tag (st : RecordState) (goal : RecordKind) (rs : List Record) :
    (jump st goal (rs.map (·.tag))).records = (jump st goal rs).records.map (·.tag) := by
  induction rs with
  | nil => rfl
  | cons r rs ih =>
    simp only [map_cons, jump, ih, RecordOf.tag_kind]
    split
    · rfl
    · split <;> rfl

theorem jump_plain (st : RecordState) (goal : RecordKind) (rs : List Record) :
    (jump st goal rs).records.map (·.plain) = rs.map (·.plain) := by
  induction rs with
  | nil => rfl
  | cons r rs ih =>
    simp only [jump]
    split
    · rfl
    · split
      · rfl
      · rw [map_cons, ih, map_cons]
        rfl

theorem setRetval_tag (v : Slot) (rs : List Record) :
    setRetval v (rs.map (·.tag)) = (setRetval v rs).map (·.tag) := by
  induction rs with
  | nil => rfl
  | cons r rs ih =>
    simp only [map_cons, setRetval, ih, RecordOf.tag_kind]
    split <;> rfl

theorem setRetval_plain (v : Slot) (rs : List Record) :
    (setRetval v rs).map (·.plain) = rs.map (·.plain) := by
  induction rs with
  | nil => rfl
  | cons r rs ih =>
    simp only [setRetval]
    split
    · rfl
    · rw [map_cons, ih, map_cons]

end CallStack

theorem sound_of_plain {rs rs' : List Record} (h : rs'.map (·.plain) = rs.map (·.plain))
    (hs : ∀ r ∈ rs, r.Sound n) : ∀ r ∈ rs', r.Sound n := by
  intro r hr
  have hr' : r.plain ∈ rs.map (·.plain) := h ▸ mem_map_of_mem hr
  obtain ⟨r₀, hr₀, e⟩ := mem_map.1 hr'
  have hm : r₀.members = r.members := by simpa [RecordOf.plain] using congrArg (·.members) e
  exact fun m hm' => hs r₀ hr₀ m (hm ▸ hm')

namespace Outcome

open CallStack Structured

/-- The marks that a statement with the given outcome leaves. -/
def mark : Outcome → List Record → List Record
  | .normal, t => t
  | .broken, t => (jump .breaked .loop t).records
  | .continued, t => (jump .continued .loop t).records
  | .returned v, t => setRetval v (jump .returned .function t).records

/-- The jump has somewhere to go. -/
def Allowed (t : List Record) : Outcome → Prop
  | .normal => True
  | .broken | .continued => (route .loop t).2 = true
  | .returned _ => (route .function t).2 = true

/-- What a statement with outcome `o` leaves behind on marks `t`. -/
structure Ends (t : List Record) (o : Outcome) (n' : Nat) (t' : List Record) : Prop where
  marks : t' = o.mark t
  allowed : o.Allowed t
  live : ∀ v, o = .returned v → Live n' v

theorem Ends.mono {t t' : List Record} {o : Outcome} (h : Ends t o n t') (hn : n ≤ n') :
    Ends t o n' t' :=
  ⟨h.marks, h.allowed, fun v hv => (h.live v hv).mono hn⟩

theorem ends_normal (t : List Record) (n : Nat) : Ends t .normal n t :=
  ⟨rfl, trivial, fun _ h => by cases h⟩

end Outcome

/-! ### Paired machines -/

structure MachineOf.Sound (m : MachineOf σ ρ) : Prop where
  store : m.store.Sound
  records : ∀ r ∈ m.stack.records, r.Sound m.store.cells.size

/-- The marks of all records. -/
def marks (m : Machine) : List Record := m.stack.records.map (·.tag)

/-- Machines that differ in marks only. Listings for debugging show the marks, so with these the
output differs too. -/
structure Matches (m : Machine) (m' : MachineOf Unit Unit) : Prop where
  store : m'.store = m.store
  stack : m'.stack = m.stack.plain
  input : m'.input = m.input
  level : m'.level = m.level
  out : LogLevel.debug.shows m.level = false → m'.out = m.out

/-- Sound machines that differ in marks only. -/
structure Paired (m : Machine) (m' : MachineOf Unit Unit) : Prop extends Matches m m' where
  sound : m.Sound

/-- How results of two actions belong together. -/
inductive Follows (cut : Prop) (Q : α → β → Nat → List Record → Prop) (n : Nat) :
    EStateM.Result Halt Machine α → EStateM.Result Halt (MachineOf Unit Unit) β → Prop
  | ok {a b m m'} (hp : Paired m m') (hn : n ≤ m.store.cells.size)
      (hq : Q a b m.store.cells.size (marks m)) : Follows cut Q n (.ok a m) (.ok b m')
  | error {e m m'} (hp : Paired m m') : Follows cut Q n (.error e m) (.error e m')
  | cut {m r} (hc : cut) (hm : m.Sound) : Follows cut Q n (.error .outOfFuel m) r

theorem Follows.mono {cut : Prop} {n₀ : Nat} {Q : α → β → Nat → List Record → Prop}
    {r : EStateM.Result Halt Machine α} {r' : EStateM.Result Halt (MachineOf Unit Unit) β}
    (h : Follows cut Q n r r') (hn : n₀ ≤ n) (hQ : ∀ a b n' t', n ≤ n' → Q a b n' t' → R a b n' t') :
    Follows cut R n₀ r r' := by
  cases h with
  | ok hp hn' hq => exact .ok hp (Nat.le_trans hn hn') (hQ _ _ _ _ hn' hq)
  | error hp => exact .error hp
  | cut hc hm => exact .cut hc hm

def Sim (cut : Prop) (n : Nat) (t : List Record) (x : Exec α) (x' : Plain β)
    (Q : α → β → Nat → List Record → Prop) : Prop :=
  ∀ m m', Paired m m' → n ≤ m.store.cells.size → marks m = t → Follows cut Q n (x m) (x' m')

/-- Both results are the same, with `P`, and no mark has changed. -/
def Same (t : List Record) (P : Nat → α → Prop) (a b : α) (n' : Nat) (t' : List Record) : Prop :=
  b = a ∧ t' = t ∧ P n' a

/-- Nothing to know about a result. -/
abbrev Any (_ : Nat) (_ : α) : Prop := True

namespace Sim

variable {cut : Prop} {n : Nat} {t : List Record} {γ δ : Type} {x : Exec α} {x' : Plain β}
  {Q : α → β → Nat → List Record → Prop}
variable {a : α} {f : α → Exec γ} {P : Nat → α → Prop} {y : Plain α} {g : CallStack → CallStack}
  {r : Record}

theorem pure {b : β} (h : ∀ n', n ≤ n' → Q a b n' t) : Sim cut n t (Pure.pure a) (Pure.pure b) Q := by
  intro m m' hp hn ht
  exact .ok hp hn (ht ▸ h _ hn)

theorem bind {f' : β → Plain δ} {R : γ → δ → Nat → List Record → Prop} (hx : Sim cut n t x x' Q)
    (hf : ∀ a b n' t', n ≤ n' → Q a b n' t' → Sim cut n' t' (f a) (f' b) R) :
    Sim cut n t (x >>= f) (x' >>= f') R := by
  intro m m' hp hn ht
  have h₁ := hx m m' hp hn ht
  generalize hr : x m = r at h₁
  generalize hr' : x' m' = r' at h₁
  cases h₁ with
  | @ok a b m₁ m₁' hp₁ hn₁ hq =>
    rw [bind_of_ok hr, bind_of_ok hr']
    exact (hf a b _ _ hn₁ hq m₁ m₁' hp₁ (Nat.le_refl _) rfl).mono hn₁ fun _ _ _ _ _ h => h
  | error hp₁ =>
    rw [bind_of_error hr, bind_of_error hr']
    exact .error hp₁
  | cut hc hm =>
    rw [bind_of_error hr]
    exact .cut hc hm

theorem mono (hx : Sim cut n t x x' Q) (h : ∀ a b n' t', n ≤ n' → Q a b n' t' → R a b n' t') :
    Sim cut n t x x' R :=
  fun m m' hp hn ht => (hx m m' hp hn ht).mono (Nat.le_refl _) h

/-- After an action with the same result on both sides, which changes no mark. -/
theorem then_ {f' : α → Plain δ} {R : γ → δ → Nat → List Record → Prop} (hx : Sim cut n t x y (Same t P))
    (hf : ∀ a n', n ≤ n' → P n' a → Sim cut n' t (f a) (f' a) R) :
    Sim cut n t (x >>= f) (y >>= f') R := by
  refine bind hx fun a b n' t' hn h => ?_
  obtain ⟨rfl, rfl, ha⟩ := h
  exact hf _ n' hn ha

theorem same (h : ∀ n', n ≤ n' → P n' a) : Sim cut n t (Pure.pure a) (Pure.pure a) (Same t P) :=
  pure fun n' hn => ⟨rfl, rfl, h n' hn⟩

theorem map {R : Nat → γ → Prop} (g : α → γ) (hx : Sim cut n t x y (Same t P))
    (h : ∀ a n', n ≤ n' → P n' a → R n' (g a)) : Sim cut n t (g <$> x) (g <$> y) (Same t R) := by
  intro m m' hp hn ht
  have h₁ := hx m m' hp hn ht
  simp only [Functor.map, EStateM.map]
  generalize x m = r at h₁
  generalize y m' = r' at h₁
  cases h₁ with
  | ok hp₁ hn₁ hq => exact .ok hp₁ hn₁ ⟨congrArg g hq.1, hq.2.1, h _ _ hn₁ hq.2.2⟩
  | error hp₁ => exact .error hp₁
  | cut hc hm => exact .cut hc hm

theorem ite {c : Prop} [Decidable c] {y : Exec α} {y' : Plain β} (hx : Sim cut n t x x' Q)
    (hy : Sim cut n t y y' Q) : Sim cut n t (if c then x else y) (if c then x' else y') Q := by
  split
  · exact hx
  · exact hy

theorem halt (e : Halt) : Sim cut n t (throw e) (throw e) Q := fun _ _ hp _ _ => .error hp

theorem outOfFuel : Sim cut n t Exec.outOfFuel Exec.outOfFuel Q := halt _

theorem fail (f : Failure) : Sim cut n t (Exec.fail f) (Exec.fail f) Q := halt _

theorem report (p : Position) (i : Issue) : Sim cut n t (Exec.report p i) (Exec.report p i) Q :=
  halt _

theorem fault (f : Fault) : Sim cut n t (Exec.fault f) (Exec.fault f) Q := halt _

theorem reportAt (k : Node) (i : Issue) : Sim cut n t (Exec.reportAt k i) (Exec.reportAt k i) Q := by
  unfold Exec.reportAt
  split
  · exact report _ _
  · exact fault _

theorem get {f : Machine → Exec α} {f' : MachineOf Unit Unit → Plain β}
    (hf : ∀ m m', Paired m m' → n ≤ m.store.cells.size → marks m = t →
      Sim cut m.store.cells.size t (f m) (f' m') Q) :
    Sim cut n t (MonadState.get >>= f) (MonadState.get >>= f') Q := by
  intro m m' hp hn ht
  have h := hf m m' hp hn ht m m' hp (Nat.le_refl _) ht
  exact h.mono hn fun _ _ _ _ _ hq => hq

theorem mem {w : Slot} {y : Mem α} (hy : Mem.Keeps w n y P) :
    Sim cut n t (Exec.mem y) (Exec.mem y) (Same t P) := by
  intro m m' hp hn ht
  have hk := hy m.store hp.sound.store hn
  have later : ∀ s : Store, s.Sound → m.store.Grows w s →
      Paired { m with store := s } { m' with store := s } := by
    intro s hs hg
    refine ⟨⟨rfl, hp.stack, hp.input, hp.level, hp.out⟩, hs, fun r hr => ?_⟩
    exact (hp.sound.records r hr).mono hg.size
  simp only [Exec.mem, hp.store]
  cases e : y m.store with
  | ok a s =>
    rw [e] at hk
    exact .ok (later s hk.1 hk.2.1) (Nat.le_trans hn hk.2.1.size) ⟨rfl, ht, hk.2.2⟩
  | error f s =>
    rw [e] at hk
    exact .error (later s hk.1 hk.2)

theorem ofExcept (y : Except Failure α) :
    Sim cut n t (Exec.ofExcept y) (Exec.ofExcept y) (Same t fun _ a => y = .ok a) := by
  intro m m' hp hn ht
  cases y with
  | ok a => exact .ok hp hn ⟨rfl, ht, rfl⟩
  | error f => exact .error hp

/-! ### Output and input -/

theorem emit (s : String) : Sim cut n t (Exec.emit s) (Exec.emit s) (Same t Any) := by
  intro m m' hp hn ht
  refine .ok ⟨⟨hp.store, hp.stack, hp.input, hp.level, fun h => ?_⟩, hp.sound.store,
    hp.sound.records⟩ hn ⟨rfl, ht, trivial⟩
  exact congrArg (· ++ s) (hp.out h)

theorem log (l : LogLevel) (s : String) : Sim cut n t (Exec.log l s) (Exec.log l s) (Same t Any) := by
  intro m m' hp hn ht
  refine .ok ⟨⟨hp.store, hp.stack, hp.input, hp.level, fun h => ?_⟩, hp.sound.store,
    hp.sound.records⟩ hn ⟨rfl, ht, trivial⟩
  show m'.out ++ l.log m'.level s = m.out ++ l.log m.level s
  rw [hp.level, hp.out h]

theorem text (v : Slot) : Sim cut n t (Exec.text v) (Exec.text v) (Same t Any) := by
  intro m m' hp hn ht
  have h : Sim cut n t (Exec.ofExcept (m.store.text v)) (Exec.ofExcept (m.store.text v)) _ := ofExcept _
  simp only [Exec.text, hp.store]
  exact (h m m' hp hn ht).mono (Nat.le_refl _) fun _ _ _ _ _ hq => ⟨hq.1, hq.2.1, trivial⟩

theorem readLine : Sim cut n t Exec.readLine Exec.readLine (Same t Any) := by
  intro m m' hp hn ht
  simp only [Exec.readLine, hp.input]
  split
  · exact .error hp
  · exact .ok ⟨⟨hp.store, hp.stack, rfl, hp.level, hp.out⟩, hp.sound.store, hp.sound.records⟩ hn
      ⟨rfl, ht, trivial⟩

/-- Listings differ, but where they are written nothing is said about the output. -/
theorem logStack : Sim cut n t Exec.logStack Exec.logStack (Same t Any) := by
  intro m m' hp hn ht
  have listing := m.stack.render_plain m.store
  change Follows cut _ n ((if LogLevel.debug.shows m.level then
      (do Exec.emit ((← Exec.stackListing) ++ "\n")) else Pure.pure () : Exec Unit) m)
    ((if LogLevel.debug.shows m'.level then
      (do Exec.emit ((← Exec.stackListing) ++ "\n")) else Pure.pure () : Plain Unit) m')
  rw [hp.level]
  by_cases hd : LogLevel.debug.shows m.level
  · rw [if_pos hd, if_pos hd]
    simp only [Bind.bind, EStateM.bind, Exec.stackListing, hp.stack, hp.store]
    generalize m.stack.render m.store = s at listing
    generalize m.stack.plain.render m.store = s' at listing
    cases s <;> cases s'
    · cases listing
      exact .error hp
    · exact listing.elim
    · exact listing.elim
    · exact .ok ⟨⟨hp.store, hp.stack, hp.input, hp.level, fun h => Bool.noConfusion (hd.symm.trans h)⟩,
        hp.sound.store, hp.sound.records⟩ hn ⟨rfl, ht, trivial⟩
  · rw [if_neg hd, if_neg hd]
    exact .ok hp hn ⟨rfl, ht, trivial⟩

theorem turn {k : Handled} {handle : k.Error → Exec α} {handle' : k.Error → Plain β}
    (hh : ∀ e m m', Paired m m' → Follows cut Q n (handle e m) (handle' e m'))
    (hx : Sim cut n t x x' Q) : Sim cut n t (k.turn handle x) (k.turn handle' x') Q := by
  intro m m' hp hn ht
  have h₁ := hx m m' hp hn ht
  generalize e : x m = r at h₁
  generalize e' : x' m' = r' at h₁
  cases h₁ with
  | ok hp₁ hn₁ hq =>
    rw [Handled.turn_ok e, Handled.turn_ok e']
    exact .ok hp₁ hn₁ hq
  | @error h m₁ m₁' hp₁ =>
    by_cases hk : ∃ o, h = .failed (k.failure o)
    · obtain ⟨o, rfl⟩ := hk
      rw [Handled.turn_failure e, Handled.turn_failure e']
      exact hh o m₁ m₁' hp₁
    · rw [Handled.turn_other e hk, Handled.turn_other e' hk]
      exact .error hp₁
  | cut hc hm =>
    rw [Handled.turn_other e (by simp)]
    exact .cut hc hm

/-! ### Records -/

theorem modifyStack {g' : CallStackOf Unit Unit → CallStackOf Unit Unit} (t' : List Record)
    (hp : ∀ cs : CallStack, cs.records.map (·.tag) = t → (g cs).plain = g' cs.plain)
    (ht : ∀ cs : CallStack, cs.records.map (·.tag) = t → (g cs).records.map (·.tag) = t')
    (hs : ∀ (cs : CallStack) (n' : Nat), n ≤ n' → (∀ r ∈ cs.records, r.Sound n') →
      ∀ r ∈ (g cs).records, r.Sound n') :
    Sim cut n t (Exec.modifyStack g) (Exec.modifyStack g') fun _ _ _ t₁ => t₁ = t' := by
  intro m m' hpair hn hm
  refine .ok ⟨⟨hpair.store, ?_, hpair.input, hpair.level, hpair.out⟩, hpair.sound.store, ?_⟩ hn
    (ht m.stack hm)
  · show g' m'.stack = (g m.stack).plain
    rw [hpair.stack, hp m.stack hm]
  · exact hs m.stack _ hn hpair.sound.records

theorem bindTop (y : String) {b : Binding} (hb : ∀ v, b.value = some v → v.index < n) :
    Sim cut n t (Exec.modifyStack (·.modifyTop (·.set y b))) (Exec.modifyStack (·.modifyTop (·.set y b)))
      (Same t Any) := by
  refine (modifyStack t (fun cs _ => cs.plain_modifyTop fun r => rfl) (fun cs hc => ?_)
    fun cs n' hn' h => ?_).mono fun _ _ _ _ _ h => ⟨rfl, h, trivial⟩
  · rw [← hc]
    cases h : cs.records <;> simp [CallStackOf.modifyTop, h, RecordOf.tag, RecordOf.set]
  · cases e : cs.records with
    | nil => simp [CallStackOf.modifyTop, e]
    | cons r rs =>
      rw [e] at h
      obtain ⟨hr, hrs⟩ := forall_mem_cons.1 h
      simp only [CallStackOf.modifyTop, e]
      exact forall_mem_cons.2
        ⟨hr.set y fun v hv => Nat.lt_of_lt_of_le (hb v hv) hn', hrs⟩

theorem rebind (y : String) (hv : Live n v) :
    Sim cut n t (Exec.modifyRecords (CallStack.rebind y v)) (Exec.modifyRecords (CallStack.rebind y v))
      (Same t Any) := by
  refine (modifyStack t (fun cs _ => ?_) (fun cs hc => ?_) fun cs n' hn' h => ?_).mono
    fun _ _ _ _ _ h => ⟨rfl, h, trivial⟩
  · simp only [CallStackOf.plain, CallStack.rebind_plain]
  · rw [← hc]
    exact CallStack.tag_rebind y v cs.records
  · exact CallStack.sound_rebind (hv.mono hn') h

theorem currentRecord : Sim cut n t Exec.currentRecord Exec.currentRecord
    fun r r' _ t' => r' = r.plain ∧ t' = t ∧ ∃ t₁, t = r.tag :: t₁ := by
  refine get fun m m' hp hn ht => ?_
  have hc : m'.stack.current? = m.stack.current?.map (·.plain) := by
    simp [CallStackOf.current?, hp.stack, CallStackOf.plain]
  rw [hc]
  cases e : m.stack.records with
  | nil =>
    have hn : m.stack.current? = none := by simp [CallStackOf.current?, e]
    rw [hn]
    exact fault _
  | cons r rs =>
    have hr : m.stack.current? = some r := by simp [CallStackOf.current?, e]
    rw [hr]
    refine pure fun n' _ => ⟨rfl, rfl, rs.map (·.tag), ?_⟩
    rw [← ht, marks, e]
    rfl

theorem noteJump (name what : String) :
    Sim cut n t (Exec.noteJump name what) (Exec.noteJump name what) (Same t Any) := log _ _

theorem noteJumps (what : String) (names : List String) :
    Sim cut n t (Exec.noteJumps what names) (Exec.noteJumps what names) (Same t Any) := by
  induction names generalizing n with
  | nil => exact same fun _ _ => trivial
  | cons name names ih => exact then_ (noteJump name what) fun _ _ _ _ => ih

theorem getName (y : String) (p : Position) :
    Sim cut n t (Exec.getName y p) (Exec.getName y p) (Same t Live) := by
  refine get fun m m' hp hn ht => ?_
  rw [hp.stack, CallStackOf.plain, CallStack.valueOf?_plain]
  split
  · rename_i r hr
    have hl := CallStack.lt_of_valueOf? hp.sound.records hr
    exact same fun n' hn' => (Live.some hl).mono hn'
  · exact report _ _

theorem setName (y : String) (p : Position) (hv : Live n v) (force : Bool) :
    Sim cut n t (Exec.setName y p v force) (Exec.setName y p v force) (Same t Any) := by
  refine get fun m m' hp hn ht => ?_
  rw [hp.stack, CallStackOf.plain, CallStack.bindingOf?_plain]
  split
  · exact report _ _
  · exact ite (report _ _) (rebind y (hv.mono hn))

theorem enter (hr : r.Sound n) :
    Sim cut n t (Exec.enter r) (Exec.enter r.plain) fun _ _ _ t' => t' = r.tag :: t := by
  refine bind (modifyStack (r.tag :: t) (fun cs _ => cs.plain_push r) (fun cs hc => ?_)
    fun cs n' hn' h => ?_) fun _ _ n₁ t₁ _ h => ?_
  · rw [← hc]
    rfl
  · exact forall_mem_cons.2 ⟨fun e he v hv => Nat.lt_of_lt_of_le (hr e he v hv) hn', h⟩
  · subst h
    exact then_ (log _ _) fun _ _ _ _ => logStack.mono fun _ _ _ _ _ h => h.2.1

theorem leave (g : Record) :
    Sim cut n (g :: t) Exec.leave Exec.leave fun _ _ _ t' => t' = t := by
  refine get fun m m' hp hn ht => ?_
  cases e : m.stack.records with
  | nil => simp [marks, e] at ht
  | cons r rs =>
    have hc : m.stack.current? = some r := by simp [CallStackOf.current?, e]
    have hc' : m'.stack.current? = some r.plain := by
      simp [CallStackOf.current?, hp.stack, CallStackOf.plain, e]
    rw [hc, hc']
    refine then_ (log _ _) fun _ n₁ _ _ => then_ logStack fun _ n₂ _ _ => ?_
    refine modifyStack t (fun cs _ => cs.plain_pop) (fun cs hcs => ?_) fun cs n' _ h r hr => ?_
    · rw [CallStackOf.pop, map_tail, hcs, tail_cons]
    · exact h r (mem_of_mem_tail hr)

theorem within {r' : RecordOf Unit Unit} (he : r' = r.plain) (hr : r.Sound n)
    (hx : ∀ n', n ≤ n' → Sim cut n' (r.tag :: t) x x' Q)
    (hQ : ∀ a b n' t', Q a b n' t' → ∃ g t₁, t' = g :: t₁ ∧ ∀ n'', n' ≤ n'' → R a b n'' t₁) :
    Sim cut n t (Exec.within r x) (Exec.within r' x') R := by
  subst he
  refine bind (enter hr) fun _ _ n₁ t₁ hn₁ h => ?_
  subst h
  refine bind (hx n₁ hn₁) fun a b n₂ t₂ hn₂ hq => ?_
  obtain ⟨g, t₃, rfl, hR⟩ := hQ a b n₂ t₂ hq
  refine bind (leave g) fun _ _ n₃ t₄ hn₃ h => ?_
  subst h
  exact pure fun n' hn' => hR n' (Nat.le_trans hn₃ hn')

/-! ### Steps on one side -/

theorem remark (t' : List Record) (hp : ∀ cs : CallStack, (g cs).plain = cs.plain)
    (ht : ∀ cs : CallStack, cs.records.map (·.tag) = t → (g cs).records.map (·.tag) = t')
    (hx : Sim cut n t' x x' Q) : Sim cut n t (do Exec.modifyStack g; x) x' Q := by
  intro m m' hpair hn hm
  have hs : ∀ r ∈ (g m.stack).records, r.Sound m.store.cells.size :=
    sound_of_plain (congrArg CallStackOf.records (hp m.stack)) hpair.sound.records
  have hpair' : Paired { m with stack := g m.stack } m' :=
    ⟨⟨hpair.store, by rw [hpair.stack, hp], hpair.input, hpair.level, hpair.out⟩,
      hpair.sound.store, hs⟩
  exact hx _ m' hpair' hn (ht m.stack hm)

theorem remarkRecords {g : List Record → List Record} (t' : List Record)
    (hp : ∀ rs : List Record, (g rs).map (·.plain) = rs.map (·.plain))
    (ht : ∀ rs : List Record, rs.map (·.tag) = t → (g rs).map (·.tag) = t')
    (hx : Sim cut n t' x x' Q) : Sim cut n t (do Exec.modifyRecords g; x) x' Q :=
  remark t' (fun cs => by simp only [CallStackOf.plain, hp]) (fun cs hc => ht cs.records hc) hx

theorem setState {g : Record} (st : RecordState)
    (hx : Sim cut n ({ g with state := st } :: t) x x' Q) :
    Sim cut n (g :: t) (do Exec.setState st; x) x' Q := by
  refine remark _ (fun cs => ?_) (fun cs hc => ?_) hx
  · cases h : cs.records <;> simp [CallStackOf.modifyTop, CallStackOf.plain, h, RecordOf.plain]
  · cases h : cs.records with
    | nil => simp [h] at hc
    | cons r rs =>
      rw [h, map_cons, List.cons.injEq] at hc
      obtain ⟨rfl, rfl⟩ := hc
      simp [CallStackOf.modifyTop, h, RecordOf.tag]

theorem currentRecord_left {g : Record} {f : Record → Exec α}
    (hf : ∀ r : Record, r.tag = g → Sim cut n (g :: t) (f r) x' Q) :
    Sim cut n (g :: t) (Exec.currentRecord >>= f) x' Q := by
  intro m m' hp hn ht
  cases e : m.stack.records with
  | nil => simp [marks, e] at ht
  | cons r rs =>
    have hr : Exec.currentRecord m = .ok r m := by
      simp only [Exec.currentRecord, bind_of_ok (rfl : (MonadState.get : Exec Machine) m = .ok m m),
        CallStackOf.current?, e]
      rfl
    have ht' := ht
    rw [marks, e, map_cons, List.cons.injEq] at ht'
    rw [bind_of_ok hr]
    exact hf r ht'.1 m m' hp hn ht

theorem currentRecord_right {g : Record} {f : RecordOf Unit Unit → Plain β}
    (hf : ∀ r : RecordOf Unit Unit, r.name = g.name → Sim cut n (g :: t) x (f r) Q) :
    Sim cut n (g :: t) x (Exec.currentRecord >>= f) Q := by
  intro m m' hp hn ht
  cases e : m.stack.records with
  | nil => simp [marks, e] at ht
  | cons r rs =>
    have hr : Exec.currentRecord m' = .ok r.plain m' := by
      simp only [Exec.currentRecord,
        bind_of_ok (rfl : (MonadState.get : Plain _) m' = .ok m' m'), CallStackOf.current?, hp.stack,
        CallStackOf.plain, e]
      rfl
    have ht' := ht
    rw [marks, e, map_cons, List.cons.injEq] at ht'
    rw [bind_of_ok hr]
    exact hf r.plain (by rw [← ht'.1]; rfl) m m' hp hn ht

theorem andPure {R : β → Nat → List Record → Prop} (c : γ)
    (hx : Sim cut n t x x' fun _ b n' t' => R b n' t') :
    Sim cut n t (do let _ ← x; return c) x' fun _ b n' t' => R b n' t' := by
  intro m m' hp hn ht
  have h₁ := hx m m' hp hn ht
  simp only [Bind.bind, EStateM.bind]
  generalize x m = r at h₁
  generalize x' m' = r' at h₁
  cases h₁ with
  | ok hp₁ hn₁ hq => exact .ok hp₁ hn₁ hq
  | error hp₁ => exact .error hp₁
  | cut hc hm => exact .cut hc hm

theorem endNormal (hx : Sim cut n t x x' fun _ _ _ t' => t' = t) :
    Sim cut n t x (do let _ ← x'; return Outcome.normal) fun _ o n' t' => o.Ends t n' t' := by
  intro m m' hp hn ht
  have h₁ := hx m m' hp hn ht
  simp only [Bind.bind, EStateM.bind]
  generalize x m = r at h₁
  generalize x' m' = r' at h₁
  cases h₁ with
  | ok hp₁ hn₁ hq => exact .ok hp₁ hn₁ (hq ▸ Outcome.ends_normal _ _)
  | error hp₁ => exact .error hp₁
  | cut hc hm => exact .cut hc hm

/-! ### Host functions -/

theorem print (args : List Slot) :
    Sim cut n t (Host.print args) (Host.print args) (Same t Any) := by
  induction args generalizing n with
  | nil => exact same fun _ _ => trivial
  | cons v vs ih =>
    cases vs with
    | nil => exact then_ (text v) fun _ _ _ _ => emit _
    | cons u us => exact then_ (text v) fun _ _ _ _ => then_ (emit _) fun _ _ _ _ => ih

theorem promptOf (args : List Slot) :
    Sim cut n t (Host.promptOf args) (Host.promptOf args) (Same t Any) := by
  cases args with
  | nil => exact same fun _ _ => trivial
  | cons v vs =>
    refine get fun m m' hp hn ht => ?_
    rw [hp.store]
    split
    · exact fault _
    · exact same fun _ _ => trivial

theorem wanted (args : List Slot) :
    Sim cut n t (Host.wanted args) (Host.wanted args) (Same t Any) := by
  rcases args with _ | ⟨v, _ | ⟨u, us⟩⟩
  · exact same fun _ _ => trivial
  · exact same fun _ _ => trivial
  · refine get fun m m' hp hn ht => ?_
    rw [hp.store]
    split
    · exact same fun _ _ => trivial
    · exact same fun _ _ => trivial
    · exact fail _

theorem input (args : List Slot) :
    Sim cut n t (Host.input args) (Host.input args) (Same t Mem.Fresh) := by
  refine then_ (promptOf args) fun prompt _ _ _ => then_ (wanted args) fun kind _ _ _ => ?_
  refine then_ (ofExcept prompt) fun s _ _ _ => then_ (emit s) fun _ _ _ _ => ?_
  refine then_ readLine fun line _ _ _ => ?_
  split
  · rename_i v hv
    have sound : v.Sound 0 := by
      cases kind <;> simp [Host.inputValue] at hv
      · subst hv
        trivial
      · obtain ⟨_, -, rfl⟩ := hv
        trivial
      · obtain ⟨_, -, rfl⟩ := hv
        trivial
    exact mem (w := none) (.alloc (sound.mono (Nat.zero_le _)))
  · exact fail _

theorem hostRun (action : HostAction) (args : List Slot) :
    Sim cut n t (Host.run action args) (Host.run action args)
      (Same t fun n' r => ∀ v, r = .ok (some v) → v.index < n') := by
  cases action with
  | print => exact then_ (print args) fun _ _ _ _ => same fun _ _ _ h => by cases h
  | println =>
    exact then_ (then_ (print args) fun _ _ _ _ => emit _) fun _ _ _ _ => same fun _ _ _ h => by cases h
  | input =>
    refine then_ (input args) fun r n₁ _ hr => same fun n' hn' v h => ?_
    cases h
    exact Nat.lt_of_lt_of_le hr hn'
  | foreign truthy =>
    refine same fun _ _ v h => ?_
    cases truthy <;> cases h

end Sim

end TinyScript
