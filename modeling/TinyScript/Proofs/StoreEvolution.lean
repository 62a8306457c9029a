import TinyScript.Proofs.Tables

/-!
# What becomes of cells

A cell keeps its kind of value: a number is only ever replaced by a number, a string by a string, a
list by one of the same length, a map by one with the same keys and perhaps more, and all other cells
stay as they are. Where no number or string may be changed in place, maps stay tidy.
`Acts c x Q X s`: from the good store `s`, the action `x` leads to a good store whose cells have kept
their kinds, with `Q` of its result, or fails with `X` of the failure. Failures are told exactly
enough to know which construct of the language can raise which.
-/

namespace TinyScript

open List

variable {t : Table} {key : Slot} {f : Failure} {Y : Failure → Prop}

/-- What a run is watched with: the nodes it may come upon, the log level, the cells that it has
no leave to change, and perhaps a name, which no function mentions. -/
structure Setting where
  nodes : Node → Prop
  level : Int
  frozen : Ref → Prop
  watched : Option String

/-! ### Kinds of values -/

namespace Value

variable {u v w : Value}

/-- A cell with the first value may come to hold the second one. -/
inductive Kin : Value → Value → Prop
  | refl (v : Value) : Kin v v
  | num (a b : Number) : Kin (.num a) (.num b)
  | str (a b : String) : Kin (.str a) (.str b)
  | list (xs ys : List Slot) (h : ys.length = xs.length) : Kin (.list xs) (.list ys)
  | map (t t' : Table) (h : Store.labels t.entries <+: Store.labels t'.entries) :
    Kin (.map t) (.map t')

theorem Kin.trans (h : Kin u v) (h' : Kin v w) : Kin u w := by
  cases h with
  | refl => exact h'
  | num a b => cases h' <;> exact .num _ _
  | str a b => cases h' <;> exact .str _ _
  | list xs ys h =>
    cases h' with
    | refl => exact .list _ _ h
    | list _ zs h' => exact .list _ _ (h'.trans h)
  | map t t' h =>
    cases h' with
    | refl => exact .map _ _ h
    | map _ t'' h' => exact .map _ _ (h.trans h')

theorem Kin.isKey (h : Kin v w) : w.isKey = v.isKey := by
  cases h <;> rfl

theorem Kin.isContainer (h : Kin v w) : w.isContainer = v.isContainer := by
  cases h <;> rfl

theorem Kin.eq_num {a : Number} (h : Kin (.num a) w) : ∃ b, w = .num b := by
  cases h <;> exact ⟨_, rfl⟩

theorem Kin.eq_list {xs : List Slot} (h : Kin (.list xs) w) :
    ∃ ys, w = .list ys ∧ ys.length = xs.length := by
  cases h with
  | refl => exact ⟨xs, rfl, rfl⟩
  | list _ ys h => exact ⟨ys, rfl, h⟩

theorem Kin.eq_map (h : Kin (.map t) w) :
    ∃ t', w = .map t' ∧ Store.labels t.entries <+: Store.labels t'.entries := by
  cases h with
  | refl => exact ⟨t, rfl, prefix_rfl⟩
  | map _ t' h => exact ⟨t', rfl, h⟩

/-- A value that runs of the nodes make: the statements of a function are among them. -/
def Made (c : Setting) : Value → Prop
  | .func f => f.vararg = false ∧ ∀ n ∈ f.body, c.nodes n ∧ n.Avoids c.watched
  | .blank => False
  | _ => True

theorem IsScalar.ne_map (h : v.IsScalar) (t : Table) : v ≠ .map t := by
  rintro rfl
  obtain ⟨_, h⟩ | ⟨_, h⟩ := h <;> cases h

theorem IsScalar.made {c : Setting} (h : v.IsScalar) : v.Made c := by
  obtain ⟨_, rfl⟩ | ⟨_, rfl⟩ := h <;> trivial

end Value

/-- The keys of a map, and those that its links lead to, are of the kinds of keys. -/
structure Table.Keyed (s : Store) (t : Table) : Prop where
  keys : ∀ e ∈ t.entries, (s.get e.key).isKey = true
  links : ∀ es, t.successors = some es → ∀ e ∈ es, (s.get e.value).isKey = true

theorem Table.keyed_empty (s : Store) : Table.empty.Keyed s := by
  refine ⟨fun e he => absurd he not_mem_nil, fun es h => ?_⟩
  cases h

namespace Store

variable {c : Setting} {s s' s'' : Store} {r : Ref} {v : Value}

/-- The slot holds a number. -/
def IsNum (s : Store) (x : Slot) : Prop := ∃ n, s.get? x = some (.num n)

/-- The slot holds a list or map. -/
def IsContainer (s : Store) (x : Slot) : Prop :=
  (∃ items, s.get? x = some (.list items)) ∨ ∃ t, s.get? x = some (.map t)

/-- The slot holds a key to go on from in the list or map `x`. -/
def IsCursor (s : Store) (x key : Slot) : Prop :=
  ∃ k, s.get? key = some k ∧ k.isKey = true ∧ ∀ items t, s.get? x = some (.list items) → k ≠ .str t

structure Evolves (c : Setting) (s s' : Store) : Prop where
  size : s.cells.size ≤ s'.cells.size
  kin : ∀ r : Ref, r.index < s.cells.size → (s.get r).Kin (s'.get r)
  frozen : ∀ r : Ref, r.index < s.cells.size → c.frozen r → (s.get r).isContainer = false →
    s'.get r = s.get r
  tidy : (∀ r, c.frozen r) → s.Tidy → s'.Tidy

/-- A sound store with nothing but values that runs make. -/
structure Good (c : Setting) (s : Store) : Prop where
  sound : s.Sound
  made : ∀ r : Ref, r.index < s.cells.size → (s.get r).Made c
  keyed : ∀ r t, s.get r = .map t → t.Keyed s

theorem not_isNum {x : Slot} (h : ∀ n, s.get? x ≠ some (.num n)) : ¬s.IsNum x := by
  rintro ⟨n, hn⟩
  exact h n hn

theorem IsNum.live {x : Slot} (h : s.IsNum x) : Live s.cells.size x := by
  obtain ⟨n, hn⟩ := h
  cases x with
  | none => cases hn
  | some r => exact .some (lt_of_get_ne (by simp [Option.some.inj hn]))

namespace Evolves

theorem refl : Evolves c s s :=
  ⟨Nat.le_refl _, fun _ _ => .refl _, fun _ _ _ _ => rfl, fun _ h => h⟩

theorem trans (h : Evolves c s s') (h' : Evolves c s' s'') : Evolves c s s'' where
  size := Nat.le_trans h.size h'.size
  kin r hr := (h.kin r hr).trans (h'.kin r (Nat.lt_of_lt_of_le hr h.size))
  frozen r hr hf hc := by
    have first := h.frozen r hr hf hc
    rw [← first] at hc
    exact (h'.frozen r (Nat.lt_of_lt_of_le hr h.size) hf hc).trans first
  tidy hf ht := h'.tidy hf (h.tidy hf ht)

theorem alloc (hv : ∀ t, v = .map t → t = .empty) : Evolves c s (s.alloc v).2 := by
  have kept : ∀ r : Ref, r.index < s.cells.size → (s.alloc v).2.get r = s.get r := fun r hr =>
    Grows.alloc (w := none).kept r hr (Option.some_ne_none r).symm
  refine ⟨by simp, fun r hr => ?_, fun r hr _ _ => kept r hr, fun _ ht => ht.alloc hv⟩
  rw [kept r hr]
  exact .refl _

theorem set (hv : v.Sound s.cells.size) (hk : (s.get r).Kin v)
    (hf : c.frozen r → (s.get r).isContainer = true)
    (ht : s.Tidy → ∀ t, v = .map t → (∀ e ∈ t.entries, (s.get e.key).IsPlain) → t.Tidy s) :
    Evolves c s (s.set r v) := by
  refine ⟨by simp, fun q hq => ?_, fun q hq hq' hc => ?_, fun frozen tidy => ?_⟩
  · by_cases h : q = r
    · subst h
      rwa [get_set_self hq]
    · rw [get_set_of_ne h]
      exact .refl _
  · refine get_set_of_ne fun e => ?_
    subst e
    rw [hf hq'] at hc
    cases hc
  · refine tidy.set (hf (frozen r)) (fun t e => ?_) (ht tidy) (hk.isContainer ▸ hf (frozen r))
    subst e
    exact hv.keys

theorem isNum {x : Slot} (h : Evolves c s s') (hx : s.IsNum x) : s'.IsNum x := by
  obtain ⟨r, rfl, hr⟩ := hx.live
  obtain ⟨n, hn⟩ := hx
  have kin := h.kin r hr
  rw [Option.some.inj hn] at kin
  obtain ⟨b, hb⟩ := kin.eq_num
  exact ⟨b, congrArg some hb⟩

theorem isContainer {x : Slot} (h : Evolves c s s') (hl : Live s.cells.size x)
    (hx : s.IsContainer x) : s'.IsContainer x := by
  obtain ⟨r, rfl, hr⟩ := hl
  have kin := h.kin r hr
  rcases hx with ⟨items, hi⟩ | ⟨t, ht⟩
  · rw [Option.some.inj hi] at kin
    obtain ⟨ys, e, -⟩ := kin.eq_list
    exact .inl ⟨ys, congrArg some e⟩
  · rw [Option.some.inj ht] at kin
    obtain ⟨t', e, -⟩ := kin.eq_map
    exact .inr ⟨t', congrArg some e⟩

theorem isCursor {x : Slot} (h : Evolves c s s') (hl : Live s.cells.size x) (hk : Live s.cells.size key)
    (hx : s.IsCursor x key) : s'.IsCursor x key := by
  obtain ⟨r, rfl, hr⟩ := hl
  obtain ⟨q, rfl, hq⟩ := hk
  obtain ⟨k, hk, key, hs⟩ := hx
  cases hk
  have kin := h.kin q hq
  refine ⟨_, rfl, kin.isKey.trans key, fun items t hi e => ?_⟩
  have list : ∃ xs, s.get r = .list xs := by
    have kr := h.kin r hr
    rw [Option.some.inj hi] at kr
    generalize s.get r = v at kr
    cases kr <;> exact ⟨_, rfl⟩
  obtain ⟨xs, hxs⟩ := list
  rw [e] at kin
  generalize hv : s.get q = v at kin
  cases kin <;> exact hs xs _ (congrArg some hxs) hv

theorem keyed (h : Evolves c s s') (ht : t.Sound s.cells.size) (hk : t.Keyed s) : t.Keyed s' where
  keys e he := (h.kin e.key (ht.keys e he)).isKey.trans (hk.keys e he)
  links es hes e he := (h.kin e.value (ht.links es hes e he).2).isKey.trans (hk.links es hes e he)

end Evolves

namespace Good

theorem alloc (h : s.Good c) (hv : v.Sound s.cells.size) (hm : v.Made c)
    (hk : ∀ t, v = .map t → t = .empty) : (s.alloc v).2.Good c := by
  refine ⟨h.sound.alloc hv, fun r hr => ?_, fun r t ht => ?_⟩
  · rw [get_alloc]
    split
    · exact hm
    · rw [size_alloc] at hr
      exact h.made r (by omega)
  · rw [get_alloc] at ht
    split at ht
    · cases hk t ht
      exact Table.keyed_empty _
    · have sound := h.sound r
      rw [ht] at sound
      exact (Evolves.alloc hk (c := c)).keyed sound (h.keyed r t ht)

theorem set (h : s.Good c) (hv : v.Sound s.cells.size) (hm : v.Made c)
    (hk : ∀ t, v = .map t → t.Keyed s) (ev : Evolves c s (s.set r v)) : (s.set r v).Good c := by
  refine ⟨h.sound.set hv, fun q hq => ?_, fun q t ht => ?_⟩
  · rw [size_set] at hq
    by_cases e : q = r
    · subst e
      rwa [get_set_self hq]
    · rw [get_set_of_ne e]
      exact h.made q hq
  · have lt : q.index < s.cells.size := by
      have := lt_of_get_ne (s := s.set r v) (r := q) (by simp [ht])
      rwa [size_set] at this
    by_cases e : q = r
    · subst e
      rw [get_set_self lt] at ht
      subst ht
      exact ev.keyed hv (hk t rfl)
    · rw [get_set_of_ne e] at ht
      have sound := h.sound q
      rw [ht] at sound
      exact ev.keyed sound (h.keyed q t ht)

end Good

end Store

/-! ### Failures of calculations -/

/-- Every failure satisfies `X`. -/
def FailsOnly {α : Type} (X : Failure → Prop) (x : Except Failure α) : Prop := ∀ f, x = .error f → X f

namespace FailsOnly

variable {α β : Type} {X : Failure → Prop} {x : Except Failure α}
variable {g : α → Except Failure β}

theorem ok (a : α) : FailsOnly X (.ok a) := by
  intro f e
  cases e

theorem error (h : X f) : FailsOnly X (.error f : Except Failure α) := by
  intro f' e
  cases e
  exact h

theorem bind (hx : FailsOnly X x) (hg : ∀ a, FailsOnly X (g a)) : FailsOnly X (x >>= g) := by
  cases x with
  | error f => exact error (hx f rfl)
  | ok a => exact hg a

theorem mapM {xs : List α} (h : ∀ a ∈ xs, FailsOnly X (g a)) : FailsOnly X (xs.mapM g) := by
  induction xs with
  | nil => exact ok _
  | cons a xs ih =>
    obtain ⟨ha, hxs⟩ := forall_mem_cons.1 h
    rw [mapM_cons]
    exact bind ha fun _ => bind (ih hxs) fun _ => ok _

theorem mono (hx : FailsOnly X x) (h : ∀ f, X f → Y f) : FailsOnly Y x :=
  fun f e => h f (hx f e)

end FailsOnly

namespace Failure

/-- A value that has no text: a number with too many digits, or a list or map that contains
itself. -/
def IsTextless (f : Failure) : Prop := f = .fault .tooDeep ∨ f = .fault .badNumeral

/-- An operand of the wrong type. -/
def IsOperand (f : Failure) : Prop := ∃ e, f = .operand e

/-- A member that a list or map does not have. -/
def IsMember (f : Failure) : Prop := ∃ e, f = .member e

end Failure

open Failure (IsTextless IsOperand IsMember)

namespace Number

theorem render_failsOnly (n : Number) : FailsOnly (· = .fault .badNumeral) n.render := by
  cases n with
  | int i =>
    unfold render
    dsimp only
    split
    · exact .error rfl
    · exact .ok _
  | float x => exact .ok _

theorem toFloat_failsOnly (n : Number) : FailsOnly (· = .fault .overflow) n.toFloat := by
  cases n with
  | int i =>
    unfold toFloat
    dsimp only
    split
    · exact .error rfl
    · exact .ok _
  | float x => exact .ok _

theorem lift_failsOnly (f : Int → Int → Int) (g : Float → Float → Float) (a b : Number) :
    FailsOnly (· = .fault .overflow) (lift f g a b) := by
  unfold lift
  split
  · exact .ok _
  · exact .bind a.toFloat_failsOnly fun _ => .bind b.toFloat_failsOnly fun _ => .ok _

theorem div_failsOnly (a b : Number) :
    FailsOnly (fun f => f = .fault .overflow ∨ f = .fault .divisionByZero) (div a b) := by
  unfold div
  split
  · split
    · exact .error (.inr rfl)
    · exact .ok _
  · refine .bind (a.toFloat_failsOnly.mono fun _ h => .inl h) fun x => ?_
    refine .bind (b.toFloat_failsOnly.mono fun _ h => .inl h) fun y => ?_
    split
    · exact .error (.inr rfl)
    · exact .ok _

end Number

namespace Store

variable {c : Setting} {s : Store}

theorem Good.inner_failsOnly (hs : s.Good c) (d : Nat) {x : Slot} (hx : Live s.cells.size x) :
    FailsOnly IsTextless (s.inner d x) := by
  induction d generalizing x with
  | zero => exact .error (.inl rfl)
  | succ d ih =>
    obtain ⟨r, rfl, hr⟩ := hx
    have sound := hs.sound r
    have made := hs.made r hr
    have get : s.get? (some r) = some (s.get r) := rfl
    unfold inner
    rw [get]
    generalize s.get r = v at sound made
    cases v with
    | num n => exact n.render_failsOnly.mono fun _ h => .inr h
    | list items => exact .bind (.mapM fun y hy => ih (sound y hy)) fun _ => .ok _
    | map t =>
      refine .bind (.mapM fun e he => ?_) fun _ => .ok _
      exact .bind (ih (.some (sound.keys e he))) fun _ =>
        .bind (ih (sound.values e he)) fun _ => .ok _
    | blank => exact made.elim
    | _ => exact .ok _

theorem Good.text_failsOnly (hs : s.Good c) {x : Slot} (hx : Live s.cells.size x) :
    FailsOnly IsTextless (s.text x) := by
  unfold text
  split
  · exact .ok _
  · exact hs.inner_failsOnly _ hx

theorem Good.prompt_failsOnly (hs : s.Good c) {x : Slot} (hx : Live s.cells.size x) :
    FailsOnly (fun f => f = .fault .missingPart ∨ IsTextless f) (s.prompt x) := by
  have text := (hs.text_failsOnly hx).mono (Y := fun f => f = .fault .missingPart ∨ IsTextless f)
    fun _ h => .inr h
  unfold prompt
  split
  · exact .ok _
  · exact .ok _
  · exact text
  · exact text
  · exact text
  · exact text
  · exact text
  · exact .error (.inl rfl)

end Store

/-! ### Actions on the store -/

namespace Mem

variable {α β : Type} {c : Setting} {s : Store} {x : Mem α} {Q : α → Store → Prop}
  {X : Failure → Prop}

/-- From a good store an action leads to a good one, with cells of the same kinds. -/
def Acts (c : Setting) (x : Mem α) (Q : α → Store → Prop) (X : Failure → Prop) (s : Store) : Prop :=
  match x s with
  | .ok a s' => s'.Good c ∧ s.Evolves c s' ∧ Q a s'
  | .error f s' => s'.Good c ∧ s.Evolves c s' ∧ X f

namespace Acts

variable {R : β → Store → Prop} {y a : Slot} {v : Value} {r k : Ref}

theorem pure {a : α} (hs : s.Good c) (h : Q a s) : Acts c (Pure.pure a) Q X s := ⟨hs, .refl, h⟩

theorem throw (hs : s.Good c) (h : X f) : Acts c (MonadExcept.throw f : Mem α) Q X s := ⟨hs, .refl, h⟩

theorem bind {f : α → Mem β} (hx : Acts c x Q X s)
    (hf : ∀ a s', s'.Good c → s.Evolves c s' → Q a s' → Acts c (f a) R X s') :
    Acts c (x >>= f) R X s := by
  unfold Acts at hx
  cases e : x s with
  | ok a s₁ =>
    rw [e] at hx
    obtain ⟨hs₁, ev₁, hq⟩ := hx
    have rest := hf a s₁ hs₁ ev₁ hq
    unfold Acts at rest ⊢
    have run : (x >>= f) s = f a s₁ := by simp only [Bind.bind, EStateM.bind, e]
    rw [run]
    split
    · rename_i h
      rw [h] at rest
      exact ⟨rest.1, ev₁.trans rest.2.1, rest.2.2⟩
    · rename_i h
      rw [h] at rest
      exact ⟨rest.1, ev₁.trans rest.2.1, rest.2.2⟩
  | error f' s₁ =>
    rw [e] at hx
    have run : (x >>= f) s = .error f' s₁ := by simp only [Bind.bind, EStateM.bind, e]
    unfold Acts
    rw [run]
    exact hx

theorem mono {R : α → Store → Prop} (hx : Acts c x Q X s) (hQ : ∀ a s', Q a s' → R a s')
    (hX : ∀ f, X f → Y f) : Acts c x R Y s := by
  unfold Acts at hx ⊢
  split
  · rename_i h
    rw [h] at hx
    exact ⟨hx.1, hx.2.1, hQ _ _ hx.2.2⟩
  · rename_i h
    rw [h] at hx
    exact ⟨hx.1, hx.2.1, hX _ hx.2.2⟩

theorem failing (hx : Acts c x Q X s) (hX : ∀ f, X f → Y f) : Acts c x Q Y s :=
  hx.mono (fun _ _ h => h) hX

theorem left {R : α → Store → Prop} (hx : Acts c x (fun a s' => Q a s' ∧ R a s') X s) :
    Acts c x Q X s :=
  hx.mono (fun _ _ h => h.1) fun _ h => h

theorem map {g : α → β} (hx : Acts c x Q X s) (h : ∀ a s', Q a s' → R (g a) s') :
    Acts c (g <$> x) R X s := by
  exact bind (f := fun a => Pure.pure (g a)) hx fun a s' hs' _ hq => pure hs' (h a s' hq)

theorem ofExcept {z : Except Failure α} (hs : s.Good c) (hQ : ∀ a, z = .ok a → Q a s)
    (hX : FailsOnly X z) : Acts c (Mem.ofExcept z) Q X s := by
  cases z with
  | ok a => exact ⟨hs, .refl, hQ a rfl⟩
  | error f => exact ⟨hs, .refl, hX f rfl⟩

theorem get {f : Store → Mem α} (h : Acts c (f s) Q X s) : Acts c (MonadState.get >>= f) Q X s := h

theorem read {f : Option Value → Mem α} (h : Acts c (f (s.get? y)) Q X s) :
    Acts c (Mem.read y >>= f) Q X s := h

theorem alloc (hs : s.Good c) (hv : v.Sound s.cells.size) (hm : v.Made c)
    (hk : ∀ t, v = .map t → t = .empty) :
    Acts c (Mem.alloc v) (fun r s' => r.index < s'.cells.size ∧ s'.get r = v) X s := by
  refine ⟨hs.alloc hv hm hk, .alloc hk, by simp, ?_⟩
  exact s.get_alloc_self v

theorem allocPlain (hs : s.Good c) (hv : v.Sound 0) (hm : v.Made c) (hk : v.isContainer = false) :
    Acts c (Mem.alloc v) (fun r s' => r.index < s'.cells.size ∧ s'.get r = v) X s := by
  refine alloc hs (hv.mono (Nat.zero_le _)) hm fun t e => ?_
  subst e
  cases hk

theorem write (hs : s.Good c) (hv : v.Sound s.cells.size) (hm : v.Made c)
    (hk : ∀ t, v = .map t → t.Keyed s) (kin : (s.get r).Kin v)
    (hf : c.frozen r → (s.get r).isContainer = true)
    (ht : s.Tidy → ∀ t, v = .map t → (∀ e ∈ t.entries, (s.get e.key).IsPlain) → t.Tidy s) :
    Acts c (Mem.write r v) (fun _ _ => True) X s :=
  ⟨hs.set hv hm hk (.set hv kin hf ht), .set hv kin hf ht, trivial⟩

/-! ### Operators -/

theorem newBool (hs : s.Good c) (b : Bool) :
    Acts c (Mem.newBool b) (fun r s' => Fresh s'.cells.size r) X s :=
  (allocPlain (v := .bool b) hs trivial trivial rfl).left

theorem newNum (hs : s.Good c) (n : Number) :
    Acts c (Mem.newNum n) (fun r s' => r.index < s'.cells.size ∧ s'.get r = .num n) X s :=
  allocPlain hs trivial trivial rfl

theorem newNull (hs : s.Good c) :
    Acts c Mem.newNull (fun r s' => r.index < s'.cells.size ∧ s'.get r = .null) X s :=
  allocPlain hs trivial trivial rfl

theorem newNullBeside (hs : s.Good c) : Acts c Mem.newNull (fun r s' =>
    (r.index < s'.cells.size ∧ s'.get r = .null) ∧
      ∀ q : Ref, q.index < s.cells.size → s'.get q = s.get q) X s := by
  have kept : ∀ q : Ref, q.index < s.cells.size → (s.alloc .null).2.get q = s.get q := fun q hq =>
    Store.Grows.alloc (w := none).kept q hq (by simp)
  have new := newNull hs (X := X)
  exact ⟨new.1, new.2.1, new.2.2, kept⟩

theorem equals (hs : s.Good c) (a b : Slot) : Acts c (Mem.equals a b) (fun _ _ => True)
    (fun f => f = .operand .typesDiffer ∨ f = .fault .missingPart) s := by
  refine get (ofExcept hs (fun _ _ => trivial) ?_)
  unfold isEqual
  split
  · split
    · exact .error (.inl rfl)
    · split
      · exact .ok _
      · exact .ok _
      · exact .ok _
      · exact .ok _
      · exact .ok _
      · exact .ok _
      · exact .ok _
      · exact .error (.inr rfl)
  · exact .error (.inr rfl)
  · exact .error (.inl rfl)

/-- Two operands are numbers, or the error tells which of them is none. -/
theorem numbers (hs : s.Good c) (left right : OperandError) (a b : Slot) :
    Acts c (Mem.numbers left right a b) (fun p s' => s' = s ∧ s.get? a = some (.num p.1))
      (fun f => f = .operand left ∧ ¬s.IsNum a ∨ f = .operand right ∧ ¬s.IsNum b) s := by
  refine read ?_
  split
  · refine read ?_
    split
    · exact pure hs ⟨rfl, ‹_›⟩
    · rename_i h
      exact throw hs (.inr ⟨rfl, Store.not_isNum h⟩)
  · rename_i h
    exact throw hs (.inl ⟨rfl, Store.not_isNum h⟩)

theorem less (hs : s.Good c) (a b : Slot) : Acts c (Mem.less a b) (fun _ _ => True)
    (fun f => IsOperand f ∧ ¬(s.IsNum a ∧ s.IsNum b)) s := by
  refine bind ((numbers hs _ _ a b).failing fun f h => ?_)
    fun _ _ hs' _ _ => pure hs' trivial
  rcases h with ⟨rfl, h⟩ | ⟨rfl, h⟩
  · exact ⟨⟨_, rfl⟩, fun both => h both.1⟩
  · exact ⟨⟨_, rfl⟩, fun both => h both.2⟩

theorem lessEq (hs : s.Good c) (a b : Slot) :
    Acts c (Mem.lessEq a b) (fun _ _ => True) IsOperand s := by
  refine bind ((numbers hs _ _ a b).failing fun f h => ?_)
    fun _ _ hs' _ _ => pure hs' trivial
  rcases h with ⟨rfl, -⟩ | ⟨rfl, -⟩ <;> exact ⟨_, rfl⟩

theorem negated {test : Mem Bool} (h : Acts c test (fun _ _ => True) X s) :
    Acts c ((some <$> (do Mem.newBool (← test))) >>= Mem.negate)
      (fun v s' => Live s'.cells.size v) X s := by
  rw [bind_negate]
  exact (bind h fun _ _ hs' _ _ => newBool hs' _).map fun _ _ hr => .some hr

/-- The result of a calculation is of the kind of its left operand `a`. -/
def Calculated (s : Store) (a : Slot) (v : Value) (s' : Store) : Prop :=
  s' = s ∧ v.IsScalar ∧ ∃ u, s.get? a = some u ∧ u.Kin v

theorem sum (hs : s.Good c) (a b : Slot) : Acts c (Mem.sum a b) (Calculated s a)
    (fun f => f = .fault .overflow ∨ f = .fault .badNumeral ∧ ¬s.IsNum a ∨
      IsOperand f ∧ (s.IsNum a → f = .operand .rightNotNumber ∧ ¬s.IsNum b)) s := by
  refine read ?_
  split
  · rename_i m ha
    refine read ?_
    split
    · rename_i n hb
      refine bind (ofExcept (Q := fun _ s' => s' = s) hs (fun _ _ => rfl)
        ((m.lift_failsOnly _ _ n).mono fun _ h => .inl h)) fun k s' hs' _ e => ?_
      exact pure hs' ⟨e, .inl ⟨k, rfl⟩, .num m, ha, .num _ _⟩
    · rename_i h
      exact throw hs (.inr (.inr ⟨⟨_, rfl⟩, fun _ => ⟨rfl, Store.not_isNum h⟩⟩))
  · rename_i t ha
    have hna : ¬s.IsNum a := Store.not_isNum fun n => by simp [ha]
    refine read ?_
    split
    · rename_i n hb
      refine bind (ofExcept (Q := fun _ s' => s' = s) hs (fun _ _ => rfl)
        (n.render_failsOnly.mono fun _ h => .inr (.inl ⟨h, hna⟩))) fun k s' hs' _ e => ?_
      exact pure hs' ⟨e, .inr ⟨_, rfl⟩, .str t, ha, .str _ _⟩
    · exact pure hs ⟨rfl, .inr ⟨_, rfl⟩, .str t, ha, .str _ _⟩
    · exact throw hs (.inr (.inr ⟨⟨_, rfl⟩, fun h => absurd h hna⟩))
  · rename_i h _
    exact throw hs (.inr (.inr ⟨⟨_, rfl⟩, fun hn => absurd hn (Store.not_isNum h)⟩))

theorem arithmetic (hs : s.Good c) {op : Number → Number → Except Failure Number}
    (hop : ∀ m n, FailsOnly Y (op m n)) (a b : Slot) :
    Acts c (Mem.arithmetic op a b) (Calculated s a) (fun f => IsOperand f ∨ Y f) s := by
  refine bind ((numbers hs _ _ a b).failing fun f h => ?_) fun p s' hs' _ e => ?_
  · rcases h with ⟨rfl, -⟩ | ⟨rfl, -⟩ <;> exact .inl ⟨_, rfl⟩
  · obtain ⟨rfl, ha⟩ := e
    refine bind (ofExcept (Q := fun _ s'' => s'' = s') hs' (fun _ _ => rfl)
      ((hop p.1 p.2).mono fun _ h => .inr h)) fun k s'' hs'' _ e' => ?_
    exact pure hs'' ⟨e', .inl ⟨k, rfl⟩, _, ha, .num _ _⟩

theorem calculated {x : Mem Value} (hx : Acts c x (Calculated s a) X s) :
    Acts c (do Mem.alloc (← x))
      (fun r s' => Fresh s'.cells.size r ∧ (s.IsNum a → s'.IsNum (some r))) X s := by
  refine bind hx fun v s' hs' _ hv => ?_
  obtain ⟨-, scalar, u, hu, kin⟩ := hv
  refine (alloc hs' scalar.sound scalar.made fun t e => ?_).mono (fun r s'' h => ⟨h.1, ?_⟩)
    fun _ h => h
  · exact absurd e (scalar.ne_map t)
  · rintro ⟨n, hn⟩
    rw [hu] at hn
    cases hn
    obtain ⟨k, rfl⟩ := kin.eq_num
    exact ⟨k, congrArg some h.2⟩

/-- Writing the result of a calculation to the cell of its left operand. -/
theorem updated {x : Mem Value} (ha : Live s.cells.size a) (hf : ∀ r, a = some r → ¬c.frozen r)
    (hx : Acts c x (Calculated s a) X s) : Acts c (do Mem.writeSlot a (← x)) (fun _ _ => True) X s := by
  obtain ⟨r, rfl, hr⟩ := ha
  refine bind hx fun v s' hs' _ hv => ?_
  obtain ⟨rfl, scalar, u, hu, kin⟩ := hv
  cases hu
  exact write hs' scalar.sound scalar.made (fun t e => absurd e (scalar.ne_map t)) kin
    (fun h => absurd h (hf r rfl)) fun _ t e => absurd e (scalar.ne_map t)

theorem truth (hs : s.Good c) (a : Slot) :
    Acts c (Mem.truth a) (fun _ _ => True) IsOperand s := by
  refine read ?_
  split
  · exact pure hs trivial
  · exact pure hs trivial
  · exact pure hs trivial
  · exact throw hs ⟨_, rfl⟩

theorem not (hs : s.Good c) (a : Slot) :
    Acts c (Mem.not a) (fun r s' => Fresh s'.cells.size r) IsOperand s :=
  bind (truth hs a) fun _ _ hs' _ _ => newBool hs' _

theorem plus (hs : s.Good c) (ha : Live s.cells.size a) :
    Acts c (Mem.plus a) (fun v s' => Live s'.cells.size v) IsOperand s := by
  refine read ?_
  split
  · exact pure hs ha
  · exact throw hs ⟨_, rfl⟩

theorem minus (hs : s.Good c) (a : Slot) :
    Acts c (Mem.minus a) (fun r s' => Fresh s'.cells.size r) IsOperand s := by
  refine read ?_
  split
  · exact (newNum hs _).left
  · exact throw hs ⟨_, rfl⟩

/-! ### Members -/

theorem listPlace_failsOnly (n : Nat) (key : Option Value) :
    FailsOnly (fun f => IsMember f ∨ f = .fault .badNumeral) (listPlace n key) := by
  unfold listPlace
  split
  · split
    · exact .ok _
    · exact .bind ((Number.render_failsOnly _).mono fun _ h => .inr h) fun _ =>
        .error (.inl ⟨_, rfl⟩)
  · exact .error (.inl ⟨_, rfl⟩)

theorem mapKey_failsOnly (s : Store) (key : Slot) :
    FailsOnly (· = .member .keyNotAllowed) (mapKey s key) := by
  unfold mapKey
  split
  · split
    · exact .ok _
    · exact .error rfl
  · exact .error rfl

theorem isKey_of_mapKey (h : mapKey s key = .ok k) : (s.get k).isKey = true := by
  unfold mapKey at h
  split at h
  · split at h
    · cases h
      assumption
    · cases h
  · cases h

theorem keyed_putEntry (h : t.Keyed s) (hk : (s.get k).isKey = true) (v : Slot) :
    (putEntry s t k v).Keyed s where
  keys e he := by
    rcases Store.mem_put he with he | ⟨-, rfl | ⟨e₀, he₀, e₁⟩⟩
    · exact h.keys e he
    · exact hk
    · exact e₁ ▸ h.keys e₀ he₀
  links := h.links

/-- Setting a member of a list or map fails for want of the member, or of a text for its index; a
map refuses keys only. -/
theorem setMember (hs : s.Good c) {x v : Slot} (hx : Live s.cells.size x) (hc : s.IsContainer x)
    (hk : Live s.cells.size key) (hv : Live s.cells.size v) :
    Acts c (Mem.setMember x key v) (fun _ _ => True)
      (fun f => (IsMember f ∨ f = .fault .badNumeral) ∧
        ((∃ t, s.get? x = some (.map t)) → f = .member .keyNotAllowed)) s := by
  obtain ⟨r, rfl, hr⟩ := hx
  have get? : s.get? (some r) = some (s.get r) := rfl
  have sound := hs.sound r
  refine get ?_
  split
  · rename_i items e
    rw [get?] at e
    have e := Option.some.inj e
    rw [e] at sound
    refine bind (ofExcept (Q := fun _ s' => s' = s) hs (fun _ _ => rfl)
      ((listPlace_failsOnly _ _).mono fun f h => ⟨h, ?_⟩)) fun p s' hs' _ e' => ?_
    · rintro ⟨t, ht⟩
      rw [get?, e] at ht
      cases ht
    · subst e'
      refine write hs' (fun y hy => ?_) trivial (fun _ h => by cases h)
        (e ▸ .list _ _ length_set) (fun _ => by rw [e]; rfl) fun _ _ h => by cases h
      rcases mem_or_eq_of_mem_set hy with hy | rfl
      · exact sound y hy
      · exact hv
  · rename_i t e
    rw [get?] at e
    have e := Option.some.inj e
    rw [e] at sound
    refine bind (ofExcept (Q := fun k s' => s' = s ∧ mapKey s key = .ok k) hs
      (fun k h => ⟨rfl, h⟩) ((mapKey_failsOnly _ _).mono fun f h => ⟨.inl ⟨_, h⟩, fun _ => h⟩))
      fun k s' hs' _ h => ?_
    obtain ⟨rfl, hk'⟩ := h
    have lt : k.index < s'.cells.size := by
      rw [eq_some_of_mapKey hk'] at hk
      exact hk.index_lt
    refine write hs' (Table.Sound.put sound lt hv) trivial (fun u hu => ?_)
      (e ▸ .map _ _ (Store.labels_put s' k v t.entries)) (fun _ => by rw [e]; rfl)
      fun tidy u hu plain => ?_
    · cases hu
      exact keyed_putEntry (hs'.keyed r t e) (isKey_of_mapKey hk') v
    · cases hu
      refine (tidy.maps r t e fun e₀ he₀ => ?_).put plain
      -- the keys that were there are still there
      have mem := (Store.labels_put s' k v t.entries).subset (mem_map_of_mem he₀)
      obtain ⟨e₁, he₁, eq⟩ := mem_map.1 mem
      exact (Prod.mk.inj eq).2 ▸ plain e₁ he₁
  · rename_i h₁ h₂
    rcases hc with ⟨items, e⟩ | ⟨t, e⟩
    · exact absurd e (h₁ items)
    · exact absurd e (h₂ t)

theorem member? (hs : s.Good c) {x : Slot} (hc : s.IsContainer x) (key : Slot) :
    Acts c (Mem.member? x key) (fun y s' => ∀ v, y = some v → Live s'.cells.size v)
      (fun f => IsMember f ∨ f = .fault .badNumeral) s := by
  refine get ?_
  split
  · rename_i items e
    refine bind (ofExcept (Q := fun _ s' => s' = s) hs (fun _ _ => rfl) (listPlace_failsOnly _ _))
      fun p s' hs' _ e' => pure hs' fun v hv => ?_
    exact e' ▸ hs.sound.get? e v (mem_of_getElem? hv)
  · rename_i t e
    refine bind (ofExcept (Q := fun _ s' => s' = s) hs (fun _ _ => rfl)
      ((mapKey_failsOnly _ _).mono fun f h => .inl ⟨_, h⟩)) fun k s' hs' _ e' => pure hs' fun v hv => ?_
    obtain ⟨e₀, he₀, rfl⟩ := Option.map_eq_some_iff.1 hv
    exact e' ▸ (hs.sound.get? e).values e₀ (Store.mem_of_find? he₀)
  · rename_i h₁ h₂
    rcases hc with ⟨items, e⟩ | ⟨t, e⟩
    · exact absurd e (h₁ items)
    · exact absurd e (h₂ t)

/-- The links of a map lead to its keys, and at last to null. -/
theorem value_mem_linkKeys {start last : Ref} {keys : List Ref} {e : Entry Ref}
    (h : e ∈ linkKeys s start last keys) : e.value = last ∨ e.value ∈ keys := by
  -- the links made so far lead to keys
  have go : ∀ (ks : List Ref) (acc : List (Entry Ref) × Ref), (∀ k ∈ ks, k ∈ keys) →
      (∀ e ∈ acc.1, e.value ∈ keys) →
      ∀ e ∈ (ks.foldl (fun acc k => (s.put acc.2 k acc.1, k)) acc).1, e.value ∈ keys := by
    intro ks
    induction ks with
    | nil => exact fun acc _ h => h
    | cons k ks ih =>
      intro acc hk hacc
      obtain ⟨hk₁, hks⟩ := forall_mem_cons.1 hk
      refine ih _ hks fun e he => ?_
      rcases Store.mem_put he with he | ⟨rfl, -⟩
      · exact hacc e he
      · exact hk₁
  rcases Store.mem_put h with h | ⟨h, -⟩
  · exact .inr (go keys ([], start) (fun _ h => h) (fun _ h => absurd h not_mem_nil) e h)
  · exact .inl h

theorem successors (hs : s.Good c) (ht : s.get r = .map t) :
    Acts c (Mem.successors r t)
      (fun links s' => ∀ e ∈ links, e.value.index < s'.cells.size ∧ (s'.get e.value).isKey = true)
      (· = .fault .wrongKind) s := by
  have sound : t.Sound s.cells.size := by
    have := hs.sound r
    rwa [ht] at this
  have lt : r.index < s.cells.size := Store.lt_of_get_ne (by simp [ht])
  have keyed := hs.keyed r t ht
  unfold Mem.successors
  split
  · rename_i grown
    refine bind (newNullBeside hs) fun start s₁ hs₁ ev₁ h₁ =>
      bind (newNullBeside hs₁) fun last s₂ hs₂ ev₂ h₂ => ?_
    obtain ⟨h₁, kept₁⟩ := h₁
    obtain ⟨h₂, kept₂⟩ := h₂
    have ev := ev₁.trans ev₂
    have sound₂ := sound.mono ev.size
    have keyed₂ := ev.keyed sound keyed
    have key : ∀ e ∈ linkKeys s₂ start last (t.entries.map (·.key)),
        e.value.index < s₂.cells.size ∧ (s₂.get e.value).isKey = true := by
      intro e he
      rcases value_mem_linkKeys he with e₁ | he
      · rw [e₁, h₂.2]
        exact ⟨h₂.1, rfl⟩
      · obtain ⟨e₀, he₀, e₁⟩ := mem_map.1 he
        exact e₁ ▸ ⟨sound₂.keys e₀ he₀, keyed₂.keys e₀ he₀⟩
    have links : LinksTo s₂.cells.size (linkKeys s₂ start last (t.entries.map (·.key))) := by
      refine linksTo_linkKeys s₂ (Nat.lt_of_lt_of_le h₁.1 ev₂.size) h₂.1 fun k hk => ?_
      obtain ⟨e, he, rfl⟩ := mem_map.1 hk
      exact sound₂.keys e he
    have ht₂ : s₂.get r = .map t := by
      rw [kept₂ r (Nat.lt_of_lt_of_le lt ev₁.size), kept₁ r lt, ht]
    have null₁ : s₂.get start = .null := (kept₂ start h₁.1).trans h₁.2
    refine get (bind (write hs₂ ?_ trivial (fun u hu => ?_) (ht₂ ▸ .map _ _ prefix_rfl)
      (fun _ => by rw [ht₂]; rfl) fun tidy u hu plain => ?_)
      fun _ s₃ hs₃ ev₃ _ => pure hs₃ fun e he => ?_)
    · exact ⟨sound₂.keys, sound₂.values, fun es hes => by cases hes; exact links, sound₂.marks⟩
    · cases hu
      exact ⟨keyed₂.keys, fun es hes => by cases hes; exact fun e he => (key e he).2⟩
    · cases hu
      have tidy := tidy.maps r t ht₂ plain
      refine tidy.relinked null₁ h₂.2 fun e => ?_
      rw [tidy.empty e] at grown
      cases grown
    · obtain ⟨hi, hk⟩ := key e he
      exact ⟨Nat.lt_of_lt_of_le hi ev₃.size, (ev₃.kin _ hi).isKey.trans hk⟩
  · split
    · rename_i links hl
      exact pure hs fun e he => ⟨(sound.links links hl e he).2, keyed.links links hl e he⟩
    · exact throw hs rfl

/-- What going on from a key in `x` yields: a key and a value, and the key is null or one to go on
from. -/
def Entered (x : Slot) (kv : Slot × Slot) (s : Store) : Prop :=
  Live s.cells.size kv.1 ∧ Live s.cells.size kv.2 ∧ s.IsCursor x kv.1

theorem nothing (hs : s.Good c) (x : Slot) :
    Acts c (do return (some (← Mem.newNull), some (← Mem.newNull))) (Entered x) X s := by
  refine bind (newNull hs) fun a s₁ hs₁ _ ha => bind (newNull hs₁) fun b s₂ hs₂ ev₂ hb => ?_
  refine pure hs₂ ⟨(Live.some ha.1).mono ev₂.size, .some hb.1, .null, ?_, rfl, fun _ _ _ h => by cases h⟩
  have kin := ev₂.kin a ha.1
  rw [ha.2] at kin
  generalize hv : s₂.get a = v at kin
  cases kin
  exact congrArg some hv

theorem numbered (hs : s.Good c) (x : Slot) (hy : Live s.cells.size y) (n : Number) :
    Acts c (do return (some (← Mem.newNum n), y)) (Entered x) X s :=
  bind (newNum hs n) fun _ _ hs₁ ev₁ hr =>
    pure hs₁ ⟨.some hr.1, hy.mono ev₁.size, .num n, congrArg some hr.2, rfl, fun _ _ _ h => by cases h⟩

/-- The failures of going through a list or map. -/
def Lost (f : Failure) : Prop :=
  f = .fault .wrongKind ∨ f = .fault .indexRange ∨ f = .fault .missingKey

theorem next (hs : s.Good c) {x : Slot} (hc : s.IsContainer x) (hk : s.IsCursor x key) :
    Acts c (Mem.next x key) (Entered x) Lost s := by
  obtain ⟨k, hk, isKey, noText⟩ := hk
  refine read ?_
  split
  · rename_i _ items e
    refine read ?_
    rw [hk]
    have live : ∀ y ∈ items, Live s.cells.size y := hs.sound.get? e
    cases k with
    | null =>
      cases items with
      | nil => exact nothing hs _
      | cons y ys => exact numbered hs _ (live y (by simp)) _
    | num n =>
      dsimp only
      split
      · split
        · exact throw hs (.inl rfl)
        · split
          · rename_i y e'
            obtain ⟨p, -, hp⟩ := Option.bind_eq_some_iff.1 e'
            exact numbered hs _ (live y (mem_of_getElem? hp)) _
          · exact throw hs (.inr (.inl rfl))
      · exact nothing hs _
    | str t => exact absurd rfl (noText items t e)
    | _ => cases isKey
  · rename_i _ r t e
    have ht : s.get r = .map t := Option.some.inj e
    have sound : t.Sound s.cells.size := hs.sound.get? e
    have keyOk : ∃ q, mapKey s key = .ok q := by
      cases key with
      | none => cases hk
      | some q =>
        have := Option.some.inj hk
        exact ⟨q, by simp only [mapKey, this, isKey, if_true]⟩
    obtain ⟨q, hq⟩ := keyOk
    have links := (successors hs ht).mono (Y := Lost) (fun _ _ h => h) fun _ h => .inl h
    refine get ?_
    rw [hq]
    refine bind (ofExcept (Q := fun _ s' => s' = s) hs (fun _ _ => rfl) (.ok q))
      fun _ s' _ _ e' => ?_
    subst e'
    refine bind links fun links s₁ hs₁ ev₁ hl => get ?_
    split
    · exact throw hs₁ (.inr (.inr rfl))
    · rename_i link hlink
      obtain ⟨hi, isKey₁⟩ := hl link (Store.mem_of_find? hlink)
      -- the cell of the map still holds a map
      have noList : ∀ {s' : Store}, s₁.Evolves c s' → ∀ items u,
          s'.get? (some r) = some (.list items) → s'.get link.value ≠ .str u := by
        intro s' ev' items u h
        have kin := (ev₁.trans ev').kin r (Store.lt_of_get_ne (by simp [ht]))
        rw [ht, Option.some.inj h] at kin
        cases kin
      split
      · refine bind (newNull hs₁) fun v s₂ hs₂ ev₂ hv => pure hs₂ ⟨?_, .some hv.1, ?_⟩
        · exact (Live.some hi).mono ev₂.size
        · exact ⟨_, rfl, (ev₂.kin _ hi).isKey.trans isKey₁, noList ev₂⟩
      · split
        · rename_i e₀ he₀
          have hv := (sound.values e₀ (Store.mem_of_find? he₀)).mono ev₁.size
          exact pure hs₁ ⟨.some hi, hv, _, rfl, isKey₁, noList .refl⟩
        · exact throw hs₁ (.inr (.inr rfl))
  · rename_i y _ _ h₁ h₂
    rcases hc with ⟨items, e⟩ | ⟨t, e⟩
    · exact absurd e (h₁ items)
    · cases y with
      | none => cases e
      | some r => exact absurd e (h₂ r t rfl)

end Acts

end Mem

end TinyScript
