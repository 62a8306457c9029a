import TinyScript.Store.Members
import TinyScript.Proofs.Syntax

/-!
# Sound stores

A store is sound if every reference in it leads to one of its cells, no list or map has an empty
place, and the functions in it are trees of the grammar. `Keeps w n x P`: on a sound store of at
least `n` cells, `x` keeps the store sound, changes no old cell but the one in `w`, and yields a
result with `P`, which may speak of the number of cells. All actions of the store are followed here;
what is built on them needs no look at cells.
-/

namespace TinyScript

open List

variable {n n' : Nat} {r q k : Ref} {x : Slot} {m : Mark} {links : List (Entry Ref)} {t : Table}
  {v : Value} {s : Store}

/-- A slot with one of the first `n` cells. -/
def Live (n : Nat) (x : Slot) : Prop := ∃ r : Ref, x = some r ∧ r.index < n

theorem Live.some (h : r.index < n) : Live n (some r) := ⟨r, rfl, h⟩

theorem Live.index_lt (h : Live n (Option.some r)) : r.index < n := by
  obtain ⟨r', e, h⟩ := h
  cases e
  exact h

theorem Live.mono (h : Live n x) (hn : n ≤ n') : Live n' x := by
  obtain ⟨r, rfl, hr⟩ := h
  exact .some (Nat.lt_of_lt_of_le hr hn)

/-- A function whose parts are trees of the grammar. -/
structure Closure.Parsed (f : Closure) : Prop where
  params : ∀ x ∈ f.params.getD [], x.IsName
  body : ∀ s ∈ f.body, s.IsStat

/-- A mark that names one of the first `n` cells, or none. -/
def Mark.Within (n : Nat) : Mark → Prop
  | .notANumber c => c.index < n
  | _ => True

theorem Mark.Within.mono (h : m.Within n) (hn : n ≤ n') : m.Within n' := by
  cases m with
  | notANumber c => exact Nat.lt_of_lt_of_le h hn
  | _ => trivial

/-- Links of a map among the first `n` cells. -/
def LinksTo (n : Nat) (links : List (Entry Ref)) : Prop :=
  ∀ e ∈ links, (e.key.index < n ∧ e.mark.Within n) ∧ e.value.index < n

theorem LinksTo.mono (h : LinksTo n links) (hn : n ≤ n') : LinksTo n' links := by
  intro e he
  obtain ⟨⟨hk, hm⟩, hv⟩ := h e he
  exact ⟨⟨Nat.lt_of_lt_of_le hk hn, hm.mono hn⟩, Nat.lt_of_lt_of_le hv hn⟩

/-- A map with references to the first `n` cells. -/
structure Table.Sound (n : Nat) (t : Table) : Prop where
  keys : ∀ e ∈ t.entries, e.key.index < n
  values : ∀ e ∈ t.entries, Live n e.value
  links : ∀ es, t.successors = some es → LinksTo n es
  marks : ∀ e ∈ t.entries, e.mark.Within n

/-- A value with references to the first `n` cells. -/
def Value.Sound (n : Nat) : Value → Prop
  | .list items => ∀ x ∈ items, Live n x
  | .map t => t.Sound n
  | .func f => f.Parsed
  | _ => True

theorem Table.Sound.mono (h : t.Sound n) (hn : n ≤ n') : t.Sound n' where
  keys e he := Nat.lt_of_lt_of_le (h.keys e he) hn
  values e he := (h.values e he).mono hn
  links es hes := (h.links es hes).mono hn
  marks e he := (h.marks e he).mono hn

theorem Table.sound_empty (n : Nat) : Table.empty.Sound n where
  keys _ he := absurd he not_mem_nil
  values _ he := absurd he not_mem_nil
  links _ hes := by cases hes
  marks _ he := absurd he not_mem_nil

theorem Value.Sound.mono (h : v.Sound n) (hn : n ≤ n') : v.Sound n' := by
  cases v with
  | list items => exact fun x hx => Live.mono (h x hx) hn
  | map t => exact Table.Sound.mono h hn
  | func f => exact h
  | _ => trivial

/-- The values that `+=` and `-=` can change. -/
def Value.IsScalar (v : Value) : Prop := (∃ n, v = .num n) ∨ ∃ s, v = .str s

theorem Value.IsScalar.sound (h : v.IsScalar) : v.Sound n := by
  obtain ⟨_, rfl⟩ | ⟨_, rfl⟩ := h <;> trivial

/-! ### Cells -/

namespace Store

variable {s s' s'' : Store} {v : Value} {r : Ref}
variable {α : Type} {es : List (Entry α)} {e : Entry α}

theorem get_of_ge (h : s.cells.size ≤ r.index) : s.get r = .blank := by
  simp [get, h]

theorem lt_of_get_ne (h : s.get r ≠ .blank) : r.index < s.cells.size :=
  Nat.lt_of_not_le fun hr => h (get_of_ge hr)

theorem get_alloc (s : Store) (v : Value) (r : Ref) :
    (s.alloc v).2.get r = if r.index = s.cells.size then v else s.get r := by
  simp only [alloc, get, Array.getD_eq_getD_getElem?, Array.getElem?_push]
  split <;> rfl

theorem get_alloc_self (s : Store) (v : Value) : (s.alloc v).2.get (s.alloc v).1 = v :=
  (s.get_alloc v _).trans (if_pos rfl)

/-- A new cell is none of the cells before: to write to it is to make it with the other content. -/
theorem set_alloc_self (s : Store) (v w : Value) :
    (s.alloc v).2.set (s.alloc v).1 w = (s.alloc w).2 := by
  simp only [alloc, set, mk.injEq]
  apply Array.ext'
  simp

@[simp] theorem size_alloc (s : Store) (v : Value) :
    (s.alloc v).2.cells.size = s.cells.size + 1 := by
  simp [alloc]

@[simp] theorem size_set (s : Store) (r : Ref) (v : Value) :
    (s.set r v).cells.size = s.cells.size := by
  simp [set]

theorem get_set_self (h : r.index < s.cells.size) : (s.set r v).get r = v := by
  simp [set, get, Array.getElem?_setIfInBounds_self_of_lt h]

theorem get_set_of_ne (h : q ≠ r) : (s.set r v).get q = s.get q := by
  have hi : r.index ≠ q.index := fun e => h (by cases q; cases r; exact congrArg Ref.mk e.symm)
  simp [set, get, Array.getElem?_setIfInBounds_ne hi]

/-- All references lead to cells. -/
def Sound (s : Store) : Prop := ∀ r, (s.get r).Sound s.cells.size

theorem Sound.alloc (h : s.Sound) (hv : v.Sound s.cells.size) : (s.alloc v).2.Sound := by
  intro r
  rw [get_alloc, size_alloc]
  split
  · exact hv.mono (Nat.le_succ _)
  · exact (h r).mono (Nat.le_succ _)

theorem Sound.set (h : s.Sound) (hv : v.Sound s.cells.size) : (s.set r v).Sound := by
  intro q
  rw [size_set]
  by_cases hq : q = r
  · subst hq
    by_cases hi : q.index < s.cells.size
    · rwa [get_set_self hi]
    · rw [get_of_ge (by simpa using hi)]
      trivial
  · rw [get_set_of_ne hq]
    exact h q

theorem Sound.get? (h : s.Sound) (hx : s.get? x = some v) : v.Sound s.cells.size := by
  cases x with
  | none => cases hx
  | some r =>
    cases hx
    exact h r

/-- `s'` is `s` with cells added, and with none of its own changed but the one in `w`. -/
structure Grows (w : Slot) (s s' : Store) : Prop where
  size : s.cells.size ≤ s'.cells.size
  kept : ∀ r : Ref, r.index < s.cells.size → w ≠ some r → s'.get r = s.get r

namespace Grows

variable {w : Slot}

theorem refl : Grows w s s := ⟨Nat.le_refl _, fun _ _ _ => rfl⟩

theorem trans (h : Grows w s s') (h' : Grows w s' s'') : Grows w s s'' where
  size := Nat.le_trans h.size h'.size
  kept r hr hw := (h'.kept r (Nat.lt_of_lt_of_le hr h.size) hw).trans (h.kept r hr hw)

theorem alloc : Grows w s (s.alloc v).2 where
  size := by simp
  kept r hr _ := by rw [get_alloc, if_neg (Nat.ne_of_lt hr)]

theorem set : Grows (some r) s (s.set r v) where
  size := by simp
  kept q _ hw := get_set_of_ne fun e => hw (by rw [e])

end Grows

/-! ### Entries -/

theorem mem_put {a : α} (h : e ∈ s.put k a es) :
    e ∈ es ∨ e.value = a ∧ (e.key = k ∨ ∃ e₀ ∈ es, e.key = e₀.key) := by
  induction es with
  | nil =>
    obtain rfl := mem_singleton.1 h
    exact .inr ⟨rfl, .inl rfl⟩
  | cons e₀ es ih =>
    unfold put at h
    split at h
    · rcases mem_cons.1 h with rfl | h
      · exact .inr ⟨rfl, .inr ⟨e₀, by simp, rfl⟩⟩
      · exact .inl (mem_cons_of_mem _ h)
    · rcases mem_cons.1 h with rfl | h
      · exact .inl (by simp)
      · rcases ih h with h | ⟨ha, h | ⟨e₁, h₁, h⟩⟩
        · exact .inl (mem_cons_of_mem _ h)
        · exact .inr ⟨ha, .inl h⟩
        · exact .inr ⟨ha, .inr ⟨e₁, mem_cons_of_mem _ h₁, h⟩⟩

/-- An entry has the mark of its own key, or the one it had before. -/
theorem mark_of_mem_put {a : α} (h : e ∈ s.put k a es) :
    e.mark = s.mark k ∨ ∃ e₀ ∈ es, e.mark = e₀.mark := by
  induction es with
  | nil =>
    obtain rfl := mem_singleton.1 h
    exact .inl rfl
  | cons e₀ es ih =>
    unfold put at h
    split at h
    · rcases mem_cons.1 h with rfl | h
      · exact .inr ⟨e₀, by simp, rfl⟩
      · exact .inr ⟨e, mem_cons_of_mem _ h, rfl⟩
    · rcases mem_cons.1 h with rfl | h
      · exact .inr ⟨e, by simp, rfl⟩
      · refine (ih h).imp_right fun old => ?_
        obtain ⟨e₁, h₁, eq⟩ := old
        exact ⟨e₁, mem_cons_of_mem _ h₁, eq⟩

theorem mark_within (s : Store) (hk : k.index < n) : (s.mark k).Within n := by
  unfold mark
  split
  · split
    · trivial
    · exact hk
  · trivial
  · trivial

theorem mem_of_find? (h : s.find? m k es = some e) : e ∈ es :=
  mem_of_find?_eq_some h

end Store

theorem Table.Sound.put (h : t.Sound n) {v : Slot} (hk : k.index < n) (hv : Live n v) :
    (Mem.putEntry s t k v).Sound n where
  keys e he := by
    rcases Store.mem_put he with he | ⟨-, rfl | ⟨e₀, he₀, h'⟩⟩
    · exact h.keys e he
    · exact hk
    · exact h' ▸ h.keys e₀ he₀
  values e he := by
    rcases Store.mem_put he with he | ⟨rfl, -⟩
    · exact h.values e he
    · exact hv
  links := h.links
  marks e he := by
    rcases Store.mark_of_mem_put he with eq | ⟨e₀, he₀, eq⟩
    · exact eq ▸ s.mark_within hk
    · exact eq ▸ h.marks e₀ he₀

/-! ### Successors -/

theorem LinksTo.put (h : LinksTo n links) (hk : k.index < n) (hq : q.index < n) :
    LinksTo n (s.put k q links) := by
  intro e he
  have mark : e.mark.Within n := by
    rcases Store.mark_of_mem_put he with eq | ⟨e₀, he₀, eq⟩
    · exact eq ▸ s.mark_within hk
    · exact eq ▸ (h e₀ he₀).1.2
  rcases Store.mem_put he with he | ⟨rfl, rfl | ⟨e₀, he₀, h'⟩⟩
  · exact h e he
  · exact ⟨⟨hk, mark⟩, hq⟩
  · exact ⟨⟨h' ▸ (h e₀ he₀).1.1, mark⟩, hq⟩

theorem linksTo_linkKeys (s : Store) {start last : Ref} {keys : List Ref} (hs : start.index < n)
    (hl : last.index < n) (hk : ∀ k ∈ keys, k.index < n) :
    LinksTo n (Mem.linkKeys s start last keys) := by
  -- the links made so far lead to cells, and so does the key they end with
  have go : ∀ (keys : List Ref) (acc : List (Entry Ref) × Ref), (∀ k ∈ keys, k.index < n) →
      LinksTo n acc.1 → acc.2.index < n →
      let acc' := keys.foldl (fun acc k => (s.put acc.2 k acc.1, k)) acc
      LinksTo n acc'.1 ∧ acc'.2.index < n := by
    intro keys
    induction keys with
    | nil => exact fun acc _ h₁ h₂ => ⟨h₁, h₂⟩
    | cons k ks ih =>
      intro acc hk h₁ h₂
      have hk₁ := hk k (by simp)
      exact ih _ (fun q hq => hk q (mem_cons_of_mem _ hq)) (h₁.put h₂ hk₁) hk₁
  have all := go keys ([], start) hk (fun e he => absurd he not_mem_nil) hs
  exact all.1.put all.2 hl

/-! ### Actions on the store -/

namespace Mem

variable {key : Slot}

theorem eq_some_of_mapKey (h : mapKey s key = .ok k) : key = some k := by
  unfold mapKey at h
  split at h
  · split at h
    · cases h
      rfl
    · cases h
  · cases h

theorem truth_bool {b : Bool} (h : s.get r = .bool b) : truth (some r) s = .ok b s := by
  have hread : read (some r) s = .ok (some (.bool b)) s := by
    rw [read, Store.get?, Option.map_some, h]
  simp only [truth, bind, EStateM.bind, hread]
  rfl

/-- The result of a test is a fresh cell, so turning it around in place changes nothing else. -/
theorem bind_negate (test : Mem Bool) :
    (some <$> (do newBool (← test))) >>= negate = some <$> (do newBool (!(← test))) := by
  funext s
  simp only [bind, EStateM.bind, Functor.map, EStateM.map]
  cases test s with
  | error f s' => rfl
  | ok b s' =>
    have hb := truth_bool (s'.get_alloc_self (.bool b))
    simp only [newBool, alloc, negate, bind, EStateM.bind, hb, writeSlot, write, s'.set_alloc_self]
    rfl

variable {α β : Type} {w : Slot} {n : Nat} {P : Nat → α → Prop}

/-- What an action leaves behind on `s`. -/
def Leaves (w : Slot) (s : Store) (P : Nat → α → Prop) : EStateM.Result Failure Store α → Prop
  | .ok a s' => s'.Sound ∧ s.Grows w s' ∧ P s'.cells.size a
  | .error _ s' => s'.Sound ∧ s.Grows w s'

/-- An action that keeps stores of at least `n` cells sound and changes at most the cell in `w`. -/
def Keeps (w : Slot) (n : Nat) (x : Mem α) (P : Nat → α → Prop) : Prop :=
  ∀ s : Store, s.Sound → n ≤ s.cells.size → Leaves w s P (x s)

/-- A new reference leads to a cell. -/
def Fresh (n : Nat) (r : Ref) : Prop := r.index < n

namespace Keeps

variable {Q : Nat → β → Prop}

theorem pure {a : α} (h : ∀ n', n ≤ n' → P n' a) : Keeps w n (Pure.pure a) P :=
  fun _ hs hn => ⟨hs, .refl, h _ hn⟩

theorem bind {x : Mem α} {f : α → Mem β} (hx : Keeps w n x P)
    (hf : ∀ a n', n ≤ n' → P n' a → Keeps w n' (f a) Q) : Keeps w n (x >>= f) Q := by
  intro s hs hn
  have hx := hx s hs hn
  cases e : x s with
  | ok a s₁ =>
    rw [e] at hx
    obtain ⟨hs₁, hg₁, ha⟩ := hx
    have hf := hf a _ (Nat.le_trans hn hg₁.size) ha s₁ hs₁ (Nat.le_refl _)
    have e' : (x >>= f) s = f a s₁ := by simp only [Bind.bind, EStateM.bind, e]
    rw [e']
    cases e₂ : f a s₁ with
    | ok b s₂ =>
      rw [e₂] at hf
      exact ⟨hf.1, hg₁.trans hf.2.1, hf.2.2⟩
    | error f s₂ =>
      rw [e₂] at hf
      exact ⟨hf.1, hg₁.trans hf.2⟩
  | error h s₁ =>
    rw [e] at hx
    have e' : (x >>= f) s = .error h s₁ := by simp only [Bind.bind, EStateM.bind, e]
    rw [e']
    exact hx

theorem mono {x : Mem α} {Q : Nat → α → Prop} (hx : Keeps w n x P)
    (h : ∀ a n', n ≤ n' → P n' a → Q n' a) : Keeps w n x Q := by
  intro s hs hn
  have hx := hx s hs hn
  cases e : x s with
  | ok a s₁ =>
    rw [e] at hx
    exact ⟨hx.1, hx.2.1, h a _ (Nat.le_trans hn hx.2.1.size) hx.2.2⟩
  | error f s₁ =>
    rw [e] at hx
    exact hx

theorem map {x : Mem α} {g : α → β} (hx : Keeps w n x P) (h : ∀ a n', n ≤ n' → P n' a → Q n' (g a)) :
    Keeps w n (g <$> x) Q := by
  intro s hs hn
  have hx := hx s hs hn
  simp only [Functor.map, EStateM.map]
  cases e : x s with
  | ok a s₁ =>
    rw [e] at hx
    exact ⟨hx.1, hx.2.1, h a _ (Nat.le_trans hn hx.2.1.size) hx.2.2⟩
  | error f s₁ =>
    rw [e] at hx
    exact hx

theorem throw (f : Failure) : Keeps w n (MonadExcept.throw f : Mem α) P :=
  fun _ hs _ => ⟨hs, .refl⟩

theorem ofExcept {x : Except Failure α} (h : ∀ a, x = .ok a → ∀ n', n ≤ n' → P n' a) :
    Keeps w n (Mem.ofExcept x) P := by
  intro s hs hn
  unfold Mem.ofExcept
  split
  · exact ⟨hs, .refl, h _ rfl _ hn⟩
  · exact ⟨hs, .refl⟩

/-- The store that an action looks at is as large as any that it runs on afterwards. -/
theorem get {f : Store → Mem α}
    (hf : ∀ s : Store, s.Sound → n ≤ s.cells.size → Keeps w s.cells.size (f s) P) :
    Keeps w n (MonadState.get >>= f) P :=
  fun s hs hn => hf s hs hn s hs (Nat.le_refl _)

theorem read {f : Option Value → Mem α}
    (hf : ∀ v n', n ≤ n' → (∀ u, v = some u → u.Sound n') → Keeps w n' (f v) P) :
    Keeps w n (Mem.read x >>= f) P :=
  fun s hs hn => hf (s.get? x) _ hn (fun _ hu => hs.get? hu) s hs (Nat.le_refl _)

theorem alloc (hv : v.Sound n) : Keeps w n (Mem.alloc v) Fresh :=
  fun s hs hn => ⟨hs.alloc (hv.mono hn), .alloc, by simp [Fresh]⟩

theorem writeSlot (hv : v.Sound n) : Keeps x n (Mem.writeSlot x v) fun _ _ => True := by
  cases x with
  | none => exact pure fun _ _ => trivial
  | some r => exact fun s hs hn => ⟨hs.set (hv.mono hn), .set, trivial⟩

/-! ### Operators -/

theorem newBool (b : Bool) : Keeps w n (Mem.newBool b) Fresh := alloc trivial

theorem newNum (m : Number) : Keeps w n (Mem.newNum m) Fresh := alloc trivial

theorem newNull : Keeps w n Mem.newNull Fresh := alloc trivial

theorem equals (a b : Slot) : Keeps w n (Mem.equals a b) fun _ _ => True :=
  get fun _ _ _ => ofExcept fun _ _ _ _ => trivial

theorem eq (a b : Slot) : Keeps w n (Mem.eq a b) Fresh :=
  bind (equals a b) fun _ _ _ _ => newBool _

theorem numbers (left right : OperandError) (a b : Slot) :
    Keeps w n (Mem.numbers left right a b) fun _ _ => True := by
  refine read fun v n₁ _ _ => ?_
  split
  · refine read fun u n₂ _ _ => ?_
    split
    · exact pure fun _ _ => trivial
    · exact throw _
  · exact throw _

theorem less (a b : Slot) : Keeps w n (Mem.less a b) fun _ _ => True :=
  bind (numbers _ _ a b) fun _ _ _ _ => pure fun _ _ => trivial

theorem lt (a b : Slot) : Keeps w n (Mem.lt a b) Fresh :=
  bind (less a b) fun _ _ _ _ => newBool _

theorem lessEq (a b : Slot) : Keeps w n (Mem.lessEq a b) fun _ _ => True :=
  bind (numbers _ _ a b) fun _ _ _ _ => pure fun _ _ => trivial

theorem le (a b : Slot) : Keeps w n (Mem.le a b) Fresh :=
  bind (lessEq a b) fun _ _ _ _ => newBool _

theorem negated {test : Mem Bool} (h : Keeps w n test fun _ _ => True) :
    Keeps w n ((some <$> (do Mem.newBool (← test))) >>= Mem.negate) Live := by
  rw [bind_negate]
  exact (bind h fun _ _ _ _ => newBool _).map fun _ _ _ hr => .some hr

theorem sum (a b : Slot) : Keeps w n (Mem.sum a b) fun _ v => v.IsScalar := by
  refine read fun v n₁ _ _ => ?_
  split
  · refine read fun u n₂ _ _ => ?_
    split
    · exact bind (ofExcept fun _ _ _ _ => trivial) fun _ _ _ _ => pure fun _ _ => .inl ⟨_, rfl⟩
    · exact throw _
  · refine read fun u n₂ _ _ => ?_
    split
    · exact bind (ofExcept fun _ _ _ _ => trivial) fun _ _ _ _ => pure fun _ _ => .inr ⟨_, rfl⟩
    · exact pure fun _ _ => .inr ⟨_, rfl⟩
    · exact throw _
  · exact throw _

theorem arithmetic (op : Number → Number → Except Failure Number) (a b : Slot) :
    Keeps w n (Mem.arithmetic op a b) fun _ v => v.IsScalar :=
  bind (numbers _ _ a b) fun _ _ _ _ =>
    bind (ofExcept fun _ _ _ _ => trivial) fun _ _ _ _ => pure fun _ _ => .inl ⟨_, rfl⟩

theorem updateAdd (a b : Slot) : Keeps a n (Mem.updateAdd a b) fun _ _ => True :=
  bind (sum a b) fun _ _ _ hv => writeSlot hv.sound

theorem updateSub (a b : Slot) : Keeps a n (Mem.updateSub a b) fun _ _ => True :=
  bind (arithmetic _ a b) fun _ _ _ hv => writeSlot hv.sound

theorem calculated {x : Mem Value} (hx : Keeps w n x fun _ v => v.IsScalar) :
    Keeps w n (do Mem.alloc (← x)) Fresh :=
  bind hx fun _ _ _ hv => alloc hv.sound

theorem truth (a : Slot) : Keeps w n (Mem.truth a) fun _ _ => True := by
  refine read fun v n₁ _ _ => ?_
  split
  · exact pure fun _ _ => trivial
  · exact pure fun _ _ => trivial
  · exact pure fun _ _ => trivial
  · exact throw _

theorem not (a : Slot) : Keeps w n (Mem.not a) Fresh :=
  bind (truth a) fun _ _ _ _ => newBool _

theorem plus {a : Slot} (ha : Live n a) : Keeps w n (Mem.plus a) Live := by
  refine read fun v n₁ hn _ => ?_
  split
  · exact pure fun n' hn' => ha.mono (Nat.le_trans hn hn')
  · exact throw _

theorem minus (a : Slot) : Keeps w n (Mem.minus a) Fresh := by
  refine read fun v n₁ hn _ => ?_
  split
  · exact newNum _
  · exact throw _

/-! ### Members -/

theorem setMember {c v : Slot} (hk : Live n key) (hv : Live n v) :
    Keeps c n (Mem.setMember c key v) fun _ _ => True := by
  refine get fun s hs hn => ?_
  split
  · rename_i items e
    refine bind (P := fun _ _ => True) (ofExcept fun _ _ _ _ => trivial) fun p n' hn' _ => ?_
    refine writeSlot fun x hx => ?_
    rcases mem_or_eq_of_mem_set hx with hx | rfl
    · exact (hs.get? e x hx).mono hn'
    · exact hv.mono (Nat.le_trans hn hn')
  · rename_i t e
    refine bind (P := Fresh) (ofExcept fun k h n' hn' => ?_) fun k n' hn' hk' => ?_
    · rw [eq_some_of_mapKey h] at hk
      exact Nat.lt_of_lt_of_le hk.index_lt (Nat.le_trans hn hn')
    · exact writeSlot (((hs.get? e).mono hn').put hk' (hv.mono (Nat.le_trans hn hn')))
  · exact throw _

theorem member? (c key : Slot) :
    Keeps w n (Mem.member? c key) fun n' x => ∀ v, x = some v → Live n' v := by
  refine get fun s hs hn => ?_
  split
  · rename_i items e
    refine bind (P := fun _ _ => True) (ofExcept fun _ _ _ _ => trivial) fun p n' hn' _ => ?_
    refine pure fun n'' hn'' v hv => ?_
    exact (hs.get? e v (mem_of_getElem? hv)).mono (Nat.le_trans hn' hn'')
  · rename_i t e
    refine bind (P := fun _ _ => True) (ofExcept fun _ _ _ _ => trivial) fun k n' hn' _ => ?_
    refine pure fun n'' hn'' v hv => ?_
    obtain ⟨e₀, he₀, rfl⟩ := Option.map_eq_some_iff.1 hv
    exact ((hs.get? e).values e₀ (Store.mem_of_find? he₀)).mono (Nat.le_trans hn' hn'')
  · exact throw _

theorem successors {c : Ref} (ht : t.Sound n) : Keeps (some c) n (Mem.successors c t) LinksTo := by
  unfold Mem.successors
  split
  · refine bind newNull fun start n₁ hn₁ hstart => bind newNull fun last n₂ hn₂ hlast => ?_
    refine get fun s hs hn => ?_
    have ht := ht.mono (Nat.le_trans hn₁ (Nat.le_trans hn₂ hn))
    have links : LinksTo s.cells.size (linkKeys s start last (t.entries.map (·.key))) := by
      refine linksTo_linkKeys s (Nat.lt_of_lt_of_le hstart (Nat.le_trans hn₂ hn))
        (Nat.lt_of_lt_of_le hlast hn) fun k hk => ?_
      obtain ⟨e, he, rfl⟩ := mem_map.1 hk
      exact ht.keys e he
    have table : Table.Sound s.cells.size { t with
        grown := false, successors := some (linkKeys s start last (t.entries.map (·.key))) } :=
      ⟨ht.keys, ht.values, fun es hes => by cases hes; exact links, ht.marks⟩
    exact bind (writeSlot (x := some c) table) fun _ n₃ hn₃ _ => pure fun n' hn' =>
      links.mono (Nat.le_trans hn₃ hn')
  · split
    · rename_i links h
      exact pure fun n' hn' e he => (ht.mono hn').links links h e he
    · exact throw _

/-- Two new nulls. -/
theorem nothing : Keeps w n (do return (some (← Mem.newNull), some (← Mem.newNull)))
    fun n' (kv : Slot × Slot) => Live n' kv.1 ∧ Live n' kv.2 :=
  bind newNull fun _ _ _ ha => bind newNull fun _ _ hn hb => pure fun _ hn' =>
    ⟨(Live.some ha).mono (Nat.le_trans hn hn'), (Live.some hb).mono hn'⟩

theorem numbered {items : List Slot} (hi : ∀ x ∈ items, Live n x) (hx : x ∈ items) (m : Number) :
    Keeps w n (do return (some (← Mem.newNum m), x))
      fun n' (kv : Slot × Slot) => Live n' kv.1 ∧ Live n' kv.2 :=
  bind (newNum m) fun _ _ hn hr => pure fun _ hn' =>
    ⟨(Live.some hr).mono hn', (hi x hx).mono (Nat.le_trans hn hn')⟩

theorem next (c key : Slot) :
    Keeps c n (Mem.next c key) fun n' kv => Live n' kv.1 ∧ Live n' kv.2 := by
  refine read fun v n₁ hn₁ hv => ?_
  split
  · rename_i items
    have hi : ∀ x ∈ items, Live n₁ x := hv _ rfl
    refine read fun u n₂ hn₂ _ => ?_
    split
    · split
      · exact nothing
      · exact numbered (fun x hx => (hi x hx).mono hn₂) (by simp) _
    · split
      · split
        · exact throw _
        · split
          · rename_i i x e
            obtain ⟨p, -, hp⟩ := Option.bind_eq_some_iff.1 e
            exact numbered (fun x hx => (hi x hx).mono hn₂) (mem_of_getElem? hp) _
          · exact throw _
      · exact nothing
    · exact throw _
  · rename_i c t
    have ht : t.Sound n₁ := hv _ rfl
    refine get fun s hs hn => ?_
    refine bind (P := fun _ _ => True) (ofExcept fun _ _ _ _ => trivial) fun k n₂ hn₂ _ => ?_
    have ht := ht.mono (Nat.le_trans hn hn₂)
    refine bind (successors ht) fun links n₃ hn₃ hl => get fun s' hs' hn' => ?_
    split
    · exact throw _
    · rename_i link hlink
      have hq := (hl link (Store.mem_of_find? hlink)).2
      have hq : Live s'.cells.size (some link.value) := (Live.some hq).mono hn'
      split
      · exact bind newNull fun _ _ hn₄ hr => pure fun _ hn₅ =>
          ⟨hq.mono (Nat.le_trans hn₄ hn₅), (Live.some hr).mono hn₅⟩
      · split
        · rename_i e he
          have hv := (ht.values e (Store.mem_of_find? he)).mono (Nat.le_trans hn₃ hn')
          exact pure fun _ hn₄ => ⟨hq.mono hn₄, hv.mono hn₄⟩
        · exact throw _
  · exact nothing

end Keeps

end Mem

end TinyScript
