import Mathlib.Data.List.Forall2
import Mathlib.Data.List.Nodup
import Mathlib.Data.List.Perm.Subperm
import TinyScript.Proofs.Histories
import TinyScript.Proofs.Recursion

/-!
# Equality of what is written out

A datum is what a value is, apart from the cells it stands in. An expression put together from literals
by lists and maps stands for a datum (`Node.Builds`), and running it makes new cells for it
(`makes_visit`), so that two expressions never have a cell in common.

`==` between such expressions is told by their data alone (`equality_of_data`). It is not a comparison of
contents: right inside a list or map only nulls, integers and strings are compared by content, and all
else by the cell it stands in. Contents that differ are never found equal, but equal contents are found
equal only where there is nothing but nulls, integers and strings right inside. Null cannot be compared.
-/

namespace TinyScript

open Exec Eval List

/-! ### Data -/

/-- What a value is, apart from the cells it stands in. A map leads from keys to values. -/
inductive Datum
  | atom (κ : Key)
  | bool (b : Bool)
  | list (items : List Datum)
  | map (value? : Key → Option Datum)

namespace Datum

def IsAtom (d : Datum) : Prop := ∃ κ, d = .atom κ

/-- Right inside it there is nothing but nulls, integers and strings. -/
def Flat : Datum → Prop
  | .list ds => ∀ d ∈ ds, d.IsAtom
  | .map f => ∀ κ, ∀ d ∈ f κ, d.IsAtom
  | _ => True

/-- An entry takes the place of one for the same key. -/
def put (f : Key → Option Datum) (e : Key × Datum) : Key → Option Datum :=
  fun κ => if e.1 = κ then some e.2 else f κ

inductive Kind
  | null
  | int
  | text
  | bool
  | list
  | map

/-- The type of a datum. -/
def kind : Datum → Kind
  | .atom .null => .null
  | .atom (.int _) => .int
  | .atom (.text _) => .text
  | .bool _ => .bool
  | .list _ => .list
  | .map _ => .map

/-- What is seen of the datum from inside a list or map: an atom, or what is no key. -/
def Face : Datum → Value → Prop
  | .atom κ, v => v = κ.value
  | _, v => v.isKey = false

theorem Face.exists_key {d : Datum} {v : Value} (h : d.Face v) (hv : v.isKey = true) :
    ∃ κ, d = .atom κ ∧ v = κ.value := by
  cases d with
  | atom κ => exact ⟨κ, rfl, h⟩
  | _ => cases hv.symm.trans h

end Datum

namespace Node

/-- A literal of a null, an integer or a string. -/
inductive Atomic : Node → Key → Prop
  | null {p} : Atomic (.null p) .null
  | int {t i p} (h : Numeral.int? t = some i) : Atomic (.number t true p) (.int i)
  | text {t p} : Atomic (.string t p) (.text t)

/-- The expression is a literal, or a list or map whose parts are built by `B`. -/
inductive BuildsFrom (B : Node → Datum → Prop) : Node → Datum → Prop
  | atom {e κ} (h : e.Atomic κ) : BuildsFrom B e (.atom κ)
  | bool {t p} : BuildsFrom B (.bool t p) (.bool (t == "true"))
  | list {items ds p} (h : Forall₂ B (items.getD []) ds) : BuildsFrom B (.listOf items p) (.list ds)
  | map {keys κs values ds p} (hk : Forall₂ Atomic keys κs) (h : Forall₂ B values ds) :
      BuildsFrom B (.mapOf keys values p) (.map ((κs.zip ds).foldl Datum.put fun _ => none))

/-- The expression is put together from literals by lists and maps, less than `n` deep, and stands for
the datum. -/
def Builds : Nat → Node → Datum → Prop
  | 0 => fun _ _ => False
  | n + 1 => BuildsFrom (Builds n)

theorem Builds.isMissing {n : Nat} {e : Node} {d : Datum} (h : e.Builds n d) : e.isMissing = false := by
  cases n with
  | zero => exact h.elim
  | succ n =>
    cases h with
    | atom h => cases h <;> rfl
    | _ => rfl

end Node

/-! ### Cells for data -/

namespace Store

variable {s s' : Store} {b b' : Nat} {x : Slot} {r : Ref} {d : Datum}

/-- The slot has a cell from `b` on, with the face of the datum. -/
def Bears (s : Store) (b : Nat) (x : Slot) (d : Datum) : Prop :=
  ∃ r : Ref, x = some r ∧ b ≤ r.index ∧ r.index < s.cells.size ∧ d.Face (s.get r)

theorem Bears.grow {w : Slot} (h : s.Bears b x d) (hb : b' ≤ b) (g : s.Grows w s')
    (hw : ∀ c, w = some c → c.index < b) : s'.Bears b' x d := by
  obtain ⟨r, rfl, hr, lt, face⟩ := h
  have same : s'.get r = s.get r := g.kept r lt fun e => absurd (hw r e) (Nat.not_lt.2 hr)
  exact ⟨r, rfl, Nat.le_trans hb hr, Nat.lt_of_lt_of_le lt g.size, by rwa [same]⟩

theorem bears?_grow {w : Slot} {o : Option Slot} {o' : Option Datum} (h : Option.Rel (s.Bears b) o o')
    (hb : b' ≤ b) (g : s.Grows w s') (hw : ∀ c, w = some c → c.index < b) : Option.Rel (s'.Bears b') o o' := by
  cases h with
  | none => exact .none
  | some h => exact .some (h.grow hb g hw)

/-- The cell carries the datum, with parts in cells from `b` on. -/
inductive Carries (s : Store) (b : Nat) (r : Ref) : Datum → Prop
  | atom {κ} (h : s.get r = κ.value) : Carries s b r (.atom κ)
  | bool {y} (h : s.get r = .bool y) : Carries s b r (.bool y)
  | list {xs ds} (h : s.get r = .list xs) (hd : Forall₂ (s.Bears b) xs ds) : Carries s b r (.list ds)
  | map {calls t f} (h : Recorded r calls s t)
      (hd : ∀ κ, Option.Rel (s.Bears b) (valueAfter calls κ) (f κ)) : Carries s b r (.map f)

end Store

theorem Recorded.grow {c : Ref} {calls : List Call} {s s' : Store} {t : Table} (h : Recorded c calls s t)
    (g : s.Grows none s') : Recorded c calls s' t := by
  have plain {r : Ref} (hr : (s.get r).IsPlain) : s'.get r = s.get r := g.weaken.kept_plain h.map hr
  refine h.elsewhere ⟨g.kept c (Store.lt_of_get_ne (by simp [h.map])) (by simp), fun t' ht' e he => ?_,
    fun r hr => (plain (hr ▸ trivial)).trans hr⟩
  obtain rfl : t = t' := Value.map.inj (h.map.symm.trans ht')
  exact plain (h.tidy.labelled e he).1

namespace Store.Carries

variable {s s' : Store} {b b' : Nat} {r : Ref} {d : Datum}

theorem bears (h : s.Carries b r d) (hr : b' ≤ r.index) : s.Bears b' (some r) d := by
  have face : d.Face (s.get r) ∧ s.get r ≠ .blank := by
    cases h with
    | @atom κ h => exact ⟨h, by cases κ <;> simp [h, Key.value]⟩
    | bool h | list h => simp [Datum.Face, h, Value.isKey]
    | map h => simp [Datum.Face, h.map, Value.isKey]
  exact ⟨r, rfl, hr, lt_of_get_ne face.2, face.1⟩

theorem lt (h : s.Carries b r d) : r.index < s.cells.size := by
  obtain ⟨q, ⟨⟩, -, lt, -⟩ := h.bears (Nat.zero_le _)
  exact lt

theorem grow (h : s.Carries b r d) (hb : b' ≤ b) (g : s.Grows none s') : s'.Carries b' r d := by
  have same : s'.get r = s.get r := g.kept r h.lt (by simp)
  cases h with
  | atom h => exact .atom (same.trans h)
  | bool h => exact .bool (same.trans h)
  | list h hd => exact .list (same.trans h) (hd.imp fun _ _ h => h.grow hb g (by simp))
  | map h hd => exact .map (h.grow g) fun κ => bears?_grow (hd κ) hb g (by simp)

/-- Setting a member of a map puts an entry into what it carries. -/
theorem set {f : Key → Option Datum} {κ : Key} {q : Ref} {v : Slot} (h : s.Carries b r (.map f))
    (hr : r.index < b) (hq : s.get q = κ.value) (hv : s.Bears b v d) :
    ∃ s', Mem.setMember (some r) (some q) v s = .ok () s' ∧ s.Grows (some r) s' ∧
      s'.Carries b r (.map (Datum.put f (κ, d))) := by
  cases h with
  | @map calls t _ h hd =>
    have hkey : (s.get? (some q)).bind Value.key? = some κ := Value.key?_eq_some_iff.2 hq
    have g : s.Grows (some r) (s.set r (.map (Mem.putEntry s t q v))) := .set
    have before (c : Ref) (e : some r = some c) : c.index < b := Option.some.inj e ▸ hr
    refine ⟨_, Mem.setMember_eq h.map (hq ▸ κ.value_isPlain.isKey) v, g, ?_⟩
    have recorded : Recorded r (calls ++ [⟨s.get? (some q), v⟩]) _ _ := h.set hq hkey
    refine .map recorded fun κ' => ?_
    rw [valueAfter_append, hkey, Datum.put]
    by_cases same : κ = κ'
    · rw [if_pos same, if_pos (congrArg some same)]
      exact .some (hv.grow (Nat.le_refl b) g before)
    · rw [if_neg same, if_neg fun e => same (Option.some.inj e)]
      exact bears?_grow (hd κ') (Nat.le_refl b) g before

end Store.Carries

/-! ### Making cells -/

/-- The action makes cells from `b` on for the datum, and does nothing else. -/
def Makes (x : Exec Slot) (m : Machine) (b : Nat) (d : Datum) : Prop :=
  ∃ r s, x m = .ok (some r) { m with store := s } ∧ m.store.Grows none s ∧ b ≤ r.index ∧ s.Carries b r d

section Making

variable {visit : Node → Exec Slot} {m : Machine} {b n k : Nat} {e : Node} {d : Datum}
  {keys values : List Node} {κs : List Key} {ds : List Datum}

theorem makes_new {v : Value} (hb : b ≤ m.store.cells.size)
    (h : (m.store.alloc v).2.Carries b (m.store.alloc v).1 d) : Makes (Eval.new v) m b d :=
  ⟨_, _, rfl, .alloc, hb, h⟩

theorem makes_atomic {κ : Key} (h : e.Atomic κ) (k : Nat) (hb : b ≤ m.store.cells.size) :
    Makes (Eval.visit (k + 1) e) m b (.atom κ) := by
  have new : Makes (Eval.new κ.value) m b (.atom κ) := makes_new hb (.atom (m.store.get_alloc_self κ.value))
  cases h with
  | null => exact new
  | text => exact new
  | @int t i p h =>
    have value : (Exec.ofExcept (literal t true) : Exec Value) m = .ok (.num (.int i)) m := by
      rw [literal, h]
      rfl
    obtain ⟨z, s, run, made⟩ := new
    exact ⟨z, s, (bind_of_ok value).trans run, made⟩

theorem exists_values {es : List Node}
    (h : Forall₂ (fun e d => ∀ m : Machine, b ≤ m.store.cells.size → Makes (visit e) m b d) es ds)
    (hb : b ≤ m.store.cells.size) :
    ∃ xs s, Eval.values visit es m = .ok xs { m with store := s } ∧ m.store.Grows none s ∧
      Forall₂ (s.Bears b) xs ds := by
  induction h generalizing m with
  | nil => exact ⟨[], m.store, rfl, .refl, .nil⟩
  | cons he _ ih =>
    obtain ⟨r, s₁, run₁, g₁, hr, hd⟩ := he m hb
    obtain ⟨xs, s₂, run₂, g₂, hxs⟩ := ih (m := { m with store := s₁ }) (Nat.le_trans hb g₁.size)
    refine ⟨some r :: xs, s₂, (bind_of_ok run₁).trans (bind_of_ok run₂), g₁.trans g₂, .cons ?_ hxs⟩
    exact (hd.bears hr).grow (Nat.le_refl b) g₂ (by simp)

/-- A map stands before the cells that it is filled with. -/
theorem exists_fillMap {c : Ref} {f : Key → Option Datum} (hc : c.index < b)
    (hk : Forall₂ Node.Atomic keys κs) (hv : Forall₂ (fun e d => ∀ m : Machine, b ≤ m.store.cells.size →
      Makes (valueOr (Eval.visit (k + 1)) .null e) m b d) values ds)
    (hb : b ≤ m.store.cells.size) (hm : m.store.Carries b c (.map f)) :
    ∃ s, fillMap (Eval.visit (k + 1)) c (keys.zip values) m = .ok () { m with store := s } ∧
      m.store.Grows (some c) s ∧ s.Carries b c (.map ((κs.zip ds).foldl Datum.put f)) := by
  induction hk generalizing values ds m f with
  | nil => exact ⟨_, rfl, .refl, hm⟩
  | cons hkey _ ih =>
    cases hv with
    | nil => exact ⟨_, rfl, .refl, hm⟩
    | cons hvalue hv =>
      obtain ⟨q, s₁, run₁, g₁, -, hq⟩ := makes_atomic (m := m) hkey k hb
      have hb₁ : b ≤ s₁.cells.size := Nat.le_trans hb g₁.size
      obtain ⟨v, s₂, run₂, g₂, hv₂, hd⟩ := hvalue { m with store := s₁ } hb₁
      have g := g₁.trans g₂
      cases hq.grow (Nat.le_refl b) g₂ with
      | atom hκ =>
        obtain ⟨s₃, run₃, g₃, hm₃⟩ := (hm.grow (Nat.le_refl b) g).set hc hκ (hd.bears hv₂)
        have set : Exec.mem (Mem.setMember (some c) (some q) (some v)) { m with store := s₂ } =
            .ok () { m with store := s₃ } := by simp only [Exec.mem, run₃]
        obtain ⟨s, run, g', hs⟩ := ih hv (m := { m with store := s₃ })
          (Nat.le_trans (Nat.le_trans hb₁ g₂.size) g₃.size) hm₃
        refine ⟨s, ?_, (g.weaken.trans g₃).trans g', hs⟩
        exact (bind_of_ok run₁).trans ((bind_of_ok run₂).trans ((bind_of_ok set).trans run))

theorem makes_map (p : Position) (hk : Forall₂ Node.Atomic keys κs)
    (hv : Forall₂ (fun e d => ∀ b (m : Machine), b ≤ m.store.cells.size →
      Makes (valueOr (Eval.visit k) .null e) m b d) values ds) (fuel : k = 0 → values = [])
    (hb : b ≤ m.store.cells.size) : Makes (Eval.visit (k + 1) (.mapOf keys values p)) m b
      (.map ((κs.zip ds).foldl Datum.put fun _ => none)) := by
  let c : Ref := ⟨m.store.cells.size⟩
  let s₀ := (m.store.alloc (.map .empty)).2
  have new : m.store.Grows none s₀ := .alloc
  have alloc : Exec.mem (Mem.alloc (.map .empty)) m = .ok c { m with store := s₀ } := rfl
  have hc : c.index < s₀.cells.size := by simp [c, s₀]
  have empty : Recorded c [] s₀ .empty :=
    ⟨m.store.get_alloc_self _, Table.tidy_empty _, rfl, fun _ he => absurd he not_mem_nil⟩
  have start : s₀.Carries s₀.cells.size c (.map fun _ => none) := .map empty fun _ => .none
  have fill : ∃ s, fillMap (Eval.visit k) c (keys.zip values) { m with store := s₀ } =
      .ok () { m with store := s } ∧ s₀.Grows (some c) s ∧
        s.Carries s₀.cells.size c (.map ((κs.zip ds).foldl Datum.put fun _ => none)) := by
    cases k with
    | zero =>
      -- keys without values are not visited
      obtain rfl := fuel rfl
      cases hv
      exact ⟨s₀, by simp [fillMap, pure, EStateM.pure], .refl, by simpa using start⟩
    | succ k =>
      exact exists_fillMap (m := { m with store := s₀ }) hc hk (hv.imp fun _ _ h => h _) (Nat.le_refl _) start
  obtain ⟨s, run, g, hs⟩ := fill
  exact ⟨c, s, (bind_of_ok alloc).trans (bind_of_ok run), new.fill (Nat.le_refl _) g, hb,
    hs.grow (Nat.le_trans hb (Nat.le_of_lt hc)) .refl⟩

/-- Running an expression that stands for a datum makes cells for it. -/
theorem makes_visit (h : e.Builds n d) (hn : n ≤ k) (m : Machine) (hb : b ≤ m.store.cells.size) :
    Makes (Eval.visit k e) m b d := by
  induction n generalizing k m b e d with
  | zero => exact h.elim
  | succ n ih =>
    obtain ⟨k, rfl⟩ := Nat.exists_eq_add_of_le' (Nat.le_trans (Nat.le_add_left 1 n) hn)
    have hn := Nat.le_of_succ_le_succ hn
    cases h with
    | atom h => exact makes_atomic h k hb
    | bool => exact makes_new hb (.bool (m.store.get_alloc_self _))
    | list h =>
      obtain ⟨xs, s, run, g, hxs⟩ := exists_values (h.imp fun e d he m hb => ih he hn m hb) hb
      have g' : s.Grows none (s.alloc (.list xs)).2 := .alloc
      refine ⟨_, _, (bind_of_ok run).trans rfl, g.trans g', Nat.le_trans hb g.size,
        .list (s.get_alloc_self _) (hxs.imp fun x d h => h.grow (Nat.le_refl b) g' (by simp))⟩
    | map hk h =>
      refine makes_map _ hk (h.imp fun e d he b m hb => ?_) (fun hk => ?_) hb
      · rw [valueOr, if_neg (by simp [he.isMissing])]
        exact ih he hn m hb
      · obtain rfl := Nat.le_zero.1 (hk ▸ hn)
        cases h with
        | nil => rfl
        | cons h => exact h.elim

end Making

/-! ### Comparing cells -/

theorem Mem.mapsEqual_eq (s : Store) (es es' : List (Entry Slot)) :
    mapsEqual s es es' = (es.length == es'.length &&
      es.all fun e => (s.find? e.mark e.key es').any fun e' => s.alike e.value e'.value) := by
  unfold mapsEqual
  refine congrArg (fun f => _ && es.all f) (funext fun e => ?_)
  cases s.find? e.mark e.key es' <;> rfl

/-- Cells that are not the same are compared by content only if both may be keys. -/
theorem Store.isKey_of_alike {s : Store} {a b : Ref} (ne : a ≠ b) (h : s.alike (some a) (some b) = true) :
    (s.get a).isKey = true ∧ (s.get b).isKey = true := by
  rw [alike, beq_false_of_ne ne, Bool.false_or] at h
  unfold equal at h
  split at h <;> simp_all [Value.isKey]

namespace Recorded

variable {s : Store} {c : Ref} {calls : List Call} {t : Table} {κ : Key}

theorem nodup (h : Recorded c calls s t) : (keysAfter calls).Nodup := by
  have distinct : (t.entries.map fun e => s.get e.key).Nodup := pairwise_map.2 h.tidy.distinct
  rw [h.keys] at distinct
  exact Nodup.of_map _ distinct

theorem length_eq (h : Recorded c calls s t) : t.entries.length = (keysAfter calls).length := by
  simpa using congrArg length h.keys

theorem mem_iff {R : Slot → Datum → Prop} {f : Key → Option Datum} (h : Recorded c calls s t)
    (hd : ∀ κ, Option.Rel R (valueAfter calls κ) (f κ)) : κ ∈ keysAfter calls ↔ ∃ d, f κ = some d := by
  have value := hd κ
  constructor
  · intro mem
    obtain ⟨e, he, hκ⟩ := h.mem_keys.1 mem
    rw [h.values e he κ hκ] at value
    generalize f κ = o at value
    cases value
    exact ⟨_, rfl⟩
  · rintro ⟨d, hf⟩
    by_contra new
    rw [valueAfter_eq_none new, hf] at value
    cases value

end Recorded

section Comparing

variable {s s₁ : Store} {b : Nat} {x y : Slot} {q r : Ref} {d d' : Datum} {xs ys : List Slot} {ds ds' : List Datum}

/-! The value on the left was there before the one on the right was made. -/

variable (g : s₁.Grows none s)
include g

/-- Inside a list or map only atoms are compared by content. -/
theorem alike_iff_of_bears (hx : s₁.Bears b x d) (hy : s.Bears s₁.cells.size y d') :
    s.alike x y = true ↔ d = d' ∧ d.IsAtom := by
  have ne : x ≠ y := by
    rintro rfl
    obtain ⟨q, rfl, -, lt, -⟩ := hx
    obtain ⟨r, ⟨⟩, le, -⟩ := hy
    exact absurd lt (Nat.not_lt.2 le)
  obtain ⟨q, rfl, -, -, hq⟩ := hx.grow (Nat.le_refl b) g (by simp)
  obtain ⟨r, rfl, -, -, hr⟩ := hy
  have plain {κ κ' : Key} (hκ : s.get q = κ.value) (hκ' : s.get r = κ'.value) :
      s.alike (some q) (some r) = true ↔ κ = κ' := by
    rw [Store.alike_iff (hκ ▸ κ.value_isPlain) (hκ' ▸ κ'.value_isPlain), hκ, hκ', Key.value_injective.eq_iff]
  constructor
  · intro h
    obtain ⟨keyq, keyr⟩ := Store.isKey_of_alike (fun e => ne (congrArg some e)) h
    obtain ⟨κ, rfl, hκ⟩ := hq.exists_key keyq
    obtain ⟨κ', rfl, hκ'⟩ := hr.exists_key keyr
    exact ⟨congrArg Datum.atom ((plain hκ hκ').1 h), κ, rfl⟩
  · rintro ⟨rfl, κ, rfl⟩
    exact (plain hq hr).2 rfl

theorem listsEqual_iff (hx : Forall₂ (s₁.Bears b) xs ds) (hy : Forall₂ (s.Bears s₁.cells.size) ys ds') :
    Mem.listsEqual s xs ys = true ↔ ds = ds' ∧ ∀ d ∈ ds, d.IsAtom := by
  induction hx generalizing ys ds' with
  | nil => cases hy <;> simp [Mem.listsEqual]
  | cons hd _ ih =>
    cases hy with
    | nil => simp [Mem.listsEqual]
    | cons hd' hy =>
      rw [Mem.listsEqual, Bool.and_eq_true, alike_iff_of_bears g hd hd', ih hy, cons.injEq, forall_mem_cons]
      tauto

section Maps

variable {calls calls' : List Call} {t t' : Table} {f f' : Key → Option Datum}
  (h : Recorded q calls s t) (h' : Recorded r calls' s t')
  (hd : ∀ κ, Option.Rel (s₁.Bears b) (valueAfter calls κ) (f κ))
  (hd' : ∀ κ, Option.Rel (s.Bears s₁.cells.size) (valueAfter calls' κ) (f' κ))
include h h' hd hd'

/-- An entry is found in the other map if both data have the same atom for its key. -/
theorem any_find?_iff {e : Entry Slot} (he : e ∈ t.entries) {κ : Key} (hκ : s.get e.key = κ.value) :
    ((s.find? e.mark e.key t'.entries).any fun e' => s.alike e.value e'.value) = true ↔
      ∃ d, f κ = some d ∧ f' κ = some d ∧ d.IsAtom := by
  have value := hd κ
  have value' := hd' κ
  have found : (s.find? e.mark e.key t'.entries).map (·.value) = valueAfter calls' κ := by
    rw [(h.tidy.labelled e he).2]
    exact h'.value?_eq hκ
  rw [h.values e he κ hκ] at value
  rw [← found] at value'
  generalize s.find? e.mark e.key t'.entries = o, f κ = o₁, f' κ = o₂ at value value' ⊢
  cases value with
  | some hv =>
    cases o with
    | none =>
      cases value'
      simp
    | some e' =>
      cases value' with
      | some hv' => simp [alike_iff_of_bears g hv hv', eq_comm]

theorem mapsEqual_iff :
    Mem.mapsEqual s t.entries t'.entries = true ↔ f = f' ∧ ∀ κ, ∀ d ∈ f κ, d.IsAtom := by
  have test {e : Entry Slot} (he : e ∈ t.entries) {κ : Key} := any_find?_iff g h h' hd hd' (κ := κ) he
  rw [Mem.mapsEqual_eq, Bool.and_eq_true, beq_iff_eq, h.length_eq, h'.length_eq, all_eq_true]
  constructor
  · rintro ⟨length, all⟩
    have same (κ : Key) (mem : κ ∈ keysAfter calls) : ∃ d, f κ = some d ∧ f' κ = some d ∧ d.IsAtom := by
      obtain ⟨e, he, hκ⟩ := h.mem_keys.1 mem
      exact (test he hκ).1 (all e he)
    have subset : keysAfter calls ⊆ keysAfter calls' := by
      intro κ mem
      obtain ⟨d, -, hf', -⟩ := same κ mem
      exact (h'.mem_iff hd').2 ⟨d, hf'⟩
    -- as many keys, all of them among the others
    have perm := (h.nodup.subperm subset).perm_of_length_le (Nat.le_of_eq length.symm)
    have left {κ : Key} {d : Datum} (hf : f κ = some d) : f' κ = some d ∧ d.IsAtom := by
      obtain ⟨_, hf₁, hf'⟩ := same κ ((h.mem_iff hd).2 ⟨d, hf⟩)
      cases hf.symm.trans hf₁
      exact hf'
    refine ⟨funext fun κ => Option.ext fun d => ⟨fun hf => (left hf).1, fun hf' => ?_⟩, fun κ d hf => (left hf).2⟩
    obtain ⟨_, hf, hf₁, -⟩ := same κ (perm.mem_iff.2 ((h'.mem_iff hd').2 ⟨d, hf'⟩))
    cases hf'.symm.trans hf₁
    exact hf
  · rintro ⟨rfl, atoms⟩
    have keys (κ : Key) : κ ∈ keysAfter calls ↔ κ ∈ keysAfter calls' := (h.mem_iff hd).trans (h'.mem_iff hd').symm
    refine ⟨((perm_ext_iff_of_nodup h.nodup h'.nodup).2 keys).length_eq, fun e he => ?_⟩
    have mem := mem_map_of_mem (f := fun e => s.get e.key) he
    rw [h.keys] at mem
    obtain ⟨κ, mem, hκ⟩ := mem_map.1 mem
    obtain ⟨d, hf⟩ := (h.mem_iff hd).1 mem
    exact (test he hκ.symm).2 ⟨d, hf, hf, atoms κ d hf⟩

end Maps

/-- Values of one type are compared by what they carry. -/
theorem exists_equals (given : d ≠ .atom .null) (types : d.kind = d'.kind) (hx : s₁.Carries b q d)
    (hy : s.Carries s₁.cells.size r d') :
    ∃ c, Mem.equals (some q) (some r) s = .ok c s ∧ (c = true ↔ d = d' ∧ d.Flat) := by
  suffices equal : ∃ c, Mem.isEqual s (some (s.get q)) (some (s.get r)) = .ok c ∧ (c = true ↔ d = d' ∧ d.Flat) by
    obtain ⟨c, run, hc⟩ := equal
    refine ⟨c, ?_, hc⟩
    rw [Mem.equals, Mem.get_bind, Store.get?, Store.get?, Option.map_some, Option.map_some, run]
    rfl
  rw [g.kept q hx.lt (by simp)]
  cases hx with
  | @atom κ h =>
    cases hy with
    | @atom κ' h' =>
      cases κ <;> cases κ' <;> cases types
      · exact absurd rfl given
      all_goals simp [h, h', Key.value, Mem.isEqual, Value.sameKind, Number.eq, Number.compare?, Datum.Flat]
    | _ => cases κ <;> cases types
  | bool h =>
    cases hy with
    | bool h' => simp [h, h', Mem.isEqual, Value.sameKind, Datum.Flat]
    | @atom κ => cases κ <;> cases types
    | _ => cases types
  | list h hd =>
    cases hy with
    | list h' hd' => simp [h, h', Mem.isEqual, Value.sameKind, Datum.Flat, listsEqual_iff g hd hd']
    | @atom κ => cases κ <;> cases types
    | _ => cases types
  | map h hd =>
    cases hy with
    | map h' hd' =>
      have equal := mapsEqual_iff g (h.grow g) h' hd hd'
      simp [h.map, h'.map, Mem.isEqual, Value.sameKind, Datum.Flat, equal]
    | @atom κ => cases κ <;> cases types
    | _ => cases types

end Comparing

/-! ### The comparison -/

/-- `==` between the expressions yields `c`, and `!=` the opposite. -/
def Compares (m : Machine) (e e' : Node) (p : Position) (c : Bool) : Prop :=
  Evaluates m (.binary .eq e e' p) (.bool c) ∧ Evaluates m (.binary .ne e e' p) (.bool !c)

section Comparison

variable {e e' : Node} {d d' : Datum} {n n' : Nat} {p : Position} {m : Machine} {c : Bool} {x y : Slot}

theorem runBinary_ne (h : Mem.equals x y m.store = .ok c m.store) :
    runBinary .ne x y p m = Eval.new (.bool !c) m := by
  have opposite : (runBinary .ne x y p : Exec Slot) =
      runOp .eq p (some (some <$> (do Mem.newBool (!(← Mem.equals x y))))) := by
    rw [← Mem.bind_negate]
    rfl
  simp [opposite, runOp, onOperand, mem, bind, EStateM.bind, Functor.map, EStateM.map, h, Mem.newBool,
    Mem.alloc, Eval.new]

theorem exists_operands (he : e.Builds n d) (he' : e'.Builds n' d') (p : Position) (m : Machine) :
    ∃ q r s₁ s k, m.store.Grows none s₁ ∧ s₁.Grows none s ∧ s₁.Carries 0 q d ∧ s.Carries s₁.cells.size r d' ∧
      ∀ op, Eval.visit k (.binary op e e' p) m = runBinary op (some q) (some r) p { m with store := s } := by
  obtain ⟨q, s₁, run₁, g₁, -, hx⟩ := makes_visit he (Nat.le_max_left n n') m (Nat.zero_le _)
  obtain ⟨r, s, run, g, -, hy⟩ := makes_visit he' (Nat.le_max_right n n') { m with store := s₁ } (Nat.le_refl _)
  exact ⟨q, r, s₁, s, max n n' + 1, g₁, g, hx, hy, fun op => (bind_of_ok run₁).trans (bind_of_ok run)⟩

theorem exists_compares (he : e.Builds n d) (he' : e'.Builds n' d') (hd : d ≠ .atom .null)
    (types : d.kind = d'.kind) (p : Position) (m : Machine) :
    ∃ c, (c = true ↔ d = d' ∧ d.Flat) ∧ Compares m e e' p c := by
  obtain ⟨q, r, s₁, s, k, g₁, g, hx, hy, run⟩ := exists_operands he he' p m
  obtain ⟨c, equals, hc⟩ := exists_equals g hd types hx hy
  have new {op : TokenKind} {v : Value}
      (h : runBinary op (some q) (some r) p { m with store := s } = Eval.new v { m with store := s }) :
      Evaluates m (.binary op e e' p) v :=
    ⟨some (s.alloc v).1, (s.alloc v).2, ⟨k, (run op).trans h⟩, (g₁.trans g).trans .alloc,
      congrArg some (s.get_alloc_self v)⟩
  exact ⟨c, hc, new (runBinary_eq (m := { m with store := s }) equals),
    new (runBinary_ne (m := { m with store := s }) equals)⟩

/-- Nulls cannot be compared. -/
theorem visit_nulls (he : e.Builds n (.atom .null)) (he' : e'.Builds n' (.atom .null)) (p : Position)
    (m : Machine) {op : TokenKind} (hop : op = .eq ∨ op = .ne) :
    ∃ k s, Eval.visit k (.binary op e e' p) m =
      .error (.failed (.fault .missingPart)) { m with store := s } := by
  obtain ⟨q, r, s₁, s, k, -, g, hx, hy, run⟩ := exists_operands he he' p m
  refine ⟨k, s, (run op).trans ?_⟩
  obtain ⟨⟨h⟩, ⟨h'⟩⟩ := And.intro (hx.grow (Nat.le_refl 0) g) hy
  have fails : Mem.equals (some q) (some r) s = .error (.fault .missingPart) s := by
    rw [Mem.equals, Mem.get_bind, Store.get?, Store.get?, Option.map_some, Option.map_some, h, h']
    rfl
  rcases hop with rfl | rfl
  all_goals
    simp [runBinary, negatedOp?, binaryOp?, runOp, onOperand, mem, Mem.eq, bind,
      EStateM.bind, Functor.map, EStateM.map, fails]

/-- Expressions that stand for data are compared by them. Between data of one type `==` holds if they are
the same and there is nothing but nulls, integers and strings right inside them; so it holds between two
runs of one expression only if there is nothing else. Null cannot be compared. -/
theorem equality_of_data (he : e.Builds n d) (he' : e'.Builds n' d') (p : Position) (m : Machine) :
    (d ≠ .atom .null → (∃ c, (c = true ↔ d.Flat) ∧ Compares m e e p c) ∧
      (d.kind = d'.kind → ∃ c, (c = true ↔ d = d' ∧ d.Flat) ∧ Compares m e e' p c)) ∧
    (d = .atom .null → d' = .atom .null → ∀ op, op = .eq ∨ op = .ne → ∃ k s,
      Eval.visit k (.binary op e e' p) m = .error (.failed (.fault .missingPart)) { m with store := s }) := by
  refine ⟨fun hd => ⟨?_, fun types => exists_compares he he' hd types p m⟩, ?_⟩
  · simpa using exists_compares he he hd rfl p m
  · rintro rfl rfl op hop
    exact visit_nulls he he' p m hop

end Comparison

/-- `[true]` -/
def listedTrue : Node := .listOf (some [.bool "true" ⟨1, 2⟩]) ⟨1, 1⟩

/-- `[1]` -/
def listedOne : Node := .listOf (some [.number "1" true ⟨1, 2⟩]) ⟨1, 1⟩

/-- `[true] == [true]` does not hold, and `[1] == [1]` does. -/
theorem equality_of_data_listed : Compares default listedTrue listedTrue ⟨1, 8⟩ false ∧
    Compares default listedOne listedOne ⟨1, 5⟩ true := by
  have builds : listedTrue.Builds 2 (.list [.bool true]) := .list (.cons .bool .nil)
  have builds' : listedOne.Builds 2 (.list [.atom (.int 1)]) :=
    .list (.cons (.atom (.int (by decide +kernel))) .nil)
  obtain ⟨⟨c, hc, h⟩, -⟩ := (equality_of_data builds builds ⟨1, 8⟩ default).1 (by simp)
  obtain ⟨⟨c', hc', h'⟩, -⟩ := (equality_of_data builds' builds' ⟨1, 5⟩ default).1 (by simp)
  constructor
  · cases c with
    | false => exact h
    | true => simp [Datum.Flat, Datum.IsAtom] at hc
  · cases c' with
    | false => simp [Datum.Flat, Datum.IsAtom] at hc'
    | true => exact h'

end TinyScript
