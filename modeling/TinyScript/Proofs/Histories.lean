import Mathlib.Data.List.Induction
import TinyScript.Proofs.CallFree
import TinyScript.Proofs.MapIteration

/-!
# Containers hold what was put into them

The history of a container is the list of calls that set members of it, whether they succeeded or
not. What a list or map holds is told by its history alone: at each position of a list there is what
the last call for this position has set, and a map has the keys that were set, in the order in which
each was first set, with the value that was set last. Calls that fail have no effect.

A list takes integers in range, and refuses everything else. A map takes nulls, integers and strings,
but floating-point numbers as well, although it says that it does not.
-/

namespace TinyScript

open List

variable {c : Ref} {s s' s₀ : Store}
variable {n p : Nat} {i : Int} {key : Option Value} {calls : List Call} {κ : Key}

/-! ### Calls -/

/-- A call to set a member, with what its key was at that moment. -/
structure Call where
  key : Option Value
  value : Slot

/-- What has been called on the container in cell `c`, in order, from the store `s₀` on. -/
inductive History (c : Ref) (s₀ : Store) : List Call → Store → Prop
  | start : History c s₀ [] s₀
  | set {calls : List Call} {s : Store} (h : History c s₀ calls s) (key v : Slot) :
      History c s₀ (calls ++ [⟨s.get? key, v⟩]) (Mem.left (Mem.setMember (some c) key v) s)
  | elsewhere {calls : List Call} {s s' : Store} (h : History c s₀ calls s) (he : Elsewhere c s s') :
      History c s₀ calls s'

/-! ### Lists -/

/-- The index `i` stands for position `p` of a list of `n` items. -/
def Denotes (n : Nat) (i : Int) (p : Nat) : Prop := p < n ∧ (i = p ∨ i = p - n)

instance (n : Nat) (i : Int) (p : Nat) : Decidable (Denotes n i p) := inferInstanceAs (Decidable (_ ∧ _))

theorem Denotes.unique {q : Nat} (h : Denotes n i p) (h' : Denotes n i q) : p = q := by
  obtain ⟨hp, hi⟩ := h
  obtain ⟨hq, hi'⟩ := h'
  omega

theorem exists_denotes_iff : (∃ p, Denotes n i p) ↔ -(n : Int) ≤ i ∧ i < n := by
  constructor
  · rintro ⟨p, hp, hi⟩
    omega
  · intro h
    by_cases neg : i < 0
    · exact ⟨(i + n).toNat, by omega, by omega⟩
    · exact ⟨i.toNat, by omega, by omega⟩

theorem Value.bind_int?_eq_some : key.bind int? = some i ↔ key = some (.num (.int i)) := by
  simp [Option.bind_eq_some_iff, int?_eq_some]

/-- The call sets the item at position `p`. -/
def Call.Hits (n p : Nat) (call : Call) : Prop := ∃ i ∈ call.key.bind Value.int?, Denotes n i p

instance (n p : Nat) (call : Call) : Decidable (call.Hits n p) :=
  inferInstanceAs (Decidable (∃ i ∈ call.key.bind Value.int?, Denotes n i p))

/-- The items after calls: at each position, the last call that hits it decides. -/
def itemsAfter (items : List Slot) (calls : List Call) : List Slot :=
  items.mapIdx fun p x => calls.foldl (fun x call => if call.Hits items.length p then call.value else x) x

section Lists

variable {items : List Slot} {calls : List Call} {call : Call} {p : Nat}

theorem length_itemsAfter (items : List Slot) (calls : List Call) :
    (itemsAfter items calls).length = items.length :=
  length_mapIdx

theorem itemsAfter_hit (h : call.Hits items.length p) :
    itemsAfter items (calls ++ [call]) = (itemsAfter items calls).set p call.value := by
  obtain ⟨i, hi, denotes⟩ := h
  refine ext_getElem? fun q => ?_
  rw [getElem?_set, length_itemsAfter]
  simp only [itemsAfter, getElem?_mapIdx, foldl_append, foldl_cons, foldl_nil]
  by_cases e : p = q
  · subst e
    have hit : call.Hits items.length p := ⟨i, hi, denotes⟩
    rw [if_pos rfl, if_pos denotes.1, getElem?_eq_getElem denotes.1, Option.map_some, if_pos hit]
  · have miss : ¬call.Hits items.length q := by
      rintro ⟨j, hj, other⟩
      rw [Option.mem_def] at hi hj
      rw [hi, Option.some.injEq] at hj
      exact e (denotes.unique (hj ▸ other))
    rw [if_neg e]
    simp only [if_neg miss]

theorem itemsAfter_miss (h : ∀ p, ¬call.Hits items.length p) :
    itemsAfter items (calls ++ [call]) = itemsAfter items calls := by
  simp only [itemsAfter, foldl_append, foldl_cons, foldl_nil, if_neg (h _)]

end Lists

namespace Mem

theorem place?_eq_some_iff : place? n i = some p ↔ Denotes n i p := by
  unfold place? Denotes
  split
  · simp only [reduceCtorEq, false_iff]
    omega
  · rw [Option.some.injEq]
    split <;> omega

theorem listPlace_eq_ok (hi : key.bind Value.int? = some i) (h : Denotes n i p) :
    listPlace n key = .ok p := by
  rw [Value.bind_int?_eq_some.1 hi, listPlace, place?_eq_some_iff.2 h]

/-- A list refuses what is no integer, or not in range. -/
theorem listPlace_eq_error (h : ∀ i, key.bind Value.int? = some i → ¬∃ p, Denotes n i p) :
    ∃ f, listPlace n key = .error f ∧
      ((∃ e, f = .member e) ∨ ∃ i, key.bind Value.int? = some i ∧ (Number.int i).render = .error f) := by
  cases hk : key.bind Value.int? with
  | none =>
    refine ⟨.member .indexNotInt, ?_, .inl ⟨_, rfl⟩⟩
    unfold listPlace
    split
    · cases hk
    · rfl
  | some i =>
    have out : place? n i = none := by
      refine Option.eq_none_iff_forall_not_mem.2 fun p hp => h i hk ⟨p, ?_⟩
      exact place?_eq_some_iff.1 hp
    rw [Value.bind_int?_eq_some.1 hk, listPlace, out]
    cases shown : (Number.int i).render with
    | ok text => exact ⟨_, rfl, .inl ⟨_, rfl⟩⟩
    | error f => exact ⟨f, rfl, .inr ⟨i, rfl, shown⟩⟩

variable {items : List Slot} {key v : Slot}

theorem setMember_list (hc : s.get c = .list items) :
    setMember (some c) key v s = (do
      let p ← ofExcept (listPlace items.length (s.get? key))
      writeSlot (some c) (.list (items.set p v))) s := by
  unfold setMember
  rw [get_bind, Store.get?, Option.map_some, hc]

theorem setMember_list_eq_ok (hc : s.get c = .list items) (hi : (s.get? key).bind Value.int? = some i)
    (h : Denotes items.length i p) :
    setMember (some c) key v s = .ok () (s.set c (.list (items.set p v))) := by
  rw [setMember_list hc, listPlace_eq_ok hi h]
  rfl

theorem setMember_list_eq_error (hc : s.get c = .list items)
    (h : ∀ i, (s.get? key).bind Value.int? = some i → ¬∃ p, Denotes items.length i p) :
    ∃ f, setMember (some c) key v s = .error f s ∧ ((∃ e, f = .member e) ∨
      ∃ i, (s.get? key).bind Value.int? = some i ∧ (Number.int i).render = .error f) := by
  obtain ⟨f, place, why⟩ := listPlace_eq_error h
  refine ⟨f, ?_, why⟩
  rw [setMember_list hc, place]
  rfl

theorem member?_list_eq_ok (hc : s.get c = .list items) (hi : (s.get? key).bind Value.int? = some i)
    (h : Denotes items.length i p) : member? (some c) key s = .ok items[p]? s := by
  have place := listPlace_eq_ok hi h
  unfold member?
  rw [get_bind, Store.get?, Option.map_some, hc]
  dsimp only
  rw [place]
  rfl

end Mem

/-- The items of a list are told by its history. -/
theorem History.get_list {items : List Slot} (h : History c s₀ calls s) (hc : s₀.get c = .list items) :
    s.get c = .list (itemsAfter items calls) := by
  induction h with
  | start =>
    rw [hc, itemsAfter]
    exact congrArg Value.list (ext_getElem? fun p => by simp)
  | @set calls s _ key v ih =>
    have lt : c.index < s.cells.size := Store.lt_of_get_ne (by simp [ih])
    have length := length_itemsAfter items calls
    by_cases hits : ∃ p, Call.Hits items.length p ⟨s.get? key, v⟩
    · obtain ⟨p, i, hi, denotes⟩ := hits
      have run := Mem.setMember_list_eq_ok (v := v) ih hi (length ▸ denotes)
      rw [Mem.left, run, itemsAfter_hit ⟨i, hi, denotes⟩]
      exact Store.get_set_self lt
    · have refused : ∀ i, (s.get? key).bind Value.int? = some i →
          ¬∃ p, Denotes (itemsAfter items calls).length i p := by
        rintro i hi ⟨p, denotes⟩
        exact hits ⟨p, i, hi, length ▸ denotes⟩
      obtain ⟨f, run, -⟩ := Mem.setMember_list_eq_error (v := v) ih refused
      rw [Mem.left, run, itemsAfter_miss fun p hit => hits ⟨p, hit⟩]
      exact ih
  | elsewhere _ he ih => exact he.map.trans ih

/-! ### Maps -/

/-- Keys that are told apart by what is in them. -/
inductive Key
  | null
  | int (i : Int)
  | text (t : String)
deriving DecidableEq, Repr

namespace Key

def value : Key → Value
  | .null => .null
  | .int i => .num (.int i)
  | .text t => .str t

theorem value_isPlain (κ : Key) : κ.value.IsPlain := by
  cases κ <;> trivial

theorem value_injective : Function.Injective value := by
  intro κ κ' h
  cases κ <;> cases κ' <;> cases h <;> rfl

end Key

def Value.key? : Value → Option Key
  | .null => some .null
  | .num (.int i) => some (.int i)
  | .str t => some (.text t)
  | _ => none

theorem Value.key?_eq_some_iff {v : Value} : v.key? = some κ ↔ v = κ.value := by
  constructor
  · intro h
    cases v with
    | num m => cases m <;> cases h; rfl
    | _ => cases h <;> rfl
  · rintro rfl
    cases κ <;> rfl

/-- The value of a key after calls: the last one with this key decides. -/
def valueAfter (calls : List Call) (κ : Key) : Option Slot :=
  calls.foldl (fun v call => if call.key.bind Value.key? = some κ then some call.value else v) none

/-- The keys after calls, in the order in which they were first set. -/
def keysAfter (calls : List Call) : List Key :=
  (calls.filterMap fun call => call.key.bind Value.key?).eraseDups

section Maps

variable {calls : List Call} {call : Call} {κ : Key} {t : Table} {k q : Ref} {key v : Slot}

theorem valueAfter_append (calls : List Call) (call : Call) (κ : Key) :
    valueAfter (calls ++ [call]) κ =
      if call.key.bind Value.key? = some κ then some call.value else valueAfter calls κ := by
  rw [valueAfter, foldl_append, foldl_cons, foldl_nil, ← valueAfter]

theorem mem_keysAfter : κ ∈ keysAfter calls ↔ ∃ call ∈ calls, call.key.bind Value.key? = some κ := by
  rw [keysAfter, mem_eraseDups, mem_filterMap]

theorem valueAfter_eq_none (h : κ ∉ keysAfter calls) : valueAfter calls κ = none := by
  rw [mem_keysAfter] at h
  induction calls using List.reverseRecOn with
  | nil => rfl
  | append_singleton calls call ih =>
    have other : call.key.bind Value.key? ≠ some κ := fun e => h ⟨call, by simp, e⟩
    rw [valueAfter_append, if_neg other]
    refine ih ?_
    rintro ⟨call', mem, e⟩
    exact h ⟨call', mem_append_left _ mem, e⟩

theorem keysAfter_append_of_none (h : call.key.bind Value.key? = none) :
    keysAfter (calls ++ [call]) = keysAfter calls := by
  rw [keysAfter, filterMap_append, filterMap_cons, h, filterMap_nil, append_nil,
    ← keysAfter]

theorem keysAfter_append (h : call.key.bind Value.key? = some κ) :
    keysAfter (calls ++ [call]) =
      if κ ∈ keysAfter calls then keysAfter calls else keysAfter calls ++ [κ] := by
  unfold keysAfter
  rw [filterMap_append, filterMap_cons, h, filterMap_nil, eraseDups_append]
  generalize (calls.filterMap fun call => call.key.bind Value.key?) = keys
  by_cases mem : κ ∈ keys
  · rw [if_pos (mem_eraseDups.2 mem)]
    simp [List.removeAll, mem]
  · rw [if_neg fun e => mem (mem_eraseDups.1 e)]
    simp [List.removeAll, mem, eraseDups_cons]

/-! ### What a map has recorded -/

/-- The map in cell `c` is what the calls have made of an empty one. -/
structure Recorded (c : Ref) (calls : List Call) (s : Store) (t : Table) : Prop where
  map : s.get c = .map t
  tidy : t.Tidy s
  keys : (t.entries.map fun e => s.get e.key) = (keysAfter calls).map Key.value
  values : ∀ e ∈ t.entries, ∀ κ : Key, s.get e.key = κ.value → valueAfter calls κ = some e.value

namespace Mem

theorem mapKey_eq_error (h : ∀ u, s.get? key = some u → u.isKey = false) :
    mapKey s key = .error (.member .keyNotAllowed) := by
  cases key with
  | none => rfl
  | some k =>
    rw [mapKey, h _ rfl]
    rfl

theorem setMember_map_eq_error (hc : s.get c = .map t)
    (h : ∀ u, s.get? key = some u → u.isKey = false) :
    setMember (some c) key v s = .error (.member .keyNotAllowed) s := by
  have refused := mapKey_eq_error h
  unfold setMember
  rw [get_bind, Store.get?, Option.map_some, hc]
  dsimp only
  rw [refused]
  rfl

theorem member?_map (hc : s.get c = .map t) :
    member? (some c) key s = (do
      let k ← ofExcept (mapKey s key)
      return (s.find? (s.mark k) k t.entries).map Entry.value) s := by
  unfold member?
  rw [get_bind, Store.get?, Option.map_some, hc]

theorem member?_map_eq_error (hc : s.get c = .map t)
    (h : ∀ u, s.get? key = some u → u.isKey = false) :
    member? (some c) key s = .error (.member .keyNotAllowed) s := by
  rw [member?_map hc, mapKey_eq_error h]
  rfl

end Mem

theorem Store.exists_mem_put (s : Store) (k : Ref) (v : Slot) (es : List (Entry Slot)) :
    ∃ e ∈ s.put k v es, e.value = v := by
  induction es with
  | nil => exact ⟨_, mem_singleton_self _, rfl⟩
  | cons e es ih =>
    unfold put
    split
    · exact ⟨_, mem_cons_self, rfl⟩
    · obtain ⟨e', mem, eq⟩ := ih
      exact ⟨e', mem_cons_of_mem _ mem, eq⟩

namespace Recorded

theorem mem_keys (h : Recorded c calls s t) :
    κ ∈ keysAfter calls ↔ ∃ e ∈ t.entries, s.get e.key = κ.value := by
  constructor
  · intro mem
    have mem := mem_map_of_mem (f := Key.value) mem
    rw [← h.keys] at mem
    exact mem_map.1 mem
  · rintro ⟨e, he, eq⟩
    have mem := mem_map_of_mem (f := fun e => s.get e.key) he
    rw [h.keys, eq] at mem
    obtain ⟨κ', mem, same⟩ := mem_map.1 mem
    exact Key.value_injective same ▸ mem

theorem find?_eq_none_iff (h : Recorded c calls s t) (hk : s.get k = κ.value) :
    s.find? (s.mark k) k t.entries = none ↔ κ ∉ keysAfter calls := by
  have plain : (s.get k).IsPlain := hk ▸ κ.value_isPlain
  rw [h.mem_keys, ← hk, Store.find?, List.find?_eq_none]
  constructor
  · rintro none ⟨e, he, eq⟩
    exact none e he ((Store.fits_iff (h.tidy.labelled e he) plain).2 eq)
  · intro none e he fits
    exact none ⟨e, he, (Store.fits_iff (h.tidy.labelled e he) plain).1 fits⟩

/-- The value that a key leads to is the one that was set last. -/
theorem value?_eq (h : Recorded c calls s t) (hk : s.get k = κ.value) :
    s.value? k t.entries = valueAfter calls κ := by
  have plain : (s.get k).IsPlain := hk ▸ κ.value_isPlain
  unfold Store.value?
  cases found : s.find? (s.mark k) k t.entries with
  | none => exact (valueAfter_eq_none ((h.find?_eq_none_iff hk).1 found)).symm
  | some e =>
    have mem := Store.mem_of_find? found
    have eq := (Store.fits_iff (h.tidy.labelled e mem) plain).1 (find?_some found)
    exact (h.values e mem κ (eq.trans hk)).symm

/-- A key that is new comes last, and one that is not stays where it is. -/
theorem keys_put (h : Recorded c calls s t) (hq : s.get q = κ.value) (v : Slot) :
    ((s.put q v t.entries).map fun e => s.get e.key) =
      (if κ ∈ keysAfter calls then keysAfter calls else keysAfter calls ++ [κ]).map Key.value := by
  have known := h.find?_eq_none_iff hq
  cases found : s.find? (s.mark q) q t.entries with
  | none =>
    rw [if_neg (known.1 found), Store.put_of_isNone found, map_append, map_append, h.keys]
    simp [hq]
  | some e =>
    have old : κ ∈ keysAfter calls := by
      by_contra new
      rw [known.2 new] at found
      cases found
    have labels := Store.labels_put_of_isSome (by rw [found]; rfl) v
    have keys := congrArg (List.map fun label => s.get label.2) labels
    rw [Store.labels, Store.labels, map_map, map_map] at keys
    rw [if_pos old, ← h.keys]
    exact keys

theorem fail (h : Recorded c calls s t) (hk : call.key.bind Value.key? = none) :
    Recorded c (calls ++ [call]) s t where
  map := h.map
  tidy := h.tidy
  keys := by rw [keysAfter_append_of_none hk, h.keys]
  values e he κ eq := by
    rw [valueAfter_append, if_neg (by rw [hk]; simp)]
    exact h.values e he κ eq

theorem elsewhere (h : Recorded c calls s t) (he : Elsewhere c s s') : Recorded c calls s' t where
  map := he.map.trans h.map
  tidy := h.tidy.congr (he.keys t h.map) he.nulls
  keys := by
    rw [← h.keys]
    exact map_congr_left fun e hm => he.keys t h.map e hm
  values e hm κ eq := h.values e hm κ ((he.keys t h.map e hm).symm.trans eq)

/-- A call with a key of its own kind sets the value of this key, and no other. -/
theorem set (h : Recorded c calls s t) (hq : s.get q = κ.value)
    (hk : call.key.bind Value.key? = some κ) :
    Recorded c (calls ++ [call]) (s.set c (.map (Mem.putEntry s t q call.value)))
      (Mem.putEntry s t q call.value) := by
  have plain : (s.get q).IsPlain := hq ▸ κ.value_isPlain
  have labelled := h.tidy.labelled.put plain call.value
  have tidy : (Mem.putEntry s t q call.value).Tidy s := h.tidy.put fun e he => (labelled e he).1
  have grows : s.Grows (some c) (s.set c (.map (Mem.putEntry s t q call.value))) := .set
  have kept : ∀ e ∈ (Mem.putEntry s t q call.value).entries,
      (s.set c (.map (Mem.putEntry s t q call.value))).get e.key = s.get e.key :=
    fun e he => grows.kept_plain h.map (labelled e he).1
  refine ⟨Store.get_set_self (Store.lt_of_get_ne (by simp [h.map])), tidy.grow h.map grows, ?_, ?_⟩
  · rw [map_congr_left kept, keysAfter_append hk]
    exact h.keys_put hq call.value
  · intro e he κ' eq
    rw [kept e he] at eq
    have value : s.value? e.key (s.put q call.value t.entries) = some e.value :=
      tidy.distinct.value? tidy.labelled he
    rw [valueAfter_append, hk]
    by_cases same : κ = κ'
    · subst same
      rw [Store.value?_put h.tidy.labelled plain (labelled e he).1 (hq.trans eq.symm)] at value
      rw [if_pos rfl, value]
    · have ne : s.get q ≠ s.get e.key := by
        rw [hq, eq]
        exact Key.value_injective.ne same
      rw [Store.value?_put_of_ne h.tidy.labelled plain (labelled e he).1 ne, h.value?_eq eq] at value
      rw [if_neg fun e => same (Option.some.inj e), value]

end Recorded

/-- The key of the call is a floating-point number. -/
def Call.isFloat (call : Call) : Bool :=
  match call.key with
  | some (.num (.float _)) => true
  | _ => false

theorem Call.key_ne_float (h : call.isFloat = false) (x : Float) : call.key ≠ some (.num (.float x)) := by
  intro e
  rw [isFloat, e] at h
  cases h

theorem Value.isKey_eq_false {v : Value} (hv : v.key? = none) (hf : ∀ x, v ≠ .num (.float x)) :
    v.isKey = false := by
  cases v with
  | num m =>
    cases m with
    | int i => cases hv
    | float x => exact absurd rfl (hf x)
  | null => cases hv
  | str t => cases hv
  | _ => rfl

theorem isKey_eq_false_of_get? (hk : (s.get? key).bind Value.key? = none)
    (hf : ∀ x, s.get? key ≠ some (.num (.float x))) :
    ∀ u, s.get? key = some u → u.isKey = false := by
  intro u hu
  rw [hu] at hk hf
  exact Value.isKey_eq_false hk fun x e => hf x (congrArg some e)

/-- What a map holds is told by its history. -/
theorem History.recorded (h : History c s₀ calls s) (hc : s₀.get c = .map .empty)
    (hf : ∀ call ∈ calls, call.isFloat = false) : ∃ t, Recorded c calls s t := by
  induction h with
  | start => exact ⟨.empty, hc, Table.tidy_empty _, rfl, fun _ he => absurd he not_mem_nil⟩
  | @set calls s _ key v ih =>
    obtain ⟨t, ht⟩ := ih fun call hm => hf call (mem_append_left _ hm)
    cases hk : (s.get? key).bind Value.key? with
    | none =>
      have other := isKey_eq_false_of_get? hk (Call.key_ne_float (hf ⟨s.get? key, v⟩ (by simp)))
      rw [Mem.left, Mem.setMember_map_eq_error ht.map other]
      exact ⟨t, ht.fail hk⟩
    | some κ =>
      obtain ⟨q, rfl, hq⟩ : ∃ q, key = some q ∧ s.get q = κ.value := by
        cases key with
        | none => cases hk
        | some q => exact ⟨q, rfl, Value.key?_eq_some_iff.1 hk⟩
      have plain : (s.get q).IsPlain := hq ▸ κ.value_isPlain
      rw [Mem.left, Mem.setMember_eq ht.map plain.isKey]
      exact ⟨_, Recorded.set ht hq hk⟩
  | elsewhere _ he ih =>
    obtain ⟨t, ht⟩ := ih hf
    exact ⟨t, ht.elsewhere he⟩

end Maps

/-! ### Asking for members -/

section Members

variable {m : Machine} {cell key v : Slot} {f : Failure}

theorem getMember_of_some (h : Mem.member? cell key m.store = .ok (some v) m.store) :
    Eval.getMember cell key m = .ok v m := by
  have run : (Exec.mem (Mem.member? cell key) : Exec _) m = .ok (some v) m := by simp only [Exec.mem, h]
  exact Exec.bind_of_ok run

theorem getMember_of_none (h : Mem.member? cell key m.store = .ok none m.store) :
    ∃ out, Eval.getMember cell key m =
      .error (.failed (m.store.absence cell key)) { m with out := out } := by
  have run : (Exec.mem (Mem.member? cell key) : Exec _) m = .ok none m := by simp only [Exec.mem, h]
  unfold Eval.getMember
  rw [Exec.bind_of_ok run]
  exact keyNotFound_fails cell key m

theorem getMember_of_error (h : Mem.member? cell key m.store = .error f m.store) :
    Eval.getMember cell key m = .error (.failed f) m := by
  have run : (Exec.mem (Mem.member? cell key) : Exec _) m = .error (.failed f) m := by
    simp only [Exec.mem, h]
  exact Exec.bind_of_error run

theorem Recorded.member?_eq {t : Table} (h : Recorded c calls s t) (hk : s.get? key = some κ.value) :
    Mem.member? (some c) key s = .ok (valueAfter calls κ) s := by
  obtain ⟨k, rfl, eq⟩ := Option.map_eq_some_iff.1 hk
  have plain : (s.get k).IsPlain := eq ▸ κ.value_isPlain
  have allowed : Mem.mapKey s (some k) = .ok k := if_pos plain.isKey
  rw [Mem.member?_map h.map, allowed, ← h.value?_eq eq]
  rfl

end Members

/-! ### Containers are stores -/

/-- The list in cell `c` had these items, and has taken these calls since. -/
structure ListStore (c : Ref) (items : List Slot) (calls : List Call) (s : Store) : Prop where
  holds : s.get c = .list (itemsAfter items calls)
  length : (itemsAfter items calls).length = items.length
  set : ∀ key v i, s.get? key = some (.num (.int i)) → -(items.length : Int) ≤ i → i < items.length →
    ∃ s', Mem.setMember (some c) key v s = .ok () s'
  refuse : ∀ key v, (∀ i : Int, s.get? key = some (.num (.int i)) → i < -items.length ∨ items.length ≤ i) →
    ∃ f, Mem.setMember (some c) key v s = .error f s ∧ ((∃ e, f = .member e) ∨
      ∃ i, s.get? key = some (.num (.int i)) ∧ (Number.int i).render = .error f)
  get : ∀ key i p, s.get? key = some (.num (.int i)) → Denotes items.length i p →
    ∃ v, (itemsAfter items calls)[p]? = some v ∧
      ∀ m : Machine, m.store = s → Eval.getMember (some c) key m = .ok v m

/-- The map in cell `c` was empty, and has taken these calls since. -/
structure MapStore (c : Ref) (calls : List Call) (s : Store) : Prop where
  holds : ∃ t, s.get c = .map t ∧
    (t.entries.map fun e => s.get e.key) = (keysAfter calls).map Key.value
  set : ∀ key v (κ : Key), s.get? key = some κ.value →
    ∃ s', Mem.setMember (some c) key v s = .ok () s'
  setFloat : ∀ key v x, s.get? key = some (.num (.float x)) →
    ∃ s' t, Mem.setMember (some c) key v s = .ok () s' ∧ s'.get c = .map t ∧ ∃ e ∈ t.entries, e.value = v
  refuse : ∀ key v, (s.get? key).bind Value.key? = none → (∀ x, s.get? key ≠ some (.num (.float x))) →
    Mem.setMember (some c) key v s = .error (.member .keyNotAllowed) s
  get : ∀ key v (κ : Key), s.get? key = some κ.value → valueAfter calls κ = some v →
    ∀ m : Machine, m.store = s → Eval.getMember (some c) key m = .ok v m
  missing : ∀ key (κ : Key), s.get? key = some κ.value → valueAfter calls κ = none →
    ∀ m : Machine, m.store = s → ∃ out,
      Eval.getMember (some c) key m = .error (.failed (s.absence (some c) key)) { m with out := out }
  getRefused : ∀ key, (s.get? key).bind Value.key? = none → (∀ x, s.get? key ≠ some (.num (.float x))) →
    ∀ m : Machine, m.store = s →
      Eval.getMember (some c) key m = .error (.failed (.member .keyNotAllowed)) m

section Stores

variable {calls : List Call} {items : List Slot}

theorem History.listStore (h : History c s₀ calls s) (hc : s₀.get c = .list items) :
    ListStore c items calls s := by
  have holds := h.get_list hc
  have length := length_itemsAfter items calls
  refine ⟨holds, length, ?_, ?_, ?_⟩
  · intro key v i hi low high
    obtain ⟨p, denotes⟩ := exists_denotes_iff.2 ⟨low, high⟩
    exact ⟨_, Mem.setMember_list_eq_ok holds (Value.bind_int?_eq_some.2 hi) (length ▸ denotes)⟩
  · intro key v out
    have none : ∀ i, (s.get? key).bind Value.int? = some i →
        ¬∃ p, Denotes (itemsAfter items calls).length i p := by
      intro i hi
      have out := out i (Value.bind_int?_eq_some.1 hi)
      rw [length, exists_denotes_iff]
      omega
    obtain ⟨f, run, why⟩ := Mem.setMember_list_eq_error (v := v) holds none
    simp only [Value.bind_int?_eq_some] at why
    exact ⟨f, run, why⟩
  · intro key i p hi denotes
    have lt : p < (itemsAfter items calls).length := length ▸ denotes.1
    have run := Mem.member?_list_eq_ok holds (Value.bind_int?_eq_some.2 hi) (length ▸ denotes)
    rw [getElem?_eq_getElem lt] at run ⊢
    refine ⟨_, rfl, ?_⟩
    rintro m rfl
    exact getMember_of_some run

theorem History.mapStore (h : History c s₀ calls s) (hc : s₀.get c = .map .empty)
    (hf : ∀ call ∈ calls, call.isFloat = false) : MapStore c calls s := by
  obtain ⟨t, ht⟩ := h.recorded hc hf
  have lt : c.index < s.cells.size := Store.lt_of_get_ne (by simp [ht.map])
  refine ⟨⟨t, ht.map, ht.keys⟩, ?_, ?_, ?_, ?_, ?_, ?_⟩
  · intro key v κ hk
    obtain ⟨q, rfl, hq⟩ := Option.map_eq_some_iff.1 hk
    exact ⟨_, Mem.setMember_eq ht.map (hq ▸ κ.value_isPlain.isKey) v⟩
  · intro key v x hx
    obtain ⟨q, rfl, hq⟩ := Option.map_eq_some_iff.1 hx
    have isKey : (s.get q).isKey = true := by
      rw [hq]
      rfl
    exact ⟨_, _, Mem.setMember_eq ht.map isKey v, Store.get_set_self lt, s.exists_mem_put q v t.entries⟩
  · intro key v hk other
    exact Mem.setMember_map_eq_error ht.map (isKey_eq_false_of_get? hk other)
  · rintro key v κ hk value m rfl
    exact getMember_of_some (value ▸ ht.member?_eq hk)
  · rintro key κ hk value m rfl
    exact getMember_of_none (value ▸ ht.member?_eq hk)
  · rintro key hk other m rfl
    exact getMember_of_error (Mem.member?_map_eq_error ht.map (isKey_eq_false_of_get? hk other))

/-- Whatever has been called on a list, or on a map that was empty, it holds what these calls have put
there. The calls for a map must not have floating-point numbers as keys, which it does not refuse. -/
theorem History.stores_last_set (h : History c s₀ calls s) :
    (∀ items, s₀.get c = .list items → ListStore c items calls s) ∧
      (s₀.get c = .map .empty → (∀ call ∈ calls, call.isFloat = false) → MapStore c calls s) :=
  ⟨fun _ => h.listStore, h.mapStore⟩

/-- A list, an empty map, and what they can be given: `-1`, `2`, `'a'` and `true`. -/
def shelf : Store :=
  ⟨#[.list [some ⟨2⟩, some ⟨3⟩], .map .empty, .num (.int (-1)), .num (.int 2), .str "a", .bool true]⟩

/-- The list is given `'a'` at `-1`, and refuses an item at `2`. The map is given items for `'a'` and
`-1`, refuses one for `true` in between, and is given another one for `'a'`. -/
theorem History.stores_last_set_shelf :
    (∃ calls s, History ⟨0⟩ shelf calls s ∧ ListStore ⟨0⟩ [some ⟨2⟩, some ⟨3⟩] calls s ∧
      itemsAfter [some ⟨2⟩, some ⟨3⟩] calls = [some ⟨2⟩, some ⟨4⟩]) ∧
    ∃ calls s, History ⟨1⟩ shelf calls s ∧ MapStore ⟨1⟩ calls s ∧
      keysAfter calls = [.text "a", .int (-1)] ∧ valueAfter calls (.text "a") = some (some ⟨5⟩) := by
  constructor
  · have before : History ⟨0⟩ shelf [] shelf := .start
    have h := before.set (some ⟨2⟩) (some ⟨4⟩) |>.set (some ⟨3⟩) (some ⟨5⟩)
    exact ⟨_, _, h, h.stores_last_set.1 _ rfl, by decide +kernel⟩
  · have before : History ⟨1⟩ shelf [] shelf := .start
    have h := before.set (some ⟨4⟩) (some ⟨2⟩)
      |>.set (some ⟨5⟩) (some ⟨2⟩) |>.set (some ⟨2⟩) (some ⟨3⟩) |>.set (some ⟨4⟩) (some ⟨5⟩)
    exact ⟨_, _, h, h.stores_last_set.2 rfl (by decide +kernel), by decide +kernel, by decide +kernel⟩

end Stores

end TinyScript
