import TinyScript.Proofs.SoundStore

/-!
# Maps with plain keys

Null, integers and strings are told apart by what is in them, so an entry with such a key answers to
every cell of the same content, as long as its mark is the one its key has now. A map is tidy if all
its marks are current, its keys differ from each other, and its successors, where no key has been
added since they were made, are those of its keys. What is set keeps a map tidy, and so does a change
of the store that leaves its keys alone.

`next_of_tidy`: from null on, going through a tidy map comes upon its entries in their order, except
that a null among the keys, which cannot be told from the null before the first key, makes it start
after that entry.
-/

namespace TinyScript

open List

variable {v : Value} {c q k : Ref} {t : Table} {i : Nat} {links : List (Entry Ref)} {items : List Slot}

theorem Value.isNull_iff : v.isNull = true ↔ v = .null := by
  cases v <;> simp [isNull]

instance (v : Value) : Decidable (v = .null) := decidable_of_iff _ Value.isNull_iff

/-- The integer, if the value is one. -/
def Value.int? : Value → Option Int
  | .num (.int n) => some n
  | _ => none

theorem Value.int?_eq_some {n : Int} : v.int? = some n ↔ v = .num (.int n) := by
  constructor
  · intro h
    unfold int? at h
    split at h
    · rw [Option.some.inj h]
    · cases h
  · rintro rfl
    rfl

instance (v : Value) (n : Int) : Decidable (v = .num (.int n)) :=
  decidable_of_iff _ Value.int?_eq_some

/-- Values that are equal only to values of the same content. -/
def Value.IsPlain : Value → Prop
  | .null | .num (.int _) | .str _ => True
  | _ => False

instance : DecidablePred Value.IsPlain
  | .null | .num (.int _) | .str _ => isTrue trivial
  | .num (.float _) | .bool _ | .list _ | .map _ | .object | .type _ | .func _ | .host _ _ | .blank =>
    isFalse id

theorem Value.IsPlain.isKey (h : v.IsPlain) : v.isKey = true := by
  cases v with
  | null | num | str => rfl
  | _ => exact h.elim

theorem Value.IsPlain.not_isContainer (h : v.IsPlain) : ¬v.isContainer = true := by
  intro hc
  cases v with
  | list | map => exact h
  | _ => cases hc

theorem Value.IsPlain.ne_map (h : v.IsPlain) (t : Table) : v ≠ .map t := by
  rintro rfl
  exact h

namespace Store

variable {α : Type} {s s' : Store} {a b k : Ref} {v : α} {e : Entry α} {es : List (Entry α)}

theorem IsPlain.lt (h : (s.get a).IsPlain) : a.index < s.cells.size :=
  lt_of_get_ne fun e => by
    rw [e] at h
    exact h

/-- Where only the cell of a map may change, plain values stay. -/
theorem Grows.kept_plain (g : s.Grows (some c) s') (ht : s.get c = .map t) (h : (s.get a).IsPlain) :
    s'.get a = s.get a :=
  g.kept a (IsPlain.lt h) fun e => by
    cases e
    exact h.ne_map t ht

theorem alike_iff (ha : (s.get a).IsPlain) (hb : (s.get b).IsPlain) :
    s.alike (some a) (some b) = true ↔ s.get a = s.get b := by
  have same : a = b → s.get a = s.get b := congrArg s.get
  simp only [alike, equal, Bool.or_eq_true, beq_iff_eq]
  generalize s.get a = v at *
  generalize s.get b = w at *
  cases v with
  | null | str x => cases w <;> simp_all [Value.IsPlain]
  | num m =>
    cases m with
    | float x => exact ha.elim
    | int i =>
      cases w with
      | num n =>
        cases n with
        | float y => exact hb.elim
        | int j => simpa [Number.eq, Number.compare?] using same
      | _ => simp_all [Value.IsPlain]
  | _ => exact ha.elim

theorem mark_congr (h : s'.get b = s.get a) (ha : (s.get a).IsPlain) : s'.mark b = s.mark a := by
  unfold mark
  rw [h]
  generalize s.get a = v at *
  cases v with
  | num n =>
    cases n with
    | int i => rfl
    | float x => exact ha.elim
  | _ => rfl

/-! ### Entries -/

/-- Entries with plain keys and current marks. -/
def Labelled (s : Store) (es : List (Entry α)) : Prop :=
  ∀ e ∈ es, (s.get e.key).IsPlain ∧ e.mark = s.mark e.key

theorem fits_iff (he : (s.get e.key).IsPlain ∧ e.mark = s.mark e.key) (hk : (s.get k).IsPlain) :
    s.fits (s.mark k) k e = true ↔ s.get e.key = s.get k := by
  rw [fits, Bool.and_eq_true, alike_iff he.1 hk, beq_iff_eq, he.2]
  exact ⟨And.right, fun h => ⟨mark_congr h hk, h⟩⟩

/-- What the entry for a key holds. -/
def value? (s : Store) (k : Ref) (es : List (Entry α)) : Option α :=
  (s.find? (s.mark k) k es).map (·.value)

theorem value?_cons (he : (s.get e.key).IsPlain ∧ e.mark = s.mark e.key) (hk : (s.get k).IsPlain)
    (h : s.get e.key = s.get k) : s.value? k (e :: es) = some e.value := by
  rw [value?, find?, find?_cons_of_pos ((fits_iff he hk).2 h)]
  rfl

theorem value?_cons_of_ne (he : (s.get e.key).IsPlain ∧ e.mark = s.mark e.key)
    (hk : (s.get k).IsPlain) (h : s.get e.key ≠ s.get k) :
    s.value? k (e :: es) = s.value? k es := by
  rw [value?, find?, find?_cons_of_neg fun hf => h ((fits_iff he hk).1 hf)]
  rfl

theorem Labelled.put (h : s.Labelled es) (hk : (s.get k).IsPlain) (v : α) :
    s.Labelled (s.put k v es) := by
  induction es with
  | nil => exact forall_mem_singleton.2 ⟨hk, rfl⟩
  | cons e es ih =>
    obtain ⟨he, hes⟩ := forall_mem_cons.1 h
    unfold Store.put
    split
    · exact forall_mem_cons.2 ⟨he, hes⟩
    · exact forall_mem_cons.2 ⟨he, ih hes⟩

/-- What entries are found by. -/
def labels (es : List (Entry α)) : List (Mark × Ref) := es.map fun e => (e.mark, e.key)

theorem labels_put_of_isSome (h : (s.find? (s.mark k) k es).isSome = true) (v : α) :
    labels (s.put k v es) = labels es := by
  induction es with
  | nil => cases h
  | cons e es ih =>
    unfold put
    by_cases hf : s.fits (s.mark k) k e = true
    · rw [if_pos hf]
      rfl
    · rw [find?, find?_cons_of_neg hf] at h
      rw [if_neg hf]
      exact congrArg ((e.mark, e.key) :: ·) (ih h)

theorem put_of_isNone (h : s.find? (s.mark k) k es = none) (v : α) :
    s.put k v es = es ++ [⟨s.mark k, k, v⟩] := by
  induction es with
  | nil => rfl
  | cons e es ih =>
    have hf : ¬s.fits (s.mark k) k e = true := by
      intro hf
      rw [find?, find?_cons_of_pos hf] at h
      cases h
    rw [find?, find?_cons_of_neg hf] at h
    rw [put, if_neg hf, ih h]
    rfl

/-- Setting the value for a key keeps the keys that are there. -/
theorem labels_put (s : Store) (k : Ref) (v : α) (es : List (Entry α)) :
    labels es <+: labels (s.put k v es) := by
  cases h : s.find? (s.mark k) k es with
  | none =>
    rw [put_of_isNone h, labels, labels, map_append]
    exact prefix_append _ _
  | some e =>
    have found : (s.find? (s.mark k) k es).isSome = true := by
      rw [h]
      rfl
    exact (labels_put_of_isSome found v).symm ▸ prefix_rfl

theorem value?_put (h : s.Labelled es) (ha : (s.get a).IsPlain) (hk : (s.get k).IsPlain)
    (e : s.get a = s.get k) : s.value? k (s.put a v es) = some v := by
  induction es with
  | nil => exact value?_cons ⟨ha, rfl⟩ hk e
  | cons e₀ es ih =>
    obtain ⟨he, hes⟩ := forall_mem_cons.1 h
    unfold put
    split
    · rename_i hf
      exact value?_cons he hk (((fits_iff he ha).1 hf).trans e)
    · rename_i hf
      rw [fits_iff he ha, e] at hf
      rw [value?_cons_of_ne he hk hf, ih hes]

theorem value?_put_of_ne (h : s.Labelled es) (ha : (s.get a).IsPlain) (hk : (s.get k).IsPlain)
    (ne : s.get a ≠ s.get k) : s.value? k (s.put a v es) = s.value? k es := by
  induction es with
  | nil => exact value?_cons_of_ne ⟨ha, rfl⟩ hk ne
  | cons e₀ es ih =>
    obtain ⟨he, hes⟩ := forall_mem_cons.1 h
    unfold put
    split
    · rename_i hf
      have ne₀ : s.get e₀.key ≠ s.get k := (fits_iff he ha).1 hf ▸ ne
      rw [value?_cons_of_ne (e := { e₀ with value := v }) he hk ne₀, value?_cons_of_ne he hk ne₀]
    · by_cases e₁ : s.get e₀.key = s.get k
      · rw [value?_cons he hk e₁, value?_cons he hk e₁]
      · rw [value?_cons_of_ne he hk e₁, value?_cons_of_ne he hk e₁, ih hes]

theorem find?_eq_none (h : s.Labelled es) (hk : (s.get k).IsPlain)
    (new : ∀ e ∈ es, s.get e.key ≠ s.get k) : s.find? (s.mark k) k es = none :=
  List.find?_eq_none.2 fun e he hf => new e he ((fits_iff (h e he) hk).1 hf)

/-- A new key goes to the end. -/
theorem put_of_new (h : s.Labelled es) (hk : (s.get k).IsPlain)
    (new : ∀ e ∈ es, s.get e.key ≠ s.get k) (v : α) : s.put k v es = es ++ [⟨s.mark k, k, v⟩] :=
  put_of_isNone (find?_eq_none h hk new) v

/-- Keys that differ from each other. -/
def Distinct (s : Store) (es : List (Entry α)) : Prop :=
  es.Pairwise fun e e' => s.get e.key ≠ s.get e'.key

theorem Distinct.value? (d : s.Distinct es) (h : s.Labelled es) (he : e ∈ es) :
    s.value? e.key es = some e.value := by
  induction es with
  | nil => cases he
  | cons e₀ es ih =>
    obtain ⟨he₀, hes⟩ := forall_mem_cons.1 h
    obtain ⟨ne, d⟩ := pairwise_cons.1 d
    rcases mem_cons.1 he with rfl | he
    · exact value?_cons he₀ he₀.1 rfl
    · rw [value?_cons_of_ne he₀ (hes e he).1 (ne e he), ih d hes he]

/-- Only the contents of the keys matter to where a value is put. -/
theorem put_congr (hk : s'.get k = s.get k) (h : ∀ e ∈ es, s'.get e.key = s.get e.key) (v : α) :
    s'.put k v es = s.put k v es := by
  have mark : s'.mark k = s.mark k := by
    unfold Store.mark
    rw [hk]
  induction es with
  | nil => rw [put, put, mark]
  | cons e es ih =>
    obtain ⟨he, hes⟩ := forall_mem_cons.1 h
    have fits : s'.fits (s'.mark k) k e = s.fits (s.mark k) k e := by
      simp only [Store.fits, mark, alike, equal, hk, he]
    rw [put, put, fits, ih hes]

end Store

/-! ### Links -/

namespace Mem

open Store (Labelled)

variable {s s' : Store} {es : List (Entry Ref)} {start last prev k : Ref} {ks : List Ref}

/-- The links from `prev` on through `ks` to `last`, added to `es`. -/
def linkFrom (s : Store) (last : Ref) (es : List (Entry Ref)) : Ref → List Ref → List (Entry Ref)
  | prev, [] => s.put prev last es
  | prev, k :: ks => linkFrom s last (s.put prev k es) k ks

theorem linkKeys_eq (s : Store) (start last : Ref) (ks : List Ref) :
    linkKeys s start last ks = linkFrom s last [] start ks := by
  -- the fold over the keys, with any links made before
  let link (acc : List (Entry Ref) × Ref) (k : Ref) := (s.put acc.2 k acc.1, k)
  have go : ∀ (ks : List Ref) (acc : List (Entry Ref) × Ref),
      s.put (ks.foldl link acc).2 last (ks.foldl link acc).1 = linkFrom s last acc.1 acc.2 ks := by
    intro ks
    induction ks with
    | nil => exact fun _ => rfl
    | cons k ks ih => exact fun acc => ih (link acc k)
  exact go ks ([], start)

theorem linkFrom_congr (hp : s'.get prev = s.get prev) (hk : ∀ k ∈ ks, s'.get k = s.get k)
    (he : ∀ e ∈ es, s'.get e.key = s.get e.key) :
    linkFrom s' last es prev ks = linkFrom s last es prev ks := by
  induction ks generalizing es prev with
  | nil => exact Store.put_congr hp he last
  | cons k ks ih =>
    obtain ⟨hk, hks⟩ := forall_mem_cons.1 hk
    rw [linkFrom, linkFrom, Store.put_congr hp he]
    refine ih hk hks fun e h => ?_
    rcases Store.mem_put h with h | ⟨-, e₁ | ⟨e₀, h₀, e₁⟩⟩
    · exact he e h
    · rw [e₁, hp]
    · rw [e₁, he e₀ h₀]

theorem linkFrom_append (s : Store) (last : Ref) (es : List (Entry Ref)) (prev k : Ref)
    (pre ks : List Ref) :
    ∃ es', (s.Labelled es → (s.get prev).IsPlain → (∀ k ∈ pre, (s.get k).IsPlain) → s.Labelled es') ∧
      linkFrom s last es prev (pre ++ k :: ks) = linkFrom s last es' k ks := by
  induction pre generalizing es prev with
  | nil => exact ⟨s.put prev k es, fun h hp _ => h.put hp k, rfl⟩
  | cons q pre ih =>
    obtain ⟨es', h, e⟩ := ih (s.put prev q es) q
    refine ⟨es', fun hl hp hq => ?_, e⟩
    obtain ⟨hq, hpre⟩ := forall_mem_cons.1 hq
    exact h (hl.put hp q) hq hpre

theorem value?_linkFrom_of_ne (h : s.Labelled es) (hp : ∀ q ∈ prev :: ks, (s.get q).IsPlain)
    (hk : (s.get k).IsPlain) (ne : ∀ q ∈ prev :: ks, s.get q ≠ s.get k) :
    s.value? k (linkFrom s last es prev ks) = s.value? k es := by
  induction ks generalizing es prev with
  | nil => exact Store.value?_put_of_ne h (hp prev (by simp)) hk (ne prev (by simp))
  | cons q ks ih =>
    obtain ⟨hp, hks⟩ := forall_mem_cons.1 hp
    obtain ⟨ne, nes⟩ := forall_mem_cons.1 ne
    rw [linkFrom, ih (h.put hp q) hks nes, Store.value?_put_of_ne h hp hk ne]

/-- Among keys that differ, each one leads to the one after it and the last one to `last`. -/
theorem value?_linkFrom (h : s.Labelled es) (hp : ∀ q ∈ prev :: ks, (s.get q).IsPlain)
    (d : (prev :: ks).Pairwise fun q q' => s.get q ≠ s.get q') (hq : (prev :: ks)[i]? = some q)
    (e : s.get q = s.get k) : s.value? k (linkFrom s last es prev ks) = (ks ++ [last])[i]? := by
  have hk : (s.get k).IsPlain := e ▸ hp q (mem_of_getElem? hq)
  induction ks generalizing es prev i with
  | nil =>
    cases i with
    | zero =>
      cases hq
      exact Store.value?_put h (hp q (by simp)) hk e
    | succ i => cases hq
  | cons q' ks ih =>
    obtain ⟨hp, hks⟩ := forall_mem_cons.1 hp
    obtain ⟨ne, d⟩ := pairwise_cons.1 d
    rw [linkFrom]
    cases i with
    | zero =>
      cases hq
      rw [value?_linkFrom_of_ne (h.put hp q') hks hk fun q hq => e ▸ (ne q hq).symm,
        Store.value?_put h hp hk e]
      rfl
    | succ i => exact ih (h.put hp q') hks d hq

/-- The links along keys that differ, in their order. -/
def chain (s : Store) (start last : Ref) (ks : List Ref) : List (Entry Ref) :=
  List.zipWith (fun k q => ⟨s.mark k, k, q⟩) (start :: ks) (ks ++ [last])

theorem linkFrom_eq_chain (h : s.Labelled es) (hp : ∀ q ∈ prev :: ks, (s.get q).IsPlain)
    (d : (prev :: ks).Pairwise fun q q' => s.get q ≠ s.get q')
    (new : ∀ q ∈ prev :: ks, ∀ e ∈ es, s.get e.key ≠ s.get q) :
    linkFrom s last es prev ks = es ++ chain s prev last ks := by
  induction ks generalizing es prev with
  | nil => exact Store.put_of_new h (hp prev (by simp)) (new prev (by simp)) last
  | cons k ks ih =>
    obtain ⟨hp, hks⟩ := forall_mem_cons.1 hp
    obtain ⟨ne, d⟩ := pairwise_cons.1 d
    obtain ⟨new, news⟩ := forall_mem_cons.1 new
    have put := Store.put_of_new h hp new k
    rw [linkFrom, ih (h.put hp k) hks d fun q hq e he => ?_, put]
    · exact List.append_assoc _ _ _
    · rw [put] at he
      rcases mem_append.1 he with he | he
      · exact news q hq e he
      · obtain rfl := mem_singleton.1 he
        exact ne q hq

end Mem

/-! ### Tidy maps -/

open Mem

namespace Table

/-- A map with plain keys, as it comes about when no key is changed in place. -/
structure Tidy (s : Store) (t : Table) : Prop where
  labelled : s.Labelled t.entries
  distinct : s.Distinct t.entries
  empty : t.entries = [] → t = .empty
  linked : t.entries ≠ [] → t.grown = false → ∃ start last, s.get start = .null ∧
    s.get last = .null ∧ t.successors = some (linkKeys s start last (t.entries.map (·.key)))

variable {s s' : Store} {t t' : Table} {k : Ref}

theorem tidy_empty (s : Store) : Table.empty.Tidy s where
  labelled _ he := absurd he not_mem_nil
  distinct := List.Pairwise.nil
  empty _ := rfl
  linked h := absurd rfl h

theorem Tidy.congr (h : t.Tidy s) (hk : ∀ e ∈ t.entries, s'.get e.key = s.get e.key)
    (hn : ∀ r, s.get r = .null → s'.get r = .null) : t.Tidy s' where
  labelled e he := by
    obtain ⟨plain, mark⟩ := h.labelled e he
    exact ⟨hk e he ▸ plain, mark.trans (Store.mark_congr (hk e he) plain).symm⟩
  distinct := h.distinct.imp_of_mem fun he he' ne => by rwa [hk _ he, hk _ he']
  empty := h.empty
  linked ne hg := by
    obtain ⟨start, last, hs, hl, e⟩ := h.linked ne hg
    refine ⟨start, last, hn start hs, hn last hl, ?_⟩
    rw [e, linkKeys_eq, linkKeys_eq, linkFrom_congr ((hn start hs).trans hs.symm) (fun q hq => ?_)
      fun e he => absurd he not_mem_nil]
    obtain ⟨e', he', rfl⟩ := mem_map.1 hq
    exact hk e' he'

theorem Tidy.grow {t₀ : Table} (h : t.Tidy s) (ht : s.get c = .map t₀) (g : s.Grows (some c) s') :
    t.Tidy s' :=
  h.congr (fun e he => g.kept_plain ht (h.labelled e he).1) fun _ hr =>
    (g.kept_plain ht (hr ▸ trivial)).trans hr

theorem Tidy.relabel (h : t.Tidy s) (hl : Store.labels t'.entries = Store.labels t.entries)
    (hg : t'.grown = t.grown) (hs : t'.successors = t.successors) : t'.Tidy s := by
  have keys : t'.entries.map (·.key) = t.entries.map (·.key) := by
    have := congrArg (List.map Prod.snd) hl
    rwa [Store.labels, Store.labels, map_map, map_map] at this
  have nil : t'.entries = [] ↔ t.entries = [] := by
    rw [← map_eq_nil_iff (f := (·.key)), keys, map_eq_nil_iff]
  refine ⟨fun e he => ?_, ?_, fun e => ?_, fun ne h' => ?_⟩
  · have mem : (e.mark, e.key) ∈ Store.labels t.entries := hl ▸ mem_map_of_mem he
    obtain ⟨e₀, he₀, e₁⟩ := mem_map.1 mem
    obtain ⟨hm, hk⟩ := Prod.mk.inj e₁
    exact hm ▸ hk ▸ h.labelled e₀ he₀
  · have d : (t.entries.map (·.key)).Pairwise fun k k' => s.get k ≠ s.get k' :=
      pairwise_map.2 h.distinct
    rw [← keys, pairwise_map] at d
    exact d
  · have empty := h.empty (nil.1 e)
    cases t'
    subst empty
    simp_all [Table.empty]
  · obtain ⟨start, last, h₁, h₂, e⟩ := h.linked (fun e => ne (nil.2 e)) (hg ▸ h')
    exact ⟨start, last, h₁, h₂, by rw [hs, e, keys]⟩

theorem Tidy.put (h : t.Tidy s) {v : Slot}
    (plain : ∀ e ∈ (putEntry s t k v).entries, (s.get e.key).IsPlain) :
    (putEntry s t k v).Tidy s := by
  have entries : (putEntry s t k v).entries = s.put k v t.entries := rfl
  cases found : s.find? (s.mark k) k t.entries with
  | some e =>
    refine h.relabel (Store.labels_put_of_isSome (by rw [found]; rfl) v) ?_ rfl
    simp [putEntry, found]
  | none =>
    have put := Store.put_of_isNone found v
    rw [entries, put] at plain
    have hk : (s.get k).IsPlain := plain ⟨s.mark k, k, v⟩ (by simp)
    have new : ∀ e ∈ t.entries, s.get e.key ≠ s.get k := fun e he eq =>
      List.find?_eq_none.1 found e he ((Store.fits_iff (h.labelled e he) hk).2 eq)
    refine ⟨?_, ?_, fun e => ?_, fun _ hg => ?_⟩
    · exact h.labelled.put hk v
    · rw [entries, put]
      refine pairwise_append.2 ⟨h.distinct, pairwise_singleton _ _, fun e he e' he' => ?_⟩
      obtain rfl := mem_singleton.1 he'
      exact new e he
    · rw [entries, put] at e
      exact absurd e (by simp)
    · simp [putEntry, found] at hg

theorem Tidy.relinked (h : t.Tidy s) {start last : Ref} (hs : s.get start = .null)
    (hl : s.get last = .null) (ne : t.entries ≠ []) : Tidy s { t with
      grown := false, successors := some (linkKeys s start last (t.entries.map (·.key))) } where
  labelled := h.labelled
  distinct := h.distinct
  empty e := absurd e ne
  linked _ _ := ⟨start, last, hs, hl, rfl⟩

end Table

/-- Keys lead to cells, and every map of plain keys is tidy. -/
structure Store.Tidy (s : Store) : Prop where
  keys : ∀ r t, s.get r = .map t → ∀ e ∈ t.entries, e.key.index < s.cells.size
  maps : ∀ r t, s.get r = .map t → (∀ e ∈ t.entries, (s.get e.key).IsPlain) → t.Tidy s

namespace Store.Tidy

variable {s : Store} {v : Value} {r : Ref}

/-- New maps have no entries. -/
theorem alloc (h : s.Tidy) (hv : ∀ t, v = .map t → t = .empty) : (s.alloc v).2.Tidy := by
  have kept : ∀ q : Ref, q.index < s.cells.size → (s.alloc v).2.get q = s.get q := fun q hq =>
    Grows.alloc (w := none).kept q hq (by simp)
  refine ⟨fun q t ht e he => ?_, fun q t ht plain => ?_⟩ <;> rw [get_alloc] at ht <;> split at ht
  · cases hv t ht
    cases he
  · rw [size_alloc]
    exact Nat.lt_succ_of_lt (h.keys q t ht e he)
  · cases hv t ht
    exact Table.tidy_empty _
  · have keys : ∀ e ∈ t.entries, (s.alloc v).2.get e.key = s.get e.key := fun e he =>
      kept e.key (h.keys q t ht e he)
    refine (h.maps q t ht fun e he => keys e he ▸ plain e he).congr keys fun p hp => ?_
    exact (kept p (lt_of_get_ne (by simp [hp]))).trans hp

theorem set (h : s.Tidy) (hr : (s.get r).isContainer = true)
    (keys : ∀ t, v = .map t → ∀ e ∈ t.entries, e.key.index < s.cells.size)
    (tidy : ∀ t, v = .map t → (∀ e ∈ t.entries, (s.get e.key).IsPlain) → t.Tidy s)
    (hv : v.isContainer = true) : (s.set r v).Tidy := by
  -- lists and maps are no keys
  have kept : ∀ q : Ref, (s.get q).IsPlain ∨ ((s.set r v).get q).IsPlain →
      (s.set r v).get q = s.get q := by
    intro q hq
    refine get_set_of_ne fun e => ?_
    subst e
    have lt : q.index < s.cells.size := lt_of_get_ne fun e => by
      rw [e] at hr
      cases hr
    rw [get_set_self lt] at hq
    rcases hq with hq | hq
    · exact hq.not_isContainer hr
    · exact hq.not_isContainer hv
  have null : ∀ q, s.get q = .null → (s.set r v).get q = .null := fun q hq =>
    (kept q (.inl (hq ▸ trivial))).trans hq
  have get : ∀ q t, (s.set r v).get q = .map t → v = .map t ∨ s.get q = .map t := by
    intro q t ht
    by_cases e : q = r
    · subst e
      refine .inl ?_
      rwa [get_set_self] at ht
      exact size_set s q v ▸ lt_of_get_ne (s := s.set q v) (by simp [ht])
    · exact .inr (get_set_of_ne e ▸ ht)
  refine ⟨fun q t ht e he => ?_, fun q t ht plain => ?_⟩
  · rw [size_set]
    rcases get q t ht with hv | hq
    · exact keys t hv e he
    · exact h.keys q t hq e he
  · have same : ∀ e ∈ t.entries, (s.set r v).get e.key = s.get e.key := fun e he =>
      kept e.key (.inr (plain e he))
    have plain : ∀ e ∈ t.entries, (s.get e.key).IsPlain := fun e he => same e he ▸ plain e he
    rcases get q t ht with hv | hq
    · exact (tidy t hv plain).congr same null
    · exact (h.maps q t hq plain).congr same null

end Store.Tidy

/-! ### Going through a map -/

namespace Store

variable {α : Type} {s s' : Store}
variable {ks : List Ref}

/-- How many keys going through a map leaves out: those up to a null. -/
def skipped (s : Store) (ks : List Ref) : Nat :=
  match ks.findIdx? fun k => (s.get k).isNull with
  | some i => i + 1
  | none => 0

/-- The entries that going through a map comes upon. -/
def visited (s : Store) (es : List (Entry α)) : List (Entry α) := es.drop (s.skipped (es.map (·.key)))

theorem skipped_congr (h : ∀ k ∈ ks, s'.get k = s.get k) : s'.skipped ks = s.skipped ks := by
  have idx : ks.findIdx? (fun k => (s'.get k).isNull) = ks.findIdx? fun k => (s.get k).isNull := by
    induction ks with
    | nil => rfl
    | cons k ks ih =>
      obtain ⟨hk, hks⟩ := forall_mem_cons.1 h
      rw [findIdx?_cons, findIdx?_cons, hk, ih hks]
  rw [skipped, skipped, idx]

theorem findIdx?_null (h : ∀ k ∈ ks, s.get k ≠ .null) :
    ks.findIdx? (fun k => (s.get k).isNull) = none := by
  refine findIdx?_eq_none_iff.2 fun k hk => Bool.eq_false_iff.2 fun e => ?_
  exact h k hk (Value.isNull_iff.1 e)

theorem skipped_eq_zero (h : ∀ k ∈ ks, s.get k ≠ .null) : s.skipped ks = 0 := by
  rw [skipped, findIdx?_null h]

theorem skipped_append {ks' : List Ref} (h : ∀ q ∈ ks, s.get q ≠ .null) (hk : s.get k = .null) :
    s.skipped (ks ++ k :: ks') = ks.length + 1 := by
  have isNull : (s.get k).isNull = true := by rw [hk]; rfl
  have idx : (ks ++ k :: ks').findIdx? (fun k => (s.get k).isNull) = some ks.length := by
    simp [findIdx?_append, findIdx?_null h, findIdx?_cons, isNull]
  rw [skipped, idx]

/-- Before the entries that are come upon there is none, or one for null at the end. -/
theorem exists_append_visited (s : Store) (es : List (Entry α)) :
    s.visited es = es ∧ (∀ e ∈ es, s.get e.key ≠ .null) ∨
      ∃ pre e, es = pre ++ e :: s.visited es ∧ s.get e.key = .null := by
  rw [visited, skipped]
  cases h : (es.map (·.key)).findIdx? fun k => (s.get k).isNull with
  | none =>
    refine .inl ⟨drop_zero, fun e he hn => ?_⟩
    have := findIdx?_eq_none_iff.1 h e.key (mem_map_of_mem he)
    rw [hn] at this
    cases this
  | some i =>
    obtain ⟨hi, hn, -⟩ := findIdx?_eq_some_iff_getElem.1 h
    rw [length_map] at hi
    rw [getElem_map] at hn
    refine .inr ⟨es.take i, es[i], ?_, ?_⟩
    · rw [← drop_eq_getElem_cons hi, take_append_drop]
    · exact Value.isNull_iff.1 hn

end Store

namespace Table.Tidy

variable {s : Store} {t : Table}

theorem visited_ne_null (h : t.Tidy s) {e : Entry Slot} (he : e ∈ s.visited t.entries) :
    s.get e.key ≠ .null := by
  rcases s.exists_append_visited t.entries with ⟨eq, ne⟩ | ⟨pre, e₀, eq, hn⟩
  · exact ne e (eq ▸ he)
  · have d := h.distinct
    rw [Store.Distinct, eq] at d
    exact hn ▸ ((pairwise_cons.1 (pairwise_append.1 d).2.1).1 e he).symm

/-- The links lead from null through the entries that are come upon to null. -/
theorem value?_links (h : t.Tidy s) (ne : t.entries ≠ []) (hg : t.grown = false)
    (hl : t.successors = some links) :
    ∃ last, s.get last = .null ∧ ∀ (i : Nat) (k : Ref),
      (Value.null :: (s.visited t.entries).map fun e => s.get e.key)[i]? = some (s.get k) →
      s.value? k links = ((s.visited t.entries).map (·.key) ++ [last])[i]? := by
  obtain ⟨start, last, hs, hla, e⟩ := h.linked ne hg
  cases hl.symm.trans e
  refine ⟨last, hla, fun i k hk => ?_⟩
  -- the links from a null on, whichever it is
  have from_null : ∀ (p : Ref) (es : List (Entry Ref)), s.get p = .null → s.Labelled es →
      s.value? k (linkFrom s last es p ((s.visited t.entries).map (·.key))) =
        ((s.visited t.entries).map (·.key) ++ [last])[i]? := by
    intro p es hp hes
    have mem : ∀ e ∈ s.visited t.entries, e ∈ t.entries := fun e he => mem_of_mem_drop he
    have plain : ∀ q ∈ p :: (s.visited t.entries).map (·.key), (s.get q).IsPlain := by
      refine forall_mem_cons.2 ⟨hp ▸ trivial, forall_mem_map.2 fun e he => ?_⟩
      exact (h.labelled e (mem e he)).1
    have differ : (p :: (s.visited t.entries).map (·.key)).Pairwise fun q q' => s.get q ≠ s.get q' := by
      refine pairwise_cons.2 ⟨forall_mem_map.2 fun e he => ?_, pairwise_map.2 ?_⟩
      · exact hp ▸ (h.visited_ne_null he).symm
      · exact h.distinct.sublist (drop_sublist _ _)
    have content : ((p :: (s.visited t.entries).map (·.key)).map s.get)[i]? = some (s.get k) := by
      rwa [map_cons, map_map, hp]
    obtain ⟨q, hq, e⟩ := Option.map_eq_some_iff.1 (getElem?_map ▸ content)
    exact value?_linkFrom hes plain differ hq e
  have nil : s.Labelled ([] : List (Entry Ref)) := fun e he => absurd he not_mem_nil
  rw [linkKeys_eq]
  rcases s.exists_append_visited t.entries with ⟨eq, -⟩ | ⟨pre, e₀, eq, hn⟩
  · have := from_null start [] hs nil
    rwa [eq] at this ⊢
  · have keys : t.entries.map (·.key) =
        pre.map (·.key) ++ e₀.key :: (s.visited t.entries).map (·.key) := by
      rw [← map_cons, ← map_append, ← eq]
    obtain ⟨es', hes', e⟩ := linkFrom_append s last [] start e₀.key (pre.map (·.key))
      ((s.visited t.entries).map (·.key))
    rw [keys, e]
    refine from_null e₀.key es' hn (hes' nil (hs ▸ trivial) (forall_mem_map.2 fun e he => ?_))
    exact (h.labelled e (eq ▸ mem_append_left _ he)).1

end Table.Tidy

namespace Mem

variable {s : Store} {c : Ref} {t : Table}
variable {α : Type}

theorem successors_of_tidy (ht : s.get c = .map t) (tidy : t.Tidy s) (ne : t.entries ≠ []) :
    ∃ links t' s', successors c t s = .ok links s' ∧ s.Grows (some c) s' ∧ s'.get c = .map t' ∧
      t'.entries = t.entries ∧ t'.grown = false ∧ t'.successors = some links ∧ t'.Tidy s' := by
  unfold successors
  by_cases hg : t.grown = true
  · have lt : c.index < s.cells.size := Store.lt_of_get_ne (by simp [ht])
    let s₂ := ((s.alloc .null).2.alloc .null).2
    let links := linkKeys s₂ ⟨s.cells.size⟩ ⟨(s.alloc .null).2.cells.size⟩ (t.entries.map (·.key))
    let t' : Table := { t with grown := false, successors := some links }
    have grows₁ : s.Grows none s₂ := Store.Grows.alloc.trans .alloc
    have grows₂ : s.Grows (some c) s₂ := Store.Grows.alloc.trans .alloc
    have start : s₂.get ⟨s.cells.size⟩ = .null := by simp [s₂, Store.get_alloc]
    have last : s₂.get ⟨(s.alloc .null).2.cells.size⟩ = .null := by simp [s₂, Store.get_alloc]
    have ht₂ : s₂.get c = .map t := (grows₁.kept c lt (by simp)).trans ht
    have tidy' : t'.Tidy s₂ := (tidy.grow ht grows₂).relinked start last ne
    refine ⟨links, t', s₂.set c (.map t'), ?_, grows₂.trans .set, ?_, rfl, rfl, rfl,
      tidy'.grow ht₂ .set⟩
    · rw [if_pos hg]
      rfl
    · exact Store.get_set_self (Nat.lt_of_lt_of_le lt grows₁.size)
  · have hg : t.grown = false := by simpa using hg
    obtain ⟨start, last, -, -, e⟩ := tidy.linked ne hg
    refine ⟨_, t, s, ?_, .refl, ht, rfl, hg, e, tidy⟩
    rw [hg, if_neg Bool.false_ne_true, e]
    rfl

theorem bind_of_ok {β : Type} {x : Mem α} {f : α → Mem β} {a : α} {s' : Store} (h : x s = .ok a s') :
    (x >>= f) s = f a s' := by
  simp only [Bind.bind, EStateM.bind, h]

theorem get_bind (f : Store → Mem α) (s : Store) : (get >>= f) s = f s s := rfl

theorem read_bind (x : Slot) (f : Option Value → Mem α) (s : Store) :
    (read x >>= f) s = f (s.get? x) s := rfl

/-- What there is where the links lead from a key. -/
def follow (t : Table) (k : Ref) (links : List (Entry Ref)) : Mem (Slot × Slot) := do
  let s ← get
  match s.find? (s.mark k) k links with
  | none => fail .missingKey
  | some link =>
    if (s.get link.value).isNull then return (some link.value, some (← newNull))
    else
      match s.find? (s.mark link.value) link.value t.entries with
      | some e => return (some link.value, e.value)
      | none => fail .missingKey

theorem next_map (ht : s.get c = .map t) (x : Slot) : next (some c) x s =
    (ofExcept (mapKey s x) >>= fun k => successors c t >>= follow t k) s := by
  unfold next
  rw [read_bind, Store.get?, Option.map_some, ht]
  rfl

theorem next_map_of_isKey (ht : s.get c = .map t) (hk : (s.get k).isKey = true) :
    next (some c) (some k) s = (successors c t >>= follow t k) s := by
  have key : mapKey s (some k) = .ok k := if_pos hk
  rw [next_map ht, key]
  rfl

theorem follow_of_null (h : s.value? k links = some q) (hq : s.get q = .null) (t : Table) :
    follow t k links s = .ok (some q, some ⟨s.cells.size⟩) (s.alloc .null).2 := by
  obtain ⟨link, hl, rfl⟩ := Option.map_eq_some_iff.1 h
  have null : (s.get link.value).isNull = true := by
    rw [hq]
    rfl
  rw [follow, get_bind, hl]
  dsimp only
  rw [if_pos null]
  rfl

theorem follow_of_ne (h : s.value? k links = some q) (hq : s.get q ≠ .null) {v : Slot}
    (hv : s.value? q t.entries = some v) : follow t k links s = .ok (some q, v) s := by
  obtain ⟨link, hl, rfl⟩ := Option.map_eq_some_iff.1 h
  obtain ⟨e, he, rfl⟩ := Option.map_eq_some_iff.1 hv
  have null : (s.get link.value).isNull = false :=
    Bool.eq_false_iff.2 fun e => hq (Value.isNull_iff.1 e)
  rw [follow, get_bind, hl]
  dsimp only
  rw [null, if_neg Bool.false_ne_true, he]
  rfl

/-- From null, or from the key of an entry that was come upon, to the next one, and to null after the
last one. -/
theorem next_of_tidy (ht : s.get c = .map t) (tidy : t.Tidy s) (ne : t.entries ≠ [])
    (hk : (Value.null :: (s.visited t.entries).map fun e => s.get e.key)[i]? =
      some (s.get k)) :
    ∃ q v t' s', next (some c) (some k) s = .ok (some q, v) s' ∧ s.Grows (some c) s' ∧
      s'.get c = .map t' ∧ t'.entries = t.entries ∧ t'.grown = false ∧ t'.Tidy s' ∧
      ((∃ e, (s.visited t.entries)[i]? = some e ∧ q = e.key ∧ v = e.value) ∨
        (s.visited t.entries)[i]? = none ∧ s'.get q = .null) := by
  -- the key is null or that of an entry
  have plain : (s.get k).IsPlain := by
    rcases mem_cons.1 (mem_of_getElem? hk) with e | he
    · exact e ▸ trivial
    · obtain ⟨e, he, eq⟩ := mem_map.1 he
      exact eq ▸ (tidy.labelled e (mem_of_mem_drop he)).1
  obtain ⟨links, t', s', run, grows, ht', he, hg, hl, tidy'⟩ := successors_of_tidy ht tidy ne
  have kept : ∀ r, (s.get r).IsPlain → s'.get r = s.get r := fun r hr => grows.kept_plain ht hr
  have keys : ∀ e ∈ t.entries, s'.get e.key = s.get e.key := fun e he =>
    kept e.key (tidy.labelled e he).1
  have visited : s'.visited t'.entries = s.visited t.entries := by
    rw [he, Store.visited, Store.visited, Store.skipped_congr (forall_mem_map.2 keys)]
  have mem : ∀ e ∈ s.visited t.entries, e ∈ t.entries := fun e he => mem_of_mem_drop he
  have contents : ((s.visited t.entries).map fun e => s'.get e.key) =
      (s.visited t.entries).map fun e => s.get e.key :=
    map_congr_left fun e h => keys e (mem e h)
  obtain ⟨last, hlast, lead⟩ := tidy'.value?_links (he ▸ ne) hg hl
  have lead := lead i k
  rw [visited, contents, kept k plain] at lead
  have lead := lead hk
  have start : next (some c) (some k) s = follow t k links s' := by
    rw [next_map_of_isKey ht plain.isKey, bind_of_ok run]
  rw [start]
  cases h : (s.visited t.entries)[i]? with
  | some e =>
    have he' : e ∈ s.visited t.entries := mem_of_getElem? h
    have lt : i < ((s.visited t.entries).map (·.key)).length := by
      rw [length_map]
      exact (List.getElem?_eq_some_iff.1 h).1
    rw [getElem?_append_left lt, getElem?_map, h] at lead
    have value := tidy'.distinct.value? tidy'.labelled (e := e) (he ▸ mem e he')
    rw [he] at value
    refine ⟨e.key, e.value, t', s', ?_, grows, ht', he, hg, tidy', .inl ⟨e, rfl, rfl, rfl⟩⟩
    exact follow_of_ne lead (keys e (mem e he') ▸ tidy.visited_ne_null he') value
  | none =>
    have eq : i = ((s.visited t.entries).map (·.key)).length := by
      have ge := getElem?_eq_none_iff.1 h
      have le := (List.getElem?_eq_some_iff.1 hk).1
      simp only [length_cons, length_map] at le ⊢
      omega
    rw [eq, getElem?_concat_length] at lead
    have grows' : s'.Grows none (s'.alloc .null).2 := .alloc
    have lt' : c.index < s'.cells.size := Store.lt_of_get_ne (by simp [ht'])
    have lt₁ : last.index < s'.cells.size := Store.lt_of_get_ne (by simp [hlast])
    refine ⟨last, _, t', _, follow_of_null lead hlast t, grows.trans .alloc, ?_, he, hg,
      tidy'.grow ht' .alloc, .inr ⟨rfl, ?_⟩⟩
    · exact (grows'.kept c lt' (by simp)).trans ht'
    · exact (grows'.kept last lt₁ (by simp)).trans hlast

end Mem

/-! ### Going through a container -/

namespace Store

variable {s s' : Store} {c : Ref}

/-- What going through a container comes upon: keys, and what they stand for. -/
def sights (s : Store) (c : Ref) : List (Value × Slot) :=
  match s.get c with
  | .list items => items.mapIdx fun i x => (.num (.int i), x)
  | .map t => (s.visited t.entries).map fun e => (s.get e.key, e.value)
  | _ => []

/-- The cell holds null, for `i = 0`, or else the key before the one of number `i`. -/
def Cursor (s : Store) (c : Ref) (i : Nat) (k : Ref) : Prop :=
  (Value.null :: (s.sights c).map (·.1))[i]? = some (s.get k)

/-- The number of items or entries. -/
def count (s : Store) (c : Ref) : Nat :=
  match s.get c with
  | .list items => items.length
  | .map t => t.entries.length
  | _ => 0

/-- A list, or a tidy map that is not empty. -/
def Passable (s : Store) (c : Ref) : Prop :=
  (∃ items, s.get c = .list items) ∨ ∃ t, s.get c = .map t ∧ t.Tidy s ∧ t.entries ≠ []

/-- The map in a cell. -/
def table? (s : Store) (c : Ref) : Option Table :=
  match s.get c with
  | .map t => some t
  | _ => none

theorem get_of_table? (h : s.table? c = some t) : s.get c = .map t := by
  unfold table? at h
  split at h
  · rename_i hm
    cases h
    exact hm
  · cases h

theorem sights_list (h : s.get c = .list items) :
    s.sights c = items.mapIdx fun i x => (.num (.int i), x) := by
  rw [sights, h]

theorem sights_map (h : s.get c = .map t) :
    s.sights c = (s.visited t.entries).map fun e => (s.get e.key, e.value) := by
  rw [sights, h]

end Store

namespace Mem

variable {s : Store} {c : Ref}

theorem next_list (h : s.get c = .list items) (hk : s.Cursor c i k) :
    ∃ q v s', next (some c) (some k) s = .ok (some q, v) s' ∧ s.Grows none s' ∧
      (items[i]? = some v ∧ s'.get q = .num (.int i) ∨ items[i]? = none ∧ s'.get q = .null) := by
  rw [Store.Cursor, Store.sights_list h] at hk
  -- a new key beside a value, and the two nulls at the end
  have numbered (n : Int) (x : Slot) :
      ∃ s', (do return (some (← newNum (.int n)), x) : Mem (Slot × Slot)) s =
        .ok (some ⟨s.cells.size⟩, x) s' ∧ s.Grows none s' ∧ s'.get ⟨s.cells.size⟩ = .num (.int n) :=
    ⟨(s.alloc (.num (.int n))).2, rfl, .alloc, by simp [Store.get_alloc]⟩
  have nothing : ∃ s', (do return (some (← newNull), some (← newNull)) : Mem (Slot × Slot)) s =
      .ok (some ⟨s.cells.size⟩, some ⟨(s.alloc .null).2.cells.size⟩) s' ∧ s.Grows none s' ∧
      s'.get ⟨s.cells.size⟩ = .null :=
    ⟨((s.alloc .null).2.alloc .null).2, rfl, Store.Grows.alloc.trans .alloc,
      by simp [Store.get_alloc]⟩
  have list : s.get? (some c) = some (.list items) := congrArg some h
  cases i with
  | zero =>
    have hk : s.get? (some k) = some .null := congrArg some (Option.some.inj hk).symm
    unfold next
    rw [read_bind, list]
    dsimp only
    rw [read_bind, hk]
    cases items with
    | nil =>
      obtain ⟨s', run, grows, hq⟩ := nothing
      exact ⟨_, _, s', run, grows, .inr ⟨rfl, hq⟩⟩
    | cons x xs =>
      obtain ⟨s', run, grows, hq⟩ := numbered 0 x
      exact ⟨_, _, s', run, grows, .inl ⟨rfl, hq⟩⟩
  | succ j =>
    rw [getElem?_cons_succ, getElem?_map, getElem?_mapIdx] at hk
    obtain ⟨y, hy, e⟩ := Option.map_eq_some_iff.1 hk
    obtain ⟨x, hx, rfl⟩ := Option.map_eq_some_iff.1 hy
    have hj : j < items.length := (List.getElem?_eq_some_iff.1 hx).1
    have hk : s.get? (some k) = some (.num (.int j)) := congrArg some e.symm
    unfold next
    rw [read_bind, list]
    dsimp only
    rw [read_bind, hk]
    dsimp only
    by_cases lt : j + 1 < items.length
    · have less : (Number.int j).lt (.int (items.length - 1)) = true := by
        simp only [Number.lt, Number.compare?, beq_iff_eq, Option.some.injEq, Int.compare_eq_lt]
        omega
      have place : place? items.length (j + 1) = some (j + 1) := by
        unfold place?
        rw [if_neg (by omega), if_neg (by omega)]
        rfl
      have item : items[j + 1]? = some items[j + 1] := getElem?_eq_getElem lt
      rw [if_pos less, place, Option.bind_some, item]
      obtain ⟨s', run, grows, hq⟩ := numbered (j + 1) items[j + 1]
      exact ⟨_, _, s', run, grows, .inl ⟨rfl, hq⟩⟩
    · have less : ¬(Number.int j).lt (.int (items.length - 1)) = true := by
        simp only [Number.lt, Number.compare?, beq_iff_eq, Option.some.injEq, Int.compare_eq_lt]
        omega
      rw [if_neg less]
      obtain ⟨s', run, grows, hq⟩ := nothing
      exact ⟨_, _, s', run, grows, .inr ⟨getElem?_eq_none (by omega), hq⟩⟩

theorem next_sights (h : s.Passable c) (hk : s.Cursor c i k) :
    ∃ q v s', next (some c) (some k) s = .ok (some q, v) s' ∧ s'.Passable c ∧
      s'.sights c = s.sights c ∧ ((s.sights c)[i]? = some (s'.get q, v) ∧ s'.get q ≠ .null ∨
        (s.sights c)[i]? = none ∧ s'.get q = .null) := by
  rcases h with ⟨items, h⟩ | ⟨t, ht, tidy, ne⟩
  · obtain ⟨q, v, s', run, grows, step⟩ := next_list h hk
    have h' : s'.get c = .list items :=
      (grows.kept c (Store.lt_of_get_ne (by simp [h])) (by simp)).trans h
    refine ⟨q, v, s', run, .inl ⟨items, h'⟩, by rw [Store.sights_list h, Store.sights_list h'], ?_⟩
    rw [Store.sights_list h, getElem?_mapIdx]
    rcases step with ⟨hv, hq⟩ | ⟨hv, hq⟩
    · exact .inl ⟨by rw [hv, hq]; rfl, by simp [hq]⟩
    · exact .inr ⟨by rw [hv]; rfl, hq⟩
  · have hk' := hk
    rw [Store.Cursor, Store.sights_map ht, map_map] at hk'
    obtain ⟨q, v, t', s', run, grows, ht', he, -, tidy', step⟩ := next_of_tidy ht tidy ne hk'
    have keys : ∀ e ∈ t.entries, s'.get e.key = s.get e.key := fun e he =>
      grows.kept_plain ht (tidy.labelled e he).1
    have visited : s'.visited t.entries = s.visited t.entries := by
      rw [Store.visited, Store.visited, Store.skipped_congr (forall_mem_map.2 keys)]
    have mem : ∀ e ∈ s.visited t.entries, e ∈ t.entries := fun e he => mem_of_mem_drop he
    refine ⟨q, v, s', run, .inr ⟨t', ht', tidy', he ▸ ne⟩, ?_, ?_⟩
    · rw [Store.sights_map ht, Store.sights_map ht', he, visited]
      exact map_congr_left fun e he => by rw [keys e (mem e he)]
    · rw [Store.sights_map ht, getElem?_map]
      rcases step with ⟨e, he, rfl, rfl⟩ | ⟨he, hq⟩
      · have hm := mem_of_getElem? he
        rw [keys e (mem e hm), he]
        exact .inl ⟨rfl, tidy.visited_ne_null hm⟩
      · exact .inr ⟨by rw [he]; rfl, hq⟩

/-- A map without entries cannot be gone through. -/
theorem next_of_empty (ht : s.get c = .map .empty) (hk : (s.get k).isKey = true) :
    next (some c) (some k) s = .error (.fault .wrongKind) s := by
  rw [next_map_of_isKey ht hk]
  rfl

end Mem

end TinyScript
