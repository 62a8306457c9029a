import TinyScript.Proofs.Tables

/-!
# Maps that grow while they are gone through

Whoever goes through a map hands each key that is returned to the next call, from null to null, and
may set members in between. A call makes the successors anew if keys have been added, so the keys
that are returned are always the first ones of the map, in the order in which they were added, and
null is returned when there are no more. A value is the one that its key has when it is returned; it
is that still when null is returned, unless the key was set again in the meantime.
-/

namespace TinyScript

open List

variable {c k q : Ref} {s s' : Store} {t t' : Table} {v : Slot}
variable {u : Value} {e : Entry Slot} {es later before : List Event}

/-- The keys that are spoken of here. -/
def Value.IsIntOrString : Value → Prop
  | .num (.int _) | .str _ => True
  | _ => False

instance : DecidablePred Value.IsIntOrString
  | .num (.int _) | .str _ => isTrue trivial
  | .null | .num (.float _) | .bool _ | .list _ | .map _ | .object | .type _ | .func _ | .host _ _
  | .blank => isFalse id

theorem Value.IsIntOrString.isPlain (h : u.IsIntOrString) : u.IsPlain := by
  cases u with
  | num n =>
    cases n with
    | int => trivial
    | float => exact h.elim
  | str => trivial
  | _ => exact h.elim

theorem Value.IsIntOrString.ne_null (h : u.IsIntOrString) : u ≠ .null := by
  rintro rfl
  exact h

/-! ### Calls, and what happens between them -/

/-- What happens elsewhere changes neither the map in cell `c` nor a key of it, and no null. -/
structure Elsewhere (c : Ref) (s s' : Store) : Prop where
  map : s'.get c = s.get c
  keys : ∀ t, s.get c = .map t → ∀ e ∈ t.entries, s'.get e.key = s.get e.key
  nulls : ∀ r, s.get r = .null → s'.get r = .null

/-- The cell holds a map that has been made by setting members. It may have been gone through. -/
inductive Built (c : Ref) : Store → Prop
  | new {s : Store} (h : s.get c = .map .empty) : Built c s
  | set {s s' : Store} {q : Ref} {v : Slot} (h : Built c s) (hq : (s.get q).IsIntOrString)
      (run : Mem.setMember (some c) (some q) v s = .ok () s') : Built c s'
  | next {s s' : Store} {x : Slot} {r : Slot × Slot} (h : Built c s)
      (run : Mem.next (some c) x s = .ok r s') : Built c s'
  | elsewhere {s s' : Store} (h : Built c s) (he : Elsewhere c s s') : Built c s'

/-- A key and its value are returned, or the value of a key is set. -/
inductive Event
  | met (key : Ref) (value : Slot)
  | set (key : Value)

def Event.key? : Event → Option Ref
  | .met q _ => some q
  | .set _ => none

/-- The keys that were returned; the latest event comes first in a list of them. -/
def keysMet (es : List Event) : List Ref := (es.filterMap Event.key?).reverse

/-- The map in cell `c` is gone through, up to the key `k`. -/
inductive Tour (c : Ref) : List Event → Store → Ref → Prop
  | start {s : Store} {t : Table} {k : Ref} (hb : Built c s) (ht : s.get c = .map t)
      (ne : t.entries ≠ []) (hk : s.get k = .null) : Tour c [] s k
  | met {es : List Event} {s s' : Store} {k q : Ref} {v : Slot} (h : Tour c es s k)
      (run : Mem.next (some c) (some k) s = .ok (some q, v) s') (hq : s'.get q ≠ .null) :
      Tour c (.met q v :: es) s' q
  | set {es : List Event} {s s' : Store} {k q : Ref} {v : Slot} (h : Tour c es s k)
      (hq : (s.get q).IsIntOrString) (run : Mem.setMember (some c) (some q) v s = .ok () s') :
      Tour c (.set (s.get q) :: es) s' k
  | elsewhere {es : List Event} {s s' : Store} {k : Ref} (h : Tour c es s k)
      (he : Elsewhere c s s') : Tour c es s' k

/-! ### What calls do to the map -/

namespace Mem

variable {r : Slot × Slot}

theorem setMember_eq (ht : s.get c = .map t) (hq : (s.get q).isKey = true) (v : Slot) :
    setMember (some c) (some q) v s = .ok () (s.set c (.map (putEntry s t q v))) := by
  have key : mapKey s (some q) = .ok q := if_pos hq
  have run : ofExcept (mapKey s (some q)) s = .ok q s := by
    rw [key]
    rfl
  unfold setMember
  rw [get_bind, Store.get?, Option.map_some, ht]
  dsimp only
  rw [bind_of_ok run]
  rfl

theorem grows_of_follow {links : List (Entry Ref)} (h : follow t k links s = .ok r s') :
    s.Grows none s' := by
  rw [follow, get_bind] at h
  cases hl : s.find? (s.mark k) k links with
  | none =>
    rw [hl] at h
    cases h
  | some link =>
    rw [hl] at h
    dsimp only at h
    by_cases null : (s.get link.value).isNull = true
    · rw [if_pos null] at h
      cases h
      exact .alloc
    · rw [if_neg null] at h
      cases he : s.find? (s.mark link.value) link.value t.entries with
      | none =>
        rw [he] at h
        cases h
      | some e =>
        rw [he] at h
        cases h
        exact .refl

/-- No call changes the entries. -/
theorem next_keeps (ht : s.get c = .map t) (tidy : t.Tidy s) {x : Slot}
    (h : next (some c) x s = .ok r s') :
    ∃ t', s.Grows (some c) s' ∧ s'.get c = .map t' ∧ t'.entries = t.entries ∧ t'.Tidy s' := by
  obtain ⟨k, h⟩ : ∃ k, (successors c t >>= follow t k) s = .ok r s' := by
    rw [next_map ht] at h
    cases hk : mapKey s x with
    | ok k =>
      rw [hk] at h
      exact ⟨k, h⟩
    | error f =>
      rw [hk] at h
      cases h
  have ne : t.entries ≠ [] := by
    intro e
    cases tidy.empty e
    cases h
  obtain ⟨links, t', s₁, run, grows, ht', he, -, -, tidy'⟩ := successors_of_tidy ht tidy ne
  rw [bind_of_ok run] at h
  have grows' := grows_of_follow h
  have grows'' : s₁.Grows (some c) s' := ⟨grows'.size, fun r hr _ => grows'.kept r hr (by simp)⟩
  have lt : c.index < s₁.cells.size := Store.lt_of_get_ne (by simp [ht'])
  exact ⟨t', grows.trans grows'', (grows'.kept c lt (by simp)).trans ht', he, tidy'.grow ht' grows''⟩

end Mem

namespace Store

theorem keys_put (s : Store) (q : Ref) (v : Slot) (es : List (Entry Slot)) :
    es.map (·.key) <+: (s.put q v es).map (·.key) := by
  have := (labels_put s q v es).map Prod.snd
  rwa [labels, labels, map_map, map_map] at this

theorem mem_put_of_ne {es : List (Entry Slot)} (h : s.Labelled es) (hq : (s.get q).IsPlain) (he : e ∈ es)
    (ne : s.get e.key ≠ s.get q) : e ∈ s.put q v es := by
  induction es with
  | nil => cases he
  | cons e₀ es ih =>
    obtain ⟨h₀, hes⟩ := forall_mem_cons.1 h
    unfold put
    rcases mem_cons.1 he with rfl | he
    · rw [if_neg fun fits => ne ((fits_iff h₀ hq).1 fits)]
      exact mem_cons_self
    · split
      · exact mem_cons_of_mem _ he
      · exact mem_cons_of_mem _ (ih hes he)

/-- The cell holds the map, which is tidy and has integers and strings for keys. -/
structure Indexed (s : Store) (c : Ref) (t : Table) : Prop where
  map : s.get c = .map t
  tidy : t.Tidy s
  solid : ∀ e ∈ t.entries, (s.get e.key).IsIntOrString

namespace Indexed

theorem set (h : s.Indexed c t) (hq : (s.get q).IsIntOrString)
    (run : Mem.setMember (some c) (some q) v s = .ok () s') :
    s.Grows (some c) s' ∧ s'.Indexed c (Mem.putEntry s t q v) := by
  rw [Mem.setMember_eq h.map hq.isPlain.isKey] at run
  cases run
  have grows : s.Grows (some c) (s.set c (.map (Mem.putEntry s t q v))) := .set
  have solid : ∀ e ∈ (Mem.putEntry s t q v).entries, (s.get e.key).IsIntOrString := by
    intro e he
    rcases mem_put he with he | ⟨-, e₁ | ⟨e₀, h₀, e₁⟩⟩
    · exact h.solid e he
    · exact e₁ ▸ hq
    · exact e₁ ▸ h.solid e₀ h₀
  have tidy := h.tidy.put fun e he => (solid e he).isPlain
  refine ⟨grows, get_set_self (lt_of_get_ne (by simp [h.map])), tidy.grow h.map grows, fun e he => ?_⟩
  rw [grows.kept_plain h.map (solid e he).isPlain]
  exact solid e he

theorem elsewhere (h : s.Indexed c t) (he : Elsewhere c s s') : s'.Indexed c t where
  map := he.map.trans h.map
  tidy := h.tidy.congr (he.keys t h.map) he.nulls
  solid e hm := he.keys t h.map e hm ▸ h.solid e hm

theorem grow (h : s.Indexed c t) (g : s.Grows (some c) s') (map : s'.get c = .map t')
    (entries : t'.entries = t.entries) (tidy : t'.Tidy s') : s'.Indexed c t' := by
  refine ⟨map, tidy, fun e he => ?_⟩
  rw [entries] at he
  rw [g.kept_plain h.map (h.solid e he).isPlain]
  exact h.solid e he

/-- The value that a key leads to is that of its entry. -/
theorem member?_eq (h : s.Indexed c t) (he : e ∈ t.entries) :
    Mem.member? (some c) (some e.key) s = .ok (some e.value) s := by
  have key : Mem.mapKey s (some e.key) = .ok e.key := if_pos (h.solid e he).isPlain.isKey
  have run : Mem.ofExcept (Mem.mapKey s (some e.key)) s = .ok e.key s := by
    rw [key]
    rfl
  have value := h.tidy.distinct.value? h.tidy.labelled he
  unfold Mem.member?
  rw [Mem.get_bind, get?, Option.map_some, h.map]
  dsimp only
  rw [Mem.bind_of_ok run]
  rw [value?] at value
  rw [value]
  rfl

/-- Successors that are up to date are a chain through all keys. -/
theorem exists_chain (h : s.Indexed c t) (ne : t.entries ≠ []) (hg : t.grown = false) :
    ∃ first last, s.get first = .null ∧ s.get last = .null ∧
      t.successors = some (Mem.chain s first last (t.entries.map (·.key))) := by
  obtain ⟨first, last, hf, hl, e⟩ := h.tidy.linked ne hg
  refine ⟨first, last, hf, hl, ?_⟩
  rw [e, Mem.linkKeys_eq, Mem.linkFrom_eq_chain, nil_append]
  · exact fun e he => absurd he not_mem_nil
  · refine forall_mem_cons.2 ⟨hf ▸ trivial, forall_mem_map.2 fun e he => ?_⟩
    exact (h.solid e he).isPlain
  · refine pairwise_cons.2 ⟨forall_mem_map.2 fun e he => ?_, pairwise_map.2 h.tidy.distinct⟩
    exact hf ▸ (h.solid e he).ne_null.symm
  · exact fun _ _ e he => absurd he not_mem_nil

end Indexed

theorem exists_indexed (h : Built c s) : ∃ t, s.Indexed c t := by
  induction h with
  | new h => exact ⟨.empty, h, Table.tidy_empty _, fun e he => absurd he not_mem_nil⟩
  | set _ hq run ih =>
    obtain ⟨t, h⟩ := ih
    exact ⟨_, (h.set hq run).2⟩
  | next _ run ih =>
    obtain ⟨t, h⟩ := ih
    obtain ⟨t', grows, map, entries, tidy⟩ := Mem.next_keeps h.map h.tidy run
    exact ⟨t', h.grow grows map entries tidy⟩
  | elsewhere _ he ih =>
    obtain ⟨t, h⟩ := ih
    exact ⟨t, h.elsewhere he⟩

end Store

/-! ### How far the tour has come -/

theorem keysMet_met (q : Ref) (v : Slot) (es : List Event) :
    keysMet (.met q v :: es) = keysMet es ++ [q] := by
  simp [keysMet, Event.key?]

theorem mem_keysMet (h : es = later ++ .met q v :: before) : q ∈ keysMet es := by
  simp [h, keysMet, Event.key?]

/-- The keys that were returned are the first ones of the map, and `k` is the last of them. Their
values are those of the map, unless they were set again. -/
structure Progress (c : Ref) (es : List Event) (s : Store) (k : Ref) (t : Table) : Prop where
  indexed : s.Indexed c t
  ne : t.entries ≠ []
  keys : keysMet es <+: t.entries.map (·.key)
  place : keysMet es = [] ∧ s.get k = .null ∨ (keysMet es).getLast? = some k
  values : ∀ later q v before, es = later ++ .met q v :: before →
    (∀ u, .set u ∈ later → u ≠ s.get q) → ∃ e ∈ t.entries, e.key = q ∧ e.value = v

namespace Progress

variable {es : List Event}

theorem mem_entries (h : Progress c es s k t) (hq : q ∈ keysMet es) : ∃ e ∈ t.entries, e.key = q :=
  mem_map.1 (h.keys.subset hq)

theorem isPlain (h : Progress c es s k t) (hq : q ∈ keysMet es) : (s.get q).IsPlain := by
  obtain ⟨e, he, rfl⟩ := h.mem_entries hq
  exact (h.indexed.solid e he).isPlain

theorem cursor (h : Progress c es s k t) :
    (Value.null :: t.entries.map fun e => s.get e.key)[(keysMet es).length]? = some (s.get k) := by
  rcases h.place with ⟨none, null⟩ | last
  · rw [none, null]
    rfl
  · obtain ⟨ks, eq⟩ := getLast?_eq_some_iff.1 last
    obtain ⟨rest, keys⟩ := h.keys
    have contents : (t.entries.map fun e => s.get e.key) = (ks ++ k :: rest).map s.get := by
      rw [eq, List.append_assoc] at keys
      have := congrArg (List.map s.get) keys
      rw [map_map] at this
      exact this.symm
    rw [eq, contents]
    simp

/-- The next call always succeeds. -/
theorem next (h : Progress c es s k t) : ∃ q v t' s',
    Mem.next (some c) (some k) s = .ok (some q, v) s' ∧ s'.Indexed c t' ∧ t'.entries = t.entries ∧
      t'.grown = false ∧ (∀ r, (s.get r).IsPlain → s'.get r = s.get r) ∧
      ((∃ e, t.entries[(keysMet es).length]? = some e ∧ q = e.key ∧ v = e.value ∧ s'.get q ≠ .null) ∨
        keysMet es = t.entries.map (·.key) ∧ s'.get q = .null) := by
  have all : s.visited t.entries = t.entries := by
    rw [Store.visited, Store.skipped_eq_zero, drop_zero]
    exact forall_mem_map.2 fun e he => (h.indexed.solid e he).ne_null
  obtain ⟨q, v, t', s', run, grows, map, entries, grown, tidy, step⟩ :=
    Mem.next_of_tidy h.indexed.map h.indexed.tidy h.ne (by rw [all]; exact h.cursor)
  rw [all] at step
  have indexed := h.indexed.grow grows map entries tidy
  refine ⟨q, v, t', s', run, indexed, entries, grown, fun r hr => grows.kept_plain h.indexed.map hr, ?_⟩
  rcases step with ⟨e, he, rfl, rfl⟩ | ⟨none, null⟩
  · exact .inl ⟨e, he, rfl, rfl, (indexed.solid e (entries ▸ mem_of_getElem? he)).ne_null⟩
  · refine .inr ⟨h.keys.eq_of_length_le ?_, null⟩
    rw [length_map]
    exact getElem?_eq_none_iff.1 none

/-- What was returned is still there, where nothing happens to the entries. -/
theorem values_of_kept (h : Progress c es s k t) (kept : ∀ q ∈ keysMet es, s'.get q = s.get q)
    (split : es = later ++ .met q v :: before) (unset : ∀ u, .set u ∈ later → u ≠ s'.get q) :
    ∃ e ∈ t.entries, e.key = q ∧ e.value = v := by
  rw [kept q (mem_keysMet split)] at unset
  exact h.values later q v before split unset

theorem met (h : Progress c es s k t) (indexed : s'.Indexed c t') (entries : t'.entries = t.entries)
    (kept : ∀ r, (s.get r).IsPlain → s'.get r = s.get r) (he : t.entries[(keysMet es).length]? = some e) :
    Progress c (.met e.key e.value :: es) s' e.key t' where
  indexed := indexed
  ne := entries ▸ h.ne
  keys := by
    obtain ⟨rest, keys⟩ := h.keys
    have first : rest[0]? = some e.key := by
      have after : (keysMet es ++ rest)[(keysMet es).length]? = some e.key := by
        rw [keys, getElem?_map, he]
        rfl
      rwa [getElem?_append_right (Nat.le_refl _), Nat.sub_self] at after
    obtain ⟨rest, rfl⟩ : ∃ rest', rest = e.key :: rest' := by
      cases rest with
      | nil => cases first
      | cons q rest =>
        cases first
        exact ⟨rest, rfl⟩
    refine ⟨rest, ?_⟩
    rw [keysMet_met, List.append_assoc, entries]
    exact keys
  place := by
    rw [keysMet_met]
    exact .inr getLast?_concat
  values later q v before split unset := by
    rw [entries]
    cases later with
    | nil =>
      cases split
      exact ⟨e, mem_of_getElem? he, rfl, rfl⟩
    | cons e' later =>
      cases split
      exact h.values_of_kept (fun q hq => kept q (h.isPlain hq)) rfl fun u hu =>
        unset u (mem_cons_of_mem _ hu)

theorem set (h : Progress c es s k t) (hq : (s.get q).IsIntOrString)
    (run : Mem.setMember (some c) (some q) v s = .ok () s') :
    Progress c (.set (s.get q) :: es) s' k (Mem.putEntry s t q v) := by
  obtain ⟨grows, indexed⟩ := h.indexed.set hq run
  have kept : ∀ r, (s.get r).IsPlain → s'.get r = s.get r :=
    fun r hr => grows.kept_plain h.indexed.map hr
  have keys : t.entries.map (·.key) <+: (Mem.putEntry s t q v).entries.map (·.key) :=
    s.keys_put q v t.entries
  refine ⟨indexed, fun e => ?_, h.keys.trans keys, ?_, fun later q' v' before split unset => ?_⟩
  · rw [e, map_nil, prefix_nil, map_eq_nil_iff] at keys
    exact h.ne keys
  · refine h.place.imp_left fun at_start => ⟨at_start.1, (kept k ?_).trans at_start.2⟩
    rw [at_start.2]
    trivial
  · cases later with
    | nil => cases split
    | cons e' later =>
      cases split
      have same := kept q' (h.isPlain (mem_keysMet rfl))
      obtain ⟨e, he, rfl, rfl⟩ := h.values_of_kept (fun q hq => kept q (h.isPlain hq)) rfl fun u hu =>
        unset u (mem_cons_of_mem _ hu)
      have ne := unset (s.get q) mem_cons_self
      rw [same] at ne
      exact ⟨e, Store.mem_put_of_ne h.indexed.tidy.labelled hq.isPlain he ne.symm, rfl, rfl⟩

theorem elsewhere (h : Progress c es s k t) (he : Elsewhere c s s') : Progress c es s' k t := by
  have kept : ∀ q ∈ keysMet es, s'.get q = s.get q := by
    intro q hq
    obtain ⟨e, hm, rfl⟩ := h.mem_entries hq
    exact he.keys t h.indexed.map e hm
  refine ⟨h.indexed.elsewhere he, h.ne, h.keys, ?_, fun _ _ _ _ split => h.values_of_kept kept split⟩
  exact h.place.imp_left fun at_start => ⟨at_start.1, he.nulls k at_start.2⟩

end Progress

theorem Tour.progress (h : Tour c es s k) : ∃ t, Progress c es s k t := by
  induction h with
  | start hb ht ne hk =>
    obtain ⟨t, indexed⟩ := Store.exists_indexed hb
    cases ht.symm.trans indexed.map
    exact ⟨_, indexed, ne, nil_prefix, .inl ⟨rfl, hk⟩, fun later _ _ _ split => by simp at split⟩
  | met _ run hq ih =>
    obtain ⟨t, h⟩ := ih
    obtain ⟨q', v', t', s', run', indexed, entries, -, kept, step⟩ := h.next
    cases run.symm.trans run'
    rcases step with ⟨e, he, rfl, rfl, -⟩ | ⟨-, null⟩
    · exact ⟨t', h.met indexed entries kept he⟩
    · exact absurd null hq
  | set _ hq run ih =>
    obtain ⟨t, h⟩ := ih
    exact ⟨_, h.set hq run⟩
  | elsewhere _ he ih =>
    obtain ⟨t, h⟩ := ih
    exact ⟨t, h.elsewhere he⟩

/-- Going through a map of integers and strings that is not empty, and setting members in between: the
next call succeeds. The successors are then the chain of all keys. If a key is returned, it is the
first one that was not returned before, with the value that it has; if null is returned, all keys
have been returned, each once and in their order. A value that was returned before is still that of
its key, unless the key was set again. -/
theorem tour_next {es : List Event} (h : Tour c es s k) : ∃ q v s' t,
    Mem.next (some c) (some k) s = .ok (some q, v) s' ∧ s'.get c = .map t ∧
    (t.grown = false ∧ ∃ first last, s'.get first = .null ∧ s'.get last = .null ∧
      t.successors = some (Mem.chain s' first last (t.entries.map (·.key)))) ∧
    s'.Distinct t.entries ∧
    (s'.get q ≠ .null ∧ keysMet es ++ [q] <+: t.entries.map (·.key) ∧
        Mem.member? (some c) (some q) s' = .ok (some v) s' ∨
      s'.get q = .null ∧ keysMet es = t.entries.map (·.key)) ∧
    ∀ later q' v' before, es = later ++ .met q' v' :: before →
      (∀ u, .set u ∈ later → u ≠ s'.get q') → Mem.member? (some c) (some q') s' = .ok (some v') s' := by
  obtain ⟨t, h⟩ := h.progress
  obtain ⟨q, v, t', s', run, indexed, entries, grown, kept, step⟩ := h.next
  refine ⟨q, v, s', t', run, indexed.map, ⟨grown, indexed.exists_chain (entries ▸ h.ne) grown⟩,
    indexed.tidy.distinct, ?_, fun later q' v' before split unset => ?_⟩
  · rcases step with ⟨e, he, rfl, rfl, ne⟩ | ⟨keys, null⟩
    · have met := h.met indexed entries kept he
      have mem : e ∈ t'.entries := entries ▸ List.mem_of_getElem? he
      exact .inl ⟨ne, keysMet_met e.key e.value es ▸ met.keys, indexed.member?_eq mem⟩
    · exact .inr ⟨null, entries ▸ keys⟩
  · obtain ⟨e, he, rfl, rfl⟩ := h.values_of_kept (fun q hq => kept q (h.isPlain hq)) split unset
    exact indexed.member?_eq (entries ▸ he)

/-! ### Examples -/

namespace Mem

variable {α : Type} {x : Mem α} {a : α}

/-- What an action yields, if it ends well. -/
def result? (x : Mem α) (s : Store) : Option α :=
  match x s with
  | .ok a _ => some a
  | .error _ _ => none

/-- What an action leaves behind. -/
def left (x : Mem α) (s : Store) : Store :=
  match x s with
  | .ok _ s' => s'
  | .error _ s' => s'

theorem eq_ok_of_result? (h : result? x s = some a) : x s = .ok a (left x s) := by
  cases hx : x s with
  | ok b s' =>
    simp only [result?, hx, Option.some.injEq] at h
    simp only [left, hx, h]
  | error f s' => simp only [result?, hx, reduceCtorEq] at h

end Mem

/-- A map without entries, the keys `'a'` and `'b'`, two values and a null. -/
def unfilled : Store := ⟨#[.map .empty, .str "a", .str "b", .num (.int 1), .num (.int 2), .null]⟩

/-- The map has an entry for `'a'`. -/
def filled : Store := Mem.left (Mem.setMember (some ⟨0⟩) (some ⟨1⟩) (some ⟨3⟩)) unfilled

/-- The entry has been returned. -/
def begun : Store := Mem.left (Mem.next (some ⟨0⟩) (some ⟨5⟩)) filled

theorem tour_begun : Tour ⟨0⟩ [.met ⟨1⟩ (some ⟨3⟩)] begun ⟨1⟩ := by
  have set := Mem.eq_ok_of_result? (s := unfilled)
    (x := Mem.setMember (some ⟨0⟩) (some ⟨1⟩) (some ⟨3⟩)) (a := ()) (by decide +kernel)
  have next := Mem.eq_ok_of_result? (s := filled) (x := Mem.next (some ⟨0⟩) (some ⟨5⟩))
    (a := (some ⟨1⟩, some ⟨3⟩)) (by decide +kernel)
  have built : Built ⟨0⟩ filled := .set (.new (s := unfilled) rfl) (q := ⟨1⟩) (by decide +kernel) set
  have filled : ∃ t ∈ filled.table? ⟨0⟩, t.entries ≠ [] := by decide +kernel
  obtain ⟨t, ht, ne⟩ := filled
  exact .met (.start built (Store.get_of_table? ht) ne (by decide +kernel)) next (by decide +kernel)

/-- The key `'b'` has been added after that, and has been returned too. -/
def extended : Store :=
  Mem.left (Mem.next (some ⟨0⟩) (some ⟨1⟩))
    (Mem.left (Mem.setMember (some ⟨0⟩) (some ⟨2⟩) (some ⟨4⟩)) begun)

theorem tour_extended :
    Tour ⟨0⟩ [.met ⟨2⟩ (some ⟨4⟩), .set (begun.get ⟨2⟩), .met ⟨1⟩ (some ⟨3⟩)] extended ⟨2⟩ := by
  have set := Mem.eq_ok_of_result? (s := begun)
    (x := Mem.setMember (some ⟨0⟩) (some ⟨2⟩) (some ⟨4⟩)) (a := ()) (by decide +kernel)
  have next := Mem.eq_ok_of_result? (x := Mem.next (some ⟨0⟩) (some ⟨1⟩))
    (s := Mem.left (Mem.setMember (some ⟨0⟩) (some ⟨2⟩) (some ⟨4⟩)) begun)
    (a := (some ⟨2⟩, some ⟨4⟩)) (by decide +kernel)
  exact .met (.set tour_begun (by decide +kernel) set) next (by decide +kernel)

/-- After both keys, null is returned. -/
theorem tour_next_extended : ∃ q v s' t,
    Mem.next (some ⟨0⟩) (some ⟨2⟩) extended = .ok (some q, v) s' ∧ s'.get q = .null ∧
      s'.get ⟨0⟩ = .map t ∧ t.entries.map (·.key) = [⟨1⟩, ⟨2⟩] := by
  have next := Mem.eq_ok_of_result? (x := Mem.next (some ⟨0⟩) (some ⟨2⟩)) (s := extended)
    (a := (some ⟨9⟩, some ⟨10⟩)) (by decide +kernel)
  have null : (Mem.left (Mem.next (some ⟨0⟩) (some ⟨2⟩)) extended).get ⟨9⟩ = .null := by decide +kernel
  obtain ⟨q, v, s', t, run, map, -, -, step, -⟩ := tour_next tour_extended
  cases next.symm.trans run
  rcases step with ⟨ne, -⟩ | ⟨-, keys⟩
  · exact absurd null ne
  · exact ⟨_, _, _, t, next, null, map, keys.symm⟩

/-- The value of `'a'` has been set again instead. -/
def overwritten : Store := Mem.left (Mem.setMember (some ⟨0⟩) (some ⟨1⟩) (some ⟨4⟩)) begun

/-- Not all values that were returned are those of the map when null is returned. -/
theorem not_forall_met_value : ¬∀ {c k q p : Ref} {v w : Slot} {es : List Event} {s s' : Store},
    Tour c es s k → Mem.next (some c) (some k) s = .ok (some q, v) s' → s'.get q = .null →
    .met p w ∈ es → Mem.member? (some c) (some p) s' = .ok (some w) s' := by
  intro all
  have set := Mem.eq_ok_of_result? (s := begun)
    (x := Mem.setMember (some ⟨0⟩) (some ⟨1⟩) (some ⟨4⟩)) (a := ()) (by decide +kernel)
  have next := Mem.eq_ok_of_result? (x := Mem.next (some ⟨0⟩) (some ⟨1⟩)) (s := overwritten)
    (a := (some ⟨7⟩, some ⟨8⟩)) (by decide +kernel)
  have tour : Tour ⟨0⟩ [.set (begun.get ⟨1⟩), .met ⟨1⟩ (some ⟨3⟩)] overwritten ⟨1⟩ :=
    .set tour_begun (by decide +kernel) set
  have same := all (p := ⟨1⟩) (w := some ⟨3⟩) tour next (by decide +kernel) (by simp)
  have value : Mem.result? (Mem.member? (some ⟨0⟩) (some ⟨1⟩))
      (Mem.left (Mem.next (some ⟨0⟩) (some ⟨1⟩)) overwritten) = some (some (some ⟨4⟩)) := by
    decide +kernel
  rw [Mem.result?, same] at value
  cases value

end TinyScript
