import TinyScript.Proofs.Calculation
import TinyScript.Proofs.LoopRuns

/-!
# Loops over a container

A loop over a list comes upon all items in their order, and one over a map upon its entries in the
order in which they were made, as long as its body adds no key. But null is where such a loop begins
and ends: of a map with a key null only the entries after that one are come upon, and a map without
entries has none to begin with, so that the loop fails.
-/

namespace TinyScript

open Exec List Eval

variable {m m' m₀ m₁ m₂ m₃ : Machine} {c k : Ref} {p : Position} {key val subject body : Node}
variable {q v : Ref} {i : Nat}

/-! ### Rounds -/

/-- The loop goes on to the next key, binds its names to the entry, and ends with a key null. -/
def eachCycle (key val : Node) (c : Slot) : Cycle Slot Slot where
  head k := do
    let (k, v) ← mem (Mem.next c k)
    match (← get).store.get? k with
    | some .null => return none
    | _ =>
      Eval.bindEntry key val k v
      return some k
  tail := Eval.loopTail

theorem eachRound_eq (visit : Node → Exec Slot) (c : Slot) :
    eachRound visit key val c body = (eachCycle key val c).round (visit body) := by
  funext k
  simp only [eachRound, Cycle.round, eachCycle, bind_assoc]
  congr 1
  funext kv
  congr 1
  funext m
  generalize m.store.get? kv.1 = u
  cases u with
  | none =>
    simp only [bind_assoc, pure_bind]
    rfl
  | some u =>
    cases u with
    | null => rfl
    | _ =>
      simp only [bind_assoc, pure_bind]
      rfl

/-- What is left of a loop once its record is entered and the container is found. -/
theorem visit_forEach_eq {n j : Nat} (entered : Exec.enter (loopRecord "for" p) m = .ok () m₁)
    (found : Eval.visit n subject m₁ = .ok (some c) m₂)
    (hc : (m₂.store.get c).isContainer = true)
    (start : (mem Mem.newNull : Exec Ref) m₂ = .ok k m₃) (hj : n ≤ j) :
    Eval.visit (j + 1) (.forEach key val subject body p) m = (do
      iterate ((eachCycle key val (some c)).round (Eval.visit j body)) j (some k)
      Exec.leave
      return none : Exec Slot) m₃ := by
  have get : (MonadState.get : Exec Machine) m₂ = .ok m₂ m₂ := rfl
  have content : m₂.store.get? (some c) = some (m₂.store.get c) := rfl
  show statement (runEach j (Eval.visit j) key val subject body p) m = _
  simp only [statement, runEach, within, bind_assoc, pure_bind, eachRound_eq]
  rw [bind_of_ok entered, bind_of_ok (visit_mono hj found), bind_of_ok get, content]
  generalize m₂.store.get c = v at hc
  cases v with
  | list | map => simp only [bind_assoc, bind_of_ok start]
  | _ => cases hc

theorem gives_forEach {ms : List Machine}
    (entered : Exec.enter (loopRecord "for" p) m = .ok () m₁)
    (found : Eval.Gives subject m₁ (some c) m₂) (hc : (m₂.store.get c).isContainer = true)
    (start : (mem Mem.newNull : Exec Ref) m₂ = .ok k m₃)
    (rounds : (eachCycle key val (some c)).Rounds body (some k) m₃ ms m₀)
    (left : (Exec.leave : Exec Unit) m₀ = .ok () m') :
    Eval.Gives (.forEach key val subject body p) m none m' := by
  obtain ⟨n, found⟩ := found
  obtain ⟨n', rounds⟩ := rounds.iterate
  have rounds := rounds (max n n') (max n n') (Nat.le_max_right n n') (Nat.le_max_right n n')
  refine ⟨max n n' + 1, ?_⟩
  rw [visit_forEach_eq entered found hc start (Nat.le_max_left n n'), bind_of_ok rounds, bind_of_ok left]
  rfl

theorem get_of_newNull (start : (mem Mem.newNull : Exec Ref) m = .ok k m') :
    m'.store.get k = .null ∧
      ∀ r : Ref, r.index < m.store.cells.size → m'.store.get r = m.store.get r := by
  cases start
  exact ⟨Store.get_alloc_self ..,
    fun r hr => (Store.get_alloc ..).trans (if_neg (Nat.ne_of_lt hr))⟩

theorem forEach_of_empty (entered : Exec.enter (loopRecord "for" p) m = .ok () m₁)
    (found : Eval.Gives subject m₁ (some c) m₂) (hc : m₂.store.get c = .map .empty)
    (start : (mem Mem.newNull : Exec Ref) m₂ = .ok k m₃) :
    ∃ n, ∀ j, n ≤ j →
      Eval.visit j (.forEach key val subject body p) m = .error (.failed (.fault .wrongKind)) m₃ := by
  obtain ⟨n, found⟩ := found
  refine ⟨n + 2, fun j hj => ?_⟩
  obtain ⟨i, rfl⟩ : ∃ i, j = i + 1 + 1 := ⟨j - 2, by omega⟩
  rw [visit_forEach_eq entered found (by rw [hc]; rfl) start (by omega)]
  have next : mem (Mem.next (some c) (some k)) m₃ = .error (.failed (.fault .wrongKind)) m₃ := by
    obtain ⟨hk, kept⟩ := get_of_newNull start
    have empty : m₃.store.get c = .map .empty := (kept c (Store.lt_of_get_ne (by simp [hc]))).trans hc
    simp only [mem, Mem.next_of_empty empty (k := k) (by rw [hk]; rfl)]
  have head : (eachCycle key val (some c)).head (some k) m₃ = .error (.failed (.fault .wrongKind)) m₃ :=
    bind_of_error next
  have round : iterate ((eachCycle key val (some c)).round (Eval.visit (i + 1) body)) (i + 1)
      (some k) m₃ = .error (.failed (.fault .wrongKind)) m₃ := bind_of_error (bind_of_error head)
  exact bind_of_error round

/-- The container is looked for in the record of the loop. -/
theorem AtHead.eval {v : Slot} {e : Node} (h : AtHead m₀ m) (he : e.IsExpr) (hn : e.Still)
    (run : Eval.Gives e m v m') : AtHead m₀ m' ∧ Live m'.store.cells.size v := by
  obtain ⟨n, run⟩ := run
  have visits := visits_still m.level (fun _ _ _ => false) n
  have balanced := balanced_visitCut (fun _ _ _ => false) n e
  rw [visitCut_false] at visits balanced
  obtain ⟨good, hp, live⟩ := (wp_of_ok run).1 (visits.expr (S := []) (.unwatched rfl he hn) h.still.good)
  obtain ⟨_, same⟩ := ((sim_visit n).1 e he 0 (TinyScript.marks m)).marks_of_ok h.still.sound run
  exact ⟨h.proceed good hp ((wp_of_ok run).1 (balanced m)) same.2.1, live⟩

theorem AtHead.newNull (h : AtHead m₀ m) (start : (mem Mem.newNull : Exec Ref) m = .ok k m') :
    AtHead m₀ m' := by
  have acts := Mem.Acts.newNull (X := fun _ => False) h.still.good.store
  obtain ⟨good, hp, -⟩ := (wp_of_ok start).1
    (Runs.mem (S := []) (X := fun _ => False) h.still.good acts fun _ h => h)
  cases start
  exact h.proceed good hp rfl rfl

/-! ### What is come upon -/

namespace Store

variable {s s' : Store}
variable {t : Table} {level : Int}

theorem sights_of_ne_null (h : s.get c = .map t) (ne : ∀ e ∈ t.entries, s.get e.key ≠ .null) :
    s.sights c = t.entries.map fun e => (s.get e.key, e.value) := by
  rw [sights_map h, visited, skipped_eq_zero (forall_mem_map.2 ne), drop_zero]

theorem sights_of_null (h : s.get c = .map t) (tidy : t.Tidy s) {before after : List (Entry Slot)}
    {e : Entry Slot} (he : t.entries = before ++ e :: after) (null : s.get e.key = .null) :
    s.sights c = after.map fun e => (s.get e.key, e.value) := by
  have ne : ∀ e' ∈ before, s.get e'.key ≠ .null := by
    have d := tidy.distinct
    rw [Distinct, he] at d
    intro e' he'
    exact null ▸ (pairwise_append.1 d).2.2 e' he' e mem_cons_self
  rw [sights_map h, visited, he, map_append, map_cons,
    skipped_append (forall_mem_map.2 ne) null, length_map]
  simp

theorem sights_keys (h : s.get c = .map t) : (s.sights c).map (·.1) =
    ((t.entries.map (·.key)).map s.get).drop (s.skipped (t.entries.map (·.key))) := by
  rw [sights_map h, visited, map_map, map_map, ← map_drop]
  rfl

theorem Evolves.get_plain (h : s.Evolves (.still level) s') (hq : (s.get q).IsPlain) :
    s'.get q = s.get q :=
  h.frozen q (IsPlain.lt hq) trivial (Bool.eq_false_iff.2 hq.not_isContainer)

theorem Passable.plain (h : s.Passable c) {v : Value} (hv : v ∈ (s.sights c).map (·.1)) : v.IsPlain := by
  rcases h with ⟨items, hi⟩ | ⟨t, hm, tidy, -⟩
  · rw [sights_list hi] at hv
    obtain ⟨e, he, rfl⟩ := mem_map.1 hv
    obtain ⟨i, -, rfl⟩ := mem_mapIdx.1 he
    trivial
  · rw [sights_map hm, map_map] at hv
    obtain ⟨e, he, rfl⟩ := mem_map.1 hv
    exact (tidy.labelled e (mem_of_mem_drop he)).1

theorem Cursor.plain (h : s.Cursor c i k) (hp : s.Passable c) : (s.get k).IsPlain := by
  rcases mem_cons.1 (mem_of_getElem? h) with e | hk
  · rw [e]
    trivial
  · exact hp.plain hk

theorem Cursor.isCursor (h : s.Cursor c i k) (hp : s.Passable c) : s.IsCursor (some c) (some k) := by
  refine ⟨s.get k, rfl, (h.plain hp).isKey, fun items t hi e => ?_⟩
  rcases mem_cons.1 (mem_of_getElem? h) with null | hk
  · cases null.symm.trans e
  · rw [sights_list (Option.some.inj hi)] at hk
    obtain ⟨y, hy, number⟩ := mem_map.1 hk
    obtain ⟨j, _, rfl⟩ := mem_mapIdx.1 hy
    cases number.trans e

theorem Passable.isContainer (h : s.Passable c) : s.IsContainer (some c) := by
  rcases h with ⟨items, hi⟩ | ⟨t, ht, -⟩
  · exact .inl ⟨items, congrArg some hi⟩
  · exact .inr ⟨t, congrArg some ht⟩

/-- As long as no key is added, a container keeps its keys. -/
theorem Evolves.keeps_keys (h : s.Evolves (.still level) s') (ht : s'.Tidy) (hp : s.Passable c)
    (hc : s'.count c = s.count c) :
    s'.Passable c ∧ (s'.sights c).map (·.1) = (s.sights c).map (·.1) := by
  have kin := h.kin c
  rcases hp with ⟨items, hi⟩ | ⟨t, hm, tidy, ne⟩
  · obtain ⟨items', hi', length⟩ := (hi ▸ kin (lt_of_get_ne (by simp [hi]))).eq_list
    refine ⟨.inl ⟨items', hi'⟩, ?_⟩
    rw [sights_list hi, sights_list hi']
    refine ext_getElem (by simp [length]) fun i _ _ => by simp
  · obtain ⟨t', hm', labels⟩ := (hm ▸ kin (lt_of_get_ne (by simp [hm]))).eq_map
    have labels : Store.labels t'.entries = Store.labels t.entries := by
      refine (labels.eq_of_length ?_).symm
      simp only [count, hm, hm'] at hc
      simp [Store.labels, hc]
    have keys : t'.entries.map (·.key) = t.entries.map (·.key) := by
      have := congrArg (List.map Prod.snd) labels
      rwa [Store.labels, Store.labels, map_map, map_map] at this
    have plain : ∀ q ∈ t.entries.map (·.key), (s.get q).IsPlain :=
      forall_mem_map.2 fun e he => (tidy.labelled e he).1
    have same : ∀ q ∈ t.entries.map (·.key), s'.get q = s.get q := fun q hq => h.get_plain (plain q hq)
    have tidy' : t'.Tidy s' := ht.maps c t' hm' fun e he => by
      have hq : e.key ∈ t.entries.map (·.key) := keys ▸ mem_map_of_mem he
      rw [same e.key hq]
      exact plain e.key hq
    refine ⟨.inr ⟨t', hm', tidy', fun e => ne ?_⟩, ?_⟩
    · simpa [e] using keys.symm
    · rw [sights_keys hm, sights_keys hm', keys, skipped_congr same, map_congr_left same]

end Store

/-! ### Names and entries -/

/-- In record number `i` the names of a loop are bound to an entry: a name alone to the value of the
entry, the first of two to its key and the second one to the value. -/
structure MachineOf.Presents (m : Machine) (i : Nat) (key val : Node) (k : Value) (v : Ref) : Prop where
  value : ∃ y, (if val.isMissing then key else val).ident? = some y ∧ m.Binds i y v
  key : ∀ x, val.isMissing = false → key.ident? = some x → val.ident? ≠ some x → m.Holds i x k

theorem MachineOf.Presents.stays {u : Value} (h : m.Presents i key val u v) (hm : m.Still)
    (hu : u.IsPlain) (hb : body.IsStat) (hn : body.Still) (stop : Nat → Node → Machine → Bool) (n : Nat) :
    wp (visitCut stop n body) (fun _ m' => m'.Presents i key val u v)
      (fun _ m' => m'.Presents i key val u v) m := by
  refine hm.wp_stat hb hn stop n fun m' ev binds => ?_
  obtain ⟨y, hy, bound⟩ := h.value
  refine ⟨⟨y, hy, binds _ _ _ bound⟩, fun x one hx ne => ?_⟩
  obtain ⟨q, bound, rfl⟩ := h.key x one hx ne
  exact ⟨q, binds _ _ _ bound, ev.get_plain hu⟩

theorem bindEntry_eq {r : Record} {rs : List Record} (hk : key.IsName)
    (hval : val ≠ .missing → val.IsName) (hr : m.stack.records = r :: rs) :
    ∃ m' r', Eval.bindEntry key val (some q) (some v) m = .ok () m' ∧ m'.store = m.store ∧
      m'.stack.records = r' :: rs ∧ r'.tag = r.tag ∧
      (∃ y, (if val.isMissing then key else val).ident? = some y ∧ r'.get? y = some ⟨some v, true⟩) ∧
      ∀ x, val.isMissing = false → key.ident? = some x → val.ident? ≠ some x →
        r'.get? x = some ⟨some q, true⟩ := by
  obtain ⟨x, p, rfl⟩ := hk
  by_cases hmiss : val = .missing
  · subst hmiss
    refine ⟨_, r.set x ⟨some v, true⟩, rfl, rfl, by simp only [CallStackOf.modifyTop, hr], rfl,
      ⟨x, rfl, ?_⟩, fun _ h => by cases h⟩
    exact (RecordOf.get?_set ..).trans (if_pos rfl)
  · obtain ⟨y, p', rfl⟩ := hval hmiss
    refine ⟨_, (r.set x ⟨some q, true⟩).set y ⟨some v, true⟩, rfl, rfl,
      by simp only [CallStackOf.modifyTop, hr], rfl, ⟨y, rfl, ?_⟩, fun z _ hz ne => ?_⟩
    · exact (RecordOf.get?_set ..).trans (if_pos rfl)
    · cases hz
      rw [RecordOf.get?_set, if_neg fun e => ne (congrArg some e.symm), RecordOf.get?_set, if_pos rfl]

/-! ### From key to key -/

/-- The machine is at the head of a round of the loop over `c`, whose keys to come upon are `ks`, and
it goes on from the null or key in `k` to the entry of number `i`. -/
structure Visiting (m₀ : Machine) (c : Ref) (ks : List Value) (i : Nat) (k : Ref) (m : Machine) :
    Prop where
  head : AtHead m₀ m
  passable : m.store.Passable c
  keys : (m.store.sights c).map (·.1) = ks
  cursor : m.store.Cursor c i k

namespace Visiting

variable {ks : List Value} {i : Nat}

theorem bindEntry (h : Visiting m₀ c ks i k m) (hk : key.IsName) (hval : val ≠ .missing → val.IsName)
    (hq : q.index < m.store.cells.size) (hv : v.index < m.store.cells.size) :
    ∃ m', Eval.bindEntry key val (some q) (some v) m = .ok () m' ∧ m'.store = m.store ∧
      Visiting m₀ c ks i k m' ∧ m'.Presents m₀.stack.records.length key val (m.store.get q) v := by
  obtain ⟨r, rs, hr⟩ := Runs.exists_records h.head.still.good
  obtain ⟨m', r', run, store, hr', tag, ⟨y, hy, value⟩, first⟩ :=
    bindEntry_eq (q := q) (v := v) hk hval hr
  obtain ⟨good, hp, -⟩ := (wp_of_ok run).1 (Runs.bindEntry (W := none) (X := fun _ => False) hk hval
    (.inl rfl) (.some hq) (.some hv) h.head.still.good)
  have skeleton := (wp_of_ok run).1 (Balanced.respected.inside.bindEntry key val _ _ m)
  have marks : marks m' = marks m := by
    rw [TinyScript.marks, TinyScript.marks, hr', hr, map_cons, map_cons, tag]
  have head := h.head.proceed good hp skeleton marks
  refine ⟨m', run, store, ⟨head, store ▸ h.passable, store ▸ h.keys, store ▸ h.cursor⟩, ?_⟩
  rw [← head.length]
  exact ⟨⟨y, hy, binds_of_top hr' value⟩,
    fun x one hx ne => ⟨q, binds_of_top hr' (first x one hx ne), by rw [store]⟩⟩

/-- The head of a round leads to an entry, or there is none left. -/
theorem runHead (h : Visiting m₀ c ks i k m) (hk : key.IsName) (hval : val ≠ .missing → val.IsName) :
    (∃ q m₁ u v, (eachCycle key val (some c)).head (some k) m = .ok (some (some q)) m₁ ∧
      i < ks.length ∧ Visiting m₀ c ks (i + 1) q m₁ ∧ (m₁.store.sights c)[i]? = some (u, some v) ∧
      m₁.Presents m₀.stack.records.length key val u v) ∨
    ∃ m₁, (eachCycle key val (some c)).head (some k) m = .ok none m₁ ∧ i = ks.length ∧ AtHead m₀ m₁ := by
  obtain ⟨q, v, s', next, passable, sights, step⟩ := Mem.next_sights h.passable h.cursor
  have ran : mem (Mem.next (some c) (some k)) m = .ok (some q, v) { m with store := s' } := by
    simp only [mem, next]
  have acts := Mem.Acts.next h.head.still.good.store h.passable.isContainer (h.cursor.isCursor h.passable)
  obtain ⟨good₁, hp₁, live, ⟨w, rfl, hw⟩, -⟩ := (wp_of_ok ran).1
    (Runs.mem (S := []) (X := fun _ => True) h.head.still.good acts fun _ _ => trivial)
  have head₁ := h.head.proceed good₁ hp₁ rfl rfl
  have keys : (s'.sights c).map (·.1) = ks := sights ▸ h.keys
  have get : (MonadState.get : Exec Machine) { m with store := s' } = .ok _ { m with store := s' } := rfl
  have content : s'.get? (some q) = some (s'.get q) := rfl
  simp only [eachCycle]
  rw [bind_of_ok ran, bind_of_ok get, content]
  rcases step with ⟨entry, ne⟩ | ⟨none, null⟩
  · refine .inl ?_
    have at₁ : ks[i]? = some (s'.get q) := by
      rw [← h.keys, getElem?_map, entry]
      rfl
    have visiting : Visiting m₀ c ks (i + 1) q { m with store := s' } :=
      ⟨head₁, passable, keys, by rw [Store.Cursor, keys]; exact at₁⟩
    obtain ⟨m₂, bound, store, visiting₂, presents⟩ := visiting.bindEntry (q := q) (v := w) hk hval
      (Live.index_lt live) hw
    refine ⟨q, m₂, s'.get q, w, ?_, (List.getElem?_eq_some_iff.1 at₁).1, visiting₂, ?_, presents⟩
    · clear presents visiting at₁ entry content
      generalize s'.get q = u at ne
      cases u with
      | null => exact absurd rfl ne
      | _ => exact bind_of_ok bound
    · rw [store]
      exact sights ▸ entry
  · refine .inr ⟨{ m with store := s' }, ?_, ?_, head₁⟩
    · rw [null]
      rfl
    · have before := (List.getElem?_eq_some_iff.1 h.cursor).1
      have after := getElem?_eq_none_iff.1 none
      rw [← h.keys, length_map]
      simp only [length_cons, length_map] at before
      omega

theorem runTail {v : Slot} (h : Visiting m₀ c ks i k m) (hb : body.IsStat) (hn : body.Still)
    (run : Eval.Gives body m v m') (hs : m'.Settles) (hc : m'.store.count c = m.store.count c) :
    ∃ m'', (eachCycle key val (some c)).tail (some k) m' = .ok (some (some k)) m'' ∧
      Visiting m₀ c ks i k m'' := by
  obtain ⟨m'', settled, head, hp, store⟩ := h.head.settle hb hn run hs
  obtain ⟨passable, keys⟩ := hp.store.keeps_keys head.still.tidy h.passable (store ▸ hc)
  refine ⟨m'', ?_, head, passable, keys.trans h.keys, ?_⟩
  · simp only [eachCycle]
    rw [loopTail, bind_of_ok settled]
    rfl
  · rw [Store.Cursor, keys, hp.store.get_plain (h.cursor.plain h.passable)]
    exact h.cursor

theorem exists_rounds (h : Visiting m₀ c ks 0 k m) (hk : key.IsName)
    (hval : val ≠ .missing → val.IsName) (hb : body.IsStat) (hn : body.Still)
    (ends : ∀ m₁, (eachCycle key val (some c)).Begins body (some k) m m₁ →
      ∃ v m₂, Eval.Gives body m₁ v m₂ ∧ m₂.Settles ∧ m₂.store.count c = m₁.store.count c) :
    ∃ starts m₃, (eachCycle key val (some c)).Rounds body (some k) m starts m₃ ∧
      starts.length = ks.length ∧
      (∀ (j : Nat) m₁, starts[j]? = some m₁ → ∃ q u v, Visiting m₀ c ks (j + 1) q m₁ ∧
        (m₁.store.sights c)[j]? = some (u, some v) ∧
        m₁.Presents m₀.stack.records.length key val u v) ∧ AtHead m₀ m₃ := by
  refine Cycle.exists_rounds (I := fun j a m => ∃ k, a = some k ∧ Visiting m₀ c ks j k m)
    (F := fun m₁ m₂ => m₂.Settles ∧ m₂.store.count c = m₁.store.count c) (fun j a m hj h => ?_)
    (fun a m h => ?_) ends ⟨k, rfl, h⟩
  · obtain ⟨k, rfl, h⟩ := h
    rcases h.runHead hk hval with ⟨q, m₁, u, v, head, -, visiting, entry⟩ | ⟨_, -, rfl, -⟩
    · refine ⟨some q, m₁, head, ⟨q, u, v, visiting, entry⟩, fun w m₂ run hs => ?_⟩
      obtain ⟨m₃, tail, next⟩ := visiting.runTail hb hn run hs.1 hs.2
      exact ⟨some q, m₃, tail, q, rfl, next⟩
    · exact absurd hj (Nat.lt_irrefl _)
  · obtain ⟨k, rfl, h⟩ := h
    rcases h.runHead hk hval with ⟨_, _, _, _, -, lt, -⟩ | ⟨m₁, head, -, last⟩
    · exact absurd lt (Nat.lt_irrefl _)
    · exact ⟨m₁, head, last⟩

end Visiting

/-- In a program without compound assignments, let a loop over a list, or over a map whose keys are
nulls, integers and strings, have a body that adds no key and ends neither by `break` nor by `return`.
Then the body is run once for each entry that the loop comes upon, in their order, with the names
bound to the entry, and the loop ends with the call stack as it was. These are all items of a list,
and all entries of a map, unless there is one for null: then it is those after it. A map without
entries is a failure. If the stack is listed on leaving the loop, that has to be possible. -/
theorem each_rounds (hm : Reachable (fun t => t.IsProgram ∧ t.Still) m)
    (hl : (Node.forEach key val subject body p).IsStat)
    (hn : (Node.forEach key val subject body p).Still)
    (entered : Exec.enter (Eval.loopRecord "for" p) m = .ok () m₁)
    (found : Eval.Gives subject m₁ (some c) m₂)
    (start : (mem Mem.newNull : Exec Ref) m₂ = .ok k m₃)
    (hc : (∃ items, m₃.store.get c = .list items) ∨
      ∃ t, m₃.store.get c = .map t ∧ ∀ e ∈ t.entries, (m₃.store.get e.key).IsPlain)
    (ends : ∀ m', (eachCycle key val (some c)).Begins body (some k) m₃ m' →
      ∃ v m'', Eval.Gives body m' v m'' ∧ m''.Settles ∧ m''.store.count c = m'.store.count c) :
    (∀ t, m₃.store.get c = .map t → t.entries = [] → ∃ n, ∀ j, n ≤ j →
      Eval.visit j (.forEach key val subject body p) m = .error (.failed (.fault .wrongKind)) m₃) ∧
    ((∀ t, m₃.store.get c = .map t → t.entries ≠ []) → ∃ starts m₄,
      (∀ ms m', (eachCycle key val (some c)).Rounds body (some k) m₃ ms m' ↔
        ms = starts ∧ m' = m₄) ∧
      starts.length = (m₃.store.sights c).length ∧
      (∀ (j : Nat) m', starts[j]? = some m' →
        (m'.store.sights c).map (·.1) = (m₃.store.sights c).map (·.1) ∧
        ∃ u v, (m'.store.sights c)[j]? = some (u, some v) ∧
          m'.Presents m₁.stack.records.length key val u v ∧
          ∀ cut n, wp (Eval.visitCut cut n body)
            (fun _ m'' => m''.Presents m₁.stack.records.length key val u v)
            (fun _ m'' => m''.Presents m₁.stack.records.length key val u v) m') ∧
      (∀ m₅, (Exec.leave : Exec Unit) m₄ = .ok () m₅ →
        Eval.Gives (.forEach key val subject body p) m none m₅ ∧
        m₅.stack.skeleton = m.stack.skeleton ∧ marks m₅ = marks m) ∧
      ((LogLevel.debug.shows m.level = true → ∃ t, m₄.stack.render m₄.store = .ok t) →
        ∃ m₅, (Exec.leave : Exec Unit) m₄ = .ok () m₅)) ∧
    (∀ items, m₃.store.get c = .list items →
      m₃.store.sights c = items.mapIdx fun i x => (.num (.int i), x)) ∧
    ∀ t, m₃.store.get c = .map t →
      ((∀ e ∈ t.entries, m₃.store.get e.key ≠ .null) →
        m₃.store.sights c = t.entries.map fun e => (m₃.store.get e.key, e.value)) ∧
      ∀ before e after, t.entries = before ++ e :: after → m₃.store.get e.key = .null →
        m₃.store.sights c = after.map fun e => (m₃.store.get e.key, e.value) := by
  cases hl with
  | forEach hk hval hsub hb =>
  have part : ∀ n ∈ [key, val, subject, body], n.Still := fun n h => hn.part h
  simp only [List.forall_mem_cons] at part
  obtain ⟨-, -, nsub, nb, -⟩ := part
  have still := still_of_reachable hm
  have head₁ := atHead_of_enter still (RecordOf.good_new _ _ _) rfl rfl entered
  obtain ⟨head₂, live⟩ := head₁.eval hsub nsub found
  have head₃ := head₂.newNull start
  obtain ⟨hk₃, kept⟩ := get_of_newNull start
  have same : m₃.store.get c = m₂.store.get c := kept c (Live.index_lt live)
  have tidy : ∀ t, m₃.store.get c = .map t → t.Tidy m₃.store := by
    intro t ht
    rcases hc with ⟨items, hi⟩ | ⟨t', ht', plain⟩
    · cases hi.symm.trans ht
    · cases ht'.symm.trans ht
      exact head₃.still.tidy.maps c t ht plain
  refine ⟨fun t ht empty => ?_, fun ne => ?_, fun items h => Store.sights_list h,
    fun t ht => ⟨Store.sights_of_ne_null ht, fun _ _ _ he => Store.sights_of_null ht (tidy t ht) he⟩⟩
  · rw [(tidy t ht).empty empty] at ht
    exact forEach_of_empty entered found (same.symm.trans ht) start
  · have container : (m₂.store.get c).isContainer = true := by
      rcases hc with ⟨items, h⟩ | ⟨t, h, -⟩ <;> rw [← same, h] <;> rfl
    have passable : m₃.store.Passable c := by
      rcases hc with list | ⟨t, ht, -⟩
      · exact .inl list
      · exact .inr ⟨t, ht, tidy t ht, ne t ht⟩
    have first : Visiting m₁ c ((m₃.store.sights c).map (·.1)) 0 k m₃ :=
      ⟨head₃, passable, rfl, congrArg some hk₃.symm⟩
    obtain ⟨starts, m₄, rounds, length, each, last⟩ := first.exists_rounds hk hval hb nb ends
    refine ⟨starts, m₄, fun ms m' => ⟨fun h => h.unique rounds, ?_⟩, ?_, fun j m' hj => ?_,
      fun m₅ left => ?_, fun listed => ?_⟩
    · rintro ⟨rfl, rfl⟩
      exact rounds
    · rw [length, List.length_map]
    · obtain ⟨q, u, v, visiting, entry, presents⟩ := each j m' hj
      have plain : u.IsPlain := visiting.passable.plain (List.mem_map_of_mem (List.mem_of_getElem? entry))
      exact ⟨visiting.keys, u, v, entry, presents, presents.stays visiting.head.still plain hb nb⟩
    · obtain ⟨skeleton, marks⟩ := last.leave entered left
      exact ⟨gives_forEach entered found container start rounds left, skeleton, marks⟩
    · have level : m₄.level = m.level := last.level.trans (by rw [eq_of_enter entered])
      exact exists_leave (level ▸ listed) last.still.good.records_ne_nil

/-- `{'b': 0, null: 1, 'a': 2}` -/
def nullAmongKeys : Node :=
  .mapOf [.string "b" ⟨1, 14⟩, .null ⟨1, 22⟩, .string "a" ⟨1, 31⟩]
    [.number "0" true ⟨1, 19⟩, .number "1" true ⟨1, 28⟩, .number "2" true ⟨1, 36⟩] ⟨1, 13⟩

/-- `for k, v in {'b': 0, null: 1, 'a': 2} continue` -/
def nullAmongKeysLoop : Node :=
  .forEach (.name "k" ⟨1, 5⟩) (.name "v" ⟨1, 8⟩) nullAmongKeys (.continueLoop ⟨1, 39⟩) ⟨1, 1⟩

theorem isStat_nullAmongKeysLoop : nullAmongKeysLoop.IsStat := by
  refine .forEach ⟨_, _, rfl⟩ (fun _ => ⟨_, _, rfl⟩) (.mapOf ?_ ?_) .continueLoop <;>
    simp only [forall_mem_cons]
  · exact ⟨.string, .null, .string, fun _ h => absurd h not_mem_nil⟩
  · exact ⟨.number, .number, .number, fun _ h => absurd h not_mem_nil⟩

/-- Of three entries only the one after null is come upon. -/
theorem each_rounds_nullAmongKeys : ∃ m₁ m₂ m₃ starts m₄ m₅ c k t,
    Eval.Gives nullAmongKeys m₁ (some c) m₂ ∧ m₃.store.get c = .map t ∧ t.entries.length = 3 ∧
    (eachCycle (.name "k" ⟨1, 5⟩) (.name "v" ⟨1, 8⟩) (some c)).Rounds (.continueLoop ⟨1, 39⟩) (some k)
      m₃ starts m₄ ∧ starts.length = 1 ∧
    Eval.Gives nullAmongKeysLoop (leaves Host.boot {}) none m₅ := by
  have hm : Reachable (fun t => t.IsProgram ∧ t.Still) (leaves Host.boot {}) :=
    .boot [] 1 (by decide +kernel)
  have still : nullAmongKeysLoop.Still := Node.still_of_isStill (d := 9) (by decide +kernel)
  have hidden : LogLevel.debug.shows (leaves (Host.boot : Exec Unit) {}).level = false := by
    decide +kernel
  obtain ⟨_, m₁, entered, h₁⟩ := exists_of_endsWith (m := leaves Host.boot {})
    (x := Exec.enter (Eval.loopRecord "for" ⟨1, 1⟩))
    (P := fun _ => endsWith (Eval.visit 9 nullAmongKeys) fun c => endsWith (mem Mem.newNull) fun k m =>
      ∃ r ∈ c, (∃ t ∈ m.store.table? r, t.entries.length = 3 ∧
          ∀ e ∈ t.entries, (m.store.get e.key).IsPlain) ∧ (m.store.sights r).length = 1 ∧
        (eachCycle (.name "k" ⟨1, 5⟩) (.name "v" ⟨1, 8⟩) (some r)).endsAll (.continueLoop ⟨1, 39⟩)
          (fun m₁ m₂ => m₂.Settles ∧ m₂.store.count r = m₁.store.count r) 9 9 (some k) m = true)
    (by decide +kernel)
  obtain ⟨c, m₂, found, h₂⟩ := exists_of_endsWith h₁
  obtain ⟨k, m₃, start, h₃⟩ := exists_of_endsWith h₂
  obtain ⟨r, rfl, ⟨t, ht, three, plain⟩, one, ends⟩ := of_decide_eq_true h₃
  have ht := Store.get_of_table? ht
  have ne : ∀ t', m₃.store.get r = .map t' → t'.entries ≠ [] := by
    rintro t' ht' e
    cases ht.symm.trans ht'
    rw [e] at three
    cases three
  obtain ⟨starts, m₄, rounds, length, -, left, leaves⟩ := (each_rounds hm isStat_nullAmongKeysLoop
    still entered ⟨9, found⟩ start (.inr ⟨t, ht, plain⟩) fun _ h => h.ends ends).2.1 ne
  obtain ⟨m₅, left₅⟩ := leaves fun shows => absurd (hidden.symm.trans shows) Bool.false_ne_true
  exact ⟨m₁, m₂, m₃, starts, m₄, m₅, r, k, t, ⟨9, found⟩, ht, three, (rounds _ _).2 ⟨rfl, rfl⟩,
    length.trans one, (left m₅ left₅).1⟩

end TinyScript
