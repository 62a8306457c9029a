import TinyScript.Proofs.Fuel
import TinyScript.Proofs.RunEvolution
import TinyScript.Proofs.StackDiscipline

/-!
# Constants

A name that is declared as a constant stays bound to one and the same cell as long as its record is
on the stack. What the record still has to do is its `Rest`: the statements that follow, or the
further rounds of a loop. The cell itself is another matter. Numbers and the like are changed in
place by a compound assignment, also by one to the constant itself (`not_forall_look_const`); all
else leaves them as they are (`constants_stay`).
-/

namespace TinyScript

open Exec List

variable {rs : List Record} {r : Record} {α : Type} {X : Halt → Prop} {act : Exec α}
  {Q : α → Machine → Prop}

/-- Record number `i` binds `x` as a constant, to the cell `q`. -/
def MachineOf.Binds (m : Machine) (i : Nat) (x : String) (q : Ref) : Prop :=
  ∃ r, m.stack.record? i = some r ∧ r.get? x = some ⟨some q, true⟩

variable {c : Setting} {S : List String} {W : View} {m m' : Machine} {i : Nat} {x : String} {q : Ref}

/-! ### What machines keep -/

theorem Kept.binds {rs' : List Record} (h : Kept S false rs rs') (hr : rs.reverse[i]? = some r)
    (hx : r.get? x = some ⟨some q, true⟩) (hS : x ∈ S → i + 1 < rs.length) :
    ∃ r', rs'.reverse[i]? = some r' ∧ r'.get? x = some ⟨some q, true⟩ := by
  have lt : i < rs.length := by
    rw [← length_reverse]
    exact (List.getElem?_eq_some_iff.1 hr).1
  rw [getElem?_reverse lt] at hr
  obtain ⟨r', hr', keeps⟩ := h.get hr
  refine ⟨r', ?_, keeps.constants x _ hx rfl ?_⟩
  · rw [getElem?_reverse (h.length_eq ▸ lt), h.length_eq]
    exact hr'
  · split
    · intro hxS
      have := hS hxS
      omega
    · exact not_mem_nil

/-- The records of a machine may have come to lie under others. -/
theorem MachineOf.Binds.kept {top base : List Record} (hb : m.Binds i x q)
    (hr : m'.stack.records = top ++ base) (hk : Kept S false m.stack.records base)
    (hS : x ∈ S → i < m.stack.records.length) : m'.Binds i x q := by
  obtain ⟨r, hi, hx⟩ := hb
  cases i with
  | zero => cases hi
  | succ i =>
    rw [CallStackOf.record?_succ] at hi
    obtain ⟨r', hr', hx'⟩ := hk.binds hi hx hS
    refine ⟨r', ?_, hx'⟩
    rw [CallStackOf.record?_succ, hr, reverse_append]
    exact getElem?_append_left (List.getElem?_eq_some_iff.1 hr').1 ▸ hr'

/-- However a run ends, the constants are those it began with. -/
theorem Runs.binds (h : Runs c S W X act Q m) (hb : m.Binds i x q)
    (hS : x ∈ S → i < m.stack.records.length) :
    wp act (fun _ m' => m'.Binds i x q) (fun _ m' => m'.Binds i x q) m := by
  refine wp_mono h (fun _ m' h' => ?_) fun _ m' h' => ?_
  · exact hb.kept (nil_append _).symm h'.2.1.records hS
  · obtain ⟨top, base, hr, hk, -⟩ := h'.2.1.records
    exact hb.kept hr hk hS

/-- What is shown of a value other than a list or map depends on nothing else. -/
theorem Store.look_of_eq {s s' : Store} (h : s'.get q = s.get q)
    (hv : (s.get q).isContainer = false) : s'.look (some q) = s.look (some q) := by
  have now : s.get? (some q) = some (s.get q) := rfl
  have later : s'.get? (some q) = some (s.get q) := congrArg some h
  generalize s.get q = v at now later hv
  cases v with
  | list => cases hv
  | map => cases hv
  | _ => simp only [look, text, repr, depth, inner, now, later]

/-- A frozen cell looks as it did, however a run ends. -/
theorem Runs.look (h : Runs c S W X act Q m) (hq : q.index < m.store.cells.size) (hf : c.frozen q)
    (hv : (m.store.get q).isContainer = false) :
    wp act (fun _ m' => m'.store.look (some q) = m.store.look (some q))
      (fun _ m' => m'.store.look (some q) = m.store.look (some q)) m :=
  wp_mono h (fun _ _ h' => Store.look_of_eq (h'.2.1.store.frozen q hq hf hv) hv)
    fun _ _ h' => Store.look_of_eq (h'.2.1.store.frozen q hq hf hv) hv

/-! ### What a record still has to do -/

/-- What the innermost record still has to do when a statement in it has been run: that of a program,
block or function goes on with the next statements, that of a loop with the rest of the round and
the next rounds. The names in the list are those that the loop itself binds. -/
inductive Rest (visit : Node → Exec Slot) (m : Machine) : List String → Exec Unit → Prop
  | program {ss} (hs : ∀ s ∈ ss, s.IsStat) : Rest visit m [] (Eval.runAll visit ss)
  | block {ss} (hd : m.Nested) (hs : ∀ s ∈ ss, s.IsStat) :
      Rest visit m [] (Eval.goOn visit Eval.settleBlock ss)
  | function {ss} (hd : m.Nested) (hs : ∀ s ∈ ss, s.IsStat) :
      Rest visit m [] (Eval.goOn visit Eval.settleFunction ss)
  | repeatUntil {cond body n} (hd : m.Nested) (hc : cond.IsExpr) (hb : body.IsStat) :
      Rest visit m [] (Eval.goRound (fun _ => Eval.repeatRound visit cond body) n
        (Eval.repeatTail visit cond))
  | whileLoop {cond body n} (hd : m.Nested) (hc : cond.IsExpr) (hb : body.IsStat) :
      Rest visit m [] (Eval.goRound (fun _ => Eval.whileRound visit cond body) n (Eval.loopTail ()))
  | forRange {y p v stop step given body n} (hI : InRange y stop step given m)
      (hv : m.store.IsNum v) (hb : body.IsStat) :
      Rest visit m [y] (Eval.goRound (fun _ => Eval.rangeRound visit y p stop step body) n
        (Eval.rangeTail y p v step))
  | forEach {key val subject k body n} (hk : key.IsName) (hval : val ≠ .missing → val.IsName)
      (hI : InEach subject k m) (hb : body.IsStat) :
      Rest visit m (Runs.entryNames key val) (Eval.goRound (Eval.eachRound visit key val subject body)
        n (Eval.loopTail k))

namespace Rest

variable {visit : Node → Exec Slot} {act : Exec Unit}

/-- All that a record still has to do is known to go well. -/
theorem runs (hr : Rest visit m S act) (hv : Visits c visit) (hn : ∀ n, c.nodes n) (hw : c.watched = none)
    (hm : m.Good c none) : Does c S none act m := by
  have expr : ∀ {e : Node}, e.IsExpr → c.Expr none e := fun he => .unwatched hw he (hn _)
  have stat : ∀ {s : Node}, s.IsStat → c.Stat none s none := fun hs => .unwatched hw hs (hn _)
  cases hr with
  | program hs => exact Runs.runAll hv (fun s _ => hn s) (.unwatched hw hs) hm
  | block hd hs =>
    exact Runs.goOn Runs.settleBlock
      (Runs.runSettled hv (fun s _ => hn s) (.unwatched hw hs) Runs.settleBlock) hm hd
  | function hd hs =>
    exact Runs.goOn Runs.settleFunction
      (Runs.runSettled hv (fun s _ => hn s) (.unwatched hw hs) Runs.settleFunction) hm hd
  | repeatUntil hd hc hb =>
    have nested : ∀ {x : Exec (Option Unit)} {m : Machine},
        Runs c [] none (Excused c) x (fun _ m' => m'.Nested) m →
        Runs c [] none (Excused c) x (fun b m' => ∀ a, b = some a → m'.Nested) m :=
      fun h => h.mono (fun _ _ h _ _ => h) fun _ h => h
    exact Runs.goRound (I := fun _ m => m.Nested)
      (Runs.iterate (fun _ _ hm₁ hd₁ => nested (Runs.repeatRound hv (expr hc) (stat hb) hm₁ hd₁)) _)
      (nested (Runs.repeatTail hv (expr hc) hm hd))
  | whileLoop hd hc hb =>
    exact Runs.goRound (I := fun _ m => m.Nested)
      (Runs.iterate (fun _ _ hm₁ hd₁ => Runs.whileRound hv (expr hc) (stat hb) hm₁ hd₁) _)
      (Runs.loopTail hm hd fun _ _ hp => hp.nested hd)
  | @forRange y p v stop step given body n hI hnum hb =>
    -- the setting has all nodes, so that any loop over a range answers for the faults of this one
    have faults : ∀ f, f = .fault .overflow ∨ f = .operand .rightNotNumber →
        f ∈ (Node.forRange .empty .empty .empty .empty .empty p).raises := by
      rintro f (rfl | rfl) <;> simp [Node.raises, Node.isMissing]
    have hover := faults _ (.inl rfl)
    have hstep : given = true → _ := fun _ => faults _ (.inr rfl)
    exact Runs.goRound (I := fun _ m => InRange y stop step given m)
      (Runs.iterate (fun _ _ hm₁ hI₁ => (Runs.rangeRound hv (hn _) hover hstep (stat hb) hm₁
        hI₁).mono (fun _ _ h _ ha => h ha) fun _ h => h) _)
      ((Runs.rangeTail (hn _) hover hstep hm hI hnum).mono (fun _ _ h _ ha => h ha)
        fun _ h => h)
  | @forEach key val subject k body n hk hval hI hb =>
    refine Runs.goRound (I := InEach subject) (Runs.iterate (fun a m₁ hm₁ hI₁ => ?_) _)
      (Runs.loopTail hm hI.nested fun _ _ hp => hI.proceeds hp)
    exact (Runs.eachRound (W := none) hv (hn (.forEach .empty .empty .empty .empty ⟨0, 0⟩)) rfl hk hval rfl
      (.inl rfl) (stat hb) hm₁ hI₁).mono (fun _ _ h k' e => (h k' e).1) fun _ h => h

end Rest

/-! ### Declarations -/

/-- A declaration of constants binds each of its names, and none that was bound before. -/
theorem declareAll_binds {ns : List Node} {vs : List Slot} (hrs : m.stack.records = r :: rs)
    (hlen : ns.length = vs.length) (hl : ∀ v ∈ vs, ∃ q, v = some q)
    (h : Eval.declareAll true ns vs m = .ok () m') :
    ∃ r', m'.stack.records = r' :: rs ∧ (∀ y b, r.get? y = some b → r'.get? y = some b) ∧
      ∀ y p, .name y p ∈ ns → ∃ q, r'.get? y = some ⟨some q, true⟩ := by
  induction ns generalizing vs m r with
  | nil =>
    cases h
    exact ⟨r, hrs, fun _ _ h => h, fun _ _ h => absurd h not_mem_nil⟩
  | cons n ns ih =>
    cases vs with
    | nil => cases hlen
    | cons v vs =>
      obtain ⟨⟨q, rfl⟩, hvs⟩ := forall_mem_cons.1 hl
      have top : (currentRecord : Exec Record) m = .ok r m := by
        have hc : m.stack.current? = some r := by rw [CallStackOf.current?, hrs]; rfl
        simp only [currentRecord, bind_of_ok (rfl : (MonadState.get : Exec Machine) m = .ok m m), hc]
        rfl
      cases n with
      | name y p =>
        simp only [Eval.declareAll] at h
        rw [bind_of_ok top] at h
        split at h
        · cases h
        · rename_i hhas
          have set : (modifyStack (·.modifyTop (·.set y ⟨some q, true⟩)) : Exec Unit) m =
              .ok () { m with stack := m.stack.modifyTop (·.set y ⟨some q, true⟩) } := rfl
          rw [bind_of_ok set] at h
          have records : (m.stack.modifyTop (·.set y ⟨some q, true⟩)).records =
              r.set y ⟨some q, true⟩ :: rs := by
            simp only [CallStackOf.modifyTop, hrs]
          obtain ⟨r', hr', kept, bound⟩ := ih (m := { m with stack := _ }) records
            (Nat.succ.inj hlen) hvs h
          refine ⟨r', hr', fun z b hz => kept z b ?_, fun z p' hz => ?_⟩
          · rw [RecordOf.get?_set]
            split
            · subst z
              exact absurd (Option.isSome_iff_exists.2 ⟨b, hz⟩) hhas
            · exact hz
          · rcases mem_cons.1 hz with e | hz
            · cases e
              exact ⟨q, kept y _ (by rw [RecordOf.get?_set, if_pos rfl])⟩
            · exact bound z p' hz
      | _ => cases h

theorem visit_declare_binds {names : List Node} {inits : Option (List Node)} {p : Position} {n : Nat}
    {v : Slot} (hm : m.Good (.free m.level) none) (hs : (Node.declare names inits true p).IsStat)
    (h : Eval.visit n (.declare names inits true p) m = .ok v m') {y : String} {p' : Position}
    (hy : .name y p' ∈ names) : ∃ q, m'.Binds m'.stack.records.length y q := by
  cases n with
  | zero => cases h
  | succ n =>
    obtain ⟨_, m₁, h, rest⟩ := exists_of_bind_eq_ok h
    cases rest
    obtain ⟨vs, m₁, values, h⟩ := exists_of_bind_eq_ok h
    have visits := visits_visitCut (Setting.closed_free m.level)
      (Setting.spared_free m.level fun _ _ _ => false) n
    rw [Eval.visitCut_false] at visits
    cases hs with
    | declare hn hi =>
      obtain ⟨hm₁, -, count, live⟩ :=
        (wp_of_ok values).1 (Runs.valuesFor (S := []) visits _ (fun e he => .unwatched rfl (hi e he) trivial) hm)
      obtain ⟨r, rs, hrs⟩ := Runs.exists_records hm₁
      have cells : ∀ v ∈ vs, ∃ q, v = some q := fun v hv => by
        obtain ⟨q, e, -⟩ := live v hv
        exact ⟨q, e⟩
      obtain ⟨r', hr', -, bound⟩ := declareAll_binds hrs count.symm cells h
      obtain ⟨q, hq⟩ := bound y p' hy
      refine ⟨q, r', ?_, hq⟩
      rw [hr', length_cons, CallStackOf.record?_succ, hr', reverse_cons]
      simp

/-! ### The rest of a run -/

/-- Runs are cut short before compound assignments to what is kept in the cell `q`. -/
def Spares (stop : Nat → Node → Machine → Bool) (q : Ref) : Prop :=
  ∀ k op t e p m m', Eval.visit k t m = .ok (some q) m' → stop k (.update op t e p) m = true

/-- Cuts runs short just there. -/
def sparing (q : Ref) (k : Nat) (node : Node) (m : Machine) : Bool :=
  match node with
  | .update _ target _ _ =>
    match Eval.visit k target m with
    | .ok (some r) _ => r = q
    | _ => false
  | _ => false

theorem spares_sparing (q : Ref) : Spares (sparing q) q := by
  intro k op t e p m m' h
  simp only [sparing, h, decide_true]

theorem Spares.spared {stop : Nat → Node → Machine → Bool} (h : Spares stop q) (level : Int) :
    Setting.Spared ⟨fun _ => True, level, (· = q), none⟩ stop := by
  rintro k op t e p m - hgo r m₁ hr rfl
  have := h k op t e p m m₁ (visit_of_visitCut hr)
  rw [hgo] at this
  cases this

/-- Which cells are frozen is of no matter to a machine. -/
theorem MachineOf.Good.freeze (hm : m.Good (.free m.level) none) (frozen : Ref → Prop) :
    m.Good ⟨fun _ => True, m.level, frozen, none⟩ none :=
  ⟨⟨hm.store.sound, hm.store.made, hm.store.keyed⟩, hm.records, hm.program, rfl, hm.shows⟩

theorem MachineOf.Binds.lt (hb : m.Binds i x q) (hm : m.Good c W) : q.index < m.store.cells.size := by
  obtain ⟨r, hr, hx⟩ := hb
  have mem : r ∈ m.stack.records := by
    unfold CallStackOf.record? at hr
    split at hr
    · cases hr
    · exact mem_reverse.1 (mem_of_getElem? hr)
  exact (hm.records r mem).sound.lookup hx rfl

/-- Every name that a statement declares as a constant is bound to a cell. In whatever is run from
then on until its record is left, the name stays bound to that cell, and unless a list or map is in
it, the cell keeps its type and text up to the first compound assignment to it. -/
theorem constants_stay {m₀ m : Machine} {s : Node} {n : Nat} {v : Slot}
    (hm : Reachable Node.IsProgram m₀) (hs : s.IsStat) (h : Eval.visit n s m₀ = .ok v m) :
    (∀ names inits p y p', s = .declare names inits true p → .name y p' ∈ names →
      ∃ q, m.Binds m.stack.records.length y q) ∧
    ∀ stop k S act, Rest (Eval.visitCut stop k) m S act →
      ∀ i x q, m.Binds i x q → (x ∈ S → i < m.stack.records.length) →
        wp act (fun _ m' => m'.Binds i x q) (fun _ m' => m'.Binds i x q) m ∧
        ((m.store.get q).isContainer = false → Spares stop q →
          wp act (fun _ m' => m'.store.look (some q) = m.store.look (some q))
            (fun _ m' => m'.store.look (some q) = m.store.look (some q)) m) := by
  have hm₀ := good_of_reachable hm
  have visits := visits_visitCut (Setting.closed_free m₀.level)
    (Setting.spared_free m₀.level fun _ _ _ => false) n
  rw [Eval.visitCut_false] at visits
  have good : m.Good (.free m.level) none := by
    obtain ⟨hg, -⟩ := (wp_of_ok h).1 (visits.stat (S := []) (.unwatched rfl hs trivial) hm₀)
    rw [hg.level]
    exact hg
  refine ⟨fun names inits p y p' e hy => ?_, fun stop k S act hr i x q hb hS => ⟨?_, fun hv hq => ?_⟩⟩
  · subst e
    exact visit_declare_binds hm₀ hs h hy
  · have visits := visits_visitCut (Setting.closed_free m.level) (Setting.spared_free m.level stop) k
    exact (hr.runs visits (fun _ => trivial) rfl good).binds hb hS
  · -- the cell is frozen up to where the run is cut
    have visits := visits_visitCut (fun _ _ _ _ => trivial) (hq.spared m.level) k
    have frozen := good.freeze (· = q)
    exact (hr.runs visits (fun _ => trivial) rfl frozen).look (hb.lt good) rfl hv

/-- A declaration of the constant `a`, which is 1. -/
def declareOne : Node :=
  .declare [.name "a" ⟨1, 7⟩] (some [.number "1" true ⟨1, 11⟩]) true ⟨1, 1⟩

/-- The first machine after it. -/
def declaredOne : Machine := leaves (Eval.visit 3 declareOne) (leaves Host.boot {})

theorem isStat_declareOne : declareOne.IsStat := by
  refine .declare (fun x hx => ?_) fun e he => ?_
  · rw [mem_singleton.1 hx]
    exact ⟨_, _, rfl⟩
  · rw [mem_singleton.1 he]
    exact .number

theorem reachable_boot : Reachable Node.IsProgram (leaves Host.boot {}) := .boot [] 1 (by decide +kernel)

theorem visit_declareOne : ∃ v, Eval.visit 3 declareOne (leaves Host.boot {}) = .ok v declaredOne :=
  eq_ok_of_succeeds (by decide +kernel)

theorem binds_declaredOne : declaredOne.Binds 1 "a" ⟨12⟩ := by
  have bound : (declaredOne.stack.record? 1).bind (·.get? "a") = some ⟨some ⟨12⟩, true⟩ := by
    decide +kernel
  exact Option.bind_eq_some_iff.1 bound

/-- `a += 1` -/
def addToA : Node := .update .selfAdd (.name "a" ⟨2, 1⟩) (.number "1" true ⟨2, 6⟩) ⟨2, 3⟩

/-- `var b = 2` -/
def declareB : Node := .declare [.name "b" ⟨2, 5⟩] (some [.number "2" true ⟨2, 9⟩]) false ⟨2, 1⟩

/-- `b += 1` -/
def addToB : Node := .update .selfAdd (.name "b" ⟨3, 1⟩) (.number "1" true ⟨3, 6⟩) ⟨3, 3⟩

theorem isStat_declareB : declareB.IsStat := by
  refine .declare (fun x hx => ?_) fun e he => ?_
  · rw [mem_singleton.1 hx]
    exact ⟨_, _, rfl⟩
  · rw [mem_singleton.1 he]
    exact .number

/-- With `var b = 2`, the assignment `b += 1` is made, and `a = b` is refused. -/
def reassigned : List Node :=
  [declareB, addToB, .assign [.name "a" ⟨4, 1⟩] [.name "b" ⟨4, 5⟩] ⟨4, 3⟩]

theorem constants_stay_reassigned :
    halt? (Eval.runAll (Eval.visitCut (sparing ⟨12⟩) 5) reassigned) declaredOne =
      some (.failed (.report ⟨.interpreter, ⟨4, 1⟩, .nameNotAssignable "a"⟩)) ∧
    (leaves (Eval.runAll (Eval.visitCut (sparing ⟨12⟩) 5) reassigned) declaredOne).Binds 1 "a" ⟨12⟩ ∧
    (leaves (Eval.runAll (Eval.visitCut (sparing ⟨12⟩) 5) reassigned) declaredOne).store.look
      (some ⟨12⟩) = declaredOne.store.look (some ⟨12⟩) := by
  have halts : halt? (Eval.runAll (Eval.visitCut (sparing ⟨12⟩) 5) reassigned) declaredOne =
      some (.failed (.report ⟨.interpreter, ⟨4, 1⟩, .nameNotAssignable "a"⟩)) := by decide +kernel
  have stats : ∀ s ∈ reassigned, s.IsStat := by
    simp only [reassigned, List.forall_mem_cons]
    refine ⟨isStat_declareB, .update .name .number, .assign ?_ ?_,
      fun _ h => absurd h List.not_mem_nil⟩ <;>
    · intro e he
      rw [List.mem_singleton.1 he]
      exact .name
  have plain : (declaredOne.store.get ⟨12⟩).isContainer = false := by decide +kernel
  obtain ⟨v, declared⟩ := visit_declareOne
  have ran := eq_error_of_halt? halts
  have stays := (constants_stay reachable_boot isStat_declareOne declared).2 (sparing ⟨12⟩) 5 [] _
    (.program stats) 1 "a" ⟨12⟩ binds_declaredOne (fun h => absurd h List.not_mem_nil)
  generalize declaredOne = m at *
  refine ⟨halts, (wp_of_error ran).1 stays.1, ?_⟩
  exact (wp_of_error ran).1 (stays.2 plain (spares_sparing _))

/-- Not all that is run leaves a constant as it was: `a += 1` makes 2 of `a`. -/
theorem not_forall_look_const : ¬∀ {m₀ m : Machine} {names : List Node} {inits : Option (List Node)}
    {p p' : Position} {y : String} {n k : Nat} {v : Slot} {q : Ref} {ss : List Node},
    Reachable Node.IsProgram m₀ → (Node.declare names inits true p).IsStat →
    Eval.visit n (.declare names inits true p) m₀ = .ok v m → .name y p' ∈ names →
    m.Binds m.stack.records.length y q → (m.store.get q).isContainer = false →
    (∀ s ∈ ss, s.IsStat) →
    wp (Eval.runAll (Eval.visit k) ss) (fun _ m' => m'.store.look (some q) = m.store.look (some q))
      (fun _ m' => m'.store.look (some q) = m.store.look (some q)) m := by
  intro all
  obtain ⟨v, declared⟩ := visit_declareOne
  obtain ⟨_, ran⟩ := eq_ok_of_succeeds
    (x := Eval.runAll (Eval.visit 5) [addToA]) (m := declaredOne) (by decide +kernel)
  have stats : ∀ s ∈ [addToA], s.IsStat := by
    intro s hs
    rw [mem_singleton.1 hs]
    exact .update .name .number
  have length : declaredOne.stack.records.length = 1 := by decide +kernel
  have bound : declaredOne.Binds declaredOne.stack.records.length "a" ⟨12⟩ := by
    rw [length]
    exact binds_declaredOne
  have same := all (k := 5) reachable_boot isStat_declareOne declared (List.mem_singleton.2 rfl) bound
    (by decide +kernel) stats
  exact absurd ((wp_of_ok ran).1 same) (by decide +kernel)

end TinyScript
