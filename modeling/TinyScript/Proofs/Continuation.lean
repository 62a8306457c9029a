import TinyScript.Proofs.BareRun
import TinyScript.Proofs.Concatenation
import TinyScript.Proofs.Formed
import TinyScript.Proofs.Fuel
import TinyScript.Proofs.Sessions

/-!
# Going on with a text

A program that has run to its end is gone on with on the same machine, or it is run from the start
together with what comes after it. Both are the same run: the statements of the joined text are those of
its two parts up to places, and places never change what a run does. What is seen of it (the output, the
global names, how it ends) is therefore the same, but for the place a report names.
-/

namespace TinyScript

open MachineOf (Like)
open Exec (leaves eq_ok_of_succeeds)
open Node

variable {m m' : Machine} {f : Position → Position} {k : Nat}

/-! ### Runs one after the other -/

theorem Eval.runAll_append (visit : Node → Exec Slot) (as bs : List Node) :
    Eval.runAll visit (as ++ bs) = (do Eval.runAll visit as; Eval.runAll visit bs) := by
  induction as with
  | nil => rfl
  | cons a as ih => simp only [List.cons_append, Eval.runAll, ih, bind_assoc]

theorem interpret_program (n : Nat) (stats : List Node) :
    interpret (n + 1) (.program stats) = Eval.runAll (Eval.visit n) stats := by
  funext m
  have hv : Eval.visit (n + 1) (.program stats) =
      Eval.statement (Eval.runAll (Eval.visit n) stats) := rfl
  simp only [interpret, hv, Eval.statement, bind_assoc, pure_bind]
  exact congrFun (bind_pure _) m

theorem interpret_mono {n n' : Nat} (h : n ≤ n') {tree : Node} (hr : interpret n tree m = .ok () m') :
    interpret n' tree m = .ok () m' := by
  obtain ⟨v, m₁, hv, hm⟩ := exists_of_bind_eq_ok hr
  cases hm
  exact Exec.bind_of_ok (visit_mono h hv)

/-- Lists of statements that differ in places only are run alike. -/
theorem agreeBare_runAll (n : Nat) {as bs : List Node} (h : as.map bare = bs.map bare) :
    AgreeBare (Eval.runAll (Eval.visit n) as) (Eval.runAll (Eval.visit n) bs) := by
  induction as generalizing bs with
  | nil =>
    obtain rfl := List.map_eq_nil_iff.1 h.symm
    exact fun _ => .pure _
  | cons a as ih =>
    obtain ⟨b, bs, rfl, hb, hbs⟩ := List.map_eq_cons_iff.1 h.symm
    exact fun i => (agreeBare_visit n hb.symm i).bind fun _ => ih hbs.symm i

/-! ### What is seen of a run -/

/-- What there is to see of the global names: the name, the type and the text of its value, and
whether it is a constant. -/
def MachineOf.globals (m : Machine) : List (String × (Option String × Option String) × Bool) :=
  (m.stack.records.getLast?.elim [] RecordOf.members).map fun (x, b) =>
    (x, m.store.look b.value, b.isConst)

theorem Store.look_bare (s : Store) (x : Slot) : s.bare.look x = s.look x := by
  simp only [look, get?_bare, text_bare]
  rcases s.get? x with _ | v
  · rfl
  · cases v <;> rfl

theorem Above.members_getLast {rs rs' : List Record} (h : Above f NoRecords k rs rs') :
    rs.getLast?.elim [] RecordOf.members = rs'.getLast?.elim [] RecordOf.members := by
  induction h with
  | base h => rw [h.1, h.2]
  | cons h hs ih =>
    cases hs with
    | base hs =>
      obtain ⟨rfl, rfl⟩ := hs
      exact h.members
    | cons _ _ => simpa only [List.getLast?_cons_cons] using ih

theorem MachineOf.Like.globals (h : Like f NoRecords k m m') : m.globals = m'.globals := by
  have hlook : m.store.look = m'.store.look :=
    h.store.congr_store Store.look fun s => funext s.look_bare
  unfold MachineOf.globals
  rw [hlook, h.records.members_getLast]

/-- The runs end in the same way, with the same output and the same global names: well, with failures
that differ in the place they name, or not yet. -/
inductive SeenAlike : EStateM.Result Halt Machine Unit → EStateM.Result Halt Machine Unit → Prop
  | ok {m m' : Machine} (out : m.out = m'.out) (globals : m.globals = m'.globals) :
      SeenAlike (.ok () m) (.ok () m')
  | failed {f f' : Failure} {m m' : Machine} (failure : f.bare = f'.bare) (out : m.out = m'.out)
      (globals : m.globals = m'.globals) : SeenAlike (.error (.failed f) m) (.error (.failed f') m')
  | outOfFuel {m m' : Machine} (out : m.out = m'.out) (globals : m.globals = m'.globals) :
      SeenAlike (.error .outOfFuel m) (.error .outOfFuel m')

theorem Ends.seenAlike {j : Nat} {r r' : EStateM.Result Halt Machine Unit} (h : Ends f NoRecords j r r') :
    SeenAlike r r' := by
  cases h with
  | ok hm => exact .ok hm.out hm.globals
  | @error e e' m m' _ hm he =>
    have he := he.1
    cases e with
    | outOfFuel =>
      cases e' with
      | outOfFuel => exact .outOfFuel hm.out hm.globals
      | failed f' => cases he
    | failed f =>
      cases e' with
      | outOfFuel => cases he
      | failed f' => exact .failed (Halt.failed.inj he) hm.out hm.globals

/-- A session that has run one text to its end goes on with a second one as a program does that is both
texts with a newline between them. -/
theorem interpret_seen_alike_concat {a b : String} {ta tb : Node} {input : List Char} {k : Nat}
    {m m₁ : Machine} (ha : parse a = .ok ta) (hb : parse b = .ok tb) (hend : ¬EndsInComment a)
    (hm : Host.boot { input := input } = .ok () m) (hrun : interpret k ta m = .ok () m₁) :
    ∃ tc, parse (a ++ "\n" ++ b) = .ok tc ∧
      ∀ fuel, k ≤ fuel → SeenAlike (interpret fuel tb m₁) (interpret fuel tc m) := by
  obtain ⟨hta, as, rfl, -⟩ := formed_of_parse ha
  obtain ⟨htb, bs, rfl, -⟩ := formed_of_parse hb
  obtain ⟨-, cs, hc, hsame⟩ := exists_parse_concat hta htb ha hb hend
  refine ⟨.program cs, hc, fun fuel hk => ?_⟩
  have hquiet : m.level < 3 := by
    rw [(resting_boot hm).1.level]
    decide
  have hfuel := interpret_mono hk hrun
  cases fuel with
  | zero => cases hfuel
  | succ n =>
    rw [interpret_program] at hfuel ⊢
    rw [interpret_program]
    -- the joined list begins as the first text does and comes to the machine the session goes on with
    have hjoin : Eval.runAll (Eval.visit n) (as ++ bs) m = Eval.runAll (Eval.visit n) bs m₁ := by
      rw [Eval.runAll_append]
      exact Exec.bind_of_ok hfuel
    rw [← hjoin]
    obtain ⟨r, rs, hrs⟩ := List.exists_cons_of_ne_nil (resting_boot hm).1.records_ne_nil
    have like : Like (fun _ => Position.start) NoRecords (rs.length + 1) m m := by
      rw [← List.length_cons, ← hrs]
      exact .refl hquiet
    exact (agreeBare_runAll n hsame.symm rs.length m m like).seenAlike

/-- A text that declares a function, and one that calls it and then fails at an unknown name. -/
def counter : String := "var n = 1\nfunc step(d) { n = n + d return n } // counts"

def counterCalls : String := "println(step(2))\nprintln(step(m))"

/-- The function keeps the places of the first text, and the failure is reported at a place of the
second one. -/
theorem interpret_seen_alike_concat_counter :
    ¬EndsInComment counter ∧ ∃ tc, parse (counter ++ "\n" ++ counterCalls) = .ok tc ∧
      ∀ fuel, 9 ≤ fuel → SeenAlike
        (interpret fuel (treeOf counterCalls)
          (leaves (interpret 9 (treeOf counter)) (leaves Host.boot {})))
        (interpret fuel tc (leaves Host.boot {})) := by
  have hend : ¬EndsInComment counter := not_endsInComment (by decide +kernel)
  have ha : parse counter = .ok (treeOf counter) := parse_eq_treeOf (by decide +kernel)
  have hb : parse counterCalls = .ok (treeOf counterCalls) := parse_eq_treeOf (by decide +kernel)
  obtain ⟨_, booted⟩ := eq_ok_of_succeeds (x := (Host.boot : Exec Unit)) (m := {}) (by decide +kernel)
  obtain ⟨_, ran⟩ := eq_ok_of_succeeds (x := interpret 9 (treeOf counter))
    (m := leaves Host.boot {}) (by decide +kernel)
  exact ⟨hend, interpret_seen_alike_concat ha hb hend booted ran⟩

end TinyScript
