import TinyScript.Proofs.Formed
import TinyScript.Proofs.RunEvolution
import TinyScript.Proofs.StackDiscipline
import TinyScript.Repl

/-!
# What the steps of a session leave behind

A session at rest has the global record alone on its stack, in the normal state. Steps that end
well, and steps whose text cannot be read, leave it at rest. A step that fails when it is run may
not: the records that it was in stay on the stack, and a jump that finds nowhere to go leaves its
mark on the global record. Nothing takes them away again, so that a session that is not at rest has
a first step that failed in such a way, and never comes to rest later (`texts_resting_or_left`).
-/

namespace TinyScript

open Exec
open CallStack (ground)

variable {c : Setting} {W : View} {fuel : Nat} {src : String} {srcs : List String}

/-- Runs the texts of a session, one after the other. -/
def Repl.texts (fuel : Nat) : List String → Exec Unit
  | [] => pure ()
  | src :: rest => (Repl.runText fuel src).reporting (Repl.texts fuel rest)

/-- The global record is alone on the stack, in its normal state. -/
structure MachineOf.Resting (m : Machine) : Prop where
  alone : m.stack.frames = [("__global", .program, 1)]
  normal : ground m.stack.records = some .normal

instance (m : Machine) : Decidable m.Resting :=
  decidable_of_iff (m.stack.frames = [("__global", .program, 1)] ∧
    ground m.stack.records = some .normal) ⟨fun h => ⟨h.1, h.2⟩, fun h => ⟨h.1, h.2⟩⟩

variable {level : Int} {m m' : Machine} {e : Halt}

theorem MachineOf.Good.frames_ne_nil (hm : m.Good c W) : m.stack.frames ≠ [] := by
  simpa [CallStackOf.frames] using hm.records_ne_nil

/-! ### What one step does -/

/-- What a step that fails does to the stack. -/
structure Disturbs (e : Halt) (m m' : Machine) : Prop where
  frames : m.stack.frames <+: m'.stack.frames
  ground : m'.stack.frames = m.stack.frames → ground m'.stack.records = ground m.stack.records ∨
    e.IsStray ∧ ∃ st, st ≠ .normal ∧ ground m'.stack.records = some st

theorem BreaksOff.disturbs {S : List String} (h : BreaksOff c S e m m')
    (hf : m.stack.frames <+: m'.stack.frames) : Disturbs e m m' := by
  refine ⟨hf, fun same => ?_⟩
  obtain ⟨top, base, hr, hk, hg⟩ := h.records
  have length : m'.stack.records.length = m.stack.records.length := by
    simpa [CallStackOf.frames] using congrArg List.length same
  -- there is no room for further records
  have empty : top = [] := by
    rw [hr, List.length_append, hk.length_eq] at length
    exact List.length_eq_zero_iff.1 (by omega)
  rw [hr, empty, List.nil_append]
  exact hg.resolve_left fun h => h empty

/-- What was not at rest does not come to rest by a failure. -/
theorem Disturbs.resting (h : Disturbs e m m') (hm : m.Good c W) (hr : m'.Resting) : m.Resting := by
  have same : m'.stack.frames = m.stack.frames := by
    have hf := h.frames
    rw [hr.alone] at hf ⊢
    rcases List.prefix_cons_iff.1 hf with h₀ | ⟨l, h₁, h₂⟩
    · exact absurd h₀ hm.frames_ne_nil
    · rw [h₁, List.prefix_nil.1 h₂]
  refine ⟨same ▸ hr.alone, ?_⟩
  rcases h.ground same with hg | ⟨-, st, hst, hg⟩
  · rw [← hg, hr.normal]
  · rw [hr.normal] at hg
    exact absurd (Option.some.inj hg).symm hst

/-- A failure that disturbs a machine at rest leaves a record behind, or is a stray jump. -/
theorem Disturbs.left (h : Disturbs e m m') (hm : m.Resting) (hr : ¬m'.Resting) :
    1 < m'.stack.records.length ∨ e.IsStray := by
  by_cases same : m'.stack.frames = m.stack.frames
  · rcases h.ground same with hg | ⟨hs, -⟩
    · exact absurd ⟨same.trans hm.alone, hg.trans hm.normal⟩ hr
    · exact .inr hs
  · have hf := h.frames
    have lt : m.stack.frames.length < m'.stack.frames.length := by
      refine Nat.lt_of_le_of_ne hf.length_le fun hl => ?_
      exact same (hf.eq_of_length hl).symm
    rw [hm.alone] at lt
    exact .inl (by simpa [CallStackOf.frames] using lt)

/-- A program that is run to its end leaves the stack as it was, and one that fails may disturb it. -/
theorem wp_interpret {tree : Node} (ht : tree.IsProgram) (fuel : Nat) (hm : m.Good (.free level) none) :
    wp (interpret fuel tree) (fun _ m' => m'.Good (.free level) none ∧
        m'.stack.frames = m.stack.frames ∧ ground m'.stack.records = ground m.stack.records)
      (fun e m' => m'.Good (.free level) none ∧ Disturbs e m m') m := by
  have runs := runs_unwatched (S := []) (Setting.closed_free level)
    (Setting.spared_free level fun _ _ _ => false) rfl fuel ht trivial hm
  have balanced := balanced_visitCut (fun _ _ _ => false) fuel tree m
  rw [Eval.visitCut_false] at runs balanced
  rw [interpret, wp_bind]
  cases h : Eval.visit fuel tree m with
  | ok v m₁ =>
    obtain ⟨hm₁, hp, -⟩ := (wp_of_ok h).1 runs
    have frames := congrArg CallStackOf.frames ((wp_of_ok h).1 balanced)
    rw [CallStackOf.frames_skeleton, CallStackOf.frames_skeleton] at frames
    exact (wp_of_ok h).2 ((wp_pure ()).2 ⟨hm₁, frames, hp.ground⟩)
  | error e m₁ =>
    obtain ⟨hm₁, hb, -⟩ := (wp_of_error h).1 runs
    have frames := CallStackOf.frames_prefix ((wp_of_error h).1 balanced)
    rw [CallStackOf.frames_skeleton, CallStackOf.frames_skeleton] at frames
    exact (wp_of_error h).2 ⟨hm₁, hb.disturbs frames⟩

/-- A text that can be read is run; any other leaves the machine as it is. -/
theorem runText_cases (fuel : Nat) (src : String) (m : Machine) :
    (∃ tree, parse src = .ok tree ∧
      Repl.runText fuel src m = (do interpret fuel tree; Exec.emit "\n") m) ∨
    ∃ e, Repl.runText fuel src m = .error e m := by
  have unread : ∀ e, Exec.tree src m = .error e m → Repl.runText fuel src m = .error e m :=
    fun e h => bind_of_error h
  cases hp : parse src with
  | error e => exact .inr ⟨e, unread e (by simp only [Exec.tree, hp])⟩
  | ok tree =>
    cases hd : tree.diagram with
    | error f => exact .inr ⟨.failed f, unread _ (by simp only [Exec.tree, hp, hd])⟩
    | ok s =>
      have read : Exec.tree src m = .ok tree m := by simp only [Exec.tree, hp, hd]
      exact .inl ⟨tree, rfl, bind_of_ok read⟩

/-- How a step ends: it leaves the stack as it was, or fails while it is run. -/
theorem wp_runText (fuel : Nat) (src : String) (hm : m.Good (.free level) none) :
    wp (Repl.runText fuel src) (fun _ m' => m'.Good (.free level) none ∧
        m'.stack.frames = m.stack.frames ∧ ground m'.stack.records = ground m.stack.records)
      (fun e m' => m'.Good (.free level) none ∧ Disturbs e m m' ∧
        (m' = m ∨ ∃ tree, parse src = .ok tree ∧ interpret fuel tree m = .error e m')) m := by
  rcases runText_cases fuel src m with ⟨tree, hp, run⟩ | ⟨e, run⟩
  · refine (wp_congr run).2 (wp_bind.2 ?_)
    have ends := wp_interpret (isProgram_of_parse hp) fuel hm
    cases h : interpret fuel tree m with
    | ok v m₁ =>
      obtain ⟨hm₁, frames, hg⟩ := (wp_of_ok h).1 ends
      exact (wp_of_ok h).2 ((wp_emit _).2 ⟨hm₁.congr rfl rfl rfl, frames, hg⟩)
    | error e m₁ =>
      obtain ⟨hm₁, hd⟩ := (wp_of_error h).1 ends
      exact (wp_of_error h).2 ⟨hm₁, hd, .inr ⟨tree, hp, h⟩⟩
  · exact (wp_of_error run).2 ⟨hm, ⟨List.prefix_rfl, fun _ => .inl rfl⟩, .inl rfl⟩

/-! ### Whole sessions -/

/-- A step of a session that goes on: it ends well, or its report is written. -/
def Repl.Steps (fuel : Nat) (src : String) (m m' : Machine) : Prop :=
  Repl.runText fuel src m = .ok () m' ∨
    ∃ r m₁, Repl.runText fuel src m = .error (.failed (.report r)) m₁ ∧
      m' = { m₁ with out := m₁.out ++ (r.message ++ "\n") }

theorem Repl.texts_cons {rest : List String} :
    Repl.texts fuel (src :: rest) m = .ok () m' ↔
      ∃ m₁, Repl.Steps fuel src m m₁ ∧ Repl.texts fuel rest m₁ = .ok () m' := by
  constructor
  · intro h
    simp only [Repl.texts, Exec.reporting] at h
    split at h
    · rename_i r m₁ run
      exact ⟨_, .inr ⟨r, m₁, run, rfl⟩, h⟩
    · rename_i m₁ run
      exact ⟨m₁, .inl run, h⟩
    · rename_i hne
      exact absurd h (hne () m')
  · rintro ⟨m₁, run | ⟨r, m₂, run, rfl⟩, h⟩
    · simp only [Repl.texts, Exec.reporting, run]
      exact h
    · simp only [Repl.texts, Exec.reporting, run]
      exact h

/-- A step from a machine at rest that leaves it disturbed: it failed while its tree was run. -/
theorem Repl.Steps.left (h : Repl.Steps fuel src m m') (hg : m.Good (.free level) none) (hm : m.Resting)
    (hr : ¬m'.Resting) :
    ∃ tree r m₁, parse src = .ok tree ∧ interpret fuel tree m = .error (.failed (.report r)) m₁ ∧
      m₁.stack = m'.stack ∧ (1 < m₁.stack.records.length ∨ (Halt.failed (.report r)).IsStray) := by
  have ends := wp_runText fuel src hg
  rcases h with run | ⟨r, m₁, run, rfl⟩
  · obtain ⟨-, frames, ground⟩ := (wp_of_ok run).1 ends
    exact absurd ⟨frames.trans hm.alone, ground.trans hm.normal⟩ hr
  · obtain ⟨-, hd, same | ⟨tree, hp, hi⟩⟩ := (wp_of_error run).1 ends
    · subst same
      exact absurd ⟨hm.alone, hm.normal⟩ hr
    · refine ⟨tree, r, m₁, hp, hi, rfl, hd.left hm fun h => hr ⟨h.alone, h.normal⟩⟩

theorem Repl.Steps.keeps (h : Repl.Steps fuel src m m') (hg : m.Good (.free level) none) :
    m'.Good (.free level) none ∧ m.stack.frames <+: m'.stack.frames ∧ (m'.Resting → m.Resting) := by
  have ends := wp_runText fuel src hg
  rcases h with run | ⟨r, m₁, run, rfl⟩
  · obtain ⟨hm₁, frames, ground⟩ := (wp_of_ok run).1 ends
    refine ⟨hm₁, frames ▸ List.prefix_rfl, fun hr => ⟨frames ▸ hr.alone, ground ▸ hr.normal⟩⟩
  · obtain ⟨hm₁, hd, -⟩ := (wp_of_error run).1 ends
    exact ⟨hm₁.congr rfl rfl rfl, hd.frames, fun hr => hd.resting hg ⟨hr.alone, hr.normal⟩⟩

theorem texts_keeps (hg : m.Good (.free level) none) (h : Repl.texts fuel srcs m = .ok () m') :
    m.stack.frames <+: m'.stack.frames ∧ (m'.Resting → m.Resting) := by
  induction srcs generalizing m with
  | nil =>
    cases h
    exact ⟨List.prefix_rfl, id⟩
  | cons src rest ih =>
    obtain ⟨m₁, step, h⟩ := Repl.texts_cons.1 h
    obtain ⟨hg₁, frames, back⟩ := step.keeps hg
    obtain ⟨frames', back'⟩ := ih hg₁ h
    exact ⟨frames.trans frames', fun hr => back (back' hr)⟩

theorem resting_boot {input : List Char}
    (h : Host.boot { input := input, level := level } = .ok () m) :
    m.Good (.free level) none ∧ m.Resting := by
  obtain ⟨hg, -, r, alone, normal⟩ := (wp_of_ok h).1 (good_boot (c := .free level) input level rfl)
  have linked := (wp_of_ok h).1 (linked_boot input level)
  have bottom : m.stack.record? 1 = some r := by
    rw [CallStackOf.record?, alone]
    rfl
  obtain ⟨g, hgl, name, kind⟩ := linked.global
  rw [bottom] at hgl
  cases hgl
  refine ⟨hg, ?_, ?_⟩
  · have level := linked.levels 1 r bottom
    rw [CallStackOf.frames, alone]
    simp [name, kind, level]
  · rw [alone]
    exact congrArg some normal

/-- The first step that disturbs a session, if there is one. -/
theorem exists_left_of_texts (hg : m.Good (.free level) none) (hm : m.Resting)
    (h : Repl.texts fuel srcs m = .ok () m') (hr : ¬m'.Resting) :
    ∃ pre src post m₁ tree r m₂, srcs = pre ++ src :: post ∧
      Repl.texts fuel pre m = .ok () m₁ ∧ m₁.Resting ∧ parse src = .ok tree ∧
      interpret fuel tree m₁ = .error (.failed (.report r)) m₂ ∧
      (1 < m₂.stack.records.length ∨ (Halt.failed (.report r)).IsStray) ∧
      m₂.stack.frames <+: m'.stack.frames := by
  induction srcs generalizing m with
  | nil =>
    cases h
    exact absurd hm hr
  | cons src rest ih =>
    obtain ⟨m₁, step, h⟩ := Repl.texts_cons.1 h
    have hg₁ := (step.keeps hg).1
    by_cases hm₁ : m₁.Resting
    · obtain ⟨pre, src', post, m₂, tree, r, m₃, rfl, run, left⟩ := ih hg₁ hm₁ h
      exact ⟨src :: pre, src', post, m₂, tree, r, m₃, rfl, Repl.texts_cons.2 ⟨m₁, step, run⟩, left⟩
    · obtain ⟨tree, r, m₂, parsed, failed, same, left⟩ := step.left hg hm hm₁
      have stays := (texts_keeps hg₁ h).1
      rw [← same] at stays
      exact ⟨[], src, rest, m, tree, r, m₂, rfl, rfl, hm, parsed, failed, left, stays⟩

/-- After any number of steps a session is at rest, the global record alone on the stack and in its
normal state, or else some step of it failed while it was run, inside a record of its own or with a
jump that had nowhere to go. What it left on the stack is there from then on. -/
theorem texts_resting_or_left {input : List Char} {fuel : Nat} {srcs : List String}
    (hb : Host.boot { input := input, level := level } = .ok () m)
    (h : Repl.texts fuel srcs m = .ok () m') :
    m'.Resting ∨ ¬m'.Resting ∧ ∃ pre src post m₁ tree r m₂, srcs = pre ++ src :: post ∧
      Repl.texts fuel pre m = .ok () m₁ ∧ m₁.Resting ∧ parse src = .ok tree ∧
      interpret fuel tree m₁ = .error (.failed (.report r)) m₂ ∧
      (1 < m₂.stack.records.length ∨ (Halt.failed (.report r)).IsStray) ∧
      m₂.stack.frames <+: m'.stack.frames := by
  obtain ⟨hg, hm⟩ := resting_boot hb
  by_cases hr : m'.Resting
  · exact .inl hr
  · exact .inr ⟨hr, exists_left_of_texts hg hm h hr⟩

/-- A session whose second step fails inside a block. -/
def undeclaredInBlock : List String := ["var x = 1", "{ x = y }", "var z = 2"]

/-- The block's record is still on the stack when the third step is run. -/
theorem texts_resting_or_left_undeclared :
    (leaves (Repl.texts 9 undeclaredInBlock) (leaves Host.boot {})).stack.frames =
      [("__global", .program, 1), ("block<1:1>", .block, 2)] ∧
    ∃ pre src post m₁ tree r m₂, undeclaredInBlock = pre ++ src :: post ∧
      Repl.texts 9 pre (leaves Host.boot {}) = .ok () m₁ ∧ m₁.Resting ∧ parse src = .ok tree ∧
      interpret 9 tree m₁ = .error (.failed (.report r)) m₂ ∧
      (1 < m₂.stack.records.length ∨ (Halt.failed (.report r)).IsStray) ∧
      m₂.stack.frames <+:
        (leaves (Repl.texts 9 undeclaredInBlock) (leaves Host.boot {})).stack.frames := by
  refine ⟨by decide +kernel, ?_⟩
  obtain ⟨_, booted⟩ := eq_ok_of_succeeds (x := (Host.boot : Exec Unit)) (m := {}) (by decide +kernel)
  obtain ⟨_, ran⟩ := eq_ok_of_succeeds (x := Repl.texts 9 undeclaredInBlock)
    (m := leaves Host.boot {}) (by decide +kernel)
  exact ((texts_resting_or_left booted ran).resolve_left (by decide +kernel)).2

end TinyScript
