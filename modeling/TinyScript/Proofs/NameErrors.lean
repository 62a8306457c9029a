import TinyScript.Proofs.CheckedNames
import TinyScript.Proofs.LogLevels
import TinyScript.Proofs.RunEvolution

/-!
# Name errors after a check

A program that has been checked may still fail over a name when it is run, but only in one of the ways of
`Node.Slips`. A session begins with the names known from the start and no others, so a tree
that passes from there is run without a report about the name, if the name is watched (`not_named_of_passes`).
The argument is about runs that do not list the stack; runs that do fail with the same reports (`Mirrors`).
-/

namespace TinyScript

open Exec

variable {x : String} {level : Int}
variable {p : Position} {i : Issue} {input : List Char} {m m' : Machine} {fuel : Nat}

/-! ### Runs -/

/-- All nodes may occur, and a name is watched. -/
def Setting.watching (x : String) (level : Int) : Setting := ⟨fun _ => True, level, fun _ => False, some x⟩

theorem Node.report_notMem_raises (n : Node) (r : Report) : .report r ∉ n.raises := by
  cases n with
  | forRange _ _ _ step | assign targets =>
    rw [raises]
    split <;> simp
  | _ => simp [raises]

theorem Excused.name_ne (hl : LogLevel.debug.shows level = false)
    (h : Excused (.watching x level) (.failed (.report ⟨.interpreter, p, i⟩))) : i.name? ≠ some x := by
  intro hi
  unfold Excused at h
  rcases h with h | ⟨_, _, h, hm⟩ | h | h | ⟨n, -, h⟩
  · exact absurd h (Bool.eq_false_iff.1 hl)
  · cases h
    exact hm x hi rfl
  · cases h
  · cases h
  · exact n.report_notMem_raises _ h

/-- A program that passes is run without a report about the name. -/
theorem not_named_of_passes (hl : LogLevel.debug.shows level = false) {stats : List Node} {W : View}
    (hp : PassesAll (some x) (.start (some x)) stats W)
    (hb : Host.boot { input := input, level := level } = .ok () m)
    (h : interpret fuel (.program stats) m = .error (.failed (.report ⟨.interpreter, p, i⟩)) m') :
    i.name? ≠ some x := by
  have good := (wp_of_ok hb).1 (good_boot (c := .watching x level) input level rfl)
  have spared : (Setting.watching x level).Spared fun _ _ _ => false := fun _ _ _ _ _ _ _ _ _ _ _ h => h
  have runs := runs_program (S := []) (fun _ _ _ _ => trivial) spared fuel trivial hp good.1
  rw [Eval.visitCut_false] at runs
  have all : Does (.watching x level) [] W (interpret fuel (.program stats)) m :=
    Runs.bind runs fun _ _ hm₁ _ _ => Runs.pure hm₁ trivial
  exact ((wp_of_error h).1 all).2.2.name_ne hl

/-- What a run reports at any level, a run that does not list the stack reports too. -/
theorem exists_hidden_failure {tree : Node} {r : Report}
    (hb : Host.boot { input := input, level := level } = .ok () m)
    (h : interpret fuel tree m = .error (.failed (.report r)) m') :
    ∃ m₀ m₁ : Machine, Host.boot { input := input, level := 0 } = .ok () m₀ ∧
      interpret fuel tree m₀ = .error (.failed (.report r)) m₁ := by
  have hab : LogLevel.debug.shows 0 = true → LogLevel.debug.shows level = true := fun h => by cases h
  have start : Alike level 0 { input := input, level := level } { input := input, level := 0 } :=
    ⟨rfl, rfl, rfl, rfl, rfl⟩
  rcases Mirrors.boot hab _ _ start with same | ⟨-, -, _, _, broken, -⟩
  · rw [hb] at same
    generalize hb₀ : (Host.boot : Exec Unit) { input := input, level := 0 } = r₀ at same
    cases same with
    | @ok _ _ m₀ alike =>
      rcases Mirrors.interpret hab fuel tree _ _ alike with same | ⟨-, -, f, _, broken, unlistable⟩
      · rw [h] at same
        generalize h₀ : interpret fuel tree m₀ = r₁ at same
        cases same with
        | @error _ _ m₁ _ => exact ⟨m₀, m₁, rfl, h₀⟩
      -- a stack that cannot be listed is not reported
      · rw [h] at broken
        cases broken
        obtain ⟨_, fault⟩ := unlistable.isFault
        cases fault
  · rw [hb] at broken
    cases broken

/-- A run of a program that has been checked fails over a name only if the program slips on it. -/
theorem slips_of_name_failure {src : String} {tree : Node} {a₀ a : Analysis} {input : List Char} {fuel : Nat}
    {p : Position} {i : Issue} {m m' : Machine} (hp : parse src = .ok tree) (h₀ : a₀.scopes = [])
    (ha : analyze tree a₀ = .ok () a) (hb : Host.boot { input := input, level := level } = .ok () m)
    (h : interpret fuel tree m = .error (.failed (.report ⟨.interpreter, p, i⟩)) m')
    (hi : i.name? = some x) : tree.Slips x := by
  by_contra hT
  obtain ⟨stats, rfl, hst⟩ := isProgram_of_parse hp
  obtain ⟨o, passes⟩ := passes_of_analyze hT rfl hst h₀ ha rfl
  obtain ⟨m₀, m₁, hb₀, failed⟩ := exists_hidden_failure hb h
  exact not_named_of_passes rfl passes hb₀ failed hi

/-- Whether a check goes well. -/
def Check.succeeds (act : Check Unit) (a : Analysis) : Bool :=
  match act a with
  | .ok _ _ => true
  | .error _ _ => false

theorem Check.exists_of_succeeds {act : Check Unit} {a : Analysis} (h : act.succeeds a = true) :
    ∃ a', act a = .ok () a' := by
  unfold succeeds at h
  cases he : act a with
  | ok _ a' => exact ⟨a', rfl⟩
  | error _ _ =>
    rw [he] at h
    cases h

/-- The program goes through its check, and its run fails all the same. -/
def Missed (src : String) (i : Issue) : Prop :=
  parse src = .ok (treeOf src) ∧ (∃ a, analyze (treeOf src) {} = .ok () a) ∧
    ∃ p m', interpret 9 (treeOf src) (leaves Host.boot {}) =
      .error (.failed (.report ⟨.interpreter, p, i⟩)) m'

theorem missed_of_halt? {src : String}
    (h : (parse src).isOk = true ∧ (analyze (treeOf src)).succeeds {} = true ∧
      halt? (interpret 9 (treeOf src)) (leaves Host.boot {}) =
        some (.failed (.report ⟨.interpreter, p, i⟩))) : Missed src i :=
  ⟨parse_eq_treeOf h.1, Check.exists_of_succeeds h.2.1, p, _, eq_error_of_halt? h.2.2⟩

/-- There are programs for all the ways of slipping. -/
theorem slips_of_name_failure_missed :
    (Missed "f(1)" (.nameNotDeclared "f") ∧ (treeOf "f(1)").Slips "f") ∧
    (Missed "var a = a" (.nameNotDeclared "a") ∧ (treeOf "var a = a").Slips "a") ∧
    (Missed "if false : var a = 1 a = 2" (.nameNotDeclared "a") ∧
      (treeOf "if false : var a = 1 a = 2").Slips "a") ∧
    (Missed "var print = 1" (.nameDuplicated "print") ∧ (treeOf "var print = 1").Slips "print") ∧
    (Missed "const a = 1 a = 2" (.nameNotAssignable "a") ∧ (treeOf "const a = 1 a = 2").Slips "a") := by
  obtain ⟨_, booted⟩ := eq_ok_of_succeeds (x := (Host.boot : Exec Unit)) (m := {}) (by decide +kernel)
  have slips : ∀ {src i x}, Missed src i → i.name? = some x → Missed src i ∧ (treeOf src).Slips x := by
    intro src i x missed hi
    have ⟨parsed, ⟨_, checked⟩, _, _, failed⟩ := missed
    exact ⟨missed, slips_of_name_failure parsed rfl checked booted failed hi⟩
  exact ⟨slips (missed_of_halt? (p := ⟨1, 1⟩) (by decide +kernel)) rfl,
    slips (missed_of_halt? (p := ⟨1, 9⟩) (by decide +kernel)) rfl,
    slips (missed_of_halt? (p := ⟨1, 22⟩) (by decide +kernel)) rfl,
    slips (missed_of_halt? (p := ⟨1, 5⟩) (by decide +kernel)) rfl,
    slips (missed_of_halt? (p := ⟨1, 13⟩) (by decide +kernel)) rfl⟩

end TinyScript
