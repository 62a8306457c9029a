import TinyScript.Proofs.Failures
import TinyScript.Proofs.Formed
import TinyScript.Proofs.LongestMatch

/-!
# Every node of a parsed tree

`Node.WellFormed` is what the parser promises of a node: lists that belong together are of the same length,
lists that are there are not empty, operators are operators and no powers, names are no reserved
words, and only names and their members are assigned to. Main statement
(`wellFormed_of_parse`): it holds of every node of the tree of a text, at any depth.

So an assignment fails no assertion of its own: one that fails while it is run fails in the run of a node
inside it, and a program that makes no calls fails none.
-/

namespace TinyScript

open List

open Lexeme (Scanned)

variable {l : Lexeme} {tree n : Node} {m' : Machine}

namespace TokenKind

/-- The operators that stand between their operands. -/
def dyadics : List TokenKind :=
  [.kwOr, .kwAnd, .kwIn, .kwIs, .eq, .ne, .lt, .le, .gt, .ge, .bor, .bxor, .band, .bshl, .bshr, .add,
   .sub, .mul, .div, .mod, .pow]

end TokenKind

/-- A word that is not reserved. -/
def IsIdentifier (x : String) : Prop :=
  (∃ c cs, x.toList = c :: cs ∧ Text.isWordStart c = true ∧ ∀ d ∈ cs, Text.isWordChar d = true) ∧
    ∀ k ∈ TokenKind.keywords, k.spelling ≠ x

namespace Node

/-- A name, or a member that is reached from a name. -/
def rooted : Node → Bool
  | .name .. => true
  | .access base .. => base.rooted
  | _ => false

def isFunction : Node → Bool
  | .funcDef .. => true
  | _ => false

/-- What holds of a node by itself, whatever its parts are made of. -/
def WellFormed : Node → Prop
  | .program stats | .block stats _ => .empty ∉ stats
  | .declare names inits _ _ => names ≠ [] ∧ (∀ x ∈ names, x.IsName) ∧ inits ≠ some []
  | .branch conds bodies _ => conds.length = bodies.length ∧ conds ≠ []
  | .switch _ cases bodies _ _ => cases.length = bodies.length ∧ cases ≠ []
  | .assign targets sources _ => targets ≠ [] ∧ sources ≠ [] ∧ ∀ t ∈ targets, t.rooted = true
  | .update op target _ _ => op ∈ TokenKind.updates ∧ op ≠ .selfPow ∧ target.rooted = true
  | .funcDef _ vararg body _ => vararg = false ∧ .empty ∉ body
  | .call callee args _ => (callee.rooted = true ∨ callee.isFunction = true) ∧ args ≠ some []
  | .binary op _ _ _ => op ∈ TokenKind.dyadics ∧ op ≠ .pow
  | .unary op _ _ => op ∈ TokenKind.unaries
  | .mapOf keys values _ => keys.length = values.length
  | .access _ key dot _ => dot = true → ∃ x p, key = .string x p
  | .name x _ => IsIdentifier x
  | _ => True

end Node

/-! ### Tokens of a text -/

/-- No text is read as a power. -/
theorem Scan.Spells.kind_ne_pow {span rest : List Char} (h : Scan.Spells span l rest) :
    l.kind ≠ .pow ∧ l.kind ≠ .selfPow := by
  cases h with
  | int | float | string => exact ⟨TokenKind.noConfusion, TokenKind.noConfusion⟩
  | @word c cs =>
    have hwords : ∀ k ∈ .identifier :: TokenKind.keywords, k ≠ .pow ∧ k ≠ .selfPow := by decide
    exact hwords _ (Scan.ofWord_mem _)
  | @operator k _ h =>
    have hstars {w : List Char} (hw : k.spelling.toList = '*' :: '*' :: w) : k = .mul := by
      rw [hw] at h
      exact (Option.some.inj ((Scan.firstOperator?_stars _).symm.trans h)).symm
    constructor
    · rintro rfl
      cases hstars rfl
    · rintro rfl
      cases hstars rfl

theorem Lexeme.Scanned.kind_ne_pow (h : l.Scanned) : l.kind ≠ .pow ∧ l.kind ≠ .selfPow := by
  rcases h with h | ⟨span, rest, hs, -⟩
  · rw [h]
    exact ⟨by decide, by decide⟩
  · exact hs.kind_ne_pow

theorem TokenKind.spelling_ne_of_ofWord {w : String} (h : ofWord w = .identifier) :
    ∀ k ∈ keywords, k.spelling ≠ w := by
  intro k hk hspelling
  have hwords : .identifier ∉ keywords := by decide
  unfold ofWord at h
  cases hf : keywords.find? (·.spelling == w) with
  | none =>
    have hno := List.find?_eq_none.1 hf k hk
    rw [hspelling, beq_self_eq_true] at hno
    exact hno rfl
  | some k' =>
    rw [hf, Option.getD_some] at h
    rw [h] at hf
    exact hwords (mem_of_find?_eq_some hf)

theorem TextOf.isIdentifier {x : String} (h : TextOf Scanned .identifier x) : IsIdentifier x := by
  obtain ⟨l, hl, hk, rfl⟩ := h
  rcases hl with he | ⟨span, rest, hs, -⟩
  · rw [hk] at he
    cases he
  cases hs with
  | int | float | string => cases hk
  | @word c cs _ _ hc hcs _ =>
    exact ⟨⟨c, cs, String.toList_ofList, hc, hcs⟩, TokenKind.spelling_ne_of_ofWord hk⟩
  | @operator k _ hf =>
    obtain rfl : k = .identifier := hk
    have hops : .identifier ∉ TokenKind.operators := by decide
    exact absurd (mem_of_find?_eq_some hf) hops

namespace Node

variable {n : Node} {r : Role}
variable {L : Lexeme → Prop}

/-! ### Nodes that the grammar builds -/

theorem Formed.rooted (h : Formed L r n) (hr : r = .place) : n.rooted = true := by
  induction h with
  | name => rfl
  | item _ _ ih => exact ih rfl
  | field _ _ ih => exact ih rfl
  | _ => cases hr

theorem Formed.isFunction (h : Formed L r n) (hr : r = .function) : n.isFunction = true := by
  cases h with
  | funcDef => rfl
  | _ => cases hr

theorem Formed.wellFormed (h : Formed Scanned r n) : n.WellFormed := by
  have power {op : TokenKind} (ht : ∃ x, TextOf Scanned op x) : op ≠ .pow ∧ op ≠ .selfPow := by
    obtain ⟨x, l, hl, rfl, -⟩ := ht
    exact hl.kind_ne_pow
  induction h with
  | name hx => exact hx.isIdentifier
  | item => exact fun hdot => by cases hdot
  | field => exact fun _ => ⟨_, _, rfl⟩
  | funcDef _ _ he => exact ⟨rfl, he⟩
  | call hr hc hne =>
    refine ⟨?_, hne⟩
    rcases mem_cons.1 hr with rfl | hr
    · exact .inl (hc.rooted rfl)
    · exact .inr (hc.isFunction (mem_singleton.1 hr))
  | operand _ _ ih | callStat _ ih => exact ih
  | @binary op _ _ _ hop ht =>
    have hops : ∀ op ∈ .pow :: Grammar.levels.flatMap (·.ops), op ∈ TokenKind.dyadics := by decide
    exact ⟨hops op hop, (power ht).1⟩
  | unary hop => exact hop
  | mapOf hlen => exact hlen
  | block he => exact he
  | declare hne hn hin => exact ⟨hne, fun x hx => (hn x hx).isName, hin⟩
  | branch hlen hne => exact ⟨hlen, hne⟩
  | switch _ hlen hne => exact ⟨hlen, hne⟩
  | assign hne ht hsn => exact ⟨hne, hsn, fun t h => (ht t h).rooted rfl⟩
  | update hop ho ht => exact ⟨hop, (power ho).2, ht.rooted rfl⟩
  | _ => trivial

/-- What can stand in a tree: a hole, the field of a member, or what the grammar builds. -/
inductive Built : Node → Prop
  | missing : Built .missing
  | field {x : String} {p : Position} : Built (.string x p)
  | formed {r : Role} {n : Node} (h : Formed Scanned r n) : Built n
  | program {stats : List Node} (h : FormedProgram stats) : Built (.program stats)

theorem Built.wellFormed (h : Built n) : n.WellFormed := by
  cases h with
  | missing => trivial
  | field => trivial
  | formed h => exact h.wellFormed
  | program h => exact h.empty

theorem Built.optional (h : n ≠ .missing → Formed Scanned r n) : Built n := by
  by_cases hn : n = .missing
  · rw [hn]
    exact .missing
  · exact .formed (h hn)

theorem NameOf.built (h : NameOf Scanned n) : Built n := .formed (NameOf.formed h)

theorem Formed.built_parts (h : Formed Scanned r n) : ∀ k ∈ n.parts, Built k := by
  have all {r : Role} {ns : List Node} (h : ∀ n ∈ ns, Formed Scanned r n) : ∀ n ∈ ns, Built n :=
    fun n hn => .formed (h n hn)
  have names {ns : List Node} (h : ∀ n ∈ ns, NameOf Scanned n) : ∀ n ∈ ns, Built n :=
    fun n hn => (h n hn).built
  induction h with
  | operand _ _ ih | callStat _ ih => exact ih
  | item hb hk => simpa [parts] using ⟨.formed hb, .formed hk⟩
  | field hb => simpa [parts] using ⟨.formed hb, .field⟩
  | funcDef _ hp _ hb => exact forall_mem_append.2 ⟨names hp, all hb⟩
  | call _ hc _ ha => exact forall_mem_cons.2 ⟨.formed hc, all ha⟩
  | select hc hy hn => simpa [parts] using ⟨.formed hc, .formed hy, .formed hn⟩
  | binary _ _ hl hr => simpa [parts] using ⟨.formed hl, .formed hr⟩
  | unary _ _ ho => simpa [parts] using .formed ho
  | listOf _ hi => exact all hi
  | setOf _ hi => exact all hi
  | mapOf _ hk hv => exact forall_mem_append.2 ⟨all hk, all hv⟩
  | block _ hs => exact all hs
  | declare _ hn _ hi => exact forall_mem_append.2 ⟨names hn, all hi⟩
  | branch _ _ hc hb => exact forall_mem_append.2 ⟨all hc, all hb⟩
  | switch hs _ _ hc hb hf =>
    refine forall_mem_cons.2 ⟨.formed hs, forall_mem_cons.2 ⟨.optional hf, ?_⟩⟩
    exact forall_mem_append.2 ⟨all hc, all hb⟩
  | repeatUntil hc hb | whileLoop hc hb => simpa [parts] using ⟨.formed hc, .formed hb⟩
  | forRange hv hs he hd hb =>
    simpa [parts] using ⟨hv.built, .formed hs, .formed he, .optional hd, .formed hb⟩
  | forEach hk hv hs hb =>
    simpa [parts] using ⟨hk.built, .optional fun h => NameOf.formed (hv h), .formed hs, .formed hb⟩
  | returnValue he => simpa [parts] using .optional he
  | assign _ ht _ hs => exact forall_mem_append.2 ⟨all ht, all hs⟩
  | update _ _ ht hs => simpa [parts] using ⟨.formed ht, .formed hs⟩
  | _ => simp [parts]

theorem Built.of_occurs (ht : Built tree) (h : tree.Occurs n) : Built n := by
  induction h with
  | self => exact ht
  | part _ hk ih =>
    cases ih with
    | missing | field => cases hk
    | formed h => exact h.built_parts _ hk
    | program h => exact .formed (h.formed _ hk)

end Node

/-! ### Assertions in assignments -/

namespace Exec

variable {α β : Type}

/-- The halt of a run in which an assertion fails. -/
abbrev assertionFailed : Halt := .failed (.fault .assertion)

/-- What is a list or map before the action is one after it. -/
def KeepsContainers (x : Exec α) : Prop :=
  ∀ m a m', x m = .ok a m' → ∀ y, m.store.IsContainer y → m'.store.IsContainer y

/-- From `m` on the action fails no assertion. -/
def Sure (x : Exec α) (m : Machine) : Prop := wp x (fun _ _ => True) (fun e _ => e ≠ assertionFailed) m

/-- The action fails no assertion, and keeps lists and maps. -/
structure Calm (x : Exec α) : Prop where
  asserts : ∀ m m', x m ≠ .error assertionFailed m'
  keeps : KeepsContainers x

variable {x : Exec α} {f : α → Exec β} {m : Machine}

theorem Sure.ne_error (h : Sure x m) (m' : Machine) : x m ≠ .error assertionFailed m' :=
  fun hx => (wp_of_error hx).1 h rfl

theorem Sure.pure (a : α) : Sure (Pure.pure a : Exec α) m := (wp_pure a).2 trivial

theorem Sure.report (p : Position) (i : Issue) : Sure (Exec.report p i : Exec α) m :=
  (wp_throw _).2 (by simp)

theorem Sure.reportAt (n : Node) (i : Issue) : Sure (Exec.reportAt n i : Exec α) m := by
  unfold Exec.reportAt
  split
  · exact .report _ _
  · exact (wp_throw _).2 (by simp)

theorem Sure.bind (hx : Sure x m) (hf : ∀ a m', Sure (f a) m') : Sure (x >>= f) m :=
  wp_bind.2 (wp_mono hx (fun a m' _ => hf a m') fun _ _ h => h)

theorem Sure.get {f : Machine → Exec β} (hf : Sure (f m) m) : Sure (MonadState.get >>= f) m :=
  wp_bind.2 (wp_get.2 hf)

theorem Calm.bind (hx : Calm x) (hf : ∀ a m', (∀ y, m.store.IsContainer y → m'.store.IsContainer y) →
    Sure (f a) m') : Sure (x >>= f) m := by
  refine wp_bind.2 ?_
  cases e : x m with
  | ok a m' => exact (wp_of_ok e).2 (hf a m' (hx.keeps m a m' e))
  | error h m' =>
    refine (wp_of_error e).2 fun he => hx.asserts m m' ?_
    rw [e, he]

theorem Sure.mem {z : Mem α} (hz : ∀ s, z m.store ≠ .error (.fault .assertion) s) : Sure (Exec.mem z) m := by
  cases e : z m.store with
  | ok a s =>
    have h : Exec.mem z m = .ok a { m with store := s } := by simp only [Exec.mem, e]
    exact (wp_of_ok h).2 trivial
  | error f s =>
    have h : Exec.mem z m = .error (.failed f) { m with store := s } := by simp only [Exec.mem, e]
    refine (wp_of_error h).2 fun hf => hz s ?_
    cases hf
    exact e

theorem Sure.onMember (hx : Sure x m) (p : Position) :
    Sure (Exec.onMember (fun e => Exec.report p (.member e)) x) m := by
  rcases Handled.member.turn_cases (fun e => Exec.report p (.member e)) x m with h | ⟨e, m', -, h⟩
  · exact (wp_congr h).2 hx
  · exact (wp_of_error h).2 (by simp)

theorem Sure.setName (y : String) (p : Position) (v : Slot) (force : Bool) :
    Sure (Exec.setName y p v force) m := by
  unfold Exec.setName
  refine .get ?_
  split
  · exact .report _ _
  · split
    · exact .report _ _
    · exact (wp_modifyStack _).2 trivial

end Exec

namespace Mem

variable {α β : Type} {e : Failure} {s : Store}

theorem get_bind_ne {f : Store → Mem α} {s' : Store} (hf : f s s ≠ .error e s') :
    (get >>= f) s ≠ .error e s' := hf

theorem ofExcept_bind_ne {x : Except Failure α} {f : α → Mem β} {X : Failure → Prop} (hx : FailsOnly X x)
    (he : ¬X e) (hf : ∀ a s', f a s ≠ .error e s') (s' : Store) :
    (do let a ← ofExcept x; f a) s ≠ .error e s' := by
  cases x with
  | ok a => exact hf a s'
  | error g =>
    intro h
    cases h
    exact he (hx e rfl)

/-- The assertion in setting a member is about values that have no members. -/
theorem setMember_ne_assertion {c : Slot} (hc : s.IsContainer c) (k v : Slot) (s' : Store) :
    setMember c k v s ≠ .error (.fault .assertion) s' := by
  have written (w : Value) (s' : Store) : writeSlot c w s ≠ .error (.fault .assertion) s' := by
    cases c <;> intro h <;> cases h
  refine get_bind_ne ?_
  rcases hc with ⟨items, hc⟩ | ⟨t, hc⟩
  · rw [hc]
    exact ofExcept_bind_ne (Acts.listPlace_failsOnly _ _) (by simp [Failure.IsMember]) (fun _ => written _) s'
  · rw [hc]
    exact ofExcept_bind_ne (Acts.mapKey_failsOnly _ _) (by simp) (fun _ => written _) s'

end Mem

namespace Eval

open Exec

variable {visit : Node → Exec Slot} {m : Machine}
variable {sources targets : List Node} {p : Position}

theorem sure_valuesFor (hv : ∀ e ∈ sources, Calm (visit e)) (count : Nat) :
    Sure (valuesFor visit count sources) m := by
  induction count generalizing sources m with
  | zero => exact .pure _
  | succ count ih =>
    cases sources with
    | nil =>
      refine .bind (.mem fun s h => by cases h) fun v m₁ => ?_
      exact .bind (ih hv) fun _ _ => .pure _
    | cons e es =>
      obtain ⟨he, hes⟩ := forall_mem_cons.1 hv
      refine he.bind fun v m₁ _ => ?_
      exact .bind (ih hes) fun _ _ => .pure _

/-- The container of a member is still one when its key has been found. -/
theorem sure_assignTo {target : Node} (ht : target.rooted = true) (hv : ∀ k ∈ target.parts, Calm (visit k))
    (v : Slot) : Sure (assignTo visit target v) m := by
  cases target with
  | name x p => exact .setName x p v false
  | access base key dot p =>
    obtain ⟨hb, hk⟩ : Calm (visit base) ∧ Calm (visit key) := by simpa [Node.parts] using hv
    have member {c : Slot} {m₁ : Machine} (hc : m₁.store.IsContainer c) :
        Sure (onMember (fun e => report p (.member e)) (do
          let k ← visit key
          Exec.mem (Mem.setMember c k v))) m₁ :=
      .onMember (hk.bind fun k m₂ hkeeps => .mem (Mem.setMember_ne_assertion (hkeeps c hc) k v)) p
    refine hb.bind fun c m₁ _ => .get ?_
    split
    · exact member (.inl ⟨_, ‹_›⟩)
    · exact member (.inr ⟨_, ‹_›⟩)
    · exact .reportAt base _
  | _ => cases ht

theorem sure_assignAll (ht : ∀ t ∈ targets, t.rooted = true)
    (hv : ∀ t ∈ targets, ∀ k ∈ t.parts, Calm (visit k)) (vs : List Slot) :
    Sure (assignAll visit targets vs) m := by
  induction targets generalizing vs m with
  | nil => exact .pure ()
  | cons t ts ih =>
    cases vs with
    | nil => exact .pure ()
    | cons v vs =>
      obtain ⟨ht₁, ht₂⟩ := forall_mem_cons.1 ht
      obtain ⟨hv₁, hv₂⟩ := forall_mem_cons.1 hv
      exact .bind (sure_assignTo ht₁ hv₁ v) fun _ _ => ih ht₂ hv₂ vs

theorem sure_assign (ht : ∀ t ∈ targets, t.rooted = true)
    (hv : ∀ e ∈ targets ++ sources, ∀ k, e.Occurs k → Calm (visit k)) (rounds : Nat) :
    Sure (visitWith rounds visit (.assign targets sources p)) m := by
  obtain ⟨hvt, hvs⟩ := forall_mem_append.1 hv
  refine .bind (.bind (sure_valuesFor (fun e he => hvs e he e .self) _) fun vs m₁ => ?_) fun _ _ => .pure _
  exact sure_assignAll ht (fun t h k hk => hvt t h k (.part .self hk)) vs

/-- An assertion that fails while an assignment is run fails in a node inside it. -/
theorem exists_assertionFailed_of_assign (ht : ∀ t ∈ targets, t.rooted = true)
    (hv : ∀ k, KeepsContainers (visit k)) {rounds : Nat}
    (h : visitWith rounds visit (.assign targets sources p) m = .error assertionFailed m') :
    ∃ e ∈ targets ++ sources, ∃ k, e.Occurs k ∧ ∃ m₁ m₂, visit k m₁ = .error assertionFailed m₂ := by
  refine Classical.not_not.1 fun none => ?_
  refine (sure_assign ht (fun e he k hk => ⟨fun m₁ m₂ h₁ => ?_, hv k⟩) rounds).ne_error m' h
  exact none ⟨e, he, k, hk, m₁, m₂, h₁⟩

end Eval

namespace Node

theorem isPlace_of_rooted (h : n.rooted = true) : n.isPlace = true := by
  cases n with
  | name | access => rfl
  | _ => cases h

/-- Of the well-formed nodes only calls raise a failed assertion. -/
theorem WellFormed.exists_call (h : n.WellFormed) (hf : .fault .assertion ∈ n.raises) :
    ∃ callee args p, n = .call callee args p := by
  have operator (op : TokenKind) : .fault .assertion ∉ op.faults.map Failure.fault := by
    cases op <;> decide
  cases n with
  | call callee args p => exact ⟨callee, args, p, rfl⟩
  | assign targets sources p =>
    have places : targets.all isPlace = true := all_eq_true.2 fun t ht => isPlace_of_rooted (h.2.2 t ht)
    rw [raises, if_pos places] at hf
    cases hf
  | update op | binary op => exact absurd hf (operator op)
  | forRange =>
    rw [raises] at hf
    split at hf <;> simp at hf
  | _ => simp [raises] at hf

end Node

/-- An assertion that fails in the run of a program is raised by a node of it. -/
theorem exists_raises_of_assertionFailed {input : List Char} {level : Int} {fuel : Nat} {m : Machine}
    (hl : LogLevel.debug.shows level = false) (ht : tree.IsProgram)
    (hb : Host.boot { input := input, level := level } = .ok () m)
    (h : interpret fuel tree m = .error Exec.assertionFailed m') :
    ∃ n, tree.Occurs n ∧ .fault .assertion ∈ n.raises := by
  have good := (Exec.wp_of_ok hb).1 (good_boot (c := .ofTree tree level) input level rfl)
  have runs := runs_unwatched (S := []) (Setting.closed_ofTree tree level)
    (Setting.spared_ofTree tree level fun _ _ _ => false) rfl fuel ht .self good.1
  rw [Eval.visitCut_false] at runs
  have excused : Exec.wp (interpret fuel tree) (fun _ _ => True)
      (fun e _ => Excused (.ofTree tree level) e) m :=
    Exec.wp_bind.2 (Exec.wp_mono runs (fun _ _ _ => (Exec.wp_pure ()).2 trivial) fun _ _ h => h.2.2)
  rcases (Exec.wp_of_error h).1 excused with shown | ⟨_, _, report, -⟩ | input | deep | raised
  · rw [Setting.ofTree, hl] at shown
    cases shown
  · cases report
  · cases input
  · cases deep
  · exact raised

theorem Node.wellFormed_of_occurs {src : String} (h : parse src = .ok tree) (hn : tree.Occurs n) :
    n.WellFormed := by
  obtain ⟨-, stats, rfl, formed⟩ := formed_of_parse h
  exact (Built.of_occurs (.program formed) hn).wellFormed

/-- The nodes of a parsed text are well formed at every depth. So assignments have no assertion of their own
to fail: whatever runs the nodes, an assertion that fails in an assignment fails in the run of a node inside
it, and a program that fails one makes a call. -/
theorem wellFormed_of_parse {src : String} {tree : Node} (h : parse src = .ok tree) :
    (∀ n, tree.Occurs n → n.WellFormed) ∧
    (∀ targets sources p, tree.Occurs (.assign targets sources p) → ∀ (visit : Node → Exec Slot),
      (∀ k, (visit k).KeepsContainers) → ∀ rounds m m',
      Eval.visitWith rounds visit (.assign targets sources p) m = .error Exec.assertionFailed m' →
      ∃ e ∈ targets ++ sources, ∃ k, e.Occurs k ∧ ∃ m₁ m₂, visit k m₁ = .error Exec.assertionFailed m₂) ∧
    ∀ input level fuel m m', LogLevel.debug.shows level = false →
      Host.boot { input := input, level := level } = .ok () m →
      interpret fuel tree m = .error Exec.assertionFailed m' →
      ∃ callee args p, tree.Occurs (.call callee args p) := by
  have wellFormed {n : Node} (hn : tree.Occurs n) : n.WellFormed := Node.wellFormed_of_occurs h hn
  refine ⟨fun n => wellFormed, fun targets sources p hn visit hv rounds m m' hx => ?_, ?_⟩
  · exact Eval.exists_assertionFailed_of_assign (wellFormed hn).2.2 hv hx
  · intro input level fuel m m' hl hb hx
    obtain ⟨n, hn, hf⟩ := exists_raises_of_assertionFailed hl (isProgram_of_parse h) hb hx
    obtain ⟨callee, args, p, rfl⟩ := (wellFormed hn).exists_call hf
    exact ⟨callee, args, p, hn⟩

/-- A map whose members are assigned to, and the call of a number. -/
def calledNumber : String := "var a, f = \x7b'b' : 0\x7d, 1\na.b, a['c'] = f + 1, 2\na.b += 1\nf(a)"

/-- The assertion of the call fails; the statements before it are well formed. -/
theorem wellFormed_of_parse_call :
    parse calledNumber = .ok (treeOf calledNumber) ∧
    (∀ n ∈ (treeOf calledNumber).parts, n.WellFormed) ∧ (treeOf calledNumber).parts.length = 4 ∧
    (∃ m', interpret 9 (treeOf calledNumber) (Exec.leaves Host.boot {}) = .error Exec.assertionFailed m') ∧
    ∃ callee args p, (treeOf calledNumber).Occurs (.call callee args p) := by
  have parsed : parse calledNumber = .ok (treeOf calledNumber) := parse_eq_treeOf (by decide +kernel)
  obtain ⟨_, booted⟩ := Exec.eq_ok_of_succeeds (x := (Host.boot : Exec Unit)) (m := {}) (by decide +kernel)
  have failed := Exec.eq_error_of_halt? (x := interpret 9 (treeOf calledNumber))
    (m := Exec.leaves Host.boot {}) (e := Exec.assertionFailed) (by decide +kernel)
  obtain ⟨wellFormed, -, call⟩ := wellFormed_of_parse parsed
  refine ⟨parsed, fun n hn => wellFormed n (.part .self hn), by decide +kernel, ⟨_, failed⟩, ?_⟩
  exact call _ _ 9 _ _ (by decide) booted failed

end TinyScript
