import Mathlib.Logic.Basic
import TinyScript.Host
import TinyScript.Proofs.NameFlow
import TinyScript.Proofs.Scopes

/-!
# What a check shows of a name

The check of a program keeps scopes, a run keeps records, and the two do not always agree. `Slips x tree`
lists the ways in which a check may miss what a run does with the name `x`. A tree that slips in none of
them passes if its check goes well (`passes_of_analyze`): what the scopes know of the name, the records
will bind (`Fair`), and each check of a node keeps it so (`Check.Tells`).
-/

namespace TinyScript

open List

variable {e key val : Node} {isConst : Bool} {o : Option SymbolKind} {ks : List (Option SymbolKind)}

namespace Node

variable {x : String} {n : Node}

/-- The names of a declaration. -/
def declared : Node → List String
  | .declare names _ _ _ => names.filterMap ident?
  | _ => []

/-- The names that a node binds, after it has run the nodes of `early`. -/
def binds : Node → List String
  | .declare names _ _ _ => names.filterMap ident?
  | .forRange var _ _ _ _ _ => [var].filterMap ident?
  | .forEach key val _ _ _ => [key, val].filterMap ident?
  | _ => []

def early : Node → List Node
  | .declare _ inits _ _ => inits.getD []
  | .forRange _ start stop step _ _ => [start, stop, step]
  | .forEach _ _ subject _ _ => [subject]
  | _ => []

theorem mem_parts_of_early (h : e ∈ n.early) : e ∈ n.parts := by
  cases n with
  | declare => exact mem_append_right _ h
  | forRange =>
    simp only [early, mem_cons, not_mem_nil, or_false] at h
    rcases h with rfl | rfl | rfl <;> simp [parts]
  | forEach =>
    simp only [early, mem_cons, not_mem_nil, or_false] at h
    subst h
    simp [parts]
  | _ => exact absurd h not_mem_nil

/-- The statements that are run as a whole, or not at all, or again and again. -/
def bodies : Node → List Node
  | .branch _ bodies _ => bodies
  | .switch _ _ bodies fallback _ => fallback :: bodies
  | .repeatUntil _ body _ | .whileLoop _ body _ | .forRange _ _ _ _ body _
  | .forEach _ _ _ body _ => [body]
  | _ => []

/-- The name is declared as a constant. -/
def Fixes (x : String) (tree : Node) : Prop :=
  ∃ names inits p, tree.Occurs (.declare names inits true p) ∧ x ∈ names.filterMap ident?

/-- The ways in which a check may miss what a run does with a name. -/
inductive Slips (x : String) (tree : Node) : Prop
  /-- What is called is not checked. -/
  | callee {callee : Node} {args : Option (List Node)} {p : Position}
      (h : tree.Occurs (.call callee args p)) (hx : callee.Mentions x)
      (hb : callee.ident? = some x → Host.isBuiltin x = false)
  /-- What a name is declared with is checked as if the name were already declared. -/
  | early {n e : Node} (h : tree.Occurs n) (hx : x ∈ n.binds) (he : e ∈ n.early) (hm : e.Mentions x)
  /-- A declaration that is a whole body counts as one of the scope around it. -/
  | body {n b : Node} (h : tree.Occurs n) (hb : b ∈ n.bodies) (hx : x ∈ b.declared)
  /-- Names known from the start can be declared again. -/
  | builtin {s : Node} (hb : Host.isBuiltin x = true) (hs : s ∈ tree.parts) (hx : x ∈ s.declared)
  /-- Constants count as variables. -/
  | constant {targets sources : List Node} {p : Position} (hc : tree.Fixes x)
      (h : tree.Occurs (.assign targets sources p)) (hx : x ∈ targets.filterMap ident?)

end Node

/-! ### What a check shows -/

open Scope (kinds)
open Node (Slips Fixes ident?)

/-- A name that the scopes know is one that a run finds; it is a constant only where the check takes it
for no variable, or the tree declares it so. -/
structure Fair (tree : Node) (x : String) (ks : List (Option SymbolKind)) (V : List (Option Bool)) :
    Prop where
  known : ∀ k, ks.findSome? id = some k →
    ∃ b, V.findSome? id = some b ∧ (k = .var → b = true → tree.Fixes x)
  builtin : Host.isBuiltin x = true → (V.findSome? id).isSome = true

namespace Fair

variable {tree : Node} {x : String} {ks : List (Option SymbolKind)} {V : List (Option Bool)}

theorem record (h : Fair tree x ks V) : Fair tree x ks (none :: V) :=
  ⟨h.known, h.builtin⟩

theorem scope (h : Fair tree x ks V) : Fair tree x (none :: ks) V :=
  ⟨h.known, h.builtin⟩

theorem loop (ks : List (Option SymbolKind)) (V : List (Option Bool)) :
    Fair tree x (some .name :: ks) (some true :: V) := by
  refine ⟨fun k hk => ⟨true, rfl, fun e => ?_⟩, fun _ => rfl⟩
  rw [e] at hk
  cases hk

theorem declare (ks : List (Option SymbolKind)) (V : List (Option Bool))
    (h : isConst = true → tree.Fixes x) : Fair tree x (some .var :: ks) (some isConst :: V) :=
  ⟨fun _ _ => ⟨isConst, rfl, fun _ => h⟩, fun _ => rfl⟩

end Fair

/-- A check that goes well shows `P`, and leaves the name known as it was. -/
def Check.Tells (tree : Node) (x : String) (act : Check Unit) (P : List (Option Bool) → Prop) : Prop :=
  ∀ ⦃a a' V⦄, act a = .ok () a' → Fair tree x (kinds x a.scopes) V →
    P V ∧ kinds x a'.scopes = kinds x a.scopes

namespace Check

variable {tree : Node} {x y : String} {p : Position} {a a' : Analysis} {act act' : Check Unit}
  {P Q : List (Option Bool) → Prop} {V : List (Option Bool)}
variable {ns : List Node} {n : Node}

namespace Tells

theorem mono (h : Tells tree x act P) (hP : ∀ V, P V → Q V) : Tells tree x act Q :=
  fun _ _ V ha hV => ⟨hP V (h ha hV).1, (h ha hV).2⟩

theorem seq (h : Tells tree x act P) (h' : Tells tree x act' Q) :
    Tells tree x (do act; act') (fun V => P V ∧ Q V) := by
  intro a a' V ha hV
  obtain ⟨_, a₁, h₁, ha⟩ := exists_of_bind_eq_ok ha
  obtain ⟨hP, e⟩ := h h₁ hV
  obtain ⟨hQ, e'⟩ := h' ha (by rwa [e])
  exact ⟨⟨hP, hQ⟩, e'.trans e⟩

theorem done : Tells tree x (pure ()) (fun _ => True) := by
  intro a a' V ha hV
  cases ha
  exact ⟨trivial, rfl⟩

theorem record (h : Tells tree x act P) : Tells tree x act (fun V => P (none :: V)) :=
  fun _ _ _ ha hV => h ha hV.record

theorem meetLoop :
    Tells tree x (modify fun a => { a with metLoop := true }) (fun _ => True) := by
  intro a a' V ha hV
  cases ha
  exact ⟨trivial, rfl⟩

theorem insideLoop {word : String} {p : Position} :
    Tells tree x (insideLoop word p) (fun _ => True) := by
  intro a a' V ha hV
  rw [insideLoop_ok ha]
  exact ⟨trivial, rfl⟩

theorem failed {f : Failure} : Tells tree x (throw f) P := by
  intro a a' V ha hV
  cases ha

theorem inOrder {P : Node → List (Option Bool) → Prop} (h : ∀ n ∈ ns, Tells tree x (node n) (P n)) :
    Tells tree x (inOrder (nodes ns)) (fun V => ∀ n ∈ ns, P n V) := by
  induction ns with
  | nil => exact done.mono fun _ _ _ h => absurd h not_mem_nil
  | cons n ns ih =>
    obtain ⟨hn, hns⟩ := forall_mem_cons.1 h
    exact (hn.seq (ih hns)).mono fun V hV => forall_mem_cons.2 hV

theorem inPairs {P Q : Node → List (Option Bool) → Prop} {ks : List Node}
    (hn : ∀ n ∈ ns, Tells tree x (node n) (P n)) (hk : ∀ k ∈ ks, Tells tree x (node k) (Q k)) :
    Tells tree x (inPairs (nodes ns) (nodes ks)) (fun V => ∀ z ∈ ns.zip ks, P z.1 V ∧ Q z.2 V) := by
  induction ns generalizing ks with
  | nil => exact done.mono fun _ _ _ h => absurd h not_mem_nil
  | cons n ns ih =>
    cases ks with
    | nil => exact done.mono fun _ _ _ h => absurd h not_mem_nil
    | cons k ks =>
      obtain ⟨hn₁, hn₂⟩ := forall_mem_cons.1 hn
      obtain ⟨hk₁, hk₂⟩ := forall_mem_cons.1 hk
      refine (hn₁.seq (hk₁.seq (ih hn₂ hk₂))).mono fun V hV => ?_
      exact forall_mem_cons.2 ⟨⟨hV.1, hV.2.1⟩, hV.2.2⟩

theorem name (p : Position) :
    Tells tree x (node (.name y p)) (fun V => y = x → (V.findSome? id).isSome = true) := by
  intro a a' V ha hV
  obtain ⟨r, a₁, h₁, ha⟩ := exists_of_bind_eq_ok ha
  obtain ⟨e, rfl⟩ := lookup_ok h₁
  split at ha
  · rename_i hr
    cases ha
    refine ⟨fun hy => ?_, by rw [e]⟩
    subst hy
    rw [← Option.isSome_map, Scope.lookup_kind] at hr
    obtain ⟨k, hk⟩ := Option.isSome_iff_exists.1 hr
    obtain ⟨b, hb, -⟩ := hV.known k hk
    rw [hb]
    rfl
  · cases ha

/-- A name that can be assigned to is one of a variable, or of a constant that counts as one. -/
theorem assignable (p : Position) : Tells tree x (assignable y p)
    (fun V => y = x → ∃ b, V.findSome? id = some b ∧ (b = true → tree.Fixes x)) := by
  intro a a' V ha hV
  obtain ⟨r, a₁, h₁, ha⟩ := exists_of_bind_eq_ok ha
  obtain ⟨e, hr⟩ := lookup_ok h₁
  cases r with
  | none => cases ha
  | some s =>
    dsimp only at ha
    split at ha
    · rename_i hk
      cases ha
      refine ⟨fun hy => ?_, by rw [e]⟩
      subst hy
      have found : (kinds y a.scopes).findSome? id = some .var := by
        rw [← Scope.lookup_kind, ← hr, Option.map_some, hk]
      obtain ⟨b, hb, hfix⟩ := hV.known _ found
      exact ⟨b, hb, hfix rfl⟩
    · cases ha

end Tells

theorem identOf_ok (h : identOf n a = .ok y a') : n.ident? = some y ∧ a' = a := by
  unfold identOf at h
  cases hn : n.ident? with
  | none =>
    rw [hn] at h
    cases h
  | some z =>
    rw [hn] at h
    cases h
    exact ⟨rfl, rfl⟩

/-- A name that is declared is declared once, and becomes a variable of the innermost scope. -/
theorem kinds_declareAll (h : declareAll p ns a = .ok () a') :
    (x ∉ ns.filterMap ident? ∧ kinds x a'.scopes = kinds x a.scopes) ∨
      ((ns.filterMap ident?).count x = 1 ∧
        ∃ ks, kinds x a.scopes = none :: ks ∧ kinds x a'.scopes = some .var :: ks) := by
  induction ns generalizing a with
  | nil =>
    cases h
    exact .inl ⟨not_mem_nil, rfl⟩
  | cons n ns ih =>
    obtain ⟨y, a₁, h₁, h⟩ := exists_of_bind_eq_ok h
    obtain ⟨r, a₂, h₂, h⟩ := exists_of_bind_eq_ok h
    split at h
    · cases h
    · rename_i hr
      obtain ⟨_, a₃, h₃, rest⟩ := exists_of_bind_eq_ok h
      obtain ⟨hn, rfl⟩ := identOf_ok h₁
      obtain ⟨e₂, rfl⟩ := lookup_ok h₂
      obtain ⟨o, ks, e, e₃⟩ := kinds_insert h₃ x
      rw [e₂] at e
      rw [filterMap_cons_some hn]
      by_cases hy : y = x
      · subst hy
        -- the innermost scope did not have the name, and has it now
        have fresh : o = none := by
          rw [← Option.isSome_map, Scope.lookup_kind_here, e] at hr
          simpa using hr
        subst fresh
        rw [if_pos rfl] at e₃
        rcases ih rest with ⟨hx, e'⟩ | ⟨-, ks', e', -⟩
        · refine .inr ⟨?_, ks, e, e'.trans e₃⟩
          rw [count_cons_self, count_eq_zero_of_not_mem hx]
        · rw [e₃] at e'
          cases e'
      · rw [if_neg hy] at e₃
        rcases ih rest with ⟨hx, e'⟩ | ⟨hx, ks', e', e''⟩
        · refine .inl ⟨?_, e'.trans (e₃.trans e.symm)⟩
          rw [mem_cons]
          exact fun h => h.elim (fun h => hy h.symm) hx
        · refine .inr ⟨?_, ks', ?_, e''⟩
          · rw [count_cons_of_ne hy, hx]
          · rw [e, ← e₃, e']

/-- Checks a node if there is one. -/
def optional (n : Node) : Check Unit := if n.isMissing then pure () else node n

theorem node_forRange (var start stop step body : Node) (p : Position) :
    node (.forRange var start stop step body p) = (do
      enter "for" true
      insert .name (← identOf var)
      node start
      node stop
      optional step
      node body
      leave) := by
  cases step <;> rfl

/-- Declares a name that cannot be assigned to. -/
def bindName (n : Node) : Check Unit := do insert .name (← identOf n)

/-- Declares the names of a loop over a container. -/
def bindEntry (key val : Node) : Check Unit := do
  bindName key
  if val.isMissing then pure () else bindName val

theorem node_forEach (key val subject body : Node) (p : Position) :
    node (.forEach key val subject body p) = (do
      enter "for" true
      bindEntry key val
      node subject
      node body
      leave) := by
  cases h : val.isMissing <;> simp [node, bindEntry, bindName, h, bind_assoc]

theorem kinds_bindName (h : bindName n a = .ok () a') (hk : kinds x a.scopes = o :: ks) :
    kinds x a'.scopes = (if n.ident? = some x then some .name else o) :: ks := by
  obtain ⟨y, a₁, h₁, h₂⟩ := exists_of_bind_eq_ok h
  obtain ⟨hy, rfl⟩ := identOf_ok h₁
  obtain ⟨o', ks', e, e₂⟩ := kinds_insert h₂ x
  rw [hk] at e
  cases e
  rw [e₂, hy]
  simp only [Option.some.injEq]

theorem kinds_bindEntry (h : bindEntry key val a = .ok () a') (hk : kinds x a.scopes = none :: ks) :
    kinds x a'.scopes = (if x ∈ [key, val].filterMap ident? then some .name else none) :: ks := by
  obtain ⟨_, a₁, h₁, h₂⟩ := exists_of_bind_eq_ok h
  have e₁ := kinds_bindName h₁ hk
  have mem : x ∈ [key, val].filterMap ident? ↔ val.ident? = some x ∨ key.ident? = some x := by
    rw [mem_filterMap]
    simp [or_comm]
  cases hv : val.isMissing with
  | true =>
    have unnamed : val.ident? = none := by
      cases val with
      | missing => rfl
      | _ => cases hv
    rw [hv] at h₂
    cases h₂
    rw [e₁]
    simp only [mem, unnamed, reduceCtorEq, false_or]
  | false =>
    rw [hv] at h₂
    rw [kinds_bindName h₂ e₁]
    simp only [mem, ite_or]

/-- Checks what is assigned to. -/
def target : Node → Check Unit
  | .name y p => assignable y p
  | n => node n

theorem nodesAsTargets_cons (n : Node) (ns : List Node) :
    nodesAsTargets (n :: ns) = target n :: nodesAsTargets ns := by
  cases n <;> rfl

theorem node_update (op : TokenKind) (n source : Node) (p : Position) :
    node (.update op n source p) = (do target n; node source) := by
  cases n <;> rfl

theorem Tells.inTargets {P : Node → List (Option Bool) → Prop}
    (h : ∀ n ∈ ns, Tells tree x (target n) (P n)) :
    Tells tree x (Check.inOrder (nodesAsTargets ns)) (fun V => ∀ n ∈ ns, P n V) := by
  induction ns with
  | nil => exact done.mono fun _ _ _ h => absurd h not_mem_nil
  | cons n ns ih =>
    obtain ⟨hn, hns⟩ := forall_mem_cons.1 h
    rw [nodesAsTargets_cons]
    exact (hn.seq (ih hns)).mono fun V hV => forall_mem_cons.2 hV

theorem node_declare (names : List Node) (inits : Option (List Node)) (isConst : Bool) (p : Position) :
    node (.declare names inits isConst p) =
      (do declareAll p names; inOrder (nodes (inits.getD []))) := by
  cases inits <;> rfl

end Check

section Tree

variable {tree n : Node} {x : String} {a a' : Analysis} {V : List (Option Bool)} (hT : ¬tree.Slips x)
variable {names : List Node} {inits : Option (List Node)} {body : Node} {y : String}
include hT

/-- What is called does not mention the name, unless it is one known from the start. -/
theorem finds_callee {callee : Node} {args : Option (List Node)} {p : Position}
    (hn : tree.Occurs (.call callee args p)) (hc : callee.IsExpr) (hV : Fair tree x ks V) :
    Finds (some x) (some V) callee := by
  by_cases hm : callee.Mentions x
  · by_cases hb : callee.ident? = some x ∧ Host.isBuiltin x = true
    · obtain ⟨q, rfl⟩ := Node.ident?_eq_some hb.1
      exact .name fun _ => hV.builtin hb.2
    · refine absurd (Slips.callee hn hm fun hi => ?_) hT
      exact Bool.eq_false_iff.2 fun h => hb ⟨hi, h⟩
  · exact .unmentioned hc hm

theorem finds_of_check (hn : tree.Occurs n) (he : n.IsExpr) :
    Check.Tells tree x (Check.node n) (fun V => Finds (some x) (some V) n) := by
  induction n using Node.induct_parts with
  | h n ih =>
    have part : ∀ k ∈ n.parts, k.IsExpr → Check.Tells tree x (Check.node k) (fun V => Finds (some x) (some V) k) :=
      fun k hk => ih k hk (.part hn hk)
    cases he with
    | funcDef | listOf | mapOf | setOf | access => exact .failed
    | @call callee args p hc ha =>
      cases args with
      | none => exact .failed
      | some args =>
        intro a a' V h hV
        have hargs := Check.Tells.inOrder fun e he => part e (mem_cons_of_mem _ he) (ha e he)
        obtain ⟨found, same⟩ := hargs h hV
        exact ⟨.call (finds_callee hT hn hc hV) found, same⟩
    | select hc hy hno =>
      simp only [Node.parts, forall_mem_cons] at part
      obtain ⟨ihc, ihy, ihn, -⟩ := part
      exact ((ihc hc).seq ((ihy hy).seq (ihn hno))).mono fun V h => .select h.1 h.2.1 h.2.2
    | binary hop hl hr =>
      simp only [Node.parts, forall_mem_cons] at part
      obtain ⟨ihl, ihr, -⟩ := part
      exact ((ihl hl).seq (ihr hr)).mono fun V h => .binary hop h.1 h.2
    | unary ho => exact (part _ mem_cons_self ho).mono fun V h => .unary h
    | @name y p =>
      exact (Check.Tells.name p).mono fun V h => .name fun hw => h (Option.some.inj hw).symm
    | number => exact Check.Tells.done.mono fun _ _ => .unmentioned .number (Node.not_mentions_of_parts rfl rfl)
    | string => exact Check.Tells.done.mono fun _ _ => .unmentioned .string (Node.not_mentions_of_parts rfl rfl)
    | bool => exact Check.Tells.done.mono fun _ _ => .unmentioned .bool (Node.not_mentions_of_parts rfl rfl)
    | null => exact Check.Tells.done.mono fun _ _ => .unmentioned .null (Node.not_mentions_of_parts rfl rfl)

theorem finds_inits {p : Position} (hn : tree.Occurs (.declare names inits isConst p))
    (hi : ∀ e ∈ inits.getD [], e.IsExpr) :
    Check.Tells tree x (Check.inOrder (Check.nodes (inits.getD [])))
      (fun V => ∀ e ∈ inits.getD [], Finds (some x) (some V) e) :=
  Check.Tells.inOrder fun e he =>
    finds_of_check hT (.part hn (mem_append_right _ he)) (hi e he)

theorem passes_declare {p : Position} (hn : tree.Occurs (.declare names inits isConst p))
    (hnames : ∀ n ∈ names, n.IsName) (hi : ∀ e ∈ inits.getD [], e.IsExpr)
    (hx : x ∈ names.filterMap ident?) (h : Check.node (.declare names inits isConst p) a = .ok () a')
    (V : List (Option Bool)) :
    Passes (some x) (some (none :: V)) (.declare names inits isConst p) (some (some isConst :: V)) ∧
      ∃ ks, kinds x a.scopes = none :: ks ∧ kinds x a'.scopes = some .var :: ks := by
  rw [Check.node_declare] at h
  obtain ⟨_, a₁, h₁, h⟩ := exists_of_bind_eq_ok h
  rcases Check.kinds_declareAll h₁ with ⟨hx', -⟩ | ⟨once, ks, e, e₁⟩
  · exact absurd hx hx'
  · have fair : Fair tree x (kinds x a₁.scopes) (some isConst :: V) := by
      rw [e₁]
      refine .declare ks V fun hc => ?_
      subst hc
      exact ⟨names, inits, p, hn, hx⟩
    obtain ⟨-, e₂⟩ := finds_inits hT hn hi h fair
    refine ⟨.declare (fun i hi' => .unmentioned (hi i hi') fun hm => ?_) (.once hnames once), ks, e, e₂.trans e₁⟩
    exact hT (.early hn hx hi' hm)

/-- Statements one after the other, in a scope and a record of their own. -/
theorem passesAll_of_check {ss : List Node} {k : Option SymbolKind} {o : Option Bool}
    (hocc : ∀ s ∈ ss, tree.Occurs s) (hs : ∀ s ∈ ss, s.IsStat)
    (ih : ∀ s ∈ ss, x ∉ s.declared → Check.Tells tree x (Check.node s) (fun V => Passes (some x) (some V) s (some V)))
    (h : Check.inOrder (Check.nodes ss) a = .ok () a') (hk : kinds x a.scopes = k :: ks)
    (hV : Fair tree x (k :: ks) (o :: V)) (fresh : k = none → (∃ s ∈ ss, x ∈ s.declared) → o = none) :
    ∃ o' k', PassesAll (some x) (some (o :: V)) ss (some (o' :: V)) ∧ kinds x a'.scopes = k' :: ks := by
  induction ss generalizing a k o with
  | nil =>
    cases h
    exact ⟨o, k, .nil, hk⟩
  | cons s ss ihs =>
    obtain ⟨_, a₁, h₁, rest⟩ := exists_of_bind_eq_ok h
    obtain ⟨hocc₁, hocc₂⟩ := forall_mem_cons.1 hocc
    obtain ⟨hs₁, hs₂⟩ := forall_mem_cons.1 hs
    obtain ⟨ih₁, ih₂⟩ := forall_mem_cons.1 ih
    by_cases hx : x ∈ s.declared
    · -- the name is new in the scope, so it is in the record
      cases hs₁ with
      | @declare names inits isConst p hnames hi =>
        obtain ⟨pass, ks', e, e₁⟩ := passes_declare hT hocc₁ hnames hi hx h₁ V
        rw [hk] at e
        cases e
        obtain rfl := fresh rfl ⟨_, mem_cons_self, hx⟩
        have fixed : isConst = true → tree.Fixes x := by
          rintro rfl
          exact ⟨names, inits, p, hocc₁, hx⟩
        obtain ⟨o', k', passes, e'⟩ := ihs hocc₂ hs₂ ih₂ rest e₁ (.declare ks V fixed) fun h => by cases h
        exact ⟨o', k', .cons pass passes, e'⟩
      | _ => exact absurd hx not_mem_nil
    · obtain ⟨pass, e₁⟩ := ih₁ hx h₁ (hk ▸ hV)
      obtain ⟨o', k', passes, e'⟩ := ihs hocc₂ hs₂ ih₂ rest (e₁.trans hk) hV fun hk' hex => by
        obtain ⟨t, ht, hxt⟩ := hex
        exact fresh hk' ⟨t, mem_cons_of_mem _ ht, hxt⟩
      exact ⟨o', k', .cons pass passes, e'⟩

theorem finds_early (hn : tree.Occurs n) (hmem : e ∈ n.early) (he : e.IsExpr) (hV : Fair tree x ks V)
    (h : Check.node e a = .ok () a') (ho : o = if x ∈ n.binds then some .name else none)
    (hk : kinds x a.scopes = o :: ks) : Finds (some x) (some V) e ∧ kinds x a'.scopes = o :: ks := by
  have told := finds_of_check hT (.part hn (Node.mem_parts_of_early hmem)) he
  by_cases hx : x ∈ n.binds
  · rw [if_pos hx] at ho
    subst ho
    have fair : Fair tree x (kinds x a.scopes) (some true :: V) := by
      rw [hk]
      exact .loop ks V
    exact ⟨.unmentioned he fun hm => hT (.early hn hx hmem hm), (told h fair).2.trans hk⟩
  · rw [if_neg hx] at ho
    subst ho
    obtain ⟨found, same⟩ := told h (hk ▸ hV.scope)
    exact ⟨found, same.trans hk⟩

omit hT in
/-- The body of a loop that binds names in its own record, the name `x` if `P` holds. -/
theorem passes_round {P : Prop} [Decidable P]
    (hbody : Check.Tells tree x (Check.node body) (fun V => Passes (some x) (some V) body (some V)))
    (hV : Fair tree x ks V) (h : Check.node body a = .ok () a')
    (hk : kinds x a.scopes = (if P then some .name else none) :: ks) :
    Passes (some x) (some ((if P then some true else none) :: V)) body
        (some ((if P then some true else none) :: V)) ∧
      kinds x a'.scopes = (if P then some .name else none) :: ks := by
  have fair : Fair tree x ((if P then some .name else none) :: ks)
      ((if P then some true else none) :: V) := by
    split
    · exact .loop ks V
    · exact hV.scope.record
  obtain ⟨passes, same⟩ := hbody h (hk ▸ fair)
  exact ⟨passes, same.trans hk⟩

theorem passes_forRange {q : Position} {start stop step : Node} {p : Position}
    (hn : tree.Occurs (.forRange (.name y q) start stop step body p)) (hs : start.IsExpr)
    (he : stop.IsExpr) (hd : step ≠ .missing → step.IsExpr)
    (hbody : Check.Tells tree x (Check.node body) (fun V => Passes (some x) (some V) body (some V))) :
    Check.Tells tree x (Check.node (.forRange (.name y q) start stop step body p))
      (fun V => Passes (some x) (some V) (.forRange (.name y q) start stop step body p) (some V)) := by
  intro a a' V h hV
  rw [Check.node_forRange] at h
  obtain ⟨_, a₁, h₁, h⟩ := exists_of_bind_eq_ok h
  obtain ⟨z, a₂, h₂, h⟩ := exists_of_bind_eq_ok h
  obtain ⟨_, a₃, h₃, h⟩ := exists_of_bind_eq_ok h
  obtain ⟨_, a₄, h₄, h⟩ := exists_of_bind_eq_ok h
  obtain ⟨_, a₅, h₅, h⟩ := exists_of_bind_eq_ok h
  obtain ⟨_, a₆, h₆, h⟩ := exists_of_bind_eq_ok h
  obtain ⟨_, a₇, h₇, h₈⟩ := exists_of_bind_eq_ok h
  obtain ⟨hz, rfl⟩ := Check.identOf_ok h₂
  obtain rfl : y = z := Option.some.inj hz
  obtain ⟨o, ks, e, e₃⟩ := Check.kinds_insert h₃ x
  rw [Check.kinds_enter h₁ x] at e
  cases e
  have binds : x ∈ (Node.forRange (.name y q) start stop step body p).binds ↔ y = x := by
    simp [Node.binds, ident?, eq_comm]
  have early : ∀ {e : Node} {b b' : Analysis}, e ∈ [start, stop, step] → e.IsExpr →
      Check.node e b = .ok () b' →
      kinds x b.scopes = (if y = x then some .name else none) :: kinds x a.scopes →
      Finds (some x) (some V) e ∧ kinds x b'.scopes = (if y = x then some .name else none) :: kinds x a.scopes :=
    fun hmem he h => finds_early hT hn hmem he hV h (by simp only [binds])
  obtain ⟨hstart, e₄⟩ := early (by simp) hs h₄ e₃
  obtain ⟨hstop, e₅⟩ := early (by simp) he h₅ e₄
  obtain ⟨hstep, e₆⟩ : (step ≠ .missing → Finds (some x) (some V) step) ∧
      kinds x a₆.scopes = (if y = x then some .name else none) :: kinds x a.scopes := by
    unfold Check.optional at h₆
    split at h₆
    · rename_i hmiss
      cases h₆
      exact ⟨fun ne => absurd hmiss (by simp [Node.isMissing_of_ne ne]), e₅⟩
    · rename_i hmiss
      obtain ⟨hstep, e₆⟩ := early (by simp) (hd (Node.ne_missing hmiss)) h₆ e₅
      exact ⟨fun _ => hstep, e₆⟩
  obtain ⟨hround, e₇⟩ := passes_round hbody hV h₇ e₆
  refine ⟨.forRange hstart hstop hstep (by simp [View.push, View.entry_singleton, eq_comm]) hround, ?_⟩
  rw [Check.kinds_leave h₈ x, e₇]
  rfl

theorem passes_forEach {subject : Node} {p : Position}
    (hn : tree.Occurs (.forEach key val subject body p)) (hk : key.IsName)
    (hval : val ≠ .missing → val.IsName) (hs : subject.IsExpr)
    (hbody : Check.Tells tree x (Check.node body) (fun V => Passes (some x) (some V) body (some V))) :
    Check.Tells tree x (Check.node (.forEach key val subject body p))
      (fun V => Passes (some x) (some V) (.forEach key val subject body p) (some V)) := by
  intro a a' V h hV
  rw [Check.node_forEach] at h
  obtain ⟨_, a₁, h₁, h⟩ := exists_of_bind_eq_ok h
  obtain ⟨_, a₂, h₂, h⟩ := exists_of_bind_eq_ok h
  obtain ⟨_, a₃, h₃, h⟩ := exists_of_bind_eq_ok h
  obtain ⟨_, a₄, h₄, h₅⟩ := exists_of_bind_eq_ok h
  have e₂ := Check.kinds_bindEntry h₂ (Check.kinds_enter h₁ x)
  obtain ⟨hsubject, e₃⟩ :=
    finds_early hT hn (mem_singleton.2 rfl) hs hV.record h₃ rfl e₂
  obtain ⟨hround, e₄⟩ := passes_round hbody hV h₄ e₃
  refine ⟨.forEach hk hval hsubject (by simp [View.push, View.entry, Node.binds]) hround, ?_⟩
  rw [Check.kinds_leave h₅ x, e₄]
  rfl

omit hT in
theorem finds_name {p : Position} {P : Bool → Prop} (h : y = x → ∃ b, V.findSome? id = some b ∧ P b) :
    Finds (some x) (some V) (.name y p) := by
  refine .name fun hw => ?_
  obtain ⟨b, hb, -⟩ := h (Option.some.inj hw).symm
  exact Option.isSome_iff_exists.2 ⟨b, hb⟩

theorem passes_assign {targets sources : List Node} {p : Position}
    (hn : tree.Occurs (.assign targets sources p)) (ht : ∀ e ∈ targets, e.IsExpr)
    (hs : ∀ e ∈ sources, e.IsExpr) :
    Check.Tells tree x (Check.node (.assign targets sources p))
      (fun V => Passes (some x) (some V) (.assign targets sources p) (some V)) := by
  have settable : ∀ t ∈ targets, Check.Tells tree x (Check.target t) (fun V => Settable (some x) (some V) t) := by
    intro t hmem
    have told := finds_of_check hT (.part hn (mem_append_left _ hmem)) (ht t hmem)
    cases ht t hmem with
    | @name y q =>
      refine (Check.Tells.assignable q).mono fun V h => ⟨finds_name h, fun z _ e hw => ?_⟩
      cases e
      cases hw
      obtain ⟨b, hb, hfix⟩ := h rfl
      cases b with
      | false => exact hb
      | true => exact absurd (.constant (hfix rfl) hn (mem_filterMap.2 ⟨_, hmem, rfl⟩)) hT
    | access => exact .failed
    | _ => exact told.mono fun V h => ⟨h, fun _ _ e => by cases e⟩
  have found : ∀ e ∈ sources, Check.Tells tree x (Check.node e) (fun V => Finds (some x) (some V) e) :=
    fun e he => finds_of_check hT (.part hn (mem_append_right _ he)) (hs e he)
  exact ((Check.Tells.inTargets settable).seq (Check.Tells.inOrder found)).mono
    fun V h => .assign h.1 h.2

/-- A target that is looked up as a value is a name that can be assigned to. -/
theorem finds_target {op : TokenKind} {t source : Node} {p : Position}
    (hn : tree.Occurs (.update op t source p)) (ht : t.IsExpr) :
    Check.Tells tree x (Check.target t) (fun V => Finds (some x) (some V) t) := by
  have told := finds_of_check hT (.part hn mem_cons_self) ht
  cases ht with
  | @name y q =>
    exact (Check.Tells.assignable q).mono fun V h => finds_name h
  | _ => exact told

/-- Checks that go well show that statements pass. -/
theorem passes_of_check (hn : tree.Occurs n) (hs : n.IsStat) (hx : x ∉ n.declared) :
    Check.Tells tree x (Check.node n) (fun V => Passes (some x) (some V) n (some V)) := by
  induction n using Node.induct_parts with
  | h n ih =>
    have expr : ∀ k ∈ n.parts, k.IsExpr → Check.Tells tree x (Check.node k) (fun V => Finds (some x) (some V) k) :=
      fun k hk => finds_of_check hT (.part hn hk)
    -- a body does not declare the name
    have body : ∀ k ∈ n.parts, k ∈ n.bodies → k.IsStat →
        Check.Tells tree x (Check.node k) (fun V => Passes (some x) (some V) k (some V)) :=
      fun k hk hb hs => ih k hk (.part hn hk) hs fun hx => hT (.body hn hb hx)
    cases hs with
    | empty => exact Check.Tells.done.mono fun _ _ => .empty
    | block hs =>
      intro a a' V h hV
      obtain ⟨_, a₁, h₁, h⟩ := exists_of_bind_eq_ok h
      obtain ⟨_, a₂, h₂, h₃⟩ := exists_of_bind_eq_ok h
      obtain ⟨o, k, passes, e₂⟩ := passesAll_of_check hT (fun s hmem => .part hn hmem) hs
        (fun s hmem => ih s hmem (.part hn hmem) (hs s hmem)) h₂ (Check.kinds_enter h₁ x)
        hV.scope.record fun _ _ => rfl
      refine ⟨.block passes, ?_⟩
      rw [Check.kinds_leave h₃ x, e₂]
      rfl
    | declare hnames hi =>
      intro a a' V h hV
      rw [Check.node_declare] at h
      obtain ⟨_, a₁, h₁, h⟩ := exists_of_bind_eq_ok h
      rcases Check.kinds_declareAll h₁ with ⟨-, e₁⟩ | ⟨once, -⟩
      · obtain ⟨found, e₂⟩ := finds_inits hT hn hi h (e₁ ▸ hV)
        exact ⟨.declare found (.others hnames fun _ hw => Option.mem_some.1 hw ▸ hx), e₂.trans e₁⟩
      · have never := count_eq_zero_of_not_mem hx
        exact absurd (never.symm.trans once) (by decide)
    | branch hc hb =>
      refine (Check.Tells.inPairs (fun k hk => expr k (mem_append_left _ hk) (hc k hk))
        fun k hk => body k (mem_append_right _ hk) hk (hb k hk)).mono fun V h => ?_
      exact .branch (fun k hk => (h k hk).1) fun k hk => (h k hk).2
    | @switch subject cases bodies fallback p hs hc hb hf =>
      have hfallback : Check.Tells tree x (Check.node fallback) (fun V => Passes (some x) (some V) fallback (some V)) := by
        by_cases hm : fallback = .missing
        · subst hm
          exact .failed
        · exact body _ (by simp [Node.parts]) mem_cons_self (hf hm)
      have hclauses := Check.Tells.inPairs
        (fun k hk => expr k (by simp [Node.parts, hk]) (hc k hk))
        fun k hk => body k (by simp [Node.parts, hk]) (mem_cons_of_mem _ hk) (hb k hk)
      refine ((expr _ mem_cons_self hs).seq (hclauses.seq hfallback)).mono fun V h => ?_
      exact .switch h.1 (fun k hk => (h.2.1 k hk).1) (fun k hk => (h.2.1 k hk).2) fun _ => h.2.2
    | repeatUntil hc hb =>
      have hcond := (expr _ (by simp [Node.parts]) hc).record
      have hbody := (body _ (by simp [Node.parts]) (mem_singleton.2 rfl) hb).record
      exact (Check.Tells.meetLoop.seq (hcond.seq hbody)).mono fun V h => .repeatUntil h.2.1 h.2.2
    | whileLoop hc hb =>
      have hcond := (expr _ (by simp [Node.parts]) hc).record
      have hbody := (body _ (by simp [Node.parts]) (mem_singleton.2 rfl) hb).record
      exact (hcond.seq hbody).mono fun V h => .whileLoop h.1 h.2
    | forRange hv hst he hd hb =>
      obtain ⟨y, q, rfl⟩ := hv
      exact passes_forRange hT hn hst he hd (body _ (by simp [Node.parts]) (mem_singleton.2 rfl) hb)
    | forEach hk hval hsub hb =>
      exact passes_forEach hT hn hk hval hsub (body _ (by simp [Node.parts]) (mem_singleton.2 rfl) hb)
    | breakLoop => exact Check.Tells.insideLoop.mono fun _ _ => .breakLoop
    | continueLoop => exact Check.Tells.insideLoop.mono fun _ _ => .continueLoop
    | returnValue => exact .failed
    | assign ht hsrc => exact passes_assign hT hn ht hsrc
    | update ht hsrc =>
      rw [Check.node_update]
      exact ((finds_target hT hn ht).seq (expr _ (by simp [Node.parts]) hsrc)).mono
        fun V h => .update h.1 h.2
    | call hc ha =>
      refine (finds_of_check hT hn (.call hc ha)).mono fun V h => .call (h.part mem_cons_self hc) ?_
      exact fun a hmem => h.part (mem_cons_of_mem _ hmem) (ha a hmem)

/-- A tree that slips in no way passes if its check goes well. -/
theorem passes_of_analyze {stats : List Node} {o : Option Bool} (ht : tree = .program stats)
    (hs : ∀ s ∈ stats, s.IsStat) (hempty : a.scopes = []) (h : analyze tree a = .ok () a')
    (ho : o = if Host.isBuiltin x then some true else none) :
    ∃ o', PassesAll (some x) (some [o]) stats (some [o']) := by
  subst ht
  obtain ⟨_, a₁, h₁, h⟩ := exists_of_bind_eq_ok h
  obtain ⟨_, a₂, h₂, -⟩ := exists_of_bind_eq_ok h
  obtain ⟨_, a₃, h₃, h₂⟩ := exists_of_bind_eq_ok h₂
  obtain ⟨_, a₄, h₄, -⟩ := exists_of_bind_eq_ok h₂
  have e₃ := Check.kinds_enter h₃ x
  rw [Check.kinds_enter h₁ x, hempty] at e₃
  have fair : Fair (.program stats) x [none, none] [o] := by
    refine ⟨fun k hk => ?_, fun hb => ?_⟩
    · cases hk
    · rw [ho, if_pos hb]
      rfl
  obtain ⟨o', -, passes, -⟩ := passesAll_of_check hT (fun s hmem => .part .self hmem) hs
    (fun s hmem => passes_of_check hT (.part .self hmem) (hs s hmem)) h₄ e₃ fair fun _ hdecl => by
      -- a name known from the start is not declared again
      obtain ⟨s, hmem, hx⟩ := hdecl
      rw [ho, if_neg fun hb => hT (.builtin hb hmem hx)]
  exact ⟨o', passes⟩

end Tree

end TinyScript
