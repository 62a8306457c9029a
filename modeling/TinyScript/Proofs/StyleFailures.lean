import TinyScript.Proofs.StatementText

/-!
# Failures of writing

A layout fails where its first part does that fails, and the parts that belong to the style do not fail. So
a tree can be written in one style exactly if it can be written in another, and the failure is the same
(`Node.failure_layout`).
-/

namespace TinyScript

open List hiding concat

namespace Layout

variable {a b : Layout}

theorem failure_append_eq : (a ++ b).failure = a.failure.or b.failure := by
  obtain ⟨ps, _ | f⟩ := a <;> rfl

@[simp] theorem failure_newline (st : Style) : st.newline.failure = none := rfl

@[simp] theorem failure_indent (st : Style) : st.indent.failure = none := by
  rw [Style.indent]
  split <;> rfl

@[simp] theorem failure_statement (st : Style) (a : Layout) : (st.statement a).failure = a.failure := by
  rw [Style.statement]
  split <;> simp [failure_append_eq, nil]

@[simp] theorem failure_line_eq (st : Style) (a : Layout) : (st.line a).failure = a.failure := by
  simp [Style.line, failure_append_eq]

theorem failure_concat_congr {as bs : List Layout} (h : as.map (·.failure) = bs.map (·.failure)) :
    (concat as).failure = (concat bs).failure := by
  induction as generalizing bs with
  | nil =>
    obtain rfl := map_eq_nil_iff.1 h.symm
    rfl
  | cons a as ih =>
    obtain ⟨b, bs, rfl, hb, hbs⟩ := map_eq_cons_iff.1 h.symm
    rw [concat, concat, failure_append_eq, failure_append_eq, hb, ih hbs.symm]

theorem failure_commas_congr {as bs : List Layout} (h : as.map (·.failure) = bs.map (·.failure)) :
    (commas as).failure = (commas bs).failure := by
  induction as generalizing bs with
  | nil =>
    obtain rfl := map_eq_nil_iff.1 h.symm
    rfl
  | cons a as ih =>
    obtain ⟨b, bs, rfl, hb, hbs⟩ := map_eq_cons_iff.1 h.symm
    have hrest := ih hbs.symm
    cases as with
    | nil =>
      obtain rfl := map_eq_nil_iff.1 hbs
      exact hb.symm
    | cons a' as =>
      obtain ⟨b', bs, rfl, -, -⟩ := map_eq_cons_iff.1 hbs
      have hcons (l m : Layout) (ls : List Layout) :
          (commas (l :: m :: ls)).failure = l.failure.or (commas (m :: ls)).failure := by
        simp [commas, failure_append_eq]
      rw [hcons, hcons, hb, hrest]

end Layout

namespace Node

open Layout

theorem failure_laterClauses_congr (st st' : Style) {last last' : Layout}
    (hlast : last.failure = last'.failure) {cs cs' : List (Layout × Bool)}
    (hcs : cs.map (fun c => (c.1.failure, c.2)) = cs'.map fun c => (c.1.failure, c.2))
    {bs bs' : List Layout} (hbs : bs.map (·.failure) = bs'.map (·.failure)) :
    (laterClauses st last cs bs).failure = (laterClauses st' last' cs' bs').failure := by
  induction cs generalizing cs' bs bs' with
  | nil =>
    obtain rfl := map_eq_nil_iff.1 hcs.symm
    rfl
  | cons c cs ih =>
    obtain ⟨c', cs', rfl, hc, hcs'⟩ := map_eq_cons_iff.1 hcs.symm
    obtain ⟨hc₁, hc₂⟩ := Prod.mk.inj hc
    cases cs with
    | nil =>
      obtain rfl := map_eq_nil_iff.1 hcs'
      rw [laterClauses, laterClauses, hc₂]
      split
      · simp [failure_append_eq, hlast]
      · rfl
    | cons d cs =>
      obtain ⟨d', ds, rfl, -, -⟩ := map_eq_cons_iff.1 hcs'
      cases bs with
      | nil =>
        obtain rfl := map_eq_nil_iff.1 hbs.symm
        simp [laterClauses, failure_append_eq, hc₁]
      | cons b bs =>
        obtain ⟨b', bs', rfl, hb, hbs'⟩ := map_eq_cons_iff.1 hbs.symm
        simp [laterClauses, failure_append_eq, hc₁, hb, ih hcs'.symm hbs'.symm]

section Congruence

variable {n : Node} {ns : List Node} (st st' : Style)

theorem failure_writtenBody (h : ∀ st st' : Style, (n.layout st).failure = (n.layout st').failure) :
    (writtenBody st n).failure = (writtenBody st' n).failure := by
  rw [writtenBody, writtenBody, bodyLayout, bodyLayout]
  split <;> simp [failure_append_eq, h (bodyStyle st n) (bodyStyle st' n)]

theorem failure_layouts (h : ∀ n ∈ ns, ∀ st st' : Style, (n.layout st).failure = (n.layout st').failure) :
    (layouts st ns).map (·.failure) = (layouts st' ns).map (·.failure) := by
  simp only [layouts_eq, map_map]
  exact map_congr_left fun n hn => h n hn st st'

theorem failure_lines_congr
    (h : ∀ n ∈ ns, ∀ st st' : Style, (n.layout st).failure = (n.layout st').failure) :
    (concat ((layouts st ns).map st.line)).failure = (concat ((layouts st' ns).map st'.line)).failure := by
  refine failure_concat_congr ?_
  simp only [map_map, Function.comp_def, failure_line_eq]
  exact failure_layouts st st' h

end Congruence

/-- The style does not decide whether a tree can be written, nor what is wrong with it. -/
theorem failure_layout (n : Node) : ∀ st st' : Style, (n.layout st).failure = (n.layout st').failure := by
  -- along the constructors, for lists and optional lists of nodes alongside
  apply @Node.rec (fun n => ∀ st st' : Style, (n.layout st).failure = (n.layout st').failure)
    (fun ns => ∀ n ∈ ns, ∀ st st' : Style, (n.layout st).failure = (n.layout st').failure)
    (fun o => ∀ ns ∈ o, ∀ n ∈ ns, ∀ st st' : Style, (n.layout st).failure = (n.layout st').failure)
  case program =>
    intro stats ih st st'
    exact failure_lines_congr st st' ih
  case block =>
    intro stats p ih st st'
    simp only [layout, failure_append_eq, failure_newline, failure_indent,
      failure_lines_congr st.deeper st'.deeper ih]
  case declare =>
    intro names inits isConst p _ ih st st'
    rcases inits with _ | _ | ⟨e, es⟩
    · rfl
    · rfl
    · have hes := failure_commas_congr (failure_layouts st st' (ih (e :: es) rfl))
      simp only [layouts] at hes
      simp only [layout, failure_append_eq, hes]
  case branch =>
    intro conds bodies p ihc ihb st st'
    cases conds with
    | nil => rfl
    | cons c cs =>
      rw [forall_mem_cons] at ihc
      cases bodies with
      | nil => simp [layout, layouts, bodyLayouts, failure_append_eq, ihc.1 st st', -layouts_eq]
      | cons b bs =>
        have hbs : (bodyLayouts st bs).map (·.failure) = (bodyLayouts st' bs).map (·.failure) := by
          simp only [bodyLayouts_eq, map_map]
          exact map_congr_left fun n hn => failure_writtenBody st st' (ihb n (mem_cons_of_mem _ hn))
        have hb := failure_writtenBody st st' (ihb b mem_cons_self)
        have hlast : ((bodyLayouts st bs).getLastD (writtenBody st b)).failure =
            ((bodyLayouts st' bs).getLastD (writtenBody st' b)).failure := by
          have hget := congrArg List.getLast? hbs
          simp only [getLast?_map] at hget
          rw [getLastD_eq_getLast?, getLastD_eq_getLast?, ← Option.getD_map Layout.failure, hget, hb,
            Option.getD_map]
        have hcs : ((layouts st cs).zip (cs.map isTrue)).map (fun c => (c.1.failure, c.2)) =
            ((layouts st' cs).zip (cs.map isTrue)).map fun c => (c.1.failure, c.2) := by
          simp only [layouts_eq, zip_map', map_map]
          exact map_congr_left fun c hc => by simp [ihc.2 c hc st st']
        have hlater := failure_laterClauses_congr st st' hlast hcs hbs
        simp only [writtenBody] at hb hlater
        simp only [layout, layouts, bodyLayouts, map_cons, zip_cons_cons, failure_append_eq,
          ihc.1 st st', hb, hlater]
  case whileLoop =>
    intro cond body p ihc ihb st st'
    simp only [layout_whileLoop, failure_append_eq, ihc st st', failure_writtenBody st st' ihb]
  case forRange =>
    intro var start stop step body p ihv ihs ihe ihd ihb st st'
    simp only [layout_forRange, failure_append_eq, ihv st st', ihs st st', ihe st st',
      failure_writtenBody st st' ihb]
    split
    · rfl
    · simp only [failure_append_eq, ihd st st']
  case assign =>
    intro targets sources p iht ihs st st'
    have hts := failure_commas_congr (failure_layouts st st' iht)
    cases sources with
    | nil => simp only [layout, failure_append_eq, hts]
    | cons e es =>
      have hes := failure_commas_congr (failure_layouts st st' ihs)
      simp only [layouts] at hes
      simp only [layout, failure_append_eq, hts, hes]
  case update =>
    intro op target source p iht ihs st st'
    simp only [layout, failure_append_eq, iht st st', ihs st st']
  case call =>
    intro callee args p ihc iha st st'
    rcases args with _ | _ | ⟨e, es⟩
    · simp only [layout, failure_append_eq, ihc st st']
    · simp only [layout, failure_append_eq, ihc st st']
    · have hes := failure_commas_congr (failure_layouts st st' (iha (e :: es) rfl))
      simp only [layouts] at hes
      simp only [layout, failure_append_eq, ihc st st', hes]
  case select =>
    intro cond yes no p ihc ihy ihn st st'
    simp only [layout, failure_append_eq, ihc st st', ihy st st', ihn st st']
  case binary =>
    intro op left right p ihl ihr st st'
    simp only [layout, failure_append_eq, ihl st st', ihr st st']
  case unary =>
    intro op operand p ih st st'
    simp only [layout, failure_append_eq, ih st st']
  case cons =>
    intro n ns ih ihs
    exact forall_mem_cons.2 ⟨ih, ihs⟩
  case some =>
    rintro ns ih _ ⟨⟩
    exact ih
  case nil | none => simp
  all_goals
    intros
    rfl

end Node

end TinyScript
