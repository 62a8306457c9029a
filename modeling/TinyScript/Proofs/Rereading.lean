import TinyScript.Proofs.StatementText

/-!
# Reading a written statement

The text of a statement need not read as the statement: an expression may read as another one, since no
parentheses are written, and a last clause with a condition is not written at all. `Node.reread f` is the
statement that the text spells if each expression `e` of it reads as `f e`. In the loose style that is all
there is to it. In the tight style a semicolon ends a body that is no block, and with it the branch, so
that no clause may be written after such a body: `Node.roomy`.
-/

namespace TinyScript

open Lexeme Precedence List

variable {stats : List Node}

namespace Node

mutual

/-- The statement with `f e` for each expression `e`, and without the clauses that are not written. -/
def reread (f : Node → Node) : Node → Node
  | .program stats => .program (rereads f stats)
  | .block stats p => .block (rereads f stats) p
  | .declare names inits isConst p => .declare names (inits.map (List.map f)) isConst p
  | .branch conds bodies p =>
    match conds.zip (rereads f bodies) with
    | [] => .branch [] [] p
    | (c, b) :: cs =>
      let kept := (f c, b) :: later (fun c b => [(f c, b)]) (fun c b => [(c, b)]) cs
      .branch (kept.map (·.1)) (kept.map (·.2)) p
  | .whileLoop cond body p => .whileLoop (f cond) (body.reread f) p
  | .forRange var start stop step body p =>
    .forRange var (f start) (f stop) (if step.isMissing then .missing else f step) (body.reread f) p
  | .assign targets sources p => .assign targets (sources.map f) p
  | .update op target source p => .update op target (f source) p
  | .call callee args p => .call callee (args.map (List.map f)) p
  | n => n
termination_by structural n => n

def rereads (f : Node → Node) : List Node → List Node
  | [] => []
  | n :: ns => n.reread f :: rereads f ns
termination_by structural ns => ns

end

mutual

/-- No clause is written after a body that is no block. -/
def roomy : Node → Bool
  | .program stats => roomyAll stats
  | .block stats _ => roomyAll stats
  | .branch conds bodies _ =>
    match conds.zip (roomyEach bodies) with
    | [] => true
    | (_, b) :: cs =>
      let kept := b :: later (fun _ b => [b]) (fun _ b => [b]) cs
      kept.all (·.2) && kept.dropLast.all (·.1)
  | .whileLoop _ body _ => body.roomy
  | .forRange _ _ _ _ body _ => body.roomy
  | _ => true
termination_by structural n => n

def roomyAll : List Node → Bool
  | [] => true
  | n :: ns => n.roomy && roomyAll ns
termination_by structural ns => ns

/-- Whether each is a block, and whether it is roomy. -/
def roomyEach : List Node → List (Bool × Bool)
  | [] => []
  | n :: ns => (n.isBlock, n.roomy) :: roomyEach ns
termination_by structural ns => ns

end

theorem rereads_eq (f : Node → Node) (ns : List Node) : rereads f ns = ns.map (reread f) := by
  induction ns with
  | nil => rfl
  | cons n ns ih => rw [rereads, ih, map_cons]

theorem roomyAll_eq (ns : List Node) : roomyAll ns = ns.all roomy := by
  induction ns with
  | nil => rfl
  | cons n ns ih => rw [roomyAll, ih, all_cons]

theorem roomyEach_eq (ns : List Node) : roomyEach ns = ns.map fun n => (n.isBlock, n.roomy) := by
  induction ns with
  | nil => rfl
  | cons n ns ih => rw [roomyEach, ih, map_cons]

/-! ### Clauses -/

end Node

/-- The tokens `w` spell the clauses of a branch, the first one after `if`. -/
def Chain (ps : List (Node × Node)) (o : Bool) (w : List Lexeme) : Prop :=
  ∃ (first : Clause) (more : List Clause) (last : Option Clause),
    w = first.tokens ++ (more.flatMap (of .kwElif :: ·.tokens) ++
      last.toList.flatMap (of .kwElse :: ·.bodyPart)) ∧
    ps = (first :: (more ++ last.toList)).map (fun c => (c.cond, c.body)) ∧
    o = last.all (·.isOpen) ∧
    (∀ c ∈ first :: more, Written choice c.cond c.condTokens) ∧
    (∀ c ∈ last, ∃ q, c.cond = .bool "true" q) ∧
    (∀ c ∈ first :: (more ++ last.toList), Spelling c.isOpen c.body c.bodyTokens) ∧
    ∀ c ∈ (first :: (more ++ last.toList)).dropLast, c.isOpen = false

namespace Chain

variable {c d : Clause} {ps : List (Node × Node)} {o : Bool} {w : List Lexeme}

theorem single (hc : Written choice c.cond c.condTokens) (hb : Spelling c.isOpen c.body c.bodyTokens) :
    Chain [(c.cond, c.body)] true c.tokens :=
  ⟨c, [], none, by simp, rfl, rfl, by simpa using hc, by simp, by simpa using hb, by simp⟩

theorem fallback (hc : Written choice c.cond c.condTokens) (hb : Spelling c.isOpen c.body c.bodyTokens)
    (ho : c.isOpen = false) (hd : ∃ q, d.cond = .bool "true" q)
    (hb' : Spelling d.isOpen d.body d.bodyTokens) :
    Chain [(c.cond, c.body), (d.cond, d.body)] d.isOpen (c.tokens ++ of .kwElse :: d.bodyPart) :=
  ⟨c, [], some d, by simp, rfl, rfl, by simpa using hc, by simpa using hd, by simp [hb, hb'],
    by simpa using ho⟩

theorem cons (hc : Written choice c.cond c.condTokens) (hb : Spelling c.isOpen c.body c.bodyTokens)
    (ho : c.isOpen = false) (h : Chain ps o w) :
    Chain ((c.cond, c.body) :: ps) o (c.tokens ++ of .kwElif :: w) := by
  obtain ⟨first, more, last, rfl, rfl, rfl, hcs, hlast, hbs, hos⟩ := h
  refine ⟨c, first :: more, last, by simp, rfl, rfl, forall_mem_cons.2 ⟨hc, hcs⟩, hlast,
    forall_mem_cons.2 ⟨hb, hbs⟩, ?_⟩
  rw [cons_append, dropLast_cons_cons]
  exact forall_mem_cons.2 ⟨ho, hos⟩

theorem spelling (h : Chain ps o w) (p : Position) :
    Spelling o (.branch (ps.map (·.1)) (ps.map (·.2)) p) (of .kwIf :: w) := by
  obtain ⟨first, more, last, rfl, rfl, rfl, hcs, hlast, hbs, hos⟩ := h
  rw [map_map, map_map]
  exact .branch hcs hlast hbs hos

end Chain

namespace Node

variable {L : Lexeme → Prop} {st : Style}

section Clauses

variable {c : Node × Node} {cs : List (Node × Node)} {p : Position}

theorem reread_branch (f : Node → Node) :
    reread f (.branch ((c :: cs).map (·.1)) ((c :: cs).map (·.2)) p) =
      .branch (((f c.1, c.2.reread f) :: later (fun c b => [(f c, b)]) (fun c b => [(c, b)])
          (cs.map fun d => (d.1, d.2.reread f))).map (·.1))
        (((f c.1, c.2.reread f) :: later (fun c b => [(f c, b)]) (fun c b => [(c, b)])
          (cs.map fun d => (d.1, d.2.reread f))).map (·.2)) p := by
  rw [reread, rereads_eq]
  simp [zip_map']

theorem roomy_branch : roomy (.branch ((c :: cs).map (·.1)) ((c :: cs).map (·.2)) p) =
    ((c :: written cs).all (·.2.roomy) && (c :: written cs).dropLast.all (·.2.isBlock)) := by
  rw [roomy, roomyEach_eq]
  have hkept : (c.2.isBlock, c.2.roomy) :: later (fun _ b => [b]) (fun _ b => [b])
      (cs.map fun d => (d.1, d.2.isBlock, d.2.roomy)) =
      (c :: written cs).map fun d => (d.2.isBlock, d.2.roomy) := by
    rw [later_map fun n => (n.isBlock, n.roomy), map_cons]
  simp only [map_cons, map_map, zip_cons_cons, zip_map', Function.comp_def]
  rw [hkept, ← map_dropLast, all_map, all_map]
  rfl

theorem shut_branch : shut (.branch ((c :: cs).map (·.1)) ((c :: cs).map (·.2)) p) =
    cs.getLast?.any fun d => d.1.isTrue && d.2.shut := by
  rcases eq_nil_or_concat cs with rfl | ⟨ds, d, rfl⟩
  · rfl
  · rw [concat_eq_append, shut, ← cons_append, map_append, map_append, map_singleton,
      map_singleton, shutLast_concat, getLast?_concat]
    simp

end Clauses

/-- The tokens of the statement spell what it rereads as, but for semicolons after it. -/
def Reads (t : Bool) (f : Node → Node) (n : Node) : Prop :=
  ∃ w k, n.tokens t = w ++ List.replicate k (of .semi) ∧ Spelling (!n.shut) (n.reread f) w ∧
    (t = false ∨ n.isBlock = true → k = 0)

variable {t : Bool} {f : Node → Node} {n : Node}

theorem Reads.of_spelling (h : Spelling (!n.shut) (n.reread f) (n.tokens t)) : Reads t f n :=
  ⟨_, 0, by simp, h, fun _ => rfl⟩

theorem Reads.body (h : Reads t f n) : ∃ w k,
    bodyTokens t n (n.tokens t) = bodyOf (!n.isBlock) w ++ List.replicate k (of .semi) ∧
      Spelling (!n.shut) (n.reread f) w ∧ (t = false ∨ n.isBlock = true → k = 0) := by
  obtain ⟨w, k, hw, hs, hk⟩ := h
  cases hblock : n.isBlock with
  | true => exact ⟨w, k, by simpa [bodyTokens, hblock, bodyOf] using hw, hs, fun _ => hk (.inr hblock)⟩
  | false =>
    refine ⟨w, k + (closing t).length, ?_, hs, ?_⟩
    · rw [bodyTokens, hblock, hw, replicate_add]
      cases t <;> simp [closing, bodyOf]
    · rintro (rfl | hb)
      · rw [hk (.inl rfl)]
        rfl
      · cases hb

theorem Reads.clause (h : Reads t f n) (cond : Node) (v : List Lexeme) : ∃ (c : Clause) (k : Nat),
    c.cond = cond ∧ c.condTokens = v ∧ c.body = n.reread f ∧ c.isOpen = !n.shut ∧
      bodyTokens t n (n.tokens t) = c.bodyPart ++ List.replicate k (of .semi) ∧
      Spelling c.isOpen c.body c.bodyTokens ∧ (t = false ∨ n.isBlock = true → k = 0) := by
  obtain ⟨w, k, hw, hs, hk⟩ := h.body
  exact ⟨⟨cond, v, !n.isBlock, n.reread f, w, !n.shut⟩, k, rfl, rfl, rfl, rfl, hw, hs, hk⟩

theorem eq_of_isTrue (h : n.isTrue = true) : ∃ q, n = .bool "true" q := by
  unfold isTrue at h
  split at h
  · exact ⟨_, rfl⟩
  · cases h

theorem exists_chain {c : Node × Node} {cs : List (Node × Node)}
    (hw : Written choice (f c.1) c.1.wording)
    (hws : ∀ e ∈ later (fun c es => c :: es) (fun _ es => es) (cs.map fun d => (d.1, d.2.exprs)),
      Written choice (f e) e.wording)
    (hb : ∀ d ∈ c :: written cs, Reads t f d.2)
    (hshut : ∀ d ∈ (c :: cs).dropLast, d.2.shut = true)
    (hblocks : t = true → ∀ d ∈ (c :: written cs).dropLast, d.2.isBlock = true) :
    ∃ w k, c.1.wording ++ (bodyTokens t c.2 (c.2.tokens t) ++
        later (fun c b => of .kwElif :: (c.wording ++ b)) (fun _ b => of .kwElse :: b)
          (cs.map fun d => (d.1, bodyTokens t d.2 (d.2.tokens t)))) =
        w ++ List.replicate k (of .semi) ∧
      Chain ((f c.1, c.2.reread f) :: later (fun c b => [(f c, b)]) (fun c b => [(c, b)])
        (cs.map fun d => (d.1, d.2.reread f))) (!cs.getLast?.any fun d => d.1.isTrue && d.2.shut) w ∧
      (t = false → k = 0) := by
  induction cs generalizing c with
  | nil =>
    obtain ⟨b, k, hcond, htok, hbody, -, htokens, hspell, hk⟩ :=
      (hb c mem_cons_self).clause (f c.1) c.1.wording
    refine ⟨b.tokens, k, ?_, ?_, fun ht => hk (.inl ht)⟩
    · simp [later, htokens, Clause.tokens, htok]
    · rw [← hcond, ← hbody]
      exact .single (by rwa [hcond, htok]) hspell
  | cons d cs ih =>
    rw [forall_mem_cons] at hb
    obtain ⟨b, k, hcond, htok, hbody, hopen, htokens, hspell, hk⟩ := hb.1.clause (f c.1) c.1.wording
    have hwb : Written choice b.cond b.condTokens := by rwa [hcond, htok]
    -- a clause with one more after it is shut, and a block where a semicolon would end the branch
    have hclosed : b.isOpen = false := by rw [hopen, hshut c mem_cons_self, Bool.not_true]
    have hzero (ht : t = true → c.2.isBlock = true) : k = 0 := by
      cases t with
      | false => exact hk (.inl rfl)
      | true => exact hk (.inr (ht rfl))
    cases cs with
    | nil =>
      rw [written_singleton] at hb hblocks
      by_cases htrue : d.1.isTrue = true
      · rw [if_pos htrue] at hb hblocks
        simp only [map_cons, map_nil, later, if_pos htrue]
        obtain ⟨b', k', hcond', -, hbody', hopen', htokens', hspell', hk'⟩ :=
          (hb.2 d mem_cons_self).clause d.1 []
        refine ⟨b.tokens ++ of .kwElse :: b'.bodyPart, k', ?_, ?_, fun ht => hk' (.inl ht)⟩
        · have hk₀ := hzero fun ht => hblocks ht c mem_cons_self
          simp [htokens, htokens', hk₀, Clause.tokens, htok]
        · rw [← hcond, ← hbody, ← hcond', ← hbody']
          have hq : ∃ q, b'.cond = .bool "true" q := hcond' ▸ eq_of_isTrue htrue
          simpa [htrue, hopen'] using Chain.fallback hwb hspell hclosed hq hspell'
      · refine ⟨b.tokens, k, ?_, ?_, fun ht => hk (.inl ht)⟩
        · simp [later, htrue, htokens, Clause.tokens, htok]
        · rw [← hcond, ← hbody]
          simpa [later, htrue] using Chain.single hwb hspell
    | cons d' cs =>
      rw [written_cons] at hb hblocks
      simp only [map_cons, later, forall_mem_append, forall_mem_cons] at hws
      obtain ⟨w, k', hrest, hchain, hk'⟩ := ih (c := d) hws.1.1 hws.2 hb.2
        (fun x hx => hshut x (mem_cons_of_mem _ hx))
        fun ht x hx => hblocks ht x (mem_cons_of_mem _ hx)
      refine ⟨b.tokens ++ of .kwElif :: w, k', ?_, ?_, hk'⟩
      · have hk₀ := hzero fun ht => hblocks ht c mem_cons_self
        simp only [map_cons] at hrest
        simp [later, htokens, hk₀, Clause.tokens, htok, ← hrest]
      · rw [← hcond, ← hbody, getLast?_cons_cons]
        exact hchain.cons hwb hspell hclosed

theorem isEmpty_reread (f : Node → Node) (n : Node) : (n.reread f).isEmpty = n.isEmpty := by
  cases n with
  | branch conds bodies p =>
    rw [reread]
    split <;> rfl
  | _ => rfl

theorem exists_lines (he : .empty ∉ stats) (h : ∀ n ∈ stats, Reads t f n) :
    ∃ items : List Line, stats.map (reread f) = items.map (·.stat) ∧
      lines t stats = items.flatMap Line.all ∧ (∀ i ∈ items, i.stat.isEmpty = false) ∧
      ∀ i ∈ items, Spelling i.isOpen i.stat i.tokens := by
  induction stats with
  | nil => exact ⟨[], rfl, rfl, by simp, by simp⟩
  | cons n ns ih =>
    rw [mem_cons, not_or] at he
    rw [forall_mem_cons] at h
    obtain ⟨items, hstats, hlines, hes, hs⟩ := ih he.2 h.2
    obtain ⟨w, k, htok, hspell, -⟩ := h.1
    refine ⟨⟨n.reread f, w, !n.shut, k + (closing t).length⟩ :: items, ?_, ?_,
      forall_mem_cons.2 ⟨?_, hes⟩, forall_mem_cons.2 ⟨hspell, hs⟩⟩
    · rw [map_cons, map_cons, hstats]
    · have hclosing : closing t = List.replicate (closing t).length (of .semi) := by cases t <;> rfl
      rw [lines, flatMap_cons, hlines, htok, Line.all, replicate_add, ← hclosing]
      simp
    · rw [isEmpty_reread]
      cases n with
      | empty => exact absurd rfl he.1
      | _ => rfl

theorem exists_names {names : List Node} (h : ∀ n ∈ names, ∃ x p, n = .name x p) :
    ∃ xs : List (String × Position), names = xs.map fun x => .name x.1 x.2 := by
  induction names with
  | nil => exact ⟨[], rfl⟩
  | cons n names ih =>
    rw [forall_mem_cons] at h
    obtain ⟨x, p, rfl⟩ := h.1
    obtain ⟨xs, rfl⟩ := ih h.2
    exact ⟨(x, p) :: xs, rfl⟩

theorem NameOf.eq_name (h : NameOf L n) : ∃ x p, n = .name x p := by
  obtain ⟨x, p, rfl, -⟩ := h
  exact ⟨x, p, rfl⟩

theorem Formed.written_place {e : Node} (h : Formed L .place e) (hf : (e.layout st).failure = none) :
    Written path e e.wording := by
  obtain ⟨x, p, rfl⟩ := h.eq_name (by decide) hf
  exact .name

open Layout

/-- In the loose style the tokens of a statement spell what it rereads as, and in the tight style
they do if the statement is roomy. -/
theorem Formed.reads {r : Role} {x : Node} (h : Formed Scanned r x) (hr : r = .stat)
    (hf : (x.layout st).failure = none) (hw : ∀ e ∈ x.exprs, Written choice (f e) e.wording)
    (hroom : t = true → x.roomy = true) : Reads t f x := by
  induction h generalizing st with
  | empty => exact .of_spelling .empty
  | @block stats p he hs ih =>
    rw [layout] at hf
    simp only [failure_append] at hf
    rw [exprs, exprsAll_eq] at hw
    rw [roomy, roomyAll_eq] at hroom
    have hreads : ∀ n ∈ stats, Reads t f n := fun n hn =>
      ih n hn rfl (failure_lines hf.1.1.2 n hn) (fun e he => hw e (mem_flatMap.2 ⟨n, hn, he⟩))
        fun ht => all_eq_true.1 (hroom ht) n hn
    obtain ⟨items, hstats, hlines, hes, hspell⟩ := exists_lines he hreads
    refine .of_spelling ?_
    rw [reread, rereads_eq, hstats, tokens, hlines]
    exact .block hes hspell
  | @declare names inits isConst p hne hn hin hi =>
    obtain ⟨xs, rfl⟩ := exists_names fun n hmem => (hn n hmem).eq_name
    refine .of_spelling ?_
    have hspell := @Spelling.declare xs (inits.map (List.map fun e => (f e, e.wording))) isConst p
      (by simpa using hne) (by simpa using hin) ?_
    · cases inits with
      | none | some es => simpa [reread, tokens, wording, Function.comp_def, shut] using hspell
    · cases inits with
      | none => simp
      | some es => simpa [exprs] using hw
  | @branch conds bodies p hlen hne hconds hb hs ihc ihb =>
    obtain ⟨c, cs, rfl, rfl⟩ := exists_clauses hlen hne
    rw [exprs_branch, forall_mem_cons, forall_mem_append] at hw
    rw [layout_branch] at hf
    rw [roomy_branch] at hroom
    simp only [failure_append] at hf
    simp only [Bool.and_eq_true, all_eq_true] at hroom
    rw [forall_mem_map] at ihb
    have hwritten := failure_written (fun d hd => by simp [getLastD_eq_getLast?, Option.mem_def.1 hd])
      hf.2
    have hwhole : ∀ d ∈ c :: written cs, (writtenBody st d.2).failure = none :=
      forall_mem_cons.2 ⟨hf.1.2, hwritten⟩
    have hreads : ∀ d ∈ c :: written cs, Reads t f d.2 := by
      refine fun d hd => ihb d (cons_subset_cons c (written_subset cs) hd) rfl
        (failure_body (hwhole d hd)) (fun e he => ?_) fun ht => (hroom ht).1 d hd
      rcases mem_cons.1 hd with rfl | hd
      · exact hw.2.1 e he
      · exact hw.2.2 e (exprs_subset_later hd he)
    have hshut : ∀ d ∈ (c :: cs).dropLast, d.2.shut = true := by
      rw [← map_dropLast, forall_mem_map] at hs
      exact hs
    obtain ⟨w, k, htok, hchain, hk⟩ := exists_chain hw.1 hw.2.2 hreads hshut fun ht => (hroom ht).2
    refine ⟨of .kwIf :: w, k, ?_, ?_, fun h => hk (h.resolve_right fun h => by cases h)⟩
    · rw [tokens_branch, htok, cons_append]
    · rw [reread_branch, shut_branch]
      exact hchain.spelling p
  | @whileLoop cond body p hcond hbody _ ih =>
    rw [layout_whileLoop] at hf
    simp only [failure_append] at hf
    rw [exprs, forall_mem_cons] at hw
    obtain ⟨c, k, hc, hct, hcb, hco, htok, hspell, hk⟩ :=
      (ih rfl (failure_body hf.2) hw.2 hroom).clause (f cond) cond.wording
    refine ⟨of .kwWhile :: c.tokens, k, ?_, ?_, fun h => hk (h.imp_right fun h => by cases h)⟩
    · simp [tokens, htok, Clause.tokens, hct]
    · have hwhile := Spelling.whileLoop (p := p) (by rw [hc, hct]; exact hw.1) hspell
      rwa [hco, hc, hcb] at hwhile
  | @forRange var start stop step body p hv hstart hstop hstep hb _ _ _ ih =>
    rw [layout_forRange] at hf
    simp only [failure_append] at hf
    rw [exprs, forall_mem_cons, forall_mem_cons, forall_mem_append] at hw
    obtain ⟨x, q, rfl, -⟩ := hv
    obtain ⟨w, k, htok, hspell, hk⟩ := (ih rfl (failure_body hf.2) hw.2.2.2 hroom).body
    have hfor (step') (hstep' : ∀ i ∈ step', Written choice i.1 i.2) :=
      @Spelling.forRange x (f start, start.wording) (f stop, stop.wording) step' (!body.isBlock)
        (!body.shut) (body.reread f) w p q hw.1 hw.2.1 hstep' hspell
    rw [Reads, tokens, reread, htok]
    cases hmissing : step.isMissing with
    | true =>
      refine ⟨_, k, ?_, hfor none (by simp), fun h => hk (h.imp_right fun h => by cases h)⟩
      simp [wording]
    | false =>
      simp only [hmissing, Bool.false_eq_true, if_false, forall_mem_singleton] at hw
      refine ⟨_, k, ?_, hfor (some (f step, step.wording)) (by simpa using hw.2.2.1),
        fun h => hk (h.imp_right fun h => by cases h)⟩
      simp [wording]
  | breakLoop => exact .of_spelling .breakLoop
  | continueLoop => exact .of_spelling .continueLoop
  | @assign targets sources p hne ht hsn hs _ ihs =>
    rw [layout_assign st hsn] at hf
    simp only [failure_append] at hf
    have hspell := @Spelling.assign (targets.map fun e => (e, e.wording))
      (sources.map fun e => (f e, e.wording)) p (by simpa using hne)
      (forall_mem_map.2 fun e he => (ht e he).written_place (failure_commas hf.1 _ (mem_map_of_mem he)))
      (by simpa using hsn) (forall_mem_map.2 hw)
    exact .of_spelling (by simpa [reread, tokens, shut, Function.comp_def] using hspell)
  | @update op target source p hop ho ht hs =>
    rw [layout] at hf
    simp only [failure_append] at hf
    exact .of_spelling (.update hop (ht.written_place hf.1.1) (hw source mem_cons_self))
  | callStat h =>
    cases h with
    | @call r callee args p hrole hcallee hne ha =>
      rw [layout_call] at hf
      simp only [failure_append] at hf
      obtain ⟨x, q, rfl⟩ := hcallee.eq_name hrole hf.1.1.1
      have hspell := @Spelling.call (.name x q) (args.map (List.map fun e => (f e, e.wording))) p _ .name
        (by simpa using hne) ?_
      · cases args with
        | none => exact .of_spelling (by simpa [reread, tokens, wording, shut] using hspell)
        | some es => exact .of_spelling (by simpa [reread, tokens, wording, shut, Function.comp_def] using hspell)
      · cases args with
        | none => simp
        | some es => simpa [exprs] using hw
  | switch | repeatUntil | forEach | returnValue => cases hf
  | _ => cases hr

end Node

/-! ### Programs -/

/-- What is written for a program is read as the program rereads. -/
theorem FormedProgram.exists_parse {t : Bool} {f : Node → Node} (h : FormedProgram stats)
    (hne : stats ≠ []) (hf : (format t (.program stats)).failure = none)
    (hc : ∀ e ∈ (Node.program stats).exprs, e.clear = true)
    (hw : ∀ e ∈ (Node.program stats).exprs, Written choice (f e) e.wording)
    (hroom : t = true → (Node.program stats).roomy = true) :
    ∃ tree, parse (format t (.program stats)).text = .ok tree ∧
      tree.bare = (Node.reread f (.program stats)).bare := by
  refine ((h.lays hf hc).exists_parse_iff_reads (h.lines_ne_nil hne hf)).2 ?_
  rw [Node.exprs, Node.exprsAll_eq] at hw
  rw [Node.roomy, Node.roomyAll_eq] at hroom
  have hreads : ∀ n ∈ stats, Node.Reads t f n := fun n hn =>
    (h.formed n hn).reads rfl (Node.failure_lines hf n hn)
      (fun e he => hw e (mem_flatMap.2 ⟨n, hn, he⟩)) fun ht => all_eq_true.1 (hroom ht) n hn
  obtain ⟨items, hstats, hlines, hes, hspell⟩ := Node.exists_lines h.empty hreads
  have hlist := Reads.lines (u := Lexeme.eof.token) (z := []) hes (fun i hi => (hspell i hi).reads) (by decide)
  rw [Node.rereads_eq, Node.bareAll_eq, hstats, hlines, map_append, map_map]
  exact hlist

end TinyScript
