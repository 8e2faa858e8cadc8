import PipeLang.Proofs.Eval.Ready
import PipeLang.Proofs.Eval.Steps

/-!
# Calm steps

A step of a task that is ready begins no module if the tasks that it asks for begin none: `step_calm`. Every exported
definition that it reads has its value.
-/

namespace PipeLang.Eval

variable {p : Program} {m : Machine} {run run' : Task → Eval Value} {c : Context} {incoming : Option Value}

lemma module_calm {id : ModuleId} (ready : m.Ready p) :
    Calm p m (module p id) (module p id) fun _ loaded => p.modules[(id : Nat)]? = some loaded := by
  unfold module
  split
  · next found => exact .pure ready found
  · exact .fail ready

lemma resolvedOf_calm {id : ModuleId} (ready : m.Ready p) :
    Calm p m (Eval.resolvedOf p id) (Eval.resolvedOf p id) fun _ t => p.resolvedOf id = some t := by
  refine (module_calm ready).bind fun _ loaded _ ready found => ?_
  cases resolved : loaded.resolved with
  | none => exact .fail ready
  | some t => exact .pure ready (by rw [Program.resolvedOf, found, Option.bind_some, resolved])

lemma assembly_calm {id : ModuleId} (accord : Accord p run run') (ready : m.Ready p)
    (begun : (m.states.lookup id).isSome) : Calm p m (assembly p run id) (assembly p run' id) (Value.Ready p) := by
  refine (module_calm ready).bind fun m₁ loaded later ready _ => ?_
  split
  · refine (accord ready (.module (later.begun begun))).bind fun _ _ _ ready _ => ?_
    refine (Calm.read ready).bind fun m₃ s _ ready same => ?_
    cases value : s.assemblies.lookup id with
    | some v => exact .pure ready (ready.assemblies _ (mem_of_lookup (same ▸ value)))
    | none => exact .fail ready
  · exact .fail ready

/-- A reference that is provided for finds its value. -/
lemma reference_calm {site : Span} {name : String} (accord : Accord p run run') (ready : m.Ready p)
    (provides : m.Provides p c.module [.use site]) :
    Calm p m (reference p run c site name) (reference p run' c site name) (Value.Ready p) := by
  refine (resolvedOf_calm ready).bind fun m₁ t later ready resolved => ?_
  cases found : t.references.get? site with
  | none => exact .fail ready
  | some ref =>
    have has := (provides.later later).uses List.mem_cons_self resolved found
    obtain ⟨target, ty⟩ := ref
    cases target with
    | inner id =>
      refine (Calm.read ready).bind fun m₂ s _ ready same => ?_
      cases value : s.heap.get? c.frame id with
      | some v => exact .pure ready (ready.get (same ▸ value))
      | none => exact .fail ready
    | item id item =>
      refine (Calm.item? ready).bind fun m₂ o later ready same => ?_
      obtain ⟨v, value⟩ := Option.isSome_iff_exists.1 (later.items has)
      rw [value] at same
      subst same
      exact .pure ready (ready.items _ (mem_of_lookup value))
    | module id => exact assembly_calm accord ready has
    | host name => exact .pure ready (Value.holds_host.2 .host)
    | invalid => exact .fail ready

lemma plain_ready {e : Expr} (provides : m.Provides p c.module e.mentions) : Task.Ready p m (.expr c e none) :=
  .expr provides nofun

lemma exprs_calm {es : List Expr} (accord : Accord p run run') (ready : m.Ready p)
    (provides : m.Provides p c.module (Expr.allMentions es)) :
    Calm p m (exprs run c es) (exprs run' c es) fun m' vs => ∀ v ∈ vs, v.Ready p m' := by
  induction es generalizing m with
  | nil => exact .pure ready nofun
  | cons e es ih =>
    simp only [exprs, List.mapM_cons] at ih ⊢
    obtain ⟨head, tail⟩ := provides.both
    refine (accord ready (plain_ready head)).bind fun m₁ v later ready value => ?_
    refine (ih ready (tail.later later)).bind fun m₂ vs later' ready values => .pure ready ?_
    exact List.forall_mem_cons.2 ⟨value.later later', values⟩

lemma arguments_calm {args : List Argument} (accord : Accord p run run') (ready : m.Ready p)
    (provides : m.Provides p c.module (Argument.allMentions args)) :
    Calm p m (arguments run c args) (arguments run' c args) fun m' (positional, keyword) =>
      (∀ v ∈ positional, v.Ready p m') ∧ ∀ entry ∈ keyword, entry.2.Ready p m' := by
  induction args generalizing m with
  | nil => exact .pure ready ⟨List.forall_mem_nil _, List.forall_mem_nil _⟩
  | cons a args ih =>
    obtain ⟨name, value⟩ := a
    obtain ⟨head, tail⟩ := provides.both
    simp only [arguments]
    refine (accord ready (plain_ready head)).bind fun m₁ v later ready value => ?_
    refine (ih ready (tail.later later)).bind fun m₂ given later' ready fits => ?_
    obtain ⟨positional, keyword⟩ := given
    obtain ⟨values, values'⟩ := fits
    cases name with
    | some name => exact .pure ready ⟨values, List.forall_mem_cons.2 ⟨value.later later', values'⟩⟩
    | none => exact .pure ready ⟨List.forall_mem_cons.2 ⟨value.later later', values⟩, values'⟩

lemma outcome_calm {o : Outcome Value} (ready : m.Ready p) (gives : o.Gives (Value.Ready p m)) :
    Calm p m (ofOutcome o) (ofOutcome o) (Value.Ready p) :=
  (Calm.ofOutcome ready gives).imp fun _ _ later value => Value.Ready.later value later

lemma whole_calm {what : String} {v : Value} (ready : m.Ready p) :
    Calm p m (ofOutcome (v.whole what)) (ofOutcome (v.whole what)) fun _ _ => True :=
  .ofOutcome ready (Value.whole_gives what v)

lemma plainExpr_calm {e : Expr} (accord : Accord p run run') (ready : m.Ready p)
    (provides : m.Provides p c.module e.mentions) : Calm p m (plainExpr p run c e) (plainExpr p run' c e) (Value.Ready p) := by
  cases e with
  | name ident => exact reference_calm accord ready provides
  | path head rest span => exact reference_calm accord ready provides
  | literal value span => exact .pure ready Value.holds_literal
  | array items span =>
    exact (exprs_calm accord ready provides).bind fun _ vs _ ready values => .pure ready (Value.holds_array.2 values)
  | range start stop inclusive span =>
    obtain ⟨first, last⟩ := provides.both
    refine (accord ready (plain_ready first)).bind fun _ _ later ready _ => ?_
    refine (whole_calm ready).bind fun _ _ later' ready _ => ?_
    refine (accord ready (plain_ready (last.later (later.trans later')))).bind fun _ _ _ ready _ => ?_
    exact (whole_calm ready).bind fun _ _ _ ready _ => outcome_calm ready (Value.ofRange_gives ..)
  | binary op left right span =>
    obtain ⟨first, last⟩ := provides.both
    refine (accord ready (plain_ready first)).bind fun _ v later ready _ => ?_
    cases decided : op.decided? v with
    | some w => exact .pure ready (BinaryOp.decided_holds decided)
    | none =>
      refine (accord ready (plain_ready (last.later later))).bind fun _ _ _ ready _ => ?_
      exact outcome_calm ready (BinaryOp.apply_gives ..)
  | unary op operand span =>
    have whole : m.Provides p c.module operand.mentions := provides
    exact (accord ready (plain_ready whole)).bind fun _ _ _ ready _ => outcome_calm ready (UnaryOp.apply_gives ..)
  | call callee args span =>
    obtain ⟨first, last⟩ := provides.both
    refine (accord ready (plain_ready first)).bind fun _ f later ready callable => ?_
    refine (arguments_calm accord ready (last.later later)).bind fun _ (_, _) later' ready ⟨values, values'⟩ => ?_
    exact accord ready (.call (callable.later later') values values')
  | index base index span =>
    obtain ⟨first, last⟩ := provides.both
    refine (accord ready (plain_ready first)).bind fun _ v later ready value => ?_
    refine (accord ready (plain_ready (last.later later))).bind fun _ _ later' ready _ => ?_
    exact outcome_calm ready (Value.itemAt_gives _ (value.later later'))
  | lambda f => exact .makeClosure ready provides
  | block b => exact accord ready (.block provides nofun)
  | branch b => exact accord ready (.branch provides nofun)
  | pipeline pl =>
    obtain ⟨stages, span⟩ := pl
    exact accord ready (.pipeline provides nofun)
  | loop l => exact accord ready (.loop provides nofun)

lemma stageExpr_calm {e : Expr} {v : Value} (accord : Accord p run run') (ready : m.Ready p)
    (provides : m.Provides p c.module e.mentions) (value : v.Ready p m) :
    Calm p m (stageExpr run c v e) (stageExpr run' c v e) (Value.Ready p) := by
  have passed : ∀ w ∈ some v, w.Ready p m := fun w e => Option.some.inj e ▸ value
  have called {e : Expr} (provides : m.Provides p c.module e.mentions) :
      Calm p m (run (.expr c e none) >>= fun f => run (.call f [v] []))
        (run' (.expr c e none) >>= fun f => run' (.call f [v] [])) (Value.Ready p) := by
    refine (accord ready (plain_ready provides)).bind fun _ f later ready callable => ?_
    exact accord ready (.call callable (List.forall_mem_singleton.2 (value.later later)) nofun)
  cases e with
  | name ident => exact called provides
  | path head rest span => exact called provides
  | call callee args span =>
    obtain ⟨first, last⟩ := provides.both
    refine (accord ready (plain_ready first)).bind fun _ f later ready callable => ?_
    refine (arguments_calm accord ready (last.later later)).bind fun _ (_, _) later' ready ⟨values, values'⟩ => ?_
    have passed := (value.later later).later later'
    exact accord ready (.call (callable.later later') (List.forall_mem_cons.2 ⟨passed, values⟩) values')
  | block b => exact accord ready (.block provides passed)
  | branch b => exact accord ready (.branch provides passed)
  | pipeline pl =>
    obtain ⟨stages, span⟩ := pl
    exact accord ready (.pipeline provides passed)
  | loop l => exact accord ready (.loop provides passed)
  | _ => exact .fail ready

lemma expr_calm {e : Expr} (accord : Accord p run run') (ready : m.Ready p)
    (provides : m.Provides p c.module e.mentions) (values : ∀ v ∈ incoming, v.Ready p m) :
    Calm p m (expr p run c e incoming) (expr p run' c e incoming) (Value.Ready p) := by
  cases incoming with
  | none => exact plainExpr_calm accord ready provides
  | some v => exact stageExpr_calm accord ready provides (values v rfl)

/-! ### Statements -/

/-- An exported definition has its value when its name has been given one. -/
lemma bindDefinition_calm {name : Ident} {v : Value} (ready : m.Ready p) (value : v.Ready p m) :
    Calm p m (bindDefinition p c name v) (bindDefinition p c name v) fun m' _ => ∀ t b id item,
      p.resolvedOf c.module = some t → t.declarations.get? name.span = some b → t.scopes.target b = .item id item →
        (m'.items.lookup (id, item)).isSome := by
  refine (resolvedOf_calm ready).bind fun m₁ t later ready resolved => ?_
  replace value := value.later later
  cases declared : t.declarations.get? name.span with
  | none => exact .fail ready
  | some b =>
    have same (t' : Resolved) (b' : BindingId) (resolved' : p.resolvedOf c.module = some t')
        (declared' : t'.declarations.get? name.span = some b') : t'.scopes.target b' = t.scopes.target b := by
      rw [resolved, Option.some.injEq] at resolved'
      subst resolved'
      rw [declared, Option.some.injEq] at declared'
      rw [declared']
    dsimp only
    cases target : t.scopes.target b with
    | item id item =>
      refine (Calm.setItem ready value).imp fun _ _ _ has t' b' id' item' resolved' declared' target' => ?_
      rw [same t' b' resolved' declared', target] at target'
      cases target'
      exact has
    | _ =>
      refine (Calm.define ready value).imp fun _ _ _ _ t' b' id' item' resolved' declared' target' => ?_
      rw [same t' b' resolved' declared', target] at target'
      cases target'

lemma definedValue_calm {name : Ident} {value : Expr} (accord : Accord p run run') (ready : m.Ready p)
    (provides : m.Provides p c.module value.mentions) :
    Calm p m (definedValue run c name value) (definedValue run' c name value) (Value.Ready p) := by
  cases value with
  | lambda f => exact .makeClosure ready provides
  | _ => exact accord ready (plain_ready provides)

lemma statement_calm {s : Statement} (accord : Accord p run run') (ready : m.Ready p)
    (provides : m.Provides p c.module s.mentions) :
    Calm p m (statement p run c s) (statement p run' c s) (Value.Ready p) := by
  cases s with
  | importing i => exact absurd List.mem_cons_self (provides.imports i)
  | expr e span => exact accord ready (plain_ready provides)
  | define exported name value span =>
    rw [statement_define, statement_define]
    refine (definedValue_calm accord ready provides).bind fun m₁ v _ ready value => ?_
    exact (bindDefinition_calm ready value).bind fun _ _ _ ready _ => .pure ready Value.holds_unit

lemma blockStatements_calm {ss : List Statement} (accord : Accord p run run') (ready : m.Ready p)
    (provides : m.Provides p c.module (Statement.allMentions ss)) (values : ∀ v ∈ incoming, v.Ready p m) :
    Calm p m (blockStatements run c incoming ss) (blockStatements run' c incoming ss) (Value.Ready p) := by
  have passOver {m : Machine} (ready : m.Ready p) :
      Calm p m (blockStatements.passOver incoming) (blockStatements.passOver incoming) (Value.Ready p) := by
    cases incoming with
    | none => exact .pure ready Value.holds_unit
    | some v => exact .fail ready
  induction ss generalizing m with
  | nil => exact passOver ready
  | cons s ss ih =>
    obtain ⟨head, tail⟩ := provides.both
    cases ss with
    | nil =>
      cases s with
      | expr e span => exact accord ready (.expr head values)
      | _ => exact (accord ready (.statement head)).bind fun _ _ _ ready _ => passOver ready
    | cons next ss =>
      rw [blockStatements_cons, blockStatements_cons]
      refine (accord ready (.statement head)).bind fun _ _ later ready _ => ?_
      exact ih ready (tail.later later) fun v given => (values v given).later later

lemma block_calm {b : Block} (accord : Accord p run run') (ready : m.Ready p)
    (provides : m.Provides p c.module b.mentions) (values : ∀ v ∈ incoming, v.Ready p m) :
    Calm p m (block run c b incoming) (block run' c b incoming) (Value.Ready p) := by
  obtain ⟨statements, span⟩ := b
  refine (Calm.inside ready).bind fun m₁ c' later ready same => ?_
  have provides' : m₁.Provides p c'.module (Statement.allMentions statements) := same ▸ provides.later later
  exact blockStatements_calm accord ready provides' fun v given => (values v given).later later

/-! ### Compound expressions -/

lemma passed_ready (ready : m.Ready p) (values : ∀ v ∈ incoming, v.Ready p m) :
    Calm p m (pure (incoming.getD .unit)) (pure (incoming.getD .unit)) (Value.Ready p) := by
  cases incoming with
  | none => exact .pure ready Value.holds_unit
  | some v => exact .pure ready (values v rfl)

lemma branch_calm {b : Branch} (accord : Accord p run run') (ready : m.Ready p)
    (provides : m.Provides p c.module b.mentions) (values : ∀ v ∈ incoming, v.Ready p m) :
    Calm p m (branch run c b incoming) (branch run' c b incoming) (Value.Ready p) := by
  obtain ⟨condition, consequence, alternative, span⟩ := b
  obtain ⟨both, last⟩ := provides.both
  obtain ⟨first, second⟩ := both.both
  refine (accord ready (plain_ready first)).bind fun m₁ v later ready _ => ?_
  replace second := second.later later
  replace last := last.later later
  replace values : ∀ v ∈ incoming, v.Ready p m₁ := fun v given => (values v given).later later
  cases v with
  | bool decision =>
    cases decision with
    | true => exact accord ready (.block second values)
    | false =>
      cases alternative with
      | absent => exact passed_ready ready values
      | block other => exact accord ready (.block last values)
      | branch other => exact accord ready (.branch last values)
  | _ => exact .fail ready

lemma bindTag_calm {tag : Option Ident} {v : Value} (ready : m.Ready p) (value : v.Ready p m) :
    Calm p m (bindTag p c v tag) (bindTag p c v tag) fun _ _ => True := by
  cases tag with
  | none => exact .pure ready trivial
  | some name =>
    refine (resolvedOf_calm ready).bind fun m₁ t later ready _ => ?_
    cases t.declarations.get? name.span with
    | none => exact .fail ready
    | some id => exact .define ready (value.later later)

lemma stage_calm {s : Stage} (accord : Accord p run run') (ready : m.Ready p)
    (provides : m.Provides p c.module s.mentions) (values : ∀ v ∈ incoming, v.Ready p m) :
    Calm p m (stage run c incoming s) (stage run' c incoming s) (Value.Ready p) := by
  cases s with
  | expr e tag span => exact accord ready (.expr provides values)
  | operator op operand tag span =>
    have whole : m.Provides p c.module operand.mentions := provides
    cases incoming with
    | none => exact .fail ready
    | some left =>
      exact (accord ready (plain_ready whole)).bind fun _ _ _ ready _ => outcome_calm ready (BinaryOp.apply_gives ..)

lemma pipeline_calm {stages : List Stage} (accord : Accord p run run') (ready : m.Ready p)
    (provides : m.Provides p c.module (Stage.allMentions stages)) (values : ∀ v ∈ incoming, v.Ready p m) :
    Calm p m (pipeline p run c incoming stages) (pipeline p run' c incoming stages) (Value.Ready p) := by
  induction stages generalizing m incoming with
  | nil => exact passed_ready ready values
  | cons s stages ih =>
    obtain ⟨head, tail⟩ := provides.both
    refine (stage_calm accord ready head values).bind fun m₁ v later ready value => ?_
    refine (bindTag_calm ready value).bind fun m₂ _ later' ready _ => ?_
    refine ih ready (tail.later (later.trans later')) fun w e => ?_
    exact Option.some.inj e ▸ value.later later'

/-- What a loop has made so far is ready. -/
structure LoopProgress.Ready (p : Program) (m : Machine) (progress : LoopProgress) : Prop where
  folded : ∀ v ∈ progress.folded, v.Ready p m
  mapped : ∀ v ∈ progress.mapped, v.Ready p m

lemma iterate_calm {l : Loop} {progress : LoopProgress} (accord : Accord p run run') (ready : m.Ready p)
    (provides : m.Provides p c.module (Stage.allMentions l.body.stages)) (made : progress.Ready p m) :
    Calm p m (iterate run c l progress) (iterate run' c l progress) fun m' next => next.Ready p m' := by
  refine (accord ready (.pipeline provides made.folded)).bind fun m₁ w later ready result => ?_
  have mapped : ∀ v ∈ progress.mapped, v.Ready p m₁ := fun v member => (made.mapped v member).later later
  cases progress.folded with
  | some u => exact .pure ready ⟨fun _ e => Option.some.inj e ▸ result, mapped⟩
  | none => exact .pure ready ⟨nofun, List.forall_mem_cons.2 ⟨result, mapped⟩⟩

lemma iteration_calm {l : Loop} {bound? : Option BindingId} {progress : LoopProgress} {v : Value}
    (accord : Accord p run run') (ready : m.Ready p) (provides : m.Provides p c.module (Stage.allMentions l.body.stages))
    (made : progress.Ready p m) (element : v.Ready p m) :
    Calm p m (iteration run c l bound? progress v) (iteration run' c l bound? progress v)
      fun m' next => next.Ready p m' := by
  refine (Calm.inside ready).bind fun m₁ c' later₁ ready same => ?_
  have body {m₂ : Machine} (later₂ : m₁.Later m₂) (ready : m₂.Ready p) :
      Calm p m₂ (iterate run c' l progress) (iterate run' c' l progress) fun m' next => next.Ready p m' := by
    have later := later₁.trans later₂
    refine iterate_calm accord ready (same ▸ provides.later later) ⟨fun w e => ?_, fun w member => ?_⟩
    · exact (made.folded w e).later later
    · exact (made.mapped w member).later later
  cases bound? with
  | some id => exact (Calm.define ready (element.later later₁)).bind fun _ _ later₂ ready _ => body later₂ ready
  | none => exact body .refl ready

lemma iterations_calm {l : Loop} {bound? : Option BindingId} {progress : LoopProgress} {elements : List Value}
    (accord : Accord p run run') (ready : m.Ready p) (provides : m.Provides p c.module (Stage.allMentions l.body.stages))
    (made : progress.Ready p m) (values : ∀ v ∈ elements, v.Ready p m) :
    Calm p m (elements.foldlM (iteration run c l bound?) progress) (elements.foldlM (iteration run' c l bound?) progress)
      fun m' last => last.Ready p m' := by
  induction elements generalizing m progress with
  | nil => exact .pure ready made
  | cons v elements ih =>
    obtain ⟨head, tail⟩ := List.forall_mem_cons.1 values
    rw [List.foldlM_cons, List.foldlM_cons]
    refine (iteration_calm accord ready provides made head).bind fun _ next later ready made => ?_
    exact ih ready (provides.later later) made fun v member => (tail v member).later later

lemma collectTags_calm {frames : List FrameId} {tags : List BindingId} (ready : m.Ready p) :
    Calm p m (tags.forM (collectTag c frames)) (tags.forM (collectTag c frames)) fun _ _ => True := by
  induction tags generalizing m with
  | nil => exact .pure ready trivial
  | cons tag tags ih =>
    have collected : Calm p m (collectTag c frames tag) (collectTag c frames tag) fun _ _ => True := by
      refine (Calm.read ready).bind fun m₁ s _ ready same => .define ready ?_
      refine Value.holds_array.2 fun v member => ?_
      obtain ⟨f, -, found⟩ := List.mem_filterMap.1 member
      exact ready.getLocal (same ▸ found)
    show Calm p m (collectTag c frames tag >>= fun _ => tags.forM _) _ _
    exact collected.bind fun _ _ _ ready _ => ih ready

lemma loop_calm {l : Loop} (accord : Accord p run run') (ready : m.Ready p)
    (provides : m.Provides p c.module l.mentions) (values : ∀ v ∈ incoming, v.Ready p m) :
    Calm p m (loop p run c l incoming) (loop p run' c l incoming) (Value.Ready p) := by
  obtain ⟨sequence, binding, ⟨stages, bodySpan⟩, span⟩ := l
  obtain ⟨first, last⟩ := provides.both
  refine (accord ready (plain_ready first)).bind fun m₁ v later₁ ready elements => ?_
  cases v with
  | array items =>
    refine (resolvedOf_calm ready).bind fun m₂ t later₂ ready _ => ?_
    have later := later₁.trans later₂
    have start : LoopProgress.Ready p m₂ ⟨incoming, [], []⟩ := ⟨fun v given => (values v given).later later, nofun⟩
    have items : ∀ v ∈ items, v.Ready p m₂ := fun v member => Value.Ready.later (Value.holds_array.1 elements v member) later₂
    refine (iterations_calm accord ready (last.later later) start items).bind fun m₃ final later₃ ready made => ?_
    refine (collectTags_calm ready).bind fun m₄ _ later₄ ready _ => ?_
    cases folded : final.folded with
    | some v => exact .pure ready ((made.folded v folded).later later₄)
    | none =>
      exact .pure ready (Value.holds_array.2 fun v member => (made.mapped v (List.mem_reverse.1 member)).later later₄)
  | _ => exact .fail ready

/-! ### Calls -/

lemma bindParams_calm {callee : String} {count : Nat} {t : Resolved} {places : List (Param × Option Value)}
    (accord : Accord p run run') (ready : m.Ready p)
    (provides : m.Provides p c.module (Param.allMentions (places.map Prod.fst)))
    (values : ∀ place ∈ places, ∀ v ∈ place.2, v.Ready p m) :
    Calm p m (bindParams run callee count t c places) (bindParams run' callee count t c places) fun _ _ => True := by
  induction places generalizing m with
  | nil => exact .pure ready trivial
  | cons place places ih =>
    obtain ⟨⟨name, note, fallback, span⟩, given⟩ := place
    obtain ⟨first, others⟩ := List.forall_mem_cons.1 values
    have tail : m.Provides p c.module (Param.allMentions (places.map Prod.fst)) := by
      cases fallback with
      | none => exact provides
      | some e => exact provides.both.2
    have bound (m₁ : Machine) (v : Value) (later₁ : m.Later m₁) (ready : m₁.Ready p) (value : v.Ready p m₁) :
        Calm p m₁ (bindParam run callee count t c ⟨name, note, fallback, span⟩ places v)
          (bindParam run' callee count t c ⟨name, note, fallback, span⟩ places v) fun _ _ => True := by
      refine (Calm.ofOutcome ready checkArgument_gives).bind fun m₂ _ later₂ ready _ => ?_
      have rest {m₃ : Machine} (later₃ : m₂.Later m₃) (ready : m₃.Ready p) :
          Calm p m₃ (bindParams run callee count t c places) (bindParams run' callee count t c places) fun _ _ => True := by
        have later := later₁.trans (later₂.trans later₃)
        exact ih ready (tail.later later) fun place member v e => (others place member v e).later later
      dsimp only
      cases t.declarations.get? name.span with
      | some id => exact (Calm.define ready (value.later later₂)).bind fun _ _ later₃ ready _ => rest later₃ ready
      | none => exact rest .refl ready
    cases given with
    | some v => exact (Calm.pure ready (first v rfl)).bind bound
    | none =>
      cases fallback with
      | some e => exact (accord ready (plain_ready provides.both.1)).bind bound
      | none => exact (Calm.fail (Q := Value.Ready p) ready).bind bound

lemma callClosure_calm {f : Closure} {positional : List Value} {keyword : List (String × Value)}
    (accord : Accord p run run') (ready : m.Ready p) (provides : m.Provides p f.module f.lambda.mentions)
    (values : ∀ v ∈ positional, v.Ready p m) (values' : ∀ entry ∈ keyword, entry.2.Ready p m) :
    Calm p m (callClosure p run f positional keyword) (callClosure p run' f positional keyword) (Value.Ready p) := by
  obtain ⟨name, module, ⟨params, returns, body, span⟩, frame, identity⟩ := f
  refine (Calm.ofOutcome ready (bindSlots_gives values values')).bind fun m₁ given later₁ ready givens => ?_
  refine (Calm.inside ready).bind fun m₂ c later₂ ready same => ?_
  refine (resolvedOf_calm ready).bind fun m₃ t later₃ ready _ => ?_
  have later := later₁.trans (later₂.trans later₃)
  obtain ⟨first, last⟩ := (provides.later later).both
  have places : m₃.Provides p c.module (Param.allMentions ((params.zip given).map Prod.fst)) := by
    rw [same]
    refine first.part fun mention member => ?_
    obtain ⟨q, among, e, default, inside⟩ := Param.mem_allMentions.1 member
    obtain ⟨place, zipped, rfl⟩ := List.mem_map.1 among
    exact Param.mem_allMentions.2 ⟨_, (List.of_mem_zip zipped).1, e, default, inside⟩
  have slots : ∀ place ∈ params.zip given, ∀ v ∈ place.2, v.Ready p m₃ := fun place member v e =>
    Value.Ready.later (givens v (e ▸ (List.of_mem_zip member).2)) later
  refine (bindParams_calm accord ready places slots).bind fun m₄ _ later₄ ready _ => ?_
  have provided : m₄.Provides p c.module body.mentions := same ▸ last.later later₄
  refine (accord ready (plain_ready provided)).bind fun m₅ v _ ready value => ?_
  cases returns with
  | none => exact .pure ready value
  | some note =>
    by_cases conforms : v.conforms note.ty
    · simp only [conforms, if_true]
      exact .pure ready value
    · simp only [conforms]
      exact .fail ready

lemma callHost_calm {name : String} {positional : List Value} {keyword : List (String × Value)}
    (honest : p.hosts.Honest) (ready : m.Ready p) (values : ∀ v ∈ positional, v.Ready p m)
    (values' : ∀ entry ∈ keyword, entry.2.Ready p m) :
    Calm p m (callHost p name positional keyword) (callHost p name positional keyword) (Value.Ready p) := by
  unfold callHost
  cases found : p.hosts.get? name with
  | none => exact .fail ready
  | some f =>
    dsimp only
    refine (Calm.ofOutcome ready (bindSlots_gives values values')).bind fun m₁ given later₁ ready givens => ?_
    refine (Calm.ofOutcome ready (hostArguments_gives fun place member v e =>
      givens v (e ▸ (List.of_mem_zip member).2))).bind fun m₂ args later₂ ready fit => ?_
    refine (Calm.freshIdentity ready).bind fun m₃ serial later₃ ready _ => ?_
    cases answer : f.apply serial args with
    | error message => exact .fail ready
    | ok v =>
      have serves : v.Ready p m := fun g member => by
        rcases honest name f found serial args v answer g member with ⟨other, rfl, -⟩ | ⟨⟨a, among, inside⟩, new⟩
        · exact .host
        · rcases fit a among with holds | ⟨place, member, default⟩
          · exact holds g inside
          · exact absurd inside (new _ (List.of_mem_zip member).1 a default)
      exact .pure ready (serves.later (later₁.trans (later₂.trans later₃)))

lemma call_calm {callee : Value} {positional : List Value} {keyword : List (String × Value)}
    (honest : p.hosts.Honest) (accord : Accord p run run') (ready : m.Ready p) (callable : callee.Ready p m)
    (values : ∀ v ∈ positional, v.Ready p m) (values' : ∀ entry ∈ keyword, entry.2.Ready p m) :
    Calm p m (call p run callee positional keyword) (call p run' callee positional keyword) (Value.Ready p) := by
  cases callee with
  | closure f =>
    cases Value.holds_closure.1 callable with
    | closure provides => exact callClosure_calm accord ready provides values values'
  | host name => exact callHost_calm honest ready values values'
  | _ => exact .fail ready

/-- A module that has been begun is not begun again. -/
lemma ensureModule_calm {id : ModuleId} (ready : m.Ready p) (begun : (m.states.lookup id).isSome) :
    Calm p m (ensureModule p run id) (ensureModule p run' id) fun _ _ => True := by
  refine (Calm.read ready).bind fun m' s later ready same => ?_
  replace begun : (s.states.lookup id).isSome := same ▸ later.begun begun
  obtain ⟨state, known⟩ := Option.isSome_iff_exists.1 begun
  rw [known]
  cases state with
  | failed e => exact .fail ready
  | _ => exact .pure ready trivial

/-- A step of a task that is ready does the same over evaluations in accord, and begins no module. -/
theorem step_calm {task : Task} (honest : p.hosts.Honest) (accord : Accord p run run') (ready : m.Ready p)
    (asks : task.Ready p m) : Calm p m (step p run task) (step p run' task) (Value.Ready p) := by
  cases asks with
  | expr provides values => exact expr_calm accord ready provides values
  | statement provides => exact statement_calm accord ready provides
  | block provides values => exact block_calm accord ready provides values
  | branch provides values => exact branch_calm accord ready provides values
  | pipeline provides values => exact pipeline_calm accord ready provides values
  | loop provides values => exact loop_calm accord ready provides values
  | call callable values values' => exact call_calm honest accord ready callable values values'
  | module begun => exact (ensureModule_calm ready begun).bind fun _ _ _ ready _ => .pure ready Value.holds_unit

end PipeLang.Eval
