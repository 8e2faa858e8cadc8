import PipeLang.Proofs.Eval.Written

/-!
# What each task writes

A piece of syntax is evaluated once in each frame, and gives values to its own names only, which have places of their own. What a
loop, a block, a call or a module evaluates in its frames writes to no frame that was there. There is one lemma for each kind of
task, and `Eval.step_writes` for all of them.
-/

namespace PipeLang

open Eval

variable {p : Program} {regions regions' : Regions} {asks : Task → Prop} {run : Task → Eval Value} {m m' : Machine}
  {c : Context} {incoming : Option Value} {id : ModuleId}

/-- The tags in a stage without its own. -/
def Stage.innerTags : Stage → List Ident
  | .expr e _ _ => e.tags
  | .operator _ operand _ _ => operand.tags

lemma Stage.tags_eq (s : Stage) : s.tags = s.innerTags ++ s.tag.toList := by
  cases s <;> rfl

lemma Lambda.pieces_eq (f : Lambda) : f.pieces = .lambda f :: (Param.allPieces f.params ++ f.body.pieces) := by
  cases f
  rfl

lemma Block.pieces_eq (b : Block) : b.pieces = .block b :: Statement.allPieces b.statements := by
  cases b
  rfl

lemma Loop.pieces_eq (l : Loop) : l.pieces = .loop l :: (l.sequence.pieces ++ Stage.allPieces l.body.stages) := by
  obtain ⟨_, _, ⟨_, _⟩, _⟩ := l
  rfl

lemma Loop.tags_eq (l : Loop) : l.tags = l.sequence.tags ++ Stage.allTags l.body.stages := by
  obtain ⟨_, _, ⟨_, _⟩, _⟩ := l
  rfl

namespace Eval

/-- What is known where tasks are evaluated: the frames of modules are laid out, tasks of a kind write so, and every task is of the
kind that has an incoming value where it needs one. -/
structure Setting (p : Program) (asks : Task → Prop) (run : Task → Eval Value) : Prop where
  rest : p.AtRest
  honest : p.hosts.Honest
  laid : p.Laid
  writing : Writing p asks run
  free : ∀ {task : Task}, task.Supplied → asks task

section

variable (setting : Setting p asks run)
include setting

/-- A task that has an incoming value where it needs one. -/
lemma Setting.task (task : Task) (supplied : task.Supplied) (written : task.Written p regions m) :
    Writes p regions asks run (task.binds p) m (fun run => run task) (Value.Written p) :=
  .ask setting.writing (setting.free supplied) written

/-- An expression without an incoming value. -/
lemma Setting.plain {e : Expr} (hosts : c.Hosts p regions e.pieces) (on : c.Awaits p regions e.tags m) :
    Writes p regions asks run (c.binds p e.tags) m (fun run => run (.expr c e none)) (Value.Written p) :=
  setting.task (.expr c e none) trivial ⟨hosts, on, nofun⟩

lemma assembly_writes (written : m.Written p regions) :
    Writes p regions asks run Machine.nowhere m (fun run => assembly p run id) (Value.Written p) := by
  unfold assembly module
  cases p.modules[(id : Nat)]? with
  | none => exact .fail written
  | some l =>
    simp only [pure_bind]
    split
    · refine (setting.task (.module id) trivial written).last fun _ _ m' _ written _ => .look ?_
      cases value : m'.assemblies.lookup id with
      | some v => exact .pure written (written.assemblies _ (mem_of_lookup value))
      | none => exact .fail written
    · exact .fail written

lemma reference_writes {site : Span} {name : String} (written : m.Written p regions) :
    Writes p regions asks run Machine.nowhere m (fun run => reference p run c site name) (Value.Written p) := by
  refine .resolvedOf written fun t _ => ?_
  cases t.references.get? site with
  | none => exact .fail written
  | some ref =>
    obtain ⟨target, ty⟩ := ref
    cases target with
    | inner b =>
      refine .look ?_
      cases value : m.heap.get? c.frame b with
      | some v => exact .pure written (written.get value)
      | none => exact .fail written
    | item other item =>
      have value {regions : Regions} {m : Machine} {v : Value} (written : m.Written p regions)
          (known : m.items.lookup (other, item) = some v) : v.Written p regions :=
        written.items _ (mem_of_lookup known)
      refine .look ?_
      cases known : m.items.lookup (other, item) with
      | some v => exact .pure written (value written known)
      | none =>
        refine (setting.task (.module other) trivial written).last fun _ _ m' _ written _ => .look ?_
        cases known : m'.items.lookup (other, item) with
        | some v => exact .pure written (value written known)
        | none => exact .fail written
    | module other => exact assembly_writes setting written
    | host name => exact .pure written Value.written_host
    | invalid => exact .fail written

lemma exprs_writes {es : List Expr} (hosts : c.Hosts p regions (Expr.allPieces es))
    (on : c.Awaits p regions (Expr.allTags es) m) :
    Writes p regions asks run (c.binds p (Expr.allTags es)) m (fun run => exprs run c es) fun regions' vs =>
      ∀ v ∈ vs, v.Written p regions' := by
  induction es generalizing m regions with
  | nil => exact .pure on.written nofun
  | cons e es ih =>
    simp only [exprs, List.mapM_cons] at ih ⊢
    refine .bind on (setting.plain hosts.left on.left) fun regions₁ v m₁ grows on value => ?_
    refine (ih (hosts.right.later grows) on).last fun regions₂ vs m₂ grows written values => .pure written ?_
    exact List.forall_mem_cons.2 ⟨value.later grows, values⟩

lemma arguments_writes {args : List Argument} (hosts : c.Hosts p regions (Argument.allPieces args))
    (on : c.Awaits p regions (Argument.allTags args) m) :
    Writes p regions asks run (c.binds p (Argument.allTags args)) m (fun run => arguments run c args)
      fun regions' (positional, keyword) =>
        (∀ v ∈ positional, v.Written p regions') ∧ ∀ entry ∈ keyword, entry.2.Written p regions' := by
  induction args generalizing m regions with
  | nil => exact .pure on.written ⟨List.forall_mem_nil _, List.forall_mem_nil _⟩
  | cons a args ih =>
    obtain ⟨name?, e⟩ := a
    simp only [arguments]
    refine .bind on (setting.plain hosts.left on.left) fun regions₁ v m₁ grows on value => ?_
    refine (ih (hosts.right.later grows) on).last fun regions₂ given m₂ grows written fits => ?_
    obtain ⟨positional, keyword⟩ := given
    obtain ⟨fit, fit'⟩ := fits
    cases name? with
    | some name => exact .pure written ⟨fit, List.forall_mem_cons.2 ⟨value.later grows, fit'⟩⟩
    | none => exact .pure written ⟨List.forall_mem_cons.2 ⟨value.later grows, fit⟩, fit'⟩

omit setting in
lemma whole_writes {what : String} {v : Value} (written : m.Written p regions) :
    Writes p regions asks run Machine.nowhere m (fun _ => ofOutcome (v.whole what)) fun _ _ => True :=
  .ofOutcome written (Value.whole_gives what v)

lemma plainExpr_writes {e : Expr} (hosts : c.Hosts p regions e.pieces) (on : c.Awaits p regions e.tags m) :
    Writes p regions asks run (c.binds p e.tags) m (fun run => plainExpr p run c e) (Value.Written p) := by
  cases e with
  | name ident => exact (reference_writes setting on.written).elsewhere
  | path head others span => exact (reference_writes setting on.written).elsewhere
  | literal value span => exact .pure on.written Value.holds_literal
  | array items span =>
    exact (exprs_writes setting hosts on).last fun _ _ _ _ written values => .pure written (Value.holds_array.2 values)
  | range start stop inclusive span =>
    refine .bind on (setting.plain hosts.left on.left) fun regions₁ _ m₁ grows on _ => ?_
    refine (whole_writes on.written).late on fun regions₂ _ m₂ grows' on _ => ?_
    refine (setting.plain ((hosts.right.later grows).later grows') on).last fun regions₃ _ m₃ _ written _ => ?_
    exact (whole_writes written).last fun regions₄ _ m₄ _ written _ => .ofOutcome written (Value.ofRange_gives ..)
  | binary op left right span =>
    refine .bind on (setting.plain hosts.left on.left) fun regions₁ v m₁ grows on _ => ?_
    cases decided : op.decided? v with
    | some w => exact .pure on.written (BinaryOp.decided_holds decided)
    | none =>
      exact (setting.plain (hosts.right.later grows) on).last fun _ _ _ _ written _ =>
        .ofOutcome written (BinaryOp.apply_gives ..)
  | unary op operand span =>
    refine Writes.last (setting.plain (e := operand) hosts on) fun regions₁ v m₁ _ written _ => ?_
    exact .ofOutcome written (UnaryOp.apply_gives op v)
  | call callee args span =>
    refine .bind on (setting.plain hosts.left on.left) fun regions₁ f m₁ grows on callable => ?_
    refine (arguments_writes setting (hosts.right.later grows) on).last
      fun regions₂ (_, _) m₂ grows' written ⟨fit, fit'⟩ => ?_
    exact setting.task (.call _ _ _) trivial ⟨written, callable.later grows', fit, fit'⟩
  | index base index span =>
    refine .bind on (setting.plain hosts.left on.left) fun regions₁ _ m₁ grows on value => ?_
    refine (setting.plain (hosts.right.later grows) on).last fun regions₂ _ m₂ grows' written _ => ?_
    exact .ofOutcome written (Value.itemAt_gives _ (value.later grows'))
  | lambda f => exact .makeClosure on.written hosts
  | block b => exact (setting.task (.block c b none) trivial ⟨hosts, on.written, nofun⟩).elsewhere
  | branch b => exact setting.task (.branch c b none) trivial ⟨hosts, on, nofun⟩
  | pipeline pl =>
    obtain ⟨stages, span⟩ := pl
    -- a pipeline does not begin with an operator
    have shaped := hosts.there.shaped setting.laid _ List.mem_cons_self
    exact setting.task (.pipeline c stages none) shaped.2 ⟨hosts.tail, on, nofun⟩
  | loop l => exact setting.task (.loop c l none) trivial ⟨hosts, on, nofun⟩

lemma stageExpr_writes {e : Expr} {v : Value} (hosts : c.Hosts p regions e.pieces) (on : c.Awaits p regions e.tags m)
    (value : v.Written p regions) :
    Writes p regions asks run (c.binds p e.tags) m (fun run => stageExpr run c v e) (Value.Written p) := by
  have passed : ∀ w ∈ some v, w.Written p regions := fun w same => Option.some.inj same ▸ value
  -- a name or path is called with the incoming value
  have called (e : Expr) (hosts : c.Hosts p regions e.pieces) (on : c.Awaits p regions e.tags m) :
      Writes p regions asks run (c.binds p e.tags) m (fun run => run (.expr c e none) >>= fun f => run (.call f [v] []))
        (Value.Written p) :=
    (setting.plain hosts on).last fun regions₁ f m₁ grows written callable =>
      setting.task (.call f [v] []) trivial ⟨written, callable, List.forall_mem_singleton.2 (value.later grows), nofun⟩
  cases e with
  | call callee args span =>
    refine .bind on (setting.plain hosts.left on.left) fun regions₁ f m₁ grows on callable => ?_
    refine (arguments_writes setting (hosts.right.later grows) on).last
      fun regions₂ (_, _) m₂ grows' written ⟨fit, fit'⟩ => ?_
    have first := (value.later grows).later grows'
    exact setting.task (.call _ _ _) trivial ⟨written, callable.later grows', List.forall_mem_cons.2 ⟨first, fit⟩, fit'⟩
  | name ident => exact called _ hosts on
  | path head others span => exact called _ hosts on
  | block b => exact (setting.task (.block c b (some v)) trivial ⟨hosts, on.written, passed⟩).elsewhere
  | branch b => exact setting.task (.branch c b (some v)) trivial ⟨hosts, on, passed⟩
  | pipeline pl =>
    obtain ⟨stages, span⟩ := pl
    exact setting.task (.pipeline c stages (some v)) trivial ⟨hosts.tail, on, passed⟩
  | loop l => exact setting.task (.loop c l (some v)) trivial ⟨hosts, on, passed⟩
  | _ => exact .fail on.written

lemma expr_writes {e : Expr} (hosts : c.Hosts p regions e.pieces) (on : c.Awaits p regions e.tags m)
    (values : ∀ v ∈ incoming, v.Written p regions) :
    Writes p regions asks run (c.binds p e.tags) m (fun run => expr p run c e incoming) (Value.Written p) := by
  cases incoming with
  | none => exact plainExpr_writes setting hosts on
  | some v => exact stageExpr_writes setting hosts on (values v rfl)

/-! ### Statements -/

lemma bindDefinition_writes {name : Ident} {v : Value} {pieces : List Piece} (hosts : c.Hosts p regions pieces)
    (on : c.Awaits p regions [name] m) (value : v.Written p regions) :
    Writes p regions asks run (c.binds p [name]) m (fun _ => bindDefinition p c name v) fun _ _ => True := by
  refine .resolvedOf on.written fun t resolved => ?_
  cases declared : t.declarations.get? name.span with
  | none => exact .fail on.written
  | some b =>
    have site := hosts.there.declared setting.laid resolved declared
    have defined : Writes p regions asks run (c.binds p [name]) m (fun _ => Eval.define c.frame b v) fun _ _ => True :=
      .define on (site ▸ List.mem_cons_self) value
    dsimp only
    cases t.scopes.target b with
    | item i item =>
      exact .own ⟨regions, List.prefix_rfl,
        { on.written with items := List.forall_mem_cons.2 ⟨value, on.written.items⟩ }, .of_heap rfl, trivial⟩
    | _ => exact defined

lemma statement_writes {s : Statement} (hosts : c.Hosts p regions s.pieces) (on : c.Awaits p regions s.names m) :
    Writes p regions asks run (c.binds p s.names) m (fun run => statement p run c s) (Value.Written p) := by
  cases s with
  | importing i =>
    refine .resolvedOf on.written fun t _ => ?_
    cases t.imports.get? i.span with
    | none => exact .pure on.written Value.holds_unit
    | some target =>
      exact ((setting.task (.module target) trivial on.written).last fun _ _ _ _ written _ =>
        .pure written Value.holds_unit).elsewhere
  | define exported name e span =>
    simp only [statement_define]
    have value : Writes p regions asks run (c.binds p e.tags) m (fun run => definedValue run c name e) (Value.Written p) := by
      cases e with
      | lambda f => exact .makeClosure on.written hosts
      | _ => exact setting.plain hosts on.left
    refine .bind on value fun regions₁ v m₁ grows on value => ?_
    exact (bindDefinition_writes setting (hosts.later grows) on value).last fun _ _ _ _ written _ =>
      .pure written Value.holds_unit
  | expr e span => exact setting.plain hosts on

/-! ### Blocks, branches and pipelines -/

lemma blockStatements_writes {ss : List Statement} (hosts : c.Hosts p regions (Statement.allPieces ss))
    (on : c.Awaits p regions (ss.flatMap Statement.names) m) (values : ∀ v ∈ incoming, v.Written p regions) :
    Writes p regions asks run (c.binds p (ss.flatMap Statement.names)) m (fun run => blockStatements run c incoming ss)
      (Value.Written p) := by
  have passOver {regions : Regions} {m : Machine} (written : m.Written p regions) :
      Writes p regions asks run Machine.nowhere m (fun _ => blockStatements.passOver incoming) (Value.Written p) := by
    cases incoming with
    | none => exact .pure written Value.holds_unit
    | some v => exact .fail written
  induction ss generalizing m regions with
  | nil => exact (passOver on.written).elsewhere
  | cons s ss ih =>
    rw [List.flatMap_cons] at on ⊢
    cases ss with
    | nil =>
      rw [List.flatMap_nil, List.append_nil] at on ⊢
      have only := (setting.task (.statement c s) trivial ⟨hosts.left, on⟩).last fun _ _ _ _ written _ => passOver written
      cases s with
      | expr e span => exact setting.task (.expr c e incoming) trivial ⟨hosts.left, on, values⟩
      | _ => exact only
    | cons next ss =>
      simp only [blockStatements_cons]
      exact .bind on (setting.task (.statement c s) trivial ⟨hosts.left, on.left⟩) fun regions₁ _ m₁ grows on _ =>
        ih (hosts.right.later grows) on (Value.Written.given_later values grows)

lemma block_writes {b : Block} (hosts : c.Hosts p regions b.pieces) (written : m.Written p regions)
    (values : ∀ v ∈ incoming, v.Written p regions) :
    Writes p regions asks run Machine.nowhere m (fun run => block run c b incoming) (Value.Written p) := by
  rw [Block.pieces_eq] at hosts
  refine .inside (.nil hosts written) hosts setting.laid fun regions₁ c' m₁ grows _ hosts on => ?_
  rw [List.append_nil] at on ⊢
  exact blockStatements_writes setting hosts on (Value.Written.given_later values grows)

lemma branch_writes {b : Branch} (hosts : c.Hosts p regions b.pieces) (on : c.Awaits p regions b.tags m)
    (values : ∀ v ∈ incoming, v.Written p regions) :
    Writes p regions asks run (c.binds p b.tags) m (fun run => branch run c b incoming) (Value.Written p) := by
  obtain ⟨condition, consequence, alternative, span⟩ := b
  refine .bind on (setting.plain hosts.left on.left) fun regions₁ v m₁ grows on _ => ?_
  replace values := Value.Written.given_later values grows
  have others : c.Hosts p regions₁ (consequence.pieces ++ alternative.pieces) := hosts.right.later grows
  have inner {b : Block} (hosts : c.Hosts p regions₁ b.pieces) :
      Writes p regions₁ asks run (c.binds p alternative.tags) m₁ (fun run => run (.block c b incoming)) (Value.Written p) :=
    (setting.task (.block c b incoming) trivial ⟨hosts, on.written, values⟩).elsewhere
  cases v with
  | bool decision =>
    cases decision with
    | true => exact inner others.left
    | false =>
      cases alternative with
      | absent =>
        refine .pure on.written ?_
        cases incoming with
        | none => exact Value.holds_unit
        | some v => exact values v rfl
      | block other => exact inner others.right
      | branch other => exact setting.task (.branch c other incoming) trivial ⟨others.right, on, values⟩
  | _ => exact .fail on.written

lemma bindTag_writes {tag : Option Ident} {v : Value} {pieces : List Piece} (hosts : c.Hosts p regions pieces)
    (on : c.Awaits p regions tag.toList m) (value : v.Written p regions) :
    Writes p regions asks run (c.binds p tag.toList) m (fun _ => bindTag p c v tag) fun _ _ => True := by
  cases tag with
  | none => exact .pure on.written trivial
  | some name =>
    refine .resolvedOf on.written fun t resolved => ?_
    cases declared : t.declarations.get? name.span with
    | some b => exact .define on (hosts.there.declared setting.laid resolved declared ▸ List.mem_cons_self) value
    | none => exact .fail on.written

lemma stage_writes {s : Stage} (hosts : c.Hosts p regions s.pieces) (on : c.Awaits p regions s.innerTags m)
    (values : ∀ v ∈ incoming, v.Written p regions) :
    Writes p regions asks run (c.binds p s.innerTags) m (fun run => stage run c incoming s) (Value.Written p) := by
  cases s with
  | expr e tag span => exact setting.task (.expr c e incoming) trivial ⟨hosts, on, values⟩
  | operator op operand tag span =>
    cases incoming with
    | none => exact .fail on.written
    | some left =>
      refine Writes.last (setting.plain (e := operand) hosts on) fun regions₁ right m₁ _ written _ => ?_
      exact .ofOutcome written (BinaryOp.apply_gives op left right)

lemma pipeline_writes {stages : List Stage} (hosts : c.Hosts p regions (Stage.allPieces stages))
    (on : c.Awaits p regions (Stage.allTags stages) m) (values : ∀ v ∈ incoming, v.Written p regions) :
    Writes p regions asks run (c.binds p (Stage.allTags stages)) m (fun run => pipeline p run c incoming stages)
      (Value.Written p) := by
  induction stages generalizing m regions incoming with
  | nil =>
    refine .pure on.written ?_
    cases incoming with
    | none => exact Value.holds_unit
    | some v => exact values v rfl
  | cons s stages ih =>
    rw [Stage.allTags, s.tags_eq, List.append_assoc] at on ⊢
    refine .bind on (stage_writes setting hosts.left on.left values) fun regions₁ v m₁ grows on value => ?_
    refine .bind on (bindTag_writes setting (hosts.left.later grows) on.left value) fun regions₂ _ m₂ grows' on _ => ?_
    exact ih ((hosts.right.later grows).later grows') on fun w same => Option.some.inj same ▸ value.later grows'

/-! ### Loops -/

omit setting in
/-- What a loop has made so far is made of functions from frames that host them. -/
structure LoopProgress.Written (p : Program) (regions : Regions) (progress : LoopProgress) : Prop where
  folded : ∀ v ∈ progress.folded, v.Written p regions
  mapped : ∀ v ∈ progress.mapped, v.Written p regions

/-- An iteration writes to its own frame only. A loop that maps evaluates its body without an incoming value, and goes on so. -/
lemma iteration_writes {l : Loop} {bound? : Option BindingId} {progress : LoopProgress} {v : Value}
    (hosts : c.Hosts p regions (.loop l :: Stage.allPieces l.body.stages))
    (on : c.Awaits p regions (Stage.allTags l.body.stages) m)
    (bound : ∀ b ∈ bound?, p.siteOf c.module b = l.binding.span)
    (mapping : progress.folded = none → ∀ c' : Context, c'.module = c.module → asks (.pipeline c' l.body.stages none))
    (made : progress.Written p regions) (element : v.Written p regions) :
    Writes p regions asks run Machine.nowhere m (fun run => iteration run c l bound? progress v) fun regions' next =>
      next.Written p regions' ∧ (next.folded = none → progress.folded = none) := by
  obtain ⟨folded, mapped, frames⟩ := progress
  refine .inside on hosts setting.laid fun regions₁ c' m₁ grows same hosts on => ?_
  have on : c'.Awaits p regions₁ ([l.binding] ++ Stage.allTags l.body.stages) m₁ := on
  -- the stages are run when the element is bound
  have stages {regions₂ : Regions} {m : Machine} (grows' : regions₁ <+: regions₂)
      (on : c'.Awaits p regions₂ (Stage.allTags l.body.stages) m) :
      Writes p regions₂ asks run (c'.binds p (Stage.allTags l.body.stages)) m
        (fun run => iterate run c' l ⟨folded, mapped, frames⟩) fun regions' next =>
        next.Written p regions' ∧ (next.folded = none → folded = none) := by
    have asked : asks (.pipeline c' l.body.stages folded) := by
      cases folded with
      | none => exact mapping rfl c' same
      | some w => exact setting.free trivial
    have passed := Value.Written.given_later made.folded (grows.trans grows')
    have body : Writes p regions₂ asks run (c'.binds p (Stage.allTags l.body.stages)) m
        (fun run => run (.pipeline c' l.body.stages folded)) (Value.Written p) :=
      .ask setting.writing asked ⟨hosts.later grows', on, passed⟩
    refine body.last fun regions₃ v m₂ grows'' written value => ?_
    have others := Value.Written.all_later made.mapped ((grows.trans grows').trans grows'')
    cases folded with
    | some w => exact .pure written ⟨⟨fun _ same => Option.some.inj same ▸ value, others⟩, by simp⟩
    | none => exact .pure written ⟨⟨by simp, List.forall_mem_cons.2 ⟨value, others⟩⟩, fun _ => rfl⟩
  cases bound? with
  | none => exact .skip on fun on => stages List.prefix_rfl on
  | some b =>
    have site : p.siteOf c'.module b ∈ [l.binding].map Ident.span := by simp [same, bound b rfl]
    exact .bind on (.define on.left site (element.later grows)) fun regions₂ _ m₂ grows' on _ => stages grows' on

lemma iterations_write {l : Loop} {bound? : Option BindingId} {progress : LoopProgress} {elements : List Value}
    (hosts : c.Hosts p regions (.loop l :: Stage.allPieces l.body.stages))
    (on : c.Awaits p regions (Stage.allTags l.body.stages) m)
    (bound : ∀ b ∈ bound?, p.siteOf c.module b = l.binding.span)
    (mapping : progress.folded = none → ∀ c' : Context, c'.module = c.module → asks (.pipeline c' l.body.stages none))
    (made : progress.Written p regions) (values : ∀ v ∈ elements, v.Written p regions) :
    Writes p regions asks run Machine.nowhere m (fun run => elements.foldlM (iteration run c l bound?) progress)
      (LoopProgress.Written p) := by
  induction elements generalizing m regions progress with
  | nil => exact .pure on.written made
  | cons v elements ih =>
    obtain ⟨head, tail⟩ := List.forall_mem_cons.1 values
    simp only [List.foldlM_cons]
    refine ((iteration_writes setting hosts on bound mapping made head).seq
      fun regions₁ next m₁ grows written writes ⟨made, goes⟩ => ?_).mono (fun _ _ => Or.rec id id) fun _ _ => id
    -- the frame around the loop has been given nothing
    have on : c.Awaits p regions ([] ++ Stage.allTags l.body.stages) m := on
    have awaits := on.behind grows written (writes.mono fun _ _ => False.elim)
    exact ih (hosts.later grows) awaits (fun none => mapping (goes none)) made (Value.Written.all_later tail grows)

omit setting in
/-- The tags of a loop are collected at places for which the frame around it awaits values. -/
lemma collectTags_write {frames : List FrameId} {tags : List BindingId} {names : List Ident}
    (on : c.Awaits p regions names m) (places : tags.map (p.siteOf c.module) = names.map Ident.span) :
    Writes p regions asks run (c.binds p names) m (fun _ => tags.forM (collectTag c frames)) fun _ _ => True := by
  induction tags generalizing m regions names with
  | nil => exact .pure on.written trivial
  | cons tag tags ih =>
    cases names with
    | nil => cases places
    | cons name names =>
      obtain ⟨place, places⟩ := List.cons.inj places
      have collected : (Value.array (frames.filterMap fun f => m.heap.getLocal? f tag)).Written p regions := by
        refine Value.holds_array.2 fun v member => ?_
        obtain ⟨f, -, found⟩ := List.mem_filterMap.1 member
        exact on.written.getLocal found
      rw [← List.singleton_append] at on ⊢
      have first : Writes p regions asks run (c.binds p [name]) m (fun _ => collectTag c frames tag) fun _ _ => True :=
        .look (.define on.left (place ▸ List.mem_cons_self) collected)
      show Writes p regions asks run _ m (fun _ => collectTag c frames tag >>= fun _ => tags.forM (collectTag c frames)) _
      exact .bind on first fun regions₁ _ m₁ grows on _ => ih on places

lemma loop_writes {l : Loop} (hosts : c.Hosts p regions l.pieces) (on : c.Awaits p regions l.tags m)
    (values : ∀ v ∈ incoming, v.Written p regions)
    (mapping : incoming = none → ∀ c' : Context, c'.module = c.module → asks (.pipeline c' l.body.stages none)) :
    Writes p regions asks run (c.binds p l.tags) m (fun run => loop p run c l incoming) (Value.Written p) := by
  rw [Loop.pieces_eq] at hosts
  rw [Loop.tags_eq] at on ⊢
  refine .bind on (setting.plain hosts.tail.left on.left) fun regions₁ v m₁ grows on elements => ?_
  replace hosts := hosts.later grows
  cases v with
  | array items =>
    refine .resolvedOf on.written fun t resolved => ?_
    have bound : ∀ b ∈ t.declarations.get? l.binding.span, p.siteOf c.module b = l.binding.span :=
      fun b declared => hosts.there.declared setting.laid resolved declared
    have start : LoopProgress.Written p regions₁ ⟨incoming, [], []⟩ :=
      ⟨Value.Written.given_later values grows, List.forall_mem_nil _⟩
    have body : c.Hosts p regions₁ (.loop l :: Stage.allPieces l.body.stages) :=
      hosts.part ((List.sublist_append_right _ _).cons_cons _)
    refine (iterations_write setting body on bound mapping start (Value.holds_array.1 elements)).late on
      fun regions₂ last m₂ grows' on made => ?_
    -- the tags that are collected stand in the body
    obtain ⟨ast, laid, among⟩ := hosts.there.laid setting.laid resolved
    have gathered := laid.gathered (among.subset List.mem_cons_self)
    have sites : Resolve.siteOf t.scopes = p.siteOf c.module := by
      funext b
      simp only [Program.siteOf, resolved]
    rw [sites] at gathered
    let names : List Ident := ((t.loopTags.get? l.span).getD []).map fun tag => ⟨"", p.siteOf c.module tag⟩
    have places : ((t.loopTags.get? l.span).getD []).map (p.siteOf c.module) = names.map Ident.span := by
      simp only [names, List.map_map]
      rfl
    have collects : Writes p regions₂ asks run (c.binds p (Stage.allTags l.body.stages)) m₂
        (fun _ => ((t.loopTags.get? l.span).getD []).forM (collectTag c last.frames.reverse)) fun _ _ => True :=
      (collectTags_write (on.part (places ▸ gathered)) places).mono
        (fun f b binds => ⟨binds.1, gathered.subset (places ▸ binds.2)⟩) fun _ _ => id
    refine collects.last fun regions₃ _ m₃ grows'' written _ => ?_
    cases folded : last.folded with
    | some v => exact .pure written ((made.folded v folded).later grows'')
    | none =>
      refine .pure written (Value.holds_array.2 fun v member => ?_)
      exact (made.mapped v (List.mem_reverse.1 member)).later grows''
  | _ => exact .fail on.written

/-! ### Calls -/

lemma bindParams_writes {callee : String} {count : Nat} {t : Resolved} {params : List Param} {given : List (Option Value)}
    (hosts : c.Hosts p regions (Param.allPieces params)) (resolved : p.resolvedOf c.module = some t)
    (on : c.Awaits p regions (params.flatMap Param.names) m) (values : ∀ v, some v ∈ given → v.Written p regions) :
    Writes p regions asks run (c.binds p (params.flatMap Param.names)) m
      (fun run => bindParams run callee count t c (params.zip given)) fun _ _ => True := by
  induction params generalizing given m regions with
  | nil => exact .pure on.written trivial
  | cons q params ih =>
    cases given with
    | nil => exact .pure on.written trivial
    | cons first given =>
      obtain ⟨name, note, fallback, span⟩ := q
      rw [List.flatMap_cons, Param.names, List.append_assoc] at on ⊢
      have others : c.Hosts p regions (Param.allPieces params) := by
        cases fallback with
        | none => exact hosts
        | some e => exact hosts.right
      -- the parameter is given its value behind its default
      have bound (v : Value) {regions₁ : Regions} {m : Machine} (grows : regions <+: regions₁)
          (on : c.Awaits p regions₁ ([name] ++ params.flatMap Param.names) m) (value : v.Written p regions₁) :
          Writes p regions₁ asks run (c.binds p ([name] ++ params.flatMap Param.names)) m
            (fun run => bindParam run callee count t c ⟨name, note, fallback, span⟩ (params.zip given) v) fun _ _ => True := by
        have checked : Writes p regions₁ asks run Machine.nowhere m (fun _ =>
            ofOutcome (checkArgument callee name.name (note.map TypeNote.ty) v)) fun _ _ => True :=
          .ofOutcome on.written checkArgument_gives
        refine checked.late on fun regions₂ _ m₁ grows' on _ => ?_
        have rest {regions₃ : Regions} {m : Machine} (grows'' : regions₂ <+: regions₃)
            (on : c.Awaits p regions₃ (params.flatMap Param.names) m) :
            Writes p regions₃ asks run (c.binds p (params.flatMap Param.names)) m
              (fun run => bindParams run callee count t c (params.zip given)) fun _ _ => True :=
          have later := (grows.trans grows').trans grows''
          ih (others.later later) on fun v member => (values v (List.mem_cons_of_mem _ member)).later later
        cases declared : t.declarations.get? name.span with
        | some b =>
          have site := hosts.there.declared setting.laid resolved declared
          exact .bind on (.define on.left (site ▸ List.mem_cons_self) (value.later grows')) fun regions₃ _ m₂ grows on _ =>
            rest grows on
        | none => exact .skip on (rest List.prefix_rfl)
      simp only [List.zip_cons_cons, bindParams]
      cases first with
      | some v => exact .skip on fun on => bound v List.prefix_rfl on (values v List.mem_cons_self)
      | none =>
        cases fallback with
        | some e =>
          exact .bind on (setting.plain hosts.left on.left) fun regions₁ v m₁ grows on value => bound v grows on value
        | none => exact (Writes.fail (Q := fun _ _ => False) on.written).last fun _ _ _ _ _ => False.elim

lemma callClosure_writes {f : Closure} {positional : List Value} {keyword : List (String × Value)}
    (written : m.Written p regions) (callable : Context.Hosts p regions ⟨f.module, f.frame⟩ f.lambda.pieces)
    (fit : ∀ v ∈ positional, v.Written p regions) (fit' : ∀ entry ∈ keyword, entry.2.Written p regions) :
    Writes p regions asks run Machine.nowhere m (fun run => callClosure p run f positional keyword) (Value.Written p) := by
  rw [Lambda.pieces_eq] at callable
  have slots : Writes p regions asks run Machine.nowhere m (fun _ => ofOutcome (bindSlots f.shownName
      (f.lambda.params.map fun q => ⟨q.name.name, q.fallback.isSome⟩) positional keyword)) fun regions' given =>
      ∀ v, some v ∈ given → v.Written p regions' :=
    .ofOutcome written (bindSlots_gives fit fit')
  refine slots.last fun regions₁ given m₁ grows written values => ?_
  replace callable := callable.later grows
  refine .inside (.nil callable written) callable setting.laid fun regions₂ c m₂ grows' same hosts on => ?_
  rw [List.append_nil, Piece.names] at on ⊢
  refine .resolvedOf on.written fun t resolved => ?_
  have given' : ∀ v, some v ∈ given → v.Written p regions₂ := fun v member => (values v member).later grows'
  refine .bind on (bindParams_writes setting hosts.left (same ▸ resolved) on.left given') fun regions₃ _ m₃ grows on _ => ?_
  refine (setting.plain (hosts.right.later grows) on).last fun regions₄ v m₄ _ written value => ?_
  cases f.lambda.returns with
  | none => exact .pure written value
  | some note =>
    dsimp only
    split
    · exact .pure written value
    · exact .fail written

/-- A host function hands on no functions but those that it is given and registered ones. -/
lemma callHost_writes {name : String} {positional : List Value} {keyword : List (String × Value)}
    (written : m.Written p regions) (fit : ∀ v ∈ positional, v.Written p regions)
    (fit' : ∀ entry ∈ keyword, entry.2.Written p regions) :
    Writes p regions asks run Machine.nowhere m (fun _ => callHost p name positional keyword) (Value.Written p) := by
  unfold callHost
  cases found : p.hosts.get? name with
  | none => exact .fail written
  | some f =>
    have slots : Writes p regions asks run Machine.nowhere m (fun _ => ofOutcome (bindSlots name
        (f.signature.params.map HostParam.slot) positional keyword)) fun regions' given =>
        ∀ v, some v ∈ given → v.Written p regions' :=
      .ofOutcome written (bindSlots_gives fit fit')
    refine slots.last fun regions₁ given m₁ _ written fits => ?_
    have handed : Writes p regions₁ asks run Machine.nowhere m₁ (fun _ => ofOutcome
        ((f.signature.params.zip given).mapM (hostArgument name))) fun regions' args => ∀ v ∈ args, v.Written p regions' ∨
          ∃ place ∈ f.signature.params.zip given, place.1.fallback = some v :=
      .ofOutcome written (hostArguments_gives fun place member v same => fits v (same ▸ (List.of_mem_zip member).2))
    refine handed.last fun regions₂ args m₂ _ written fit => ?_
    refine (Writes.freshIdentity written).last fun regions₃ serial m₃ grows written _ => ?_
    cases answer : f.apply serial args with
    | error message => exact .fail written
    | ok v =>
      refine .pure written fun g member => ?_
      rcases setting.honest name f found serial args v answer g member with ⟨other, rfl, -⟩ | ⟨⟨a, among, inside⟩, new⟩
      · exact nofun
      · rcases fit a among with holds | ⟨place, member, default⟩
        · exact holds.later grows g inside
        · exact absurd inside (new _ (List.of_mem_zip member).1 a default)

lemma call_writes {callee : Value} {positional : List Value} {keyword : List (String × Value)} (written : m.Written p regions)
    (callable : callee.Written p regions) (fit : ∀ v ∈ positional, v.Written p regions)
    (fit' : ∀ entry ∈ keyword, entry.2.Written p regions) :
    Writes p regions asks run Machine.nowhere m (fun run => call p run callee positional keyword) (Value.Written p) := by
  cases callee with
  | closure f => exact callClosure_writes setting written (Value.written_closure.1 callable) fit fit'
  | host name => exact callHost_writes setting written fit fit'
  | _ => exact .fail written

/-! ### Modules -/

lemma moduleStatements_writes {last : Value} {ss : List Statement} (hosts : c.Hosts p regions (Statement.allPieces ss))
    (on : c.Awaits p regions (ss.flatMap Statement.names) m) (value : last.Written p regions) :
    Writes p regions asks run (c.binds p (ss.flatMap Statement.names)) m (fun run => moduleStatements run c last ss)
      (Value.Written p) := by
  induction ss generalizing m regions last with
  | nil => exact .pure on.written value
  | cons s ss ih =>
    rw [List.flatMap_cons] at on ⊢
    exact .bind on (setting.task (.statement c s) trivial ⟨hosts.left, on.left⟩) fun regions₁ _ m₁ grows on value =>
      ih (hosts.right.later grows) on value

/-- The statements of a module are run in a new frame. -/
lemma Setting.module {loaded : LoadedModule} {ast : Module} (found : p.modules[(id : Nat)]? = some loaded)
    (usable : loaded.isUsable = true) (parsed : loaded.ast = some ast) (written : m.Written p regions) :
    ∃ regions', regions <+: regions' ∧
      Writes p regions' asks run (Context.binds p ⟨id, m.heap.size⟩ ast.names) (begun id m)
        (fun run => moduleStatements run ⟨id, m.heap.size⟩ .unit ast.statements) (Value.Written p) := by
  obtain ⟨t, resolved⟩ := Option.isSome_iff_exists.1 (setting.rest.sound.usable found usable)
  have there : p.Contains id ast.pieces := .mk found parsed resolved (.refl _)
  obtain ⟨regions', grows, hosts, opened, region, distinct, free⟩ :=
    Context.Awaits.root written there (setting.laid _ _ _ _ found parsed resolved).distinct
  have on : Context.Awaits p regions' ⟨id, m.heap.size⟩ ast.names (begun id m) := ⟨{ opened with }, region, distinct, free⟩
  exact ⟨regions', grows, moduleStatements_writes setting hosts on Value.holds_unit⟩

omit setting in
lemma closing_written {bound : FrameId → BindingId → Prop} {loaded : LoadedModule}
    {result : EStateM.Result Stop Machine Value} (h : Written p regions bound m (Value.Written p) result) :
    Written p regions bound m (Value.Written p) (closing id loaded result) := by
  cases result with
  | ok v m' =>
    obtain ⟨regions', grows, written, writes, value⟩ := h
    refine ⟨regions', grows, { written with assemblies := fun entry member => ?_ }, writes, Value.holds_unit⟩
    dsimp only at member
    split at member
    · rcases List.mem_cons.1 member with rfl | old
      · exact value
      · exact written.assemblies entry old
    · exact written.assemblies entry member
  | error stop m' =>
    obtain ⟨regions', grows, written, writes⟩ := h
    cases stop with
    | error e => exact ⟨regions', grows, { written with }, writes⟩
    | outOfFuel => exact ⟨regions', grows, written, writes⟩

/-- A module writes to its own frame, which is new. -/
lemma module_writes (written : m.Written p regions) :
    Writes p regions asks run Machine.nowhere m (fun run => step p run (.module id)) (Value.Written p) := by
  refine ⟨?_, fun {task m'} asked => ?_⟩
  · show Written p regions _ m _ (step p run (.module id) m)
    cases past : m.past id with
    | cons s before =>
      rw [step_module_begun past]
      cases s with
      | failed e => exact ⟨regions, List.prefix_rfl, written, .refl⟩
      | _ => exact ⟨regions, List.prefix_rfl, written, .refl, Value.holds_unit⟩
    | nil =>
      obtain ⟨result, -, stops, stays⟩ | ⟨-, loaded, ast, found, usable, parsed, runs⟩ := step_module p id m
      · obtain ⟨e, rfl⟩ := stops past
        rw [stays]
        exact ⟨regions, List.prefix_rfl, written, .refl⟩
      · rw [runs]
        obtain ⟨regions', grows, statements⟩ := setting.module found usable parsed written
        exact closing_written (statements.written.outside grows none rfl fun _ _ => And.left)
  · show Asked p asks run m (left (step p run (.module id) m)) task m'
    obtain ⟨-, loaded, ast, found, usable, parsed, runs, inner⟩ := asked.of_module
    obtain ⟨regions', -, statements⟩ := setting.module found usable parsed written
    have here := statements.asked inner
    rw [runs]
    exact ⟨here.asks, here.written, Machine.Writes.push.trans here.before,
      here.behind.trans (.of_heap (closing_heap id loaded _))⟩

/-- A step of a task writes so if its tasks do. Only a loop that maps asks for something that has no incoming value where it needs
one. -/
lemma step_writes {task : Task} (written : task.Written p regions m)
    (mapping : ∀ c l, task = .loop c l none → ∀ c' : Context, c'.module = c.module → asks (.pipeline c' l.body.stages none)) :
    Writes p regions asks run (task.binds p) m (fun run => step p run task) (Value.Written p) := by
  cases task with
  | expr c e incoming => exact expr_writes setting written.1 written.2.1 written.2.2
  | statement c s => exact statement_writes setting written.1 written.2
  | block c b incoming => exact block_writes setting written.1 written.2.1 written.2.2
  | branch c b incoming => exact branch_writes setting written.1 written.2.1 written.2.2
  | pipeline c stages incoming => exact pipeline_writes setting written.1 written.2.1 written.2.2
  | loop c l incoming =>
    exact loop_writes setting written.1 written.2.1 written.2.2 fun none => mapping c l (by rw [none])
  | call callee positional keyword => exact call_writes setting written.1 written.2.1 written.2.2.1 written.2.2.2
  | module id => exact module_writes setting written

/-! ### Requests -/

lemma valueOf_writes {name : String} (written : m.Written p regions) :
    Writes p regions asks run Machine.nowhere m (fun run => valueOf p run id name) (Value.Written p) := by
  refine (setting.task (.module id) trivial written).last fun regions₁ _ m' _ written _ => .look ?_
  cases value : topLevelValue? p m' id name with
  | none => exact .fail written
  | some v =>
    refine .pure written ?_
    simp only [topLevelValue?, Option.bind_eq_bind, Option.bind_eq_some_iff] at value
    obtain ⟨l, -, t, -, b, -, value⟩ := value
    split at value
    · exact written.items _ (mem_of_lookup value)
    · obtain ⟨f, -, value⟩ := Option.bind_eq_some_iff.1 value
      exact written.get value
    · cases value
      exact Value.written_host
    · cases value
    · cases value

lemma runName_writes {name : String} {args : List EntryArgument} (written : m.Written p regions)
    (values : ∀ a ∈ args, a.value.Written p regions) :
    Writes p regions asks run Machine.nowhere m (fun run => runName p run id args name) (Value.Written p) := by
  refine (valueOf_writes setting written).last fun regions₁ v m' grows written value => ?_
  have positional : ∀ w ∈ EntryArgument.positional args, w.Written p regions₁ := fun w member => by
    obtain ⟨a, among, rfl⟩ := EntryArgument.mem_positional member
    exact (values a among).later grows
  have keyword : ∀ entry ∈ EntryArgument.keyword args, entry.2.Written p regions₁ := fun entry member => by
    obtain ⟨a, among, e⟩ := EntryArgument.mem_keyword member
    exact e ▸ (values a among).later grows
  have constant : Writes p regions₁ asks run Machine.nowhere m' (fun _ =>
      if args.isEmpty then pure v else fail (.notCallable ("`" ++ name ++ "`"))) (Value.Written p) := by
    split
    · exact .pure written value
    · exact .fail written
  cases v with
  | closure f => exact setting.task (.call (.closure f) _ _) trivial ⟨written, value, positional, keyword⟩
  | host other => exact setting.task (.call (.host other) _ _) trivial ⟨written, value, positional, keyword⟩
  | _ => exact constant

/-- A request writes to no frame that is there. -/
lemma answerOver_writes {r : Request} {known : List Value} (knows : r.Knows p known) (written : m.Written p regions)
    (values : ∀ v ∈ known, v.Written p regions) :
    Writes p regions asks run Machine.nowhere m (fun run => r.answerOver p run) fun regions' vs =>
      ∀ v ∈ vs, v.Written p regions' := by
  have made {v : Value} (made : v.MadeFrom p known) : v.Written p regions := made.imp fun g origin => by
    rcases origin with ⟨w, member, inside⟩ | ⟨name, rfl, -⟩
    · exact values w member g inside
    · intro closure host
      cases host
  cases r with
  | query q =>
    have answers : Writes p regions asks run Machine.nowhere m (fun run => q.answerOver p run) (Value.Written p) := by
      cases q with
      | module id => exact setting.task (.module id) trivial written
      | value id name => exact valueOf_writes setting written
      | assembly id => exact assembly_writes setting written
      | call callee positional keyword =>
        obtain ⟨callable, fit, fit'⟩ := knows
        exact setting.task (.call callee positional keyword) trivial
          ⟨written, made callable, fun v member => made (fit v member), fun entry member => made (fit' entry member)⟩
    exact answers.last fun _ v m' _ written value => .pure written (List.forall_mem_singleton.2 value)
  | entry id args e =>
    have fit : ∀ a ∈ args, a.value.Written p regions := fun a member => made (knows a member)
    clear made values
    simp only [Request.answerOver]
    induction e.names generalizing m regions with
    | nil => exact .pure written (List.forall_mem_nil _)
    | cons name names ih =>
      simp only [List.mapM_cons]
      refine (runName_writes setting written fit).last fun regions₁ v m₁ grows written value => ?_
      refine (ih written fun a member => (fit a member).later grows).last fun regions₂ vs m₂ grows' written values => ?_
      exact .pure written (List.forall_mem_cons.2 ⟨value.later grows', values⟩)

end

end Eval

end PipeLang
