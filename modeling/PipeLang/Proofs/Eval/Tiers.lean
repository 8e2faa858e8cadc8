import PipeLang.Proofs.Eval.Behalf

/-!
# Evaluation on behalf of modules

What is evaluated on behalf of a module uses what comes from its imports, and leaves the machine so: `Task.run_rises`. There
is one lemma for each kind of task. Without import cycles a module that an import statement asks for is never running, so
that it has run behind the statement.
-/

namespace PipeLang

open Eval

variable {p : Program} {owners owners' : List Behalf} {behalf : Behalf} {m m' : Machine} {id : ModuleId} {c : Context}
  {run : Task → Eval Value} {incoming : Option Value} {labels : Labels}

/-- What a name denotes belongs to a module that may be used where the name stands. -/
lemma Program.AtRest.reached (rest : p.AtRest) {t : Resolved} {site : Span} {ref : Reference}
    (resolved : p.resolvedOf id = some t) (found : t.references.get? site = some ref) :
    ref.target.Reached p.Imports id := by
  obtain ⟨l, there, resolved⟩ := Option.bind_eq_some_iff.1 resolved
  obtain ⟨ast, clean, settled⟩ := rest.sound.settled there resolved
  exact Program.leads_none ▸ settled.reached found

namespace Eval

/-- Tasks that are evaluated on somebody's behalf leave it so, and give values that may be used there. -/
def Lifts (p : Program) (run : Task → Eval Value) : Prop :=
  ∀ {owners behalf} task {m}, task.On p owners behalf → m.Tiered p owners behalf →
    Rises p owners behalf m (run task) fun owners' m' v => v.Within p owners' behalf ∧ task.Achieved p m'

section

variable (lifts : Lifts p run)
include lifts

/-- The value of a task that achieves nothing else. -/
lemma Lifts.value (task : Task) (on : task.On p owners behalf) (tiered : m.Tiered p owners behalf) :
    Rises p owners behalf m (run task) fun owners' _ v => v.Within p owners' behalf :=
  (lifts task on tiered).imp fun _ _ _ _ _ => And.left

/-- An expression without an incoming value. -/
lemma Lifts.plain {e : Expr} (on : c.In p owners behalf) (tiered : m.Tiered p owners behalf) :
    Rises p owners behalf m (run (.expr c e none)) fun owners' _ v => v.Within p owners' behalf :=
  lifts.value (.expr c e none) ⟨on, nofun⟩ tiered

lemma assembly_rises (below : p.Below (some id) behalf) (tiered : m.Tiered p owners behalf) :
    Rises p owners behalf m (assembly p run id) fun owners' _ v => v.Within p owners' behalf := by
  unfold assembly module
  cases p.modules[(id : Nat)]? with
  | none => exact .fail tiered
  | some l =>
    simp only [pure_bind]
    split
    · refine (lifts.value (.module id) below tiered).bind fun owners' m' _ _ tiered _ _ => .look ?_
      cases value : m'.assemblies.lookup id with
      | some v => exact .pure tiered ((tiered.assemblies _ (mem_of_lookup value)).mono List.prefix_rfl below)
      | none => exact .fail tiered
    · exact .fail tiered

lemma reference_rises {site : Span} {name : String} (rest : p.AtRest) (on : c.In p owners behalf)
    (tiered : m.Tiered p owners behalf) :
    Rises p owners behalf m (reference p run c site name) fun owners' _ v => v.Within p owners' behalf := by
  refine .resolvedOf tiered fun t resolved => ?_
  cases found : t.references.get? site with
  | none => exact .fail tiered
  | some ref =>
    obtain ⟨target, ty⟩ := ref
    have reached := rest.reached resolved found
    cases target with
    | inner b =>
      refine .look ?_
      cases value : m.heap.get? c.frame b with
      | some v => exact .pure tiered (tiered.get on.owner value)
      | none => exact .fail tiered
    | item other item =>
      have below : p.Below (some other) behalf := on.module.reached reached
      have value {owners : List Behalf} {m : Machine} {v : Value} (tiered : m.Tiered p owners behalf)
          (known : m.items.lookup (other, item) = some v) : v.Within p owners behalf :=
        (tiered.items _ (mem_of_lookup known)).mono List.prefix_rfl below
      refine .look ?_
      cases known : m.items.lookup (other, item) with
      | some v => exact .pure tiered (value tiered known)
      | none =>
        refine (lifts.value (.module other) below tiered).bind fun owners' m' _ _ tiered _ _ => .look ?_
        cases known : m'.items.lookup (other, item) with
        | some v => exact .pure tiered (value tiered known)
        | none => exact .fail tiered
    | module other => exact assembly_rises lifts (on.module.reached reached) tiered
    | host name => exact .pure tiered (Value.holds_host.2 .host)
    | invalid => exact .fail tiered

lemma exprs_rises {es : List Expr} (on : c.In p owners behalf) (tiered : m.Tiered p owners behalf) :
    Rises p owners behalf m (exprs run c es) fun owners' _ vs => ∀ v ∈ vs, v.Within p owners' behalf := by
  induction es generalizing owners m with
  | nil => exact .pure tiered nofun
  | cons e es ih =>
    simp only [exprs, List.mapM_cons] at ih ⊢
    refine (lifts.plain on tiered).bind fun owners₁ m₁ v grows tiered _ value => ?_
    refine (ih (on.later grows) tiered).bind fun owners₂ m₂ vs grows tiered _ values => .pure tiered ?_
    exact List.forall_mem_cons.2 ⟨value.later grows, values⟩

lemma arguments_rises {args : List Argument} (on : c.In p owners behalf) (tiered : m.Tiered p owners behalf) :
    Rises p owners behalf m (arguments run c args) fun owners' _ (positional, keyword) =>
      (∀ v ∈ positional, v.Within p owners' behalf) ∧ ∀ entry ∈ keyword, entry.2.Within p owners' behalf := by
  induction args generalizing owners m with
  | nil => exact .pure tiered ⟨List.forall_mem_nil _, List.forall_mem_nil _⟩
  | cons a args ih =>
    simp only [arguments]
    refine (lifts.plain on tiered).bind fun owners₁ m₁ v grows tiered _ value => ?_
    refine (ih (on.later grows) tiered).bind fun owners₂ m₂ given grows tiered _ fits => ?_
    obtain ⟨positional, keyword⟩ := given
    obtain ⟨fit, fit'⟩ := fits
    cases a.name with
    | some name => exact .pure tiered ⟨fit, List.forall_mem_cons.2 ⟨value.later grows, fit'⟩⟩
    | none => exact .pure tiered ⟨List.forall_mem_cons.2 ⟨value.later grows, fit⟩, fit'⟩

omit lifts in
lemma whole_rises {what : String} {v : Value} (tiered : m.Tiered p owners behalf) :
    Rises p owners behalf m (ofOutcome (v.whole what)) fun _ _ _ => True :=
  .ofOutcome tiered (Value.whole_gives what v)

lemma plainExpr_rises {e : Expr} (rest : p.AtRest) (on : c.In p owners behalf) (tiered : m.Tiered p owners behalf) :
    Rises p owners behalf m (plainExpr p run c e) fun owners' _ v => v.Within p owners' behalf := by
  cases e with
  | name ident => exact reference_rises lifts rest on tiered
  | path head others span => exact reference_rises lifts rest on tiered
  | literal value span => exact .pure tiered Value.holds_literal
  | array items span =>
    exact (exprs_rises lifts on tiered).bind fun _ _ _ _ tiered _ values => .pure tiered (Value.holds_array.2 values)
  | range start stop inclusive span =>
    refine (lifts.plain on tiered).bind fun owners₁ m₁ _ grows tiered _ _ => ?_
    refine (whole_rises tiered).bind fun owners₂ m₂ _ grows' tiered _ _ => ?_
    refine (lifts.plain ((on.later grows).later grows') tiered).bind fun owners₃ m₃ _ _ tiered _ _ => ?_
    exact (whole_rises tiered).bind fun owners₄ m₄ _ _ tiered _ _ => .ofOutcome tiered (Value.ofRange_gives ..)
  | binary op left right span =>
    refine (lifts.plain on tiered).bind fun owners₁ m₁ v grows tiered _ _ => ?_
    cases decided : op.decided? v with
    | some w => exact .pure tiered (BinaryOp.decided_holds decided)
    | none =>
      exact (lifts.plain (on.later grows) tiered).bind fun _ _ _ _ tiered _ _ => .ofOutcome tiered (BinaryOp.apply_gives ..)
  | unary op operand span =>
    exact (lifts.plain on tiered).bind fun _ _ _ _ tiered _ _ => .ofOutcome tiered (UnaryOp.apply_gives ..)
  | call callee args span =>
    refine (lifts.plain on tiered).bind fun owners₁ m₁ f grows tiered _ callable => ?_
    refine (arguments_rises lifts (on.later grows) tiered).bind fun owners₂ m₂ (_, _) grows tiered _ ⟨fit, fit'⟩ => ?_
    exact lifts.value (.call _ _ _) ⟨callable.later grows, fit, fit'⟩ tiered
  | index base index span =>
    refine (lifts.plain on tiered).bind fun owners₁ m₁ _ grows tiered _ value => ?_
    refine (lifts.plain (on.later grows) tiered).bind fun owners₂ m₂ _ grows tiered _ _ => ?_
    exact .ofOutcome tiered (Value.itemAt_gives _ (value.later grows))
  | lambda f => exact .makeClosure tiered on
  | block b => exact lifts.value (.block c b none) ⟨on, nofun⟩ tiered
  | branch b => exact lifts.value (.branch c b none) ⟨on, nofun⟩ tiered
  | pipeline pl => exact lifts.value (.pipeline c pl.stages none) ⟨on, nofun⟩ tiered
  | loop l => exact lifts.value (.loop c l none) ⟨on, nofun⟩ tiered

lemma stageExpr_rises {e : Expr} {v : Value} (on : c.In p owners behalf) (value : v.Within p owners behalf)
    (tiered : m.Tiered p owners behalf) :
    Rises p owners behalf m (stageExpr run c v e) fun owners' _ v => v.Within p owners' behalf := by
  have passed : ∀ w ∈ some v, w.Within p owners behalf := fun w same => Option.some.inj same ▸ value
  -- a name or path is called with the incoming value
  have called (e : Expr) : Rises p owners behalf m (run (.expr c e none) >>= fun f => run (.call f [v] []))
      fun owners' _ v => v.Within p owners' behalf := by
    refine (lifts.plain on tiered).bind fun owners₁ m₁ f grows tiered _ callable => ?_
    exact lifts.value (.call f [v] []) ⟨callable, List.forall_mem_singleton.2 (value.later grows), nofun⟩ tiered
  cases e with
  | call callee args span =>
    refine (lifts.plain on tiered).bind fun owners₁ m₁ f grows tiered _ callable => ?_
    refine (arguments_rises lifts (on.later grows) tiered).bind fun owners₂ m₂ (_, _) grows' tiered _ ⟨fit, fit'⟩ => ?_
    have first := (value.later grows).later grows'
    exact lifts.value (.call _ _ _) ⟨callable.later grows', List.forall_mem_cons.2 ⟨first, fit⟩, fit'⟩ tiered
  | name ident => exact called _
  | path head others span => exact called _
  | block b => exact lifts.value (.block c b (some v)) ⟨on, passed⟩ tiered
  | branch b => exact lifts.value (.branch c b (some v)) ⟨on, passed⟩ tiered
  | pipeline pl => exact lifts.value (.pipeline c pl.stages (some v)) ⟨on, passed⟩ tiered
  | loop l => exact lifts.value (.loop c l (some v)) ⟨on, passed⟩ tiered
  | _ => exact .fail tiered

lemma expr_rises {e : Expr} (rest : p.AtRest) (on : c.In p owners behalf) (values : ∀ v ∈ incoming, v.Within p owners behalf)
    (tiered : m.Tiered p owners behalf) :
    Rises p owners behalf m (expr p run c e incoming) fun owners' _ v => v.Within p owners' behalf := by
  cases incoming with
  | none => exact plainExpr_rises lifts rest on tiered
  | some v => exact stageExpr_rises lifts on (values v rfl) tiered

/-! ### Statements -/

omit lifts in
/-- A definition that others can see is given its value only on behalf of the module that introduces it. -/
lemma bindDefinition_rises {name : Ident} {v : Value} (exported : Bool) (e : Expr) (span : Span)
    (on : c.In p owners behalf) (value : v.Within p owners behalf) (tiered : m.Tiered p owners behalf)
    (own : ∀ {t b i item}, p.resolvedOf c.module = some t → t.declarations.get? name.span = some b →
      t.scopes.target b = .item i item → i = c.module ∧ behalf = some c.module) :
    Rises p owners behalf m (bindDefinition p c name v) fun _ m' _ =>
      m'.Achieves p c.module (.define exported name e span) := by
  refine .resolvedOf tiered fun t resolved => ?_
  cases declared : t.declarations.get? name.span with
  | none => exact .fail tiered
  | some b =>
    -- nothing else than this is introduced by the name
    have only {m' : Machine} (known : ∀ item, t.scopes.target b = .item c.module item →
        (m'.items.lookup (c.module, item)).isSome) : m'.Achieves p c.module (.define exported name e span) := by
      refine ⟨nofun, fun item exposes => ?_⟩
      obtain ⟨t', b', resolved', declared', target⟩ := exposes
      cases resolved.symm.trans resolved'
      cases declared.symm.trans declared'
      exact known item target
    dsimp only
    have plain (hidden : ∀ i item, t.scopes.target b ≠ .item i item) :
        Rises p owners behalf m (Eval.define c.frame b v) fun _ m' _ =>
          m'.Achieves p c.module (.define exported name e span) :=
      (Rises.define tiered on value).imp fun _ _ _ _ _ _ => only fun item target => absurd target (hidden _ _)
    cases target : t.scopes.target b with
    | item i item =>
      obtain ⟨rfl, rfl⟩ := own resolved declared target
      obtain ⟨tiered, builds⟩ := tiered.setItem (c.module, item) value
      refine ⟨owners, List.prefix_rfl, tiered, builds, only fun item' target' => ?_⟩
      obtain ⟨-, rfl⟩ := Target.item.inj (target.symm.trans target')
      simp
    | _ => exact plain fun i item same => nomatch target.symm.trans same

/-- An import statement runs its module, unless the module is running, which leads to an import cycle. -/
lemma importing_rises {i : Import} (acyclic : ∀ id, ¬ Relation.TransGen p.Imports id id) (on : c.In p owners behalf)
    (tiered : m.Tiered p owners behalf) :
    Rises p owners behalf m (statement p run c (.importing i)) fun owners' m' v =>
      v.Within p owners' behalf ∧ m'.Achieves p c.module (.importing i) := by
  have none_ {m' : Machine} (imports : ∀ t target, p.resolvedOf c.module = some t → t.imports.get? i.span = some target →
      m'.states.lookup target = some .done) : m'.Achieves p c.module (.importing i) := by
    refine ⟨fun j same t target resolved recorded => ?_, fun name exposes => exposes.elim⟩
    cases same
    exact imports t target resolved recorded
  refine .resolvedOf tiered fun t resolved => ?_
  cases recorded : t.imports.get? i.span with
  | none =>
    refine .pure tiered ⟨Value.holds_unit, none_ fun t' target resolved' recorded' => ?_⟩
    cases resolved.symm.trans resolved'
    cases recorded.symm.trans recorded'
  | some target =>
    have imports : p.Imports c.module target := ⟨t, i.span, resolved, recorded⟩
    have below : p.Below (some target) behalf := on.module.reached (.single imports)
    refine (lifts (.module target) below tiered).bind fun owners' m' _ _ tiered' _ ⟨_, ended⟩ => ?_
    refine .pure tiered' ⟨Value.holds_unit, none_ fun t' target' resolved' recorded' => ?_⟩
    cases resolved.symm.trans resolved'
    cases recorded.symm.trans recorded'
    refine ended.resolve_right fun running => ?_
    -- a module that is running leads to the one that imports it
    obtain ⟨k, member, before⟩ := tiered'.running running target rfl
    obtain ⟨k', member', way⟩ := on.module k member
    obtain rfl := Option.some.inj member'
    exact acyclic target (.tail' (before.trans way) imports)

lemma statement_rises {s : Statement} (acyclic : ∀ id, ¬ Relation.TransGen p.Imports id id) (on : c.In p owners behalf)
    (tiered : m.Tiered p owners behalf)
    (own : ∀ {exported name e span t b i item}, s = .define exported name e span → p.resolvedOf c.module = some t →
      t.declarations.get? name.span = some b → t.scopes.target b = .item i item → i = c.module ∧ behalf = some c.module) :
    Rises p owners behalf m (statement p run c s) fun owners' m' v =>
      v.Within p owners' behalf ∧ m'.Achieves p c.module s := by
  cases s with
  | importing i => exact importing_rises lifts acyclic on tiered
  | define exported name e span =>
    rw [statement_define]
    have value : Rises p owners behalf m (definedValue run c name e) fun owners' _ v => v.Within p owners' behalf := by
      cases e with
      | lambda f => exact .makeClosure tiered on
      | _ => exact lifts.plain on tiered
    refine value.bind fun owners₁ m₁ v grows tiered _ value => ?_
    refine (bindDefinition_rises exported e span (on.later grows) value tiered (own rfl)).bind fun _ _ _ _ tiered _ achieves => ?_
    exact .pure tiered ⟨Value.holds_unit, achieves⟩
  | expr e span => exact (lifts.plain on tiered).imp fun _ _ _ _ _ value => ⟨value, nofun, fun name exposes => exposes.elim⟩

/-! ### Blocks, branches and pipelines -/

lemma blockStatements_rises {ss : List Statement} (on : c.In p owners behalf)
    (values : ∀ v ∈ incoming, v.Within p owners behalf) (tiered : m.Tiered p owners behalf) :
    Rises p owners behalf m (blockStatements run c incoming ss) fun owners' _ v => v.Within p owners' behalf := by
  have passOver {owners : List Behalf} {m : Machine} (tiered : m.Tiered p owners behalf) :
      Rises p owners behalf m (blockStatements.passOver incoming) fun owners' _ v => v.Within p owners' behalf := by
    cases incoming with
    | none => exact .pure tiered Value.holds_unit
    | some v => exact .fail tiered
  induction ss generalizing owners m with
  | nil => exact passOver tiered
  | cons s ss ih =>
    cases ss with
    | nil =>
      cases s with
      | expr e span => exact lifts.value (.expr c e incoming) ⟨on, values⟩ tiered
      | _ => exact (lifts.value (.statement c _) on tiered).bind fun _ _ _ _ tiered _ _ => passOver tiered
    | cons next ss =>
      rw [blockStatements_cons]
      refine (lifts.value (.statement c s) on tiered).bind fun owners₁ m₁ _ grows tiered _ _ => ?_
      exact ih (on.later grows) (fun v given => (values v given).later grows) tiered

lemma block_rises {b : Block} (on : c.In p owners behalf) (values : ∀ v ∈ incoming, v.Within p owners behalf)
    (tiered : m.Tiered p owners behalf) :
    Rises p owners behalf m (block run c b incoming) fun owners' _ v => v.Within p owners' behalf := by
  refine (Rises.inside tiered on.owner .refl on.module).bind fun owners₁ m₁ c' grows tiered _ ⟨on', _⟩ => ?_
  exact blockStatements_rises lifts on' (fun v given => (values v given).later grows) tiered

lemma branch_rises {b : Branch} (on : c.In p owners behalf) (values : ∀ v ∈ incoming, v.Within p owners behalf)
    (tiered : m.Tiered p owners behalf) :
    Rises p owners behalf m (branch run c b incoming) fun owners' _ v => v.Within p owners' behalf := by
  refine (lifts.plain on tiered).bind fun owners₁ m₁ v grows tiered _ _ => ?_
  replace on := on.later grows
  replace values : ∀ v ∈ incoming, v.Within p owners₁ behalf := fun v given => (values v given).later grows
  cases v with
  | bool decision =>
    cases decision with
    | true => exact lifts.value (.block c b.consequence incoming) ⟨on, values⟩ tiered
    | false =>
      cases b.alternative with
      | absent =>
        refine .pure tiered ?_
        cases incoming with
        | none => exact Value.holds_unit
        | some v => exact values v rfl
      | block other => exact lifts.value (.block c other incoming) ⟨on, values⟩ tiered
      | branch other => exact lifts.value (.branch c other incoming) ⟨on, values⟩ tiered
  | _ => exact .fail tiered

omit lifts in
lemma bindTag_rises {tag : Option Ident} {v : Value} (on : c.In p owners behalf) (value : v.Within p owners behalf)
    (tiered : m.Tiered p owners behalf) : Rises p owners behalf m (bindTag p c v tag) fun _ _ _ => True := by
  cases tag with
  | none => exact .pure tiered trivial
  | some name =>
    refine .resolvedOf tiered fun t _ => ?_
    cases t.declarations.get? name.span with
    | some b => exact .define tiered on value
    | none => exact .fail tiered

lemma stage_rises {s : Stage} (on : c.In p owners behalf) (values : ∀ v ∈ incoming, v.Within p owners behalf)
    (tiered : m.Tiered p owners behalf) :
    Rises p owners behalf m (stage run c incoming s) fun owners' _ v => v.Within p owners' behalf := by
  cases s with
  | expr e tag span => exact lifts.value (.expr c e incoming) ⟨on, values⟩ tiered
  | operator op operand tag span =>
    cases incoming with
    | none => exact .fail tiered
    | some left =>
      exact (lifts.plain on tiered).bind fun _ _ _ _ tiered _ _ => .ofOutcome tiered (BinaryOp.apply_gives ..)

lemma pipeline_rises {stages : List Stage} (on : c.In p owners behalf) (values : ∀ v ∈ incoming, v.Within p owners behalf)
    (tiered : m.Tiered p owners behalf) :
    Rises p owners behalf m (pipeline p run c incoming stages) fun owners' _ v => v.Within p owners' behalf := by
  induction stages generalizing owners m incoming with
  | nil =>
    refine .pure tiered ?_
    cases incoming with
    | none => exact Value.holds_unit
    | some v => exact values v rfl
  | cons s stages ih =>
    refine (stage_rises lifts on values tiered).bind fun owners₁ m₁ v grows tiered _ value => ?_
    refine (bindTag_rises (on.later grows) value tiered).bind fun owners₂ m₂ _ grows' tiered _ _ => ?_
    exact ih ((on.later grows).later grows') (fun w same => Option.some.inj same ▸ value.later grows') tiered

/-! ### Loops -/

omit lifts run in
/-- What a loop has made so far may be used where it stands. -/
structure LoopProgress.Within (p : Program) (owners : List Behalf) (behalf : Behalf) (progress : LoopProgress) : Prop where
  folded : ∀ v ∈ progress.folded, v.Within p owners behalf
  mapped : ∀ v ∈ progress.mapped, v.Within p owners behalf
  frames : ∀ f ∈ progress.frames, owners[(f : Nat)]? = some behalf

lemma iteration_rises {l : Loop} {bound? : Option BindingId} {progress : LoopProgress} {v : Value}
    (on : c.In p owners behalf) (within : progress.Within p owners behalf) (element : v.Within p owners behalf)
    (tiered : m.Tiered p owners behalf) :
    Rises p owners behalf m (iteration run c l bound? progress v) fun owners' _ next => next.Within p owners' behalf := by
  obtain ⟨folded, mapped, frames⟩ := within
  refine (Rises.inside tiered on.owner .refl on.module).bind fun owners₁ m₁ c' grows₁ tiered _ opened => ?_
  obtain ⟨on', -⟩ := opened
  -- the stages are run when the element is bound
  have stages {owners₂ : List Behalf} {m₂ : Machine} (grows₂ : owners₁ <+: owners₂) (tiered : m₂.Tiered p owners₂ behalf) :
      Rises p owners₂ behalf m₂ (iterate run c' l progress) fun owners' _ next => next.Within p owners' behalf := by
    have grows := grows₁.trans grows₂
    have passed : ∀ w ∈ progress.folded, w.Within p owners₂ behalf := fun w given => (folded w given).later grows
    refine (lifts.value (.pipeline c' l.body.stages progress.folded) ⟨on'.later grows₂, passed⟩ tiered).bind
      fun owners₃ m₃ w grows₃ tiered _ value => ?_
    have opened : ∀ f ∈ c'.frame :: progress.frames, owners₃[(f : Nat)]? = some behalf :=
      List.forall_mem_cons.2 ⟨(on'.later (grows₂.trans grows₃)).owner, fun f member =>
        Behalf.kept (grows.trans grows₃) (frames f member)⟩
    have others : ∀ u ∈ progress.mapped, u.Within p owners₃ behalf :=
      Value.Within.all_later mapped (grows.trans grows₃)
    cases progress.folded with
    | some u => exact .pure tiered ⟨fun _ same => Option.some.inj same ▸ value, others, opened⟩
    | none => exact .pure tiered ⟨by simp, List.forall_mem_cons.2 ⟨value, others⟩, opened⟩
  cases bound? with
  | some id => exact (Rises.define tiered on' (element.later grows₁)).bind fun _ _ _ grows tiered _ _ => stages grows tiered
  | none => exact stages List.prefix_rfl tiered

lemma iterations_rise {l : Loop} {bound? : Option BindingId} {progress : LoopProgress} {elements : List Value}
    (on : c.In p owners behalf) (within : progress.Within p owners behalf) (values : ∀ v ∈ elements, v.Within p owners behalf)
    (tiered : m.Tiered p owners behalf) :
    Rises p owners behalf m (elements.foldlM (iteration run c l bound?) progress) fun owners' _ last =>
      last.Within p owners' behalf := by
  induction elements generalizing owners m progress with
  | nil => exact .pure tiered within
  | cons v elements ih =>
    obtain ⟨head, tail⟩ := List.forall_mem_cons.1 values
    rw [List.foldlM_cons]
    refine (iteration_rises lifts on within head tiered).bind fun owners₁ m₁ next grows tiered _ within => ?_
    exact ih (on.later grows) within (Value.Within.all_later tail grows) tiered

omit lifts in
/-- A tag is collected from frames that were opened on the same behalf. -/
lemma collectTags_rise {frames : List FrameId} {tags : List BindingId} (on : c.In p owners behalf)
    (opened : ∀ f ∈ frames, owners[(f : Nat)]? = some behalf) (tiered : m.Tiered p owners behalf) :
    Rises p owners behalf m (tags.forM (collectTag c frames)) fun _ _ _ => True := by
  induction tags generalizing owners m with
  | nil => exact .pure tiered trivial
  | cons tag tags ih =>
    have collected : (Value.array (frames.filterMap fun f => m.heap.getLocal? f tag)).Within p owners behalf := by
      refine Value.holds_array.2 fun v member => ?_
      obtain ⟨f, among, found⟩ := List.mem_filterMap.1 member
      exact tiered.getLocal (opened f among) found
    have first : Rises p owners behalf m (collectTag c frames tag) fun _ _ _ => True := .look (.define tiered on collected)
    show Rises p owners behalf m (collectTag c frames tag >>= fun _ => tags.forM _) _
    refine first.bind fun owners₁ m₁ _ grows tiered _ _ => ?_
    exact ih (on.later grows) (fun f member => Behalf.kept grows (opened f member)) tiered

lemma loop_rises {l : Loop} (on : c.In p owners behalf) (values : ∀ v ∈ incoming, v.Within p owners behalf)
    (tiered : m.Tiered p owners behalf) :
    Rises p owners behalf m (loop p run c l incoming) fun owners' _ v => v.Within p owners' behalf := by
  refine (lifts.plain on tiered).bind fun owners₁ m₁ v grows₁ tiered _ elements => ?_
  cases v with
  | array items =>
    refine .resolvedOf tiered fun t _ => ?_
    have start : LoopProgress.Within p owners₁ behalf ⟨incoming, [], []⟩ :=
      ⟨fun v given => (values v given).later grows₁, nofun, nofun⟩
    refine (iterations_rise lifts (on.later grows₁) start (Value.holds_array.1 elements) tiered).bind
      fun owners₂ m₂ last grows₂ tiered _ ⟨folded, mapped, frames⟩ => ?_
    have opened : ∀ f ∈ last.frames.reverse, owners₂[(f : Nat)]? = some behalf :=
      fun f member => frames f (List.mem_reverse.1 member)
    refine (collectTags_rise ((on.later grows₁).later grows₂) opened tiered).bind fun owners₃ m₃ _ grows₃ tiered _ _ => ?_
    cases made : last.folded with
    | some v => exact .pure tiered ((folded v made).later grows₃)
    | none => exact .pure tiered (Value.holds_array.2 fun v member => (mapped v (List.mem_reverse.1 member)).later grows₃)
  | _ => exact .fail tiered

/-! ### Calls -/

lemma bindParams_rises {callee : String} {count : Nat} {t : Resolved} {places : List (Param × Option Value)} (on : c.In p owners behalf)
    (values : ∀ place ∈ places, ∀ v ∈ place.2, v.Within p owners behalf) (tiered : m.Tiered p owners behalf) :
    Rises p owners behalf m (bindParams run callee count t c places) fun _ _ _ => True := by
  induction places generalizing owners m with
  | nil => exact .pure tiered trivial
  | cons place places ih =>
    obtain ⟨q, given⟩ := place
    obtain ⟨first, others⟩ := List.forall_mem_cons.1 values
    have bound {owners₁ : List Behalf} {m₁ : Machine} (v : Value) (grows₁ : owners <+: owners₁)
        (tiered : m₁.Tiered p owners₁ behalf) (value : v.Within p owners₁ behalf) :
        Rises p owners₁ behalf m₁ (bindParam run callee count t c q places v) fun _ _ _ => True := by
      refine (Rises.ofOutcome (Q := fun _ _ _ => True) tiered checkArgument_gives).bind
        fun owners₂ m₂ _ grows₂ tiered _ _ => ?_
      have others {owners₃ : List Behalf} {m₃ : Machine} (grows₃ : owners₂ <+: owners₃) (tiered : m₃.Tiered p owners₃ behalf) :
          Rises p owners₃ behalf m₃ (bindParams run callee count t c places) fun _ _ _ => True := by
        have grows := grows₁.trans (grows₂.trans grows₃)
        exact ih (on.later grows) (fun place member v given => (others place member v given).later grows) tiered
      cases t.declarations.get? q.name.span with
      | some id =>
        have on := (on.later grows₁).later grows₂
        exact (Rises.define tiered on (value.later grows₂)).bind fun _ _ _ grows tiered _ _ => others grows tiered
      | none => exact others List.prefix_rfl tiered
    simp only [bindParams]
    cases given with
    | some v => exact bound v List.prefix_rfl tiered (first v rfl)
    | none =>
      cases q.fallback with
      | some e => exact (lifts.plain on tiered).bind fun _ _ v grows tiered _ value => bound v grows tiered value
      | none => exact (Rises.fail (Q := fun _ _ _ => False) tiered).bind fun _ _ _ _ _ _ => False.elim

lemma callClosure_rises {f : Closure} {positional : List Value} {keyword : List (String × Value)}
    (callable : (Value.closure f).Within p owners behalf) (fit : ∀ v ∈ positional, v.Within p owners behalf)
    (fit' : ∀ entry ∈ keyword, entry.2.Within p owners behalf) (tiered : m.Tiered p owners behalf) :
    Rises p owners behalf m (callClosure p run f positional keyword) fun owners' _ v => v.Within p owners' behalf := by
  cases Value.holds_closure.1 callable with
  | @closure _ owner known below module =>
    refine (Rises.ofOutcome tiered (bindSlots_gives fit fit')).bind
      (Q := fun owners' _ given => ∀ v, some v ∈ given → v.Within p owners behalf) fun owners₁ m₁ given grows₁ tiered _ fits => ?_
    refine (Rises.inside (c := ⟨f.module, f.frame⟩) tiered (Behalf.kept grows₁ known) below module).bind
      fun owners₂ m₂ c grows₂ tiered _ ⟨on, _⟩ => ?_
    refine .resolvedOf tiered fun t _ => ?_
    have good : ∀ place ∈ f.lambda.params.zip given, ∀ v ∈ place.2, v.Within p owners₂ behalf := fun place member v same =>
      (fits v (same ▸ (List.of_mem_zip member).2)).later (grows₁.trans grows₂)
    refine (bindParams_rises lifts on good tiered).bind fun owners₃ m₃ _ grows₃ tiered _ _ => ?_
    refine (lifts.plain (on.later grows₃) tiered).bind fun owners₄ m₄ v _ tiered _ value => ?_
    cases f.lambda.returns with
    | none => exact .pure tiered value
    | some note =>
      dsimp only
      split
      · exact .pure tiered value
      · exact .fail tiered

omit lifts in
lemma callHost_rises {name : String} {positional : List Value} {keyword : List (String × Value)} (honest : p.hosts.Honest)
    (fit : ∀ v ∈ positional, v.Within p owners behalf) (fit' : ∀ entry ∈ keyword, entry.2.Within p owners behalf)
    (tiered : m.Tiered p owners behalf) :
    Rises p owners behalf m (callHost p name positional keyword) fun owners' _ v => v.Within p owners' behalf := by
  unfold callHost
  cases found : p.hosts.get? name with
  | none => exact .fail tiered
  | some f =>
    refine (Rises.ofOutcome tiered (bindSlots_gives fit fit')).bind
      (Q := fun _ _ given => ∀ v, some v ∈ given → v.Within p owners behalf) fun owners₁ m₁ given grows₁ tiered _ fits => ?_
    refine (Rises.ofOutcome tiered (hostArguments_gives fun place member v same =>
      fits v (same ▸ (List.of_mem_zip member).2))).bind (Q := fun _ _ args => ∀ v ∈ args, v.Within p owners behalf ∨
        ∃ place ∈ f.signature.params.zip given, place.1.fallback = some v) fun owners₂ m₂ args grows₂ tiered _ fit => ?_
    refine (Rises.freshIdentity tiered).bind fun owners₃ m₃ serial grows₃ tiered _ _ => ?_
    cases answer : f.apply serial args with
    | error message => exact .fail tiered
    | ok v =>
      have within : v.Within p owners behalf := fun g member => by
        rcases honest name f found serial args v answer g member with ⟨other, rfl, -⟩ | ⟨⟨a, among, inside⟩, new⟩
        · exact .host
        · rcases fit a among with holds | ⟨place, member, default⟩
          · exact holds g inside
          · exact absurd inside (new _ (List.of_mem_zip member).1 a default)
      exact .pure tiered (within.later (grows₁.trans (grows₂.trans grows₃)))

lemma call_rises {callee : Value} {positional : List Value} {keyword : List (String × Value)} (honest : p.hosts.Honest)
    (callable : callee.Within p owners behalf) (fit : ∀ v ∈ positional, v.Within p owners behalf)
    (fit' : ∀ entry ∈ keyword, entry.2.Within p owners behalf) (tiered : m.Tiered p owners behalf) :
    Rises p owners behalf m (call p run callee positional keyword) fun owners' _ v => v.Within p owners' behalf := by
  cases callee with
  | closure f => exact callClosure_rises lifts callable fit fit' tiered
  | host name => exact callHost_rises honest fit fit' tiered
  | _ => exact .fail tiered

/-! ### Modules -/

lemma moduleStatements_rises {frame : FrameId} {last : Value} (ss : List Statement)
    (on : Context.In p owners behalf ⟨id, frame⟩) (value : last.Within p owners behalf) (tiered : m.Tiered p owners behalf) :
    Rises p owners behalf m (moduleStatements run ⟨id, frame⟩ last ss) fun owners' m' v =>
      v.Within p owners' behalf ∧ ∀ s ∈ ss, m'.Achieves p id s := by
  induction ss generalizing owners m last with
  | nil => exact .pure tiered ⟨value, nofun⟩
  | cons s ss ih =>
    refine (lifts (.statement ⟨id, frame⟩ s) on tiered).bind fun owners₁ m₁ v grows tiered _ ⟨value, first⟩ => ?_
    have behind := ih (on.later grows) value tiered
    unfold Rises at behind ⊢
    match ran : moduleStatements run ⟨id, frame⟩ v ss m₁ with
    | .ok w m₂ =>
      rw [ran] at behind
      obtain ⟨owners₂, grows₂, tiered₂, builds₂, value₂, others⟩ := behind
      exact ⟨owners₂, grows₂, tiered₂, builds₂, value₂, List.forall_mem_cons.2 ⟨first.later builds₂.toAdds, others⟩⟩
    | .error (.error e) m₂ =>
      rw [ran] at behind
      exact behind
    | .error .outOfFuel m₂ => trivial

/-- A module runs its statements on its own behalf, and has achieved what they are there for when it comes to its end. -/
lemma module_rises (below : p.Below (some id) behalf) (tiered : m.Tiered p owners behalf) :
    Rises p owners behalf m (step p run (.module id)) fun owners' m' v =>
      v.Within p owners' behalf ∧ (m'.states.lookup id = some .done ∨ m'.states.lookup id = some .running) := by
  unfold Rises
  cases past : m.past id with
  | cons s before =>
    have known : m.states.lookup id = some s := by rw [Machine.lookup_states, past, List.head?_cons]
    rw [step_module_begun past]
    cases s with
    | running => exact ⟨owners, List.prefix_rfl, tiered, .refl, Value.holds_unit, Or.inr known⟩
    | done => exact ⟨owners, List.prefix_rfl, tiered, .refl, Value.holds_unit, Or.inl known⟩
    | failed e => exact ⟨owners, List.prefix_rfl, tiered, .refl⟩
  | nil =>
    have fresh : m.states.lookup id = none := by rw [Machine.lookup_states, past, List.head?_nil]
    obtain ⟨result, -, stops, stays⟩ | ⟨-, loaded, ast, found, -, parsed, runs⟩ := step_module p id m
    · obtain ⟨e, rfl⟩ := stops past
      rw [stays]
      exact ⟨owners, List.prefix_rfl, tiered, .refl⟩
    · obtain ⟨begins, adds⟩ := tiered.begin fresh below
      have on : Context.In p (owners ++ [some id]) (some id) ⟨id, m.heap.size⟩ := ⟨by simp [← tiered.size], .refl⟩
      have statements := moduleStatements_rises lifts ast.statements on Value.holds_unit begins
      have grows : owners <+: owners ++ [some id] := List.prefix_append _ _
      have running : (begun id m).states.lookup id = some .running := by simp [begun]
      -- what is running behind the statements was running before, but for the module itself
      have around {m₁ : Machine} (builds : (begun id m).Builds m₁) {other : ModuleId} (differs : other ≠ id)
          (running : m₁.states.lookup other = some .running) : m.states.lookup other = some .running := by
        simpa [begun, List.lookup_cons, beq_false_of_ne differs] using builds.running running
      have ends {m₁ m₂ : Machine} {s : RunState} (builds : (begun id m).Builds m₁) (ended : s ≠ .running)
          (states : m₂.states = (id, s) :: m₁.states) (items : m₂.items = m₁.items) : m.Builds m₂ := by
        refine ⟨⟨fun {other s'} known => ?_, fun known => items ▸ builds.items (adds.items known)⟩, fun {other} running => ?_⟩
        · have differs : (other == id) = false := beq_false_of_ne fun same => by
            rw [same, fresh] at known
            cases known
          rw [states, List.lookup_cons, differs]
          exact builds.states (adds.states known)
        · rw [states, List.lookup_cons] at running
          split at running
          · exact absurd (Option.some.inj running) ended
          · next differs => exact around builds (ne_of_beq_false differs) running
      rw [runs]
      unfold Rises at statements
      cases ran : moduleStatements run ⟨id, m.heap.size⟩ .unit ast.statements (begun id m) with
      | ok v m₁ =>
        rw [ran] at statements
        obtain ⟨owners₁, grows₁, tiered₁, builds₁, value, achieved⟩ := statements
        have closed : { m₁ with states := (id, .done) :: m₁.states : Machine }.Tiered p owners₁ behalf := by
          refine tiered₁.close (builds₁.states running) (by simp) (fun differs running => tiered.running (around builds₁ differs running))
            fun _ {l ast'} found' parsed' => ?_
          cases found.symm.trans found'
          cases parsed.symm.trans parsed'
          exact achieved
        refine ⟨owners₁, grows.trans grows₁, ?_, ends (s := .done) builds₁ (by simp) rfl rfl, Value.holds_unit, Or.inl (by simp)⟩
        refine { closed with
          assemblies := fun entry member => ?_
          done := fun done found parsed s member => (closed.done done found parsed s member).later (.of_same rfl rfl) }
        dsimp only at member
        split at member
        · rcases List.mem_cons.1 member with rfl | old
          · exact value
          · exact closed.assemblies entry old
        · exact closed.assemblies entry member
      | error stop m₁ =>
        cases stop with
        | error e =>
          rw [ran] at statements
          obtain ⟨owners₁, grows₁, tiered₁, builds₁⟩ := statements
          refine ⟨owners₁, grows.trans grows₁, ?_, ends (s := .failed e) builds₁ (by simp) rfl rfl⟩
          exact tiered₁.close (builds₁.states running) (by simp)
            (fun differs running => tiered.running (around builds₁ differs running)) (by simp)
        | outOfFuel => trivial

/-- A step of a task that fits leaves it so if its tasks do. -/
lemma step_rises {task : Task} (rest : p.AtRest) (honest : p.hosts.Honest) (onePlace : p.OnePlace)
    (acyclic : ∀ id, ¬ Relation.TransGen p.Imports id id) (fits : task.Fits p labels) (sound : m.Sound p labels)
    (on : task.On p owners behalf) (tiered : m.Tiered p owners behalf) :
    Rises p owners behalf m (step p run task) fun owners' m' v => v.Within p owners' behalf ∧ task.Achieved p m' := by
  have plain {x : Eval Value} (rises : Rises p owners behalf m x fun owners' _ v => v.Within p owners' behalf) :
      Rises p owners behalf m x fun owners' _ v => v.Within p owners' behalf ∧ True :=
    rises.imp fun _ _ _ _ _ value => ⟨value, trivial⟩
  cases task with
  | expr c e incoming => exact plain (expr_rises lifts rest on.1 on.2 tiered)
  | statement c s =>
    refine statement_rises lifts acyclic on tiered fun {exported name e span t b i item} same resolved declared target => ?_
    subst same
    cases fits with
    | @statement _ t' scope _ stands settled =>
      cases stands.resolved.symm.trans resolved
      have place := onePlace stands.usable resolved
      cases settled with
      | define _ declares =>
        -- what others can see is introduced in the scope of the module, and the frame of that is the module's
        have root := place.top declared target (declares trivial)
        have frame := sound.roots.1 (root ▸ stands.label)
        exact ⟨place.own declared target, Option.some.inj (on.owner.symm.trans (tiered.roots frame))⟩
  | block c b incoming => exact plain (block_rises lifts on.1 on.2 tiered)
  | branch c b incoming => exact plain (branch_rises lifts on.1 on.2 tiered)
  | pipeline c stages incoming => exact plain (pipeline_rises lifts on.1 on.2 tiered)
  | loop c l incoming => exact plain (loop_rises lifts on.1 on.2 tiered)
  | call callee positional keyword => exact plain (call_rises lifts honest on.1 on.2.1 on.2.2 tiered)
  | module id => exact module_rises lifts on tiered

end

end Eval

/-- What is evaluated on somebody's behalf leaves the machine so, at every depth of nested evaluation, if it fits. -/
theorem Task.run_rises {task : Task} (rest : p.AtRest) (honest : p.hosts.Honest) (onePlace : p.OnePlace)
    (acyclic : ∀ id, ¬ Relation.TransGen p.Imports id id) (fuel : Nat) (fits : task.Fits p labels) (sound : m.Sound p labels)
    (on : task.On p owners behalf) (tiered : m.Tiered p owners behalf) :
    Rises p owners behalf m (Task.run p fuel task) fun owners' m' v => v.Within p owners' behalf ∧ task.Achieved p m' := by
  induction fuel generalizing task owners behalf m labels with
  | zero => trivial
  | succ fuel ih =>
    -- the step asks for nothing that does not fit
    have agrees : Agree p labels (Task.run p fuel) (Task.run p fuel) := Task.run_keeps rest honest fuel
    obtain ⟨run', agree, stops⟩ := Agree.restricted agrees
    have same : step p (Task.run p fuel) task m = step p run' task m :=
      (step_keeps rest honest agree (Task.run_growing _) fits List.prefix_rfl m sound).1
    have lifts : Lifts p run' := by
      intro owners behalf task m on tiered
      obtain stop | ⟨labels', sound', fits', same'⟩ := stops task m
      · unfold Rises
        rw [stop]
        trivial
      · unfold Rises
        rw [same']
        exact ih fits' sound' on tiered
    show Lands p owners behalf m _ (step p (Task.run p fuel) task m)
    rw [same]
    exact step_rises lifts rest honest onePlace acyclic fits sound on tiered

end PipeLang
