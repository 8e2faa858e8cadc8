import PipeLang.Eval
import PipeLang.Proofs.Eval.Steps

/-!
# Steps as scripts

A step asks for other tasks one after another, and between them it changes frames and identities only: `step_script`. The
exceptions are a definition, which may give an exported definition its value, and a module that runs. What holds of
every change that a step makes by itself and of every task that it asks for, and is handed on from one to the next, holds of the
step as a whole.
-/

namespace PipeLang

namespace Machine

/-- Nothing more has been recorded of modules, no value of an exported definition is lost, and frames have only grown. -/
structure Idle (m m' : Machine) : Prop where
  states : m'.states = m.states
  assemblies : m'.assemblies = m.assemblies
  heap : m.heap.Grows m'.heap
  values : m.items <:+ m'.items

/-- Nothing more has been recorded of modules and of exported definitions. -/
structure Still (m m' : Machine) : Prop extends m.Idle m' where
  items : m'.items = m.items

variable {m m' m'' : Machine}

lemma Still.refl : m.Still m :=
  ⟨⟨rfl, rfl, .refl, List.suffix_rfl⟩, rfl⟩

lemma Still.trans (h : m.Still m') (h' : m'.Still m'') : m.Still m'' :=
  ⟨⟨h'.states.trans h.states, h'.assemblies.trans h.assemblies, h.heap.trans h'.heap, h.values.trans h'.values⟩,
    h'.items.trans h.items⟩

end Machine

namespace Task

/-- Whether a statement is asked for. -/
def IsStatement : Task → Prop
  | .statement _ _ => True
  | _ => False

/-- A task that is no definition that others can see. -/
def Inert (p : Program) : Task → Prop
  | .statement c (.define _ name _ _) => ∀ t b, p.resolvedOf c.module = some t → t.declarations.get? name.span = some b →
    ∀ i item, t.scopes.target b ≠ .item i item
  | _ => True

lemma Inert.of_plain {p : Program} {task : Task} (plain : ¬ task.IsStatement) : task.Inert p := by
  cases task with
  | statement c s => exact absurd trivial plain
  | _ => trivial

end Task

namespace Eval

variable {α β : Type}

/-- The machine that a computation leaves behind. -/
def left : EStateM.Result Stop Machine α → Machine
  | .ok _ m => m
  | .error _ m => m

/-- A computation that asks for tasks of a kind one after another. What it does by itself between them is limited. -/
inductive Script (own : Machine → Machine → Prop) (asks : Task → Prop) :
    {α : Type} → ((Task → Eval Value) → Eval α) → Prop where
  | own {α : Type} {x : Eval α} :
    (∀ m, own m (left (x m))) →
    Script own asks fun _ => x
  | ask {task} :
    asks task →
    Script own asks fun run => run task
  | bind {α β : Type} {x : (Task → Eval Value) → Eval α} {f : (Task → Eval Value) → α → Eval β} :
    Script own asks x →
    (∀ a, Script own asks fun run => f run a) →
    Script own asks fun run => x run >>= f run

/-- A computation that leaves the records of a machine alone. -/
def Apart (x : Eval α) : Prop :=
  ∀ m : Machine, m.Still (left (x m))

namespace Apart

lemma pure (a : α) : Apart (Pure.pure a : Eval α) :=
  fun _ => .refl

lemma fail (e : RuntimeError) : Apart (Eval.fail e : Eval α) :=
  fun _ => .refl

lemma bind {x : Eval α} {f : α → Eval β} (first : Apart x) (next : ∀ a, Apart (f a)) : Apart (x >>= f) := by
  intro m
  have before := first m
  cases h : x m with
  | ok a m' =>
    rw [bind_eq h]
    rw [h] at before
    exact before.trans (next a m')
  | error stop m' =>
    rw [bind_stop h]
    rw [h] at before
    exact before

lemma ofOutcome (o : Outcome α) : Apart (Eval.ofOutcome o) := by
  cases o with
  | ok a => exact pure a
  | error e => exact fail e

lemma define {f : FrameId} {id : BindingId} {v : Value} : Apart (Eval.define f id v) :=
  fun _ => ⟨⟨rfl, rfl, .define, List.suffix_rfl⟩, rfl⟩

lemma freshIdentity : Apart Eval.freshIdentity :=
  fun _ => ⟨⟨rfl, rfl, .refl, List.suffix_rfl⟩, rfl⟩

lemma openFrame {parent : Option FrameId} : Apart (Eval.openFrame parent) :=
  fun _ => ⟨⟨rfl, rfl, .push, List.suffix_rfl⟩, rfl⟩

lemma inside {c : Context} : Apart (Eval.inside c) :=
  openFrame.bind fun _ => pure _

lemma makeClosure {c : Context} {f : Lambda} {name : Option String} : Apart (Eval.makeClosure c f name) :=
  freshIdentity.bind fun _ => pure _

lemma get : Apart (MonadState.get : Eval Machine) :=
  fun _ => .refl

lemma item? {id : ModuleId} {name : String} : Apart (Eval.item? id name) :=
  fun _ => .refl

variable {p : Program}

lemma module {id : ModuleId} : Apart (Eval.module p id) := by
  unfold Eval.module
  split
  · exact pure _
  · exact fail _

lemma resolvedOf {id : ModuleId} : Apart (Eval.resolvedOf p id) := by
  refine module.bind fun m => ?_
  cases m.resolved with
  | some t => exact pure t
  | none => exact fail _

lemma collectTags {c : Context} {frames : List FrameId} {tags : List BindingId} :
    Apart (tags.forM (collectTag c frames)) := by
  induction tags with
  | nil => exact pure ()
  | cons tag tags ih =>
    rw [List.forM_eq_forM, List.forM_cons]
    exact (get.bind fun _ => define).bind fun _ => ih

lemma bindTag {c : Context} {v : Value} {tag : Option Ident} : Apart (Eval.bindTag p c v tag) := by
  cases tag with
  | none => exact pure ()
  | some name =>
    refine resolvedOf.bind fun t => ?_
    cases t.declarations.get? name.span with
    | some id => exact define
    | none => exact fail _

lemma callHost {name : String} {positional : List Value} {keyword : List (String × Value)} :
    Apart (Eval.callHost p name positional keyword) := by
  unfold Eval.callHost
  cases p.hosts.get? name with
  | none => exact fail _
  | some f =>
    refine (ofOutcome _).bind fun given => (ofOutcome _).bind fun args => freshIdentity.bind fun serial => ?_
    cases f.apply serial args with
    | ok v => exact pure v
    | error message => exact fail _

end Apart

/-- A definition that others can see is given its value. No other changes the records. -/
lemma bindDefinition_cases (p : Program) (c : Context) (name : Ident) (v : Value) (m : Machine) :
    m.Still (left (bindDefinition p c name v m)) ∨ ∃ t b i item, p.resolvedOf c.module = some t ∧
      t.declarations.get? name.span = some b ∧ t.scopes.target b = .item i item ∧
        bindDefinition p c name v m = .ok () { m with items := ((i, item), v) :: m.items } := by
  unfold bindDefinition Eval.resolvedOf Eval.module
  cases found : p.modules[(c.module : Nat)]? with
  | none => exact Or.inl .refl
  | some l =>
    simp only [pure_bind]
    cases resolved : l.resolved with
    | none => exact Or.inl .refl
    | some t =>
      simp only [pure_bind]
      cases declared : t.declarations.get? name.span with
      | none => exact Or.inl .refl
      | some b =>
        dsimp only
        cases target : t.scopes.target b with
        | item i item =>
          exact Or.inr ⟨t, b, i, item, Option.bind_eq_some_iff.2 ⟨l, found, resolved⟩, declared, target, rfl⟩
        | _ => exact Or.inl ⟨⟨rfl, rfl, .define, List.suffix_rfl⟩, rfl⟩

lemma Apart.bindDefinition {p : Program} {c : Context} {name : Ident} {v : Value}
    (inner : ∀ t b, p.resolvedOf c.module = some t → t.declarations.get? name.span = some b →
      ∀ i item, t.scopes.target b ≠ .item i item) : Apart (Eval.bindDefinition p c name v) := by
  intro m
  obtain still | ⟨t, b, i, item, known, declared, target, -⟩ := bindDefinition_cases p c name v m
  · exact still
  · exact absurd target (inner t b known declared i item)

/-- Nothing is left of a value that is not used. -/
lemma left_discard {x : Eval α} {b : β} {m : Machine} : left ((x >>= fun _ => pure b) m) = left (x m) := by
  cases h : x m with
  | ok a m' => rw [bind_eq h]; rfl
  | error stop m' => rw [bind_stop h]; rfl

namespace Script

variable {p : Program} {own own' : Machine → Machine → Prop} {asks asks' : Task → Prop}
  {x : (Task → Eval Value) → Eval α}

lemma mono (h : Script own asks x) (more : ∀ m m', own m m' → own' m m') (more' : ∀ task, asks task → asks' task) :
    Script own' asks' x := by
  induction h with
  | own here => exact .own fun m => more m _ (here m)
  | ask member => exact .ask (more' _ member)
  | bind _ _ ih ih' => exact .bind ih ih'

lemma apart {x : Eval α} (h : Apart x) : Script Machine.Still asks fun _ => x :=
  .own h

/-- What comes of every part of a script comes of the whole. -/
lemma leads {R : Machine → Machine → Prop} {run : Task → Eval Value} (h : Script own asks x)
    (trans : ∀ {m m' m''}, R m m' → R m' m'' → R m m'') (here : ∀ m m', own m m' → R m m')
    (there : ∀ task, asks task → ∀ m, R m (left (run task m))) (m : Machine) : R m (left (x run m)) := by
  induction h generalizing m with
  | own changes => exact here m _ (changes m)
  | ask member => exact there _ member m
  | @bind α β x f _ _ ih ih' =>
    have first := ih m
    show R m (left ((x run >>= f run) m))
    cases ran : x run m with
    | ok a m₁ =>
      rw [bind_eq ran]
      rw [ran] at first
      exact trans first (ih' a m₁)
    | error stop m₁ =>
      rw [bind_stop ran]
      rwa [ran] at first

end Script

section

variable {p : Program} {asks : Task → Prop} (free : ∀ {task : Task}, ¬ task.IsStatement → asks task)
  {c : Context} {incoming : Option Value}
include free

lemma assembly_script {id : ModuleId} : Script Machine.Still asks fun run => assembly p run id := by
  refine .bind (.apart .module) fun m => ?_
  cases m.isAssembly with
  | false => exact .apart (.fail _)
  | true =>
    refine .bind (.ask (free not_false)) fun _ => .apart (Apart.get.bind fun s => ?_)
    cases s.assemblies.lookup id with
    | some v => exact .pure v
    | none => exact .fail _

lemma reference_script {site : Span} {name : String} :
    Script Machine.Still asks fun run => reference p run c site name := by
  refine .bind (.apart .resolvedOf) fun t => ?_
  cases t.references.get? site with
  | none => exact .apart (.fail _)
  | some r =>
    dsimp only
    cases r.target with
    | inner id =>
      refine .apart (Apart.get.bind fun s => ?_)
      cases s.heap.get? c.frame id with
      | some v => exact .pure v
      | none => exact .fail _
    | item id item =>
      refine .bind (.apart .item?) fun found => ?_
      cases found with
      | some v => exact .apart (.pure v)
      | none =>
        refine .bind (.ask (free not_false)) fun _ => .apart (Apart.item?.bind fun found => ?_)
        cases found with
        | some v => exact .pure v
        | none => exact .fail _
    | module id => exact assembly_script free
    | host name => exact .apart (.pure _)
    | invalid => exact .apart (.fail _)

lemma exprs_script {es : List Expr} : Script Machine.Still asks fun run => exprs run c es := by
  induction es with
  | nil => exact .apart (.pure [])
  | cons e es ih =>
    simp only [exprs, List.mapM_cons] at ih ⊢
    exact .bind (.ask (free not_false)) fun v => .bind ih fun vs => .apart (.pure _)

lemma arguments_script {args : List Argument} : Script Machine.Still asks fun run => arguments run c args := by
  induction args with
  | nil => exact .apart (.pure _)
  | cons a args ih =>
    simp only [arguments]
    refine .bind (.ask (free not_false)) fun v => .bind ih fun given => ?_
    obtain ⟨positional, keyword⟩ := given
    cases a.name with
    | some name => exact .apart (.pure _)
    | none => exact .apart (.pure _)

/-- One task, and what is made of its value. -/
lemma ask_script {task : Task} {f : Value → Eval α} (plain : ¬ task.IsStatement) (apart : ∀ v, Apart (f v)) :
    Script Machine.Still asks fun run => run task >>= f :=
  .bind (.ask (free plain)) fun v => .apart (apart v)

lemma plainExpr_script {e : Expr} : Script Machine.Still asks fun run => plainExpr p run c e := by
  cases e with
  | name ident => exact reference_script free
  | path head rest span => exact reference_script free
  | literal value span => exact .apart (.pure _)
  | array items span => exact .bind (exprs_script free) fun vs => .apart (.pure _)
  | range start stop inclusive span =>
    refine .bind (.ask (free not_false)) fun v => .bind (.apart (.ofOutcome _)) fun first => ?_
    exact ask_script free not_false fun w => (Apart.ofOutcome _).bind fun last => .ofOutcome _
  | binary op left right span =>
    refine .bind (.ask (free not_false)) fun v => ?_
    cases op.decided? v with
    | some w => exact .apart (.pure w)
    | none => exact ask_script free not_false fun w => .ofOutcome _
  | unary op operand span => exact ask_script free not_false fun w => .ofOutcome _
  | call callee args span =>
    refine .bind (.ask (free not_false)) fun f => .bind (arguments_script free) fun (positional, keyword) => ?_
    exact .ask (free not_false)
  | index base index span =>
    exact .bind (.ask (free not_false)) fun v => ask_script free not_false fun w => .ofOutcome _
  | lambda f => exact .apart .makeClosure
  | block b => exact .ask (free not_false)
  | branch b => exact .ask (free not_false)
  | pipeline pl => exact .ask (free not_false)
  | loop l => exact .ask (free not_false)

lemma stageExpr_script {e : Expr} {v : Value} : Script Machine.Still asks fun run => stageExpr run c v e := by
  cases e with
  | name ident => exact .bind (.ask (free not_false)) fun f => .ask (free not_false)
  | path head rest span => exact .bind (.ask (free not_false)) fun f => .ask (free not_false)
  | call callee args span =>
    refine .bind (.ask (free not_false)) fun f => .bind (arguments_script free) fun (positional, keyword) => ?_
    exact .ask (free not_false)
  | block b => exact .ask (free not_false)
  | branch b => exact .ask (free not_false)
  | pipeline pl => exact .ask (free not_false)
  | loop l => exact .ask (free not_false)
  | _ => exact .apart (.fail _)

/-- The statements of a block are asked for besides. -/
lemma blockStatements_script {ss : List Statement} (statements : ∀ s ∈ ss, asks (.statement c s)) :
    Script Machine.Still asks fun run => blockStatements run c incoming ss := by
  have passOver : Script Machine.Still asks fun _ => blockStatements.passOver incoming := by
    cases incoming with
    | none => exact .apart (.pure _)
    | some v => exact .apart (.fail _)
  induction ss with
  | nil => exact passOver
  | cons s ss ih =>
    obtain ⟨first, others⟩ := List.forall_mem_cons.1 statements
    cases ss with
    | nil =>
      cases s with
      | expr e span => exact .ask (free not_false)
      | importing i => exact .bind (.ask first) fun _ => passOver
      | define exported name value span => exact .bind (.ask first) fun _ => passOver
    | cons next ss =>
      have rest (run : Task → Eval Value) : blockStatements run c incoming (s :: next :: ss) =
          run (.statement c s) >>= fun _ => blockStatements run c incoming (next :: ss) := by
        cases s <;> rfl
      simp only [rest]
      exact .bind (.ask first) fun _ => ih others

lemma block_script {b : Block} (statements : ∀ s ∈ b.statements, ∀ f, asks (.statement ⟨c.module, f⟩ s)) :
    Script Machine.Still asks fun run => block run c b incoming := by
  have opens (run : Task → Eval Value) : block run c b incoming =
      openFrame (some c.frame) >>= fun f => blockStatements run ⟨c.module, f⟩ incoming b.statements := by
    simp only [block, inside, bind_assoc, pure_bind]
  simp only [opens]
  refine .bind (.apart .openFrame) fun f => ?_
  exact blockStatements_script free fun s member => statements s member f

lemma branch_script {b : Branch} : Script Machine.Still asks fun run => branch run c b incoming := by
  refine .bind (.ask (free not_false)) fun v => ?_
  cases v with
  | bool decision =>
    cases decision with
    | true => exact .ask (free not_false)
    | false =>
      cases b.alternative with
      | absent => exact .apart (.pure _)
      | block other => exact .ask (free not_false)
      | branch other => exact .ask (free not_false)
  | _ => exact .apart (.fail _)

lemma stage_script {s : Stage} : Script Machine.Still asks fun run => stage run c incoming s := by
  cases s with
  | expr e tag span => exact .ask (free not_false)
  | operator op operand tag span =>
    cases incoming with
    | none => exact .apart (.fail _)
    | some left => exact ask_script free not_false fun w => .ofOutcome _

lemma pipeline_script {stages : List Stage} :
    Script Machine.Still asks fun run => pipeline p run c incoming stages := by
  induction stages generalizing incoming with
  | nil => exact .apart (.pure _)
  | cons s stages ih => exact .bind (stage_script free) fun v => .bind (.apart .bindTag) fun _ => ih

lemma iteration_script {l : Loop} {bound? : Option BindingId} {progress : LoopProgress} {v : Value} :
    Script Machine.Still asks fun run => iteration run c l bound? progress v := by
  refine .bind (.apart .inside) fun inner => ?_
  have body : Script Machine.Still asks fun run => iterate run inner l progress := by
    unfold iterate
    refine ask_script free not_false fun w => ?_
    cases progress.folded with
    | some u => exact .pure _
    | none => exact .pure _
  cases bound? with
  | some id => exact .bind (.apart .define) fun _ => body
  | none => exact body

lemma iterations_script {l : Loop} {bound? : Option BindingId} {progress : LoopProgress} {elements : List Value} :
    Script Machine.Still asks fun run => elements.foldlM (iteration run c l bound?) progress := by
  induction elements generalizing progress with
  | nil => exact .apart (.pure _)
  | cons v elements ih =>
    simp only [List.foldlM_cons]
    exact .bind (iteration_script free) fun next => ih

lemma loop_script {l : Loop} : Script Machine.Still asks fun run => loop p run c l incoming := by
  refine .bind (.ask (free not_false)) fun v => ?_
  cases v with
  | array elements =>
    refine .bind (.apart .resolvedOf) fun t => .bind (iterations_script free) fun last => .apart ?_
    refine Apart.collectTags.bind fun _ => ?_
    cases last.folded with
    | some v => exact .pure v
    | none => exact .pure _
  | _ => exact .apart (.fail _)

lemma bindParams_script {callee : String} {count : Nat} {t : Resolved} {places : List (Param × Option Value)} :
    Script Machine.Still asks fun run => bindParams run callee count t c places := by
  induction places with
  | nil => exact .apart (.pure ())
  | cons place places ih =>
    obtain ⟨q, given⟩ := place
    have bound (v : Value) : Script Machine.Still asks fun run => bindParam run callee count t c q places v := by
      unfold bindParam
      refine .bind (.apart (.ofOutcome _)) fun _ => ?_
      cases t.declarations.get? q.name.span with
      | some id => exact .bind (.apart .define) fun _ => ih
      | none => exact ih
    simp only [bindParams]
    cases given with
    | some v => exact .bind (.apart (.pure v)) bound
    | none =>
      cases q.fallback with
      | some e => exact .bind (.ask (free not_false)) bound
      | none => exact .bind (.apart (.fail _)) bound

lemma callClosure_script {f : Closure} {positional : List Value} {keyword : List (String × Value)} :
    Script Machine.Still asks fun run => callClosure p run f positional keyword := by
  refine .bind (.apart (.ofOutcome _)) fun given => .bind (.apart .inside) fun c => ?_
  refine .bind (.apart .resolvedOf) fun t => .bind (bindParams_script free) fun _ => ?_
  refine ask_script free not_false fun v => ?_
  cases f.lambda.returns with
  | none => exact .pure v
  | some note =>
    dsimp only
    split
    · exact .pure v
    · exact .fail _

lemma call_script {callee : Value} {positional : List Value} {keyword : List (String × Value)} :
    Script Machine.Still asks fun run => call p run callee positional keyword := by
  cases callee with
  | closure f => exact callClosure_script free
  | host name => exact .apart .callHost
  | _ => exact .apart (.fail _)

lemma definedValue_script {name : Ident} {value : Expr} :
    Script Machine.Still asks fun run => definedValue run c name value := by
  cases value with
  | lambda f => exact .apart .makeClosure
  | _ => exact .ask (free not_false)

lemma statement_script {s : Statement} (inert : (Task.statement c s).Inert p) :
    Script Machine.Still asks fun run => statement p run c s := by
  cases s with
  | importing i =>
    refine .bind (.apart .resolvedOf) fun t => ?_
    cases t.imports.get? i.span with
    | some target => exact ask_script free not_false fun _ => .pure _
    | none => exact .apart (.pure _)
  | define exported name value span =>
    simp only [statement_define]
    exact .bind (definedValue_script free) fun v => .apart ((Apart.bindDefinition inert).bind fun _ => .pure _)
  | expr e span => exact .ask (free not_false)

/-- A step asks for other tasks and does not touch the records by itself, unless it runs a module or is a definition that others
can see. Statements are asked for by blocks only. -/
theorem step_script {task : Task} (nested : ∀ id, task ≠ .module id) (inert : task.Inert p)
    (statements : ∀ c b incoming, task = .block c b incoming → ∀ s ∈ b.statements, ∀ f, asks (.statement ⟨c.module, f⟩ s)) :
    Script Machine.Still asks fun run => step p run task := by
  cases task with
  | expr c e incoming =>
    cases incoming with
    | none => exact plainExpr_script free
    | some v => exact stageExpr_script free
  | statement c s => exact statement_script free inert
  | block c b incoming => exact block_script free (statements c b incoming rfl)
  | branch c b incoming => exact branch_script free
  | pipeline c stages incoming => exact pipeline_script free
  | loop c l incoming => exact loop_script free
  | call callee positional keyword => exact call_script free
  | module id => exact absurd rfl (nested id)

end

/-- No step records anything of modules by itself, unless it runs one. -/
theorem step_idle {p : Program} {task : Task} (nested : ∀ id, task ≠ .module id) :
    Script Machine.Idle (fun _ => True) fun run => step p run task := by
  have still {x : (Task → Eval Value) → Eval Value} (h : Script Machine.Still (fun _ => True) x) :
      Script Machine.Idle (fun _ => True) x :=
    h.mono (fun _ _ h => h.toIdle) fun _ _ => trivial
  cases task with
  | statement c s =>
    cases s with
    | define exported name value span =>
      change Script Machine.Idle _ fun run => statement p run c (.define exported name value span)
      simp only [statement_define]
      refine .bind ((definedValue_script fun _ => trivial).mono (fun _ _ h => h.toIdle) fun _ h => h) fun v => .own fun m => ?_
      rw [left_discard]
      obtain still | ⟨t, b, i, item, -, -, -, same⟩ := bindDefinition_cases p c name v m
      · exact still.toIdle
      · rw [same]
        exact ⟨rfl, rfl, .refl, List.suffix_cons ..⟩
    | _ => exact still (step_script (fun _ => trivial) nested trivial nofun)
  | _ => exact still (step_script (fun _ => trivial) nested trivial fun _ _ _ _ _ _ _ => trivial)

end Eval

end PipeLang
