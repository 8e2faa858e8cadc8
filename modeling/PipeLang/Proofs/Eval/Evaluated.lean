import PipeLang.Proofs.Eval.Iterations
import PipeLang.Proofs.Eval.WriteOnce

/-!
# What is evaluated

`Program.Evaluates` says that a task is evaluated on a machine, behind any requests, with some depth of nested evaluation to spare. It
fits there, and no frame has been given a value twice. What is evaluated to its end evaluates the stages of pipelines and the
bodies of loops in it.
-/

namespace PipeLang

open Eval

variable {p : Program} {m m' : Machine} {task : Task} {fuel : Nat} {c : Context} {v : Value}

/-- What is asked of modules that can be used is made from known values. -/
lemma Request.Fair.knows {r : Request} {known : List Value} (fair : r.Fair p known) : r.Knows p known := by
  cases fair with
  | module | value | assembly => trivial
  | call callee positional keyword => exact ⟨callee, positional, keyword⟩
  | entry _ args => exact args

/-- A task is evaluated on a machine, with a depth of nested evaluation to spare: a request asks for it, which is about modules that can
be used and made with values that come from answers, or something does that is evaluated. -/
inductive Program.Evaluates (p : Program) : Nat → Task → Machine → Prop where
  | asked {d : Dialogue} {r : Request} {fuel task m} :
    Dialogue.LeadsKnowing p .start d →
    r.Fair p d.known →
    Consults (fun run => r.answerOver p run) (Task.run p fuel) d.machine task m →
    Evaluates p fuel task m
  | inside {fuel task m next m'} :
    Evaluates p (fuel + 1) task m →
    Consults (fun run => step p run task) (Task.run p fuel) m next m' →
    Evaluates p fuel next m'

namespace Program.Evaluates

section

variable (rest : p.AtRest) (honest : p.hosts.Honest)
include rest honest

/-- What is evaluated fits where it is evaluated. -/
lemma fits (onePlace : p.OnePlace) (parsed : p.Parsed) (evaluates : p.Evaluates fuel task m) :
    ∃ labels, m.Sound p labels ∧ task.Fits p labels := by
  induction evaluates with
  | @asked d r fuel task m leads fair consults =>
    have sound := (Dialogue.LeadsKnowing.sound rest honest onePlace parsed leads Dialogue.settled_start Dialogue.sound_start).1
    obtain ⟨labels, sound, fit⟩ := sound.sound
    obtain ⟨labels', -, there⟩ := consults.fits sound (Task.run_keeps rest honest fuel) fun run' agree =>
      Request.answerOver_keeps rest agree fair fit
    exact ⟨labels', there⟩
  | inside _ consults ih =>
    obtain ⟨labels, sound, fits⟩ := ih
    obtain ⟨labels', -, there⟩ := consults.fits sound (Task.run_keeps rest honest _) fun run' agree =>
      step_keeps rest honest agree (Task.run_growing _) fits
    exact ⟨labels', there⟩

variable (laid : p.Laid)
include laid

lemma written (evaluates : p.Evaluates fuel task m) : ∃ regions, task.Written p regions m := by
  induction evaluates with
  | @asked d r fuel task m leads fair consults =>
    obtain ⟨regions, written, values⟩ := leads.written rest honest laid
    have setting : Setting p (fun _ => True) (Task.run p fuel) := Task.run_setting rest honest laid fuel fun _ => trivial
    exact ((answerOver_writes setting fair.knows written values).asked consults).written
  | @inside fuel task m next m' _ consults ih =>
    obtain ⟨regions, written⟩ := ih
    have setting : Setting p (fun _ => True) (Task.run p fuel) := Task.run_setting rest honest laid fuel fun _ => trivial
    exact ((step_writes setting written fun _ _ _ _ _ => trivial).asked consults).written

/-- Neither before nor behind it has a frame been given a value twice. -/
lemma writeOnce (evaluates : p.Evaluates fuel task m) :
    m.WriteOnce ∧ (Eval.left (Task.run p fuel task m)).WriteOnce := by
  obtain ⟨regions, written⟩ := evaluates.written rest honest laid
  obtain ⟨regions', written', -⟩ := (Task.run_writes rest honest laid fuel regions task m trivial written).left
  exact ⟨written.machine.writeOnce, written'.writeOnce⟩

end

end Program.Evaluates

/-! ### On the way to an end -/

namespace Eval

variable {before after : List Stage} {s : Stage} {e : Expr} {tag : Option Ident} {span : Span} {incoming : Option Value}
  {run : Task → Eval Value}

/-- Stages up to one, and those behind it. -/
lemma pipeline_split : pipeline p run c incoming (before ++ s :: after) =
    pipeline p run c incoming (before ++ [s]) >>= fun v => pipeline p run c (some v) after := by
  induction before generalizing incoming with
  | nil => simp [pipeline]
  | cons first before ih => simp [pipeline, ih]

/-- The evaluation of a task asks for it. -/
lemma Consults.here {task : Task} (ran : run task m = .ok v m') : Consults (fun run => run task) run m task m :=
  .of_stop (fun _ s stops => ⟨s, stops⟩) (goes_of_ok ran)

/-- Stages that come to their end ask for an expression among them, which comes to its end. -/
lemma pipeline_asks (ran : pipeline p (Task.run p fuel) c incoming (before ++ .expr e tag span :: after) m = .ok v m') :
    ∃ given m₁ w m₂, Consults (fun run => pipeline p run c incoming (before ++ .expr e tag span :: after)) (Task.run p fuel) m
      (.expr c e given) m₁ ∧ Task.run p fuel (.expr c e given) m₁ = .ok w m₂ ∧ m₂.heap.Grows m'.heap := by
  have scripts {stages : List Stage} {given : Option Value} :
      Script Machine.Still (fun _ => True) fun run => pipeline p run c given stages := pipeline_script fun _ => trivial
  have stageScript {s : Stage} {given : Option Value} : Script Machine.Still (fun _ => True) fun run => stage run c given s :=
    stage_script fun _ => trivial
  -- what is left when a stage has a value
  have restScript {s : Stage} {v : Value} {stages : List Stage} : Script Machine.Still (fun _ => True) fun run =>
      bindTag p c v s.tag >>= fun _ => pipeline p run c (some v) stages := .bind (.apart .bindTag) fun _ => scripts
  induction before generalizing incoming m with
  | nil =>
    obtain ⟨w, m₁, first, others⟩ := bind_ok ran
    exact ⟨incoming, m, w, m₁, .of_first stageScript (.here first) (goes_of_ok ran), first, restScript.grows others⟩
  | cons s before ih =>
    obtain ⟨u, m₁, first, ran₁⟩ := bind_ok ran
    obtain ⟨_, m₂, bound, ran₂⟩ := bind_ok ran₁
    obtain ⟨given, m₃, w, m₄, asked, ended, grows⟩ := ih ran₂
    have further : Consults (fun run => bindTag p c u s.tag >>= fun _ => pipeline p run c (some u) (before ++ .expr e tag span :: after))
        (Task.run p fuel) m₁ (.expr c e given) m₃ :=
      .of_next (.apart .bindTag : Script Machine.Still (fun _ => True) fun _ => bindTag p c u s.tag) scripts bound asked
        (goes_of_ok ran₁)
    exact ⟨given, m₃, w, m₄, .of_next stageScript restScript first further (goes_of_ok ran), ended, grows⟩

/-- The statements of a module that come to their end are asked for one behind the other, and come to their ends. -/
lemma moduleStatements_asks {before after : List Statement} {s : Statement} {last : Value}
    (ran : moduleStatements (Task.run p fuel) c last (before ++ s :: after) m = .ok v m') :
    ∃ u m₁ w m₂, moduleStatements (Task.run p fuel) c last before m = .ok u m₁ ∧
      Consults (fun run => moduleStatements run c last (before ++ s :: after)) (Task.run p fuel) m (.statement c s) m₁ ∧
      Task.run p fuel (.statement c s) m₁ = .ok w m₂ ∧ m₂.heap.Grows m'.heap := by
  have script {s : Statement} : Script Machine.Still (fun _ => True) fun run => run (.statement c s) := .ask trivial
  have scripts {last : Value} {ss : List Statement} : Script Machine.Still (fun _ => True) fun run => moduleStatements run c last ss :=
    moduleStatements_script.mono (fun _ _ => id) fun _ _ => trivial
  induction before generalizing last m with
  | nil =>
    obtain ⟨w, m₁, first, others⟩ := bind_ok ran
    exact ⟨last, m, w, m₁, rfl, .of_first script (.here first) (goes_of_ok ran), first, scripts.grows others⟩
  | cons _ before ih =>
    obtain ⟨v₁, m₁, first, ran₁⟩ := bind_ok ran
    obtain ⟨u, m₂, w, m₃, through, asked, ended, grows⟩ := ih ran₁
    exact ⟨u, m₂, w, m₃, (bind_eq first).trans through, .of_next script scripts first asked (goes_of_ok ran), ended, grows⟩

end Eval

namespace Program.Evaluates

/-- A request for a module evaluates it. -/
lemma module {id : ModuleId} (usable : p.Usable id) (ran : Task.run p fuel (.module id) .new = .ok v m') :
    p.Evaluates fuel (.module id) .new :=
  have ends : (Request.query (.module id)).answerOver p (Task.run p fuel) .new = .ok [v] m' := bind_eq ran
  .asked (d := .start) .refl (.module usable) (.of_stop (fun _ s stops => ⟨s, bind_stop stops⟩) (goes_of_ok ends))

/-- The statements of a module that runs to its end are evaluated in its frame one behind the other, and come to their ends. -/
lemma statement {id : ModuleId} {loaded : LoadedModule} {ast : Module} {before after : List Statement} {s : Statement}
    (evaluates : p.Evaluates (fuel + 1) (.module id) m) (fresh : m.past id = []) (found : p.modules[(id : Nat)]? = some loaded)
    (usable : loaded.isUsable = true) (parsed : loaded.ast = some ast) (statements : ast.statements = before ++ s :: after)
    (ran : Task.run p (fuel + 1) (.module id) m = .ok v m') : ∃ u m₁ w m₂,
      moduleStatements (Task.run p fuel) ⟨id, m.heap.size⟩ .unit before (begun id m) = .ok u m₁ ∧
      p.Evaluates fuel (.statement ⟨id, m.heap.size⟩ s) m₁ ∧
      Task.run p fuel (.statement ⟨id, m.heap.size⟩ s) m₁ = .ok w m₂ ∧ m₂.heap.Grows m'.heap := by
  have runs (run : Task → Eval Value) : step p run (.module id) m = _ := step_module_runs fresh found usable parsed
  have ended := (runs (Task.run p fuel)).symm.trans ran
  cases through : moduleStatements (Task.run p fuel) ⟨id, m.heap.size⟩ .unit ast.statements (begun id m) with
  | error stop between =>
    rw [through] at ended
    cases stop <;> cases ended
  | ok u between =>
    have heap := closing_heap id loaded (.ok u between)
    rw [through] at ended
    rw [ended] at heap
    rw [statements] at through
    obtain ⟨u', m₁, w, m₂, first, asked, ended', grows⟩ := moduleStatements_asks through
    refine ⟨u', m₁, w, m₂, first, .inside evaluates ?_, ended', grows.trans (heap ▸ .refl)⟩
    obtain ⟨run', cut⟩ := StopsAt.exists (Task.run p fuel) (.statement ⟨id, m.heap.size⟩ s) m₁
    refine ⟨run', cut.elsewhere, fun same => ?_⟩
    have stopped := moduleStatements_script.stops cut asked
    have stops : step p run' (.module id) m = .error .outOfFuel m₁ := by
      rw [runs run', statements, stopped]
      rfl
    cases (same.symm.trans stops).symm.trans ran

/-- The value of a definition that comes to its end is evaluated, and comes to its end. -/
lemma definition {exported : Bool} {name : Ident} {value : Expr} {span : Span}
    (evaluates : p.Evaluates (fuel + 1) (.statement c (.define exported name value span)) m) (plain : ∀ f, value ≠ .lambda f)
    (ran : Task.run p (fuel + 1) (.statement c (.define exported name value span)) m = .ok v m') : ∃ w m₁,
      p.Evaluates fuel (.expr c value none) m ∧ Task.run p fuel (.expr c value none) m = .ok w m₁ ∧ m₁.heap.Grows m'.heap := by
  have asks (run : Task → Eval Value) : definedValue run c name value = run (.expr c value none) := by
    cases value with
    | lambda f => exact absurd rfl (plain f)
    | _ => rfl
  have runs (run : Task → Eval Value) : step p run (.statement c (.define exported name value span)) =
      run (.expr c value none) >>= fun v => bindDefinition p c name v >>= fun _ => pure .unit := by
    show Eval.statement p run c (.define exported name value span) = _
    rw [statement_define, asks]
  obtain ⟨w, m₁, first, others⟩ := bind_ok ((congrFun (runs (Task.run p fuel)) m).symm.trans ran)
  obtain ⟨_, m₂, bound, made⟩ := bind_ok others
  cases made
  have grows : m₁.heap.Grows m'.heap := by
    obtain still | ⟨t, b, i, item, -, -, -, same⟩ := bindDefinition_cases p c name w m₁
    · rw [bound] at still
      exact still.heap
    · cases bound.symm.trans same
      exact .refl
  refine ⟨w, m₁, .inside evaluates (.of_stop (fun run s stops => ⟨s, ?_⟩) (goes_of_ok ran)), first, grows⟩
  exact (congrFun (runs run) m).trans (bind_stop stops)

/-- An expression among stages that are evaluated to their end is evaluated, and comes to its end. -/
lemma stageExpr {before after : List Stage} {e : Expr} {tag : Option Ident} {span : Span} {incoming : Option Value}
    (evaluates : p.Evaluates (fuel + 1) (.pipeline c (before ++ .expr e tag span :: after) incoming) m)
    (ran : Task.run p (fuel + 1) (.pipeline c (before ++ .expr e tag span :: after) incoming) m = .ok v m') :
    ∃ given m₁ w m₂, p.Evaluates fuel (.expr c e given) m₁ ∧ Task.run p fuel (.expr c e given) m₁ = .ok w m₂ ∧
      m₂.heap.Grows m'.heap := by
  obtain ⟨given, m₁, w, m₂, asked, ended, grows⟩ := pipeline_asks ran
  exact ⟨given, m₁, w, m₂, .inside evaluates asked, ended, grows⟩

/-- A loop is evaluated where it is an expression. -/
lemma loopExpr {l : Loop} {incoming : Option Value} (evaluates : p.Evaluates (fuel + 1) (.expr c (.loop l) incoming) m)
    (ran : Task.run p (fuel + 1) (.expr c (.loop l) incoming) m = .ok v m') :
    p.Evaluates fuel (.loop c l incoming) m ∧ Task.run p fuel (.loop c l incoming) m = .ok v m' := by
  have ended : Task.run p fuel (.loop c l incoming) m = .ok v m' := by cases incoming <;> exact ran
  refine ⟨.inside evaluates (.of_stop (fun run s stops => ⟨s, ?_⟩) (goes_of_ok ran)), ended⟩
  cases incoming <;> exact stops

/-- The stages of the body of a loop that comes to its end are evaluated in the frame of every iteration, and come to their end. -/
lemma body {l : Loop} {incoming : Option Value} {elements : List Value} {frames : List FrameId}
    (evaluates : p.Evaluates (fuel + 1) (.loop c l incoming) m)
    (goes : l.Goes p (Task.run p fuel) c incoming m elements frames m' v) : ∀ f ∈ frames, ∃ folded before w after,
      p.Evaluates fuel (.pipeline ⟨c.module, f⟩ l.body.stages folded) before ∧
      Task.run p fuel (.pipeline ⟨c.module, f⟩ l.body.stages folded) before = .ok w after ∧ after.heap.Grows m'.heap := by
  intro f among
  obtain ⟨folded, before, w, after, asked, ended, grows⟩ := goes.asks (Task.run_growing fuel) f among
  exact ⟨folded, before, w, after, .inside evaluates asked, ended, grows⟩

end Program.Evaluates

end PipeLang
