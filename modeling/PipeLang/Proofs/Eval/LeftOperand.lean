import PipeLang.Proofs.Eval.Iterations
import PipeLang.Proofs.Eval.WriteOnce

/-!
# Left operands of operator stages

An operator stage takes the value of the stage before it as its left operand, or what comes into its pipeline. A pipeline does not
begin with an operator, and only the body of a loop may: there the operator has what comes into the iteration, if the loop folds. A
loop that maps evaluates its body without anything coming in, and so an operator in front of it has no left operand; nowhere else
is an operator stage evaluated without one: `Program.operator_without_operand`.
-/

namespace PipeLang

open Eval

variable {p : Program} {regions : Regions} {m m' : Machine} {asks : Task → Prop} {fuel : Nat} {task goal : Task}

namespace Eval

/-- The evaluation of stages on a machine, each with the value of the one before it, comes to a stage with what comes into it. -/
inductive ComesTo (p : Program) (run : Task → Eval Value) (c : Context) :
    Option Value → List Stage → Machine → Stage → Option Value → Machine → Prop where
  | here {incoming s rest m} :
    ComesTo p run c incoming (s :: rest) m s incoming m
  | behind {incoming s rest m v between m₁ s' incoming' m'} :
    stage run c incoming s m = .ok v between →
    bindTag p c v s.tag between = .ok () m₁ →
    ComesTo p run c (some v) rest m₁ s' incoming' m' →
    ComesTo p run c incoming (s :: rest) m s' incoming' m'

/-- Only the first of some stages may have nothing that comes into it. -/
lemma ComesTo.first {run : Task → Eval Value} {c : Context} {incoming given : Option Value} {stages : List Stage} {s : Stage}
    (comes : ComesTo p run c incoming stages m s given m') (nothing : given = none) :
    incoming = none ∧ m' = m ∧ ∃ rest, stages = s :: rest := by
  induction comes with
  | here => exact ⟨nothing, rfl, _, rfl⟩
  | behind _ _ _ ih => cases (ih nothing).1

/-- A loop that maps comes to its body once it has its sequence, in a frame inside the one that it stands in. -/
lemma consults_body {c : Context} {l : Loop} {t : Resolved} {v : Value} {vs : List Value}
    (resolved : p.resolvedOf c.module = some t)
    (ran : Task.run p fuel (.expr c l.sequence none) m = .ok (.array (v :: vs)) m')
    (goes : ∀ s, Task.run p (fuel + 1) (.loop c l none) m ≠ .error .outOfFuel s) :
    ∃ between, Consults (fun run => step p run (.loop c l none)) (Task.run p fuel) m
      (.pipeline ⟨c.module, m'.heap.size⟩ l.body.stages none) between := by
  refine ⟨iterating c (t.declarations.get? l.binding.span) v m',
    .behind ran (by simp) (.of_stop (fun run s stops => ⟨s, ?_⟩) fun s stopped => goes s ?_)⟩
  · have first : Eval.iteration run c l (t.declarations.get? l.binding.span) ⟨none, [], []⟩ v m' = .error .outOfFuel s := by
      cases declared : t.declarations.get? l.binding.span with
      | none =>
        rw [declared] at stops
        change EStateM.bind (run (.pipeline ⟨c.module, m'.heap.size⟩ l.body.stages none)) _ (iterating c none v m') = _
        simp only [EStateM.bind, stops]
      | some id =>
        rw [declared] at stops
        change EStateM.bind (run (.pipeline ⟨c.module, m'.heap.size⟩ l.body.stages none)) _ (iterating c (some id) v m') = _
        simp only [EStateM.bind, stops]
    simp only [resolvedOf_eq resolved, pure_bind, List.foldlM_cons]
    change EStateM.bind (EStateM.bind (Eval.iteration run c l (t.declarations.get? l.binding.span) ⟨none, [], []⟩ v) _) _ m' = _
    simp only [EStateM.bind, first]
  · exact (bind_eq ran).trans stopped

end Eval

/-- Whatever an evaluation comes to is where it begins, or it is asked for by something that the evaluation comes to. -/
lemma Task.Reaches.last (reaches : Task.Reaches p fuel task m goal m') : goal = task ∧ m' = m ∨
    ∃ depth before between, Task.Reaches p fuel task m before between ∧
      Consults (fun run => step p run before) (Task.run p depth) between goal m' := by
  induction reaches with
  | here => exact Or.inl ⟨rfl, rfl⟩
  | @inside fuel task m next between goal m' asked reaches ih =>
    obtain ⟨rfl, rfl⟩ | ⟨depth, before, between', further, asked'⟩ := ih
    · exact Or.inr ⟨fuel, task, m, .here, asked⟩
    · exact Or.inr ⟨depth, before, between', .inside asked further, asked'⟩

/-- What is asked for without an incoming value is the body of a loop that maps. -/
def Task.Maps (task asked : Task) : Prop :=
  ∃ c l c', task = .loop c l none ∧ c'.module = c.module ∧ asked = .pipeline c' l.body.stages none

section

variable (rest : p.AtRest) (honest : p.hosts.Honest) (laid : p.Laid)
include rest honest laid

/-- Everything that a request comes to has an incoming value where it needs one, but for the bodies of loops that map. -/
theorem Request.Reaches.supplied {d : Dialogue} {r : Request} (leads : Dialogue.LeadsKnowing p .start d)
    (knows : r.Knows p d.known) (reaches : r.Reaches p fuel d.machine goal m) : goal.Supplied ∨
      ∃ depth before m', r.Reaches p fuel d.machine before m' ∧ before.Maps goal ∧
        Consults (fun run => step p run before) (Task.run p depth) m' goal m := by
  obtain ⟨regions, written, values⟩ := leads.written rest honest laid
  obtain ⟨task, between, consults, inner⟩ := reaches
  obtain ⟨rfl, rfl⟩ | ⟨depth, before, m', further, asked⟩ := inner.last
  · have setting : Setting p Task.Supplied (Task.run p fuel) := Task.run_setting rest honest laid fuel id
    exact Or.inl ((answerOver_writes setting knows written values).asked consults).asks
  · have reached : r.Reaches p fuel d.machine before m' := ⟨task, between, consults, further⟩
    obtain ⟨⟨regions', there⟩, -, -⟩ := reached.written rest honest laid leads knows
    have setting : Setting p (fun asked => asked.Supplied ∨ before.Maps asked) (Task.run p depth) :=
      Task.run_setting rest honest laid depth Or.inl
    have allowed := step_writes setting there fun c l same c' module => Or.inr ⟨c, l, c', same, module, rfl⟩
    exact (allowed.asked asked).asks.imp_right fun maps => ⟨depth, before, m', reached, maps, asked⟩

end

/-- Whether a stage is an operator stage. -/
def Stage.isOperator : Stage → Bool
  | .operator .. => true
  | .expr .. => false

lemma Stage.isOperator_iff {s : Stage} :
    s.isOperator = true ↔ ∃ op operand tag span, s = .operator op operand tag span := by
  cases s <;> simp [isOperator]

namespace Program

/-- Whatever is asked of a program, an operator stage is evaluated without a left operand only in front of the body of a loop that has
no incoming value either, which maps: that loop asks for its body, whose evaluation stops there at once. Everywhere else an
operator stage has its left operand.

Requests are made with values that come from answers, and host functions hand on no functions but those that they are given and
those that are registered. -/
theorem operator_without_operand (sources : Sources) (policy : GlobPolicy) (hosts : Hosts) (paths : List String)
    (honest : hosts.Honest) {d : Dialogue} (leads : Dialogue.LeadsKnowing ((new sources policy hosts).loadAll paths) .start d)
    {r : Request} (knows : r.Knows ((new sources policy hosts).loadAll paths) d.known) {fuel depth : Nat} {c : Context}
    {stages : List Stage} {incoming : Option Value} {m m' : Machine} {op : BinaryOp} {operand : Expr} {tag : Option Ident}
    {span : Span} (reaches : r.Reaches ((new sources policy hosts).loadAll paths) fuel d.machine (.pipeline c stages incoming) m)
    (comes : ComesTo ((new sources policy hosts).loadAll paths) (Task.run ((new sources policy hosts).loadAll paths) depth) c
      incoming stages m (.operator op operand tag span) none m') :
    let p := (new sources policy hosts).loadAll paths
    incoming = none ∧ m' = m ∧ (∃ rest, stages = .operator op operand tag span :: rest) ∧
      (∃ depth c' l before, r.Reaches p fuel d.machine (.loop c' l none) before ∧ c.module = c'.module ∧
        stages = l.body.stages ∧ Consults (fun run => step p run (.loop c' l none)) (Task.run p depth) before
          (.pipeline c stages none) m) ∧
      ∀ depth, Task.run p (depth + 1) (.pipeline c stages none) m = .error (.error (.mismatch (.noLeftOperand op))) m := by
  intro p
  obtain ⟨rest, same⟩ : p.AtRest ∧ p.hosts = hosts := atRest_new.loadAll paths
  have honest' : p.hosts.Honest := same ▸ honest
  have laid : p.Laid := fun _ _ _ _ found parsed resolved => loadAll_laid found parsed resolved
  obtain ⟨rfl, rfl, others, rfl⟩ := comes.first rfl
  refine ⟨rfl, rfl, ⟨others, rfl⟩, ?_, fun depth => rfl⟩
  obtain supplied | ⟨depth, before, between, reached, maps, asked⟩ := reaches.supplied rest honest' laid leads knows
  · cases supplied
  · obtain ⟨c', l, c'', rfl, module, goal⟩ := maps
    obtain ⟨rfl, body, -⟩ := Task.pipeline.inj goal
    exact ⟨depth, c', l, between, reached, module, body, asked⟩

/-- A program with a loop that maps and whose body begins with an operator. -/
def mapping : Program :=
  (new (.ofTexts (.ofList [("main.kcl", "r = for [true] as x |> + x\n")])) .eager .prelude).loadAll ["main"]

/-- The module can be used, and its evaluation stops, since an operator has no left operand. -/
theorem left_operand_missing : mapping.Usable 0 ∧ ∃ m, (Request.query (.module 0)).answer mapping 8 .new =
    .error (.error (.mismatch (.noLeftOperand .add))) m := by
  have computed : (mapping.modules[0]?.any fun loaded => loaded.isUsable) = true ∧
      failsWith (fun e _ => decide (e = .mismatch (.noLeftOperand .add))) ((Request.query (.module 0)).answer mapping 8 .new) =
        true := by decide +kernel
  obtain ⟨usable, stopped⟩ := computed
  obtain ⟨loaded, found, usable⟩ := Option.any_eq_true _ _ |>.1 usable
  obtain ⟨e, m, answer, same⟩ := failsWith_iff.1 stopped
  exact ⟨⟨loaded, found, usable⟩, m, of_decide_eq_true same ▸ answer⟩

/-- The body of the loop is evaluated without an incoming value, and the operator in front of it without a left operand. -/
theorem operator_without_operand_mapping : ∃ op operand tag span rest m,
    Request.Reaches mapping 8 (.query (.module 0)) .new (.pipeline ⟨0, 1⟩ (.operator op operand tag span :: rest) none) m ∧
    (∃ depth c l before, Request.Reaches mapping 8 (.query (.module 0)) .new (.loop c l none) before ∧ c.module = 0 ∧
      .operator op operand tag span :: rest = l.body.stages ∧
      Consults (fun run => step mapping run (.loop c l none)) (Task.run mapping depth) before
        (.pipeline ⟨0, 1⟩ (.operator op operand tag span :: rest) none) m) ∧
    ∀ depth, Task.run mapping (depth + 1) (.pipeline ⟨0, 1⟩ (.operator op operand tag span :: rest) none) m =
      .error (.error (.mismatch (.noLeftOperand op))) m := by
  let opened : Machine := begun 0 .new
  have computed : (mapping.modules[0]?.any fun loaded => loaded.isUsable && loaded.resolved.isSome && loaded.ast.any fun ast =>
      ast.definedLoop?.any fun l => l.body.stages.head?.any Stage.isOperator &&
        gives (fun v m => v.elements?.any (fun vs => vs.head?.isSome) && m.heap.size == 1)
          (Task.run mapping 4 (.expr ⟨0, 0⟩ l.sequence none) opened) &&
        failsWith (fun _ _ => true) (Task.run mapping 5 (.loop ⟨0, 0⟩ l none) opened)) = true ∧
      failsWith (fun _ _ => true) ((Request.query (.module 0)).answer mapping 8 .new) = true := by decide +kernel
  simp only [Bool.and_eq_true, Option.any_eq_true, Option.isSome_iff_exists, gives_iff, failsWith_iff, beq_iff_eq,
    Value.elements?_eq_some, List.head?_eq_some_iff, Stage.isOperator_iff] at computed
  obtain ⟨⟨loaded, found, ⟨fine, t, resolved⟩, ast, parsed, l, defined,
    ⟨⟨_, ⟨others, body⟩, op, operand, tag, place, rfl⟩, _, m', ran, ⟨_, rfl, v, vs, rfl⟩, size⟩, _, _, stopped, -⟩,
    _, _, answered, -⟩ := computed
  obtain ⟨exported, name, definePlace, statements⟩ := Module.definedLoop?_eq_some defined
  have resolvedOf : mapping.resolvedOf 0 = some t := by rw [resolvedOf_some found, resolved]
  obtain ⟨m, consults⟩ := consults_body resolvedOf ran (by simp [stopped])
  rw [size] at consults
  have reaches : Request.Reaches mapping 8 (.query (.module 0)) .new (.pipeline ⟨0, 1⟩ l.body.stages none) m := by
    refine Request.reaches_statement found fine parsed statements rfl (by simp [answered]) fun goes => ?_
    refine .of_stop (.expr ⟨0, 0⟩ (.loop l) none) opened (fun run s stops => ⟨s, ?_⟩) goes fun goes => ?_
    · change EStateM.bind (run (.expr ⟨0, 0⟩ (.loop l) none)) _ opened = _
      simp only [EStateM.bind, stops]
    refine .of_stop (.loop ⟨0, 0⟩ l none) opened (fun run s stops => ⟨s, ?_⟩) goes fun _ => .inside consults .here
    simpa [Eval.step, Eval.expr, Eval.plainExpr] using stops
  rw [body] at reaches
  have knows : (Request.query (.module 0)).Knows mapping [] := trivial
  have here : ComesTo mapping (Task.run mapping 0) ⟨0, 1⟩ none (.operator op operand tag place :: others) m
      (.operator op operand tag place) none m := .here
  obtain ⟨-, -, -, ⟨depth, c, l', before, reached, module, body, asked⟩, stops⟩ :=
    operator_without_operand _ _ _ ["main"] Hosts.prelude_honest .refl knows reaches here
  exact ⟨op, operand, tag, place, others, m, reaches, ⟨depth, c, l', before, reached, module.symm, body, asked⟩, stops⟩

end Program

end PipeLang
