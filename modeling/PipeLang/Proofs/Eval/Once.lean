import PipeLang.Proofs.Eval.Runs
import PipeLang.Proofs.Load.TopLevel

/-!
# Statements are executed once

A module that is running asks for its statements one after another, and a module that has been begun is not run again. So
whatever is evaluated comes to execute a statement at the top level of a module on one machine at most, and only if the module had
not been begun: `Task.Executes.once`, `Task.Executes.runs`.
-/

namespace PipeLang

open Eval

variable {p : Program} {run : Task → Eval Value} {m m₁ m₂ m' m'' : Machine} {task task₁ task₂ : Task} {α β : Type}

namespace Eval

namespace Consults

lemma not_own {x : Eval α} : ¬ Consults (fun _ => x) run m task m' :=
  fun ⟨_, _, differs⟩ => differs rfl

/-- A task by itself asks for nothing else. -/
lemma of_ask (h : Consults (fun run => run task) run m task' m') : task' = task ∧ m' = m := by
  obtain ⟨run', alike, differs⟩ := h
  by_contra other
  refine differs (alike task m ?_)
  by_contra both
  simp only [not_or, not_not] at both
  exact other ⟨both.1.symm, both.2.symm⟩

/-- What a sequence asks for is asked for by its first part, or by the second where the first has led. -/
lemma of_bind {x : (Task → Eval Value) → Eval α} {f : (Task → Eval Value) → α → Eval β}
    (h : Consults (fun run => x run >>= f run) run m task m') : Consults x run m task m' ∨
      ∃ a m₁, x run m = .ok a m₁ ∧ Consults (fun run => f run a) run m₁ task m' := by
  obtain ⟨run', alike, differs⟩ := h
  by_cases same : x run' m = x run m
  · cases ran : x run m with
    | ok a m₁ =>
      refine Or.inr ⟨a, m₁, rfl, run', alike, fun same' => differs ?_⟩
      show (x run' >>= f run') m = (x run >>= f run) m
      rw [bind_eq ran, bind_eq (same.trans ran)]
      exact same'
    | error stop m₁ =>
      refine absurd ?_ differs
      show (x run' >>= f run') m = (x run >>= f run) m
      rw [bind_stop ran, bind_stop (same.trans ran)]
  · exact Or.inl ⟨run', alike, same⟩

end Consults

namespace Script

variable {own : Machine → Machine → Prop} {asks : Task → Prop} {x : (Task → Eval Value) → Eval α}

section

variable (h : Script own asks x) (idle : ∀ m m', own m m' → m.Idle m')
  (advances : ∀ task, asks task → ∀ m, Advances p m (run task m))
include h idle advances

/-- What a script asks for is of the kind that it asks for, nothing has been taken back till then, and what comes of it is not
taken back behind. -/
lemma asked (asked : Consults x run m task m') :
    asks task ∧ m.Proceeds p True m' ∧ (left (x run m)).Remembers (left (run task m')) := by
  induction h generalizing m with
  | own => exact absurd asked Consults.not_own
  | ask member =>
    obtain ⟨rfl, rfl⟩ := asked.of_ask
    exact ⟨member, .refl, .refl⟩
  | @bind α β x f first next ih ih' =>
    show asks task ∧ m.Proceeds p True m' ∧ (left ((x run >>= f run) m)).Remembers (left (run task m'))
    rcases asked.of_bind with early | ⟨a, m₁, ran, late⟩
    · obtain ⟨member, before, kept⟩ := ih early
      refine ⟨member, before, ?_⟩
      cases ran : x run m with
      | ok a m₁ =>
        rw [bind_eq ran]
        rw [ran] at kept
        have behind : Advances p m₁ (f run a m₁) := (next a).advances idle advances m₁
        exact behind.states.trans kept
      | error stop m₁ =>
        rw [bind_stop ran]
        rwa [ran] at kept
    · obtain ⟨member, before, kept⟩ := ih' a late
      have led : Advances p m (x run m) := first.advances idle advances m
      rw [ran] at led
      rw [bind_eq ran]
      exact ⟨member, (led.mono False.elim).trans before, kept⟩

/-- Of two tasks that a script asks for one comes behind the other. -/
lemma ordered (asked₁ : Consults x run m task₁ m₁) (asked₂ : Consults x run m task₂ m₂) :
    task₁ = task₂ ∧ m₁ = m₂ ∨ m₂.Remembers (left (run task₁ m₁)) ∨ m₁.Remembers (left (run task₂ m₂)) := by
  induction h generalizing m with
  | own => exact absurd asked₁ Consults.not_own
  | ask =>
    obtain ⟨rfl, rfl⟩ := asked₁.of_ask
    obtain ⟨rfl, rfl⟩ := asked₂.of_ask
    exact Or.inl ⟨rfl, rfl⟩
  | @bind α β x f first next ih ih' =>
    -- what is asked for by the second part comes behind what is asked for by the first
    have behind {task task' : Task} {m' m'' : Machine} {a : α} {m₀ : Machine} (ran : x run m = .ok a m₀)
        (early : Consults x run m task m') (late : Consults (fun run => f run a) run m₀ task' m'') :
        m''.Remembers (left (run task m')) := by
      have kept := (first.asked idle advances early).2.2
      rw [ran] at kept
      exact ((next a).asked idle advances late).2.1.states.trans kept
    rcases asked₁.of_bind with early₁ | ⟨a, m₀, ran, late₁⟩
    · rcases asked₂.of_bind with early₂ | ⟨a, m₀, ran, late₂⟩
      · exact ih early₁ early₂
      · exact Or.inr (Or.inl (behind ran early₁ late₂))
    · rcases asked₂.of_bind with early₂ | ⟨a', m₀', ran', late₂⟩
      · exact Or.inr (Or.inr (behind ran early₂ late₁))
      · cases ran.symm.trans ran'
        exact ih' a late₁ late₂

end

end Script

/-! ### Modules -/

/-- A module asks for something only if it had not been begun, and what it asks for are its statements. -/
lemma Consults.of_module {id : ModuleId} (h : Consults (fun run => step p run (.module id)) run m task m') :
    m.past id = [] ∧ ∃ loaded ast, p.modules[(id : Nat)]? = some loaded ∧ loaded.isUsable = true ∧ loaded.ast = some ast ∧
      (∀ run, step p run (.module id) m =
        closing id loaded (moduleStatements run ⟨id, m.heap.size⟩ .unit ast.statements (begun id m))) ∧
      Consults (fun run => moduleStatements run ⟨id, m.heap.size⟩ .unit ast.statements) run (begun id m) task m' := by
  obtain ⟨run', alike, differs⟩ := h
  obtain ⟨result, -, -, stays⟩ | ⟨fresh, loaded, ast, found, usable, parsed, runs⟩ := step_module p id m
  · exact absurd ((stays run').trans (stays run).symm) differs
  · refine ⟨fresh, loaded, ast, found, usable, parsed, runs, run', alike, fun same => differs ?_⟩
    show step p run' (.module id) m = step p run (.module id) m
    rw [runs, runs]
    exact congrArg (closing id loaded) same

section

variable (advances : ∀ task m, Advances p m (run task m))
include advances

/-- What a step asks for is asked for behind what there was, and what comes of it is not taken back. -/
lemma step_asked (asked : Consults (fun run => step p run task) run m task₁ m') :
    m.Proceeds p True m' ∧ (left (step p run task m)).Remembers (left (run task₁ m')) := by
  by_cases nested : ∃ id, task = .module id
  · obtain ⟨id, rfl⟩ := nested
    obtain ⟨fresh, loaded, ast, found, usable, parsed, runs, asked⟩ := asked.of_module
    have loop := moduleStatements_script.asked (fun _ _ h => h.toIdle) (fun task _ => advances task) asked
    rw [runs]
    exact ⟨(Machine.Proceeds.opened fresh ⟨loaded, found, usable⟩).trans loop.2.1, (closing_remembers _ _ _).trans loop.2.2⟩
  · exact ((step_idle fun id same => nested ⟨id, same⟩).asked (fun _ _ h => h) (fun task _ => advances task) asked).2

/-- A module is running where it asks for something. -/
lemma module_running {id : ModuleId} (asked : Consults (fun run => step p run (.module id)) run m task m') :
    m'.past id = [.running] := by
  obtain ⟨fresh, loaded, ast, -, -, -, -, inner⟩ := asked.of_module
  have loop := moduleStatements_script.asked (fun _ _ h => h.toIdle) (fun task _ => advances task) inner
  exact (loop.2.1.same (by simp [Machine.begun_past fresh])).trans (Machine.begun_past fresh)

/-- Of two tasks that a step asks for one comes behind the other. -/
lemma step_ordered (asked₁ : Consults (fun run => step p run task) run m task₁ m₁)
    (asked₂ : Consults (fun run => step p run task) run m task₂ m₂) :
    task₁ = task₂ ∧ m₁ = m₂ ∨ m₂.Remembers (left (run task₁ m₁)) ∨ m₁.Remembers (left (run task₂ m₂)) := by
  by_cases nested : ∃ id, task = .module id
  · obtain ⟨id, rfl⟩ := nested
    obtain ⟨-, l, ast, found, -, parsed, -, asked₁⟩ := asked₁.of_module
    obtain ⟨-, l', ast', found', -, parsed', -, asked₂⟩ := asked₂.of_module
    cases found.symm.trans found'
    cases parsed.symm.trans parsed'
    exact moduleStatements_script.ordered (fun _ _ h => h.toIdle) (fun task _ => advances task) asked₁ asked₂
  · exact (step_idle fun id same => nested ⟨id, same⟩).ordered (fun _ _ h => h) (fun task _ => advances task) asked₁ asked₂

/-- Statements that are different are asked for on one machine each. -/
lemma moduleStatements_once {c : Context} {last : Value} {ss : List Statement} (distinct : ss.Nodup) {c₁ c₂ : Context}
    {s : Statement} (asked₁ : Consults (fun run => moduleStatements run c last ss) run m (.statement c₁ s) m₁)
    (asked₂ : Consults (fun run => moduleStatements run c last ss) run m (.statement c₂ s) m₂) : m₁ = m₂ := by
  induction ss generalizing m last with
  | nil => exact absurd asked₁ Consults.not_own
  | cons first ss ih =>
    obtain ⟨new, distinct⟩ := List.nodup_cons.1 distinct
    have member {c' : Context} {v : Value} {m₀ m' : Machine}
        (late : Consults (fun run => moduleStatements run c v ss) run m₀ (.statement c' s) m') : s ∈ ss := by
      obtain ⟨s', member, same⟩ :=
        (moduleStatements_script.asked (fun _ _ h => h.toIdle) (fun task _ => advances task) late).1
      cases same
      exact member
    rcases asked₁.of_bind with early₁ | ⟨v, m₀, ran, late₁⟩
    · obtain ⟨same, rfl⟩ := early₁.of_ask
      cases same
      rcases asked₂.of_bind with early₂ | ⟨v, m₀, ran, late₂⟩
      · exact early₂.of_ask.2.symm
      · exact absurd (member late₂) new
    · rcases asked₂.of_bind with early₂ | ⟨v', m₀', ran', late₂⟩
      · obtain ⟨same, rfl⟩ := early₂.of_ask
        cases same
        exact absurd (member late₁) new
      · cases ran.symm.trans ran'
        exact ih distinct late₁ late₂

end

end Eval

/-- On every machine that an evaluation comes to, modules have been left alone, are running or have come to their ends. -/
theorem Task.Reaches.proceeds {fuel : Nat} {goal : Task} (h : Task.Reaches p fuel task m goal m') : m.Proceeds p True m' := by
  induction h with
  | here => exact .refl
  | inside asked _ ih => exact (step_asked (Task.run_advances _) asked).1.trans ih

/-- The evaluation of a task comes to execute a statement at the top level of a module: it comes to the module, which asks for
the statement on a machine. -/
inductive Task.Executes (p : Program) : Nat → Task → Machine → ModuleId → Statement → Machine → Prop where
  | here {fuel id m c s m'} :
    Consults (fun run => step p run (.module id)) (Task.run p fuel) m (.statement c s) m' →
    Executes p (fuel + 1) (.module id) m id s m'
  | inside {fuel task m next between id s m'} :
    Consults (fun run => step p run task) (Task.run p fuel) m next between →
    Executes p fuel next between id s m' →
    Executes p (fuel + 1) task m id s m'

namespace Task.Executes

variable {fuel : Nat} {id : ModuleId} {s : Statement}

/-- A module that has not been begun executes its first statement when it is asked for. -/
lemma first {loaded : LoadedModule} {ast : Module} {ss : List Statement} (fresh : m.past id = [])
    (found : p.modules[(id : Nat)]? = some loaded) (usable : loaded.isUsable = true) (parsed : loaded.ast = some ast)
    (statements : ast.statements = s :: ss) (goes : ∀ m', Task.run p (fuel + 1) (.module id) m ≠ .error .outOfFuel m') :
    Task.Executes p (fuel + 1) (.module id) m id s (begun id m) := by
  refine .here (c := ⟨id, m.heap.size⟩) (.of_stop (fun run m' stops => ⟨m', ?_⟩) goes)
  have stopped : moduleStatements run ⟨id, m.heap.size⟩ .unit ast.statements (begun id m) = .error .outOfFuel m' := by
    rw [statements]
    exact bind_stop stops
  show step p run (.module id) m = _
  rw [step_module_runs fresh found usable parsed, stopped]
  rfl

/-- A module whose statements are executed had not been begun before, is running then, and has been begun behind. -/
theorem runs (h : Task.Executes p fuel task m id s m') :
    m.past id = [] ∧ m.Proceeds p True m' ∧ m'.past id = [.running] ∧ (left (Task.run p fuel task m)).past id ≠ [] := by
  induction h with
  | @here fuel id m c s m' asked =>
    obtain ⟨before, kept⟩ := step_asked (Task.run_advances fuel) asked
    have fresh := asked.of_module.1
    have running := module_running (Task.run_advances fuel) asked
    have behind : (left (Task.run p fuel (.statement c s) m')).past id ≠ [] :=
      (Task.run_advances fuel (.statement c s) m').states.begun (by simp [running])
    exact ⟨fresh, before, running, kept.begun behind⟩
  | @inside fuel task m next between id s m' asked _ ih =>
    obtain ⟨before, kept⟩ := step_asked (Task.run_advances fuel) asked
    obtain ⟨fresh, led, running, behind⟩ := ih
    exact ⟨before.states.fresh fresh, before.trans led, running, kept.begun behind⟩

/-- A statement at the top level is executed on one machine at most. -/
theorem once (parsed : p.Parsed) (h : Task.Executes p fuel task m id s m')
    (h' : Task.Executes p fuel task m id s m'') : m' = m'' := by
  induction h with
  | @here fuel id m c s m' asked =>
    cases h' with
    | here asked' =>
      obtain ⟨-, l, ast, found, usable, syntax₁, -, inner⟩ := asked.of_module
      obtain ⟨-, l', ast', found', -, syntax₂, -, inner'⟩ := asked'.of_module
      cases found.symm.trans found'
      cases syntax₁.symm.trans syntax₂
      obtain ⟨source, parses⟩ := parsed found usable syntax₁
      exact moduleStatements_once (Task.run_advances fuel) (Module.parse_nodup parses) inner inner'
    | inside asked' deeper =>
      -- the module is running there, and is not run again
      have running := module_running (Task.run_advances fuel) asked'
      rw [deeper.runs.1] at running
      cases running
  | @inside fuel task m next between id s m' asked deeper ih =>
    cases h' with
    | here asked' =>
      have running := module_running (Task.run_advances fuel) asked
      rw [deeper.runs.1] at running
      cases running
    | inside asked' deeper' =>
      obtain ⟨fresh, -, -, begun⟩ := deeper.runs
      obtain ⟨fresh', -, -, begun'⟩ := deeper'.runs
      rcases step_ordered (Task.run_advances fuel) asked asked' with ⟨rfl, rfl⟩ | behind | before
      · exact ih deeper'
      · exact absurd fresh' (behind.begun begun)
      · exact absurd fresh (before.begun begun')

end Task.Executes

end PipeLang
