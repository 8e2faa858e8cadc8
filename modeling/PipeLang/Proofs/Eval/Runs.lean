import PipeLang.Proofs.Eval.Records

/-!
# Runs

Evaluation at every depth keeps machines sound: `run_keeps`. What is asked for on the way fits where it is asked for:
`Reaches.fits`.
-/

namespace PipeLang

open Eval

variable {p : Program} {labels base : Labels}

/-- Tasks that fit keep machines sound, at every depth of nested evaluation. -/
theorem Task.run_keeps (rest : p.AtRest) (honest : p.hosts.Honest) (fuel : Nat) :
    Agree p base (Task.run p fuel) (Task.run p fuel) := by
  induction fuel with
  | zero =>
    intro labels task _ _ m sound
    exact ⟨rfl, labels, List.prefix_rfl, sound, trivial⟩
  | succ fuel ih =>
    intro labels task fits
    exact step_keeps rest honest ih (Task.run_growing fuel) fits

/-- What a computation does on a machine depends on what the evaluation of a task does on another. -/
def Eval.Consults {α : Type} (x : (Task → Eval Value) → Eval α) (run : Task → Eval Value) (m : Machine) (task : Task)
    (m' : Machine) : Prop :=
  ∃ run' : Task → Eval Value, (∀ other s, other ≠ task ∨ s ≠ m' → run' other s = run other s) ∧ x run' m ≠ x run m

/-- The evaluation of a task on a machine comes to evaluate another on another machine. -/
inductive Task.Reaches (p : Program) : Nat → Task → Machine → Task → Machine → Prop where
  | here {fuel task m} :
    Reaches p fuel task m task m
  | inside {fuel task m next m' goal m''} :
    Eval.Consults (fun run => step p run task) (Task.run p fuel) m next m' →
    Reaches p fuel next m' goal m'' →
    Reaches p (fuel + 1) task m goal m''

/-- What a computation that keeps machines sound asks for fits where it is asked for. -/
lemma Eval.Consults.fits {α : Type} {x : (Task → Eval Value) → Eval α} {run : Task → Eval Value} {m m' : Machine}
    {task : Task} {Q : Labels → α → Prop} (h : Consults x run m task m') (sound : m.Sound p labels)
    (agree : Agree p labels run run)
    (keeps : ∀ run', Agree p labels run run' → Keeps p labels labels (x run) (x run') Q) :
    ∃ labels', labels <+: labels' ∧ m'.Sound p labels' ∧ task.Fits p labels' := by
  obtain ⟨run', same, differs⟩ := h
  by_contra unfit
  -- the other evaluation differs only where no task that fits is evaluated
  have agree' : Agree p labels run run' := by
    intro labels' other fits since s sound'
    refine ⟨(same other s ?_).symm, (agree fits since s sound').2⟩
    by_contra both
    simp only [not_or, not_not] at both
    obtain ⟨rfl, rfl⟩ := both
    exact unfit ⟨labels', since, sound', fits⟩
  exact differs (keeps run' agree' List.prefix_rfl m sound).1.symm

/-- Every task that is reached fits, on a machine whose old frames have the labels that they had. -/
theorem Task.Reaches.fits (rest : p.AtRest) (honest : p.hosts.Honest) {fuel : Nat} {task goal : Task} {m m' : Machine}
    (h : Task.Reaches p fuel task m goal m') (sound : m.Sound p labels) (fits : task.Fits p labels) :
    ∃ labels', labels <+: labels' ∧ m'.Sound p labels' ∧ goal.Fits p labels' := by
  induction h generalizing labels with
  | here => exact ⟨labels, List.prefix_rfl, sound, fits⟩
  | inside consults _ ih =>
    obtain ⟨labels₁, grows₁, sound₁, fits₁⟩ := consults.fits sound (Task.run_keeps rest honest _) fun run' agree =>
      step_keeps rest honest agree (Task.run_growing _) fits
    obtain ⟨labels₂, grows₂, result⟩ := ih sound₁ fits₁
    exact ⟨labels₂, grows₁.trans grows₂, result⟩

/-- A computation that goes through asks for a task if it would stop with it. -/
lemma Eval.Consults.of_stop {α : Type} {x : (Task → Eval Value) → Eval α} {run : Task → Eval Value} {m m' : Machine}
    {task : Task} (stops : ∀ run' s, run' task m' = .error .outOfFuel s → ∃ s', x run' m = .error .outOfFuel s')
    (goes : ∀ s, x run m ≠ .error .outOfFuel s) : Consults x run m task m' := by
  classical
  refine ⟨fun other s => if other = task ∧ s = m' then .error .outOfFuel s else run other s, fun other s differs => ?_, ?_⟩
  · refine if_neg fun ⟨same, same'⟩ => ?_
    exact differs.elim (absurd same) (absurd same')
  · obtain ⟨s, e⟩ := stops (fun other s => if other = task ∧ s = m' then .error .outOfFuel s else run other s) m'
      (if_pos ⟨rfl, rfl⟩)
    rw [e]
    exact (goes s).symm

/-- What a computation asks for behind a first task, which is another one. -/
lemma Eval.Consults.behind {α : Type} {first task : Task} {f : (Task → Eval Value) → Value → Eval α} {run : Task → Eval Value}
    {v : Value} {m between m' : Machine} (ran : run first m = .ok v between) (differs : first ≠ task)
    (late : Consults (fun run => f run v) run between task m') :
    Consults (fun run => run first >>= fun v => f run v) run m task m' := by
  obtain ⟨run', alike, changes⟩ := late
  refine ⟨run', alike, fun same => changes ?_⟩
  have ran' : run' first m = .ok v between := (alike first m (Or.inl differs)).trans ran
  change (run' first >>= fun v => f run' v) m = (run first >>= fun v => f run v) m at same
  rwa [bind_eq ran, bind_eq ran'] at same

/-- A task that goes through reaches what a task reaches that it would stop with. -/
lemma Task.Reaches.of_stop {fuel : Nat} {task goal : Task} {m m'' : Machine} (next : Task) (m' : Machine)
    (stops : ∀ run s, run next m' = .error .outOfFuel s → ∃ s', step p run task m = .error .outOfFuel s')
    (goes : ∀ s, Task.run p (fuel + 1) task m ≠ .error .outOfFuel s)
    (reaches : (∀ s, Task.run p fuel next m' ≠ .error .outOfFuel s) → Reaches p fuel next m' goal m'') :
    Reaches p (fuel + 1) task m goal m'' := by
  refine .inside (.of_stop stops goes) (reaches fun s e => ?_)
  obtain ⟨s', e'⟩ := stops _ s e
  exact goes s' e'

end PipeLang
