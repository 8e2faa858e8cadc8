import PipeLang.Proofs.Eval.Finished

/-!
# Iterations

The iterations of a loop run one after another, each in a new frame: `Loop.Iterations`. A loop comes to its end when its iterations
do and the tags in its body have been collected, `Loop.Goes`, and its value is made of theirs: `Eval.loop_ok`. Each of them evaluates the
stages of the body, `Loop.Goes.asks`.
-/

namespace PipeLang

open Eval

variable {p : Program} {run : Task → Eval Value} {c : Context} {l : Loop} {bound? : Option BindingId} {m m' : Machine}

namespace Eval

/-- The machine in an iteration of a loop: there is a frame inside another, and the loop variable has its value in it. -/
def iterating (c : Context) (bound? : Option BindingId) (v : Value) (m : Machine) : Machine :=
  let opened : Machine := { m with heap := m.heap.push (some c.frame) }
  match bound? with
  | some id => { opened with heap := opened.heap.define m.heap.size id v }
  | none => opened

/-- What a loop has made with further iterations, in some frames and with some values. -/
def LoopProgress.after (progress : LoopProgress) (frames : List FrameId) (values : List Value) : LoopProgress :=
  match progress.folded with
  | some seed => ⟨some (values.getLast?.getD seed), progress.mapped, frames.reverse ++ progress.frames⟩
  | none => ⟨none, values.reverse ++ progress.mapped, frames.reverse ++ progress.frames⟩

namespace LoopProgress

variable {progress : LoopProgress} {frames frames' : List FrameId} {values values' : List Value}

lemma after_nil : progress.after [] [] = progress := by
  obtain ⟨folded, mapped, frames⟩ := progress
  cases folded <;> rfl

lemma after_after : (progress.after frames values).after frames' values' = progress.after (frames ++ frames') (values ++ values') := by
  obtain ⟨folded, mapped, others⟩ := progress
  cases folded with
  | none => simp [after]
  | some seed =>
    have last : values'.getLast?.getD (values.getLast?.getD seed) = (values ++ values').getLast?.getD seed := by
      rw [List.getLast?_append]
      cases values'.getLast? <;> rfl
    simp only [after, last, List.reverse_append, List.append_assoc]

/-- What is handed on by an iteration. -/
lemma folded_after {f : FrameId} {v : Value} : (progress.after [f] [v]).folded = progress.folded.map fun _ => v := by
  unfold after
  cases progress.folded <;> rfl

end LoopProgress

end Eval

/-- Iterations over some elements take a machine to another. Each evaluates the stages of the body in a new frame, in which the loop
variable has its element. When the loop folds, it is given the value of the one before. -/
inductive Loop.Iterations (run : Task → Eval Value) (c : Context) (l : Loop) (bound? : Option BindingId) :
    Option Value → Machine → List Value → List FrameId → List Value → Machine → Prop where
  | nil {folded m} :
    Iterations run c l bound? folded m [] [] [] m
  | cons {folded m element v m' elements frames values m''} :
    run (.pipeline ⟨c.module, m.heap.size⟩ l.body.stages folded) (iterating c bound? element m) = .ok v m' →
    Iterations run c l bound? (folded.map fun _ => v) m' elements frames values m'' →
    Iterations run c l bound? folded m (element :: elements) (m.heap.size :: frames) (v :: values) m''

/-- What a loop makes of the values of its iterations: it maps, or folds from an incoming value. -/
def Loop.result (incoming : Option Value) (values : List Value) : Value :=
  match incoming with
  | none => .array values
  | some seed => values.getLast?.getD seed

/-- A loop goes over elements to its end, with a frame for each: the sequence is evaluated, the iterations run, and the tags in the
body are collected from their frames. -/
inductive Loop.Goes (p : Program) (run : Task → Eval Value) (c : Context) (l : Loop) (incoming : Option Value) (m : Machine)
    (elements : List Value) (frames : List FrameId) (m' : Machine) : Value → Prop where
  | mk {t between values last} :
    run (.expr c l.sequence none) m = .ok (.array elements) between →
    p.resolvedOf c.module = some t →
    l.Iterations run c (t.declarations.get? l.binding.span) incoming between elements frames values last →
    ((t.loopTags.get? l.span).getD []).forM (collectTag c frames) last = .ok () m' →
    Goes p run c l incoming m elements frames m' (Loop.result incoming values)

namespace Eval

/-- An iteration evaluates the stages of the body in its frame. -/
lemma iteration_eq {progress : LoopProgress} {element : Value} : iteration run c l bound? progress element m =
    (run (.pipeline ⟨c.module, m.heap.size⟩ l.body.stages progress.folded) >>= fun v => pure (progress.after [m.heap.size] [v]))
      (iterating c bound? element m) := by
  obtain ⟨folded, mapped, frames⟩ := progress
  cases bound? <;> cases folded <;> rfl

lemma iterating_grows {element : Value} : m.heap.Grows (iterating c bound? element m).heap := by
  cases bound? with
  | none => exact .push
  | some id => exact Heap.Grows.push.trans .define

/-- Iterations that come to their end are those of a trace. -/
lemma iterations_ok {progress last : LoopProgress} {elements : List Value}
    (ran : elements.foldlM (iteration run c l bound?) progress m = .ok last m') :
    ∃ frames values, l.Iterations run c bound? progress.folded m elements frames values m' ∧
      last = progress.after frames values := by
  induction elements generalizing progress m with
  | nil =>
    cases ran
    exact ⟨[], [], .nil, LoopProgress.after_nil.symm⟩
  | cons element elements ih =>
    rw [List.foldlM_cons] at ran
    obtain ⟨next, m₁, first, ran⟩ := bind_ok ran
    rw [iteration_eq] at first
    obtain ⟨v, m₂, stages, made⟩ := bind_ok first
    cases made
    obtain ⟨frames, values, iterations, rfl⟩ := ih ran
    rw [LoopProgress.folded_after] at iterations
    exact ⟨m.heap.size :: frames, v :: values, .cons stages iterations, LoopProgress.after_after⟩

end Eval

/-- The iterations of a trace come to their end. -/
lemma Loop.Iterations.ran {progress : LoopProgress} {elements values : List Value} {frames : List FrameId}
    (iterations : l.Iterations run c bound? progress.folded m elements frames values m') :
    elements.foldlM (iteration run c l bound?) progress m = .ok (progress.after frames values) m' := by
  generalize folds : progress.folded = folded at iterations
  induction iterations generalizing progress with
  | nil => rw [LoopProgress.after_nil]; rfl
  | @cons folded m element v m₁ elements frames values m' stages _ ih =>
    have first : iteration run c l bound? progress element m = .ok (progress.after [m.heap.size] [v]) m₁ := by
      rw [iteration_eq, folds]
      exact bind_eq stages
    have handed : (progress.after [m.heap.size] [v]).folded = folded.map fun _ => v := by
      rw [LoopProgress.folded_after, folds]
    have others := ih handed
    rw [LoopProgress.after_after] at others
    rw [List.foldlM_cons]
    exact (bind_eq first).trans others

namespace Eval

/-- Only of a module that has been resolved the tables are found. -/
lemma resolvedOf_ok {α : Type} {id : ModuleId} {f : Resolved → Eval α} {a : α}
    (ran : (Eval.resolvedOf p id >>= f) m = .ok a m') : ∃ t, p.resolvedOf id = some t ∧ f t m = .ok a m' := by
  cases resolved : p.resolvedOf id with
  | some t =>
    rw [resolvedOf_eq resolved, pure_bind] at ran
    exact ⟨t, rfl, ran⟩
  | none =>
    obtain ⟨t, m₁, tables, -⟩ := bind_ok ran
    obtain ⟨loaded, m₂, found, tables⟩ := bind_ok tables
    unfold Eval.module at found
    unfold Program.resolvedOf at resolved
    cases there : p.modules[(id : Nat)]? with
    | none =>
      rw [there] at found
      cases found
    | some other =>
      rw [there] at found resolved
      cases found
      rw [Option.bind_some] at resolved
      rw [resolved] at tables
      cases tables

/-- What is left of a loop when its iterations have run: the tags in its body are collected, and its value is made. -/
def closeLoop (c : Context) (l : Loop) (t : Resolved) (last : LoopProgress) : Eval Value := do
  ((t.loopTags.get? l.span).getD []).forM (collectTag c last.frames.reverse)
  match last.folded with
  | some v => return v
  | none => return .array last.mapped.reverse

/-- A loop when it has its elements. -/
def loopOver (p : Program) (run : Task → Eval Value) (c : Context) (l : Loop) (incoming : Option Value) (elements : List Value) :
    Eval Value := do
  let t ← resolvedOf p c.module
  let last ← elements.foldlM (iteration run c l (t.declarations.get? l.binding.span)) ⟨incoming, [], []⟩
  closeLoop c l t last

variable {incoming : Option Value} {elements : List Value} {t : Resolved} {v : Value}

lemma loop_eq : loop p run c l incoming = run (.expr c l.sequence none) >>= fun
    | .array elements => loopOver p run c l incoming elements
    | other => fail (.mismatch (.sequence other.typeName)) :=
  rfl

lemma loopOver_eq (resolved : p.resolvedOf c.module = some t) : loopOver p run c l incoming elements =
    elements.foldlM (iteration run c l (t.declarations.get? l.binding.span)) ⟨incoming, [], []⟩ >>= closeLoop c l t := by
  simp only [loopOver, resolvedOf_eq resolved, pure_bind]

lemma closeLoop_apart {last : LoopProgress} : Apart (closeLoop c l t last) := by
  refine Apart.collectTags.bind fun _ => ?_
  cases last.folded with
  | some v => exact .pure v
  | none => exact .pure _

lemma closeLoop_after {frames : List FrameId} {values : List Value} :
    closeLoop c l t (LoopProgress.after ⟨incoming, [], []⟩ frames values) =
      ((t.loopTags.get? l.span).getD []).forM (collectTag c frames) >>= fun _ => pure (Loop.result incoming values) := by
  cases incoming <;> simp [closeLoop, LoopProgress.after, Loop.result]

/-- A loop comes to its end if it goes over the elements of its sequence. -/
lemma loop_ok : loop p run c l incoming m = .ok v m' ↔ ∃ elements frames, l.Goes p run c incoming m elements frames m' v := by
  rw [loop_eq]
  constructor
  · intro ran
    obtain ⟨sequence, m₁, evaluated, ran⟩ := bind_ok ran
    cases sequence with
    | array elements =>
      obtain ⟨t, resolved, ran⟩ := resolvedOf_ok ran
      obtain ⟨last, m₂, iterations, ran⟩ := bind_ok ran
      obtain ⟨frames, values, each, rfl⟩ := iterations_ok iterations
      rw [closeLoop_after] at ran
      obtain ⟨_, m₃, collected, made⟩ := bind_ok ran
      cases made
      exact ⟨elements, frames, .mk evaluated resolved each collected⟩
    | _ => cases ran
  · rintro ⟨elements, frames, ⟨evaluated, resolved, iterations, collected⟩⟩
    refine (bind_eq evaluated).trans ?_
    show loopOver p run c l incoming elements _ = _
    rw [loopOver_eq resolved]
    exact (bind_eq (Loop.Iterations.ran iterations)).trans (by rw [closeLoop_after]; exact bind_eq collected)

/-! ### What loops ask for -/

section

variable {α β : Type} {own : Machine → Machine → Prop} {asks : Task → Prop} {x : (Task → Eval Value) → Eval α}
  {f : (Task → Eval Value) → α → Eval β} {task : Task} {a : α} {between : Machine}

/-- What comes to its end does not stop for want of depth. -/
lemma goes_of_ok {result : EStateM.Result Stop Machine α} (ran : result = .ok a m) : ∀ s, result ≠ .error .outOfFuel s :=
  fun _ stopped => nomatch ran.symm.trans stopped

/-- What a first part asks for, the whole asks for if it goes through. -/
lemma Consults.of_first (script : Script own asks x) (asked : Consults x run m task m')
    (goes : ∀ s, (x run >>= f run) m ≠ .error .outOfFuel s) : Consults (fun run => x run >>= f run) run m task m' := by
  obtain ⟨run', cut⟩ := StopsAt.exists run task m'
  refine ⟨run', cut.elsewhere, fun same => goes m' (same.symm.trans ?_)⟩
  exact bind_stop (script.stops cut asked)

/-- So it does what the rest asks for. -/
lemma Consults.of_next (script : Script own asks x) (script' : Script own asks fun run => f run a)
    (ran : x run m = .ok a between) (asked : Consults (fun run => f run a) run between task m')
    (goes : ∀ s, (x run >>= f run) m ≠ .error .outOfFuel s) : Consults (fun run => x run >>= f run) run m task m' := by
  obtain ⟨run', cut⟩ := StopsAt.exists run task m'
  by_cases same : x run' m = x run m
  · refine ⟨run', cut.elsewhere, fun alike => goes m' (alike.symm.trans ?_)⟩
    exact (bind_eq (same.trans ran)).trans (script'.stops cut asked)
  · exact .of_first script ⟨run', cut.elsewhere, same⟩ goes

end

end Eval

namespace Loop

variable {incoming : Option Value} {progress : LoopProgress} {elements values : List Value} {frames : List FrameId} {v : Value}

/-- Every iteration asks for the stages of the body in its frame, which come to their end. -/
lemma Iterations.asks (growing : Growing run) (iterations : l.Iterations run c bound? progress.folded m elements frames values m') :
    m.heap.Grows m'.heap ∧ ∀ f ∈ frames, ∃ folded before w after,
      Consults (fun run => elements.foldlM (iteration run c l bound?) progress) run m (.pipeline ⟨c.module, f⟩ l.body.stages folded)
        before ∧
      run (.pipeline ⟨c.module, f⟩ l.body.stages folded) before = .ok w after ∧ after.heap.Grows m'.heap := by
  generalize folds : progress.folded = folded at iterations
  induction iterations generalizing progress with
  | nil => exact ⟨.refl, nofun⟩
  | @cons folded m element v m₁ elements frames values m' stages others ih =>
    have first : iteration run c l bound? progress element m = .ok (progress.after [m.heap.size] [v]) m₁ := by
      rw [iteration_eq, folds]
      exact bind_eq stages
    have handed : (progress.after [m.heap.size] [v]).folded = folded.map fun _ => v := by
      rw [LoopProgress.folded_after, folds]
    obtain ⟨behind, each⟩ := ih handed
    have further := (handed ▸ others : l.Iterations run c bound? (progress.after [m.heap.size] [v]).folded _ _ _ _ _).ran
    have ran : (iteration run c l bound? progress element >>= fun next => elements.foldlM (iteration run c l bound?) next) m = _ :=
      (bind_eq first).trans further
    have script : Script Machine.Still (fun _ => True) fun run => iteration run c l bound? progress element :=
      iteration_script fun _ => trivial
    simp only [List.foldlM_cons]
    refine ⟨(iterating_grows.trans (growing _ _ _ _ stages)).trans behind, List.forall_mem_cons.2 ⟨?_, fun f among => ?_⟩⟩
    · refine ⟨folded, iterating c bound? element m, v, m₁, .of_first script (.of_stop (fun run s stops => ?_) (goes_of_ok first))
        (goes_of_ok ran), stages, behind⟩
      exact ⟨s, by rw [iteration_eq, folds]; exact bind_stop stops⟩
    · obtain ⟨folded', before, w, after, asked, ran', grows⟩ := each f among
      exact ⟨folded', before, w, after, .of_next script (iterations_script fun _ => trivial) first asked (goes_of_ok ran), ran', grows⟩

/-- A loop that comes to its end asks for the stages of its body in the frame of every iteration, and they come to their end. -/
lemma Goes.asks (growing : Growing run) (goes : l.Goes p run c incoming m elements frames m' v) :
    ∀ f ∈ frames, ∃ folded before w after,
      Consults (fun run => loop p run c l incoming) run m (.pipeline ⟨c.module, f⟩ l.body.stages folded) before ∧
      run (.pipeline ⟨c.module, f⟩ l.body.stages folded) before = .ok w after ∧ after.heap.Grows m'.heap := by
  intro f among
  have ran := loop_ok.2 ⟨elements, frames, goes⟩
  cases goes with
  | @mk t between values last evaluated resolved iterations collected =>
    have start : l.Iterations run c _ (LoopProgress.mk incoming [] []).folded between elements frames values last := iterations
    obtain ⟨folded, before, w, after, asked, ended, grows⟩ := (start.asks growing).2 f among
    have behind : last.Still (left (((t.loopTags.get? l.span).getD []).forM (collectTag c frames) last)) := Apart.collectTags last
    rw [collected] at behind
    refine ⟨folded, before, w, after, ?_, ended, grows.trans behind.heap⟩
    have iterates : Script Machine.Still (fun _ => True) fun run =>
        elements.foldlM (iteration run c l (t.declarations.get? l.binding.span)) ⟨incoming, [], []⟩ :=
      iterations_script fun _ => trivial
    have ends : loopOver p run c l incoming elements between = .ok (Loop.result incoming values) m' :=
      (bind_eq evaluated).symm.trans ran
    simp only [loop_eq] at ran ⊢
    have sequence : Script Machine.Still (fun _ => True) fun run => run (.expr c l.sequence none) := .ask trivial
    refine .of_next sequence ?_ evaluated ?_ (goes_of_ok ran)
    · simp only [loopOver_eq resolved]
      exact .bind iterates fun last => .apart closeLoop_apart
    · simp only [loopOver_eq resolved] at ends ⊢
      exact .of_first iterates asked (goes_of_ok ends)

end Loop

end PipeLang
