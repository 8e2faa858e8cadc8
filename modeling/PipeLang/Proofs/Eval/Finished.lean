import PipeLang.Proofs.Eval.Dialogue
import PipeLang.Proofs.Eval.Tiers

/-!
# What is there behind a module that has run

Behind any requests, a module that has run has achieved what its statements are there for: the modules that they import have run
and the definitions that they introduce have their values, `Dialogue.LeadsKnowing.achieved`. While a further request is under way,
an exported definition that has a value is found with that value, `Request.Reaches.found`.
-/

namespace PipeLang

open Eval

variable {p : Program} {labels : Labels} {run run' : Task → Eval Value} {m m' m'' : Machine} {task goal next : Task} {fuel : Nat}
  {r : Request} {known : List Value} {owners : List Behalf} {id : ModuleId} {α : Type}

/-! ### Under way -/

namespace Eval

/-- An evaluation does what another does, but stops for want of depth with one task on one machine. -/
structure StopsAt (run run' : Task → Eval Value) (task : Task) (m : Machine) : Prop where
  there : run' task m = .error .outOfFuel m
  elsewhere : ∀ other s, other ≠ task ∨ s ≠ m → run' other s = run other s

lemma StopsAt.exists (run : Task → Eval Value) (task : Task) (m : Machine) : ∃ run', StopsAt run run' task m := by
  classical
  refine ⟨fun other s => if other = task ∧ s = m then .error .outOfFuel s else run other s, if_pos ⟨rfl, rfl⟩, ?_⟩
  intro other s differs
  exact if_neg fun ⟨same, same'⟩ => differs.elim (absurd same) (absurd same')

/-- A script that asks for a task on a machine comes to an end with it where the task is stopped, and nothing else is different. -/
lemma Script.halts {own : Machine → Machine → Prop} {asks : Task → Prop} {x : (Task → Eval Value) → Eval α}
    (script : Script own asks x) (there : run' task m' = .error .outOfFuel m'')
    (elsewhere : ∀ other s, other ≠ task ∨ s ≠ m' → run' other s = run other s) (asked : Consults x run m task m') :
    x run' m = .error .outOfFuel m'' := by
  induction script generalizing m with
  | own => exact absurd asked Consults.not_own
  | ask =>
    obtain ⟨rfl, rfl⟩ := asked.of_ask
    exact there
  | @bind α β x f first next ih ih' =>
    show (x run' >>= f run') m = .error .outOfFuel m''
    by_cases same : x run' m = x run m
    · rcases asked.of_bind with early | ⟨a, m₁, ran, late⟩
      · exact bind_stop (ih early)
      · rw [bind_eq (same.trans ran)]
        exact ih' a late
    · -- the first part asks for the task already
      exact bind_stop (ih ⟨run', elsewhere, same⟩)

lemma Script.stops {own : Machine → Machine → Prop} {asks : Task → Prop} {x : (Task → Eval Value) → Eval α}
    (script : Script own asks x) (cut : StopsAt run run' task m') (asked : Consults x run m task m') :
    x run' m = .error .outOfFuel m' :=
  script.halts cut.there cut.elsewhere asked

lemma step_halts (there : run' next m' = .error .outOfFuel m'')
    (elsewhere : ∀ other s, other ≠ next ∨ s ≠ m' → run' other s = run other s)
    (asked : Consults (fun run => step p run task) run m next m') : step p run' task m = .error .outOfFuel m'' := by
  by_cases nested : ∃ id, task = .module id
  · obtain ⟨id, rfl⟩ := nested
    obtain ⟨-, loaded, ast, -, -, -, runs, asked⟩ := asked.of_module
    rw [runs, moduleStatements_script.halts there elsewhere asked]
    rfl
  · exact (step_idle fun id same => nested ⟨id, same⟩).halts there elsewhere asked

lemma step_stops (cut : StopsAt run run' next m') (asked : Consults (fun run => step p run task) run m next m') :
    step p run' task m = .error .outOfFuel m' :=
  step_halts cut.there cut.elsewhere asked

/-- Where a computation asks for a task, it is left by the same computation over an evaluation that gives values to no more than
that does with which it asks. -/
lemma Consults.cut {x : (Task → Eval Value) → Eval α} {Q : Labels → α → Prop} (asked : Consults x run m task m')
    (stops : ∀ {run'}, StopsAt run run' task m' → Consults x run m task m' → x run' m = .error .outOfFuel m')
    (agree : Agree p labels run run) (growing : Growing run)
    (keeps : ∀ {run run'}, Agree p labels run run' → Growing run → Keeps p labels labels (x run) (x run') Q)
    (sound : m.Sound p labels)
    (gave : ∀ {labels task m}, Task.Fits p labels task → m.Sound p labels → task.Gave p m (left (run task m))) :
    ∃ run', x run' m = .error .outOfFuel m' ∧ ∀ task m, Task.Gave p task m (left (run' task m)) := by
  obtain ⟨run₁, cut⟩ := StopsAt.exists run task m'
  have either (other : Task) (s : Machine) : run₁ other s = .error .outOfFuel s ∨ run₁ other s = run other s := by
    by_cases differs : other ≠ task ∨ s ≠ m'
    · exact Or.inr (cut.elsewhere other s differs)
    · simp only [not_or, not_not] at differs
      obtain ⟨rfl, rfl⟩ := differs
      exact Or.inl cut.there
  have agree₁ : Agree p labels run₁ run₁ := by
    intro labels' other fits since s sound
    refine ⟨rfl, ?_⟩
    rcases either other s with stop | same
    · rw [stop]
      exact ⟨labels', List.prefix_rfl, sound, trivial⟩
    · rw [same]
      exact (agree fits since s sound).2
  have growing₁ : Growing run₁ := by
    intro other s v s' ran
    rcases either other s with stop | same
    · rw [stop] at ran
      cases ran
    · exact growing other s v s' (same ▸ ran)
  -- the evaluation is restricted to what fits
  obtain ⟨run₂, agree₂, restricted⟩ := Agree.restricted agree₁
  have same : x run₁ m = x run₂ m := (keeps agree₂ growing₁ List.prefix_rfl m sound).1
  refine ⟨run₂, same ▸ stops cut asked, fun other s => ?_⟩
  obtain stop | ⟨labels', sound', fits, same'⟩ := restricted other s
  · rw [stop]
    exact .others .refl
  · rw [same']
    rcases either other s with stop | same
    · rw [stop]
      exact .others .refl
    · rw [same]
      exact gave fits sound'

end Eval

section

variable (rest : p.AtRest) (honest : p.hosts.Honest) (onePlace : p.OnePlace) (parsed : p.Parsed)
include rest honest onePlace parsed

/-- Before a step asks for a task, more values have been given only in modules that have been begun. -/
lemma Eval.step_gives_before (fits : task.Fits p labels) (sound : m.Sound p labels)
    (asked : Consults (fun run => step p run task) (Task.run p fuel) m next m') : m.Gives m' := by
  obtain ⟨run', stopped, gave⟩ := asked.cut (fun cut => step_stops cut) (Task.run_keeps rest honest fuel) (Task.run_growing fuel)
    (fun agree growing => step_keeps rest honest agree growing fits) sound (Task.run_gave rest honest onePlace parsed fuel)
  have gives : task.Gave p m (left (step p run' task m)) := step_gave gave onePlace parsed fits sound
  rw [stopped] at gives
  by_cases inert : task.Inert p
  · exact inert.gives gives
  · -- a definition asks for its value and for nothing else
    cases task with
    | statement c s =>
      cases s with
      | define exported name value span =>
        change Consults (fun run => statement p run c (.define exported name value span)) _ m next m' at asked
        simp only [statement_define] at asked
        rcases asked.of_bind with early | ⟨v, m₁, -, late⟩
        · cases value with
          | lambda f => exact absurd early Consults.not_own
          | _ =>
            obtain ⟨-, rfl⟩ := early.of_ask
            exact .refl
        · exact absurd late Consults.not_own
      | _ => exact absurd trivial inert
    | _ => exact absurd trivial inert

theorem Task.Reaches.gives (h : Task.Reaches p fuel task m goal m') (fits : task.Fits p labels) (sound : m.Sound p labels) :
    m.Gives m' := by
  induction h generalizing labels with
  | here => exact .refl
  | inside asked _ ih =>
    have before := step_gives_before rest honest onePlace parsed fits sound asked
    obtain ⟨labels', -, sound', fits'⟩ := asked.fits sound (Task.run_keeps rest honest _) fun run' agree =>
      step_keeps rest honest agree (Task.run_growing _) fits
    exact before.trans (ih fits' sound')

/-- While a fair request is under way, more values have been given only in modules that have been begun. -/
theorem Request.Reaches.gives (h : r.Reaches p fuel m goal m') (fair : r.Fair p known) (sound : m.Sound p labels)
    (fit : ∀ v ∈ known, v.Fits p labels) : m.Gives m' := by
  obtain ⟨task, between, asked, reaches⟩ := h
  have before : m.Gives between := by
    obtain ⟨run', stopped, gave⟩ := asked.cut (fun cut => Request.script.stops cut) (Task.run_keeps rest honest fuel)
      (Task.run_growing fuel) (fun agree _ => answerOver_keeps rest agree fair fit) sound (Task.run_gave rest honest onePlace parsed fuel)
    have gives : m.Gives (left (r.answerOver p run' m)) := Request.script.leads .trans (fun _ _ still => .of_still still)
      (fun task plain m => (Task.Inert.of_plain plain).gives (gave task m)) m
    rwa [stopped] at gives
  obtain ⟨labels', -, sound', fits'⟩ := asked.fits sound (Task.run_keeps rest honest fuel) fun run' agree =>
    answerOver_keeps rest agree fair fit
  exact before.trans (reaches.gives rest honest onePlace parsed fits' sound')

/-- An exported definition that has a value is found with it while a request is under way. -/
theorem Request.Reaches.found {d : Dialogue} {key : ModuleId × String} {v : Value} (h : r.Reaches p fuel d.machine goal m')
    (fair : r.Fair p d.known) (sound : d.Sound p) (value : d.machine.items.lookup key = some v) :
    m'.items.lookup key = some v := by
  obtain ⟨labels, sound', fit⟩ := sound.sound
  have gives := h.gives rest honest onePlace parsed fair sound' fit
  exact lookup_of_suffix gives.items (sound.given.later gives).nodup value

end

/-! ### On behalf of requests -/

namespace Eval

section

variable (lifts : Lifts p run)
include lifts

lemma valueOf_rises {name : String} (tiered : m.Tiered p owners none) :
    Rises p owners none m (valueOf p run id name) fun owners' _ v => v.Within p owners' none := by
  refine (lifts.value (.module id) Program.Below.request tiered).bind fun owners' m' _ _ tiered _ _ => .look ?_
  cases value : topLevelValue? p m' id name with
  | none => exact .fail tiered
  | some v =>
    refine .pure tiered ?_
    unfold topLevelValue? at value
    obtain ⟨loaded, -, value⟩ := Option.bind_eq_some_iff.1 value
    obtain ⟨t, -, value⟩ := Option.bind_eq_some_iff.1 value
    obtain ⟨b, -, value⟩ := Option.bind_eq_some_iff.1 value
    cases target : b.target with
    | item other item =>
      rw [target] at value
      exact (tiered.items _ (mem_of_lookup value)).mono List.prefix_rfl .request
    | inner i =>
      rw [target] at value
      obtain ⟨f, root, value⟩ := Option.bind_eq_some_iff.1 value
      exact (tiered.get (tiered.roots root) value).mono List.prefix_rfl .request
    | host other =>
      rw [target] at value
      exact Option.some.inj value ▸ Value.holds_host.2 .host
    | module other =>
      rw [target] at value
      cases value
    | invalid =>
      rw [target] at value
      cases value

lemma runName_rises {args : List EntryArgument} {name : String} (within : ∀ a ∈ args, a.value.Within p owners none)
    (tiered : m.Tiered p owners none) :
    Rises p owners none m (runName p run id args name) fun owners' _ v => v.Within p owners' none := by
  refine (valueOf_rises lifts tiered).bind fun owners' m' v grows tiered _ value => ?_
  have called : Rises p owners' none m' (run (.call v (EntryArgument.positional args) (EntryArgument.keyword args)))
      fun owners' _ w => w.Within p owners' none := by
    refine lifts.value (.call _ _ _) ⟨value, fun w member => ?_, fun entry member => ?_⟩ tiered
    · obtain ⟨a, among, rfl⟩ := EntryArgument.mem_positional member
      exact (within a among).later grows
    · obtain ⟨a, among, e⟩ := EntryArgument.mem_keyword member
      exact e ▸ (within a among).later grows
  have constant : Rises p owners' none m' (if args.isEmpty then pure v else fail (.notCallable ("`" ++ name ++ "`")))
      fun owners' _ w => w.Within p owners' none := by
    split
    · exact .pure tiered value
    · exact .fail tiered
  cases v with
  | closure f => exact called
  | host other => exact called
  | _ => exact constant

end

end Eval

lemma Value.MadeFrom.within {v : Value} (h : v.MadeFrom p known) (within : ∀ w ∈ known, w.Within p owners none) :
    v.Within p owners none := by
  refine h.imp fun f origin => ?_
  rcases origin with ⟨w, member, inside⟩ | ⟨name, rfl, -⟩
  · exact within w member f inside
  · exact .host

lemma Request.answerOver_rises (lifts : Lifts p run) (knows : r.Knows p known) (within : ∀ v ∈ known, v.Within p owners none)
    (tiered : m.Tiered p owners none) :
    Rises p owners none m (r.answerOver p run) fun owners' _ vs => ∀ v ∈ vs, v.Within p owners' none := by
  have one {q : Query} (rises : Rises p owners none m (q.answerOver p run) fun owners' _ v => v.Within p owners' none) :
      Rises p owners none m ((Request.query q).answerOver p run) fun owners' _ vs => ∀ v ∈ vs, v.Within p owners' none :=
    rises.bind fun _ _ _ _ tiered _ value => .pure tiered (List.forall_mem_singleton.2 value)
  cases r with
  | query q =>
    cases q with
    | module id => exact one (lifts.value (.module id) Program.Below.request tiered)
    | value id name => exact one (valueOf_rises lifts tiered)
    | assembly id => exact one (assembly_rises lifts .request tiered)
    | call callee positional keyword =>
      exact one (lifts.value (.call _ _ _) ⟨knows.1.within within, fun v member => (knows.2.1 v member).within within,
        fun entry member => (knows.2.2 entry member).within within⟩ tiered)
  | entry id args e =>
    have fit : ∀ a ∈ args, a.value.Within p owners none := fun a member => (knows a member).within within
    clear one knows within
    simp only [answerOver]
    induction e.names generalizing owners m with
    | nil => exact .pure tiered (List.forall_mem_nil _)
    | cons name names ih =>
      rw [List.mapM_cons]
      refine (runName_rises lifts fit tiered).bind fun owners' m' v grows tiered _ value => ?_
      refine (ih tiered fun a member => (fit a member).later grows).bind fun owners'' m'' vs grows' tiered _ values => ?_
      exact .pure tiered (List.forall_mem_cons.2 ⟨value.later grows', values⟩)

namespace Dialogue

/-- Between requests nothing is running on anybody's behalf, and anything may be used that has been answered. -/
def Tiered (p : Program) (d : Dialogue) : Prop :=
  ∃ owners, d.machine.Tiered p owners none ∧ ∀ v ∈ d.known, v.Within p owners none

variable {d d' : Dialogue}

lemma tiered_start : start.Tiered p :=
  ⟨[], ⟨rfl, by simp [start, Machine.new], by simp [start, Machine.new], by simp [start, Machine.new],
    by simp [start, Machine.new], by simp [start, Machine.new], by simp [start, Machine.new], by simp [start, Machine.new]⟩, nofun⟩

section

variable (rest : p.AtRest) (honest : p.hosts.Honest) (onePlace : p.OnePlace) (parsed : p.Parsed)
  (acyclic : ∀ id, ¬ Relation.TransGen p.Imports id id)
include rest honest onePlace acyclic

lemma Asks.tiered (asks : Asks p r fuel d d') (knows : r.Knows p d.known) (fair : r.Fair p d.known) (sound : d.Sound p)
    (tiered : d.Tiered p) : d'.Tiered p := by
  obtain ⟨labels, sound', fit⟩ := sound.sound
  obtain ⟨owners, tiered, within⟩ := tiered
  have agrees : Agree p labels (Task.run p fuel) (Task.run p fuel) := Task.run_keeps rest honest fuel
  obtain ⟨run', agree, stops⟩ := Agree.restricted agrees
  have same : r.answerOver p (Task.run p fuel) d.machine = r.answerOver p run' d.machine :=
    (Request.answerOver_keeps rest agree fair fit List.prefix_rfl d.machine sound').1
  have lifts : Lifts p run' := by
    intro owners behalf task m on tiered
    obtain stop | ⟨labels', sound', fits', same'⟩ := stops task m
    · unfold Rises
      rw [stop]
      trivial
    · unfold Rises
      rw [same']
      exact Task.run_rises rest honest onePlace acyclic fuel fits' sound' on tiered
  have rises := Request.answerOver_rises lifts knows within tiered
  unfold Rises at rises
  rw [← same, ← Request.answer_eq] at rises
  cases asks with
  | answered ok =>
    rw [ok] at rises
    obtain ⟨owners', grows, tiered', -, values⟩ := rises
    refine ⟨owners', tiered', fun v member => ?_⟩
    rcases List.mem_append.1 member with new | old
    · exact values v new
    · exact (within v old).later grows
  | failed failed =>
    rw [failed] at rises
    obtain ⟨owners', grows, tiered', -⟩ := rises
    exact ⟨owners', tiered', Value.Within.all_later within grows⟩

include parsed

lemma LeadsKnowing.tiered (leads : LeadsKnowing p d d') (settled : d.Settled p) (sound : d.Sound p) (tiered : d.Tiered p) :
    d'.Tiered p := by
  induction leads with
  | refl => exact tiered
  | @tail d₁ d₂ before asks ih =>
    obtain ⟨r, fuel, knows, asks⟩ := asks
    by_cases usable : ∀ id, r.module? = some id → p.Usable id
    · have sound' := (LeadsKnowing.sound rest honest onePlace parsed before settled sound).1
      exact asks.tiered rest honest onePlace acyclic knows (knows.fair usable) sound' ih
    · simp only [not_forall] at usable
      obtain ⟨id, module, unusable⟩ := usable
      have settled' : d₁.Settled p := (Leads.settled (LeadsKnowing.leads before) settled).1
      have fresh := (settled'.modules id).resolve_right fun ⟨usable, _⟩ => unusable usable
      rw [asks.unusable fresh unusable module]
      exact ih

/-- Behind any requests, what the statements of a module are there for has been achieved if the module has run. -/
theorem LeadsKnowing.achieved (leads : LeadsKnowing p .start d) {l : LoadedModule} {ast : Module} {s : Statement}
    (done : d.machine.states.lookup id = some .done) (found : p.modules[(id : Nat)]? = some l) (syntax_ : l.ast = some ast)
    (member : s ∈ ast.statements) : d.machine.Achieves p id s := by
  obtain ⟨owners, tiered, -⟩ := leads.tiered rest honest onePlace parsed acyclic settled_start sound_start tiered_start
  exact tiered.done done found syntax_ s member

end

end Dialogue

end PipeLang
