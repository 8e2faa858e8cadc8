import PipeLang.Proofs.Eval.Items
import PipeLang.Proofs.Eval.Once
import PipeLang.Proofs.Eval.Requests
import PipeLang.Proofs.Load.Acyclic

/-!
# Dialogues

A program is asked one thing after another, and each request comes to an end, be it an error. Whatever has been asked, and however
modules import each other: every module that can be used has not been begun, or was begun once and has come to its end. That is
its end for good, its statements were executed then and never else, and no value that was recorded is replaced:
`Program.modules_run_once`.
-/

namespace PipeLang

open Eval

variable {p : Program} {m m' m'' : Machine} {known : List Value} {fuel : Nat} {r : Request} {id : ModuleId}

namespace Request

/-- The module that a request asks for. -/
def module? : Request → Option ModuleId
  | .query (.module id) | .query (.value id _) | .query (.assembly id) | .entry id _ _ => some id
  | .query (.call _ _ _) => none

/-- The values that a request hands over are made from known ones. -/
def Knows (p : Program) (known : List Value) : Request → Prop
  | .query (.call callee positional keyword) =>
    callee.MadeFrom p known ∧ (∀ v ∈ positional, v.MadeFrom p known) ∧ ∀ entry ∈ keyword, entry.2.MadeFrom p known
  | .entry _ args _ => ∀ a ∈ args, a.value.MadeFrom p known
  | .query _ => True

/-- A request for a module that can be used is fair. -/
lemma Knows.fair (knows : r.Knows p known) (usable : ∀ id, r.module? = some id → p.Usable id) : r.Fair p known := by
  cases r with
  | query q =>
    cases q with
    | module id => exact .module (usable id rfl)
    | value id name => exact .value (usable id rfl)
    | assembly id => exact .assembly (usable id rfl)
    | call callee positional keyword => exact .call knows.1 knows.2.1 knows.2.2
  | entry id args e => exact .entry (usable id rfl) knows

/-! ### Requests as scripts -/

lemma valueOf_script {name : String} :
    Script Machine.Still (fun task => ¬ task.IsStatement) fun run => valueOf p run id name := by
  refine ask_script (fun plain => plain) not_false fun _ => Apart.get.bind fun s => ?_
  cases topLevelValue? p s _ name with
  | some v => exact .pure v
  | none => exact .fail _

lemma runName_script {args : List EntryArgument} {name : String} :
    Script Machine.Still (fun task => ¬ task.IsStatement) fun run => runName p run id args name := by
  refine .bind valueOf_script fun v => ?_
  have constant (v : Value) : Apart (if args.isEmpty then pure v else Eval.fail (.notCallable ("`" ++ name ++ "`"))) := by
    split
    · exact .pure v
    · exact .fail _
  cases v with
  | closure f => exact .ask not_false
  | host other => exact .ask not_false
  | _ => exact .apart (constant _)

/-- A request asks for modules and calls, and changes nothing that is recorded by itself. -/
theorem script : Script Machine.Still (fun task => ¬ task.IsStatement) fun run => r.answerOver p run := by
  have one {q : Query} (h : Script Machine.Still (fun task => ¬ task.IsStatement) fun run => q.answerOver p run) :
      Script Machine.Still (fun task => ¬ task.IsStatement) fun run => (Request.query q).answerOver p run :=
    .bind h fun v => .apart (.pure [v])
  cases r with
  | query q =>
    cases q with
    | module id => exact one (.ask not_false)
    | value id name => exact one valueOf_script
    | assembly id => exact one (assembly_script fun plain => plain)
    | call callee positional keyword => exact one (.ask not_false)
  | entry id args e =>
    simp only [answerOver]
    induction e.names with
    | nil => exact .apart (.pure [])
    | cons name names ih =>
      simp only [List.mapM_cons]
      exact .bind runName_script fun v => .bind ih fun vs => .apart (.pure _)

/-- What a request makes of modules. -/
lemma advances (p : Program) (fuel : Nat) (r : Request) (m : Machine) : Advances p m (r.answer p fuel m) := by
  rw [answer_eq]
  exact script.advances (fun _ _ still => still.toIdle) (fun task _ => Task.run_advances fuel task) m

/-- What a fair request gives values to. -/
lemma gives {labels : Labels} (rest : p.AtRest) (honest : p.hosts.Honest) (onePlace : p.OnePlace) (parsed : p.Parsed)
    (fair : r.Fair p known) (sound : m.Sound p labels) (fit : ∀ v ∈ known, v.Fits p labels) (fuel : Nat) :
    m.Gives (left (r.answer p fuel m)) := by
  have agrees : Agree p labels (Task.run p fuel) (Task.run p fuel) := Task.run_keeps rest honest fuel
  obtain ⟨run', agree, stops⟩ := Agree.restricted agrees
  have same : r.answerOver p (Task.run p fuel) m = r.answerOver p run' m :=
    (answerOver_keeps rest agree fair fit List.prefix_rfl m sound).1
  rw [answer_eq, same]
  refine script.leads .trans (fun _ _ still => .of_still still) (fun task plain m => ?_) m
  obtain stop | ⟨labels', sound', fits, same'⟩ := stops task m
  · rw [stop]
    exact .refl
  · rw [same']
    exact (Task.Inert.of_plain plain).gives (Task.run_gave rest honest onePlace parsed fuel fits sound')

/-- A request for a module that cannot be used does nothing. -/
lemma answer_unusable (fresh : m.past id = []) (unusable : ¬ p.Usable id) (asks : r.module? = some id) (fuel : Nat) :
    (∃ stop, r.answer p fuel m = .error stop m) ∨ r.answer p fuel m = .ok [] m := by
  -- the module is not run
  have stops : ∃ stop, Task.run p fuel (.module id) m = .error stop m := by
    cases fuel with
    | zero => exact ⟨.outOfFuel, rfl⟩
    | succ fuel =>
      obtain ⟨result, -, stops, stays⟩ | ⟨-, loaded, ast, found, usable, -⟩ := step_module p id m
      · obtain ⟨e, rfl⟩ := stops fresh
        exact ⟨.error e, stays _⟩
      · exact absurd ⟨loaded, found, usable⟩ unusable
  obtain ⟨stop, stops⟩ := stops
  rw [answer_eq]
  have value (name : String) : valueOf p (Task.run p fuel) id name m = .error stop m := bind_stop stops
  cases r with
  | query q =>
    refine Or.inl ?_
    cases q with
    | module id =>
      cases asks
      exact ⟨stop, bind_stop stops⟩
    | value id name =>
      cases asks
      exact ⟨stop, bind_stop (value name)⟩
    | assembly id =>
      cases asks
      have stands : ∃ stop, assembly p (Task.run p fuel) id m = .error stop m := by
        unfold assembly module
        cases p.modules[(id : Nat)]? with
        | none => exact ⟨_, rfl⟩
        | some l =>
          simp only [pure_bind]
          cases l.isAssembly with
          | false => exact ⟨_, rfl⟩
          | true => exact ⟨stop, bind_stop stops⟩
      obtain ⟨stop', stands⟩ := stands
      exact ⟨stop', bind_stop stands⟩
    | call callee positional keyword => cases asks
  | entry id args e =>
    cases asks
    simp only [answerOver]
    cases e.names with
    | nil => exact Or.inr rfl
    | cons name names =>
      rw [List.mapM_cons]
      exact Or.inl ⟨stop, bind_stop (bind_stop (value name))⟩

/-- The evaluation that answers a request comes to execute a statement at the top level of a module. -/
def Executes (p : Program) (fuel : Nat) (r : Request) (m : Machine) (id : ModuleId) (s : Statement) (m' : Machine) : Prop :=
  ∃ task between, Consults (fun run => r.answerOver p run) (Task.run p fuel) m task between ∧
    Task.Executes p fuel task between id s m'

/-- What a request asks for comes behind what there was, and what comes of it is not taken back. -/
lemma asked {task : Task} (asked : Consults (fun run => r.answerOver p run) (Task.run p fuel) m task m') :
    m.Proceeds p True m' ∧ (left (r.answer p fuel m)).Remembers (left (Task.run p fuel task m')) := by
  rw [answer_eq]
  exact (script.asked (fun _ _ still => still.toIdle) (fun task _ => Task.run_advances fuel task) asked).2

/-- On every machine that a request comes to, modules have been left alone, are running or have come to their ends. -/
lemma Reaches.proceeds {goal : Task} (h : r.Reaches p fuel m goal m') : m.Proceeds p True m' := by
  obtain ⟨task, between, asked, reaches⟩ := h
  exact (Request.asked asked).1.trans reaches.proceeds

namespace Executes

variable {s : Statement}

/-- A module whose statements are executed had not been begun before, is running then, and has been begun behind. -/
lemma runs (h : r.Executes p fuel m id s m') :
    m.past id = [] ∧ m'.past id = [.running] ∧ (left (r.answer p fuel m)).past id ≠ [] := by
  obtain ⟨task, between, asked, executes⟩ := h
  obtain ⟨before, kept⟩ := Request.asked asked
  obtain ⟨fresh, -, running, behind⟩ := executes.runs
  exact ⟨before.states.fresh fresh, running, kept.begun behind⟩

/-- A statement at the top level is executed on one machine at most. -/
lemma once (parsed : p.Parsed) (h : r.Executes p fuel m id s m') (h' : r.Executes p fuel m id s m'') : m' = m'' := by
  obtain ⟨task, between, asked, executes⟩ := h
  obtain ⟨task', between', asked', executes'⟩ := h'
  obtain ⟨fresh, -, -, begun⟩ := executes.runs
  obtain ⟨fresh', -, -, begun'⟩ := executes'.runs
  rcases script.ordered (fun _ _ still => still.toIdle) (fun task _ => Task.run_advances fuel task) asked asked' with
    ⟨rfl, rfl⟩ | behind | before
  · exact executes.once parsed executes'
  · exact absurd fresh' (behind.begun begun)
  · exact absurd fresh (before.begun begun')

end Executes

end Request

/-- A machine that is asked one thing after another, and what has been answered. -/
structure Dialogue where
  machine : Machine
  known : List Value

namespace Dialogue

/-- Nothing has been asked. -/
def start : Dialogue :=
  ⟨.new, []⟩

/-- A request is made, within a depth of nested evaluation, and comes to an end, with values or with an error. -/
inductive Asks (p : Program) (r : Request) (fuel : Nat) : Dialogue → Dialogue → Prop where
  | answered {m m' : Machine} {known vs : List Value} :
    r.answer p fuel m = .ok vs m' →
    Asks p r fuel ⟨m, known⟩ ⟨m', vs ++ known⟩
  | failed {m m' : Machine} {known : List Value} {e : RuntimeError} :
    r.answer p fuel m = .error (.error e) m' →
    Asks p r fuel ⟨m, known⟩ ⟨m', known⟩

/-- Any requests are made and come to their ends. -/
def Leads (p : Program) : Dialogue → Dialogue → Prop :=
  Relation.ReflTransGen fun d d' => ∃ r fuel, Asks p r fuel d d'

/-- Requests are made with values that are made from answers, and come to their ends. -/
def LeadsKnowing (p : Program) : Dialogue → Dialogue → Prop :=
  Relation.ReflTransGen fun d d' => ∃ r fuel, r.Knows p d.known ∧ Asks p r fuel d d'

/-- Between requests every module has not been begun, or it can be used, was begun once and has come to its end. Every module has
a value once at most. -/
structure Settled (p : Program) (d : Dialogue) : Prop where
  modules : ∀ id, d.machine.past id = [] ∨
    p.Usable id ∧ ∃ last, last ≠ .running ∧ d.machine.past id = [last, .running]
  begun : ∀ entry ∈ d.machine.assemblies, d.machine.past entry.1 ≠ []
  assemblies : (d.machine.assemblies.map Prod.fst).Nodup

/-- Later in a dialogue, what has become of modules is as it was, and what they stand for is there. -/
structure Since (d d' : Dialogue) : Prop where
  past : ∀ id, d.machine.past id ≠ [] → d'.machine.past id = d.machine.past id
  assemblies : d.machine.assemblies <:+ d'.machine.assemblies

/-- The machine is sound, what has been answered fits, and no exported definition has a value twice. -/
structure Sound (p : Program) (d : Dialogue) : Prop where
  sound : ∃ labels, d.machine.Sound p labels ∧ ∀ v ∈ d.known, v.Fits p labels
  given : d.machine.GivenOnce

variable {d d' d'' : Dialogue}

/-- The machine behind a request. -/
lemma Asks.machine (asks : Asks p r fuel d d') : d'.machine = left (r.answer p fuel d.machine) := by
  cases asks with
  | answered ok => rw [ok, left]
  | failed failed => rw [failed, left]

lemma LeadsKnowing.leads (leads : LeadsKnowing p d d') : Leads p d d' :=
  Relation.ReflTransGen.mono (fun _ _ ⟨r, fuel, _, asks⟩ => ⟨r, fuel, asks⟩) _ _ leads

/-! ### What becomes of modules -/

lemma settled_start : start.Settled p where
  modules _ := Or.inl rfl
  begun := nofun
  assemblies := List.nodup_nil

lemma Since.refl : d.Since d :=
  ⟨fun _ _ => rfl, List.suffix_rfl⟩

lemma Since.trans (h : d.Since d') (h' : d'.Since d'') : d.Since d'' where
  past id begun := (h'.past id (h.past id begun ▸ begun)).trans (h.past id begun)
  assemblies := h.assemblies.trans h'.assemblies

lemma Asks.proceeds (asks : Asks p r fuel d d') : d.machine.Proceeds p False d'.machine := by
  have proceeds := Request.advances p fuel r d.machine
  cases asks with
  | answered ok =>
    rw [ok] at proceeds
    exact proceeds
  | failed failed =>
    rw [failed] at proceeds
    exact proceeds

lemma Asks.settled (asks : Asks p r fuel d d') (h : d.Settled p) : d'.Settled p ∧ d.Since d' := by
  have proceeds := asks.proceeds
  refine ⟨⟨fun id => ?_, proceeds.assemblies.begun proceeds.states h.begun, proceeds.assemblies.nodup h.assemblies h.begun⟩,
    fun id begun => proceeds.same begun, proceeds.assemblies.suffix⟩
  rcases proceeds.modules id with same | ⟨-, usable, ended⟩
  · rw [same]
    exact h.modules id
  · exact Or.inr ⟨usable, ended.resolve_left fun ⟨midway, _⟩ => midway⟩

/-- After any requests what holds between requests holds again, and nothing that was recorded before is lost. -/
theorem Leads.settled (leads : Leads p d d') (h : d.Settled p) : d'.Settled p ∧ d.Since d' := by
  induction leads with
  | refl => exact ⟨h, .refl⟩
  | tail _ asks ih =>
    obtain ⟨r, fuel, asks⟩ := asks
    obtain ⟨settled, since⟩ := asks.settled ih.1
    exact ⟨settled, ih.2.trans since⟩

/-! ### Values of exported definitions -/

lemma sound_start : start.Sound p where
  sound := ⟨[], Machine.sound_new, nofun⟩
  given := ⟨fun _ _ => rfl, fun _ => List.nodup_nil⟩

/-- A request for a module that cannot be used has no effect. -/
lemma Asks.unusable (asks : Asks p r fuel d d') (fresh : d.machine.past id = []) (unusable : ¬ p.Usable id)
    (module : r.module? = some id) : d' = d := by
  cases asks with
  | answered ok =>
    obtain ⟨stop, stopped⟩ | none := Request.answer_unusable fresh unusable module fuel
    · cases stopped.symm.trans ok
    · cases none.symm.trans ok
      rfl
  | failed failed =>
    obtain ⟨stop, stopped⟩ | none := Request.answer_unusable fresh unusable module fuel
    · cases stopped.symm.trans failed
      rfl
    · cases none.symm.trans failed

section

variable (rest : p.AtRest) (honest : p.hosts.Honest) (onePlace : p.OnePlace) (parsed : p.Parsed)
include rest honest onePlace parsed

/-- A fair request keeps to that. -/
lemma Asks.sound (asks : Asks p r fuel d d') (fair : r.Fair p d.known) (h : d.Sound p) :
    d'.Sound p ∧ d.machine.items <:+ d'.machine.items := by
  obtain ⟨labels, sound, fit⟩ := h.sound
  have gives : d.machine.Gives d'.machine :=
    asks.machine ▸ Request.gives rest honest onePlace parsed fair sound fit fuel
  refine ⟨⟨?_, h.given.later gives⟩, gives.items⟩
  have leaves := Request.answer_leaves rest honest fair sound fit fuel
  cases asks with
  | answered ok =>
    rw [ok] at leaves
    obtain ⟨labels', grows, sound', fits⟩ := leaves
    refine ⟨labels', sound', fun v member => ?_⟩
    rcases List.mem_append.1 member with new | old
    · exact fits v new
    · exact (fit v old).mono grows
  | failed failed =>
    rw [failed] at leaves
    obtain ⟨labels', grows, sound', -⟩ := leaves
    exact ⟨labels', sound', fun v member => (fit v member).mono grows⟩

/-- After any requests with values that are made from answers, no exported definition has a value twice, and each has the value
that it had. -/
theorem LeadsKnowing.sound (leads : LeadsKnowing p d d') (settled : d.Settled p) (h : d.Sound p) :
    d'.Sound p ∧ d.machine.items <:+ d'.machine.items := by
  induction leads with
  | refl => exact ⟨h, List.suffix_rfl⟩
  | @tail d₁ d₂ before asks ih =>
    obtain ⟨r, fuel, knows, asks⟩ := asks
    by_cases usable : ∀ id, r.module? = some id → p.Usable id
    · obtain ⟨sound, kept⟩ := asks.sound rest honest onePlace parsed (knows.fair usable) ih.1
      exact ⟨sound, ih.2.trans kept⟩
    · -- a module that cannot be used has not been begun
      simp only [not_forall] at usable
      obtain ⟨id, module, unusable⟩ := usable
      have settled' : d₁.Settled p := (Leads.settled (LeadsKnowing.leads before) settled).1
      have fresh := (settled'.modules id).resolve_right fun ⟨usable, _⟩ => unusable usable
      rw [asks.unusable fresh unusable module]
      exact ih

end

end Dialogue

/-- A module that has failed fails again, with the same error. -/
lemma Query.answer_failed {e : RuntimeError} {before : List RunState} (failed : m.past id = .failed e :: before) :
    (Query.module id).answer p (fuel + 1) m = .error (.error e) m :=
  step_module_begun failed

/-- A value that has been recorded is found later, if no key was entered twice. -/
lemma lookup_of_suffix {κ : Type} [BEq κ] [LawfulBEq κ] {before behind : List (κ × Value)} {key : κ} {v : Value}
    (kept : before <:+ behind) (distinct : (behind.map Prod.fst).Nodup) (found : before.lookup key = some v) :
    behind.lookup key = some v := by
  obtain ⟨added, rfl⟩ := kept
  rw [List.map_append, List.nodup_append] at distinct
  have new : added.lookup key = none := by
    refine List.lookup_eq_none_iff.2 fun entry member => ?_
    have apart := distinct.2.2 entry.1 (List.mem_map_of_mem member) key (List.mem_map_of_mem (mem_of_lookup found))
    simpa using apart.symm
  rw [List.lookup_append, new, Option.none_or, found]

namespace Program

/-- Modules are evaluated once. Behind any loads, also of modules that import each other, and between any requests that come to
their ends: every module has not been begun, or it can be used, was begun once and has come to its end, done or failed. That
stays so: a module that has failed answers with its error for ever, and the value of a module is not replaced. On the way to
the end of a request a module that had not been begun may be running. A statement at the top level is executed only then, on
one machine, and never later.

The value of an exported definition is not replaced either, if requests are made with values that come from answers, and host
functions hand on no functions but those that they are given and those that are registered. -/
theorem modules_run_once (sources : Sources) (policy : GlobPolicy) (hosts : Hosts) (paths : List String) :
    let p := (new sources policy hosts).loadAll paths
    (∀ d, Dialogue.Leads p .start d →
      (∀ id, d.machine.past id = [] ∨ p.Usable id ∧ ∃ last, last ≠ .running ∧ d.machine.past id = [last, .running]) ∧
      (d.machine.assemblies.map Prod.fst).Nodup ∧
      (∀ d', Dialogue.Leads p d d' →
        (∀ id, d.machine.past id ≠ [] → d'.machine.past id = d.machine.past id) ∧
        (∀ id e fuel, d.machine.past id = [.failed e, .running] →
          (Query.module id).answer p (fuel + 1) d'.machine = .error (.error e) d'.machine) ∧
        ∀ id v, d.machine.assemblies.lookup id = some v → d'.machine.assemblies.lookup id = some v) ∧
      ∀ r fuel d', Dialogue.Asks p r fuel d d' →
        (∀ goal m, r.Reaches p fuel d.machine goal m → ∀ id, m.past id = d.machine.past id ∨
          d.machine.past id = [] ∧ p.Usable id ∧
            (m.past id = [.running] ∨ ∃ last, last ≠ .running ∧ m.past id = [last, .running])) ∧
        ∀ id s m, r.Executes p fuel d.machine id s m → d.machine.past id = [] ∧ m.past id = [.running] ∧
          (∀ m', r.Executes p fuel d.machine id s m' → m' = m) ∧
          ∀ d'', Dialogue.Leads p d' d'' → ∀ (r' : Request) fuel' m', ¬ r'.Executes p fuel' d''.machine id s m') ∧
    (hosts.Honest → ∀ d, Dialogue.LeadsKnowing p .start d →
      (d.machine.items.map Prod.fst).Nodup ∧
      ∀ d', Dialogue.LeadsKnowing p d d' →
        ∀ key v, d.machine.items.lookup key = some v → d'.machine.items.lookup key = some v) := by
  intro p
  constructor
  · intro d reached
    obtain ⟨settled, -⟩ := reached.settled Dialogue.settled_start
    refine ⟨settled.modules, settled.assemblies, fun d' leads => ?_, fun r fuel d' asks => ⟨?_, ?_⟩⟩
    · obtain ⟨settled', since⟩ := leads.settled settled
      refine ⟨since.past, fun id e fuel failed => ?_, fun id v => lookup_of_suffix since.assemblies settled'.assemblies⟩
      exact Query.answer_failed ((since.past id (by simp [failed])).trans failed)
    · intro goal m reaches id
      exact (reaches.proceeds.modules id).imp_right fun ⟨fresh, usable, come⟩ => ⟨fresh, usable, come.imp_left And.right⟩
    · intro id s m executes
      obtain ⟨fresh, running, begun⟩ := executes.runs
      refine ⟨fresh, running, fun m' executes' => executes'.once loadAll_parsed executes, fun d'' leads r' fuel' m' again => ?_⟩
      -- the module has been begun and stays so
      rw [← asks.machine] at begun
      obtain ⟨settled', -⟩ := asks.settled settled
      obtain ⟨-, since⟩ := leads.settled settled'
      exact begun ((since.past id begun).symm.trans again.runs.1)
  · intro honest d reached
    obtain ⟨rest, same⟩ : p.AtRest ∧ p.hosts = hosts := atRest_new.loadAll paths
    have honest' : p.hosts.Honest := same ▸ honest
    have later {d d' : Dialogue} (leads : Dialogue.LeadsKnowing p d d') (settled : d.Settled p) (sound : d.Sound p) :
        d'.Sound p ∧ d.machine.items <:+ d'.machine.items :=
      leads.sound rest honest' loadAll_onePlace loadAll_parsed settled sound
    obtain ⟨settled, -⟩ := reached.leads.settled Dialogue.settled_start
    obtain ⟨sound, -⟩ := later reached Dialogue.settled_start Dialogue.sound_start
    refine ⟨sound.given.nodup, fun d' leads key v => ?_⟩
    obtain ⟨sound', kept⟩ := later leads settled sound
    exact lookup_of_suffix kept sound'.given.nodup

/-- Of two modules that import each other the one that is asked for fails in the other, which uses a definition of it too early.
Both have failed then with that error and keep it, what the first one has executed is not executed again, and what the other
one has defined before keeps its value. -/
theorem modules_run_once_intertwined : ∃ d e, Dialogue.Asks intertwined (.query (.module 1)) 8 .start d ∧
    (∀ id ∈ [0, 1], d.machine.past id = [.failed e, .running] ∧
      ∀ fuel, (Query.module id).answer intertwined (fuel + 1) d.machine = .error (.error e) d.machine) ∧
    (∃ s, (Request.query (.module 1)).Executes intertwined 8 .new 1 s (begun 1 .new) ∧
      ∀ (r : Request) fuel m, ¬ r.Executes intertwined fuel d.machine 1 s m) ∧
    ∃ v, ∀ d', Dialogue.LeadsKnowing intertwined d d' → d'.machine.items.lookup (0, "t") = some v := by
  have computed : (intertwined.modules[1]?.any fun loaded => loaded.isUsable && loaded.ast.any fun ast =>
      !ast.statements.isEmpty) = true ∧ failsWith (fun e m =>
        decide (m.past 0 = [.failed e, .running] ∧ m.past 1 = [.failed e, .running]) && (m.items.lookup (0, "t")).isSome)
      ((Request.query (.module 1)).answer intertwined 8 .new) = true := by
    decide +kernel
  simp only [Bool.and_eq_true, Option.any_eq_true, failsWith_iff, decide_eq_true_eq, Option.isSome_iff_exists] at computed
  obtain ⟨⟨loaded, found, usable, ast, parsed, some_⟩, e, m, answer, ⟨failed, failed'⟩, v, value⟩ := computed
  obtain ⟨s, ss, statements⟩ : ∃ s ss, ast.statements = s :: ss := by
    cases statements : ast.statements with
    | nil => simp [statements] at some_
    | cons s ss => exact ⟨s, ss, rfl⟩
  have asks : Dialogue.Asks intertwined (.query (.module 1)) 8 .start ⟨m, []⟩ := .failed answer
  have next : Dialogue.LeadsKnowing intertwined .start ⟨m, []⟩ := .single ⟨.query (.module 1), 8, trivial, asks⟩
  obtain ⟨modules, items⟩ := modules_run_once _ .eager .empty ["main"]
  obtain ⟨-, -, -, during⟩ := modules _ (.refl : Dialogue.Leads intertwined .start .start)
  obtain ⟨-, -, later, -⟩ := modules ⟨m, []⟩ next.leads
  obtain ⟨-, keeps, -⟩ := later ⟨m, []⟩ .refl
  -- the first statement of the module that is asked for
  have goes (m' : Machine) : (Request.query (.module 1)).answer intertwined 8 .new ≠ .error .outOfFuel m' := by
    simp [answer]
  have executes : (Request.query (.module 1)).Executes intertwined 8 .new 1 s (begun 1 .new) :=
    ⟨.module 1, .new, .of_stop (fun run m' stops => ⟨m', bind_stop stops⟩) goes,
      .first rfl found usable parsed statements fun m' stops => goes m' (bind_stop stops)⟩
  obtain ⟨-, -, -, never⟩ := (during _ _ _ asks).2 _ _ _ executes
  refine ⟨⟨m, []⟩, e, asks, fun id member => ?_, ⟨s, executes, never ⟨m, []⟩ .refl⟩, v, fun d' leads => ?_⟩
  · have both : m.past id = [.failed e, .running] := by
      rcases List.mem_cons.1 member with rfl | member
      · exact failed
      · exact List.mem_singleton.1 member ▸ failed'
    exact ⟨both, fun fuel => keeps id e fuel both⟩
  · exact (items Hosts.empty_honest ⟨m, []⟩ next).2 d' leads (0, "t") v value

/-- A text that exports a definition. -/
def constantText : String :=
  "x = true\nexport t = x\n"

/-- A program that exports a definition. -/
def constant : Program :=
  (ofText constantText .prelude).loadAll ["main"]

/-- A function of another program, which binds a name where the first one defines the exported name. -/
def change : Value :=
  ((ofText "change = () => \x7bt = false\ntrue \x7d\n" .prelude).loadAll ["main"]).kept "change"

/-- The value of an exported definition is replaced when a function is called that does not come from an answer, and which defines
a name of its own at the same place of another text. It is replaced as well when all that is called comes from answers, but a host
function hands on that function. -/
theorem not_modules_run_once_changed :
    (constant.Usable 0 ∧ ∃ d d', Dialogue.Asks constant (.query (.module 0)) 9 .start d ∧
      Dialogue.Asks constant (.query (.call change [] [])) 9 d d' ∧
      d.machine.items.lookup (0, "t") = some (.bool true) ∧ d'.machine.items.lookup (0, "t") = some (.bool false)) ∧
    (passingOn constantText change).Usable 0 ∧ ∃ d d', Dialogue.LeadsKnowing (passingOn constantText change) .start d ∧
      Dialogue.LeadsKnowing (passingOn constantText change) d d' ∧
      d.machine.items.lookup (0, "t") = some (.bool true) ∧ d'.machine.items.lookup (0, "t") = some (.bool false) := by
  have computed : ((constant.modules[0]?.any fun loaded => loaded.isUsable) = true ∧
      gives (fun _ m => ((m.items.lookup (0, "t")).bind Value.bool? == some true) &&
          gives (fun _ m' => (m'.items.lookup (0, "t")).bind Value.bool? == some false)
            ((Query.call change [] []).answer constant 9 m))
        ((Query.module 0).answer constant 9 .new) = true) ∧
      ((passingOn constantText change).modules[0]?.any fun loaded => loaded.isUsable) = true ∧
      gives (fun v m => ((m.items.lookup (0, "t")).bind Value.bool? == some true) &&
          gives (fun _ m' => (m'.items.lookup (0, "t")).bind Value.bool? == some false)
            ((Query.call v [] []).answer (passingOn constantText change) 9 m))
        ((Query.value 0 "g").answer (passingOn constantText change) 9 .new) = true := by
    decide +kernel
  obtain ⟨⟨usable, asked⟩, usable', asked'⟩ := computed
  obtain ⟨loaded, found, fine⟩ := Option.any_eq_true _ _ |>.1 usable
  obtain ⟨loaded', found', fine'⟩ := Option.any_eq_true _ _ |>.1 usable'
  simp only [gives_iff, Bool.and_eq_true, beq_iff_eq, Option.bind_eq_some_iff, Value.bool?_eq_some] at asked asked'
  obtain ⟨u, m, ran, ⟨_, defined, rfl⟩, v, m', called, _, changed, rfl⟩ := asked
  obtain ⟨g, n, got, ⟨_, defined', rfl⟩, w, n', called', _, changed', rfl⟩ := asked'
  have first : Dialogue.LeadsKnowing (passingOn constantText change) .start ⟨n, [g]⟩ :=
    .single ⟨.query (.value 0 "g"), 9, trivial, .answered (Request.answer_query got)⟩
  have next : Dialogue.LeadsKnowing (passingOn constantText change) ⟨n, [g]⟩ ⟨n', [w, g]⟩ :=
    .single ⟨.query (.call g [] []), 9, ⟨madeFrom_of_mem List.mem_cons_self, List.forall_mem_nil _, List.forall_mem_nil _⟩,
      .answered (Request.answer_query called')⟩
  exact ⟨⟨⟨loaded, found, fine⟩, ⟨m, [u]⟩, ⟨m', [v, u]⟩, .answered (Request.answer_query ran),
    .answered (Request.answer_query called), defined, changed⟩, ⟨loaded', found', fine'⟩, ⟨n, [g]⟩, ⟨n', [w, g]⟩, first, next,
    defined', changed'⟩

end Program

end PipeLang
