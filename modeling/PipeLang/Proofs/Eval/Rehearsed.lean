import PipeLang.Proofs.Eval.Detour

/-!
# Evaluation beside a rehearsal

An evaluation on a machine that is beside a rehearsal comes to the same end as in the rehearsal, whichever modules are still to be run on
the way: `Rehearsal.run_along`. A module that is run on the way comes to the same end as in the rehearsal, `Rehearsal.force`.
-/

namespace PipeLang

open Eval

variable {p : Program} {run : Task → Eval Value} {m m' : Machine} {id : ModuleId} {v w : Value}

/-! ### What modules import -/

namespace Eval

/-- A module that has been run has been begun. -/
lemma run_module_begun {fuel : Nat} (ran : Task.run p fuel (.module id) m = .ok v m') : m'.past id ≠ [] := by
  cases fuel with
  | zero => cases ran
  | succ fuel =>
    change step p (Task.run p fuel) (.module id) m = _ at ran
    obtain ⟨result, same, fails, stays⟩ | ⟨-, loaded, ast, -, -, -, runs⟩ := step_module p id m
    · rw [stays] at ran
      intro none
      rw [ran] at same
      obtain ⟨e, error⟩ := fails (same ▸ none)
      cases ran.symm.trans error
    · rw [runs] at ran
      generalize moduleStatements _ _ _ _ _ = result at ran
      cases result with
      | ok v m₁ =>
        cases ran
        simp [Machine.past]
      | error stop m₁ => cases stop <;> cases ran

/-- When the statements of a module have been run, what they import has been begun. -/
lemma moduleStatements_begun {fuel : Nat} {c : Context} {t : Resolved} {ss : List Statement} (resolved : p.resolvedOf c.module = some t)
    (ran : moduleStatements (Task.run p fuel) c v ss m = .ok w m') {i : Import} (member : Statement.importing i ∈ ss)
    {target : ModuleId} (imported : t.imports.get? i.span = some target) : m'.past target ≠ [] := by
  induction ss generalizing m v with
  | nil => cases member
  | cons s ss ih =>
    obtain ⟨v₁, m₁, first, later⟩ := bind_ok ran
    rcases List.mem_cons.1 member with rfl | among
    · have begun : m₁.past target ≠ [] := by
        cases fuel with
        | zero => cases first
        | succ fuel =>
          have steps : statement p (Task.run p fuel) c (.importing i) = (Task.run p fuel (.module target) >>= fun _ => pure .unit) := by
            simp only [statement, resolvedOf_eq resolved, pure_bind, imported]
          replace first : (Task.run p fuel (.module target) >>= fun _ => pure .unit) m = .ok v₁ m₁ := steps ▸ first
          obtain ⟨_, _, first, rest⟩ := bind_ok first
          cases rest
          exact run_module_begun first
      have advances : Advances p m₁ (moduleStatements (Task.run p fuel) c v₁ ss m₁) :=
        moduleStatements_script.advances (fun _ _ h => h.toIdle) (fun task _ m => Task.run_advances fuel task m) m₁
      rw [later] at advances
      exact advances.states.begun begun
    · exact ih later among

/-- A module that cannot be used is not run. -/
lemma step_module_unusable (run : Task → Eval Value) (fresh : m.states.lookup id = none) (unusable : ¬ p.Usable id) :
    step p run (.module id) m =
      .error (.error (.moduleHasErrors (((p.modules[(id : Nat)]?).map fun l => l.path.render).getD ""))) m := by
  rw [step_module_eq, fresh]
  cases found : p.modules[(id : Nat)]? with
  | none =>
    simp only [module, found]
    rfl
  | some l =>
    have unfit : l.isUsable = false := by
      by_contra usable
      exact unusable ⟨l, found, by simpa using usable⟩
    simp only [module, found, pure_bind, unfit]
    cases l.ast <;> rfl

/-- Reads the value of an exported definition when its module has been run. -/
def readItem (id : ModuleId) (item name : String) : EStateM.Result Stop Machine Value → EStateM.Result Stop Machine Value
  | .ok _ m => match m.items.lookup (id, item) with
    | some v => .ok v m
    | none => .error (.error (.uninitialized name)) m
  | .error stop m => .error stop m

/-- The value of an exported definition is read, or its module is run before. -/
lemma exportedValue_eq (run : Task → Eval Value) (id : ModuleId) (item name : String) (m : Machine) :
    exportedValue run id item name m = (match m.items.lookup (id, item) with
      | some v => .ok v m
      | none => readItem id item name (run (.module id) m)) := by
  have read (m : Machine) : item? id item m = .ok (m.items.lookup (id, item)) m := rfl
  unfold exportedValue
  rw [bind_eq (read m)]
  cases m.items.lookup (id, item) with
  | some v => rfl
  | none =>
    cases ran : run (.module id) m with
    | error stop m' => exact bind_stop ran
    | ok v m' =>
      dsimp only
      rw [bind_eq ran, bind_eq (read m')]
      cases read : m'.items.lookup (id, item) <;> simp only [readItem, read] <;> rfl

end Eval

/-! ### Modules on the way -/

/-- How deep an evaluation may go, and how deep the same evaluation in a rehearsal, behind the first modules: if the first may run out of
depth, then the second goes at least as deep, and as deep as modules may go in the rehearsal; if the second may, then the first has depth to
spare for every module that it may have to run. -/
def Slack.Allows (depth k l d : Nat) : Slack → Prop
  | .none => False
  | .left => l ≤ d ∧ l ≤ depth
  | .right => d + k * (depth + 2) ≤ l

namespace Slack.Allows

variable {slack : Slack} {depth i k l d : Nat}

lemma pred (h : slack.Allows depth k (l + 1) (d + 1)) : slack.Allows depth k l d := by
  cases slack with
  | none => exact h
  | left => exact ⟨Nat.le_of_succ_le_succ h.1, Nat.le_of_succ_le h.2⟩
  | right =>
    simp only [Allows] at h ⊢
    omega

/-- There is depth for a module that is run on the way. -/
lemma inner (h : slack.Allows depth k l d) (before : i < k) : slack.Allows depth i (l - 1) depth := by
  cases slack with
  | none => exact h
  | left =>
    simp only [Allows] at h ⊢
    omega
  | right =>
    have spare : (i + 1) * (depth + 2) ≤ k * (depth + 2) := Nat.mul_le_mul_right _ before
    simp only [Allows] at h ⊢
    rw [Nat.add_mul, Nat.one_mul] at spare
    omega

lemma slack_ne (h : slack.Allows depth k l d) : slack ≠ .none := by
  rintro rfl
  exact h

lemma not_zero (h : Slack.right.Allows depth k 0 d) (before : i < k) : False := by
  have spare : 0 < k * (depth + 2) := Nat.mul_pos (Nat.zero_lt_of_lt before) (Nat.succ_pos _)
  simp only [Allows] at h
  omega

/-- Where depth has run out, it may. -/
lemma out (h : slack.Allows depth k l d) (out : l = 0 ∨ d = 0) : slack = .left ∧ l = 0 ∨ slack = .right ∧ d = 0 := by
  cases slack with
  | none => exact h.elim
  | left =>
    have := h.1
    exact Or.inl ⟨rfl, by omega⟩
  | right =>
    simp only [Allows] at h
    exact Or.inr ⟨rfl, by omega⟩

end Slack.Allows

namespace Ahead

/-- A module has been asked for. In the rehearsal it has run already. -/
inductive Forced (T : Ahead) (M : Matching) (id : ModuleId) (y : Machine) :
    EStateM.Result Stop Machine Value → EStateM.Result Stop Machine Value → Prop where
  | ok {M' x'} :
    M.Within M' →
    T.Beside M' x' y →
    x'.AlikeAt M' T.region.code id y →
    T.owner = some id ∨ x'.states.lookup id = some .done →
    Forced T M id y (.ok .unit x') (.ok .unit y)
  | stop {M' x' e} :
    M.Within M' →
    T.Beside M' x' y →
    T.stage.states.lookup id ≠ some .done →
    Forced T M id y (.error (.error e) x') (.error (.error e) y)
  | left {x' r} :
    T.slack = .left →
    Forced T M id y (.error .outOfFuel x') r
  | right {r y'} :
    T.slack = .right →
    Forced T M id y r (.error .outOfFuel y')

variable {T : Ahead} {M : Matching} {x y : Machine} {l d i : Nat}

/-- Evaluations that have no depth. -/
lemma Forced.out (allows : T.slack.Allows T.rehearsal.depth T.count l d) (out : l = 0 ∨ d = 0) :
    T.Forced M id y (Task.run p l (.module id) x) (Task.rehearse p d (.module id) y) := by
  rcases allows.out out with ⟨slack, rfl⟩ | ⟨slack, rfl⟩
  · exact .left slack
  · exact .right slack

/-- What is known of a module that has run is alike. -/
lemma Beside.alikeAt (h : T.Beside M x y) (early : T.rehearsal.Early T.count id) (done : x.states.lookup id = some .done) :
    x.AlikeAt M T.region.code id y :=
  (h.stage_done early done).2.same .refl (h.known fun owned => T.late id owned early)

/-- What begun modules make of a task. -/
lemma lookup_past {s : RunState} (known : m.states.lookup id = some s) : ∃ before, m.past id = s :: before := by
  rw [Machine.lookup_states] at known
  exact ⟨(m.past id).tail, (List.cons_head?_tail known).symm⟩

lemma rehearse_module {s : RunState} (known : m.states.lookup id = some s) (d : Nat) :
    Task.rehearse p (d + 1) (.module id) m = step p (Task.rehearse p d) (.module id) m := by
  have started : ¬ (m.states.lookup id = none ∧ (p.modules[(id : Nat)]?.any LoadedModule.isUsable) = true) := by simp [known]
  exact if_neg started

/-- What a rehearsal makes of a module that has run to its end there. -/
lemma Beside.rehearsed_done (h : T.Beside M x y) (early : T.rehearsal.Early T.count id)
    (known : T.stage.states.lookup id = some .done) (d : Nat) :
    Task.rehearse T.rehearsal.program (d + 1) (.module id) y = .ok .unit y := by
  have there : y.states.lookup id = some .done := (h.known fun owned => T.late id owned early).state.trans known
  obtain ⟨before, past⟩ := lookup_past there
  exact (rehearse_module there d).trans (step_module_begun past)

/-- What a rehearsal makes of a module that has failed there. -/
lemma Beside.rehearsed_failed {e : RuntimeError} (h : T.Beside M x y) (early : T.rehearsal.Early T.count id)
    (known : T.stage.states.lookup id = some (.failed e)) (d : Nat) :
    Task.rehearse T.rehearsal.program (d + 1) (.module id) y = .error (.error e) y := by
  have there : y.states.lookup id = some (.failed e) := (h.known fun owned => T.late id owned early).state.trans known
  obtain ⟨before, past⟩ := lookup_past there
  exact (rehearse_module there d).trans (step_module_begun past)

/-- What a rehearsal makes of a module that has not come to its end there. -/
lemma Beside.rehearsed_none (h : T.Beside M x y) (early : T.rehearsal.Early T.count id)
    (known : T.stage.states.lookup id = none) (d : Nat) :
    Task.rehearse T.rehearsal.program (d + 1) (.module id) y = .error .outOfFuel y := by
  have there : y.states.lookup id = none := (h.known fun owned => T.late id owned early).state.trans known
  obtain ⟨i, -, here⟩ := early
  obtain ⟨loaded, found, usable⟩ := T.rehearsal.usable.1 (List.mem_of_getElem? here)
  exact if_pos ⟨there, by simp [found, usable]⟩

/-- What a module imports that may run is run before it. -/
lemma early_import {importer target : ModuleId} (inside : T.region.inside importer)
    (imports : T.rehearsal.program.Imports importer target) : T.rehearsal.Early T.count target := by
  have there : ∃ j ≤ T.count, T.rehearsal.order[j]? = some importer := by
    rcases inside with done | owned
    · obtain ⟨j, before, here⟩ := Rehearsal.early_of_done done
      exact ⟨j, Nat.le_of_lt before, here⟩
    · exact ⟨T.count, Nat.le_refl _, T.owned importer owned⟩
  obtain ⟨j, le, here⟩ := there
  obtain ⟨k, before, there⟩ := T.rehearsal.behind here imports
  exact ⟨k, Nat.lt_of_lt_of_le before le, there⟩

/-- A name stands for what is exported by its own module, or by one that has been run in the rehearsal. -/
lemma served_target {c c' : Context} {t : Resolved} {scope : ScopeId} {passed : List Span} {site : Span} {ty : Ty} {target : Target}
    (lies : T.lockstep.Lies M c c' t scope passed)
    (serves : T.rehearsal.program.Serves c.module ⟨site, passed⟩) (found : t.references.get? site = some ⟨target, ty⟩) :
    (∀ source item, target = .item source item → source = c.module ∨ T.stage.states.lookup source = some .done) ∧
      ∀ source, target = .module source → T.stage.states.lookup source = some .done := by
  have resolved : T.rehearsal.program.resolvedOf c.module = some t := lies.here.resolved
  exact serves Rehearsal.stage_closed resolved (fun s member target imported => lies.passed s member t target resolved imported) _ found

/-- Modules that are run on the way go along with the rehearsal. -/
def Detours (T : Ahead) (l : Nat) : Prop :=
  ∀ i < T.count, ∀ {id} (here : T.rehearsal.order[i]? = some id) {x base},
    (onBehalf T.rehearsal i T.slack x base id here).lockstep.Agree (Task.run T.rehearsal.program l)
      (Task.rehearse T.rehearsal.program T.rehearsal.depth)

/-- What has been read of a module that has run in the rehearsal is the same there. -/
lemma Beside.item_read (h : T.Beside M x y) (early : T.rehearsal.Early T.count id)
    (done : T.stage.states.lookup id = some .done) (item : String) : x.items.lookup (id, item) = none ∨
      Option.Rel (T.region.Alike M) (x.items.lookup (id, item)) (y.items.lookup (id, item)) := by
  cases h.mirrors early with
  | blank blank => exact Or.inl (blank.items item)
  | failed _ failed => cases failed.symm.trans done
  | done known => exact Or.inr ((h.alikeAt early known).items item)

/-- A module asks for itself while it is running. -/
lemma Beside.own (h : T.Beside M x y) (owned : T.owner = some id) (allows : T.slack.Allows T.rehearsal.depth T.count l d) :
    T.Forced M id y (Task.run T.rehearsal.program l (.module id) x) (Task.rehearse T.rehearsal.program d (.module id) y) := by
  obtain ⟨state, state', alike⟩ := h.running owned
  cases l with
  | zero => exact .out allows (Or.inl rfl)
  | succ l =>
    cases d with
    | zero => exact .out allows (Or.inr rfl)
    | succ d =>
      obtain ⟨before, past⟩ := lookup_past state
      obtain ⟨before', past'⟩ := lookup_past state'
      rw [show Task.run _ (l + 1) (.module id) x = _ from step_module_begun past,
        show Task.rehearse _ (d + 1) (.module id) y = _ from (rehearse_module state' d).trans (step_module_begun past')]
      exact .ok .refl h alike (Or.inl owned)

lemma Forced.ends {r r' : EStateM.Result Stop Machine Value} (h : T.Forced M id y r r') : T.lockstep.Ends M T.region.Alike r r' := by
  cases h with
  | ok within beside => exact .ok within beside .unit
  | stop within beside => exact .stop within beside
  | left slack => exact .left slack
  | right slack => exact .right slack

/-- What has no value in the rehearsal has none when the module has been run. -/
lemma Forced.unset {r r' : EStateM.Result Stop Machine Value} {item name : String} (h : T.Forced M id y r r')
    (unset : y.items.lookup (id, item) = none) :
    T.lockstep.Ends M T.region.Alike (readItem id item name r) (readItem id item name r') := by
  cases h with
  | @ok M' x' within beside alike =>
    have same := alike.items item
    rw [unset] at same
    simp only [readItem, unset]
    generalize x'.items.lookup (id, item) = o at same ⊢
    cases same
    exact .stop within beside
  | stop within beside => exact .stop within beside
  | left slack => exact .left slack
  | right slack => exact .right slack

/-- What a whole module stands for is the same if it comes to the same end. -/
lemma assembly_along {run run' : Task → Eval Value}
    (forced : ∀ {x y}, T.Beside M x y → T.Forced M id y (run (.module id) x) (run' (.module id) y)) :
    T.lockstep.Along M (assembly T.rehearsal.program run id) (assembly T.rehearsal.program run' id) T.region.Alike := by
  intro x y (beside : T.Beside M x y)
  simp only [assembly, Eval.module]
  cases T.rehearsal.program.modules[(id : Nat)]? with
  | none => exact .stop .refl beside
  | some loaded =>
    simp only [pure_bind]
    cases loaded.isAssembly with
    | false => exact .stop .refl beside
    | true =>
      replace forced := forced beside
      show T.lockstep.Ends M _ (EStateM.bind _ _ x) (EStateM.bind _ _ y)
      unfold EStateM.bind
      generalize run (.module id) x = result at forced ⊢
      generalize run' (.module id) y = result' at forced ⊢
      cases forced with
      | @ok M' x' within beside' alike =>
        have same := alike.assembly
        show T.lockstep.Ends M _ ((match x'.assemblies.lookup id with
          | some v => pure v
          | none => fail _ : Eval Value) x') ((match y.assemblies.lookup id with
          | some v => pure v
          | none => fail _ : Eval Value) y)
        generalize x'.assemblies.lookup id = o at same ⊢
        generalize y.assemblies.lookup id = o' at same ⊢
        cases same with
        | some alike => exact .ok within beside' alike
        | none => exact .stop within beside'
      | stop within beside' => exact .stop within beside'
      | left slack => exact .left slack
      | right slack => exact .right slack

section

variable (rest : T.rehearsal.program.AtRest) (onePlace : T.rehearsal.program.OnePlace) (served : T.rehearsal.program.Served)
include rest onePlace served

/-- A module is run on the way. -/
lemma Beside.detour (h : T.Beside M x y) (here : T.rehearsal.order[i]? = some id) (before : i < T.count)
    (fresh : Machine.SameAt id .new x)
    (agree : (onBehalf T.rehearsal i T.slack x (M.into (T.rehearsal.stage i)) id here).lockstep.Agree
      (Task.run T.rehearsal.program l) (Task.rehearse T.rehearsal.program T.rehearsal.depth)) (slack : T.slack ≠ .none) :
    T.Forced M id y (Task.run T.rehearsal.program (l + 1) (.module id) x)
      (Task.rehearse T.rehearsal.program (d + 1) (.module id) y) := by
  have usable : T.rehearsal.program.Usable id := T.rehearsal.usable.1 (List.mem_of_getElem? here)
  have early : T.rehearsal.Early T.count id := ⟨i, before, here⟩
  have late : ¬ T.rehearsal.Early i id := Rehearsal.not_early here
  have since : Machine.SameAt id (T.rehearsal.stage (i + 1)) T.stage := Rehearsal.stage_since here before
  have blank : Machine.SameAt id .new (T.rehearsal.stage i) := Rehearsal.stage_blank late
  obtain ⟨loaded, t, ast, found, tables, fine, settled⟩ := rest.ready usable
  have resolved : T.rehearsal.program.resolvedOf id = some t := by simp [Program.resolvedOf, found, tables]
  have past {m : Machine} (same : Machine.SameAt id .new m) : m.past id = [] :=
    List.head?_eq_none_iff.1 (Machine.lookup_states.symm.trans same.state)
  have runs : step T.rehearsal.program (Task.run T.rehearsal.program l) (.module id) x = _ :=
    step_module_runs (past fresh) found fine settled.parsed
  have rehearses : T.rehearsal.outcome (T.rehearsal.stage i) id = _ :=
    step_module_runs (past blank) found fine settled.parsed
  -- the statements of the module go along
  have beside := (h.restrict (Nat.le_of_lt before)).begin here fresh blank
  have stands : (onBehalf T.rehearsal i T.slack x (M.into (T.rehearsal.stage i)) id here).lockstep.Stands
      ((M.into (T.rehearsal.stage i)).withFrame x.heap.size (T.rehearsal.stage i).heap.size) ⟨id, x.heap.size⟩
      ⟨id, (T.rehearsal.stage i).heap.size⟩ t Scopes.root [] := {
    module := rfl
    pair := Or.inr ⟨rfl, rfl⟩
    inside := Or.inr rfl
    here := ⟨usable, resolved, settled.nested, settled.nested.root ▸ List.cons_ne_nil _ _⟩
    passed := List.forall_mem_nil _
    opened := ⟨Or.inr ⟨rfl, rfl⟩, Nat.le_refl _, Nat.le_refl _⟩ }
  have permits : ∀ s ∈ ast.statements, (onBehalf T.rehearsal i T.slack x (M.into (T.rehearsal.stage i)) id here).lockstep.Permits id s := by
    intro s _
    cases s with
    | define exported name value span =>
      intro t' b resolved' declared other item target
      cases resolved.symm.trans resolved'
      exact congrArg some ((onePlace usable resolved).own declared target).symm
    | _ => trivial
  have ends := Lockstep.moduleStatements_along agree stands (settled.statements _ .refl rest.offers)
    (served found fine settled.parsed) permits .unit _ _ beside
  have advances : Advances T.rehearsal.program (begun id x)
      (moduleStatements (Task.run T.rehearsal.program l) ⟨id, x.heap.size⟩ .unit ast.statements (begun id x)) :=
    moduleStatements_script.advances (fun _ _ h => h.toIdle) (fun task _ m => Task.run_advances l task m) _
  have unended {m : Machine} (stops : T.rehearsal.outcome (T.rehearsal.stage i) id = .error .outOfFuel m) :
      T.stage.states.lookup id = none := by
    rw [since.state, Rehearsal.stage_passed here stops]
    exact blank.state
  rw [show Task.run T.rehearsal.program (l + 1) (.module id) x = _ from runs]
  generalize ran : moduleStatements (Task.run _ l) _ _ _ _ = result at ends
  generalize moduleStatements (Task.rehearse _ _) _ _ _ _ = result' at ends rehearses
  cases ends with
  | @ok M' v w x' z within beside alike =>
    obtain ⟨alike, passed⟩ := alike
    have imported (target : ModuleId) (imports : T.rehearsal.program.ImportsAtTop id target) :
        (T.rehearsal.stage i).states.lookup target = some .done ∧ x'.states.lookup target ≠ none := by
      obtain ⟨l', ast', t', s, found', parsed', tables', member, imported⟩ := imports
      cases found.symm.trans found'
      cases settled.parsed.symm.trans parsed'
      cases tables.symm.trans tables'
      refine ⟨passed _ (Statement.mem_allPassed member _) t target resolved imported, fun none => ?_⟩
      refine moduleStatements_begun (c := ⟨id, x.heap.size⟩) resolved ran member imported ?_
      exact List.head?_eq_none_iff.1 (Machine.lookup_states.symm.trans none)
    have adopts := beside.adopts_finished loaded alike fun target imports => (imported target imports).1
    have next : T.rehearsal.stage (i + 1) = z.finished id loaded w := by
      have outcome : T.rehearsal.outcome (T.rehearsal.stage i) id = .ok .unit (z.finished id loaded w) := rehearses
      rw [Rehearsal.stage_adopted here (by simp [outcome]) (by rw [outcome]; exact adopts), outcome]
      rfl
    have inner := beside.finish loaded fresh.state alike next fun target imports => (imported target imports).2
    have done : T.stage.states.lookup id = some .done := by
      rw [since.state, next]
      exact Machine.finished_state
    have joined := h.join before inner
    rw [h.rehearsed_done early done]
    exact .ok ⟨Or.inl, Or.inl⟩ joined (joined.alikeAt early Machine.finished_state) (Or.inr Machine.finished_state)
  | @stop M' stop x' z within beside =>
    cases stop with
    | error e =>
      have adopts := beside.adopts_aborted (e := e)
      have next : T.rehearsal.stage (i + 1) = z.aborted id e := by
        have outcome : T.rehearsal.outcome (T.rehearsal.stage i) id = .error (.error e) (z.aborted id e) := rehearses
        rw [Rehearsal.stage_adopted here (by simp [outcome]) (by rw [outcome]; exact adopts), outcome]
        rfl
      have inner := beside.abort (e := e) fresh.state next
      have failed : T.stage.states.lookup id = some (.failed e) := by
        rw [since.state, next]
        exact Machine.aborted_state
      rw [h.rehearsed_failed early failed]
      exact .stop ⟨Or.inl, Or.inl⟩ (h.join before inner) (by simp [failed])
    | outOfFuel =>
      rw [h.rehearsed_none early (unended rehearses)]
      cases some : T.slack with
      | none => exact absurd some slack
      | left => exact .left some
      | right => exact .right some
  | left slack => exact .left slack
  | right slack =>
    rw [h.rehearsed_none early (unended rehearses)]
    exact .right slack

/-- A module has been asked for that has been run in the rehearsal. -/
lemma Beside.force (h : T.Beside M x y) (early : T.rehearsal.Early T.count id) (detours : T.Detours l) (slack : T.slack ≠ .none) :
    T.Forced M id y (Task.run T.rehearsal.program (l + 1) (.module id) x)
      (Task.rehearse T.rehearsal.program (d + 1) (.module id) y) := by
  cases h.mirrors early with
  | blank blank =>
    obtain ⟨i, before, here⟩ := early
    exact h.detour rest onePlace served here before blank (detours i before here) slack
  | failed known known' =>
    obtain ⟨before, past⟩ := lookup_past known
    rw [h.rehearsed_failed early known', show Task.run _ (l + 1) (.module id) x = _ from step_module_begun past]
    exact .stop .refl h (by simp [known'])
  | done known known' alike =>
    obtain ⟨before, past⟩ := lookup_past known
    rw [h.rehearsed_done early known', show Task.run _ (l + 1) (.module id) x = _ from step_module_begun past]
    exact .ok .refl h (h.alikeAt early known) (Or.inr known)

/-- A module has been asked for that has been run in the rehearsal, within depths that go together. -/
lemma Beside.asked (h : T.Beside M x y) (early : T.rehearsal.Early T.count id) (allows : T.slack.Allows T.rehearsal.depth T.count l d)
    (detours : T.Detours (l - 1)) :
    T.Forced M id y (Task.run T.rehearsal.program l (.module id) x) (Task.rehearse T.rehearsal.program d (.module id) y) := by
  cases l with
  | zero => exact .out allows (Or.inl rfl)
  | succ l =>
    cases d with
    | zero => exact .out allows (Or.inr rfl)
    | succ d => exact h.force rest onePlace served early detours allows.slack_ne

variable {c c' : Context} {t : Resolved} {scope : ScopeId} {passed : List Span} {site : Span} {ty : Ty} {target : ModuleId}
variable (allows : T.slack.Allows T.rehearsal.depth T.count l d) (detours : T.Detours (l - 1))
include allows detours

lemma importing_along {i : Import} (lies : T.lockstep.Lies M c c' t scope passed) :
    T.lockstep.Along M (statement T.rehearsal.program (Task.run T.rehearsal.program l) c (.importing i))
      (statement T.rehearsal.program (Task.rehearse T.rehearsal.program d) c' (.importing i)) fun M v w =>
        T.region.Alike M v w ∧ T.region.ran c.module i.span := by
  intro x y (beside : T.Beside M x y)
  have resolved : T.rehearsal.program.resolvedOf c.module = some t := lies.here.resolved
  obtain ⟨known, known'⟩ : resolvedOf T.rehearsal.program c.module = _ ∧ resolvedOf T.rehearsal.program c'.module = _ := lies.resolvedOf
  simp only [statement, known, known', pure_bind]
  cases imported : t.imports.get? i.span with
  | none =>
    refine .ok .refl beside ⟨.unit, fun t' target resolved' imported' => ?_⟩
    cases resolved.symm.trans resolved'
    cases imported.symm.trans imported'
  | some target =>
    have early := early_import lies.inside ⟨t, i.span, resolved, imported⟩
    have forced := beside.asked rest onePlace served early allows detours
    show T.lockstep.Ends M _ (EStateM.bind _ _ x) (EStateM.bind _ _ y)
    unfold EStateM.bind
    generalize Task.run _ l (.module target) x = result at forced ⊢
    generalize Task.rehearse _ d (.module target) y = result' at forced ⊢
    cases forced with
    | ok within beside' _ ran =>
      refine .ok within beside' ⟨.unit, fun t' target' resolved' imported' => ?_⟩
      cases resolved.symm.trans resolved'
      cases imported.symm.trans imported'
      have done := ran.resolve_left fun owned => T.late target owned early
      exact (beside'.stage_done early done).1
    | stop within beside' => exact .stop within beside'
    | left slack => exact .left slack
    | right slack => exact .right slack

lemma item_along {item name : String} {source : ModuleId} (lies : T.lockstep.Lies M c c' t scope passed)
    (serves : T.rehearsal.program.Serves c.module ⟨site, passed⟩) (found : t.references.get? site = some ⟨.item source item, ty⟩) :
    T.lockstep.Along M (exportedValue (Task.run T.rehearsal.program l) source item name)
      (exportedValue (Task.rehearse T.rehearsal.program d) source item name) T.region.Alike := by
  intro x y (beside : T.Beside M x y)
  rw [exportedValue_eq, exportedValue_eq]
  by_cases owned : T.owner = some source
  · obtain ⟨-, -, alike⟩ := beside.running owned
    have same := alike.items item
    generalize read : x.items.lookup (source, item) = o at same ⊢
    generalize read' : y.items.lookup (source, item) = o' at same ⊢
    cases same with
    | some alike => exact .ok .refl beside alike
    | none => exact (beside.own owned allows).unset read'
  · have done : T.stage.states.lookup source = some .done := by
      rcases (served_target lies serves found).1 source item rfl with rfl | done
      · exact lies.inside.resolve_right owned
      · exact done
    have early : T.rehearsal.Early T.count source := Rehearsal.early_of_done done
    cases read' : y.items.lookup (source, item) with
    | none =>
      have unread : x.items.lookup (source, item) = none := by
        rcases beside.item_read early done item with unread | same
        · exact unread
        · rw [read'] at same
          generalize x.items.lookup (source, item) = o at same ⊢
          cases same
          rfl
      rw [unread]
      exact (beside.asked rest onePlace served early allows detours).unset read'
    | some w =>
      cases read : x.items.lookup (source, item) with
      | some v =>
        rcases beside.item_read early done item with unread | same
        · cases unread.symm.trans read
        · rw [read, read'] at same
          cases same with
          | some alike => exact .ok .refl beside alike
      | none =>
        cases l with
        | zero =>
          -- the module may be short of depth in the rehearsal only where it is not asked for
          rcases allows.out (Or.inl rfl) with ⟨slack, -⟩ | ⟨slack, rfl⟩
          · exact .left slack
          · obtain ⟨i, before, -⟩ := early
            exact (Slack.Allows.not_zero (slack ▸ allows) before).elim
        | succ l =>
          have forced := beside.force rest onePlace served early detours allows.slack_ne (l := l) (d := 0)
          rw [beside.rehearsed_done early done] at forced
          dsimp only
          generalize Task.run _ (l + 1) (.module source) x = result at forced ⊢
          cases forced with
          | @ok M' x' within beside' alike =>
            have same := alike.items item
            rw [read'] at same
            simp only [readItem]
            generalize x'.items.lookup (source, item) = o at same ⊢
            cases same with
            | some alike => exact .ok within beside' alike
          | left slack => exact .left slack

/-- What evaluations beside a rehearsal do about other modules goes along with it. -/
lemma hooks : T.lockstep.Hooks (Task.run T.rehearsal.program l) (Task.rehearse T.rehearsal.program d) where
  importing := importing_along rest onePlace served allows detours
  item := item_along rest onePlace served allows detours
  whole lies serves found := assembly_along fun beside =>
    beside.asked rest onePlace served (Rehearsal.early_of_done ((served_target lies serves found).2 _ rfl)) allows detours

end

section

variable {R : Rehearsal} (rest : R.program.AtRest) (onePlace : R.program.OnePlace) (served : R.program.Served) (pure : R.program.hosts.Pure)
include rest onePlace served pure

/-- An evaluation beside a rehearsal goes along with it, as far as both have depth. The induction is on how many modules have been run
beforehand, since only these are run on the way, and for one number of them on the depth. -/
theorem run_along {T : Ahead} (same : T.rehearsal = R) {l d : Nat} (allows : T.slack.Allows R.depth T.count l d) :
    T.lockstep.Agree (Task.run R.program l) (Task.rehearse R.program d) := by
  obtain ⟨k, count⟩ : ∃ k, T.count = k := ⟨_, rfl⟩
  induction k using Nat.strong_induction_on generalizing T l d with
  | _ k ihk =>
    subst same
    induction l generalizing d with
    | zero =>
      rcases allows.out (Or.inl rfl) with ⟨slack, -⟩ | ⟨slack, rfl⟩
      · exact ⟨fun _ _ _ _ => .left slack, fun _ _ _ _ _ _ _ _ => .left slack⟩
      · exact ⟨fun _ _ _ _ => .right slack, fun _ _ _ _ _ _ _ _ => .right slack⟩
    | succ l ih =>
      cases d with
      | zero =>
        rcases allows.out (Or.inr rfl) with ⟨slack, none⟩ | ⟨slack, -⟩
        · cases none
        · exact ⟨fun _ _ _ _ => .right slack, fun _ _ _ _ _ _ _ _ => .right slack⟩
      | succ d =>
        have detours : T.Detours (l - 1) := fun i before id here x base =>
          ihk i (count ▸ before) (T := onBehalf T.rehearsal i T.slack x base id here) rfl (allows.pred.inner before) rfl
        have step := Lockstep.step_along (T := T.lockstep) onePlace pure (hooks rest onePlace served allows.pred detours)
          (ih allows.pred)
        refine ⟨fun {M task task'} twin => ?_, step.statement⟩
        have along := step.task twin
        cases twin <;> exact along

lemma detours_along {T : Ahead} (same : T.rehearsal = R) {l d : Nat} (allows : T.slack.Allows R.depth T.count l d) :
    T.Detours (l - 1) := by
  subst same
  exact fun i before id here x base => run_along rest onePlace served pure
    (T := onBehalf T.rehearsal i T.slack x base id here) rfl (allows.inner before)

end

end Ahead

end PipeLang
