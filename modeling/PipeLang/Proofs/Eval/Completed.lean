import PipeLang.Proofs.Eval.Items
import PipeLang.Proofs.Eval.Order
import PipeLang.Proofs.Load.Served

/-!
# Modules that have run

When an evaluation goes through, the modules that have come to their ends on the way are done, and their statements are passed: the
modules that they import have been begun, and the definitions that they introduce have their values, `Task.run_completes`. That
is so whatever host functions do. A load brings only modules that imports at the top level lead to from the one that is
asked for, `Program.load_leads`, so that all of them are done when that one is.
-/

namespace PipeLang

open Eval

variable {p : Program} {m m' : Machine} {run : Task → Eval Value} {c : Context} {fuel : Nat} {id : ModuleId} {s : Statement}
  {v : Value} {l : LoadedModule} {α : Type}

namespace Machine

/-- A statement of a module is passed: the module that it imports has been begun, and the definition that it introduces has its
value. -/
structure Passed (p : Program) (m : Machine) (id : ModuleId) (s : Statement) : Prop where
  imports : ∀ i, s = .importing i → ∀ t target, p.resolvedOf id = some t → t.imports.get? i.span = some target →
    m.past target ≠ []
  items : ∀ name, s.Exposes p id name → ∃ v, m.items.lookup (id, name) = some v

/-- No module has failed, and of those that are done the statements are passed. -/
structure Complete (p : Program) (m : Machine) : Prop where
  ended : ∀ {id s}, m.states.lookup id = some s → s = .running ∨ s = .done
  passed : ∀ {id l ast}, m.states.lookup id = some .done → p.modules[(id : Nat)]? = some l → l.ast = some ast →
    ∀ s ∈ ast.statements, m.Passed p id s

/-- What has a value has one when more values are there. -/
lemma lookup_of_values {key : ModuleId × String} (values : m.items <:+ m'.items) (found : ∃ v, m.items.lookup key = some v) :
    ∃ v, m'.items.lookup key = some v := by
  obtain ⟨added, grown⟩ := values
  obtain ⟨v, found⟩ := found
  rw [← grown, List.lookup_append, found]
  cases added.lookup key with
  | none => exact ⟨v, rfl⟩
  | some w => exact ⟨w, rfl⟩

lemma Passed.later (h : m.Passed p id s) (states : m'.Remembers m) (values : m.items <:+ m'.items) : m'.Passed p id s where
  imports i same t target resolved recorded := states.begun (h.imports i same t target resolved recorded)
  items name exposes := lookup_of_values values (h.items name exposes)

namespace Complete

lemma new : Machine.new.Complete p where
  ended := nofun
  passed := nofun

lemma idle (h : m.Complete p) (idle : m.Idle m') : m'.Complete p where
  ended found := h.ended (idle.states ▸ found)
  passed done found parsed s member :=
    (h.passed (idle.states ▸ done) found parsed s member).later (.of_eq idle.states) idle.values

/-- A module is begun. -/
lemma begin (h : m.Complete p) : (begun id m).Complete p where
  ended {i s} found := by
    rw [begun, lookup_state] at found
    split at found
    · cases found
      exact Or.inl rfl
    · exact h.ended found
  passed {i l ast} done found parsed s member := by
    rw [begun, lookup_state] at done
    split at done
    · cases done
    · exact (h.passed done found parsed s member).later (.cons rfl) List.suffix_rfl

/-- A module whose statements are passed is done. -/
lemma finish (h : m.Complete p) (states : m'.states = (id, .done) :: m.states) (items : m'.items = m.items)
    (passes : ∀ {l ast}, p.modules[(id : Nat)]? = some l → l.ast = some ast → ∀ s ∈ ast.statements, m.Passed p id s) :
    m'.Complete p where
  ended {i s} found := by
    rw [states, lookup_state] at found
    split at found
    · cases found
      exact Or.inr rfl
    · exact h.ended found
  passed {i l ast} done found parsed s member := by
    rw [states, lookup_state] at done
    have before : m.Passed p i s := by
      split at done
      · next here =>
        subst here
        exact passes found parsed s member
      · exact h.passed done found parsed s member
    exact before.later (.cons states) (items ▸ List.suffix_rfl)

end Complete

end Machine

namespace Eval

/-- When a computation goes through, modules that have come to their ends on the way are done and have their statements passed. -/
def Completes (p : Program) (x : Eval α) : Prop :=
  ∀ {m m' a}, x m = .ok a m' → m.Complete p → m'.Complete p

lemma Script.completes {asks : Task → Prop} {x : (Task → Eval Value) → Eval α} (script : Script Machine.Idle asks x)
    (tasks : ∀ task, asks task → Completes p (run task)) : Completes p (x run) := by
  induction script with
  | own here =>
    intro m m' a ran complete
    have idle : m.Idle (left _) := here m
    simp only [ran] at idle
    exact complete.idle idle
  | ask member => exact tasks _ member
  | bind _ _ ih ih' =>
    intro m m' b ran complete
    obtain ⟨a, m₁, first, rest⟩ := bind_ok ran
    exact ih' a rest (ih first complete)

/-- When a module goes through, it had been begun, or its statements go through and it is done. -/
lemma step_module_ok (ran : step p run (.module id) m = .ok v m') : m' = m ∧ m.past id ≠ [] ∨
    ∃ loaded ast last m₁, p.modules[(id : Nat)]? = some loaded ∧ loaded.ast = some ast ∧
      moduleStatements run ⟨id, m.heap.size⟩ .unit ast.statements (begun id m) = .ok last m₁ ∧
      m'.states = (id, .done) :: m₁.states ∧ m'.items = m₁.items := by
  obtain ⟨result, same, stops, stays⟩ | ⟨-, loaded, ast, found, -, parsed, runs⟩ := step_module p id m
  · rw [stays] at ran
    subst ran
    refine Or.inl ⟨same, fun fresh => ?_⟩
    obtain ⟨e, stopped⟩ := stops fresh
    cases stopped
  · rw [runs] at ran
    cases loop : moduleStatements run ⟨id, m.heap.size⟩ .unit ast.statements (begun id m) with
    | ok last m₁ =>
      rw [loop] at ran
      cases ran
      exact Or.inr ⟨loaded, ast, last, m₁, found, parsed, loop, rfl, rfl⟩
    | error stop m₁ =>
      rw [loop] at ran
      cases stop <;> cases ran

/-- A module that has been asked for has been begun. -/
lemma run_begins (ran : Task.run p fuel (.module id) m = .ok v m') : m'.past id ≠ [] := by
  cases fuel with
  | zero => cases ran
  | succ fuel =>
    rcases step_module_ok ran with ⟨rfl, begun⟩ | ⟨-, -, -, m₁, -, -, -, states, -⟩
    · exact begun
    · rw [Machine.past_cons states rfl, if_pos rfl]
      exact List.cons_ne_nil _ _

/-- A statement that goes through is passed. -/
lemma run_passes (ran : Task.run p fuel (.statement c s) m = .ok v m') : m'.Passed p c.module s := by
  cases fuel with
  | zero => cases ran
  | succ fuel =>
    change statement p (Task.run p fuel) c s m = .ok v m' at ran
    cases s with
    | importing i =>
      refine ⟨fun j same t target resolved recorded => ?_, fun name exposes => exposes.elim⟩
      cases same
      simp only [statement, resolvedOf_eq resolved, pure_bind, recorded] at ran
      obtain ⟨_, m₁, imported, rest⟩ := bind_ok ran
      cases rest
      exact run_begins imported
    | define exported name value span =>
      refine ⟨fun i same => Statement.noConfusion same, fun item exposes => ?_⟩
      obtain ⟨t, b, resolved, declared, target⟩ := exposes
      rw [statement_define] at ran
      obtain ⟨w, m₁, -, ran⟩ := bind_ok ran
      simp only [bindDefinition, resolvedOf_eq resolved, pure_bind, declared, target] at ran
      cases ran
      exact ⟨w, List.lookup_cons_self⟩
    | expr e span => exact ⟨fun i same => Statement.noConfusion same, fun name exposes => exposes.elim⟩

/-- When the statements of a module go through, all of them are passed. -/
lemma moduleStatements_passes {last : Value} {ss : List Statement}
    (ran : moduleStatements (Task.run p fuel) c last ss m = .ok v m') : ∀ s ∈ ss, m'.Passed p c.module s := by
  induction ss generalizing last m with
  | nil => exact List.forall_mem_nil _
  | cons s ss ih =>
    obtain ⟨w, m₁, first, rest⟩ := bind_ok ran
    have behind : Advances p m₁ (moduleStatements (Task.run p fuel) c w ss m₁) :=
      moduleStatements_script.advances (fun _ _ h => h.toIdle) (fun task _ m => Task.run_advances fuel task m) m₁
    rw [rest] at behind
    exact List.forall_mem_cons.2 ⟨(run_passes first).later behind.states behind.values, ih rest⟩

lemma step_module_completes (completes : ∀ task, Completes p (Task.run p fuel task)) :
    Completes p (step p (Task.run p fuel) (.module id)) := by
  intro m m' v ran complete
  rcases step_module_ok ran with ⟨rfl, -⟩ | ⟨loaded, ast, last, m₁, found, parsed, loop, states, items⟩
  · exact complete
  · have complete : m₁.Complete p := (moduleStatements_script.mono (fun _ _ still => still.toIdle) fun _ h => h).completes
      (fun task _ => completes task) loop complete.begin
    refine complete.finish states items fun found' parsed' => ?_
    cases found.symm.trans found'
    cases parsed.symm.trans parsed'
    exact moduleStatements_passes loop

end Eval

/-- Evaluation that goes through leaves modules that are done with their statements passed, at every depth. -/
theorem Task.run_completes (fuel : Nat) (task : Task) : Completes p (Task.run p fuel task) := by
  induction fuel generalizing task with
  | zero => nofun
  | succ fuel ih =>
    by_cases nested : ∃ id, task = .module id
    · obtain ⟨id, rfl⟩ := nested
      exact step_module_completes ih
    · exact (step_idle fun id same => nested ⟨id, same⟩).completes fun task _ => ih task

/-- When an evaluation on a fresh machine goes through, no module is running. -/
lemma Task.run_ended {task : Task} (ran : Task.run p fuel task .new = .ok v m) : m.states.lookup id ≠ some .running := by
  have proceeds : Advances p .new (Task.run p fuel task .new) := Task.run_advances fuel task .new
  rw [ran] at proceeds
  intro running
  rw [Machine.lookup_states] at running
  rcases proceeds.modules id with none | ⟨-, -, ⟨stopped, -⟩ | ⟨last, final, ended⟩⟩
  · have fresh : m.past id = [] := none
    rw [fresh] at running
    cases running
  · exact stopped
  · rw [show m.past id = [last, .running] from ended, List.head?_cons] at running
    exact final (Option.some.inj running)

/-! ### What a load brings -/

namespace Program

/-- The modules that a program has more than another are led to from one module. -/
def Brings (P p q : Program) (first : ModuleId) : Prop :=
  ∀ i : Nat, p.modules.size ≤ i → i < q.modules.size → Relation.ReflTransGen P.ImportsAtTop first i

variable {p₀ q : Program} {raw₀ raw : String} {depth : Nat} {pending : List Pending} {a : Pending} {rest : List Statement}
  {target : ModuleId}

lemma Brings.of_size {P q' : Program} (h : Brings P p q target) (size : q'.modules.size = q.modules.size) :
    Brings P p q' target :=
  fun i new inside => h i new (size ▸ inside)

/-- What comes behind a module that is led to is led to as well. -/
lemma Brings.append {P q' : Program} {next : ModuleId} (h : Brings P p q target) (leads : P.ImportsAtTop target next)
    (h' : Brings P q q' next) : Brings P p q' target := by
  intro i new inside
  by_cases early : i < q.modules.size
  · exact h i new early
  · exact .head leads (h' i (Nat.le_of_not_lt early) inside)

/-- Behind one more statement there are more modules only if it imports one, and that leads to them. -/
lemma Opens.past_brings {P : Program} (opens : p.Opens raw depth a) (canonical : p.Canonical) (opened : Opened P a)
    (found : P.modules[(a.home : Nat)]? = some l) (parsed : l.ast = some a.ast) (resolved : l.resolved = some a.finished.resolved)
    (next : a.rest = s :: rest) (before : Brings P p a.resolution.program a.home)
    (nested : ∀ i target, s = .importing i → (loader depth a.resolution.program i.path).1 = .ok target →
      (∀ l, (loader depth a.resolution.program i.path).2.modules[(target : Nat)]? = some l → l.status = .loaded → l.faults = []) →
        Brings P a.resolution.program (loader depth a.resolution.program i.path).2 target) :
    Brings P p (a.past s rest).resolution.program a.home := by
  have member : s ∈ a.ast.statements := by
    rw [opens.statements, next]
    simp
  by_cases plain : ∀ i, .importing i ∉ s.mentions
  · exact before.of_size (opens.adds canonical plain)
  · simp only [not_forall, not_not] at plain
    obtain ⟨i, mentioned⟩ := plain
    obtain rfl := opened.imports s member i mentioned
    obtain ⟨target, answer, recorded, usable, -, size, -⟩ := opens.imports canonical opened.faults next
    exact (before.append ⟨l, a.ast, _, i, found, parsed, resolved, member, recorded⟩
      (nested i target rfl answer usable)).of_size size

/-- A load brings only modules that are led to from the one that it is asked for. -/
theorem Loading.brings (flat : (p₀.load raw₀).2.Flat) (canonical : p₀.Canonical)
    (loading : p₀.Loading raw₀ depth pending p raw) (answer : (loader depth p raw).1 = .ok target)
    (usable : ∀ l, (loader depth p raw).2.modules[(target : Nat)]? = some l → l.status = .loaded → l.faults = []) :
    Brings (p₀.load raw₀).2 p (loader depth p raw).2 target := by
  induction depth generalizing p raw pending target with
  | zero =>
    rcases loader_opens answer usable with ⟨-, same⟩ | ⟨inner, a, deeper, -⟩
    · exact fun i new inside => absurd (same ▸ inside) (Nat.not_lt_of_le new)
    · cases deeper
  | succ depth ih =>
    rcases loader_opens answer usable with ⟨-, same⟩ | ⟨inner, a, deeper, opens, first, rfl⟩
    · exact fun i new inside => absurd (same ▸ inside) (Nat.not_lt_of_le new)
    cases deeper
    have start : Brings (p₀.load raw₀).2 p a.resolution.program a.home := by
      intro i new inside
      obtain ⟨size, -⟩ := opens.begins first
      obtain rfl : i = p.modules.size := by omega
      exact opens.home ▸ .refl
    clear answer usable first
    generalize behind : a.rest = ss
    induction ss generalizing a with
    | nil =>
      obtain ⟨size, -⟩ := opens.ends (canonical.loading loading) behind
      exact start.of_size size
    | cons s ss next =>
      obtain ⟨l, found, parsed, resolved, -⟩ := loading.opened opens
      refine next (a := a.past s ss) (opens.past behind) ?_ rfl
      refine opens.past_brings (canonical.loading loading) (Eval.opened flat loading opens) found parsed resolved behind start ?_
      rintro i target rfl answer usable
      exact ih (loading.nested opens behind (i.asks _ _)) answer usable

variable {sources : Sources} {policy : GlobPolicy} {hosts : Hosts} {root : ModuleId}

/-- When a fresh program is loaded from one module, imports lead from there to all modules. -/
theorem load_leads (loaded : ((new sources policy hosts).load raw).1 = .ok root)
    (flat : ((new sources policy hosts).load raw).2.Flat) {i : Nat} (inside : i < ((new sources policy hosts).load raw).2.modules.size) :
    Relation.ReflTransGen ((new sources policy hosts).load raw).2.ImportsAtTop root i :=
  Loading.brings flat canonical_new .request loaded (fun _ found _ => (LoadedModule.isUsable_iff.1 (flat.usable found)).2) i
    (Nat.zero_le i) inside

/-- A program names an exported definition: a use denotes it, a binding stands for it, or it is exported. -/
inductive Names (p : Program) (id : ModuleId) (name : String) : Prop where
  | use {i : Nat} {l t site ref} :
    p.modules[i]? = some l →
    l.resolved = some t →
    t.references.get? site = some ref →
    ref.target = .item id name →
    Names p id name
  | binding {i b : Nat} {l t binding} :
    p.modules[i]? = some l →
    l.resolved = some t →
    t.scopes.bindings[b]? = some binding →
    binding.target = .item id name →
    Names p id name
  | exported {i : Nat} {l e} :
    p.modules[i]? = some l →
    e ∈ l.exports.entries →
    e.target = .item id name →
    Names p id name

variable {name : String}

/-- What is named in modules that can be used is exported by its own module. -/
lemma Names.owned {paths : List String} (names : ((new sources policy hosts).loadAll paths).Names id name)
    (usable : ∀ {i : Nat} {l}, ((new sources policy hosts).loadAll paths).modules[i]? = some l → l.isUsable = true) :
    ∃ e, ((new sources policy hosts).loadAll paths).Owns id name e := by
  have canonical : ((new sources policy hosts).loadAll paths).Canonical := canonical_new.loadAll paths
  have owned {q : Program} {t : Scopes} {target : Target} {ty : Ty} (stands : q.Stands t target ty)
      (same : target = .item id name) : ∃ e, q.Owns id name e := by
    subst same
    cases stands with
    | item owns => exact ⟨_, owns⟩
  cases names with
  | use found resolved recorded target => exact owned (canonical.references found (usable found) resolved recorded) target
  | binding found resolved bound target =>
    cases loadAll_opened found (by simp [resolved]) with
    | @mk q raw depth a _ canonical opens _ _ tables faults retains =>
      cases resolved.symm.trans tables
      have clean : a.finished.faults = [] := List.subset_nil.1 ((LoadedModule.isUsable_iff.1 (usable found)).2 ▸ faults)
      obtain ⟨e, owns⟩ := owned ((opens.backed canonical).bindings clean bound (by simp [target])) target
      exact ⟨e, owns.later retains⟩
  | exported found member target =>
    obtain ⟨e, owns, -⟩ := (canonical.exports found _ member).item _ _ target
    exact ⟨e, owns⟩

/-- What a module exports of its own is introduced by one of its statements. -/
lemma Owns.exposed {paths : List String} {e : Export} (owns : ((new sources policy hosts).loadAll paths).Owns id name e)
    (usable : ∀ {i : Nat} {l}, ((new sources policy hosts).loadAll paths).modules[i]? = some l → l.isUsable = true) :
    ∃ l ast s, ((new sources policy hosts).loadAll paths).modules[(id : Nat)]? = some l ∧ l.ast = some ast ∧
      s ∈ ast.statements ∧ s.Exposes ((new sources policy hosts).loadAll paths) id name := by
  obtain ⟨l, found, member⟩ := mem_exportsOf (List.mem_of_find?_eq_some owns.exported)
  have rest : ((new sources policy hosts).loadAll paths).AtRest := (atRest_new.loadAll paths).1
  obtain ⟨l', t, ast, found', resolved, -, settled⟩ := rest.ready ⟨l, found, usable found⟩
  cases found.symm.trans found'
  obtain ⟨s, among, shows⟩ := loadAll_provenance found (usable found) settled.parsed resolved member
  refine ⟨l, ast, s, found, settled.parsed, among, ?_⟩
  cases shows with
  | define declared target same =>
    cases owns.target.symm.trans same
    exact ⟨t, _, (resolvedOf_some found).trans resolved, declared, target⟩
  | importing _ forwarded => cases owns.own.symm.trans forwarded

end Program

/-- When the module has been run that a program was loaded from, all modules are done, and everything that is named anywhere has
its value. -/
theorem Machine.Complete.whole {sources : Sources} {policy : GlobPolicy} {hosts : Hosts} {raw : String} {root : ModuleId}
    (loaded : ((Program.new sources policy hosts).load raw).1 = .ok root)
    (flat : ((Program.new sources policy hosts).load raw).2.Flat)
    (complete : m.Complete ((Program.new sources policy hosts).load raw).2) (begun : m.past root ≠ [])
    (ended : ∀ {id}, m.states.lookup id ≠ some .running) :
    (∀ i : Nat, i < ((Program.new sources policy hosts).load raw).2.modules.size → m.states.lookup i = some .done) ∧
      ∀ id name, ((Program.new sources policy hosts).load raw).2.Names id name → ∃ v, m.items.lookup (id, name) = some v := by
  have done {id : ModuleId} (begun : m.past id ≠ []) : m.states.lookup id = some .done := by
    cases past : m.past id with
    | nil => exact absurd past begun
    | cons last before =>
      have known : m.states.lookup id = some last := by rw [lookup_states, past, List.head?_cons]
      rcases complete.ended known with rfl | rfl
      · exact absurd known ended
      · exact known
  have all {i : Nat} (inside : i < ((Program.new sources policy hosts).load raw).2.modules.size) :
      m.states.lookup i = some .done := by
    have way := Program.load_leads loaded flat inside
    clear inside
    -- by induction on the imports that lead there
    induction way with
    | refl => exact done begun
    | tail _ leads ih =>
      obtain ⟨l, ast, t, i, found, parsed, resolved, member, recorded⟩ := leads
      exact done ((complete.passed ih found parsed _ member).imports i rfl t _
        ((Program.resolvedOf_some found).trans resolved) recorded)
  refine ⟨fun i inside => all inside, fun id name names => ?_⟩
  obtain ⟨e, owns⟩ : ∃ e, ((Program.new sources policy hosts).loadAll [raw]).Owns id name e := Program.Names.owned names flat.usable
  obtain ⟨l, ast, s, found, parsed, member, exposes⟩ := owns.exposed flat.usable
  exact (complete.passed (all (Array.getElem?_eq_some_iff.1 found).1) found parsed s member).items name exposes

end PipeLang
