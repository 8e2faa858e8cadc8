import PipeLang.Proofs.Eval.Runs
import PipeLang.Proofs.Load.TopLevel
import PipeLang.Proofs.Resolve.Definitions

/-!
# Values of exported definitions

An exported definition is given its value by the statement at the top level that introduces it, and by no other. While tasks are
evaluated that fit, more exported definitions get values only of modules that are begun on the way, and each of them once:
`Task.run_gave`. A value that has been given is not replaced.
-/

namespace PipeLang

open Eval

/-- A statement introduces a definition of a module that others can see under a name. -/
def Statement.Exposes (p : Program) (id : ModuleId) (name : String) : Statement → Prop
  | .define _ ident _ _ => ∃ t b, p.resolvedOf id = some t ∧ t.declarations.get? ident.span = some b ∧
    t.scopes.target b = .item id name
  | _ => False

namespace Machine

/-- The exported definitions of a module that have been given values, the latest first. -/
def given (m : Machine) (id : ModuleId) : List String :=
  (m.items.filter fun entry => entry.1.1 == id).map fun entry => entry.1.2

/-- Values are kept, and more have been given only in modules that have been begun since, to each definition one. -/
structure Gives (m m' : Machine) : Prop where
  states : m'.Remembers m
  items : m.items <:+ m'.items
  modules : ∀ id, m'.given id = m.given id ∨ m.past id = [] ∧ m'.past id ≠ [] ∧ (m.given id = [] → (m'.given id).Nodup)

/-- Values are kept, more have been given in modules that have been begun since, and in one module by some of its statements. -/
structure GivesFor (p : Program) (id : ModuleId) (ss : List Statement) (m m' : Machine) : Prop where
  states : m'.Remembers m
  items : m.items <:+ m'.items
  others : ∀ other, other ≠ id → m'.given other = m.given other ∨
    m.past other = [] ∧ m'.past other ≠ [] ∧ (m.given other = [] → (m'.given other).Nodup)
  own : ∃ names, m'.given id = names ++ m.given id ∧ names.Nodup ∧ ∀ name ∈ names, ∃ s ∈ ss, s.Exposes p id name

/-- No exported definition has been given a value twice, or before its module was begun. -/
structure GivenOnce (m : Machine) : Prop where
  fresh : ∀ id, m.past id = [] → m.given id = []
  once : ∀ id, (m.given id).Nodup

variable {p : Program} {m m' m'' : Machine} {id id' : ModuleId} {ss ss' : List Statement}

lemma given_of_items (same : m'.items = m.items) : m'.given = m.given := by
  funext id
  rw [given, given, same]

lemma given_cons {name : String} {v : Value} (added : m'.items = ((id, name), v) :: m.items) :
    m'.given id' = if id = id' then name :: m.given id' else m.given id' := by
  unfold given
  rw [added, List.filter_cons]
  by_cases here : id = id' <;> simp [here]

namespace Gives

lemma of_still (h : m.Still m') : m.Gives m' where
  states := .of_eq h.states
  items := h.items ▸ List.suffix_rfl
  modules id := Or.inl (congrFun (given_of_items h.items) id)

lemma refl : m.Gives m :=
  of_still .refl

lemma trans (h : m.Gives m') (h' : m'.Gives m'') : m.Gives m'' where
  states := h'.states.trans h.states
  items := h.items.trans h'.items
  modules id := by
    rcases h'.modules id with same | ⟨fresh', begun', once'⟩
    · rcases h.modules id with same' | ⟨fresh, begun, once⟩
      · exact Or.inl (same.trans same')
      · exact Or.inr ⟨fresh, h'.states.begun begun, same ▸ once⟩
    · rcases h.modules id with same' | ⟨fresh, begun, once⟩
      · exact Or.inr ⟨h.states.fresh fresh', begun', same' ▸ once'⟩
      · exact absurd fresh' begun

end Gives

/-- That stays so while values are given. -/
lemma GivenOnce.later (h : m.GivenOnce) (gives : m.Gives m') : m'.GivenOnce where
  fresh id unknown := by
    rcases gives.modules id with same | ⟨-, begun, -⟩
    · exact same.trans (h.fresh id (gives.states.fresh unknown))
    · exact absurd unknown begun
  once id := by
    rcases gives.modules id with same | ⟨fresh, -, once⟩
    · exact same ▸ h.once id
    · exact once (h.fresh id fresh)

/-- The definitions that have been given values are different from each other. -/
lemma GivenOnce.nodup (h : m.GivenOnce) : (m.items.map Prod.fst).Nodup := by
  have once (id : ModuleId) : ((m.items.filter fun entry => entry.1.1 == id).map fun entry => entry.1.2).Nodup := h.once id
  clear h
  generalize m.items = given at once ⊢
  induction given with
  | nil => exact List.nodup_nil
  | cons entry items ih =>
    have among (id : ModuleId) : ((items.filter fun entry => entry.1.1 == id).map fun entry => entry.1.2).Nodup :=
      (once id).sublist ((List.sublist_cons_self _ _).filter _ |>.map _)
    refine List.nodup_cons.2 ⟨fun member => ?_, ih among⟩
    obtain ⟨other, inside, same⟩ := List.mem_map.1 member
    have twice := once entry.1.1
    rw [List.filter_cons, if_pos (by simp), List.map_cons, List.nodup_cons] at twice
    refine twice.1 (List.mem_map.2 ⟨other, List.mem_filter.2 ⟨inside, ?_⟩, ?_⟩)
    · rw [same]
      exact beq_self_eq_true _
    · rw [same]

namespace GivesFor

lemma nil : m.GivesFor p id [] m where
  states := .refl
  items := List.suffix_rfl
  others _ _ := Or.inl rfl
  own := ⟨[], rfl, List.nodup_nil, nofun⟩

/-- Statements behind others give values to other definitions. -/
lemma append (h : m.GivesFor p id ss m') (h' : m'.GivesFor p id ss' m'')
    (apart : ∀ s ∈ ss, ∀ s' ∈ ss', ∀ name, s.Exposes p id name → ¬ s'.Exposes p id name) : m.GivesFor p id (ss ++ ss') m'' where
  states := h'.states.trans h.states
  items := h.items.trans h'.items
  others other apart' := by
    rcases h'.others other apart' with same | ⟨fresh', begun', once'⟩
    · rcases h.others other apart' with same' | ⟨fresh, begun, once⟩
      · exact Or.inl (same.trans same')
      · exact Or.inr ⟨fresh, h'.states.begun begun, same ▸ once⟩
    · rcases h.others other apart' with same' | ⟨fresh, begun, once⟩
      · exact Or.inr ⟨h.states.fresh fresh', begun', same' ▸ once'⟩
      · exact absurd fresh' begun
  own := by
    obtain ⟨names, first, distinct, from_⟩ := h.own
    obtain ⟨names', second, distinct', from_'⟩ := h'.own
    refine ⟨names' ++ names, by rw [second, first, List.append_assoc], ?_, ?_⟩
    · refine List.nodup_append.2 ⟨distinct', distinct, fun name member name' member' same => ?_⟩
      obtain ⟨s', inside', exposes'⟩ := from_' name member
      obtain ⟨s, inside, exposes⟩ := from_ name' member'
      exact apart s inside s' inside' name' exposes (same ▸ exposes')
    · intro name member
      rcases List.mem_append.1 member with late | early
      · obtain ⟨s, inside, exposes⟩ := from_' name late
        exact ⟨s, List.mem_append_right _ inside, exposes⟩
      · obtain ⟨s, inside, exposes⟩ := from_ name early
        exact ⟨s, List.mem_append_left _ inside, exposes⟩

end GivesFor

end Machine

/-- What has been given values while a task was evaluated: definitions of modules that have been begun on the way, and behind
them the definition that the task introduces. -/
inductive Task.Gave (p : Program) : Task → Machine → Machine → Prop where
  | others {task m m'} :
    m.Gives m' →
    Gave p task m m'
  | own {c s name v m m'} :
    s.Exposes p c.module name →
    m.Gives m' →
    Gave p (.statement c s) m { m' with items := ((c.module, name), v) :: m'.items }


variable {p : Program} {run : Task → Eval Value} {m m' : Machine} {task : Task} {labels : Labels}

/-- Different statements at the top level of a module introduce different definitions. -/
lemma Program.OnePlace.apart (onePlace : p.OnePlace) (parsed : p.Parsed) {id : ModuleId} {l : LoadedModule} {ast : Module}
    (found : p.modules[(id : Nat)]? = some l) (usable : l.isUsable = true) (syntax_ : l.ast = some ast) :
    ast.statements.Pairwise fun s s' => ∀ name, s.Exposes p id name → ¬ s'.Exposes p id name := by
  obtain ⟨source, parses⟩ := parsed found usable syntax_
  refine (Module.parse_behind parses).imp fun {s s'} behind name exposes exposes' => ?_
  cases s with
  | define exported ident value span =>
    cases s' with
    | define exported' ident' value' span' =>
      obtain ⟨t, b, known, declared, target⟩ := exposes
      obtain ⟨t', b', known', declared', target'⟩ := exposes'
      cases known.symm.trans known'
      exact behind.name_ne ((onePlace ⟨l, found, usable⟩ known).once declared target declared' target')
    | importing i => exact exposes'.elim
    | expr e span => exact exposes'.elim
  | importing i => exact exposes.elim
  | expr e span => exact exposes.elim

/-- A task that introduces nothing that others can see. -/
lemma Task.Inert.gives (inert : task.Inert p) (gave : task.Gave p m m') : m.Gives m' := by
  cases gave with
  | others gives => exact gives
  | @own c s name v m m' exposes gives =>
    cases s with
    | define exported ident value span =>
      obtain ⟨t, b, known, declared, target⟩ := exposes
      exact absurd target (inert t b known declared _ _)
    | importing i => exact exposes.elim
    | expr e span => exact exposes.elim

/-- A statement of a module that has been begun gives a value to what it introduces, and to nothing else of the module. -/
lemma Task.Gave.statement {c : Context} {s : Statement} (gave : (Task.statement c s).Gave p m m')
    (begun : m.past c.module ≠ []) : m.GivesFor p c.module [s] m' := by
  have others {m' : Machine} (gives : m.Gives m') : m'.given c.module = m.given c.module :=
    (gives.modules c.module).resolve_right fun ⟨fresh, _⟩ => begun fresh
  cases gave with
  | others gives =>
    exact ⟨gives.states, gives.items, fun other _ => gives.modules other, [], others gives, List.nodup_nil, nofun⟩
  | @own _ _ name v _ m' exposes gives =>
    refine ⟨gives.states, gives.items.trans (List.suffix_cons _ _), fun other apart => ?_, [name], ?_, ?_, ?_⟩
    · rw [Machine.given_cons rfl, if_neg apart.symm]
      exact gives.modules other
    · rw [Machine.given_cons rfl, if_pos rfl, others gives, List.singleton_append]
    · exact List.nodup_singleton name
    · exact List.forall_mem_singleton.2 ⟨s, List.mem_singleton_self s, exposes⟩

namespace Eval

section

variable (gave : ∀ task m, Task.Gave p task m (left (run task m)))
include gave

/-- The statements of a module that has been begun give values to what they introduce. -/
lemma moduleStatements_gives {id : ModuleId} {frame : FrameId} {last : Value} {ss : List Statement}
    (begun : m.past id ≠ [])
    (apart : ss.Pairwise fun s s' => ∀ name, s.Exposes p id name → ¬ s'.Exposes p id name) :
    m.GivesFor p id ss (left (moduleStatements run ⟨id, frame⟩ last ss m)) := by
  induction ss generalizing m last with
  | nil => exact .nil
  | cons s ss ih =>
    obtain ⟨first, others⟩ := List.pairwise_cons.1 apart
    have head := (gave (.statement ⟨id, frame⟩ s) m).statement begun
    have apart' : ∀ s₁ ∈ [s], ∀ s' ∈ ss, ∀ name, s₁.Exposes p id name → ¬ s'.Exposes p id name :=
      List.forall_mem_singleton.2 first
    show m.GivesFor p id ([s] ++ ss)
      (left ((run (.statement ⟨id, frame⟩ s) >>= fun v => moduleStatements run ⟨id, frame⟩ v ss) m))
    cases ran : run (.statement ⟨id, frame⟩ s) m with
    | ok v m₁ =>
      rw [bind_eq ran]
      rw [ran] at head
      exact head.append (ih (head.states.begun begun) others) apart'
    | error stop m₁ =>
      rw [bind_stop ran]
      rw [ran] at head
      obtain ⟨names, own, distinct, from_⟩ := head.own
      refine { head with own := ⟨names, own, distinct, fun name member => ?_⟩ }
      obtain ⟨s', inside, exposes⟩ := from_ name member
      exact ⟨s', List.mem_append_left _ inside, exposes⟩

omit gave in
/-- The end of a module gives no values to definitions. -/
lemma closing_items (id : ModuleId) (loaded : LoadedModule) (result : EStateM.Result Stop Machine Value) :
    (left (closing id loaded result)).items = (left result).items := by
  cases result with
  | ok v m => rfl
  | error stop m => cases stop <;> rfl

/-- A module gives values to its own definitions, each once, and leaves that to others for theirs. -/
lemma module_gives {id : ModuleId}
    (apart : ∀ {loaded ast}, p.modules[(id : Nat)]? = some loaded → loaded.isUsable = true → loaded.ast = some ast →
      ast.statements.Pairwise fun s s' => ∀ name, s.Exposes p id name → ¬ s'.Exposes p id name) :
    m.Gives (left (step p run (.module id) m)) := by
  obtain ⟨result, same, -, stays⟩ | ⟨fresh, loaded, ast, found, usable, parsed, runs⟩ := step_module p id m
  · rw [stays, same]
    exact .refl
  · have running : (begun id m).past id ≠ [] := by simp [Machine.begun_past fresh]
    have opened : (begun id m).Remembers m := .cons rfl
    have loop : (begun id m).GivesFor p id ast.statements
        (left (moduleStatements run ⟨id, m.heap.size⟩ .unit ast.statements (begun id m))) :=
      moduleStatements_gives gave running (apart found usable parsed)
    rw [runs]
    generalize moduleStatements run ⟨id, m.heap.size⟩ .unit ast.statements (begun id m) = result at loop
    have items := closing_items id loaded result
    have states := closing_remembers id loaded result
    refine ⟨states.trans (loop.states.trans opened), items ▸ loop.items, fun other => ?_⟩
    rw [Machine.given_of_items items]
    by_cases here : other = id
    · subst here
      obtain ⟨names, own, distinct, -⟩ := loop.own
      refine Or.inr ⟨fresh, states.begun (loop.states.begun running), fun none => ?_⟩
      have none' : (begun other m).given other = [] := none
      rw [own, none', List.append_nil]
      exact distinct
    · rcases loop.others other here with same | ⟨fresh', begun', once⟩
      · exact Or.inl same
      · exact Or.inr ⟨opened.fresh fresh', states.begun begun', once⟩

/-- A script that introduces nothing that others can see. -/
lemma Script.gives {α : Type} {x : (Task → Eval Value) → Eval α} (script : Script Machine.Still (Task.Inert p) x)
    (m : Machine) : m.Gives (left (x run m)) :=
  script.leads .trans (fun _ _ still => .of_still still) (fun task inert m => inert.gives (gave task m)) m

/-- A definition gives a value to nothing behind what its own value does, unless others can see it. -/
lemma define_gave {c : Context} {exported : Bool} {ident : Ident} {value : Expr} {span : Span}
    (own : ∀ {t b i name}, p.resolvedOf c.module = some t → t.declarations.get? ident.span = some b →
      t.scopes.target b = .item i name → i = c.module) :
    (Task.statement c (.define exported ident value span)).Gave p m
      (left (step p run (.statement c (.define exported ident value span)) m)) := by
  have first : m.Gives (left (definedValue run c ident value m)) := (definedValue_script Task.Inert.of_plain).gives gave m
  show Task.Gave p _ m (left (statement p run c (.define exported ident value span) m))
  rw [statement_define]
  cases ran : definedValue run c ident value m with
  | error stop m₁ =>
    rw [bind_stop ran]
    rw [ran] at first
    exact .others first
  | ok v m₁ =>
    rw [bind_eq ran, left_discard]
    rw [ran] at first
    obtain still | ⟨t, b, i, item, known, declared, target, bound⟩ := bindDefinition_cases p c ident v m₁
    · exact .others (first.trans (.of_still still))
    · obtain rfl := own known declared target
      rw [bound]
      exact .own ⟨t, b, known, declared, target⟩ first

/-- What a step gives values to, of a task that fits on a sound machine. -/
lemma step_gave (onePlace : p.OnePlace) (parsed : p.Parsed) (fits : task.Fits p labels) (sound : m.Sound p labels) :
    task.Gave p m (left (step p run task m)) := by
  have plain (nested : ∀ id, task ≠ .module id) (inert : task.Inert p)
      (statements : ∀ c b incoming, task = .block c b incoming → ∀ s ∈ b.statements, ∀ f,
        (Task.statement ⟨c.module, f⟩ s).Inert p) : task.Gave p m (left (step p run task m)) :=
    .others ((step_script Task.Inert.of_plain nested inert statements).gives gave m)
  cases fits with
  | module usable => exact .others (module_gives gave fun found usable syntax_ => onePlace.apart parsed found usable syntax_)
  | @block c t scope b incoming stands settled fit =>
    refine plain nofun trivial fun c' b' incoming' same s member f => ?_
    cases same
    cases settled with
    | mk opens tail settled =>
      -- the scope of a block is not that of the module
      have inner := sound.heap.inner_ne_root stands.resolved stands.label opens
      cases s with
      | define exported ident value span =>
        intro t' id known declared i item target
        cases stands.resolved.symm.trans known
        obtain ⟨receives, settled⟩ := settled.of_mem member
        cases settled with
        | define value declares =>
          exact inner ((onePlace stands.usable stands.resolved).top declared target (declares trivial))
      | importing i => trivial
      | expr e span => trivial
  | @statement c t scope s stands settled =>
    cases s with
    | define exported ident value span =>
      exact define_gave gave fun known declared target => (onePlace stands.usable known).own declared target
    | importing i => exact plain nofun trivial nofun
    | expr e span => exact plain nofun trivial nofun
  | _ => exact plain nofun trivial nofun

end

/-- An evaluation agrees with one that stops wherever a task does not fit. -/
lemma Agree.restricted {base : Labels} (agree : Agree p base run run) : ∃ run', Agree p base run run' ∧ ∀ task m,
    run' task m = .error .outOfFuel m ∨
      ∃ labels, m.Sound p labels ∧ task.Fits p labels ∧ run' task m = run task m := by
  classical
  let fine (task : Task) (m : Machine) : Prop := ∃ labels, base <+: labels ∧ m.Sound p labels ∧ task.Fits p labels
  refine ⟨fun task m => if fine task m then run task m else .error .outOfFuel m, ?_, fun task m => ?_⟩
  · intro labels task fits since m sound
    have here : fine task m := ⟨labels, since, sound, fits⟩
    exact ⟨(if_pos here).symm, (agree fits since m sound).2⟩
  · by_cases here : fine task m
    · obtain ⟨labels, -, sound, fits⟩ := id here
      exact Or.inr ⟨labels, sound, fits, if_pos here⟩
    · exact Or.inl (if_neg here)

end Eval

/-- What is given values while a task is evaluated that fits on a sound machine, at every depth of nested evaluation. -/
theorem Task.run_gave (rest : p.AtRest) (honest : p.hosts.Honest) (onePlace : p.OnePlace) (parsed : p.Parsed) (fuel : Nat)
    (fits : task.Fits p labels) (sound : m.Sound p labels) : task.Gave p m (left (Task.run p fuel task m)) := by
  induction fuel generalizing task m labels with
  | zero => exact .others .refl
  | succ fuel ih =>
    -- the step asks for nothing that does not fit
    have agrees : Agree p labels (Task.run p fuel) (Task.run p fuel) := Task.run_keeps rest honest fuel
    obtain ⟨run', agree, stops⟩ := Agree.restricted agrees
    have same : step p (Task.run p fuel) task m = step p run' task m :=
      (step_keeps rest honest agree (Task.run_growing fuel) fits List.prefix_rfl m sound).1
    have gave (task : Task) (m : Machine) : task.Gave p m (left (run' task m)) := by
      obtain stop | ⟨labels', sound', fits', same'⟩ := stops task m
      · rw [stop]
        exact .others .refl
      · rw [same']
        exact ih fits' sound'
    show task.Gave p m (left (step p (Task.run p fuel) task m))
    rw [same]
    exact step_gave gave onePlace parsed fits sound

end PipeLang
