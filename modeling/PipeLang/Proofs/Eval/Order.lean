import PipeLang.Proofs.Eval.Calm
import PipeLang.Proofs.Eval.Runs
import PipeLang.Proofs.Load.Course

/-!
# Evaluation follows loading

Running a module goes the way that loading it went: it comes to the statements in the same order, and to the modules that
they import at the same points. A machine `Covers` a program when it has come as far as the program was when it was
loaded; `step_tracks` says that it stays so, statement by statement and module by module.
-/

namespace PipeLang

/-- A machine has come as far as a program: the modules of the program have been begun, and what is defined has a value. -/
structure Machine.Covers (P : Program) (m : Machine) (q : Program) : Prop where
  ready : m.Ready P
  begun : ∀ {i : ModuleId}, (m.states.lookup i).isSome ↔ (i : Nat) < q.modules.size
  items : ∀ {id name}, q.Defines id name → (m.items.lookup (id, name)).isSome

/-- The modules of a program can be used, and import at their top level only. -/
structure Program.Flat (p : Program) : Prop where
  usable : ∀ {i : Nat} {m}, p.modules[i]? = some m → m.isUsable = true
  imports : ∀ {i : Nat} {m ast}, p.modules[i]? = some m → m.ast = some ast → ∀ s ∈ ast.statements, ∀ i,
    .importing i ∈ s.mentions → s = .importing i

/-- Whether a statement is an import, or has none inside. -/
def Statement.isFlat : Statement → Bool
  | .importing _ => true
  | s => s.mentions.all fun
    | .importing _ => false
    | .use _ => true

lemma Statement.isFlat_iff {s : Statement} : s.isFlat = true ↔ ∀ i, .importing i ∈ s.mentions → s = .importing i := by
  have inner (plain : ∀ i, s ≠ .importing i) : (s.mentions.all fun
      | .importing _ => false
      | .use _ => true) = true ↔ ∀ i, .importing i ∈ s.mentions → s = .importing i := by
    rw [List.all_eq_true]
    constructor
    · intro uses i member
      cases uses _ member
    · rintro imports (site | i) member
      · rfl
      · exact absurd (imports i member) (plain i)
  cases s with
  | importing i => simp [isFlat, mentions]
  | define exported name value span => exact inner nofun
  | expr e span => exact inner nofun

/-- Whether the modules of a program can be used, and import at their top level only. -/
def Program.isFlat (p : Program) : Bool :=
  p.modules.all fun m => m.isUsable && m.ast.all fun ast => ast.statements.all Statement.isFlat

lemma Program.flat_iff {p : Program} : p.Flat ↔ p.isFlat = true := by
  simp only [isFlat, Array.all_eq_true_iff_forall_mem, Bool.and_eq_true, Option.all_eq_true, List.all_eq_true,
    Statement.isFlat_iff]
  constructor
  · intro flat m member
    obtain ⟨i, found⟩ := Array.mem_iff_getElem?.1 member
    exact ⟨flat.usable found, fun ast parsed => flat.imports found parsed⟩
  · intro all
    exact ⟨fun found => (all _ (Array.mem_of_getElem? found)).1, fun found => (all _ (Array.mem_of_getElem? found)).2 _⟩

instance (p : Program) : Decidable p.Flat :=
  decidable_of_iff _ Program.flat_iff.symm

/-- A task that is a part of a load that is run again: the next statement of a module, or a module that is opened. It leads
from what has been loaded before it to what has been loaded behind it. -/
inductive Task.Follows (p₀ : Program) (raw₀ : String) (m : Machine) : Task → Program → Prop where
  | statement {depth pending p raw a s rest c} :
    p₀.Loading raw₀ (depth + 1) pending p raw →
    p.Opens raw depth a →
    a.rest = s :: rest →
    c.module = a.home →
    m.Covers (p₀.load raw₀).2 a.resolution.program →
    Follows p₀ raw₀ m (.statement c s) (a.past s rest).resolution.program
  | module {depth pending p raw a} :
    p₀.Loading raw₀ (depth + 1) pending p raw →
    p.Opens raw depth a →
    a.done = [] →
    m.Covers (p₀.load raw₀).2 p →
    Follows p₀ raw₀ m (.module a.home) (Program.loader (depth + 1) p raw).2

namespace Machine

variable {m m' : Machine} {id : ModuleId} {state : RunState}

lemma lookup_state {i : ModuleId} : ((id, state) :: m.states).lookup i = if i = id then some state else m.states.lookup i := by
  by_cases here : i = id
  · simp [here]
  · simp [List.lookup_cons, beq_false_of_ne here, here]

/-- A machine on which one more module has come further. -/
lemma Later.of_state (states : m'.states = (id, state) :: m.states) (items : m'.items = m.items) : m.Later m' where
  begun {i} known := by
    rw [states, lookup_state]
    split
    · rfl
    · exact known
  items known := items ▸ known

end Machine

namespace Machine.Covers

variable {P q q' : Program} {m m' : Machine}

/-- A machine has what stands for something. -/
lemma has (h : m.Covers P q) {t : Scopes} {target : Target} {ty : Ty} (stands : q.Stands t target ty) : m.Has target := by
  cases stands with
  | inner found self => trivial
  | host known => trivial
  | module inside => exact h.begun.2 inside
  | item owns same => exact h.items owns.defines

/-- On a machine on which no more modules have been begun, at least as much has come. -/
lemma stay (h : m.Covers P q) (states : m'.states = m.states) (later : m.Later m') (ready : m'.Ready P) : m'.Covers P q where
  ready := ready
  begun := states ▸ h.begun
  items defines := later.items (h.items defines)

/-- What a program has more that is no module does not count but for what it defines. -/
lemma more (h : m.Covers P q) (size : q'.modules.size = q.modules.size)
    (items : ∀ {id name}, q'.Defines id name → q.Defines id name ∨ (m.items.lookup (id, name)).isSome) :
    m.Covers P q' where
  ready := h.ready
  begun := h.begun.trans (by rw [size])
  items defines := (items defines).elim h.items id

variable {p : Program} {raw : String} {depth : Nat} {a : Pending}

/-- A module that is opened is begun. -/
lemma begin (h : m.Covers P p) (opens : p.Opens raw depth a) (first : a.done = []) :
    (Eval.begun a.home m).Covers P a.resolution.program := by
  obtain ⟨size, defines⟩ := opens.begins first
  have pushed : { m with heap := m.heap.push none : Machine }.Ready P := h.ready.push
  refine ⟨pushed.later (.of_state rfl rfl) pushed.values pushed.items rfl, fun {i} => ?_, fun known => h.items (defines known)⟩
  rw [Eval.begun, lookup_state, size]
  split
  · next here => simp [here, opens.home]
  · next other =>
    rw [h.begun]
    refine ⟨Nat.lt_succ_of_lt, fun inside => ?_⟩
    exact (Nat.lt_succ_iff_lt_or_eq.1 inside).resolve_right fun same => other (same.trans opens.home.symm)

/-- A module whose statements are done is done. -/
lemma finish (h : m.Covers P a.resolution.program) (canonical : p.Canonical) (opens : p.Opens raw depth a)
    (last : a.rest = []) :
    { m with states := (a.home, .done) :: m.states : Machine }.Covers P (Program.loader (depth + 1) p raw).2 := by
  obtain ⟨size, defines⟩ := opens.ends canonical last
  obtain ⟨l, found, -⟩ := opens.shown
  have later : m.Later { m with states := (a.home, .done) :: m.states } := .of_state rfl rfl
  refine ⟨h.ready.later later h.ready.values h.ready.items rfl, fun {i} => ?_, fun known => h.items (defines known)⟩
  rw [lookup_state, size]
  split
  · next here =>
    subst here
    simp [(Array.getElem?_eq_some_iff.1 found).1]
  · exact h.begun

end Machine.Covers

namespace Eval

variable {α β : Type}

/-- Two computations do the same on a machine, and when they go through, something holds of the machine and the result. -/
def Goes (m : Machine) (x x' : Eval α) (Q : Machine → α → Prop) : Prop :=
  x m = x' m ∧ ∀ a m', x m = .ok a m' → Q m' a

namespace Goes

variable {m : Machine} {x x' : Eval α} {Q : Machine → α → Prop}

lemma pure {a : α} (h : Q m a) : Goes m (Pure.pure a) (Pure.pure a) Q := by
  refine ⟨rfl, fun b m' same => ?_⟩
  cases same
  exact h

lemma bind {R : Machine → β → Prop} {f f' : α → Eval β} (first : Goes m x x' Q)
    (next : ∀ m' a, Q m' a → Goes m' (f a) (f' a) R) : Goes m (x >>= f) (x' >>= f') R := by
  obtain ⟨same, leads⟩ := first
  show EStateM.bind x f m = EStateM.bind x' f' m ∧ ∀ b m', EStateM.bind x f m = .ok b m' → R m' b
  simp only [EStateM.bind, ← same]
  cases h : x m with
  | ok a m' => exact next m' a (leads a m' h)
  | error stop m' => exact ⟨rfl, nofun⟩

lemma imp {R : Machine → α → Prop} (h : Goes m x x' Q) (weaker : ∀ m' a, Q m' a → R m' a) : Goes m x x' R :=
  ⟨h.1, fun a m' same => weaker m' a (h.2 a m' same)⟩

/-- A change of the machine. -/
lemma change {f : Machine → Machine} {Q : Machine → Unit → Prop} (h : Q (f m) ()) :
    Goes m (modify f : Eval Unit) (modify f) Q := by
  refine ⟨rfl, fun _ m' same => ?_⟩
  cases same
  exact h

/-- A calm computation begins no modules. -/
lemma of_calm {P : Program} (calm : Calm P m x x' Q) :
    Goes m x x' fun m' a => m'.states = m.states ∧ m.Later m' ∧ m'.Ready P ∧ Q m' a := by
  obtain ⟨same, stays⟩ := calm
  refine ⟨same, fun a m' e => ?_⟩
  rw [e] at stays
  exact stays

end Goes

/-- Two evaluations of tasks do the same when a load is run again, and come as far as the load. -/
def Tracks (p₀ : Program) (raw₀ : String) (run run' : Task → Eval Value) : Prop :=
  ∀ {m task q}, Task.Follows p₀ raw₀ m task q → Goes m (run task) (run' task) fun m' v =>
    v.Ready (p₀.load raw₀).2 m' ∧ m'.Covers (p₀.load raw₀).2 q

variable {p₀ p : Program} {raw₀ raw : String} {depth : Nat} {pending : List Pending} {a : Pending} {m : Machine}
  {run run' : Task → Eval Value} {c : Context} {s : Statement} {rest : List Statement}

/-- What is known of a module that is opened in a load that goes well. -/
structure Opened (P : Program) (a : Pending) : Prop where
  resolved : P.resolvedOf a.home = some a.finished.resolved
  faults : a.finished.faults = []
  imports : ∀ s ∈ a.ast.statements, ∀ i, .importing i ∈ s.mentions → s = .importing i

lemma opened (flat : (p₀.load raw₀).2.Flat) (loading : p₀.Loading raw₀ (depth + 1) pending p raw)
    (opens : p.Opens raw depth a) : Opened (p₀.load raw₀).2 a := by
  obtain ⟨l, found, ast, resolved, faults⟩ := loading.opened opens
  obtain ⟨-, clean⟩ := LoadedModule.isUsable_iff.1 (flat.usable found)
  exact ⟨Option.bind_eq_some_iff.2 ⟨l, found, resolved⟩, List.subset_nil.1 (clean ▸ faults), flat.imports found ast⟩

/-- What the next statement mentions there is. -/
lemma Opened.provides {P : Program} (h : Opened P a) (canonical : p.Canonical) (opens : p.Opens raw depth a)
    (next : a.rest = s :: rest) (plain : ∀ i, .importing i ∉ s.mentions) (here : c.module = a.home)
    (covers : m.Covers P a.resolution.program) : m.Provides P c.module s.mentions where
  uses member resolved found := by
    rw [here, h.resolved, Option.some.injEq] at resolved
    subst resolved
    obtain ⟨t, stands⟩ := opens.stands canonical h.faults next plain member found
    exact covers.has stands
  imports := plain

/-- A statement that imports nothing does the same, and what it defines has a value behind it. -/
lemma plain_goes {P : Program} (opened : Opened P a) (canonical : p.Canonical) (accord : Accord P run run')
    (opens : p.Opens raw depth a) (next : a.rest = s :: rest) (plain : ∀ i, .importing i ∉ s.mentions)
    (here : c.module = a.home) (covers : m.Covers P a.resolution.program) :
    Goes m (statement P run c s) (statement P run' c s) fun m' v =>
      v.Ready P m' ∧ m'.Covers P (a.past s rest).resolution.program := by
  have provides := opened.provides canonical opens next plain here covers
  -- what is defined by the statement has a value
  have behind {m' : Machine} (states : m'.states = m.states) (later : m.Later m') (ready : m'.Ready P)
      (declared : ∀ id item, Resolve.Declares a.finished s id item → (m'.items.lookup (id, item)).isSome) :
      m'.Covers P (a.past s rest).resolution.program :=
    (covers.stay states later ready).more (opens.adds canonical plain) fun defines =>
      (opens.defines canonical next plain defines).imp_right (declared _ _)
  cases s with
  | importing i => exact absurd List.mem_cons_self (plain i)
  | expr e span =>
    refine (Goes.of_calm (accord covers.ready (plain_ready provides))).imp fun m' v calm => ?_
    obtain ⟨states, later, ready, value⟩ := calm
    refine ⟨value, behind states later ready ?_⟩
    rintro id item ⟨_, _, _, _, same, -⟩
    cases same
  | define exported name value span =>
    have calm : Calm P m (statement P run c (.define exported name value span))
        (statement P run' c (.define exported name value span)) fun m' v => v.Ready P m' ∧
          ∀ id item, Resolve.Declares a.finished (.define exported name value span) id item →
            (m'.items.lookup (id, item)).isSome := by
      rw [statement_define, statement_define]
      refine (definedValue_calm accord covers.ready provides).bind fun m₁ v _ ready value => ?_
      refine (bindDefinition_calm ready value).bind fun m₂ _ _ ready given => .pure ready ⟨Value.holds_unit, ?_⟩
      rintro id item ⟨_, _, _, _, same, b, binding, declared, bound, target⟩
      cases same
      refine given _ b id item (here ▸ opened.resolved) declared ?_
      simp only [Resolution.resolved, Scopes.target, bound, target]
    refine (Goes.of_calm calm).imp fun m' v calm => ?_
    obtain ⟨states, later, ready, value, declared⟩ := calm
    exact ⟨value, behind states later ready declared⟩

/-- A statement does the same as when it was loaded, and comes as far. -/
lemma statement_goes (flat : (p₀.load raw₀).2.Flat) (canonical : p₀.Canonical) (accord : Accord (p₀.load raw₀).2 run run')
    (tracks : Tracks p₀ raw₀ run run') (loading : p₀.Loading raw₀ (depth + 1) pending p raw) (opens : p.Opens raw depth a)
    (next : a.rest = s :: rest) (here : c.module = a.home) (covers : m.Covers (p₀.load raw₀).2 a.resolution.program) :
    Goes m (statement (p₀.load raw₀).2 run c s) (statement (p₀.load raw₀).2 run' c s) fun m' v =>
      v.Ready (p₀.load raw₀).2 m' ∧ m'.Covers (p₀.load raw₀).2 (a.past s rest).resolution.program := by
  have canonical : p.Canonical := canonical.loading loading
  have opened := opened flat loading opens
  have member : s ∈ a.ast.statements := by
    rw [opens.statements, next]
    simp
  by_cases plain : ∀ i, .importing i ∉ s.mentions
  · exact plain_goes opened canonical accord opens next plain here covers
  · simp only [not_forall, not_not] at plain
    obtain ⟨i, mentioned⟩ := plain
    obtain rfl := opened.imports s member i mentioned
    obtain ⟨target, answer, recorded, usable, -, size, defines⟩ := opens.imports canonical opened.faults next
    have resolved : (p₀.load raw₀).2.resolvedOf c.module = some a.finished.resolved := here ▸ opened.resolved
    have recorded : a.finished.resolved.imports.get? i.span = some target := recorded
    simp only [statement, resolvedOf_eq resolved, pure_bind, recorded]
    have imports : Goes m (run (.module target)) (run' (.module target)) fun m' v =>
        v.Ready (p₀.load raw₀).2 m' ∧
          m'.Covers (p₀.load raw₀).2 (Program.loader depth a.resolution.program i.path).2 := by
      rcases Program.loader_opens answer usable with ⟨inside, same⟩ | ⟨inner, b, rfl, opens', first, rfl⟩
      · have calm := accord covers.ready (.module (covers.begun.2 inside))
        refine (Goes.of_calm calm).imp fun m' v calm => ?_
        obtain ⟨states, later, ready, value⟩ := calm
        rw [same]
        exact ⟨value, covers.stay states later ready⟩
      · exact tracks (.module (loading.nested opens next (i.asks _ _)) opens' first covers)
    refine imports.bind fun m' v imported => .pure ⟨Value.holds_unit, ?_⟩
    exact imported.2.more size fun known => Or.inl (defines known)

/-- The statements of a module do the same as when they were loaded, one after another. -/
lemma moduleStatements_goes {last : Value} (tracks : Tracks p₀ raw₀ run run')
    (loading : p₀.Loading raw₀ (depth + 1) pending p raw) (opens : p.Opens raw depth a) (here : c.module = a.home)
    (covers : m.Covers (p₀.load raw₀).2 a.resolution.program) (value : last.Ready (p₀.load raw₀).2 m) :
    Goes m (moduleStatements run c last a.rest) (moduleStatements run' c last a.rest) fun m' v =>
      v.Ready (p₀.load raw₀).2 m' ∧ ∃ b, p.Opens raw depth b ∧ b.rest = [] ∧ b.home = a.home ∧
        m'.Covers (p₀.load raw₀).2 b.resolution.program := by
  generalize behind : a.rest = ss
  induction ss generalizing a m last with
  | nil => exact .pure ⟨value, a, opens, behind, rfl, covers⟩
  | cons s ss ih =>
    refine (tracks (.statement loading opens behind here covers)).bind fun m' v ⟨value, covers⟩ => ?_
    exact ih (a := a.past s ss) (opens.past behind) here covers value rfl

lemma guarded_goes {id : ModuleId} {x x' : Eval Value} {Q : Machine → Value → Prop} (body : Goes m x x' Q) :
    Goes m (guarded id x) (guarded id x') Q := by
  obtain ⟨same, leads⟩ := body
  refine ⟨by rw [guarded_eq, guarded_eq, same], fun v m' e => ?_⟩
  rw [guarded_eq] at e
  cases h : x m with
  | ok w m'' =>
    rw [h] at e
    cases e
    exact leads v m' h
  | error stop m'' =>
    rw [h] at e
    cases stop <;> cases e

/-- A module that has not been begun begins. -/
lemma ensureModule_begins {id : ModuleId} {l : LoadedModule} {ast : Module} (found : p.modules[(id : Nat)]? = some l)
    (parsed : l.ast = some ast) (usable : l.isUsable = true) (fresh : m.states.lookup id = none) :
    ensureModule p run id m = runBegun run id l ast m.heap.size (begun id m) := by
  have asked : (get : Eval Machine) m = .ok m m := rfl
  rw [ensureModule, bind_eq asked, fresh]
  simp only [module_eq found, parsed, usable, pure_bind, if_true]
  rfl

/-- A module does the same as when it was loaded, and comes as far. -/
lemma module_goes (flat : (p₀.load raw₀).2.Flat) (canonical : p₀.Canonical) (tracks : Tracks p₀ raw₀ run run')
    (loading : p₀.Loading raw₀ (depth + 1) pending p raw) (opens : p.Opens raw depth a) (first : a.done = [])
    (covers : m.Covers (p₀.load raw₀).2 p) :
    Goes m (ensureModule (p₀.load raw₀).2 run a.home) (ensureModule (p₀.load raw₀).2 run' a.home) fun m' _ =>
      m'.Covers (p₀.load raw₀).2 (Program.loader (depth + 1) p raw).2 := by
  obtain ⟨l, found, parsed, -⟩ := loading.opened opens
  have fresh : m.states.lookup a.home = none := by
    rw [← Option.not_isSome_iff_eq_none, covers.begun, opens.home]
    exact Nat.lt_irrefl _
  have whole : a.ast.statements = a.rest := by rw [opens.statements, first, List.nil_append]
  have begins := covers.begin opens first
  have statements : Goes (begun a.home m) (moduleStatements run ⟨a.home, m.heap.size⟩ .unit a.rest) _ _ :=
    moduleStatements_goes tracks loading opens rfl begins Value.holds_unit
  have runs : Goes (begun a.home m) (runBegun run a.home l a.ast m.heap.size) (runBegun run' a.home l a.ast m.heap.size)
      fun m' _ => m'.Covers (p₀.load raw₀).2 (Program.loader (depth + 1) p raw).2 := by
    rw [runBegun, runBegun, whole]
    refine (guarded_goes statements).bind fun m' v ⟨value, b, opens', done, home, covers⟩ => ?_
    have finish {m' : Machine} (covers : m'.Covers (p₀.load raw₀).2 b.resolution.program) :
        Goes m' (setState a.home .done) (setState a.home .done) fun m'' _ =>
          m''.Covers (p₀.load raw₀).2 (Program.loader (depth + 1) p raw).2 :=
      .change (home ▸ covers.finish (canonical.loading loading) opens' done)
    have kept : { m' with assemblies := (a.home, v) :: m'.assemblies : Machine }.Covers (p₀.load raw₀).2
        b.resolution.program := covers.stay rfl (.of_same rfl rfl) (covers.ready.setAssembly value)
    split
    · exact (Goes.change kept).bind fun _ _ covers => finish covers
    · exact finish covers
  obtain ⟨same, leads⟩ := runs
  have usable := flat.usable found
  refine ⟨?_, fun u m' e => leads u m' ?_⟩
  · rw [ensureModule_begins found parsed usable fresh, ensureModule_begins found parsed usable fresh, same]
  · rw [← ensureModule_begins found parsed usable fresh, e]

/-- A step of a load that is run again does the same over evaluations that do, and comes as far as the load. -/
theorem step_tracks (flat : (p₀.load raw₀).2.Flat) (canonical : p₀.Canonical)
    (accord : Accord (p₀.load raw₀).2 run run') (tracks : Tracks p₀ raw₀ run run') :
    Tracks p₀ raw₀ (step (p₀.load raw₀).2 run) (step (p₀.load raw₀).2 run') := by
  intro m task q follows
  cases follows with
  | statement loading opens next here covers =>
    exact statement_goes flat canonical accord tracks loading opens next here covers
  | module loading opens first covers =>
    exact (module_goes flat canonical tracks loading opens first covers).bind fun m' _ covers =>
      .pure ⟨Value.holds_unit, covers⟩

end Eval

/-- Tasks that are ready are calm, at every depth of nested evaluation. -/
theorem Task.run_accord {p : Program} (honest : p.hosts.Honest) (fuel : Nat) :
    Eval.Accord p (Task.run p fuel) (Task.run p fuel) := by
  induction fuel with
  | zero =>
    intro m task ready asks
    exact ⟨rfl, rfl, .refl, ready⟩
  | succ fuel ih =>
    intro m task ready asks
    exact Eval.step_calm honest ih ready asks

/-- A load that is run again comes as far as the load, at every depth of nested evaluation. -/
theorem Task.run_tracks {p₀ : Program} {raw₀ : String} (honest : (p₀.load raw₀).2.hosts.Honest)
    (flat : (p₀.load raw₀).2.Flat) (canonical : p₀.Canonical) (fuel : Nat) :
    Eval.Tracks p₀ raw₀ (Task.run (p₀.load raw₀).2 fuel) (Task.run (p₀.load raw₀).2 fuel) := by
  induction fuel with
  | zero =>
    intro m task q follows
    exact ⟨rfl, nofun⟩
  | succ fuel ih => exact Eval.step_tracks flat canonical (Task.run_accord honest fuel) ih

end PipeLang
