import PipeLang.Proofs.Eval.Sound
import PipeLang.Proofs.Syntax.Mentions

/-!
# Ready machines

What has to have happened on a machine before a piece of syntax is evaluated: the exported definitions that it mentions have
their values, and the modules that it mentions have been begun. A machine is ready if this holds of every function in it.
Evaluation that is ready begins no module; `Calm` says so of a computation, and compares it with the same computation over
another evaluation of tasks.
-/

namespace PipeLang

/-- A machine on which more modules may have been begun, and more exported definitions may have their values. -/
structure Machine.Later (m m' : Machine) : Prop where
  begun : ∀ {id}, (m.states.lookup id).isSome → (m'.states.lookup id).isSome
  items : ∀ {key}, (m.items.lookup key).isSome → (m'.items.lookup key).isSome

/-- An exported definition has its value, and a module has been begun. -/
def Machine.Has (m : Machine) : Target → Prop
  | .item id name => (m.items.lookup (id, name)).isSome
  | .module id => (m.states.lookup id).isSome
  | _ => True

/-- A machine has what is mentioned in syntax of a module, and nothing is imported there. -/
structure Machine.Provides (p : Program) (m : Machine) (id : ModuleId) (mentions : List Mention) : Prop where
  uses : ∀ {site t ref}, .use site ∈ mentions → p.resolvedOf id = some t → t.references.get? site = some ref →
    m.Has ref.target
  imports : ∀ i, .importing i ∉ mentions

/-- A machine has what a function mentions. -/
inductive Machine.Serves (p : Program) (m : Machine) : Value → Prop where
  | closure {c} :
    m.Provides p c.module c.lambda.mentions →
    Serves p m (.closure c)
  | host {name} :
    Serves p m (.host name)

/-- A machine has what the functions in a value mention. -/
def Value.Ready (p : Program) (m : Machine) (v : Value) : Prop :=
  v.Holds (m.Serves p)

/-- A machine has what the functions in it mention. -/
structure Machine.Ready (p : Program) (m : Machine) : Prop where
  values : ∀ {f : Nat} {frame}, m.heap[f]? = some frame → ∀ entry ∈ frame.values, entry.2.Ready p m
  items : ∀ entry ∈ m.items, entry.2.Ready p m
  assemblies : ∀ entry ∈ m.assemblies, entry.2.Ready p m

/-- A task asks for a piece of syntax whose mentions a machine has, or for a module that has been begun. -/
inductive Task.Ready (p : Program) (m : Machine) : Task → Prop where
  | expr {c e incoming} :
    m.Provides p c.module e.mentions →
    (∀ v ∈ incoming, v.Ready p m) →
    Ready p m (.expr c e incoming)
  | statement {c s} :
    m.Provides p c.module s.mentions →
    Ready p m (.statement c s)
  | block {c b incoming} :
    m.Provides p c.module b.mentions →
    (∀ v ∈ incoming, v.Ready p m) →
    Ready p m (.block c b incoming)
  | branch {c b incoming} :
    m.Provides p c.module b.mentions →
    (∀ v ∈ incoming, v.Ready p m) →
    Ready p m (.branch c b incoming)
  | pipeline {c stages incoming} :
    m.Provides p c.module (Stage.allMentions stages) →
    (∀ v ∈ incoming, v.Ready p m) →
    Ready p m (.pipeline c stages incoming)
  | loop {c l incoming} :
    m.Provides p c.module l.mentions →
    (∀ v ∈ incoming, v.Ready p m) →
    Ready p m (.loop c l incoming)
  | call {callee positional keyword} :
    callee.Ready p m →
    (∀ v ∈ positional, v.Ready p m) →
    (∀ entry ∈ keyword, entry.2.Ready p m) →
    Ready p m (.call callee positional keyword)
  | module {id} :
    (m.states.lookup id).isSome →
    Ready p m (.module id)

variable {p : Program} {m m' m'' : Machine} {id : ModuleId} {mentions : List Mention} {v : Value}

namespace Machine

lemma Later.refl : m.Later m :=
  ⟨fun h => h, fun h => h⟩

lemma Later.trans (h : m.Later m') (h' : m'.Later m'') : m.Later m'' :=
  ⟨fun known => h'.begun (h.begun known), fun known => h'.items (h.items known)⟩

/-- A machine on which the same modules have been begun, and the same definitions have their values. -/
lemma Later.of_same (states : m'.states = m.states) (items : m'.items = m.items) : m.Later m' :=
  ⟨fun h => states ▸ h, fun h => items ▸ h⟩

lemma Has.later {target : Target} (h : m.Has target) (later : m.Later m') : m'.Has target := by
  cases target with
  | item id name => exact later.items h
  | module id => exact later.begun h
  | _ => trivial

lemma Provides.later (h : m.Provides p id mentions) (later : m.Later m') : m'.Provides p id mentions where
  uses member resolved found := (h.uses member resolved found).later later
  imports := h.imports

lemma Provides.part {fewer : List Mention} (h : m.Provides p id mentions) (sub : fewer ⊆ mentions) : m.Provides p id fewer where
  uses member := h.uses (sub member)
  imports i member := h.imports i (sub member)

/-- What two pieces of syntax mention is provided if each is. -/
lemma Provides.both {others : List Mention} (h : m.Provides p id (mentions ++ others)) :
    m.Provides p id mentions ∧ m.Provides p id others :=
  ⟨h.part (List.subset_append_left _ _), h.part (List.subset_append_right _ _)⟩

lemma Serves.later (h : m.Serves p v) (later : m.Later m') : m'.Serves p v := by
  cases h with
  | closure provides => exact .closure (provides.later later)
  | host => exact .host

end Machine

lemma Value.Ready.later (h : v.Ready p m) (later : m.Later m') : v.Ready p m' :=
  h.imp fun _ serves => serves.later later

namespace Machine.Ready

variable {c : Context}

/-- A machine that has the same values is as ready. -/
lemma later (h : m.Ready p) (later : m.Later m')
    (values : ∀ {f : Nat} {frame}, m'.heap[f]? = some frame → ∀ entry ∈ frame.values, entry.2.Ready p m)
    (items : ∀ entry ∈ m'.items, entry.2.Ready p m) (assemblies : m'.assemblies = m.assemblies) : m'.Ready p where
  values found entry member := (values found entry member).later later
  items entry member := (items entry member).later later
  assemblies entry member := (h.assemblies entry (assemblies ▸ member)).later later

lemma getLocal (h : m.Ready p) {f : FrameId} {id : BindingId} (found : m.heap.getLocal? f id = some v) : v.Ready p m := by
  unfold Heap.getLocal? at found
  split at found
  · next frame known => exact h.values known _ (mem_of_lookup found)
  · cases found

lemma get (h : m.Ready p) {f : FrameId} {id : BindingId} (found : m.heap.get? f id = some v) : v.Ready p m := by
  obtain ⟨g, -, found⟩ := List.exists_of_findSome?_eq_some found
  exact h.getLocal found

lemma push (h : m.Ready p) {parent : Option FrameId} : { m with heap := m.heap.push parent : Machine }.Ready p := by
  refine h.later (.of_same rfl rfl) (fun found entry member => ?_) h.items rfl
  rcases Heap.push_found found with ⟨-, empty⟩ | old
  · rw [empty] at member
    cases member
  · exact h.values old entry member

lemma define (h : m.Ready p) {frame : FrameId} {id : BindingId} (ready : v.Ready p m) :
    { m with heap := m.heap.define frame id v : Machine }.Ready p := by
  refine h.later (.of_same rfl rfl) (fun {f found'} found entry member => ?_) h.items rfl
  rw [Heap.getElem?_define] at found
  split at found
  · obtain ⟨old, known, rfl⟩ := Option.map_eq_some_iff.1 found
    rcases List.mem_cons.1 member with rfl | before
    · exact ready
    · exact h.values known entry before
  · exact h.values found entry member

/-- A definition has its value when it is given one, and the others have theirs. -/
lemma later_setItem {key : ModuleId × String} : m.Later { m with items := (key, v) :: m.items } where
  begun known := known
  items {other} known := by
    rw [List.lookup_cons]
    split
    · rfl
    · exact known

lemma setItem (h : m.Ready p) {key : ModuleId × String} (ready : v.Ready p m) :
    { m with items := (key, v) :: m.items : Machine }.Ready p :=
  h.later later_setItem h.values (List.forall_mem_cons.2 ⟨ready, h.items⟩) rfl

lemma setAssembly (h : m.Ready p) {id : ModuleId} (ready : v.Ready p m) :
    { m with assemblies := (id, v) :: m.assemblies : Machine }.Ready p where
  values found entry member := (h.values found entry member).later (.of_same rfl rfl)
  items entry member := (h.items entry member).later (.of_same rfl rfl)
  assemblies := List.forall_mem_cons.2
    ⟨ready.later (.of_same rfl rfl), fun entry member => (h.assemblies entry member).later (.of_same rfl rfl)⟩

end Machine.Ready

namespace Eval

variable {α β : Type}

/-- A computation has left a machine that is ready and on which no more modules have been begun. -/
def Stays (p : Program) (m : Machine) (Q : Machine → α → Prop) : EStateM.Result Stop Machine α → Prop
  | .ok a m' => m'.states = m.states ∧ m.Later m' ∧ m'.Ready p ∧ Q m' a
  | .error _ m' => m'.states = m.states ∧ m.Later m' ∧ m'.Ready p

/-- Two computations do the same on a machine, and begin no modules. -/
def Calm (p : Program) (m : Machine) (x x' : Eval α) (Q : Machine → α → Prop) : Prop :=
  x m = x' m ∧ Stays p m Q (x m)

/-- Two evaluations of tasks do the same with tasks that are ready, and give values that are ready. -/
def Accord (p : Program) (run run' : Task → Eval Value) : Prop :=
  ∀ {m task}, m.Ready p → task.Ready p m → Calm p m (run task) (run' task) (Value.Ready p)

lemma Stays.widen {Q : Machine → α → Prop} {result : EStateM.Result Stop Machine α} (h : Stays p m' Q result)
    (same : m'.states = m.states) (later : m.Later m') : Stays p m Q result := by
  cases result with
  | ok a m'' =>
    obtain ⟨same', later', rest⟩ := h
    exact ⟨same'.trans same, later.trans later', rest⟩
  | error stop m'' =>
    obtain ⟨same', later', rest⟩ := h
    exact ⟨same'.trans same, later.trans later', rest⟩

namespace Calm

variable {x x' : Eval α} {Q : Machine → α → Prop} {c : Context} {run run' : Task → Eval Value}

lemma pure {a : α} (ready : m.Ready p) (h : Q m a) : Calm p m (Pure.pure a) (Pure.pure a) Q :=
  ⟨rfl, rfl, .refl, ready, h⟩

lemma fail {e : RuntimeError} (ready : m.Ready p) : Calm p m (Eval.fail e : Eval α) (Eval.fail e) Q :=
  ⟨rfl, rfl, .refl, ready⟩

lemma ofOutcome {good : α → Prop} {o : Outcome α} (ready : m.Ready p) (gives : o.Gives good) :
    Calm p m (Eval.ofOutcome o) (Eval.ofOutcome o) fun _ a => good a := by
  cases o with
  | ok a => exact pure ready gives
  | error e => exact fail ready

lemma bind {R : Machine → β → Prop} {f f' : α → Eval β} (first : Calm p m x x' Q)
    (next : ∀ m' a, m.Later m' → m'.Ready p → Q m' a → Calm p m' (f a) (f' a) R) :
    Calm p m (x >>= f) (x' >>= f') R := by
  obtain ⟨same, stays⟩ := first
  show EStateM.bind x f m = EStateM.bind x' f' m ∧ Stays p m R (EStateM.bind x f m)
  simp only [EStateM.bind, ← same]
  cases h : x m with
  | ok a m' =>
    rw [h] at stays
    obtain ⟨states, later, ready, fine⟩ := stays
    obtain ⟨same', stays'⟩ := next m' a later ready fine
    exact ⟨same', stays'.widen states later⟩
  | error stop m' =>
    rw [h] at stays
    exact ⟨rfl, stays⟩

lemma imp {R : Machine → α → Prop} (h : Calm p m x x' Q)
    (weaker : ∀ m' a, m.Later m' → Q m' a → R m' a) : Calm p m x x' R := by
  obtain ⟨same, stays⟩ := h
  refine ⟨same, ?_⟩
  cases e : x m with
  | ok a m' =>
    rw [e] at stays
    obtain ⟨states, later, ready, fine⟩ := stays
    exact ⟨states, later, ready, weaker m' a later fine⟩
  | error stop m' =>
    rw [e] at stays
    exact stays

/-- What a computation reads is the machine. -/
lemma read (ready : m.Ready p) : Calm p m get get fun m' s => s = m' :=
  ⟨rfl, rfl, .refl, ready, rfl⟩

lemma openFrame {parent : Option FrameId} (ready : m.Ready p) :
    Calm p m (Eval.openFrame parent) (Eval.openFrame parent) fun _ _ => True :=
  ⟨rfl, rfl, .of_same rfl rfl, ready.push, trivial⟩

lemma inside (ready : m.Ready p) : Calm p m (Eval.inside c) (Eval.inside c) fun _ c' => c'.module = c.module :=
  (openFrame ready).bind fun _ _ _ ready _ => pure ready rfl

lemma define {frame : FrameId} {id : BindingId} (ready : m.Ready p) (value : v.Ready p m) :
    Calm p m (Eval.define frame id v) (Eval.define frame id v) fun _ _ => True :=
  ⟨rfl, rfl, .of_same rfl rfl, ready.define value, trivial⟩

lemma setItem {id : ModuleId} {name : String} (ready : m.Ready p) (value : v.Ready p m) :
    Calm p m (Eval.setItem id name v) (Eval.setItem id name v) fun m' _ => (m'.items.lookup (id, name)).isSome :=
  ⟨rfl, rfl, Machine.Ready.later_setItem, ready.setItem value, by simp⟩

lemma freshIdentity (ready : m.Ready p) : Calm p m Eval.freshIdentity Eval.freshIdentity fun _ _ => True :=
  ⟨rfl, rfl, .of_same rfl rfl, ready.later (.of_same rfl rfl) ready.values ready.items rfl, trivial⟩

lemma makeClosure {f : Lambda} {name : Option String} (ready : m.Ready p) (provides : m.Provides p c.module f.mentions) :
    Calm p m (Eval.makeClosure c f name) (Eval.makeClosure c f name) (Value.Ready p) :=
  (freshIdentity ready).bind fun _ _ later ready _ =>
    pure ready (Value.holds_closure.2 (.closure (provides.later later)))

lemma item? {id : ModuleId} {name : String} (ready : m.Ready p) : Calm p m (Eval.item? id name) (Eval.item? id name)
    fun m' o => o = m'.items.lookup (id, name) :=
  (read ready).bind fun _ _ _ ready same => pure ready (by rw [same])

end Calm

end Eval

end PipeLang
