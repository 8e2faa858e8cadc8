import PipeLang.Eval.Step
import PipeLang.Proofs.Eval.Layered

/-!
# Sound machines

What a machine keeps to while usable modules run on it: its frames are activations of scopes, and every function in it
is a registered host function or a literal of a usable module, with a frame of the scope that the literal stands in. A
task fits if it asks for a piece of a usable module in an activation of the scope that the piece stands in.
-/

namespace PipeLang

namespace Program

variable {p : Program} {id : ModuleId}

/-- A usable module is settled, and nothing was found wrong with it. -/
lemma AtRest.ready (h : p.AtRest) (usable : p.Usable id) : ∃ m t ast, p.modules[(id : Nat)]? = some m ∧
    m.resolved = some t ∧ m.isUsable = true ∧ m.Settled p p.Imports id t ast True := by
  obtain ⟨m, found, fine⟩ := usable
  obtain ⟨t, resolved⟩ := Option.isSome_iff_exists.1 (h.sound.usable found fine)
  obtain ⟨ast, clean, settled⟩ := h.sound.settled found resolved
  obtain rfl : clean = True := eq_true (settled.faultless (LoadedModule.isUsable_iff.1 fine).2)
  exact ⟨m, t, ast, found, resolved, fine, leads_none ▸ settled⟩

end Program

/-- A context is an activation of a scope of a usable module. -/
structure Context.Stands (p : Program) (labels : Labels) (c : Context) (t : Resolved) (scope : ScopeId) : Prop where
  usable : p.Usable c.module
  resolved : p.resolvedOf c.module = some t
  label : labels[(c.frame : Nat)]? = some (c.module, scope)

/-- A function that can be called without harm. -/
inductive Value.Callable (p : Program) (labels : Labels) : Value → Prop where
  | closure {c t scope} :
    Context.Stands p labels ⟨c.module, c.frame⟩ t scope →
    c.lambda.Settled p t True scope →
    Callable p labels (.closure c)
  | host {name} :
    (p.hosts.get? name).isSome →
    Callable p labels (.host name)

/-- All functions in a value can be called. -/
def Value.Fits (p : Program) (labels : Labels) (v : Value) : Prop :=
  v.Holds (Callable p labels)

/-- A machine whose frames are activations of scopes and whose values fit. -/
structure Machine.Sound (p : Program) (labels : Labels) (m : Machine) : Prop where
  heap : m.heap.Lexical p labels
  roots : ∀ {id : ModuleId} {f : FrameId}, labels[(f : Nat)]? = some (id, Scopes.root) ↔ m.roots.lookup id = some f
  started : ∀ {id}, m.states.lookup id = none → m.roots.lookup id = none
  values : ∀ {f : Nat} {frame}, m.heap[f]? = some frame → ∀ entry ∈ frame.values, entry.2.Fits p labels
  layers : m.heap.AllLayered p labels
  items : ∀ entry ∈ m.items, entry.2.Fits p labels
  assemblies : ∀ entry ∈ m.assemblies, entry.2.Fits p labels
  failed : ∀ {id e}, m.states.lookup id = some (.failed e) → e.isStatic = false

/-- A task asks for a piece of a usable module where the piece stands. -/
inductive Task.Fits (p : Program) (labels : Labels) : Task → Prop where
  | expr {c t scope e incoming} :
    c.Stands p labels t scope →
    e.Settled p t True scope incoming.isSome →
    (∀ v ∈ incoming, v.Fits p labels) →
    Fits p labels (.expr c e incoming)
  | statement {c t scope s} :
    c.Stands p labels t scope →
    s.Settled p t True scope false →
    Fits p labels (.statement c s)
  | block {c t scope b incoming} :
    c.Stands p labels t scope →
    b.Settled p t True scope incoming.isSome →
    (∀ v ∈ incoming, v.Fits p labels) →
    Fits p labels (.block c b incoming)
  | branch {c t scope b incoming} :
    c.Stands p labels t scope →
    b.Settled p t True scope incoming.isSome →
    (∀ v ∈ incoming, v.Fits p labels) →
    Fits p labels (.branch c b incoming)
  | pipeline {c t scope stages incoming} :
    c.Stands p labels t scope →
    Stages.Settled p t True scope incoming.isSome stages →
    (∀ v ∈ incoming, v.Fits p labels) →
    Fits p labels (.pipeline c stages incoming)
  | loop {c t scope l incoming} :
    c.Stands p labels t scope →
    l.Settled p t True scope incoming.isSome →
    (∀ v ∈ incoming, v.Fits p labels) →
    Fits p labels (.loop c l incoming)
  | call {callee positional keyword} :
    callee.Fits p labels →
    (∀ v ∈ positional, v.Fits p labels) →
    (∀ entry ∈ keyword, entry.2.Fits p labels) →
    Fits p labels (.call callee positional keyword)
  | module {id} :
    p.Usable id →
    Fits p labels (.module id)

section

variable {p : Program} {labels labels' : Labels}

/-- An expression without an incoming value. -/
lemma Task.Fits.plain {c : Context} {t : Resolved} {scope : ScopeId} {e : Expr} (stands : c.Stands p labels t scope)
    (settled : e.Settled p t True scope false) : Fits p labels (.expr c e none) :=
  .expr stands settled nofun

lemma Context.Stands.mono {c : Context} {t : Resolved} {scope : ScopeId} (h : c.Stands p labels t scope)
    (grows : labels <+: labels') : c.Stands p labels' t scope :=
  { h with label := Labels.kept grows h.label }

lemma Value.Callable.mono {v : Value} (h : v.Callable p labels) (grows : labels <+: labels') :
    v.Callable p labels' := by
  cases h with
  | closure stands settled => exact .closure (stands.mono grows) settled
  | host known => exact .host known

lemma Value.Fits.mono {v : Value} (h : v.Fits p labels) (grows : labels <+: labels') : v.Fits p labels' :=
  h.imp fun _ callable => callable.mono grows

end

namespace Machine.Sound

variable {p : Program} {labels : Labels} {m : Machine} {c : Context} {t : Resolved} {scope inner : ScopeId}

/-- What is found in a frame or around it fits. -/
lemma getLocal (h : m.Sound p labels) {f : FrameId} {id : BindingId} {v : Value}
    (found : m.heap.getLocal? f id = some v) : v.Fits p labels := by
  unfold Heap.getLocal? at found
  split at found
  · next frame known => exact h.values known _ (mem_of_lookup found)
  · cases found

lemma get (h : m.Sound p labels) {f : FrameId} {id : BindingId} {v : Value} (found : m.heap.get? f id = some v) :
    v.Fits p labels := by
  obtain ⟨g, -, found⟩ := List.exists_of_findSome?_eq_some found
  exact h.getLocal found

/-- The values of a heap with one more frame fit. -/
lemma push_values (h : m.Sound p labels) {parent : Option FrameId} {added : ModuleId × ScopeId} {f : Nat} {frame : Frame}
    (found : (m.heap.push parent)[f]? = some frame) :
    ∀ entry ∈ frame.values, entry.2.Fits p (labels ++ [added]) := by
  intro entry member
  rcases Heap.push_found found with ⟨-, empty⟩ | old
  · rw [empty] at member
    cases member
  · exact (h.values old entry member).mono (List.prefix_append _ _)

/-- A frame is opened for a scope inside another. -/
lemma openInner (h : m.Sound p labels) (stands : c.Stands p labels t scope) (opens : t.scopes.Opens scope inner) :
    { m with heap := m.heap.push (some c.frame) : Machine }.Sound p (labels ++ [(c.module, inner)]) where
  heap := h.heap.pushInner stands.resolved stands.label opens
  roots {id f} := by
    have notRoot := h.heap.inner_ne_root stands.resolved stands.label opens
    rw [← h.roots, List.getElem?_append]
    split
    · rfl
    · next outside =>
      have none : labels[(f : Nat)]? = none := List.getElem?_eq_none (Nat.le_of_not_lt outside)
      simp only [none, reduceCtorEq, iff_false]
      intro found
      have among := List.mem_of_getElem? found
      simp only [List.mem_singleton, Prod.mk.injEq] at among
      exact notRoot among.2.symm
  started := h.started
  values := h.push_values
  layers := h.layers.push h.heap.size
  items entry member := (h.items entry member).mono (List.prefix_append _ _)
  assemblies entry member := (h.assemblies entry member).mono (List.prefix_append _ _)
  failed := h.failed

/-- A module begins to run, in a frame of its own. -/
lemma begin (h : m.Sound p labels) {id : ModuleId} (resolved : p.resolvedOf id = some t) (nested : t.scopes.Nested)
    (fresh : m.states.lookup id = none) :
    { m with states := (id, .running) :: m.states, heap := m.heap.push none, roots := (id, m.heap.size) :: m.roots :
      Machine }.Sound p (labels ++ [(id, Scopes.root)]) where
  heap := h.heap.pushRoot resolved nested
  roots {id' f} := by
    have size := h.heap.size
    rw [List.lookup_cons, List.getElem?_append]
    split
    · next inside =>
      rw [h.roots]
      by_cases same : id' = id
      · subst same
        have unknown := h.started fresh
        simp only [beq_self_eq_true, unknown, reduceCtorEq, false_iff, Option.some.injEq]
        exact Nat.ne_of_gt (size ▸ inside)
      · simp [beq_false_of_ne same]
    · next outside =>
      have none : labels[(f : Nat)]? = none := List.getElem?_eq_none (Nat.le_of_not_lt outside)
      by_cases same : id' = id
      · subst same
        simp only [beq_self_eq_true, Option.some.injEq]
        constructor
        · intro found
          have := (List.getElem?_eq_some_iff.1 found).1
          simp only [List.length_singleton] at this
          exact Nat.le_antisymm (size ▸ Nat.le_of_not_lt outside) (by omega)
        · rintro rfl
          simp [size]
      · simp only [beq_false_of_ne same, ← h.roots, none, reduceCtorEq, iff_false]
        intro found
        have among := List.mem_of_getElem? found
        simp only [List.mem_singleton, Prod.mk.injEq] at among
        exact same among.1
  started {id'} unknown := by
    simp only [List.lookup_cons] at unknown ⊢
    split at unknown
    · cases unknown
    · exact h.started unknown
  values := h.push_values
  layers := h.layers.push h.heap.size
  items entry member := (h.items entry member).mono (List.prefix_append _ _)
  assemblies entry member := (h.assemblies entry member).mono (List.prefix_append _ _)
  failed {id' e} known := by
    rw [List.lookup_cons] at known
    split at known
    · cases known
    · exact h.failed known

/-- A frame is given a value for a binding that its scope may store, with the layers that its scope sees. -/
lemma define (h : m.Sound p labels) (stands : c.Stands p labels t scope) {id : BindingId} (stores : t.scopes.Stores scope id)
    {v : Value} (layered : ∀ b, t.scopes.bindings[(id : Nat)]? = some b → m.heap.Layered id (t.scopes.layersAt b scope) c.frame v)
    (fits : v.Fits p labels) : { m with heap := m.heap.define c.frame id v : Machine }.Sound p labels :=
  { h with
    heap := h.heap.define stands.resolved stands.label stores
    layers := h.layers.define stands.label stands.resolved layered
    values := fun {f frame} found entry member => by
      rw [Heap.getElem?_define] at found
      split at found
      · obtain ⟨old, known, rfl⟩ := Option.map_eq_some_iff.1 found
        rcases List.mem_cons.1 member with rfl | before
        · exact fits
        · exact h.values known entry before
      · exact h.values found entry member }

lemma setItem (h : m.Sound p labels) {key : ModuleId × String} {v : Value} (fits : v.Fits p labels) :
    { m with items := (key, v) :: m.items : Machine }.Sound p labels :=
  { h with items := List.forall_mem_cons.2 ⟨fits, h.items⟩ }

lemma setAssembly (h : m.Sound p labels) {id : ModuleId} {v : Value} (fits : v.Fits p labels) :
    { m with assemblies := (id, v) :: m.assemblies : Machine }.Sound p labels :=
  { h with assemblies := List.forall_mem_cons.2 ⟨fits, h.assemblies⟩ }

/-- A module comes to an end, which is not an error that resolution prevents. -/
lemma setState (h : m.Sound p labels) {id : ModuleId} {s : RunState} (dynamic : ∀ e, s = .failed e → e.isStatic = false) :
    { m with states := (id, s) :: m.states : Machine }.Sound p labels :=
  { h with
    started := fun {id'} unknown => by
      rw [List.lookup_cons] at unknown
      split at unknown
      · cases unknown
      · exact h.started unknown
    failed := fun {id' e} known => by
      rw [List.lookup_cons] at known
      split at known
      · exact dynamic e (Option.some.inj known)
      · exact h.failed known }

end Machine.Sound

end PipeLang
