import Mathlib.Tactic.Lemma
import PipeLang.Resolve.State

/-!
# Runs of resolution

A resolution never stops early, so that a step has one answer and one state behind it. The lemmas here say how
both are made up from the parts of a step.
-/

namespace PipeLang.Resolve

variable {α β : Type} {x : Resolve α} {r : Resolution}

/-- The state behind a step. -/
def after (x : Resolve α) (r : Resolution) : Resolution :=
  (x.run r).2

/-- The answer of a step. -/
def answer (x : Resolve α) (r : Resolution) : α :=
  (x.run r).1

@[simp] lemma after_pure {a : α} : after (pure a) r = r := rfl

@[simp] lemma answer_pure {a : α} : answer (pure a) r = a := rfl

@[simp] lemma after_bind {f : α → Resolve β} : after (x >>= f) r = after (f (answer x r)) (after x r) := rfl

@[simp] lemma answer_bind {f : α → Resolve β} : answer (x >>= f) r = answer (f (answer x r)) (after x r) := rfl

@[simp] lemma after_map {f : α → β} : after (f <$> x) r = after x r := rfl

@[simp] lemma answer_map {f : α → β} : answer (f <$> x) r = f (answer x r) := rfl

@[simp] lemma after_get : after get r = r := rfl

@[simp] lemma answer_get : answer get r = r := rfl

@[simp] lemma after_set {r' : Resolution} : after (set r') r = r' := rfl

@[simp] lemma after_modify {f : Resolution → Resolution} : after (modify f) r = f r := rfl

@[simp] lemma after_report {faults : List Fault} :
    after (report faults) r = { r with faults := r.faults ++ faults } := rfl

@[simp] lemma after_record {site : Span} {target : Target} {ty : Ty} :
    after (record site target ty) r = { r with references := r.references.insert site ⟨target, ty⟩ } := rfl

@[simp] lemma after_declare {site : Span} {id : BindingId} :
    after (declare site id) r = { r with declarations := r.declarations.insert site id } := rfl

@[simp] lemma after_leave {outer : ScopeId} : after (leave outer) r = { r with current := outer } := rfl

@[simp] lemma after_enter {kind : ScopeKind} {range : Span} :
    after (enter kind range) r = { r with
      scopes := r.scopes.push (some r.current) kind range
      current := r.scopes.nextScope } := rfl

@[simp] lemma answer_enter {kind : ScopeKind} {range : Span} : answer (enter kind range) r = r.current := rfl

@[simp] lemma after_leaveOpen {ident : Ident} :
    after (leaveOpen ident) r = { r with openNames := r.openNames ++ [⟨ident.name, ident.span, r.current⟩] } :=
  rfl

/-! ### Bindings and exports -/

variable {b other : Binding} {e first : Export} {exports : Exports}

lemma install_free (free : obstacle? r.program.policy r.scopes b = none) :
    answer (install b) r = some r.scopes.nextBinding ∧
      after (install b) r = { r with scopes := r.scopes.insert b } := by
  simp only [install, after_bind, answer_bind, answer_get, after_get, free]
  exact ⟨rfl, rfl⟩

lemma install_taken (taken : obstacle? r.program.policy r.scopes b = some other) :
    answer (install b) r = none ∧
      after (install b) r = { r with faults := r.faults ++ [.nameCollision b.name b.site other.site] } := by
  simp only [install, after_bind, answer_bind, answer_get, after_get, taken]
  exact ⟨rfl, rfl⟩

lemma introduce_free (free : obstacle? r.program.policy r.scopes b = none) :
    answer (introduce b) r = some r.scopes.nextBinding ∧
      after (introduce b) r = { r with
        scopes := r.scopes.insert b
        declarations := r.declarations.insert b.site r.scopes.nextBinding } := by
  obtain ⟨found, next⟩ := install_free free
  simp only [introduce, after_bind, answer_bind, found, next]
  exact ⟨rfl, rfl⟩

lemma introduce_taken (taken : obstacle? r.program.policy r.scopes b = some other) :
    answer (introduce b) r = none ∧
      after (introduce b) r = { r with faults := r.faults ++ [.nameCollision b.name b.site other.site] } := by
  obtain ⟨found, next⟩ := install_taken taken
  simp only [introduce, after_bind, answer_bind, found, next]
  exact ⟨rfl, rfl⟩

lemma publish_new (inserted : (r.program.exportsOf r.home).insert e = .ok exports) :
    after (publish e) r = { r with program := r.program.modify r.home fun m => { m with exports := exports } } := by
  simp only [publish, after_bind, answer_get, after_get, inserted]
  rfl

lemma publish_taken (inserted : (r.program.exportsOf r.home).insert e = .error first) :
    after (publish e) r = { r with faults := r.faults ++ [.duplicateExport e.name e.site first.site] } := by
  simp only [publish, after_bind, answer_get, after_get, inserted]
  rfl

end PipeLang.Resolve
