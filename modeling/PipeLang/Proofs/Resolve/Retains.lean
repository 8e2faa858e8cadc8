import Mathlib.Tactic.Lemma
import PipeLang.Resolve.Expr

/-!
# Programs that retain exports

While modules are loaded and resolved a program only grows: what a module exports it goes on to export, under the same name.
What the segments of a path lead to therefore stays the same: `Program.Retains.follow`.
-/

namespace PipeLang

/-- An export that has been added is found under its name. -/
lemma Exports.get?_inserted {t t' : Exports} {e : Export} (h : t.insert e = .ok t') : t'.get? e.name = some e := by
  simp only [insert] at h
  split at h
  · cases h
  · next fresh =>
    cases h
    simp only [get?] at fresh
    simp [get?, List.find?_append, fresh]

lemma Exports.prefix_of_insert {t t' : Exports} {e : Export} (h : t.insert e = .ok t') : t.entries <+: t'.entries := by
  simp only [insert] at h
  split at h
  · cases h
  · cases h
    exact List.prefix_append _ _

namespace Program

/-- A later program: it has the same host functions, loses no module and exports what was exported. -/
structure Retains (p p' : Program) : Prop where
  hosts : p'.hosts = p.hosts
  size_le : p.modules.size ≤ p'.modules.size
  exports : ∀ id : ModuleId, (p.exportsOf id).entries <+: (p'.exportsOf id).entries

/-- What the segments of a path lead to from a target, through what modules export. -/
def follow (p : Program) : Target → List Ident → Option Target
  | target, [] => some target
  | .module id, segment :: rest => ((p.exportsOf id).get? segment.name).bind fun e => p.follow e.target rest
  | _, _ :: _ => none

variable {p p' p'' : Program} {id : Nat} {f : LoadedModule → LoadedModule}

lemma modify_modules {i : Nat} :
    (p.modify id f).modules[i]? = if id = i then (p.modules[i]?).map f else p.modules[i]? := by
  simp [Program.modify, Array.getElem?_modify]

/-- What modules export does not change with anything else of a module. -/
lemma modify_exportsOf {α : Type} (g : Exports → α) {i : ModuleId}
    (same : ∀ m, g (f m).exports = g m.exports) : g ((p.modify id f).exportsOf i) = g (p.exportsOf i) := by
  unfold exportsOf
  rw [modify_modules]
  by_cases here : id = i
  · rw [if_pos here, ← here]
    cases p.modules[id]? with
    | none => rfl
    | some m => exact same m
  · rw [if_neg here]

namespace Retains

lemma refl : p.Retains p :=
  ⟨rfl, Nat.le_refl _, fun _ => List.prefix_rfl⟩

lemma trans (h : p.Retains p') (h' : p'.Retains p'') : p.Retains p'' :=
  ⟨h'.hosts.trans h.hosts, Nat.le_trans h.size_le h'.size_le, fun id => (h.exports id).trans (h'.exports id)⟩

lemma of_modules (hosts : p'.hosts = p.hosts) (same : p'.modules = p.modules) : p.Retains p' := by
  have exports (id : ModuleId) : p'.exportsOf id = p.exportsOf id := by rw [exportsOf, exportsOf, same]
  exact ⟨hosts, Nat.le_of_eq (by rw [same]), fun id => exports id ▸ List.prefix_rfl⟩

lemma entries (h : p.Retains p') {id : ModuleId} {e : Export} (member : e ∈ (p.exportsOf id).entries) :
    e ∈ (p'.exportsOf id).entries :=
  (h.exports id).subset member

/-- What a module exports it goes on to export. -/
lemma exported (h : p.Retains p') {id : ModuleId} {name : String} {e : Export}
    (known : (p.exportsOf id).get? name = some e) : (p'.exportsOf id).get? name = some e := by
  obtain ⟨more, same⟩ := h.exports id
  rw [Exports.get?] at known ⊢
  rw [← same, List.find?_append, known, Option.some_or]

/-- A path goes on to lead where it led. -/
lemma follow (h : p.Retains p') {target found : Target} {rest : List Ident} (known : p.follow target rest = some found) :
    p'.follow target rest = some found := by
  induction rest generalizing target with
  | nil => exact known
  | cons segment rest ih =>
    cases target with
    | module id =>
      obtain ⟨e, shown, known⟩ := Option.bind_eq_some_iff.1 known
      exact Option.bind_eq_some_iff.2 ⟨e, h.exported shown, ih known⟩
    | _ => cases known

end Retains

/-- A change of one module that leaves alone what it exports. -/
lemma modify_retains (same : ∀ m, (f m).exports.entries = m.exports.entries) : p.Retains (p.modify id f) := by
  refine ⟨rfl, by simp [Program.modify], fun i => ?_⟩
  have kept : ((p.modify id f).exportsOf i).entries = (p.exportsOf i).entries := modify_exportsOf Exports.entries same
  exact kept ▸ List.prefix_rfl

/-- A module that exports one thing more. -/
lemma offer_retains {exports : Exports} {e : Export} (inserted : (p.exportsOf id).insert e = .ok exports) :
    p.Retains (p.modify id fun m => { m with exports := exports }) := by
  refine ⟨rfl, by simp [Program.modify], fun i => ?_⟩
  by_cases here : id = i
  · have more := Exports.prefix_of_insert inserted
    rw [exportsOf] at more
    rw [exportsOf, exportsOf, modify_modules, if_pos here, ← here]
    cases found : p.modules[id]? with
    | none => exact List.prefix_rfl
    | some m =>
      rw [found] at more
      exact more
  · have kept : (p.modify id fun m => { m with exports := exports }).exportsOf i = p.exportsOf i := by
      rw [exportsOf, exportsOf, modify_modules, if_neg here]
    exact kept ▸ List.prefix_rfl

end Program

end PipeLang
