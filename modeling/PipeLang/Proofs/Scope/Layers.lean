import Mathlib.Logic.Function.Iterate
import PipeLang.Proofs.Scope.Nested

/-!
# Layers of sequences

Outside of a loop that it crosses, a tag is seen as a sequence. `Scopes.layersAt` is the number of the loops that a scope lies outside
of; the type of a tag has as many layers there: `Scopes.typeAt_eq`. From the body of a loop outward one layer is added, and a scope
sees as many as the nearest scope around it whose frames hold the tag.
-/

namespace PipeLang

/-- Frames of a scope hold a binding: it is declared there, or it is a tag that is collected there. -/
def Binding.HeldIn (b : Binding) (scope : ScopeId) : Prop :=
  b.scope = scope ∨ scope ∈ b.loops

instance (b : Binding) : DecidablePred b.HeldIn := fun scope =>
  inferInstanceAs (Decidable (b.scope = scope ∨ scope ∈ b.loops))

/-- A binding is held in the loop bodies in front of a path and in the scope behind them. -/
def Binding.Fronts (b : Binding) (path : List ScopeId) : Prop :=
  ∃ behind, path = b.loops ++ b.scope :: behind

/-- A binding stands for itself, and crosses the loop bodies in front of a path. -/
def Scopes.IsTag (t : Scopes) (id : BindingId) : Prop :=
  ∃ b, t.bindings[(id : Nat)]? = some b ∧ b.target = .inner id ∧ ∃ scope, b.Fronts (t.path scope)

namespace Scopes.IsTag

variable {t t' : Scopes} {id : BindingId}

lemma lt (h : t.IsTag id) : (id : Nat) < t.bindings.size := by
  obtain ⟨b, found, -⟩ := h
  exact (Array.getElem?_eq_some_iff.1 found).1

lemma grow {mark : Nat} (h : t.IsTag id) (grows : t.Grows mark t') : t'.IsTag id := by
  obtain ⟨b, found, target, scope, behind, split⟩ := h
  refine ⟨b, grows.bindings found, target, scope, behind, ?_⟩
  rw [grows.path_eq (lt_of_mem_path (x := b.scope) (by simp [split])), split]

end Scopes.IsTag

namespace Scopes

variable {t : Scopes} {b : Binding} {scope inner : ScopeId}

/-- The number of the loops of a binding that a scope lies outside of. -/
def layersAt (t : Scopes) (b : Binding) (scope : ScopeId) : Nat :=
  (b.loops.filter fun loop => !t.isWithin scope loop).length

lemma foldl_array (loops : List ScopeId) (ty : Ty) :
    loops.foldl (fun ty _ => Ty.array ty) ty = Ty.array^[loops.length] ty := by
  induction loops generalizing ty with
  | nil => rfl
  | cons loop loops ih => rw [List.foldl_cons, ih, List.length_cons, Function.iterate_succ_apply]

/-- The type of a binding as seen from a scope is its type where it is declared, with that many layers. -/
lemma typeAt_eq {id : BindingId} (found : t.bindings[(id : Nat)]? = some b) :
    t.typeAt id scope = Ty.array^[t.layersAt b scope] b.ty := by
  rw [typeAt, found]
  exact foldl_array _ _

/-- Inside all of its loops a binding has no layers. -/
lemma layersAt_eq_zero (within : ∀ loop ∈ b.loops, loop ∈ t.path scope) : t.layersAt b scope = 0 := by
  rw [layersAt, List.length_eq_zero_iff, List.filter_eq_nil_iff]
  intro loop member
  simpa [isWithin] using within loop member

/-- No scope is on a path twice. -/
lemma Nested.path_nodup (h : t.Nested) : (t.path scope).Nodup := by
  induction scope using Nat.strongRecOn with
  | ind scope ih =>
    by_cases inside : scope < t.scopes.size
    · by_cases top : scope = Scopes.root
      · rw [top, h.root]
        simp
      · obtain ⟨parent, before, e⟩ := h.inner inside top
        rw [e, List.nodup_cons]
        exact ⟨fun member => Nat.not_le_of_lt before (h.mem_path member).1, ih parent before⟩
    · rw [path_of_size_le (Nat.le_of_not_lt inside)]
      exact List.nodup_nil

/-- From the body of a loop that a binding crosses outward, one layer is added. -/
lemma layersAt_outside (nested : t.Nested) (opens : t.path inner = inner :: t.path scope) (distinct : b.loops.Nodup)
    (crossed : inner ∈ b.loops) : t.layersAt b scope = t.layersAt b inner + 1 := by
  obtain ⟨before, behind, split⟩ := List.append_of_mem crossed
  have around : (t.path inner).Nodup := nested.path_nodup
  rw [opens, List.nodup_cons] at around
  rw [split, List.nodup_append, List.nodup_cons] at distinct
  -- the other loops are around the one scope as they are around the other
  have same : ∀ loops : List ScopeId, inner ∉ loops →
      loops.filter (fun loop => !t.isWithin scope loop) = loops.filter fun loop => !t.isWithin inner loop := by
    intro loops other
    refine List.filter_congr fun loop member => ?_
    have differs : loop ≠ inner := fun same => other (same ▸ member)
    simp [isWithin, opens, differs]
  have front : inner ∉ before := fun member => distinct.2.2 inner member inner List.mem_cons_self rfl
  have here : t.isWithin inner inner = true := by simp [isWithin, opens]
  have there : t.isWithin scope inner = false := by simpa [isWithin] using around.1
  simp only [layersAt, split, List.filter_append, List.filter_cons, here, there, same before front,
    same behind distinct.2.1.1, Bool.not_true, Bool.not_false, if_true, Bool.false_eq_true, if_false, List.length_append,
    List.length_cons]
  omega

/-- A scope sees as many layers as the nearest scope around it that holds the binding. -/
lemma layersAt_nearest {before behind : List ScopeId} (nested : t.Nested) (split : t.path scope = before ++ inner :: behind)
    (nearest : ∀ other ∈ before, ¬ b.HeldIn other) : t.layersAt b scope = t.layersAt b inner := by
  have path := nested.path_split split
  refine congrArg List.length (List.filter_congr fun loop member => ?_)
  have passed : loop ∉ before := fun early => nearest loop early (Or.inr member)
  simp [isWithin, split, path, passed]

/-- A scope that holds a tag sees as many layers as it lies further out than the innermost one. -/
lemma layersAt_add_depth {innermost : ScopeId} (nested : t.Nested) (fronts : b.Fronts (t.path innermost))
    (held : b.HeldIn scope) : t.layersAt b scope + (t.path scope).length = (t.path innermost).length := by
  obtain ⟨behind, split⟩ := fronts
  have distinct : (t.path innermost).Nodup := nested.path_nodup
  -- the loops in front of the scope are those that it lies outside of
  have counted {before after : List ScopeId} (at' : t.path innermost = before ++ scope :: after)
      (front : before <+: b.loops) : t.layersAt b scope + (t.path scope).length = (t.path innermost).length := by
    obtain ⟨others, loops⟩ := front
    have around := nested.path_split at'
    rw [at', List.nodup_append] at distinct
    have outside : before.filter (fun loop => !t.isWithin scope loop) = before := by
      refine List.filter_eq_self.2 fun loop member => ?_
      have passed : loop ∉ scope :: after := fun late => distinct.2.2 loop member loop late rfl
      simpa [isWithin, around] using passed
    have inside : others.filter (fun loop => !t.isWithin scope loop) = [] := by
      have later : others ++ b.scope :: behind = scope :: after := by
        rw [split, ← loops, List.append_assoc] at at'
        exact List.append_cancel_left at'
      refine List.filter_eq_nil_iff.2 fun loop member => ?_
      have behind : loop ∈ scope :: after := later ▸ List.mem_append_left _ member
      simpa [isWithin, around, or_iff_not_imp_left] using behind
    rw [layersAt, ← loops, List.filter_append, outside, inside, around, at']
    simp
  rcases held with home | crossed
  · exact counted (home ▸ split) List.prefix_rfl
  · obtain ⟨before, after, loops⟩ := List.append_of_mem crossed
    have further : t.path innermost = before ++ scope :: (after ++ b.scope :: behind) := by
      rw [split, loops, List.append_assoc, List.cons_append]
    exact counted further ⟨scope :: after, loops.symm⟩

/-- The loops that a tag crosses are different ones. -/
lemma Nested.loops_nodup (h : t.Nested) (fronts : b.Fronts (t.path scope)) : b.loops.Nodup := by
  obtain ⟨behind, split⟩ := fronts
  have distinct : (t.path scope).Nodup := h.path_nodup
  rw [split] at distinct
  exact (List.nodup_append.1 distinct).1

end Scopes

end PipeLang
