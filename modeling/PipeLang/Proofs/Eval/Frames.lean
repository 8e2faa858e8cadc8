import PipeLang.Eval.Machine
import PipeLang.Proofs.Eval.Functions
import PipeLang.Proofs.Load.Loaded

/-!
# Frames and scopes

Every frame of a running program is an activation of a scope: the frames around it are activations of the scopes around
that scope, one for each, and it holds only what the scope may store. `Heap.Lexical` says so of a heap, and
`Machine.Sound` adds what is known of the values in it.
-/

namespace PipeLang

/-- For every frame, the module and the scope that it is an activation of. -/
abbrev Labels := List (ModuleId × ScopeId)

lemma Labels.kept {labels labels' : Labels} {f : Nat} {x : ModuleId × ScopeId} (grows : labels <+: labels')
    (h : labels[f]? = some x) : labels'[f]? = some x := by
  obtain ⟨more, rfl⟩ := grows
  rw [List.getElem?_append_left (List.getElem?_eq_some_iff.1 h).1]
  exact h

namespace Heap

/-- A frame is an activation of a scope of a module. -/
structure Activates (h : Heap) (labels : Labels) (module : ModuleId) (t : Resolved) (scope : ScopeId) (f : FrameId) :
    Prop where
  chain : (h.chain f).map (fun g => labels[(g : Nat)]?) = (t.scopes.path scope).map fun s => some (module, s)
  stores : ∀ frame, h[(f : Nat)]? = some frame → ∀ entry ∈ frame.values, t.scopes.Stores scope entry.1

/-- Every frame is an activation of the scope that it is labelled with. -/
structure Lexical (p : Program) (labels : Labels) (h : Heap) : Prop where
  size : labels.length = h.size
  frames : ∀ {f : Nat} {module scope}, labels[f]? = some (module, scope) →
    ∃ t, p.resolvedOf module = some t ∧ t.scopes.Nested ∧ h.Activates labels module t scope f

variable {p : Program} {h h' : Heap} {labels labels' : Labels} {module : ModuleId} {t : Resolved} {scope inner : ScopeId}

/-- A frame stays an activation while other frames are opened. -/
lemma Activates.mono {f : Nat} (activates : h.Activates labels module t scope f) (grows : labels <+: labels')
    (same : h'[f]? = h[f]?) : h'.Activates labels' module t scope f := by
  refine ⟨?_, fun frame found => activates.stores frame (same ▸ found)⟩
  have chain : h'.chain f = h.chain f := by simp only [Heap.chain, same]
  rw [chain, ← activates.chain]
  refine List.map_congr_left fun g member => ?_
  have labelled : labels[(g : Nat)]? ∈ (t.scopes.path scope).map fun s => some (module, s) :=
    activates.chain ▸ List.mem_map_of_mem member
  obtain ⟨s, -, e⟩ := List.mem_map.1 labelled
  rw [← e]
  exact Labels.kept grows e.symm

/-- The first frame around an opened frame is its parent. -/
lemma push_chain {parent : Nat} (inside : parent < h.size) :
    (h.push (some parent)).chain h.size = h.size :: h.chain parent := by
  simp [Heap.push, Heap.chain, inside]

lemma push_old {parent : Option FrameId} {f : Nat} (inside : f < h.size) : (h.push parent)[f]? = h[f]? := by
  simp [Heap.push, Array.getElem?_push, Nat.ne_of_lt inside]

/-- A frame is new and empty, or it was there before. -/
lemma push_found {parent : Option FrameId} {f : Nat} {frame : Frame} (found : (h.push parent)[f]? = some frame) :
    f = h.size ∧ frame.values = [] ∨ h[f]? = some frame := by
  simp only [Heap.push, Array.getElem?_push] at found
  split at found
  · next new =>
    cases found
    exact Or.inl ⟨new, rfl⟩
  · exact Or.inr found

lemma size_push {parent : Option FrameId} : (h.push parent).size = h.size + 1 := by
  simp [Heap.push]

/-- With one more frame. -/
lemma Lexical.push (lexical : h.Lexical p labels) {parent : Option FrameId} (resolved : p.resolvedOf module = some t)
    (nested : t.scopes.Nested) (chain : ((h.push parent).chain h.size).map (fun g => (labels ++ [(module, scope)])[(g : Nat)]?) =
      (t.scopes.path scope).map fun s => some (module, s)) :
    (h.push parent).Lexical p (labels ++ [(module, scope)]) := by
  refine ⟨by simp [size_push, lexical.size], fun {f module' scope'} found => ?_⟩
  rw [List.getElem?_append] at found
  split at found
  · next inside =>
    obtain ⟨t', resolved', nested', activates⟩ := lexical.frames found
    exact ⟨t', resolved', nested', activates.mono (List.prefix_append _ _) (push_old (lexical.size ▸ inside))⟩
  · next outside =>
    have last : f = h.size := by
      have := (List.getElem?_eq_some_iff.1 found).1
      have := lexical.size
      simp at *
      omega
    subst last
    rw [lexical.size, Nat.sub_self, List.getElem?_cons_zero, Option.some.injEq, Prod.mk.injEq] at found
    obtain ⟨rfl, rfl⟩ := found
    refine ⟨t, resolved, nested, chain, fun frame found entry member => ?_⟩
    rcases push_found found with ⟨-, empty⟩ | old
    · rw [empty] at member
      cases member
    · simp at old

/-- A frame for a scope inside another. -/
lemma Lexical.pushInner (lexical : h.Lexical p labels) {parent : Nat} (resolved : p.resolvedOf module = some t)
    (label : labels[parent]? = some (module, scope)) (opens : t.scopes.Opens scope inner) :
    (h.push (some parent)).Lexical p (labels ++ [(module, inner)]) := by
  obtain ⟨t', resolved', nested, activates⟩ := lexical.frames label
  rw [resolved, Option.some.injEq] at resolved'
  subst resolved'
  have inside : parent < h.size := lexical.size ▸ (List.getElem?_eq_some_iff.1 label).1
  refine lexical.push resolved nested ?_
  rw [push_chain inside, opens, List.map_cons, List.map_cons, List.cons.injEq]
  have around := (activates.mono (List.prefix_append labels [(module, inner)]) rfl).chain
  exact ⟨by simp [← lexical.size], around⟩

/-- What is opened inside the scope of a frame is not the scope of the module. -/
lemma Lexical.inner_ne_root (lexical : h.Lexical p labels) {f : Nat} (resolved : p.resolvedOf module = some t)
    (label : labels[f]? = some (module, scope)) (opens : t.scopes.Opens scope inner) : inner ≠ Scopes.root := by
  obtain ⟨t', resolved', nested, activates⟩ := lexical.frames label
  rw [resolved, Option.some.injEq] at resolved'
  subst resolved'
  rintro rfl
  rw [Scopes.Opens, nested.root, List.cons.injEq] at opens
  have inside : f < h.size := lexical.size ▸ (List.getElem?_eq_some_iff.1 label).1
  have chain := activates.chain
  rw [← opens.2] at chain
  simp [Heap.chain, inside] at chain

/-- A frame for the scope of a module. -/
lemma Lexical.pushRoot (lexical : h.Lexical p labels) (resolved : p.resolvedOf module = some t)
    (nested : t.scopes.Nested) : (h.push none).Lexical p (labels ++ [(module, Scopes.root)]) := by
  refine lexical.push resolved nested ?_
  have chain : (h.push none).chain h.size = [h.size] := by simp [Heap.push, Heap.chain]
  simp [chain, nested.root, lexical.size]

lemma getElem?_define {frame f : Nat} {id : BindingId} {v : Value} : (h.define frame id v)[f]? =
    if frame = f then h[f]?.map fun old => { old with values := (id, v) :: old.values } else h[f]? := by
  simp [Heap.define, Array.getElem?_modify]

lemma chain_define {frame f : Nat} {id : BindingId} {v : Value} : (h.define frame id v).chain f = h.chain f := by
  simp only [Heap.chain, getElem?_define]
  by_cases same : frame = f
  · rw [if_pos same]
    cases h[f]? <;> rfl
  · rw [if_neg same]

/-- A frame is given a value for a binding that its scope may store. -/
lemma Lexical.define (lexical : h.Lexical p labels) {frame : Nat} {id : BindingId} {v : Value}
    (resolved : p.resolvedOf module = some t) (label : labels[frame]? = some (module, scope))
    (stores : t.scopes.Stores scope id) : (h.define frame id v).Lexical p labels := by
  refine ⟨by simp [Heap.define, lexical.size], fun {f module' scope'} found => ?_⟩
  obtain ⟨t', resolved', nested, activates⟩ := lexical.frames found
  refine ⟨t', resolved', nested, chain_define.symm ▸ activates.chain, fun now new entry member => ?_⟩
  rw [getElem?_define] at new
  split at new
  · next same =>
    subst same
    rw [label, Option.some.injEq, Prod.mk.injEq] at found
    obtain ⟨rfl, rfl⟩ := found
    rw [resolved, Option.some.injEq] at resolved'
    subst resolved'
    obtain ⟨old, found, rfl⟩ := Option.map_eq_some_iff.1 new
    rcases List.mem_cons.1 member with rfl | before
    · exact stores
    · exact activates.stores old found entry before
  · exact activates.stores now new entry member

end Heap

end PipeLang
