import Mathlib.Data.List.Forall2
import PipeLang.Proofs.Eval.Frames

/-!
# Heaps that grow

Frames are never taken away, the frames around a frame stay, and what a frame has been given stays with it: `Heap.Grows`. So what is
said of the values of a tag in the frames of a loop goes on to hold: `Heap.Layered` says that a value of a tag is a sequence of values
that frames of iterations have for the tag, and that these are sequences in turn, as often as a scope sees the tag as a sequence.
-/

namespace PipeLang

namespace Heap

variable {h h' h'' : Heap} {f g : FrameId} {id : BindingId} {v : Value} {n : Nat}

/-- Every frame is still there, with the same frames around it, and has its values behind those that it has been given since. -/
def Grows (h h' : Heap) : Prop :=
  ∀ (f : FrameId) (frame : Frame), h[(f : Nat)]? = some frame → ∃ new, h'[(f : Nat)]? = some ⟨frame.outer, new ++ frame.values⟩

/-- A frame has been given a value for a binding. -/
def Holds (h : Heap) (f : FrameId) (id : BindingId) (v : Value) : Prop :=
  ∃ frame, h[(f : Nat)]? = some frame ∧ (id, v) ∈ frame.values

/-- A value of a binding in a frame is a sequence of values that frames opened inside that frame hold for the binding, and so on, a
number of times. -/
def Layered (h : Heap) (id : BindingId) : Nat → FrameId → Value → Prop
  | 0, _, _ => True
  | n + 1, f, v => ∃ entries : List (FrameId × Value), v = .array (entries.map Prod.snd) ∧
    ∀ entry ∈ entries, h.chain entry.1 = entry.1 :: h.chain f ∧ h.Holds entry.1 id entry.2 ∧ h.Layered id n entry.1 entry.2

namespace Grows

lemma refl : h.Grows h := fun _ _ found => ⟨[], found⟩

lemma trans (grows : h.Grows h') (grows' : h'.Grows h'') : h.Grows h'' := fun f frame found => by
  obtain ⟨new, there⟩ := grows f frame found
  obtain ⟨new', there'⟩ := grows' f _ there
  exact ⟨new' ++ new, by rw [there', List.append_assoc]⟩

lemma push {parent : Option FrameId} : h.Grows (h.push parent) := fun _ _ found =>
  ⟨[], (push_old (Array.getElem?_eq_some_iff.1 found).1).trans found⟩

lemma define : h.Grows (h.define f id v) := fun g frame found => by
  by_cases same : f = g
  · exact ⟨[(id, v)], by simp [getElem?_define, same, found]⟩
  · exact ⟨[], by simp [getElem?_define, same, found]⟩

lemma size_le (grows : h.Grows h') : h.size ≤ h'.size := by
  by_contra fewer
  have inside := Nat.lt_of_not_le fewer
  obtain ⟨new, there⟩ := grows _ _ (Array.getElem?_eq_getElem inside)
  simp at there

/-- The frames around a frame that is there stay. -/
lemma chain (grows : h.Grows h') (inside : (f : Nat) < h.size) : h'.chain f = h.chain f := by
  have found := Array.getElem?_eq_getElem inside
  obtain ⟨new, there⟩ := grows f _ found
  simp only [Heap.chain, found, there]

end Grows

lemma Holds.inside (holds : h.Holds f id v) : (f : Nat) < h.size := by
  obtain ⟨frame, found, -⟩ := holds
  exact (Array.getElem?_eq_some_iff.1 found).1

lemma Holds.grows (holds : h.Holds f id v) (grows : h.Grows h') : h'.Holds f id v := by
  obtain ⟨frame, found, member⟩ := holds
  obtain ⟨new, there⟩ := grows f frame found
  exact ⟨_, there, List.mem_append_right _ member⟩

lemma holds_of_getLocal (found : h.getLocal? f id = some v) : h.Holds f id v := by
  unfold getLocal? at found
  split at found
  · next frame there => exact ⟨frame, there, mem_of_lookup found⟩
  · cases found

lemma holds_define (inside : (f : Nat) < h.size) : (h.define f id v).Holds f id v := by
  refine ⟨{ h[f] with values := (id, v) :: h[f].values }, ?_, List.mem_cons_self⟩
  simp [getElem?_define, Array.getElem?_eq_getElem inside]

/-- A frame has been given no more than what it had and what is given now. -/
lemma Holds.of_define {w : Value} {b : BindingId} (holds : (h.define f id v).Holds g b w) :
    h.Holds g b w ∨ g = f ∧ b = id ∧ w = v := by
  obtain ⟨frame, found, member⟩ := holds
  rw [getElem?_define] at found
  split at found
  · next same =>
    obtain ⟨old, there, rfl⟩ := Option.map_eq_some_iff.1 found
    rcases List.mem_cons.1 member with new | before
    · obtain ⟨rfl, rfl⟩ := Prod.mk.inj new
      exact Or.inr ⟨same.symm, rfl, rfl⟩
    · exact Or.inl ⟨old, there, before⟩
  · exact Or.inl ⟨frame, found, member⟩

/-- A new frame has been given nothing. -/
lemma Holds.of_push {parent : Option FrameId} (holds : (h.push parent).Holds f id v) : h.Holds f id v := by
  obtain ⟨frame, found, member⟩ := holds
  rcases push_found found with ⟨-, empty⟩ | old
  · rw [empty] at member
    cases member
  · exact ⟨frame, old, member⟩

lemma Layered.grows (layered : h.Layered id n f v) (inside : (f : Nat) < h.size) (grows : h.Grows h') :
    h'.Layered id n f v := by
  induction n generalizing f v with
  | zero => trivial
  | succ n ih =>
    obtain ⟨entries, rfl, each⟩ := layered
    refine ⟨entries, rfl, fun entry member => ?_⟩
    obtain ⟨chain, holds, inner⟩ := each entry member
    exact ⟨by rw [grows.chain holds.inside, grows.chain inside, chain], holds.grows grows, ih inner holds.inside⟩

/-- What a loop collects from the frames of its iterations has one layer more than the values in them. -/
lemma Layered.collect {frames : List FrameId} (opened : ∀ g ∈ frames, h.chain g = g :: h.chain f)
    (each : ∀ g ∈ frames, ∀ w, h.Holds g id w → h.Layered id n g w) :
    h.Layered id (n + 1) f (.array (frames.filterMap fun g => h.getLocal? g id)) := by
  refine ⟨frames.filterMap fun g => (h.getLocal? g id).map fun w => (g, w), ?_, fun entry member => ?_⟩
  · simp [List.map_filterMap, Function.comp_def]
  · obtain ⟨g, among, made⟩ := List.mem_filterMap.1 member
    obtain ⟨w, found, rfl⟩ := Option.map_eq_some_iff.1 made
    have holds := holds_of_getLocal found
    exact ⟨opened g among, holds, each g among w holds⟩

/-- A frame is one of an iteration, inside the frame around its loop: the loop variable is bound to an element. -/
structure Iterates (h : Heap) (around : FrameId) (bound? : Option BindingId) (f : FrameId) (element : Value) : Prop where
  chain : h.chain f = f :: h.chain around
  bound : ∀ id ∈ bound?, h.Holds f id element

lemma inside_of_chain {others : List FrameId} (chain : h.chain f = g :: others) : (f : Nat) < h.size := by
  by_contra outside
  simp [Heap.chain, Array.getElem?_eq_none (Nat.le_of_not_lt outside)] at chain

lemma Iterates.grows {around : FrameId} {bound? : Option BindingId} (iterates : h.Iterates around bound? f v)
    (inside : (around : Nat) < h.size) (grows : h.Grows h') : h'.Iterates around bound? f v where
  chain := by rw [grows.chain (inside_of_chain iterates.chain), grows.chain inside, iterates.chain]
  bound id member := (iterates.bound id member).grows grows

/-- Every value in a frame has as many layers as the scope of the frame sees of the binding. -/
def AllLayered (p : Program) (labels : Labels) (h : Heap) : Prop :=
  ∀ (f : FrameId) module scope t, labels[(f : Nat)]? = some (module, scope) → p.resolvedOf module = some t →
    ∀ (id : BindingId) v b, h.Holds f id v → t.scopes.bindings[(id : Nat)]? = some b →
      h.Layered id (t.scopes.layersAt b scope) f v

namespace AllLayered

variable {p : Program} {labels : Labels} {module : ModuleId} {t : Resolved} {scope : ScopeId}

lemma push (all : h.AllLayered p labels) (size : labels.length = h.size) {parent : Option FrameId}
    {added : ModuleId × ScopeId} : (h.push parent).AllLayered p (labels ++ [added]) := by
  intro f module scope t label resolved id v b holds found
  have old := holds.of_push
  rw [List.getElem?_append_left (size ▸ old.inside)] at label
  exact (all f module scope t label resolved id v b old found).grows old.inside .push

/-- A frame is given a value with the layers that its scope sees. -/
lemma define (all : h.AllLayered p labels) (label : labels[(f : Nat)]? = some (module, scope))
    (resolved : p.resolvedOf module = some t)
    (layered : ∀ b, t.scopes.bindings[(id : Nat)]? = some b → h.Layered id (t.scopes.layersAt b scope) f v) :
    (h.define f id v).AllLayered p labels := by
  intro g module' scope' t' label' resolved' id' w b holds found
  rcases holds.of_define with old | ⟨rfl, rfl, rfl⟩
  · exact (all g module' scope' t' label' resolved' id' w b old found).grows old.inside .define
  · obtain ⟨rfl, rfl⟩ := Prod.mk.inj (Option.some.inj (label'.symm.trans label))
    obtain rfl := Option.some.inj (resolved'.symm.trans resolved)
    have inside := holds.inside
    rw [show (h.define g id' w).size = h.size by simp [Heap.define]] at inside
    exact (layered b found).grows inside .define

end AllLayered

end Heap

end PipeLang
