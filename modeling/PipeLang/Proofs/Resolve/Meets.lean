import PipeLang.Proofs.Resolve.Module
import PipeLang.Proofs.Resolve.Outcomes

/-!
# Moments of uses

Every name and every path in a piece of syntax is used at one moment of the resolution of the piece, and what is noted of names
before that moment and behind it concerns other places. That a resolution meets the occurrences of syntax is put together here
from pieces, as `Resolution.Meets.seq` does for one piece behind another.
-/

namespace PipeLang

open Resolve

/-- A resolution has gone on behind an offset: scopes and bindings are kept and come behind the offset, and so do places of which
something is recorded. -/
structure Resolution.Onward (mark : Nat) (r r' : Resolution) : Prop where
  scopes : r.scopes.Grows mark r'.scopes
  references : ∀ {s x}, r.references.get? s = some x → r'.references.get? s = some x
  newReference : ∀ {s x}, r'.references.get? s = some x → r.references.get? s = some x ∨ mark < s.stop

variable {load : Loader} {r r' r'' : Resolution} {a b m m' lo hi stop mark : Nat} {occs occs' : List Occurrence}
  {incoming : Option Ty} {o : Occurrence}

namespace Resolution

lemma Later.onward (h : r.Later mark r') : r.Onward mark r' :=
  ⟨h.scopes, h.references, h.newReference⟩

namespace Onward

lemma trans (h : r.Onward mark r') (h' : r'.Onward mark r'') : r.Onward mark r'' where
  scopes := h.scopes.trans h'.scopes
  references found := h'.references (h.references found)
  newReference found := (h'.newReference found).elim h.newReference Or.inr

lemma mono (h : r.Onward mark r') (le : m ≤ mark) : r.Onward m r' where
  scopes := h.scopes.mono le
  references := h.references
  newReference found := (h.newReference found).imp_right (Nat.lt_of_le_of_lt le)

/-- A change that leaves uses as they are. -/
lemma of_grows (scopes : r.scopes.Grows mark r'.scopes) (references : r'.references = r.references) :
    r.Onward mark r' where
  scopes := scopes
  references found := references ▸ found
  newReference found := Or.inl (references ▸ found)

lemma of_same (scopes : r'.scopes = r.scopes) (references : r'.references = r.references) : r.Onward mark r' :=
  .of_grows (scopes ▸ .refl) references

lemma refl : r.Onward mark r :=
  .of_same rfl rfl

end Onward

end Resolution

lemma Quiet.onward {tells : Resolution → Prop} (h : Quiet load r r' tells) : r.Onward mark r' :=
  .of_same h.scopes h.references

lemma Walked.onward {tells : Resolution → Prop} (h : Walked load a b r r' tells) : r.Onward a r' :=
  h.moves.spread.later.onward

namespace Resolve

lemma introduce_onward {binding : Binding} (behind : mark ≤ binding.visibleFrom) :
    r.Onward mark (after (introduce binding) r) := by
  cases free : obstacle? r.program.policy r.scopes binding with
  | none => exact (introduce_free free).2 ▸ .of_grows (.insert behind) rfl
  | some other => exact (introduce_taken free).2 ▸ .of_same rfl rfl

lemma declareInner_onward {ident : Ident} {ty : Ty} {origin : Origin} :
    r.Onward mark (after (declareInner ident mark ty origin) r) :=
  introduce_onward (Nat.le_refl _)

lemma addLoopTags_onward {tag : BindingId} {loops : List ScopeId} :
    r.Onward mark (after (loops.forM (addLoopTag tag)) r) := by
  induction loops generalizing r with
  | nil => exact .refl
  | cons loop loops ih =>
    rw [List.forM_eq_forM, List.forM_cons, after_bind]
    refine Resolution.Onward.trans ?_ ih
    simp only [addLoopTag, after_modify]
    split
    · exact .of_same rfl rfl
    · exact .refl

lemma declareTag_onward {tag : Ident} {ty : Ty} : r.Onward mark (after (declareTag tag mark ty) r) := by
  obtain ⟨home, loops⟩ := r.scopes.tagHome r.current
  let binding : Binding := ⟨tag.name, tag.name, .inner r.scopes.nextBinding, (r.scopes.tagHome r.current).1, mark,
    tag.span, ty, .tag, (r.scopes.tagHome r.current).2⟩
  have introduced : r.Onward mark (after (introduce binding) r) := introduce_onward (Nat.le_refl _)
  show r.Onward mark (after (collect binding.loops (answer (introduce binding) r)) (after (introduce binding) r))
  refine introduced.trans ?_
  cases answer (introduce binding) r with
  | none => exact .refl
  | some id => exact addLoopTags_onward

lemma publish_onward {e : Export} : r.Onward mark (after (publish e) r) := by
  cases inserted : (r.program.exportsOf r.home).insert e with
  | ok exports => exact publish_new inserted ▸ .of_same rfl rfl
  | error first => exact publish_taken inserted ▸ .of_same rfl rfl

lemma define_onward {exported topLevel isFunction : Bool} {name : Ident} {ty : Ty} {span : Span} :
    r.Onward span.stop (after (define exported topLevel name isFunction ty span) r) := by
  simp only [define]
  split
  · let binding : Binding := ⟨name.name, name.name, .item r.home name.name, r.current, span.stop, name.span, ty,
      .declaration, []⟩
    let e : Export := ⟨name.name, .item r.home name.name, if isFunction then .function else .constant, name.span, ty,
      false⟩
    have introduced : r.Onward span.stop (after (introduce binding) r) := introduce_onward (Nat.le_refl _)
    show r.Onward span.stop (after (offer e (answer (introduce binding) r)) (after (introduce binding) r))
    refine introduced.trans ?_
    cases answer (introduce binding) r with
    | none => exact .refl
    | some id => exact publish_onward
  · exact declareInner_onward

end Resolve

/-! ### Moments -/

/-- From one state to another a resolution comes upon an occurrence. What is noted before that moment and behind it stands elsewhere. -/
inductive Occurrence.Met (occs : List Occurrence) (o : Occurrence) (r r' : Resolution) : Prop where
  | mk {now next head} :
    o.head? = some head →
    now.Tidy →
    now.Ready o.span.start o.span.stop →
    r.Notes (fun s => ¬ o.span.holds s = true) occs now →
    o.Outcome head now next →
    next.Notes (fun s => ¬ o.span.holds s = true) occs r' →
    next.Onward o.span.stop r' →
    Met occs o r r'

/-- A resolution goes over syntax between two offsets and comes upon its occurrences. -/
structure Resolution.Meets (lo hi : Nat) (occs : List Occurrence) (r r' : Resolution) : Prop where
  notes : r.Notes (Span.Between lo hi) occs r'
  onward : r.Onward lo r'
  met : ∀ o ∈ occs, o.head?.isSome = true → o.span.Between lo hi ∧ o.Met occs r r'

namespace Occurrence.Met

lemma mono (h : o.Met occs r r') (sub : occs ⊆ occs') : o.Met occs' r r' := by
  cases h with
  | mk head tidy ready before outcome behind onward =>
    exact .mk head tidy ready (before.mono (fun _ => id) sub) outcome (behind.mono (fun _ => id) sub) onward

/-- What goes on behind an occurrence, and notes other places. -/
lemma andThen (h : o.Met occs r r') (notes : r'.Notes (fun s => ¬ o.span.holds s = true) occs r'')
    (onward : r'.Onward o.span.stop r'') : o.Met occs r r'' := by
  cases h with
  | mk head tidy ready before outcome behind onward' =>
    exact .mk head tidy ready before outcome (behind.trans notes) (onward'.trans onward)

/-- What goes on before an occurrence, and notes other places. -/
lemma behind (notes : r.Notes (fun s => ¬ o.span.holds s = true) occs r') (h : o.Met occs r' r'') : o.Met occs r r'' := by
  cases h with
  | mk head tidy ready before outcome behind onward =>
    exact .mk head tidy ready (notes.trans before) outcome behind onward

end Occurrence.Met

namespace Resolution.Meets

lemma none : r.Meets lo hi [] r :=
  ⟨.refl, .refl, nofun⟩

/-- A name or path by itself. -/
lemma one {head : Ident} (same : o.head? = some head) (proper : o.span.Proper) (tidy : r.Tidy)
    (ready : r.Ready o.span.start o.span.stop) (notes : r.Notes (Span.Between o.span.start o.span.stop) [o] r')
    (onward : r.Onward o.span.start r') (outcome : o.Outcome head r r') : r.Meets o.span.start o.span.stop [o] r' :=
  ⟨notes, onward, List.forall_mem_singleton.2 fun _ =>
    ⟨⟨Nat.le_refl _, proper, Nat.le_refl _⟩, .mk same tidy ready .refl outcome .refl .refl⟩⟩

lemma widen (h : r.Meets lo hi occs r') (before : a ≤ lo) (behind : hi ≤ b) : r.Meets a b occs r' where
  notes := h.notes.mono (fun _ between => between.widen before behind) (List.Subset.refl _)
  onward := h.onward.mono before
  met o member isUse := (h.met o member isUse).imp_left fun between => between.widen before behind

/-- Two pieces of syntax, the second behind the first. -/
lemma seq (h : r.Meets a m occs r') (h' : r'.Meets m b occs' r'') (first : a ≤ m) (last : m ≤ b) :
    r.Meets a b (occs ++ occs') r'' where
  notes := (h.notes.mono (fun _ between => between.widen (Nat.le_refl _) last) (List.subset_append_left _ _)).trans
    (h'.notes.mono (fun _ between => between.widen first (Nat.le_refl _)) (List.subset_append_right _ _))
  onward := h.onward.trans (h'.onward.mono first)
  met o member isUse := by
    rcases List.mem_append.1 member with here | here
    · obtain ⟨between, met⟩ := h.met o here isUse
      have apart := h'.notes.mono (fun _ other => other.not_holds (Or.inr between.2.2)) (List.subset_append_right occs _)
      exact ⟨between.widen (Nat.le_refl _) last,
        (met.mono (List.subset_append_left _ _)).andThen apart (h'.onward.mono between.2.2)⟩
    · obtain ⟨between, met⟩ := h'.met o here isUse
      have apart := h.notes.mono (fun _ other => other.not_holds (Or.inl between.1)) (List.subset_append_left _ occs')
      exact ⟨between.widen first (Nat.le_refl _), .behind apart (met.mono (List.subset_append_right _ _))⟩

/-- A piece of syntax and those behind it, in order. -/
lemma next {s : Span} (h : r.Meets s.start s.stop occs r') (h' : r'.Meets (s.stop + 1) stop occs' r'') (le : lo ≤ s.start)
    (proper : s.Proper) (last : s.stop ≤ stop) : r.Meets lo stop (occs ++ occs') r'' := by
  have first : lo ≤ s.stop := Nat.le_trans le (Nat.le_of_lt proper)
  exact (h.widen le (Nat.le_refl _)).seq (h'.widen (Nat.le_succ _) (Nat.le_refl _)) first last

/-- A step behind a piece of syntax, which notes places before it or behind it. -/
lemma andThen (h : r.Meets lo hi occs r') (notes : r'.Notes (Span.Between m m') [] r'') (onward : r'.Onward hi r'')
    (apart : m' ≤ lo ∨ hi ≤ m) (first : a ≤ lo) (first' : a ≤ m) (le : lo ≤ hi) (last : hi ≤ b) (last' : m' ≤ b) :
    r.Meets a b occs r'' where
  notes := (h.notes.mono (fun _ between => between.widen first last) (List.Subset.refl _)).trans
    (notes.mono (fun _ between => between.widen first' last') (List.nil_subset _))
  onward := (h.onward.mono first).trans (onward.mono (Nat.le_trans first le))
  met o member isUse := by
    obtain ⟨between, met⟩ := h.met o member isUse
    have outside : m' ≤ o.span.start ∨ o.span.stop ≤ m :=
      apart.imp (Nat.le_trans · between.1) (Nat.le_trans between.2.2)
    exact ⟨between.widen first last,
      met.andThen (notes.mono (fun _ other => other.not_holds outside) (List.nil_subset _)) (onward.mono between.2.2)⟩

/-- A step before a piece of syntax, which notes places before it. -/
lemma behind (notes : r.Notes (Span.Between a m) [] r') (onward : r.Onward a r') (h : r'.Meets m hi occs r'')
    (first : a ≤ m) (last : m ≤ hi) : r.Meets a hi occs r'' :=
  seq ⟨notes, onward, nofun⟩ h first last

/-- A quiet step behind a piece of syntax that notes nothing of names. -/
lemma andQuiet {tells : Resolution → Prop} (h : r.Meets lo hi occs r') (notes : r'.Notes (Span.Between hi hi) [] r'')
    (quiet : Quiet load r' r'' tells) (le : lo ≤ hi) : r.Meets lo hi occs r'' :=
  h.andThen notes quiet.onward (Or.inr (Nat.le_refl _)) (Nat.le_refl _) le le (Nat.le_refl _) (Nat.le_refl _)

/-- A quiet step before a piece of syntax that notes nothing of names. -/
lemma behindQuiet {tells : Resolution → Prop} (notes : r.Notes (Span.Between lo lo) [] r') (quiet : Quiet load r r' tells)
    (h : r'.Meets lo hi occs r'') (le : lo ≤ hi) : r.Meets lo hi occs r'' :=
  .behind notes quiet.onward h (Nat.le_refl _) le

/-- Syntax in a scope that is opened for it. -/
lemma inside {kind : ScopeKind} {range : Span} (h : (after (enter kind range) r).Meets m m' occs r')
    (le : range.start ≤ m) (within : m' ≤ range.stop) :
    r.Meets range.start range.stop occs { r' with current := r.current } := by
  have wide := h.widen le within
  have entered : r.Notes (Span.Between range.start range.stop) occs (after (enter kind range) r) := .of_same rfl rfl rfl
  have left : r'.Notes (Span.Between range.start range.stop) occs { r' with current := r.current } := .of_same rfl rfl rfl
  refine ⟨(entered.trans wide.notes).trans left, ?_, fun o member isUse => ?_⟩
  · have opened : r.Onward range.start (after (enter kind range) r) := .of_grows (.push (Nat.le_refl _)) rfl
    exact (opened.trans wide.onward).trans (.of_same rfl rfl)
  · obtain ⟨between, met⟩ := wide.met o member isUse
    have back : o.Met occs (after (enter kind range) r) { r' with current := r.current } :=
      met.andThen (.of_same rfl rfl rfl) (.of_same rfl rfl)
    have before : r.Notes (fun s => ¬ o.span.holds s = true) occs (after (enter kind range) r) := .of_same rfl rfl rfl
    exact ⟨between, back.behind before⟩

end Resolution.Meets

end PipeLang
