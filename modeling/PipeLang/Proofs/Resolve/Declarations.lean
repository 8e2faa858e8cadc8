import Mathlib.Data.List.TakeWhile
import PipeLang.Proofs.Resolve.Names
import PipeLang.Proofs.Resolve.Parts

/-!
# Declarations

What a declaration makes of a resolution: the name at its place introduces a binding of the current scope, or for a
tag of the nearest scope that is no loop body, unless the declaration is refused.
-/

namespace PipeLang

namespace Scopes

variable {t : Scopes}

/-- The home of a tag is on the way out of a scope, behind the loop bodies that the tag crosses. -/
lemma Nested.tagHome_split (h : t.Nested) {scope : ScopeId} (inside : scope < t.scopes.size) :
    ∃ loops home behind, t.path scope = loops ++ home :: behind ∧ t.tagHome scope = (home, loops) := by
  have split := List.takeWhile_append_dropWhile (p := t.isLoopBody) (l := t.path scope)
  simp only [tagHome]
  cases rest : (t.path scope).dropWhile t.isLoopBody with
  | nil =>
    have loop := List.dropWhile_eq_nil_iff.1 rest Scopes.root (h.root_mem inside)
    rw [h.notLoop] at loop
    cases loop
  | cons home behind =>
    rw [rest] at split
    exact ⟨_, home, behind, split.symm, rfl⟩

/-- A tag crosses the loop bodies up to its home. -/
lemma Nested.crosses_of_split (h : t.Nested) {scope : ScopeId} {b : Binding} {behind : List ScopeId}
    (split : t.path scope = b.loops ++ b.scope :: behind) : t.Crosses b := by
  intro loop crossed
  obtain ⟨before, between, e⟩ := List.append_of_mem crossed
  rw [e, List.append_assoc, List.cons_append] at split
  have path := h.path_split split
  cases between with
  | nil => exact ⟨b.scope, behind, path, Or.inl rfl⟩
  | cons outer between =>
    refine ⟨outer, between ++ b.scope :: behind, path, Or.inr ?_⟩
    simp [e]

/-- A binding without loops crosses none. -/
lemma crosses_of_none {b : Binding} (none : b.loops = []) : t.Crosses b := by
  simp [Crosses, none]

end Scopes

namespace Resolve

variable {load : Loader} {r r' : Resolution} {lo hi : Nat}

/-- What a declaration makes of a resolution. -/
inductive Introduced (load : Loader) (r : Resolution) (b : Binding) : Option BindingId → Resolution → Prop where
  | done :
    obstacle? r.program.policy r.scopes b = none →
    Introduced load r b (some r.scopes.nextBinding) (r.declaring b)
  | refused {next : Resolution} :
    Quiet load r next (fun f => ¬ f.Clean) →
    Introduced load r b none next

lemma introduce_introduced {b : Binding} :
    Introduced load r b (answer (introduce b) r) (after (introduce b) r) := by
  simp only [introduce, install, after_bind, answer_bind, answer_get, after_get]
  cases free : obstacle? r.program.policy r.scopes b with
  | none => exact .done free
  | some other => exact .refused (report_fault rfl)

variable {b : Binding} {found : Option BindingId} {mark : Nat}

/-- Behind a step the name at a place is declared in a scope, and before an offset nothing has changed. -/
structure Declared (load : Loader) (lo hi mark : Nat) (r r' : Resolution) (scope : ScopeId) (site : Span) :
    Prop where
  walked : Walked load lo hi r r' fun f => f.Clean → f.resolved.Declares scope site mark
  later : r.Later mark r'

/-- A name that is declared is declared in its scope and in the loops that it counts for, whatever else the module makes
of it. -/
lemma Declared.of_move (move : Move load lo hi r r') (scopes : r'.scopes = (r.declaring b).scopes) (declarations : r'.declarations = (r.declaring b).declarations)
    (current : r'.current = r.current) (references : r'.references = r.references) {s : ScopeId}
    (stored : b.HeldIn s) (fronts : b.Fronts (r.scopes.path s)) :
    Declared load lo hi b.visibleFrom r r' s b.site where
  walked := by
    refine ⟨.single move, current, fun {f} _ later _ =>
      ⟨r.scopes.nextBinding, b, ?_, ?_, stored, rfl, ?_⟩⟩
    · apply later.declarations
      rw [declarations, Resolution.declaring, SpanTable.get?_insert, if_pos rfl]
    · apply later.scopes.bindings
      simp [scopes, Resolution.declaring, Scopes.insert, Scopes.nextBinding]
    · obtain ⟨behind, split⟩ := fronts
      have there : b.scope ∈ r.scopes.path s := by simp [split]
      have kept : f.scopes.path s = r'.scopes.path s :=
        later.scopes.path_eq (by rw [scopes]; exact Scopes.lt_of_mem_path there)
      rw [scopes] at kept
      exact ⟨behind, kept.trans split⟩
  later := { move.spread.later with
    scopes := scopes ▸ .insert (Nat.le_refl _)
    newReference := fun found => Or.inl (references ▸ found) }

/-- A declaration of a name that the module keeps for itself declares it. -/
lemma Introduced.declared (introduced : Introduced load r b found r') (scope : b.scope < r.scopes.scopes.size)
    (crosses : r.scopes.Crosses b) (target : b.target = .inner r.scopes.nextBinding)
    (fresh : r.declarations.get? b.site = none) (within : b.site.Within lo hi) (from_ : lo ≤ b.visibleFrom)
    (upTo : b.visibleFrom ≤ hi) (own : ¬ b.origin.IsImport) {s : ScopeId} (stored : b.HeldIn s)
    (fronts : b.Fronts (r.scopes.path s)) : Declared load lo hi b.visibleFrom r r' s b.site := by
  cases introduced with
  | done free =>
    have declarable : r.Declarable lo hi b := ⟨free, scope, crosses, from_, upTo, within, fresh, own⟩
    exact .of_move (.declare declarable target) rfl rfl rfl rfl stored fronts
  | refused quiet =>
    refine ⟨quiet.walked.imp fun f faulty clean => absurd clean faulty, ?_⟩
    exact (quiet.moves b.visibleFrom 0).spread.later

/-- Quiet steps behind a declaration. -/
lemma Declared.andQuiet {r'' : Resolution} {scope : ScopeId} {site : Span} {tells : Resolution → Prop}
    (h : Declared load lo hi mark r r' scope site) (quiet : Quiet load r' r'' tells) :
    Declared load lo hi mark r r'' scope site where
  walked := (h.walked.andQuiet quiet).imp fun _ told => told.1
  later := h.later.trans (quiet.moves mark 0).spread.later

/-- Of a place that lies behind nothing is known so far. -/
lemma declarations_fresh {site : Span} (ready : r.Ready lo hi) (from_ : lo ≤ site.start) :
    r.declarations.get? site = none := by
  by_contra known
  obtain ⟨x, known⟩ := Option.ne_none_iff_exists'.1 known
  have := ready.declarations known
  omega

variable {ident : Ident} {visibleFrom : Nat} {ty : Ty}

lemma declareInner_declared {origin : Origin} (tidy : r.Tidy) (own : ¬ origin.IsImport) (fresh : r.declarations.get? ident.span = none)
    (within : ident.span.Within lo hi) (from_ : lo ≤ visibleFrom) (upTo : visibleFrom ≤ hi) :
    Declared load lo hi visibleFrom r (after (declareInner ident visibleFrom ty origin) r) r.current ident.span := by
  let b : Binding := ⟨ident.name, ident.name, .inner r.scopes.nextBinding, r.current, visibleFrom, ident.span, ty,
    origin, []⟩
  have introduced : Introduced load r b (answer (introduce b) r) (after (introduce b) r) := introduce_introduced
  exact introduced.declared tidy.current (Scopes.crosses_of_none rfl) rfl fresh within from_ upTo own (Or.inl rfl)
    (tidy.nested.path_head tidy.current)

/-- Loops that collect a tag leave the tables as they are. -/
lemma addLoopTags_quiet {tag : Nat} {loops : List ScopeId} (known : r.scopes.bindings[tag]? = some b)
    (crossed : ∀ loop ∈ loops, loop ∈ b.loops) :
    Quiet load r (after (loops.forM (addLoopTag tag)) r) fun _ => True := by
  induction loops generalizing r with
  | nil => exact .skip
  | cons loop loops ih =>
    rw [List.forM_eq_forM, List.forM_cons, after_bind]
    have first : Quiet load r (after (addLoopTag tag loop) r) fun _ => True := by
      simp only [addLoopTag, after_modify]
      cases site : r.loopSites.lookup loop with
      | none => exact .skip
      | some site =>
        exact ⟨fun _ _ => .single (.collect known (crossed loop List.mem_cons_self) ‹_›), rfl, rfl, rfl, rfl, rfl,
          rfl, fun _ => trivial⟩
    refine (first.trans (ih ?_ fun loop member => crossed loop (List.mem_cons_of_mem _ member))).imp fun _ _ => trivial
    rw [first.scopes]
    exact known

lemma declareTag_declared (tidy : r.Tidy) (fresh : r.declarations.get? ident.span = none)
    (within : ident.span.Within lo hi) (from_ : lo ≤ visibleFrom) (upTo : visibleFrom ≤ hi) :
    Declared load lo hi visibleFrom r (after (declareTag ident visibleFrom ty) r) r.current ident.span := by
  obtain ⟨loops, home, behind, split, e⟩ := tidy.nested.tagHome_split tidy.current
  have homeInside : home < r.scopes.scopes.size :=
    Nat.lt_of_le_of_lt (tidy.nested.mem_path (x := home) (by simp [split])).1 tidy.current
  have stored : home = r.current ∨ r.current ∈ loops := by
    obtain ⟨outer, path⟩ := tidy.nested.path_head tidy.current
    rw [path] at split
    cases loops with
    | nil => exact Or.inl (List.cons.inj split).1.symm
    | cons loop loops =>
      rw [(List.cons.inj split).1]
      exact Or.inr List.mem_cons_self
  let b : Binding := ⟨ident.name, ident.name, .inner r.scopes.nextBinding, home, visibleFrom, ident.span, ty, .tag,
    loops⟩
  have introduced : Introduced load r b (answer (introduce b) r) (after (introduce b) r) := introduce_introduced
  have declared := introduced.declared homeInside (tidy.nested.crosses_of_split split) rfl fresh within from_ upTo
    (by simp [b, Origin.IsImport]) stored ⟨behind, split⟩
  simp only [declareTag, after_bind, answer_get, after_get, e]
  show Declared load lo hi visibleFrom r (after (collect loops (answer (introduce b) r)) (after (introduce b) r)) r.current
    ident.span
  generalize answer (introduce b) r = found at introduced ⊢
  generalize after (introduce b) r = r₁ at introduced declared ⊢
  cases introduced with
  | done free =>
    have added : (r.declaring b).scopes.bindings[r.scopes.nextBinding]? = some b := by
      simp [Resolution.declaring, Scopes.insert, Scopes.nextBinding]
    exact declared.andQuiet (addLoopTags_quiet added fun loop member => member)
  | refused quiet => exact declared

lemma publish_quiet {e : Export} (brings : r.Brings e.target) (forwarded : e.reexport = true) (presents : r.Presents e) :
    Quiet load r (after (publish e) r) fun _ => True := by
  simp only [publish, after_bind, answer_get, after_get]
  cases inserted : (r.program.exportsOf r.home).insert e with
  | ok exports =>
    exact ⟨fun _ _ => .single (.forward inserted brings forwarded presents), rfl, rfl, rfl, rfl, rfl, rfl, fun _ => trivial⟩
  | error first => exact (report_fault rfl).imp fun _ _ => trivial

/-- A definition is declared, also when its name has been exported before. -/
lemma define_declared {exported topLevel isFunction : Bool} {span : Span} (tidy : r.Tidy)
    (top : topLevel = true → r.current = Scopes.root)
    (fresh : r.declarations.get? ident.span = none) (within : ident.span.Within lo hi) (from_ : lo ≤ span.stop)
    (upTo : span.stop ≤ hi) :
    Declared load lo hi span.stop r (after (define exported topLevel ident isFunction ty span) r) r.current
      ident.span := by
  simp only [define]
  split
  · next exports =>
    have root : r.current = Scopes.root := top (Bool.and_eq_true_iff.1 exports).2
    let b : Binding := ⟨ident.name, ident.name, .item r.home ident.name, r.current, span.stop, ident.span, ty,
      .declaration, []⟩
    let e : Export := ⟨ident.name, .item r.home ident.name, if isFunction then .function else .constant, ident.span, ty,
      false⟩
    have introduced : Introduced load r b (answer (introduce b) r) (after (introduce b) r) := introduce_introduced
    simp only [after_bind, answer_get, after_get]
    show Declared load lo hi span.stop r (after (offer e (answer (introduce b) r)) (after (introduce b) r)) r.current ident.span
    generalize answer (introduce b) r = found at introduced ⊢
    generalize after (introduce b) r = r₁ at introduced ⊢
    cases introduced with
    | done free =>
      have declarable : r.Declarable lo hi b :=
        ⟨free, tidy.current, Scopes.crosses_of_none rfl, from_, upTo, within, fresh, by simp [b, Origin.IsImport]⟩
      cases inserted : (r.program.exportsOf r.home).insert e with
      | ok exports =>
        have goes : after (publish e) (r.declaring b) = { r.declaring b with
            program := r.program.modify r.home fun m => { m with exports := exports } } := publish_new inserted
        rw [offer_some, goes]
        exact .of_move (.define declarable rfl ⟨root, rfl⟩ rfl rfl rfl rfl inserted) rfl rfl rfl rfl (Or.inl rfl) (tidy.nested.path_head tidy.current)
      | error first =>
        have goes : after (publish e) (r.declaring b) = { r.declaring b with
            faults := r.faults ++ [.duplicateExport e.name e.site first.site] } := publish_taken inserted
        rw [offer_some, goes]
        exact .of_move (.redefine declarable rfl rfl) rfl rfl rfl rfl (Or.inl rfl) (tidy.nested.path_head tidy.current)
    | refused quiet =>
      refine ⟨quiet.walked.imp fun f faulty clean => absurd clean faulty, ?_⟩
      exact (quiet.moves span.stop 0).spread.later
  · exact declareInner_declared tidy (by simp [Origin.IsImport]) fresh within from_ upTo

end Resolve

end PipeLang
