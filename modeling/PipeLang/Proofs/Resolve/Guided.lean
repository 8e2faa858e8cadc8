import PipeLang.Proofs.Resolve.LoopTags
import PipeLang.Proofs.Syntax.Demands

/-!
# Uses behind imports

A name or path that is used denotes something of the module itself, a host function, or what import statements have brought that
stand before the use, in the scopes around it: `Resolution.Means`. Resolution goes over syntax with that in mind,
`Resolution.Guides`, and so everything that it records of a module is of that kind: `Resolve.module_guides`.
-/

namespace PipeLang

open Resolve

/-- Loading keeps what modules export. -/
def Loader.Retains (load : Loader) : Prop :=
  ∀ (p : Program) (raw : String), p.Retains (load p raw).2

namespace Resolution

/-- What a name can stand for behind some import statements: something of the module itself, or what one of the statements has
brought. -/
inductive Given (r : Resolution) (passed : List Span) : Target → Prop where
  | inner {id} :
    Given r passed (.inner id)
  | own {name} :
    Given r passed (.item r.home name)
  | invalid :
    Given r passed .invalid
  | module {site source} :
    site ∈ passed →
    (site, source) ∈ r.imports.entries →
    Given r passed (.module source)
  | exported {site source e} :
    site ∈ passed →
    (site, source) ∈ r.imports.entries →
    e ∈ (r.program.exportsOf source).entries →
    Given r passed e.target

/-- What a name or path can denote behind some import statements. -/
inductive Means (r : Resolution) (passed : List Span) : Target → Prop where
  | given {target} :
    r.Given passed target →
    Means r passed target
  | host {name} :
    Means r passed (.host name)
  | through {id e} :
    Means r passed (.module id) →
    e ∈ (r.program.exportsOf id).entries →
    Means r passed e.target

/-- A resolution stands behind some import statements: every name in the scopes around stands for what they have brought, or for
something of the module itself. -/
structure Behind (passed : List Span) (r : Resolution) : Prop where
  nested : r.scopes.Nested
  current : r.current < r.scopes.scopes.size
  inside : ∀ {id : Nat} {b}, r.scopes.bindings[id]? = some b → b.scope < r.scopes.scopes.size
  given : ∀ {id : Nat} {b}, r.scopes.bindings[id]? = some b → b.scope ∈ r.scopes.path r.current → r.Given passed b.target

/-- A resolution has gone over syntax with some demands and has come back to the scope that it was in. What it has bound in the
scopes that were there is of the module itself, but for what some import statements have brought to the current scope. -/
structure Guides (added : List Span) (demands : List Demand) (r r' : Resolution) : Prop where
  nested : r'.scopes.Nested
  scopes : r.scopes.Grows 0 r'.scopes
  home : r'.home = r.home
  current : r'.current = r.current
  imports : r.imports.entries ⊆ r'.imports.entries
  retains : r.program.Retains r'.program
  inside : ∀ {id : Nat} {b}, r'.scopes.bindings[id]? = some b → b.scope < r'.scopes.scopes.size
  bound : ∀ {id : Nat} {b}, r'.scopes.bindings[id]? = some b → r.scopes.bindings.size ≤ id → b.scope < r.scopes.scopes.size →
    r'.Given [] b.target ∨ b.scope = r.current ∧ r'.Given added b.target
  references : ∀ entry ∈ r'.references.entries, entry ∈ r.references.entries ∨
    ∃ d ∈ demands, d.site = entry.1 ∧ r'.Means d.behind entry.2.target

variable {r r' r'' : Resolution} {passed more added added' : List Span} {demands demands' : List Demand} {target : Target}

lemma Given.later (h : r.Given passed target) (home : r'.home = r.home) (imports : r.imports.entries ⊆ r'.imports.entries)
    (retains : r.program.Retains r'.program) (sub : passed ⊆ more) : r'.Given more target := by
  cases h with
  | inner => exact .inner
  | own => exact home ▸ .own
  | invalid => exact .invalid
  | module member known => exact .module (sub member) (imports known)
  | exported member known shown => exact .exported (sub member) (imports known) (retains.entries shown)

lemma Means.later (h : r.Means passed target) (home : r'.home = r.home) (imports : r.imports.entries ⊆ r'.imports.entries)
    (retains : r.program.Retains r'.program) : r'.Means passed target := by
  induction h with
  | given given => exact .given (given.later home imports retains (List.Subset.refl _))
  | host => exact .host
  | through _ shown ih => exact .through ih (retains.entries shown)

namespace Guides

/-- Behind the syntax a resolution stands behind the import statements that have been added. -/
lemma behind (h : r.Guides added demands r') (before : r.Behind passed) : r'.Behind (added ++ passed) where
  nested := h.nested
  current := h.current ▸ Nat.lt_of_lt_of_le before.current h.scopes.scopes_size_le
  inside := h.inside
  given {id b} found around := by
    rw [h.current, h.scopes.path_eq before.current] at around
    by_cases old : id < r.scopes.bindings.size
    · have same := h.scopes.bindings (Array.getElem?_eq_getElem old)
      rw [found, Option.some.injEq] at same
      have known : r.Given passed b.target := before.given (same ▸ Array.getElem?_eq_getElem old) around
      exact known.later h.home h.imports h.retains (List.subset_append_right _ _)
    · have there : b.scope < r.scopes.scopes.size :=
        Nat.lt_of_le_of_lt (before.nested.mem_path around).1 before.current
      rcases h.bound found (Nat.le_of_not_lt old) there with own | ⟨-, brought⟩
      · exact own.later rfl (List.Subset.refl _) .refl (List.nil_subset _)
      · exact brought.later rfl (List.Subset.refl _) .refl (List.subset_append_left _ _)

lemma trans (h : r.Guides added demands r') (h' : r'.Guides added' demands' r'') :
    r.Guides (added' ++ added) (demands ++ demands') r'' where
  nested := h'.nested
  scopes := h.scopes.trans h'.scopes
  home := h'.home.trans h.home
  current := h'.current.trans h.current
  imports := List.Subset.trans h.imports h'.imports
  retains := h.retains.trans h'.retains
  inside := h'.inside
  bound {id b} found new there := by
    by_cases old : id < r'.scopes.bindings.size
    · have same := h'.scopes.bindings (Array.getElem?_eq_getElem old)
      rw [found, Option.some.injEq] at same
      rcases h.bound (same ▸ Array.getElem?_eq_getElem old) new there with own | ⟨here, brought⟩
      · exact Or.inl (own.later h'.home h'.imports h'.retains (List.Subset.refl _))
      · exact Or.inr ⟨here, brought.later h'.home h'.imports h'.retains (List.subset_append_right _ _)⟩
    · rcases h'.bound found (Nat.le_of_not_lt old) (Nat.lt_of_lt_of_le there h.scopes.scopes_size_le) with own | ⟨here, brought⟩
      · exact Or.inl own
      · exact Or.inr ⟨here.trans h.current, brought.later rfl (List.Subset.refl _) .refl (List.subset_append_left _ _)⟩
  references entry member := by
    rcases h'.references entry member with before | ⟨d, among, site, means⟩
    · refine (h.references entry before).imp_right fun ⟨d, among, site, means⟩ => ?_
      exact ⟨d, List.mem_append_left _ among, site, means.later h'.home h'.imports h'.retains⟩
    · exact Or.inr ⟨d, List.mem_append_right _ among, site, means⟩

/-- A second part brings and records nothing. -/
lemma andQuiet (h : r.Guides added demands r') (h' : r'.Guides [] [] r'') : r.Guides added demands r'' := by
  simpa only [List.append_nil, List.nil_append] using h.trans h'

/-- A first part brings and records nothing. -/
lemma quietly (h : r.Guides [] [] r') (h' : r'.Guides added demands r'') : r.Guides added demands r'' := by
  simpa only [List.append_nil, List.nil_append] using h.trans h'

/-- Names and references stay as they are. -/
lemma quiet (before : r.Behind passed) (scopes : r'.scopes = r.scopes) (home : r'.home = r.home) (current : r'.current = r.current)
    (imports : r.imports.entries ⊆ r'.imports.entries) (retains : r.program.Retains r'.program)
    (references : r'.references = r.references) : r.Guides [] [] r' where
  nested := scopes ▸ before.nested
  scopes := scopes ▸ .refl
  home := home
  current := current
  imports := imports
  retains := retains
  inside found := scopes ▸ before.inside (scopes ▸ found)
  bound found new := absurd (Array.getElem?_eq_some_iff.1 (scopes ▸ found)).1 (Nat.not_lt_of_le new)
  references _ member := Or.inl (references ▸ member)

/-- One name is bound. -/
lemma insert {b : Binding} (before : r.Behind passed) (inside : b.scope < r.scopes.scopes.size)
    (given : r.Given [] b.target ∨ b.scope = r.current ∧ r.Given added b.target) :
    r.Guides added [] { r with scopes := r.scopes.insert b } where
  nested := ⟨before.nested.root, before.nested.inner, before.nested.notLoop⟩
  scopes := .insert (Nat.zero_le _)
  home := rfl
  current := rfl
  imports := List.Subset.refl _
  retains := .refl
  inside found := by
    rcases Scopes.bindings_insert found with old | ⟨-, rfl⟩
    · exact before.inside old
    · exact inside
  bound found new _ := by
    rcases Scopes.bindings_insert found with old | ⟨-, rfl⟩
    · exact absurd (Array.getElem?_eq_some_iff.1 old).1 (Nat.not_lt_of_le new)
    · exact given.imp (fun h => h.later rfl (List.Subset.refl _) .refl (List.Subset.refl _))
        (And.imp_right fun h => h.later rfl (List.Subset.refl _) .refl (List.Subset.refl _))
  references entry member := Or.inl member

/-- One use is recorded. -/
lemma record {site : Span} {ty : Ty} (before : r.Behind passed) (means : r.Means passed target) :
    r.Guides [] [⟨site, passed⟩] { r with references := r.references.insert site ⟨target, ty⟩ } where
  nested := before.nested
  scopes := .refl
  home := rfl
  current := rfl
  imports := List.Subset.refl _
  retains := .refl
  inside := before.inside
  bound found new := absurd (Array.getElem?_eq_some_iff.1 found).1 (Nat.not_lt_of_le new)
  references entry member := by
    rcases List.mem_cons.1 member with rfl | old
    · exact Or.inr ⟨_, List.mem_singleton_self _, rfl, means.later rfl (List.Subset.refl _) .refl⟩
    · exact Or.inl old

/-- Fewer things are demanded, and less has been added, than is allowed. -/
lemma widen (h : r.Guides added demands r') (sub : added ⊆ added') (sub' : demands ⊆ demands') : r.Guides added' demands' r' :=
  { h with
    bound := fun found new there => (h.bound found new there).imp_right
      (And.imp_right fun given => given.later rfl (List.Subset.refl _) .refl sub)
    references := fun entry member => (h.references entry member).imp_right fun ⟨d, among, rest⟩ => ⟨d, sub' among, rest⟩ }

end Guides

variable {kind : ScopeKind} {range : Span}

lemma Behind.enter (h : r.Behind passed) : (after (enter kind range) r).Behind passed where
  nested := h.nested.push h.current
  current := by simp [Scopes.push, Scopes.nextScope]
  inside found := Nat.lt_of_lt_of_le (h.inside found) (Scopes.Grows.push (Nat.zero_le range.start)).scopes_size_le
  given {id b} found around := by
    have known : r.scopes.bindings[id]? = some b := found
    simp only [after_enter, Scopes.path_push] at around
    rcases List.mem_cons.1 around with new | old
    · exact absurd (h.inside known) (new ▸ Nat.lt_irrefl _)
    · exact (h.given known old).later rfl (List.Subset.refl _) .refl (List.Subset.refl _)

/-- A resolution comes back from a scope. What has been brought there is not seen from outside. -/
lemma Guides.back (kind : ScopeKind) (range : Span) (h : (after (enter kind range) r).Guides added demands r') :
    r.Guides [] demands { r' with current := r.current } where
  nested := h.nested
  scopes := .trans (.push (Nat.zero_le range.start)) h.scopes
  home := h.home
  current := rfl
  imports := h.imports
  retains := h.retains
  inside := h.inside
  bound {id b} found new there := by
    have entered : b.scope < (after (enter kind range) r).scopes.scopes.size :=
      Nat.lt_of_lt_of_le there (Scopes.Grows.push (Nat.zero_le range.start)).scopes_size_le
    rcases h.bound found new entered with own | ⟨here, -⟩
    · exact Or.inl (own.later rfl (List.Subset.refl _) .refl (List.Subset.refl _))
    · exact absurd there (here ▸ Nat.lt_irrefl _)
  references entry member := (h.references entry member).imp_right fun ⟨d, among, site, means⟩ =>
    ⟨d, among, site, means.later rfl (List.Subset.refl _) .refl⟩

end Resolution

/-! ### Steps -/

namespace Resolve

variable {α β : Type} {load : Loader} {passed added added' : List Span} {demands demands' : List Demand} {x : Resolve α}
  {f : α → Resolve β}

/-- Wherever a step begins behind some import statements, it goes over syntax with some demands. -/
def Guides (passed added : List Span) (demands : List Demand) (x : Resolve α) : Prop :=
  ∀ r : Resolution, r.Behind passed → r.Guides added demands (after x r)

namespace Guides

/-- One step behind another, which may have brought something. -/
lemma seq (first : Guides passed added demands x) (next : ∀ a, Guides (added ++ passed) added' demands' (f a)) :
    Guides passed (added' ++ added) (demands ++ demands') (x >>= f) := fun r before =>
  (first r before).trans (next _ _ ((first r before).behind before))

/-- One step behind another that has brought nothing. -/
lemma bind (first : Guides passed [] demands x) (next : ∀ a, Guides passed added demands' (f a)) :
    Guides passed added (demands ++ demands') (x >>= f) := by
  simpa only [List.append_nil] using first.seq next

/-- A first step that records nothing. -/
lemma late (first : Guides passed [] [] x) (next : ∀ a, Guides passed added demands (f a)) :
    Guides passed added demands (x >>= f) :=
  first.bind next

/-- A second step that records nothing. -/
lemma early (first : Guides passed added demands x) (next : ∀ a, Guides (added ++ passed) [] [] (f a)) :
    Guides passed added demands (x >>= f) := by
  simpa only [List.append_nil, List.nil_append] using first.seq next

lemma pure (a : α) : Guides passed [] [] (Pure.pure a : Resolve α) := fun _ before =>
  .quiet before rfl rfl rfl (List.Subset.refl _) .refl rfl

lemma get : Guides passed [] [] (MonadState.get : Resolve Resolution) := fun _ before =>
  .quiet before rfl rfl rfl (List.Subset.refl _) .refl rfl

lemma report {faults : List Fault} : Guides passed [] [] (report faults) := fun _ before =>
  .quiet before rfl rfl rfl (List.Subset.refl _) .refl rfl

lemma leaveOpen {ident : Ident} : Guides passed [] [] (leaveOpen ident) := fun _ before =>
  .quiet before rfl rfl rfl (List.Subset.refl _) .refl rfl

lemma forM {l : List α} {g : α → Resolve PUnit} (each : ∀ a ∈ l, Guides passed [] [] (g a)) : Guides passed [] [] (l.forM g) := by
  induction l with
  | nil => exact pure _
  | cons a l ih =>
    obtain ⟨first, others⟩ := List.forall_mem_cons.1 each
    exact first.late fun _ => ih others

lemma widen (h : Guides passed added demands x) (sub : added ⊆ added') (sub' : demands ⊆ demands') : Guides passed added' demands' x :=
  fun r before => (h r before).widen sub sub'

end Guides

/-! ### Uses -/

lemma refuseNested_guides {exported topLevel : Bool} {site : Span} : Guides passed [] [] (refuseNested exported topLevel site) := by
  simp only [refuseNested]
  split
  · exact .report
  · exact .pure _

lemma rejectIncoming_guides {incoming : Option Ty} {e : Expr} : Guides passed [] [] (rejectIncoming incoming e) := by
  simp only [rejectIncoming]
  split
  · exact .report
  · exact .pure _

lemma rejectTailless_guides {incoming : Option Ty} {body : List Statement} {site : Span} :
    Guides passed [] [] (rejectTailless incoming body site) := by
  simp only [rejectTailless]
  split
  · exact .report
  · exact .pure _

lemma checkHostCall_guides {target : Target} {positional : Nat} {keywords : List Ident} {site : Span} :
    Guides passed [] [] (checkHostCall target positional keywords site) := by
  cases target with
  | host name =>
    refine Guides.get.late fun r => ?_
    split
    · exact .report
    · exact .pure _
  | _ => exact .pure _

lemma stageType_guides {incoming : Option Ty} {site : Span} {found : Option (Target × Ty)} :
    Guides passed [] [] (stageType incoming site found) := by
  cases found with
  | none => exact .pure _
  | some known =>
    simp only [stageType]
    split
    · exact checkHostCall_guides.late fun _ => .pure _
    · exact .pure _

/-- A use has been gone over, and what it answers with can be meant there. -/
structure Meant (passed : List Span) (demands : List Demand) (r r' : Resolution) (found : Option (Target × Ty)) : Prop where
  guides : r.Guides [] demands r'
  means : ∀ target ty, found = some (target, ty) → r'.Means passed target

variable {r r' : Resolution} {site : Span}

lemma Meant.none (guides : r.Guides [] [] r') : Meant passed [⟨site, passed⟩] r r' none :=
  ⟨guides.widen (List.Subset.refl _) (List.nil_subset _), nofun⟩

lemma Meant.record {target : Target} {ty : Ty} (before : r.Behind passed) (means : r.Means passed target) :
    Meant passed [⟨site, passed⟩] r { r with references := r.references.insert site ⟨target, ty⟩ } (some (target, ty)) := by
  refine ⟨.record before means, fun target' ty' same => ?_⟩
  cases same
  exact means.later rfl (List.Subset.refl _) .refl

/-- A host function, or a name that is left open. -/
lemma useHostOrLeave_meant {name : String} {ident : Ident} (before : r.Behind passed) :
    Meant passed [⟨site, passed⟩] r (after (useHostOrLeave name site ident) r) (answer (useHostOrLeave name site ident) r) := by
  simp only [useHostOrLeave, useHost, after_bind, answer_bind, answer_get, after_get]
  cases r.program.hosts.signature? name with
  | none => exact .none (Guides.leaveOpen r before)
  | some signature => exact .record before .host

lemma useName_meant {ident : Ident} (before : r.Behind passed) :
    Meant passed [⟨ident.span, passed⟩] r (after (useName ident) r) (answer (useName ident) r) := by
  simp only [useName, after_bind, answer_bind, answer_get, after_get]
  cases found : r.scopes.lookup r.current ident.name ident.span.start with
  | found id =>
    obtain ⟨b, known, around⟩ := Scopes.lookupAlong_found found
    have target : r.scopes.target id = b.target := by simp only [Scopes.target, known]
    have means : r.Means passed b.target := .given (before.given known around)
    by_cases invalid : r.scopes.target id = .invalid
    · simp only [invalid, if_true]
      exact .none (Guides.pure () r before)
    · simp only [invalid, if_false]
      exact .record before (target ▸ means)
  | ambiguous ids => exact .none (Guides.report r before)
  | notYetDeclared id => exact .none (Guides.report r before)
  | notFound => exact useHostOrLeave_meant before

lemma followPath_meant {target : Target} {ty : Ty} {head : Ident} {rest : List Ident} (before : r.Behind passed)
    (means : r.Means passed target) :
    Meant passed [⟨site, passed⟩] r (after (followPath site target ty head rest) r)
      (answer (followPath site target ty head rest) r) := by
  induction rest generalizing target ty head with
  | nil => exact .record before means
  | cons segment rest ih =>
    cases target with
    | module id =>
      simp only [followPath, after_bind, answer_bind, answer_get, after_get]
      cases found : r.program.modules[(id : Nat)]? with
      | none => exact .none (Guides.pure () r before)
      | some m =>
        cases exported : m.exports.get? segment.name with
        | none =>
          simp only [exported]
          exact .none (Guides.report r before)
        | some e =>
          have member : e ∈ (r.program.exportsOf id).entries := by
            simp only [Program.exportsOf, found]
            exact List.mem_of_find?_eq_some exported
          simp only [exported]
          exact ih (.through means member)
    | _ => exact .none (Guides.report r before)

lemma usePath_meant {head : Ident} {rest : List Ident} (before : r.Behind passed) :
    Meant passed [⟨head.span, passed⟩, ⟨site, passed⟩] r (after (usePath head rest site) r) (answer (usePath head rest site) r) := by
  have through : Meant passed [⟨head.span, passed⟩, ⟨site, passed⟩] r (after (useHead head rest site) r)
      (answer (useHead head rest site) r) := by
    have first : Meant passed [⟨head.span, passed⟩] r (after (useName head) r) (answer (useName head) r) := useName_meant before
    have before' : (after (useName head) r).Behind passed := first.guides.behind before
    simp only [useHead, after_bind, answer_bind]
    cases found : answer (useName head) r with
    | none => exact ⟨first.guides.widen (List.Subset.refl _) (List.subset_append_left _ _), by simp⟩
    | some known =>
      obtain ⟨target, ty⟩ := known
      have second : Meant passed [⟨site, passed⟩] (after (useName head) r)
          (after (followPath site target ty head rest) (after (useName head) r))
          (answer (followPath site target ty head rest) (after (useName head) r)) :=
        followPath_meant before' (first.means target ty found)
      exact ⟨first.guides.trans second.guides, second.means⟩
  simp only [usePath, after_bind, answer_bind, answer_get, after_get]
  cases r.scopes.lookup r.current head.name head.span.start with
  | notFound =>
    have used : Meant passed [⟨site, passed⟩] r (after (useHostOrLeave (pathName head rest) site head) r)
        (answer (useHostOrLeave (pathName head rest) site head) r) := useHostOrLeave_meant before
    exact ⟨used.guides.widen (List.Subset.refl _) (List.subset_cons_self _ _), used.means⟩
  | _ => exact through

lemma useName_guides {ident : Ident} : Guides passed [] [⟨ident.span, passed⟩] (useName ident) :=
  fun _ before => (useName_meant before).guides

lemma usePath_guides {head : Ident} {rest : List Ident} :
    Guides passed [] [⟨head.span, passed⟩, ⟨site, passed⟩] (usePath head rest site) :=
  fun _ before => (usePath_meant before).guides

/-! ### Declarations -/

/-- A name is bound if nothing is in its way. -/
lemma install_guides {b : Binding} (before : r.Behind passed) (inside : b.scope < r.scopes.scopes.size)
    (given : r.Given [] b.target ∨ b.scope = r.current ∧ r.Given added b.target) : r.Guides added [] (after (install b) r) := by
  cases free : obstacle? r.program.policy r.scopes b with
  | none => exact (install_free free).2 ▸ .insert before inside given
  | some other =>
    rw [(install_taken free).2]
    exact Resolution.Guides.widen (Guides.report r before) (List.nil_subset _) (List.Subset.refl _)

/-- A name of the module itself is introduced. -/
lemma introduce_guides {b : Binding} (before : r.Behind passed) (inside : b.scope < r.scopes.scopes.size)
    (own : r.Given [] b.target) : r.Guides [] [] (after (introduce b) r) := by
  cases free : obstacle? r.program.policy r.scopes b with
  | none =>
    have inserted : r.Guides [] [] { r with scopes := r.scopes.insert b } := .insert before inside (Or.inl own)
    rw [(introduce_free free).2]
    exact inserted.andQuiet (.quiet (inserted.behind before) rfl rfl rfl (List.Subset.refl _) .refl rfl)
  | some other =>
    rw [(introduce_taken free).2]
    exact Guides.report r before

lemma declareInner_guides {ident : Ident} {visibleFrom : Nat} {ty : Ty} {origin : Origin} :
    Guides passed [] [] (declareInner ident visibleFrom ty origin) :=
  fun _ before => introduce_guides before before.current .inner

lemma addLoopTag_guides {tag : BindingId} {loop : ScopeId} : Guides passed [] [] (addLoopTag tag loop) := by
  intro r before
  simp only [addLoopTag, after_modify]
  split
  · exact .quiet before rfl rfl rfl (List.Subset.refl _) .refl rfl
  · exact .quiet before rfl rfl rfl (List.Subset.refl _) .refl rfl

lemma declareTag_guides {tag : Ident} {visibleFrom : Nat} {ty : Ty} : Guides passed [] [] (declareTag tag visibleFrom ty) := by
  intro r before
  let b : Binding := ⟨tag.name, tag.name, .inner r.scopes.nextBinding, (r.scopes.tagHome r.current).1, visibleFrom,
    tag.span, ty, .tag, (r.scopes.tagHome r.current).2⟩
  have inside : b.scope < r.scopes.scopes.size := by
    obtain ⟨loops, home, outer, split, same⟩ := before.nested.tagHome_split before.current
    have around : home ∈ r.scopes.path r.current := by simp [split]
    show (r.scopes.tagHome r.current).1 < _
    rw [same]
    exact Nat.lt_of_le_of_lt (before.nested.mem_path around).1 before.current
  have introduced : r.Guides [] [] (after (introduce b) r) := introduce_guides before inside .inner
  show r.Guides [] [] (after (collect b.loops (answer (introduce b) r)) (after (introduce b) r))
  refine introduced.andQuiet ?_
  cases answer (introduce b) r with
  | none => exact Guides.pure () _ (introduced.behind before)
  | some id => exact Guides.forM (fun _ _ => addLoopTag_guides) _ (introduced.behind before)

lemma publish_guides {e : Export} : Guides passed [] [] (publish e) := by
  intro r before
  cases inserted : (r.program.exportsOf r.home).insert e with
  | ok exports =>
    exact publish_new inserted ▸ .quiet before rfl rfl rfl (List.Subset.refl _) (Program.offer_retains inserted) rfl
  | error first => exact publish_taken inserted ▸ Guides.report r before

lemma define_guides {exported topLevel isFunction : Bool} {name : Ident} {ty : Ty} {span : Span} :
    Guides passed [] [] (define exported topLevel name isFunction ty span) := by
  simp only [define]
  split
  · intro r before
    let b : Binding := ⟨name.name, name.name, .item r.home name.name, r.current, span.stop, name.span, ty, .declaration, []⟩
    let e : Export := ⟨name.name, .item r.home name.name, if isFunction then .function else .constant, name.span, ty, false⟩
    have introduced : r.Guides [] [] (after (introduce b) r) := introduce_guides before before.current .own
    show r.Guides [] [] (after (offer e (answer (introduce b) r)) (after (introduce b) r))
    refine introduced.andQuiet ?_
    cases answer (introduce b) r with
    | none => exact Guides.pure () _ (introduced.behind before)
    | some id => exact publish_guides _ (introduced.behind before)
  · exact declareInner_guides

/-! ### Imports -/

lemma keepInvalid_guides {ident : Ident} {visibleFrom : Nat} : Guides passed [] [] (keepInvalid ident visibleFrom) :=
  fun _ before => .insert before before.current (Or.inl .invalid)

lemma keepModuleName_guides {i : Import} {newName : Option Ident} : Guides passed [] [] (keepModuleName i newName site) := by
  simp only [keepModuleName]
  split
  · exact keepInvalid_guides
  · split
    · split
      · exact keepInvalid_guides
      · exact .pure _
    · exact .pure _

lemma keepNames_guides {i : Import} : Guides passed [] [] (keepNames i) := by
  simp only [keepNames]
  split
  · exact keepModuleName_guides
  · refine Guides.forM fun item _ => ?_
    cases item with
    | name name newName => exact keepInvalid_guides
    | self span newName => exact keepModuleName_guides
    | glob span => exact .pure _

section

variable {i : Import} {topLevel : Bool} {target : ModuleId} {m : LoadedModule} {explicit : List String}

lemma importItem_guides {item : ImportItem} : Guides passed [] [] (importItem i target m explicit item) := by
  cases item with
  | name name newName =>
    simp only [importItem]
    split
    · exact .pure _
    · exact Guides.report.late fun _ => keepInvalid_guides.late fun _ => .pure _
  | self span newName =>
    simp only [importItem]
    split
    · exact .pure _
    · exact Guides.report.late fun _ => .pure _
  | glob span => exact .pure _

lemma importItems_guides {items : List ImportItem} : Guides passed [] [] (importItems i target m explicit items) := by
  induction items with
  | nil => exact .pure _
  | cons item items ih => exact importItem_guides.late fun _ => ih.late fun _ => .pure _

/-- An import statement has loaded a module that shows at least what it showed at another time. -/
def Supplied (i : Import) (target : ModuleId) (m : LoadedModule) (r : Resolution) : Prop :=
  (i.span, target) ∈ r.imports.entries ∧ m.exports.entries ⊆ (r.program.exportsOf target).entries

lemma Supplied.later (h : Supplied i target m r) (guides : r.Guides added demands r') : Supplied i target m r' :=
  ⟨guides.imports h.1, fun _ member => guides.retains.entries (h.2 member)⟩

lemma Supplied.given {item : Imported} (h : Supplied i target m r) (copies : item.Copies target m) : r.Given [i.span] item.target := by
  rcases copies with same | ⟨e, member, same, -⟩
  · exact same ▸ .module (List.mem_singleton_self _) h.1
  · exact same ▸ .exported (List.mem_singleton_self _) h.1 (h.2 member)

lemma installImport_guides {item : Imported} (before : r.Behind passed) (supplied : Supplied i target m r)
    (copies : item.Copies target m) : r.Guides [i.span] [] (after (installImport i topLevel item) r) := by
  let b : Binding := ⟨item.name, item.sourceName, item.target, r.current, i.span.stop, item.site, item.ty, item.origin, []⟩
  let e : Export := ⟨item.name, item.target, item.kind, item.site, item.ty, true⟩
  let offer (found : Option BindingId) : Resolve Unit :=
    if found.isSome && i.exported && topLevel then publish e else Pure.pure ()
  have installed : r.Guides [i.span] [] (after (install b) r) :=
    install_guides before before.current (Or.inr ⟨rfl, supplied.given copies⟩)
  show r.Guides [i.span] [] (after (offer (answer (install b) r)) (after (install b) r))
  have behind := installed.behind before
  refine installed.andQuiet ?_
  simp only [offer]
  split
  · exact publish_guides _ behind
  · exact Guides.pure () _ behind

lemma installImports_guides {items : List Imported} (before : r.Behind passed) (supplied : Supplied i target m r)
    (copies : ∀ item ∈ items, item.Copies target m) : r.Guides [i.span] [] (after (items.forM (installImport i topLevel)) r) := by
  induction items generalizing r passed with
  | nil => exact Resolution.Guides.widen (Guides.pure () r before) (List.nil_subset _) (List.Subset.refl _)
  | cons item items ih =>
    obtain ⟨first, others⟩ := List.forall_mem_cons.1 copies
    rw [List.forM_eq_forM, List.forM_cons, after_bind]
    have installed : r.Guides [i.span] [] (after (installImport i topLevel item) r) := installImport_guides before supplied first
    have rest := ih (installed.behind before) (supplied.later installed) others
    exact (installed.trans rest).widen (by simp) (List.Subset.refl _)

lemma bindImports_guides (load : Loader) (before : r.Behind passed) (supplied : Supplied i target m r) :
    r.Guides [i.span] [] (after (bindImports i topLevel target m) r) := by
  have install {r₁ : Resolution} {items : List Imported} (guides : r.Guides [] [] r₁)
      (copies : ∀ item ∈ items, item.Copies target m) :
      r.Guides [i.span] [] (after (items.forM (installImport i topLevel)) r₁) := by
    have rest : r₁.Guides [i.span] [] (after (items.forM (installImport i topLevel)) r₁) :=
      installImports_guides (guides.behind before) (supplied.later guides) copies
    exact (guides.trans rest).widen (by simp) (List.Subset.refl _)
  simp only [bindImports]
  cases i.items with
  | module newName =>
    let item : ImportItem := .self i.pathSpan newName
    have listed : Listed load [] topLevel target m r (after (importItem i target m [] item) r)
      (answer (importItem i target m [] item) r) := importItem_listed
    have guides : r.Guides [] [] (after (importItem i target m [] item) r) := importItem_guides r before
    exact install guides listed.copies
  | list items =>
    have listed : Listed load [] topLevel target m r _ (answer (importItems i target m (Import.explicitNames items) items) r) :=
      importItems_listed
    exact install (importItems_guides r before) listed.copies

lemma bindLoaded_guides (load : Loader) {found : Except LoadError ModuleId} (before : r.Behind passed) :
    r.Guides [i.span] [] (after (bindLoaded i topLevel found r.program) r) := by
  have none {x : Resolve Unit} {r : Resolution} (guides : r.Guides [] [] (after x r)) : r.Guides [i.span] [] (after x r) :=
    guides.widen (List.nil_subset _) (List.Subset.refl _)
  cases found with
  | error cause => exact none (Guides.late .report (fun _ => keepNames_guides) r before)
  | ok target =>
    let r₁ : Resolution := { r with imports := r.imports.insert i.span target }
    have recorded : r.Guides [] [] r₁ := .quiet before rfl rfl rfl (List.subset_cons_self _ _) .refl rfl
    have before₁ : r₁.Behind passed := recorded.behind before
    refine recorded.quietly ?_
    simp only [bindLoaded, after_bind, after_modify]
    cases known : r.program.modules[(target : Nat)]? with
    | none => exact none (Guides.pure () r₁ before₁)
    | some m =>
      dsimp only
      split
      · exact none (Guides.late .report (fun _ => keepNames_guides) r₁ before₁)
      · let r₂ : Resolution := { r₁ with program := r.program.addEdge ⟨r.home, target, i.pathSpan⟩ }
        have accepted : r₁.Guides [] [] r₂ :=
          .quiet before₁ rfl rfl rfl (List.Subset.refl _) (.of_modules rfl rfl) rfl
        have supplied : Supplied i target m r₂ := by
          refine ⟨List.mem_cons_self, fun e member => ?_⟩
          simpa [r₂, Program.addEdge, Program.exportsOf, known] using member
        exact accepted.quietly (bindImports_guides load (accepted.behind before₁) supplied)

/-- What an import statement brings is brought to the current scope. -/
lemma importStatement_guides {load : Loader} (retains : load.Retains) :
    Guides passed [i.span] [] (importStatement load i topLevel) := by
  refine refuseNested_guides.late fun _ r before => ?_
  let r₁ : Resolution := { r with program := (load r.program i.path).2 }
  have loaded : r.Guides [] [] r₁ := .quiet before rfl rfl rfl (List.Subset.refl _) (retains r.program i.path) rfl
  exact loaded.quietly (bindLoaded_guides load (loaded.behind before))

end

/-! ### Syntax -/

section

variable {load : Loader}

lemma calleeOf_guides {callee : Expr} (h : Guides passed added demands (expr load none callee)) :
    Guides passed added demands (calleeOf load callee) := by
  intro r before
  rw [after_calleeOf]
  exact h r before

lemma checkCall_guides {incoming : Option Ty} {args : List Argument} {span : Span} {found : Option (Target × Ty)} :
    Guides passed [] [] (checkCall incoming args span found) := by
  cases found with
  | none => exact .pure _
  | some known => exact checkHostCall_guides.late fun _ => .pure _

/-- A tag, if there is one, behind what stands before it. -/
lemma tagged_guides {α β : Type} {x : Resolve α} {tag : Option Ident} {visibleFrom : Nat} {ty : α → Ty} {f : α → β}
    (h : Guides passed [] demands x) : Guides passed [] demands (do
      let a ← x
      match tag with
      | some tag => declareTag tag visibleFrom (ty a)
      | none => pure ()
      return f a) := by
  refine h.early fun a => ?_
  cases tag with
  | none => exact .pure _
  | some tag => exact declareTag_guides.late fun _ => .pure _

lemma loopSite_guides {span : Span} :
    Guides passed [] [] (modify fun r => { r with loopSites := (r.current, span) :: r.loopSites } : Resolve Unit) := fun _ before =>
  .quiet before rfl rfl rfl (List.Subset.refl _) .refl rfl

end

end Resolve

section

open Resolve

variable {load : Loader}

mutual

/-- Resolution goes over an expression with its demands. -/
theorem Expr.guides (retains : load.Retains) (e : Expr) (passed : List Span) (incoming : Option Ty) :
    Resolve.Guides passed [] (e.demands passed) (expr load incoming e) := by
  match e with
  | .name ident => exact rejectIncoming_guides.late fun _ => useName_guides.early fun _ => stageType_guides
  | .path head rest span => exact rejectIncoming_guides.late fun _ => usePath_guides.early fun _ => stageType_guides
  | .literal value span => exact rejectIncoming_guides.late fun _ => .pure _
  | .array items span => exact rejectIncoming_guides.late fun _ => (Expr.all_guides retains items passed).early fun _ => .pure _
  | .range start stop inclusive span =>
    exact rejectIncoming_guides.late fun _ => (Expr.guides retains start passed none).bind fun _ =>
      (Expr.guides retains stop passed none).early fun _ => .pure _
  | .binary op left right span =>
    exact rejectIncoming_guides.late fun _ => (Expr.guides retains left passed none).bind fun _ =>
      (Expr.guides retains right passed none).early fun _ => .pure _
  | .unary op operand span =>
    exact rejectIncoming_guides.late fun _ => (Expr.guides retains operand passed none).early fun _ => .pure _
  | .call callee args span =>
    simp only [expr_call]
    exact rejectIncoming_guides.late fun _ => (calleeOf_guides (Expr.guides retains callee passed none)).bind fun _ =>
      (Argument.all_guides retains args passed).early fun _ => checkCall_guides
  | .index base index span =>
    exact rejectIncoming_guides.late fun _ => (Expr.guides retains base passed none).bind fun _ =>
      (Expr.guides retains index passed none).early fun _ => .pure _
  | .lambda f => exact rejectIncoming_guides.late fun _ => Lambda.guides retains f passed
  | .block b => exact rejectIncoming_guides.late fun _ => Block.guides retains b passed incoming
  | .branch b => exact rejectIncoming_guides.late fun _ => Branch.guides retains b passed incoming
  | .pipeline ⟨stages, span⟩ =>
    exact rejectIncoming_guides.late fun _ => (Stage.all_guides retains stages passed incoming).early fun _ => .pure _
  | .loop l => exact rejectIncoming_guides.late fun _ => Loop.guides retains l passed incoming
termination_by structural e

theorem Expr.all_guides (retains : load.Retains) (es : List Expr) (passed : List Span) :
    Resolve.Guides passed [] (Expr.allDemands es passed) (exprs load es) := by
  match es with
  | [] => exact .pure _
  | e :: es => exact (Expr.guides retains e passed none).bind fun _ => (Expr.all_guides retains es passed).early fun _ => .pure _
termination_by structural es

theorem Argument.all_guides (retains : load.Retains) (args : List Argument) (passed : List Span) :
    Resolve.Guides passed [] (Argument.allDemands args passed) (arguments load args) := by
  match args with
  | [] => exact .pure _
  | ⟨_, value⟩ :: args => exact (Expr.guides retains value passed none).bind fun _ => Argument.all_guides retains args passed
termination_by structural args

theorem Param.all_guides (retains : load.Retains) (ps : List Param) (passed : List Span) :
    Resolve.Guides passed [] (Param.allDemands ps passed) (params load ps) := by
  match ps with
  | [] => exact .pure _
  | ⟨_, _, none, _⟩ :: ps => exact declareInner_guides.late fun _ => Param.all_guides retains ps passed
  | ⟨_, _, some e, _⟩ :: ps =>
    exact (Expr.guides retains e passed none).bind fun _ => declareInner_guides.late fun _ => Param.all_guides retains ps passed
termination_by structural ps

theorem Lambda.guides (retains : load.Retains) (f : Lambda) (passed : List Span) :
    Resolve.Guides passed [] (f.demands passed) (lambda load f) := by
  match f with
  | ⟨ps, returns, body, span⟩ =>
    intro r before
    have inner : Resolve.Guides passed [] (Param.allDemands ps passed ++ body.demands passed)
        (params load ps >>= fun _ => expr load none body) :=
      (Param.all_guides retains ps passed).bind fun _ => Expr.guides retains body passed none
    exact Resolution.Guides.back .function span (inner _ before.enter)
termination_by structural f

theorem Block.guides (retains : load.Retains) (b : Block) (passed : List Span) (incoming : Option Ty) :
    Resolve.Guides passed [] (b.demands passed) (block load incoming b) := by
  match b with
  | ⟨statements, span⟩ =>
    obtain ⟨added, inner⟩ := Statement.all_guides retains statements passed incoming
    exact rejectTailless_guides.late fun _ r before =>
      Resolution.Guides.back .block span (inner _ before.enter)
termination_by structural b

theorem Statement.all_guides (retains : load.Retains) (ss : List Statement) (passed : List Span) (incoming : Option Ty) :
    ∃ added, Resolve.Guides passed added (Statement.allDemands ss passed) (blockStatements load incoming ss) := by
  match ss with
  | [] => exact ⟨[], .pure _⟩
  | [s] =>
    refine ⟨s.passed [], ?_⟩
    rw [Statement.allDemands, Statement.allDemands, List.append_nil]
    exact Statement.guides retains s passed false incoming
  | s :: next :: ss =>
    obtain ⟨added, others⟩ := Statement.all_guides retains (next :: ss) (s.passed passed) incoming
    exact ⟨added ++ s.passed [], (Statement.guides retains s passed false none).seq fun _ => s.passed_eq passed ▸ others⟩
termination_by structural ss

theorem Statement.guides (retains : load.Retains) (s : Statement) (passed : List Span) (topLevel : Bool) (incoming : Option Ty) :
    Resolve.Guides passed (s.passed []) (s.demands passed) (statement load topLevel incoming s) := by
  match s with
  | .importing i => exact (importStatement_guides retains).early fun _ => .pure _
  | .define exported name value span =>
    exact refuseNested_guides.late fun _ => (Expr.guides retains value passed none).early fun _ => define_guides.late fun _ => .pure _
  | .expr e span => exact Expr.guides retains e passed incoming
termination_by structural s

theorem Branch.guides (retains : load.Retains) (b : Branch) (passed : List Span) (incoming : Option Ty) :
    Resolve.Guides passed [] (b.demands passed) (branch load incoming b) := by
  match b with
  | ⟨condition, consequence, other, _⟩ =>
    simp only [Branch.demands, List.append_assoc]
    exact (Expr.guides retains condition passed none).bind fun _ => (Block.guides retains consequence passed incoming).bind fun _ =>
      (Alternative.guides retains other passed incoming).early fun _ => .pure _
termination_by structural b

theorem Alternative.guides (retains : load.Retains) (a : Alternative) (passed : List Span) (incoming : Option Ty) :
    Resolve.Guides passed [] (a.demands passed) (alternative load incoming a) := by
  match a with
  | .absent => exact .pure _
  | .block b => exact Block.guides retains b passed incoming
  | .branch b => exact Branch.guides retains b passed incoming
termination_by structural a

theorem Stage.all_guides (retains : load.Retains) (ss : List Stage) (passed : List Span) (incoming : Option Ty) :
    Resolve.Guides passed [] (Stage.allDemands ss passed) (stages load incoming ss) := by
  match ss with
  | [] => exact .pure _
  | s :: ss => exact (Stage.guides retains s passed incoming).bind fun _ => Stage.all_guides retains ss passed _
termination_by structural ss

theorem Stage.guides (retains : load.Retains) (s : Stage) (passed : List Span) (incoming : Option Ty) :
    Resolve.Guides passed [] (s.demands passed) (stage load incoming s) := by
  match s with
  | .expr e tag span => exact tagged_guides (Expr.guides retains e passed incoming)
  | .operator op operand tag span => exact tagged_guides (Expr.guides retains operand passed none)
termination_by structural s

theorem Loop.guides (retains : load.Retains) (l : Loop) (passed : List Span) (incoming : Option Ty) :
    Resolve.Guides passed [] (l.demands passed) (loop load incoming l) := by
  match l with
  | ⟨sequence, binding, ⟨stages, inner⟩, span⟩ =>
    have body (ty : Ty) : Resolve.Guides passed [] (Stage.allDemands stages passed) (do
        modify fun r => { r with loopSites := (r.current, span) :: r.loopSites }
        declareInner binding binding.span.stop ty .loopVariable
        pipeline load incoming ⟨stages, inner⟩) :=
      loopSite_guides.late fun _ => declareInner_guides.late fun _ =>
        (Stage.all_guides retains stages passed incoming).early fun _ => .pure _
    refine (Expr.guides retains sequence passed none).bind fun ty r before => ?_
    have around := Resolution.Guides.back .loopBody ⟨binding.span.start, span.stop⟩
      (body ty.element _ before.enter)
    cases incoming with
    | none => exact around
    | some seed => exact around
termination_by structural l

end

/-- Resolution goes over the statements of a module with their demands. It brings to the top level what the import statements bring. -/
lemma Resolve.topLevel_guides (retains : load.Retains) (ss : List Statement) (passed : List Span) :
    Resolve.Guides passed (Statement.allPassed ss []) (Statement.allDemands ss passed) (topLevel load ss) := by
  induction ss generalizing passed with
  | nil => exact .pure _
  | cons s ss ih =>
    rw [Statement.allDemands, Statement.allPassed_cons, Statement.allPassed_eq]
    exact (Statement.guides retains s passed true none).seq fun _ => s.passed_eq passed ▸ ih _

/-- Resolution goes over a module with its demands. -/
theorem Resolve.module_guides (retains : load.Retains) (m : Module) :
    Resolve.Guides [] (Statement.allPassed m.statements []) (Statement.allDemands m.statements []) (module load m) := by
  have marked {passed : List Span} : Resolve.Guides passed [] [] (markAssembly m) := by
    simp only [markAssembly]
    split
    · exact fun _ before => .quiet before rfl rfl rfl (List.Subset.refl _) (Program.modify_retains fun _ => rfl) rfl
    · exact .pure _
  exact (Resolve.topLevel_guides retains m.statements []).early fun _ => marked.late fun _ => fun _ before =>
    .quiet before rfl rfl rfl (List.Subset.refl _) .refl rfl

end

/-- When a resolution starts, nothing has been bound. -/
lemma Resolution.start_behind {p : Program} {home : ModuleId} {range : Span} : (start p home range).Behind [] where
  nested := ⟨rfl, fun {id} inside top => absurd inside (by simp [start, Scopes.new, Scopes.root] at top ⊢; omega), rfl⟩
  current := by simp [start, Scopes.new, Scopes.root]
  inside found := by simp [start, Scopes.new] at found
  given found := by simp [start, Scopes.new] at found

end PipeLang
