import Mathlib.Data.List.Basic
import PipeLang.Proofs.Resolve.Change
import PipeLang.Proofs.Resolve.Module

/-!
# Traces

The resolution of every piece of syntax is traced, over the mentions in it: `Expr.traced` and the theorems beside it. No
condition is needed for this, also where there are faults.
-/

namespace PipeLang

/-- What an import item binds is the module or a copy of one of its exports. -/
def Imported.Copies (item : Imported) (target : ModuleId) (m : LoadedModule) : Prop :=
  item.target = .module target ∨
    ∃ e ∈ m.exports.entries, item.target = e.target ∧ item.kind = e.kind ∧ item.ty = e.ty

/-- A module of a program shows at least what it showed at another time. -/
def Program.Shows (p : Program) (target : Nat) (m : LoadedModule) : Prop :=
  target < p.modules.size ∧ m.exports.entries ⊆ (p.exportsOf target).entries

namespace Resolve

variable {load : Loader} {mentions : List Mention} {topLevel : Bool} {r r' : Resolution} {α : Type}

/-! ### Faults, scopes and names left open -/

lemma report_traced {faults : List Fault} : Traced load mentions topLevel fun _ => report faults :=
  .own fun _ => .single (.tables rfl rfl rfl rfl (List.subset_append_left _ _))

lemma refuseNested_traced {exported here : Bool} {site : Span} :
    Traced load mentions topLevel fun _ => refuseNested exported here site := by
  simp only [refuseNested]
  split
  · exact report_traced
  · exact .pure ()

lemma rejectIncoming_traced {incoming : Option Ty} {e : Expr} :
    Traced load mentions topLevel fun _ => rejectIncoming incoming e := by
  simp only [rejectIncoming]
  split
  · exact report_traced
  · exact .pure ()

lemma rejectTailless_traced {incoming : Option Ty} {body : List Statement} {site : Span} :
    Traced load mentions topLevel fun _ => rejectTailless incoming body site := by
  simp only [rejectTailless]
  split
  · exact report_traced
  · exact .pure ()

lemma enter_traced {kind : ScopeKind} {range : Span} : Traced load mentions topLevel fun _ => enter kind range :=
  .own fun _ => .single (.tables rfl rfl rfl rfl (List.Subset.refl _))

lemma leave_traced {outer : ScopeId} : Traced load mentions topLevel fun _ => leave outer :=
  .own fun _ => .single (.tables rfl rfl rfl rfl (List.Subset.refl _))

lemma leaveOpen_traced {ident : Ident} : Traced load mentions topLevel fun _ => leaveOpen ident :=
  .own fun _ => .single (.tables rfl rfl rfl rfl (List.Subset.refl _))

lemma loopSite_traced {site : Span} : Traced load mentions topLevel fun _ =>
    modify fun r => { r with loopSites := (r.current, site) :: r.loopSites } :=
  .own fun _ => .single (.tables rfl rfl rfl rfl (List.Subset.refl _))

lemma forM_traced {β : Type} {f : Loader → β → Resolve Unit} {l : List β}
    (each : ∀ b ∈ l, Traced load mentions topLevel fun load => f load b) :
    Traced load mentions topLevel fun load => l.forM (f load) := by
  induction l with
  | nil => exact .pure ()
  | cons b l ih =>
    exact (each b List.mem_cons_self).bind fun _ => ih fun b member => each b (List.mem_cons_of_mem _ member)

/-! ### Uses -/

lemma checkHostCall_traced {target : Target} {positional : Nat} {keywords : List Ident} {site : Span} :
    Traced load mentions topLevel fun _ => checkHostCall target positional keywords site := by
  cases target with
  | host name =>
    refine .own fun r => ?_
    simp only [checkHostCall, after_bind, answer_get, after_get]
    cases r.program.hosts.signature? name with
    | none => exact .refl
    | some signature => exact report_traced.changes r
  | _ => exact .pure ()

lemma stageType_traced {incoming : Option Ty} {site : Span} {found : Option (Target × Ty)} :
    Traced load mentions topLevel fun _ => stageType incoming site found := by
  cases found with
  | none => exact .pure _
  | some known =>
    obtain ⟨target, ty⟩ := known
    simp only [stageType]
    split
    · exact checkHostCall_traced.bind fun _ => .pure _
    · exact .pure _

/-- A use has made changes, and what it answers with is denoted. -/
structure Used (load : Loader) (mentions : List Mention) (topLevel : Bool) (r r' : Resolution)
    (found : Option (Target × Ty)) : Prop where
  changes : Changes load mentions topLevel r r'
  denotes : ∀ target ty, found = some (target, ty) → r'.Denotes target ty

lemma Used.none (changes : Changes load mentions topLevel r r') : Used load mentions topLevel r r' none :=
  ⟨changes, nofun⟩

lemma Used.record {site : Span} {target : Target} {ty : Ty} (denotes : r.Denotes target ty) :
    Used load mentions topLevel r { r with references := r.references.insert site ⟨target, ty⟩ } (some (target, ty)) := by
  refine ⟨.single (.record denotes), fun target' ty' same => ?_⟩
  cases same
  cases denotes with
  | bound found valid ty => exact .bound found valid ty
  | host known => exact .host known
  | exported member => exact .exported member

lemma useHost_used {name : String} {site : Span} :
    Used load mentions topLevel r (after (useHost name site) r) (answer (useHost name site) r) := by
  simp only [useHost, after_bind, answer_bind, answer_get, after_get]
  cases known : r.program.hosts.signature? name with
  | none => exact .none .refl
  | some signature => exact .record (.host known)

/-- A host function, or a name that is left open. -/
lemma useHostOrLeave_used {name : String} {site : Span} {ident : Ident} :
    Used load mentions topLevel r (after (useHostOrLeave name site ident) r) (answer (useHostOrLeave name site ident) r) := by
  have host : Used load mentions topLevel r (after (useHost name site) r) (answer (useHost name site) r) := useHost_used
  simp only [useHostOrLeave, after_bind, answer_bind]
  cases found : answer (useHost name site) r with
  | none => exact .none (host.changes.trans (leaveOpen_traced.changes _))
  | some known =>
    rw [found] at host
    exact host

/-- A binding that is not invalid is denoted by its name. -/
lemma denotes_target {id scope : Nat} (valid : r.scopes.target id ≠ .invalid) :
    r.Denotes (r.scopes.target id) (r.scopes.typeAt id scope) := by
  unfold Scopes.target Scopes.typeAt at *
  split
  · next b found =>
    simp only [found] at valid ⊢
    exact .bound found valid fun none => by simp [none]
  · next missing => simp [missing] at valid

lemma useName_used {ident : Ident} :
    Used load mentions topLevel r (after (useName ident) r) (answer (useName ident) r) := by
  simp only [useName, after_bind, answer_bind, answer_get, after_get]
  cases r.scopes.lookup r.current ident.name ident.span.start with
  | found id =>
    have denotes : r.scopes.target id ≠ .invalid → r.Denotes (r.scopes.target id) (r.scopes.typeAt id r.current) :=
      denotes_target
    by_cases invalid : r.scopes.target id = .invalid
    · simp only [invalid, if_true]
      exact .none .refl
    · simp only [invalid, if_false]
      exact .record (denotes invalid)
  | ambiguous ids => exact .none (report_traced.changes r)
  | notYetDeclared id => exact .none (report_traced.changes r)
  | notFound => exact useHostOrLeave_used

lemma followPath_used {site : Span} {target : Target} {ty : Ty} {before : Ident} {rest : List Ident}
    (denotes : r.Denotes target ty) :
    Used load mentions topLevel r (after (followPath site target ty before rest) r)
      (answer (followPath site target ty before rest) r) := by
  induction rest generalizing target ty before with
  | nil => exact .record denotes
  | cons segment rest ih =>
    cases target with
    | module id =>
      simp only [followPath, after_bind, answer_bind, answer_get, after_get]
      cases found : r.program.modules[(id : Nat)]? with
      | none => exact .none .refl
      | some m =>
        cases exported : m.exports.get? segment.name with
        | none =>
          simp only [exported]
          exact .none (report_traced.changes r)
        | some e =>
          have member : e ∈ (r.program.exportsOf id).entries := by
            simp only [Program.exportsOf, found]
            exact List.mem_of_find?_eq_some exported
          simp only [exported]
          exact ih (.exported member)
    | _ => exact .none (report_traced.changes r)

lemma usePath_used {head : Ident} {rest : List Ident} {site : Span} :
    Used load mentions topLevel r (after (usePath head rest site) r) (answer (usePath head rest site) r) := by
  have through : Used load mentions topLevel r (after (useHead head rest site) r) (answer (useHead head rest site) r) := by
    have first : Used load mentions topLevel r (after (useName head) r) (answer (useName head) r) := useName_used
    simp only [useHead, after_bind, answer_bind]
    cases found : answer (useName head) r with
    | none => exact .none first.changes
    | some known =>
      obtain ⟨target, ty⟩ := known
      have second : Used load mentions topLevel (after (useName head) r)
          (after (followPath site target ty head rest) (after (useName head) r))
          (answer (followPath site target ty head rest) (after (useName head) r)) :=
        followPath_used (first.denotes target ty found)
      exact ⟨first.changes.trans second.changes, second.denotes⟩
  simp only [usePath, after_bind, answer_bind, answer_get, after_get]
  cases r.scopes.lookup r.current head.name head.span.start with
  | notFound => exact useHostOrLeave_used
  | _ => exact through

lemma useName_traced {ident : Ident} : Traced load mentions topLevel fun _ => useName ident :=
  .own fun _ => useName_used.changes

lemma usePath_traced {head : Ident} {rest : List Ident} {site : Span} :
    Traced load mentions topLevel fun _ => usePath head rest site :=
  .own fun _ => usePath_used.changes

/-! ### Declarations -/

/-- A binding that is not for an exported definition is installed by changes. -/
lemma install_changes {b : Binding} (binds : r.Binds b) : Changes load mentions topLevel r (after (install b) r) := by
  cases free : obstacle? r.program.policy r.scopes b with
  | none =>
    rw [(install_free free).2]
    exact .single (.bind binds)
  | some other =>
    rw [(install_taken free).2]
    exact .single (.tables rfl rfl rfl rfl (List.subset_append_left _ _))

lemma introduce_changes {b : Binding} (binds : r.Binds b) :
    Changes load mentions topLevel r (after (introduce b) r) := by
  cases free : obstacle? r.program.policy r.scopes b with
  | none =>
    rw [(introduce_free free).2]
    exact .tail (.single (.bind binds)) (.tables rfl rfl rfl rfl (List.Subset.refl _))
  | some other =>
    rw [(introduce_taken free).2]
    exact .single (.tables rfl rfl rfl rfl (List.subset_append_left _ _))

lemma declareInner_traced {ident : Ident} {visibleFrom : Nat} {ty : Ty} {origin : Origin} :
    Traced load mentions topLevel fun _ => declareInner ident visibleFrom ty origin :=
  .own fun _ => introduce_changes (.inner rfl)

lemma addLoopTag_traced {tag : BindingId} {loop : ScopeId} :
    Traced load mentions topLevel fun _ => addLoopTag tag loop := by
  refine .own fun r => .single ?_
  simp only [addLoopTag, after_modify]
  split
  · exact .tables rfl rfl rfl rfl (List.Subset.refl _)
  · exact .tables rfl rfl rfl rfl (List.Subset.refl _)

lemma declareTag_traced {tag : Ident} {visibleFrom : Nat} {ty : Ty} :
    Traced load mentions topLevel fun _ => declareTag tag visibleFrom ty := by
  refine .own fun r => ?_
  let b : Binding := ⟨tag.name, tag.name, .inner r.scopes.nextBinding, (r.scopes.tagHome r.current).1, visibleFrom,
    tag.span, ty, .tag, (r.scopes.tagHome r.current).2⟩
  have introduced : Changes load mentions topLevel r (after (introduce b) r) := introduce_changes (.inner rfl)
  show Changes load mentions topLevel r (after (collect b.loops (answer (introduce b) r)) (after (introduce b) r))
  refine introduced.trans ?_
  cases answer (introduce b) r with
  | some id => exact (forM_traced fun _ _ => addLoopTag_traced).changes _
  | none => exact .refl

/-- An exported definition binds its name and exports it, unless the name has been exported before. -/
lemma defineExported_changes {name : Ident} {isFunction : Bool} {ty : Ty} {span : Span} :
    Changes load mentions true r (after (define true true name isFunction ty span) r) := by
  let b : Binding := ⟨name.name, name.name, .item r.home name.name, r.current, span.stop, name.span, ty, .declaration,
    []⟩
  let e : Export := ⟨name.name, .item r.home name.name, if isFunction then .function else .constant, name.span, ty,
    false⟩
  show Changes load mentions true r (after (offer e (answer (introduce b) r)) (after (introduce b) r))
  cases free : obstacle? r.program.policy r.scopes b with
  | some other =>
    obtain ⟨found, next⟩ := introduce_taken free
    rw [found, next]
    exact .single (.tables rfl rfl rfl rfl (List.subset_append_left _ _))
  | none =>
    obtain ⟨found, next⟩ := introduce_free free
    rw [found, next]
    let r₁ : Resolution := { r with
      scopes := r.scopes.insert b
      declarations := r.declarations.insert b.site r.scopes.nextBinding }
    show Changes load mentions true r (after (publish e) r₁)
    cases inserted : (r₁.program.exportsOf r₁.home).insert e with
    | ok exports =>
      rw [publish_new inserted]
      have defined : Change load mentions true r { r with scopes := r.scopes.insert b, program := r.offering exports } :=
        .define rfl rfl rfl rfl rfl rfl rfl inserted
      exact .tail (.single defined) (.tables rfl rfl rfl rfl (List.Subset.refl _))
    | error first =>
      rw [publish_taken inserted]
      have redefined : Change load mentions true r { r with
          scopes := r.scopes.insert b
          faults := r.faults ++ [.duplicateExport e.name e.site first.site] } := .redefine rfl rfl
      exact .tail (.single redefined) (.tables rfl rfl rfl rfl (List.Subset.refl _))

lemma define_traced {exported isFunction : Bool} {name : Ident} {ty : Ty} {span : Span} :
    Traced load mentions topLevel fun _ => define exported topLevel name isFunction ty span := by
  cases exported with
  | false => exact declareInner_traced
  | true =>
    cases topLevel with
    | false => exact declareInner_traced
    | true => exact .own fun _ => defineExported_changes

/-! ### Imports -/

lemma keepInvalid_traced {ident : Ident} {visibleFrom : Nat} :
    Traced load mentions topLevel fun _ => keepInvalid ident visibleFrom :=
  .own fun _ => .single (.bind (.invalid rfl))

lemma keepModuleName_traced {i : Import} {newName : Option Ident} {site : Span} :
    Traced load mentions topLevel fun _ => keepModuleName i newName site := by
  simp only [keepModuleName]
  split
  · exact keepInvalid_traced
  · split
    · split
      · exact keepInvalid_traced
      · exact .pure ()
    · exact .pure ()

lemma keepNames_traced {i : Import} : Traced load mentions topLevel fun _ => keepNames i := by
  simp only [keepNames]
  split
  · exact keepModuleName_traced
  · refine forM_traced fun item _ => ?_
    cases item with
    | name name newName => exact keepInvalid_traced
    | self span newName => exact keepModuleName_traced
    | glob span => exact .pure ()

/-- The items of an import have been gone through. -/
structure Listed (load : Loader) (mentions : List Mention) (topLevel : Bool) (target : ModuleId) (m : LoadedModule)
    (r r' : Resolution) (items : List Imported) : Prop where
  changes : Changes load mentions topLevel r r'
  program : r'.program = r.program
  copies : ∀ item ∈ items, Imported.Copies item target m

variable {i : Import} {target : ModuleId} {m : LoadedModule} {explicit : List String}

lemma Listed.none {faults : List Fault} :
    Listed load mentions topLevel target m r { r with faults := r.faults ++ faults } [] :=
  ⟨report_traced.changes r, rfl, nofun⟩

lemma Listed.all {items : List Imported} (copies : ∀ item ∈ items, Imported.Copies item target m) :
    Listed load mentions topLevel target m r r items :=
  ⟨.refl, rfl, copies⟩

lemma importItem_listed {item : ImportItem} :
    Listed load mentions topLevel target m r (after (importItem i target m explicit item) r)
      (answer (importItem i target m explicit item) r) := by
  cases item with
  | name name newName =>
    simp only [importItem]
    cases exported : m.exports.get? name.name with
    | some e =>
      refine .all (List.forall_mem_singleton.2 (Or.inr ⟨e, ?_, rfl, rfl, rfl⟩))
      exact List.mem_of_find?_eq_some exported
    | none =>
      refine ⟨?_, rfl, List.forall_mem_nil _⟩
      exact (report_traced.changes r).trans (keepInvalid_traced.changes _)
  | self span newName =>
    simp only [importItem]
    cases brought : Import.moduleItem target m.path newName span with
    | error fault => exact .none
    | ok item =>
      refine .all (List.forall_mem_singleton.2 (Or.inl ?_))
      unfold Import.moduleItem at brought
      split at brought <;> cases brought <;> rfl
  | glob span =>
    refine .all fun item member => ?_
    simp only [importItem, answer_pure, List.mem_map] at member
    obtain ⟨e, member, rfl⟩ := member
    exact Or.inr ⟨e, (List.mem_filter.1 member).1, rfl, rfl, rfl⟩

lemma importItems_listed {items : List ImportItem} :
    Listed load mentions topLevel target m r (after (importItems i target m explicit items) r)
      (answer (importItems i target m explicit items) r) := by
  induction items generalizing r with
  | nil => exact .all (by simp [importItems])
  | cons item items ih =>
    have first : Listed load mentions topLevel target m r (after (importItem i target m explicit item) r)
      (answer (importItem i target m explicit item) r) := importItem_listed
    have rest := ih (r := after (importItem i target m explicit item) r)
    refine ⟨first.changes.trans rest.changes, rest.program.trans first.program, fun item member => ?_⟩
    exact (List.mem_append.1 member).elim (first.copies item) (rest.copies item)

/-- An export that an import forwards. -/
lemma Imported.Copies.forwards {item : Imported} {site : Span} (copies : item.Copies target m)
    (shows : r.program.Shows target m) : r.Forwards ⟨item.name, item.target, item.kind, site, item.ty, true⟩ := by
  rcases copies with same | ⟨e, member, target, kind, ty⟩
  · exact .module same shows.1
  · exact .exported (shows.2 member) target kind ty

/-- Offering a name takes nothing away that a module shows. -/
lemma publish_shows {e : Export} (shows : r.program.Shows target m) : (after (publish e) r).program.Shows target m := by
  cases inserted : (r.program.exportsOf r.home).insert e with
  | error first => rwa [publish_taken inserted]
  | ok exports =>
    rw [publish_new inserted]
    refine ⟨by simpa [Program.modify] using shows.1, fun e' member => ?_⟩
    have old := shows.2 member
    by_cases same : r.home = target
    · subst same
      have found := Array.getElem?_eq_getElem shows.1
      simp only [Program.exportsOf, Program.modify, Array.getElem?_modify, if_pos, found, Option.map_some]
      exact Exports.mem_of_insert inserted old
    · simpa [Program.exportsOf, Program.modify, Array.getElem?_modify, same] using old

lemma installImport_changes {item : Imported} (copies : item.Copies target m) (shows : r.program.Shows target m) :
    Changes load mentions topLevel r (after (installImport i topLevel item) r) ∧
      (after (installImport i topLevel item) r).program.Shows target m := by
  let b : Binding := ⟨item.name, item.sourceName, item.target, r.current, i.span.stop, item.site, item.ty,
    item.origin, []⟩
  let e : Export := ⟨item.name, item.target, item.kind, item.site, item.ty, true⟩
  let offer (found : Option BindingId) : Resolve Unit :=
    if found.isSome && i.exported && topLevel then publish e else Pure.pure ()
  have binds : r.Binds b := by
    rcases copies with same | ⟨e', member, same, -, ty⟩
    · exact .module same shows.1
    · exact .exported (shows.2 member) same ty rfl
  have installed : Changes load mentions topLevel r (after (install b) r) := install_changes binds
  have program : (after (install b) r).program = r.program := by
    cases free : obstacle? r.program.policy r.scopes b with
    | none => rw [(install_free free).2]
    | some other => rw [(install_taken free).2]
  show Changes load mentions topLevel r (after (offer (answer (install b) r)) (after (install b) r)) ∧
    (after (offer (answer (install b) r)) (after (install b) r)).program.Shows target m
  rw [← program] at shows
  generalize after (install b) r = r₁ at installed shows ⊢
  simp only [offer]
  split
  · next given =>
    simp only [Bool.and_eq_true] at given
    refine ⟨installed.trans ?_, publish_shows shows⟩
    cases inserted : (r₁.program.exportsOf r₁.home).insert e with
    | error first =>
      rw [publish_taken inserted]
      exact .single (.tables rfl rfl rfl rfl (List.subset_append_left _ _))
    | ok exports =>
      rw [publish_new inserted]
      exact .single (.forward given.2 inserted (Imported.Copies.forwards copies shows))
  · exact ⟨installed, shows⟩

lemma installImports_changes {items : List Imported} (copies : ∀ item ∈ items, Imported.Copies item target m)
    (shows : r.program.Shows target m) :
    Changes load mentions topLevel r (after (items.forM (installImport i topLevel)) r) := by
  induction items generalizing r with
  | nil => exact .refl
  | cons item items ih =>
    rw [List.forM_eq_forM, List.forM_cons, after_bind]
    have first : Changes load mentions topLevel r (after (installImport i topLevel item) r) ∧ _ :=
      installImport_changes (copies item List.mem_cons_self) shows
    exact first.1.trans (ih (fun item member => copies item (List.mem_cons_of_mem _ member)) first.2)

lemma bindImports_changes (shows : r.program.Shows target m) :
    Changes load mentions topLevel r (after (bindImports i topLevel target m) r) := by
  have install {r₁ : Resolution} {items : List Imported} (listed : Listed load mentions topLevel target m r r₁ items) :
      Changes load mentions topLevel r (after (items.forM (installImport i topLevel)) r₁) := by
    rw [← listed.program] at shows
    exact listed.changes.trans (installImports_changes listed.copies shows)
  simp only [bindImports]
  cases i.items with
  | module newName =>
    let item : ImportItem := .self i.pathSpan newName
    have listed : Listed load mentions topLevel target m r (after (importItem i target m [] item) r)
      (answer (importItem i target m [] item) r) := importItem_listed
    exact install listed
  | list items => exact install importItems_listed

/-- An import statement at the top level loads its module, and binds what the module shows. -/
lemma importStatement_after : after (importStatement load i true) r =
    after (bindLoaded i true (load r.program i.path).1 (load r.program i.path).2)
      { r with program := (load r.program i.path).2 } := by
  have unnested : refuseNested i.exported true i.span = pure () := by simp [refuseNested]
  simp only [importStatement, unnested, pure_bind]
  rfl

lemma bindLoaded_changes {found : Except LoadError ModuleId} :
    Changes load mentions topLevel r (after (bindLoaded i topLevel found r.program) r) := by
  cases found with
  | error cause => exact (report_traced.changes r).trans (keepNames_traced.changes _)
  | ok target =>
    let r₁ : Resolution := { r with imports := r.imports.insert i.span target }
    have recorded : Change load mentions topLevel r r₁ := .tables rfl rfl rfl rfl (List.Subset.refl _)
    refine .head recorded ?_
    simp only [bindLoaded, after_bind, after_modify]
    cases known : r.program.modules[(target : Nat)]? with
    | none => exact .refl
    | some m =>
      dsimp only
      split
      · exact (report_traced.changes r₁).trans (keepNames_traced.changes _)
      · let r₂ : Resolution := { r₁ with program := r.program.addEdge ⟨r.home, target, i.pathSpan⟩ }
        have shows : r₂.program.Shows target m := by
          refine ⟨(Array.getElem?_eq_some_iff.1 known).1, fun e member => ?_⟩
          simpa [r₂, Program.addEdge, Program.exportsOf, known] using member
        exact .head .edge (bindImports_changes shows)

/-- The loader is asked for the path of an import, in the program at that point. -/
lemma load_traced (tail : Except LoadError ModuleId → Program → Resolve α) (member : .importing i ∈ mentions)
    (rest : ∀ r found, Changes load mentions topLevel r (after (tail found r.program) r)) :
    Traced load mentions topLevel fun load => loadAnd load i tail where
  changes r := .head (.load member) (rest { r with program := (load r.program i.path).2 } _)
  asks {r p raw} := by
    rintro ⟨load', same, differs⟩
    have here : r.program = p ∧ i.path = raw := by
      by_contra other
      apply differs
      have alike := same r.program i.path (not_and_or.1 other)
      change (tail (load' r.program i.path).1 (load' r.program i.path).2).run
          { r with program := (load' r.program i.path).2 } = _
      rw [alike]
      rfl
    obtain ⟨rfl, rfl⟩ := here
    exact ⟨i, r, member, rfl, rfl, .refl, rest { r with program := (load r.program i.path).2 } _⟩

lemma importStatement_traced (member : .importing i ∈ mentions) :
    Traced load mentions topLevel fun load => importStatement load i topLevel :=
  refuseNested_traced.bind fun _ => load_traced (bindLoaded i topLevel) member fun _ _ => bindLoaded_changes

/-! ### Syntax -/

lemma calleeOf_traced {callee : Expr} (traced : Traced load mentions topLevel fun load => expr load none callee) :
    Traced load mentions topLevel fun load => calleeOf load callee := by
  cases callee with
  | name ident => exact useName_traced
  | path head rest span => exact usePath_traced
  | _ => exact traced.bind fun _ => .pure _

lemma checkCall_traced {incoming : Option Ty} {args : List Argument} {span : Span} {found : Option (Target × Ty)} :
    Traced load mentions topLevel fun _ => checkCall incoming args span found := by
  cases found with
  | none => exact .pure _
  | some known => exact checkHostCall_traced.bind fun _ => .pure _

end Resolve

open Resolve

section

variable {load : Loader} {mentions : List Mention}

mutual

/-- The resolution of an expression is traced. -/
theorem Expr.traced (e : Expr) (sub : e.mentions ⊆ mentions) (incoming : Option Ty) :
    Traced load mentions false fun load => expr load incoming e := by
  match e with
  | .name ident =>
    exact rejectIncoming_traced.bind fun _ => useName_traced.bind fun _ => stageType_traced
  | .path head rest span =>
    exact rejectIncoming_traced.bind fun _ => usePath_traced.bind fun _ => stageType_traced
  | .literal value span => exact rejectIncoming_traced.bind fun _ => .pure _
  | .array items span =>
    exact rejectIncoming_traced.bind fun _ => (Expr.all_traced items sub).bind fun _ => .pure _
  | .range start stop inclusive span =>
    obtain ⟨first, last⟩ := List.append_subset.1 sub
    exact rejectIncoming_traced.bind fun _ => (Expr.traced start first none).bind fun _ =>
      (Expr.traced stop last none).bind fun _ => .pure _
  | .binary op left right span =>
    obtain ⟨first, last⟩ := List.append_subset.1 sub
    exact rejectIncoming_traced.bind fun _ => (Expr.traced left first none).bind fun _ =>
      (Expr.traced right last none).bind fun _ => .pure _
  | .unary op operand span =>
    exact rejectIncoming_traced.bind fun _ => (Expr.traced operand sub none).bind fun _ => .pure _
  | .call callee args span =>
    obtain ⟨first, last⟩ := List.append_subset.1 sub
    simp only [expr_call]
    exact rejectIncoming_traced.bind fun _ => (calleeOf_traced (Expr.traced callee first none)).bind fun _ =>
      (Argument.all_traced args last).bind fun _ => checkCall_traced
  | .index base index span =>
    obtain ⟨first, last⟩ := List.append_subset.1 sub
    exact rejectIncoming_traced.bind fun _ => (Expr.traced base first none).bind fun _ =>
      (Expr.traced index last none).bind fun _ => .pure _
  | .lambda f => exact rejectIncoming_traced.bind fun _ => Lambda.traced f sub
  | .block b => exact rejectIncoming_traced.bind fun _ => Block.traced b sub incoming
  | .branch b => exact rejectIncoming_traced.bind fun _ => Branch.traced b sub incoming
  | .pipeline p => exact rejectIncoming_traced.bind fun _ => Pipeline.traced p sub incoming
  | .loop l => exact rejectIncoming_traced.bind fun _ => Loop.traced l sub incoming
termination_by structural e

theorem Expr.all_traced (es : List Expr) (sub : Expr.allMentions es ⊆ mentions) :
    Traced load mentions false fun load => exprs load es := by
  match es with
  | [] => exact .pure _
  | e :: es =>
    obtain ⟨first, rest⟩ := List.append_subset.1 sub
    exact (Expr.traced e first none).bind fun _ => (Expr.all_traced es rest).bind fun _ => .pure _
termination_by structural es

theorem Argument.all_traced (args : List Argument) (sub : Argument.allMentions args ⊆ mentions) :
    Traced load mentions false fun load => arguments load args := by
  match args with
  | [] => exact .pure _
  | ⟨_, value⟩ :: args =>
    obtain ⟨first, rest⟩ := List.append_subset.1 sub
    exact (Expr.traced value first none).bind fun _ => Argument.all_traced args rest
termination_by structural args

theorem Param.all_traced (ps : List Param) (sub : Param.allMentions ps ⊆ mentions) :
    Traced load mentions false fun load => params load ps := by
  match ps with
  | [] => exact .pure _
  | ⟨_, _, none, _⟩ :: ps => exact declareInner_traced.bind fun _ => Param.all_traced ps sub
  | ⟨_, _, some e, _⟩ :: ps =>
    obtain ⟨first, rest⟩ := List.append_subset.1 sub
    exact (Expr.traced e first none).bind fun _ => declareInner_traced.bind fun _ => Param.all_traced ps rest
termination_by structural ps

theorem Lambda.traced (f : Lambda) (sub : f.mentions ⊆ mentions) :
    Traced load mentions false fun load => lambda load f := by
  match f with
  | ⟨ps, returns, body, span⟩ =>
    obtain ⟨first, rest⟩ := List.append_subset.1 sub
    exact enter_traced.bind fun _ => (Param.all_traced ps first).bind fun _ =>
      (Expr.traced body rest none).bind fun _ => leave_traced.bind fun _ => .pure _
termination_by structural f

theorem Block.traced (b : Block) (sub : b.mentions ⊆ mentions) (incoming : Option Ty) :
    Traced load mentions false fun load => block load incoming b := by
  match b with
  | ⟨statements, span⟩ =>
    exact rejectTailless_traced.bind fun _ => enter_traced.bind fun _ =>
      (Statement.all_traced statements sub incoming).bind fun _ => leave_traced.bind fun _ => .pure _
termination_by structural b

theorem Statement.all_traced (ss : List Statement) (sub : Statement.allMentions ss ⊆ mentions) (incoming : Option Ty) :
    Traced load mentions false fun load => blockStatements load incoming ss := by
  match ss with
  | [] => exact .pure _
  | [s] => exact Statement.traced s (List.append_subset.1 sub).1 incoming
  | s :: next :: ss =>
    obtain ⟨first, rest⟩ := List.append_subset.1 sub
    exact (Statement.traced s first none).bind fun _ => Statement.all_traced (next :: ss) rest incoming
termination_by structural ss

/-- The resolution of a nested statement is traced. -/
theorem Statement.traced (s : Statement) (sub : s.mentions ⊆ mentions) (incoming : Option Ty) :
    Traced load mentions false fun load => statement load false incoming s := by
  match s with
  | .importing i =>
    exact (importStatement_traced (sub List.mem_cons_self)).bind fun _ => .pure _
  | .define exported name value span =>
    exact refuseNested_traced.bind fun _ => (Expr.traced value sub none).bind fun _ => define_traced.bind fun _ => .pure _
  | .expr e span => exact Expr.traced e sub incoming
termination_by structural s

theorem Branch.traced (b : Branch) (sub : b.mentions ⊆ mentions) (incoming : Option Ty) :
    Traced load mentions false fun load => branch load incoming b := by
  match b with
  | ⟨condition, consequence, other, _⟩ =>
    obtain ⟨both, last⟩ := List.append_subset.1 sub
    obtain ⟨first, second⟩ := List.append_subset.1 both
    exact (Expr.traced condition first none).bind fun _ => (Block.traced consequence second incoming).bind fun _ =>
      (Alternative.traced other last incoming).bind fun _ => .pure _
termination_by structural b

theorem Alternative.traced (a : Alternative) (sub : a.mentions ⊆ mentions) (incoming : Option Ty) :
    Traced load mentions false fun load => alternative load incoming a := by
  match a with
  | .absent => exact .pure _
  | .block b => exact Block.traced b sub incoming
  | .branch b => exact Branch.traced b sub incoming
termination_by structural a

theorem Pipeline.traced (p : Pipeline) (sub : p.mentions ⊆ mentions) (incoming : Option Ty) :
    Traced load mentions false fun load => pipeline load incoming p := by
  match p with
  | ⟨body, _⟩ => exact (Stage.all_traced body sub incoming).bind fun _ => .pure _
termination_by structural p

theorem Stage.all_traced (ss : List Stage) (sub : Stage.allMentions ss ⊆ mentions) (incoming : Option Ty) :
    Traced load mentions false fun load => stages load incoming ss := by
  match ss with
  | [] => exact .pure _
  | s :: ss =>
    obtain ⟨first, rest⟩ := List.append_subset.1 sub
    exact (Stage.traced s first incoming).bind fun _ => Stage.all_traced ss rest _
termination_by structural ss

theorem Stage.traced (s : Stage) (sub : s.mentions ⊆ mentions) (incoming : Option Ty) :
    Traced load mentions false fun load => stage load incoming s := by
  match s with
  | .expr e none span => exact (Expr.traced e sub incoming).bind fun _ => .pure _
  | .expr e (some tag) span =>
    exact (Expr.traced e sub incoming).bind fun _ => declareTag_traced.bind fun _ => .pure _
  | .operator op operand none span => exact (Expr.traced operand sub none).bind fun _ => .pure _
  | .operator op operand (some tag) span =>
    exact (Expr.traced operand sub none).bind fun _ => declareTag_traced.bind fun _ => .pure _
termination_by structural s

theorem Loop.traced (l : Loop) (sub : l.mentions ⊆ mentions) (incoming : Option Ty) :
    Traced load mentions false fun load => loop load incoming l := by
  match l with
  | ⟨sequence, binding, body, span⟩ =>
    obtain ⟨first, rest⟩ := List.append_subset.1 sub
    refine (Expr.traced sequence first none).bind fun _ => enter_traced.bind fun _ => loopSite_traced.bind fun _ =>
      declareInner_traced.bind fun _ => (Pipeline.traced body rest incoming).bind fun _ => leave_traced.bind fun _ => ?_
    cases incoming with
    | none => exact .pure _
    | some seed => exact .pure _
termination_by structural l

end

/-! ### Modules -/

/-- The resolution of a statement at the top level is traced. -/
theorem Statement.top_traced (s : Statement) (sub : s.mentions ⊆ mentions) (incoming : Option Ty) :
    Traced load mentions true fun load => statement load true incoming s := by
  cases s with
  | importing i => exact (importStatement_traced (sub List.mem_cons_self)).bind fun _ => .pure _
  | define exported name value span =>
    exact refuseNested_traced.bind fun _ => ((Expr.traced value sub none).widen (List.Subset.refl _) nofun).bind fun _ =>
      define_traced.bind fun _ => .pure _
  | expr e span => exact (Expr.traced e sub incoming).widen (List.Subset.refl _) nofun

theorem Resolve.topLevel_traced (ss : List Statement) (sub : Statement.allMentions ss ⊆ mentions) :
    Traced load mentions true fun load => topLevel load ss := by
  induction ss with
  | nil => exact .pure _
  | cons s ss ih =>
    obtain ⟨first, rest⟩ := List.append_subset.1 sub
    exact (Statement.top_traced s first none).bind fun _ => ih rest

/-- What is left of the resolution of a module before some of its statements. -/
def Resolve.remaining (load : Loader) (m : Module) (rest : List Statement) : Resolve Unit := do
  topLevel load rest
  markAssembly m
  reportOpenNames

theorem Resolve.remaining_traced (m : Module) (rest : List Statement) (sub : Statement.allMentions rest ⊆ mentions) :
    Traced load mentions true fun load => remaining load m rest := by
  refine (topLevel_traced rest sub).bind fun _ => Traced.bind ?_ fun _ => ?_
  · refine .own fun r => ?_
    simp only [markAssembly]
    cases m.assembly? with
    | none => exact .refl
    | some e => exact .single (.assembly rfl)
  · exact .own fun r => .single (.tables rfl rfl rfl rfl (List.subset_append_left _ _))

lemma Resolve.remaining_changes (load : Loader) (m : Module) (rest : List Statement) (r : Resolution) :
    Changes load (Statement.allMentions rest) true r (after (remaining load m rest) r) :=
  (remaining_traced m rest (List.Subset.refl _)).changes r

lemma Resolve.module_changes (load : Loader) (m : Module) (r : Resolution) :
    Changes load (Statement.allMentions m.statements) true r (after (Resolve.module load m) r) :=
  remaining_changes load m m.statements r

lemma Resolve.after_topLevel_append {ss rest : List Statement} :
    after (topLevel load (ss ++ rest)) r = after (topLevel load rest) (after (topLevel load ss) r) := by
  induction ss generalizing r with
  | nil => rfl
  | cons s ss ih => exact ih

/-- What does without the loader asks for nothing. -/
lemma Resolve.Asks.first {α β : Type} {x : Loader → Resolve α} {f : α → Resolve β} {r : Resolution} {p : Program}
    {raw : String} (asks : Asks (fun load => x load >>= f) load r p raw) : Asks x load r p raw := by
  obtain ⟨load', same, differs⟩ := asks
  refine ⟨load', same, fun alike => differs ?_⟩
  change (f ((x load').run r).1).run ((x load').run r).2 = (f ((x load).run r).1).run ((x load).run r).2
  rw [alike]

/-- Loads the module that an import statement names. -/
def Resolve.loadImported (load : Loader) (i : Import) : Resolve (Except LoadError ModuleId × Program) := do
  let r ← get
  let (found, program) := load r.program i.path
  set { r with program := program }
  return (found, program)

/-- Before a statement at the top level asks for a module, it has changed nothing that is offered. -/
theorem Statement.asks (s : Statement) {r : Resolution} {p : Program} {raw : String}
    (asks : Asks (fun load => statement load true none s) load r p raw) : ∃ i asking, .importing i ∈ s.mentions ∧
      raw = i.path ∧ asking.program = p ∧ Changes load s.mentions false r asking := by
  -- it is the part before anything is bound or offered that asks
  have part {α : Type} {x : Loader → Resolve α} (traced : Traced load s.mentions false x)
      (asks : Asks x load r p raw) : ∃ i asking, .importing i ∈ s.mentions ∧ raw = i.path ∧ asking.program = p ∧
        Changes load s.mentions false r asking := by
    obtain ⟨i, asking, member, path, program, before, -⟩ := traced.asks asks
    exact ⟨i, asking, member, path, program, before⟩
  cases s with
  | importing i =>
    let rest (found : Except LoadError ModuleId × Program) : Resolve Ty := do
      bindLoaded i true found.1 found.2
      return .unit
    refine part (x := fun load => refuseNested i.exported true i.span >>= fun _ => loadImported load i) ?_
      (Asks.first (f := rest) asks)
    exact refuseNested_traced.bind fun _ => load_traced (fun found program => pure (found, program)) List.mem_cons_self
      fun _ _ => .refl
  | define exported name value span =>
    let rest (ty : Ty) : Resolve Ty := do
      Resolve.define exported true name value.isLambda ty span
      return .unit
    refine part (x := fun load => refuseNested exported true span >>= fun _ => Resolve.expr load none value) ?_
      (Asks.first (f := rest) asks)
    exact refuseNested_traced.bind fun _ => Expr.traced value (List.Subset.refl _) none
  | expr e span => exact part (Expr.traced e (List.Subset.refl _) none) asks

end

end PipeLang
