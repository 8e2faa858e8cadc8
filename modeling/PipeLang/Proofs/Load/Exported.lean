import PipeLang.Proofs.Load.Keeps

/-!
# What statements export

A statement at the top level exports the names that it defines or, when it is an import, the names that it binds, as far
as they can be bound and have not been exported before. Nothing else changes what a module exports while the module is
resolved: `Resolve.topLevel_exports`.
-/

namespace PipeLang

open Resolve (after answer obstacle?)

/-- Exports one more name, unless the name is taken. -/
def Export.onto (exported : List Export) (e : Export) : List Export :=
  if exported.any fun other => other.name == e.name then exported else exported ++ [e]

/-- The binding of an imported name. -/
def Imported.binding (item : Imported) (i : Import) (scope : ScopeId) : Binding :=
  ⟨item.name, item.sourceName, item.target, scope, i.span.stop, item.site, item.ty, item.origin, []⟩

/-- The export of an imported name. -/
def Imported.forwarded (item : Imported) : Export :=
  ⟨item.name, item.target, item.kind, item.site, item.ty, true⟩

/-- The binding of an exported definition. -/
def Ident.definition (name : Ident) (home : ModuleId) (scope : ScopeId) (ty : Ty) (span : Span) : Binding :=
  ⟨name.name, name.name, .item home name.name, scope, span.stop, name.span, ty, .declaration, []⟩

/-- The export of a definition. -/
def Ident.defined (name : Ident) (home : ModuleId) (isFunction : Bool) (ty : Ty) : Export :=
  ⟨name.name, .item home name.name, if isFunction then .function else .constant, name.span, ty, false⟩

/-- Whether nothing keeps a binding from being installed. -/
def Resolution.frees (r : Resolution) (b : Binding) : Bool :=
  (obstacle? r.program.policy r.scopes b).isNone

/-- What a module exports when an import statement has bound some names and forwards them. -/
def Import.forwards (i : Import) (r : Resolution) (exported : List Export) : List Imported → List Export
  | [] => exported
  | item :: rest =>
    i.forwards (after (Resolve.installImport i true item) r)
      (if r.frees (item.binding i r.current) then item.forwarded.onto exported else exported) rest

/-- The names that an import statement takes from a module. -/
def Import.taken (i : Import) (target : ModuleId) (m : LoadedModule) : Resolve (List Imported) :=
  match i.items with
  | .module newName => Resolve.importItem i target m [] (.self i.pathSpan newName)
  | .list items => Resolve.importItems i target m (Import.explicitNames items) items

/-- What a module exports behind an import statement, when the loader has answered. -/
def Import.exports (i : Import) (r : Resolution) (exported : List Export) : Except LoadError ModuleId → List Export
  | .error _ => exported
  | .ok target =>
    match r.program.modules[target]? with
    | none => exported
    | some m =>
      if m.status = .loaded && !m.faults.isEmpty then
        exported
      else
        let r := { r with
          imports := r.imports.insert i.span target
          program := r.program.addEdge ⟨r.home, target, i.pathSpan⟩ }
        i.forwards (after (i.taken target m) r) exported (answer (i.taken target m) r)

/-- What a module exports behind a statement at the top level, given what it has exported before. -/
def Statement.exports (load : Loader) (r : Resolution) (exported : List Export) : Statement → List Export
  | .importing i =>
    if i.exported then
      i.exports { r with program := (load r.program i.path).2 } exported (load r.program i.path).1
    else
      exported
  | .define false _ _ _ => exported
  | .define true name value span =>
    let ty := answer (Resolve.expr load none value) r
    let r := after (Resolve.expr load none value) r
    if r.frees (name.definition r.home r.current ty span) then
      (name.defined r.home value.isLambda ty).onto exported
    else
      exported
  | .expr _ _ => exported

/-- What a module exports behind some statements at the top level. -/
def Resolve.exports (load : Loader) (r : Resolution) (exported : List Export) : List Statement → List Export
  | [] => exported
  | s :: rest => exports load (after (statement load true none s) r) (s.exports load r exported) rest

variable {load : Loader} {mentions : List Mention} {r r' : Resolution}

/-- A resolution whose module is there and has exported some names. -/
structure Resolution.Exported (r : Resolution) (exported : List Export) : Prop where
  there : (r.home : Nat) < r.program.modules.size
  entries : (r.program.exportsOf r.home).entries = exported

/-- Changes that are not made at the top level export nothing. -/
lemma Resolution.Exported.nested {exported : List Export} (h : r.Exported exported) (keeps : load.Keeps)
    (mentions : List Mention) (changes : Changes load mentions false r r') : r'.Exported exported := by
  obtain ⟨kept, home⟩ := changes.keeps keeps
  have fixed : ¬ r.Grows false r.home := fun grows => Bool.false_ne_true grows.1
  exact ⟨home ▸ Nat.lt_of_lt_of_le h.there kept.size_le, by rw [home, kept.exportsOf h.there fixed, h.entries]⟩

namespace Resolve

variable {exported : List Export}

/-- Publishing exports one more name. -/
lemma publish_exports {e : Export} (h : r.Exported exported) : (after (publish e) r).Exported (e.onto exported) := by
  have found := Array.getElem?_eq_getElem h.there
  have taken : (exported.any fun other => other.name == e.name) = ((r.program.exportsOf r.home).get? e.name).isSome := by
    rw [← h.entries, Exports.get?, List.isSome_find?]
  cases inserted : (r.program.exportsOf r.home).insert e with
  | error first =>
    rw [publish_taken inserted]
    simp only [Exports.insert] at inserted
    split at inserted
    · next known =>
      rw [Export.onto, if_pos (by rw [taken, known]; rfl)]
      exact ⟨h.there, h.entries⟩
    · cases inserted
  | ok exports =>
    rw [publish_new inserted]
    simp only [Exports.insert] at inserted
    split at inserted
    · cases inserted
    · next known =>
      cases inserted
      rw [Export.onto, if_neg (by rw [taken, known]; simp)]
      refine ⟨by simpa [Program.modify] using h.there, ?_⟩
      simp [← h.entries, Program.exportsOf, Program.modify_modules, found]

/-- Binding an imported name forwards it. -/
lemma installImport_exports {i : Import} {item : Imported} (forwards : i.exported = true) (h : r.Exported exported) :
    (after (installImport i true item) r).Exported
      (if r.frees (item.binding i r.current) then item.forwarded.onto exported else exported) := by
  let publishes (found : Option BindingId) : Resolve Unit :=
    if found.isSome && i.exported && true then publish item.forwarded else Pure.pure ()
  show (after (publishes (answer (install (item.binding i r.current)) r))
    (after (install (item.binding i r.current)) r)).Exported _
  cases free : obstacle? r.program.policy r.scopes (item.binding i r.current) with
  | some other =>
    obtain ⟨found, next⟩ := install_taken free
    rw [found, next, if_neg (by simp [Resolution.frees, free])]
    exact ⟨h.there, h.entries⟩
  | none =>
    obtain ⟨found, next⟩ := install_free free
    rw [found, next, if_pos (by simp [Resolution.frees, free])]
    simp only [publishes, Option.isSome_some, forwards, Bool.and_self, if_true]
    exact publish_exports ⟨h.there, h.entries⟩

lemma installImports_exports {i : Import} {items : List Imported} (forwards : i.exported = true) (h : r.Exported exported) :
    (after (items.forM (installImport i true)) r).Exported (i.forwards r exported items) := by
  induction items generalizing r exported with
  | nil => exact h
  | cons item items ih =>
    rw [List.forM_eq_forM, List.forM_cons, after_bind]
    exact ih (installImport_exports forwards h)

/-- What an import statement takes from a module is found without exporting anything. -/
lemma taken_exports {i : Import} {target : ModuleId} {m : LoadedModule} (keeps : load.Keeps) (h : r.Exported exported) :
    (after (i.taken target m) r).Exported exported := by
  simp only [Import.taken]
  split
  · exact h.nested keeps [] importItem_listed.changes
  · exact h.nested keeps [] importItems_listed.changes

lemma bindLoaded_exports {i : Import} {found : Except LoadError ModuleId} (keeps : load.Keeps)
    (forwards : i.exported = true) (h : r.Exported exported) :
    (after (bindLoaded i true found r.program) r).Exported (i.exports r exported found) := by
  cases found with
  | error cause =>
    exact h.nested keeps [] ((report_traced.changes r).trans (keepNames_traced.changes _))
  | ok target =>
    simp only [bindLoaded, Import.exports, after_bind, after_modify]
    have recorded : Resolution.Exported { r with imports := r.imports.insert i.span target } exported := ⟨h.there, h.entries⟩
    cases r.program.modules[(target : Nat)]? with
    | none => exact recorded
    | some m =>
      dsimp only
      split
      · exact recorded.nested keeps [] ((report_traced.changes _).trans (keepNames_traced.changes _))
      · have bound : Resolution.Exported { r with
            imports := r.imports.insert i.span target
            program := r.program.addEdge ⟨r.home, target, i.pathSpan⟩ } exported := ⟨h.there, h.entries⟩
        have parts : bindImports i true target m = i.taken target m >>= fun items => items.forM (installImport i true) := by
          simp only [bindImports, Import.taken]
          cases i.items <;> rfl
        simp only [parts, after_bind, after_modify]
        exact installImports_exports forwards (taken_exports keeps bound)

/-- An import that is not exported is bound the same at the top level and below. -/
lemma bindLoaded_unexported {i : Import} (unexported : i.exported = false) : bindLoaded i true = bindLoaded i false := by
  have installs {item : Imported} : installImport i true item = installImport i false item := by
    simp [installImport, unexported]
  have binds {target : ModuleId} {m : LoadedModule} : bindImports i true target m = bindImports i false target m := by
    simp only [bindImports, funext fun item => @installs item]
  funext found program
  simp only [bindLoaded, binds]

lemma importStatement_exports {i : Import} (keeps : load.Keeps) (h : r.Exported exported) :
    (after (importStatement load i true) r).Exported ((Statement.importing i).exports load r exported) := by
  let r₁ : Resolution := { r with program := (load r.program i.path).2 }
  have loaded : r₁.Exported exported := h.nested keeps [.importing i] (.single (.load List.mem_cons_self))
  rw [importStatement_after]
  cases exports : i.exported with
  | false =>
    rw [bindLoaded_unexported exports, Statement.exports, if_neg (by simp [exports])]
    have binds : Changes load [] false r₁ (after (bindLoaded i false (load r.program i.path).1 r₁.program) r₁) :=
      bindLoaded_changes
    exact loaded.nested keeps [] binds
  | true =>
    rw [Statement.exports, if_pos exports]
    exact bindLoaded_exports keeps exports loaded

/-- An exported definition exports its name. -/
lemma define_exports {name : Ident} {isFunction : Bool} {ty : Ty} {span : Span} (h : r.Exported exported) :
    (after (define true true name isFunction ty span) r).Exported
      (if r.frees (name.definition r.home r.current ty span) then (name.defined r.home isFunction ty).onto exported
        else exported) := by
  show (after (offer (name.defined r.home isFunction ty) (answer (introduce (name.definition r.home r.current ty span)) r))
    (after (introduce (name.definition r.home r.current ty span)) r)).Exported _
  cases free : obstacle? r.program.policy r.scopes (name.definition r.home r.current ty span) with
  | some other =>
    obtain ⟨found, next⟩ := introduce_taken free
    rw [found, next, if_neg (by simp [Resolution.frees, free])]
    exact ⟨h.there, h.entries⟩
  | none =>
    obtain ⟨found, next⟩ := introduce_free free
    rw [found, next, if_pos (by simp [Resolution.frees, free])]
    exact publish_exports ⟨h.there, h.entries⟩

/-- A statement at the top level exports what it is said to export. -/
lemma statement_exports {s : Statement} (keeps : load.Keeps) (h : r.Exported exported) :
    (after (statement load true none s) r).Exported (s.exports load r exported) := by
  cases s with
  | importing i => exact importStatement_exports keeps h
  | expr e span => exact h.nested keeps e.mentions ((Expr.traced e (List.Subset.refl _) none).changes r)
  | define exports name value span =>
    have unnested : refuseNested exports true span = pure () := by simp [refuseNested]
    have valued := h.nested keeps value.mentions ((Expr.traced value (List.Subset.refl _) none).changes r)
    simp only [statement, unnested, pure_bind, after_bind, after_pure]
    cases exports with
    | false => exact valued.nested keeps [] (declareInner_traced.changes _)
    | true => exact define_exports valued

/-- The statements of a module export what they are said to export, one after another, whatever is loaded for them. -/
theorem topLevel_exports {ss : List Statement} (keeps : load.Keeps) (h : r.Exported exported) :
    (after (topLevel load ss) r).Exported (Resolve.exports load r exported ss) := by
  induction ss generalizing r exported with
  | nil => exact h
  | cons s ss ih => exact ih (statement_exports keeps h)

end Resolve

end PipeLang
