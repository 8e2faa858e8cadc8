import PipeLang.Proofs.Resolve.Declarations

/-!
# Import statements

What an import statement makes of a resolution: the module is loaded, the import is recorded, and the names are bound
to what the module brings, or kept as invalid once the failure has been reported.
-/

namespace PipeLang

/-- What a load answers with is a module of the program behind the load. -/
def Loader.Answers (load : Loader) : Prop :=
  ∀ (p : Program) (path : String) (id : Nat), p.Offers → (load p path).1 = .ok id →
    id < (load p path).2.modules.size

/-- What an item of an import binds comes from the imported module. -/
def Imported.From (item : Imported) (target : ModuleId) (m : LoadedModule) : Prop :=
  item.target = .module target ∨ ∃ e ∈ m.exports.entries, e.name = item.sourceName ∧ item.target = e.target

namespace Resolve

variable {load : Loader} {r r' r'' : Resolution} {lo hi : Nat}

/-- Names are kept once a fault has been reported. -/
structure Kept (load : Loader) (lo hi : Nat) (r r' : Resolution) : Prop where
  walked : Walked load lo hi r r' fun _ => True
  faults : r'.faults = r.faults

lemma Kept.skip : Kept load lo hi r r :=
  ⟨.skip, rfl⟩

lemma Kept.trans (h : Kept load lo hi r r') (h' : Kept load lo hi r' r'') : Kept load lo hi r r'' :=
  ⟨h.walked.join h'.walked, h'.faults.trans h.faults⟩

lemma keepInvalid_kept {ident : Ident} {visibleFrom : Nat} (faulty : r.faults ≠ []) (from_ : lo ≤ visibleFrom)
    (upTo : visibleFrom ≤ hi) : Kept load lo hi r (after (keepInvalid ident visibleFrom) r) :=
  ⟨⟨.single (.keep faulty from_ upTo), rfl, fun _ _ => trivial⟩, rfl⟩

variable {i : Import} {newName : Option Ident} {site : Span} {target : Nat}

lemma keepModuleName_kept (faulty : r.faults ≠ []) (from_ : lo ≤ i.span.stop) (upTo : i.span.stop ≤ hi) :
    Kept load lo hi r (after (keepModuleName i newName site) r) := by
  cases newName with
  | some newName => exact keepInvalid_kept faulty from_ upTo
  | none =>
    simp only [keepModuleName]
    split
    · split
      · exact keepInvalid_kept faulty from_ upTo
      · exact .skip
    · exact .skip

lemma keepNames_kept (faulty : r.faults ≠ []) (from_ : lo ≤ i.span.stop) (upTo : i.span.stop ≤ hi) :
    Kept load lo hi r (after (keepNames i) r) := by
  simp only [keepNames]
  cases i.items with
  | module newName => exact keepModuleName_kept faulty from_ upTo
  | list items =>
    induction items generalizing r with
    | nil => exact .skip
    | cons item items ih =>
      simp only [List.forM_eq_forM, List.forM_cons, after_bind] at ih ⊢
      cases item with
      | name name newName =>
        have first : Kept load lo hi r (after (keepInvalid (newName.getD name) i.span.stop) r) :=
          keepInvalid_kept faulty from_ upTo
        exact first.trans (ih (by rwa [first.faults]))
      | self span newName =>
        have first : Kept load lo hi r (after (keepModuleName i newName span) r) :=
          keepModuleName_kept faulty from_ upTo
        exact first.trans (ih (by rwa [first.faults]))
      | glob span => exact ih faulty

/-- Going through the items of an import changes nothing but faults and invalid names. -/
structure Collected (load : Loader) (lo hi : Nat) (r r' : Resolution) (target : ModuleId) (m : LoadedModule)
    (items : List Imported) : Prop where
  walked : Walked load lo hi r r' fun _ => True
  program : r'.program = r.program
  imports : r'.imports = r.imports
  from_ : ∀ item ∈ items, Imported.From item target m

variable {m : LoadedModule} {explicit : List String} {items : List Imported}

lemma importItem_collected {item : ImportItem} (from_ : lo ≤ i.span.stop) (upTo : i.span.stop ≤ hi) :
    Collected load lo hi r (after (importItem i target m explicit item) r) target m
      (answer (importItem i target m explicit item) r) := by
  cases item with
  | name name newName =>
    simp only [importItem]
    cases exported : m.exports.get? name.name with
    | some e =>
      refine ⟨.skip, rfl, rfl, fun item member => ?_⟩
      cases List.mem_singleton.1 member
      exact Or.inr ⟨e, List.mem_of_find?_eq_some exported, rfl, rfl⟩
    | none =>
      let fault : Fault := .unknownExport name.name m.path.render (m.status = .loading) name.span
      have reported : Quiet load r (after (report [fault]) r) fun f => ¬ f.Clean := report_fault rfl
      have kept : Kept load lo hi (after (report [fault]) r)
          (after (keepInvalid (newName.getD name) i.span.stop) (after (report [fault]) r)) :=
        keepInvalid_kept (by simp) from_ upTo
      exact ⟨(reported.walked.imp fun _ _ => trivial).join kept.walked, rfl, rfl, nofun⟩
  | self span newName =>
    simp only [importItem]
    cases brought : Import.moduleItem target m.path newName span with
    | ok item =>
      refine ⟨.skip, rfl, rfl, fun item' member => ?_⟩
      cases List.mem_singleton.1 member
      left
      unfold Import.moduleItem at brought
      split at brought <;> cases brought <;> rfl
    | error fault =>
      have own : fault.isPassedOn = false := by
        unfold Import.moduleItem at brought
        split at brought <;> cases brought
        rfl
      exact ⟨((report_fault own).walked).imp fun _ _ => trivial, rfl, rfl, nofun⟩
  | glob span =>
    refine ⟨.skip, rfl, rfl, fun item member => ?_⟩
    simp only [importItem, answer_pure, List.mem_map] at member
    obtain ⟨e, member, rfl⟩ := member
    exact Or.inr ⟨e, (List.mem_filter.1 member).1, rfl, rfl⟩

lemma importItems_collected {list : List ImportItem} (from_ : lo ≤ i.span.stop) (upTo : i.span.stop ≤ hi) :
    Collected load lo hi r (after (importItems i target m explicit list) r) target m
      (answer (importItems i target m explicit list) r) := by
  induction list generalizing r with
  | nil => exact ⟨.skip, rfl, rfl, by simp [importItems]⟩
  | cons item list ih =>
    simp only [importItems, after_bind, answer_bind, after_pure, answer_pure]
    have first : Collected load lo hi r (after (importItem i target m explicit item) r) target m
      (answer (importItem i target m explicit item) r) := importItem_collected from_ upTo
    have rest := ih (r := after (importItem i target m explicit item) r)
    refine ⟨first.walked.join rest.walked, rest.program.trans first.program, rest.imports.trans first.imports, ?_⟩
    intro item member
    exact (List.mem_append.1 member).elim (first.from_ item) (rest.from_ item)

/-- A module has been imported by a statement that stops at an offset, and shows at least what it showed then. -/
def Imports (r : Resolution) (stop : Nat) (target : Nat) (m : LoadedModule) : Prop :=
  ∃ (site : Span) (now : LoadedModule), r.imports.get? site = some target ∧ stop = site.stop ∧
    r.program.modules[target]? = some now ∧ ∀ e ∈ m.exports.entries, e ∈ now.exports.entries

lemma Imports.sources {stop : Nat} (h : Imports r stop target m) {item : Imported} (from_ : item.From target m) {b : Binding}
    (same : b.target = item.target) (source : b.sourceName = item.sourceName) (visible : b.visibleFrom = stop) : r.Sources b := by
  obtain ⟨site, now, known, stops, found, more⟩ := h
  refine ⟨site, target, now, known, visible.trans stops, found, from_.imp same.trans ?_⟩
  rintro ⟨e, member, name, target⟩
  exact ⟨e, more e member, name.trans source.symm, same.trans target⟩

/-- Offering a name takes nothing away that a module shows. -/
lemma Imports.publish {stop : Nat} (h : Imports r stop target m) {e : Export} : Imports (after (publish e) r) stop target m := by
  obtain ⟨site, now, known, stops, found, more⟩ := h
  simp only [Resolve.publish, after_bind, answer_get, after_get]
  cases inserted : (r.program.exportsOf r.home).insert e with
  | error first => exact ⟨site, now, known, stops, found, more⟩
  | ok exports =>
    by_cases same : r.home = target
    · refine ⟨site, { now with exports := exports }, known, stops, ?_, fun e' member => ?_⟩
      · simp [Program.modify, Array.getElem?_modify, same, found]
      · apply Exports.mem_of_insert inserted
        simpa [Program.exportsOf, same, found] using more e' member
    · refine ⟨site, now, known, stops, ?_, more⟩
      simp [Program.modify, Array.getElem?_modify, same, found]

/-- What adding a binding makes of a resolution. -/
inductive Installed (load : Loader) (r : Resolution) (b : Binding) : Option BindingId → Resolution → Prop where
  | done :
    obstacle? r.program.policy r.scopes b = none →
    Installed load r b (some r.scopes.nextBinding) { r with scopes := r.scopes.insert b }
  | refused {next : Resolution} :
    Quiet load r next (fun f => ¬ f.Clean) →
    next.program = r.program →
    Installed load r b none next

lemma install_installed {b : Binding} : Installed load r b (answer (install b) r) (after (install b) r) := by
  simp only [install, after_bind, answer_bind, answer_get, after_get]
  cases free : obstacle? r.program.policy r.scopes b with
  | none => exact .done free
  | some other => exact .refused (report_fault rfl) rfl

lemma installImport_walked (topLevel : Bool) {item : Imported} (tidy : r.Tidy)
    (top : topLevel = true → r.current = Scopes.root) (imports : Imports r i.span.stop target m)
    (brought : item.From target m) (from_ : lo ≤ i.span.stop) (upTo : i.span.stop ≤ hi) :
    Walked load lo hi r (after (installImport i topLevel item) r) (fun _ => True) ∧
      Imports (after (installImport i topLevel item) r) i.span.stop target m := by
  let b : Binding := ⟨item.name, item.sourceName, item.target, r.current, i.span.stop, item.site, item.ty,
    item.origin, []⟩
  let offer (found : Option BindingId) : Resolve Unit :=
    if found.isSome && i.exported && topLevel then
      publish ⟨item.name, item.target, item.kind, item.site, item.ty, true⟩
    else
      pure ()
  have installed : Installed load r b (answer (install b) r) (after (install b) r) := install_installed
  have sources : r.Sources b := imports.sources brought rfl rfl rfl
  show Walked load lo hi r (after (offer (answer (install b) r)) (after (install b) r)) _ ∧
    Imports (after (offer (answer (install b) r)) (after (install b) r)) i.span.stop target m
  generalize answer (install b) r = found at installed ⊢
  generalize after (install b) r = r₁ at installed ⊢
  cases installed with
  | refused quiet program =>
    obtain ⟨site, now, known, stops, shown, more⟩ := imports
    have kept : Imports r₁ i.span.stop target m := ⟨site, now, by rwa [quiet.imports], stops, by rwa [program], more⟩
    exact ⟨quiet.walked.imp fun _ _ => trivial, kept⟩
  | done free =>
    have bound : Walked load lo hi r { r with scopes := r.scopes.insert b } fun _ => True :=
      ⟨.single (.bind free tidy.current (Scopes.crosses_of_none rfl) from_ upTo sources), rfl, fun _ _ => trivial⟩
    have kept : Imports { r with scopes := r.scopes.insert b } i.span.stop target m := imports
    simp only [offer]
    split
    · next publishes =>
      simp only [Bool.and_eq_true] at publishes
      have presents : Resolution.Presents { r with scopes := r.scopes.insert b }
          ⟨item.name, item.target, item.kind, item.site, item.ty, true⟩ :=
        ⟨r.scopes.nextBinding, b, by simp [Scopes.insert, Scopes.nextBinding], ⟨top publishes.2, rfl⟩, rfl, rfl⟩
      have brings : Resolution.Brings { r with scopes := r.scopes.insert b } item.target := sources.brings
      exact ⟨(bound.andQuiet (publish_quiet brings rfl presents)).imp fun _ _ => trivial, kept.publish⟩
    · exact ⟨bound, kept⟩

lemma installImports_walked {topLevel : Bool} (keeps : load.KeepsOffers) (tidy : r.Tidy)
    (top : topLevel = true → r.current = Scopes.root) (imports : Imports r i.span.stop target m) (brought : ∀ item ∈ items, item.From target m) (from_ : lo ≤ i.span.stop)
    (upTo : i.span.stop ≤ hi) :
    Walked load lo hi r (after (items.forM (installImport i topLevel)) r) fun _ => True := by
  induction items generalizing r with
  | nil => exact .skip
  | cons item items ih =>
    rw [List.forM_eq_forM, List.forM_cons, after_bind]
    obtain ⟨walked, kept⟩ : Walked load lo hi r _ _ ∧ _ :=
      installImport_walked topLevel tidy top imports (brought item List.mem_cons_self) from_ upTo
    have top' (here : topLevel = true) := walked.current.trans (top here)
    exact walked.join (ih (walked.tidy keeps tidy) top' kept fun item member => brought item (List.mem_cons_of_mem _ member))

lemma bindImports_walked {topLevel : Bool} (keeps : load.KeepsOffers) (tidy : r.Tidy)
    (top : topLevel = true → r.current = Scopes.root) (imports : Imports r i.span.stop target m) (from_ : lo ≤ i.span.stop) (upTo : i.span.stop ≤ hi) :
    Walked load lo hi r (after (bindImports i topLevel target m) r) fun _ => True := by
  have install {r₁ : Resolution} {items : List Imported} (collected : Collected load lo hi r r₁ target m items) :
      Walked load lo hi r (after (items.forM (installImport i topLevel)) r₁) fun _ => True := by
    obtain ⟨site, now, known, stops, found, more⟩ := imports
    have imports₁ : Imports r₁ i.span.stop target m :=
      ⟨site, now, by rwa [collected.imports], stops, by rwa [collected.program], more⟩
    have top₁ (here : topLevel = true) := collected.walked.current.trans (top here)
    exact collected.walked.join
      (installImports_walked keeps (collected.walked.tidy keeps tidy) top₁ imports₁ collected.from_ from_ upTo)
  simp only [bindImports]
  cases i.items with
  | module newName =>
    let item : ImportItem := .self i.pathSpan newName
    have collected : Collected load lo hi r (after (importItem i target m [] item) r) target m
      (answer (importItem i target m [] item) r) := importItem_collected from_ upTo
    exact install collected
  | list items => exact install (importItems_collected from_ upTo)

/-- A failed import keeps its names. -/
lemma reportAndKeep_walked {r₁ : Resolution} (faulty : r₁.faults ≠ []) (from_ : lo ≤ i.span.stop)
    (upTo : i.span.stop ≤ hi) (reported : Walked load lo hi r r₁ fun _ => True) :
    Walked load lo hi r (after (keepNames i) r₁) fun _ => True :=
  reported.join (keepNames_kept faulty from_ upTo).walked

lemma importStatement_walked {topLevel : Bool} (keeps : load.KeepsOffers) (answers : load.Answers) (tidy : r.Tidy)
    (top : topLevel = true → r.current = Scopes.root) (ready : r.Ready i.span.start hi) (proper : i.span.Proper) :
    Walked load i.span.start i.span.stop r (after (importStatement load i topLevel) r) fun _ => True := by
  have visible : i.span.start ≤ i.span.stop := Nat.le_of_lt proper
  have within : i.span.Within i.span.start i.span.stop := ⟨proper, proper, Nat.le_refl _⟩
  have refused : Quiet load r (after (refuseNested i.exported topLevel i.span) r) fun _ => True := refuseNested_quiet
  have tidy₁ := refused.tidy keeps tidy
  have ready₁ := refused.ready ready
  simp only [importStatement, after_bind, answer_get, after_get, after_set]
  generalize after (refuseNested i.exported topLevel i.span) r = r₁ at refused tidy₁ ready₁ ⊢
  have last {s : Span} {x : ModuleId} (known : r₁.imports.get? s = some x) : s.stop < i.span.stop :=
    Nat.lt_trans (ready₁.imports known) proper
  have fresh : r₁.imports.get? i.span = none := by
    by_contra known
    obtain ⟨x, known⟩ := Option.ne_none_iff_exists'.1 known
    exact Nat.lt_irrefl _ (last known)
  let r₂ : Resolution := { r₁ with program := (load r₁.program i.path).2 }
  have move : Move load i.span.start i.span.stop r₁ r₂ := .load (keeps _ _ tidy₁.offers).2
  have tidy₂ : r₂.Tidy := move.tidy keeps tidy₁
  have loaded : Walked load i.span.start i.span.stop r r₂ fun _ => True :=
    refused.walked.join ⟨.single move, rfl, fun _ _ => trivial⟩
  have answer := answers r₁.program i.path
  show Walked load i.span.start i.span.stop r (after (bindLoaded i topLevel (load r₁.program i.path).1 r₂.program) r₂) fun _ => True
  cases found : (load r₁.program i.path).1 with
  | error cause =>
    have reported : Quiet load r₂ (after (report [.importFailed cause i.pathSpan]) r₂) fun f => ¬ f.Clean :=
      report_fault rfl
    exact reportAndKeep_walked (by simp) visible (Nat.le_refl _) (loaded.join (reported.walked.imp fun _ _ => trivial))
  | ok target =>
    obtain ⟨m, known⟩ : ∃ m, r₂.program.modules[target]? = some m :=
      ⟨_, Array.getElem?_eq_getElem (answer target tidy₁.offers found)⟩
    simp only [bindLoaded, known, after_bind, after_modify]
    split
    · next failed =>
      simp only [Bool.and_eq_true, decide_eq_true_eq, Bool.not_eq_true', List.isEmpty_eq_false_iff] at failed
      let r₃ : Resolution := { r₂ with
        imports := r₂.imports.insert i.span target
        faults := r₂.faults ++ [.dependencyFailed m.path.render i.pathSpan] }
      have move : Move load i.span.start i.span.stop r₂ r₃ := .refuse within fresh last known failed.2
      exact reportAndKeep_walked (by simp) visible (Nat.le_refl _) (loaded.join ⟨.single move, rfl, fun _ _ => trivial⟩)
    · next usable =>
      simp only [Bool.and_eq_true, decide_eq_true_eq, Bool.not_eq_true', List.isEmpty_eq_false_iff] at usable
      let r₃ : Resolution := { r₂ with
        imports := r₂.imports.insert i.span target
        program := r₂.program.addEdge ⟨r₂.home, target, i.pathSpan⟩ }
      have move : Move load i.span.start i.span.stop r₂ r₃ := .accept within fresh last known usable
      have tidy₃ : r₃.Tidy := move.tidy keeps tidy₂
      have known₃ : r₃.imports.get? i.span = some target := by rw [SpanTable.get?_insert, if_pos rfl]
      have imports : Imports r₃ i.span.stop target m := ⟨i.span, m, known₃, rfl, known, fun _ => id⟩
      have top₃ (here : topLevel = true) := refused.current.trans (top here)
      exact (loaded.join ⟨.single move, rfl, fun _ _ => trivial⟩).join
        (bindImports_walked keeps tidy₃ top₃ imports visible (Nat.le_refl _))

end Resolve

end PipeLang
