import PipeLang.Proofs.Reader.Located
import PipeLang.Proofs.Resolve.Module

/-!
# Where faults lie

A fault points at the place where it was found, and some faults at a second place. While a module is resolved these are places of
its own syntax, of bindings and exports that it has made itself, and of its own import statements. So they lie in its text, if its
syntax does: `Resolve.module_locates`, from a lemma for each step and each piece of syntax.
-/

namespace PipeLang

open Resolve (after answer)

/-- The places that a fault points at. -/
def Fault.places (f : Fault) : List Span :=
  f.site :: (f.related?.map Prod.fst).toList

/-- Everything that a fault points at lies in a text. -/
def Fault.LiesIn (source : String) (f : Fault) : Prop :=
  ∀ s ∈ f.places, s.LiesIn source

/-- The faults of a module point into its text, and so do its exports. -/
structure LoadedModule.Located (m : LoadedModule) : Prop where
  faults : ∀ f ∈ m.faults, f.LiesIn m.source
  exports : ∀ e ∈ m.exports.entries, e.site.LiesIn m.source

/-- An accepted import stands in the text of its importer. -/
def ImportEdge.StandsIn (texts : List String) (e : ImportEdge) : Prop :=
  ∃ source, texts[(e.importer : Nat)]? = some source ∧ e.site.LiesIn source

namespace Program

/-- The texts of the modules, in the order of loading. -/
def texts (p : Program) : List String :=
  p.modules.toList.map LoadedModule.source

/-- Every module points into its own text, and accepted imports stand where they belong. -/
structure Located (p : Program) : Prop where
  modules : ∀ {i : Nat} {m}, p.modules[i]? = some m → m.Located
  edges : ∀ e ∈ p.edges, e.StandsIn p.texts

variable {p : Program} {id : Nat} {f : LoadedModule → LoadedModule} {source : String}

lemma texts_getElem? {i : Nat} : p.texts[i]? = p.modules[i]?.map LoadedModule.source := by
  rw [texts, List.getElem?_map, Array.getElem?_toList]

lemma texts_modify (kept : ∀ m, (f m).source = m.source) : (p.modify id f).texts = p.texts := by
  refine List.ext_getElem? fun i => ?_
  rw [texts_getElem?, texts_getElem?, modify_modules]
  split
  · cases p.modules[i]? with
    | none => rfl
    | some m => exact congrArg some (kept m)
  · rfl

/-- One module changes, but not its text. -/
lemma Located.modify (h : p.Located) (kept : ∀ m, (f m).source = m.source)
    (changed : ∀ m, p.modules[id]? = some m → m.Located → (f m).Located) : (p.modify id f).Located where
  modules {i m'} found := by
    rw [modify_modules] at found
    split at found
    · next here =>
      subst here
      obtain ⟨m, old, rfl⟩ := Option.map_eq_some_iff.1 found
      exact changed m old (h.modules old)
    · exact h.modules found
  edges e member := by
    rw [texts_modify kept]
    exact h.edges e member

end Program

/-- Loading keeps what points into texts, and every text in its place. -/
def Loader.KeepsLocated (load : Loader) : Prop :=
  ∀ (p : Program) (raw : String), p.Located → (load p raw).2.Located ∧ p.texts <+: (load p raw).2.texts

/-- Behind some texts a module with one of them is being resolved, and everything that has been noted so far points into it. -/
structure Resolution.Located (texts : List String) (source : String) (r : Resolution) : Prop where
  program : r.program.Located
  begun : texts <+: r.program.texts
  home : texts[(r.home : Nat)]? = some source
  faults : ∀ f ∈ r.faults, f.LiesIn source
  bindings : ∀ b ∈ r.scopes.bindings, b.site.LiesIn source
  openNames : ∀ n ∈ r.openNames, n.site.LiesIn source

namespace Resolution.Located

variable {texts : List String} {source : String} {r : Resolution}

lemma home_text (h : r.Located texts source) : r.program.texts[(r.home : Nat)]? = some source := by
  obtain ⟨behind, whole⟩ := h.begun
  rw [← whole, List.getElem?_append_left (List.getElem?_eq_some_iff.1 h.home).1]
  exact h.home

/-- The text of the module that is being resolved. -/
lemma home_source (h : r.Located texts source) {m : LoadedModule} (found : r.program.modules[(r.home : Nat)]? = some m) :
    m.source = source := by
  have text := h.home_text
  rw [Program.texts_getElem?, found] at text
  exact Option.some.inj text

lemma siteOf (h : r.Located texts source) (id : BindingId) : (Resolve.siteOf r.scopes id).LiesIn source := by
  simp only [Resolve.siteOf]
  split
  · next b found => exact h.bindings b (Array.mem_of_getElem? found)
  · exact Span.default_liesIn

lemma report (h : r.Located texts source) {faults : List Fault} (here : ∀ f ∈ faults, f.LiesIn source) :
    Located texts source { r with faults := r.faults ++ faults } :=
  { h with faults := List.forall_mem_append.2 ⟨h.faults, here⟩ }

lemma insert (h : r.Located texts source) {b : Binding} (here : b.site.LiesIn source) :
    Located texts source { r with scopes := r.scopes.insert b } :=
  { h with bindings := fun b' member => (Array.mem_push.1 member).elim (h.bindings b') (· ▸ here) }

lemma modify (h : r.Located texts source) {id : Nat} {f : LoadedModule → LoadedModule}
    (kept : ∀ m, (f m).source = m.source) (changed : ∀ m, r.program.modules[id]? = some m → m.Located → (f m).Located) :
    Located texts source { r with program := r.program.modify id f } :=
  { h with
    program := h.program.modify kept changed
    begun := (Program.texts_modify kept).symm ▸ h.begun }

end Resolution.Located

namespace Resolve

variable {α β : Type} {texts : List String} {source : String} {x : Resolve α} {f : α → Resolve β}

/-- A step notes only what points into the text of the module. -/
def Locates (texts : List String) (source : String) (x : Resolve α) : Prop :=
  ∀ r : Resolution, r.Located texts source → (after x r).Located texts source

namespace Locates

lemma bind (first : Locates texts source x) (next : ∀ a, Locates texts source (f a)) : Locates texts source (x >>= f) :=
  fun r h => next _ _ (first r h)

lemma pure (a : α) : Locates texts source (Pure.pure a : Resolve α) :=
  fun _ h => h

/-- A step that goes by the state in which it begins. -/
lemma look {f : Resolution → Resolve β} (next : ∀ r, r.Located texts source → Locates texts source (f r)) :
    Locates texts source (get >>= f) :=
  fun r h => next r h r h

lemma report {faults : List Fault} (here : ∀ f ∈ faults, f.LiesIn source) : Locates texts source (report faults) :=
  fun _ h => h.report here

/-- A report of one fault that points at one place. -/
lemma blame {fault : Fault} (here : fault.site.LiesIn source) (alone : fault.related? = none) :
    Locates texts source (Resolve.report [fault]) := by
  refine report (List.forall_mem_singleton.2 ?_)
  rw [Fault.LiesIn, Fault.places, alone]
  exact List.forall_mem_singleton.2 here

/-- A report of one fault that points at a second place. -/
lemma blameBoth {fault : Fault} {second : Span} {label : String} (here : fault.site.LiesIn source)
    (related : fault.related? = some (second, label)) (there : second.LiesIn source) :
    Locates texts source (Resolve.report [fault]) := by
  refine report (List.forall_mem_singleton.2 ?_)
  rw [Fault.LiesIn, Fault.places, related]
  exact List.forall_mem_cons.2 ⟨here, List.forall_mem_singleton.2 there⟩

lemma forM {l : List α} {g : α → Resolve PUnit} (each : ∀ a ∈ l, Locates texts source (g a)) :
    Locates texts source (l.forM g) := by
  induction l with
  | nil => exact pure _
  | cons a l ih =>
    obtain ⟨first, others⟩ := List.forall_mem_cons.1 each
    exact first.bind fun _ => ih others

end Locates

/-! ### Uses -/

lemma refuseNested_locates {exported topLevel : Bool} {site : Span} (here : site.LiesIn source) :
    Locates texts source (refuseNested exported topLevel site) := by
  simp only [refuseNested]
  split
  · exact .blame here rfl
  · exact .pure _

lemma rejectIncoming_locates {incoming : Option Ty} {e : Expr} (here : e.span.LiesIn source) :
    Locates texts source (rejectIncoming incoming e) := by
  simp only [rejectIncoming]
  split
  · exact .blame here rfl
  · exact .pure _

lemma rejectTailless_locates {incoming : Option Ty} {body : List Statement} {site : Span} (here : site.LiesIn source) :
    Locates texts source (rejectTailless incoming body site) := by
  simp only [rejectTailless]
  split
  · exact .blame here rfl
  · exact .pure _

/-- What is wrong with a keyword is found at the keyword. -/
lemma keywordFaults_places {params : List ParamSlot} {positional : Nat} {before : List String} {keywords : List Ident} :
    ∀ found ∈ keywordFaults params positional before keywords, ∃ k ∈ keywords, found.2 = k.span := by
  induction keywords generalizing before with
  | nil => exact List.forall_mem_nil _
  | cons k keywords ih =>
    have others : ∀ found ∈ keywordFaults params positional (before ++ [k.name]) keywords,
        ∃ k' ∈ k :: keywords, found.2 = k'.span := fun found member => by
      obtain ⟨k', among, same⟩ := ih found member
      exact ⟨k', List.mem_cons_of_mem _ among, same⟩
    have here (cause : CallFault) : ∃ k' ∈ k :: keywords, (cause, k.span).2 = k'.span := ⟨k, List.mem_cons_self, rfl⟩
    simp only [keywordFaults]
    split
    · exact List.forall_mem_cons.2 ⟨here _, others⟩
    · split
      · exact List.forall_mem_cons.2 ⟨here _, others⟩
      · exact others

/-- What is wrong with a call is found at the call or at one of its keywords. -/
lemma callFaults_places {params : List ParamSlot} {positional : Nat} {keywords : List Ident} {site : Span} :
    ∀ found ∈ callFaults params positional keywords site, found.2 = site ∨ ∃ k ∈ keywords, found.2 = k.span := by
  simp only [callFaults]
  split
  · exact List.forall_mem_singleton.2 (Or.inl rfl)
  · split
    · split
      · exact List.forall_mem_singleton.2 (Or.inl rfl)
      · exact List.forall_mem_nil _
    · exact fun found member => Or.inr (keywordFaults_places found member)

lemma checkHostCall_locates {target : Target} {positional : Nat} {keywords : List Ident} {site : Span}
    (here : site.LiesIn source) (named : ∀ k ∈ keywords, k.span.LiesIn source) :
    Locates texts source (checkHostCall target positional keywords site) := by
  cases target with
  | host name =>
    refine .look fun r _ => ?_
    split
    · refine .report fun f member => ?_
      obtain ⟨found, among, rfl⟩ := List.mem_map.1 member
      refine List.forall_mem_singleton.2 (?_ : found.2.LiesIn source)
      rcases callFaults_places found among with same | ⟨k, keyword, same⟩
      · exact same ▸ here
      · exact same ▸ named k keyword
    · exact .pure _
  | _ => exact .pure _

lemma stageType_locates {incoming : Option Ty} {site : Span} {found : Option (Target × Ty)} (here : site.LiesIn source) :
    Locates texts source (stageType incoming site found) := by
  cases found with
  | none => exact .pure _
  | some known =>
    simp only [stageType]
    split
    · exact (checkHostCall_locates here (List.forall_mem_nil _)).bind fun _ => .pure _
    · exact .pure _

lemma record_locates {site : Span} {target : Target} {ty : Ty} : Locates texts source (record site target ty) :=
  fun _ h => { h with }

lemma useHost_locates {name : String} {site : Span} : Locates texts source (useHost name site) := by
  refine .look fun r _ => ?_
  split
  · exact record_locates.bind fun _ => .pure _
  · exact .pure _

lemma leaveOpen_locates {ident : Ident} (here : ident.span.LiesIn source) : Locates texts source (leaveOpen ident) :=
  fun _ h => { h with openNames := List.forall_mem_append.2 ⟨h.openNames, List.forall_mem_singleton.2 here⟩ }

lemma useHostOrLeave_locates {name : String} {site : Span} {ident : Ident} (here : ident.span.LiesIn source) :
    Locates texts source (useHostOrLeave name site ident) := by
  refine useHost_locates.bind fun found => ?_
  cases found with
  | none => exact (leaveOpen_locates here).bind fun _ => .pure _
  | some found => exact .pure _

lemma useName_locates {ident : Ident} (here : ident.span.LiesIn source) : Locates texts source (useName ident) := by
  refine .look fun r h => ?_
  cases r.scopes.lookup r.current ident.name ident.span.start with
  | found id =>
    dsimp only
    split
    · exact .pure _
    · exact record_locates.bind fun _ => .pure _
  | ambiguous ids => exact (Locates.blameBoth here rfl (h.siteOf _)).bind fun _ => .pure _
  | notYetDeclared id => exact (Locates.blameBoth here rfl (h.siteOf _)).bind fun _ => .pure _
  | notFound => exact useHostOrLeave_locates here

lemma followPath_locates {site : Span} {target : Target} {ty : Ty} {before : Ident} {rest : List Ident}
    (here : before.span.LiesIn source) (behind : ∀ segment ∈ rest, segment.span.LiesIn source) :
    Locates texts source (followPath site target ty before rest) := by
  induction rest generalizing target ty before with
  | nil => exact record_locates.bind fun _ => .pure _
  | cons segment rest ih =>
    obtain ⟨next, others⟩ := List.forall_mem_cons.1 behind
    cases target with
    | module id =>
      refine .look fun r _ => ?_
      split
      · exact .pure _
      · split
        · exact ih next others
        · exact (Locates.blame next rfl).bind fun _ => .pure _
    | _ => exact (Locates.blame here rfl).bind fun _ => .pure _

lemma usePath_locates {head : Ident} {rest : List Ident} {site : Span} (here : head.span.LiesIn source)
    (behind : ∀ segment ∈ rest, segment.span.LiesIn source) : Locates texts source (usePath head rest site) := by
  have through : Locates texts source (useHead head rest site) := by
    refine (useName_locates here).bind fun found => ?_
    cases found with
    | none => exact .pure _
    | some known => exact followPath_locates here behind
  refine .look fun r _ => ?_
  cases r.scopes.lookup r.current head.name head.span.start with
  | notFound => exact useHostOrLeave_locates here
  | _ => exact through

/-- A name that has been left open points at itself, and at the binding behind it if there is one. -/
lemma openNameFault_liesIn {r : Resolution} {n : OpenName} (h : r.Located texts source) (here : n.site.LiesIn source) :
    (openNameFault r.scopes n).LiesIn source := by
  have late (id : BindingId) : (Fault.notYetDeclared n.name n.site (siteOf r.scopes id)).LiesIn source :=
    List.forall_mem_cons.2 ⟨here, List.forall_mem_singleton.2 (h.siteOf id)⟩
  have lost : (Fault.notInScope n.name n.site).LiesIn source := List.forall_mem_singleton.2 here
  simp only [openNameFault]
  split
  · exact late _
  · exact late _
  · exact lost
  · exact lost

/-! ### Bindings and exports -/

/-- What keeps a binding from being installed is a binding. -/
lemma obstacle?_mem {policy : GlobPolicy} {scopes : Scopes} {b other : Binding}
    (found : obstacle? policy scopes b = some other) : other ∈ scopes.bindings := by
  obtain ⟨id, -, known⟩ := List.exists_of_findSome?_eq_some found
  split at known
  · next b' there =>
    dsimp only at known
    split at known
    · cases known
    · cases known
      exact Array.mem_of_getElem? there
  · cases known

lemma install_locates {b : Binding} (here : b.site.LiesIn source) : Locates texts source (install b) := by
  intro r h
  cases free : obstacle? r.program.policy r.scopes b with
  | none => exact (install_free free).2 ▸ h.insert here
  | some other =>
    rw [(install_taken free).2]
    exact Locates.blameBoth here rfl (h.bindings other (obstacle?_mem free)) r h

lemma declare_locates {site : Span} {id : BindingId} : Locates texts source (declare site id) :=
  fun _ h => { h with }

lemma introduce_locates {b : Binding} (here : b.site.LiesIn source) : Locates texts source (introduce b) := by
  refine (install_locates here).bind fun found => ?_
  cases found with
  | none => exact .pure _
  | some id => exact declare_locates.bind fun _ => .pure _

lemma declareInner_locates {ident : Ident} {visibleFrom : Nat} {ty : Ty} {origin : Origin}
    (here : ident.span.LiesIn source) : Locates texts source (declareInner ident visibleFrom ty origin) :=
  .look fun _ _ => (introduce_locates here).bind fun _ => .pure _

lemma addLoopTag_locates {tag : BindingId} {loop : ScopeId} : Locates texts source (addLoopTag tag loop) := by
  intro r h
  simp only [addLoopTag, after_modify]
  split
  · exact { h with }
  · exact h

lemma declareTag_locates {tag : Ident} {visibleFrom : Nat} {ty : Ty} (here : tag.span.LiesIn source) :
    Locates texts source (declareTag tag visibleFrom ty) := by
  refine .look fun r _ => (introduce_locates here).bind fun found => ?_
  cases found with
  | none => exact .pure _
  | some id => exact .forM fun _ _ => addLoopTag_locates

/-- A module that offers a name again points at where it has offered the name before. -/
lemma publish_locates {e : Export} (here : e.site.LiesIn source) : Locates texts source (publish e) := by
  intro r h
  cases inserted : (r.program.exportsOf r.home).insert e with
  | ok exports =>
    rw [publish_new inserted]
    have offered {m : LoadedModule} (found : r.program.modules[(r.home : Nat)]? = some m) (located : m.Located) :
        LoadedModule.Located { m with exports := exports } := by
      refine { located with exports := ?_ }
      simp only [Program.exportsOf, found, Exports.insert] at inserted
      split at inserted
      · cases inserted
      · cases inserted
        exact List.forall_mem_append.2 ⟨located.exports, List.forall_mem_singleton.2 (h.home_source found ▸ here)⟩
    exact h.modify (fun _ => rfl) fun _ => offered
  | error first =>
    rw [publish_taken inserted]
    refine Locates.blameBoth here rfl ?_ r h
    simp only [Program.exportsOf, Exports.insert] at inserted
    split at inserted
    · next known =>
      cases inserted
      have member := List.mem_of_find?_eq_some known
      split at member
      · next m found => exact h.home_source found ▸ (h.program.modules found).exports first member
      · cases member
    · cases inserted

lemma define_locates {exported topLevel isFunction : Bool} {name : Ident} {ty : Ty} {span : Span}
    (here : name.span.LiesIn source) : Locates texts source (define exported topLevel name isFunction ty span) := by
  simp only [define]
  split
  · refine .look fun r _ => (introduce_locates here).bind fun found => ?_
    cases found with
    | none => exact .pure _
    | some id => exact publish_locates here
  · exact declareInner_locates here

/-! ### Imports -/

section

variable {i : Import}

lemma keepInvalid_locates {ident : Ident} {visibleFrom : Nat} (here : ident.span.LiesIn source) :
    Locates texts source (keepInvalid ident visibleFrom) :=
  fun _ h => h.insert here

lemma keepModuleName_locates {newName : Option Ident} {site : Span} (here : site.LiesIn source)
    (alias_ : ∀ n ∈ Ident.optionNodes newName, n.LiesIn source) :
    Locates texts source (keepModuleName i newName site) := by
  cases newName with
  | some newName => exact keepInvalid_locates (List.forall_mem_singleton.1 alias_).span
  | none =>
    simp only [keepModuleName]
    split
    · split
      · exact keepInvalid_locates here
      · exact .pure _
    · exact .pure _

/-- What an import statement holds lies in the text: its path, and its items or its alias. -/
lemma import_liesIn (placed : i.node.LiesIn source) : i.span.LiesIn source ∧ i.pathSpan.LiesIn source ∧
    (∀ newName, i.items = .module newName → ∀ n ∈ Ident.optionNodes newName, n.LiesIn source) ∧
    ∀ items, i.items = .list items → ∀ item ∈ items, ∀ n ∈ item.nodes, n.LiesIn source := by
  unfold Import.node at placed
  cases names : i.items with
  | module newName =>
    simp only [names, Node.liesIn_mk, List.forall_mem_cons] at placed
    obtain ⟨whole, ⟨path, -⟩, alias_⟩ := placed
    refine ⟨whole, path, fun _ same => ?_, nofun⟩
    cases same
    exact alias_
  | list items =>
    simp only [names, Node.liesIn_mk, List.forall_mem_append, List.forall_mem_singleton] at placed
    obtain ⟨whole, listed, path, -⟩ := placed
    refine ⟨whole, path, nofun, fun _ same item member n here => ?_⟩
    cases same
    exact listed n (List.mem_flatMap.2 ⟨item, member, here⟩)

/-- The name that an item binds stands in the item. -/
lemma boundName_liesIn {name : Ident} {newName : Option Ident}
    (here : ∀ n ∈ (ImportItem.name name newName).nodes, n.LiesIn source) : (newName.getD name).span.LiesIn source := by
  obtain ⟨first, alias_⟩ := List.forall_mem_cons.1 here
  cases newName with
  | none => exact first.span
  | some newName => exact (List.forall_mem_singleton.1 alias_).span

lemma keepNames_locates (placed : i.node.LiesIn source) : Locates texts source (keepNames i) := by
  obtain ⟨-, path, alias_, listed⟩ := import_liesIn placed
  simp only [keepNames]
  split
  · next newName names => exact keepModuleName_locates path (alias_ newName names)
  · next items names =>
    refine .forM fun item member => ?_
    have here := listed items names item member
    cases item with
    | name name newName => exact keepInvalid_locates (boundName_liesIn here)
    | self span newName =>
      obtain ⟨first, alias_⟩ := List.forall_mem_cons.1 here
      exact keepModuleName_locates first.span alias_
    | glob span => exact .pure _

variable {target : ModuleId} {m : LoadedModule} {explicit : List String} {r : Resolution}

/-- What is brought by an import is bound at a place in the text. -/
def Sited (source : String) (items : List Imported) : Prop :=
  ∀ item ∈ items, item.site.LiesIn source

lemma importItem_locates {item : ImportItem} (here : ∀ n ∈ item.nodes, n.LiesIn source) (h : r.Located texts source) :
    (after (importItem i target m explicit item) r).Located texts source ∧
      Sited source (answer (importItem i target m explicit item) r) := by
  cases item with
  | name name newName =>
    have bound := boundName_liesIn here
    have named : name.span.LiesIn source := (here _ List.mem_cons_self).span
    simp only [importItem]
    cases m.exports.get? name.name with
    | some e => exact ⟨h, List.forall_mem_singleton.2 bound⟩
    | none =>
      let fault : Fault := .unknownExport name.name m.path.render (m.status = .loading) name.span
      have reported : Locates texts source (report [fault]) := .blame named rfl
      exact ⟨keepInvalid_locates bound _ (reported r h), List.forall_mem_nil _⟩
  | self span newName =>
    obtain ⟨first, alias_⟩ := List.forall_mem_cons.1 here
    simp only [importItem]
    unfold Import.moduleItem
    cases newName with
    | some newName => exact ⟨h, List.forall_mem_singleton.2 (List.forall_mem_singleton.1 alias_).span⟩
    | none =>
      cases m.path.bindingName? with
      | some name => exact ⟨h, List.forall_mem_singleton.2 first.span⟩
      | none => exact ⟨Locates.blame first.span rfl r h, List.forall_mem_nil _⟩
  | glob span =>
    refine ⟨h, fun imported member => ?_⟩
    simp only [importItem, answer_pure, List.mem_map] at member
    obtain ⟨e, -, rfl⟩ := member
    exact (here _ List.mem_cons_self).span

lemma importItems_locates {items : List ImportItem} (here : ∀ item ∈ items, ∀ n ∈ item.nodes, n.LiesIn source)
    (h : r.Located texts source) : (after (importItems i target m explicit items) r).Located texts source ∧
      Sited source (answer (importItems i target m explicit items) r) := by
  induction items generalizing r with
  | nil => exact ⟨h, List.forall_mem_nil _⟩
  | cons item items ih =>
    obtain ⟨first, others⟩ := List.forall_mem_cons.1 here
    obtain ⟨located, sited⟩ := @importItem_locates _ _ i target m explicit r item first h
    obtain ⟨located', sited'⟩ := ih others located
    exact ⟨located', List.forall_mem_append.2 ⟨sited, sited'⟩⟩

lemma installImports_locates {topLevel : Bool} {items : List Imported} (sited : Sited source items) :
    Locates texts source (items.forM (installImport i topLevel)) := by
  refine .forM fun item member => .look fun r _ => ?_
  refine Locates.bind (install_locates (sited item member)) fun found => ?_
  split
  · exact publish_locates (sited item member)
  · exact .pure _

lemma bindImports_locates {topLevel : Bool} (placed : i.node.LiesIn source) :
    Locates texts source (bindImports i topLevel target m) := by
  intro r h
  obtain ⟨-, path, alias_, listed⟩ := import_liesIn placed
  simp only [bindImports]
  cases names : i.items with
  | module newName =>
    have self : ∀ n ∈ (ImportItem.self i.pathSpan newName).nodes, n.LiesIn source :=
      List.forall_mem_cons.2 ⟨Node.liesIn_mk.2 ⟨path, List.forall_mem_nil _⟩, alias_ newName names⟩
    obtain ⟨located, sited⟩ := @importItem_locates texts _ i target m [] r _ self h
    exact installImports_locates sited _ located
  | list items =>
    obtain ⟨located, sited⟩ :=
      @importItems_locates texts _ i target m (Import.explicitNames items) r items (listed items names) h
    exact installImports_locates sited _ located

variable {load : Loader} (keeps : load.KeepsLocated)
include keeps

/-- An import statement points at its path if its module fails, and it is recorded with its path if its module does not. -/
lemma importStatement_locates {topLevel : Bool} (placed : i.node.LiesIn source) :
    Locates texts source (importStatement load i topLevel) := by
  obtain ⟨whole, path, -, -⟩ := import_liesIn placed
  refine (refuseNested_locates whole).bind fun _ r h => ?_
  obtain ⟨located, longer⟩ := keeps r.program i.path h.program
  have loaded : Resolution.Located texts source { r with program := (load r.program i.path).2 } :=
    { h with program := located, begun := h.begun.trans longer }
  show (after (bindLoaded i topLevel (load r.program i.path).1 (load r.program i.path).2) _).Located texts source
  refine (?_ : Locates texts source (bindLoaded i topLevel _ _)) _ loaded
  have failing {fault : Fault} (here : fault.site = i.pathSpan) (alone : fault.related? = none) :
      Locates texts source (report [fault] >>= fun _ => keepNames i) :=
    (Locates.blame (here ▸ path) alone).bind fun _ => keepNames_locates placed
  cases (load r.program i.path).1 with
  | error cause => exact failing rfl rfl
  | ok target =>
    have recorded : Locates texts source (modify fun r => { r with imports := r.imports.insert i.span target }) :=
      fun _ h => { h with }
    refine recorded.bind fun _ => ?_
    split
    · exact .pure _
    · split
      · exact failing rfl rfl
      · have accepted : Locates texts source
            (modify fun r => { r with program := r.program.addEdge ⟨r.home, target, i.pathSpan⟩ }) := fun r h =>
          { h with program := ⟨h.program.modules, List.forall_mem_append.2
              ⟨h.program.edges, List.forall_mem_singleton.2 ⟨source, h.home_text, path⟩⟩⟩ }
        exact accepted.bind fun _ => bindImports_locates placed

end

/-! ### Syntax -/

variable {load : Loader}

lemma calleeOf_locates {callee : Expr} (h : Locates texts source (expr load none callee)) :
    Locates texts source (calleeOf load callee) := by
  intro r located
  rw [after_calleeOf]
  exact h r located

lemma keywordNames_liesIn {args : List Argument} (placed : ∀ n ∈ Argument.allNodes args, n.LiesIn source) :
    ∀ k ∈ keywordNames args, k.span.LiesIn source := by
  induction args with
  | nil => exact List.forall_mem_nil _
  | cons a args ih =>
    obtain ⟨name, value⟩ := a
    simp only [Argument.allNodes, List.forall_mem_append, List.forall_mem_cons] at placed
    obtain ⟨named, -, others⟩ := placed
    cases name with
    | none => exact ih others
    | some k => exact List.forall_mem_cons.2 ⟨(List.forall_mem_singleton.1 named).span, ih others⟩

lemma checkCall_locates {incoming : Option Ty} {args : List Argument} {span : Span} {found : Option (Target × Ty)}
    (here : span.LiesIn source) (placed : ∀ n ∈ Argument.allNodes args, n.LiesIn source) :
    Locates texts source (checkCall incoming args span found) := by
  cases found with
  | none => exact .pure _
  | some known => exact (checkHostCall_locates here (keywordNames_liesIn placed)).bind fun _ => .pure _

/-- A tag, if there is one, behind what stands before it. -/
lemma tagged_locates {tag : Option Ident} {visibleFrom : Nat} {ty : α → Ty} {g : α → β} (first : Locates texts source x)
    (tagged : ∀ n ∈ Ident.optionNodes tag, n.LiesIn source) : Locates texts source (do
      let a ← x
      match tag with
      | some tag => declareTag tag visibleFrom (ty a)
      | none => pure ()
      return g a) := by
  refine first.bind fun a => ?_
  cases tag with
  | none => exact .pure _
  | some tag => exact (declareTag_locates (List.forall_mem_singleton.1 tagged).span).bind fun _ => .pure _

lemma enter_locates {kind : ScopeKind} {range : Span} : Locates texts source (enter kind range) :=
  fun _ h => { h with }

lemma leave_locates {outer : ScopeId} : Locates texts source (leave outer) :=
  fun _ h => { h with }

lemma loopSite_locates {site : Span} : Locates texts source
    (modify fun r => { r with loopSites := (r.current, site) :: r.loopSites }) :=
  fun _ h => { h with }

end Resolve

open Resolve

section

variable {load : Loader} {texts : List String} {source : String}

mutual

/-- Resolving an expression of a text notes only what points into the text. -/
theorem Expr.locates (keeps : load.KeepsLocated) (e : Expr) (placed : e.node.LiesIn source) (incoming : Option Ty) :
    Locates texts source (expr load incoming e) := by
  have rejected : Locates texts source (rejectIncoming incoming e) :=
    rejectIncoming_locates (e.node_span ▸ placed.span)
  match e with
  | .name ident =>
    exact rejected.bind fun _ => (useName_locates placed.span).bind fun _ => stageType_locates placed.span
  | .path head rest span =>
    obtain ⟨here, parts⟩ := Node.liesIn_mk.1 placed
    obtain ⟨first, others⟩ := List.forall_mem_cons.1 parts
    have segments : ∀ segment ∈ rest, segment.span.LiesIn source := fun segment member =>
      (others _ (List.mem_map_of_mem member)).span
    exact rejected.bind fun _ => (usePath_locates first.span segments).bind fun _ => stageType_locates here
  | .literal value span => exact rejected.bind fun _ => .pure _
  | .array items span =>
    obtain ⟨-, parts⟩ := Node.liesIn_mk.1 placed
    exact rejected.bind fun _ => (Expr.all_locates keeps items parts).bind fun _ => .pure _
  | .range start stop inclusive span =>
    obtain ⟨-, parts⟩ := Node.liesIn_mk.1 placed
    simp only [List.forall_mem_cons] at parts
    exact rejected.bind fun _ => (Expr.locates keeps start parts.1 none).bind fun _ =>
      (Expr.locates keeps stop parts.2.1 none).bind fun _ => .pure _
  | .binary op left right span =>
    obtain ⟨-, parts⟩ := Node.liesIn_mk.1 placed
    simp only [List.forall_mem_cons] at parts
    exact rejected.bind fun _ => (Expr.locates keeps left parts.1 none).bind fun _ =>
      (Expr.locates keeps right parts.2.1 none).bind fun _ => .pure _
  | .unary op operand span =>
    obtain ⟨-, parts⟩ := Node.liesIn_mk.1 placed
    exact rejected.bind fun _ => (Expr.locates keeps operand (List.forall_mem_singleton.1 parts) none).bind fun _ => .pure _
  | .call callee args span =>
    obtain ⟨here, parts⟩ := Node.liesIn_mk.1 placed
    obtain ⟨first, others⟩ := List.forall_mem_cons.1 parts
    rw [expr_call]
    exact rejected.bind fun _ => (calleeOf_locates (Expr.locates keeps callee first none)).bind fun _ =>
      (Argument.all_locates keeps args others).bind fun _ => checkCall_locates here others
  | .index base index span =>
    obtain ⟨-, parts⟩ := Node.liesIn_mk.1 placed
    simp only [List.forall_mem_cons] at parts
    exact rejected.bind fun _ => (Expr.locates keeps base parts.1 none).bind fun _ =>
      (Expr.locates keeps index parts.2.1 none).bind fun _ => .pure _
  | .lambda f => exact rejected.bind fun _ => Lambda.locates keeps f placed
  | .block b => exact rejected.bind fun _ => Block.locates keeps b placed incoming
  | .branch b => exact rejected.bind fun _ => Branch.locates keeps b placed incoming
  | .pipeline p => exact rejected.bind fun _ => Pipeline.locates keeps p placed incoming
  | .loop l => exact rejected.bind fun _ => Loop.locates keeps l placed incoming
termination_by structural e

theorem Expr.all_locates (keeps : load.KeepsLocated) (es : List Expr) (placed : ∀ n ∈ Expr.allNodes es, n.LiesIn source) :
    Locates texts source (exprs load es) := by
  match es with
  | [] => exact .pure _
  | e :: es =>
    obtain ⟨first, others⟩ := List.forall_mem_cons.1 placed
    exact (Expr.locates keeps e first none).bind fun _ => (Expr.all_locates keeps es others).bind fun _ => .pure _
termination_by structural es

theorem Argument.all_locates (keeps : load.KeepsLocated) (args : List Argument)
    (placed : ∀ n ∈ Argument.allNodes args, n.LiesIn source) : Locates texts source (arguments load args) := by
  match args with
  | [] => exact .pure _
  | ⟨name, value⟩ :: args =>
    simp only [Argument.allNodes, List.forall_mem_append, List.forall_mem_cons] at placed
    exact (Expr.locates keeps value placed.2.1 none).bind fun _ => Argument.all_locates keeps args placed.2.2
termination_by structural args

theorem Param.all_locates (keeps : load.KeepsLocated) (ps : List Param) (placed : ∀ n ∈ Param.allNodes ps, n.LiesIn source) :
    Locates texts source (params load ps) := by
  match ps with
  | [] => exact .pure _
  | ⟨name, note, none, span⟩ :: ps =>
    obtain ⟨first, others⟩ := List.forall_mem_cons.1 placed
    obtain ⟨-, parts⟩ := Node.liesIn_mk.1 first
    exact (declareInner_locates (List.forall_mem_cons.1 parts).1.span).bind fun _ => Param.all_locates keeps ps others
  | ⟨name, note, some e, span⟩ :: ps =>
    obtain ⟨first, others⟩ := List.forall_mem_cons.1 placed
    obtain ⟨-, parts⟩ := Node.liesIn_mk.1 first
    simp only [List.forall_mem_cons, List.forall_mem_append] at parts
    exact (Expr.locates keeps e parts.2.2.1 none).bind fun _ => (declareInner_locates parts.1.span).bind fun _ =>
      Param.all_locates keeps ps others
termination_by structural ps

theorem Lambda.locates (keeps : load.KeepsLocated) (f : Lambda) (placed : f.node.LiesIn source) :
    Locates texts source (lambda load f) := by
  match f with
  | ⟨ps, returns, body, span⟩ =>
    obtain ⟨-, parts⟩ := Node.liesIn_mk.1 placed
    simp only [List.forall_mem_append, List.forall_mem_singleton] at parts
    exact enter_locates.bind fun _ => (Param.all_locates keeps ps parts.1).bind fun _ =>
      (Expr.locates keeps body parts.2.2 none).bind fun _ => leave_locates.bind fun _ => .pure _
termination_by structural f

theorem Block.locates (keeps : load.KeepsLocated) (b : Block) (placed : b.node.LiesIn source) (incoming : Option Ty) :
    Locates texts source (block load incoming b) := by
  match b with
  | ⟨statements, span⟩ =>
    obtain ⟨here, parts⟩ := Node.liesIn_mk.1 placed
    exact (rejectTailless_locates here).bind fun _ => enter_locates.bind fun _ =>
      (Statement.all_locates keeps statements parts incoming).bind fun _ => leave_locates.bind fun _ => .pure _
termination_by structural b

theorem Statement.all_locates (keeps : load.KeepsLocated) (ss : List Statement)
    (placed : ∀ n ∈ Statement.allNodes ss, n.LiesIn source) (incoming : Option Ty) :
    Locates texts source (blockStatements load incoming ss) := by
  match ss with
  | [] => exact .pure _
  | [s] => exact Statement.locates keeps s (List.forall_mem_singleton.1 placed) false incoming
  | s :: next :: ss =>
    obtain ⟨first, others⟩ := List.forall_mem_cons.1 placed
    exact (Statement.locates keeps s first false none).bind fun _ => Statement.all_locates keeps (next :: ss) others incoming
termination_by structural ss

theorem Statement.locates (keeps : load.KeepsLocated) (s : Statement) (placed : s.node.LiesIn source) (topLevel : Bool)
    (incoming : Option Ty) : Locates texts source (statement load topLevel incoming s) := by
  match s with
  | .importing i => exact (importStatement_locates keeps placed).bind fun _ => .pure _
  | .define exported name value span =>
    obtain ⟨here, parts⟩ := Node.liesIn_mk.1 placed
    simp only [List.forall_mem_cons] at parts
    exact (refuseNested_locates here).bind fun _ => (Expr.locates keeps value parts.2.1 none).bind fun _ =>
      (define_locates parts.1.span).bind fun _ => .pure _
  | .expr e span =>
    obtain ⟨-, parts⟩ := Node.liesIn_mk.1 placed
    exact Expr.locates keeps e (List.forall_mem_singleton.1 parts) incoming
termination_by structural s

theorem Branch.locates (keeps : load.KeepsLocated) (b : Branch) (placed : b.node.LiesIn source) (incoming : Option Ty) :
    Locates texts source (branch load incoming b) := by
  match b with
  | ⟨condition, consequence, other, span⟩ =>
    obtain ⟨-, parts⟩ := Node.liesIn_mk.1 placed
    simp only [List.forall_mem_cons] at parts
    exact (Expr.locates keeps condition parts.1 none).bind fun _ =>
      (Block.locates keeps consequence parts.2.1 incoming).bind fun _ =>
        (Alternative.locates keeps other parts.2.2 incoming).bind fun _ => .pure _
termination_by structural b

theorem Alternative.locates (keeps : load.KeepsLocated) (a : Alternative) (placed : ∀ n ∈ a.nodes, n.LiesIn source)
    (incoming : Option Ty) : Locates texts source (alternative load incoming a) := by
  match a with
  | .absent => exact .pure _
  | .block b => exact Block.locates keeps b (List.forall_mem_singleton.1 placed) incoming
  | .branch b => exact Branch.locates keeps b (List.forall_mem_singleton.1 placed) incoming
termination_by structural a

theorem Pipeline.locates (keeps : load.KeepsLocated) (p : Pipeline) (placed : p.node.LiesIn source) (incoming : Option Ty) :
    Locates texts source (pipeline load incoming p) := by
  match p with
  | ⟨stages, span⟩ =>
    obtain ⟨-, parts⟩ := Node.liesIn_mk.1 placed
    exact (Stage.all_locates keeps stages parts incoming).bind fun _ => .pure _
termination_by structural p

theorem Stage.all_locates (keeps : load.KeepsLocated) (ss : List Stage)
    (placed : ∀ n ∈ Stage.allNodes ss, n.LiesIn source) (incoming : Option Ty) :
    Locates texts source (stages load incoming ss) := by
  match ss with
  | [] => exact .pure _
  | s :: ss =>
    obtain ⟨first, others⟩ := List.forall_mem_cons.1 placed
    exact (Stage.locates keeps s first incoming).bind fun _ => Stage.all_locates keeps ss others _
termination_by structural ss

theorem Stage.locates (keeps : load.KeepsLocated) (s : Stage) (placed : s.node.LiesIn source) (incoming : Option Ty) :
    Locates texts source (stage load incoming s) := by
  match s with
  | .expr e tag span =>
    obtain ⟨-, parts⟩ := Node.liesIn_mk.1 placed
    obtain ⟨first, tagged⟩ := List.forall_mem_cons.1 parts
    exact tagged_locates (Expr.locates keeps e first incoming) tagged
  | .operator op operand tag span =>
    obtain ⟨-, parts⟩ := Node.liesIn_mk.1 placed
    obtain ⟨first, tagged⟩ := List.forall_mem_cons.1 parts
    exact tagged_locates (Expr.locates keeps operand first none) tagged
termination_by structural s

theorem Loop.locates (keeps : load.KeepsLocated) (l : Loop) (placed : l.node.LiesIn source) (incoming : Option Ty) :
    Locates texts source (loop load incoming l) := by
  match l with
  | ⟨sequence, binding, body, span⟩ =>
    obtain ⟨-, parts⟩ := Node.liesIn_mk.1 placed
    simp only [List.forall_mem_cons] at parts
    obtain ⟨first, bound, inner, -⟩ := parts
    refine (Expr.locates keeps sequence first none).bind fun _ => enter_locates.bind fun _ => loopSite_locates.bind fun _ =>
      (declareInner_locates bound.span).bind fun _ => (Pipeline.locates keeps body inner incoming).bind fun _ =>
        leave_locates.bind fun _ => ?_
    cases incoming with
    | none => exact .pure _
    | some seed => exact .pure _
termination_by structural l

end

/-! ### Modules -/

lemma Resolve.topLevel_locates (keeps : load.KeepsLocated) (ss : List Statement)
    (placed : ∀ n ∈ Statement.allNodes ss, n.LiesIn source) : Locates texts source (topLevel load ss) := by
  induction ss with
  | nil => exact .pure _
  | cons s ss ih =>
    obtain ⟨first, others⟩ := List.forall_mem_cons.1 placed
    exact (Statement.locates keeps s first true none).bind fun _ => ih others

/-- Resolving a module of a text notes only what points into the text: also the names that are left open to its end. -/
theorem Resolve.module_locates (keeps : load.KeepsLocated) (m : Module) (placed : m.node.LiesIn source) :
    Locates texts source (module load m) := by
  obtain ⟨-, parts⟩ := Node.liesIn_mk.1 placed
  have marked : Locates texts source (markAssembly m) := by
    simp only [markAssembly]
    split
    · exact fun r h => h.modify (fun _ => rfl) fun _ _ located => { located with }
    · exact .pure _
  refine (topLevel_locates keeps m.statements parts).bind fun _ => marked.bind fun _ r h => ?_
  refine { h with faults := List.forall_mem_append.2 ⟨h.faults, fun f member => ?_⟩, openNames := List.forall_mem_nil _ }
  obtain ⟨n, left, rfl⟩ := List.mem_map.1 member
  exact openNameFault_liesIn h (h.openNames n left)

end

end PipeLang
