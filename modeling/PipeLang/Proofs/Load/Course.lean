import PipeLang.Proofs.Load.Prefix

/-!
# The course of a load

What a statement at the top level comes to when it is resolved: what it mentions stands for something that there is before
it, `Opens.stands`, a definition comes to be defined, `Opens.defines`, and the module that an import names is loaded,
`Opens.imports`. The tables of the module say the same when the load is over.
-/

namespace PipeLang

open Resolve (after answer)

/-- A module exports a definition of its own. -/
def Program.Defines (p : Program) (id : ModuleId) (name : String) : Prop :=
  ∃ e ∈ (p.exportsOf id).entries, e.reexport = false ∧ e.target = .item id name

lemma Program.Owns.defines {p : Program} {id : ModuleId} {name : String} {e : Export} (h : p.Owns id name e) :
    p.Defines id name :=
  ⟨e, List.mem_of_find?_eq_some h.exported, h.own, h.target⟩

lemma Program.Defines.of_modules {p p' : Program} {id : ModuleId} {name : String} (h : p'.Defines id name)
    (same : p'.modules = p.modules) : p.Defines id name := by
  simpa only [Defines, exportsOf, same] using h

variable {load : Loader} {mentions : List Mention} {topLevel : Bool} {r r' : Resolution} {new : List Export}

/-- Faults are not taken back. -/
lemma Changes.faults (h : Changes load mentions topLevel r r') : r.faults ⊆ r'.faults := by
  induction h with
  | refl => exact List.Subset.refl _
  | tail _ change ih =>
    refine List.Subset.trans ih ?_
    cases change with
    | tables program home bindings references faults => exact faults
    | redefine top target => exact List.subset_append_left _ _
    | _ => exact List.Subset.refl _

/-- Modules come by loading only. -/
lemma Changes.size (h : Changes load [] topLevel r r') : r'.program.modules.size = r.program.modules.size := by
  induction h with
  | refl => rfl
  | tail _ change ih =>
    rw [← ih]
    cases change with
    | tables program home bindings references faults => rw [program]
    | load member => cases member
    | forward top inserted forwards => simp [Resolution.offering, Program.modify]
    | define top target loops name target' ty own inserted => simp [Resolution.offering, Program.modify]
    | assembly top => simp [Program.modify]
    | _ => rfl

/-- Below the top level modules change by loading only. -/
lemma Changes.modules (h : Changes load mentions false r r') (plain : ∀ i, .importing i ∉ mentions) :
    r'.program.modules = r.program.modules := by
  induction h with
  | refl => rfl
  | tail _ change ih =>
    rw [← ih]
    cases change with
    | tables program home bindings references faults => rw [program]
    | load member => exact absurd member (plain _)
    | record denotes => rfl
    | bind binds => rfl
    | edge => rfl
    | forward top | define top | redefine top | assembly top => cases top

/-- Without loading, only the module that is being resolved comes to export more. -/
lemma Changes.defines {id : ModuleId} {name : String} (h : Changes load [] true r r') (keeps : load.Keeps)
    (home : r'.Exported new) (defines : r'.program.Defines id name) :
    r.program.Defines id name ∨ id = r.home ∧ ∃ e ∈ new, e.reexport = false ∧ e.target = .item id name := by
  obtain ⟨e, member, own, target⟩ := defines
  obtain ⟨kept, sameHome⟩ := h.keeps keeps
  by_cases here : id = r.home
  · refine Or.inr ⟨here, e, ?_, own, target⟩
    rwa [← home.entries, sameHome, ← here]
  · obtain ⟨m, found, -⟩ := Program.mem_exportsOf member
    have there : (id : Nat) < r.program.modules.size := h.size ▸ (Array.getElem?_eq_some_iff.1 found).1
    rw [kept.exportsOf there fun grows => here grows.2] at member
    exact Or.inl ⟨e, member, own, target⟩

lemma Export.mem_onto {e e' : Export} {exported : List Export} (h : e ∈ e'.onto exported) : e ∈ exported ∨ e = e' := by
  unfold onto at h
  split at h
  · exact Or.inl h
  · simpa using h

/-- An import forwards what it takes. -/
lemma Import.mem_forwards {i : Import} {e : Export} {items : List Imported} {exported : List Export}
    (h : e ∈ i.forwards r exported items) : e ∈ exported ∨ ∃ item ∈ items, e = item.forwarded := by
  induction items generalizing r exported with
  | nil => exact Or.inl h
  | cons item items ih =>
    rcases ih h with member | ⟨item', member, same⟩
    · split at member
      · exact (Export.mem_onto member).imp_right fun same => ⟨item, List.mem_cons_self, same⟩
      · exact Or.inl member
    · exact Or.inr ⟨item', List.mem_cons_of_mem _ member, same⟩

/-- What an import takes from a module comes from it. -/
lemma Import.mem_taken (load : Loader) {i : Import} {target : ModuleId} {m : LoadedModule} {item : Imported}
    (member : item ∈ answer (i.taken target m) r) : item.From target m := by
  unfold Import.taken at member
  split at member
  · next newName _ =>
    let part : ImportItem := .self i.pathSpan newName
    have collected : Resolve.Collected load 0 i.span.stop r (after (Resolve.importItem i target m [] part) r) target m
      (answer (Resolve.importItem i target m [] part) r) := Resolve.importItem_collected (Nat.zero_le _) (Nat.le_refl _)
    exact collected.from_ item member
  · next items _ =>
    have collected : Resolve.Collected load 0 i.span.stop r
      (after (Resolve.importItems i target m (Import.explicitNames items) items) r) target m
      (answer (Resolve.importItems i target m (Import.explicitNames items) items) r) :=
        Resolve.importItems_collected (Nat.zero_le _) (Nat.le_refl _)
    exact collected.from_ item member

lemma Import.mem_exports (load : Loader) {i : Import} {e : Export} {exported : List Export}
    {found : Except LoadError ModuleId} (h : e ∈ i.exports r exported found) : e ∈ exported ∨
      ∃ (target : ModuleId) (m : LoadedModule) (item : Imported), found = .ok target ∧
        r.program.modules[(target : Nat)]? = some m ∧ item.From target m ∧ e = item.forwarded := by
  unfold Import.exports at h
  split at h
  · exact Or.inl h
  · next target =>
    split at h
    · exact Or.inl h
    · next m known =>
      split at h
      · exact Or.inl h
      · refine (Import.mem_forwards h).imp_right fun ⟨item, member, same⟩ => ?_
        exact ⟨target, m, item, rfl, known, Import.mem_taken load member, same⟩

namespace Resolve

/-! ### Definitions -/

/-- The name of a definition that is exported is declared as that. -/
def Declares (r : Resolution) (s : Statement) (id : ModuleId) (item : String) : Prop :=
  ∃ exported name value span, s = .define exported name value span ∧ ∃ b binding,
    r.declarations.get? name.span = some b ∧ r.scopes.bindings[(b : Nat)]? = some binding ∧
      binding.target = .item id item

lemma publish_leaves {e : Export} : ∃ program faults,
    after (publish e) r = { r with program := program, faults := faults } := by
  cases inserted : (r.program.exportsOf r.home).insert e with
  | ok exports => exact ⟨_, r.faults, publish_new inserted⟩
  | error first => exact ⟨r.program, _, publish_taken inserted⟩

lemma introduce_leaves {b : Binding} : ∃ scopes declarations faults,
    after (introduce b) r = { r with scopes := scopes, declarations := declarations, faults := faults } := by
  cases free : obstacle? r.program.policy r.scopes b with
  | none => exact ⟨_, _, r.faults, (introduce_free free).2⟩
  | some other => exact ⟨r.scopes, r.declarations, _, (introduce_taken free).2⟩

variable {exported isFunction : Bool} {name : Ident} {ty : Ty} {span : Span}

lemma define_leaves : ∃ program scopes declarations faults, after (define exported true name isFunction ty span) r =
    { r with program := program, scopes := scopes, declarations := declarations, faults := faults } := by
  cases exported with
  | false =>
    obtain ⟨scopes, declarations, faults, same⟩ := @introduce_leaves r
      ⟨name.name, name.name, .inner r.scopes.nextBinding, r.current, span.stop, name.span, ty, .declaration, []⟩
    exact ⟨r.program, scopes, declarations, faults, same⟩
  | true =>
    let b := name.definition r.home r.current ty span
    let e := name.defined r.home isFunction ty
    show ∃ program scopes declarations faults, after (offer e (answer (introduce b) r)) (after (introduce b) r) = _
    obtain ⟨scopes, declarations, faults, same⟩ := @introduce_leaves r b
    rw [same]
    cases answer (introduce b) r with
    | none => exact ⟨r.program, scopes, declarations, faults, rfl⟩
    | some id =>
      obtain ⟨program, faults, same'⟩ := @publish_leaves { r with
        scopes := scopes, declarations := declarations, faults := faults } e
      exact ⟨program, scopes, declarations, faults, same'⟩

/-- A definition that is exported without being in the way of another name is declared. -/
lemma define_free (free : obstacle? r.program.policy r.scopes (name.definition r.home r.current ty span) = none) :
    (after (define true true name isFunction ty span) r).declarations.get? name.span = some r.scopes.nextBinding ∧
      (after (define true true name isFunction ty span) r).scopes.bindings[(r.scopes.nextBinding : Nat)]? =
        some (name.definition r.home r.current ty span) := by
  let b := name.definition r.home r.current ty span
  let e := name.defined r.home isFunction ty
  have goes : after (define true true name isFunction ty span) r =
      after (offer e (answer (introduce b) r)) (after (introduce b) r) := rfl
  obtain ⟨found, next⟩ := introduce_free free
  rw [goes, found, next]
  obtain ⟨program, faults, same⟩ := @publish_leaves (after (introduce b) r) e
  rw [next] at same
  rw [offer_some, same]
  exact ⟨by simp [SpanTable.get?_insert, Ident.definition], by simp [Scopes.insert, Scopes.nextBinding]⟩

/-- A statement at the top level that imports nothing resolves its value, and then may declare a name for it. -/
lemma statement_valued {s : Statement} (keeps : load.Keeps) (there : (r.home : Nat) < r.program.modules.size)
    (plain : ∀ i, .importing i ∉ s.mentions) : ∃ r', Changes load s.mentions false r r' ∧
      Changes load [] true r' (after (statement load true none s) r) ∧
      (after (statement load true none s) r).references = r'.references ∧
      ∀ {id n}, (after (statement load true none s) r).program.Defines id n →
        r'.program.Defines id n ∨ Declares (after (statement load true none s) r) s id n := by
  cases s with
  | importing i => exact absurd List.mem_cons_self (plain i)
  | expr e span => exact ⟨_, (Expr.traced e (List.Subset.refl _) none).changes r, .refl, rfl, Or.inl⟩
  | define exported name value span =>
    have valued : Changes load value.mentions false r (after (expr load none value) r) :=
      (Expr.traced value (List.Subset.refl _) none).changes r
    have unnested : refuseNested exported true span = pure () := by simp [refuseNested]
    simp only [statement, unnested, pure_bind, after_bind, after_pure]
    have there' : ((after (expr load none value) r).home : Nat) < (after (expr load none value) r).program.modules.size :=
      (Resolution.Exported.nested ⟨there, rfl⟩ keeps _ valued).there
    generalize answer (expr load none value) r = ty
    generalize after (expr load none value) r = r' at valued there'
    have defines : Changes load [] true r' (after (define exported true name value.isLambda ty span) r') :=
      define_traced.changes r'
    refine ⟨r', valued, defines, ?_, fun {id n} known => ?_⟩
    · obtain ⟨program, scopes, declarations, faults, same⟩ := define_leaves
      rw [same]
    cases exported with
    | false =>
      have inner : Changes load [] false r' (after (define false true name value.isLambda ty span) r') :=
        declareInner_traced.changes r'
      exact Or.inl (known.of_modules (inner.modules (by simp)))
    | true =>
      rcases defines.defines keeps (define_exports ⟨there', rfl⟩) known with old | ⟨rfl, e, member, own, target⟩
      · exact Or.inl old
      have before (member : e ∈ (r'.program.exportsOf r'.home).entries) : r'.program.Defines r'.home n := ⟨e, member, own, target⟩
      cases free : obstacle? r'.program.policy r'.scopes (name.definition r'.home r'.current ty span) with
      | some other =>
        rw [if_neg (by simp [Resolution.frees, free])] at member
        exact Or.inl (before member)
      | none =>
        rw [if_pos (by simp [Resolution.frees, free])] at member
        rcases Export.mem_onto member with old | rfl
        · exact Or.inl (before old)
        · obtain ⟨declared, bound⟩ := @define_free r' value.isLambda name ty span free
          exact Or.inr ⟨_, _, _, _, rfl, _, _, declared, bound, target⟩

/-! ### Imports -/

variable {i : Import} {found : Except LoadError ModuleId} {target : ModuleId} {m : LoadedModule}

lemma install_leaves {b : Binding} : ∃ scopes faults,
    after (install b) r = { r with scopes := scopes, faults := faults } := by
  cases free : obstacle? r.program.policy r.scopes b with
  | none => exact ⟨_, r.faults, (install_free free).2⟩
  | some other => exact ⟨r.scopes, _, (install_taken free).2⟩

lemma installImport_imports {item : Imported} : (after (installImport i topLevel item) r).imports = r.imports := by
  let publishes (found : Option BindingId) : Resolve Unit :=
    if found.isSome && i.exported && topLevel then publish item.forwarded else Pure.pure ()
  show (after (publishes (answer (install (item.binding i r.current)) r))
    (after (install (item.binding i r.current)) r)).imports = _
  obtain ⟨scopes, faults, same⟩ := @install_leaves r (item.binding i r.current)
  simp only [publishes, same]
  split
  · obtain ⟨program, faults, same⟩ := @publish_leaves { r with scopes := scopes, faults := faults } item.forwarded
    rw [same]
  · rfl

lemma installImports_imports {items : List Imported} :
    (after (items.forM (installImport i topLevel)) r).imports = r.imports := by
  induction items generalizing r with
  | nil => rfl
  | cons item items ih =>
    rw [List.forM_eq_forM, List.forM_cons, after_bind]
    exact ih.trans installImport_imports

lemma bindImports_imports (load : Loader) : (after (bindImports i topLevel target m) r).imports = r.imports := by
  have install {r₁ : Resolution} {items : List Imported} (collected : Collected load 0 i.span.stop r r₁ target m items) :
      (after (items.forM (installImport i topLevel)) r₁).imports = r.imports :=
    installImports_imports.trans collected.imports
  simp only [bindImports]
  cases i.items with
  | module newName =>
    let item : ImportItem := .self i.pathSpan newName
    have collected : Collected load 0 i.span.stop r (after (importItem i target m [] item) r) target m
      (answer (importItem i target m [] item) r) := importItem_collected (Nat.zero_le _) (Nat.le_refl _)
    exact install collected
  | list items => exact install (importItems_collected (Nat.zero_le _) (Nat.le_refl _))

/-- An import with which nothing is wrong has loaded a module, which may still be loading, and is recorded. -/
lemma bindLoaded_clean (load : Loader) (clean : (after (bindLoaded i topLevel found r.program) r).faults = []) :
    ∃ target, found = .ok target ∧ (after (bindLoaded i topLevel found r.program) r).imports.get? i.span = some target ∧
      ∀ m, r.program.modules[(target : Nat)]? = some m → m.status = .loaded → m.faults = [] := by
  have faulty {fault : Fault} {r₁ : Resolution}
      (clean : (after (keepNames i) (after (report [fault]) r₁)).faults = []) : False := by
    have changes : Changes load [] topLevel _ (after (keepNames i) (after (report [fault]) r₁)) := keepNames_traced.changes _
    exact List.not_mem_nil (clean ▸ changes.faults (List.mem_append_right _ List.mem_cons_self))
  cases found with
  | error cause => exact (faulty clean).elim
  | ok target =>
    refine ⟨target, rfl, ?_⟩
    have recorded : (r.imports.insert i.span target).get? i.span = some target := by simp [SpanTable.get?_insert]
    simp only [bindLoaded, after_bind, after_modify] at clean ⊢
    cases known : r.program.modules[(target : Nat)]? with
    | none => exact ⟨recorded, by simp⟩
    | some m =>
      rw [known] at clean
      dsimp only at clean ⊢
      split at clean
      · exact (faulty clean).elim
      · next usable =>
        rw [if_neg usable]
        simp only [after_bind, after_modify, bindImports_imports load]
        refine ⟨recorded, fun m' same status => ?_⟩
        cases same
        simpa [status] using usable

end Resolve

namespace Program

variable {p : Program} {raw : String} {depth : Nat} {a : Pending} {s : Statement} {rest : List Statement}

/-- What has been found wrong with a module when some statements are done is wrong with it when it is done. -/
lemma Opens.faults (h : p.Opens raw depth a) : a.resolution.faults ⊆ a.finished.faults := by
  rw [h.finished]
  exact (Resolve.remaining_changes (loader depth) a.ast a.rest a.resolution).faults

lemma Opens.next_ordered (h : p.Opens raw depth a) (next : a.rest = s :: rest) : s.Ordered := by
  obtain ⟨path, source, parsed, -⟩ := h.start
  refine (Module.parse_ordered parsed).2 s ?_
  rw [h.statements, next]
  simp

/-- A statement that imports nothing is resolved in the program that there is. -/
lemma Opens.valued (h : p.Opens raw depth a) (canonical : p.Canonical) (plain : ∀ i, .importing i ∉ s.mentions) :
    ∃ r', Changes (loader depth) s.mentions false a.resolution r' ∧
      Changes (loader depth) [] true r' (a.past s rest).resolution ∧
      (a.past s rest).resolution.references = r'.references ∧
      ∀ {id n}, (a.past s rest).resolution.program.Defines id n →
        r'.program.Defines id n ∨ Resolve.Declares (a.past s rest).resolution s id n := by
  rw [Pending.past_resolution, h.depth_eq]
  exact Resolve.statement_valued (loader_keeps depth) (canonical.opens h).home plain

/-- What a statement mentions stands for something that there is before it, when nothing is wrong with the module. -/
lemma Opens.stands (h : p.Opens raw depth a) (canonical : p.Canonical) (fine : a.finished.faults = [])
    (next : a.rest = s :: rest) (plain : ∀ i, .importing i ∉ s.mentions) {site : Span} {ref : Reference}
    (member : .use site ∈ s.mentions) (found : a.finished.references.get? site = some ref) :
    ∃ t, a.resolution.program.Stands t ref.target ref.ty := by
  have past := h.past next
  obtain ⟨mark, before, later⟩ := past.later canonical.isOffers
  obtain ⟨r', values, defines, references, -⟩ := h.valued canonical plain
  have backed : r'.Backed := values.backed (loader_keeps depth) (loader_keepsCanonical depth) (canonical.opens h)
  -- the site stands before all that is recorded later
  have inside : site.stop ≤ s.span.stop := Statement.Ordered.mentions s (h.next_ordered next) site member
  have ends : s.span.stop < mark := before s (by simp [Pending.past])
  have recorded : r'.references.get? site = some ref := references ▸ (later.newReference found).resolve_right (by omega)
  have clean : r'.faults = [] := by
    have clean : (a.past s rest).finished.faults = [] := fine
    exact List.subset_nil.1 (clean ▸ List.Subset.trans defines.faults past.faults)
  have hosts := (values.keeps (loader_keeps depth)).1.hosts
  exact ⟨_, (backed.references clean recorded).later (.of_modules hosts.symm (values.modules plain).symm) id⟩

/-- A statement that imports nothing comes to define at most the name that it declares, and the tables of the module say
so. -/
lemma Opens.defines (h : p.Opens raw depth a) (canonical : p.Canonical) (next : a.rest = s :: rest)
    (plain : ∀ i, .importing i ∉ s.mentions) {id : ModuleId} {name : String}
    (defines : (a.past s rest).resolution.program.Defines id name) :
    a.resolution.program.Defines id name ∨ Resolve.Declares a.finished s id name := by
  obtain ⟨mark, -, later⟩ := (h.past next).later canonical.isOffers
  obtain ⟨r', values, -, -, origin⟩ := h.valued canonical plain
  refine (origin defines).imp (fun old => old.of_modules (values.modules plain)) ?_
  rintro ⟨exported, ident, value, span, same, b, binding, declared, bound, target⟩
  exact ⟨exported, ident, value, span, same, b, binding, later.declarations declared, later.scopes.bindings bound, target⟩

/-- A statement that imports nothing adds no modules. -/
lemma Opens.adds (h : p.Opens raw depth a) (canonical : p.Canonical) (plain : ∀ i, .importing i ∉ s.mentions) :
    (a.past s rest).resolution.program.modules.size = a.resolution.program.modules.size := by
  obtain ⟨r', values, (defines : Changes _ _ _ r' (a.past s rest).resolution), -⟩ := h.valued canonical plain
  rw [defines.size, values.modules plain]

/-- An import with which nothing is wrong loads a module, and the tables of the module say which. Behind it more is
exported, but nothing more is defined. -/
lemma Opens.imports {i : Import} (h : p.Opens raw depth a) (canonical : p.Canonical) (fine : a.finished.faults = [])
    (next : a.rest = .importing i :: rest) :
    let loaded := (loader depth a.resolution.program i.path).2
    let behind := (a.past (.importing i) rest).resolution.program
    ∃ target, (loader depth a.resolution.program i.path).1 = .ok target ∧
      a.finished.imports.get? i.span = some target ∧
      (∀ m, loaded.modules[(target : Nat)]? = some m → m.status = .loaded → m.faults = []) ∧
      loaded.Keeps (· = a.home) behind ∧ behind.modules.size = loaded.modules.size ∧
      ∀ {id name}, behind.Defines id name → loaded.Defines id name := by
  intro loaded behind
  let r₁ : Resolution := { a.resolution with program := loaded }
  have goes : (a.past (.importing i) rest).resolution =
      after (Resolve.bindLoaded i true (loader depth a.resolution.program i.path).1 r₁.program) r₁ := by
    rw [Pending.past_resolution, h.depth_eq]
    simp only [Resolve.statement, Resolve.after_bind, Resolve.after_pure, Resolve.importStatement_after, r₁, loaded]
  have binds : Changes (loader depth) [] true r₁ (a.past (.importing i) rest).resolution := goes ▸ Resolve.bindLoaded_changes
  have past := h.past next
  have clean : (a.past (.importing i) rest).resolution.faults = [] := by
    have clean : (a.past (.importing i) rest).finished.faults = [] := fine
    exact List.subset_nil.1 (clean ▸ past.faults)
  have home : a.resolution.home = a.home := h.resolution_home
  have keeps := loader_keeps depth
  have there : (r₁.home : Nat) < r₁.program.modules.size :=
    Nat.lt_of_lt_of_le (canonical.opens h).home (keeps a.resolution.program i.path).size_le
  obtain ⟨mark, -, later⟩ := past.later canonical.isOffers
  rw [goes] at clean
  obtain ⟨target, answer, recorded, usable⟩ := Resolve.bindLoaded_clean (loader depth) clean
  rw [← goes] at recorded
  refine ⟨target, answer, later.imports recorded, usable, ?_, binds.size, fun {id name} defines => ?_⟩
  · exact (binds.keeps keeps).1.mono fun _ grows => grows.2.trans home
  cases exports : i.exported with
  | false =>
    rw [Resolve.bindLoaded_unexported exports] at goes
    have inner : Changes (loader depth) [] false r₁ (a.past (.importing i) rest).resolution :=
      goes ▸ Resolve.bindLoaded_changes
    exact defines.of_modules (inner.modules (by simp))
  | true =>
    have offers := @Resolve.bindLoaded_exports (loader depth) r₁ _ i (loader depth a.resolution.program i.path).1 keeps exports ⟨there, rfl⟩
    rw [← goes] at offers
    rcases binds.defines keeps offers defines with old | ⟨rfl, e, member, own, target⟩
    · exact old
    · rcases Import.mem_exports (loader depth) member with old | ⟨-, -, item, -, -, -, rfl⟩
      · exact ⟨e, old, own, target⟩
      · cases own

/-! ### Modules -/

/-- A request that is answered with a module that is not known to fail finds it or opens it. -/
lemma loader_opens {target : ModuleId} (answer : (loader depth p raw).1 = .ok target)
    (usable : ∀ m, (loader depth p raw).2.modules[(target : Nat)]? = some m → m.status = .loaded → m.faults = []) :
    (target < p.modules.size ∧ (loader depth p raw).2 = p) ∨
      ∃ inner a, depth = inner + 1 ∧ p.Opens raw inner a ∧ a.done = [] ∧ a.home = target := by
  unfold loader at answer usable ⊢
  cases named : ModulePath.parse raw with
  | error cause => simp [named] at answer
  | ok path =>
    simp only [named] at answer usable ⊢
    unfold loadPath at answer usable ⊢
    cases known : p.findPath? path with
    | some id =>
      simp only [known, Except.ok.injEq] at answer
      subst answer
      obtain ⟨inside, -⟩ := Array.findIdx?_eq_some_iff_getElem.1 known
      exact Or.inl ⟨inside, rfl⟩
    | none =>
      cases read : p.sources.read path with
      | error cause => simp [known, read] at answer
      | ok source =>
        cases depth with
        | zero => simp [known, read] at answer
        | succ inner =>
          simp only [known, read, Except.ok.injEq] at answer
          subst answer
          cases parsed : Module.parse source with
          | ok ast => exact Or.inr ⟨inner, _, rfl, .mk named known read parsed (List.nil_append _).symm, rfl, rfl⟩
          | error errors =>
            simp only [known, read, resolveEntered_error parsed] at usable
            let faults : List Fault := errors.map .malformed
            let marked := (p.enter path source).modify p.modules.size fun m =>
              { m with faults := m.faults ++ faults, status := .loaded }
            have finishes : marked.Settles ((p.enter path source).finish p.modules.size faults) := finish_keeps
            have there : marked.modules[p.modules.size]? = some ⟨path, .loaded, source, none, .empty, none, faults⟩ := by
              simp [marked, modify_modules, enter_modules]
            obtain ⟨m, found, kept⟩ := finishes.modules there
            have clean : faults = [] := List.subset_nil.1 (usable m found kept.status ▸ kept.faults)
            exact absurd (List.map_eq_nil_iff.1 clean) (Module.parse_errors parsed)

/-- When a module is opened, its program has one more module, which is loading and exports nothing. -/
lemma Opens.begins (h : p.Opens raw depth a) (first : a.done = []) :
    a.resolution.program.modules.size = p.modules.size + 1 ∧
      ∀ {id name}, a.resolution.program.Defines id name → p.Defines id name := by
  cases h with
  | @mk path source ast done rest named unknown read parsed statements =>
    replace first : done = [] := first
    subst first
    refine ⟨starting_size, fun {id name} ⟨e, member, own, target⟩ => ⟨e, ?_, own, target⟩⟩
    replace member : e ∈ ((p.starting path source ast).exportsOf id).entries := member
    simp only [exportsOf, starting_modules] at member ⊢
    split at member
    · next m found =>
      split at found
      · cases found
        simp [Exports.empty] at member
      · rwa [found]
    · simp [Exports.empty] at member

/-- The end of a module loads nothing. -/
lemma Opens.concludes (h : p.Opens raw depth a) (last : a.rest = []) :
    Changes (loader depth) [] true a.resolution a.finished := by
  rw [h.finished, last]
  exact Resolve.remaining_changes (loader depth) a.ast [] a.resolution

/-- The end of a module exports no names. -/
lemma Opens.entries (h : p.Opens raw depth a) (last : a.rest = []) {id : ModuleId} :
    (a.finished.program.exportsOf id).entries = (a.resolution.program.exportsOf id).entries := by
  rw [h.finished, last]
  simp only [Resolve.remaining, Resolve.topLevel, Resolve.markAssembly, Resolve.after_bind, Resolve.after_pure]
  cases a.ast.assembly? with
  | none => rfl
  | some e => exact modify_exportsOf Exports.entries fun _ => rfl

/-- When a module is done, names stand for something in it. -/
lemma Opens.backed (h : p.Opens raw depth a) (canonical : p.Canonical) : a.finished.Backed := by
  rw [h.finished]
  exact (Resolve.remaining_changes (loader depth) a.ast a.rest a.resolution).backed (loader_keeps depth)
    (loader_keepsCanonical depth) (canonical.opens h)

/-- When a module is done, no more modules come behind its last statement, and nothing more is defined. -/
lemma Opens.ends (h : p.Opens raw depth a) (canonical : p.Canonical) (last : a.rest = []) :
    let final := (loader (depth + 1) p raw).2
    final.modules.size = a.resolution.program.modules.size ∧
      ∀ {id name}, final.Defines id name → a.resolution.program.Defines id name := by
  intro final
  have settles : a.concluded.Settles final := h.settles
  have concludes := h.concludes last
  have marked : a.concluded.modules.size = a.resolution.program.modules.size := by
    rw [← concludes.size]
    simp [Pending.concluded, Program.modify]
  have size : final.modules.size = a.resolution.program.modules.size := by
    have isOffers := (h.backed canonical).program.isOffers
    let tabled := a.finished.program.modify a.home fun m => { m with resolved := some a.finished.resolved }
    have offers : tabled.Offers := isOffers.modify fun m found e member => isOffers _ m found e member
    show (loader (depth + 1) p raw).2.modules.size = _
    rw [h.answered, ← h.home, (finish_offers a.home a.finished.faults offers).2.1, ← concludes.size]
    simp [tabled, Program.modify]
  refine ⟨size, fun {id name} defined => ?_⟩
  obtain ⟨e, member, own, target⟩ := defined
  refine ⟨e, ?_, own, target⟩
  obtain ⟨m, found, -⟩ := mem_exportsOf member
  have inside : (id : Nat) < a.concluded.modules.size := marked ▸ size ▸ (Array.getElem?_eq_some_iff.1 found).1
  have marks : (a.concluded.exportsOf id).entries = (a.finished.program.exportsOf id).entries := modify_exportsOf _ fun _ => rfl
  rwa [settles.exportsOf inside not_false, marks, h.entries last] at member

end Program

end PipeLang
