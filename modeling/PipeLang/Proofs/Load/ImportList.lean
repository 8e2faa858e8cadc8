import PipeLang.Proofs.Load.Exported
import PipeLang.Proofs.Load.Nested
import PipeLang.Proofs.Load.Reloaded
import PipeLang.Proofs.Load.Unique

/-!
# What an import statement binds

An import statement whose module may be imported binds the names of its list, to what the module exports at that moment, and
nothing else: `importStatement_binds`. `ImportItem.Yields` says what each item of the list asks for, and `Import.Installs` what
becomes of the names that are asked for, one after another: a name that clashes with a binding that is there is left out. What is
bound is offered as well if the statement exports it.
-/

namespace PipeLang

open Resolve

/-- The items of an import statement. A statement without a list has the module itself as its only item. -/
def Import.list (i : Import) : List ImportItem :=
  match i.items with
  | .module newName => [.self i.pathSpan newName]
  | .list items => items

/-- What an item of an import list asks for, with what the module exports: the names to be bound, what is wrong with it, and the
names that are kept as invalid. -/
inductive ImportItem.Yields (target : ModuleId) (m : LoadedModule) (explicit : List String) :
    ImportItem → List Imported → List Fault → List Ident → Prop where
  | exported {name newName e} :
    m.exports.get? name.name = some e →
    Yields target m explicit (.name name newName)
      [⟨(newName.getD name).name, name.name, e.target, e.kind, e.ty, (newName.getD name).span, .named⟩] [] []
  | unknown {name newName} :
    m.exports.get? name.name = none →
    Yields target m explicit (.name name newName) []
      [.unknownExport name.name m.path.render (m.status = .loading) name.span] [newName.getD name]
  | renamed {span newName} :
    Yields target m explicit (.self span (some newName))
      [⟨newName.name, m.path.stem, .module target, .module, .module, newName.span, .named⟩] [] []
  | self {span name} :
    m.path.bindingName? = some name →
    Yields target m explicit (.self span none)
      [⟨name, m.path.stem, .module target, .module, .module, span, .named⟩] [] []
  | nameless {span} :
    m.path.bindingName? = none →
    Yields target m explicit (.self span none) [] [.aliasRequired m.path.render m.path.stem span] []
  | glob {span} :
    Yields target m explicit (.glob span)
      ((m.exports.entries.filter fun e => !explicit.contains e.name).map fun e =>
        ⟨e.name, e.name, e.target, e.kind, e.ty, span, .glob⟩) [] []

/-- What the items of an import list ask for, in order. -/
inductive ImportItem.YieldAll (target : ModuleId) (m : LoadedModule) (explicit : List String) :
    List ImportItem → List Imported → List Fault → List Ident → Prop where
  | nil :
    YieldAll target m explicit [] [] [] []
  | cons {item items imported faults kept imported' faults' kept'} :
    item.Yields target m explicit imported faults kept →
    YieldAll target m explicit items imported' faults' kept' →
    YieldAll target m explicit (item :: items) (imported ++ imported') (faults ++ faults') (kept ++ kept')

/-- A binding clashes with another: they have one name in one scope and denote different things, and the policy does not defer their
collision because of a glob import. -/
def Binding.Clashes (policy : GlobPolicy) (b other : Binding) : Prop :=
  other.scope = b.scope ∧ other.name = b.name ∧ other.target.sameItem b.target = false ∧
    ¬ (policy = .onUse ∧ (other.origin = .glob ∨ b.origin = .glob))

/-- The first binding of a table that another clashes with. -/
def Scopes.FirstClash (t : Scopes) (policy : GlobPolicy) (b other : Binding) : Prop :=
  ∃ id : Nat, t.bindings[id]? = some other ∧ b.Clashes policy other ∧
    ∀ (j : Nat) c, j < id → t.bindings[j]? = some c → ¬ b.Clashes policy c

/-- What becomes of imported names, one after another, in a table of scopes and with what is exported so far: those that are bound,
those of them that are exported as well, and what is wrong. -/
inductive Import.Installs (i : Import) (policy : GlobPolicy) (scope : ScopeId) (forwards : Bool) :
    Scopes → Exports → List Imported → List Imported → List Imported → List Fault → Prop where
  | nil {t exported} :
    Installs i policy scope forwards t exported [] [] [] []
  | collides {t exported item rest bound offered faults other} :
    t.FirstClash policy (item.binding i scope) other →
    Installs i policy scope forwards t exported rest bound offered faults →
    Installs i policy scope forwards t exported (item :: rest) bound offered
      (.nameCollision item.name item.site other.site :: faults)
  | binds {t exported item rest bound offered faults} :
    (∀ other ∈ t.bindings, ¬ (item.binding i scope).Clashes policy other) →
    forwards = false →
    Installs i policy scope forwards (t.insert (item.binding i scope)) exported rest bound offered faults →
    Installs i policy scope forwards t exported (item :: rest) (item :: bound) offered faults
  | offers {t exported item rest bound offered faults} :
    (∀ other ∈ t.bindings, ¬ (item.binding i scope).Clashes policy other) →
    forwards = true →
    exported.get? item.name = none →
    Installs i policy scope forwards (t.insert (item.binding i scope))
      { exported with entries := exported.entries ++ [item.forwarded] } rest bound offered faults →
    Installs i policy scope forwards t exported (item :: rest) (item :: bound) (item :: offered) faults
  | repeats {t exported item rest bound offered faults first} :
    (∀ other ∈ t.bindings, ¬ (item.binding i scope).Clashes policy other) →
    forwards = true →
    exported.get? item.name = some first →
    Installs i policy scope forwards (t.insert (item.binding i scope)) exported rest bound offered faults →
    Installs i policy scope forwards t exported (item :: rest) (item :: bound) offered
      (.duplicateExport item.name item.site first.site :: faults)

/-- A table to which bindings are added one after another. -/
def Scopes.insertAll (t : Scopes) (bs : List Binding) : Scopes :=
  bs.foldl insert t

/-- A program in which a module exports more names. -/
def Program.offerAll (p : Program) (id : ModuleId) (es : List Export) : Program :=
  p.offer id fun exports => { exports with entries := exports.entries ++ es }

/-! ### Clashes -/

section

variable {t : Scopes} {policy : GlobPolicy} {b other : Binding}

/-- What one binding of the same name in the same scope does to another. -/
def standing (policy : GlobPolicy) (t : Scopes) (b : Binding) (id : Nat) : Option Binding :=
  match t.bindings[id]? with
  | some other =>
    let deferred := (other.origin = .glob || b.origin = .glob) && policy = .onUse
    if other.target.sameItem b.target || deferred then none else some other
  | none => none

lemma obstacle?_eq : obstacle? policy t b = (t.named b.scope b.name).findSome? (standing policy t b) := rfl

/-- A binding of the same name in the same scope is in the way of one that clashes with it. -/
lemma standing_eq_some_iff {id : Nat} (named : id ∈ t.named b.scope b.name) :
    standing policy t b id = some other ↔ t.bindings[id]? = some other ∧ b.Clashes policy other := by
  obtain ⟨c, found, scope, name⟩ := Scopes.mem_named.1 named
  rw [standing, found]
  constructor
  · intro stands
    dsimp only at stands
    split at stands
    · cases stands
    · next apart =>
      cases stands
      simp only [Bool.or_eq_true, Bool.and_eq_true, decide_eq_true_eq, not_or, Bool.not_eq_true] at apart
      exact ⟨rfl, scope, name, apart.1, fun deferred => apart.2 deferred.symm⟩
  · rintro ⟨same, -, -, apart, shown⟩
    cases same
    have kept : ¬ ((other.origin = .glob ∨ b.origin = .glob) ∧ policy = .onUse) := fun deferred => shown deferred.symm
    simp [apart, kept]

lemma standing_eq_none_iff {id : Nat} (named : id ∈ t.named b.scope b.name) :
    standing policy t b id = none ↔ ∀ c, t.bindings[id]? = some c → ¬ b.Clashes policy c := by
  rw [Option.eq_none_iff_forall_ne_some]
  refine forall_congr' fun c => ?_
  rw [ne_eq, standing_eq_some_iff named, not_and]

/-- Nothing keeps a binding from being installed exactly if it clashes with nothing. -/
lemma obstacle?_eq_none_iff : obstacle? policy t b = none ↔ ∀ other ∈ t.bindings, ¬ b.Clashes policy other := by
  rw [obstacle?_eq, List.findSome?_eq_none_iff]
  constructor
  · intro free other member clashes
    obtain ⟨id, inside, rfl⟩ := Array.mem_iff_getElem.1 member
    have found := Array.getElem?_eq_getElem inside
    have named := Scopes.mem_named.2 ⟨_, found, clashes.1, clashes.2.1⟩
    exact (standing_eq_none_iff named).1 (free id named) _ found clashes
  · intro free id named
    exact (standing_eq_none_iff named).2 fun c found => free c (Array.mem_of_getElem? found)

/-- What keeps a binding from being installed is the first that it clashes with. -/
lemma firstClash_of_obstacle? (taken : obstacle? policy t b = some other) : t.FirstClash policy b other := by
  rw [obstacle?_eq, List.findSome?_eq_some_iff] at taken
  obtain ⟨before, id, behind, split, stands, free⟩ := taken
  have among : id ∈ t.named b.scope b.name := split ▸ List.mem_append_right _ List.mem_cons_self
  obtain ⟨found, clashes⟩ := (standing_eq_some_iff among).1 stands
  refine ⟨id, found, clashes, fun j c earlier found' clashes' => ?_⟩
  have named : j ∈ t.named b.scope b.name := Scopes.mem_named.2 ⟨c, found', clashes'.1, clashes'.2.1⟩
  have ascending : (t.named b.scope b.name).Pairwise (· < ·) := List.pairwise_lt_range.filter _
  rw [split] at named ascending
  rcases List.mem_append.1 named with here | there
  · exact (standing_eq_none_iff (split ▸ named)).1 (free j here) c found' clashes'
  · rcases List.mem_cons.1 there with rfl | later
    · exact Nat.lt_irrefl _ earlier
    · have above := (List.pairwise_cons.1 (List.pairwise_append.1 ascending).2.1).1 j later
      exact Nat.lt_asymm earlier above

end

/-! ### Exports that are added -/

namespace Program

variable {p : Program} {id : ModuleId} {es es' : List Export}

lemma offerAll_nil : p.offerAll id [] = p := by
  have same : p.modify id (fun m => m) = p := by
    have modules : p.modules.modify id (fun m => m) = p.modules := by
      apply Array.ext_getElem?
      intro j
      rw [Array.getElem?_modify]
      split <;> simp
    simp [modify, modules]
  simpa [offerAll, offer] using same

lemma offerAll_append : (p.offerAll id es).offerAll id es' = p.offerAll id (es ++ es') := by
  simp only [offerAll, offer, modify_modify]
  exact modify_congr fun m _ => by simp

/-- What a module exports is replaced by more. -/
lemma modify_exports : (p.modify id fun m => { m with
    exports := { p.exportsOf id with entries := (p.exportsOf id).entries ++ es } }) = p.offerAll id es :=
  modify_congr fun m found => by simp [exportsOf, found]

lemma exportsOf_offerAll (there : (id : Nat) < p.modules.size) :
    (p.offerAll id es).exportsOf id = { p.exportsOf id with entries := (p.exportsOf id).entries ++ es } :=
  exportsOf_offer_of_lt there

lemma offerAll_size : (p.offerAll id es).modules.size = p.modules.size := by
  simp [offerAll, offer, modify]

end Program

/-! ### Import statements -/

variable {load : Loader} {r : Resolution} {i : Import} {target : ModuleId} {m : LoadedModule} {explicit : List String}

/-- The names that are kept as invalid. -/
def Import.invalids (i : Import) (scope : ScopeId) (kept : List Ident) : List Binding :=
  kept.map fun ident => Import.invalidBinding ident scope i.span.stop

/-- What an import statement makes of a resolution, when its module has been loaded and may be imported: the names that the items of
its list ask for, in order, are kept as invalid or bound in the current scope, where they are visible from the end of the statement.
The module offers those that are offered as well. The import is recorded, and nothing else changes but that faults are reported. -/
def Import.Binds (i : Import) (topLevel : Bool) (target : ModuleId) (m : LoadedModule) (program : Program) (r r' : Resolution) :
    Prop :=
  ∃ imported unknown kept bound offered refused,
    ImportItem.YieldAll target m (Import.explicitNames i.list) i.list imported unknown kept ∧
    i.Installs program.policy r.current (i.exported && topLevel) (r.scopes.insertAll (i.invalids r.current kept))
      (program.exportsOf r.home) imported bound offered refused ∧
    r' = { r with
      program := (program.addEdge ⟨r.home, target, i.pathSpan⟩).offerAll r.home (offered.map Imported.forwarded)
      scopes := r.scopes.insertAll (i.invalids r.current kept ++ bound.map fun item => item.binding i r.current)
      imports := r.imports.insert i.span target
      faults := r.faults ++ (if i.exported && !topLevel then [.nestedExport i.span] else []) ++ unknown ++ refused }

namespace Resolve

lemma importItem_yields (i : Import) (target : ModuleId) (m : LoadedModule) (explicit : List String) (item : ImportItem)
    (r : Resolution) : ∃ faults kept,
    item.Yields target m explicit (answer (importItem i target m explicit item) r) faults kept ∧
      after (importItem i target m explicit item) r = { r with
        scopes := r.scopes.insertAll (i.invalids r.current kept)
        faults := r.faults ++ faults } := by
  have unchanged : r = { r with
      scopes := r.scopes.insertAll (i.invalids r.current [])
      faults := r.faults ++ [] } := by
    rw [List.append_nil]
    rfl
  cases item with
  | name name newName =>
    simp only [importItem]
    cases shown : m.exports.get? name.name with
    | some e =>
      have same : e.name = name.name := by simpa using List.find?_some shown
      refine ⟨[], [], ?_, unchanged⟩
      simpa [Import.ofExport, same] using ImportItem.Yields.exported shown
    | none => exact ⟨_, _, .unknown shown, rfl⟩
  | self span newName =>
    cases newName with
    | some newName => exact ⟨[], [], .renamed, unchanged⟩
    | none =>
      simp only [importItem]
      unfold Import.moduleItem
      cases named : m.path.bindingName? with
      | some name => exact ⟨[], [], .self named, unchanged⟩
      | none => exact ⟨_, [], .nameless named, rfl⟩
  | glob span => exact ⟨[], [], .glob, unchanged⟩

lemma importItems_yield (i : Import) (target : ModuleId) (m : LoadedModule) (explicit : List String) (items : List ImportItem)
    (r : Resolution) : ∃ faults kept,
    ImportItem.YieldAll target m explicit items (answer (importItems i target m explicit items) r) faults kept ∧
      after (importItems i target m explicit items) r = { r with
        scopes := r.scopes.insertAll (i.invalids r.current kept)
        faults := r.faults ++ faults } := by
  induction items generalizing r with
  | nil => exact ⟨[], [], .nil, by simp [importItems, Import.invalids, Scopes.insertAll]⟩
  | cons item items ih =>
    obtain ⟨faults, kept, first, next⟩ := importItem_yields i target m explicit item r
    obtain ⟨faults', kept', others, last⟩ := ih (after (importItem i target m explicit item) r)
    refine ⟨faults ++ faults', kept ++ kept', ?_, ?_⟩
    · exact .cons first others
    · rw [next] at last
      simp only [importItems, after_bind, after_pure, next, last]
      simp [Import.invalids, Scopes.insertAll]

/-- A statement without a list imports the module itself. -/
lemma bindImports_eq {topLevel : Bool} : bindImports i topLevel target m =
    importItems i target m (Import.explicitNames i.list) i.list >>= fun items => items.forM (installImport i topLevel) := by
  simp only [bindImports, Import.list]
  cases i.items with
  | list items => rfl
  | module newName =>
    simp only [importItems, Import.explicitNames, List.filterMap_cons, List.filterMap_nil, bind_assoc, pure_bind, List.append_nil]

/-- What binding a name makes of a resolution. -/
lemma installImports_install (topLevel : Bool) (items : List Imported) (there : (r.home : Nat) < r.program.modules.size) :
    ∃ bound offered faults,
      i.Installs r.program.policy r.current (i.exported && topLevel) r.scopes (r.program.exportsOf r.home) items bound offered faults ∧
        after (items.forM (installImport i topLevel)) r = { r with
          program := r.program.offerAll r.home (offered.map Imported.forwarded)
          scopes := r.scopes.insertAll (bound.map fun item => item.binding i r.current)
          faults := r.faults ++ faults } := by
  induction items generalizing r with
  | nil => exact ⟨[], [], [], .nil, by simp [Program.offerAll_nil, Scopes.insertAll]⟩
  | cons item items ih =>
    let b := item.binding i r.current
    let publishes (found : Option BindingId) : Resolve Unit :=
      if found.isSome && i.exported && topLevel then publish item.forwarded else Pure.pure ()
    have first : after (installImport i topLevel item) r = after (publishes (answer (install b) r)) (after (install b) r) := rfl
    rw [List.forM_eq_forM, List.forM_cons, after_bind, first]
    cases free : obstacle? r.program.policy r.scopes b with
    | some other =>
      obtain ⟨found, next⟩ := install_taken free
      rw [found, next]
      obtain ⟨bound, offered, faults, installs, last⟩ := ih (r := { r with
        faults := r.faults ++ [.nameCollision b.name b.site other.site] }) there
      refine ⟨bound, offered, _, .collides (firstClash_of_obstacle? free) installs, ?_⟩
      rw [List.forM_eq_forM] at last
      simp only [publishes, Option.isSome_none, Bool.false_and, Bool.false_eq_true, if_false, after_pure, last]
      simp [b, Imported.binding]
    | none =>
      obtain ⟨found, next⟩ := install_free free
      have clear := obstacle?_eq_none_iff.1 free
      rw [found, next]
      simp only [publishes, Option.isSome_some, Bool.true_and]
      cases forwards : i.exported && topLevel with
      | false =>
        obtain ⟨bound, offered, faults, installs, last⟩ := ih (r := { r with scopes := r.scopes.insert b }) there
        rw [forwards] at installs
        refine ⟨item :: bound, offered, faults, .binds clear rfl installs, ?_⟩
        rw [List.forM_eq_forM] at last
        simp only [Bool.false_eq_true, if_false, after_pure, last]
        simp [b, Scopes.insertAll]
      | true =>
        simp only [if_true]
        cases shown : (r.program.exportsOf r.home).get? item.name with
        | some e =>
          have inserted : (r.program.exportsOf r.home).insert item.forwarded = .error e := by
            simp [Exports.insert, Imported.forwarded, shown]
          rw [publish_taken (r := { r with scopes := r.scopes.insert b }) inserted]
          obtain ⟨bound, offered, faults, installs, last⟩ := ih (r := { r with
            scopes := r.scopes.insert b
            faults := r.faults ++ [.duplicateExport item.name item.site e.site] }) there
          rw [forwards] at installs
          refine ⟨item :: bound, offered, _, .repeats clear rfl shown installs, ?_⟩
          rw [List.forM_eq_forM] at last
          simp only [Imported.forwarded, last]
          simp [b, Scopes.insertAll]
        | none =>
          have inserted : (r.program.exportsOf r.home).insert item.forwarded = .ok { r.program.exportsOf r.home with
              entries := (r.program.exportsOf r.home).entries ++ [item.forwarded] } := by
            simp [Exports.insert, Imported.forwarded, shown]
          rw [publish_new (r := { r with scopes := r.scopes.insert b }) inserted]
          simp only [Program.modify_exports]
          obtain ⟨bound, offered, faults, installs, last⟩ := ih (r := { r with
            program := r.program.offerAll r.home [item.forwarded]
            scopes := r.scopes.insert b }) (by rwa [Program.offerAll_size])
          rw [forwards, Program.exportsOf_offerAll there] at installs
          refine ⟨item :: bound, item :: offered, faults, .offers clear rfl shown installs, ?_⟩
          rw [List.forM_eq_forM] at last
          simp only [last, Program.offerAll_append]
          simp [b, Scopes.insertAll]

/-- An import is refused nested exports only. -/
lemma refuseNested_after {exported topLevel : Bool} {site : Span} : after (refuseNested exported topLevel site) r = { r with
    faults := r.faults ++ if exported && !topLevel then [.nestedExport site] else [] } := by
  simp only [refuseNested]
  split <;> simp

/-- An import statement binds the names of its list, whenever its module is found in the program behind the load as one that can be
used or is still being loaded. -/
theorem importStatement_binds {program : Program} (topLevel : Bool)
    (answered : load r.program i.path = (.ok target, program)) (found : program.modules[(target : Nat)]? = some m)
    (accepted : m.status = .loading ∨ m.faults = []) (there : (r.home : Nat) < program.modules.size) :
    i.Binds topLevel target m program r (after (importStatement load i topLevel) r) := by
  have proceeds : (m.status = .loaded && !m.faults.isEmpty) = false := by
    rcases accepted with loading | fine
    · simp [loading]
    · simp [fine]
  let r₁ : Resolution := { r with
    program := program.addEdge ⟨r.home, target, i.pathSpan⟩
    imports := r.imports.insert i.span target
    faults := r.faults ++ if i.exported && !topLevel then [.nestedExport i.span] else [] }
  obtain ⟨unknown, kept, yields, next⟩ := importItems_yield i target m (Import.explicitNames i.list) i.list r₁
  obtain ⟨bound, offered, refused, installs, last⟩ := installImports_install (i := i)
    (r := after (importItems i target m (Import.explicitNames i.list) i.list) r₁) topLevel
    (answer (importItems i target m (Import.explicitNames i.list) i.list) r₁) (by rw [next]; exact there)
  rw [next] at installs last
  refine ⟨_, unknown, kept, bound, offered, refused, yields, installs, ?_⟩
  have binds : after (importStatement load i topLevel) r = after (bindImports i topLevel target m) r₁ := by
    simp only [importStatement, after_bind, refuseNested_after, after_get, answer_get, after_set, answered, after_modify, found,
      proceeds]
    rfl
  rw [binds, bindImports_eq, after_bind, next, last]
  simp [r₁, Import.invalids, Scopes.insertAll]

/-- A program with a module that exports two names. -/
def library : Program :=
  (Program.new (.ofTexts (.ofList [("lib.kcl", "export a = 1\nexport b = 2\n")])) .eager .prelude).loadAll ["lib"]

/-- The statement `export import a as x, *, c, self from "lib"`. -/
def forwarding : Import where
  exported := true
  items := .list [.name ⟨"a", ⟨14, 15⟩⟩ (some ⟨"x", ⟨19, 20⟩⟩), .glob ⟨22, 23⟩, .name ⟨"c", ⟨25, 26⟩⟩ none, .self ⟨28, 32⟩ none]
  path := "lib"
  pathSpan := ⟨38, 43⟩
  span := ⟨0, 43⟩

/-- A module begins with an import statement: a name is kept as invalid, three are bound and offered, and one fault is reported. -/
theorem importStatement_binds_forwarding : ∃ path m,
    let r := Resolution.start (library.enter path "") 1 ⟨0, 43⟩
    let r' := after (importStatement Program.load forwarding true) r
    (r.program.load "lib").2.modules[0]? = some m ∧ m.faults = [] ∧
      forwarding.Binds true 0 m (r.program.load "lib").2 r r' ∧
      r'.scopes.bindings.toList.map Binding.name = ["c", "x", "b", "lib"] ∧
      (r'.program.exportsOf 1).names = ["x", "b", "lib"] ∧ r'.faults.length = 1 := by
  let path := (ModulePath.parse "main").toOption.get (by decide +kernel)
  let r := Resolution.start (library.enter path "") 1 ⟨0, 43⟩
  let r' := after (importStatement Program.load forwarding true) r
  have computed : (r.program.load "lib").1.toOption = some 0 ∧
      ((r.program.load "lib").2.modules[0]?.any fun m => m.faults.isEmpty) = true ∧ 1 < (r.program.load "lib").2.modules.size ∧
      r'.scopes.bindings.toList.map Binding.name = ["c", "x", "b", "lib"] ∧
      (r'.program.exportsOf 1).names = ["x", "b", "lib"] ∧ r'.faults.length = 1 := by
    decide +kernel
  obtain ⟨loaded, fine, size, result⟩ := computed
  obtain ⟨m, found, fine⟩ := (Option.any_eq_true _ _).1 fine
  have fine : m.faults = [] := List.isEmpty_iff.1 fine
  have answered : r.program.load forwarding.path = (.ok 0, (r.program.load "lib").2) := Prod.ext (Program.toOption_eq_some loaded) rfl
  exact ⟨path, m, found, fine, importStatement_binds true answered found (.inr fine) size, result⟩

end Resolve

end PipeLang
