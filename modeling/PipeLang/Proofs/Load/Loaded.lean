import PipeLang.Proofs.Load.Moves
import PipeLang.Proofs.Reader.Ordered
import PipeLang.Proofs.Resolve.LoopTags

/-!
# Loaded programs

Loading a module keeps a program sound, however deeply loads nest: `Program.loader_keepsSound`. Behind any loads a module
can be used exactly if its imports lead to no module with a fault of its own: `Program.usable_iff_imports`.
-/

namespace PipeLang

/-- What is not parsed has errors. -/
lemma Module.parse_errors {source : String} {errors : List SyntaxError} (h : Module.parse source = .error errors) :
    errors ≠ [] := by
  simp only [Module.parse] at h
  cases scanned : Token.scan source with
  | error found =>
    simp only [scanned, bind, Except.bind, Except.error.injEq] at h
    subst h
    simp only [Token.scan] at scanned
    split at scanned
    · cases scanned
    · next some =>
      cases scanned
      simpa using some
  | ok tokens =>
    simp only [scanned, bind, Except.bind, ofTokens] at h
    split at h
    · cases h
    · next errors' none read =>
      cases h
      exact none

/-- What is left of a module when it is done. -/
def LoadedModule.done (m : LoadedModule) (t : Option Resolved) (faults : List Fault) : LoadedModule :=
  { m with resolved := t, faults := m.faults ++ faults, status := .loaded }

/-- A module that is done is sound if what is left of it is settled, or it has a fault and no syntax. -/
lemma LoadedModule.Sound.done {p : Program} {leads : ModuleId → ModuleId → Prop} {id : ModuleId} {m : LoadedModule}
    {t : Option Resolved} {faults : List Fault} (h : m.Sound p leads id)
    (settled : ∀ t', t = some t' → ∃ ast clean, (m.done t faults).Settled p leads id t' ast clean)
    (usable : t = none → faults ≠ [] ∧ m.ast = none) : (m.done t faults).Sound p leads id where
  exports := h.exports
  settled resolved := settled _ resolved
  usable usable' := by
    cases known : t with
    | none => simp [LoadedModule.isUsable, LoadedModule.done, usable known] at usable'
    | some t => rfl
  parsed _ parsed := by
    cases known : t with
    | none => simp [LoadedModule.done, (usable known).2] at parsed
    | some t => rfl

namespace Program

open Resolve (after)

variable {p q : Program} {u : Underway} {id : Nat}

/-! ### What modules offer -/

lemma Told.offers {hits : List ImportEdge} {before after : List ModuleId} (h : Told hits p q before after)
    (offers : p.Offers) : q.Offers := by
  intro i m' found e member
  rw [h.size]
  obtain ⟨m, found', rfl | ⟨-, -, -, f, -, rfl⟩⟩ := h.back found
  · exact offers i _ found' e member
  · exact offers i m found' e member

lemma propagate_offers (dirty : List ModuleId) (offers : p.Offers) :
    (p.propagate dirty).Offers ∧ (p.propagate dirty).modules.size = p.modules.size ∧ p.Retains (p.propagate dirty) := by
  fun_induction Program.propagate p dirty with
  | case1 p => exact ⟨offers, rfl, .refl⟩
  | case2 p target pending hits none ih => exact ih offers
  | case3 p target pending hits some next ih =>
    have told : Told hits (p.dropEdgesInto target) next.1 [] next.2 := failImporters_told
    have dropped : p.Retains (p.dropEdgesInto target) := .of_modules rfl rfl
    obtain ⟨offers', size, retains⟩ := ih (told.offers offers)
    exact ⟨offers', size.trans told.size, (dropped.trans told.retains).trans retains⟩

lemma finish_offers (id : Nat) (faults : List Fault) (offers : p.Offers) :
    (p.finish id faults).Offers ∧ (p.finish id faults).modules.size = p.modules.size ∧ p.Retains (p.finish id faults) := by
  have offers' : (p.modify id fun m => { m with faults := m.faults ++ faults, status := .loaded }).Offers :=
    offers.modify fun m found e member => offers id m found e member
  have size : (p.modify id fun m => { m with faults := m.faults ++ faults, status := .loaded }).modules.size =
      p.modules.size := by simp [Program.modify]
  have retains : p.Retains (p.modify id fun m => { m with faults := m.faults ++ faults, status := .loaded }) :=
    modify_retains fun _ => rfl
  simp only [finish]
  split
  · split
    · exact ⟨offers', size, retains⟩
    · obtain ⟨offers'', size', retains'⟩ := propagate_offers [id] offers'
      exact ⟨offers'', size'.trans size, retains.trans retains'⟩
  · exact ⟨offers', size, retains⟩

lemma enter_retains {path : ModulePath} {source : String} : p.Retains (p.enter path source) := by
  refine ⟨rfl, by simp [enter], fun i => ?_⟩
  rw [exportsOf, exportsOf]
  cases found : p.modules[(i : Nat)]? with
  | none => exact List.nil_prefix
  | some m =>
    have inside := (Array.getElem?_eq_some_iff.1 found).1
    simp [enter, Array.getElem?_push, Nat.ne_of_lt inside, found]

lemma enter_offers {path : ModulePath} {source : String} (offers : p.Offers) : (p.enter path source).Offers := by
  intro i m found e member
  have size : (p.enter path source).modules.size = p.modules.size + 1 := by simp [enter]
  rw [size]
  simp only [enter, Array.getElem?_push] at found
  split at found
  · cases found
    simp [Exports.empty] at member
  · exact (offers i m found e member).mono (Nat.le_succ _)

/-- The loader of modules that are nested in others, up to a depth. -/
def loader (depth : Nat) : Loader := fun p raw =>
  match ModulePath.parse raw with
  | .ok path => p.loadPath depth path
  | .error cause => (.error (.invalidPath raw cause), p)

/-- What loading a path comes to, by cases. -/
inductive LoadsTo (depth : Nat) (p : Program) : Except LoadError ModuleId × Program → Prop where
  | found {id : Nat} :
    id < p.modules.size →
    LoadsTo depth p (.ok id, p)
  | refused {cause} :
    LoadsTo depth p (.error cause, p)
  | loaded {inner path source q faults} :
    depth = inner + 1 →
    resolveEntered (loader inner) (p.enter path source) p.modules.size source = (q, faults) →
    LoadsTo depth p (.ok p.modules.size, q.finish p.modules.size faults)

lemma loadPath_loadsTo (p : Program) (depth : Nat) (path : ModulePath) : LoadsTo depth p (p.loadPath depth path) := by
  unfold loadPath
  cases known : p.findPath? path with
  | some id =>
    obtain ⟨inside, -⟩ := Array.findIdx?_eq_some_iff_getElem.1 known
    exact .found inside
  | none =>
    cases read : p.sources.read path with
    | error cause => exact .refused
    | ok source =>
      cases depth with
      | zero => exact .refused
      | succ depth => exact .loaded rfl rfl

/-- A module that is about to be resolved has its syntax. -/
def withSyntax (p : Program) (id : ModuleId) (ast : Module) : Program :=
  p.modify id fun m => { m with ast := some ast }

lemma resolveEntered_ok {load : Loader} {source : String} {ast : Module} (parsed : Module.parse source = .ok ast) :
    resolveEntered load p id source =
      ((after (Resolve.module load ast) (.start (p.withSyntax id ast) id ast.span)).program.modify id fun m =>
        { m with
          resolved := some (after (Resolve.module load ast) (.start (p.withSyntax id ast) id ast.span)).resolved },
        (after (Resolve.module load ast) (.start (p.withSyntax id ast) id ast.span)).faults) := by
  simp only [resolveEntered, parsed]
  rfl

lemma resolveEntered_error {load : Loader} {source : String} {errors : List SyntaxError}
    (parsed : Module.parse source = .error errors) :
    resolveEntered load p id source = (p, errors.map .malformed) := by
  simp only [resolveEntered, parsed]

lemma withSyntax_offers {ast : Module} (offers : p.Offers) : (p.withSyntax id ast).Offers :=
  offers.modify fun m found e member => offers id m found e member

/-- Behind the resolution of a module, what it offers is in the program, and no module is lost and nothing that is
exported. -/
lemma resolveEntered_offers {load : Loader} {source : String} {faults : List Fault} (keeps : load.KeepsOffers)
    (answers : load.Answers) (offers : p.Offers) (inside : id < p.modules.size)
    (resolved : resolveEntered load p id source = (q, faults)) :
    q.Offers ∧ id < q.modules.size ∧ p.Retains q := by
  cases parsed : Module.parse source with
  | error errors =>
    rw [resolveEntered_error parsed, Prod.mk.injEq] at resolved
    obtain ⟨rfl, -⟩ := resolved
    exact ⟨offers, inside, .refl⟩
  | ok ast =>
    rw [resolveEntered_ok parsed, Prod.mk.injEq] at resolved
    obtain ⟨rfl, -⟩ := resolved
    obtain ⟨order, ordered⟩ := Module.parse_ordered parsed
    have inside' : id < (p.withSyntax id ast).modules.size := by simpa [withSyntax, Program.modify] using inside
    have done := Resolve.module_done keeps answers (withSyntax_offers offers) inside' order ordered
    obtain ⟨hi, moves⟩ := done.moves
    have home := moves.spread.home
    have resolves := moves.spread.program
    have tidy := done.tidy
    generalize after (Resolve.module load ast) (.start (p.withSyntax id ast) id ast.span) = r at home resolves tidy ⊢
    replace home : r.home = id := home
    have parses : p.Retains (p.withSyntax id ast) := modify_retains fun _ => rfl
    refine ⟨tidy.offers.modify fun m found e member => tidy.offers id m found e member, ?_,
      (parses.trans resolves).trans (modify_retains fun _ => rfl)⟩
    simpa [Program.modify, home] using tidy.home

/-- Loaders at every depth keep to what modules offer, and answer with modules of the program. -/
theorem loader_keepsOffers (depth : Nat) : (loader depth).KeepsOffers ∧ (loader depth).Answers := by
  induction depth using Nat.strongRecOn with
  | ind depth ih =>
    have loads {p : Program} {path : ModulePath} (offers : p.Offers) : (p.loadPath depth path).2.Offers ∧
        p.Retains (p.loadPath depth path).2 ∧
        ∀ id : Nat, (p.loadPath depth path).1 = .ok id → id < (p.loadPath depth path).2.modules.size := by
      have loadsTo := loadPath_loadsTo p depth path
      generalize p.loadPath depth path = result at loadsTo ⊢
      cases loadsTo with
      | found inside =>
        refine ⟨offers, .refl, fun id same => ?_⟩
        cases same
        exact inside
      | refused => exact ⟨offers, .refl, nofun⟩
      | @loaded inner path source q faults deeper resolved =>
        obtain ⟨keeps, answers⟩ := ih inner (by omega)
        have inside : p.modules.size < (p.enter path source).modules.size := by simp [enter]
        obtain ⟨offers', inside', retains⟩ := resolveEntered_offers keeps answers (enter_offers offers) inside resolved
        obtain ⟨offers'', size, retains'⟩ := finish_offers p.modules.size faults offers'
        refine ⟨offers'', (enter_retains.trans retains).trans retains', fun id same => ?_⟩
        cases same
        rwa [size]
    constructor
    · intro p raw offers
      simp only [loader]
      split
      · obtain ⟨offers', retains, -⟩ := loads offers
        exact ⟨offers', retains⟩
      · exact ⟨offers, .refl⟩
    · intro p raw id offers answer
      simp only [loader] at answer ⊢
      split at answer
      · obtain ⟨-, -, inside⟩ := loads offers
        exact inside id answer
      · cases answer

/-! ### Soundness -/

lemma enter_modules {path : ModulePath} {source : String} {i : Nat} : (p.enter path source).modules[i]? =
    if i = p.modules.size then some ⟨path, .loading, source, none, .empty, none, []⟩ else p.modules[i]? := by
  simp [enter, Array.getElem?_push]

lemma resolvedOf_enter {path : ModulePath} {source : String} : (p.enter path source).resolvedOf = p.resolvedOf := by
  funext i
  simp only [Program.resolvedOf, enter_modules]
  split
  · next new => simp [new]
  · rfl

lemma faultsOf_enter {path : ModulePath} {source : String} : (p.enter path source).faultsOf = p.faultsOf := by
  funext i
  simp only [Program.faultsOf, enter_modules]
  split
  · next new => simp [new]
  · rfl

/-- A program stays sound when a module is entered. -/
lemma Sound.enter {path : ModulePath} {source : String} (h : p.Sound u []) : (p.enter path source).Sound u [] := by
  refine h.of_same rfl (by simp [Program.enter]) resolvedOf_enter faultsOf_enter (fun {i m} found loaded => ?_)
    fun {i m} found => ?_
  all_goals
    rw [enter_modules] at found
    split at found
  · cases found
    cases loaded
  · exact ⟨m, found, loaded⟩
  · cases found
    exact LoadedModule.sound_entered path source
  · exact (h.module found).later enter_retains fun _ _ known => known

/-! ### Modules that are done -/

section

variable {m : LoadedModule} {t : Option Resolved} {faults : List Fault}

lemma modules_done (found : p.modules[id]? = some m) {i : Nat} : (p.modify id fun m => m.done t faults).modules[i]? =
    if i = id then some (m.done t faults) else p.modules[i]? := by
  rw [modify_modules]
  split
  · next same => simp [← same, found]
  · next other => rw [if_neg (Ne.symm other)]

lemma resolvedOf_done (found : p.modules[id]? = some m) (i : Nat) : (p.modify id fun m => m.done t faults).resolvedOf i =
    if i = id then t else p.resolvedOf i := by
  simp only [Program.resolvedOf, modules_done found]
  split <;> rfl

lemma faultsOf_done (found : p.modules[id]? = some m) (i : Nat) : (p.modify id fun m => m.done t faults).faultsOf i =
    if i = id then p.faultsOf i ++ faults else p.faultsOf i := by
  simp only [Program.faultsOf, modules_done found]
  split
  · next same => simp [same, found, LoadedModule.done]
  · rfl

lemma faultsOf_subset_done (found : p.modules[id]? = some m) (i : Nat) :
    p.faultsOf i ⊆ (p.modify id fun m => m.done t faults).faultsOf i := by
  rw [faultsOf_done found]
  split
  · exact List.subset_append_left _ _
  · exact List.Subset.refl _

lemma Fails.done {i : ModuleId} (failed : p.Fails i) (found : p.modules[id]? = some m) :
    (p.modify id fun m => m.done t faults).Fails i := by
  obtain ⟨f, member⟩ := List.exists_mem_of_ne_nil _ failed
  exact List.ne_nil_of_mem (faultsOf_subset_done found i member)

lemma FailsItself.done {i : ModuleId} (failed : p.FailsItself i) (found : p.modules[id]? = some m) :
    (p.modify id fun m => m.done t faults).FailsItself i := by
  obtain ⟨f, member, own⟩ := failed
  exact ⟨f, faultsOf_subset_done found i member, own⟩

/-- A module with faults of its own when it is done fails. -/
lemma fails_done (found : p.modules[id]? = some m) (faulty : faults ≠ []) : (p.modify id fun m => m.done t faults).Fails id := by
  rw [Fails, faultsOf_done found, if_pos rfl]
  exact List.append_ne_nil_of_right_ne_nil _ faulty

variable {u' : Underway}

/-- What a module has imported when it is done was under way before. -/
lemma leads_done (found : p.modules[id]? = some m) (unresolved : m.resolved = none)
    (imports : ∀ i j, u'.imports i j ↔ u.imports i j ∨ (i = id ∧ ∃ t' site, t = some t' ∧ t'.imports.get? site = some j)) :
    (p.modify id fun m => m.done t faults).Leads u = p.Leads u' := by
  funext i j
  simp only [Leads, Imports, resolvedOf_done found, imports, eq_iff_iff]
  by_cases same : i = id
  · have none : p.resolvedOf id = none := by rw [resolvedOf_some found, unresolved]
    simp [same, none, or_comm]
  · simp [same]

/-- A module that fails when it is done leads to one that fails by itself, if there is a cause for its faults. -/
lemma Sound.done_fails {dirty : List ModuleId} (h : p.Sound u' dirty) (found : p.modules[id]? = some m)
    (cause : faults ≠ [] → (∃ f ∈ faults, f.isPassedOn = false) ∨ ∃ j, u'.imports id j ∧ p.Fails j) {i : ModuleId}
    (failed : (p.modify id fun m => m.done t faults).Fails i) :
    ∃ j, Relation.ReflTransGen (p.Leads u') i j ∧ (p.modify id fun m => m.done t faults).FailsItself j := by
  by_cases before : p.Fails i
  · obtain ⟨j, way, itself⟩ := h.fails before
    exact ⟨j, way, itself.done found⟩
  · rw [Fails, faultsOf_done found] at failed
    split at failed
    · next same =>
      subst same
      rw [Fails, not_not] at before
      rw [before, List.nil_append] at failed
      rcases cause failed with ⟨f, member, own⟩ | ⟨j, known, failed'⟩
      · refine ⟨i, .refl, f, ?_, own⟩
        rw [faultsOf_done found, if_pos rfl]
        exact List.mem_append_right _ member
      · obtain ⟨k, way, itself⟩ := h.fails failed'
        exact ⟨k, .head (Or.inr known) way, itself.done found⟩
    · exact absurd failed before

/-- What is known of a module when it is done takes the place of what was under way. -/
lemma Sound.close {dirty : List ModuleId} (h : p.Sound u' []) (found : p.modules[id]? = some m) (unresolved : m.resolved = none)
    (imports : ∀ i j, u'.imports i j ↔
      u.imports i j ∨ (i = id ∧ ∃ t' site, t = some t' ∧ t'.imports.get? site = some j))
    (faulty : ∀ i, u'.faulty i → u.faulty i ∨ (i = id ∧ faults ≠ []))
    (cause : faults ≠ [] → (∃ f ∈ faults, f.isPassedOn = false) ∨ ∃ j, u'.imports id j ∧ p.Fails j)
    (settled : ∀ t', t = some t' → ∃ ast clean, (m.done t faults).Settled p (p.Leads u') id t' ast clean)
    (usable : t = none → faults ≠ [] ∧ m.ast = none)
    (listed : (p.modify id fun m => m.done t faults).Fails id → id ∈ dirty)
    (failed : ∀ t' ∈ dirty, (p.modify id fun m => m.done t faults).Fails t') :
    (p.modify id fun m => m.done t faults).Sound u dirty := by
  have size : (p.modify id fun m => m.done t faults).modules.size = p.modules.size := by simp [Program.modify]
  have leads : (p.modify id fun m => m.done t faults).Leads u = p.Leads u' := leads_done found unresolved imports
  have modules {i : Nat} {m'} (found' : (p.modify id fun m => m.done t faults).modules[i]? = some m') :
      m'.Sound (p.modify id fun m => m.done t faults) ((p.modify id fun m => m.done t faults).Leads u) i := by
    have sound : m'.Sound p (p.Leads u') i := by
      rw [modules_done found] at found'
      split at found'
      · next same =>
        cases found'
        exact same ▸ (h.module found).done settled usable
      · exact h.module found'
    rw [leads]
    exact sound.later (modify_retains fun _ => rfl) fun _ _ known => known
  exact {
    edges := fun e member => by
      rw [leads, size]
      exact h.edges e member
    told := fun e member m' found' loaded faulty' => by
      by_cases same : e.target = id
      · rw [same] at found' ⊢
        apply listed
        rwa [Fails, faultsOf_some found']
      · rw [modules_done found, if_neg same] at found'
        cases h.told e member m' found' loaded faulty'
    dirty := failed
    imports := fun {i j} known => by
      rw [leads] at known
      rw [size]
      obtain ⟨there, edge | failed' | faulty'⟩ := h.imports known
      · exact ⟨there, Or.inl edge⟩
      · exact ⟨there, Or.inr (Or.inl (failed'.done found))⟩
      · refine ⟨there, Or.inr ((faulty i faulty').symm.imp_left ?_)⟩
        rintro ⟨rfl, some⟩
        exact fails_done found some
    fails := leads ▸ h.done_fails found cause
    exports := fun found => (modules found).exports
    settled := fun found => (modules found).settled
    usable := fun found => (modules found).usable
    parsed := fun found => (modules found).parsed }

end

/-- A finished module has been told of to its importers if it fails. -/
lemma Sound.finish (p : Program) (id : Nat) (faults : List Fault)
    (sound : ∀ dirty : List ModuleId,
      ((p.modify id fun m => { m with faults := m.faults ++ faults, status := .loaded }).Fails id → id ∈ dirty) →
      (∀ t ∈ dirty, (p.modify id fun m => { m with faults := m.faults ++ faults, status := .loaded }).Fails t) →
      (p.modify id fun m => { m with faults := m.faults ++ faults, status := .loaded }).Sound u dirty) :
    (p.finish id faults).Sound u [] ∧
      (p.modify id fun m => { m with faults := m.faults ++ faults, status := .loaded }).Grows (p.finish id faults) := by
  simp only [Program.finish]
  generalize (p.modify id fun m => { m with faults := m.faults ++ faults, status := .loaded }) = q at sound ⊢
  cases found : q.modules[id]? with
  | none =>
    refine ⟨sound [] (fun failed => ?_) nofun, .refl⟩
    simp [Fails, faultsOf, found] at failed
  | some m =>
    by_cases none : m.faults = []
    · simp only [none, List.isEmpty_nil, if_true]
      refine ⟨sound [] (fun failed => ?_) nofun, .refl⟩
      rw [Fails, faultsOf_some found] at failed
      exact absurd none failed
    · simp only [List.isEmpty_iff, none, if_false]
      refine (sound [id] (fun _ => List.mem_singleton_self _) fun t member => ?_).propagate
      cases List.mem_singleton.1 member
      rwa [Fails, faultsOf_some found]

/-- Work on a new module that ends with the module done loses none of the others. -/
lemma Grows.closed {start worked final : Program} {t : Option Resolved} {faults : List Fault}
    (hosts : start.hosts = p.hosts) (kept : ∀ {i : Nat} {m}, p.modules[i]? = some m → start.modules[i]? = some m)
    (size : start.modules.size = p.modules.size + 1) (work : start.Grows worked)
    (finish : (worked.modify p.modules.size fun m => m.done t faults).Grows final) : p.Grows final where
  hosts := finish.hosts.trans (work.hosts.trans hosts)
  modules {i m} found := by
    have old : p.modules.size ≠ i := Nat.ne_of_gt (Array.getElem?_eq_some_iff.1 found).1
    obtain ⟨m', found', status, ast, resolved, faults⟩ := work.modules (kept found)
    obtain ⟨m'', found'', status', ast', resolved', faults'⟩ := finish.modules (i := i) (m := m') (by
      rw [modify_modules, if_neg old]
      exact found')
    exact ⟨m'', found'', status'.trans status, ast'.trans ast, resolved'.trans resolved, List.Subset.trans faults faults'⟩
  loading {i m'} found loading := by
    have inside := finish.loading found loading
    obtain ⟨m'', found', status, -⟩ := finish.modules (Array.getElem?_eq_getElem inside)
    rw [found, Option.some.injEq] at found'
    subst found'
    rw [loading] at status
    have known := Array.getElem?_eq_getElem inside
    generalize (worked.modify p.modules.size fun m => m.done t faults).modules[i] = m₁ at status known
    rw [modify_modules] at known
    split at known
    · obtain ⟨m, -, rfl⟩ := Option.map_eq_some_iff.1 known
      cases status
    · next other =>
      have := work.loading known status.symm
      rw [size] at this
      exact Nat.lt_of_le_of_ne (Nat.le_of_lt_succ this) (Ne.symm other)

/-- Changes of a module that come to the same. -/
lemma modify_congr {f g : LoadedModule → LoadedModule} (same : ∀ m, p.modules[id]? = some m → f m = g m) :
    p.modify id f = p.modify id g := by
  have modules : (p.modify id f).modules = (p.modify id g).modules := by
    apply Array.ext_getElem?
    intro i
    rw [modify_modules, modify_modules]
    split
    · next here =>
      subst here
      exact Option.map_congr fun m found => same m (Option.mem_def.1 found)
    · rfl
  simpa [Program.modify] using modules

/-- Changes of a module one after the other. -/
lemma modify_modify {f g : LoadedModule → LoadedModule} : (p.modify id f).modify id g = p.modify id (g ∘ f) := by
  have modules : ((p.modify id f).modify id g).modules = (p.modify id (g ∘ f)).modules := by
    apply Array.ext_getElem?
    intro i
    rw [modify_modules, modify_modules, modify_modules]
    split <;> simp
  simpa [Program.modify] using modules

lemma enter_kept {path : ModulePath} {source : String} {i : Nat} {m : LoadedModule} (found : p.modules[i]? = some m) :
    (p.enter path source).modules[i]? = some m := by
  rw [enter_modules, if_neg (Nat.ne_of_lt (Array.getElem?_eq_some_iff.1 found).1), found]

/-- A module that is not parsed fails by itself. -/
lemma Sound.malformed {path : ModulePath} {source : String} {errors : List SyntaxError} (h : p.Sound u [])
    (nonempty : errors ≠ []) :
    ((p.enter path source).finish p.modules.size (errors.map .malformed)).Sound u [] ∧
      p.Grows ((p.enter path source).finish p.modules.size (errors.map .malformed)) := by
  have size : (p.enter path source).modules.size = p.modules.size + 1 := by simp [Program.enter]
  have found := @enter_modules p path source p.modules.size
  rw [if_pos rfl] at found
  have done : (p.enter path source).modify p.modules.size (fun m =>
      { m with faults := m.faults ++ errors.map .malformed, status := .loaded }) =
      (p.enter path source).modify p.modules.size fun m => m.done none (errors.map .malformed) := by
    refine modify_congr fun m same => ?_
    rw [found, Option.some.injEq] at same
    rw [← same]
    rfl
  obtain ⟨e, rest, rfl⟩ := List.exists_cons_of_ne_nil nonempty
  obtain ⟨sound, grows⟩ := Sound.finish (u := u) (p.enter path source) p.modules.size ((e :: rest).map .malformed)
    fun dirty listed failed => by
      rw [done] at listed failed ⊢
      exact h.enter.close found rfl (fun i j => by simp) (fun i => Or.inl)
        (fun _ => Or.inl ⟨.malformed e, List.mem_cons_self, rfl⟩) nofun (fun _ => ⟨by simp, rfl⟩) listed failed
  rw [done] at grows
  have hosts : (p.enter path source).hosts = p.hosts := rfl
  exact ⟨sound, .closed hosts enter_kept size .refl grows⟩

/-- Resolving a module keeps the program sound. -/
lemma Sound.resolved {load : Loader} {path : ModulePath} {source : String} {ast : Module} {faults : List Fault}
    (keeps : load.KeepsOffers) (answers : load.Answers) (keepsSound : load.KeepsSound) (offers : p.Offers)
    (h : p.Sound u []) (parsed : Module.parse source = .ok ast)
    (result : resolveEntered load (p.enter path source) p.modules.size source = (q, faults)) :
    (q.finish p.modules.size faults).Sound u [] ∧ p.Grows (q.finish p.modules.size faults) := by
  let start := (p.enter path source).withSyntax p.modules.size ast
  have size : start.modules.size = p.modules.size + 1 := by simp [start, withSyntax, Program.modify, Program.enter]
  have found := @enter_modules p path source p.modules.size
  rw [if_pos rfl] at found
  have home : start.modules[p.modules.size]? =
      some ⟨path, .loading, source, some ast, .empty, none, []⟩ := by
    simp [start, withSyntax, modify_modules, found]
  have kept {i : Nat} {m} (found : p.modules[i]? = some m) : start.modules[i]? = some m := by
    have old : p.modules.size ≠ i := Nat.ne_of_gt (Array.getElem?_eq_some_iff.1 found).1
    simp only [start, withSyntax, modify_modules, if_neg old]
    exact enter_kept found
  have sound : start.Sound u [] := by
    refine h.enter.modify (modify_retains fun _ => rfl) (fun m same => ⟨rfl, rfl, rfl, Or.inr ?_⟩) fun m found e member =>
      h.enter.exports found e member
    rw [found, Option.some.injEq] at same
    subst same
    exact ⟨rfl, rfl⟩
  have offers' : start.Offers := withSyntax_offers (enter_offers offers)
  have inside : p.modules.size < start.modules.size := by omega
  obtain ⟨order, ordered⟩ := Module.parse_ordered parsed
  have done := Resolve.module_done keeps answers offers' inside order ordered
  rw [resolveEntered_ok parsed, Prod.mk.injEq] at result
  obtain ⟨rfl, rfl⟩ := result
  obtain ⟨hi, moves⟩ := done.moves
  have tidy := done.tidy
  obtain ⟨rSound, work⟩ := moves.sound keeps keepsSound (Resolution.tidy_start offers' inside)
    (Resolution.sound_start sound home rfl rfl rfl)
  have same := moves.spread.home
  have noneOpen := done.noneOpen
  have settled := done.settled
  have tags {loop : Span} {collected : List BindingId} : _ → ∀ id ∈ collected, _ :=
    @Module.loop_isTag ast load start p.modules.size loop collected
  clear done moves
  replace work : start.Grows (after (Resolve.module load ast) (.start start p.modules.size ast.span)).program := work
  replace same : (after (Resolve.module load ast) (.start start p.modules.size ast.span)).home = p.modules.size := same
  show ((_ : Program).finish p.modules.size _).Sound u [] ∧ p.Grows ((_ : Program).finish p.modules.size _)
  generalize after (Resolve.module load ast) (.start start p.modules.size ast.span) = r at *
  obtain ⟨m, found, -, parsed, unresolved⟩ := rSound.home
  rw [same] at found
  have doneTwice : (r.program.modify p.modules.size fun m => { m with resolved := some r.resolved }).modify
      p.modules.size (fun m => { m with faults := m.faults ++ r.faults, status := .loaded }) =
      r.program.modify p.modules.size fun m => m.done (some r.resolved) r.faults := modify_modify
  obtain ⟨finished, grows⟩ := Sound.finish (u := u)
    (r.program.modify p.modules.size fun m => { m with resolved := some r.resolved }) p.modules.size r.faults
    fun dirty listed failed => by
      rw [doneTwice] at listed failed ⊢
      refine rSound.program.close found unresolved (fun i j => ?_) (fun i => ?_) (fun faulty => ?_)
        (fun t' known => ?_) (by simp) listed failed
      · simp [Underway.plus, same, Resolution.resolved]
      · exact Or.imp_right fun own => ⟨own.1.trans same, own.2⟩
      · refine (rSound.faults faulty).imp_right fun passedOn => ?_
        obtain ⟨site, j, known, failed⟩ := passedOn
        exact ⟨j, Or.inr ⟨same.symm, site, known⟩, failed⟩
      · cases known
        have reached {s ref} (known : r.references.get? s = some ref) := rSound.references known
        rw [same] at reached
        exact ⟨ast, r.Clean, parsed, fun none => ⟨(List.append_eq_nil_iff.1 none).2, noneOpen⟩, tidy.nested,
          reached, tidy.references, rSound.host, fun _ _ => tidy.target_ne_host, tags, settled⟩
  rw [doneTwice] at grows
  have hosts : start.hosts = p.hosts := rfl
  exact ⟨finished, .closed hosts kept size work grows⟩

/-- Loaders at every depth keep programs sound. -/
theorem loader_keepsSound (depth : Nat) : (loader depth).KeepsSound := by
  induction depth using Nat.strongRecOn with
  | ind depth ih =>
    have loads {u : Underway} {p : Program} {path : ModulePath} (offers : p.Offers) (sound : p.Sound u []) :
        (p.loadPath depth path).2.Sound u [] ∧ p.Grows (p.loadPath depth path).2 := by
      have loadsTo := loadPath_loadsTo p depth path
      generalize p.loadPath depth path = result at loadsTo ⊢
      cases loadsTo with
      | found inside => exact ⟨sound, .refl⟩
      | refused => exact ⟨sound, .refl⟩
      | @loaded inner path source q faults deeper resolved =>
        obtain ⟨keeps, answers⟩ := loader_keepsOffers inner
        cases parsed : Module.parse source with
        | error errors =>
          rw [resolveEntered_error parsed, Prod.mk.injEq] at resolved
          obtain ⟨rfl, rfl⟩ := resolved
          exact sound.malformed (Module.parse_errors parsed)
        | ok ast => exact sound.resolved keeps answers (ih inner (by omega)) offers parsed resolved
    intro u p raw offers sound
    simp only [loader]
    split
    · exact loads offers sound
    · exact ⟨sound, .refl⟩

/-- A program behind a sequence of loads. -/
def loadAll (p : Program) (paths : List String) : Program :=
  paths.foldl (fun p raw => (p.load raw).2) p

/-- A program that no load is under way in. -/
structure AtRest (p : Program) : Prop where
  offers : p.Offers
  sound : p.Sound .none []
  loaded : ∀ {i : Nat} {m}, p.modules[i]? = some m → m.status = .loaded

lemma AtRest.load (h : p.AtRest) (raw : String) : (p.load raw).2.AtRest ∧ (p.load raw).2.hosts = p.hosts := by
  have same : p.load raw = loader (p.sources.limit + 1) p raw := rfl
  obtain ⟨sound, grows⟩ := loader_keepsSound (p.sources.limit + 1) .none p raw h.offers h.sound
  rw [same]
  refine ⟨⟨((loader_keepsOffers _).1 p raw h.offers).1, sound, fun {i m'} found => ?_⟩, grows.hosts⟩
  cases status : m'.status with
  | loaded => rfl
  | loading =>
    have inside := grows.loading found status
    obtain ⟨m'', found', status', -⟩ := grows.modules (Array.getElem?_eq_getElem inside)
    rw [found, Option.some.injEq] at found'
    subst found'
    rw [← status, status', h.loaded (Array.getElem?_eq_getElem inside)]

/-- No load is under way behind any loads, and the host functions are the same. -/
lemma AtRest.loadAll (h : p.AtRest) (paths : List String) :
    (p.loadAll paths).AtRest ∧ (p.loadAll paths).hosts = p.hosts := by
  induction paths generalizing p with
  | nil => exact ⟨h, rfl⟩
  | cons raw paths ih =>
    obtain ⟨loaded, hosts⟩ := h.load raw
    exact (ih loaded).imp_right fun same => same.trans hosts

lemma atRest_new {sources : Sources} {policy : GlobPolicy} {hosts : Hosts} : (new sources policy hosts).AtRest := by
  refine ⟨?_, ?_, ?_⟩
  · intro i m found
    simp [new] at found
  · refine ⟨nofun, nofun, nofun, fun known => ?_, fun failed => ?_, fun found => ?_, fun found => ?_, fun found => ?_,
      fun found => ?_⟩
    · rcases known with ⟨t, site, known, -⟩ | known
      · simp [resolvedOf, new] at known
      · cases known
    · simp [Fails, faultsOf, new] at failed
    all_goals simp [new] at found
  · intro i m found
    simp [new] at found

/-- Whether a module is there and can be used. -/
def Usable (p : Program) (id : ModuleId) : Prop :=
  ∃ m, p.modules[(id : Nat)]? = some m ∧ m.isUsable = true

lemma AtRest.usable_iff (h : p.AtRest) {id : Nat} : p.Usable id ↔ id < p.modules.size ∧ ¬ p.Fails id := by
  constructor
  · rintro ⟨m, found, usable⟩
    refine ⟨(Array.getElem?_eq_some_iff.1 found).1, ?_⟩
    simp [Fails, faultsOf_some found, (LoadedModule.isUsable_iff.1 usable).2]
  · rintro ⟨inside, fine⟩
    have found := Array.getElem?_eq_getElem inside
    rw [Fails, faultsOf_some found, not_not] at fine
    exact ⟨_, found, LoadedModule.isUsable_iff.2 ⟨h.loaded found, fine⟩⟩

lemma leads_none : p.Leads .none = p.Imports := by
  funext i j
  simp [Leads, Underway.none]

/-- What a usable module imports is usable. -/
lemma AtRest.import_usable (h : p.AtRest) {id target : ModuleId} (usable : p.Usable id)
    (imports : p.Imports id target) : p.Usable target := by
  obtain ⟨inside, edge | failed | faulty⟩ := h.sound.imports (Or.inl imports)
  · refine h.usable_iff.2 ⟨inside, fun failed => ?_⟩
    obtain ⟨e, member, -, rfl⟩ := edge
    have found := Array.getElem?_eq_getElem inside
    rw [Fails, faultsOf_some found] at failed
    cases h.sound.told e member _ found (h.loaded found) failed
  · exact absurd failed (h.usable_iff.1 usable).2
  · cases faulty

/-- What the imports of a usable module lead to is usable. -/
lemma AtRest.reached_usable (h : p.AtRest) {id other : ModuleId} (usable : p.Usable id)
    (way : Relation.ReflTransGen p.Imports id other) : p.Usable other := by
  induction way with
  | refl => exact usable
  | tail _ imports ih => exact h.import_usable ih imports

/-- Failure is passed on exactly: behind any loads, a module can be used exactly if its imports lead to no module with a
fault of its own. What a usable module imports can be used, and a module fails only where its imports lead to such a
fault. -/
theorem usable_iff_imports (sources : Sources) (policy : GlobPolicy) (hosts : Hosts) (paths : List String) (id : Nat) :
    let p := (new sources policy hosts).loadAll paths
    (p.Usable id ↔ id < p.modules.size ∧ ∀ other, Relation.ReflTransGen p.Imports id other → ¬ p.FailsItself other) ∧
      (p.Usable id → ∀ target, p.Imports id target → p.Usable target) ∧
      (p.Fails id → ∃ other, Relation.ReflTransGen p.Imports id other ∧ p.FailsItself other) := by
  intro p
  have rest : p.AtRest := (atRest_new.loadAll paths).1
  have fails (failed : p.Fails id) : ∃ other, Relation.ReflTransGen p.Imports id other ∧ p.FailsItself other :=
    leads_none ▸ rest.sound.fails failed
  refine ⟨⟨fun usable => ⟨(rest.usable_iff.1 usable).1, fun other way => ?_⟩, fun ⟨inside, fine⟩ => ?_⟩,
    fun usable target => rest.import_usable usable, fails⟩
  · rintro ⟨f, member, -⟩
    exact (rest.usable_iff.1 (rest.reached_usable usable way)).2 (List.ne_nil_of_mem member)
  · refine rest.usable_iff.2 ⟨inside, fun failed => ?_⟩
    obtain ⟨other, way, itself⟩ := fails failed
    exact fine other way itself

end Program

end PipeLang
