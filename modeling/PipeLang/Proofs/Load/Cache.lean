import PipeLang.Proofs.Load.Prefix

/-!
# The cache of modules

Every path is loaded once, every text is parsed once, and what has been loaded stays as it is, but that a module
without faults may fail with a module that it imports: `Program.loadAll_cached`.
-/

namespace PipeLang

open Resolve (after Asks)

/-- A record of a module at a later time: nothing has changed, but that a module without faults may have failed with a
module that it imports. -/
def LoadedModule.Lasts (m m' : LoadedModule) : Prop :=
  m' = m ∨ m.faults = [] ∧ ∃ path site, m' = { m with faults := [.dependencyFailed path site] }

namespace LoadedModule.Lasts

variable {m m' m'' : LoadedModule}

lemma refl : m.Lasts m :=
  Or.inl rfl

lemma status (h : m.Lasts m') : m'.status = m.status := by
  rcases h with rfl | ⟨-, path, site, rfl⟩ <;> rfl

/-- A module fails once. -/
lemma trans (h : m.Lasts m') (h' : m'.Lasts m'') : m.Lasts m'' := by
  rcases h with rfl | ⟨none, path, site, rfl⟩
  · exact h'
  · rcases h' with rfl | ⟨none', -⟩
    · exact Or.inr ⟨none, path, site, rfl⟩
    · cases none'

end LoadedModule.Lasts

namespace Program

/-- The records of a program are found by their paths, and as many texts have been parsed. -/
structure Cached (p : Program) : Prop where
  found : ∀ {path : ModulePath} {i : Nat}, p.findPath? path = some i ↔ ∃ m, p.modules[i]? = some m ∧ m.path = path
  counted : p.parsed = p.modules.size

/-- A later program: the records have their places, and those of loaded modules last. -/
structure Extends (p p' : Program) : Prop where
  modules : ∀ {i : Nat} {m}, p.modules[i]? = some m → ∃ m', p'.modules[i]? = some m' ∧ m'.path = m.path ∧
    m'.status = m.status ∧ (m.status = .loaded → m.Lasts m')

/-- A later program in which the records of loaded modules last, whatever has become of the others. -/
def Remembers (p p' : Program) : Prop :=
  ∀ (i : Nat) m, p.modules[i]? = some m → m.status = .loaded → ∃ m', p'.modules[i]? = some m' ∧ m.Lasts m'

variable {p p' q : Program} {path : ModulePath} {id i : Nat}

/-! ### Places of records -/

/-- Paths are found if no two records have the same. -/
lemma findPath_iff (distinct : ∀ {i j : Nat} {m m'}, p.modules[i]? = some m → p.modules[j]? = some m' →
      m.path = m'.path → i = j) :
    p.findPath? path = some i ↔ ∃ m, p.modules[i]? = some m ∧ m.path = path := by
  constructor
  · intro known
    obtain ⟨inside, here, -⟩ := Array.findIdx?_eq_some_iff_getElem.1 known
    exact ⟨_, Array.getElem?_eq_getElem inside, of_decide_eq_true here⟩
  · rintro ⟨m, found, rfl⟩
    obtain ⟨inside, rfl⟩ := Array.getElem?_eq_some_iff.1 found
    refine Array.findIdx?_eq_some_iff_getElem.2 ⟨inside, decide_eq_true rfl, fun j before same => ?_⟩
    have := distinct (Array.getElem?_eq_getElem (Nat.lt_trans before inside)) found (of_decide_eq_true same)
    omega

lemma Cached.distinct (h : p.Cached) {i j : Nat} {m m' : LoadedModule} (found : p.modules[i]? = some m)
    (found' : p.modules[j]? = some m') (same : m.path = m'.path) : i = j := by
  have known := h.found.2 ⟨m, found, rfl⟩
  rw [same, h.found.2 ⟨m', found', rfl⟩, Option.some.injEq] at known
  exact known.symm

/-- A path that is not found has no record. -/
lemma Cached.unknown (h : p.Cached) (unknown : p.findPath? path = none) {m : LoadedModule}
    (found : p.modules[i]? = some m) : m.path ≠ path := by
  intro same
  rw [h.found.2 ⟨m, found, same⟩] at unknown
  cases unknown

/-- Records with the same paths in the same places are found alike. -/
lemma Cached.of_paths (h : p.Cached) (paths : ∀ i : Nat, p'.modules[i]?.map LoadedModule.path =
    p.modules[i]?.map LoadedModule.path) (parsed : p'.parsed = p.parsed) (size : p'.modules.size = p.modules.size) :
    p'.Cached := by
  have back {i : Nat} {m'} (found : p'.modules[i]? = some m') : ∃ m, p.modules[i]? = some m ∧ m.path = m'.path := by
    have same := paths i
    rw [found] at same
    exact Option.map_eq_some_iff.1 same.symm
  refine ⟨fun {path i} => findPath_iff fun {i j m m'} found found' same => ?_, parsed.trans (h.counted.trans size.symm)⟩
  obtain ⟨n, known, path⟩ := back found
  obtain ⟨n', known', path'⟩ := back found'
  exact h.distinct known known' (path.trans (same.trans path'.symm))

lemma Cached.modify {f : LoadedModule → LoadedModule} (h : p.Cached) (path : ∀ m, (f m).path = m.path) :
    (p.modify id f).Cached := by
  refine h.of_paths (fun i => ?_) rfl (by simp [Program.modify])
  rw [modify_modules]
  split
  · cases p.modules[i]? with
    | none => rfl
    | some m => simp [path]
  · rfl

lemma Cached.enter {source : String} (h : p.Cached) (unknown : p.findPath? path = none) :
    (p.enter path source).Cached := by
  refine ⟨fun {path' i} => findPath_iff fun {i j m m'} found found' same => ?_, ?_⟩
  · rw [enter_modules] at found found'
    split at found <;> split at found'
    · next here here' => exact here.trans here'.symm
    · cases found
      exact absurd same.symm (h.unknown unknown found')
    · cases found'
      exact absurd same (h.unknown unknown found)
    · exact h.distinct found found' same
  · simp [Program.enter, h.counted]

namespace Extends

lemma refl : p.Extends p where
  modules found := ⟨_, found, rfl, rfl, fun _ => .refl⟩

lemma trans (h : p.Extends p') (h' : p'.Extends q) : p.Extends q where
  modules found := by
    obtain ⟨m', found', path, status, lasts⟩ := h.modules found
    obtain ⟨m'', found'', path', status', lasts'⟩ := h'.modules found'
    refine ⟨m'', found'', path'.trans path, status'.trans status, fun loaded => ?_⟩
    exact (lasts loaded).trans (lasts' (status.trans loaded))

/-- Changes of the record of a module that is not loaded. -/
lemma modify_unloaded {f : LoadedModule → LoadedModule}
    (unloaded : ∀ m, p.modules[id]? = some m → m.status ≠ .loaded)
    (kept : ∀ m, (f m).path = m.path ∧ (f m).status = m.status) : p.Extends (p.modify id f) where
  modules {i m} found := by
    rw [modify_modules]
    split
    · next here =>
      subst here
      rw [found]
      exact ⟨_, rfl, (kept m).1, (kept m).2, fun loaded => absurd loaded (unloaded m found)⟩
    · exact ⟨m, found, rfl, rfl, fun _ => .refl⟩

/-- What is done to a new record does not matter to the others. -/
lemma modify_new {f : LoadedModule → LoadedModule} (h : p.Extends p') (fresh : p.modules.size ≤ id) :
    p.Extends (p'.modify id f) where
  modules {i m} found := by
    have old : id ≠ i := fun same => by simp [← same, Array.getElem?_eq_none fresh] at found
    rw [modify_modules, if_neg old]
    exact h.modules found

lemma remembers (h : p.Extends p') : p.Remembers p' := by
  intro i m found loaded
  obtain ⟨m', found', -, -, lasts⟩ := h.modules found
  exact ⟨m', found', lasts loaded⟩

end Extends

lemma Remembers.trans (h : p.Remembers p') (h' : p'.Remembers q) : p.Remembers q := by
  intro i m found loaded
  obtain ⟨m', found', lasts⟩ := h i m found loaded
  obtain ⟨m'', found'', lasts'⟩ := h' i m' found' (lasts.status.trans loaded)
  exact ⟨m'', found'', lasts.trans lasts'⟩

/-! ### Failing importers -/

section

variable {hits : List ImportEdge} {before behind : List ModuleId}

lemma Told.extends (h : Told hits p q before behind) : p.Extends q where
  modules found := by
    obtain ⟨m', found', rfl | ⟨none, -, -, f, passedOn, rfl⟩⟩ := h.modules found
    · exact ⟨_, found', rfl, rfl, fun _ => .refl⟩
    · refine ⟨_, found', rfl, rfl, fun _ => Or.inr ⟨none, ?_⟩⟩
      cases f with
      | dependencyFailed path site => exact ⟨path, site, rfl⟩
      | _ => cases passedOn

lemma Told.cached (h : Told hits p q before behind) (cached : p.Cached) (parsed : q.parsed = p.parsed) : q.Cached := by
  refine cached.of_paths (fun i => ?_) parsed h.size
  cases found : p.modules[i]? with
  | none => rw [Array.getElem?_eq_none (h.size ▸ Array.getElem?_eq_none_iff.1 found)]
  | some m =>
    obtain ⟨m', found', path, -⟩ := h.extends.modules found
    simp [found', path]

end

lemma failImporters_parsed (name : String) (failed : List ModuleId) (hits : List ImportEdge) :
    (failImporters name p failed hits).1.parsed = p.parsed := by
  induction hits generalizing p failed with
  | nil => rfl
  | cons e hits ih =>
    simp only [failImporters, failImporter]
    cases p.modules[e.importer]? with
    | none => exact ih failed
    | some m =>
      by_cases none : m.faults.isEmpty = true
      · simp only [none, if_true]
        exact ih _
      · simp only [none]
        exact ih failed

lemma dropEdgesInto_extends {target : ModuleId} : p.Extends (p.dropEdgesInto target) :=
  ⟨fun found => ⟨_, found, rfl, rfl, fun _ => .refl⟩⟩

lemma propagate_extends (dirty : List ModuleId) : p.Extends (p.propagate dirty) := by
  fun_induction Program.propagate p dirty with
  | case1 p => exact .refl
  | case2 p target pending hits none ih => exact ih
  | case3 p target pending hits some next ih =>
    have told : Told hits (p.dropEdgesInto target) next.1 [] next.2 := failImporters_told
    exact dropEdgesInto_extends.trans (told.extends.trans ih)

/-- Failing importers leaves every record in its place. -/
lemma Cached.propagate (dirty : List ModuleId) (h : p.Cached) : (p.propagate dirty).Cached := by
  fun_induction Program.propagate p dirty with
  | case1 p => exact h
  | case2 p target pending hits none ih => exact ih h
  | case3 p target pending hits some next ih =>
    have told : Told hits (p.dropEdgesInto target) next.1 [] next.2 := failImporters_told
    have dropped : (p.dropEdgesInto target).Cached := h.of_paths (fun _ => rfl) rfl rfl
    exact ih (told.cached dropped (failImporters_parsed _ _ _))

lemma finish_extends {faults : List Fault} (h : p.Extends p') (fresh : p.modules.size ≤ id) :
    p.Extends (p'.finish id faults) := by
  simp only [finish]
  split
  · split
    · exact h.modify_new fresh
    · exact (h.modify_new fresh).trans (propagate_extends [id])
  · exact h.modify_new fresh

lemma Cached.finish {faults : List Fault} (h : p.Cached) : (p.finish id faults).Cached := by
  have marked : (p.modify id fun m => { m with faults := m.faults ++ faults, status := .loaded }).Cached :=
    h.modify fun _ => rfl
  simp only [Program.finish]
  split
  · split
    · exact marked
    · exact marked.propagate [id]
  · exact marked

end Program

/-! ### Resolution -/

/-- A loader keeps records in their places, and those of loaded modules last. -/
structure Loader.Caches (load : Loader) : Prop where
  cached : ∀ {p : Program} (raw : String), p.Cached → (load p raw).2.Cached
  extend : ∀ (p : Program) (raw : String), p.Extends (load p raw).2

section

variable {load : Loader} {mentions : List Mention} {topLevel : Bool} {r r' : Resolution}

/-- The module that is being resolved is not loaded yet. -/
def Resolution.Unloaded (r : Resolution) : Prop :=
  ∃ m, r.program.modules[(r.home : Nat)]? = some m ∧ m.status = .loading

lemma Change.cached (caches : load.Caches) (h : Change load mentions topLevel r r') (cached : r.program.Cached) :
    r'.program.Cached := by
  cases h with
  | tables program => exact program ▸ cached
  | record | bind | redefine => exact cached
  | edge => exact cached.of_paths (fun _ => rfl) rfl rfl
  | load => exact caches.cached _ cached
  | forward | define | assembly => exact Program.Cached.modify cached fun _ => rfl

lemma Change.extends (caches : load.Caches) (h : Change load mentions topLevel r r') (unloaded : r.Unloaded) :
    r.program.Extends r'.program ∧ r'.Unloaded := by
  have extended (extension : r.program.Extends r'.program) (home : r'.home = r.home) :
      r.program.Extends r'.program ∧ r'.Unloaded := by
    obtain ⟨m, found, loading⟩ := unloaded
    obtain ⟨m', found', -, status, -⟩ := extension.modules found
    exact ⟨extension, m', by rw [home, found'], status.trans loading⟩
  have publishing {f : LoadedModule → LoadedModule} (kept : ∀ m, (f m).path = m.path ∧ (f m).status = m.status) :
      r.program.Extends (r.program.modify r.home f) := by
    refine .modify_unloaded (fun m found => ?_) kept
    obtain ⟨m', found', loading⟩ := unloaded
    rw [found, Option.some.injEq] at found'
    simp [found', loading]
  cases h with
  | tables program home => exact extended (program ▸ .refl) home
  | record | bind | redefine => exact extended .refl rfl
  | edge => exact extended ⟨fun found => ⟨_, found, rfl, rfl, fun _ => .refl⟩⟩ rfl
  | load => exact extended (caches.extend _ _) rfl
  | forward | define => exact extended (publishing (f := fun m => { m with exports := _ }) fun _ => ⟨rfl, rfl⟩) rfl
  | assembly =>
    exact extended (publishing (f := fun m => { m with exports := { m.exports with assembly := _ } }) fun _ => ⟨rfl, rfl⟩) rfl

/-- Changes keep records in their places, and the records of loaded modules as they are. -/
theorem Changes.caches (caches : load.Caches) (h : Changes load mentions topLevel r r') (unloaded : r.Unloaded) :
    (r.program.Cached → r'.program.Cached) ∧ r.program.Extends r'.program ∧ r'.Unloaded := by
  induction h with
  | refl => exact ⟨id, .refl, unloaded⟩
  | tail _ change ih =>
    obtain ⟨cached, extension, unloaded'⟩ := ih
    obtain ⟨extension', unloaded''⟩ := change.extends caches unloaded'
    exact ⟨change.cached caches ∘ cached, extension.trans extension', unloaded''⟩

end

namespace Program

variable {p q : Program} {path : ModulePath} {raw : String} {depth : Nat}

/-! ### Loading by cases -/

lemma loader_named (named : ModulePath.parse raw = .ok path) : loader depth p raw = p.loadPath depth path := by
  rw [loader, named]

lemma loadPath_found {id : Nat} (known : p.findPath? path = some id) : p.loadPath depth path = (.ok id, p) := by
  rw [loadPath, known]

lemma loadPath_unreadable {cause : LoadError} (unknown : p.findPath? path = none)
    (read : p.sources.read path = .error cause) : p.loadPath depth path = (.error cause, p) := by
  rw [loadPath, unknown, read]

lemma loadPath_tooDeep {source : String} (unknown : p.findPath? path = none) (read : p.sources.read path = .ok source) :
    p.loadPath 0 path = (.error (.tooDeep path.render), p) := by
  rw [loadPath, unknown, read]

lemma loadPath_malformed {source : String} {errors : List SyntaxError} (unknown : p.findPath? path = none)
    (read : p.sources.read path = .ok source) (parsed : Module.parse source = .error errors) :
    p.loadPath (depth + 1) path =
      (.ok p.modules.size, (p.enter path source).finish p.modules.size (errors.map .malformed)) := by
  have resolved := @resolveEntered_error (p.enter path source) p.modules.size (loader depth) source errors parsed
  rw [loadPath, unknown, read]
  show (_, (resolveEntered (loader depth) _ _ source).1.finish _ (resolveEntered (loader depth) _ _ source).2) = _
  rw [resolved]

/-- A module with its tables, before it is done. -/
def tabled (p : Program) (load : Loader) (path : ModulePath) (source : String) (ast : Module) : Program :=
  (p.resolution load path source ast).program.modify p.modules.size fun m =>
    { m with resolved := some (p.resolution load path source ast).resolved }

lemma loadPath_parsed {source : String} {ast : Module} (unknown : p.findPath? path = none)
    (read : p.sources.read path = .ok source) (parsed : Module.parse source = .ok ast) :
    p.loadPath (depth + 1) path = (.ok p.modules.size, (p.tabled (loader depth) path source ast).finish p.modules.size
      (p.resolution (loader depth) path source ast).faults) := by
  have resolved := @resolveEntered_ok (p.enter path source) p.modules.size (loader depth) source ast parsed
  rw [loadPath, unknown, read]
  show (_, (resolveEntered (loader depth) _ _ source).1.finish _ (resolveEntered (loader depth) _ _ source).2) = _
  rw [resolved]
  rfl

/-! ### Loaders -/

lemma enter_extends {source : String} : p.Extends (p.enter path source) :=
  ⟨fun found => ⟨_, enter_kept found, rfl, rfl, fun _ => .refl⟩⟩

lemma starting_extends {source : String} {ast : Module} : p.Extends (p.starting path source ast) :=
  enter_extends.modify_new (Nat.le_refl _)

lemma Cached.starting {source : String} {ast : Module} (h : p.Cached) (unknown : p.findPath? path = none) :
    (p.starting path source ast).Cached :=
  (h.enter unknown).modify fun _ => rfl

lemma starting_unloaded {source : String} {ast : Module} {range : Span} :
    (Resolution.start (p.starting path source ast) p.modules.size range).Unloaded :=
  ⟨_, starting_modules.trans (if_pos rfl), rfl⟩

lemma tabled_caches {load : Loader} (source : String) (ast : Module) (caches : load.Caches)
    (unknown : p.findPath? path = none) :
    (p.Cached → (p.tabled load path source ast).Cached) ∧ p.Extends (p.tabled load path source ast) := by
  obtain ⟨cached, extension, -⟩ := (Resolve.module_changes load ast
    (.start (p.starting path source ast) p.modules.size ast.span)).caches caches starting_unloaded
  have resolved : (p.resolution load path source ast).program =
      (after (Resolve.module load ast) (.start (p.starting path source ast) p.modules.size ast.span)).program := rfl
  rw [← resolved] at cached extension
  constructor
  · intro start
    have done := cached (start.starting unknown)
    exact Cached.modify done fun _ => rfl
  · have extended : p.Extends (p.resolution load path source ast).program := starting_extends.trans extension
    exact extended.modify_new (Nat.le_refl _)

lemma loadPath_caches (caches : (loader depth).Caches) : (p.Cached → (p.loadPath (depth + 1) path).2.Cached) ∧
    p.Extends (p.loadPath (depth + 1) path).2 := by
  cases unknown : p.findPath? path with
  | some id =>
    rw [loadPath_found unknown]
    exact ⟨fun cached => cached, .refl⟩
  | none =>
    cases read : p.sources.read path with
    | error cause =>
      rw [loadPath_unreadable unknown read]
      exact ⟨fun cached => cached, .refl⟩
    | ok source =>
      cases parsed : Module.parse source with
      | error errors =>
        rw [loadPath_malformed unknown read parsed]
        exact ⟨fun cached => (cached.enter unknown).finish, finish_extends enter_extends (Nat.le_refl _)⟩
      | ok ast =>
        obtain ⟨cached, extension⟩ := tabled_caches source ast caches unknown
        rw [loadPath_parsed unknown read parsed]
        exact ⟨fun start => (cached start).finish, finish_extends extension (Nat.le_refl _)⟩

/-- Without any depth left nothing is loaded. -/
lemma loader_zero {raw : String} : (loader 0 p raw).2 = p := by
  cases named : ModulePath.parse raw with
  | error cause => rw [loader, named]
  | ok path =>
    rw [loader_named named]
    cases known : p.findPath? path with
    | some id => rw [loadPath_found known]
    | none =>
      cases read : p.sources.read path with
      | error cause => rw [loadPath_unreadable known read]
      | ok source => rw [loadPath_tooDeep known read]

/-- Loaders keep records in their places and loaded modules as they are, at every depth. -/
theorem loader_caches (depth : Nat) : (loader depth).Caches := by
  induction depth with
  | zero => exact ⟨fun raw cached => loader_zero.symm ▸ cached, fun p raw => loader_zero.symm ▸ .refl⟩
  | succ depth ih =>
    have loads (p : Program) (raw : String) : (p.Cached → (loader (depth + 1) p raw).2.Cached) ∧
        p.Extends (loader (depth + 1) p raw).2 := by
      cases named : ModulePath.parse raw with
      | error cause =>
        rw [loader, named]
        exact ⟨id, .refl⟩
      | ok path =>
        rw [loader_named named]
        exact loadPath_caches ih
    exact ⟨fun {p} raw => (loads p raw).1, fun p raw => (loads p raw).2⟩

/-! ### Answers -/

/-- The record of a module keeps its path when the module is finished. -/
lemma finish_path (id : Nat) (faults : List Fault) {i : Nat} {m : LoadedModule} (found : p.modules[i]? = some m) :
    ∃ m', (p.finish id faults).modules[i]? = some m' ∧ m'.path = m.path := by
  let marked := p.modify id fun m => { m with faults := m.faults ++ faults, status := .loaded }
  obtain ⟨m₁, found₁, path₁⟩ : ∃ m₁, marked.modules[i]? = some m₁ ∧ m₁.path = m.path := by
    simp only [marked, modify_modules]
    split
    · exact ⟨_, congrArg (Option.map _) found, rfl⟩
    · exact ⟨m, found, rfl⟩
  obtain ⟨m₂, found₂, path₂, -⟩ := (propagate_extends [id]).modules found₁
  simp only [finish]
  split
  · split
    · exact ⟨m₁, found₁, path₁⟩
    · exact ⟨m₂, found₂, path₂.trans path₁⟩
  · exact ⟨m₁, found₁, path₁⟩

/-- A new module has the path that it was loaded for. -/
lemma loadPath_new (unknown : p.findPath? path = none) {id : Nat} (answer : (p.loadPath depth path).1 = .ok id) :
    ∃ m, (p.loadPath depth path).2.modules[id]? = some m ∧ m.path = path := by
  cases read : p.sources.read path with
  | error cause =>
    rw [loadPath_unreadable unknown read] at answer
    cases answer
  | ok source =>
    cases depth with
    | zero =>
      rw [loadPath_tooDeep unknown read] at answer
      cases answer
    | succ depth =>
      cases parsed : Module.parse source with
      | error errors =>
        rw [loadPath_malformed unknown read parsed] at answer ⊢
        cases answer
        obtain ⟨m, found, same⟩ := finish_path p.modules.size (errors.map .malformed)
          ((@enter_modules p path source p.modules.size).trans (if_pos rfl))
        exact ⟨m, found, same⟩
      | ok ast =>
        rw [loadPath_parsed unknown read parsed] at answer ⊢
        cases answer
        obtain ⟨-, extension, -⟩ := (Resolve.module_changes (loader depth) ast
          (.start (p.starting path source ast) p.modules.size ast.span)).caches (loader_caches depth) starting_unloaded
        obtain ⟨m, found, same, -⟩ := extension.modules
          ((@starting_modules p path source ast p.modules.size).trans (if_pos rfl))
        have tabled : (p.tabled (loader depth) path source ast).modules[p.modules.size]? =
            some { m with resolved := some (p.resolution (loader depth) path source ast).resolved } := by
          rw [Program.tabled, modify_modules, if_pos rfl]
          exact congrArg (Option.map _) found
        obtain ⟨m', found', same'⟩ := finish_path p.modules.size
          (p.resolution (loader depth) path source ast).faults tabled
        exact ⟨m', found', same'.trans same⟩

end Program

/-- A loader goes by the cache of a program when it is asked for what a text names: what is there it answers with, and
changes nothing; it also changes nothing when it refuses; what it answers with has the path, and modules that are loaded
already are remembered. -/
structure Loader.GoesByCache (load : Loader) (p : Program) (raw : String) : Prop where
  hit : ∀ {path i}, ModulePath.parse raw = .ok path → p.findPath? path = some i → load p raw = (.ok i, p)
  refused : ∀ {cause}, (load p raw).1 = .error cause → (load p raw).2 = p
  answered : ∀ {i}, (load p raw).1 = .ok i → ∃ path, ModulePath.parse raw = .ok path ∧
    (load p raw).2.findPath? path = some i
  remembers : p.Remembers (load p raw).2

namespace Program

variable {p : Program} {path : ModulePath} {raw : String} {depth : Nat} {a : Pending}

/-- A refused load has changed nothing. -/
lemma loadPath_refused {cause : LoadError} (answer : (p.loadPath depth path).1 = .error cause) :
    (p.loadPath depth path).2 = p := by
  have loadsTo := loadPath_loadsTo p depth path
  generalize p.loadPath depth path = result at loadsTo answer ⊢
  cases loadsTo with
  | found => rfl
  | refused => rfl
  | loaded => cases answer

theorem loader_goesByCache (cached : p.Cached) : (loader depth).GoesByCache p raw := by
  have remembers : p.Remembers (loader depth p raw).2 := ((loader_caches depth).extend p raw).remembers
  have cached' : (loader depth p raw).2.Cached := (loader_caches depth).cached raw cached
  cases named : ModulePath.parse raw with
  | error cause =>
    have refused : loader depth p raw = (.error (.invalidPath raw cause), p) := by rw [loader, named]
    refine ⟨fun named' => ?_, fun _ => by rw [refused], fun answer => ?_, remembers⟩
    · rw [named] at named'
      cases named'
    · rw [refused] at answer
      cases answer
  | ok path =>
    have asked : loader depth p raw = p.loadPath depth path := loader_named named
    refine ⟨fun named' known => ?_, fun answer => ?_, fun {i} answer => ⟨path, named, ?_⟩, remembers⟩
    · rw [named, Except.ok.injEq] at named'
      subst named'
      rw [asked, loadPath_found known]
    · rw [asked] at answer ⊢
      exact loadPath_refused answer
    · rw [asked] at answer cached' ⊢
      cases known : p.findPath? path with
      | some id =>
        rw [loadPath_found known] at answer ⊢
        cases answer
        exact known
      | none => exact cached'.found.2 (loadPath_new known answer)

/-! ### Nested loads -/

lemma Opens.caches (h : p.Opens raw depth a) : (p.Cached → a.resolution.program.Cached) ∧
    p.Extends a.resolution.program ∧ a.resolution.Unloaded := by
  have changes := h.changes
  cases h with
  | mk _ unknown =>
    obtain ⟨cached, extension, unloaded⟩ := changes.caches (loader_caches depth) starting_unloaded
    exact ⟨fun start => cached (start.starting unknown), starting_extends.trans extension, unloaded⟩

/-- While a load is under way, the program goes on to be cached. -/
lemma Loading.cached {p₀ : Program} {raw₀ : String} {pending : List Pending} (start : p₀.Cached)
    (loading : p₀.Loading raw₀ depth pending p raw) : p.Cached := by
  induction loading with
  | request => exact start
  | @nested depth pending p raw a s rest p' raw' _ opens _ asks ih =>
    obtain ⟨cached, -, unloaded⟩ := opens.caches
    obtain ⟨i, asking, -, -, rfl, changes⟩ := Statement.asks s asks
    exact (changes.caches (loader_caches depth) unloaded).1 (cached ih)

/-- When a module is done, the other modules that are loaded are remembered. -/
lemma Opens.remembers (h : p.Opens raw depth a) (unloaded : a.finished.Unloaded) (home : a.finished.home = a.home) :
    a.finished.program.Remembers (loader (depth + 1) p raw).2 := by
  intro i m found loaded
  obtain ⟨unfinished, found', loading⟩ := unloaded
  have other : (a.home : Nat) ≠ i := by
    rintro rfl
    rw [home, found, Option.some.injEq] at found'
    simp [← found', loaded] at loading
  let tabled := a.finished.program.modify a.home fun m => { m with resolved := some a.finished.resolved }
  let marked := tabled.modify a.home fun m => { m with faults := m.faults ++ a.finished.faults, status := .loaded }
  have there : marked.modules[i]? = some m := by
    simp only [marked, tabled, modify_modules, if_neg other, found]
  obtain ⟨m', found', lasts⟩ := (propagate_extends [a.home]).remembers i m there loaded
  rw [h.answered, ← h.home]
  show ∃ m', (tabled.finish a.home a.finished.faults).modules[i]? = some m' ∧ m.Lasts m'
  simp only [finish]
  split
  · split
    · exact ⟨m, there, .refl⟩
    · exact ⟨m', found', lasts⟩
  · exact ⟨m, there, .refl⟩

/-- Modules that are loaded when a request is answered are remembered while the load goes on. -/
lemma Loading.remembers {p₀ : Program} {raw₀ : String} {pending : List Pending}
    (loading : p₀.Loading raw₀ depth pending p raw) : (loader depth p raw).2.Remembers (p₀.load raw₀).2 := by
  induction loading with
  | request => exact Extends.refl.remembers
  | @nested depth pending p raw a s rest p' raw' _ opens next asks ih =>
    obtain ⟨-, -, unloaded⟩ := opens.caches
    have traced : Traced (loader depth) s.mentions true fun load => Resolve.statement load true none s :=
      Statement.top_traced s (List.Subset.refl _) none
    obtain ⟨-, asking, -, -, rfl, before, behind⟩ := traced.asks asks
    obtain ⟨-, -, m, found, loading⟩ := before.caches (loader_caches depth) unloaded
    obtain ⟨m', found', -, status, -⟩ := ((loader_caches depth).extend asking.program raw').modules found
    obtain ⟨-, extension, unloaded⟩ := behind.caches (loader_caches depth) ⟨m', found', status.trans loading⟩
    have remaining := Resolve.remaining_changes (loader depth) a.ast rest
      (after (Resolve.statement (loader depth) true none s) a.resolution)
    obtain ⟨-, extension', unloaded'⟩ := remaining.caches (loader_caches depth) unloaded
    have finished : a.finished = after (Resolve.remaining (loader depth) a.ast rest)
        (after (Resolve.statement (loader depth) true none s) a.resolution) := by
      rw [opens.finished, next]
      rfl
    have home : a.finished.home = a.home := by
      have sameHome := (opens.past next).resolution_home
      rw [Pending.past_resolution, opens.depth_eq] at sameHome
      rw [finished, (remaining.keeps (loader_keeps depth)).2]
      exact sameHome
    rw [← finished] at extension' unloaded'
    have answered := (extension.trans extension').remembers
    exact (answered.trans (opens.remembers unloaded' home)).trans ih

/-! ### Any loads -/

lemma loadAll_remembers (paths : List String) : p.Remembers (p.loadAll paths) := by
  induction paths generalizing p with
  | nil => exact Extends.refl.remembers
  | cons raw paths ih => exact ((loader_caches (p.sources.limit + 1)).extend p raw).remembers.trans ih

lemma Cached.loadAll (h : p.Cached) (paths : List String) : (p.loadAll paths).Cached := by
  induction paths generalizing p with
  | nil => exact h
  | cons raw paths ih => exact ih ((loader_caches (p.sources.limit + 1)).cached raw h)

lemma cached_new {sources : Sources} {policy : GlobPolicy} {hosts : Hosts} : (new sources policy hosts).Cached := by
  refine ⟨fun {path i} => findPath_iff fun found => ?_, rfl⟩
  simp [new] at found

/-- Behind any loads, the records of modules and their paths are one to one, the place of a record is what its path is
found by, as many texts have been parsed, and every module is loaded. Another load goes by this cache, and all records
last behind any further ones, but that a module without faults may fail once with a module that it imports. The same is
so for all requests that come up while modules are loaded in one another, and what is loaded when such a request is
answered lasts until the load is over. -/
theorem loadAll_cached (sources : Sources) (policy : GlobPolicy) (hosts : Hosts) (paths : List String) :
    let p := (new sources policy hosts).loadAll paths
    p.Cached ∧ (∀ {i : Nat} {m}, p.modules[i]? = some m → m.status = .loaded) ∧
      (∀ raw, Loader.GoesByCache load p raw) ∧ (∀ more, p.Remembers (p.loadAll more)) ∧
      ∀ {raw₀ depth pending q raw}, p.Loading raw₀ depth pending q raw →
        q.Cached ∧ (loader depth).GoesByCache q raw ∧ (loader depth q raw).2.Remembers (p.load raw₀).2 := by
  intro p
  have rest : p.AtRest := (atRest_new.loadAll paths).1
  have cached : p.Cached := cached_new.loadAll paths
  refine ⟨cached, rest.loaded, fun raw => ?_, loadAll_remembers, fun loading => ?_⟩
  · have same : p.load raw = loader (p.sources.limit + 1) p raw := rfl
    obtain ⟨hit, refused, answered, remembers⟩ : (loader (p.sources.limit + 1)).GoesByCache p raw :=
      loader_goesByCache cached
    rw [← same] at refused answered remembers
    exact ⟨fun named known => same.trans (hit named known), refused, answered, remembers⟩
  · have cached' := loading.cached cached
    exact ⟨cached', loader_goesByCache cached', loading.remembers⟩

end Program

end PipeLang
