import PipeLang.Proofs.Load.Terminates

/-!
# Reloading

What the record of a module comes to when the module is resolved again, in a program where everything that it imports is
there. A module that is being loaded comes to the same record, for other numbers of modules, as long as the modules under
it do: `Program.Repeats.reloaded`. For imports without cycles there is a program in which every module comes to the record
that it has: `Program.exists_whole`.
-/

namespace PipeLang

open Resolve (after)
open Relation (TransGen)

/-- Paths with all that their imports lead to, without cycles. -/
structure Sources.Acyclic (s : Sources) (region : Set ModulePath) : Prop where
  closed : ∀ {path path'}, path ∈ region → s.Imports path path' → path' ∈ region
  acyclic : ∀ {path}, path ∈ region → ¬ TransGen s.Imports path path

/-- The number of paths that can be read and that the imports of a path lead to. -/
noncomputable def Sources.height (s : Sources) (readable : Finset ModulePath) (path : ModulePath) : Nat :=
  open Classical in (readable.filter fun path' => TransGen s.Imports path path').card

lemma Sources.height_lt {s : Sources} {readable : Finset ModulePath} {path path' : ModulePath}
    (way : TransGen s.Imports path path') (inside : path' ∈ readable) (acyclic : ¬ TransGen s.Imports path' path') :
    s.height readable path' < s.height readable path := by
  classical
  refine Finset.card_lt_card ⟨fun path'' member => ?_, fun all => ?_⟩
  · obtain ⟨inside', way'⟩ := Finset.mem_filter.1 member
    exact Finset.mem_filter.2 ⟨inside', way.trans way'⟩
  · exact acyclic (Finset.mem_filter.1 (all (Finset.mem_filter.2 ⟨inside, way⟩))).2

namespace Program

variable {p q whole : Program} {ren : ModuleId → ModuleId} {path : ModulePath} {home : ModuleId} {ast : Module}
  {region : Set ModulePath} {depth : Nat}

/-- A module that is loaded and that the imports of a path lead to. -/
def Beneath (p : Program) (path : ModulePath) (id : ModuleId) : Prop :=
  ∃ m, p.modules[(id : Nat)]? = some m ∧ m.status = .loaded ∧ TransGen p.sources.Imports path m.path

/-- The numbers of modules in another program that has modules of the same paths. -/
def Numbers (ren : ModuleId → ModuleId) (whole p : Program) : Prop :=
  ∀ {i : Nat} {m k}, p.modules[i]? = some m → whole.findPath? m.path = some k → ren i = k

/-- A program in which a module is about to be resolved again. -/
def reopened (p : Program) (id : ModuleId) (ast : Module) : Program :=
  p.modify id fun m => ⟨m.path, .loading, m.source, some ast, .empty, none, []⟩

/-- The state behind another resolution of a module when nothing is left to load. -/
def resolvedAgain (p : Program) (id : ModuleId) (ast : Module) : Resolution :=
  after (Resolve.module (loader 0) ast) (.start (p.reopened id ast) id ast.span)

/-- What the record of a module comes to when the module is loaded again and nothing else is left to load. -/
def reloaded (p : Program) (id : ModuleId) (m : LoadedModule) : LoadedModule :=
  match Module.parse m.source with
  | .ok ast =>
    let r := p.resolvedAgain id ast
    ⟨m.path, .loaded, m.source, some ast, r.program.exportsOf id, some r.resolved, r.faults⟩
  | .error errors => ⟨m.path, .loaded, m.source, none, .empty, none, errors.map .malformed⟩

/-- A program in which a module is being resolved again and offers some exports so far. -/
structure Reopened (whole : Program) (id : ModuleId) (ast : Module) (exports : Exports) (q : Program) : Prop where
  settings : q.settings = whole.settings
  modules : q.modules =
    (whole.modify id fun m => ⟨m.path, .loading, m.source, some ast, exports, none, []⟩).modules

/-- Modules are found alike where they have the same paths. -/
lemma findPath_congr (paths : ∀ i : Nat, q.modules[i]?.map LoadedModule.path = p.modules[i]?.map LoadedModule.path) :
    q.findPath? path = p.findPath? path := by
  have same : q.modules.map LoadedModule.path = p.modules.map LoadedModule.path := by
    apply Array.ext_getElem?
    intro i
    rw [Array.getElem?_map, Array.getElem?_map, paths]
  have alike (p : Program) :
      p.findPath? path = (p.modules.map LoadedModule.path).findIdx? fun path' => path' = path := by
    rw [Array.findIdx?_map]
    rfl
  rw [alike, alike, same]

section

variable {id : ModuleId}

namespace Reopened

variable {exports : Exports}

lemma exportsOf {n : LoadedModule} (h : Reopened whole id ast exports q) (found : whole.modules[(id : Nat)]? = some n) :
    q.exportsOf id = exports := by
  have there : q.modules[(id : Nat)]? = some ⟨n.path, .loading, n.source, some ast, exports, none, []⟩ := by
    rw [h.modules, modify_modules, if_pos rfl, found]
    rfl
  simp only [Program.exportsOf, there]

lemma other (h : Reopened whole id ast exports q) {j : ModuleId} (other : j ≠ id) :
    q.modules[(j : Nat)]? = whole.modules[(j : Nat)]? := by
  rw [h.modules, modify_modules, if_neg (Ne.symm other)]

lemma addEdge (h : Reopened whole id ast exports q) {e : ImportEdge} : Reopened whole id ast exports (q.addEdge e) :=
  ⟨h.settings, h.modules⟩

lemma offer (h : Reopened whole id ast exports q) (f : Exports → Exports) :
    Reopened whole id ast (f exports) (q.offer id f) := by
  refine ⟨h.settings, ?_⟩
  apply Array.ext_getElem?
  intro i
  rw [Program.offer, modify_modules, h.modules, modify_modules, modify_modules]
  split
  · cases whole.modules[i]? <;> rfl
  · rfl

/-- Modules are found alike. -/
lemma findPath (h : Reopened whole id ast exports q) : q.findPath? path = whole.findPath? path := by
  refine findPath_congr fun i => ?_
  rw [h.modules, modify_modules]
  split
  · cases whole.modules[i]? <;> rfl
  · rfl

end Reopened

/-- Where nothing is left to load, answers depend only on what is found by its path. -/
lemma loader_zero_congr {raw : String} (settings : q.settings = whole.settings)
    (found : ∀ path, q.findPath? path = whole.findPath? path) : (loader 0 q raw).1 = (loader 0 whole raw).1 := by
  have sources : q.sources = whole.sources := sources_of_settings settings
  simp only [loader]
  cases ModulePath.parse raw with
  | error cause => rfl
  | ok path =>
    simp only [loadPath, found path, sources]
    cases whole.findPath? path with
    | some id => rfl
    | none =>
      cases whole.sources.read path <;> rfl

end

/-- Where nothing is left to load, a module that is answered is found by its path. -/
lemma loader_zero_found {raw : String} {j : ModuleId} (answer : (loader 0 p raw).1 = .ok j) :
    ∃ path, ModulePath.parse raw = .ok path ∧ p.findPath? path = some j := by
  cases named : ModulePath.parse raw with
  | error cause =>
    rw [loader, named] at answer
    cases answer
  | ok path =>
    refine ⟨path, rfl, ?_⟩
    rw [loader_named named] at answer
    cases known : p.findPath? path with
    | some id =>
      rw [loadPath_found known] at answer
      cases answer
      rfl
    | none =>
      cases read : p.sources.read path with
      | error cause =>
        rw [loadPath_unreadable known read] at answer
        cases answer
      | ok source =>
        rw [loadPath_tooDeep known read] at answer
        cases answer

/-! ### Resolving a module again -/

/-- The programs in which a module of some path is being resolved, against a whole program in which it is resolved again:
what the imports lead to is there with the same records, and when a module is asked for, the whole program has it. -/
structure Repeats (whole : Program) (ren : ModuleId → ModuleId) (path : ModulePath) (home : ModuleId) (depth : Nat)
    (mentions : List Mention) (good : Program → Prop) : Prop where
  settings : ∀ {p}, good p → p.settings = whole.settings
  inside : ∀ {p}, good p → (home : Nat) < p.modules.size
  shown : ∀ {p} {j : ModuleId} {m}, good p → p.Beneath path j → p.modules[(j : Nat)]? = some m →
    j ≠ home ∧ whole.modules[(ren j : Nat)]? = some (m.rename ren) ∧ ∀ e ∈ m.exports.entries, e.target.Known (p.Beneath path)
  edge : ∀ {p target} site, p.Beneath path target → good p → good (p.addEdge ⟨home, target, site⟩)
  offer : ∀ {p} f, good p → good (p.offer home f)
  load : ∀ {p i}, .importing i ∈ mentions → good p → Numbers ren whole (loader depth p i.path).2 →
    good (loader depth p i.path).2 ∧ (loader 0 whole i.path).1 = (loader depth p i.path).1.map ren ∧
      ∀ id, (loader depth p i.path).1 = .ok id → (loader depth p i.path).2.Beneath path id

/-- The mirror between a program in which a module is being resolved and the whole program. -/
def repeating (whole : Program) (ren : ModuleId → ModuleId) (path : ModulePath) (home : ModuleId) (ast : Module)
    (good : Program → Prop) : Mirror where
  rename := ren
  home := home
  alike p q := good p ∧ Reopened whole (ren home) ast ((p.exportsOf home).rename ren) q
  known p := p.Beneath path
  fits := Numbers ren whole

lemma Beneath.offer {id i : ModuleId} {f : Exports → Exports} (h : p.Beneath path i) :
    (p.offer id f).Beneath path i := by
  obtain ⟨m, found, loaded, way⟩ := h
  simp only [Beneath, Program.offer, modify_modules]
  split
  · exact ⟨_, congrArg (Option.map _) found, loaded, way⟩
  · exact ⟨m, found, loaded, way⟩

lemma Beneath.load {i : ModuleId} {raw : String} (h : p.Beneath path i) : (loader depth p raw).2.Beneath path i := by
  obtain ⟨m, found, loaded, way⟩ := h
  obtain ⟨m', found', path', status, -⟩ := ((loader_caches depth).extend p raw).modules found
  have sources : (loader depth p raw).2.sources = p.sources := sources_of_settings (loader_settings depth p raw)
  exact ⟨m', found', status.trans loaded, sources ▸ path' ▸ way⟩

lemma Numbers.of_paths (h : Numbers ren whole q)
    (paths : ∀ {i : Nat} {m}, p.modules[i]? = some m → ∃ m', q.modules[i]? = some m' ∧ m'.path = m.path) :
    Numbers ren whole p := by
  intro i m k found known
  obtain ⟨m', found', path⟩ := paths found
  exact h found' (path ▸ known)

lemma exportsOf_offer_of_lt {id : ModuleId} {f : Exports → Exports} (inside : (id : Nat) < p.modules.size) :
    (p.offer id f).exportsOf id = f (p.exportsOf id) := by
  have found := Array.getElem?_eq_getElem inside
  simp only [exportsOf, Program.offer, modify_modules, if_pos, found, Option.map_some]

lemma Repeats.reflects {mentions : List Mention} {good : Program → Prop} {n : LoadedModule}
    (h : Repeats whole ren path home depth mentions good) (injective : Function.Injective ren)
    (there : whole.modules[(ren home : Nat)]? = some n) :
    (repeating whole ren path home ast good).Reflects (loader depth) (loader 0) mentions where
  injective := injective
  policy alike := congrArg (·.2.1) (alike.2.settings.trans (h.settings alike.1).symm)
  hosts alike := congrArg (·.2.2) (alike.2.settings.trans (h.settings alike.1).symm)
  missing := by
    rintro p q id - ⟨m, found, -⟩ missing
    rw [found] at missing
    cases missing
  shown := by
    rintro p q id m ⟨known, same⟩ beneath found
    obtain ⟨other, shown, targets⟩ := h.shown known beneath found
    have elsewhere : ren id ≠ ren home := injective.ne other
    exact ⟨m.rename ren, (same.other elsewhere).trans shown, ⟨rfl, rfl, Iff.rfl, rfl⟩, targets⟩
  offered alike := alike.2.exportsOf there
  edge site beneath alike := ⟨h.edge site beneath alike.1, alike.2.addEdge⟩
  edgeOnward _ _ := ⟨fun _ => id, id⟩
  offer := by
    rintro p q f g same ⟨known, shown⟩
    have same : ∀ t, g (t.rename ren) = (f t).rename ren := same
    refine ⟨h.offer f known, ?_⟩
    show Reopened whole (ren home) ast (((p.offer home f).exportsOf home).rename ren) (q.offer (ren home) g)
    rw [exportsOf_offer_of_lt (h.inside known), ← same]
    exact shown.offer g
  offerOnward _ _ _ := ⟨fun _ => .offer, fun numbers => numbers.of_paths offer_paths⟩
  loads := by
    rintro p q i member ⟨known, shown⟩ numbers
    obtain ⟨known', answers, beneath⟩ := h.load member known numbers
    have offered : (loader depth p i.path).2.exportsOf home = p.exportsOf home :=
      ((loader_keeps depth) p i.path).exportsOf (h.inside known) not_false
    have same : (loader 0 q i.path).1 = (loader depth p i.path).1.map ren :=
      (loader_zero_congr shown.settings fun _ => shown.findPath).trans answers
    refine ⟨⟨known', ?_⟩, ?_, offered⟩
    · rw [loader_zero, offered]
      exact shown
    · rw [same]
      cases answer : (loader depth p i.path).1 with
      | error cause => exact .refused
      | ok id => exact .found (beneath id answer)
  loadsOnward p raw := by
    refine ⟨fun _ => .load, fun numbers => numbers.of_paths ?_⟩
    exact ((loader_caches depth).extend p raw).paths

/-- A resolution comes to the same when the module is resolved again in a whole program. -/
theorem Repeats.resolvedAgain {good : Program → Prop} {n : LoadedModule}
    (h : Repeats whole ren path home depth (Statement.allMentions ast.statements) good) (injective : Function.Injective ren)
    (there : whole.modules[(ren home : Nat)]? = some n) (start : good p) (new : p.exportsOf home = .empty)
    (numbers : Numbers ren whole (after (Resolve.module (loader depth) ast) (.start p home ast.span)).program) :
    let r := after (Resolve.module (loader depth) ast) (.start p home ast.span)
    good r.program ∧ (∀ e ∈ (r.program.exportsOf home).entries, e.target.Known (r.program.Beneath path)) ∧
      (whole.resolvedAgain (ren home) ast).resolved = r.resolved.rename ren ∧
      (whole.resolvedAgain (ren home) ast).faults = r.faults ∧
      (whole.resolvedAgain (ren home) ast).program.exportsOf (ren home) = (r.program.exportsOf home).rename ren := by
  intro r
  let c : Mirror := repeating whole ren path home ast good
  have reflects : c.Reflects (loader depth) (loader 0) (Statement.allMentions ast.statements) := h.reflects injective there
  have opened : Reopened whole (ren home) ast ((p.exportsOf home).rename ren) (whole.reopened (ren home) ast) := by
    rw [new, Exports.empty_rename]
    exact ⟨rfl, rfl⟩
  have related : c.Relates (.start p home ast.span) (.start (whole.reopened (ren home) ast) (ren home) ast.span) := by
    refine ⟨?_, ⟨start, opened⟩, rfl, fun b member => ?_, fun e member => ?_⟩
    · simp [Resolution.start, Resolution.seenAs, c, repeating]
    · simp [Resolution.start, Scopes.new] at member
    · have none : (p.exportsOf home).entries = [] := by rw [new]; rfl
      have member' : e ∈ (p.exportsOf home).entries := member
      rw [none] at member'
      cases member'
  obtain ⟨related', -⟩ := (Resolve.module_mirrored reflects ast (List.Subset.refl _)).relates related trivial numbers
  have seen := related'.seen
  have faults := congrArg Resolution.faults seen
  have resolved := congrArg Resolution.resolved seen
  exact ⟨related'.program.1, related'.offers, resolved, faults, related'.program.2.exportsOf there⟩

/-! ### Whole programs -/

/-- A program in which modules of some paths are loaded, with offers from under them only. -/
structure Settled (region : Set ModulePath) (p : Program) : Prop where
  cached : p.Cached
  loaded : ∀ {i : Nat} {m}, p.modules[i]? = some m → m.status = .loaded
  inside : ∀ {i : Nat} {m}, p.modules[i]? = some m → m.path ∈ region ∧ p.sources.read m.path = .ok m.source
  offers : ∀ {i : Nat} {m}, p.modules[i]? = some m → ∀ e ∈ m.exports.entries, e.target.Known (p.Beneath m.path)

/-- A program that is whole: all paths of a region that can be read are loaded, and every module has the record that it
comes to when it is resolved again. -/
structure Whole (region : Set ModulePath) (p : Program) : Prop extends Settled region p where
  complete : ∀ {path source}, path ∈ region → p.sources.read path = .ok source → ∃ k, p.findPath? path = some k
  again : ∀ {i : Nat} {m}, p.modules[i]? = some m → p.reloaded i m = m

lemma Beneath.through {path' : ModulePath} {j : ModuleId} (h : p.Beneath path' j)
    (way : TransGen p.sources.Imports path path') : p.Beneath path j := by
  obtain ⟨m, found, loaded, way'⟩ := h
  exact ⟨m, found, loaded, way.trans way'⟩

/-- What is loaded under a path while a module is resolved again is loaded under it before. -/
lemma Reopened.beneath {exports : Exports} (h : Reopened p home ast exports q) {j : ModuleId}
    (beneath : q.Beneath path j) : j ≠ home ∧ p.Beneath path j := by
  obtain ⟨m, found, loaded, way⟩ := beneath
  have other : j ≠ home := by
    rintro rfl
    rw [h.modules, modify_modules, if_pos rfl] at found
    obtain ⟨n, -, rfl⟩ := Option.map_eq_some_iff.1 found
    cases loaded
  have sources : q.sources = p.sources := sources_of_settings h.settings
  exact ⟨other, m, h.other other ▸ found, loaded, sources ▸ way⟩

namespace Settled

/-- The states of a program in which one module is being resolved again. -/
lemma repeats {m : LoadedModule} (h : p.Settled region) (acyclic : p.sources.Acyclic region)
    (settings : whole.settings = p.settings) (same : ∀ path, whole.findPath? path = p.findPath? path)
    (found : p.modules[(home : Nat)]? = some m) (parsed : Module.parse m.source = .ok ast)
    (agree : ∀ j, p.Beneath m.path j → whole.modules[(j : Nat)]? = p.modules[(j : Nat)]?) :
    Repeats whole id m.path home 0 (Statement.allMentions ast.statements) fun q => ∃ exports,
      Reopened p home ast exports q := by
  have sources {q exports} (good : Reopened p home ast exports q) : q.sources = p.sources :=
    sources_of_settings good.settings
  have inside := h.inside found
  have apart {j : ModuleId} {m'} (found' : p.modules[(j : Nat)]? = some m')
      (way : TransGen p.sources.Imports m.path m'.path) : j ≠ home := by
    rintro rfl
    rw [found, Option.some.injEq] at found'
    exact acyclic.acyclic inside.1 (found' ▸ way)
  have forth {q exports} (good : Reopened p home ast exports q) {j : ModuleId} (beneath : p.Beneath m.path j) :
      q.Beneath m.path j := by
    obtain ⟨m', found', loaded, way⟩ := beneath
    exact ⟨m', (good.other (apart found' way)).trans found', loaded, (sources good).symm ▸ way⟩
  constructor
  · rintro q ⟨exports, good⟩
    exact good.settings.trans settings.symm
  · rintro q ⟨exports, good⟩
    rw [good.modules]
    simpa [Program.modify] using (Array.getElem?_eq_some_iff.1 found).1
  · rintro q j m' ⟨exports, good⟩ beneath found'
    obtain ⟨other, beneath'⟩ := good.beneath beneath
    rw [good.other other] at found'
    refine ⟨other, ?_, fun e member => ?_⟩
    · rw [LoadedModule.rename_id]
      exact (agree j beneath').trans found'
    · obtain ⟨m'', found'', -, way⟩ := beneath'
      rw [found', Option.some.injEq] at found''
      subst found''
      exact (h.offers found' e member).mono fun i under => forth good (under.through way)
  · rintro q target site - ⟨exports, good⟩
    exact ⟨exports, good.addEdge⟩
  · rintro q f ⟨exports, good⟩
    exact ⟨f exports, good.offer f⟩
  · rintro q i member ⟨exports, good⟩ -
    rw [loader_zero]
    refine ⟨⟨exports, good⟩, ?_, fun j answer => ?_⟩
    · have alike : (loader 0 whole i.path).1 = (loader 0 q i.path).1 :=
        loader_zero_congr (settings.trans good.settings.symm) fun path => (same path).trans good.findPath.symm
      rw [alike]
      cases (loader 0 q i.path).1 <;> rfl
    · obtain ⟨path, named, known⟩ := loader_zero_found answer
      rw [good.findPath] at known
      obtain ⟨m', found', rfl⟩ := h.cached.found.1 known
      have way : TransGen p.sources.Imports m.path m'.path := .single ⟨_, ast, i, inside.2, parsed, member, named⟩
      exact forth good ⟨m', found', h.loaded found', way⟩

lemma reopened_home {m : LoadedModule} (found : p.modules[(home : Nat)]? = some m) :
    (p.reopened home ast).modules[(home : Nat)]? = some ⟨m.path, .loading, m.source, some ast, .empty, none, []⟩ := by
  rw [reopened, modify_modules, if_pos rfl, found]
  rfl

/-- While a module is resolved again, all modules keep their numbers. -/
lemma numbers {m : LoadedModule} (h : p.Settled region) (same : ∀ path, whole.findPath? path = p.findPath? path)
    (found : p.modules[(home : Nat)]? = some m) : Numbers id whole (p.resolvedAgain home ast).program := by
  have unloaded : (Resolution.start (p.reopened home ast) home ast.span).Unloaded := ⟨_, reopened_home found, rfl⟩
  obtain ⟨cached, extension, -⟩ := (Resolve.module_changes (loader 0) ast
    (.start (p.reopened home ast) home ast.span)).caches (loader_caches 0) unloaded
  intro i m' k found' known
  rw [same] at known
  obtain ⟨n, there, path⟩ := h.cached.found.1 known
  obtain ⟨n', there', path'⟩ : ∃ n', (p.reopened home ast).modules[(k : Nat)]? = some n' ∧ n'.path = n.path := by
    rw [reopened, modify_modules]
    split
    · exact ⟨_, congrArg (Option.map _) there, rfl⟩
    · exact ⟨n, there, rfl⟩
  obtain ⟨n'', there'', path'', -⟩ := extension.modules there'
  have reopened : (p.reopened home ast).Cached := h.cached.modify fun _ => rfl
  exact (cached reopened).distinct found' there'' (path.symm.trans (path'.symm.trans path''.symm))

/-- A module comes to the same when it is resolved again in programs that agree under it. -/
lemma reloaded_congr {m n : LoadedModule} (h : p.Settled region) (acyclic : p.sources.Acyclic region)
    (settings : whole.settings = p.settings) (same : ∀ path, whole.findPath? path = p.findPath? path)
    (found : p.modules[(home : Nat)]? = some m) (there : whole.modules[(home : Nat)]? = some n)
    (agree : ∀ j, p.Beneath m.path j → whole.modules[(j : Nat)]? = p.modules[(j : Nat)]?) :
    whole.reloaded home m = p.reloaded home m ∧
      ∀ e ∈ (p.reloaded home m).exports.entries, e.target.Known (p.Beneath m.path) := by
  simp only [reloaded]
  cases parsed : Module.parse m.source with
  | error errors => exact ⟨rfl, nofun⟩
  | ok ast =>
    have repeats : Repeats whole id m.path home 0 (Statement.allMentions ast.statements) fun q => ∃ exports,
        Reopened p home ast exports q := h.repeats acyclic settings same found parsed agree
    have new : (p.reopened home ast).exportsOf home = .empty := by
      simp only [exportsOf, reopened_home found]
    let r := p.resolvedAgain home ast
    obtain ⟨⟨exports, good⟩, targets, resolved, faults, offers⟩ : (∃ exports, Reopened p home ast exports r.program) ∧
        (∀ e ∈ (r.program.exportsOf home).entries, e.target.Known (r.program.Beneath m.path)) ∧
        (whole.resolvedAgain home ast).resolved = r.resolved.rename id ∧ (whole.resolvedAgain home ast).faults = r.faults ∧
        (whole.resolvedAgain home ast).program.exportsOf home = (r.program.exportsOf home).rename id := by
      have start : ∃ exports, Reopened p home ast exports (p.reopened home ast) := ⟨.empty, rfl, rfl⟩
      have numbers : Numbers id whole r.program := h.numbers same found
      exact repeats.resolvedAgain Function.injective_id there start new numbers
    rw [Resolved.rename_id] at resolved
    rw [Exports.rename_id] at offers
    refine ⟨by simp only [resolved, faults, offers, r], fun e member => ?_⟩
    exact (targets e member).mono fun j beneath => (good.beneath beneath).2

end Settled

/-! ### Resolving all modules again -/

/-- The program with the records that its modules come to when each is resolved again. -/
def again (p : Program) : Program :=
  { p with modules := p.modules.mapIdx p.reloaded }

lemma again_modules {i : Nat} : p.again.modules[i]? = p.modules[i]?.map (p.reloaded i) := by
  simp [again]

section

variable {id : ModuleId} {m n : LoadedModule}

lemma reloaded_path : (p.reloaded id m).path = m.path := by
  simp only [reloaded]
  split <;> rfl

lemma reloaded_source : (p.reloaded id m).source = m.source := by
  simp only [reloaded]
  split <;> rfl

lemma reloaded_status : (p.reloaded id m).status = .loaded := by
  simp only [reloaded]
  split <;> rfl

/-- What a module comes to does not depend on what it has come to before. -/
lemma reloaded_same (path : n.path = m.path) (source : n.source = m.source) : p.reloaded id n = p.reloaded id m := by
  simp only [reloaded, path, source]

end

lemma again_paths (i : Nat) : p.again.modules[i]?.map LoadedModule.path = p.modules[i]?.map LoadedModule.path := by
  rw [again_modules]
  cases p.modules[i]? with
  | none => rfl
  | some m => exact congrArg some reloaded_path

lemma Beneath.again {j : ModuleId} (h : p.Beneath path j) : p.again.Beneath path j := by
  obtain ⟨m, found, -, way⟩ := h
  have found' : p.again.modules[(j : Nat)]? = some (p.reloaded j m) := by
    rw [again_modules, found]
    rfl
  exact ⟨_, found', reloaded_status, reloaded_path.symm ▸ way⟩

lemma Settled.again (h : p.Settled region) (acyclic : p.sources.Acyclic region) : p.again.Settled region := by
  have back {i : Nat} {m'} (found : p.again.modules[i]? = some m') :
      ∃ m, p.modules[i]? = some m ∧ m' = p.reloaded i m := by
    rw [again_modules] at found
    obtain ⟨m, found', rfl⟩ := Option.map_eq_some_iff.1 found
    exact ⟨m, found', rfl⟩
  refine ⟨h.cached.of_paths again_paths rfl (by simp [Program.again]), fun found => ?_, fun found => ?_,
    fun {i m'} found e member => ?_⟩
  · obtain ⟨m, -, rfl⟩ := back found
    exact reloaded_status
  · obtain ⟨m, found', rfl⟩ := back found
    rw [reloaded_path, reloaded_source]
    exact h.inside found'
  · obtain ⟨m, found', rfl⟩ := back found
    obtain ⟨-, targets⟩ := h.reloaded_congr acyclic rfl (fun _ => rfl) found' found' fun _ _ => rfl
    rw [reloaded_path]
    exact (targets e member).mono fun j beneath => beneath.again

variable {readable : Finset ModulePath}

/-- In as many rounds as there are modules under it, a module comes to the record with which it stays. -/
lemma Settled.iterate (h : p.Settled region) (acyclic : p.sources.Acyclic region)
    (finite : ∀ {path source}, path ∈ region → p.sources.read path = .ok source → path ∈ readable) (rounds : Nat) :
    (Program.again^[rounds] p).settings = p.settings ∧ (Program.again^[rounds] p).Settled region ∧
      (∀ path, (Program.again^[rounds] p).findPath? path = p.findPath? path) ∧
      ∀ {j : Nat} {m}, (Program.again^[rounds] p).modules[j]? = some m →
        p.sources.height readable m.path < rounds → (Program.again^[rounds] p).reloaded j m = m := by
  induction rounds with
  | zero => exact ⟨rfl, h, fun _ => rfl, fun _ lt => absurd lt (Nat.not_lt_zero _)⟩
  | succ rounds ih =>
    obtain ⟨settings, settled, same, stays⟩ := ih
    simp only [Function.iterate_succ_apply']
    have sources : (Program.again^[rounds] p).sources = p.sources := sources_of_settings settings
    generalize Program.again^[rounds] p = q at settings settled same stays sources ⊢
    rw [← sources] at acyclic finite stays ⊢
    refine ⟨settings, settled.again acyclic, fun path => (findPath_congr again_paths).trans (same path),
      fun {j m} found low => ?_⟩
    have found' := found
    rw [again_modules] at found'
    obtain ⟨n, before, rfl⟩ := Option.map_eq_some_iff.1 found'
    rw [reloaded_path] at low
    have agree (i : ModuleId) (beneath : q.Beneath n.path i) : q.again.modules[(i : Nat)]? = q.modules[(i : Nat)]? := by
      obtain ⟨m', under, -, way⟩ := beneath
      obtain ⟨inside, read⟩ := settled.inside under
      have lower := Sources.height_lt way (finite inside read) (acyclic.acyclic inside)
      rw [again_modules, under, Option.map_some, stays under (by omega)]
    have again : q.again.settings = q.settings := rfl
    obtain ⟨alike, -⟩ := settled.reloaded_congr acyclic again (fun _ => findPath_congr again_paths) before found agree
    exact (reloaded_same reloaded_path reloaded_source).trans alike

/-- The paths of a region that can be read, as modules that have not been resolved yet. -/
noncomputable def unresolved (sources : Sources) (policy : GlobPolicy) (hosts : Hosts) (region : Set ModulePath)
    (readable : Finset ModulePath) : Program :=
  open Classical in
  let there := readable.filter fun path => path ∈ region ∧ ∃ source, sources.read path = .ok source
  let modules := there.toList.map fun path =>
    ⟨path, .loaded, (sources.read path).toOption.getD "", none, .empty, none, []⟩
  { new sources policy hosts with modules := modules.toArray, parsed := there.toList.length }

/-- Where imports have no cycles there is a whole program of all that can be read. -/
theorem exists_whole (sources : Sources) (policy : GlobPolicy) (hosts : Hosts) (acyclic : sources.Acyclic region)
    (finite : ∀ {path source}, path ∈ region → sources.read path = .ok source → path ∈ readable) :
    ∃ whole : Program, whole.settings = (sources, policy, hosts) ∧ whole.Whole region := by
  classical
  let there := readable.filter fun path => path ∈ region ∧ ∃ source, sources.read path = .ok source
  let record (path : ModulePath) : LoadedModule :=
    ⟨path, .loaded, (sources.read path).toOption.getD "", none, .empty, none, []⟩
  let p := unresolved sources policy hosts region readable
  have modules (i : Nat) : p.modules[i]? = there.toList[i]?.map record := by
    simp [p, unresolved, there, record]
  have back {i : Nat} {m} (found : p.modules[i]? = some m) :
      ∃ path, there.toList[i]? = some path ∧ path ∈ there ∧ m = record path := by
    rw [modules] at found
    obtain ⟨path, listed, rfl⟩ := Option.map_eq_some_iff.1 found
    exact ⟨path, listed, Finset.mem_toList.1 (List.mem_of_getElem? listed), rfl⟩
  have settled : p.Settled region := by
    refine ⟨⟨findPath_iff fun {i j m m'} found found' same => ?_, ?_⟩, fun found => ?_, fun found => ?_,
      fun found e member => ?_⟩
    · obtain ⟨path, listed, -, rfl⟩ := back found
      obtain ⟨path', listed', -, rfl⟩ := back found'
      obtain rfl : path = path' := same
      have inside := (List.getElem?_eq_some_iff.1 listed).1
      exact (List.getElem?_inj inside there.nodup_toList).1 (listed.trans listed'.symm)
    · simp [p, unresolved]
    · obtain ⟨path, -, -, rfl⟩ := back found
      rfl
    · obtain ⟨path, -, member, rfl⟩ := back found
      obtain ⟨-, inside, source, read⟩ := Finset.mem_filter.1 member
      refine ⟨inside, ?_⟩
      show sources.read path = _
      simp [record, read, Except.toOption]
    · obtain ⟨path, -, -, rfl⟩ := back found
      cases member
  obtain ⟨settings, settled', same, stays⟩ := settled.iterate acyclic finite (readable.card + 1)
  refine ⟨_, settings, settled', fun {path source} inside read => ?_, fun found => stays found ?_⟩
  · have kept : (Program.again^[readable.card + 1] p).sources = sources := sources_of_settings settings
    rw [kept] at read
    have member : path ∈ there := Finset.mem_filter.2 ⟨finite inside read, inside, source, read⟩
    obtain ⟨k, listed⟩ := List.mem_iff_getElem?.1 (Finset.mem_toList.2 member)
    refine ⟨k, (same path).trans (settled.cached.found.2 ⟨record path, ?_, rfl⟩)⟩
    rw [modules, listed]
    rfl
  · exact Nat.lt_succ_of_le (Finset.card_filter_le _ _)

end Program

end PipeLang
