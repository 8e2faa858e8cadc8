import PipeLang.Proofs.Load.Terminates
import PipeLang.Proofs.Resolve.Requested

/-!
# What loading reaches

A module is loaded together with everything that its imports lead to and that can be read: `Program.loader_gathers`.
-/

namespace PipeLang

open Resolve (after)

namespace Program

variable {p q : Program} {path : ModulePath} {raw source : String} {ast : Module} {readable : Finset ModulePath}
  {depth : Nat}

/-- A program in which the imports of loaded modules lead to modules, wherever they can be read. -/
structure Closed (p : Program) : Prop where
  known : ∀ {i : Nat} {m path source}, p.modules[i]? = some m → m.status = .loaded → p.sources.Imports m.path path →
    p.sources.read path = .ok source → ∃ k, p.findPath? path = some k

/-- A loader keeps a program closed, and has a module for what a text names if it can be read. -/
structure Gathers (load : Loader) (p : Program) (raw : String) : Prop where
  closed : p.Closed → (load p raw).2.Closed
  reached : ∀ {path source}, ModulePath.parse raw = .ok path → p.sources.read path = .ok source →
    ∃ k, (load p raw).2.findPath? path = some k

section

variable (paths : ∀ {i : Nat} {m}, p.modules[i]? = some m → ∃ m', q.modules[i]? = some m' ∧ m'.path = m.path)
include paths

/-- What is found goes on to be found. -/
lemma known_of_paths (known : ∃ k, p.findPath? path = some k) : ∃ k, q.findPath? path = some k := by
  cases found : q.findPath? path with
  | some k => exact ⟨k, rfl⟩
  | none =>
    obtain ⟨k, known⟩ := known
    rw [unknown_of_paths paths found] at known
    cases known

/-- A program stays closed when nothing else is loaded. -/
lemma Closed.onward (h : p.Closed) (settings : q.settings = p.settings)
    (back : ∀ {i : Nat} {m'}, q.modules[i]? = some m' → m'.status = .loaded →
      ∃ m, p.modules[i]? = some m ∧ m.status = .loaded ∧ m.path = m'.path) : q.Closed := by
  have sources : q.sources = p.sources := sources_of_settings settings
  refine ⟨fun found loaded imports read => ?_⟩
  obtain ⟨m, found', loaded', same⟩ := back found loaded
  rw [sources] at imports read
  exact known_of_paths paths (h.known found' loaded' (same.symm ▸ imports) read)

end

lemma modify_paths {id : ModuleId} {f : LoadedModule → LoadedModule} (kept : ∀ m, (f m).path = m.path) {i : Nat}
    {m : LoadedModule} (found : p.modules[i]? = some m) : ∃ m', (p.modify id f).modules[i]? = some m' ∧ m'.path = m.path := by
  rw [modify_modules]
  split
  · exact ⟨_, congrArg (Option.map _) found, kept m⟩
  · exact ⟨m, found, rfl⟩

lemma modify_closed {id : ModuleId} {f : LoadedModule → LoadedModule}
    (kept : ∀ m, (f m).path = m.path ∧ (f m).status = m.status) (h : p.Closed) : (p.modify id f).Closed := by
  refine h.onward (modify_paths fun m => (kept m).1) rfl fun {i m'} found loaded => ?_
  rw [modify_modules] at found
  split at found
  · obtain ⟨m, old, rfl⟩ := Option.map_eq_some_iff.1 found
    exact ⟨m, old, (kept m).2.symm.trans loaded, (kept m).1.symm⟩
  · exact ⟨m', found, loaded, rfl⟩

end Program

/-- Changes leave modules in their places. -/
lemma Changes.paths {load : Loader} {mentions : List Mention} {topLevel : Bool} {r r' : Resolution}
    (kept : ∀ (p : Program) raw, p.Extends (load p raw).2) (h : Changes load mentions topLevel r r') {i : Nat} {m : LoadedModule}
    (found : r.program.modules[i]? = some m) : ∃ m', r'.program.modules[i]? = some m' ∧ m'.path = m.path := by
  induction h with
  | refl => exact ⟨m, found, rfl⟩
  | @tail r₁ r₂ _ change ih =>
    obtain ⟨m₁, found₁, path₁⟩ := ih
    obtain ⟨m₂, found₂, path₂⟩ : ∃ m₂, r₂.program.modules[i]? = some m₂ ∧ m₂.path = m₁.path := by
      cases change with
      | tables program => exact ⟨m₁, program ▸ found₁, rfl⟩
      | record | bind | redefine | edge => exact ⟨m₁, found₁, rfl⟩
      | load => exact (kept _ _).paths found₁
      | forward | define | assembly =>
        refine Program.modify_paths (fun _ => ?_) found₁
        rfl
    exact ⟨m₂, found₂, path₂.trans path₁⟩

namespace Program

variable {p q : Program} {path : ModulePath} {raw source : String} {ast : Module} {readable : Finset ModulePath}
  {depth : Nat}

/-- Changes keep a program closed, with the paths that are left for what is asked for. -/
lemma changes_closed {mentions : List Mention} {topLevel : Bool} {r r' : Resolution}
    (gathers : ∀ {q i}, .importing i ∈ mentions → q.settings = r.program.settings → q.left readable ≤ depth →
      Gathers (loader depth) q i.path)
    (h : Changes (loader depth) mentions topLevel r r') (left : r.program.left readable ≤ depth)
    (closed : r.program.Closed) : r'.program.Closed := by
  induction h with
  | refl => exact closed
  | @tail r₁ r₂ before change ih =>
    cases change with
    | tables program => exact program ▸ ih
    | record | bind | redefine => exact ih
    | edge => exact ⟨ih.known⟩
    | load member =>
      have settings := Changes.settings (loader_settings depth) before
      have left' : r₁.program.left readable ≤ r.program.left readable :=
        left_of_paths (Changes.paths (loader_caches depth).extend before)
      exact (gathers member settings (left'.trans left)).closed ih
    | forward | define | assembly => exact modify_closed (fun _ => ⟨rfl, rfl⟩) ih

/-! ### Finishing -/

lemma propagate_size (dirty : List ModuleId) : (p.propagate dirty).modules.size = p.modules.size := by
  fun_induction Program.propagate p dirty with
  | case1 p => rfl
  | case2 p target pending hits none ih => exact ih
  | case3 p target pending hits some next ih =>
    have told : Told hits (p.dropEdgesInto target) next.1 [] next.2 := failImporters_told
    exact ih.trans told.size

/-- Finishing a module leaves the others loaded as they are. -/
lemma finish_back {id : ModuleId} {faults : List Fault} {i : Nat} {m' : LoadedModule}
    (found : (p.finish id faults).modules[i]? = some m') (loaded : m'.status = .loaded) :
    ∃ m, p.modules[i]? = some m ∧ m.path = m'.path ∧ (i = id ∨ m.status = .loaded) := by
  let marked := p.modify id fun m => { m with faults := m.faults ++ faults, status := .loaded }
  obtain ⟨m, there, path, status⟩ : ∃ m, marked.modules[i]? = some m ∧ m.path = m'.path ∧ m.status = m'.status := by
    have failed (found : (marked.propagate [id]).modules[i]? = some m') :
        ∃ m, marked.modules[i]? = some m ∧ m.path = m'.path ∧ m.status = m'.status := by
      have inside := (Array.getElem?_eq_some_iff.1 found).1
      rw [propagate_size] at inside
      obtain ⟨m'', found'', path, status, -⟩ := (propagate_extends [id]).modules (Array.getElem?_eq_getElem inside)
      rw [found, Option.some.injEq] at found''
      exact ⟨_, Array.getElem?_eq_getElem inside, found'' ▸ path.symm, found'' ▸ status.symm⟩
    simp only [finish] at found
    split at found
    · split at found
      · exact ⟨m', found, rfl, rfl⟩
      · exact failed found
    · exact ⟨m', found, rfl, rfl⟩
  rw [modify_modules] at there
  split at there
  · next here =>
    obtain ⟨n, old, rfl⟩ := Option.map_eq_some_iff.1 there
    exact ⟨n, old, path, Or.inl here.symm⟩
  · exact ⟨m, there, path, Or.inr (status.trans loaded)⟩

/-- A program is closed when a module is finished whose imports lead to modules. -/
lemma Closed.finish {id : ModuleId} {faults : List Fault} (h : p.Closed) (known : ∀ {m path source},
      p.modules[(id : Nat)]? = some m → p.sources.Imports m.path path → p.sources.read path = .ok source →
        ∃ k, p.findPath? path = some k) : (p.finish id faults).Closed := by
  have sources : (p.finish id faults).sources = p.sources := sources_of_settings finish_settings
  have paths {i : Nat} {m} (found : p.modules[i]? = some m) :
      ∃ m', (p.finish id faults).modules[i]? = some m' ∧ m'.path = m.path := finish_path _ _ found
  refine ⟨fun found loaded imports read => ?_⟩
  obtain ⟨m, there, same, here | old⟩ := finish_back found loaded
  all_goals rw [sources] at imports read
  · subst here
    exact known_of_paths paths (known there (same.symm ▸ imports) read)
  · exact known_of_paths paths (h.known there old (same.symm ▸ imports) read)

/-! ### Loading -/

lemma starting_closed (h : p.Closed) : (p.starting path source ast).Closed := by
  refine h.onward starting_extends.paths rfl fun {i m'} found loaded => ?_
  rw [starting_modules] at found
  split at found
  · cases found
    cases loaded
  · exact ⟨m', found, loaded, rfl⟩

lemma enter_closed (h : p.Closed) : (p.enter path source).Closed := by
  refine h.onward enter_extends.paths rfl fun {i m'} found loaded => ?_
  rw [enter_modules] at found
  split at found
  · cases found
    cases loaded
  · exact ⟨m', found, loaded, rfl⟩

/-- The imports of a module lead to modules when it has been resolved. -/
lemma resolution_gathers (inside : path ∈ readable) (unknown : p.findPath? path = none)
    (left : p.left readable ≤ depth + 1)
    (gathers : ∀ {q i}, .importing i ∈ Statement.allMentions ast.statements → q.settings = p.settings →
      q.left readable ≤ depth → Gathers (loader depth) q i.path) :
    (p.Closed → (p.resolution (loader depth) path source ast).program.Closed) ∧
      ∀ {i path' source'}, .importing i ∈ Statement.allMentions ast.statements → ModulePath.parse i.path = .ok path' →
        p.sources.read path' = .ok source' →
          ∃ k, (p.resolution (loader depth) path source ast).program.findPath? path' = some k := by
  let start : Resolution := .start (p.starting path source ast) p.modules.size ast.span
  have fewer : (p.starting path source ast).left readable < p.left readable := left_starting inside unknown
  have started : start.program.left readable ≤ depth := Nat.le_of_lt_succ (Nat.lt_of_lt_of_le fewer left)
  obtain ⟨changes, asks⟩ : Requested (loader depth) (Statement.allMentions ast.statements) true
    (Statement.allMentions ast.statements) (Resolve.module (loader depth) ast) := Resolve.module_requested ast
  refine ⟨fun closed => changes_closed gathers (changes start) started (starting_closed closed),
    fun {i path' source'} member named read => ?_⟩
  obtain ⟨asking, before, behind⟩ := asks member start
  have settings : asking.program.settings = p.settings := Changes.settings (loader_settings depth) before
  have left' : asking.program.left readable ≤ depth :=
    (left_of_paths (Changes.paths (loader_caches depth).extend before)).trans started
  rw [← sources_of_settings settings] at read
  have known := (gathers member settings left').reached named read
  exact known_of_paths (Changes.paths (loader_caches depth).extend behind) known

/-- Either a load enters a new module, or it changes nothing and what it is for is there or cannot be read. -/
lemma loader_idle (p : Program) (raw : String) : (∀ depth, (loader depth p raw).2 = p) ∧ (∀ {path source},
      ModulePath.parse raw = .ok path → p.sources.read path = .ok source → ∃ k, p.findPath? path = some k) ∨
    ∃ path source, ModulePath.parse raw = .ok path ∧ p.findPath? path = none ∧ p.sources.read path = .ok source := by
  cases named : ModulePath.parse raw with
  | error cause => exact Or.inl ⟨fun depth => by rw [loader, named], nofun⟩
  | ok path =>
    cases known : p.findPath? path with
    | some k =>
      refine Or.inl ⟨fun depth => by rw [loader_named named, loadPath_found known], fun same _ => ⟨k, ?_⟩⟩
      cases same
      exact known
    | none =>
      cases read : p.sources.read path with
      | error cause =>
        refine Or.inl ⟨fun depth => by rw [loader_named named, loadPath_unreadable known read], fun same read' => ?_⟩
        cases same
        rw [read] at read'
        cases read'
      | ok source => exact Or.inr ⟨path, source, rfl, known, read⟩

/-- A module that is new is there when it has been loaded. -/
lemma Gathers.of_new (named : ModulePath.parse raw = .ok path) (unknown : p.findPath? path = none)
    (answer : (loader (depth + 1) p raw).1 = .ok p.modules.size) (closed : p.Closed → (loader (depth + 1) p raw).2.Closed) :
    Gathers (loader (depth + 1)) p raw := by
  refine ⟨closed, fun named' _ => ?_⟩
  obtain rfl := Except.ok.inj (named.symm.trans named')
  rw [loader_named named] at answer ⊢
  obtain ⟨m, there, same⟩ := loadPath_new unknown answer
  exact Option.ne_none_iff_exists'.1 fun missing => findPath_none.1 missing there same

/-- A text with errors in it imports nothing. -/
lemma malformed_gathers {errors : List SyntaxError} (named : ModulePath.parse raw = .ok path) (unknown : p.findPath? path = none)
    (read : p.sources.read path = .ok source) (parsed : Module.parse source = .error errors) :
    Gathers (loader (depth + 1)) p raw := by
  have result : loader (depth + 1) p raw =
      (.ok p.modules.size, (p.enter path source).finish p.modules.size (errors.map .malformed)) :=
    (loader_named named).trans (loadPath_malformed unknown read parsed)
  refine .of_new named unknown (by rw [result]) fun closed => ?_
  rw [result]
  refine (enter_closed closed).finish fun {m path' source'} there imports _ => ?_
  obtain ⟨source', ast, i, read', parsed', -⟩ := imports
  rw [enter_modules, if_pos rfl, Option.some.injEq] at there
  subst there
  rw [show (p.enter path source).sources.read path = .ok source from read] at read'
  cases read'
  rw [parsed] at parsed'
  cases parsed'

/-- What a module without errors in its text imports is gathered while its names are resolved, and its own table is entered
behind that. -/
lemma parsed_gathers (named : ModulePath.parse raw = .ok path) (unknown : p.findPath? path = none)
    (read : p.sources.read path = .ok source) (parsed : Module.parse source = .ok ast) (inside : path ∈ readable)
    (left : p.left readable ≤ depth + 1)
    (gathers : ∀ {q i}, .importing i ∈ Statement.allMentions ast.statements → q.settings = p.settings →
      q.left readable ≤ depth → Gathers (loader depth) q i.path) : Gathers (loader (depth + 1)) p raw := by
  have result : loader (depth + 1) p raw =
      (.ok p.modules.size, (p.tabled (loader depth) path source ast).finish p.modules.size
        (p.resolution (loader depth) path source ast).faults) :=
    (loader_named named).trans (loadPath_parsed unknown read parsed)
  obtain ⟨closes, known⟩ :
      (p.Closed → (p.resolution (loader depth) path source ast).program.Closed) ∧ _ :=
    resolution_gathers inside unknown left gathers
  let tabled := p.tabled (loader depth) path source ast
  have paths {i : Nat} {m} (found : (p.resolution (loader depth) path source ast).program.modules[i]? = some m) :
      ∃ m', tabled.modules[i]? = some m' ∧ m'.path = m.path := by
    refine modify_paths (fun _ => ?_) found
    rfl
  have sources : tabled.sources = p.sources := sources_of_settings (tabled_settings (loader_settings depth))
  refine .of_new named unknown (by rw [result]) fun closed => ?_
  rw [result]
  have tabledClosed : tabled.Closed := modify_closed (fun _ => ⟨rfl, rfl⟩) (closes closed)
  refine tabledClosed.finish fun {m path' source'} there imports read' => ?_
  -- the module that is finished is the one that was entered
  obtain ⟨m₁, found₁, path₁⟩ := Changes.paths (loader_caches depth).extend (Resolve.module_changes (loader depth)
    ast (.start (p.starting path source ast) p.modules.size ast.span)) (starting_modules.trans (if_pos rfl))
  obtain ⟨m₂, found₂, path₂⟩ := paths found₁
  have same : m.path = path := by
    rw [there, Option.some.injEq] at found₂
    exact found₂ ▸ path₂.trans path₁
  rw [sources, same] at imports
  obtain ⟨source'', ast, i, read'', parsed', member, named'⟩ := imports
  obtain rfl := Except.ok.inj (read.symm.trans read'')
  obtain rfl := Except.ok.inj (parsed.symm.trans parsed')
  exact known_of_paths paths (known member named' (sources ▸ read'))

/-- A loader gathers all that imports lead to, at every depth that is enough for the paths that are left to load. -/
theorem loader_gathers (p : Program) (raw : String)
    (covers : ∀ {path}, ModulePath.parse raw = .ok path → p.sources.Covers readable path)
    (left : p.left readable ≤ depth) : Gathers (loader depth) p raw := by
  induction depth generalizing p raw with
  | zero =>
    obtain ⟨same, found⟩ | ⟨path, source, named, unknown, read⟩ := loader_idle p raw
    · exact ⟨fun closed => (same 0).symm ▸ closed, fun named read => (same 0).symm ▸ found named read⟩
    · have member : path ∈ readable.filter fun path => p.findPath? path = none :=
        Finset.mem_filter.2 ⟨covers named .refl read, unknown⟩
      exact absurd (Finset.card_pos.2 ⟨path, member⟩) (Nat.not_lt.2 left)
  | succ depth ih =>
    obtain ⟨same, found⟩ | ⟨path, source, named, unknown, read⟩ := loader_idle p raw
    · exact ⟨fun closed => (same _).symm ▸ closed, fun named read => (same _).symm ▸ found named read⟩
    · cases parsed : Module.parse source with
      | error errors => exact malformed_gathers named unknown read parsed
      | ok ast =>
        refine parsed_gathers named unknown read parsed (covers named .refl read) left fun {q i} member settings left => ?_
        refine ih q i.path (fun {path'} named' => ?_) left
        rw [sources_of_settings settings]
        exact fun way => covers named (.head ⟨source, ast, i, read, parsed, member, named'⟩ way)

/-! ### Any loads -/

lemma loadAll_extends (paths : List String) : p.Extends (p.loadAll paths) := by
  induction paths generalizing p with
  | nil => exact .refl
  | cons raw paths ih => exact ((loader_caches (p.sources.limit + 1)).extend p raw).trans ih

lemma loadAll_settings (paths : List String) : (p.loadAll paths).settings = p.settings := by
  induction paths generalizing p with
  | nil => rfl
  | cons raw paths ih => exact ih.trans (loader_settings (p.sources.limit + 1) p raw)

/-- Loads gather what they are for, as long as the sources keep to their limit. -/
lemma loadAll_gathers (paths : List String) (h : p.Closed)
    (covers : ∀ raw ∈ paths, ∀ {path}, ModulePath.parse raw = .ok path → p.sources.Covers readable path)
    (limited : readable.card ≤ p.sources.limit) :
    (p.loadAll paths).Closed ∧ ∀ raw ∈ paths, ∀ {path source}, ModulePath.parse raw = .ok path →
      p.sources.read path = .ok source → ∃ k, (p.loadAll paths).findPath? path = some k := by
  induction paths generalizing p with
  | nil => exact ⟨h, nofun⟩
  | cons raw paths ih =>
    have left : p.left readable ≤ p.sources.limit + 1 := Nat.le_succ_of_le (left_le_card.trans limited)
    obtain ⟨closed, reached⟩ : Gathers (loader (p.sources.limit + 1)) p raw :=
      loader_gathers p raw (covers raw List.mem_cons_self) left
    let p' := (loader (p.sources.limit + 1) p raw).2
    have sources : p'.sources = p.sources := sources_of_settings (loader_settings _ p raw)
    obtain ⟨closed', reached'⟩ := ih (p := p') (closed h)
      (fun raw member _ named => sources ▸ covers raw (List.mem_cons_of_mem _ member) named) (sources ▸ limited)
    refine ⟨closed', fun raw' member {path source} named read => ?_⟩
    rcases List.mem_cons.1 member with rfl | later
    · exact known_of_paths (loadAll_extends paths).paths (reached named read)
    · exact reached' raw' later named (sources ▸ read)

end Program

/-- The paths that the imports of some paths lead to. -/
def Sources.reach (s : Sources) (paths : List String) : Set ModulePath :=
  fun path => ∃ raw ∈ paths, ∃ root, ModulePath.parse raw = .ok root ∧ Relation.ReflTransGen s.Imports root path

namespace Program

/-- All is loaded that the imports of some paths lead to and that can be read, whatever order the paths are loaded in. -/
theorem loadAll_reached (sources : Sources) (policy : GlobPolicy) (hosts : Hosts) (paths : List String)
    {readable : Finset ModulePath} (reads : ∀ path ∈ sources.reach paths, ∀ source,
      sources.read path = .ok source → path ∈ readable)
    (limited : readable.card ≤ sources.limit) {path : ModulePath} (member : path ∈ sources.reach paths) {source : String}
    (read : sources.read path = .ok source) : ∃ i, ((new sources policy hosts).loadAll paths).findPath? path = some i := by
  have covers (raw : String) (here : raw ∈ paths) {root : ModulePath} (named : ModulePath.parse raw = .ok root) :
      sources.Covers readable root := fun way read => reads _ ⟨raw, here, root, named, way⟩ _ read
  have closed : (new sources policy hosts).Closed := ⟨fun found => by simp [new] at found⟩
  obtain ⟨closed, reached⟩ := loadAll_gathers paths closed covers limited
  have kept : ((new sources policy hosts).loadAll paths).sources = sources := sources_of_settings (loadAll_settings paths)
  have cached : ((new sources policy hosts).loadAll paths).Cached := cached_new.loadAll paths
  have rest : ((new sources policy hosts).loadAll paths).AtRest := (atRest_new.loadAll paths).1
  obtain ⟨raw, here, root, named, way⟩ := member
  induction way generalizing source with
  | refl => exact reached raw here named read
  | tail _ imports ih =>
    obtain ⟨source', ast, i, read', rest'⟩ := id imports
    obtain ⟨k, known⟩ := ih read'
    obtain ⟨m, found, rfl⟩ := cached.found.1 known
    exact closed.known found (rest.loaded found) (kept.symm ▸ imports) (kept.symm ▸ read)

end Program

end PipeLang
