import Mathlib.Data.Finset.Card
import PipeLang.Proofs.Load.Cache
import PipeLang.Proofs.Resolve.Mirrored

/-!
# Loading terminates

However modules import each other, a load comes to an end as long as only finitely many paths can be read: what it enters
it does not enter again. `Program.Loads` says what a load comes to without any bound on how deeply loads nest, and
`Program.load_returns` that it comes to just one thing, within as many nested loads as there are paths left to read.
-/

namespace PipeLang

open Resolve (after)

/-- A module that can be read imports what another path names. -/
def Sources.Imports (s : Sources) (path path' : ModulePath) : Prop :=
  ∃ source ast i, s.read path = .ok source ∧ Module.parse source = .ok ast ∧
    .importing i ∈ Statement.allMentions ast.statements ∧ ModulePath.parse i.path = .ok path'

/-- Some paths are all that can be read of what the imports of a path lead to. -/
def Sources.Covers (s : Sources) (readable : Finset ModulePath) (path : ModulePath) : Prop :=
  ∀ {path' source}, Relation.ReflTransGen s.Imports path path' → s.read path' = .ok source → path' ∈ readable

namespace Program

/-- What a program is not changed in. -/
def settings (p : Program) : Sources × GlobPolicy × Hosts :=
  (p.sources, p.policy, p.hosts)

/-- The number of paths that are left to load. -/
def left (p : Program) (readable : Finset ModulePath) : Nat :=
  (readable.filter fun path => p.findPath? path = none).card

/-- What loading the path that a text names comes to. A module is resolved with answers to the requests that come up, and
each of these is in turn what loading comes to; nothing else that a loader answers matters to the resolution. -/
inductive Loads : Program → String → Except LoadError ModuleId × Program → Prop where
  | invalid {p raw cause} :
    ModulePath.parse raw = .error cause →
    Loads p raw (.error (.invalidPath raw cause), p)
  | found {p raw path id} :
    ModulePath.parse raw = .ok path →
    p.findPath? path = some id →
    Loads p raw (.ok id, p)
  | unreadable {p raw path cause} :
    ModulePath.parse raw = .ok path →
    p.findPath? path = none →
    p.sources.read path = .error cause →
    Loads p raw (.error cause, p)
  | malformed {p raw path source errors} :
    ModulePath.parse raw = .ok path →
    p.findPath? path = none →
    p.sources.read path = .ok source →
    Module.parse source = .error errors →
    Loads p raw (.ok p.modules.size, (p.enter path source).finish p.modules.size (errors.map .malformed))
  | parsed {p raw path source ast load} {requests : Program → String → Prop} :
    ModulePath.parse raw = .ok path →
    p.findPath? path = none →
    p.sources.read path = .ok source →
    Module.parse source = .ok ast →
    (∀ q s, requests q s → Loads q s (load q s)) →
    (∀ load' : Loader, (∀ q s, requests q s → load' q s = load q s) →
      p.resolution load' path source ast = p.resolution load path source ast) →
    Loads p raw (.ok p.modules.size, (p.tabled load path source ast).finish p.modules.size
      (p.resolution load path source ast).faults)

variable {p p' q : Program} {raw : String} {path : ModulePath} {readable : Finset ModulePath}
  {result result' : Except LoadError ModuleId × Program}

/-- A load comes to one thing only. -/
theorem Loads.unique (h : p.Loads raw result) (h' : p.Loads raw result') : result' = result := by
  induction h generalizing result' with
  | invalid named =>
    cases h' <;> simp_all
  | found named known => cases h' <;> simp_all
  | unreadable named unknown read => cases h' <;> simp_all
  | malformed named unknown read parsed => cases h' <;> simp_all
  | @parsed p raw path source ast load requests named unknown read parsed asked support ih =>
    cases h' with
    | invalid named' => simp_all
    | found named' known => simp_all
    | unreadable named' _ read' => simp_all
    | malformed named' _ read' parsed' => simp_all
    | @parsed _ _ path' source' ast' load' requests' named' _ read' parsed' asked' support' =>
      obtain rfl : path' = path := by simpa [named] using named'.symm
      obtain rfl : source' = source := by simpa [read] using read'.symm
      obtain rfl : ast' = ast := by simpa [parsed] using parsed'.symm
      classical
      -- one loader that answers the requests of both
      let both : Loader := fun q s => if requests q s then load q s else load' q s
      have first : p.resolution both path' source' ast' = p.resolution load path' source' ast' :=
        support both fun q s asks => if_pos asks
      have second : p.resolution both path' source' ast' = p.resolution load' path' source' ast' := by
        refine support' both fun q s asks => ?_
        by_cases here : requests q s
        · exact (if_pos here).trans (ih q s here (asked' q s asks)).symm
        · exact if_neg here
      have same := second.symm.trans first
      simp only [tabled, same]

/-! ### Settings -/

lemma failImporters_settings (name : String) (failed : List ModuleId) (hits : List ImportEdge) :
    (failImporters name p failed hits).1.settings = p.settings := by
  induction hits generalizing p failed with
  | nil => rfl
  | cons e hits ih =>
    simp only [failImporters, failImporter]
    cases p.modules[e.importer]? with
    | none => exact ih failed
    | some m =>
      by_cases none : m.faults.isEmpty = true
      · simp only [none, if_true]
        exact ih _
      · simp only [none]
        exact ih failed

lemma propagate_settings (dirty : List ModuleId) : (p.propagate dirty).settings = p.settings := by
  fun_induction Program.propagate p dirty with
  | case1 p => rfl
  | case2 p target pending hits none ih => exact ih
  | case3 p target pending hits some next ih => exact ih.trans (failImporters_settings _ _ _)

lemma finish_settings {id : Nat} {faults : List Fault} : (p.finish id faults).settings = p.settings := by
  simp only [finish]
  split
  · split
    · rfl
    · exact propagate_settings [id]
  · rfl

end Program

/-- Changes leave the settings of the program alone when the loader does. -/
lemma Changes.settings {load : Loader} {mentions : List Mention} {topLevel : Bool} {r r' : Resolution}
    (kept : ∀ p raw, (load p raw).2.settings = p.settings) (h : Changes load mentions topLevel r r') :
    r'.program.settings = r.program.settings := by
  induction h with
  | refl => rfl
  | tail _ change ih =>
    refine Eq.trans ?_ ih
    cases change with
    | tables program => rw [program]
    | record | bind | redefine | edge | forward | define | assembly => rfl
    | load => exact kept _ _

namespace Program

variable {p p' q : Program} {raw : String} {path : ModulePath} {readable : Finset ModulePath} {depth : Nat}

lemma tabled_settings {load : Loader} {source : String} {ast : Module}
    (kept : ∀ p raw, (load p raw).2.settings = p.settings) : (p.tabled load path source ast).settings = p.settings :=
  (Resolve.module_changes load ast (.start (p.starting path source ast) p.modules.size ast.span)).settings kept

/-- Loading leaves the settings of a program alone. -/
lemma loader_settings (depth : Nat) (p : Program) (raw : String) : (loader depth p raw).2.settings = p.settings := by
  induction depth generalizing p raw with
  | zero => rw [loader_zero]
  | succ depth ih =>
    cases named : ModulePath.parse raw with
    | error cause => rw [loader, named]
    | ok path =>
      rw [loader_named named]
      cases unknown : p.findPath? path with
      | some id => rw [loadPath_found unknown]
      | none =>
        cases read : p.sources.read path with
        | error cause => rw [loadPath_unreadable unknown read]
        | ok source =>
          cases parsed : Module.parse source with
          | error errors =>
            rw [loadPath_malformed unknown read parsed]
            exact finish_settings
          | ok ast =>
            rw [loadPath_parsed unknown read parsed]
            exact finish_settings.trans (tabled_settings ih)

lemma sources_of_settings (same : p'.settings = p.settings) : p'.sources = p.sources :=
  congrArg Prod.fst same

/-! ### Paths that are left -/

lemma findPath_none : p.findPath? path = none ↔ ∀ {i : Nat} {m}, p.modules[i]? = some m → m.path ≠ path := by
  simp only [findPath?, Array.findIdx?_eq_none_iff, decide_eq_false_iff_not]
  constructor
  · exact fun unknown i m found => unknown m (Array.mem_of_getElem? found)
  · intro unknown m member
    obtain ⟨i, inside, rfl⟩ := Array.mem_iff_getElem.1 member
    exact unknown (Array.getElem?_eq_getElem inside)

section

variable (paths : ∀ {i : Nat} {m}, p.modules[i]? = some m → ∃ m', p'.modules[i]? = some m' ∧ m'.path = m.path)
include paths

/-- What is found goes on to be found. -/
lemma unknown_of_paths (unknown : p'.findPath? path = none) : p.findPath? path = none := by
  refine findPath_none.2 fun found same => ?_
  obtain ⟨m', found', path'⟩ := paths found
  exact findPath_none.1 unknown found' (path'.trans same)

lemma left_of_paths : p'.left readable ≤ p.left readable :=
  Finset.card_le_card fun _ member => by
    obtain ⟨inside, unknown⟩ := Finset.mem_filter.1 member
    exact Finset.mem_filter.2 ⟨inside, unknown_of_paths paths unknown⟩

end

lemma Extends.paths (h : p.Extends p') {i : Nat} {m : LoadedModule} (found : p.modules[i]? = some m) :
    ∃ m', p'.modules[i]? = some m' ∧ m'.path = m.path := by
  obtain ⟨m', found', path, -⟩ := h.modules found
  exact ⟨m', found', path⟩

lemma offer_paths {id : ModuleId} {f : Exports → Exports} {i : Nat} {m : LoadedModule} (found : p.modules[i]? = some m) :
    ∃ m', (p.offer id f).modules[i]? = some m' ∧ m'.path = m.path := by
  rw [offer, modify_modules]
  split
  · exact ⟨_, congrArg (Option.map _) found, rfl⟩
  · exact ⟨m, found, rfl⟩

/-- Entering a module leaves one path less. -/
lemma left_starting {source : String} {ast : Module} (inside : path ∈ readable) (unknown : p.findPath? path = none) :
    (p.starting path source ast).left readable < p.left readable := by
  refine Finset.card_lt_card ⟨fun path' member => ?_, fun all => ?_⟩
  · obtain ⟨inside', unknown'⟩ := Finset.mem_filter.1 member
    exact Finset.mem_filter.2 ⟨inside', unknown_of_paths starting_extends.paths unknown'⟩
  · have known := (Finset.mem_filter.1 (all (Finset.mem_filter.2 ⟨inside, unknown⟩))).2
    exact findPath_none.1 known (starting_modules.trans (if_pos rfl)) rfl

end Program

/-! ### Resolutions with the same answers -/

lemma Resolution.seenAs_id (r : Resolution) : r.seenAs id r.program = r := by
  have same : Reference.rename id = id := by
    funext ref
    simp [Reference.rename, Target.rename_id]
  simp only [seenAs, Scopes.rename_id, same, SpanTable.map_id]
  rfl

/-- Programs that a resolution comes by, in which it asks for modules. -/
structure Program.Asking (load : Loader) (mentions : List Mention) (home : ModuleId) (good : Program → Prop) : Prop where
  inside : ∀ {p}, good p → (home : Nat) < p.modules.size
  edge : ∀ {p} target site, good p → good (p.addEdge ⟨home, target, site⟩)
  offer : ∀ {p} f, good p → good (p.offer home f)
  load : ∀ {p i}, .importing i ∈ mentions → good p → good (load p i.path).2

namespace Program

variable {load load' : Loader} {mentions : List Mention} {home : ModuleId} {good : Program → Prop}

/-- Loaders that answer the same where a resolution asks are no different to it. -/
lemma Asking.reflects (h : Asking load mentions home good) (keeps : load.Keeps)
    (same : ∀ p i, .importing i ∈ mentions → good p → load' p i.path = load p i.path) :
    Mirror.Reflects ⟨id, home, fun p q => q = p ∧ good p, fun _ _ => True, fun _ => True⟩ load load' mentions where
  injective := Function.injective_id
  policy alike := congrArg Program.policy alike.1
  hosts alike := congrArg Program.hosts alike.1
  missing := by
    rintro p q i ⟨rfl, -⟩ - missing
    exact missing
  shown := by
    rintro p q i m ⟨rfl, -⟩ - found
    refine ⟨m, found, ⟨rfl, rfl, Iff.rfl, Exports.rename_id.symm⟩, fun e _ => ?_⟩
    cases e.target <;> trivial
  offered := by
    rintro p q ⟨rfl, -⟩
    exact Exports.rename_id.symm
  edge := by
    rintro p q target site - ⟨rfl, known⟩
    exact ⟨rfl, h.edge target site known⟩
  edgeOnward _ _ := ⟨fun _ => id, id⟩
  offer := by
    rintro p q f g renamed ⟨rfl, known⟩
    have alike : g = f := by
      funext t
      simpa only [Exports.rename_id] using renamed t
    exact ⟨by rw [alike]; rfl, h.offer f known⟩
  offerOnward _ _ _ := ⟨fun _ => id, id⟩
  loads := by
    rintro p q i member ⟨rfl, known⟩ -
    have answers := same q i member known
    refine ⟨⟨congrArg Prod.snd answers, h.load member known⟩, ?_, ?_⟩
    · rw [answers]
      cases (load q i.path).1 with
      | error cause => exact .refused
      | ok id => exact .found trivial
    · exact (keeps q i.path).exportsOf (h.inside known) not_false
  loadsOnward _ _ := ⟨fun _ => id, id⟩

variable {p : Program} {path : ModulePath} {source : String} {ast : Module}

/-- The resolution of a new module comes to the same with loaders that answer its requests the same. -/
lemma resolution_congr (h : Asking load (Statement.allMentions ast.statements) p.modules.size good) (keeps : load.Keeps)
    (start : good (p.starting path source ast))
    (same : ∀ q i, .importing i ∈ Statement.allMentions ast.statements → good q → load' q i.path = load q i.path) :
    p.resolution load' path source ast = p.resolution load path source ast := by
  let c : Mirror := ⟨id, p.modules.size, fun p q => q = p ∧ good p, fun _ _ => True, fun _ => True⟩
  let r : Resolution := .start (p.starting path source ast) p.modules.size ast.span
  have reflects : c.Reflects load load' (Statement.allMentions ast.statements) := h.reflects keeps same
  have related : c.Relates r r :=
    ⟨r.seenAs_id.symm, ⟨rfl, start⟩, rfl, fun b _ => by cases b.target <;> trivial, fun e _ => by
      cases e.target <;> trivial⟩
  obtain ⟨related', -⟩ := (Resolve.module_mirrored reflects ast (List.Subset.refl _)).relates related trivial trivial
  have seen := related'.seen
  rw [related'.program.1] at seen
  exact seen.trans (Resolution.seenAs_id _)

variable {raw : String} {readable : Finset ModulePath} {depth : Nat}

/-! ### Loads come to an end -/

/-- Without a new module there is no difference how much depth there is. -/
lemma loader_cases (p : Program) (raw : String) : (∃ result, p.Loads raw result ∧ ∀ depth, loader depth p raw = result) ∨
    ∃ path source, ModulePath.parse raw = .ok path ∧ p.findPath? path = none ∧ p.sources.read path = .ok source := by
  cases named : ModulePath.parse raw with
  | error cause => exact Or.inl ⟨_, .invalid named, fun depth => by rw [loader, named]⟩
  | ok path =>
    cases unknown : p.findPath? path with
    | some id =>
      exact Or.inl ⟨_, .found named unknown, fun depth => by rw [loader_named named, loadPath_found unknown]⟩
    | none =>
      cases read : p.sources.read path with
      | error cause =>
        refine Or.inl ⟨_, .unreadable named unknown read, fun depth => ?_⟩
        rw [loader_named named, loadPath_unreadable unknown read]
      | ok source => exact Or.inr ⟨path, source, rfl, unknown, read⟩

/-- The programs in which a new module asks for others have one path less to load. -/
lemma asking_left (unknown : p.findPath? path = none) (inside : path ∈ readable)
    (left : p.left readable ≤ depth + 1) (mentions : List Mention) :
    let good (q : Program) : Prop := q.settings = p.settings ∧ p.modules.size < q.modules.size ∧ q.left readable ≤ depth
    Asking (loader depth) mentions p.modules.size good ∧ good (p.starting path source ast) := by
  intro good
  constructor
  · refine ⟨fun known => known.2.1, fun target site known => known, fun f known => ?_, fun {q i} _ known => ?_⟩
    · refine ⟨known.1, ?_, (left_of_paths offer_paths).trans known.2.2⟩
      simpa [offer, modify] using known.2.1
    · refine ⟨(loader_settings depth q i.path).trans known.1, ?_, ?_⟩
      · exact Nat.lt_of_lt_of_le known.2.1 ((loader_keeps depth) q i.path).size_le
      · exact (left_of_paths ((loader_caches depth).extend q i.path).paths).trans known.2.2
  · have fewer : (p.starting path source ast).left readable < p.left readable := left_starting inside unknown
    exact ⟨rfl, by simp [starting_size], by omega⟩

/-- What a load comes to with as much depth as there are paths left to load, and with any more. -/
theorem loader_loads (p : Program) (raw : String)
    (covers : ∀ {path}, ModulePath.parse raw = .ok path → p.sources.Covers readable path)
    (left : p.left readable ≤ depth) :
    p.Loads raw (loader depth p raw) ∧ ∀ more, loader (depth + more) p raw = loader depth p raw := by
  induction depth generalizing p raw with
  | zero =>
    obtain ⟨result, loads, same⟩ | ⟨path, source, named, unknown, read⟩ := loader_cases p raw
    · exact ⟨same 0 ▸ loads, fun more => (same _).trans (same 0).symm⟩
    · have member : path ∈ readable.filter fun path => p.findPath? path = none :=
        Finset.mem_filter.2 ⟨covers named .refl read, unknown⟩
      exact absurd (Finset.card_pos.2 ⟨path, member⟩) (Nat.not_lt.2 left)
  | succ depth ih =>
    obtain ⟨result, loads, same⟩ | ⟨path, source, named, unknown, read⟩ := loader_cases p raw
    · exact ⟨same (depth + 1) ▸ loads, fun more => (same _).trans (same _).symm⟩
    · have deeper (more : ℕ) : loader (depth + 1 + more) p raw = p.loadPath (depth + more + 1) path := by
        rw [Nat.add_right_comm, loader_named named]
      simp only [deeper, loader_named named]
      cases parsed : Module.parse source with
      | error errors =>
        simp only [loadPath_malformed unknown read parsed]
        exact ⟨.malformed named unknown read parsed, fun _ => trivial⟩
      | ok ast =>
        let good (q : Program) : Prop :=
          q.settings = p.settings ∧ p.modules.size < q.modules.size ∧ q.left readable ≤ depth
        obtain ⟨asking, start⟩ : Asking (loader depth) (Statement.allMentions ast.statements) p.modules.size good ∧
            good (p.starting path source ast) := asking_left unknown (covers named .refl read) left _
        have nested (q : Program) (i : Import) (member : .importing i ∈ Statement.allMentions ast.statements)
            (known : good q) := by
          refine ih q i.path (fun {path'} named' => ?_) known.2.2
          rw [sources_of_settings known.1]
          exact fun way => covers named (.head ⟨source, ast, i, read, parsed, member, named'⟩ way)
        have same (load' : Loader) (answers : ∀ q i, .importing i ∈ Statement.allMentions ast.statements → good q →
            load' q i.path = loader depth q i.path) :
            p.resolution load' path source ast = p.resolution (loader depth) path source ast :=
          resolution_congr asking (loader_keeps depth) start answers
        have more (more : ℕ) : p.resolution (loader (depth + more)) path source ast =
            p.resolution (loader depth) path source ast :=
          same _ fun q i member known => (nested q i member known).2 more
        simp only [loadPath_parsed unknown read parsed, tabled, more, implies_true, and_true]
        let requests (q : Program) (s : String) : Prop :=
          good q ∧ ∃ i, .importing i ∈ Statement.allMentions ast.statements ∧ s = i.path
        have asked (q : Program) (s : String) (asks : requests q s) : q.Loads s (loader depth q s) := by
          obtain ⟨known, i, member, rfl⟩ := asks
          exact (nested q i member known).1
        refine .parsed named unknown read parsed asked fun load' answers => ?_
        exact same load' fun q i member known => answers q i.path ⟨known, i, member, rfl⟩

/-! ### The worklist of failures -/

/-- One round of the worklist of failed modules: the importers of the first fail and are put on it. -/
def failRound : Program × List ModuleId → Program × List ModuleId
  | (p, []) => (p, [])
  | (p, target :: pending) =>
    let next := failImporters (p.pathText target) (p.dropEdgesInto target) [] (p.edgesInto target)
    (next.1, next.2 ++ pending)

lemma failRound_idle {target : ModuleId} {pending : List ModuleId} (none : p.edgesInto target = []) :
    failRound (p, target :: pending) = (p, pending) := by
  have kept : p.dropEdgesInto target = p := by
    have same : p.edges.filter (fun e => e.target != target) = p.edges := by
      refine List.filter_eq_self.2 fun e member => ?_
      have := List.filter_eq_nil_iff.1 none e member
      simpa [bne] using this
    simp only [dropEdgesInto, same]
  simp only [failRound, none, kept, failImporters_nil, List.nil_append]

/-- The worklist is worked off within as many rounds as there are modules on it and accepted imports in the program: when a
module fails its edges are taken out, so that each of them puts an importer on the list at most once. -/
theorem propagate_rounds (p : Program) (pending : List ModuleId) : ∃ rounds ≤ pending.length + p.edges.length,
    failRound^[rounds] (p, pending) = (p.propagate pending, []) := by
  fun_induction Program.propagate p pending with
  | case1 p => exact ⟨0, Nat.zero_le _, rfl⟩
  | case2 p target pending hits none ih =>
    obtain ⟨rounds, le, same⟩ := ih
    refine ⟨rounds + 1, by simp only [List.length_cons]; omega, ?_⟩
    rw [Function.iterate_succ_apply, failRound_idle (List.isEmpty_iff.1 none), same]
  | case3 p target pending hits some next ih =>
    obtain ⟨rounds, le, same⟩ := ih
    have failed : next.2.length ≤ hits.length := by
      have := failImporters_length (p.pathText target) (p.dropEdgesInto target) [] hits
      simpa using this
    have edges : next.1.edges = (p.dropEdgesInto target).edges := failImporters_edges _ _ _ _
    have dropped : hits.length + (p.dropEdgesInto target).edges.length = p.edges.length :=
      dropEdgesInto_edges p target
    rw [edges, List.length_append] at le
    refine ⟨rounds + 1, by simp only [List.length_cons]; omega, ?_⟩
    rw [Function.iterate_succ_apply, ← same]
    rfl

/-! ### Every load returns -/

lemma left_le_card : p.left readable ≤ readable.card :=
  Finset.card_filter_le _ _

/-- As long as only finitely many paths can be read, a load returns, from every program and for every text: it comes to
just one thing, which is what the loader answers with as much depth as there are paths left to load and with any more. Every
failure is passed on within finitely many rounds. -/
theorem load_returns (p : Program) (raw : String) (readable : Finset ModulePath)
    (reads : ∀ path source, p.sources.read path = .ok source → path ∈ readable) :
    (∃ result, p.Loads raw result ∧ (∀ result', p.Loads raw result' → result' = result) ∧
      (∀ depth, p.left readable ≤ depth → loader depth p raw = result) ∧
      (readable.card ≤ p.sources.limit → p.load raw = result)) ∧
    ∀ (q : Program) (pending : List ModuleId), ∃ rounds ≤ pending.length + q.edges.length,
      failRound^[rounds] (q, pending) = (q.propagate pending, []) := by
  obtain ⟨loads, more⟩ : p.Loads raw (loader (p.left readable) p raw) ∧
      ∀ more, loader (p.left readable + more) p raw = loader (p.left readable) p raw :=
    loader_loads p raw (fun _ _ _ _ read => reads _ _ read) (Nat.le_refl _)
  have enough (depth : ℕ) (left : p.left readable ≤ depth) :
      loader depth p raw = loader (p.left readable) p raw := by
    obtain ⟨extra, rfl⟩ := Nat.exists_eq_add_of_le left
    exact more extra
  refine ⟨⟨_, loads, fun _ loads' => loads.unique loads', enough, fun limited => ?_⟩, propagate_rounds⟩
  have within : p.left readable ≤ readable.card := left_le_card
  exact enough (p.sources.limit + 1) (by omega)

end Program

/-- The paths of texts in memory. -/
def Texts.paths (t : Texts) : Finset ModulePath :=
  (t.entries.map fun entry => ⟨none, entry.1⟩).toFinset

/-- Of texts in memory only their paths can be read, and there are not more of them than the sources claim. -/
lemma Sources.ofTexts_paths (t : Texts) : t.paths.card ≤ (ofTexts t).limit ∧
    ∀ path source, (ofTexts t).read path = .ok source → path ∈ t.paths := by
  constructor
  · have := List.toFinset_card_le (t.entries.map fun entry => (⟨none, entry.1⟩ : ModulePath))
    simpa [Texts.paths, ofTexts] using this
  · intro path source read
    obtain ⟨external, file⟩ := path
    cases external with
    | some e => simp [Sources.read, ofTexts] at read
    | none =>
      cases found : t.get? ⟨none, file⟩ with
      | none => simp [Sources.read, ofTexts, found] at read
      | some text =>
        obtain ⟨before, behind, entries, -⟩ := List.lookup_eq_some_iff.1 found
        have name : (⟨none, file⟩ : ModulePath).render = file := rfl
        simp [Texts.paths, entries, name]

namespace Program

/-- Texts that import each other and themselves, inside a function and a block too, and what cannot be read or named. -/
def tangle : Texts := .ofList [
  ("main.kcl", "import \"lib\"\nf = (x) => \x7b\n  import \"main\" as own\n  import \"gone\" as gone\n  x\n\x7d\n"),
  ("lib.kcl", "import \"main\"\ng = \x7b\n  import \"lib\" as again\n  import \"../lib\" as above\n  1\n\x7d\n")]

/-- The load of a module that is tangled up with another returns. -/
theorem load_returns_tangled :
    let p := new (.ofTexts tangle) .eager .prelude
    (∀ path source, p.sources.read path = .ok source → path ∈ tangle.paths) ∧
      ∃ result, p.Loads "main" result ∧ p.load "main" = result ∧ result.1.toOption = some 0 := by
  intro p
  obtain ⟨limited, reads⟩ := Sources.ofTexts_paths tangle
  obtain ⟨⟨result, loads, -, -, load⟩, -⟩ := load_returns p "main" tangle.paths reads
  have same : p.load "main" = result := load limited
  have computed : (p.load "main").1.toOption = some 0 := by decide +kernel
  rw [same] at computed
  exact ⟨reads, result, loads, same, computed⟩

end Program

end PipeLang
