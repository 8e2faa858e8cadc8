import PipeLang.Proofs.Load.Reached
import PipeLang.Proofs.Load.Reloaded

/-!
# The order of loading

Where imports have no cycles, it does not matter in which order modules are loaded. Whichever module is loaded first and
from wherever, it comes to the record that a whole program has for it: `Program.loader_orderly`. So two sessions come to
the same records, up to the numbers of their modules: `Program.loadAll_order`.
-/

namespace PipeLang

open Relation (TransGen)

lemma Sources.reach_acyclic {s : Sources} {paths : List String}
    (acyclic : ∀ path ∈ s.reach paths, ¬ TransGen s.Imports path path) : s.Acyclic (s.reach paths) where
  closed := by
    rintro path path' ⟨raw, here, root, named, way⟩ imports
    exact ⟨raw, here, root, named, way.tail imports⟩
  acyclic member := acyclic _ member

namespace Program

variable {p q whole : Program} {ren : ModuleId → ModuleId} {path : ModulePath} {region : Set ModulePath}
  {above above' : ModulePath → Prop} {readable : Finset ModulePath} {depth : Nat}

/-- A program with modules of a region without cycles, in which only modules of certain paths are being loaded. What is
loaded has the records of a whole program, for other numbers of modules. -/
structure Orderly (p whole : Program) (region : Set ModulePath) (ren : ModuleId → ModuleId)
    (above : ModulePath → Prop) : Prop where
  settings : p.settings = whole.settings
  cached : p.Cached
  inside : ∀ {i : Nat} {m}, p.modules[i]? = some m → m.path ∈ region ∧ p.sources.read m.path = .ok m.source
  loading : ∀ {i : Nat} {m}, p.modules[i]? = some m → m.status = .loading → above m.path
  edges : ∀ e ∈ p.edges, ∃ m, p.modules[(e.target : Nat)]? = some m ∧ m.status = .loaded
  offers : ∀ {i : Nat} {m}, p.modules[i]? = some m → m.status = .loaded →
    ∀ e ∈ m.exports.entries, e.target.Known (p.Beneath m.path)
  alike : ∀ {i : Nat} {m}, p.modules[i]? = some m → m.status = .loaded →
    whole.modules[(ren i : Nat)]? = some (m.rename ren)

/-- Finishing a module that no accepted import leads to changes nothing else. -/
lemma finish_unimported {id : ModuleId} {faults : List Fault} (none : ∀ e ∈ p.edges, e.target ≠ id) :
    p.finish id faults = p.modify id fun m => { m with faults := m.faults ++ faults, status := .loaded } := by
  have hits : (p.modify id fun m => { m with faults := m.faults ++ faults, status := .loaded }).edgesInto id = [] := by
    refine List.filter_eq_nil_iff.2 fun e member => ?_
    simpa using none e member
  simp only [finish]
  split
  · split
    · rfl
    · rw [propagate, hits]
      simp [propagate]
  · rfl

namespace Orderly

lemma new {sources : Sources} {policy : GlobPolicy} {hosts : Hosts}
    (settings : whole.settings = (sources, policy, hosts)) :
    (Program.new sources policy hosts).Orderly whole region ren above where
  settings := settings.symm
  cached := cached_new
  inside found := by simp [Program.new] at found
  loading found := by simp [Program.new] at found
  edges _ member := by cases member
  offers found := by simp [Program.new] at found
  alike found := by simp [Program.new] at found

/-- An import of a loaded module is accepted. -/
lemma addEdge (h : p.Orderly whole region ren above) {e : ImportEdge}
    (loaded : ∃ m, p.modules[(e.target : Nat)]? = some m ∧ m.status = .loaded) :
    (p.addEdge e).Orderly whole region ren above :=
  { h with
    cached := h.cached.of_paths (fun _ => rfl) rfl rfl
    edges := fun e' member => by
      rcases List.mem_append.1 member with old | new
      · exact h.edges e' old
      · exact List.mem_singleton.1 new ▸ loaded }

/-- Loaded modules stay as they are, and what else there is is being loaded, or it has come to its record. -/
lemma onward (h : p.Orderly whole region ren above) (settings : q.settings = p.settings) (cached : q.Cached)
    (edges : q.edges = p.edges)
    (kept : ∀ {i : Nat} {m}, p.modules[i]? = some m → m.status = .loaded → q.modules[i]? = some m)
    (loading : ∀ {i : Nat} {m}, q.modules[i]? = some m → m.status = .loading → above' m.path)
    (each : ∀ {i : Nat} {m}, q.modules[i]? = some m → p.modules[i]? = some m ∨
      (m.path ∈ region ∧ p.sources.read m.path = .ok m.source) ∧ (m.status = .loaded →
        (∀ e ∈ m.exports.entries, e.target.Known (p.Beneath m.path)) ∧
          whole.modules[(ren i : Nat)]? = some (m.rename ren))) :
    q.Orderly whole region ren above' := by
  have sources : q.sources = p.sources := sources_of_settings settings
  have beneath {path : ModulePath} {j : ModuleId} (known : p.Beneath path j) : q.Beneath path j := by
    obtain ⟨m, found, loaded, way⟩ := known
    exact ⟨m, kept found loaded, loaded, sources ▸ way⟩
  refine ⟨settings.trans h.settings, cached, fun found => ?_, loading, fun e member => ?_,
    fun found loaded e member => ?_, fun found loaded => ?_⟩
  · rw [sources]
    exact (each found).elim h.inside And.left
  · obtain ⟨m, found, loaded⟩ := h.edges e (edges ▸ member)
    exact ⟨m, kept found loaded, loaded⟩
  · have known : e.target.Known (p.Beneath _) :=
      (each found).elim (fun old => h.offers old loaded e member) fun new => (new.2 loaded).1 e member
    exact known.mono fun _ => beneath
  · exact (each found).elim (fun old => h.alike old loaded) fun new => (new.2 loaded).2

/-- A module is entered, and may be resolved. -/
lemma enter (h : p.Orderly whole region ren above) {m : LoadedModule} (inside : m.path ∈ region)
    (read : p.sources.read m.path = .ok m.source) (loading : m.status = .loading)
    (settings : q.settings = p.settings) (cached : q.Cached) (edges : q.edges = p.edges)
    (modules : ∀ i : Nat, q.modules[i]? = if i = p.modules.size then some m else p.modules[i]?) :
    q.Orderly whole region ren fun path => above path ∨ path = m.path := by
  have back {i : Nat} {n} (found : q.modules[i]? = some n) : n = m ∨ p.modules[i]? = some n := by
    rw [modules] at found
    split at found
    · exact Or.inl (Option.some.inj found).symm
    · exact Or.inr found
  refine h.onward settings cached edges (fun found _ => ?_) (fun found status => ?_) fun found => ?_
  · rw [modules, if_neg (Nat.ne_of_lt (Array.getElem?_eq_some_iff.1 found).1), found]
  · rcases back found with rfl | old
    · exact Or.inr rfl
    · exact Or.inl (h.loading old status)
  · rcases back found with rfl | old
    · refine Or.inr ⟨⟨inside, read⟩, fun loaded => ?_⟩
      rw [loading] at loaded
      cases loaded
    · exact Or.inl old

variable {home : ModuleId} {m : LoadedModule} {f : LoadedModule → LoadedModule}

/-- A module that is being loaded offers something else. -/
lemma offer (h : p.Orderly whole region ren above) (found : p.modules[(home : Nat)]? = some m)
    (loading : m.status = .loading) (f : Exports → Exports) : (p.offer home f).Orderly whole region ren above := by
  have cases {i : Nat} {n} (there : (p.offer home f).modules[i]? = some n) :
      (∃ exports, n = { m with exports := exports }) ∨ p.modules[i]? = some n := by
    rw [Program.offer, modify_modules] at there
    split at there
    · next here =>
      subst here
      rw [found] at there
      exact Or.inl ⟨_, (Option.some.inj there).symm⟩
    · exact Or.inr there
  have above : above m.path := h.loading found loading
  have inside := h.inside found
  refine h.onward rfl (h.cached.modify fun _ => rfl) rfl (fun {i n} old loaded => ?_) (fun there status => ?_)
    fun there => ?_
  · have other : home ≠ i := by
      rintro rfl
      rw [found, Option.some.injEq] at old
      rw [← old, loading] at loaded
      cases loaded
    rw [Program.offer, modify_modules, if_neg other, old]
  · rcases cases there with ⟨exports, rfl⟩ | old
    · exact above
    · exact h.loading old status
  · rcases cases there with ⟨exports, rfl⟩ | old
    · refine Or.inr ⟨inside, fun loaded => ?_⟩
      rw [loading] at loaded
      cases loaded
    · exact Or.inl old

/-- A module has come to its record. -/
lemma done {m' : LoadedModule} (h : p.Orderly whole region ren fun path => above path ∨ path = m.path)
    (found : p.modules[(home : Nat)]? = some m) (loading : m.status = .loading) (finished : f m = m')
    (kept : ∀ n, (f n).path = n.path) (source : m'.source = m.source) (loaded : m'.status = .loaded)
    (offers : ∀ e ∈ m'.exports.entries, e.target.Known (p.Beneath m.path))
    (alike : whole.modules[(ren home : Nat)]? = some (m'.rename ren)) :
    (p.modify home f).Orderly whole region ren above := by
  have path : m'.path = m.path := finished ▸ kept m
  have cases {i : Nat} {n} (there : (p.modify home f).modules[i]? = some n) :
      i = home ∧ n = m' ∨ i ≠ home ∧ p.modules[i]? = some n := by
    rw [modify_modules] at there
    split at there
    · next here =>
      subst here
      rw [found, Option.map_some, finished, Option.some.injEq] at there
      exact Or.inl ⟨rfl, there.symm⟩
    · next other => exact Or.inr ⟨Ne.symm other, there⟩
  refine h.onward rfl (h.cached.modify kept) rfl (fun {i n} old loaded => ?_) (fun there status => ?_) fun there => ?_
  · have other : home ≠ i := by
      rintro rfl
      rw [found, Option.some.injEq] at old
      rw [← old, loading] at loaded
      cases loaded
    rw [modify_modules, if_neg other, old]
  · rcases cases there with ⟨rfl, rfl⟩ | ⟨other, old⟩
    · rw [loaded] at status
      cases status
    · refine (h.loading old status).resolve_right fun same => other ?_
      exact h.cached.distinct old found same
  · rcases cases there with ⟨rfl, rfl⟩ | ⟨other, old⟩
    · rw [path, source]
      exact Or.inr ⟨h.inside found, fun _ => ⟨offers, alike⟩⟩
    · exact Or.inl old

end Orderly

/-- What a load comes to in an orderly program: what was there is as it was, and the answer is that of the whole program. -/
structure LoadsOrderly (p whole : Program) (region : Set ModulePath) (ren : ModuleId → ModuleId)
    (above : ModulePath → Prop) (raw : String) (result : Except LoadError ModuleId × Program) : Prop where
  orderly : result.2.Orderly whole region ren above
  kept : ∀ {i : Nat} {m}, p.modules[i]? = some m → result.2.modules[i]? = some m
  answers : (loader 0 whole raw).1 = result.1.map ren
  found : ∀ {id : ModuleId}, result.1 = .ok id → ∃ m, result.2.modules[(id : Nat)]? = some m ∧ m.status = .loaded ∧
    ModulePath.parse raw = .ok m.path

variable {raw source : String} {ast : Module} {m : LoadedModule}

/-- The states in which a new module is resolved, with some depth left for what it asks for. -/
structure Resolving (p whole : Program) (region : Set ModulePath) (ren : ModuleId → ModuleId)
    (above : ModulePath → Prop) (m : LoadedModule) (readable : Finset ModulePath) (depth : Nat) (q : Program) : Prop where
  orderly : q.Orderly whole region ren fun path => above path ∨ path = m.path
  home : ∃ exports, q.modules[p.modules.size]? = some { m with exports := exports }
  kept : ∀ {i : Nat} {n}, p.modules[i]? = some n → q.modules[i]? = some n
  left : q.left readable ≤ depth

/-- A path that the imports of everything lead to that is being loaded. -/
def Within (whole : Program) (region : Set ModulePath) (above : ModulePath → Prop) (path : ModulePath) : Prop :=
  path ∈ region ∧ ∀ path', above path' → TransGen whole.sources.Imports path' path

lemma Resolving.repeats (acyclic : whole.sources.Acyclic region) (loading : m.status = .loading)
    (within : whole.Within region above m.path) (read : whole.sources.read m.path = .ok m.source)
    (parsed : Module.parse m.source = .ok ast)
    (loads : ∀ {q : Program} {above raw}, q.Orderly whole region ren above →
      (∀ {path}, ModulePath.parse raw = .ok path → whole.Within region above path) → q.left readable ≤ depth →
      Numbers ren whole (loader depth q raw).2 → q.LoadsOrderly whole region ren above raw (loader depth q raw)) :
    Repeats whole ren m.path p.modules.size depth (Statement.allMentions ast.statements)
      (p.Resolving whole region ren above m readable depth) where
  settings good := good.orderly.settings
  inside good := by
    obtain ⟨exports, found⟩ := good.home
    exact (Array.getElem?_eq_some_iff.1 found).1
  shown := by
    rintro q j n good ⟨n', found', loaded, way⟩ found
    rw [found, Option.some.injEq] at found'
    subst found'
    refine ⟨?_, good.orderly.alike found loaded, fun e member => ?_⟩
    · rintro rfl
      obtain ⟨exports, there⟩ := good.home
      rw [found, Option.some.injEq] at there
      subst there
      rw [loading] at loaded
      cases loaded
    · exact (good.orderly.offers found loaded e member).mono fun i under => under.through way
  edge site := by
    rintro ⟨n, found, loaded, -⟩ good
    exact { good with orderly := good.orderly.addEdge ⟨n, found, loaded⟩ }
  offer f good := by
    obtain ⟨exports, found⟩ := good.home
    refine ⟨good.orderly.offer found loading f, ⟨f exports, ?_⟩, fun {i n} old => ?_, ?_⟩
    · rw [Program.offer, modify_modules, if_pos rfl, found]
      rfl
    · rw [Program.offer, modify_modules, if_neg (Nat.ne_of_gt (Array.getElem?_eq_some_iff.1 old).1), good.kept old]
    · exact (left_of_paths offer_paths).trans good.left
  load {q i} member good numbers := by
    have imports {path : ModulePath} (named : ModulePath.parse i.path = .ok path) : whole.sources.Imports m.path path :=
      ⟨m.source, ast, i, read, parsed, member, named⟩
    have within' {path : ModulePath} (named : ModulePath.parse i.path = .ok path) :
        whole.Within region (fun path => above path ∨ path = m.path) path := by
      refine ⟨acyclic.closed within.1 (imports named), fun path' higher => ?_⟩
      rcases higher with higher | rfl
      · exact (within.2 path' higher).tail (imports named)
      · exact .single (imports named)
    obtain ⟨orderly, kept, answers, found⟩ := loads good.orderly within' good.left numbers
    obtain ⟨exports, home⟩ := good.home
    refine ⟨⟨orderly, ⟨exports, kept home⟩, fun old => kept (good.kept old), ?_⟩, answers, fun id answer => ?_⟩
    · exact (left_of_paths ((loader_caches depth).extend q i.path).paths).trans good.left
    · obtain ⟨n, there, loaded, named⟩ := found answer
      have sources : (loader depth q i.path).2.sources = whole.sources := sources_of_settings orderly.settings
      exact ⟨n, there, loaded, sources ▸ .single (imports named)⟩

/-- Where everything is there, a path that can be read is found, and its module has the record that it comes to. -/
lemma Whole.record (h : whole.Whole region) (inside : path ∈ region) (read : whole.sources.read path = .ok source) :
    ∃ k n, whole.findPath? path = some k ∧ whole.modules[(k : Nat)]? = some n ∧ n.path = path ∧ n.source = source ∧
      whole.reloaded k n = n := by
  obtain ⟨k, known⟩ := h.complete inside read
  obtain ⟨n, found, rfl⟩ := h.cached.found.1 known
  have source : n.source = source := by simpa [read] using (h.inside found).2.symm
  exact ⟨k, n, known, found, rfl, source, h.again found⟩

/-- What is known already is answered as it is. -/
lemma LoadsOrderly.old (complete : whole.Whole region) (h : p.Orderly whole region ren above) {k : ModuleId}
    (numbers : Numbers ren whole p) (named : ModulePath.parse raw = .ok path) (known : p.findPath? path = some k)
    (new : ¬ above path) : p.LoadsOrderly whole region ren above raw (.ok k, p) := by
  obtain ⟨m, found, rfl⟩ := h.cached.found.1 known
  have sources : p.sources = whole.sources := sources_of_settings h.settings
  obtain ⟨inside, read⟩ := h.inside found
  obtain ⟨k', n, known', -⟩ := complete.record inside (sources ▸ read)
  refine ⟨h, id, ?_, fun answer => ?_⟩
  · rw [loader_named named, loadPath_found known', ← numbers found known']
    rfl
  · cases answer
    refine ⟨m, found, ?_, named⟩
    cases status : m.status with
    | loaded => rfl
    | loading => exact absurd (h.loading found status) new

/-- What cannot be read is refused alike. -/
lemma LoadsOrderly.refused (complete : whole.Whole region) (h : p.Orderly whole region ren above) {cause : LoadError}
    (named : ModulePath.parse raw = .ok path) (read : p.sources.read path = .error cause) :
    p.LoadsOrderly whole region ren above raw (.error cause, p) := by
  have sources : p.sources = whole.sources := sources_of_settings h.settings
  have unknown : whole.findPath? path = none := by
    refine findPath_none.2 fun found same => ?_
    rw [sources, ← same, (complete.inside found).2] at read
    cases read
  refine ⟨h, id, ?_, nofun⟩
  rw [loader_named named, loadPath_unreadable unknown (sources ▸ read)]
  rfl

/-- A new module has come to its record. -/
lemma LoadsOrderly.new {m' : LoadedModule} {f : LoadedModule → LoadedModule}
    (h : q.Orderly whole region ren fun path => above path ∨ path = m.path)
    (kept : ∀ {i : Nat} {n}, p.modules[i]? = some n → q.modules[i]? = some n)
    (home : q.modules[p.modules.size]? = some m) (loading : m.status = .loading) (named : ModulePath.parse raw = .ok m.path)
    (finished : f m = m') (path : ∀ n, (f n).path = n.path) (source : m'.source = m.source) (loaded : m'.status = .loaded)
    (offers : ∀ e ∈ m'.exports.entries, e.target.Known (q.Beneath m.path))
    (known : whole.findPath? m.path = some (ren p.modules.size))
    (alike : whole.modules[(ren p.modules.size : Nat)]? = some (m'.rename ren)) :
    p.LoadsOrderly whole region ren above raw (.ok p.modules.size, q.modify p.modules.size f) where
  orderly := h.done home loading finished path source loaded offers alike
  kept old := by
    rw [modify_modules, if_neg (Nat.ne_of_gt (Array.getElem?_eq_some_iff.1 old).1), kept old]
  answers := by
    rw [loader_named named, loadPath_found known]
    rfl
  found answer := by
    cases answer
    refine ⟨m', ?_, loaded, ?_⟩
    · rw [modify_modules, if_pos rfl, home, Option.map_some, finished]
    · rw [named, ← finished, path]

/-- No accepted import leads to a module that is being loaded. -/
lemma Orderly.unimported {home : ModuleId} (h : p.Orderly whole region ren above)
    (found : p.modules[(home : Nat)]? = some m) (loading : m.status = .loading) : ∀ e ∈ p.edges, e.target ≠ home := by
  rintro e member rfl
  obtain ⟨n, found', loaded⟩ := h.edges e member
  rw [found, Option.some.injEq] at found'
  rw [← found', loading] at loaded
  cases loaded

/-- Either a load comes to what the whole program has without loading anything, or it enters a new module. -/
lemma loader_orderly_cases (depth : Nat) (complete : whole.Whole region) (acyclic : whole.sources.Acyclic region)
    (h : p.Orderly whole region ren above)
    (within : ∀ {path}, ModulePath.parse raw = .ok path → whole.Within region above path)
    (numbers : Numbers ren whole (loader depth p raw).2) :
    p.LoadsOrderly whole region ren above raw (loader depth p raw) ∨
      ∃ path source, ModulePath.parse raw = .ok path ∧ p.findPath? path = none ∧ p.sources.read path = .ok source := by
  cases named : ModulePath.parse raw with
  | error cause =>
    have answer (p : Program) (depth : Nat) : loader depth p raw = (.error (.invalidPath raw cause), p) := by
      rw [loader, named]
    rw [answer]
    exact Or.inl ⟨h, id, by rw [answer]; rfl, by simp⟩
  | ok path =>
    obtain ⟨inside, below⟩ := within named
    rw [loader_named named] at numbers ⊢
    cases unknown : p.findPath? path with
    | some k =>
      rw [loadPath_found unknown] at numbers ⊢
      exact Or.inl (.old complete h numbers named unknown fun higher => acyclic.acyclic inside (below path higher))
    | none =>
      cases read : p.sources.read path with
      | error cause =>
        rw [loadPath_unreadable unknown read]
        exact Or.inl (.refused complete h named read)
      | ok source => exact Or.inr ⟨path, source, rfl, unknown, read⟩

/-- A module that is not parsed comes to the record that the whole program has. -/
lemma LoadsOrderly.malformed {errors : List SyntaxError} (complete : whole.Whole region)
    (h : p.Orderly whole region ren above) (named : ModulePath.parse raw = .ok path) (inside : path ∈ region)
    (unknown : p.findPath? path = none) (read : p.sources.read path = .ok source)
    (parsed : Module.parse source = .error errors)
    (numbers : Numbers ren whole ((p.enter path source).finish p.modules.size (errors.map .malformed))) :
    p.LoadsOrderly whole region ren above raw
      (.ok p.modules.size, (p.enter path source).finish p.modules.size (errors.map .malformed)) := by
  have sources : p.sources = whole.sources := sources_of_settings h.settings
  obtain ⟨k, n, known, there, rfl, rfl, again⟩ := complete.record inside (sources ▸ read)
  let m : LoadedModule := ⟨n.path, .loading, n.source, none, .empty, none, []⟩
  have entered : (p.enter n.path n.source).Orderly whole region ren fun path => above path ∨ path = m.path :=
    h.enter inside read rfl rfl (h.cached.enter unknown) rfl fun _ => enter_modules
  have home : (p.enter n.path n.source).modules[p.modules.size]? = some m := enter_modules.trans (if_pos rfl)
  obtain ⟨m', finished, path⟩ := finish_path p.modules.size (errors.map .malformed) home
  have number : ren p.modules.size = k := numbers finished (path ▸ known)
  rw [finish_unimported (entered.unimported home rfl)]
  refine .new entered enter_kept home rfl named rfl (fun _ => rfl) rfl rfl nofun (number ▸ known) ?_
  rw [number, there, ← again, reloaded, parsed]
  rfl

/-- A module that is resolved comes to the record that the whole program has. -/
lemma LoadsOrderly.parsed (complete : whole.Whole region) (acyclic : whole.sources.Acyclic region)
    (injective : Function.Injective ren)
    (h : p.Orderly whole region ren above) (named : ModulePath.parse raw = .ok path)
    (within : whole.Within region above path) (unknown : p.findPath? path = none)
    (read : p.sources.read path = .ok source) (parsed : Module.parse source = .ok ast)
    (left : (p.starting path source ast).left readable ≤ depth)
    (numbers : Numbers ren whole ((p.tabled (loader depth) path source ast).finish p.modules.size
      (p.resolution (loader depth) path source ast).faults))
    (loads : ∀ {q : Program} {above raw}, q.Orderly whole region ren above →
      (∀ {path}, ModulePath.parse raw = .ok path → whole.Within region above path) → q.left readable ≤ depth →
      Numbers ren whole (loader depth q raw).2 → q.LoadsOrderly whole region ren above raw (loader depth q raw)) :
    p.LoadsOrderly whole region ren above raw (.ok p.modules.size, (p.tabled (loader depth) path source ast).finish
      p.modules.size (p.resolution (loader depth) path source ast).faults) := by
  have sources : p.sources = whole.sources := sources_of_settings h.settings
  obtain ⟨k, n, known, there, rfl, rfl, again⟩ := complete.record within.1 (sources ▸ read)
  let m : LoadedModule := ⟨n.path, .loading, n.source, some ast, .empty, none, []⟩
  let r := p.resolution (loader depth) n.path n.source ast
  have repeats : Repeats whole ren m.path p.modules.size depth (Statement.allMentions ast.statements)
      (p.Resolving whole region ren above m readable depth) :=
    Resolving.repeats acyclic rfl within (sources ▸ read) parsed loads
  have home : (p.starting n.path n.source ast).modules[p.modules.size]? = some m := starting_modules.trans (if_pos rfl)
  have start : p.Resolving whole region ren above m readable depth (p.starting n.path n.source ast) := by
    refine ⟨h.enter within.1 read rfl rfl (h.cached.starting unknown) rfl fun _ => starting_modules, ⟨.empty, home⟩,
      fun old => ?_, left⟩
    rw [starting_modules, if_neg (Nat.ne_of_lt (Array.getElem?_eq_some_iff.1 old).1), old]
  have new : (p.starting n.path n.source ast).exportsOf p.modules.size = .empty := by
    simp only [exportsOf, home]
    rfl
  have paths {i : Nat} {m} (found : r.program.modules[i]? = some m) :
      ∃ m', ((p.tabled (loader depth) n.path n.source ast).finish p.modules.size r.faults).modules[i]? = some m' ∧
        m'.path = m.path := by
    obtain ⟨m₁, found₁, path₁⟩ : ∃ m₁, (p.tabled (loader depth) n.path n.source ast).modules[i]? = some m₁ ∧
        m₁.path = m.path := by
      rw [tabled, modify_modules]
      split
      · exact ⟨_, congrArg (Option.map _) found, rfl⟩
      · exact ⟨m, found, rfl⟩
    obtain ⟨m₂, found₂, path₂⟩ := finish_path p.modules.size r.faults found₁
    exact ⟨m₂, found₂, path₂.trans path₁⟩
  have numbers' : Numbers ren whole r.program := numbers.of_paths paths
  obtain ⟨-, extension, -⟩ := (Resolve.module_changes (loader depth) ast
    (.start (p.starting n.path n.source ast) p.modules.size ast.span)).caches (loader_caches depth) starting_unloaded
  obtain ⟨m₁, found₁, path₁, -⟩ := extension.modules home
  have number : ren p.modules.size = k := numbers' found₁ (path₁ ▸ known)
  subst number
  obtain ⟨good, targets, resolved, faults, offers⟩ := repeats.resolvedAgain injective there start new numbers'
  obtain ⟨exports, home'⟩ := good.home
  have unimported := good.orderly.unimported home' rfl
  have final := @finish_unimported (p.tabled (loader depth) n.path n.source ast) p.modules.size r.faults unimported
  rw [final, tabled, modify_modify]
  have offered : r.program.exportsOf p.modules.size = exports := by
    simp only [exportsOf, r, Program.resolution, home']
  have done : p.LoadsOrderly whole region ren above raw (.ok p.modules.size, r.program.modify p.modules.size
      ((fun m => { m with faults := m.faults ++ r.faults, status := .loaded }) ∘ fun m =>
        { m with resolved := some r.resolved })) := by
    refine .new (m := { m with exports := exports }) good.orderly good.kept home' rfl named rfl (fun _ => rfl) rfl rfl
      ?_ known ?_
    · rw [← offered]
      exact targets
    · rw [there, ← again, reloaded, parsed, ← offered]
      simp only [resolved, faults, offers]
      rfl
  exact done

/-- In an orderly program, loading comes to what the whole program has. -/
theorem loader_orderly (complete : whole.Whole region) (acyclic : whole.sources.Acyclic region)
    (injective : Function.Injective ren)
    (finite : ∀ {path source}, path ∈ region → whole.sources.read path = .ok source → path ∈ readable)
    (h : p.Orderly whole region ren above)
    (within : ∀ {path}, ModulePath.parse raw = .ok path → whole.Within region above path)
    (left : p.left readable ≤ depth) (numbers : Numbers ren whole (loader depth p raw).2) :
    p.LoadsOrderly whole region ren above raw (loader depth p raw) := by
  induction depth generalizing p raw above with
  | zero =>
    obtain loads | ⟨path, source, named, unknown, read⟩ :=
      loader_orderly_cases 0 complete acyclic h within numbers
    · exact loads
    · have sources : p.sources = whole.sources := sources_of_settings h.settings
      have member : path ∈ readable.filter fun path => p.findPath? path = none :=
        Finset.mem_filter.2 ⟨finite (within named).1 (sources ▸ read), unknown⟩
      exact absurd (Finset.card_pos.2 ⟨path, member⟩) (Nat.not_lt.2 left)
  | succ depth ih =>
    obtain loads | ⟨path, source, named, unknown, read⟩ :=
      loader_orderly_cases (depth + 1) complete acyclic h within numbers
    · exact loads
    · have sources : p.sources = whole.sources := sources_of_settings h.settings
      rw [loader_named named] at numbers ⊢
      cases parsed : Module.parse source with
      | error errors =>
        rw [loadPath_malformed unknown read parsed] at numbers ⊢
        exact .malformed complete h named (within named).1 unknown read parsed numbers
      | ok ast =>
        rw [loadPath_parsed unknown read parsed] at numbers ⊢
        have fewer : (p.starting path source ast).left readable < p.left readable :=
          left_starting (finite (within named).1 (sources ▸ read)) unknown
        exact .parsed complete acyclic injective h named (within named) unknown read parsed (by omega) numbers ih

/-! ### Sessions -/

/-- Loads in an orderly program. -/
lemma Orderly.loadAll (complete : whole.Whole region) (acyclic : whole.sources.Acyclic region)
    (injective : Function.Injective ren)
    (finite : ∀ {path source}, path ∈ region → whole.sources.read path = .ok source → path ∈ readable)
    (limited : readable.card ≤ whole.sources.limit) (h : p.Orderly whole region ren fun _ => False) (paths : List String)
    (inside : ∀ raw ∈ paths, ∀ {path}, ModulePath.parse raw = .ok path → path ∈ region)
    (numbers : Numbers ren whole (p.loadAll paths)) : (p.loadAll paths).Orderly whole region ren fun _ => False := by
  induction paths generalizing p with
  | nil => exact h
  | cons raw paths ih =>
    have sources : p.sources = whole.sources := sources_of_settings h.settings
    have left : p.left readable ≤ p.sources.limit + 1 := Nat.le_succ_of_le (left_le_card.trans (sources ▸ limited))
    have within {path : ModulePath} (named : ModulePath.parse raw = .ok path) :
        whole.Within region (fun _ => False) path := ⟨inside raw List.mem_cons_self named, nofun⟩
    have numbers' : Numbers ren whole (loader (p.sources.limit + 1) p raw).2 :=
      numbers.of_paths (loadAll_extends paths).paths
    have loads := loader_orderly complete acyclic injective finite h within left numbers'
    exact ih loads.orderly (fun raw member => inside raw (List.mem_cons_of_mem _ member)) numbers

/-- The number of a module in a program that has a module of the same path, and a number behind all of them if it has
none. -/
def numberIn (whole p : Program) (i : Nat) : Nat :=
  (p.modules[i]?.bind fun m => whole.findPath? m.path).getD (whole.modules.size + i)

/-- Different modules have different numbers. -/
lemma numberIn_injective (cached : p.Cached) (cached' : whole.Cached) : Function.Injective (numberIn whole p) := by
  have known {i k : Nat} (number : (p.modules[i]?.bind fun m => whole.findPath? m.path) = some k) :
      ∃ m n, p.modules[i]? = some m ∧ whole.modules[k]? = some n ∧ n.path = m.path := by
    obtain ⟨m, found, known⟩ := Option.bind_eq_some_iff.1 number
    obtain ⟨n, there, path⟩ := cached'.found.1 known
    exact ⟨m, n, found, there, path⟩
  have below {i k : Nat} (number : (p.modules[i]?.bind fun m => whole.findPath? m.path) = some k) :
      k < whole.modules.size := by
    obtain ⟨m, n, -, there, -⟩ := known number
    exact (Array.getElem?_eq_some_iff.1 there).1
  intro i j same
  simp only [numberIn] at same
  cases here : p.modules[i]?.bind fun m => whole.findPath? m.path with
  | none =>
    cases there : p.modules[j]?.bind fun m => whole.findPath? m.path with
    | none =>
      rw [here, there] at same
      exact Nat.add_left_cancel same
    | some k =>
      rw [here, there] at same
      exact absurd (below there) (Nat.not_lt.2 (Nat.le.intro same))
  | some k =>
    cases there : p.modules[j]?.bind fun m => whole.findPath? m.path with
    | none =>
      rw [here, there] at same
      exact absurd (below here) (Nat.not_lt.2 (Nat.le.intro same.symm))
    | some k' =>
      rw [here, there] at same
      obtain rfl : k = k' := same
      obtain ⟨m, n, found, number, path⟩ := known here
      obtain ⟨m', n', found', number', path'⟩ := known there
      rw [number, Option.some.injEq] at number'
      exact cached.distinct found found' (path.symm.trans (number' ▸ path'))

lemma numbers_numberIn : Numbers (numberIn whole p) whole p := by
  intro i m k found known
  simp only [numberIn, found, Option.bind_some, known, Option.getD_some]

/-- A session comes to the records of a whole program. -/
lemma loadAll_whole (policy : GlobPolicy) (hosts : Hosts) {sources : Sources} {paths : List String}
    (settings : whole.settings = (sources, policy, hosts)) (complete : whole.Whole region)
    (acyclic : sources.Acyclic region)
    (finite : ∀ {path source}, path ∈ region → sources.read path = .ok source → path ∈ readable)
    (limited : readable.card ≤ sources.limit)
    (inside : ∀ raw ∈ paths, ∀ {path}, ModulePath.parse raw = .ok path → path ∈ region) :
    let p := (Program.new sources policy hosts).loadAll paths
    ∃ ren, Function.Injective ren ∧ p.Orderly whole region ren (fun _ => False) ∧
      ∀ {i : Nat} {m}, p.modules[i]? = some m → whole.findPath? m.path = some (ren i) := by
  intro p
  have same : whole.sources = sources := congrArg Prod.fst settings
  have injective : Function.Injective (numberIn whole p) := numberIn_injective (cached_new.loadAll paths) complete.cached
  have orderly : p.Orderly whole region (numberIn whole p) fun _ => False :=
    (Orderly.new settings).loadAll complete (same ▸ acyclic) injective (same ▸ finite) (same ▸ limited) paths inside
      numbers_numberIn
  refine ⟨_, injective, orderly, fun found => ?_⟩
  obtain ⟨here, read⟩ := orderly.inside found
  have kept : p.sources = whole.sources := sources_of_settings orderly.settings
  obtain ⟨k, known⟩ := complete.complete here (kept ▸ read)
  rw [known, numbers_numberIn found known]

/-- A session has just the modules that can be read and that the imports of its paths lead to. -/
lemma findPath_reach {sources : Sources} {policy : GlobPolicy} {hosts : Hosts} {paths : List String}
    (limited : readable.card ≤ sources.limit)
    (reads : ∀ path ∈ sources.reach paths, ∀ source, sources.read path = .ok source → path ∈ readable)
    (acyclic : ∀ path ∈ sources.reach paths, ¬ TransGen sources.Imports path path) :
    (∃ i, ((Program.new sources policy hosts).loadAll paths).findPath? path = some i) ↔
      path ∈ sources.reach paths ∧ ∃ source, sources.read path = .ok source := by
  constructor
  · rintro ⟨i, known⟩
    have finite {path : ModulePath} {source : String} (member : path ∈ sources.reach paths)
        (read : sources.read path = .ok source) : path ∈ readable := reads path member source read
    obtain ⟨whole, settings, complete⟩ := exists_whole sources policy hosts (Sources.reach_acyclic acyclic) finite
    obtain ⟨ren, -, orderly, -⟩ := loadAll_whole policy hosts settings complete (Sources.reach_acyclic acyclic) finite
      limited fun raw here {path} named => ⟨raw, here, path, named, .refl⟩
    obtain ⟨m, found, rfl⟩ := orderly.cached.found.1 known
    obtain ⟨inside, read⟩ := orderly.inside found
    rw [sources_of_settings (orderly.settings.trans settings : _ = (Program.new sources policy hosts).settings)] at read
    exact ⟨inside, _, read⟩
  · rintro ⟨member, source, read⟩
    exact loadAll_reached sources policy hosts paths reads limited member read

/-- Sessions that come to the records of one whole program come to the same. -/
lemma Orderly.same {ren' : ModuleId → ModuleId} (h : p.Orderly whole region ren fun _ => False)
    (h' : q.Orderly whole region ren' fun _ => False) (complete : whole.Whole region) (injective : Function.Injective ren')
    (numbers : ∀ {i : Nat} {m}, p.modules[i]? = some m → whole.findPath? m.path = some (ren i))
    (numbers' : ∀ {i : Nat} {m}, q.modules[i]? = some m → whole.findPath? m.path = some (ren' i)) :
    ∃ same : ModuleId → ModuleId, ∀ {i k : Nat} {m m'}, p.modules[i]? = some m → q.modules[k]? = some m' →
      (same i = k ↔ m.path = m'.path) ∧ (m.path = m'.path → m' = m.rename same) := by
  have loaded {p : Program} {ren : ModuleId → ModuleId} (h : p.Orderly whole region ren fun _ => False) {i : Nat}
      {m : LoadedModule} (found : p.modules[i]? = some m) : m.status = .loaded := by
    cases status : m.status with
    | loaded => rfl
    | loading => cases h.loading found status
  -- what has no number in the second session gets one behind all of its modules
  let back (i : Nat) : Nat := (Function.partialInv ren' i).getD (q.modules.size + i)
  have inverse : back ∘ ren' = id := by
    funext k
    simp only [back, Function.comp_apply, Function.partialInv_left injective, Option.getD_some, id]
  refine ⟨back ∘ ren, fun {i k m m'} found found' => ?_⟩
  have there := numbers found
  have there' := numbers' found'
  have equal (path : m.path = m'.path) : ren i = ren' k := by
    rw [path, there'] at there
    exact (Option.some.inj there).symm
  refine ⟨⟨fun same => ?_, fun path => ?_⟩, fun path => ?_⟩
  · obtain ⟨n, known, path⟩ := complete.cached.found.1 there
    obtain ⟨n', known', path'⟩ := complete.cached.found.1 there'
    have number : ren i = ren' k := by
      simp only [Function.comp_apply, back] at same
      cases inverted : Function.partialInv ren' (ren i) with
      | none =>
        rw [inverted, Option.getD_none] at same
        have inside := (Array.getElem?_eq_some_iff.1 found').1
        exact absurd inside (Nat.not_lt.2 (Nat.le.intro same))
      | some k' =>
        rw [inverted, Option.getD_some] at same
        exact same ▸ ((injective.isPartialInv k' (ren i)).1 inverted).symm
    rw [number, known', Option.some.injEq] at known
    rw [← path, ← path', known]
  · show back (ren i) = k
    rw [equal path]
    exact congrFun inverse k
  · have alike := h.alike found (loaded h found)
    rw [equal path, h'.alike found' (loaded h' found'), Option.some.injEq] at alike
    rw [← LoadedModule.rename_rename, ← alike, LoadedModule.rename_rename, inverse, LoadedModule.rename_id]

/-- Without import cycles the order of loading does not matter: behind any two sequences of loads, every module that both
sessions have has the same record in both, faults, exports, scopes, bindings, references and types, when the modules of one
are given the numbers that the modules of the same paths have in the other. Each session has just the modules that can be
read and that the imports of its paths lead to. -/
theorem loadAll_order (sources : Sources) (policy : GlobPolicy) (hosts : Hosts) (paths paths' : List String)
    (readable : Finset ModulePath) (limited : readable.card ≤ sources.limit)
    (reads : ∀ path ∈ sources.reach (paths ++ paths'), ∀ source, sources.read path = .ok source → path ∈ readable)
    (acyclic : ∀ path ∈ sources.reach (paths ++ paths'), ¬ TransGen sources.Imports path path) :
    let p := (Program.new sources policy hosts).loadAll paths
    let q := (Program.new sources policy hosts).loadAll paths'
    (∃ ren : ModuleId → ModuleId, ∀ {i k : Nat} {m m'}, p.modules[i]? = some m → q.modules[k]? = some m' →
      (ren i = k ↔ m.path = m'.path) ∧ (m.path = m'.path → m' = m.rename ren)) ∧
    ∀ path, ((∃ i, p.findPath? path = some i) ↔ path ∈ sources.reach paths ∧ ∃ source, sources.read path = .ok source) ∧
      ((∃ k, q.findPath? path = some k) ↔ path ∈ sources.reach paths' ∧ ∃ source, sources.read path = .ok source) := by
  intro p q
  have first {path : ModulePath} : path ∈ sources.reach paths → path ∈ sources.reach (paths ++ paths') := by
    rintro ⟨raw, here, root, way⟩
    exact ⟨raw, List.mem_append_left _ here, root, way⟩
  have second {path : ModulePath} : path ∈ sources.reach paths' → path ∈ sources.reach (paths ++ paths') := by
    rintro ⟨raw, here, root, way⟩
    exact ⟨raw, List.mem_append_right _ here, root, way⟩
  have region := Sources.reach_acyclic acyclic
  have finite {path : ModulePath} {source : String} (member : path ∈ sources.reach (paths ++ paths'))
      (read : sources.read path = .ok source) : path ∈ readable := reads path member source read
  refine ⟨?_, fun path => ⟨?_, ?_⟩⟩
  · obtain ⟨whole, settings, complete⟩ := exists_whole sources policy hosts region finite
    obtain ⟨ren, -, orderly, numbers⟩ := loadAll_whole policy hosts settings complete region finite limited
      fun raw here {path} named => first ⟨raw, here, path, named, .refl⟩
    obtain ⟨ren', injective, orderly', numbers'⟩ := loadAll_whole policy hosts settings complete region finite limited
      fun raw here {path} named => second ⟨raw, here, path, named, .refl⟩
    exact orderly.same orderly' complete injective numbers numbers'
  · exact findPath_reach limited (fun path member => reads path (first member)) fun path member => acyclic path (first member)
  · exact findPath_reach limited (fun path member => reads path (second member)) fun path member =>
      acyclic path (second member)

end Program

/-- The paths that a module imports, if it can be read and parsed. -/
def Sources.imported (s : Sources) (path : ModulePath) : List ModulePath :=
  match s.read path with
  | .ok source =>
    match Module.parse source with
    | .ok ast => (Statement.allMentions ast.statements).filterMap fun
      | .importing i => (ModulePath.parse i.path).toOption
      | .use _ => none
    | .error _ => []
  | .error _ => []

lemma Sources.Imports.imported {s : Sources} {path path' : ModulePath} (h : s.Imports path path') :
    path' ∈ s.imported path := by
  obtain ⟨source, ast, i, read, parsed, member, named⟩ := h
  simp only [Sources.imported, read, parsed, List.mem_filterMap]
  exact ⟨_, member, by simp [named, Except.toOption]⟩

/-- Imports that go down in rank have no cycles. -/
lemma Sources.acyclic_of_rank {s : Sources} (rank : ModulePath → Nat)
    (falls : ∀ path, ∀ path' ∈ s.imported path, rank path' < rank path) (path : ModulePath) :
    ¬ TransGen s.Imports path path := by
  have down {path path' : ModulePath} (way : TransGen s.Imports path path') : rank path' < rank path := by
    induction way with
    | single imports => exact falls _ _ imports.imported
    | tail _ imports ih => exact Nat.lt_trans (falls _ _ imports.imported) ih
  exact fun way => Nat.lt_irrefl _ (down way)

namespace Program

/-- A module that two others import which a third one imports. -/
def diamond : Texts := .ofList [
  ("main.kcl", "import y from \"left\"\nimport z from \"right\"\nx = y\n"),
  ("left.kcl", "import z from \"base\"\nexport y = z\n"),
  ("right.kcl", "export import z from \"base\"\n"),
  ("base.kcl", "export z = true\n")]

/-- How far above the others a module of the diamond is. -/
def diamondRank (path : ModulePath) : Nat :=
  if path.file = "main.kcl" then 2 else if path.file = "base.kcl" then 0 else 1

/-- The module at the bottom comes to the same record from the top and from the side, under another number. -/
theorem loadAll_order_diamond :
    let sources := Sources.ofTexts diamond
    let p := (new sources .eager .prelude).loadAll ["main"]
    let q := (new sources .eager .prelude).loadAll ["right", "main", "right"]
    diamond.paths.card ≤ sources.limit ∧
      (∀ path ∈ sources.reach (["main"] ++ ["right", "main", "right"]), ∀ source,
        sources.read path = .ok source → path ∈ diamond.paths) ∧
      (∀ path ∈ sources.reach (["main"] ++ ["right", "main", "right"]), ¬ TransGen sources.Imports path path) ∧
      ∃ ren m m', p.modules[2]? = some m ∧ q.modules[1]? = some m' ∧ m.path = ⟨none, "base.kcl"⟩ ∧ ren 2 = 1 ∧
        m' = m.rename ren := by
  intro sources p q
  obtain ⟨limited, reads⟩ := Sources.ofTexts_paths diamond
  have falls (path : ModulePath) : ∀ path' ∈ sources.imported path, diamondRank path' < diamondRank path := by
    have checked : ∀ path ∈ diamond.paths, ∀ path' ∈ sources.imported path, diamondRank path' < diamondRank path := by
      decide +kernel
    by_cases there : path ∈ diamond.paths
    · exact checked path there
    · have none : sources.imported path = [] := by
        cases read : sources.read path with
        | ok source => exact absurd (reads path source read) there
        | error cause => simp only [Sources.imported, read]
      simp [none]
  have acyclic (path : ModulePath) : ¬ TransGen sources.Imports path path := Sources.acyclic_of_rank diamondRank falls path
  obtain ⟨⟨ren, same⟩, -⟩ := loadAll_order sources .eager .prelude ["main"] ["right", "main", "right"] diamond.paths limited
    (fun path _ => reads path) fun path _ => acyclic path
  have first : p.modules[2]?.map LoadedModule.path = some ⟨none, "base.kcl"⟩ := by decide +kernel
  have second : q.modules[1]?.map LoadedModule.path = some ⟨none, "base.kcl"⟩ := by decide +kernel
  obtain ⟨m, found, path⟩ := Option.map_eq_some_iff.1 first
  obtain ⟨m', found', path'⟩ := Option.map_eq_some_iff.1 second
  obtain ⟨number, alike⟩ := same found found'
  exact ⟨limited, fun path _ => reads path, fun path _ => acyclic path, ren, m, m', found, found', path,
    number.2 (path.trans path'.symm), alike (path.trans path'.symm)⟩

end Program

end PipeLang
