import PipeLang.Proofs.Load.Laid
import PipeLang.Proofs.Load.Provenance
import PipeLang.Proofs.Resolve.Guided
import PipeLang.Proofs.Syntax.Demanded

/-!
# What serves the uses in a module

What a use in a module stands for belongs to the module itself or to one that has been imported before the use, or again before
what that one exports. If modules that have run have imported modules that have, all of that has run when the use is come to:
`Program.loadAll_served`, and `Program.loadAll_servedAtTop` for the names at the top level of a module.
-/

namespace PipeLang

/-- What is known of a place that was recorded once is what was recorded. -/
lemma SpanTable.KeyedOnce.get?_eq {α : Type} {t : SpanTable α} (h : t.KeyedOnce) {site : Span} {x : α}
    (member : (site, x) ∈ t.entries) : t.get? site = some x := by
  obtain ⟨before, behind, split⟩ := List.append_of_mem member
  have apart : site ∉ before.map Prod.fst := by
    rw [KeyedOnce, split, List.map_append, List.nodup_append] at h
    exact fun early => h.2.2 site early site List.mem_cons_self rfl
  have none : before.lookup site = none := by
    refine List.lookup_eq_none_iff.2 fun entry early => ?_
    simpa using fun same : site = entry.1 => apart (same ▸ List.mem_map_of_mem early)
  rw [get?, split, List.lookup_append, none, List.lookup_cons_self, Option.none_or]

/-- No two uses in a text are at one place. -/
lemma Module.demands_nodup {source : String} {m : Module} (parsed : Module.parse source = .ok m) :
    ((Statement.allDemands m.statements []).map Demand.site).Nodup := by
  refine nodup_of_subperm m.demanded (List.nodup_append'.2 ⟨Module.places_nodup parsed .identifier nofun,
    Module.places_nodup parsed .path nofun, fun site name path => ?_⟩)
  simp only [Node.places, Node.allOf, List.append_nil, List.mem_map, List.mem_filter, decide_eq_true_eq] at name path
  obtain ⟨n, ⟨inside, kind⟩, rfl⟩ := name
  obtain ⟨n', ⟨inside', kind'⟩, same⟩ := path
  exact (Module.parse_identified parsed).apart n' inside' n inside kind' kind same

namespace Program

variable {p : Program} {id source : ModuleId} {done : ModuleId → Prop} {t : Resolved} {ast : Module} {l : LoadedModule}

/-- A module imports another at its top level. -/
def ImportsAtTop (p : Program) (id target : ModuleId) : Prop :=
  ∃ l ast t i, p.modules[(id : Nat)]? = some l ∧ l.ast = some ast ∧ l.resolved = some t ∧
    Statement.importing i ∈ ast.statements ∧ t.imports.get? i.span = some target

/-- Modules that have run have imported modules that have. -/
def ClosedAtTop (p : Program) (done : ModuleId → Prop) : Prop :=
  ∀ {id target}, done id → p.ImportsAtTop id target → done target

/-- A use in a module stands for what belongs to the module itself, or to a module that has run, if the modules have run that
are imported before it. -/
def Serves (p : Program) (id : ModuleId) (d : Demand) : Prop :=
  ∀ {done : ModuleId → Prop} {t}, p.ClosedAtTop done → p.resolvedOf id = some t →
    (∀ s ∈ d.behind, ∀ target, t.imports.get? s = some target → done target) → ∀ ref, t.references.get? d.site = some ref →
      (∀ source item, ref.target = .item source item → source = id ∨ done source) ∧
        ∀ source, ref.target = .module source → done source

/-- Every use in a module is served. -/
def Served (p : Program) : Prop :=
  ∀ {id : ModuleId} {l ast}, p.modules[(id : Nat)]? = some l → l.isUsable = true → l.ast = some ast →
    ∀ d ∈ Statement.allDemands ast.statements [], p.Serves id d

/-- What a name at the top level of a module that has run stands for belongs to a module that has run. -/
def ServedAtTop (p : Program) : Prop :=
  ∀ {id : ModuleId} {done : ModuleId → Prop} {t name b source item}, p.Usable id → p.ClosedAtTop done → done id →
    p.resolvedOf id = some t → t.topLevel? name = some b → b.target = .item source item → done source

/-- A target belongs to a module itself, or to modules that have run. -/
def Backs (p : Program) (id : ModuleId) (done : ModuleId → Prop) : Target → Prop
  | .item source _ => source = id ∨ done source
  | .module source => p.Usable source ∧ done source
  | _ => True

/-- What belongs to a module that has run belongs to modules that have. -/
lemma Backs.ran {target : Target} (h : p.Backs source done target) (ran : done source) : p.Backs id done target := by
  cases target with
  | item owner name => exact Or.inr (h.elim (fun same => same ▸ ran) fun ran => ran)
  | module other => exact h
  | _ => trivial

/-- How the tables of a module come about: what they hold is recorded for the uses in the module and for its import statements. -/
structure Guided (p : Program) (id : ModuleId) (ast : Module) (t : Resolved) (r : Resolution) : Prop where
  program : r.program = p
  home : r.home = id
  tables : r.resolved = t
  keyed : r.KeyedOnce
  distinct : ((Statement.allDemands ast.statements []).map Demand.site).Nodup
  references : ∀ entry ∈ t.references.entries, ∃ d ∈ Statement.allDemands ast.statements [], d.site = entry.1 ∧
    r.Means d.behind entry.2.target
  given : ∀ {i : Nat} {b}, t.scopes.bindings[i]? = some b → b.scope ∈ t.scopes.path Scopes.root →
    r.Given (Statement.allPassed ast.statements []) b.target

/-- Behind any loads, the tables of every module come about so. -/
theorem loadAll_guided {sources : Sources} {policy : GlobPolicy} {hosts : Hosts} {paths : List String}
    (found : ((new sources policy hosts).loadAll paths).modules[(id : Nat)]? = some l) (parsed : l.ast = some ast)
    (resolved : l.resolved = some t) : ∃ r, ((new sources policy hosts).loadAll paths).Guided id ast t r := by
  cases loadAll_opened found (by simp [resolved]) with
  | @mk q raw depth a settings canonical opens home ast' tables faults retains =>
    cases ast'.symm.trans parsed
    cases resolved.symm.trans tables
    obtain ⟨path, source, parses, start⟩ := opens.start
    obtain ⟨hi, moves⟩ := opens.moves canonical.isOffers
    have loads : (loader depth).Retains := fun p raw => (loader_keeps depth p raw).retains
    have guides : a.start.Guides (Statement.allPassed a.ast.statements []) (Statement.allDemands a.ast.statements []) a.finished := by
      rw [Pending.finished, opens.depth_eq, start]
      exact Resolve.module_guides loads a.ast _ Resolution.start_behind
    have behind : a.finished.Behind (Statement.allPassed a.ast.statements [] ++ []) :=
      guides.behind (start ▸ Resolution.start_behind)
    refine ⟨{ a.finished with program := _ }, rfl, (opens.finished_home canonical.isOffers).trans home, rfl, ?_,
      Module.demands_nodup parses, fun entry member => ?_, fun bound around => ?_⟩
    · have keyed : a.finished.KeyedOnce := moves.keyedOnce (start ▸ Resolution.start_keyedOnce)
      exact { keyed with }
    · rcases guides.references entry member with before | ⟨d, among, site, means⟩
      · rw [start] at before
        cases before
      · exact ⟨d, among, site, means.later rfl (List.Subset.refl _) retains⟩
    · have top : a.finished.current = Scopes.root := by
        rw [guides.current, start]
        rfl
      have given := behind.given bound (top ▸ around)
      exact given.later rfl (List.Subset.refl _) retains (List.append_nil _ ▸ List.Subset.refl _)

section

variable {r : Resolution} (rest : p.AtRest) (guided : p.Guided id ast t r) (usable : p.Usable id) (tables : p.resolvedOf id = some t)
include rest guided usable tables

/-- What a resolution has recorded of an import is known in the tables, and the module can be used. -/
lemma Guided.imported {site : Span} (known : (site, source) ∈ r.imports.entries) :
    t.imports.get? site = some source ∧ p.Usable source := by
  have recorded : t.imports.get? site = some source := guided.tables ▸ guided.keyed.imports.get?_eq known
  exact ⟨recorded, rest.import_usable usable ⟨t, site, tables, recorded⟩⟩

variable {passed : List Span} {target : Target} (brings : ∀ s ∈ passed, ∀ other, t.imports.get? s = some other → done other)
  (shows : ∀ {other : ModuleId} {e : Export}, p.Usable other → done other → e ∈ (p.exportsOf other).entries →
    p.Backs other done e.target)
include brings shows

/-- What a name stands for behind imports of modules that have run. -/
lemma Guided.given_backs (given : r.Given passed target) : p.Backs id done target := by
  cases given with
  | inner => trivial
  | own => exact Or.inl guided.home
  | invalid => trivial
  | module member known =>
    obtain ⟨recorded, usable'⟩ := guided.imported rest usable tables known
    exact ⟨usable', brings _ member _ recorded⟩
  | exported member known shown =>
    obtain ⟨recorded, usable'⟩ := guided.imported rest usable tables known
    have ran := brings _ member _ recorded
    exact (shows usable' ran (guided.program ▸ shown)).ran ran

/-- What a use denotes behind imports of modules that have run. -/
lemma Guided.means_backs (means : r.Means passed target) : p.Backs id done target := by
  induction means with
  | given given => exact guided.given_backs rest usable tables brings shows given
  | host => trivial
  | through _ shown ih => exact (shows ih.1 ih.2 (guided.program ▸ shown)).ran ih.2

end

section

variable {sources : Sources} {policy : GlobPolicy} {hosts : Hosts} {paths : List String}
  (importing : WellFounded fun other id => ((new sources policy hosts).loadAll paths).Imports id other)
include importing

/-- What a module exports that has run belongs to modules that have. -/
lemma loadAll_exports_back (closed : ((new sources policy hosts).loadAll paths).ClosedAtTop done) {e : Export}
    (usable : ((new sources policy hosts).loadAll paths).Usable id) (ran : done id)
    (member : e ∈ (((new sources policy hosts).loadAll paths).exportsOf id).entries) :
    ((new sources policy hosts).loadAll paths).Backs id done e.target := by
  have rest : ((new sources policy hosts).loadAll paths).AtRest := (atRest_new.loadAll paths).1
  -- by induction on what the module imports
  induction id using importing.induction generalizing e with
  | _ id ih =>
    obtain ⟨l, found, fine⟩ := usable
    obtain ⟨t, resolved⟩ := Option.isSome_iff_exists.1 (rest.sound.usable found fine)
    obtain ⟨ast, clean, settled⟩ := rest.sound.settled found resolved
    rw [exportsOf, found] at member
    obtain ⟨s, among, shows⟩ := loadAll_provenance found fine settled.parsed resolved member
    have tables := (resolvedOf_some found).trans resolved
    cases shows with
    | define _ _ target => exact target ▸ Or.inl rfl
    | @importing i source recorded _ shown =>
      have imports : ((new sources policy hosts).loadAll paths).Imports id source := ⟨t, i.span, tables, recorded⟩
      have usable' := rest.import_usable ⟨l, found, fine⟩ imports
      have ran' : done source := closed ran ⟨l, ast, t, i, found, settled.parsed, resolved, among, recorded⟩
      rcases shown with target | ⟨e', member', target⟩
      · exact target ▸ ⟨usable', ran'⟩
      · exact target ▸ (ih source imports usable' ran' member').ran ran'

/-- Behind any loads without import cycles, every use is served. -/
theorem loadAll_served : ((new sources policy hosts).loadAll paths).Served := by
  have rest : ((new sources policy hosts).loadAll paths).AtRest := (atRest_new.loadAll paths).1
  intro id l ast found fine parsed d among done t closed tables brings ref known
  have resolved : l.resolved = some t := (resolvedOf_some found).symm.trans tables
  obtain ⟨r, guided⟩ := loadAll_guided found parsed resolved
  obtain ⟨d', among', site, means⟩ := guided.references _ (mem_of_lookup known)
  obtain rfl : d' = d := List.inj_on_of_nodup_map guided.distinct among' among site
  have backs := guided.means_backs rest ⟨l, found, fine⟩ tables brings
    (fun usable ran member => loadAll_exports_back importing closed usable ran member) means
  refine ⟨fun source item target => ?_, fun source target => ?_⟩
  · rw [target] at backs
    exact backs
  · rw [target] at backs
    exact backs.2

/-- Behind any loads without import cycles, names at the top level are served. -/
theorem loadAll_servedAtTop : ((new sources policy hosts).loadAll paths).ServedAtTop := by
  have rest : ((new sources policy hosts).loadAll paths).AtRest := (atRest_new.loadAll paths).1
  intro id done t name b source item usable closed ran tables meant target
  obtain ⟨l, found, fine⟩ := usable
  have resolved : l.resolved = some t := (resolvedOf_some found).symm.trans tables
  obtain ⟨ast, clean, settled⟩ := rest.sound.settled found resolved
  obtain ⟨r, guided⟩ := loadAll_guided found settled.parsed resolved
  unfold Resolved.topLevel? at meant
  split at meant
  · next i looked =>
    obtain ⟨b', bound, around⟩ := Scopes.lookupAlong_found looked
    cases meant.symm.trans bound
    have brings : ∀ s ∈ Statement.allPassed ast.statements [], ∀ other, t.imports.get? s = some other → done other := by
      intro s passed other recorded
      obtain ⟨i, among, rfl⟩ := (Statement.of_mem_allPassed passed).resolve_left nofun
      exact closed ran ⟨l, ast, t, i, found, settled.parsed, resolved, among, recorded⟩
    have backs := guided.given_backs rest ⟨l, found, fine⟩ tables brings
      (fun usable ran member => loadAll_exports_back importing closed usable ran member) (guided.given bound around)
    rw [target] at backs
    exact backs.elim (fun same => same ▸ ran) fun ran' => ran'
  · cases meant

end

end Program

end PipeLang
