import Mathlib.Logic.Relation
import PipeLang.Load
import PipeLang.Proofs.Resolve.Settled
import PipeLang.Proofs.Resolve.Tidy

/-!
# Sound programs

What a program keeps to while modules are loaded, also in import cycles. An import is known by an edge until the module
fails that it imports, and then the importer fails as well; a module fails only where its imports lead to a module with
a fault of its own. Main statement: `Sound.propagate`.
-/

namespace PipeLang

/-- What the resolutions that are under way know beyond the program: what they have imported, and which modules have
faults that are not yet recorded. -/
structure Underway where
  imports : ModuleId → ModuleId → Prop
  faulty : ModuleId → Prop

/-- No resolution is under way. -/
def Underway.none : Underway :=
  ⟨fun _ _ => False, fun _ => False⟩

/-- The module of a target is one that another leads to. -/
def Target.Reached (leads : ModuleId → ModuleId → Prop) (start : ModuleId) : Target → Prop
  | .module id | .item id _ => Relation.ReflTransGen leads start id
  | _ => True

lemma Target.Reached.mono {leads leads' : ModuleId → ModuleId → Prop} {start : ModuleId} {target : Target}
    (h : target.Reached leads start) (more : ∀ i t, leads i t → leads' i t) : target.Reached leads' start := by
  cases target with
  | module id | item id name => exact Relation.ReflTransGen.mono more _ _ h
  | _ => trivial

/-- What an imported module gets at, its importer gets at. -/
lemma Target.Reached.through {leads : ModuleId → ModuleId → Prop} {start next : ModuleId} {target : Target}
    (h : target.Reached leads next) (way : Relation.ReflTransGen leads start next) : target.Reached leads start := by
  cases target with
  | module id | item id name => exact way.trans h
  | _ => trivial

/-- What a resolution has left of a module: the syntax is settled, and what the names denote can be got at. -/
structure LoadedModule.Settled (p : Program) (leads : ModuleId → ModuleId → Prop) (id : ModuleId)
    (m : LoadedModule) (t : Resolved) (ast : Module) (clean : Prop) : Prop where
  parsed : m.ast = some ast
  faultless : m.faults = [] → clean
  nested : t.scopes.Nested
  reached : ∀ {s ref}, t.references.get? s = some ref → ref.target.Reached leads id
  valid : ∀ {s ref}, t.references.get? s = some ref → ref.target ≠ .invalid
  host : ∀ {s ref name}, t.references.get? s = some ref → ref.target = .host name → (p.hosts.get? name).isSome
  bound : ∀ id name, t.scopes.target id ≠ .host name
  tags : ∀ {loop collected}, t.loopTags.get? loop = some collected → ∀ tag ∈ collected, t.scopes.IsTag tag
  statements : ∀ q, p.Retains q → q.Offers → ∀ s ∈ ast.statements, Statement.Settled q t clean Scopes.root false s

/-- What is settled stays so in later programs. -/
lemma LoadedModule.Settled.later {p p' : Program} {leads : ModuleId → ModuleId → Prop} {id : ModuleId} {m : LoadedModule}
    {t : Resolved} {ast : Module} {clean : Prop} (h : m.Settled p leads id t ast clean) (retains : p.Retains p') :
    m.Settled p' leads id t ast clean :=
  { h with
    host := fun found same => retains.hosts ▸ h.host found same
    statements := fun q later offers => h.statements q (retains.trans later) offers }

/-- A module of which the same is known, but for what it offers. -/
structure LoadedModule.Alike (m m' : LoadedModule) : Prop where
  resolved : m'.resolved = m.resolved
  faults : m'.faults = m.faults
  status : m'.status = m.status
  ast : m'.ast = m.ast ∨ (m.resolved = none ∧ m.status = .loading)

/-- What a sound program keeps to in a module by itself. -/
structure LoadedModule.Sound (p : Program) (leads : ModuleId → ModuleId → Prop) (id : ModuleId) (m : LoadedModule) :
    Prop where
  exports : ∀ e ∈ m.exports.entries, e.target.Reached leads id
  settled : ∀ {t}, m.resolved = some t → ∃ ast clean, m.Settled p leads id t ast clean
  usable : m.isUsable = true → m.resolved.isSome
  parsed : m.status = .loaded → m.ast.isSome → m.resolved.isSome

namespace LoadedModule

variable {p p' : Program} {leads leads' : ModuleId → ModuleId → Prop} {id : ModuleId} {m m' : LoadedModule}

/-- A module stays sound in later programs, where imports lead as far. -/
lemma Sound.later (h : m.Sound p leads id) (retains : p.Retains p') (more : ∀ i t, leads i t → leads' i t) :
    m.Sound p' leads' id where
  exports e member := (h.exports e member).mono more
  settled resolved := by
    obtain ⟨ast, clean, settled⟩ := h.settled resolved
    exact ⟨ast, clean, { settled.later retains with reached := fun known => (settled.reached known).mono more }⟩
  usable := h.usable
  parsed := h.parsed

/-- A module may offer more, as long as it gets at what it offers. -/
lemma Sound.alike (h : m.Sound p leads id) (alike : m.Alike m') (exports : ∀ e ∈ m'.exports.entries, e.target.Reached leads id) :
    m'.Sound p leads id where
  exports := exports
  settled resolved := by
    rw [alike.resolved] at resolved
    obtain ⟨ast, clean, settled⟩ := h.settled resolved
    have parsed : m'.ast = some ast := (alike.ast.resolve_right (by simp [resolved])).trans settled.parsed
    exact ⟨ast, clean, { settled with parsed, faultless := alike.faults ▸ settled.faultless }⟩
  usable usable := by
    rw [alike.resolved]
    apply h.usable
    simpa [isUsable, alike.status, alike.faults] using usable
  parsed loaded parsed := by
    rw [alike.status] at loaded
    rw [alike.ast.resolve_right (by simp [loaded])] at parsed
    rw [alike.resolved]
    exact h.parsed loaded parsed

/-- With a fault a module cannot be used, and nothing is asked of what is left of it but that it is settled. -/
lemma Sound.failed (h : m.Sound p leads id) (f : Fault) : ({ m with faults := [f] } : LoadedModule).Sound p leads id where
  exports := h.exports
  settled resolved := by
    obtain ⟨ast, clean, settled⟩ := h.settled resolved
    exact ⟨ast, clean, { settled with parsed := settled.parsed, faultless := by simp }⟩
  usable usable := by simp [isUsable] at usable
  parsed := h.parsed

/-- A module that has just been entered has nothing yet. -/
lemma sound_entered (path : ModulePath) (source : String) :
    (⟨path, .loading, source, none, .empty, none, []⟩ : LoadedModule).Sound p leads id where
  exports e member := by simp [Exports.empty] at member
  settled := nofun
  usable usable := by simp [isUsable] at usable
  parsed := nofun

end LoadedModule

namespace Program

/-- What resolution found out about a module, if it is done. -/
def resolvedOf (p : Program) (id : ModuleId) : Option Resolved :=
  (p.modules[(id : Nat)]?).bind LoadedModule.resolved

/-- The faults of a module. -/
def faultsOf (p : Program) (id : ModuleId) : List Fault :=
  ((p.modules[(id : Nat)]?).map LoadedModule.faults).getD []

/-- An import that has been recorded. -/
def Imports (p : Program) (importer target : ModuleId) : Prop :=
  ∃ t site, p.resolvedOf importer = some t ∧ t.imports.get? site = some target

/-- An import that has been recorded or is under way. -/
def Leads (p : Program) (u : Underway) (importer target : ModuleId) : Prop :=
  p.Imports importer target ∨ u.imports importer target

/-- A module with faults. -/
def Fails (p : Program) (id : ModuleId) : Prop :=
  p.faultsOf id ≠ []

/-- A module with a fault that is not passed on from another. -/
def FailsItself (p : Program) (id : ModuleId) : Prop :=
  ∃ f ∈ p.faultsOf id, f.isPassedOn = false

/-- A program while resolutions are under way and the importers of some failed modules have not been told. -/
structure Sound (u : Underway) (dirty : List ModuleId) (p : Program) : Prop where
  edges : ∀ e ∈ p.edges, p.Leads u e.importer e.target ∧ (e.importer : Nat) < p.modules.size
  told : ∀ e ∈ p.edges, ∀ m, p.modules[(e.target : Nat)]? = some m → m.status = .loaded → m.faults ≠ [] →
    e.target ∈ dirty
  dirty : ∀ t ∈ dirty, p.Fails t
  imports : ∀ {i t : Nat}, p.Leads u i t → t < p.modules.size ∧
    ((∃ e ∈ p.edges, e.importer = i ∧ e.target = t) ∨ p.Fails i ∨ u.faulty i)
  fails : ∀ {i}, p.Fails i → ∃ j, Relation.ReflTransGen (p.Leads u) i j ∧ p.FailsItself j
  exports : ∀ {i : Nat} {m}, p.modules[i]? = some m → ∀ e ∈ m.exports.entries, e.target.Reached (p.Leads u) i
  settled : ∀ {i : Nat} {m t}, p.modules[i]? = some m → m.resolved = some t →
    ∃ ast clean, m.Settled p (p.Leads u) i t ast clean
  usable : ∀ {i : Nat} {m}, p.modules[i]? = some m → m.isUsable = true → m.resolved.isSome
  parsed : ∀ {i : Nat} {m}, p.modules[i]? = some m → m.status = .loaded → m.ast.isSome → m.resolved.isSome

/-- A later program: no module is lost, and what is still loading was there before. -/
structure Grows (p p' : Program) : Prop where
  hosts : p'.hosts = p.hosts
  modules : ∀ {i : Nat} {m}, p.modules[i]? = some m → ∃ m', p'.modules[i]? = some m' ∧ m'.status = m.status ∧
    m'.ast = m.ast ∧ m'.resolved = m.resolved ∧ m.faults ⊆ m'.faults
  loading : ∀ {i : Nat} {m'}, p'.modules[i]? = some m' → m'.status = .loading → i < p.modules.size

variable {p p' q : Program} {u : Underway} {id : ModuleId}

/-- The modules of a sound program are sound. -/
lemma Sound.module {dirty : List ModuleId} (h : p.Sound u dirty) {i : Nat} {m : LoadedModule} (found : p.modules[i]? = some m) :
    m.Sound p (p.Leads u) i where
  exports := h.exports found
  settled := h.settled found
  usable := h.usable found
  parsed := h.parsed found

/-! ### What a program says of its imports -/

lemma faultsOf_some {m : LoadedModule} (found : p.modules[(id : Nat)]? = some m) : p.faultsOf id = m.faults := by
  simp [faultsOf, found]

lemma resolvedOf_some {m : LoadedModule} (found : p.modules[(id : Nat)]? = some m) :
    p.resolvedOf id = m.resolved := by
  simp [resolvedOf, found]

lemma leads_congr (same : p'.resolvedOf = p.resolvedOf) : p'.Leads u = p.Leads u := by
  unfold Leads Imports
  rw [same]

lemma fails_congr (same : p'.faultsOf = p.faultsOf) : p'.Fails = p.Fails := by
  unfold Fails
  rw [same]

lemma failsItself_congr (same : p'.faultsOf = p.faultsOf) : p'.FailsItself = p.FailsItself := by
  unfold FailsItself
  rw [same]

/-- A program stays sound with sound modules, where every import and every fault is as it was and no module is done that was
not done before. -/
lemma Sound.of_same {dirty : List ModuleId} (h : p.Sound u dirty) (edges : p'.edges = p.edges)
    (size : p.modules.size ≤ p'.modules.size) (resolvedOf : p'.resolvedOf = p.resolvedOf) (faultsOf : p'.faultsOf = p.faultsOf)
    (done : ∀ {i : Nat} {m'}, p'.modules[i]? = some m' → m'.status = .loaded →
      ∃ m, p.modules[i]? = some m ∧ m.status = .loaded)
    (modules : ∀ {i : Nat} {m'}, p'.modules[i]? = some m' → m'.Sound p' (p.Leads u) i) : p'.Sound u dirty := by
  rw [← leads_congr resolvedOf] at modules
  exact {
    edges := by
      rw [edges, leads_congr resolvedOf]
      exact fun e member => (h.edges e member).imp_right fun inside => Nat.lt_of_lt_of_le inside size
    told := fun e member m' found' loaded' faulty => by
      obtain ⟨m, found, loaded⟩ := done found' loaded'
      refine h.told e (edges ▸ member) m found loaded ?_
      rwa [← faultsOf_some found, ← faultsOf, faultsOf_some found']
    dirty := by
      rw [fails_congr faultsOf]
      exact h.dirty
    imports := by
      rw [leads_congr resolvedOf, fails_congr faultsOf, edges]
      exact fun known => (h.imports known).imp_left fun inside => Nat.lt_of_lt_of_le inside size
    fails := by
      rw [leads_congr resolvedOf, fails_congr faultsOf, failsItself_congr faultsOf]
      exact h.fails
    exports := fun found => (modules found).exports
    settled := fun found => (modules found).settled
    usable := fun found => (modules found).usable
    parsed := fun found => (modules found).parsed }

/-! ### Later programs -/

lemma Grows.refl : Grows p p where
  hosts := rfl
  modules found := ⟨_, found, rfl, rfl, rfl, List.Subset.refl _⟩
  loading found _ := (Array.getElem?_eq_some_iff.1 found).1

lemma Grows.trans (h : Grows p p') (h' : Grows p' q) : Grows p q where
  hosts := h'.hosts.trans h.hosts
  modules found := by
    obtain ⟨m', found', status, ast, resolved, faults⟩ := h.modules found
    obtain ⟨m'', found'', status', ast', resolved', faults'⟩ := h'.modules found'
    exact ⟨m'', found'', status'.trans status, ast'.trans ast, resolved'.trans resolved, List.Subset.trans faults faults'⟩
  loading {i m''} found loading := by
    have inside := h'.loading found loading
    obtain ⟨m', found', status, -⟩ := h'.modules (Array.getElem?_eq_getElem inside)
    rw [found, Option.some.injEq] at found'
    subst found'
    exact h.loading (Array.getElem?_eq_getElem inside) (status.symm.trans loading)

/-- A later program has as many modules. -/
lemma Grows.size_le (h : Grows p p') : p.modules.size ≤ p'.modules.size := by
  by_contra shorter
  have inside : p'.modules.size < p.modules.size := Nat.lt_of_not_le shorter
  obtain ⟨m', found, -⟩ := h.modules (Array.getElem?_eq_getElem inside)
  simp at found

/-- Modules that have failed have failed for good. -/
lemma Grows.faultsOf (h : Grows p p') (id : ModuleId) : p.faultsOf id ⊆ p'.faultsOf id := by
  simp only [Program.faultsOf]
  cases found : p.modules[(id : Nat)]? with
  | none => exact List.nil_subset _
  | some m =>
    obtain ⟨m', found', -, -, -, faults⟩ := h.modules found
    simpa [found'] using faults

lemma Grows.fails (h : Grows p p') (fails : p.Fails id) : p'.Fails id := by
  obtain ⟨f, member⟩ := List.exists_mem_of_ne_nil _ fails
  exact List.ne_nil_of_mem (h.faultsOf id member)

lemma Grows.failsItself (h : Grows p p') (fails : p.FailsItself id) : p'.FailsItself id := by
  obtain ⟨f, member, own⟩ := fails
  exact ⟨f, h.faultsOf id member, own⟩

/-- What has been imported stays imported. -/
lemma Grows.imports (h : Grows p p') {target : ModuleId} (known : p.Imports id target) : p'.Imports id target := by
  obtain ⟨t, site, resolved, found⟩ := known
  refine ⟨t, site, ?_, found⟩
  obtain ⟨m, known, e⟩ := Option.bind_eq_some_iff.1 resolved
  obtain ⟨m', known', -, -, same, -⟩ := h.modules known
  exact Option.bind_eq_some_iff.2 ⟨m', known', same.trans e⟩

lemma Grows.leads (h : Grows p p') {target : ModuleId} (known : p.Leads u id target) : p'.Leads u id target :=
  known.imp_left h.imports

/-! ### Telling importers -/

/-- What failing some importers changes: modules without faults get one that is passed on, and are listed. -/
structure Told (hits : List ImportEdge) (p q : Program) (before after : List ModuleId) : Prop where
  hosts : q.hosts = p.hosts
  edges : q.edges = p.edges
  size : q.modules.size = p.modules.size
  modules : ∀ {i : Nat} {m}, p.modules[i]? = some m → ∃ m', q.modules[i]? = some m' ∧ (m' = m ∨ m.faults = [] ∧
    i ∈ after ∧ (∃ e ∈ hits, e.importer = i) ∧ ∃ f, f.isPassedOn = true ∧ m' = { m with faults := [f] })
  hit : ∀ e ∈ hits, (e.importer : Nat) < p.modules.size → q.Fails e.importer
  kept : before ⊆ after
  new : ∀ i ∈ after, i ∈ before ∨ q.Fails i

/-- What has failed before importers are told has failed behind. -/
lemma Told.fails {hits : List ImportEdge} {before after : List ModuleId} (h : Told hits p q before after)
    (fails : p.Fails id) : q.Fails id := by
  cases found : p.modules[(id : Nat)]? with
  | none => simp [Fails, faultsOf, found] at fails
  | some m =>
    rw [Fails, faultsOf_some found] at fails
    obtain ⟨m', found', rfl | ⟨none, -⟩⟩ := h.modules found
    · rwa [Fails, faultsOf_some found']
    · exact absurd none fails

lemma failImporter_failed {path : String} {e : ImportEdge} {hits : List ImportEdge} {m : LoadedModule}
    {before after : List ModuleId} (found : p.modules[(e.importer : Nat)]? = some m) (none : m.faults = [])
    (told : Told hits (p.modify e.importer fun m => { m with faults := [.dependencyFailed path e.site] }) q
      (e.importer :: before) after) : Told (e :: hits) p q before after := by
  have failed : q.Fails e.importer := by
    apply told.fails
    rw [Fails, faultsOf_some (m := { m with faults := [.dependencyFailed path e.site] })]
    · simp
    · simp [Program.modify, Array.getElem?_modify, found]
  refine ⟨told.hosts, told.edges, ?_, fun {i m'} found' => ?_, ?_, ?_, ?_⟩
  · simpa [Program.modify] using told.size
  · by_cases same : e.importer = i
    · subst same
      rw [found, Option.some.injEq] at found'
      subst found'
      obtain ⟨m', found', rfl | ⟨other, -⟩⟩ := told.modules (i := e.importer)
        (m := { m with faults := [.dependencyFailed path e.site] })
        (by simp [Program.modify, Array.getElem?_modify, found])
      · exact ⟨_, found', Or.inr ⟨none, told.kept List.mem_cons_self, ⟨e, List.mem_cons_self, rfl⟩, _, rfl, rfl⟩⟩
      · cases other
    · obtain ⟨m'', found'', rfl | ⟨none', listed, ⟨e', member, hit⟩, f, passedOn, rfl⟩⟩ := told.modules (i := i)
        (m := m') (by simp [Program.modify, Array.getElem?_modify, same, found'])
      · exact ⟨_, found'', Or.inl rfl⟩
      · exact ⟨_, found'', Or.inr ⟨none', listed, ⟨e', List.mem_cons_of_mem _ member, hit⟩, f, passedOn, rfl⟩⟩
  · intro e' member inside
    rcases List.mem_cons.1 member with rfl | member
    · exact failed
    · exact told.hit e' member (by simpa [Program.modify] using inside)
  · exact fun i member => told.kept (List.mem_cons_of_mem _ member)
  · intro i member
    rcases told.new i member with listed | fails
    · rcases List.mem_cons.1 listed with rfl | listed
      · exact Or.inr failed
      · exact Or.inl listed
    · exact Or.inr fails

/-- An importer that is not there, or has faults already, is left alone. -/
lemma failImporter_skipped {e : ImportEdge} {hits : List ImportEdge} {before after : List ModuleId}
    (told : Told hits p q before after)
    (skipped : (e.importer : Nat) < p.modules.size → p.Fails e.importer) : Told (e :: hits) p q before after where
  hosts := told.hosts
  edges := told.edges
  size := told.size
  modules found := by
    obtain ⟨m', found', same | ⟨none, listed, ⟨e', member, hit⟩, rest⟩⟩ := told.modules found
    · exact ⟨m', found', Or.inl same⟩
    · exact ⟨m', found', Or.inr ⟨none, listed, ⟨e', List.mem_cons_of_mem _ member, hit⟩, rest⟩⟩
  hit e' member inside := by
    rcases List.mem_cons.1 member with rfl | member
    · exact told.fails (skipped inside)
    · exact told.hit e' member inside
  kept := told.kept
  new := told.new

lemma failImporters_told {path : String} {hits : List ImportEdge} {failed : List ModuleId} :
    Told hits p (failImporters path p failed hits).1 failed (failImporters path p failed hits).2 := by
  induction hits generalizing p failed with
  | nil => exact ⟨rfl, rfl, rfl, fun found => ⟨_, found, Or.inl rfl⟩, nofun, List.Subset.refl _, fun _ => Or.inl⟩
  | cons e hits ih =>
    simp only [failImporters, failImporter]
    cases found : p.modules[(e.importer : Nat)]? with
    | none =>
      refine failImporter_skipped ih fun inside => ?_
      simp [Array.getElem?_eq_getElem inside] at found
    | some m =>
      by_cases none : m.faults.isEmpty = true
      · simp only [none, if_true]
        exact failImporter_failed found (List.isEmpty_iff.1 none) ih
      · simp only [none]
        refine failImporter_skipped ih fun _ => ?_
        rw [Fails, faultsOf_some found]
        simpa using none

variable {hits : List ImportEdge} {before after pending : List ModuleId} {target : Nat}

lemma Told.resolvedOf (h : Told hits p q before after) : q.resolvedOf = p.resolvedOf := by
  funext id
  simp only [Program.resolvedOf]
  cases found : p.modules[(id : Nat)]? with
  | none => simp [Array.getElem?_eq_none_iff.2 (h.size ▸ Array.getElem?_eq_none_iff.1 found)]
  | some m =>
    obtain ⟨m', found', rfl | ⟨-, -, -, f, -, rfl⟩⟩ := h.modules found <;> simp [found']

lemma Told.leads (h : Told hits p q before after) : q.Leads u = p.Leads u :=
  leads_congr h.resolvedOf

/-- Told importers fail, and the others stay as they are. -/
lemma Told.grows (h : Told hits p q before after) : Grows p q where
  hosts := h.hosts
  modules found := by
    obtain ⟨m', found', rfl | ⟨none, -, -, f, -, rfl⟩⟩ := h.modules found
    · exact ⟨_, found', rfl, rfl, rfl, List.Subset.refl _⟩
    · exact ⟨_, found', rfl, rfl, rfl, by simp [none]⟩
  loading found _ := by
    rw [← h.size]
    exact (Array.getElem?_eq_some_iff.1 found).1

lemma dropEdgesInto_grows : Grows p (p.dropEdgesInto target) :=
  { Grows.refl with hosts := rfl }

/-- Told importers export what they exported. -/
lemma Told.retains (h : Told hits p q before after) : p.Retains q := by
  refine ⟨h.hosts, Nat.le_of_eq h.size.symm, fun id => ?_⟩
  rw [exportsOf, exportsOf]
  cases found : p.modules[(id : Nat)]? with
  | none => exact List.nil_prefix
  | some m =>
    obtain ⟨m', found', rfl | ⟨-, -, -, f, -, rfl⟩⟩ := h.modules found <;> simp only [found', List.prefix_rfl]

/-- A module that was told has a module behind it that was there before. -/
lemma Told.back (h : Told hits p q before after) {i : Nat} {m' : LoadedModule} (found : q.modules[i]? = some m') :
    ∃ m, p.modules[i]? = some m ∧ (m' = m ∨ m.faults = [] ∧ i ∈ after ∧ (∃ e ∈ hits, e.importer = i) ∧
      ∃ f, f.isPassedOn = true ∧ m' = { m with faults := [f] }) := by
  have inside : i < p.modules.size := by
    rw [← h.size]
    exact (Array.getElem?_eq_some_iff.1 found).1
  obtain ⟨m'', found', rest⟩ := h.modules (Array.getElem?_eq_getElem inside)
  rw [found, Option.some.injEq] at found'
  subst found'
  exact ⟨_, Array.getElem?_eq_getElem inside, rest⟩

section

variable (h : p.Sound u (target :: pending)) (told : Told (p.edgesInto target) (p.dropEdgesInto target) q [] after)

include h told

/-- An import by an edge that is dropped is known by the failure of the importer. -/
lemma Sound.tell_imports {i t : Nat} (known : p.Leads u i t) :
    t < q.modules.size ∧ ((∃ e ∈ q.edges, e.importer = i ∧ e.target = t) ∨ q.Fails i ∨ u.faulty i) := by
  have grows : Grows p q := .trans dropEdgesInto_grows told.grows
  obtain ⟨inside, ⟨e, member, rfl, rfl⟩ | fails | faulty⟩ := h.imports known
  · refine ⟨Nat.lt_of_lt_of_le inside grows.size_le, ?_⟩
    by_cases dropped : e.target = target
    · have hit : e ∈ p.edgesInto target := by simpa [edgesInto] using ⟨member, dropped⟩
      exact Or.inr (Or.inl (told.hit e hit (h.edges e member).2))
    · refine Or.inl ⟨e, ?_, rfl, rfl⟩
      rw [told.edges]
      simpa [dropEdgesInto] using ⟨member, dropped⟩
  · exact ⟨Nat.lt_of_lt_of_le inside grows.size_le, Or.inr (Or.inl (grows.fails fails))⟩
  · exact ⟨Nat.lt_of_lt_of_le inside grows.size_le, Or.inr (Or.inr faulty)⟩

/-- What fails by being told imports what had failed. -/
lemma Sound.tell_fails {i : ModuleId} (failed : q.Fails i) :
    ∃ j, Relation.ReflTransGen (p.Leads u) i j ∧ q.FailsItself j := by
  have grows : Grows p q := .trans dropEdgesInto_grows told.grows
  cases found : q.modules[(i : Nat)]? with
  | none => simp [Fails, faultsOf, found] at failed
  | some m' =>
    obtain ⟨m, found', rfl | ⟨-, -, ⟨e, member, rfl⟩, -⟩⟩ := told.back found
    · replace found' : p.modules[(i : Nat)]? = some m' := found'
      rw [Fails, faultsOf_some found] at failed
      obtain ⟨j, way, itself⟩ := h.fails (i := i) (by rwa [Fails, faultsOf_some found'])
      exact ⟨j, way, grows.failsItself itself⟩
    · obtain ⟨known, rfl⟩ : e ∈ p.edges ∧ e.target = target := by simpa [edgesInto] using member
      obtain ⟨j, way, itself⟩ := h.fails (h.dirty e.target List.mem_cons_self)
      exact ⟨j, .head (h.edges e known).1 way, grows.failsItself itself⟩

/-- Where an import was known by an edge to a failed module, the importer has failed once it has been told. -/
lemma Sound.tell : q.Sound u (after ++ pending) := by
  have leads : q.Leads u = p.Leads u := told.leads
  have grows : Grows p q := .trans dropEdgesInto_grows told.grows
  have dropped : p.Retains (p.dropEdgesInto target) := .of_modules rfl rfl
  have retains : p.Retains q := dropped.trans told.retains
  have kept : ∀ e ∈ q.edges, e ∈ p.edges ∧ e.target ≠ target := by
    intro e member
    rw [told.edges] at member
    simpa [dropEdgesInto] using member
  have modules {i : Nat} {m'} (found : q.modules[i]? = some m') : m'.Sound q (q.Leads u) i := by
    rw [leads]
    obtain ⟨m, found', rfl | ⟨-, -, -, f, -, rfl⟩⟩ := told.back found
    · exact (h.module found').later retains fun _ _ known => known
    · exact ((h.module found').later retains fun _ _ known => known).failed f
  exact {
    edges := fun e member => by
      obtain ⟨known, inside⟩ := h.edges e (kept e member).1
      exact ⟨by rwa [leads], Nat.lt_of_lt_of_le inside grows.size_le⟩
    told := fun e member m' found loaded faulty => by
      obtain ⟨m, found', rfl | ⟨-, listed, -⟩⟩ := told.back found
      · rcases List.mem_cons.1 (h.told e (kept e member).1 _ found' loaded faulty) with same | member'
        · exact absurd same (kept e member).2
        · exact List.mem_append_right _ member'
      · exact List.mem_append_left _ listed
    dirty := fun t member => by
      rcases List.mem_append.1 member with member | member
      · exact (told.new t member).resolve_left List.not_mem_nil
      · exact grows.fails (h.dirty t (List.mem_cons_of_mem _ member))
    imports := leads ▸ h.tell_imports told
    fails := leads ▸ h.tell_fails told
    exports := fun found => (modules found).exports
    settled := fun found => (modules found).settled
    usable := fun found => (modules found).usable
    parsed := fun found => (modules found).parsed }

end

/-- Without edges into a module there is nobody to tell. -/
lemma Sound.tellNone (h : p.Sound u (target :: pending)) (none : p.edgesInto target = []) : p.Sound u pending :=
  { h with
    told := fun e member m found loaded faulty => by
      rcases List.mem_cons.1 (h.told e member m found loaded faulty) with same | member'
      · have : e ∈ p.edgesInto target := by simpa [edgesInto] using ⟨member, same⟩
        simp [none] at this
      · exact member'
    dirty := fun t member => h.dirty t (List.mem_cons_of_mem _ member) }

/-- When all importers of failed modules have been told, nobody is left to be told. -/
theorem Sound.propagate {dirty : List ModuleId} (h : p.Sound u dirty) :
    (p.propagate dirty).Sound u [] ∧ Grows p (p.propagate dirty) := by
  fun_induction Program.propagate p dirty with
  | case1 p => exact ⟨h, .refl⟩
  | case2 p target pending hits none ih => exact ih (h.tellNone (List.isEmpty_iff.1 none))
  | case3 p target pending hits some next ih =>
    have told : Told hits (p.dropEdgesInto target) next.1 [] next.2 := failImporters_told
    obtain ⟨sound, grows⟩ := ih (h.tell told)
    exact ⟨sound, .trans dropEdgesInto_grows (.trans told.grows grows)⟩

/-! ### Other changes -/

section

variable {f : LoadedModule → LoadedModule}

lemma resolvedOf_modify (same : ∀ m, p.modules[(id : Nat)]? = some m → (f m).resolved = m.resolved) :
    (p.modify id f).resolvedOf = p.resolvedOf := by
  funext i
  simp only [Program.resolvedOf, modify_modules]
  split
  · next e =>
    subst e
    cases found : p.modules[(id : Nat)]? with
    | none => rfl
    | some m => simp [same m found]
  · rfl

lemma faultsOf_modify (same : ∀ m, p.modules[(id : Nat)]? = some m → (f m).faults = m.faults) :
    (p.modify id f).faultsOf = p.faultsOf := by
  funext i
  simp only [Program.faultsOf, modify_modules]
  split
  · next e =>
    subst e
    cases found : p.modules[(id : Nat)]? with
    | none => rfl
    | some m => simp [same m found]
  · rfl

lemma leads_modify (same : ∀ m, p.modules[(id : Nat)]? = some m → (f m).resolved = m.resolved) :
    (p.modify id f).Leads u = p.Leads u :=
  leads_congr (resolvedOf_modify same)

lemma fails_modify (same : ∀ m, p.modules[(id : Nat)]? = some m → (f m).faults = m.faults) :
    (p.modify id f).Fails = p.Fails :=
  fails_congr (faultsOf_modify same)

end

/-- A module may offer more, as long as it gets at what it offers. -/
lemma Sound.modify {dirty : List ModuleId} {f : LoadedModule → LoadedModule} (h : p.Sound u dirty)
    (retains : p.Retains (p.modify id f))
    (alike : ∀ m, p.modules[(id : Nat)]? = some m → m.Alike (f m))
    (exports : ∀ m, p.modules[(id : Nat)]? = some m → ∀ e ∈ (f m).exports.entries,
      e.target.Reached (p.Leads u) id) : (p.modify id f).Sound u dirty := by
  have back {i : Nat} {m'} (found : (p.modify id f).modules[i]? = some m') :
      ∃ m, p.modules[i]? = some m ∧ m.Alike m' ∧ (∀ e ∈ m'.exports.entries, e.target.Reached (p.Leads u) i) := by
    rw [modify_modules] at found
    split at found
    · next same =>
      subst same
      obtain ⟨m, found', rfl⟩ := Option.map_eq_some_iff.1 found
      exact ⟨m, found', alike m found', exports m found'⟩
    · exact ⟨m', found, ⟨rfl, rfl, rfl, Or.inl rfl⟩, h.exports found⟩
  refine h.of_same rfl (by simp [Program.modify]) (resolvedOf_modify fun m found => (alike m found).resolved)
    (faultsOf_modify fun m found => (alike m found).faults) (fun found loaded => ?_) fun found => ?_
  · obtain ⟨m, found, alike, -⟩ := back found
    exact ⟨m, found, alike.status.symm.trans loaded⟩
  · obtain ⟨m, found, alike, reached⟩ := back found
    exact ((h.module found).later retains fun _ _ known => known).alike alike reached

/-- Faults that are not yet recorded only excuse more. -/
lemma Sound.moreFaulty {dirty : List ModuleId} {faulty : ModuleId → Prop} (h : p.Sound u dirty)
    (more : ∀ i, u.faulty i → faulty i) : p.Sound ⟨u.imports, faulty⟩ dirty :=
  { h with imports := fun known =>
      ⟨(h.imports known).1, (h.imports known).2.imp_right (Or.imp_right (more _))⟩ }

/-- An import that is recorded while it is under way, with an edge unless the importer is going to fail. -/
lemma Sound.imported {u' : Underway} {home target : Nat} {edges : List ImportEdge} (h : p.Sound u [])
    (inside : home < p.modules.size) (there : target < p.modules.size)
    (imports : ∀ i t, u'.imports i t ↔ u.imports i t ∨ (i = home ∧ t = target))
    (faulty : ∀ i, u.faulty i → u'.faulty i)
    (new : ∀ e ∈ edges, e.importer = home ∧ e.target = target ∧
      ∀ m, p.modules[target]? = some m → m.status = .loaded → m.faults = [])
    (known : (∃ e ∈ edges, e.importer = home ∧ e.target = target) ∨ u'.faulty home) :
    Sound u' [] { p with edges := p.edges ++ edges } := by
  have leads (i t : ModuleId) (known : p.Leads u i t) : p.Leads u' i t :=
    known.imp_right fun known => (imports i t).2 (Or.inl known)
  have retains : p.Retains { p with edges := p.edges ++ edges } := .of_modules rfl rfl
  refine { h with
    edges := fun e member => ?_
    told := fun e member m found loaded faulty => ?_
    imports := fun {i t} lead => ?_
    fails := fun {i} fails => ?_
    exports := fun found => ((h.module found).later retains leads).exports
    settled := fun found => ((h.module found).later retains leads).settled }
  · rcases List.mem_append.1 member with member | member
    · exact ⟨leads _ _ (h.edges e member).1, (h.edges e member).2⟩
    · obtain ⟨rfl, rfl, -⟩ := new e member
      exact ⟨Or.inr ((imports _ _).2 (Or.inr ⟨rfl, rfl⟩)), inside⟩
  · rcases List.mem_append.1 member with member | member
    · exact h.told e member m found loaded faulty
    · obtain ⟨-, rfl, usable⟩ := new e member
      exact absurd (usable m found loaded) faulty
  · rcases lead with recorded | underway
    · obtain ⟨inside, edge | rest⟩ := h.imports (Or.inl recorded)
      · obtain ⟨e, member, same⟩ := edge
        exact ⟨inside, Or.inl ⟨e, List.mem_append_left _ member, same⟩⟩
      · exact ⟨inside, Or.inr (rest.imp_right (faulty i))⟩
    · rcases (imports i t).1 underway with underway | ⟨rfl, rfl⟩
      · obtain ⟨inside, edge | rest⟩ := h.imports (Or.inr underway)
        · obtain ⟨e, member, same⟩ := edge
          exact ⟨inside, Or.inl ⟨e, List.mem_append_left _ member, same⟩⟩
        · exact ⟨inside, Or.inr (rest.imp_right (faulty i))⟩
      · refine ⟨there, known.imp (fun ⟨e, member, same⟩ => ?_) Or.inr⟩
        exact ⟨e, List.mem_append_right _ member, same⟩
  · obtain ⟨j, way, itself⟩ := h.fails fails
    exact ⟨j, Relation.ReflTransGen.mono leads _ _ way, itself⟩

end Program

end PipeLang
