import PipeLang.Proofs.Load.Moments
import PipeLang.Proofs.Resolve.Definitions

/-!
# Definitions do not reach themselves

The value of a definition refers to other definitions: of the same module, or of others, however they come to be known there.
No definition refers to itself in any number of steps, also where modules import each other, because what a reference denotes
has been declared, or exported by its own module, when the reference is recorded: `Program.refers_acyclic`.

A definition is founded if nothing leads from it on and on. That is shown in the order in which modules are resolved: of all
that is bound, exported or referred to so far, everything that it can stand for is founded.
-/

namespace PipeLang

open Relation (TransGen)

/-- The module whose definition a target stands for in a module. -/
def Target.ownerIn (id : ModuleId) : Target → Option ModuleId
  | .inner _ => some id
  | .item owner _ => some owner
  | .module _ | .host _ | .invalid => none

namespace Program

variable (p : Program)

/-- A definition of a module in which nothing is wrong. -/
def Has (x : ModuleId × Definition) : Prop :=
  ∃ m ast, p.modules[(x.1 : Nat)]? = some m ∧ m.isUsable = true ∧ m.ast = some ast ∧
    x.2 ∈ Statement.allDefinitions ast.statements

/-- What the name of a definition stands for. -/
def Introduces (x : ModuleId × Definition) (target : Target) : Prop :=
  ∃ t id, p.resolvedOf x.1 = some t ∧ t.declarations.get? x.2.name.span = some id ∧ t.scopes.target id = target

/-- The value of a definition refers to another definition at a place. -/
structure RefersAt (x : ModuleId × Definition) (site : Span) (y : ModuleId × Definition) : Prop where
  source : p.Has x
  target : p.Has y
  from_ : x.2.value.span.start ≤ site.start
  upTo : site.stop ≤ x.2.value.span.stop
  uses : ∃ t ref, p.resolvedOf x.1 = some t ∧ t.references.get? site = some ref ∧
    ref.target.ownerIn x.1 = some y.1 ∧ p.Introduces y ref.target

/-- The value of a definition refers to another definition. -/
def Refers (x y : ModuleId × Definition) : Prop :=
  ∃ site, p.RefersAt x site y

/-- Nothing leads from a definition on and on. -/
def Founded (x : ModuleId × Definition) : Prop :=
  Acc (fun y x => p.Refers x y) x

/-- The definitions are founded that a target can stand for in a module. -/
def FoundedAt (id : ModuleId) (target : Target) : Prop :=
  ∀ y, p.Has y → p.Introduces y target → target.ownerIn id = some y.1 → p.Founded y

/-- Of a program that comes to be another one, what is exported and what is done is founded there. -/
structure FoundedIn (q : Program) : Prop where
  exports : ∀ i : ModuleId, ∀ e ∈ (q.exportsOf i).entries, ∀ id, p.FoundedAt id e.target
  definitions : ∀ i t, q.resolvedOf i = some t → ∀ d, p.Has (i, d) → p.Founded (i, d)

/-- A moment of the resolution that a program has of a module: the module was opened in another program with the same
settings, and between the moment and its end lie more moves. -/
def Moment (id : ModuleId) (now : Resolution) : Prop :=
  ∃ (q : Program) (raw : String) (depth hi : Nat) (a : Pending), q.settings = p.settings ∧ q.Opens raw depth a ∧
    a.home = id ∧ p.resolvedOf id = some a.finished.resolved ∧ Moves (loader depth) 0 hi a.start now ∧
      Moves (loader depth) 0 hi now a.finished

/-- Modules of a program that are done are in another program as they are. -/
def Lasts (q : Program) : Prop :=
  ∀ {i : Nat} {m}, q.modules[i]? = some m → m.resolved.isSome → ∃ m', p.modules[i]? = some m' ∧ m.Kept True m'

end Program

/-- What a resolution of a module knows is founded in the program that comes of it. -/
structure Resolution.Founded (p : Program) (r : Resolution) : Prop where
  program : p.FoundedIn r.program
  bindings : ∀ {id : Nat} {b}, r.scopes.bindings[id]? = some b → p.FoundedAt r.home b.target
  references : ∀ {site ref}, r.references.get? site = some ref → p.FoundedAt r.home ref.target

/-- A definition is done when its name has been declared, in the module that is being resolved, or when its module exports it,
which happens behind that. -/
def Resolution.Knows (r : Resolution) (y : ModuleId × Definition) : Prop :=
  (y.1 = r.home ∧ (r.declarations.get? y.2.name.span).isSome) ∨
    ∃ name e, r.program.Owns y.1 name e ∧ e.site = y.2.name.span

/-- The resolution of a module is what a program has of the module. -/
structure Resolution.Ends (f : Resolution) (p : Program) : Prop where
  tidy : f.Tidy
  accounted : f.Accounted
  proper : ∀ {site ref}, f.references.get? site = some ref → site.start < site.stop
  table : p.resolvedOf f.home = some f.resolved
  clean : ∀ {d}, p.Has (f.home, d) → f.faults = []
  places : ∀ {d}, p.Has (f.home, d) → f.resolved.Places True d

variable {p q : Program} {load : Loader} {lo hi : Nat} {r r' f : Resolution}

namespace Resolution

/-- The definition that a binding of the module itself is declared for is done where the binding becomes visible. -/
lemma Ends.visible (ends : f.Ends p) (keeps : load.Keeps) (rest : Moves load lo hi r f) {id : BindingId} {b : Binding}
    (bound : r.scopes.bindings[(id : Nat)]? = some b) (declared : r.declarations.get? b.site = some id)
    (owned : r.Owned id b) {d : Definition} (has : p.Has (f.home, d)) (names : p.Introduces (f.home, d) b.target) :
    b.visibleFrom = d.span.stop := by
  have spread := rest.spread
  have bound' := spread.scopes.bindings bound
  have declared' := spread.declarations.kept declared
  obtain ⟨t, id', table, known, target⟩ := names
  cases ends.table.symm.trans table
  replace known : f.declarations.get? d.name.span = some id' := known
  replace target : f.scopes.target id' = b.target := target
  obtain ⟨b', found, site, owned'⟩ := ends.accounted.declared known
  have target' : b'.target = b.target := by simpa [Scopes.target, found] using target
  -- the definition has declared that very binding
  have same : id' = id := by
    rcases owned with inner | ⟨item, owned⟩
    · exact (ends.accounted.inner found id (target'.trans inner)).1.symm
    · have clean := ends.clean has
      obtain ⟨-, e, owns, place⟩ := owned (rest.faults clean)
      rcases owned' with inner | ⟨item', owned'⟩
      · rw [target', item] at inner
        cases inner
      · obtain ⟨-, e', owns', place'⟩ := owned' clean
        obtain ⟨-, name⟩ := Target.item.inj (item'.symm.trans (target'.trans item))
        have owns := owns.later (rest.keeps keeps).retains
        rw [← spread.home, ← name] at owns
        obtain rfl : e' = e := by simpa [owns.exported] using owns'.exported.symm
        rw [← place, place', site, known] at declared'
        exact Option.some.inj declared'
  obtain ⟨-, declares⟩ := ends.places has
  obtain ⟨scope, id'', b'', known', found', -, visible, -⟩ := declares trivial
  cases known.symm.trans known'
  subst same
  cases bound'.symm.trans found'
  exact visible

/-- A definition is founded if what its module has referred to is, up to where it becomes visible. -/
lemma Ends.founded (ends : f.Ends p) (rest : Moves load lo hi r f) {id : Nat} {b : Binding}
    (bound : r.scopes.bindings[id]? = some b) {d : Definition} (visible : b.visibleFrom = d.span.stop)
    (references : ∀ {site ref}, r.references.get? site = some ref → p.FoundedAt f.home ref.target)
    (has : p.Has (f.home, d)) : p.Founded (f.home, d) := by
  constructor
  rintro y ⟨site, refers⟩
  obtain ⟨t, ref, table, recorded, owner, names⟩ := refers.uses
  cases ends.table.symm.trans table
  have early : site.start < b.visibleFrom := by
    have inside : site.stop ≤ d.value.span.stop := refers.upTo
    have := ends.proper recorded
    have := (ends.places has).1
    omega
  exact references (rest.before bound recorded early) y refers.target names owner

/-- The name of a definition stands for what a binding of its module stands for. -/
lemma Ends.named (ends : f.Ends p) {d : Definition} (has : p.Has (f.home, d)) :
    ∃ (id : Nat) (b : Binding), f.scopes.bindings[id]? = some b ∧ p.Introduces (f.home, d) b.target ∧
      b.target.ownerIn f.home = some f.home := by
  obtain ⟨-, declares⟩ := ends.places has
  obtain ⟨scope, id, -, known, -⟩ := declares trivial
  obtain ⟨b, found, -, owned⟩ := ends.accounted.declared known
  refine ⟨id, b, found, ⟨_, id, ends.table, known, ?_⟩, ?_⟩
  · simp [Resolution.resolved, Scopes.target, found]
  · rcases owned with target | ⟨target, -⟩
    · rw [target]
      rfl
    · rw [target]
      rfl

/-- What an import brings is founded. -/
lemma Founded.brings (h : r.Founded p) {target : Target} (brings : r.Brings target) (id : ModuleId) :
    p.FoundedAt id target := by
  obtain ⟨-, i, m, -, found, rfl | ⟨e, member, rfl⟩⟩ := brings
  · rintro y - - owner
    cases owner
  · exact h.program.exports i e (by rwa [Program.exportsOf, found]) id

/-- What a use can denote is founded. -/
lemma Founded.meant (h : r.Founded p) {target : Target} (meant : r.Meant target) : p.FoundedAt r.home target := by
  cases meant with
  | bound found => exact h.bindings found
  | host =>
    rintro y - - owner
    cases owner
  | @through i m e _ found member => exact h.program.exports i e (by rwa [Program.exportsOf, found]) r.home

/-- A move leaves founded what a resolution knows. -/
lemma Founded.move (h : r.Founded p) (ends : f.Ends p) (keeps : load.Keeps) (tidy : r.Tidy)
    (move : Move load lo hi r r') (rest : Moves load lo hi r' f)
    (loads : ∀ path, r'.program = (load r.program path).2 → p.FoundedIn r'.program) : r'.Founded p := by
  have home : r'.home = r.home := move.spread.home
  have references {site : Span} {ref : Reference} (found : r'.references.get? site = some ref) :
      p.FoundedAt r.home ref.target := by
    rcases move.uses found with old | ⟨-, meant, -⟩
    · exact h.references old
    · exact h.meant meant
  have bindings {id : Nat} {b : Binding} (found : r'.scopes.bindings[id]? = some b) : p.FoundedAt r.home b.target := by
    cases move.naming tidy.home with
    | same bindings => exact h.bindings (bindings ▸ found)
    | foreign scopes _ foreign =>
      rw [scopes] at found
      rcases Scopes.bindings_insert found with old | ⟨-, rfl⟩
      · exact h.bindings old
      · rcases foreign with invalid | brings
        · rintro y - - owner
          rw [invalid] at owner
          cases owner
        · exact h.brings brings r.home
    | own scopes declarations _ _ owned =>
      have bound := found
      rw [scopes] at found
      rcases Scopes.bindings_insert found with old | ⟨rfl, rfl⟩
      · exact h.bindings old
      · -- all that the value of the definition refers to has been recorded
        rintro ⟨i, d⟩ has names owner
        have here : i = f.home := by
          rw [rest.spread.home, home]
          rcases owned with target | ⟨target, -⟩
          · rw [target] at owner
            exact (Option.some.inj owner).symm
          · rw [target] at owner
            exact (Option.some.inj owner).symm.trans home
        subst here
        have declared : r'.declarations.get? b.site = some r.scopes.nextBinding := by
          rw [declarations, SpanTable.get?_insert, if_pos rfl]
        have visible := ends.visible keeps rest bound declared owned has names
        have homes : f.home = r.home := rest.spread.home.trans home
        exact ends.founded rest bound visible (fun found => homes ▸ references found) has
  refine ⟨?_, home ▸ bindings, home ▸ references⟩
  obtain ⟨path, loaded⟩ | ⟨tables, back⟩ := move.exports tidy.home
  · exact loads path loaded
  · refine ⟨fun i e member id => ?_, fun i t known => h.program.definitions i t (tables ▸ known)⟩
    rcases back member with old | brings | ⟨_, b, bound, target, owns⟩
    · exact h.program.exports i e old id
    · exact h.brings brings id
    · -- an exported definition is the same everywhere
      intro y has names owner
      refine bindings bound y has (target ▸ names) ?_
      rw [owns.target] at owner
      rw [target, owns.target]
      exact owner

end Resolution

namespace Program

variable {raw : String} {depth : Nat} {a : Pending}

lemma Lasts.kept {growing : Nat → Prop} (h : p.Lasts q) {q' : Program} (keeps : q'.Keeps growing q) : p.Lasts q' := by
  intro i m found resolved
  obtain ⟨m', found', kept⟩ := keeps.modules found
  obtain ⟨m'', found'', kept'⟩ := h found' (kept.resolved.symm ▸ resolved)
  exact ⟨m'', found'', (kept.mono fun _ => trivial).trans kept'⟩

/-- The resolution of a module that is opened is what a program has of the module. -/
lemma Opens.endsIn (h : q.Opens raw depth a) (offers : q.Offers) (shown : q.Shown) {m : LoadedModule}
    (found : p.modules[(a.home : Nat)]? = some m) (ast : m.ast = some a.ast)
    (resolved : m.resolved = some a.finished.resolved) (faults : a.finished.faults ⊆ m.faults) : a.finished.Ends p := by
  obtain ⟨path, source, -, start⟩ := h.start
  obtain ⟨path', source', -, done⟩ := h.isDone offers
  obtain ⟨hi, moves⟩ := h.moves offers
  have home : a.finished.home = a.home := h.finished_home offers
  have has {d : Definition} (has : p.Has (a.finished.home, d)) :
      a.finished.faults = [] ∧ d ∈ Statement.allDefinitions a.ast.statements := by
    obtain ⟨m', ast', known, usable, parsed, member⟩ := has
    rw [home, found] at known
    cases known
    cases ast.symm.trans parsed
    exact ⟨List.subset_nil.1 ((LoadedModule.isUsable_iff.1 usable).2 ▸ faults), member⟩
  refine ⟨done.tidy, h.done_accounted offers shown, fun {site ref} recorded => ?_, ?_, fun known => (has known).1,
    fun {d} known => ?_⟩
  · rcases moves.spread.references.placed recorded with old | within
    · rw [start] at old
      simp [Resolution.start] at old
    · exact within.1
  · rw [home, resolvedOf, found]
    exact resolved
  · obtain ⟨clean, member⟩ := has known
    obtain ⟨s, inside, member⟩ := Statement.mem_allDefinitions.1 member
    obtain ⟨path, source, parsed, -⟩ := h.start
    have ordered := (Module.parse_ordered parsed).2 s inside
    obtain ⟨behind, declares⟩ := (done.settled _ .refl done.tidy.offers s inside).places s ordered d member
    exact ⟨behind, fun _ => declares ⟨clean, done.noneOpen⟩⟩

/-- A module that has been entered exports nothing and is not done. -/
lemma FoundedIn.entered (h : p.FoundedIn q) {q' : Program} (modules : ∀ {i : Nat} {m}, q'.modules[i]? = some m →
    q.modules[i]? = some m ∨ m.exports = .empty ∧ m.resolved = none) : p.FoundedIn q' := by
  refine ⟨fun i e member => h.exports i e (exportsOf_entered modules member), fun i t known => ?_⟩
  obtain ⟨m, found, resolved⟩ := Option.bind_eq_some_iff.1 known
  rcases modules found with old | ⟨-, untabled⟩
  · exact h.definitions i t (Option.bind_eq_some_iff.2 ⟨m, old, resolved⟩)
  · rw [untabled] at resolved
    cases resolved

/-- Finishing a module leaves founded what there is. -/
lemma FoundedIn.finish (h : p.FoundedIn q) {id : Nat} {faults : List Fault} : p.FoundedIn (q.finish id faults) := by
  constructor
  · rw [finish_exportsOf]
    exact h.exports
  · rw [finish_resolvedOf]
    exact h.definitions

/-- What a module knows when it is opened is founded. -/
lemma Opens.start_founded (h : q.Opens raw depth a) (founded : p.FoundedIn q) : a.start.Founded p := by
  obtain ⟨path, source, -, start⟩ := h.start
  rw [start]
  refine ⟨founded.entered starting_entered, fun found => ?_, fun found => ?_⟩
  · simp [Resolution.start, Scopes.new] at found
  · simp [Resolution.start] at found

/-- When a module is done, so are its definitions. -/
lemma FoundedIn.tabled {id : ModuleId} (h : p.FoundedIn q) (t : Resolved)
    (own : ∀ d, p.Has (id, d) → p.Founded (id, d)) :
    p.FoundedIn (q.modify id fun m => { m with resolved := some t }) := by
  refine ⟨fun i e member => ?_, fun i t' known => ?_⟩
  · have same : (q.modify id fun m => { m with resolved := some t }).exportsOf i = q.exportsOf i :=
      modify_exportsOf (fun exports => exports) fun _ => rfl
    exact h.exports i e (same ▸ member)
  · by_cases here : i = id
    · exact here ▸ own
    · obtain ⟨m, found, resolved⟩ := Option.bind_eq_some_iff.1 known
      rw [modify_modules, if_neg (Ne.symm here)] at found
      exact h.definitions i t' (Option.bind_eq_some_iff.2 ⟨m, found, resolved⟩)

/-- All that a module knows while it is resolved is founded, if that holds of what is loaded in it. -/
lemma Opens.founds (h : q.Opens raw depth a) (offers : q.Offers) (shown : q.Shown) (founded : p.FoundedIn q)
    (ends : a.finished.Ends p) (lasts : p.Lasts a.finished.program)
    (loads : ∀ q raw, q.Offers → q.Shown → p.FoundedIn q → p.Lasts (loader depth q raw).2 →
      p.FoundedIn (loader depth q raw).2) : a.finished.Founded p := by
  obtain ⟨hi, moves⟩ := h.moves offers
  have keeps := loader_keeps depth
  have keepsOffers := (loader_keepsOffers depth).1
  have tidy := h.start_tidy offers
  have accounted := h.accounted shown
  have goes {r : Resolution} (before : Moves (loader depth) 0 hi a.start r)
      (behind : Moves (loader depth) 0 hi r a.finished) : r.Founded p := by
    induction before with
    | refl => exact h.start_founded founded
    | @tail r r' before move ih =>
      have tidy' := Moves.tidy keepsOffers before tidy
      have accounted' := accounted.moves keeps (loader_keepsShown depth) keepsOffers tidy before
      have known : r.Founded p := ih (.head move behind)
      refine known.move ends keeps tidy' move behind fun path loaded => ?_
      rw [loaded]
      refine loads r.program path tidy'.offers accounted'.program known.program ?_
      rw [← loaded]
      exact lasts.kept (behind.keeps keeps)
  exact goes moves .refl

/-- Loads leave founded what a program exports and what is done. -/
theorem loader_founds (depth : Nat) (q : Program) (raw : String) (offers : q.Offers) (shown : q.Shown)
    (founded : p.FoundedIn q) (lasts : p.Lasts (loader depth q raw).2) : p.FoundedIn (loader depth q raw).2 := by
  induction depth generalizing q raw with
  | zero => rwa [loader_zero]
  | succ depth ih =>
    obtain same | ⟨path, source, errors, -, same⟩ | ⟨inner, a, deeper, opens⟩ := loader_made (depth + 1) q raw
    · rwa [same]
    · rw [same]
      exact (founded.entered enter_entered).finish
    · cases deeper
      have ends : a.finished.Ends p := by
        obtain ⟨m, found, ast, resolved, faults⟩ := opens.done
        obtain ⟨m', found', kept⟩ := lasts found (by simp [resolved])
        exact opens.endsIn offers shown found' (kept.ast.trans ast) (kept.resolved.trans resolved)
          (List.Subset.trans faults kept.faults)
      have finishes : p.Lasts a.finished.program := by
        intro i m found resolved
        obtain ⟨m', found', kept⟩ := opens.lasts found resolved
        obtain ⟨m'', found'', kept'⟩ := lasts found' (kept.resolved ▸ resolved)
        exact ⟨m'', found'', kept.trans kept'⟩
      have done := opens.founds offers shown founded ends finishes ih
      have home : a.finished.home = q.modules.size := (opens.finished_home offers).trans opens.home
      rw [opens.answered]
      refine (done.program.tabled a.finished.resolved fun d has => ?_).finish
      rw [← home] at has ⊢
      obtain ⟨id, b, bound, names, owner⟩ := ends.named has
      exact done.bindings bound _ has names owner

/-- Behind any loads everything is founded. -/
lemma loadAll_founded {paths : List String} (canonical : q.Canonical) (founded : (q.loadAll paths).FoundedIn q) :
    (q.loadAll paths).FoundedIn (q.loadAll paths) := by
  induction paths generalizing q with
  | nil => exact founded
  | cons raw paths ih =>
    have loaded : (q.load raw).2.Canonical := canonical.loaded raw
    refine ih loaded (loader_founds _ q raw canonical.isOffers canonical.shown founded fun {i m} found _ => ?_)
    obtain ⟨m', found', kept⟩ := (loadAll_keeps (p := (q.load raw).2) paths).modules found
    exact ⟨m', found', kept.mono fun _ => trivial⟩

variable {sources : Sources} {policy : GlobPolicy} {hosts : Hosts} {paths : List String}

/-- What a program has of a module that is done comes from a resolution of it. -/
lemma loadAll_ends {id : ModuleId} {t : Resolved} (known : ((new sources policy hosts).loadAll paths).resolvedOf id = some t) :
    let p := (new sources policy hosts).loadAll paths
    ∃ (q : Program) (raw : String) (depth : Nat) (a : Pending), q.settings = p.settings ∧ q.Canonical ∧
      q.Opens raw depth a ∧ a.home = id ∧ a.finished.home = id ∧ a.finished.resolved = t ∧ a.finished.Ends p ∧
      a.finished.program.Retains p := by
  intro p
  obtain ⟨m, found, tables⟩ := Option.bind_eq_some_iff.1 known
  cases loadAll_opened found (by simp [tables]) with
  | @mk q raw depth a settings canonical opens home ast resolved faults retains =>
    have done : a.finished.resolved = t := by simpa [resolved] using tables
    replace found : p.modules[(a.home : Nat)]? = some m := home ▸ found
    have ends : a.finished.Ends p := opens.endsIn canonical.isOffers canonical.shown found ast resolved faults
    have here : a.finished.home = a.home := opens.finished_home canonical.isOffers
    exact ⟨q, raw, depth, a, settings, canonical, opens, home, here.trans home, done, ends, retains⟩

end Program

namespace Resolution

/-- What is exported under the name of a definition is exported where the definition stands. -/
lemma Ends.site (ends : f.Ends p) (retains : f.program.Retains p) {d : Definition} (has : p.Has (f.home, d)) {name : String}
    (names : p.Introduces (f.home, d) (.item f.home name)) {e : Export} (owns : p.Owns f.home name e) :
    e.site = d.name.span := by
  obtain ⟨t, id, table, known, target⟩ := names
  cases ends.table.symm.trans table
  obtain ⟨b, found, site, owned⟩ := ends.accounted.declared known
  have same : b.target = .item f.home name := by simpa [Resolution.resolved, Scopes.target, found] using target
  rcases owned with inner | ⟨item, owned⟩
  · rw [same] at inner
    cases inner
  · obtain ⟨-, e', owns', place⟩ := owned (ends.clean has)
    obtain ⟨-, rfl⟩ := Target.item.inj (same.symm.trans item)
    have owns' := owns'.later retains
    obtain rfl : e = e' := by simpa [owns.exported] using owns'.exported
    exact place.trans site

variable {now : Resolution} {target : Target}

/-- What a use can denote is declared, if the module keeps it for itself. -/
lemma Accounted.meant_inner (h : now.Accounted) (tidy : now.Tidy) (meant : now.Meant target) {k : BindingId}
    (inner : target = .inner k) :
    ∃ b, now.scopes.bindings[(k : Nat)]? = some b ∧ now.declarations.get? b.site = some k := by
  cases meant with
  | @bound id b found =>
    obtain ⟨rfl, declared⟩ := h.inner found k inner
    exact ⟨b, found, declared⟩
  | host => cases inner
  | through _ found member =>
    have offered := tidy.offers _ _ found _ member
    rw [inner] at offered
    cases offered

/-- What a use can denote is exported by its own module, if it is a definition that is exported. -/
lemma Accounted.meant_item (h : now.Accounted) (clean : now.faults = []) (meant : now.Meant target) {j : ModuleId}
    {name : String} (item : target = .item j name) : ∃ e, now.program.Owns j name e := by
  cases meant with
  | bound found => exact h.items clean found j name item
  | host => cases item
  | @through i m e _ found member => exact h.program i e (by rwa [Program.exportsOf, found]) j name item

/-- A definition that is denoted at a moment is done then. -/
lemma Ends.knows (ends : f.Ends p) (rest : Moves load lo hi now f) (tidy : now.Tidy) (accounted : now.Accounted)
    (clean : now.faults = []) (meant : now.Meant target) {y : ModuleId × Definition} (owner : target.ownerIn f.home = some y.1)
    (names : p.Introduces y target)
    (exported : ∀ name e, target = .item y.1 name → now.program.Owns y.1 name e → e.site = y.2.name.span) : now.Knows y := by
  cases target with
  | module | host | invalid => cases owner
  | item j name =>
    obtain rfl : j = y.1 := Option.some.inj owner
    obtain ⟨e, owns⟩ := accounted.meant_item clean meant rfl
    exact Or.inr ⟨name, e, owns, exported name e rfl owns⟩
  | inner k =>
    obtain ⟨j, d⟩ := y
    obtain rfl : f.home = j := Option.some.inj owner
    obtain ⟨b, bound, declared⟩ := accounted.meant_inner tidy meant rfl
    obtain ⟨t, id, table, known, target⟩ := names
    cases ends.table.symm.trans table
    -- the name of the definition introduces the binding that is denoted
    obtain ⟨b', found, site, -⟩ := ends.accounted.declared known
    have inner : b'.target = .inner k := by simpa [Resolution.resolved, Scopes.target, found] using target
    obtain ⟨rfl, -⟩ := ends.accounted.inner found k inner
    have found' := rest.spread.scopes.bindings bound
    obtain rfl : b = b' := by simpa [found'] using found
    refine Or.inl ⟨rest.spread.home, ?_⟩
    rw [← site, declared]
    rfl

/-- A definition is not declared before all that stands in its value has been recorded. -/
lemma Ends.undeclared (ends : f.Ends p) (rest : Moves load lo hi now f) (accounted : now.Accounted) {d : Definition}
    (has : p.Has (f.home, d)) {site : Span} (proper : site.start < site.stop) (inside : site.stop ≤ d.value.span.stop)
    (seen : ∀ {id : Nat} {b}, now.scopes.bindings[id]? = some b → b.visibleFrom ≤ site.start) :
    now.declarations.get? d.name.span = none := by
  by_contra known
  obtain ⟨id, known⟩ := Option.ne_none_iff_exists'.1 known
  obtain ⟨b, bound, -⟩ := accounted.declared known
  have bound' := rest.spread.scopes.bindings bound
  have known' := rest.spread.declarations.kept known
  obtain ⟨behind, declares⟩ := ends.places has
  obtain ⟨scope, id', b', declared, found, -, visible⟩ := declares trivial
  cases known'.symm.trans declared
  cases bound'.symm.trans found
  have := seen bound
  omega

end Resolution

namespace Program

/-- A definition that is founded does not reach itself. -/
lemma Founded.acyclic {x : ModuleId × Definition} (h : p.Founded x) : ¬ TransGen p.Refers x x := by
  have founded := Acc.transGen h
  intro reaches
  have back := Relation.transGen_swap.2 reaches
  clear reaches h
  induction founded with
  | intro x _ ih => exact ih x back back

/-- No definition of a module in which nothing is wrong reaches itself by what the values of definitions refer to, also where
modules import each other. Whatever the value of a definition refers to was done at the moment when the reference was
recorded, while the definition itself was still to be declared. -/
theorem refers_acyclic (sources : Sources) (policy : GlobPolicy) (hosts : Hosts) (paths : List String) :
    let p := (new sources policy hosts).loadAll paths
    (∀ x, ¬ TransGen p.Refers x x) ∧
      ∀ x site y, p.RefersAt x site y → ∃ now, p.Moment x.1 now ∧ now.references.get? site = none ∧ now.Knows y ∧
        now.declarations.get? x.2.name.span = none := by
  intro p
  have founded : p.FoundedIn p := loadAll_founded canonical_new ⟨fun i e member => by
    simp [exportsOf, new, Exports.empty] at member, fun i t known => by simp [resolvedOf, new] at known⟩
  constructor
  · intro x reaches
    obtain ⟨y, ⟨site, refers⟩, -⟩ := TransGen.head'_iff.1 reaches
    obtain ⟨t, ref, table, -⟩ := refers.uses
    exact (founded.definitions x.1 t table x.2 refers.source).acyclic reaches
  · rintro ⟨i, d⟩ site y refers
    obtain ⟨t, ref, table, recorded, owner, names⟩ := refers.uses
    obtain ⟨q, raw, depth, a, settings, canonical, opens, home, rfl, rfl, ends, retains⟩ := loadAll_ends table
    obtain ⟨hi, moves⟩ := opens.moves canonical.isOffers
    have keeps := loader_keeps depth
    have keepsOffers := (loader_keepsOffers depth).1
    have unrecorded : a.start.references.get? site = none := by
      obtain ⟨path, source, -, start⟩ := opens.start
      rw [start]
      rfl
    obtain ⟨now, before, behind, fresh, meant, seen⟩ := moves.recorded recorded unrecorded
    have tidy : now.Tidy := Moves.tidy keepsOffers before (opens.start_tidy canonical.isOffers)
    have accounted : now.Accounted := (opens.accounted canonical.shown).moves keeps (loader_keepsShown depth) keepsOffers
      (opens.start_tidy canonical.isOffers) before
    have clean : now.faults = [] := behind.faults (ends.clean refers.source)
    refine ⟨now, ⟨q, raw, depth, hi, a, settings, opens, home, table, before, behind⟩, fresh, ?_, ?_⟩
    · refine ends.knows behind tidy accounted clean meant owner names fun name e item owns => ?_
      obtain ⟨t', id, table', declared, target⟩ := names
      obtain ⟨q', raw', depth', a', -, -, -, -, home', rfl, ends', retains'⟩ := loadAll_ends table'
      obtain ⟨j, d'⟩ := y
      obtain rfl : a'.finished.home = j := home'
      refine ends'.site retains' refers.target ⟨_, id, table', declared, item ▸ target⟩ ?_
      exact (owns.later (behind.keeps keeps).retains).later retains
    · exact ends.undeclared behind accounted refers.source (ends.proper recorded) refers.upTo seen

/-- A program with two modules that import each other, where the second uses a definition of the first. -/
def intertwined : Program :=
  (new (.ofTexts (.ofList [("main.kcl", "export t = true\nimport s from \"lib\"\nexport u = s\n"),
    ("lib.kcl", "import t from \"main\"\nexport s = t\n")])) .eager .empty).loadAll ["main"]

/-- The second module refers to the definition of the first, which was done before. -/
theorem refers_acyclic_intertwined : ∃ x y, x.2.name.name = "s" ∧ y.2.name.name = "t" ∧ intertwined.Refers x y ∧
    ¬ TransGen intertwined.Refers y x ∧ ∃ now, intertwined.Moment 1 now ∧ now.Knows y := by
  have computed : (intertwined.modules[0]?.any fun m => m.isUsable && m.ast.any fun ast => m.resolved.any fun t =>
      (Statement.allDefinitions ast.statements).any fun d => d.name.name == "t" &&
        (t.declarations.get? d.name.span).any fun id => decide (t.scopes.target id = .item 0 "t")) &&
      (intertwined.modules[1]?.any fun m => m.isUsable && m.ast.any fun ast => m.resolved.any fun t =>
        (t.references.get? ⟨32, 33⟩).any fun ref => decide (ref.target = .item 0 "t") &&
          (Statement.allDefinitions ast.statements).any fun d => d.name.name == "s" &&
            decide (d.value.span.start ≤ 32) && decide (33 ≤ d.value.span.stop)) = true := by
    decide +kernel
  simp only [Option.any_eq_true, List.any_eq_true, Bool.and_eq_true, decide_eq_true_eq, beq_iff_eq] at computed
  obtain ⟨⟨m, found, usable, ast, parsed, t, tables, d, member, name, id, declared, target⟩, m', found', usable', ast',
    parsed', t', tables', ref, recorded, target', d', member', ⟨name', from_⟩, upTo⟩ := computed
  let x : ModuleId × Definition := (1, d')
  let y : ModuleId × Definition := (0, d)
  have table : intertwined.resolvedOf 0 = some t := Option.bind_eq_some_iff.2 ⟨m, found, tables⟩
  have table' : intertwined.resolvedOf 1 = some t' := Option.bind_eq_some_iff.2 ⟨m', found', tables'⟩
  have refers : intertwined.RefersAt x ⟨32, 33⟩ y :=
    { source := ⟨m', ast', found', usable', parsed', member'⟩
      target := ⟨m, ast, found, usable, parsed, member⟩
      from_ := from_
      upTo := upTo
      uses := ⟨t', ref, table', recorded, by rw [target']; rfl, t, id, table, declared, target.trans target'.symm⟩ }
  obtain ⟨acyclic, moments⟩ := refers_acyclic _ .eager .empty ["main"]
  obtain ⟨now, moment, -, knows, -⟩ := moments x ⟨32, 33⟩ y refers
  exact ⟨x, y, name', name, ⟨_, refers⟩, fun back => acyclic x (.head ⟨_, refers⟩ back), now, moment, knows⟩

end Program

end PipeLang
