import PipeLang.Proofs.Load.Opened

/-!
# What uses are recorded of

A use is recorded at one moment of a resolution. What it denotes is there at that moment: a name of the module itself that
has been declared, or a definition that its own module has exported. `Moves.recorded` is about the moment, and
`Resolution.Accounted` about what is there.
-/

namespace PipeLang

variable {load : Loader} {lo hi : Nat} {r r' f : Resolution}

/-! ### What a move can do -/

/-- A move leaves alone the modules that are not being resolved. -/
lemma Move.keeps (keeps : load.Keeps) (move : Move load lo hi r r') : r.program.Keeps (· = r.home) r'.program := by
  cases move with
  | define _ _ _ _ _ _ _ inserted | forward inserted => exact Resolution.offering_keeps inserted
  | load => exact (keeps _ _).mono fun _ => False.elim
  | accept => exact { Program.Keeps.refl with hosts := rfl }
  | assembly => exact Program.modify_keeps fun m found => .offering rfl List.prefix_rfl
  | _ => exact .refl

/-- A move takes no fault back. -/
lemma Move.faults (move : Move load lo hi r r') (none : r'.faults = []) : r.faults = [] := by
  cases move with
  | report | redefine | refuse | settle => exact (List.append_eq_nil_iff.1 none).1
  | _ => exact none

/-- A name that a module declares stands for a binding of its own, or for a definition that it exports from then on unless it
has faults. What it exports stands at the top level. -/
def Resolution.Owned (r : Resolution) (id : BindingId) (b : Binding) : Prop :=
  b.target = .inner id ∨ b.target = .item r.home b.name ∧
    (r.faults = [] → b.AtTop ∧ ∃ e, r.program.Owns r.home b.name e ∧ e.site = b.site)

/-- What a move makes of the names of a module: nothing, or it binds one that comes from an import, or it declares one. -/
inductive Resolution.Naming (r r' : Resolution) : Prop where
  | same :
    r'.scopes.bindings = r.scopes.bindings →
    r'.declarations = r.declarations →
    Naming r r'
  | foreign {b : Binding} :
    r'.scopes = r.scopes.insert b →
    r'.declarations = r.declarations →
    b.target = .invalid ∨ r.Brings b.target →
    Naming r r'
  | own {b : Binding} :
    r'.scopes = r.scopes.insert b →
    r'.declarations = r.declarations.insert b.site r.scopes.nextBinding →
    r.declarations.get? b.site = none →
    r'.references = r.references →
    r'.Owned r.scopes.nextBinding b →
    Naming r r'

lemma Move.naming (move : Move load lo hi r r') (there : r.home < r.program.modules.size) : r.Naming r' := by
  cases move with
  | bind _ _ _ _ _ sources => exact .foreign rfl rfl (Or.inr sources.brings)
  | keep => exact .foreign rfl rfl (Or.inl rfl)
  | declare declarable target => exact .own rfl rfl declarable.fresh rfl (Or.inl target)
  | @define b e exports declarable target top name target' site own inserted =>
    have owns : (r.offering exports).Owns r.home b.name e :=
      Resolution.offering_owns there inserted name (target'.trans target) own
    exact .own rfl rfl declarable.fresh rfl (Or.inr ⟨target, fun _ => ⟨top, e, owns, site⟩⟩)
  | redefine declarable target => exact .own rfl rfl declarable.fresh rfl (Or.inr ⟨target, fun clean => by simp at clean⟩)
  | _ => exact .same rfl rfl

/-- What a move makes of the exports: a module is loaded, or the module exports at most a definition of its own that it
declares and what an import brings. -/
lemma Move.exports (move : Move load lo hi r r') (there : r.home < r.program.modules.size) :
    (∃ path, r'.program = (load r.program path).2) ∨ r'.program.resolvedOf = r.program.resolvedOf ∧
      ∀ {i : ModuleId} {e}, e ∈ (r'.program.exportsOf i).entries → e ∈ (r.program.exportsOf i).entries ∨
        r.Brings e.target ∨ ∃ (id : Nat) (b : Binding), r'.scopes.bindings[id]? = some b ∧ b.target = e.target ∧
          r'.program.Owns r.home b.name e := by
  have offering {e : Export} {exports : Exports} (inserted : (r.program.exportsOf r.home).insert e = .ok exports)
      {i : ModuleId} {e' : Export} (member : e' ∈ ((r.offering exports).exportsOf i).entries) :
      e' ∈ (r.program.exportsOf i).entries ∨ e' = e := by
    obtain ⟨m, found, member⟩ := Program.mem_exportsOf member
    rw [Resolution.offering, Program.modify_modules] at found
    split at found
    · next here =>
      obtain ⟨m₀, known, rfl⟩ := Option.map_eq_some_iff.1 found
      have same : r.home = i := here
      exact same ▸ Exports.mem_insert inserted member
    · exact Or.inl (by rwa [Program.exportsOf, found])
  cases move with
  | load => exact Or.inl ⟨_, rfl⟩
  | forward inserted brings =>
    refine Or.inr ⟨Program.resolvedOf_modify fun _ _ => rfl, fun member => ?_⟩
    rcases offering inserted member with old | rfl
    · exact Or.inl old
    · exact Or.inr (Or.inl brings)
  | @define b e exports declarable target top name target' site own inserted =>
    refine Or.inr ⟨Program.resolvedOf_modify fun _ _ => rfl, fun member => ?_⟩
    rcases offering inserted member with old | rfl
    · exact Or.inl old
    · refine Or.inr (Or.inr ⟨r.scopes.nextBinding, b, ?_, target'.symm, ?_⟩)
      · simp [Resolution.declaring, Scopes.insert, Scopes.nextBinding]
      · exact Resolution.offering_owns there inserted name (target'.trans target) own
  | @assembly place =>
    refine Or.inr ⟨Program.resolvedOf_modify fun _ _ => rfl, fun {i e} member => Or.inl ?_⟩
    have same : ((r.program.modify r.home fun m =>
        { m with exports := { m.exports with assembly := place } }).exportsOf i).entries =
          (r.program.exportsOf i).entries := Program.modify_exportsOf Exports.entries fun _ => rfl
    exact same ▸ member
  | _ => exact Or.inr ⟨rfl, Or.inl⟩

/-- What a move records of a use denotes something there is, and stands behind all names that are bound. -/
lemma Move.uses (move : Move load lo hi r r') {site : Span} {ref : Reference}
    (found : r'.references.get? site = some ref) : r.references.get? site = some ref ∨
      r.references.get? site = none ∧ r.Meant ref.target ∧
        ∀ {id : Nat} {b}, r.scopes.bindings[id]? = some b → b.visibleFrom ≤ site.start := by
  cases move with
  | record within fresh meant seen =>
    rw [SpanTable.get?_insert] at found
    split at found
    · next same =>
      cases found
      subst same
      exact Or.inr ⟨fresh, meant, seen⟩
    · exact Or.inl found
  | _ => exact Or.inl found

/-! ### Moments -/

/-- Behind moves the module that is resolved is the same, and the others are left alone. -/
lemma Moves.keeps (keeps : load.Keeps) (moves : Moves load lo hi r r') : r.program.Keeps (· = r.home) r'.program := by
  induction moves with
  | refl => exact .refl
  | tail before move ih =>
    have home := (Moves.spread before).home
    exact ih.trans ((move.keeps keeps).mono fun _ same => same.trans home)

/-- Moves take no fault back. -/
lemma Moves.faults (moves : Moves load lo hi r r') (none : r'.faults = []) : r.faults = [] := by
  induction moves with
  | refl => exact none
  | tail _ move ih => exact ih (move.faults none)

/-- A use that stands before a name becomes visible has been recorded when the name is bound. -/
lemma Moves.before (moves : Moves load lo hi r r') {id : Nat} {b : Binding} (bound : r.scopes.bindings[id]? = some b)
    {site : Span} {ref : Reference} (found : r'.references.get? site = some ref) (early : site.start < b.visibleFrom) :
    r.references.get? site = some ref := by
  induction moves with
  | refl => exact found
  | tail before move ih =>
    rcases move.uses found with old | ⟨-, -, seen⟩
    · exact ih old
    · have bound' := (Moves.spread before).scopes.bindings bound
      exact absurd early (Nat.not_lt.2 (seen bound'))

/-- A use was recorded at some moment, of something that there was then, behind all names that had been bound then. -/
theorem Moves.recorded (moves : Moves load lo hi r f) {site : Span} {ref : Reference}
    (found : f.references.get? site = some ref) (fresh : r.references.get? site = none) :
    ∃ now, Moves load lo hi r now ∧ Moves load lo hi now f ∧ now.references.get? site = none ∧ now.Meant ref.target ∧
      ∀ {id : Nat} {b}, now.scopes.bindings[id]? = some b → b.visibleFrom ≤ site.start := by
  induction moves with
  | refl =>
    rw [fresh] at found
    cases found
  | @tail now f before move ih =>
    rcases move.uses found with old | ⟨fresh, meant, seen⟩
    · obtain ⟨now, before, behind, rest⟩ := ih old
      exact ⟨now, before, behind.tail move, rest⟩
    · exact ⟨now, before, .single move, fresh, meant, seen⟩

/-! ### Accounts -/

/-- Every definition that is exported anywhere is exported by its own module. -/
def Program.Shown (p : Program) : Prop :=
  ∀ (i : ModuleId), ∀ e ∈ (p.exportsOf i).entries, ∀ j name, e.target = .item j name → ∃ own, p.Owns j name own

/-- Loading keeps to that. -/
def Loader.KeepsShown (load : Loader) : Prop :=
  ∀ (p : Program) (raw : String), p.Offers → p.Shown → (load p raw).2.Shown

/-- The names of a module are accounted for: what the module binds for itself it has declared, what it declares is its own, and
a definition that a name stands for is exported by its own module. -/
structure Resolution.Accounted (r : Resolution) : Prop where
  program : r.program.Shown
  inner : ∀ {id : Nat} {b}, r.scopes.bindings[id]? = some b → ∀ k, b.target = .inner k →
    k = id ∧ r.declarations.get? b.site = some id
  declared : ∀ {site} {id : Nat}, r.declarations.get? site = some id →
    ∃ b, r.scopes.bindings[id]? = some b ∧ b.site = site ∧ r.Owned id b
  items : r.faults = [] → ∀ {id : Nat} {b}, r.scopes.bindings[id]? = some b → ∀ j name, b.target = .item j name →
    ∃ own, r.program.Owns j name own

namespace Program

variable {p p' : Program}

lemma Shown.of_exports (h : p.Shown) (keeps : p.Retains p')
    (back : ∀ {i : ModuleId} {e}, e ∈ (p'.exportsOf i).entries → (∃ i : ModuleId, e ∈ (p.exportsOf i).entries) ∨
      ∀ j name, e.target = .item j name → ∃ own, p'.Owns j name own) : p'.Shown := by
  intro i e member j name same
  rcases back member with ⟨i, old⟩ | new
  · obtain ⟨own, owns⟩ := h i e old j name same
    exact ⟨own, owns.later keeps⟩
  · exact new j name same

/-- What an import brings is exported by its own module. -/
lemma Shown.brings (h : r.program.Shown) {target : Target} (brings : r.Brings target) (j : ModuleId) (name : String)
    (same : target = .item j name) : ∃ own, r.program.Owns j name own := by
  obtain ⟨site, id, m, -, found, rfl | ⟨e, member, rfl⟩⟩ := brings
  · cases same
  · refine h id e ?_ j name same
    rwa [Program.exportsOf, found]

end Program

namespace Resolution

/-- What a module owns it goes on to own. -/
lemma Owned.later {id : BindingId} {b : Binding} (h : r.Owned id b) (home : r'.home = r.home)
    (retains : r.program.Retains r'.program) (faults : r'.faults = [] → r.faults = []) : r'.Owned id b := by
  refine h.imp_right fun ⟨target, owned⟩ => ⟨home ▸ target, fun clean => ?_⟩
  obtain ⟨top, e, owns, site⟩ := owned (faults clean)
  exact ⟨top, e, home ▸ owns.later retains, site⟩

variable (keeps : load.Keeps)
include keeps

/-- What has been declared is the module's own behind a move as well. -/
lemma Accounted.declared_move (h : r.Accounted) (move : Move load lo hi r r') {site : Span} {id : Nat}
    (old : r.declarations.get? site = some id) : ∃ b, r'.scopes.bindings[id]? = some b ∧ b.site = site ∧ r'.Owned id b := by
  have spread : r.Spread lo hi r' := move.spread
  obtain ⟨b, found, same, owned⟩ := h.declared old
  exact ⟨b, spread.scopes.bindings found, same, owned.later spread.home (move.keeps keeps).retains move.faults⟩

/-- A move that binds no name leaves names accounted for. -/
lemma Accounted.same (h : r.Accounted) (move : Move load lo hi r r') (program : r'.program.Shown)
    (bindings : r'.scopes.bindings = r.scopes.bindings) (declarations : r'.declarations = r.declarations) : r'.Accounted where
  program := program
  inner found k same := by
    obtain ⟨self, known⟩ := h.inner (bindings ▸ found) k same
    exact ⟨self, declarations ▸ known⟩
  declared found := h.declared_move keeps move (declarations ▸ found)
  items clean _ _ found j name same := by
    obtain ⟨own, owns⟩ := h.items (move.faults clean) (bindings ▸ found) j name same
    exact ⟨own, owns.later (move.keeps keeps).retains⟩

/-- A move that binds a name leaves names accounted for, if that name is. -/
lemma Accounted.insert {b : Binding} (h : r.Accounted) (move : Move load lo hi r r') (program : r'.program.Shown)
    (scopes : r'.scopes = r.scopes.insert b)
    (inner : ∀ k, b.target = .inner k →
      k = r.scopes.nextBinding ∧ r'.declarations.get? b.site = some r.scopes.nextBinding)
    (declared : ∀ {site id}, r'.declarations.get? site = some id →
      r.declarations.get? site = some id ∨ site = b.site ∧ id = r.scopes.nextBinding ∧ r'.Owned id b)
    (items : r'.faults = [] → ∀ j name, b.target = .item j name → ∃ own, r'.program.Owns j name own) : r'.Accounted where
  program := program
  inner found k same := by
    rw [scopes] at found
    rcases Scopes.bindings_insert found with old | ⟨rfl, rfl⟩
    · obtain ⟨self, known⟩ := h.inner old k same
      exact ⟨self, (move.spread : r.Spread lo hi r').declarations.kept known⟩
    · exact inner k same
  declared found := by
    rcases declared found with old | ⟨rfl, rfl, owned⟩
    · exact h.declared_move keeps move old
    · refine ⟨b, ?_, rfl, owned⟩
      simp [scopes, Scopes.insert, Scopes.nextBinding]
  items clean _ _ found j name same := by
    rw [scopes] at found
    rcases Scopes.bindings_insert found with old | ⟨-, rfl⟩
    · obtain ⟨own, owns⟩ := h.items (move.faults clean) old j name same
      exact ⟨own, owns.later (move.keeps keeps).retains⟩
    · exact items clean j name same

variable (shows : load.KeepsShown)
include shows

/-- A move leaves every definition that is exported exported by its own module. -/
lemma Accounted.shown (h : r.Accounted) (tidy : r.Tidy) (move : Move load lo hi r r') : r'.program.Shown := by
  have retains : r.program.Retains r'.program := (move.keeps keeps).retains
  obtain ⟨path, loaded⟩ | ⟨-, back⟩ := move.exports tidy.home
  · exact loaded ▸ shows r.program path tidy.offers h.program
  · refine h.program.of_exports retains fun member => ?_
    rcases back member with old | brings | ⟨id, b, bound, target, owns⟩
    · exact Or.inl ⟨_, old⟩
    · refine Or.inr fun j name same => ?_
      obtain ⟨own, owns⟩ := h.program.brings brings j name same
      exact ⟨own, owns.later retains⟩
    · refine Or.inr fun j name same => ?_
      obtain ⟨rfl, rfl⟩ := Target.item.inj (owns.target.symm.trans same)
      exact ⟨_, owns⟩

/-- A move leaves names accounted for. -/
lemma Accounted.move (h : r.Accounted) (tidy : r.Tidy) (move : Move load lo hi r r') : r'.Accounted := by
  have program : r'.program.Shown := h.shown keeps shows tidy move
  cases move.naming tidy.home with
  | same bindings declarations => exact h.same keeps move program bindings declarations
  | foreign scopes declarations foreign =>
    refine h.insert keeps move program scopes (fun k same => ?_) (fun found => Or.inl (declarations ▸ found))
      fun _ j name same => ?_
    all_goals rcases foreign with invalid | brings
    · cases invalid.symm.trans same
    · have offered := brings.offered tidy.offers
      rw [same] at offered
      cases offered
    · cases invalid.symm.trans same
    · obtain ⟨own, owns⟩ := h.program.brings brings j name same
      exact ⟨own, owns.later (move.keeps keeps).retains⟩
  | @own b scopes declarations fresh references owned =>
    refine h.insert keeps move program scopes (fun k same => ?_) (fun {site id} found => ?_) fun clean j name same => ?_
    · rcases owned with target | ⟨target, -⟩
      · cases target.symm.trans same
        exact ⟨rfl, by rw [declarations, SpanTable.get?_insert, if_pos rfl]⟩
      · cases target.symm.trans same
    · rw [declarations, SpanTable.get?_insert] at found
      split at found
      · next here =>
        cases found
        exact Or.inr ⟨here, rfl, owned⟩
      · exact Or.inl found
    · rcases owned with target | ⟨target, owned⟩
      · cases target.symm.trans same
      · obtain ⟨rfl, rfl⟩ := Target.item.inj (target.symm.trans same)
        obtain ⟨-, e, owns, -⟩ := owned clean
        exact ⟨e, (move.spread : r.Spread lo hi r').home.symm ▸ owns⟩

/-- Moves leave names accounted for. -/
theorem Accounted.moves (offers : load.KeepsOffers) (h : r.Accounted) (tidy : r.Tidy) (moves : Moves load lo hi r r') :
    r'.Accounted := by
  induction moves with
  | refl => exact h
  | tail before move ih => exact ih.move keeps shows (Moves.tidy offers before tidy) move

end Resolution

namespace Program

variable {p : Program} {raw : String} {depth : Nat} {a : Pending} {path : ModulePath} {source : String} {ast : Module}

/-- A module that has been entered exports nothing. -/
lemma exportsOf_entered {q : Program} (modules : ∀ {i : Nat} {m}, q.modules[i]? = some m →
    p.modules[i]? = some m ∨ m.exports = .empty ∧ m.resolved = none) {i : ModuleId} {e : Export}
    (member : e ∈ (q.exportsOf i).entries) : e ∈ (p.exportsOf i).entries := by
  obtain ⟨m, found, member⟩ := mem_exportsOf member
  rcases modules found with old | ⟨empty, -⟩
  · rwa [exportsOf, old]
  · simp [empty, Exports.empty] at member

/-- Behind a request a program exports what there was when the module was done that the request opens. -/
lemma Opens.exportsOf (h : p.Opens raw depth a) : (loader (depth + 1) p raw).2.exportsOf = a.finished.program.exportsOf := by
  rw [h.answered, finish_exportsOf]
  funext i
  exact modify_exportsOf (fun exports => exports) fun _ => rfl

/-- When a module is opened, its names are accounted for: there are none. -/
lemma Opens.accounted (h : p.Opens raw depth a) (shown : p.Shown) : a.start.Accounted := by
  obtain ⟨path, source, -, start⟩ := h.start
  rw [start]
  refine ⟨?_, fun found => ?_, fun found => ?_, fun _ _ _ found => ?_⟩
  · exact shown.of_exports starting_keeps.retains fun member => Or.inl ⟨_, exportsOf_entered starting_entered member⟩
  · simp [Resolution.start, Scopes.new] at found
  · simp [Resolution.start] at found
  · simp [Resolution.start, Scopes.new] at found

lemma Opens.start_tidy (h : p.Opens raw depth a) (offers : p.Offers) : a.start.Tidy := by
  obtain ⟨path, source, -, start⟩ := h.start
  have inside : p.modules.size < (p.starting path source a.ast).modules.size := by simp [starting_size]
  exact start ▸ Resolution.tidy_start (withSyntax_offers (enter_offers offers)) inside

/-- A module that is opened is resolved by moves. -/
lemma Opens.moves (h : p.Opens raw depth a) (offers : p.Offers) : ∃ hi, Moves (loader depth) 0 hi a.start a.finished := by
  obtain ⟨path, source, -, start⟩ := h.start
  obtain ⟨path', source', program, done⟩ := h.isDone offers
  have begins : a.start = .start (p.starting path' source' a.ast) p.modules.size a.ast.span := by
    rw [start] at program ⊢
    rw [show p.starting path source a.ast = p.starting path' source' a.ast from program]
  exact begins ▸ done.moves

/-- Loaders show no definition of a module that the module does not export, at every depth. -/
theorem loader_keepsShown (depth : Nat) : (loader depth).KeepsShown := by
  induction depth with
  | zero =>
    intro p raw _ shown
    rwa [loader_zero]
  | succ depth ih =>
    intro p raw offers shown
    obtain same | ⟨path, source, errors, -, same⟩ | ⟨inner, a, deeper, opens⟩ := loader_made (depth + 1) p raw
    · rwa [same]
    · refine shown.of_exports (loader_keeps (depth + 1) p raw).retains fun {i e} member => Or.inl ⟨i, ?_⟩
      rw [same, finish_exportsOf] at member
      exact exportsOf_entered enter_entered member
    · cases deeper
      obtain ⟨hi, moves⟩ := opens.moves offers
      have accounted : a.finished.Accounted := (opens.accounted shown).moves (loader_keeps depth) ih
        (loader_keepsOffers depth).1 (opens.start_tidy offers) moves
      have retains : a.finished.program.Retains (loader (depth + 1) p raw).2 := by
        rw [opens.answered]
        exact (modify_retains (f := fun m => { m with resolved := some a.finished.resolved }) fun _ => rfl).trans finish_retains
      exact accounted.program.of_exports retains fun member => Or.inl ⟨_, opens.exportsOf ▸ member⟩

lemma Canonical.shown (h : p.Canonical) : p.Shown := by
  intro i e member j name same
  obtain ⟨own, owns, -⟩ := (h.grounds member).item j name same
  exact ⟨own, owns⟩

/-- When a module is done, its names are accounted for. -/
lemma Opens.done_accounted (h : p.Opens raw depth a) (offers : p.Offers) (shown : p.Shown) : a.finished.Accounted := by
  obtain ⟨hi, moves⟩ := h.moves offers
  exact (h.accounted shown).moves (loader_keeps depth) (loader_keepsShown depth) (loader_keepsOffers depth).1
    (h.start_tidy offers) moves

lemma Opens.finished_home (h : p.Opens raw depth a) (offers : p.Offers) : a.finished.home = a.home := by
  obtain ⟨hi, moves⟩ := h.moves offers
  obtain ⟨path, source, -, start⟩ := h.start
  rw [moves.spread.home, start, h.home]
  rfl

end Program

end PipeLang
