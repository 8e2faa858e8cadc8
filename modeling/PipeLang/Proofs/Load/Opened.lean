import PipeLang.Proofs.Load.Reached

/-!
# Where modules come from

Every module that has been resolved was opened by a request, in a program with the settings of the whole, and has what its
resolution found out: `Program.loadAll_opened`. What holds of every resolution of a module therefore holds of every module
that is loaded, however the loads nest.
-/

namespace PipeLang

/-- A module of a program was opened in another with the same settings, it has what its resolution found out and exports what it
exported then, it has no more faults of its own, and the program exports what was exported then. -/
inductive LoadedModule.Opened (p : Program) (id : Nat) (m : LoadedModule) : Prop where
  | mk {q : Program} {raw depth} {a : Pending} :
    q.settings = p.settings →
    q.Canonical →
    q.Opens raw depth a →
    a.home = id →
    m.ast = some a.ast →
    m.resolved = some a.finished.resolved →
    a.finished.faults ⊆ m.faults →
    a.finished.program.Retains p →
    m.exports = a.finished.program.exportsOf id →
    Fault.own m.faults = Fault.own a.finished.faults →
    Opened p id m

/-- A module that was opened stays so when nothing but its faults changes. -/
lemma LoadedModule.Opened.kept {p p' : Program} {id : Nat} {m m' : LoadedModule} {growing : Prop} (h : m.Opened p id)
    (kept : m.Kept growing m') (still : ¬ growing) (settings : p'.settings = p.settings) (retains : p.Retains p') :
    m'.Opened p' id := by
  cases h with
  | mk same canonical opens home ast resolved faults retained exports own =>
    exact .mk (same.trans settings.symm) canonical opens home (kept.ast.trans ast) (kept.resolved.trans resolved)
      (List.Subset.trans faults kept.faults) (retained.trans retains) ((kept.same still).trans exports) (kept.own.trans own)

/-- A canonical program of which all modules that have been resolved were opened. -/
structure Program.Derived (p : Program) : Prop where
  canonical : p.Canonical
  opened : ∀ {i : Nat} {m}, p.modules[i]? = some m → m.resolved.isSome → m.Opened p i

/-- Loading makes modules by opening them. -/
def Loader.KeepsDerived (load : Loader) : Prop :=
  ∀ (p : Program) (raw : String), p.Derived → (load p raw).2.Derived

namespace Program

variable {p p' : Program} {growing : Nat → Prop}

/-- A later program in which nothing new has been resolved, and nothing grows that has been. -/
lemma Derived.later (h : p.Derived) (keeps : p.Keeps growing p')
    (still : ∀ {i : Nat} {m}, p.modules[i]? = some m → m.resolved.isSome → ¬ growing i) (settings : p'.settings = p.settings)
    (canonical : p'.Canonical)
    (new : ∀ {i : Nat} {m}, p'.modules[i]? = some m → m.resolved.isSome → i < p.modules.size ∨ m.Opened p' i) :
    p'.Derived where
  canonical := canonical
  opened {i m'} found resolved := by
    refine (new found resolved).elim (fun inside => ?_) id
    obtain ⟨m, before, kept⟩ := keeps.module_of_lt inside found
    have resolved' : m.resolved.isSome := kept.resolved ▸ resolved
    exact (h.opened before resolved').kept kept (still before resolved') settings keeps.retains

lemma Derived.later_of_size (h : p.Derived) (keeps : p.Keeps growing p')
    (still : ∀ {i : Nat} {m}, p.modules[i]? = some m → m.resolved.isSome → ¬ growing i) (settings : p'.settings = p.settings)
    (canonical : p'.Canonical) (size : p'.modules.size = p.modules.size) : p'.Derived :=
  h.later keeps still settings canonical fun found _ => Or.inl (size ▸ (Array.getElem?_eq_some_iff.1 found).1)

end Program

/-- The module that is being resolved has no tables yet. -/
def Resolution.Untabled (r : Resolution) : Prop :=
  ∀ {m}, r.program.modules[(r.home : Nat)]? = some m → m.resolved = none

variable {load : Loader} {mentions : List Mention} {topLevel : Bool} {r r' : Resolution}

/-- A change makes no tables for the module that is being resolved. -/
lemma Change.untabled (keeps : load.Keeps) (change : Change load mentions topLevel r r')
    (there : (r.home : Nat) < r.program.modules.size) (h : r.Untabled) : r'.Untabled := by
  obtain ⟨kept, home⟩ := change.keeps keeps
  intro m found
  rw [home] at found
  obtain ⟨m₀, before, same⟩ := kept.module_of_lt there found
  exact same.resolved.trans (h before)

/-- A change makes no module but by loading it. -/
lemma Change.derived (keeps : load.Keeps) (canonical : load.KeepsCanonical) (derives : load.KeepsDerived)
    (change : Change load mentions topLevel r r') (backed : r.Backed) (untabled : r.Untabled) (h : r.program.Derived) :
    r'.program.Derived := by
  have kept := (change.keeps keeps).1
  have still {i : Nat} {m : LoadedModule} (found : r.program.modules[i]? = some m) (resolved : m.resolved.isSome) :
      ¬ r.Grows topLevel i := by
    rintro ⟨-, rfl⟩
    rw [untabled found] at resolved
    cases resolved
  have after := (change.backed keeps canonical backed).program
  cases change with
  | tables program => exact program ▸ h
  | load => exact derives _ _ h
  | edge | record | bind | redefine => exact h.later_of_size kept still rfl after rfl
  | forward | define | assembly =>
    exact h.later_of_size kept still rfl after (by simp [Resolution.offering, Program.modify])

lemma Changes.derived (keeps : load.Keeps) (canonical : load.KeepsCanonical) (derives : load.KeepsDerived)
    (changes : Changes load mentions topLevel r r') (backed : r.Backed) (untabled : r.Untabled) (h : r.program.Derived) :
    r'.Untabled ∧ r'.program.Derived := by
  induction changes with
  | refl => exact ⟨untabled, h⟩
  | tail before change ih =>
    have backed' := Changes.backed keeps canonical before backed
    exact ⟨change.untabled keeps backed'.home ih.1, change.derived keeps canonical derives backed' ih.1 ih.2⟩

namespace Program

variable {p q : Program} {raw : String} {depth : Nat} {a : Pending}

/-- What a request makes of a program: nothing, a module that cannot be parsed, or a module that it opens. -/
lemma loader_made (depth : Nat) (p : Program) (raw : String) : (loader depth p raw).2 = p ∨
    (∃ path source errors, Module.parse source = .error errors ∧
      (loader depth p raw).2 = (p.enter path source).finish p.modules.size (errors.map .malformed)) ∨
    ∃ inner a, depth = inner + 1 ∧ p.Opens raw inner a := by
  cases depth with
  | zero => exact Or.inl loader_zero
  | succ depth =>
    obtain ⟨same, -⟩ | ⟨path, source, named, unknown, read⟩ := loader_idle p raw
    · exact Or.inl (same _)
    · cases parsed : Module.parse source with
      | ok ast => exact Or.inr (Or.inr ⟨depth, _, rfl, .mk named unknown read parsed (List.nil_append _).symm⟩)
      | error errors =>
        refine Or.inr (Or.inl ⟨path, source, errors, parsed, ?_⟩)
        rw [loader_named named, loadPath_malformed unknown read parsed]

/-- A later program with the same number of modules, of which none grows, exports the same. -/
lemma Keeps.exportsOf_eq (h : p.Settles q) (size : q.modules.size = p.modules.size) : q.exportsOf = p.exportsOf := by
  funext i
  rcases Nat.lt_or_ge i p.modules.size with inside | outside
  · exact h.exportsOf inside not_false
  · simp [Program.exportsOf, Array.getElem?_eq_none outside, Array.getElem?_eq_none (size ▸ outside)]

/-- A later program with the same number of modules has the same tables. -/
lemma Keeps.resolvedOf_eq (h : p.Settles q) (size : q.modules.size = p.modules.size) : q.resolvedOf = p.resolvedOf := by
  funext i
  rcases Nat.lt_or_ge i p.modules.size with inside | outside
  · obtain ⟨m, found, kept⟩ := h.modules (Array.getElem?_eq_getElem inside)
    simp [Program.resolvedOf, found, Array.getElem?_eq_getElem inside, kept.resolved]
  · simp [Program.resolvedOf, Array.getElem?_eq_none outside, Array.getElem?_eq_none (size ▸ outside)]

section

variable {id : Nat} {faults : List Fault}

lemma finish_size : (p.finish id faults).modules.size =
    (p.modify id fun m => { m with faults := m.faults ++ faults, status := .loaded }).modules.size := by
  simp only [finish]
  split
  · split
    · rfl
    · exact propagate_size _
  · rfl

/-- Finishing a module exports nothing. -/
lemma finish_exportsOf : (p.finish id faults).exportsOf = p.exportsOf := by
  rw [finish_keeps.exportsOf_eq finish_size]
  funext i
  exact modify_exportsOf (fun exports => exports) fun _ => rfl

lemma finish_retains : p.Retains (p.finish id faults) :=
  (modify_retains (f := fun m => { m with faults := m.faults ++ faults, status := .loaded }) fun _ => rfl).trans
    finish_keeps.retains

/-- Finishing a module leaves all tables as they are. -/
lemma finish_resolvedOf : (p.finish id faults).resolvedOf = p.resolvedOf := by
  rw [finish_keeps.resolvedOf_eq finish_size]
  exact resolvedOf_modify fun _ _ => rfl

end

/-- A module that has been entered is not resolved. -/
lemma Derived.starting {path : ModulePath} {source : String} {ast : Module} (h : p.Derived) :
    (p.starting path source ast).Derived := by
  refine h.later starting_keeps (fun found _ => Nat.ne_of_lt (Array.getElem?_eq_some_iff.1 found).1) rfl h.canonical.starting
    fun {i m} found resolved => ?_
  rw [starting_modules] at found
  split at found
  · cases found
    cases resolved
  · exact Or.inl (Array.getElem?_eq_some_iff.1 found).1

/-- When a module is finished, its importers may fail, and nothing else happens. -/
lemma Derived.finish {id : Nat} {faults : List Fault} (canonical : (q.finish id faults).Canonical)
    (opened : let marked := q.modify id fun m => { m with faults := m.faults ++ faults, status := .loaded }
      ∀ {i : Nat} {m}, marked.modules[i]? = some m → m.resolved.isSome → m.Opened marked i) :
    (q.finish id faults).Derived where
  canonical := canonical
  opened {i m'} found resolved := by
    have finishes := @finish_keeps q id faults
    have inside : i < _ := finish_size (p := q) ▸ (Array.getElem?_eq_some_iff.1 found).1
    obtain ⟨m, before, kept⟩ := finishes.module_of_lt inside found
    exact (opened before (kept.resolved ▸ resolved)).kept kept not_false finish_settings finishes.retains

/-- A module that is opened is made by its resolution, and those that it loads are opened in it. -/
lemma Derived.parsed (h : p.Derived) (derives : (loader depth).KeepsDerived) (opens : p.Opens raw depth a)
    (canonical : (loader (depth + 1) p raw).2.Canonical) : (loader (depth + 1) p raw).2.Derived := by
  obtain ⟨path, source, -, start⟩ := opens.start
  have inside : p.modules.size < (p.starting path source a.ast).modules.size := by simp [starting_size]
  have changes : Changes (loader depth) (Statement.allMentions a.ast.statements) true a.start a.finished := by
    rw [Pending.finished, opens.depth_eq]
    exact Resolve.module_changes (loader depth) a.ast a.start
  have settings : a.finished.program.settings = p.settings := by
    rw [changes.settings (loader_settings depth), start]
    rfl
  have derived : a.finished.program.Derived := by
    refine (changes.derived (loader_keeps depth) (loader_keepsCanonical depth) derives ?_ ?_ ?_).2
    · exact start ▸ h.canonical.starting.start_backed inside
    · rw [start]
      intro m found
      rw [show (Resolution.start (p.starting path source a.ast) p.modules.size a.ast.span).program =
        p.starting path source a.ast from rfl, starting_modules] at found
      cases (if_pos rfl).symm.trans found
      rfl
    · exact start ▸ h.starting
  rw [opens.answered] at canonical ⊢
  refine .finish canonical fun {i m} found resolved => ?_
  rw [modify_modify] at found ⊢
  have retains := @modify_retains a.finished.program p.modules.size
    ((fun m => { m with faults := m.faults ++ a.finished.faults, status := .loaded }) ∘
      fun m => { m with resolved := some a.finished.resolved }) fun _ => rfl
  rw [modify_modules] at found
  split at found
  · next here =>
    obtain ⟨m₀, known, ast, -⟩ := opens.unfinished
    have none : Fault.own m₀.faults = [] := opens.unfinished_own known
    rw [opens.home, here] at known
    rw [known, Option.map_some, Option.some.injEq] at found
    subst found
    refine .mk settings.symm h.canonical opens (opens.home.trans here) ast rfl (List.subset_append_right _ _) retains ?_ ?_
    · simp only [exportsOf, known, Function.comp_apply]
    · exact Fault.own_append.trans (by rw [none, List.nil_append])
  · exact (derived.opened found resolved).kept (LoadedModule.Kept.refl : m.Kept False m) not_false rfl retains

/-- Loaders make modules by opening them, at every depth. -/
theorem loader_keepsDerived (depth : Nat) : (loader depth).KeepsDerived := by
  induction depth with
  | zero =>
    intro p raw h
    rwa [loader_zero]
  | succ depth ih =>
    intro p raw h
    have canonical := loader_keepsCanonical (depth + 1) p raw h.canonical
    obtain same | ⟨path, source, errors, -, same⟩ | ⟨inner, a, deeper, opens⟩ := loader_made (depth + 1) p raw
    · rwa [same]
    · rw [same] at canonical ⊢
      refine .finish canonical fun {i m} found resolved => ?_
      have retains := enter_keeps.retains.trans (@modify_retains (p.enter path source) p.modules.size
        (fun m => { m with faults := m.faults ++ errors.map .malformed, status := .loaded }) fun _ => rfl)
      rw [modify_modules, enter_modules] at found
      split at found
      · next here =>
        rw [if_pos here.symm] at found
        cases found
        cases resolved
      · next other =>
        rw [if_neg (Ne.symm other)] at found
        exact (h.opened found resolved).kept (LoadedModule.Kept.refl : m.Kept False m) not_false rfl retains
    · cases deeper
      exact h.parsed ih opens canonical

/-- A module that has been opened is done behind moves. -/
lemma Opens.isDone (h : p.Opens raw depth a) (offers : p.Offers) : ∃ path source,
    a.start.program = p.starting path source a.ast ∧
      Resolution.Done (loader depth) (p.starting path source a.ast) p.modules.size a.ast a.finished := by
  obtain ⟨path, source, parsed, start⟩ := h.start
  obtain ⟨order, ordered⟩ := Module.parse_ordered parsed
  obtain ⟨keeps, answers⟩ := loader_keepsOffers depth
  have inside : p.modules.size < (p.starting path source a.ast).modules.size := by simp [starting_size]
  refine ⟨path, source, by rw [start]; rfl, ?_⟩
  rw [Pending.finished, h.depth_eq, start]
  exact Resolve.module_done keeps answers (withSyntax_offers (enter_offers offers)) inside order ordered

/-- Behind any loads, every module that has been resolved was opened in a program with the same settings. -/
theorem loadAll_opened {sources : Sources} {policy : GlobPolicy} {hosts : Hosts} {paths : List String} {i : Nat}
    {m : LoadedModule} (found : ((new sources policy hosts).loadAll paths).modules[i]? = some m)
    (resolved : m.resolved.isSome) : m.Opened ((new sources policy hosts).loadAll paths) i := by
  have step {p : Program} (paths : List String) (h : p.Derived) : (p.loadAll paths).Derived := by
    induction paths generalizing p with
    | nil => exact h
    | cons raw paths ih => exact ih (loader_keepsDerived (p.sources.limit + 1) p raw h)
  have start : (new sources policy hosts).Derived := ⟨canonical_new, fun found => by simp [new] at found⟩
  exact (step paths start).opened found resolved

end Program

end PipeLang
