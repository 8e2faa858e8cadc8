import PipeLang.Proofs.Load.Loaded
import PipeLang.Proofs.Resolve.Trace

/-!
# What loading leaves alone

Loading a module changes nothing of the modules that are there before, but that some of them may fail:
`Program.loader_keeps`. In particular a module that is itself being loaded offers the same before and behind the load of
another.
-/

namespace PipeLang

/-- The faults that do not only pass on the failure of an imported module. -/
def Fault.own (faults : List Fault) : List Fault :=
  faults.filter fun f => !f.isPassedOn

lemma Fault.own_append {faults more : List Fault} : own (faults ++ more) = own faults ++ own more :=
  List.filter_append ..

/-- A module of which nothing changes but that it may fail, and that it may offer more while it grows. -/
structure LoadedModule.Kept (growing : Prop) (m m' : LoadedModule) : Prop where
  path : m'.path = m.path
  status : m'.status = m.status
  ast : m'.ast = m.ast
  resolved : m'.resolved = m.resolved
  faults : m.faults ⊆ m'.faults
  own : Fault.own m'.faults = Fault.own m.faults
  exports : m.exports.entries <+: m'.exports.entries
  same : ¬ growing → m'.exports = m.exports

lemma LoadedModule.Kept.refl {growing : Prop} {m : LoadedModule} : m.Kept growing m where
  path := rfl
  status := rfl
  ast := rfl
  resolved := rfl
  faults := List.Subset.refl _
  own := rfl
  exports := List.prefix_rfl
  same _ := rfl

lemma LoadedModule.Kept.trans {growing : Prop} {m m' m'' : LoadedModule} (h : m.Kept growing m')
    (h' : m'.Kept growing m'') : m.Kept growing m'' where
  path := h'.path.trans h.path
  status := h'.status.trans h.status
  ast := h'.ast.trans h.ast
  resolved := h'.resolved.trans h.resolved
  faults := List.Subset.trans h.faults h'.faults
  own := h'.own.trans h.own
  exports := h.exports.trans h'.exports
  same fixed := (h'.same fixed).trans (h.same fixed)

lemma LoadedModule.Kept.mono {growing growing' : Prop} {m m' : LoadedModule} (h : m.Kept growing m')
    (more : growing → growing') : m.Kept growing' m' :=
  { h with same := fun fixed => h.same fun grows => fixed (more grows) }

/-- A module that grows may offer more. -/
lemma LoadedModule.Kept.offering {growing : Prop} {m : LoadedModule} {exports : Exports} (grows : growing)
    (more : m.exports.entries <+: exports.entries) : m.Kept growing { m with exports := exports } where
  path := rfl
  status := rfl
  ast := rfl
  resolved := rfl
  faults := List.Subset.refl _
  own := rfl
  exports := more
  same fixed := absurd grows fixed

namespace Program

/-- A later program: of the modules that were there nothing has changed but that they may have failed, and that those
that grow may offer more. The modules that have come are loaded, or they grow. -/
structure Keeps (growing : Nat → Prop) (p p' : Program) : Prop where
  hosts : p'.hosts = p.hosts
  modules : ∀ {i : Nat} {m}, p.modules[i]? = some m → ∃ m', p'.modules[i]? = some m' ∧ m.Kept (growing i) m'
  new : ∀ {i : Nat} {m'}, p.modules.size ≤ i → p'.modules[i]? = some m' → m'.status = .loaded ∨ growing i

/-- No module grows. -/
abbrev Settles (p p' : Program) : Prop :=
  Keeps (fun _ => False) p p'

variable {growing growing' : Nat → Prop} {p p' q : Program}

namespace Keeps

lemma refl : Keeps growing p p where
  hosts := rfl
  modules found := ⟨_, found, .refl⟩
  new le found := by simp [Array.getElem?_eq_none le] at found

lemma size_le (h : Keeps growing p p') : p.modules.size ≤ p'.modules.size := by
  by_contra shorter
  obtain ⟨m', found, -⟩ := h.modules (Array.getElem?_eq_getElem (Nat.lt_of_not_le shorter))
  simp at found

/-- A module that was there before. -/
lemma module_of_lt (h : Keeps growing p p') {i : Nat} {m' : LoadedModule} (inside : i < p.modules.size)
    (found : p'.modules[i]? = some m') : ∃ m, p.modules[i]? = some m ∧ m.Kept (growing i) m' := by
  have found' := Array.getElem?_eq_getElem inside
  obtain ⟨m'', same, kept⟩ := h.modules found'
  rw [found, Option.some.injEq] at same
  exact ⟨_, found', same ▸ kept⟩

lemma trans (h : Keeps growing p p') (h' : Keeps growing p' q) : Keeps growing p q where
  hosts := h'.hosts.trans h.hosts
  modules found := by
    obtain ⟨m', found', kept⟩ := h.modules found
    obtain ⟨m'', found'', kept'⟩ := h'.modules found'
    exact ⟨m'', found'', kept.trans kept'⟩
  new {i m''} le found := by
    by_cases old : i < p'.modules.size
    · obtain ⟨m', found', kept⟩ := h'.module_of_lt old found
      exact (h.new le found').imp_left kept.status.trans
    · exact h'.new (Nat.le_of_not_lt old) found

lemma mono (h : Keeps growing p p') (more : ∀ i, growing i → growing' i) : Keeps growing' p p' where
  hosts := h.hosts
  modules found := by
    obtain ⟨m', found', kept⟩ := h.modules found
    exact ⟨m', found', kept.mono (more _)⟩
  new le found := (h.new le found).imp_right (more _)

/-- A module that does not grow offers what it offered. -/
lemma exportsOf (h : Keeps growing p p') {id : ModuleId} (there : (id : Nat) < p.modules.size) (fixed : ¬ growing id) :
    p'.exportsOf id = p.exportsOf id := by
  have found := Array.getElem?_eq_getElem there
  obtain ⟨m', found', kept⟩ := h.modules found
  simp only [Program.exportsOf, found, found', kept.same fixed]

/-- What a module exports it goes on to export. -/
lemma exports (h : Keeps growing p p') (id : ModuleId) : (p.exportsOf id).entries <+: (p'.exportsOf id).entries := by
  rw [Program.exportsOf, Program.exportsOf]
  cases found : p.modules[(id : Nat)]? with
  | none => exact List.nil_prefix
  | some m =>
    obtain ⟨m', found', kept⟩ := h.modules found
    rw [found']
    exact kept.exports

/-- What resolution has found out about a module stays. -/
lemma resolvedOf (h : Keeps growing p p') {id : ModuleId} {t : Resolved} (known : p.resolvedOf id = some t) :
    p'.resolvedOf id = some t := by
  obtain ⟨m, found, resolved⟩ := Option.bind_eq_some_iff.1 known
  obtain ⟨m', found', kept⟩ := h.modules found
  exact Option.bind_eq_some_iff.2 ⟨m', found', kept.resolved.trans resolved⟩

/-- What is done to a new module that grows does not matter to the others. -/
lemma modify_new {id : Nat} {f : LoadedModule → LoadedModule} (h : Keeps growing p p') (fresh : p.modules.size ≤ id)
    (grows : growing id) : Keeps growing p (p'.modify id f) where
  hosts := h.hosts
  modules {i m} found := by
    have old : id ≠ i := fun same => by simp [← same, Array.getElem?_eq_none fresh] at found
    obtain ⟨m', found', kept⟩ := h.modules found
    exact ⟨m', by rw [modify_modules, if_neg old, found'], kept⟩
  new {i m'} le found := by
    rw [modify_modules] at found
    split at found
    · next here => exact Or.inr (here ▸ grows)
    · exact h.new le found

/-- A program settles when the one new module that grows is loaded. -/
lemma settles (h : Keeps (· = p.modules.size) p p')
    (loaded : ∀ m', p'.modules[p.modules.size]? = some m' → m'.status = .loaded) : p.Settles p' where
  hosts := h.hosts
  modules found := by
    obtain ⟨m', found', kept⟩ := h.modules found
    exact ⟨m', found', kept.mono fun same => by simp [same] at found⟩
  new {i m'} le found := by
    rcases h.new le found with done | rfl
    · exact Or.inl done
    · exact Or.inl (loaded m' found)

end Keeps

/-- A change of one module that leaves it alone, but that it may grow. -/
lemma modify_keeps {id : Nat} {f : LoadedModule → LoadedModule}
    (kept : ∀ m, p.modules[id]? = some m → m.Kept (growing id) (f m)) : Keeps growing p (p.modify id f) where
  hosts := rfl
  modules {i m} found := by
    rw [modify_modules]
    split
    · next here =>
      subst here
      exact ⟨f m, by rw [found]; rfl, kept m found⟩
    · exact ⟨m, found, .refl⟩
  new le found := by
    have := (Array.getElem?_eq_some_iff.1 found).1
    simp only [Program.modify, Array.size_modify] at this
    omega

/-- Failing importers leaves modules alone. -/
lemma Told.keeps {hits : List ImportEdge} {before after : List ModuleId} (h : Told hits p q before after) :
    p.Settles q where
  hosts := h.hosts
  modules found := by
    obtain ⟨m', found', rfl | ⟨none, -, -, f, passedOn, rfl⟩⟩ := h.modules found
    · exact ⟨_, found', .refl⟩
    · exact ⟨_, found', { LoadedModule.Kept.refl with
        faults := by simp [none]
        own := by simp [Fault.own, none, passedOn] }⟩
  new le found := by
    have := (Array.getElem?_eq_some_iff.1 found).1
    rw [h.size] at this
    omega

lemma propagate_keeps (dirty : List ModuleId) : p.Settles (p.propagate dirty) := by
  fun_induction Program.propagate p dirty with
  | case1 p => exact .refl
  | case2 p target pending hits none ih => exact ih
  | case3 p target pending hits some next ih =>
    have dropped : p.Settles (p.dropEdgesInto target) := { Keeps.refl with hosts := rfl }
    have told : Told hits (p.dropEdgesInto target) next.1 [] next.2 := failImporters_told
    exact (dropped.trans told.keeps).trans ih

/-- Finishing a module leaves it alone once it has its faults and counts as loaded. -/
lemma finish_keeps {id : Nat} {faults : List Fault} :
    (p.modify id fun m => { m with faults := m.faults ++ faults, status := .loaded }).Settles (p.finish id faults) := by
  simp only [finish]
  split
  · split
    · exact .refl
    · exact propagate_keeps [id]
  · exact .refl

end Program

/-- Loading leaves alone what is there. -/
def Loader.Keeps (load : Loader) : Prop :=
  ∀ (p : Program) (raw : String), p.Settles (load p raw).2

variable {load : Loader} {mentions : List Mention} {topLevel : Bool} {r r' : Resolution}

/-- Only at the top level does a resolution offer more of its own module. -/
def Resolution.Grows (r : Resolution) (topLevel : Bool) (id : Nat) : Prop :=
  topLevel = true ∧ id = r.home

/-- One more export leaves the other modules alone. -/
lemma Resolution.offering_keeps {e : Export} {exports : Exports}
    (inserted : (r.program.exportsOf r.home).insert e = .ok exports) :
    r.program.Keeps (· = r.home) (r.offering exports) := by
  refine Program.modify_keeps fun m found => .offering rfl ?_
  simp only [Program.exportsOf, found, Exports.insert] at inserted
  split at inserted
  · cases inserted
  · cases inserted
    exact List.prefix_append _ _

/-- A change leaves alone the modules that are not being resolved by it. -/
lemma Change.keeps (keeps : load.Keeps) (h : Change load mentions topLevel r r') :
    r.program.Keeps (r.Grows topLevel) r'.program ∧ r'.home = r.home := by
  have offering {e : Export} {exports : Exports} (top : topLevel = true)
      (inserted : (r.program.exportsOf r.home).insert e = .ok exports) :
      r.program.Keeps (r.Grows topLevel) (r.offering exports) :=
    (Resolution.offering_keeps inserted).mono fun _ same => ⟨top, same⟩
  cases h with
  | tables program home bindings references faults => exact ⟨program ▸ .refl, home⟩
  | record denotes => exact ⟨.refl, rfl⟩
  | bind binds => exact ⟨.refl, rfl⟩
  | edge => exact ⟨{ Program.Keeps.refl with hosts := rfl }, rfl⟩
  | load member => exact ⟨(keeps _ _).mono fun _ => False.elim, rfl⟩
  | forward top inserted forwards => exact ⟨offering top inserted, rfl⟩
  | define top target loops name target' ty own inserted => exact ⟨offering top inserted, rfl⟩
  | redefine top target => exact ⟨.refl, rfl⟩
  | assembly top => exact ⟨Program.modify_keeps fun m found => .offering ⟨top, rfl⟩ List.prefix_rfl, rfl⟩

/-- Changes leave alone the modules that are not being resolved by them. -/
theorem Changes.keeps (keeps : load.Keeps) (h : Changes load mentions topLevel r r') :
    r.program.Keeps (r.Grows topLevel) r'.program ∧ r'.home = r.home := by
  induction h with
  | refl => exact ⟨.refl, rfl⟩
  | tail _ change ih =>
    obtain ⟨kept, home⟩ := change.keeps keeps
    exact ⟨ih.1.trans (kept.mono fun i grows => ⟨grows.1, grows.2.trans ih.2⟩), home.trans ih.2⟩

namespace Program

open Resolve (after)

variable {p q : Program}

lemma enter_keeps {path : ModulePath} {source : String} : p.Keeps (· = p.modules.size) (p.enter path source) where
  hosts := rfl
  modules found := ⟨_, enter_kept found, .refl⟩
  new {i m'} le found := by
    have inside := (Array.getElem?_eq_some_iff.1 found).1
    simp only [enter, Array.size_push] at inside
    exact Or.inr (by omega)

/-- Work on a new module leaves the others alone, when it is done and the module has its faults. -/
lemma Keeps.done {worked : Program} {faults : List Fault} (h : p.Keeps (· = p.modules.size) worked) :
    p.Settles (worked.finish p.modules.size faults) := by
  let marked := worked.modify p.modules.size fun m => { m with faults := m.faults ++ faults, status := .loaded }
  have finish : marked.Settles (worked.finish p.modules.size faults) := finish_keeps
  have work : p.Keeps (· = p.modules.size) marked := h.modify_new (Nat.le_refl _) rfl
  refine (work.trans (finish.mono fun _ => False.elim)).settles fun m' found => ?_
  rcases Nat.lt_or_ge p.modules.size marked.modules.size with there | missing
  · have found' := Array.getElem?_eq_getElem there
    obtain ⟨m'', same, kept⟩ := finish.modules found'
    rw [found, Option.some.injEq] at same
    subst same
    rw [modify_modules, if_pos rfl] at found'
    obtain ⟨m, -, marks⟩ := Option.map_eq_some_iff.1 found'
    rw [kept.status, ← marks]
  · exact (finish.new missing found).elim id False.elim

/-- The program in which the resolution of a new module starts. -/
def starting (p : Program) (path : ModulePath) (source : String) (ast : Module) : Program :=
  (p.enter path source).withSyntax p.modules.size ast

lemma starting_size {path : ModulePath} {source : String} {ast : Module} :
    (p.starting path source ast).modules.size = p.modules.size + 1 := by
  simp [starting, withSyntax, Program.modify, Program.enter]

lemma starting_modules {path : ModulePath} {source : String} {ast : Module} {i : Nat} :
    (p.starting path source ast).modules[i]? = if i = p.modules.size then
      some ⟨path, .loading, source, some ast, .empty, none, []⟩ else p.modules[i]? := by
  rw [starting, withSyntax, modify_modules, enter_modules]
  split
  · next here => simp [← here]
  · next other => rw [if_neg (Ne.symm other), if_neg (Ne.symm other)]

lemma starting_keeps {path : ModulePath} {source : String} {ast : Module} :
    p.Keeps (· = p.modules.size) (p.starting path source ast) :=
  enter_keeps.modify_new (Nat.le_refl _) rfl

/-- The state behind the resolution of a new module. -/
def resolution (p : Program) (load : Loader) (path : ModulePath) (source : String) (ast : Module) : Resolution :=
  after (Resolve.module load ast) (.start (p.starting path source ast) p.modules.size ast.span)

/-- The resolution of a new module leaves the others alone. -/
lemma resolution_keeps {path : ModulePath} {source : String} {ast : Module} (keeps : load.Keeps) :
    p.Keeps (· = p.modules.size) ((p.resolution load path source ast).program.modify p.modules.size fun m =>
      { m with resolved := some (p.resolution load path source ast).resolved }) := by
  obtain ⟨work, -⟩ := (Resolve.module_changes load ast
    (.start (p.starting path source ast) p.modules.size ast.span)).keeps keeps
  exact (starting_keeps.trans (work.mono fun _ => And.right)).modify_new (Nat.le_refl _) rfl

/-- Loaders leave alone what is there, at every depth. -/
theorem loader_keeps (depth : Nat) : (loader depth).Keeps := by
  induction depth using Nat.strongRecOn with
  | ind depth ih =>
    have loads {p : Program} {path : ModulePath} : p.Settles (p.loadPath depth path).2 := by
      have loadsTo := loadPath_loadsTo p depth path
      generalize p.loadPath depth path = result at loadsTo ⊢
      cases loadsTo with
      | found inside => exact .refl
      | refused => exact .refl
      | @loaded inner path source q faults deeper resolved =>
        have keeps := ih inner (by omega)
        cases parsed : Module.parse source with
        | error errors =>
          rw [resolveEntered_error parsed, Prod.mk.injEq] at resolved
          obtain ⟨rfl, -⟩ := resolved
          exact enter_keeps.done
        | ok ast =>
          rw [resolveEntered_ok parsed, Prod.mk.injEq] at resolved
          obtain ⟨rfl, -⟩ := resolved
          exact (resolution_keeps keeps).done
    intro p raw
    simp only [loader]
    split
    · exact loads
    · exact .refl

end Program

end PipeLang
