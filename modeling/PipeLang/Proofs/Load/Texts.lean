import PipeLang.Proofs.Load.Reached

/-!
# The texts of modules

A module keeps the text that its path is read as, whatever is loaded later and whatever fails. So what a load answers with
is a module with the text of the path that is asked for: `Program.load_asked`.
-/

namespace PipeLang

/-- Every module has the text that its path is read as. -/
structure Program.AsRead (p : Program) : Prop where
  read : ∀ {i : Nat} {m}, p.modules[i]? = some m → p.sources.read m.path = .ok m.source

namespace Program

variable {p q : Program} {path : ModulePath} {raw source : String} {ast : Module} {id : ModuleId} {faults : List Fault}
  {depth : Nat}

namespace AsRead

/-- It is enough that every record goes back to one with the same path and text. -/
lemma onward (h : p.AsRead) (sources : q.sources = p.sources) (back : ∀ {i : Nat} {m'}, q.modules[i]? = some m' →
      ∃ m, p.modules[i]? = some m ∧ m'.path = m.path ∧ m'.source = m.source) : q.AsRead where
  read found := by
    obtain ⟨m, old, path, source⟩ := back found
    rw [sources, path, source]
    exact h.read old

lemma modify {f : LoadedModule → LoadedModule} (h : p.AsRead) (path : ∀ m, (f m).path = m.path)
    (source : ∀ m, (f m).source = m.source) : (p.modify id f).AsRead := by
  refine h.onward rfl fun {i m'} found => ?_
  rw [modify_modules] at found
  split at found
  · obtain ⟨m, old, rfl⟩ := Option.map_eq_some_iff.1 found
    exact ⟨m, old, path m, source m⟩
  · exact ⟨m', found, rfl, rfl⟩

lemma enter (h : p.AsRead) (read : p.sources.read path = .ok source) : (p.enter path source).AsRead where
  read {i m} found := by
    rw [enter_modules] at found
    split at found
    · cases found
      exact read
    · exact h.read found

lemma told {hits : List ImportEdge} {before behind : List ModuleId} (h : p.AsRead) (told : Told hits p q before behind)
    (sources : q.sources = p.sources) : q.AsRead := by
  refine h.onward sources fun found => ?_
  obtain ⟨m, old, rfl | ⟨-, -, -, f, -, rfl⟩⟩ := told.back found
  · exact ⟨_, old, rfl, rfl⟩
  · exact ⟨m, old, rfl, rfl⟩

lemma propagate (h : p.AsRead) (dirty : List ModuleId) : (p.propagate dirty).AsRead := by
  fun_induction Program.propagate p dirty with
  | case1 p => exact h
  | case2 p target pending hits none ih => exact ih h
  | case3 p target pending hits some next ih =>
    have told : Told hits (p.dropEdgesInto target) next.1 [] next.2 := failImporters_told
    have dropped : (p.dropEdgesInto target).AsRead := ⟨h.read⟩
    exact ih (dropped.told told (sources_of_settings (failImporters_settings _ _ _)))

lemma finish (h : p.AsRead) : (p.finish id faults).AsRead := by
  have marked : (p.modify id fun m => { m with faults := m.faults ++ faults, status := .loaded }).AsRead :=
    h.modify (fun _ => rfl) fun _ => rfl
  simp only [Program.finish]
  split
  · split
    · exact marked
    · exact marked.propagate [id]
  · exact marked

end AsRead

/-- Changes leave the texts of modules alone when the loader does. -/
lemma changes_asRead {load : Loader} {mentions : List Mention} {topLevel : Bool} {r r' : Resolution}
    (kept : ∀ (p : Program) raw, p.AsRead → (load p raw).2.AsRead) (h : Changes load mentions topLevel r r')
    (start : r.program.AsRead) : r'.program.AsRead := by
  induction h with
  | refl => exact start
  | tail _ change ih =>
    cases change with
    | tables program => exact program ▸ ih
    | record | bind | redefine => exact ih
    | edge => exact ⟨ih.read⟩
    | load => exact kept _ _ ih
    | forward | define | assembly => exact AsRead.modify ih (fun _ => rfl) fun _ => rfl

/-- Loaders give every module the text that its path is read as. -/
lemma loader_asRead (depth : Nat) (p : Program) (raw : String) (h : p.AsRead) : (loader depth p raw).2.AsRead := by
  induction depth generalizing p raw with
  | zero => exact loader_zero.symm ▸ h
  | succ depth ih =>
    cases named : ModulePath.parse raw with
    | error cause =>
      rw [loader, named]
      exact h
    | ok path =>
      rw [loader_named named]
      cases unknown : p.findPath? path with
      | some id => exact loadPath_found unknown ▸ h
      | none =>
        cases read : p.sources.read path with
        | error cause => exact loadPath_unreadable unknown read ▸ h
        | ok source =>
          -- A record is entered with the text that was read, and nothing that follows changes it.
          have entered : (p.enter path source).AsRead := h.enter read
          cases parsed : Module.parse source with
          | error errors =>
            rw [loadPath_malformed unknown read parsed]
            exact entered.finish
          | ok ast =>
            have started : (p.starting path source ast).AsRead := entered.modify (fun _ => rfl) fun _ => rfl
            have resolved := changes_asRead ih (Resolve.module_changes (loader depth) ast
              (.start (p.starting path source ast) p.modules.size ast.span)) started
            have tabled : (p.tabled (loader depth) path source ast).AsRead :=
              AsRead.modify resolved (fun _ => rfl) fun _ => rfl
            rw [loadPath_parsed unknown read parsed]
            exact tabled.finish

lemma AsRead.loadAll (h : p.AsRead) (paths : List String) : (p.loadAll paths).AsRead := by
  induction paths generalizing p with
  | nil => exact h
  | cons raw paths ih => exact ih (loader_asRead (p.sources.limit + 1) p raw h)

/-- Behind any loads, what a load answers with is a module with the path that is asked for and with the text that this path
is read as. -/
theorem load_asked {sources : Sources} {policy : GlobPolicy} {hosts : Hosts} {paths : List String}
    (answer : ((new sources policy hosts).loadAll paths).load raw = (.ok id, q)) :
    ∃ path m, ModulePath.parse raw = .ok path ∧ q.modules[(id : Nat)]? = some m ∧ m.path = path ∧
      sources.read path = .ok m.source := by
  let p := (new sources policy hosts).loadAll paths
  have cached : p.Cached := cached_new.loadAll paths
  have fresh : (new sources policy hosts).AsRead := ⟨fun found => by simp [new] at found⟩
  have asRead := loader_asRead (p.sources.limit + 1) p raw (fresh.loadAll paths)
  have cached' := (loader_caches (p.sources.limit + 1)).cached raw cached
  have settings := (loader_settings (p.sources.limit + 1) p raw).trans (loadAll_settings paths)
  have same : loader (p.sources.limit + 1) p raw = (.ok id, q) := answer
  obtain ⟨path, named, known⟩ := (loader_goesByCache cached).answered (congrArg Prod.fst same)
  rw [same] at asRead cached' settings known
  obtain ⟨m, found, rfl⟩ := cached'.found.1 known
  have kept : q.sources = sources := sources_of_settings settings
  exact ⟨m.path, m, named, found, rfl, kept ▸ asRead.read found⟩

end Program

end PipeLang
