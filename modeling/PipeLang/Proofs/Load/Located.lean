import PipeLang.Proofs.Load.Opened
import PipeLang.Proofs.Resolve.Located

/-!
# Where the faults of loaded modules lie

A module fails for what stands in its own text, for an import of its own that cannot be used, or later for an import that was
accepted and leads into a cycle. In each case its faults point into its own text, however the loads nest:
`Program.loader_keepsLocated`. So they do behind any loads: `Program.faults_liesIn`.
-/

namespace PipeLang.Program

open Resolve (after)

variable {p : Program} {source : String} {path : ModulePath} {id : Nat} {faults : List Fault}

lemma texts_length : p.texts.length = p.modules.size := by
  simp [texts]

/-! ### Failures of importers -/

/-- A module that fails because of one of its imports points at that import, in its own text. -/
lemma Located.failImporter {name : String} {e : ImportEdge} (h : p.Located) (stands : e.StandsIn p.texts) :
    (failImporter name p e).1.Located ∧ (failImporter name p e).1.texts = p.texts := by
  simp only [Program.failImporter]
  split
  · next m found =>
    split
    · refine ⟨h.modify (fun _ => rfl) fun m' found' located => ?_, texts_modify fun _ => rfl⟩
      obtain ⟨source, text, here⟩ := stands
      rw [texts_getElem?, found', Option.map_some, Option.some.injEq] at text
      refine { located with faults := List.forall_mem_singleton.2 (List.forall_mem_singleton.2 ?_) }
      exact text ▸ here
    · exact ⟨h, rfl⟩
  · exact ⟨h, rfl⟩

lemma Located.failImporters {name : String} {failed : List ModuleId} {hits : List ImportEdge} (h : p.Located)
    (stand : ∀ e ∈ hits, e.StandsIn p.texts) :
    (failImporters name p failed hits).1.Located ∧ (failImporters name p failed hits).1.texts = p.texts := by
  induction hits generalizing p failed with
  | nil => exact ⟨h, rfl⟩
  | cons e hits ih =>
    obtain ⟨first, others⟩ := List.forall_mem_cons.1 stand
    obtain ⟨located, same⟩ := h.failImporter first
    have behind {failed : List ModuleId} := @ih _ failed located (same.symm ▸ others)
    simp only [Program.failImporters]
    split
    · next told =>
      rw [told] at behind same
      exact ⟨behind.1, behind.2.trans same⟩
    · next told =>
      rw [told] at behind same
      exact ⟨behind.1, behind.2.trans same⟩

/-- Failures that are passed on, also through cycles, point at the imports that they are passed on along. -/
lemma Located.propagate (h : p.Located) (dirty : List ModuleId) :
    (p.propagate dirty).Located ∧ (p.propagate dirty).texts = p.texts := by
  fun_induction Program.propagate p dirty with
  | case1 p => exact ⟨h, rfl⟩
  | case2 p target pending hits none ih => exact ih h
  | case3 p target pending hits some next ih =>
    have dropped : (p.dropEdgesInto target).Located :=
      ⟨h.modules, fun e member => h.edges e (List.mem_filter.1 member).1⟩
    have stand : ∀ e ∈ hits, e.StandsIn (p.dropEdgesInto target).texts := fun e member =>
      h.edges e (List.mem_filter.1 member).1
    obtain ⟨located, same⟩ := dropped.failImporters stand
    obtain ⟨located', same'⟩ := ih located
    exact ⟨located', same'.trans same⟩

/-! ### Loads -/

/-- A module is finished with faults that point into its text. -/
lemma Located.finish (h : p.Located) (here : ∀ m, p.modules[id]? = some m → ∀ f ∈ faults, f.LiesIn m.source) :
    (p.finish id faults).Located ∧ (p.finish id faults).texts = p.texts := by
  have marked : (p.modify id fun m => { m with faults := m.faults ++ faults, status := .loaded }).Located :=
    h.modify (fun _ => rfl) fun m found located =>
      { located with faults := List.forall_mem_append.2 ⟨located.faults, here m found⟩ }
  have same : (p.modify id fun m => { m with faults := m.faults ++ faults, status := .loaded }).texts = p.texts :=
    texts_modify fun _ => rfl
  simp only [Program.finish]
  split
  · split
    · exact ⟨marked, same⟩
    · obtain ⟨located, same'⟩ := marked.propagate [id]
      exact ⟨located, same'.trans same⟩
  · exact ⟨marked, same⟩

lemma texts_enter : (p.enter path source).texts = p.texts ++ [source] := by
  simp [texts, enter]

/-- A module that is entered has nothing yet that could point anywhere. -/
lemma Located.enter (h : p.Located) : (p.enter path source).Located where
  modules {i m} found := by
    rw [enter_modules] at found
    split at found
    · cases found
      exact ⟨List.forall_mem_nil _, List.forall_mem_nil _⟩
    · exact h.modules found
  edges e member := by
    obtain ⟨source', text, here⟩ := h.edges e member
    rw [texts_enter]
    exact ⟨source', by rw [List.getElem?_append_left (List.getElem?_eq_some_iff.1 text).1, text], here⟩

variable {raw : String} {depth : Nat} {a : Pending}

/-- A module that is opened is resolved behind the texts that are there, and everything that its resolution notes points into its own
text. -/
lemma Opens.located (h : p.Opens raw depth a) (keeps : (loader depth).KeepsLocated) (located : p.Located) :
    ∃ source, a.finished.Located (p.texts ++ [source]) source := by
  obtain ⟨path, source, parsed, start⟩ := h.start
  have texts : (p.starting path source a.ast).texts = p.texts ++ [source] := by
    rw [starting, withSyntax, texts_modify, texts_enter]
    exact fun _ => rfl
  have begins : a.start.Located (p.texts ++ [source]) source := by
    rw [start]
    refine ⟨located.enter.modify (fun _ => rfl) fun _ _ entered => { entered with }, ?_, ?_, ?_, ?_, ?_⟩
    · exact texts ▸ List.prefix_rfl
    · exact texts_length (p := p) ▸ List.getElem?_concat_length
    · exact List.forall_mem_nil _
    · exact fun b member => absurd member (Array.not_mem_empty b)
    · exact List.forall_mem_nil _
  refine ⟨source, ?_⟩
  rw [Pending.finished, h.depth_eq]
  exact Resolve.module_locates keeps a.ast (Module.parse_nodes_liesIn parsed) _ begins

/-- At every depth, loaders keep what points into texts. -/
theorem loader_keepsLocated (depth : Nat) : (loader depth).KeepsLocated := by
  induction depth with
  | zero =>
    intro p raw located
    rw [loader_zero]
    exact ⟨located, List.prefix_rfl⟩
  | succ depth ih =>
    intro p raw located
    obtain same | ⟨path, source, errors, parsed, same⟩ | ⟨inner, a, deeper, opens⟩ := loader_made (depth + 1) p raw
    · rw [same]
      exact ⟨located, List.prefix_rfl⟩
    · -- What does not parse is finished with its syntax errors.
      have here : ∀ m, (p.enter path source).modules[p.modules.size]? = some m →
          ∀ f ∈ errors.map Fault.malformed, f.LiesIn m.source := by
        intro m found f member
        rw [enter_modules, if_pos rfl] at found
        cases found
        obtain ⟨e, among, rfl⟩ := List.mem_map.1 member
        exact List.forall_mem_singleton.2 (Module.parse_errors_liesIn parsed e among)
      obtain ⟨finished, texts⟩ := Located.finish located.enter here
      rw [same, texts, texts_enter]
      exact ⟨finished, List.prefix_append _ _⟩
    · cases deeper
      obtain ⟨source, done⟩ := opens.located ih located
      have tabled : (a.finished.program.modify p.modules.size fun m =>
          { m with resolved := some a.finished.resolved }).Located :=
        done.program.modify (fun _ => rfl) fun _ _ found => { found with }
      have texts : (a.finished.program.modify p.modules.size fun m =>
          { m with resolved := some a.finished.resolved }).texts = a.finished.program.texts := texts_modify fun _ => rfl
      -- The text of the new module is where its record was entered.
      obtain ⟨behind, whole⟩ := done.begun
      have own : a.finished.program.texts[p.modules.size]? = some source := by
        rw [← whole, List.append_assoc, List.getElem?_append_right (Nat.le_of_eq texts_length), texts_length]
        simp
      have here : ∀ m, (a.finished.program.modify p.modules.size fun m =>
          { m with resolved := some a.finished.resolved }).modules[p.modules.size]? = some m →
          ∀ f ∈ a.finished.faults, f.LiesIn m.source := by
        intro m found f member
        rw [← texts, texts_getElem?, found] at own
        cases own
        exact done.faults f member
      obtain ⟨finished, texts'⟩ := tabled.finish here
      rw [opens.answered, texts', texts]
      exact ⟨finished, (List.prefix_append _ _).trans done.begun⟩

lemma Located.loadAll (h : p.Located) (paths : List String) : (p.loadAll paths).Located := by
  induction paths generalizing p with
  | nil => exact h
  | cons raw paths ih => exact ih (loader_keepsLocated (p.sources.limit + 1) p raw h).1

/-- Behind any loads, every fault of every module points into the text of the module, between characters of it, and so does the second
place of a fault that has one. -/
theorem faults_liesIn (sources : Sources) (policy : GlobPolicy) (hosts : Hosts) (paths : List String) (id : Nat)
    (m : LoadedModule) (found : ((new sources policy hosts).loadAll paths).modules[id]? = some m) :
    ∀ f ∈ m.faults, f.site.LiesIn m.source ∧
      ∀ second label, f.related? = some (second, label) → second.LiesIn m.source := by
  intro f member
  have start : (new sources policy hosts).Located := ⟨fun found => by simp [new] at found, List.forall_mem_nil _⟩
  have places := ((start.loadAll paths).modules found).faults f member
  obtain ⟨first, others⟩ := List.forall_mem_cons.1 places
  refine ⟨first, fun second label related => ?_⟩
  rw [related] at others
  exact List.forall_mem_singleton.1 others

/-- A text that binds a name twice, behind an import and letters of two bytes. -/
def doublingText : String :=
  "import \"back\"\nn = \"äö\"\nn = 2\n"

/-- The sources of a program in which a module of that text is imported by one that it imports. -/
def doubling : Sources :=
  .ofTexts (.ofList [("main.kcl", doublingText), ("back.kcl", "// ü\nimport \"main\"\n")])

/-- The second binding and the first are in the text of the one module. The other has no faults when it is loaded, and fails
where it imports the first when that fails. An offset inside of a letter is none where a place begins or ends. -/
theorem faults_liesIn_doubling : ∃ main back,
    ((new doubling .eager .empty).loadAll ["main"]).modules[0]? = some main ∧
    ((new doubling .eager .empty).loadAll ["main"]).modules[1]? = some back ∧
    main.faults.map Fault.places = [[⟨25, 26⟩, ⟨14, 15⟩]] ∧ back.faults.map Fault.places = [[⟨13, 19⟩]] ∧
    ¬ Token.Edge main.source 20 ∧ (∀ f ∈ main.faults, f.site.LiesIn main.source) ∧
    ∀ f ∈ back.faults, f.site.LiesIn back.source := by
  have computed : (((new doubling .eager .empty).loadAll ["main"]).modules[0]?.any fun m =>
        decide (m.faults.map Fault.places = [[⟨25, 26⟩, ⟨14, 15⟩]]) && decide (m.source = doublingText)) = true ∧
      (((new doubling .eager .empty).loadAll ["main"]).modules[1]?.any fun m =>
        decide (m.faults.map Fault.places = [[⟨13, 19⟩]])) = true := by decide +kernel
  have cut : ¬ Token.Edge doublingText 20 := by
    unfold Token.Edge
    decide +kernel
  simp only [Option.any_eq_true, Bool.and_eq_true, decide_eq_true_eq] at computed
  obtain ⟨⟨main, found, places, text⟩, back, found', places'⟩ := computed
  refine ⟨main, back, found, found', places, places', text ▸ cut, fun f member => ?_, fun f member => ?_⟩
  · exact (faults_liesIn doubling .eager .empty ["main"] 0 main found f member).1
  · exact (faults_liesIn doubling .eager .empty ["main"] 1 back found' f member).1

end PipeLang.Program
