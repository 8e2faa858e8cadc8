import PipeLang.Command
import PipeLang.Proofs.Files.Following
import PipeLang.Proofs.Load.Texts

/-!
# The file that a command names

The file that is named on the command line goes into the program as a name below the root of the project, and names without
an extension are completed. So a load that succeeds has the text of the named file if that has an extension, and
else the text of the file with the completed name: `Command.Invocation.load_namedFile`.
-/

namespace PipeLang

open Files

/-- A name with an extension: its own, or else that of modules. -/
def ModulePath.completeName (name : String) : String :=
  if hasExtension name.toList then name else name ++ String.ofList extension

/-- The place of the module that a file is loaded as. -/
def Command.modulePlace (place : Place) : Place :=
  place.dropLast ++ place.getLast?.toList.map ModulePath.completeName

example : ["script", ".script", "script.", "script.txt"].map ModulePath.completeName =
    ["script.kcl", ".script.kcl", "script.", "script.txt"] := by decide

namespace ModulePath

variable {names : List String} {path : ModulePath} {raw file last segment : List Char} {front : List (List Char)}

lemma toList_completeName (name : String) : (completeName name).toList =
    if hasExtension name.toList then name.toList else name.toList ++ extension := by
  rw [completeName]
  split
  · rfl
  · rw [String.toList_append, String.toList_ofList]

/-- Names are joined as segments are. -/
lemma toList_intercalate (names : List String) :
    ("/".intercalate names).toList = Text.joinWith '/' (names.map String.toList) := by
  rw [String.toList_intercalate]
  induction names with
  | nil => rfl
  | cons name names ih =>
    cases names with
    | nil => simp [Text.joinWith]
    | cons second names =>
      simp only [List.map_cons, List.intercalate_cons_cons, Text.joinWith] at ih ⊢
      rw [ih]
      simp

lemma splitEvery_intercalate (some : names ≠ []) (proper : ∀ name ∈ names, IsName name) :
    Text.splitEvery '/' ("/".intercalate names).toList = names.map String.toList := by
  have whole : ∀ part ∈ names.map String.toList, '/' ∉ part :=
    List.forall_mem_map.2 fun name member => (proper name member).whole
  rw [toList_intercalate, Text.splitEvery_joinWith (by simpa using some) whole]

/-- Completing a file changes its last segment alone. -/
lemma canonicalFile_segments (h : canonicalFile raw = .ok file) (parts : Text.splitEvery '/' raw = front ++ [last]) :
    Text.splitEvery '/' file = front ++ [if hasExtension last then last else last ++ extension] := by
  obtain ⟨-, -, -, -, rfl⟩ := canonicalFile_eq_ok.1 h
  rw [parts, List.getLastD_concat]
  split
  · exact parts
  · have apart : '/' ∉ extension := by decide
    obtain ⟨front', last', parts', longer⟩ := Text.splitEvery_append apart raw
    obtain ⟨rfl, same⟩ := List.append_inj' (parts.symm.trans parts') rfl
    obtain rfl : last = last' := by simpa using same
    exact longer

lemma Canonical.solid (h : Canonical file) (member : segment ∈ Text.splitEvery '/' file) : Path.isIdle segment = false := by
  obtain ⟨full, other, -⟩ := h.segments segment member
  simp [Path.isIdle, full, other]

/-- Names that are joined name a module inside the project, whose file has these names, but that the last is completed. -/
lemma parse_intercalate (proper : ∀ name ∈ names, IsName name) (named : parse ("/".intercalate names) = .ok path) :
    names ≠ [] ∧ path.external = none ∧ Canonical path.file.toList ∧
      (Path.ofString path.file).names = Command.modulePlace names := by
  obtain rfl | ⟨front, last, rfl⟩ := List.eq_nil_or_concat names
  · have empty : parse ("/".intercalate []) = .error .empty := rfl
    cases empty.symm.trans named
  rw [List.concat_eq_append] at proper named ⊢
  have parts := splitEvery_intercalate (by simp) proper
  have full : [] ∉ Text.splitEvery '/' ("/".intercalate (front ++ [last])).toList := by
    rw [parts]
    intro member
    obtain ⟨name, inside, empty⟩ := List.mem_map.1 member
    have solid := (proper name inside).solid
    rw [empty] at solid
    cases solid
  simp only [parse, splitAtFirst_of_full full] at named
  obtain ⟨file, completed, same⟩ := ok_of_bind named
  cases same
  have canonical : Canonical file := canonicalFile_canonical completed
  rw [List.map_append, List.map_singleton] at parts
  have segments := canonicalFile_segments completed parts
  rw [← toList_completeName] at segments
  refine ⟨by simp, rfl, by simpa using canonical, ?_⟩
  rw [Path.names, Path.segments, Path.ofString, String.toList_ofList,
    Path.namesOf_of_solid fun segment member => canonical.solid member, segments]
  simp [Command.modulePlace, Function.comp_def]

end ModulePath

/-- Only errors are reworded. -/
lemma ok_of_mapError {ε ε' α : Type} {x : Except ε α} {f : ε → ε'} {a : α} (h : x.mapError f = .ok a) : x = .ok a := by
  cases x with
  | error e => cases h
  | ok b => exact congrArg Except.ok (Except.ok.inj h)

/-- The text of a module inside a project is that of its file. -/
lemma Project.read_inside {project : Project} {t : Tree} {working : Place} {path : ModulePath} {text : String}
    (inside : path.external = none) (read : (project.sources t working).read path = .ok text) :
    t.readText working (project.root.join (.ofString path.file)) = .ok text := by
  simp only [Sources.read, inside, sources] at read
  split at read
  · next found =>
    cases read
    exact ok_of_mapError (Option.some.inj found)
  · cases read
  · cases read
  · cases read
  · cases read

namespace Command

variable {i : Invocation} {s : Surroundings} {file root : Path} {place : Place} {name : String} {p : Program} {id : ModuleId}

lemma modulePlace_append {names : List String} (some : names ≠ []) (top : Place) :
    modulePlace (top ++ names) = top ++ modulePlace names := by
  rw [modulePlace, modulePlace, List.dropLast_append_of_ne_nil some, List.getLast?_append_of_ne_nil _ some,
    List.append_assoc]

/-- The name of a file as a module is that of its place below the root. -/
lemma moduleName_eq_ok (h : moduleName s root file = .ok name) : ∃ top names, s.tree.locate s.working root = .ok top ∧
    s.tree.locate s.working file = .ok (top ++ names) ∧ name = "/".intercalate names := by
  rw [moduleName] at h
  obtain ⟨top, rootLed, h⟩ := ok_of_bind h
  obtain ⟨place, fileLed, h⟩ := ok_of_bind h
  split at h
  · next below =>
    obtain ⟨names, rfl⟩ := List.isPrefixOf_iff_prefix.1 below
    refine ⟨top, names, ok_of_mapError rootLed, ok_of_mapError fileLed, ?_⟩
    rw [← Except.ok.inj h, List.drop_left]
  · cases h

/-- What is loaded for a named file. -/
lemma Invocation.load_named (named : i.namedFile = some file) (loaded : i.load s = .ok (p, id)) :
    ∃ (project : Project) (name : String), moduleName s project.root file = .ok name ∧
      (Program.new (project.sources s.tree s.working) project.policy .prelude).load name = (.ok id, p) := by
  rw [load] at loaded
  obtain ⟨project, -, loaded⟩ := ok_of_bind loaded
  obtain ⟨⟨sources, name⟩, gathered, loaded⟩ := ok_of_bind loaded
  simp only [Invocation.sources, named] at gathered
  obtain ⟨name', called, same⟩ := ok_of_bind gathered
  cases same
  refine ⟨project, name, called, ?_⟩
  simp only at loaded
  split at loaded
  · next answer =>
    cases loaded
    exact answer
  · cases loaded

/-- When the file that an invocation names has been loaded, the module has the text of that file if it has an extension, and
else the text of the file with the completed name, which is in the same directory. -/
theorem Invocation.load_namedFile (h : s.tree.Proper) (named : i.namedFile = some file)
    (led : s.tree.locate s.working file = .ok place) (loaded : i.load s = .ok (p, id)) :
    ∃ m content, p.modules[(id : Nat)]? = some m ∧ s.tree.node? (modulePlace place) = some (.file content) ∧
      String.fromUTF8? content = some m.source := by
  obtain ⟨project, name, called, answer⟩ := load_named named loaded
  obtain ⟨top, names, rootLed, fileLed, rfl⟩ := moduleName_eq_ok called
  obtain rfl : place = top ++ names := Except.ok.inj (led.symm.trans fileLed)
  obtain ⟨path, m, parsed, found, rfl, read⟩ := @Program.load_asked _ _ _ _ _ _ [] answer
  have proper : ∀ name ∈ names, IsName name := fun name member =>
    h.named _ (h.locate_some led) name (List.mem_append_right _ member)
  obtain ⟨some, inside, canonical, completed⟩ := ModulePath.parse_intercalate proper parsed
  obtain ⟨there, content, reached, stands, decoded⟩ := Tree.readText_eq_ok (Project.read_inside inside read)
  have relative : (Path.ofString m.path.file).isAbsolute = false := by
    simpa [Path.isAbsolute, Path.ofString] using canonical.relative
  have down : ['.', '.'] ∉ (Path.ofString m.path.file).segments := fun member => (canonical.segments _ member).2.2.1 rfl
  -- The text is read from the root on, along the names below it, of which the last is completed.
  obtain ⟨rfl, -⟩ := h.steps_names down (Tree.locate_join relative rootLed reached)
  refine ⟨m, content, found, ?_, decoded⟩
  rw [modulePlace_append some, ← completed]
  exact stands

/-- A named file with an extension is the file that is loaded. -/
theorem Invocation.load_namedFile_self (h : s.tree.Proper) (named : i.namedFile = some file)
    (led : s.tree.locate s.working file = .ok (place ++ [name])) (extended : ModulePath.hasExtension name.toList = true)
    (loaded : i.load s = .ok (p, id)) :
    ∃ m content, p.modules[(id : Nat)]? = some m ∧ s.tree.node? (place ++ [name]) = some (.file content) ∧
      String.fromUTF8? content = some m.source := by
  have same : modulePlace (place ++ [name]) = place ++ [name] := by
    simp [modulePlace, ModulePath.completeName, extended]
  exact same ▸ load_namedFile h named led loaded

end Command

end PipeLang
