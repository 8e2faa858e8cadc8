import PipeLang.Project
import PipeLang.Proofs.Sources.CanonicalPath

/-!
# Other projects

A manifest gives other projects names of the form `scheme://project`, and the path of a module in another project begins with
such a name. Both are cut at the same places. The path of a module is stricter about the scheme, so of the projects
that a manifest names those can be imported from whose scheme consists of letters and digits, and no others: `Manifest.parse_external`.
-/

namespace PipeLang

namespace Text

variable {separator cs before after : List Char}

/-- What stands behind the first separator does not move it. -/
lemma splitAtFirst_append_right (h : splitAtFirst separator cs = some (before, after)) (ds : List Char) :
    splitAtFirst separator (cs ++ ds) = some (before, after ++ ds) := by
  induction cs generalizing before after with
  | nil =>
    simp only [splitAtFirst] at h
    split at h
    · next empty =>
      cases h
      obtain rfl := List.isEmpty_iff.1 empty
      cases ds <;> simp [splitAtFirst]
    · cases h
  | cons c cs ih =>
    have long : separator.length ≤ (c :: cs).length := by
      have whole := congrArg List.length (splitAtFirst_append h)
      simp only [List.length_append] at whole
      omega
    have same : separator.isPrefixOf (c :: (cs ++ ds)) = separator.isPrefixOf (c :: cs) := by
      rw [Bool.eq_iff_iff, List.isPrefixOf_iff_prefix, List.isPrefixOf_iff_prefix, ← List.cons_append]
      exact ⟨fun first => List.prefix_of_prefix_length_le first (List.prefix_append _ ds) long,
        fun first => first.trans (List.prefix_append _ ds)⟩
    simp only [List.cons_append, splitAtFirst, same] at h ⊢
    split at h
    · next first =>
      cases h
      rw [if_pos first, ← List.cons_append, List.drop_append_of_le_length long]
    · next other =>
      obtain ⟨⟨before', after'⟩, found, cut⟩ := Option.map_eq_some_iff.1 h
      cases cut
      rw [if_neg other, ih found]
      rfl

end Text

namespace ModulePath

/-- The path of a module inside the project is its file part alone. -/
lemma parse_inside {raw target : String} (named : parse raw = .ok ⟨none, target⟩) :
    canonicalFile raw.toList = .ok target.toList := by
  simp only [parse, bind, Except.bind, pure, Except.pure] at named
  split at named
  · split at named
    · cases named
    · next found =>
      cases named
      simpa using found
  split at named
  · cases named
  split at named
  · cases named
  split at named
  · cases named
  split at named
  · cases named
  · cases named

/-- The path of a module in another project, put together from the name of the project and the path of a module inside
one: it names the module there if the scheme consists of letters and digits. -/
lemma parse_append {key file target : String} {scheme project : List Char}
    (cut : Text.splitAtFirst [':', '/', '/'] key.toList = some (scheme, project)) (some : scheme ≠ []) (full : project ≠ [])
    (apart : '/' ∉ project) (named : parse file = .ok ⟨none, target⟩) :
    parse (key ++ "/" ++ file) = if scheme.all Char.isAlphanum then
      .ok ⟨.some ⟨String.ofList scheme, String.ofList project⟩, target⟩ else .error (.badScheme (String.ofList scheme)) := by
  have canonical : canonicalFile file.toList = .ok target.toList := parse_inside named
  have whole : Text.splitAtFirst [':', '/', '/'] (key ++ "/" ++ file).toList = .some (scheme, project ++ ['/'] ++ file.toList) := by
    have longer := Text.splitAtFirst_append_right cut ('/' :: file.toList)
    simpa [String.toList_append] using longer
  simp only [parse, whole, Text.splitAtFirst_of_not_mem apart]
  by_cases plain : scheme.all Char.isAlphanum = true
  · simp [plain, some, full, canonical, bind, Except.bind, pure, Except.pure]
  · simp [plain]

end ModulePath

namespace Manifest

variable {text key : String} {settings : Manifest}

lemma isExternalKey_eq_true : isExternalKey key = true ↔ ∃ scheme project,
    Text.splitAtFirst [':', '/', '/'] key.toList = some (scheme, project) ∧ scheme ≠ [] ∧ project ≠ [] ∧ '/' ∉ project := by
  simp only [isExternalKey]
  split
  · next scheme project cut => simp [cut, and_assoc]
  · next uncut => simp [uncut]

/-- The names of other projects in a manifest that is accepted look like names. -/
lemma parse_keys (read : parse text = .ok settings) : ∀ entry ∈ settings.external, isExternalKey entry.1 = true := by
  simp only [parse] at read
  split at read
  · next es _ =>
    simp only [ofEntries] at read
    split at read
    · cases read
    obtain ⟨project, -, read⟩ := ok_of_bind read
    obtain ⟨resolve, -, read⟩ := ok_of_bind read
    obtain ⟨name, -, read⟩ := ok_of_bind read
    obtain ⟨main, -, read⟩ := ok_of_bind read
    obtain ⟨policy, -, read⟩ := ok_of_bind read
    obtain ⟨external, -, read⟩ := ok_of_bind read
    split at read
    · cases read
    · next good =>
      cases read
      simpa using good
  · cases read

/-- Of the projects that a manifest names, those can be imported from whose scheme consists of letters and digits: behind the
name of such a project, the path of every module inside a project is the path of that module there, and the project is
found under the name. With any other scheme no path is accepted, although the manifest is. -/
theorem parse_external {directory file target : String} (read : parse text = .ok settings)
    (known : (key, directory) ∈ settings.external) (named : ModulePath.parse file = .ok ⟨none, target⟩) :
    ∃ e : ExternalProject, e.render = key ∧ (settings.external.lookup e.render).isSome ∧
      ModulePath.parse (key ++ "/" ++ file) =
        if e.scheme.toList.all Char.isAlphanum then .ok ⟨some e, target⟩ else .error (.badScheme e.scheme) := by
  obtain ⟨scheme, project, cut, nonempty, full, apart⟩ := isExternalKey_eq_true.1 (parse_keys read _ known)
  have same : ExternalProject.render ⟨String.ofList scheme, String.ofList project⟩ = key := by
    apply String.toList_inj.1
    simpa [ExternalProject.render, String.toList_append] using Text.splitAtFirst_append cut
  refine ⟨⟨String.ofList scheme, String.ofList project⟩, same, ?_, ?_⟩
  · refine Option.isSome_iff_ne_none.2 fun unknown => ?_
    rw [same, List.lookup_eq_none_iff] at unknown
    simpa using unknown _ known
  · simpa using ModulePath.parse_append cut nonempty full apart named

example : (parse "[external]\n\"a-b://p\" = \"dir\"\n").toOption.map Manifest.external = some [("a-b://p", "dir")] ∧
    ModulePath.parse "a-b://p/f" = .error (.badScheme "a-b") :=
  ⟨by decide +kernel, rfl⟩

end Manifest

end PipeLang
