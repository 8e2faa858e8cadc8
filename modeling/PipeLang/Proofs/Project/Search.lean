import PipeLang.Project
import PipeLang.Proofs.Files.Following

/-!
# The search for a manifest

A search that starts at a path without dots finds the nearest manifest at or above the place of the path, but for those
above the place that the path is read from: `Project.findManifest_finds`. So a search from an absolute path goes up to the
root, while one from a relative path ends at the working directory and misses what is above it,
`Project.findManifest_relative`.
-/

namespace PipeLang.Project

open Files

variable {t : Tree} {working floor place dir other : Place} {start d p path q : Path} {found : Option Path} {name : String}

/-- The nearest directory with a manifest on the way from a place up to a floor. -/
structure Nearest (t : Tree) (floor place dir : Place) : Prop where
  below : floor <+: dir
  above : dir <+: place
  holds : (t.node? (dir ++ manifestFile.names)).isSome
  first : ∀ other, dir <+: other → other <+: place → (t.node? (other ++ manifestFile.names)).isSome → other = dir

/-- What a search for the nearest manifest has to find. -/
inductive Finds (t : Tree) (working floor place : Place) : Option Path → Prop where
  | manifest {path : Path} {dir : Place} (nearest : Nearest t floor place dir)
      (led : t.locate working path = .ok (dir ++ manifestFile.names)) : Finds t working floor place (some path)
  | nothing (without : ∀ dir, ¬ Nearest t floor place dir) : Finds t working floor place none

/-- A search has found the manifest of a directory. -/
def Leads (t : Tree) (working : Place) (found : Option Path) (dir : Place) : Prop :=
  ∃ path, found = some path ∧ t.locate working path = .ok (dir ++ manifestFile.names)

/-- The directory at a place, or that in which something else stands there. -/
def around (t : Tree) (place : Place) : Place :=
  match t.node? place with
  | some .directory => place
  | _ => place.dropLast

lemma around_directory (there : t.node? place = some .directory) : around t place = place := by
  simp [around, there]

lemma around_other (other : t.node? place ≠ some .directory) : around t place = place.dropLast := by
  unfold around
  split
  · next there => exact absurd there other
  · rfl

namespace Nearest

/-- A manifest at a place is the nearest one. -/
lemma here (below : floor <+: place) (holds : (t.node? (place ++ manifestFile.names)).isSome) :
    Nearest t floor place place where
  below := below
  above := List.prefix_refl _
  holds := holds
  first _ further within _ := (further.eq_of_length_le within.length_le).symm

lemma unique (h : Nearest t floor place dir) (h' : Nearest t floor place other) : dir = other := by
  rcases List.prefix_or_prefix_of_prefix h.above h'.above with longer | longer
  · exact (h.first other longer h'.above h'.holds).symm
  · exact h'.first dir longer h.above h.holds

/-- A directory without a manifest is passed. -/
lemma passes (without : ¬ (t.node? (place ++ [name] ++ manifestFile.names)).isSome) :
    Nearest t floor (place ++ [name]) dir ↔ Nearest t floor place dir := by
  constructor
  · rintro ⟨below, above, holds, first⟩
    rcases List.prefix_concat_iff.1 above with rfl | above
    · exact absurd holds without
    · exact ⟨below, above, holds, fun other longer within => first other longer (within.trans (List.prefix_append _ _))⟩
  · rintro ⟨below, above, holds, first⟩
    refine ⟨below, above.trans (List.prefix_append _ _), holds, fun other longer within there => ?_⟩
    rcases List.prefix_concat_iff.1 within with rfl | within
    · exact absurd there without
    · exact first other longer within there

/-- A floor only hides what is not below it. -/
lemma floor_iff : Nearest t floor place dir ↔ floor <+: dir ∧ Nearest t [] place dir := by
  constructor
  · rintro ⟨below, above, holds, first⟩
    exact ⟨below, List.nil_prefix, above, holds, first⟩
  · rintro ⟨below, -, above, holds, first⟩
    exact ⟨below, above, holds, first⟩

end Nearest

namespace Finds

lemma leads_iff (h : Finds t working floor place found) : Leads t working found dir ↔ Nearest t floor place dir := by
  cases h with
  | manifest nearest led =>
    constructor
    · rintro ⟨path, some, same⟩
      rw [← Option.some.inj some, led] at same
      exact List.append_cancel_right (Except.ok.inj same) ▸ nearest
    · exact fun other => ⟨_, rfl, nearest.unique other ▸ led⟩
  | nothing without =>
    constructor
    · rintro ⟨path, none, -⟩
      cases none
    · exact fun nearest => absurd nearest (without _)

/-- A search may begin below, where there is no manifest. -/
lemma passes (h : Finds t working floor place found)
    (without : ¬ (t.node? (place ++ [name] ++ manifestFile.names)).isSome) :
    Finds t working floor (place ++ [name]) found := by
  cases h with
  | manifest nearest led => exact .manifest ((Nearest.passes without).2 nearest) led
  | nothing none => exact .nothing fun dir nearest => none dir ((Nearest.passes without).1 nearest)

end Finds

/-! ### The places of the candidates -/

/-- The path of the manifest of a directory leads to its place. -/
lemma locate_manifest (h : t.Proper) (down : ['.', '.'] ∉ d.segments) :
    t.locate working (d.join manifestFile) = .ok place ↔
      place = d.base working ++ d.names ++ manifestFile.names ∧ (t.node? place).isSome := by
  obtain ⟨front, whole, -⟩ := Path.segments_join (d := d) (f := manifestFile) rfl
  have down : ['.', '.'] ∉ (d.join manifestFile).segments := fun member =>
    (List.mem_append.1 (Path.segments_join_subset rfl member)).elim down (by decide)
  rw [h.locate_iff whole rfl down, Path.base_join rfl, Path.names_join rfl, ← List.append_assoc]

lemma candidates_eq (d : Path) : candidates d = d.join manifestFile :: (d.parent?.map candidates).getD [] := by
  rw [candidates, Path.ancestors]
  split
  · next q above => rw [above]; rfl
  · next root => rw [root]; rfl

/-- One step of a search: it ends at a manifest, and goes on to the parent else. -/
lemma finds_step (h : t.Proper) (down : ['.', '.'] ∉ d.segments)
    (next : ¬ (t.node? (d.base working ++ d.names ++ manifestFile.names)).isSome →
      Finds t working (d.base working) (d.base working ++ d.names)
        (((d.parent?.map candidates).getD []).find? fun path => t.reaches working path)) :
    Finds t working (d.base working) (d.base working ++ d.names)
      ((candidates d).find? fun path => t.reaches working path) := by
  rw [candidates_eq, List.find?_cons]
  by_cases there : (t.node? (d.base working ++ d.names ++ manifestFile.names)).isSome = true
  · have led := (locate_manifest h down).2 ⟨rfl, there⟩
    have reaches : t.reaches working (d.join manifestFile) = true := by rw [Tree.reaches, led]; rfl
    rw [reaches]
    exact .manifest (.here (List.prefix_append _ _) there) led
  · have misses : t.reaches working (d.join manifestFile) = false := by
      rw [Tree.reaches]
      cases led : t.locate working (d.join manifestFile) with
      | error trouble => rfl
      | ok place =>
        obtain ⟨rfl, found⟩ := (locate_manifest h down).1 led
        exact absurd found there
    rw [misses]
    exact next there

/-- A search from a directory finds the nearest manifest: each parent is one name shorter, down to the place that the path is
read from. -/
lemma candidates_finds (h : t.Proper) (plain : d.Plain) :
    Finds t working (d.base working) (d.base working ++ d.names)
      ((candidates d).find? fun path => t.reaches working path) := by
  induction d using Path.ancestors.induct with
  | case1 d q above ih =>
    obtain ⟨plain', absolute, name, names⟩ := plain.parent?_eq_some above
    have base : q.base working = d.base working := Path.base_congr absolute
    refine finds_step h plain.down fun without => ?_
    rw [names, ← List.append_assoc] at without ⊢
    rw [above]
    exact (base ▸ ih plain').passes without
  | case2 d root =>
    refine finds_step h plain.down fun without => ?_
    rw [plain.names_of_parent?_eq_none root, List.append_nil] at without ⊢
    rw [root]
    refine .nothing fun dir nearest => without ?_
    have same : d.base working = dir := nearest.below.eq_of_length_le nearest.above.length_le
    exact same ▸ nearest.holds

/-- A search in the working directory finds the manifest there. -/
lemma candidates_current (h : t.Proper) :
    Finds t working working working ((candidates .current).find? fun path => t.reaches working path) := by
  have down : ['.', '.'] ∉ Path.current.segments := by decide
  have plain : Path.Plain ⟨[]⟩ := ⟨by decide, by decide⟩
  -- The working directory has two names, of which the second is empty.
  have second : Finds t working working (working ++ []) ((candidates ⟨[]⟩).find? fun path => t.reaches working path) :=
    candidates_finds h plain
  have first : Finds t working working (working ++ []) ((candidates .current).find? fun path => t.reaches working path) :=
    finds_step h down fun _ => second
  rwa [List.append_nil] at first

/-- A search starts in the directory at the place of its path, or around it. -/
lemma startDirectory_cases (h : t.Proper) (inside : t.node? working = some .directory) (plain : start.Plain) :
    (∃ d, startDirectory t working start = d ∧ d.Plain ∧ d.base working = start.base working ∧
      d.base working ++ d.names = around t (start.base working ++ start.names)) ∨
    (startDirectory t working start = .current ∧ start.base working = working ∧
      around t (start.base working ++ start.names) = working) := by
  by_cases empty : start.chars = []
  · obtain ⟨chars⟩ := start
    obtain rfl : chars = [] := empty
    have place : (⟨[]⟩ : Path).base working ++ (⟨[]⟩ : Path).names = working := List.append_nil working
    exact .inr ⟨rfl, rfl, by rw [place, around_directory inside]⟩
  rw [startDirectory]
  have directory : t.isDirectory working start = true ↔ _ := h.isDirectory_iff plain.down empty
  split
  · next found => exact .inl ⟨start, rfl, plain, rfl, (around_directory (directory.1 found)).symm⟩
  · next other =>
    rw [around_other (mt directory.2 other)]
    split
    · next parent above =>
      obtain ⟨plain', absolute, name, names⟩ := plain.parent?_eq_some above
      have base : parent.base working = start.base working := Path.base_congr absolute
      have place : (start.base working ++ start.names).dropLast = parent.base working ++ parent.names := by
        rw [names, base, ← List.append_assoc, List.dropLast_concat]
      rw [place]
      split
      · next bare =>
        obtain ⟨chars⟩ := parent
        obtain rfl := List.isEmpty_iff.1 bare
        exact .inr ⟨rfl, base.symm, List.append_nil working⟩
      · exact .inl ⟨parent, rfl, plain', base, rfl⟩
    · next root =>
      -- A path without names leads to where it is read from, which is a directory.
      refine absurd (directory.2 ?_) other
      rw [plain.names_of_parent?_eq_none root, List.append_nil, Path.base]
      split
      · exact h.directory_above inside List.nil_prefix
      · exact inside

/-- A search finds the nearest manifest at or above where it starts. -/
theorem findManifest_finds (h : t.Proper) (inside : t.node? working = some .directory) (plain : start.Plain) :
    Finds t working (start.base working) (around t (start.base working ++ start.names)) (findManifest t working start) := by
  rw [findManifest]
  rcases startDirectory_cases h inside plain with ⟨d, rfl, plain', base, place⟩ | ⟨current, base, place⟩
  · rw [← place, ← base]
    exact candidates_finds h plain'
  · rw [current, place, base]
    exact candidates_current h

/-- From a relative path the manifests are found that are found from the absolute path, but for those above the working
directory. -/
theorem findManifest_relative (h : t.Proper) (inside : t.node? working = some .directory) (plain : p.Plain)
    (relative : p.isAbsolute = false) (whole : d.Plain) (absolute : d.isAbsolute = true) (names : d.names = working) :
    Leads t working (findManifest t working p) dir ↔
      working <+: dir ∧ Leads t working (findManifest t working (d.join p)) dir := by
  have root : (d.join p).base working = [] := by rw [Path.base_join relative, Path.base, absolute]; rfl
  have base : p.base working = working := by rw [Path.base, relative]; rfl
  have near := findManifest_finds h inside plain
  have far := findManifest_finds h inside (whole.join plain relative)
  rw [base] at near
  rw [root, Path.names_join relative, names, List.nil_append] at far
  rw [near.leads_iff, far.leads_iff]
  exact Nearest.floor_iff

end PipeLang.Project
