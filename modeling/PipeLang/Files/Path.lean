import PipeLang.Text.Name

/-!
# File paths

The text by which a file is named: segments separated by `/`, read from the root when the text begins with
`/` and from the working directory otherwise. A path keeps its spelling; joining two paths joins their texts.
The parent of a path is the path without its last segment, where empty and `.` segments count for nothing.
Taking parents ends, because each is shorter than the path (`parent?_length`).
-/

namespace PipeLang.Files

/-- A file path as it is spelled. -/
structure Path where
  chars : List Char
  deriving DecidableEq, Repr

namespace Path

/-- The path with a spelling. -/
def ofString (s : String) : Path := ⟨s.toList⟩

/-- The spelling of a path. -/
def render (p : Path) : String := String.ofList p.chars

/-- The working directory. -/
def current : Path := ⟨['.']⟩

/-- Whether a path is read from the root. -/
def isAbsolute (p : Path) : Bool :=
  p.chars.head? == some '/'

/-- A path read from the place that another names; an absolute path stays as it is. -/
def join (base p : Path) : Path :=
  if p.isAbsolute then
    p
  else if base.chars.isEmpty || base.chars.getLast? == some '/' then
    ⟨base.chars ++ p.chars⟩
  else
    ⟨base.chars ++ '/' :: p.chars⟩

/-- The segments of a path, empty ones included. -/
def segments (p : Path) : List (List Char) :=
  Text.splitEvery '/' p.chars

/-- Whether a segment leads nowhere: it is empty or a single dot. -/
def isIdle (segment : List Char) : Bool :=
  segment == [] || segment == ['.']

/-- Cuts a spelling into where it starts, which is the root, a leading dot or nothing, and the rest. -/
def splitStart : List Char → List Char × List Char
  | '/' :: rest => (['/'], rest)
  | ['.'] => (['.'], [])
  | '.' :: '/' :: rest => (['.'], '/' :: rest)
  | cs => ([], cs)

/-- The path without its last segment. The root has no parent, nor has the empty path. -/
def parent? (p : Path) : Option Path :=
  let (start, body) := splitStart p.chars
  match (Text.splitEvery '/' body).reverse.dropWhile isIdle with
  | _ :: before => some ⟨start ++ Text.joinWith '/' (before.dropWhile isIdle).reverse⟩
  | [] => if start = ['.'] then some ⟨[]⟩ else none

theorem splitStart_append (cs : List Char) : (splitStart cs).1 ++ (splitStart cs).2 = cs := by
  fun_cases splitStart cs <;> rfl

/-- How long segments are together, each with a separator. -/
def extent : List (List Char) → Nat
  | [] => 0
  | s :: rest => s.length + 1 + extent rest

theorem extent_append (before after : List (List Char)) :
    extent (before ++ after) = extent before + extent after := by
  induction before with
  | nil => simp [extent]
  | cons s rest ih =>
    simp only [List.cons_append, extent, ih]
    omega

theorem joinWith_length {segments : List (List Char)} (h : segments ≠ []) :
    (Text.joinWith '/' segments).length + 1 = extent segments := by
  induction segments with
  | nil => exact absurd rfl h
  | cons s rest ih =>
    cases rest with
    | nil => simp [Text.joinWith, extent]
    | cons t rest =>
      have shorter := ih (by simp)
      simp only [Text.joinWith, List.length_append, List.length_cons, extent] at shorter ⊢
      omega

theorem extent_reverse (segments : List (List Char)) : extent segments.reverse = extent segments := by
  induction segments with
  | nil => rfl
  | cons s rest ih =>
    simp only [List.reverse_cons, extent_append, extent, ih]
    omega

theorem extent_dropWhile (f : List Char → Bool) (segments : List (List Char)) :
    extent (segments.dropWhile f) ≤ extent segments := by
  induction segments with
  | nil => simp
  | cons s rest ih =>
    rw [List.dropWhile_cons]
    split
    · simp only [extent] at ih ⊢
      omega
    · exact Nat.le_refl _

/-- A parent is shorter than the path. -/
theorem parent?_length {p q : Path} (h : p.parent? = some q) : q.chars.length < p.chars.length := by
  have whole := splitStart_append p.chars
  simp only [parent?] at h
  generalize splitStart p.chars = parts at h whole
  obtain ⟨start, body⟩ := parts
  simp only at h whole
  rw [← whole]
  split at h
  · next last before found =>
    simp only [Option.some.injEq] at h
    subst h
    have notIdle : isIdle last = false := by
      have := List.head?_dropWhile_not isIdle (Text.splitEvery '/' body).reverse
      simpa [found] using this
    have lastLength : 0 < last.length := by
      cases last with
      | nil => simp [isIdle] at notIdle
      | cons => simp
    have body' := joinWith_length (Text.splitEvery_ne_nil '/' body)
    rw [Text.joinWith_splitEvery] at body'
    have total := extent_dropWhile isIdle (Text.splitEvery '/' body).reverse
    rw [found, extent_reverse, ← body'] at total
    have kept := extent_dropWhile isIdle before
    simp only [extent] at total
    simp only [List.length_append]
    by_cases nothing : before.dropWhile isIdle = []
    · simp only [nothing, List.reverse_nil, Text.joinWith, List.length_nil]
      omega
    · have something : (before.dropWhile isIdle).reverse ≠ [] := by simpa using nothing
      have joined := joinWith_length something
      rw [extent_reverse] at joined
      omega
  · split at h
    · next dot =>
      simp only [Option.some.injEq] at h
      subst h
      simp [dot]
    · simp at h

/-- The parent of a path, its parent, and so on. -/
def ancestors (p : Path) : List Path :=
  match _h : p.parent? with
  | some q => q :: q.ancestors
  | none => []
  termination_by p.chars.length
  decreasing_by exact parent?_length _h

end Path

end PipeLang.Files
