/-!
# Names

The shape of identifiers, and the two ways in which texts with inner structure are cut: at the first
occurrence of a separator, and at every occurrence of a character.
-/

namespace PipeLang.Text

/-- A name starts with an ASCII letter or an underscore. -/
def isNameStart (c : Char) : Bool :=
  c.isAlpha || c == '_'

/-- A name goes on with ASCII letters, digits and underscores. -/
def isNameRest (c : Char) : Bool :=
  c.isAlphanum || c == '_'

/-- Whether a text as a whole has the shape of a name. -/
def isName : List Char → Bool
  | [] => false
  | c :: cs => isNameStart c && cs.all isNameRest

/-- The text before and after the first occurrence of a separator. -/
def splitAtFirst (separator : List Char) : List Char → Option (List Char × List Char)
  | [] => if separator.isEmpty then some ([], []) else none
  | c :: cs =>
    if separator.isPrefixOf (c :: cs) then
      some ([], (c :: cs).drop separator.length)
    else
      (splitAtFirst separator cs).map fun (before, after) => (c :: before, after)

/-- The parts of a text between the occurrences of a character; there is always at least one. -/
def splitEvery (separator : Char) : List Char → List (List Char)
  | [] => [[]]
  | c :: cs =>
    if c = separator then
      [] :: splitEvery separator cs
    else
      match splitEvery separator cs with
      | [] => [[c]]
      | part :: parts => (c :: part) :: parts

/-- Parts joined by a character. -/
def joinWith (separator : Char) : List (List Char) → List Char
  | [] => []
  | [part] => part
  | part :: parts => part ++ separator :: joinWith separator parts

theorem splitEvery_ne_nil (separator : Char) (cs : List Char) : splitEvery separator cs ≠ [] := by
  cases cs with
  | nil => simp [splitEvery]
  | cons c cs =>
    simp only [splitEvery]
    split
    · simp
    · split <;> simp

/-- Cutting loses nothing: the parts, joined again, are the text. -/
theorem joinWith_splitEvery (separator : Char) (cs : List Char) :
    joinWith separator (splitEvery separator cs) = cs := by
  induction cs with
  | nil => rfl
  | cons c cs ih =>
    have notNil := splitEvery_ne_nil separator cs
    simp only [splitEvery]
    generalize splitEvery separator cs = parts at ih notNil
    cases parts with
    | nil => exact absurd rfl notNil
    | cons part parts =>
      split
      · next same => subst same; simp [joinWith, ih]
      · cases parts <;> simp_all [joinWith]

/-- A text cut at its first separator is the two sides around the separator. -/
theorem splitAtFirst_append {separator cs before after : List Char}
    (h : splitAtFirst separator cs = some (before, after)) : before ++ separator ++ after = cs := by
  induction cs generalizing before after with
  | nil => simp_all [splitAtFirst]
  | cons c cs ih =>
    simp only [splitAtFirst] at h
    split at h
    · next isFirst =>
      obtain ⟨rest, same⟩ := List.isPrefixOf_iff_prefix.1 isFirst
      simp only [Option.some.injEq, Prod.mk.injEq] at h
      obtain ⟨rfl, rfl⟩ := h
      rw [← same]
      simp
    · obtain ⟨⟨before', after'⟩, found, same⟩ := Option.map_eq_some_iff.1 h
      simp only [Prod.mk.injEq] at same
      obtain ⟨rfl, rfl⟩ := same
      have := ih found
      simp_all

end PipeLang.Text
