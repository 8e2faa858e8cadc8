import Mathlib
import PipeLang.Proofs.Token.Seam

/-!
# Words

A text that begins like a name begins with a word: all that goes on with the name is one token, a name or a keyword.
-/

namespace PipeLang

namespace Text

variable {name : List Char} {c : Char}

/-- What begins a name goes on with one. -/
lemma isNameRest_of_isNameStart (h : isNameStart c = true) : isNameRest c = true := by
  simp only [isNameStart, isNameRest, Char.isAlphanum, Bool.or_eq_true] at h ⊢
  exact h.imp_left Or.inl

/-- Names are made of characters that go on with a name. -/
lemma isNameRest_of_isName (h : isName name = true) : ∀ c ∈ name, isNameRest c = true := by
  cases name with
  | nil => nofun
  | cons c cs =>
    simp only [isName, Bool.and_eq_true, List.all_eq_true] at h
    exact List.forall_mem_cons.2 ⟨isNameRest_of_isNameStart h.1, h.2⟩

/-- What goes on with a name is no blank. -/
lemma isBlank_of_isNameRest (h : isNameRest c = true) : isBlank c = false := by
  have bounds : 0x30 ≤ c.toNat ∧ c.toNat ≤ 0x7A := by
    simp only [isNameRest, Char.isAlphanum, Char.isAlpha, Char.isUpper, Char.isLower, Char.isDigit, Bool.or_eq_true,
      Bool.and_eq_true, decide_eq_true_eq, beq_iff_eq, ge_iff_le, UInt32.le_iff_toNat_le] at h
    rcases h with ((⟨low, high⟩ | ⟨low, high⟩) | ⟨low, high⟩) | rfl
    · exact ⟨Nat.le_trans (by decide) low, Nat.le_trans high (by decide)⟩
    · exact ⟨Nat.le_trans (by decide) low, Nat.le_trans high (by decide)⟩
    · exact ⟨Nat.le_trans (by decide) low, Nat.le_trans high (by decide)⟩
    · decide
  simp only [isBlank, blankRanges, List.any_cons, List.any_nil, Bool.or_false, Bool.or_eq_false_iff,
    Bool.and_eq_false_iff, decide_eq_false_iff_not]
  omega

end Text

namespace Token

variable {cs name : List Char} {c : Char}

/-- A lexeme that begins like a name is a word. -/
lemma lexeme_word (start : Text.isNameStart c = true) (cs : List Char) :
    lexeme c cs = (.token (ofWord (c :: cs.takeWhile Text.isNameRest)), 1 + (cs.takeWhile Text.isNameRest).length) := by
  have other {d : Char} (no : Text.isNameStart d = false) : c ≠ d := by
    rintro rfl
    rw [start] at no
    cases no
  have solid : Text.isBlank c = false := Text.isBlank_of_isNameRest (Text.isNameRest_of_isNameStart start)
  have digit : c.isDigit = false := by
    by_contra digit
    simp only [Bool.not_eq_false, Char.isDigit, Bool.and_eq_true, decide_eq_true_eq] at digit
    simp only [Text.isNameStart, Char.isAlpha, Char.isUpper, Char.isLower, Bool.or_eq_true, Bool.and_eq_true,
      decide_eq_true_eq, beq_iff_eq] at start
    rcases start with (⟨low, -⟩ | ⟨low, -⟩) | rfl
    · exact absurd (UInt32.le_trans low digit.2) (by decide)
    · exact absurd (UInt32.le_trans low digit.2) (by decide)
    · exact absurd digit.2 (by decide)
  rw [lexeme, if_neg (other (by decide)), if_neg (by simp [solid]), if_neg (by simp [other (d := '/') (by decide)]),
    if_neg (by simp [other (d := '/') (by decide)]), if_neg (by simp [digit]), if_neg (other (by decide)), if_pos start]

/-- A name is one token where nothing comes behind it that goes on with it. -/
lemma lexemes_word (isName : Text.isName name = true) (stops : ∀ c ∈ cs.head?, Text.isNameRest c = false) :
    lexemes (name ++ cs) = (.token (ofWord name), name) :: lexemes cs := by
  cases name with
  | nil => cases isName
  | cons d ds =>
    have goesOn : ds.takeWhile Text.isNameRest = ds :=
      List.takeWhile_eq_self_iff.2 fun b member => Text.isNameRest_of_isName isName b (List.mem_cons_of_mem _ member)
    have whole : (ds ++ cs).takeWhile Text.isNameRest = ds := by
      cases cs with
      | nil => rw [List.append_nil, goesOn]
      | cons c cs => rw [takeWhile_append_stop (stops c rfl), goesOn]
    simp only [Text.isName, Bool.and_eq_true] at isName
    rw [List.cons_append, lexemes, lexeme_word isName.1, whole]
    simp [Nat.add_comm 1]

end Token

end PipeLang
