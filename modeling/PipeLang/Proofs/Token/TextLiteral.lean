import Mathlib
import PipeLang.Proofs.Token.Seam

/-!
# String literals

A string has many spellings between quotes: a backslash and a quote are escaped, a new line and a tab may be. What a
literal is read as is what it spells, and it is read up to the first quote that is not escaped: `textBody?_eq_some`. A
backslash in a literal that is no escape leaves the literal open. Main statement: `scan_spelling`.
-/

namespace PipeLang.Token

/-- The spellings of a string between quotes. -/
inductive Spelling : List Char → List Char → Prop where
  | nil :
    Spelling [] []
  | plain {c value body} :
    c ≠ '\\' →
    c ≠ '"' →
    Spelling value body →
    Spelling (c :: value) (c :: body)
  | backslash {value body} :
    Spelling value body →
    Spelling ('\\' :: value) ('\\' :: '\\' :: body)
  | quote {value body} :
    Spelling value body →
    Spelling ('"' :: value) ('\\' :: '"' :: body)
  | newline {value body} :
    Spelling value body →
    Spelling ('\n' :: value) ('\\' :: 'n' :: body)
  | tab {value body} :
    Spelling value body →
    Spelling ('\t' :: value) ('\\' :: 't' :: body)

/-- The characters that may stand behind a backslash in a literal. -/
def escapes : List Char :=
  ['\\', '"', 'n', 't']

variable {cs value body behind : List Char} {n : Nat}

lemma escaped?_eq_none {c : Char} : escaped? c = none ↔ c ∉ escapes := by
  unfold escaped? escapes
  split <;> simp_all

/-- An escape spells the character that it stands for. -/
lemma Spelling.escape {c d : Char} (found : escaped? c = some d) (rest : Spelling value body) :
    Spelling (d :: value) ('\\' :: c :: body) := by
  unfold escaped? at found
  split at found <;> cases found
  · exact rest.backslash
  · exact rest.quote
  · exact rest.newline
  · exact rest.tab

/-- What is plain is read as itself, with what comes behind it. -/
lemma textBody?_plain {c : Char} (noEscape : c ≠ '\\') (noQuote : c ≠ '"') (cs : List Char) :
    textBody? (c :: cs) = (textBody? cs).map fun (value, length) => (c :: value, length + 1) := by
  rw [textBody?]
  · exact noQuote
  · exact fun same => absurd same noEscape
  · exact fun _ _ same => absurd same noEscape

/-- The body of a literal is read up to the first quote that is not escaped, and as what it spells. -/
lemma textBody?_eq_some :
    textBody? cs = some (value, n) ↔ ∃ body behind, cs = body ++ '"' :: behind ∧ n = body.length ∧ Spelling value body := by
  constructor
  · intro h
    fun_induction textBody? cs generalizing value n with
    | case1 => cases h
    | case2 cs =>
      cases h
      exact ⟨[], cs, rfl, rfl, .nil⟩
    | case3 => cases h
    | case4 c cs d found ih =>
      obtain ⟨⟨v, m⟩, read, same⟩ := Option.map_eq_some_iff.1 h
      cases same
      obtain ⟨body, behind, rfl, rfl, spelling⟩ := ih read
      exact ⟨'\\' :: c :: body, behind, rfl, rfl, spelling.escape found⟩
    | case5 => cases h
    | case6 c cs quote last escape ih =>
      obtain ⟨⟨v, m⟩, read, same⟩ := Option.map_eq_some_iff.1 h
      cases same
      obtain ⟨body, behind, rfl, rfl, spelling⟩ := ih read
      refine ⟨c :: body, behind, rfl, rfl, .plain ?_ quote spelling⟩
      rintro rfl
      obtain ⟨d, ds, some⟩ := List.exists_cons_of_ne_nil (last rfl)
      exact escape d ds rfl some
  · rintro ⟨body, behind, rfl, rfl, spelling⟩
    induction spelling with
    | nil => rfl
    | plain noEscape noQuote _ ih =>
      rw [List.cons_append, textBody?_plain noEscape noQuote, ih]
      rfl
    | backslash _ ih | quote _ ih | newline _ ih | tab _ ih =>
      rw [List.cons_append, List.cons_append, textBody?, ih]
      rfl

/-- A backslash behind the part of a literal that is read leaves the literal open if nothing behind it makes it an escape. -/
lemma textBody?_eq_none (spelling : Spelling value body) (stuck : ∀ c ∈ behind.head?, c ∉ escapes) :
    textBody? (body ++ '\\' :: behind) = none := by
  induction spelling with
  | nil =>
    cases behind with
    | nil => rfl
    | cons c behind =>
      have unknown : escaped? c = none := escaped?_eq_none.2 (stuck c rfl)
      simp [textBody?, unknown]
  | plain noEscape noQuote _ ih => rw [List.cons_append, textBody?_plain noEscape noQuote, ih, Option.map_none]
  | backslash _ ih | quote _ ih | newline _ ih | tab _ ih =>
    rw [List.cons_append, List.cons_append, textBody?, ih]
    rfl

/-- A quote that begins a lexeme begins a string literal. -/
lemma lexeme_quote (cs : List Char) :
    lexeme '"' cs = match textBody? cs with
      | some (value, length) => (.token (.text (String.ofList value)), length + 2)
      | none => (.openText, 1 + cs.length) := by
  rw [lexeme, if_neg (by decide), if_neg (by decide), if_neg (by simp), if_neg (by simp), if_neg (by decide)]
  exact if_pos rfl

/-- The lexemes of a text from one of them on are those of what is left of the text. -/
lemma lexemes_split {front back : List (Piece × List Char)} (cut : lexemes cs = front ++ back) :
    lexemes (back.flatMap Prod.snd) = back := by
  induction front generalizing cs with
  | nil => rw [← List.nil_append back, ← cut, lexemes_flatten]
  | cons head front ih =>
    cases cs with
    | nil => simp [lexemes] at cut
    | cons c cs =>
      rw [lexemes] at cut
      exact ih (List.cons.inj cut).2

/-- A text is scanned up to an offset with no lexeme that reaches over it. -/
def Boundary (cs before : List Char) : Prop :=
  ∃ front back, lexemes cs = front ++ back ∧ front.flatMap Prod.snd = before

/-- A string literal by itself is scanned to the string that it spells. -/
lemma scan_literal (spelling : Spelling value body) :
    scan (String.ofList ('"' :: body ++ ['"'])) =
      .ok [⟨.text (String.ofList value), ⟨0, byteCount ('"' :: body ++ ['"'])⟩, true⟩,
        ⟨.finish, ⟨byteCount ('"' :: body ++ ['"']), byteCount ('"' :: body ++ ['"'])⟩, false⟩] := by
  have read : textBody? (body ++ ['"']) = some (value, body.length) := textBody?_eq_some.2 ⟨body, [], rfl, rfl, spelling⟩
  have whole : (body ++ ['"']).take (body.length + 1) = body ++ ['"'] := List.take_of_length_le (by simp)
  have one : lexemes ('"' :: body ++ ['"']) = [(.token (.text (String.ofList value)), '"' :: body ++ ['"'])] := by
    rw [List.cons_append, lexemes, lexeme_quote, read]
    simp [lexemes, whole]
  rw [scan_eq_ok, String.toList_ofList, one]
  exact ⟨by simp [Piece.Sound], by simp [place]⟩

/-- A literal that stays open is refused, with all that comes behind it. -/
lemma scan_open {source : String} {before : List Char} (text : source.toList = before ++ '"' :: cs)
    (boundary : Boundary source.toList before) (stuck : textBody? cs = none) :
    ∃ errors, scan source = .error errors ∧ ⟨.unterminatedText, ⟨byteCount before, source.utf8ByteSize⟩⟩ ∈ errors := by
  obtain ⟨front, back, cut, rfl⟩ := boundary
  have inside : back.flatMap Prod.snd = '"' :: cs := by
    have flat := lexemes_flatten source.toList
    rw [cut, text, List.flatMap_append] at flat
    exact List.append_cancel_left flat
  have own : lexemes ('"' :: cs) = [(.openText, '"' :: cs)] := by
    rw [lexemes, lexeme_quote, stuck]
    simp [lexemes, Nat.add_comm 1]
  obtain rfl : back = [(.openText, '"' :: cs)] := by rw [← own, ← inside, lexemes_split cut]
  obtain ⟨tokens, errors, opens, both⟩ := place_append 0 true front
  have size : source.utf8ByteSize = byteCount (front.flatMap Prod.snd) + byteCount ('"' :: cs) := by
    rw [← byteCount_append, ← text, byteCount_eq, String.ofList_toList]
  refine ⟨errors ++ [⟨.unterminatedText, ⟨byteCount (front.flatMap Prod.snd), source.utf8ByteSize⟩⟩], ?_,
    List.mem_append_right errors List.mem_cons_self⟩
  rw [scan, cut, both, size]
  simp [place]

/-- Every spelling of a string between quotes is scanned to that string, over the whole text, and to nothing else but the
end. And every text is refused in which a backslash inside of a literal is followed by no character that makes it an
escape: the literal stays open, from its quote to the end of the text. -/
theorem scan_spelling :
    (∀ value body, Spelling value.toList body →
      scan ("\"" ++ String.ofList body ++ "\"") =
        .ok [⟨.text value, ⟨0, ("\"" ++ String.ofList body ++ "\"").utf8ByteSize⟩, true⟩,
          ⟨.finish, ⟨("\"" ++ String.ofList body ++ "\"").utf8ByteSize, ("\"" ++ String.ofList body ++ "\"").utf8ByteSize⟩,
            false⟩]) ∧
    ∀ (source : String) before value body behind, source.toList = before ++ '"' :: (body ++ '\\' :: behind) →
      Boundary source.toList before → Spelling value body → (∀ c ∈ behind.head?, c ∉ escapes) →
        ∃ errors, scan source = .error errors ∧ ⟨.unterminatedText, ⟨byteCount before, source.utf8ByteSize⟩⟩ ∈ errors := by
  refine ⟨fun value body spelling => ?_, fun source before value body behind text boundary spelling stuck => ?_⟩
  · have text : "\"" ++ String.ofList body ++ "\"" = String.ofList ('"' :: body ++ ['"']) := by
      rw [← String.toList_inj]
      simp [String.toList_append]
    rw [text, scan_literal spelling, String.ofList_toList, byteCount_eq]
  · exact scan_open text boundary (textBody?_eq_none spelling stuck)

/-- A string that has a comment mark in it and ends with a backslash, with one new line as it is and one escaped, and a
literal that stays open behind a name and another literal. -/
theorem scan_spelling_mixed :
    Spelling "/*\n\n\\".toList "/*\n\\n\\\\".toList ∧
    scan "\"/*\n\\n\\\\\"" = .ok [⟨.text "/*\n\n\\", ⟨0, 9⟩, true⟩, ⟨.finish, ⟨9, 9⟩, false⟩] ∧
    ∃ errors, scan "a \"\"\"\\\"\\q\"" = .error errors ∧ ⟨.unterminatedText, ⟨4, 10⟩⟩ ∈ errors := by
  have spelling : Spelling "/*\n\n\\".toList "/*\n\\n\\\\".toList := by
    refine .plain ?_ ?_ (.plain ?_ ?_ (.plain ?_ ?_ (.newline (.backslash .nil)))) <;> decide
  have boundary : Boundary "a \"\"\"\\\"\\q\"".toList "a \"\"".toList :=
    ⟨[(.token (.identifier "a"), ['a']), (.blank, [' ']), (.token (.text ""), ['"', '"'])],
      [(.openText, "\"\\\"\\q\"".toList)], by cbv, rfl⟩
  have text : "\"" ++ String.ofList "/*\n\\n\\\\".toList ++ "\"" = "\"/*\n\\n\\\\\"" := by decide +kernel
  have size : "\"/*\n\\n\\\\\"".utf8ByteSize = 9 := by decide +kernel
  have read := scan_spelling.1 _ _ spelling
  rw [text, size] at read
  have stuck : ∀ c ∈ ['q', '"'].head?, c ∉ escapes := by
    rintro c ⟨⟩
    decide
  have refused := scan_spelling.2 "a \"\"\"\\\"\\q\"" _ ['"'] ['\\', '"'] ['q', '"'] rfl boundary (.quote .nil) stuck
  exact ⟨spelling, read, refused⟩

end PipeLang.Token
