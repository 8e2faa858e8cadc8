import Mathlib
import PipeLang.Entry
import PipeLang.Proofs.Reader.Inversion
import PipeLang.Proofs.Sources.CanonicalPath
import PipeLang.Proofs.Token.Word

/-!
# Arguments as they are written

An argument is cut at its first `=` before it is scanned. What stands in front of that can only be a name if the text
begins with a word and `=` comes next, and no literal does: the only literals that begin with a word are truth values,
and nothing may follow them. Main statement: `EntryArgument.parse_literal`.
-/

namespace PipeLang

/-! ### Blanks and names -/

namespace Text

variable {cs name : List Char} {c : Char}

/-- A text is what is left of it when it is trimmed, between blanks. -/
lemma trim_between (cs : List Char) : ∃ front back, cs = front ++ trim cs ++ back ∧
    (∀ c ∈ front, isBlank c = true) ∧ ∀ c ∈ back, isBlank c = true := by
  let rest := cs.dropWhile isBlank
  refine ⟨cs.takeWhile isBlank, (rest.reverse.takeWhile isBlank).reverse, ?_, ?_, ?_⟩
  · have last : rest.reverse = rest.reverse.takeWhile isBlank ++ rest.reverse.dropWhile isBlank :=
      List.takeWhile_append_dropWhile.symm
    have cut : rest = trim cs ++ (rest.reverse.takeWhile isBlank).reverse := by
      rw [trim, ← List.reverse_append, ← last, List.reverse_reverse]
    rw [List.append_assoc, ← cut, List.takeWhile_append_dropWhile]
  · intro c member
    exact List.mem_takeWhile_imp member
  · intro c member
    exact List.mem_takeWhile_imp (List.mem_reverse.1 member)

lemma ne_equals_of_isNameRest (h : isNameRest c = true) : c ≠ '=' := by
  rintro rfl
  revert h
  decide

/-- A name has no blanks around it. -/
lemma trim_name (h : isName name = true) : trim name = name := by
  have solid : ∀ c ∈ name, isBlank c = false := fun c member => isBlank_of_isNameRest (isNameRest_of_isName h c member)
  have kept {cs : List Char} (inside : ∀ c ∈ cs, c ∈ name) : cs.dropWhile isBlank = cs := by
    cases cs with
    | nil => rfl
    | cons c cs => simp [List.dropWhile, solid c (inside c List.mem_cons_self)]
  rw [trim, kept fun _ => id, kept fun _ => List.mem_reverse.1, List.reverse_reverse]

end Text

/-! ### Words at the front of a text -/

namespace Token

variable {cs name ws : List Char} {c : Char} {offset : Nat} {fresh : Bool} {pieces : List (Piece × List Char)}

/-- What token a lexeme is, if it is one. -/
def Piece.kind? : Piece → Option Kind
  | .token kind => some kind
  | _ => none

/-- The tokens that a text is scanned to if nothing is wrong with it, but for its end. -/
def kindsOf (cs : List Char) : List Kind :=
  (lexemes cs).filterMap fun p => p.1.kind?

lemma place_kinds : (place offset fresh pieces).tokens.map kind = pieces.filterMap (fun p => p.1.kind?) ++ [.finish] := by
  induction pieces generalizing offset fresh with
  | nil => rfl
  | cons head rest ih =>
    obtain ⟨piece, chars⟩ := head
    cases piece <;> simp [place, Piece.kind?, ih]

lemma scan_kinds {source : String} {tokens : List Token} (h : scan source = .ok tokens) :
    tokens.map kind = kindsOf source.toList ++ [.finish] := by
  obtain ⟨-, rfl⟩ := scan_eq_ok.1 h
  exact place_kinds

/-- Blanks at the front are no tokens. -/
lemma kindsOf_blanks (blank : ∀ c ∈ ws, Text.isBlank c = true) (cs : List Char) : kindsOf (ws ++ cs) = kindsOf cs := by
  induction ws with
  | nil => rfl
  | cons c ws ih =>
    obtain ⟨first, rest⟩ := List.forall_mem_cons.1 blank
    have one : ∃ piece, lexeme c (ws ++ cs) = (piece, 1) ∧ piece.kind? = none := by
      by_cases newline : c = '\n'
      · exact ⟨.newline, by simp [lexeme, newline], rfl⟩
      · exact ⟨.blank, by simp [lexeme, newline, first], rfl⟩
    obtain ⟨piece, one, none⟩ := one
    rw [← ih rest, List.cons_append, kindsOf, lexemes, one]
    simp [kindsOf, none]

/-- A word in front of a character that does not go on with it is one token. -/
lemma kindsOf_word (isName : Text.isName name = true) (stops : Text.isNameRest c = false) :
    kindsOf (name ++ c :: cs) = ofWord name :: kindsOf (c :: cs) := by
  have word : lexemes (name ++ c :: cs) = _ := lexemes_word isName (by simpa using stops)
  simp [kindsOf, word, Piece.kind?]

/-- A token begins at `=`. -/
lemma kindsOf_equals (cs : List Char) : ∃ m rest, kindsOf ('=' :: cs) = .mark m :: rest := by
  have found : (symbol? ('=' :: cs)).isSome = true := by
    rw [symbol?, List.find?_isSome]
    exact ⟨.eq, by decide, by simp [markChars, Mark.spelling]⟩
  obtain ⟨m, found⟩ := Option.isSome_iff_exists.1 found
  have first : lexeme '=' cs = (.token (.mark m), (markChars m).length) := by
    rw [lexeme, if_neg (by decide), if_neg (by decide), if_neg (by simp), if_neg (by simp), if_neg (by decide),
      if_neg (by decide), if_neg (by decide), found]
  rw [kindsOf, lexemes, first]
  exact ⟨m, _, rfl⟩

/-- A text that begins with a name and then `=`, with any blanks around the name, is scanned to the word and to a mark. -/
lemma kindsOf_named {before : List Char} (isName : Text.isName (Text.trim before) = true) (after : List Char) :
    ∃ m rest, kindsOf (before ++ '=' :: after) = ofWord (Text.trim before) :: .mark m :: rest := by
  obtain ⟨m, rest, marked⟩ := kindsOf_equals after
  obtain ⟨front, back, cut, blankFront, blankBack⟩ := Text.trim_between before
  have behind : kindsOf (back ++ '=' :: after) = .mark m :: rest := (kindsOf_blanks blankBack _).trans marked
  refine ⟨m, rest, ?_⟩
  have apart : ∃ c cs, back ++ '=' :: after = c :: cs ∧ Text.isNameRest c = false := by
    cases back with
    | nil => exact ⟨'=', after, rfl, by decide⟩
    | cons c back =>
      refine ⟨c, back ++ '=' :: after, rfl, ?_⟩
      by_contra goesOn
      have blank := blankBack c List.mem_cons_self
      rw [Text.isBlank_of_isNameRest (by simpa using goesOn)] at blank
      cases blank
  obtain ⟨c, cs, text, stops⟩ := apart
  have whole : before ++ '=' :: after = front ++ (Text.trim before ++ c :: cs) := by
    rw [← text, ← List.append_assoc, ← List.append_assoc, ← cut]
  rw [whole, kindsOf_blanks blankFront, kindsOf_word isName stops, ← text, behind]

/-- A token that is spelled like a name: a name or a keyword. -/
def IsWord (t : Token) : Prop :=
  ∃ word, t.kind = ofWord word

/-- What a token is that is a word. -/
lemma ofWord_cases (word : List Char) : (∃ name, ofWord word = .identifier name) ∨ ∃ m ∈ Mark.keywords, ofWord word = .mark m := by
  unfold ofWord
  split
  · next m found => exact Or.inr ⟨m, List.mem_of_find?_eq_some found, rfl⟩
  · exact Or.inl ⟨_, rfl⟩

end Token

/-! ### Literals that begin with a word -/

namespace Form

open Reader Grammar

variable {depth : Nat} {c c' : Cursor} {base left e : Expr} {least : Nat}

/-- What calls and brackets make of an expression is no literal. -/
lemma suffixes_literal (reads : Reads ((suffixes base).read depth) c e c') :
    e = base ∧ c' = c ∨ e.literalValue? = none := by
  induction depth generalizing base c with
  | zero => simp [Form.read] at reads
  | succ depth ih =>
    obtain ⟨-, rfl, rfl⟩ | ⟨-, ⟨-, args, c₁, -, -, behind⟩ | ⟨-, ⟨-, index, c₁, -, -, behind⟩ | ⟨-, rfl, rfl⟩⟩⟩ :=
      Grammar.reads_suffixes.1 reads
    · exact Or.inl ⟨rfl, rfl⟩
    · rcases ih behind with ⟨rfl, -⟩ | none
      · exact Or.inr rfl
      · exact Or.inr none
    · rcases ih behind with ⟨rfl, -⟩ | none
      · exact Or.inr rfl
      · exact Or.inr none
    · exact Or.inl ⟨rfl, rfl⟩

/-- What operators make of an expression is no literal. -/
lemma binaryAfter_literal (reads : Reads ((binaryAfter left least).read depth) c e c') :
    e = left ∧ c' = c ∨ e.literalValue? = none := by
  induction depth generalizing left c with
  | zero => simp [Form.read] at reads
  | succ depth ih =>
    obtain ⟨-, rfl, rfl⟩ | ⟨op, -, -, right, c₁, -, behind⟩ := Grammar.reads_binaryAfter.1 reads
    · exact Or.inl ⟨rfl, rfl⟩
    · rcases ih behind with ⟨rfl, -⟩ | none
      · exact Or.inr rfl
      · exact Or.inr none

/-- A word is no symbol. -/
lemma isAt_of_isWord (word : c.next.IsWord) {m : Mark} (symbol : m ∉ Mark.keywords) : c.isAt m = false := by
  obtain ⟨cs, spelt⟩ := word
  obtain ⟨name, isName⟩ | ⟨keyword, member, isKeyword⟩ := Token.ofWord_cases cs
  · simp [Cursor.isAt, Token.isMark, spelt, isName]
  · simp only [Cursor.isAt, Token.isMark, spelt, isKeyword, decide_eq_false_iff_not]
    rintro rfl
    exact symbol member

/-- A primary expression that begins with a word and is more than that word is no literal. -/
lemma primary_word (word : c.next.IsWord) (reads : Reads (primary.read depth) c e c') :
    c' = c.advance ∨ e.literalValue? = none := by
  cases depth with
  | zero => simp [Form.read] at reads
  | succ depth =>
    obtain ⟨-, readName⟩ | ⟨value, -, -, rfl⟩ | ⟨-, b, -, rfl⟩ | ⟨-, b, -, rfl⟩ | ⟨isParen, -⟩ | ⟨isBracket, -⟩ :=
      Grammar.reads_primary.1 reads
    · obtain ⟨head, -, -, rest, -, ⟨-, rfl⟩ | ⟨last, -, rfl⟩⟩ := Grammar.reads_nameOrPath.1 readName
      · exact Or.inr rfl
      · exact Or.inr rfl
    · exact Or.inl rfl
    · exact Or.inr rfl
    · exact Or.inr rfl
    · have apart := isAt_of_isWord word (m := .leftParen) (by decide)
      simp [Cursor.isAt, Token.isMark, isParen] at apart
    · have apart := isAt_of_isWord word (m := .leftBracket) (by decide)
      simp [Cursor.isAt, Token.isMark, isBracket] at apart

lemma unary_word (word : c.next.IsWord) (reads : Reads (unary.read depth) c e c') :
    c' = c.advance ∨ e.literalValue? = none := by
  cases depth with
  | zero => simp [Form.read] at reads
  | succ depth =>
    have minus := isAt_of_isWord word (m := .minus) (by decide)
    have bang := isAt_of_isWord word (m := .bang) (by decide)
    obtain ⟨isMinus, -⟩ | ⟨-, ⟨isBang, -⟩ | ⟨-, base, c₁, first, behind⟩⟩ := Grammar.reads_unary.1 reads
    · exact absurd isMinus (by simp [minus])
    · exact absurd isBang (by simp [bang])
    · rcases suffixes_literal behind with ⟨rfl, rfl⟩ | none
      · exact primary_word word first
      · exact Or.inr none

lemma binary_word (word : c.next.IsWord) (reads : Reads ((binary least).read depth) c e c') :
    c' = c.advance ∨ e.literalValue? = none := by
  cases depth with
  | zero => simp [Form.read] at reads
  | succ depth =>
    obtain ⟨left, c₁, first, behind⟩ := Grammar.reads_binary.1 reads
    rcases binaryAfter_literal behind with ⟨rfl, rfl⟩ | none
    · exact unary_word word first
    · exact Or.inr none

/-- A stage without a tag is what it is read from. -/
lemma stageOf_untagged {start : Nat} {span : Span} (reads : Reads (stageOf start base) c (.expr e none span) c') :
    e = base ∧ c' = c := by
  obtain ⟨-, same, rfl⟩ | ⟨-, tag, tagged, same⟩ := Grammar.reads_stageOf.1 reads
  · cases same
    exact ⟨rfl, rfl⟩
  · cases same
    obtain ⟨-, i, -, -, named, -⟩ | ⟨-, -, rfl⟩ := Grammar.reads_tag?.1 tagged
    · cases named
    · exact ⟨rfl, rfl⟩

/-- A stage that is a literal and begins with a word ends with it. -/
lemma stage_word {span : Span} (word : c.next.IsWord) (reads : Reads ((stage true).read depth) c (.expr e none span) c') :
    c' = c.advance ∨ e.literalValue? = none := by
  cases depth with
  | zero => simp [Form.read] at reads
  | succ depth =>
    obtain ⟨op, -, notFirst, -⟩ | ⟨-, ⟨-, l, c₁, -, behind⟩ | ⟨-, e', c₁, first, behind⟩⟩ := Grammar.reads_stage.1 reads
    · cases notFirst
    · obtain ⟨rfl, -⟩ := stageOf_untagged behind
      exact Or.inr rfl
    · obtain ⟨rfl, rfl⟩ := stageOf_untagged behind
      exact binary_word word first

/-- Where no stage follows, nothing is read. -/
lemma stagesAfter_nil {before : Stage} (reads : Reads ((stagesAfter before).read depth) c [] c') : c' = c := by
  cases depth with
  | zero => simp [Form.read] at reads
  | succ depth =>
    obtain ⟨-, -, rfl⟩ | ⟨-, ⟨-, following, c₁, -, more, -, same⟩ | ⟨-, -, rfl⟩⟩ := Grammar.reads_stagesAfter.1 reads
    · rfl
    · cases same
    · rfl

/-- A literal that begins with a word ends with it. -/
lemma expression_word (word : c.next.IsWord) (reads : Reads (expression.read depth) c e c') :
    c' = c.advance ∨ e.literalValue? = none := by
  cases depth with
  | zero => simp [Form.read] at reads
  | succ depth =>
    obtain ⟨p, chained, rfl⟩ := Grammar.reads_expression.1 reads
    cases depth with
    | zero => simp [Form.read] at chained
    | succ depth =>
      obtain ⟨first, c₂, begins, rest, behind, rfl⟩ := Grammar.reads_chain.1 chained
      unfold ofChain
      split
      · next e span one =>
        obtain ⟨rfl, rfl⟩ := List.cons.inj one
        obtain rfl := stagesAfter_nil behind
        exact stage_word word begins
      · exact Or.inr rfl

end Form

namespace Expr

/-- A text that is read as an expression is scanned, and a form reads its tokens up to the end. -/
lemma reads_of_parse {source : String} {e : Expr} (h : parse source = .ok e) : ∃ tokens depth c, Token.scan source = .ok tokens ∧
    Reader.Reads (Form.expression.read depth) ⟨tokens, 0⟩ e c ∧ c.atEnd = true := by
  obtain ⟨tokens, scanned, h⟩ := ok_of_bind h
  refine ⟨tokens, Form.depthFor tokens.length, ?_⟩
  unfold ofTokens at h
  split at h
  · next e' c reads =>
    split at h
    · next ends =>
      cases h
      exact ⟨c, scanned, reads, ends⟩
    · cases h
  · cases h

end Expr

namespace EntryArgument

variable {text : String} {e : Expr} {v : Value}

/-- No literal begins with a name and then `=`. -/
lemma split_literal (reads : Expr.parse text = .ok e) (literal : e.literalValue? = some v) : split text = (none, text) := by
  unfold split
  split
  · next before after cut =>
    rw [if_neg]
    intro isName
    obtain ⟨tokens, depth, c, scanned, reads, ends⟩ := Expr.reads_of_parse reads
    have whole : before ++ '=' :: after = text.toList := by simpa using Text.splitAtFirst_append cut
    obtain ⟨m, rest, kinds⟩ := Token.kindsOf_named isName after
    have kinds' := Token.scan_kinds scanned
    rw [← whole, kinds] at kinds'
    obtain ⟨first, others, rfl, isWord, kinds'⟩ := List.map_eq_cons_iff.1 kinds'
    obtain ⟨second, behind, rfl, isMark, -⟩ := List.map_eq_cons_iff.1 kinds'
    have word : (Cursor.mk (first :: second :: behind) 0).next.IsWord := ⟨_, isWord⟩
    rcases Form.expression_word word reads with rfl | none
    · simp [Cursor.advance, Cursor.atEnd, Cursor.next, Token.isFinish, isMark] at ends
    · rw [literal] at none
      cases none
  · rfl

/-- A name in front of the first `=` is cut off. -/
lemma split_named {name : String} (isName : Text.isName name.toList = true) (text : String) :
    split (name ++ "=" ++ text) = (some name, text) := by
  have apart : '=' ∉ name.toList := fun member =>
    Text.ne_equals_of_isNameRest (Text.isNameRest_of_isName isName _ member) rfl
  have whole : (name ++ "=" ++ text).toList = name.toList ++ ['='] ++ text.toList := by simp [String.toList_append]
  rw [split, whole, Text.splitAtFirst_of_not_mem apart]
  simp only [Text.trim_name isName, isName, if_true, String.ofList_toList]

/-- An argument that is a literal has no name, wherever `=` occurs in it, and behind a name and `=` it has that name. In both
cases its value is that of the literal. -/
theorem parse_literal (reads : Expr.parse text = .ok e) (literal : e.literalValue? = some v) :
    parse text = .ok ⟨none, v⟩ ∧
      ∀ name : String, Text.isName name.toList = true → parse (name ++ "=" ++ text) = .ok ⟨some name, v⟩ := by
  constructor
  · simp only [parse, split_literal reads literal, reads, literal]
  · intro name isName
    simp only [parse, split_named isName, reads, literal]

/-- An array of a text with `=` in it and a range, with `=` in a comment behind it: by itself, and for a parameter with the
name of a truth value. -/
theorem parse_literal_commented :
    ∃ e v, Expr.parse "[\"a=b\", [0..=2]] // x = 1" = .ok e ∧ e.literalValue? = some v ∧ v.render = "[a=b, [0, 1, 2]]" ∧
      parse "[\"a=b\", [0..=2]] // x = 1" = .ok ⟨none, v⟩ ∧
      parse ("true" ++ "=" ++ "[\"a=b\", [0..=2]] // x = 1") = .ok ⟨some "true", v⟩ := by
  have computed : ((Expr.parse "[\"a=b\", [0..=2]] // x = 1").toOption.bind Expr.literalValue?).map Value.render =
      some "[a=b, [0, 1, 2]]" := by decide +kernel
  obtain ⟨v, found, shown⟩ := Option.map_eq_some_iff.1 computed
  obtain ⟨e, parsed, known⟩ := Option.bind_eq_some_iff.1 found
  cases reads : Expr.parse "[\"a=b\", [0..=2]] // x = 1" with
  | error errors =>
    rw [reads] at parsed
    cases parsed
  | ok e' =>
    rw [reads] at parsed
    obtain rfl := Option.some.inj parsed
    obtain ⟨alone, named⟩ := parse_literal reads known
    exact ⟨e', v, rfl, known, shown, alone, named "true" (by decide)⟩

end EntryArgument

end PipeLang
