import PipeLang.SyntaxError
import PipeLang.Number.Binary
import PipeLang.Text.Blank
import PipeLang.Text.Name

/-!
# Scanning

A text is cut into lexemes: blanks, comments, tokens, and what can be none of these. Each lexeme is a kind
and a length, and it is chosen by looking at the remaining characters only. Main statements:

* `lexeme_length_pos` and `lexeme_length_le`: a lexeme takes at least one character and at most all;
* `lexemes_flatten`: the lexemes of a text, joined again, are the text.
-/

namespace PipeLang.Token

/-- The characters of a mark. -/
def markChars (m : Mark) : List Char :=
  m.spelling.toList

/-- The keyword with the given spelling, or else an identifier. -/
def ofWord (word : List Char) : Kind :=
  match Mark.keywords.find? fun m => markChars m == word with
  | some m => .mark m
  | none => .identifier (String.ofList word)

/-- The symbol at the front of a text. -/
def symbol? (cs : List Char) : Option Mark :=
  Mark.symbols.find? fun m => (markChars m).isPrefixOf cs

/-- Length of the digits at the front of a text; underscores may group the digits after the first. -/
def digitRun : List Char → Nat
  | [] => 0
  | c :: cs => if c.isDigit then 1 + (cs.takeWhile fun d => d.isDigit || d == '_').length else 0

/-- Length of the number at the front of a text: digits, then a fraction if digits follow the point. -/
def numberLength (cs : List Char) : Nat :=
  let whole := digitRun cs
  match cs.drop whole with
  | '.' :: rest => if digitRun rest = 0 then whole else whole + 1 + digitRun rest
  | _ => whole

/-- The number that digits spell, without regard to anything between them. -/
def digitsValue (cs : List Char) : Nat :=
  (cs.filter Char.isDigit).foldl (fun n c => 10 * n + (c.toNat - '0'.toNat)) 0

/-- The double nearest to a written number. -/
def numberValue (cs : List Char) : Float :=
  let fraction := (cs.dropWhile (· != '.')).filter Char.isDigit
  Number.ofDecimal (digitsValue cs) fraction.length

/-- Length of a block comment's body, if the comment is closed. -/
def commentBody? : List Char → Option Nat
  | [] => none
  | [_] => none
  | '*' :: '/' :: _ => some 0
  | _ :: cs => (commentBody? cs).map (· + 1)

/-- The character that an escape stands for. -/
def escaped? : Char → Option Char
  | '\\' => some '\\'
  | '"' => some '"'
  | 'n' => some '\n'
  | 't' => some '\t'
  | _ => none

/-- The value of a string literal's body and its length up to the closing quote, which must be there. -/
def textBody? : List Char → Option (List Char × Nat)
  | [] => none
  | '"' :: _ => some ([], 0)
  | ['\\'] => none
  | '\\' :: c :: cs =>
    match escaped? c with
    | some d => (textBody? cs).map fun (value, length) => (d :: value, length + 2)
    | none => none
  | c :: cs => (textBody? cs).map fun (value, length) => (c :: value, length + 1)

/-- What a lexeme is. -/
inductive Piece where
  | newline
  | blank
  /-- A comment, and whether it reaches over more than one line. -/
  | comment (multiline : Bool)
  | token (kind : Kind)
  /-- A character that begins no lexeme. -/
  | stray (c : Char)
  /-- A block comment without an end; it takes the rest of the text. -/
  | openComment
  /-- A string literal without an end, or with an unknown escape; it takes the rest of the text. -/
  | openText

/-- The first lexeme of the text `c :: cs` and its length. -/
def lexeme (c : Char) (cs : List Char) : Piece × Nat :=
  if c = '\n' then
    (.newline, 1)
  else if Text.isBlank c then
    (.blank, 1)
  else if c = '/' && cs.head? = some '/' then
    (.comment false, 1 + (cs.takeWhile (· != '\n')).length)
  else if c = '/' && cs.head? = some '*' then
    match commentBody? cs.tail with
    | some length => (.comment ((cs.tail.take length).contains '\n'), length + 4)
    | none => (.openComment, 1 + cs.length)
  else if c.isDigit then
    let length := numberLength (c :: cs)
    (.token (.number (numberValue ((c :: cs).take length))), length)
  else if c = '"' then
    match textBody? cs with
    | some (value, length) => (.token (.text (String.ofList value)), length + 2)
    | none => (.openText, 1 + cs.length)
  else if Text.isNameStart c then
    let rest := cs.takeWhile Text.isNameRest
    (.token (ofWord (c :: rest)), 1 + rest.length)
  else
    match symbol? (c :: cs) with
    | some m => (.token (.mark m), (markChars m).length)
    | none => (.stray c, 1)

theorem commentBody?_le {cs : List Char} {n : Nat} (h : commentBody? cs = some n) :
    n + 2 ≤ cs.length := by
  fun_induction commentBody? cs generalizing n with
  | case1 => simp at h
  | case2 => simp at h
  | case3 => simp at h; simp; omega
  | case4 c cs _ _ ih =>
    obtain ⟨m, found, rfl⟩ := Option.map_eq_some_iff.1 h
    have := ih found
    simp
    omega

theorem textBody?_lt {cs value : List Char} {n : Nat} (h : textBody? cs = some (value, n)) :
    n < cs.length := by
  fun_induction textBody? cs generalizing value n with
  | case1 => simp at h
  | case2 => simp at h; simp; omega
  | case3 => simp at h
  | case4 c cs d _ ih =>
    obtain ⟨⟨v, m⟩, found, same⟩ := Option.map_eq_some_iff.1 h
    have := ih found
    simp_all
    omega
  | case5 => simp at h
  | case6 c cs _ _ _ ih =>
    obtain ⟨⟨v, m⟩, found, same⟩ := Option.map_eq_some_iff.1 h
    have := ih found
    simp_all
    omega

theorem takeWhile_length_le (p : Char → Bool) (cs : List Char) :
    (cs.takeWhile p).length ≤ cs.length :=
  (List.takeWhile_sublist p).length_le

theorem digitRun_le (cs : List Char) : digitRun cs ≤ cs.length := by
  cases cs with
  | nil => simp [digitRun]
  | cons c cs =>
    have := takeWhile_length_le (fun d => d.isDigit || d == '_') cs
    simp only [digitRun]
    split <;> simp only [List.length_cons] <;> omega

theorem numberLength_le (cs : List Char) : numberLength cs ≤ cs.length := by
  have whole := digitRun_le cs
  simp only [numberLength]
  split
  · next rest h =>
    have fraction := digitRun_le rest
    have := congrArg List.length h
    simp only [List.length_drop, List.length_cons] at this
    split <;> omega
  · exact whole

theorem numberLength_pos {c : Char} (cs : List Char) (h : c.isDigit = true) :
    0 < numberLength (c :: cs) := by
  have : 0 < digitRun (c :: cs) := by
    simp only [digitRun, h, if_true]
    omega
  simp only [numberLength]
  split
  · split <;> omega
  · exact this

theorem markChars_ne_nil (m : Mark) : markChars m ≠ [] := by
  cases m <;> decide

theorem symbol?_isPrefix {cs : List Char} {m : Mark} (h : symbol? cs = some m) :
    markChars m <+: cs := by
  simpa [List.isPrefixOf_iff_prefix] using List.find?_some h

/-- A lexeme takes at least one character. -/
theorem lexeme_length_pos (c : Char) (cs : List Char) : 0 < (lexeme c cs).2 := by
  simp only [lexeme]
  split
  · exact Nat.one_pos
  split
  · exact Nat.one_pos
  split
  · dsimp only
    omega
  split
  · split <;> dsimp only <;> omega
  split
  · next digit => exact numberLength_pos cs digit
  split
  · split <;> dsimp only <;> omega
  split
  · dsimp only
    omega
  split
  · next m _ => exact List.length_pos_iff.2 (markChars_ne_nil m)
  · exact Nat.one_pos

/-- A lexeme takes no more than there is. -/
theorem lexeme_length_le (c : Char) (cs : List Char) : (lexeme c cs).2 ≤ cs.length + 1 := by
  simp only [lexeme]
  split
  · exact Nat.le_add_left 1 _
  split
  · exact Nat.le_add_left 1 _
  split
  · have := takeWhile_length_le (· != '\n') cs
    dsimp only
    omega
  split
  · split
    · next star _ h =>
      have := commentBody?_le h
      cases cs <;> simp_all
    · dsimp only
      omega
  split
  · exact numberLength_le (c :: cs)
  split
  · split
    · next h =>
      have := textBody?_lt h
      dsimp only
      omega
    · dsimp only
      omega
  split
  · have := takeWhile_length_le Text.isNameRest cs
    dsimp only
    omega
  split
  · next h => simpa using (symbol?_isPrefix h).length_le
  · exact Nat.le_add_left 1 _

/-- The lexemes of a text, each with its characters. -/
def lexemes : List Char → List (Piece × List Char)
  | [] => []
  | c :: cs =>
    let (piece, length) := lexeme c cs
    (piece, (c :: cs).take length) :: lexemes (cs.drop (length - 1))
  termination_by cs => cs.length
  decreasing_by
    simp only [List.length_drop, List.length_cons]
    omega

/-- The lexemes of a text, joined again, are the text. -/
theorem lexemes_flatten (cs : List Char) : (lexemes cs).flatMap Prod.snd = cs := by
  fun_induction lexemes cs with
  | case1 => rfl
  | case2 c cs piece length h ih =>
    have pos : 0 < length := by simpa [h] using lexeme_length_pos c cs
    obtain ⟨n, rfl⟩ : ∃ n, length = n + 1 := ⟨length - 1, by omega⟩
    simp_all

/-- Number of bytes of a text. -/
def byteCount (cs : List Char) : Nat :=
  cs.foldr (fun c n => c.utf8Size + n) 0

/-- The tokens and the refusals found so far. -/
structure Scan where
  tokens : List Token
  errors : List SyntaxError

/-- Puts lexemes in their places, from an offset on; `fresh` says that no token has been seen on the current
line. The end of the text is a token of its own. -/
def place (offset : Nat) (fresh : Bool) : List (Piece × List Char) → Scan
  | [] => ⟨[⟨.finish, ⟨offset, offset⟩, fresh⟩], []⟩
  | (piece, chars) :: rest =>
    let stop := offset + byteCount chars
    let span : Span := ⟨offset, stop⟩
    match piece with
    | .newline => place stop true rest
    | .blank => place stop fresh rest
    | .comment multiline => place stop (fresh || multiline) rest
    | .token kind =>
      let scan := place stop false rest
      { scan with tokens := ⟨kind, span, fresh⟩ :: scan.tokens }
    | .stray c =>
      let scan := place stop fresh rest
      { scan with errors := ⟨.strayCharacter c, span⟩ :: scan.errors }
    | .openComment =>
      let scan := place stop fresh rest
      { scan with errors := ⟨.unterminatedComment, span⟩ :: scan.errors }
    | .openText =>
      let scan := place stop fresh rest
      { scan with errors := ⟨.unterminatedText, span⟩ :: scan.errors }

/-- The tokens of a text, the last of them its end, or else everything that is wrong with it. -/
def scan (source : String) : Except (List SyntaxError) (List Token) :=
  let result := place 0 true (lexemes source.toList)
  if result.errors.isEmpty then .ok result.tokens else .error result.errors

end PipeLang.Token
