import PipeLang.Number.Binary
import PipeLang.Toml

/-!
# TOML scalars

Strings, numbers, truth values, dates and times, read off the front of a text. What a reader returns is the
value and the text behind it, or nothing if the text does not start with one. Whatever stands behind a
scalar is for its context to accept.
-/

namespace PipeLang.Toml

/-- Reads something off the front of a text. -/
abbrev Reading (α : Type) := StateT (List Char) Option α

/-- Whether a character separates within a line. -/
def isBlank (c : Char) : Bool :=
  c == ' ' || c == '\t'

/-- Whether a character may stand for itself: it is a tab or no control character. -/
def isPlain (c : Char) : Bool :=
  c == '\t' || (0x20 ≤ c.toNat && c.toNat != 0x7F)

/-- Whether a text starts with the end of a line. -/
def startsLine : List Char → Bool
  | '\n' :: _ | '\r' :: '\n' :: _ => true
  | _ => false

namespace Reading

/-- Refuses the text. -/
def refuse {α : Type} : Reading α := fun _ => none

/-- The characters up to the first that is not in a class. -/
def takeWhile (f : Char → Bool) : Reading (List Char) := fun cs =>
  some (cs.takeWhile f, cs.dropWhile f)

/-- One character of a class. -/
def char (f : Char → Bool) : Reading Char
  | c :: rest => if f c then some (c, rest) else none
  | [] => none

/-- A fixed text. -/
def word (w : List Char) : Reading Unit := fun cs =>
  if w.isPrefixOf cs then some ((), cs.drop w.length) else none

/-- Reads with the first of two readers that does not refuse. -/
def either {α : Type} (a b : Reading α) : Reading α := fun cs =>
  match a cs with
  | some answer => some answer
  | none => b cs

/-- Reads something if it is there. -/
def perhaps {α : Type} (a : Reading α) : Reading (Option α) :=
  either (return some (← a)) (return none)

/-- The characters that something takes up. -/
def spelling {α : Type} (a : Reading α) : Reading (List Char) := fun cs => do
  let (_, rest) ← a cs
  return (cs.take (cs.length - rest.length), rest)

/-- The end of a line. -/
def lineEnd : Reading Unit
  | '\n' :: rest => some ((), rest)
  | '\r' :: '\n' :: rest => some ((), rest)
  | _ => none

/-! ## Strings -/

/-- The value of a hexadecimal digit. -/
def hexValue? (c : Char) : Option Nat :=
  if c.isDigit then some (c.toNat - '0'.toNat)
  else if 'a' ≤ c && c ≤ 'f' then some (c.toNat - 'a'.toNat + 10)
  else if 'A' ≤ c && c ≤ 'F' then some (c.toNat - 'A'.toNat + 10)
  else none

/-- The character whose code the hexadecimal digits spell. -/
def ofCode? (digits : List Char) : Option Char := do
  let code ← digits.foldlM (fun n c => return 16 * n + (← hexValue? c)) 0
  if code.isValidChar then some (Char.ofNat code) else none

/-- The character that a letter behind a backslash stands for. -/
def escaped? : Char → Option Char
  | 'b' => some '\x08'
  | 'f' => some '\x0c'
  | 'n' => some '\n'
  | 'r' => some '\r'
  | 't' => some '\t'
  | '"' => some '"'
  | '\\' => some '\\'
  | _ => none

/-- Puts a character in front of what was read. -/
def prepend (c : Char) (answer : Option (List Char × List Char)) : Option (List Char × List Char) :=
  answer.map fun (content, rest) => (c :: content, rest)

/-- The content of a basic string, from behind its opening quote. -/
def basicContent : Reading (List Char)
  | [] => none
  | '"' :: rest => some ([], rest)
  | '\\' :: 'u' :: a :: b :: c :: d :: rest => do
    prepend (← ofCode? [a, b, c, d]) (basicContent rest)
  | '\\' :: 'U' :: a :: b :: c :: d :: e :: f :: g :: h :: rest => do
    prepend (← ofCode? [a, b, c, d, e, f, g, h]) (basicContent rest)
  | '\\' :: c :: rest => do prepend (← escaped? c) (basicContent rest)
  | c :: rest => if isPlain c && c != '\\' then prepend c (basicContent rest) else none

/-- The content of a literal string, from behind its opening quote. -/
def literalContent : Reading (List Char)
  | [] => none
  | '\'' :: rest => some ([], rest)
  | c :: rest => if isPlain c then prepend c (literalContent rest) else none

/-- Up to two quotes that stand in front of three closing ones belong to the content. -/
def closingQuotes (quote : Char) : Reading (List Char)
  | a :: b :: rest =>
    if a = quote && b = quote then some ([a, b], rest)
    else if a = quote then some ([a], b :: rest)
    else some ([], a :: b :: rest)
  | [a] => if a = quote then some ([a], []) else some ([], [a])
  | [] => some ([], [])

/-- The content of a basic string over several lines. A backslash at the end of a line drops the end of the line
and the blank characters and lines behind it, which `dropping` says. -/
def basicLines (dropping : Bool) : Reading (List Char)
  | [] => none
  | '\r' :: '\n' :: rest => if dropping then basicLines true rest else prepend '\n' (basicLines false rest)
  | '"' :: '"' :: '"' :: rest => closingQuotes '"' rest
  | '\\' :: 'u' :: a :: b :: c :: d :: rest => do
    prepend (← ofCode? [a, b, c, d]) (basicLines false rest)
  | '\\' :: 'U' :: a :: b :: c :: d :: e :: f :: g :: h :: rest => do
    prepend (← ofCode? [a, b, c, d, e, f, g, h]) (basicLines false rest)
  | '\\' :: c :: rest =>
    if startsLine ((c :: rest).dropWhile isBlank) then basicLines true (c :: rest)
    else do prepend (← escaped? c) (basicLines false rest)
  | c :: rest =>
    if dropping && (isBlank c || c == '\n') then basicLines true rest
    else if c == '\n' || (isPlain c && c != '\\') then prepend c (basicLines false rest)
    else none

/-- The content of a literal string over several lines. -/
def literalLines : Reading (List Char)
  | [] => none
  | '\r' :: '\n' :: rest => prepend '\n' (literalLines rest)
  | '\'' :: '\'' :: '\'' :: rest => closingQuotes '\'' rest
  | c :: rest => if c == '\n' || isPlain c then prepend c (literalLines rest) else none

/-- A string in double quotes on one line. -/
def basicString : Reading String := do
  word ['"']
  return String.ofList (← basicContent)

/-- A string in single quotes on one line. -/
def literalString : Reading String := do
  word ['\'']
  return String.ofList (← literalContent)

/-- A string over several lines; the end of a line right behind the opening quotes is dropped. -/
def linesString (quote : Char) (content : Reading (List Char)) : Reading String := do
  word [quote, quote, quote]
  let _ ← perhaps lineEnd
  return String.ofList (← content)

/-- A string. -/
def string : Reading String :=
  either (linesString '"' (basicLines false)) <| either basicString <|
    either (linesString '\'' literalLines) literalString

/-! ## Numbers -/

/-- More digits of a class, with single underscores between them. -/
def moreDigits (f : Char → Bool) : List Char → List Char × List Char
  | '_' :: c :: rest =>
    if f c then
      let (digits, rest) := moreDigits f rest
      (c :: digits, rest)
    else
      ([], '_' :: c :: rest)
  | c :: rest =>
    if f c then
      let (digits, rest) := moreDigits f rest
      (c :: digits, rest)
    else
      ([], c :: rest)
  | [] => ([], [])

/-- Digits of a class, with single underscores between them. -/
def digits (f : Char → Bool) : Reading (List Char) := do
  let first ← char f
  let more : Reading (List Char) := fun cs => some (moreDigits f cs)
  return first :: (← more)

/-- The number that digits spell in a base. -/
def numberOf (base : Nat) (ds : List Char) : Nat :=
  ds.foldl (fun n c => base * n + (hexValue? c).getD 0) 0

/-- Whether a sign is a minus; no sign is none. -/
def sign : Reading Bool := do
  return (← perhaps (char fun c => c == '+' || c == '-')) == some '-'

/-- The digits in front of a decimal point: a single zero, or digits that start with another. -/
def wholeDigits : Reading (List Char) :=
  either (do word ['0']; return ['0']) (digits Char.isDigit)

/-- An integer of 64 bits. -/
def inWord (n : Int) : Reading Toml :=
  if Number.wordMin ≤ n && n ≤ Number.wordMax then return .integer n else refuse

/-- An integer in a base that two characters announce. -/
def based (mark : Char) (base : Nat) (f : Char → Bool) : Reading Toml := do
  word ['0', mark]
  inWord (numberOf base (← digits f))

/-- An integer. -/
def integer : Reading Toml :=
  either (based 'x' 16 fun c => (hexValue? c).isSome) <|
    either (based 'o' 8 fun c => '0' ≤ c && c ≤ '7') <|
      either (based 'b' 2 fun c => c == '0' || c == '1') do
        let negative ← sign
        let n := numberOf 10 (← wholeDigits)
        inWord (if negative then -(n : Int) else n)

/-- The exponent of a float. -/
def exponent : Reading Int := do
  let _ ← char fun c => c == 'e' || c == 'E'
  let negative ← sign
  let n := numberOf 10 (← digits Char.isDigit)
  return if negative then -(n : Int) else n

/-- The double nearest to `m * 10 ^ e` for `m` below `10 ^ size`. Beyond the bounds on the exponent it is infinite
or zero. -/
def scaled (negative : Bool) (m size : Nat) (e : Int) : Float :=
  let e := max (-(size + 400 : Int)) (min 400 e)
  Number.nearest negative (m * Number.tenTo e.toNat) (Number.tenTo (-e).toNat)

/-- A float with a fraction, an exponent, or both. One that rounds to positive infinity is refused. -/
def decimal : Reading Toml := do
  let negative ← sign
  let whole ← wholeDigits
  let fraction ← perhaps do
    word ['.']
    digits Char.isDigit
  let power ←
    match fraction with
    | none => exponent
    | some _ => do pure ((← perhaps exponent).getD 0)
  let ds := whole ++ fraction.getD []
  let x := scaled negative (numberOf 10 ds) ds.length (power - (fraction.getD []).length)
  if Number.shape x = .infinite false then refuse else return .float x

/-- An infinity, or not a number. -/
def limit : Reading Toml := do
  let negative ← sign
  either (do word ['i', 'n', 'f']; return .float (if negative then -1.0 / 0.0 else 1.0 / 0.0))
    (do word ['n', 'a', 'n']; return .float (0.0 / 0.0))

/-! ## Dates and times -/

/-- A number of fixed width within bounds. -/
def fixed (width low high : Nat) : Reading Nat := fun cs =>
  let ds := cs.take width
  let n := numberOf 10 ds
  if ds.length = width && ds.all Char.isDigit && low ≤ n && n ≤ high then some (n, cs.drop width) else none

/-- How many days a month has. -/
def daysIn (year month : Nat) : Nat :=
  if month = 2 then
    if year % 4 = 0 && (year % 100 != 0 || year % 400 = 0) then 29 else 28
  else if month = 4 || month = 6 || month = 9 || month = 11 then
    30
  else
    31

/-- A date. -/
def date : Reading Unit := do
  let year ← fixed 4 0 9999
  word ['-']
  let month ← fixed 2 1 12
  word ['-']
  let _ ← fixed 2 1 (daysIn year month)

/-- A time of day; a minute may have a leap second. -/
def time : Reading Unit := do
  let _ ← fixed 2 0 23
  word [':']
  let _ ← fixed 2 0 59
  word [':']
  let _ ← fixed 2 0 60
  let _ ← perhaps do
    word ['.']
    let _ ← char Char.isDigit
    takeWhile Char.isDigit

/-- How far a time is from universal time. -/
def offset : Reading Unit :=
  either (do let _ ← char fun c => c == 'Z' || c == 'z') do
    let _ ← char fun c => c == '+' || c == '-'
    let _ ← fixed 2 0 23
    word [':']
    let _ ← fixed 2 0 59

/-- A date, or a date with a time, which may have an offset. -/
def dateWithTime : Reading Unit := do
  date
  let _ ← perhaps do
    let _ ← char fun c => c == 'T' || c == 't' || c == ' '
    time
    let _ ← perhaps offset

/-- A date, a time, or a date with a time. -/
def moment : Reading Toml := do
  return .moment (String.ofList (← spelling (either dateWithTime time)))

/-! ## All scalars -/

/-- A truth value. -/
def truth : Reading Toml :=
  either (do word ['t', 'r', 'u', 'e']; return .bool true)
    (do word ['f', 'a', 'l', 's', 'e']; return .bool false)

/-- A value that holds no others. -/
def scalar : Reading Toml :=
  either (return .text (← string)) <| either truth <| either moment <| either decimal <|
    either limit integer

end Reading

end PipeLang.Toml
