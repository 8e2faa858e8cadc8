import Mathlib.Data.List.TakeWhile
import PipeLang.Proofs.Syntax.Shift
import PipeLang.Proofs.Token.Order

/-!
# Texts one behind the other

No token and no comment that ends with its line reaches over a new line, and all others have to be closed. So a text that
is scanned without a fault has the same lexemes when a new line and any other text come behind it, and the lexemes of what
comes behind are those that it has by itself. With a semicolon between two texts, on a line of its own, their tokens are
those of the first, the semicolon, and those of the second further on: `scan_joined`.
-/

namespace PipeLang.Token

/-- A token, moved on. -/
def shift (n : Nat) (t : Token) : Token :=
  ⟨t.kind, t.span.shift n, t.opensLine⟩

@[simp] lemma shift_kind {n : Nat} {t : Token} : (t.shift n).kind = t.kind := rfl

@[simp] lemma shift_span {n : Nat} {t : Token} : (t.shift n).span = t.span.shift n := rfl

@[simp] lemma shift_opensLine {n : Nat} {t : Token} : (t.shift n).opensLine = t.opensLine := rfl

lemma map_shift_zero (tokens : List Token) : tokens.map (shift 0) = tokens :=
  List.map_id tokens

/-! ### A new line behind a text -/

section

variable {c : Char} {cs more : List Char}

/-- What goes on up to a character that it does not hold goes on no further. -/
lemma takeWhile_append_stop {p : Char → Bool} (stops : p c = false) :
    (cs ++ c :: more).takeWhile p = cs.takeWhile p := by
  rw [List.takeWhile_append]
  split
  · next whole =>
    have all : cs.takeWhile p = cs := (List.takeWhile_prefix p).eq_of_length whole
    simp [stops, all]
  · rfl

lemma isPrefixOf_append_stop {chars : List Char} (apart : c ∉ chars) :
    chars.isPrefixOf (cs ++ c :: more) = chars.isPrefixOf cs := by
  induction chars generalizing cs with
  | nil => cases cs <;> rfl
  | cons d chars ih =>
    obtain ⟨other, apart⟩ := not_or.1 (mt List.mem_cons.2 apart)
    cases cs with
    | nil => simp [List.isPrefixOf, Ne.symm other]
    | cons b cs => simp [List.isPrefixOf, ih apart]

lemma symbol?_append : symbol? (cs ++ '\n' :: more) = symbol? cs := by
  have apart (m : Mark) : '\n' ∉ markChars m := by cases m <;> decide
  simp only [symbol?, isPrefixOf_append_stop (apart _)]

lemma digitRun_append : digitRun (cs ++ '\n' :: more) = digitRun cs := by
  cases cs with
  | nil => rfl
  | cons d cs =>
    simp only [List.cons_append, digitRun]
    rw [takeWhile_append_stop (by decide)]

lemma numberLength_append : numberLength (cs ++ '\n' :: more) = numberLength cs := by
  simp only [numberLength, digitRun_append]
  rw [List.drop_append_of_le_length (digitRun_le cs)]
  cases behind : cs.drop (digitRun cs) with
  | nil => rfl
  | cons d rest =>
    rw [List.cons_append]
    split
    · next same =>
      cases same
      simp [digitRun_append]
    · next other =>
      split
      · next same =>
        cases same
        exact absurd rfl (other _)
      · rfl

lemma commentBody?_append {n : Nat} (h : commentBody? cs = some n) : commentBody? (cs ++ more) = some n := by
  fun_induction commentBody? cs generalizing n with
  | case1 => cases h
  | case2 => cases h
  | case3 => exact h
  | case4 d cs last closes ih =>
    obtain ⟨m, found, rfl⟩ := Option.map_eq_some_iff.1 h
    rw [List.cons_append, commentBody?]
    · rw [ih found]
      rfl
    · intro none
      obtain ⟨rfl, -⟩ := List.append_eq_nil_iff.1 none
      exact last rfl
    · rintro rest rfl front
      cases cs with
      | nil => exact last rfl
      | cons b cs =>
        cases front
        exact closes _ rfl rfl

lemma textBody?_append {value : List Char} {n : Nat} (h : textBody? cs = some (value, n)) :
    textBody? (cs ++ more) = some (value, n) := by
  fun_induction textBody? cs generalizing value n with
  | case1 => cases h
  | case2 =>
    cases h
    rfl
  | case3 => cases h
  | case4 c cs d found ih =>
    obtain ⟨⟨v, m⟩, read, same⟩ := Option.map_eq_some_iff.1 h
    cases same
    simp [textBody?, found, ih read]
  | case5 => cases h
  | case6 c cs quote last escape ih =>
    obtain ⟨⟨v, m⟩, read, same⟩ := Option.map_eq_some_iff.1 h
    cases same
    rw [List.cons_append, textBody?, ih read]
    · rfl
    · exact quote
    · rintro rfl none
      obtain ⟨rfl, -⟩ := List.append_eq_nil_iff.1 none
      exact last rfl rfl
    · rintro d ds rfl front
      cases cs with
      | nil => exact last rfl rfl
      | cons b cs => exact escape b cs rfl rfl

/-- A lexeme without a fault. -/
def Piece.Sound : Piece → Prop
  | .stray _ | .openComment | .openText => False
  | .newline | .blank | .comment _ | .token _ => True

/-- A new line behind a text changes nothing about the first lexeme. -/
lemma lexeme_append {piece : Piece} {n : Nat} (h : lexeme c cs = (piece, n)) (sound : piece.Sound) :
    lexeme c (cs ++ '\n' :: more) = (piece, n) := by
  have head {d : Char} (other : d ≠ '\n') : (cs ++ '\n' :: more).head? = some d ↔ cs.head? = some d := by
    cases cs <;> simp [Ne.symm other]
  have slash := @head '/' (by decide)
  have star := @head '*' (by decide)
  have length : numberLength (c :: (cs ++ '\n' :: more)) = numberLength (c :: cs) := by
    rw [← List.cons_append, numberLength_append]
  have symbol : symbol? (c :: (cs ++ '\n' :: more)) = symbol? (c :: cs) := by
    rw [← List.cons_append, symbol?_append]
  have number : (c :: (cs ++ '\n' :: more)).take (numberLength (c :: cs)) = (c :: cs).take (numberLength (c :: cs)) := by
    rw [← List.cons_append, List.take_append_of_le_length (numberLength_le _)]
  unfold lexeme at h ⊢
  simp only [slash, star, length, symbol, number, takeWhile_append_stop (p := (· != '\n')) (c := '\n') (by decide),
    takeWhile_append_stop (p := Text.isNameRest) (c := '\n') (by decide)]
  split
  · next line => rwa [if_pos line] at h
  next line =>
  rw [if_neg line] at h
  split
  · next blank => rwa [if_pos blank] at h
  next blank =>
  rw [if_neg blank] at h
  split
  · next slashes => rwa [if_pos slashes] at h
  next slashes =>
  rw [if_neg slashes] at h
  split
  · next opens =>
    rw [if_pos opens] at h
    obtain ⟨rest, rfl⟩ : ∃ rest, cs = '*' :: rest := by
      cases cs <;> simp_all
    split at h
    · next m found =>
      rw [List.tail_cons] at found h
      have short : m ≤ rest.length := by
        have := commentBody?_le found
        omega
      rw [List.cons_append, List.tail_cons, commentBody?_append found]
      simp only [List.take_append_of_le_length short]
      exact h
    · cases h
      cases sound
  next opens =>
  rw [if_neg opens] at h
  split
  · next digit => rwa [if_pos digit] at h
  next digit =>
  rw [if_neg digit] at h
  split
  · next quote =>
    rw [if_pos quote] at h
    split at h
    · next value m body =>
      rw [textBody?_append body]
      exact h
    · cases h
      cases sound
  next quote => rwa [if_neg quote] at h

lemma lexemes_newline : lexemes ('\n' :: cs) = (.newline, ['\n']) :: lexemes cs := by
  simp [lexemes, lexeme]

/-- A new line and more behind a text without a fault have lexemes of their own. -/
lemma lexemes_append (sound : ∀ p ∈ lexemes cs, p.1.Sound) :
    lexemes (cs ++ '\n' :: more) = lexemes cs ++ lexemes ('\n' :: more) := by
  fun_induction lexemes cs with
  | case1 => rfl
  | case2 c cs piece n first ih =>
    obtain ⟨own, rest⟩ := List.forall_mem_cons.1 sound
    have short : n ≤ cs.length + 1 := by simpa [first] using lexeme_length_le c cs
    have front : (c :: (cs ++ '\n' :: more)).take n = (c :: cs).take n := by
      rw [← List.cons_append, List.take_append_of_le_length (by simpa using short)]
    have back : (cs ++ '\n' :: more).drop (n - 1) = cs.drop (n - 1) ++ '\n' :: more :=
      List.drop_append_of_le_length (by omega)
    rw [List.cons_append, lexemes, lexeme_append first own]
    simp only [front, back, ih rest, List.cons_append]

end

/-! ### Lexemes in their places -/

variable {offset : Nat} {fresh : Bool} {pieces : List (Piece × List Char)}

/-- All that is wrong is what no lexeme is. -/
lemma place_errors : (place offset fresh pieces).errors = [] ↔ ∀ p ∈ pieces, p.1.Sound := by
  induction pieces generalizing offset fresh with
  | nil => simp [place]
  | cons head rest ih =>
    obtain ⟨piece, chars⟩ := head
    cases piece <;> simp [place, Piece.Sound, ih]

/-- A text is scanned to its tokens if nothing is wrong with its lexemes. -/
lemma scan_eq_ok {source : String} {tokens : List Token} :
    scan source = .ok tokens ↔
      (∀ p ∈ lexemes source.toList, p.1.Sound) ∧ (place 0 true (lexemes source.toList)).tokens = tokens := by
  simp only [scan, List.isEmpty_iff]
  split
  · next none =>
    rw [Except.ok.injEq]
    exact (and_iff_right (place_errors.1 none)).symm
  · next some =>
    simp only [reduceCtorEq, false_iff]
    exact fun scanned => some (place_errors.2 scanned.1)

/-- A lexeme gives a token, a refusal or neither, and says whether what comes behind it opens a line. -/
lemma place_cons (offset : Nat) (fresh : Bool) (piece : Piece) (chars : List Char) :
    ∃ tokens errors opens, ∀ rest, place offset fresh ((piece, chars) :: rest) =
      ⟨tokens ++ (place (offset + byteCount chars) opens rest).tokens,
        errors ++ (place (offset + byteCount chars) opens rest).errors⟩ := by
  cases piece with
  | newline => exact ⟨[], [], true, fun _ => rfl⟩
  | blank => exact ⟨[], [], fresh, fun _ => rfl⟩
  | comment multiline => exact ⟨[], [], fresh || multiline, fun _ => rfl⟩
  | token kind => exact ⟨[⟨kind, _, fresh⟩], [], false, fun _ => rfl⟩
  | stray c => exact ⟨[], [⟨.strayCharacter c, _⟩], fresh, fun _ => rfl⟩
  | openComment => exact ⟨[], [⟨.unterminatedComment, _⟩], fresh, fun _ => rfl⟩
  | openText => exact ⟨[], [⟨.unterminatedText, _⟩], fresh, fun _ => rfl⟩

/-- So those at the front do not depend on what comes behind them. -/
lemma place_append (offset : Nat) (fresh : Bool) (front : List (Piece × List Char)) :
    ∃ tokens errors opens, ∀ rest, place offset fresh (front ++ rest) =
      ⟨tokens ++ (place (offset + byteCount (front.flatMap Prod.snd)) opens rest).tokens,
        errors ++ (place (offset + byteCount (front.flatMap Prod.snd)) opens rest).errors⟩ := by
  induction front generalizing offset fresh with
  | nil => exact ⟨[], [], fresh, fun _ => rfl⟩
  | cons head front ih =>
    obtain ⟨piece, chars⟩ := head
    obtain ⟨tokens₁, errors₁, opens₁, own⟩ := place_cons offset fresh piece chars
    obtain ⟨tokens, errors, opens, both⟩ := ih (offset + byteCount chars) opens₁
    refine ⟨tokens₁ ++ tokens, errors₁ ++ errors, opens, fun rest => ?_⟩
    rw [List.cons_append, own, both, List.flatMap_cons, byteCount_append, Nat.add_assoc]
    simp only [List.append_assoc]

/-- No lexeme is the end of the text. -/
lemma lexeme_ne_finish (c : Char) (cs : List Char) : (lexeme c cs).1 ≠ .token .finish := by
  have word (cs : List Char) : ofWord cs ≠ .finish := by
    unfold ofWord
    split <;> nofun
  unfold lexeme
  repeat' split
  all_goals simp [word]

lemma lexemes_ne_finish (cs : List Char) : ∀ p ∈ lexemes cs, p.1 ≠ .token .finish := by
  fun_induction lexemes cs with
  | case1 => simp
  | case2 c cs piece n first ih =>
    refine List.forall_mem_cons.2 ⟨?_, ih⟩
    simpa [first] using lexeme_ne_finish c cs

/-- The last of the tokens is the end of the text, and all others are something. -/
lemma scan_front {source : String} {tokens : List Token} (h : scan source = .ok tokens) :
    ∃ front last, tokens = front ++ [last] ∧ last.kind = .finish ∧ ∀ t ∈ front, t.isFinish = false ∧ 0 < t.span.stop := by
  obtain ⟨-, rfl⟩ := scan_eq_ok.1 h
  have placed (pieces : List (Piece × List Char)) (offset : Nat) (fresh : Bool) (full : ∀ p ∈ pieces, p.2 ≠ [])
      (solid : ∀ p ∈ pieces, p.1 ≠ .token .finish) :
      ∃ front last, (place offset fresh pieces).tokens = front ++ [last] ∧ last.kind = .finish ∧
        ∀ t ∈ front, t.isFinish = false ∧ 0 < t.span.stop := by
    induction pieces generalizing offset fresh with
    | nil => exact ⟨[], _, rfl, rfl, nofun⟩
    | cons head rest ih =>
      obtain ⟨piece, chars⟩ := head
      obtain ⟨full, fullRest⟩ := List.forall_mem_cons.1 full
      obtain ⟨solid, solidRest⟩ := List.forall_mem_cons.1 solid
      cases piece with
      | token kind =>
        obtain ⟨front, last, text, finish, inside⟩ := ih (offset + byteCount chars) false fullRest solidRest
        have pos : 0 < byteCount chars := byteCount_pos full
        refine ⟨_ :: front, last, congrArg _ text, finish, List.forall_mem_cons.2 ⟨⟨?_, ?_⟩, inside⟩⟩
        · cases kind <;> simp_all [isFinish]
        · show 0 < offset + byteCount chars
          omega
      | _ => exact ih _ _ fullRest solidRest
  exact placed _ 0 true lexemes_ne_nil (lexemes_ne_finish _)

/-- The same lexemes further on give the same tokens further on. -/
lemma place_shift (n : Nat) : (place (offset + n) fresh pieces).tokens = (place offset fresh pieces).tokens.map (shift n) := by
  induction pieces generalizing offset fresh with
  | nil => rfl
  | cons head rest ih =>
    obtain ⟨piece, chars⟩ := head
    have there : offset + n + byteCount chars = offset + byteCount chars + n := by omega
    cases piece <;> simp [place, there, ih, shift, Span.shift]

/-- Two texts with a semicolon between them, on a line of its own. -/
theorem scan_joined {s₁ s₂ : String} {front tokens : List Token} {last : Token}
    (first : scan s₁ = .ok (front ++ [last])) (second : scan s₂ = .ok tokens) :
    scan (s₁ ++ "\n;\n" ++ s₂) = .ok (front ++
      ⟨.mark .semicolon, ⟨s₁.utf8ByteSize + 1, s₁.utf8ByteSize + 2⟩, true⟩ :: tokens.map (shift (s₁.utf8ByteSize + 3))) := by
  obtain ⟨sound₁, placed₁⟩ := scan_eq_ok.1 first
  obtain ⟨sound₂, placed₂⟩ := scan_eq_ok.1 second
  have text : (s₁ ++ "\n;\n" ++ s₂).toList = s₁.toList ++ '\n' :: ';' :: '\n' :: s₂.toList := by
    simp [String.toList_append]
  have between : lexemes ('\n' :: ';' :: '\n' :: s₂.toList) =
      [(.newline, ['\n']), (.token (.mark .semicolon), [';']), (.newline, ['\n'])] ++ lexemes s₂.toList := by
    have semicolon : lexeme ';' ([] ++ '\n' :: s₂.toList) = (.token (.mark .semicolon), 1) :=
      lexeme_append rfl trivial
    rw [lexemes_newline, lexemes, ← List.nil_append ('\n' :: s₂.toList), semicolon]
    simp [lexemes_newline]
  have all : lexemes (s₁.toList ++ '\n' :: ';' :: '\n' :: s₂.toList) = _ := lexemes_append sound₁
  rw [between] at all
  obtain ⟨tokens₁, errors, opens, both⟩ := place_append 0 true (lexemes s₁.toList)
  have size : 0 + byteCount ((lexemes s₁.toList).flatMap Prod.snd) = s₁.utf8ByteSize := by
    rw [lexemes_flatten, byteCount_eq, String.ofList_toList, Nat.zero_add]
  rw [size] at both
  obtain ⟨rfl, -⟩ : tokens₁ = front ∧ _ := by
    have whole := both []
    rw [List.append_nil] at whole
    rw [whole] at placed₁
    exact List.append_inj' placed₁ rfl
  refine scan_eq_ok.2 ⟨?_, ?_⟩
  · rw [text, all]
    simp only [List.forall_mem_append]
    exact ⟨sound₁, by simp [Piece.Sound], sound₂⟩
  · rw [text, all, both, ← placed₂, ← place_shift]
    have newline : byteCount ['\n'] = 1 := by decide
    have semicolon : byteCount [';'] = 1 := by decide
    simp [place, newline, semicolon, Nat.add_assoc]

end PipeLang.Token
