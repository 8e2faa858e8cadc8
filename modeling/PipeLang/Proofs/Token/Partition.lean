import Mathlib
import PipeLang.Proofs.Token.Order

/-!
# Tokens and gaps

A text that is scanned is cut into tokens and gaps between them: blanks and comments, and nothing else. Each token is
what its own text is when it is scanned alone, so nothing behind a token has a part in what the token is. A token opens a
line if it is the first or if the gap in front of it has a new line in it. Main statement: `scan_partition`.
-/

namespace PipeLang.Token

/-- The digits at the front of a part of a text are those of the text, as far as the part reaches. -/
lemma digitRun_take (cs : List Char) (n : Nat) : digitRun (cs.take n) = min n (digitRun cs) := by
  cases cs with
  | nil => simp [digitRun]
  | cons c cs =>
    cases n with
    | zero => simp [digitRun]
    | succ n =>
      simp only [digitRun, List.take_succ_cons, ← List.take_takeWhile, List.length_take]
      split <;> omega

/-- A number alone is read to its end. -/
lemma numberLength_take (cs : List Char) : numberLength (cs.take (numberLength cs)) = numberLength cs := by
  have whole : numberLength (cs.take (digitRun cs)) = digitRun cs := by
    simp [numberLength, digitRun_take]
  rcases behind : cs.drop (digitRun cs) with _ | ⟨c, rest⟩
  · simpa [numberLength, behind] using whole
  · by_cases fraction : c = '.' ∧ digitRun rest ≠ 0
    · obtain ⟨rfl, some⟩ := fraction
      have length : numberLength cs = digitRun cs + 1 + digitRun rest := by
        simp [numberLength, behind, some]
      have front : digitRun (cs.take (numberLength cs)) = digitRun cs := by
        rw [digitRun_take]
        omega
      have back : (cs.take (numberLength cs)).drop (digitRun cs) = '.' :: rest.take (digitRun rest) := by
        rw [List.drop_take, behind, length, Nat.add_assoc, Nat.add_sub_cancel_left, Nat.add_comm 1, List.take_succ_cons]
      rw [numberLength, front, back]
      simp [digitRun_take, some, length]
    · have length : numberLength cs = digitRun cs := by
        rw [numberLength, behind]
        split
        · next same => simp_all
        · rfl
      rw [length, whole]

/-- A string literal is read no further than its closing quote. -/
lemma textBody?_take {cs value : List Char} {n : Nat} (h : textBody? cs = some (value, n)) :
    textBody? (cs.take (n + 1)) = some (value, n) := by
  fun_induction textBody? cs generalizing value n with
  | case1 => cases h
  | case2 =>
    cases h
    rfl
  | case3 => cases h
  | case4 c cs d found ih =>
    obtain ⟨⟨v, m⟩, read, same⟩ := Option.map_eq_some_iff.1 h
    cases same
    simp [textBody?, found, ih read]
  | case5 => cases h
  | case6 c cs quote last escape ih =>
    obtain ⟨⟨v, m⟩, read, same⟩ := Option.map_eq_some_iff.1 h
    cases same
    rw [List.take_succ_cons, textBody?, ih read]
    · rfl
    · exact quote
    · rintro rfl none
      exact last rfl ((List.take_eq_nil_iff.1 none).resolve_left (Nat.succ_ne_zero _))
    · rintro d ds rfl front
      rcases cs with _ | ⟨e, es⟩
      · cases front
      · exact escape e es rfl rfl

/-- A symbol is the first that its own spelling begins with. -/
lemma symbol?_self : ∀ m ∈ Mark.symbols, symbol? (markChars m) = some m := by
  decide

/-- A token is the first lexeme of its own text. -/
lemma lexeme_token {c : Char} {cs : List Char} {kind : Kind} {n : Nat} (h : lexeme c cs = (.token kind, n)) :
    lexeme c (cs.take (n - 1)) = (.token kind, n) := by
  have comment {d : Char} (h : ¬(c = '/' && cs.head? = some d) = true) :
      ¬(c = '/' && (cs.take (n - 1)).head? = some d) = true := by
    rw [List.head?_take]
    split
    · simp
    · exact h
  unfold lexeme at h ⊢
  split at h
  · cases h
  next line =>
  split at h
  · cases h
  next blank =>
  split at h
  · cases h
  next slashes =>
  split at h
  · split at h <;> cases h
  next star =>
  rw [if_neg line, if_neg blank, if_neg (comment slashes), if_neg (comment star)]
  split at h
  · next digit =>
    cases h
    have text : c :: cs.take (numberLength (c :: cs) - 1) = (c :: cs).take (numberLength (c :: cs)) := by
      obtain ⟨m, length⟩ := Nat.exists_eq_add_of_lt (numberLength_pos cs digit)
      simp [length]
    simp [digit, text, numberLength_take, List.take_take]
  next digit =>
  rw [if_neg digit]
  split at h
  · next quote =>
    split at h
    · next value m body =>
      cases h
      simp [quote, textBody?_take body]
    · cases h
  next quote =>
  rw [if_neg quote]
  split at h
  · next start =>
    cases h
    have word : (cs.take (cs.takeWhile Text.isNameRest).length).takeWhile Text.isNameRest =
        cs.takeWhile Text.isNameRest := by
      rw [← List.take_takeWhile, List.take_length]
    simp [start, word]
  next start =>
  rw [if_neg start]
  split at h
  · next mark found =>
    cases h
    have text : c :: cs.take ((markChars mark).length - 1) = markChars mark := by
      have front := List.prefix_iff_eq_take.1 (symbol?_isPrefix found)
      obtain ⟨m, length⟩ := Nat.exists_eq_add_of_lt (List.length_pos_iff.2 (markChars_ne_nil mark))
      rw [front]
      simp [length]
    rw [text, symbol?_self mark (List.mem_of_find?_eq_some found)]
  · cases h

/-- Blanks and comments, with the text behind them. A comment that ends with its line reaches to the next line or to the
end of the text, any other to where it is closed first. -/
inductive Gap : List Char → List Char → Prop where
  | nil {behind} :
    Gap [] behind
  | blank {c rest behind} :
    Text.isBlank c = true →
    Gap rest behind →
    Gap (c :: rest) behind
  | line {body rest behind} :
    '\n' ∉ body →
    (∀ c ∈ (rest ++ behind).head?, c = '\n') →
    Gap rest behind →
    Gap (['/', '/'] ++ body ++ rest) behind
  | block {body rest behind} :
    ¬['*', '/'] <:+: body →
    Gap rest behind →
    Gap (['/', '*'] ++ body ++ ['*', '/'] ++ rest) behind

/-- What a lexeme is, by its characters and the text behind it: a gap of its own, a token that is read from its
characters alone, or none of these. -/
inductive Begins : Piece → List Char → List Char → Prop where
  | newline {behind} :
    Begins .newline ['\n'] behind
  | blank {c behind} :
    c ≠ '\n' →
    Text.isBlank c = true →
    Begins .blank [c] behind
  | line {body behind} :
    '\n' ∉ body →
    (∀ c ∈ behind.head?, c = '\n') →
    Begins (.comment false) (['/', '/'] ++ body) behind
  | block {body behind} :
    ¬['*', '/'] <:+: body →
    Begins (.comment (body.contains '\n')) (['/', '*'] ++ body ++ ['*', '/']) behind
  | token {c cs kind behind} :
    lexeme c cs = (.token kind, cs.length + 1) →
    Begins (.token kind) (c :: cs) behind
  | stray {c behind} :
    Begins (.stray c) [c] behind
  | openComment {chars} :
    Begins .openComment chars []
  | openText {chars} :
    Begins .openText chars []

/-- The body of a closed comment ends where it is closed first. -/
lemma commentBody?_spec {cs : List Char} {n : Nat} (h : commentBody? cs = some n) :
    ∃ body behind, cs = body ++ ['*', '/'] ++ behind ∧ n = body.length ∧ ¬['*', '/'] <:+: body := by
  fun_induction commentBody? cs generalizing n with
  | case1 => cases h
  | case2 => cases h
  | case3 behind =>
    cases h
    exact ⟨[], behind, rfl, rfl, by simp⟩
  | case4 c cs last closes ih =>
    obtain ⟨m, found, rfl⟩ := Option.map_eq_some_iff.1 h
    obtain ⟨body, behind, rfl, rfl, inside⟩ := ih found
    refine ⟨c :: body, behind, by simp, rfl, ?_⟩
    rw [List.infix_cons_iff, not_or]
    refine ⟨fun front => ?_, inside⟩
    obtain ⟨rfl, slash⟩ := List.cons_prefix_cons.1 front
    obtain ⟨rest, text⟩ := slash.trans (List.prefix_append body (['*', '/'] ++ behind))
    exact closes rest rfl (by simpa using text.symm)

/-- The body of a comment that ends with its line reaches to the next line or to the end of the text. -/
lemma lineBody_spec (cs : List Char) :
    ∃ body behind, cs = body ++ behind ∧ (cs.takeWhile (· != '\n')).length = body.length ∧ '\n' ∉ body ∧
      ∀ c ∈ behind.head?, c = '\n' := by
  refine ⟨cs.takeWhile (· != '\n'), cs.dropWhile (· != '\n'), List.takeWhile_append_dropWhile.symm, rfl, ?_, ?_⟩
  · intro inside
    simpa using List.mem_takeWhile_imp inside
  · intro c front
    have := List.head?_dropWhile_not (· != '\n') cs
    simpa [Option.mem_def.1 front] using this

/-- The first lexeme of a text, in front of what is left. -/
lemma lexeme_begins {c : Char} {cs : List Char} {piece : Piece} {n : Nat} (h : lexeme c cs = (piece, n)) :
    Begins piece ((c :: cs).take n) ((c :: cs).drop n) := by
  have token {kind : Kind} (h : lexeme c cs = (.token kind, n)) :
      Begins (.token kind) ((c :: cs).take n) ((c :: cs).drop n) := by
    have pos : 0 < n := by simpa [h] using lexeme_length_pos c cs
    have le : n ≤ cs.length + 1 := by simpa [h] using lexeme_length_le c cs
    obtain ⟨m, rfl⟩ := Nat.exists_eq_add_of_lt pos
    have length : (cs.take (0 + m)).length + 1 = 0 + m + 1 := by
      rw [List.length_take]
      omega
    exact .token (length ▸ lexeme_token h)
  have h' := h
  unfold lexeme at h'
  split at h'
  · next line =>
    cases h'
    exact line ▸ .newline
  split at h'
  · next line blank =>
    cases h'
    exact .blank line blank
  split at h'
  · next slashes =>
    cases h'
    obtain ⟨rfl, rest, rfl⟩ : c = '/' ∧ ∃ rest, cs = '/' :: rest := by
      cases cs <;> simp_all
    obtain ⟨body, behind, rfl, length, inside, ends⟩ := lineBody_spec rest
    simpa [length, Nat.add_comm 1] using Begins.line inside ends
  split at h'
  · next star =>
    obtain ⟨rfl, rest, rfl⟩ : c = '/' ∧ ∃ rest, cs = '*' :: rest := by
      cases cs <;> simp_all
    split at h'
    · next length found =>
      cases h'
      obtain ⟨body, behind, rfl, rfl, inside⟩ := commentBody?_spec found
      have chars : (body ++ '*' :: '/' :: behind).take (body.length + 2) = body ++ ['*', '/'] := by
        rw [List.take_length_add_append]
        rfl
      simpa [chars] using Begins.block inside
    · cases h'
      simpa [Nat.add_comm 1] using Begins.openComment
  split at h'
  · cases h'
    exact token h
  split at h'
  · split at h'
    · cases h'
      exact token h
    · cases h'
      simpa [Nat.add_comm 1] using Begins.openText
  split at h'
  · cases h'
    exact token h
  split at h'
  · cases h'
    exact token h
  · cases h'
    exact .stray

/-- The tokens of the text from an offset on, one after another with gaps between them; `fresh` says whether the first
of them opens a line even if there is no new line in front of it. -/
inductive Cut : Nat → Bool → List Char → List Token → Prop where
  | finish {offset fresh gap opens} :
    Gap gap [] →
    (opens = true ↔ fresh = true ∨ '\n' ∈ gap) →
    Cut offset fresh gap [⟨.finish, ⟨offset + byteCount gap, offset + byteCount gap⟩, opens⟩]
  | token {offset fresh gap c cs rest kind opens tokens} :
    Gap gap (c :: cs ++ rest) →
    lexeme c cs = (.token kind, cs.length + 1) →
    (opens = true ↔ fresh = true ∨ '\n' ∈ gap) →
    Cut (offset + byteCount gap + byteCount (c :: cs)) false rest tokens →
    Cut offset fresh (gap ++ (c :: cs) ++ rest)
      (⟨kind, ⟨offset + byteCount gap, offset + byteCount gap + byteCount (c :: cs)⟩, opens⟩ :: tokens)

/-- What makes a longer gap of every gap behind it is part of the gap before the next token. -/
lemma Cut.skip {offset : Nat} {fresh fresh' : Bool} {front cs : List Char} {tokens : List Token}
    (h : Cut (offset + byteCount front) fresh' cs tokens)
    (more : ∀ gap behind, cs = gap ++ behind → Gap gap behind → Gap (front ++ gap) behind)
    (opens : fresh' = true ↔ fresh = true ∨ '\n' ∈ front) : Cut offset fresh (front ++ cs) tokens := by
  cases h with
  | finish gap first =>
    rw [Nat.add_assoc, ← byteCount_append]
    exact .finish (more _ [] (by simp) gap) (by rw [first, opens, List.mem_append, or_assoc])
  | token gap alone first rest =>
    rw [Nat.add_assoc offset, ← byteCount_append] at rest ⊢
    rw [← List.append_assoc, ← List.append_assoc]
    exact .token (more _ _ (by simp) gap) alone (by rw [first, opens, List.mem_append, or_assoc]) rest

/-- Lexemes without a fault cut their text. -/
lemma place_cut {cs : List Char} {offset : Nat} {fresh : Bool} (sound : (place offset fresh (lexemes cs)).errors = []) :
    Cut offset fresh cs (place offset fresh (lexemes cs)).tokens := by
  fun_induction lexemes cs generalizing offset fresh with
  | case1 => simpa [place, byteCount] using @Cut.finish offset fresh [] fresh .nil (by simp)
  | case2 c cs piece n first ih =>
    have pos : 0 < n := by simpa [first] using lexeme_length_pos c cs
    have left : (c :: cs).drop n = cs.drop (n - 1) := by
      obtain ⟨m, rfl⟩ := Nat.exists_eq_add_of_lt pos
      simp
    have begins := lexeme_begins first
    have text : (c :: cs).take n ++ cs.drop (n - 1) = c :: cs := by rw [← left, List.take_append_drop]
    rw [left] at begins
    suffices h : Cut offset fresh ((c :: cs).take n ++ cs.drop (n - 1))
        (place offset fresh ((piece, (c :: cs).take n) :: lexemes (cs.drop (n - 1)))).tokens by
      rwa [text] at h
    generalize (c :: cs).take n = chars at begins sound ⊢
    generalize cs.drop (n - 1) = behind at begins sound ih ⊢
    cases begins with
    | newline =>
      exact (ih sound).skip (fun gap _ _ inside => .blank (by decide) inside) (by simp)
    | blank other blank =>
      exact (ih sound).skip (fun gap _ _ inside => .blank blank inside) (by simp [Ne.symm other])
    | line inside ends =>
      exact (ih sound).skip (fun gap _ text rest => .line inside (text ▸ ends) rest) (by simp [inside])
    | block inside =>
      exact (ih sound).skip (fun gap _ _ rest => .block inside rest) (by simp)
    | token alone =>
      exact .token .nil alone (by simp) (ih sound)
    | stray => cases sound
    | openComment => cases sound
    | openText => cases sound

/-- Where the last of some tokens ends, and a given offset if there is none. -/
def endOf (offset : Nat) : List Token → Nat
  | [] => offset
  | t :: rest => endOf t.span.stop rest

/-- A text has the given characters at a span, and others behind it. -/
def Spells (source : String) (span : Span) (chars behind : List Char) : Prop :=
  ∃ before, source.toList = before ++ chars ++ behind ∧
    byteCount before = span.start ∧ span.start + byteCount chars = span.stop

variable {source : String} {offset : Nat} {fresh : Bool} {before cs : List Char} {tokens : List Token}

/-- In front of every token of a cut text there is a gap, which says whether the token opens a line. -/
lemma Cut.gaps (h : Cut offset fresh cs tokens) (text : source.toList = before ++ cs)
    (start : byteCount before = offset) :
    ∀ front t rest, tokens = front ++ t :: rest →
      ∃ gap behind, Spells source ⟨endOf offset front, t.span.start⟩ gap behind ∧ Gap gap behind ∧
        (t.opensLine = true ↔ front = [] ∧ fresh = true ∨ '\n' ∈ gap) := by
  induction h generalizing before with
  | finish gap opens =>
    intro front t rest same
    obtain ⟨rfl, same⟩ : front = [] ∧ _ := List.singleton_eq_append_iff.1 same |>.resolve_right (by simp)
    cases same
    exact ⟨_, [], ⟨before, by simpa using text, start, rfl⟩, gap, by simpa using opens⟩
  | @token offset fresh gap c cs behind kind opens tokens blank alone first tail ih =>
    intro front t rest same
    rcases front with _ | ⟨first, front⟩
    · cases same
      exact ⟨_, _, ⟨before, by simpa using text, start, rfl⟩, blank, by simpa using first⟩
    · cases same
      have text' : source.toList = (before ++ gap ++ c :: cs) ++ behind := by simpa using text
      have start' : byteCount (before ++ gap ++ c :: cs) = offset + byteCount gap + byteCount (c :: cs) := by
        simp only [byteCount_append, start]
      obtain ⟨gap', behind', spells, blank', first'⟩ := ih text' start' front t rest rfl
      exact ⟨gap', behind', spells, blank', by simpa using first'⟩

/-- The text of one token alone is scanned to the token. -/
lemma scan_alone {c : Char} {cs : List Char} {kind : Kind} (h : lexeme c cs = (.token kind, cs.length + 1)) :
    scan (String.ofList (c :: cs)) = .ok [⟨kind, ⟨0, byteCount (c :: cs)⟩, true⟩,
      ⟨.finish, ⟨byteCount (c :: cs), byteCount (c :: cs)⟩, false⟩] := by
  have one : lexemes (c :: cs) = [(.token kind, c :: cs)] := by
    rw [lexemes, h]
    simp [lexemes]
  simp [scan, one, place]

/-- All tokens of a cut text but the last have characters, and are what these are alone. -/
lemma Cut.texts (h : Cut offset fresh cs tokens) (text : source.toList = before ++ cs)
    (start : byteCount before = offset) :
    ∃ front opens, tokens = front ++ [⟨.finish, ⟨offset + byteCount cs, offset + byteCount cs⟩, opens⟩] ∧
      ∀ t ∈ front, t.span.start < t.span.stop ∧ ∃ chars behind, Spells source t.span chars behind ∧
        scan (String.ofList chars) = .ok [⟨t.kind, ⟨0, byteCount chars⟩, true⟩,
          ⟨.finish, ⟨byteCount chars, byteCount chars⟩, false⟩] := by
  induction h generalizing before with
  | finish => exact ⟨[], _, rfl, by simp⟩
  | @token offset fresh gap c cs behind kind opens tokens _ alone _ _ ih =>
    have text' : source.toList = (before ++ gap ++ c :: cs) ++ behind := by simpa using text
    have start' : byteCount (before ++ gap ++ c :: cs) = offset + byteCount gap + byteCount (c :: cs) := by
      simp only [byteCount_append, start]
    obtain ⟨front, opens', rfl, all⟩ := ih text' start'
    have own : Spells source ⟨offset + byteCount gap, offset + byteCount gap + byteCount (c :: cs)⟩ (c :: cs) behind :=
      ⟨before ++ gap, by simpa using text, by rw [byteCount_append, start], rfl⟩
    have pos : 0 < byteCount (c :: cs) := byteCount_pos (List.cons_ne_nil c cs)
    refine ⟨⟨kind, _, opens⟩ :: front, opens', ?_,
      List.forall_mem_cons.2 ⟨⟨?_, c :: cs, behind, own, scan_alone alone⟩, all⟩⟩
    · simp only [byteCount_append, List.cons_append, Nat.add_assoc]
    · show offset + byteCount gap < offset + byteCount gap + byteCount (c :: cs)
      omega

/-- Tokens in order come behind where they may begin. -/
lemma InOrder.all_behind {lo : Nat} (h : InOrder lo tokens) : ∀ t ∈ tokens, lo ≤ t.span.start := by
  induction h with
  | nil => simp
  | cons le proper _ _ _ ih =>
    exact List.forall_mem_cons.2 ⟨le, fun t member => Nat.le_trans (Nat.le_trans le proper) (ih t member)⟩

/-- Of two tokens in order the second begins where the first ends, or behind it. -/
lemma InOrder.pairwise {lo : Nat} (h : InOrder lo tokens) :
    tokens.Pairwise fun s t => s.span.stop ≤ t.span.start := by
  induction h with
  | nil => exact .nil
  | cons _ _ _ _ rest ih => exact .cons rest.all_behind ih

/-- The loop over a text makes no more rounds than the text has characters. -/
lemma lexemes_length_le (cs : List Char) : (lexemes cs).length ≤ cs.length := by
  fun_induction lexemes cs with
  | case1 => simp
  | case2 c cs piece n first ih =>
    have pos : 0 < n := by simpa [first] using lexeme_length_pos c cs
    simp only [List.length_cons, List.length_drop] at ih ⊢
    omega

/-- Scanning ends after at most one round for each character. If it finds nothing wrong, the tokens of a text are those
of its characters that are in no gap: they follow one another between edges of the text, each with a text of its own that
is scanned to it alone, and in front of each of them, the end of the text included, there is a gap. -/
theorem scan_partition (source : String) :
    (lexemes source.toList).length ≤ source.toList.length ∧
    ∀ tokens, scan source = .ok tokens →
      (∃ front opens, tokens = front ++ [⟨.finish, ⟨source.utf8ByteSize, source.utf8ByteSize⟩, opens⟩] ∧
        ∀ t ∈ front, t.span.start < t.span.stop ∧ ∃ chars behind, Spells source t.span chars behind ∧
          scan (String.ofList chars) = .ok [⟨t.kind, ⟨0, byteCount chars⟩, true⟩,
            ⟨.finish, ⟨byteCount chars, byteCount chars⟩, false⟩]) ∧
      (tokens.Pairwise fun s t => s.span.stop ≤ t.span.start) ∧
      (∀ t ∈ tokens, Edge source t.span.start ∧ Edge source t.span.stop) ∧
      ∀ front t rest, tokens = front ++ t :: rest →
        ∃ gap behind, Spells source ⟨endOf 0 front, t.span.start⟩ gap behind ∧ Gap gap behind ∧
          (t.opensLine = true ↔ front = [] ∨ '\n' ∈ gap) := by
  refine ⟨lexemes_length_le _, fun tokens scanned => ?_⟩
  have cut : Cut 0 true source.toList tokens := by
    simp only [scan] at scanned
    split at scanned
    · next sound =>
      cases scanned
      exact place_cut (List.isEmpty_iff.1 sound)
    · cases scanned
  have size : byteCount source.toList = source.utf8ByteSize := by
    rw [byteCount_eq, String.ofList_toList]
  have text : source.toList = [] ++ source.toList := rfl
  refine ⟨?_, (scan_inOrder scanned).pairwise, scan_edges scanned, ?_⟩
  · simpa [size] using cut.texts text rfl
  · simpa using cut.gaps text rfl

/-- A text between comments, one of them over two lines. -/
theorem scan_partition_commented :
    scan "a /* \n */ \"x // y\" // b\n..=\n" = .ok [⟨.identifier "a", ⟨0, 1⟩, true⟩, ⟨.text "x // y", ⟨10, 18⟩, true⟩,
      ⟨.mark .dotDotEq, ⟨24, 27⟩, true⟩, ⟨.finish, ⟨28, 28⟩, true⟩] ∧
    ∃ gap behind, Spells "a /* \n */ \"x // y\" // b\n..=\n" ⟨1, 10⟩ gap behind ∧ Gap gap behind ∧ '\n' ∈ gap := by
  have scanned : scan "a /* \n */ \"x // y\" // b\n..=\n" = .ok [⟨.identifier "a", ⟨0, 1⟩, true⟩,
      ⟨.text "x // y", ⟨10, 18⟩, true⟩, ⟨.mark .dotDotEq, ⟨24, 27⟩, true⟩, ⟨.finish, ⟨28, 28⟩, true⟩] := by
    cbv
  obtain ⟨-, -, -, gaps⟩ := (scan_partition _).2 _ scanned
  obtain ⟨gap, behind, spells, blank, opens⟩ := gaps [_] _ _ rfl
  exact ⟨scanned, gap, behind, spells, blank, by simpa using opens⟩

end PipeLang.Token
