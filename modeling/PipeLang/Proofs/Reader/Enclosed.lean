import PipeLang.Proofs.Reader.Further
import PipeLang.Proofs.Reader.Opening
import PipeLang.Proofs.Reader.Precedence
import PipeLang.Proofs.Token.Word

/-!
# Expressions in parentheses

Parentheses leave no node. An expression in parentheses is the first stage of the chain behind them, whatever the expression
is by itself, and may be tagged as a whole: `Expr.parse_enclosed_chain` and `Expr.parse_enclosed_tag`. Only a loop is not
closed by them, since it is told from other stages by its expression alone: `Expr.parse_enclosed_loop`.
-/

namespace PipeLang

/-! ### Lexemes around a text -/

namespace Token

variable {cs more : List Char}

/-- A text that is a name and no keyword. -/
structure IsIdentifier (name : String) : Prop where
  isName : Text.isName name.toList = true
  kind : ofWord name.toList = .identifier name

lemma lexemes_blank : lexemes (' ' :: cs) = (.blank, [' ']) :: lexemes cs := by
  simp [lexemes, lexeme, Text.isBlank, Text.blankRanges]

lemma lexemes_leftParen : lexemes ('(' :: cs) = (.token (.mark .leftParen), ['(']) :: lexemes cs := by
  have first : lexeme '(' cs = (.token (.mark .leftParen), 1) := rfl
  rw [lexemes, first]
  rfl

lemma lexemes_rightParen : lexemes (')' :: cs) = (.token (.mark .rightParen), [')']) :: lexemes cs := by
  have first : lexeme ')' cs = (.token (.mark .rightParen), 1) := rfl
  rw [lexemes, first]
  rfl

lemma lexemes_pipe : lexemes ('|' :: '>' :: cs) = (.token (.mark .pipe), ['|', '>']) :: lexemes cs := by
  have first : lexeme '|' ('>' :: cs) = (.token (.mark .pipe), 2) := rfl
  rw [lexemes, first]
  rfl

lemma byteCount_one {c : Char} (ascii : c.utf8Size = 1) : byteCount [c] = 1 := by
  simp [byteCount, ascii]

/-- A text in parentheses, with more behind them: between the parentheses are its tokens, further on by the opening one. -/
lemma scan_enclosed {source more : String} {front : List Token} {last : Token} (scanned : scan source = .ok (front ++ [last]))
    (some : front ≠ []) (sound : ∀ p ∈ lexemes more.toList, p.1.Sound) :
    ∃ opens, scan ("(" ++ source ++ "\n) " ++ more) = .ok (⟨.mark .leftParen, ⟨0, 1⟩, true⟩ ::
      reopen opens (front.map (shift 1) ++ ⟨.mark .rightParen, ⟨source.utf8ByteSize + 2, source.utf8ByteSize + 3⟩, true⟩ ::
        (place (source.utf8ByteSize + 4) false (lexemes more.toList)).tokens)) := by
  obtain ⟨sound₁, placed⟩ := scan_eq_ok.1 scanned
  have text : ("(" ++ source ++ "\n) " ++ more).toList = '(' :: (source.toList ++ '\n' :: ')' :: ' ' :: more.toList) := by
    simp [String.toList_append]
  have all : lexemes ('(' :: (source.toList ++ '\n' :: ')' :: ' ' :: more.toList)) = _ :=
    lexemes_leftParen.trans (congrArg _ (lexemes_append sound₁))
  rw [lexemes_newline, lexemes_rightParen, lexemes_blank] at all
  obtain ⟨tokens, errors, opens, both⟩ := place_append 1 false (lexemes source.toList)
  obtain ⟨opens', fresh⟩ := place_fresh 0 (lexemes source.toList)
  -- the tokens of the text are the same but for where they stand and whether the first of them opens a line
  obtain ⟨t, front, rfl⟩ := List.exists_cons_of_ne_nil some
  obtain rfl : tokens = reopen opens' ((t :: front).map (shift 1)) := by
    have inner : (place (0 + 1) false (lexemes source.toList)).tokens = (reopen opens' (t :: front ++ [last])).map (shift 1) := by
      rw [place_shift, fresh, placed]
    have whole := both []
    rw [List.append_nil] at whole
    rw [Nat.zero_add, whole, List.cons_append, reopen, List.map_cons, List.map_append, ← List.cons_append] at inner
    exact (List.append_inj' inner rfl).1
  have size : 1 + byteCount ((lexemes source.toList).flatMap Prod.snd) = source.utf8ByteSize + 1 := by
    rw [lexemes_flatten, byteCount_eq, String.ofList_toList, Nat.add_comm]
  rw [size] at both
  refine ⟨opens', scan_eq_ok.2 ⟨?_, ?_⟩⟩
  · rw [text, all]
    simp only [List.forall_mem_cons, List.forall_mem_append]
    exact ⟨trivial, sound₁, trivial, trivial, trivial, sound⟩
  · have newline : byteCount ['\n'] = 1 := byteCount_one rfl
    have blank : byteCount [' '] = 1 := byteCount_one rfl
    have closing : byteCount [')'] = 1 := byteCount_one rfl
    rw [text, all, place, byteCount_one rfl, both]
    simp [place, newline, blank, closing, reopen, Nat.add_assoc]

/-- A name in front of a blank and more is one token. -/
lemma scan_named {name more : String} {tokens : List Token} (identifier : IsIdentifier name)
    (scanned : scan (name ++ " " ++ more) = .ok tokens) : (∀ p ∈ lexemes more.toList, p.1.Sound) ∧
      tokens = ⟨.identifier name, ⟨0, name.utf8ByteSize⟩, true⟩ ::
        (place (name.utf8ByteSize + 1) false (lexemes more.toList)).tokens := by
  obtain ⟨sound, rfl⟩ := scan_eq_ok.1 scanned
  have text : (name ++ " " ++ more).toList = name.toList ++ ' ' :: more.toList := by simp [String.toList_append]
  have all : lexemes (name.toList ++ ' ' :: more.toList) = _ := lexemes_word identifier.isName (by simp; decide)
  rw [text, all, lexemes_blank] at sound ⊢
  have blank : byteCount [' '] = 1 := byteCount_one rfl
  have size : byteCount name.toList = name.utf8ByteSize := by rw [byteCount_eq, String.ofList_toList]
  simp only [List.forall_mem_cons] at sound
  refine ⟨sound.2.2, ?_⟩
  simp [place, identifier.kind, blank, size]

lemma lexemes_piped (text : String) : lexemes ("|> " ++ text).toList =
    (.token (.mark .pipe), ['|', '>']) :: (.blank, [' ']) :: lexemes text.toList := by
  have chars : ("|> " ++ text).toList = '|' :: '>' :: ' ' :: text.toList := by simp [String.toList_append]
  rw [chars, lexemes_pipe, lexemes_blank]

lemma sound_pipe {text : String} {tokens : List Token} (scanned : scan text = .ok tokens) :
    ∀ p ∈ lexemes ("|> " ++ text).toList, p.1.Sound := by
  rw [lexemes_piped, List.forall_mem_cons, List.forall_mem_cons]
  exact ⟨trivial, trivial, (scan_eq_ok.1 scanned).1⟩

/-- The mark between stages, and what comes behind it. -/
lemma place_pipe (offset : Nat) (text : String) : (place offset false (lexemes ("|> " ++ text).toList)).tokens =
    ⟨.mark .pipe, ⟨offset, offset + 2⟩, false⟩ :: (place (offset + 3) false (lexemes text.toList)).tokens := by
  have size : byteCount ['|', '>'] = 2 := by decide
  have blank : byteCount [' '] = 1 := byteCount_one rfl
  rw [lexemes_piped]
  simp [place, size, blank]

lemma lexemes_as {name : String} (identifier : IsIdentifier name) : lexemes ("as " ++ name).toList =
    [(.token (.mark .kwAs), ['a', 's']), (.blank, [' ']), (.token (.identifier name), name.toList)] := by
  have chars : ("as " ++ name).toList = ['a', 's'] ++ ' ' :: (name.toList ++ []) := by simp [String.toList_append]
  have keyword : ofWord ['a', 's'] = .mark .kwAs := by cbv
  rw [chars, lexemes_word (by decide) (by simp; decide), lexemes_blank, lexemes_word identifier.isName (by simp), keyword,
    identifier.kind, lexemes]

lemma sound_as {name : String} (identifier : IsIdentifier name) : ∀ p ∈ lexemes ("as " ++ name).toList, p.1.Sound := by
  rw [lexemes_as identifier]
  simp [Piece.Sound]

/-- A tag and the end of the text. -/
lemma place_as {name : String} (identifier : IsIdentifier name) (offset : Nat) :
    (place offset false (lexemes ("as " ++ name).toList)).tokens =
      [⟨.mark .kwAs, ⟨offset, offset + 2⟩, false⟩,
        ⟨.identifier name, ⟨offset + 3, offset + 3 + name.utf8ByteSize⟩, false⟩,
        ⟨.finish, ⟨offset + 3 + name.utf8ByteSize, offset + 3 + name.utf8ByteSize⟩, false⟩] := by
  have size : byteCount ['a', 's'] = 2 := by decide
  have blank : byteCount [' '] = 1 := byteCount_one rfl
  have whole : byteCount name.toList = name.utf8ByteSize := by rw [byteCount_eq, String.ofList_toList]
  rw [lexemes_as identifier]
  simp [place, size, blank, whole]

/-- What continues neither an operand nor a chain of operators, and makes no function literal of what is in parentheses in
front of it. -/
structure Apart (t : Token) : Prop extends t.Ends where
  arrow : t.isMark .arrow = false
  fatArrow : t.isMark .fatArrow = false

lemma apart_pipe {span : Span} {opens : Bool} : Apart ⟨.mark .pipe, span, opens⟩ :=
  ⟨⟨⟨rfl, fun _ => rfl, fun _ => rfl⟩, rfl⟩, rfl, rfl⟩

lemma apart_as {span : Span} {opens : Bool} : Apart ⟨.mark .kwAs, span, opens⟩ :=
  ⟨⟨⟨rfl, fun _ => rfl, fun _ => rfl⟩, rfl⟩, rfl, rfl⟩

end Token

namespace Form

open Reader

variable {front after : List Token} {last opening closing t : Token} {opens : Bool} {n r : Nat} {e : Expr}
variable {c c' : Cursor} {s s' : Stage} {stages : List Stage}

/-- What neither a sign stands before nor anything continues is an operand by itself. -/
lemma reads_operand (minus : c.isAt .minus = false) (bang : c.isAt .bang = false)
    (first : Reads primary.whole c e ⟨t :: after, r⟩) (ends : t.Ends) : Reads (binary 0).whole c e ⟨t :: after, r⟩ := by
  have operand : Reads unary.whole c e ⟨t :: after, r⟩ := reads_unary minus bang first (ends.suffixes r)
  have behind : Reads (binaryAfter e 0).whole ⟨t :: after, r⟩ e ⟨t :: after, r⟩ :=
    reads_binaryAfter_stop (by simp [Cursor.next, ends.operator])
  exact reads_whole.2 (Grammar.reads_binary.2 ⟨e, _, operand, behind⟩)

/-- An expression is read in parentheses as it is by itself, but further on. -/
lemma reads_enclosed (finish : last.isFinish = true) (inside : ∀ t ∈ front, t.isFinish = false ∧ 0 < t.span.stop)
    (inner : Reads expression.whole ⟨front ++ [last], 0⟩ e c) (atEnd : c.atEnd = true)
    (opened : opening.kind = .mark .leftParen) (closed : closing.kind = .mark .rightParen) (apart : t.Apart) :
    Reads (binary 0).whole ⟨opening :: Token.reopen opens (front.map (Token.shift n) ++ closing :: t :: after), r⟩
      (e.shift n) ⟨t :: after, closing.span.stop⟩ := by
  have moved : Cursor.Moved n (closing :: t :: after) ⟨front ++ [last], 0⟩
      ⟨front.map (Token.shift n) ++ closing :: t :: after, opening.span.stop⟩ :=
    ⟨.of_front finish inside, ⟨_, _, rfl, .inr ⟨.rightParen, rfl, closed⟩⟩, nofun⟩
  obtain ⟨⟨rest, r'⟩, inner', moved'⟩ := (whole_follows expression inner).2 _ trivial moved
  obtain rfl : rest = closing :: t :: after := moved'.rest_of_atEnd atEnd
  have reopened : Reads expression.whole _ (e.shift n) _ := expression_heedless opens _ _ inner'
  rw [Cursor.reopen] at reopened
  generalize Token.reopen opens (front.map (Token.shift n) ++ closing :: t :: after) = ts at reopened ⊢
  have enclosed : Reads (Grammar.parenthesised Readers.whole) ⟨opening :: ts, r⟩ (e.shift n) ⟨t :: after, closing.span.stop⟩ := by
    refine Grammar.reads_parenthesised.2 ⟨?_, _, reopened, ?_, rfl⟩
    · simp [Cursor.isAt, Cursor.next, Token.isMark, opened]
    · simp [Cursor.isAt, Cursor.next, Token.isMark, closed]
  have noLambda : startsLambda 0 (opening :: ts) = false := by
    have found := Grammar.startsLambda_parenthesised (fun h => h) enclosed
    simpa [Cursor.isAt, Cursor.next, apart.fatArrow, apart.arrow] using found
  refine reads_operand ?_ ?_ ?_ apart.toEnds
  · simp [Cursor.isAt, Cursor.next, Token.isMark, opened]
  · simp [Cursor.isAt, Cursor.next, Token.isMark, opened]
  · refine reads_whole.2 (Grammar.reads_primary.2 ?_)
    simpa [Cursor.next, Token.literal?, opened, noLambda] using enclosed

/-- A name is a stage where nothing continues it. -/
lemma reads_namedStage {u : Token} {name : String} (kind : u.kind = .identifier name) (apart : t.Apart)
    (noTag : t.isMark .kwAs = false) : Reads (stage true).whole ⟨u :: t :: after, r⟩
      (.expr (.name ⟨name, u.span⟩) none u.span) ⟨t :: after, u.span.stop⟩ := by
  have untagged : Reads Grammar.tag? ⟨t :: after, u.span.stop⟩ none ⟨t :: after, u.span.stop⟩ := reads_noTag noTag
  refine reads_stage ?_ (reads_operand ?_ ?_ (Token.reads_name kind apart.toParts r) apart.toEnds)
    (reads_stageOf (by simp) untagged)
  all_goals simp [Cursor.isAt, Cursor.next, Token.isMark, kind]

/-- Behind `|>` comes a stage. -/
lemma exists_stage (h : Reads (stagesAfter s).whole c stages c') (noLoop : s.isLoop = false) (here : c.isAt .pipe = true) :
    ∃ second rest, stages = second :: rest := by
  obtain ⟨isLoop, -⟩ | ⟨-, ⟨-, second, c₁, -, rest, -, rfl⟩ | ⟨absent, -⟩⟩ := Grammar.reads_stagesAfter.1 (reads_whole.1 h)
  · simp [noLoop] at isLoop
  · exact ⟨second, rest, rfl⟩
  · simp [here] at absent

/-- What comes behind a stage does not depend on the stage, unless that is a loop. -/
lemma reads_stagesAfter_congr (same : s.isLoop = s'.isLoop) (h : Reads (stagesAfter s).whole c stages c') :
    Reads (stagesAfter s').whole c stages c' := by
  simpa only [reads_whole, Grammar.step, Grammar.stagesAfter, same] using h

/-- A tag is a name behind `as`. -/
lemma reads_tag {name : String} (here : c.isAt .kwAs = true) (named : c.advance.next.kind = .identifier name) :
    Reads Grammar.tag? c (some ⟨name, c.advance.next.span⟩) c.advance.advance := by
  have isName : c.advance.next.name? = some name := by simp [Token.name?, named]
  exact Grammar.reads_tag?.2 (.inl ⟨here, ⟨name, c.advance.next.span⟩, isName, rfl, rfl, rfl⟩)

end Form

namespace Expr

open Reader

variable {source text name : String} {e p : Expr} {n : Nat}

lemma shift_ne_loop (noLoop : ∀ l, e ≠ .loop l) (l : Loop) : e.shift n ≠ .loop l := by
  cases e with
  | loop l => exact absurd rfl (noLoop l)
  | _ => simp [shift]

lemma isLoop_of_ne {tag : Option Ident} {span : Span} (noLoop : ∀ l, e ≠ .loop l) : (Stage.expr e tag span).isLoop = false := by
  cases e with
  | loop l => exact absurd rfl (noLoop l)
  | _ => rfl

/-- A chain whose stages but the first stand further on ends further on. -/
lemma chainSpan_further {first first' second : Stage} {rest : List Stage} (start : first.span.start = 0)
    (start' : first'.span.start = 0) (stop : first'.span.stop = first.span.stop + n) :
    Grammar.chainSpan first' (Stage.allShift n (second :: rest)) =
      ⟨0, (Grammar.chainSpan first (second :: rest)).stop + n⟩ := by
  have last : (first' :: Stage.allShift n (second :: rest)).getLast (by simp) =
      ((first :: second :: rest).getLast (by simp)).shift n := by
    simp only [Stage.allShift_eq, List.map_cons, List.getLast_cons_cons]
    exact List.getLast_map (l := second :: rest) (List.cons_ne_nil _ _)
  simp [Grammar.chainSpan, Span.union, last, start, start', stop, Nat.add_max_add_right]

/-- A text in parentheses is read up to the closing one as the expression that the text is. -/
lemma enclosed_reads {u : Token} {after : List Token} (inner : parse source = .ok e)
    (sound : ∀ p ∈ Token.lexemes text.toList, p.1.Sound) (apart : u.Apart)
    (begins : (Token.place (source.utf8ByteSize + 4) false (Token.lexemes text.toList)).tokens = u :: after) :
    ∃ tokens, Token.scan ("(" ++ source ++ "\n) " ++ text) = .ok (⟨.mark .leftParen, ⟨0, 1⟩, true⟩ :: tokens) ∧
      Reads (Form.binary 0).whole ⟨⟨.mark .leftParen, ⟨0, 1⟩, true⟩ :: tokens, 0⟩ (e.shift 1)
        ⟨u :: after, source.utf8ByteSize + 3⟩ := by
  obtain ⟨tokens, c, scanned, read, atEnd⟩ := whole_of_parse inner
  obtain ⟨front, last, rfl, finish, inside⟩ := Token.scan_front scanned
  have some : front ≠ [] := by
    rintro rfl
    have solid := Form.solid_of_reads read rfl
    simp [Cursor.atEnd, Cursor.next, Token.isFinish_of_kind finish] at solid
  obtain ⟨opens, scanned'⟩ := Token.scan_enclosed scanned some sound
  rw [begins] at scanned'
  exact ⟨_, scanned', Form.reads_enclosed (Token.isFinish_of_kind finish) inside read atEnd rfl rfl apart⟩

/-- What comes behind a name and `|>` is read as the stages behind the name. -/
lemma named_reads (identifier : Token.IsIdentifier name) (chain : parse (name ++ " |> " ++ text) = .ok p) :
    (∀ p ∈ Token.lexemes ("|> " ++ text).toList, p.1.Sound) ∧ ∃ first second rest front last c,
      first = .expr (.name ⟨name, ⟨0, name.utf8ByteSize⟩⟩) none ⟨0, name.utf8ByteSize⟩ ∧
      p = .pipeline ⟨first :: second :: rest, Grammar.chainSpan first (second :: rest)⟩ ∧
      (Token.place (name.utf8ByteSize + 1) false (Token.lexemes ("|> " ++ text).toList)).tokens = front ++ [last] ∧
      last.kind = .finish ∧ (∀ t ∈ front, t.isFinish = false ∧ 0 < t.span.stop) ∧
      Reads (Form.stagesAfter first).whole ⟨front ++ [last], name.utf8ByteSize⟩ (second :: rest) c ∧ c.atEnd = true := by
  have cut : name ++ " |> " ++ text = name ++ " " ++ ("|> " ++ text) := by simp [← String.toList_inj, String.toList_append]
  rw [cut] at chain
  obtain ⟨tokens, c, scanned, read, atEnd⟩ := whole_of_parse chain
  obtain ⟨sound, rfl⟩ := Token.scan_named identifier scanned
  obtain ⟨front, last, tokens, finish, inside⟩ := Token.scan_front scanned
  have some : front ≠ [] := by
    rintro rfl
    rw [Token.place_pipe] at tokens
    cases tokens
  obtain ⟨t, front, rfl⟩ := List.exists_cons_of_ne_nil some
  have behind := (List.cons.inj tokens).2
  obtain ⟨s, c₁, stages, first, after, rfl⟩ := Form.reads_expression.1 read
  rw [Token.place_pipe] at first
  cases first.symm.trans (Form.reads_namedStage rfl Token.apart_pipe rfl)
  obtain ⟨second, rest, rfl⟩ := Form.exists_stage after rfl rfl
  rw [← Token.place_pipe, behind] at after
  exact ⟨sound, _, second, rest, front, last, c, rfl, rfl, behind, finish, (List.forall_mem_cons.1 inside).2, after, atEnd⟩

/-- An expression in parentheses is the first stage of the chain behind them, unless it is a loop: the stages behind it are
those that are read behind a name, further on by what stands in front of them. -/
theorem parse_enclosed_chain (inner : parse source = .ok e) (noLoop : ∀ l, e ≠ .loop l) (identifier : Token.IsIdentifier name)
    (short : name.utf8ByteSize ≤ source.utf8ByteSize + 3) (chain : parse (name ++ " |> " ++ text) = .ok p) :
    ∃ rest span, rest ≠ [] ∧
      p = .pipeline ⟨.expr (.name ⟨name, ⟨0, name.utf8ByteSize⟩⟩) none ⟨0, name.utf8ByteSize⟩ :: rest, span⟩ ∧
      parse ("(" ++ source ++ "\n) |> " ++ text) = .ok (.pipeline
        ⟨.expr (e.shift 1) none ⟨0, source.utf8ByteSize + 3⟩ ::
          Stage.allShift (source.utf8ByteSize + 3 - name.utf8ByteSize) rest,
          ⟨0, span.stop + (source.utf8ByteSize + 3 - name.utf8ByteSize)⟩⟩) := by
  obtain ⟨n, further⟩ := Nat.exists_eq_add_of_le short
  have cut : "(" ++ source ++ "\n) |> " ++ text = "(" ++ source ++ "\n) " ++ ("|> " ++ text) := by
    simp [← String.toList_inj, String.toList_append]
  rw [cut, Nat.sub_eq_of_eq_add' further]
  obtain ⟨sound, first, second, rest, front, last, c, rfl, rfl, behind, finish, inside, after, atEnd⟩ :=
    named_reads identifier chain
  -- what comes behind the parentheses is what comes behind the name
  have later : (Token.place (source.utf8ByteSize + 4) false (Token.lexemes ("|> " ++ text).toList)).tokens =
      front.map (Token.shift n) ++ [last.shift n] := by
    have there : source.utf8ByteSize + 4 = name.utf8ByteSize + 1 + n := by omega
    rw [there, Token.place_shift, behind, List.map_append, List.map_cons, List.map_nil]
  obtain ⟨tokens, scanned, enclosed⟩ := enclosed_reads inner sound Token.apart_pipe (Token.place_pipe _ text)
  rw [← Token.place_pipe, later] at enclosed
  obtain ⟨c', after', moved⟩ := (Form.whole_follows _ after).2
    ⟨front.map (Token.shift n) ++ [last.shift n], source.utf8ByteSize + 3⟩ trivial
    ⟨.of_front (Token.isFinish_of_kind finish) inside, ⟨_, _, rfl, .inl finish⟩, fun _ => further⟩
  have here : Cursor.isAt ⟨front.map (Token.shift n) ++ [last.shift n], source.utf8ByteSize + 3⟩ .kwAs = false := by
    rw [← later, Token.place_pipe]
    rfl
  have first := Form.reads_stage rfl enclosed (Form.reads_stageOf (shift_ne_loop noLoop) (Form.reads_noTag here))
  have whole := Form.reads_expression.2 ⟨_, _, _, first,
    Form.reads_stagesAfter_congr (by rw [Stage.isLoop_shift, isLoop_of_ne (shift_ne_loop noLoop)]; rfl) after', rfl⟩
  have atEnd' : c'.atEnd = true := by
    simp [Cursor.atEnd, Cursor.next, moved.rest_of_atEnd atEnd, Token.isFinish, finish]
  have span : Grammar.chainSpan (.expr (e.shift 1) none ⟨0, source.utf8ByteSize + 3⟩) (Stage.allShift n (second :: rest)) =
      ⟨0, (Grammar.chainSpan (.expr (.name ⟨name, ⟨0, name.utf8ByteSize⟩⟩) none ⟨0, name.utf8ByteSize⟩) (second :: rest)).stop + n⟩ :=
    chainSpan_further rfl rfl further
  refine ⟨second :: rest, _, List.cons_ne_nil second rest, rfl, ?_⟩
  rw [parse_of_reads scanned whole, if_pos atEnd', ← span]
  rfl

/-- An expression in parentheses may be tagged, unless it is a loop. -/
theorem parse_enclosed_tag (inner : parse source = .ok e) (noLoop : ∀ l, e ≠ .loop l) (identifier : Token.IsIdentifier name) :
    parse ("(" ++ source ++ "\n) as " ++ name) = .ok (.pipeline
      ⟨[.expr (e.shift 1) (some ⟨name, ⟨source.utf8ByteSize + 7, source.utf8ByteSize + 7 + name.utf8ByteSize⟩⟩)
          ⟨0, source.utf8ByteSize + 7 + name.utf8ByteSize⟩],
        ⟨0, source.utf8ByteSize + 7 + name.utf8ByteSize⟩⟩) := by
  have cut : "(" ++ source ++ "\n) as " ++ name = "(" ++ source ++ "\n) " ++ ("as " ++ name) := by
    simp [← String.toList_inj, String.toList_append]
  obtain ⟨tokens, scanned, enclosed⟩ :=
    enclosed_reads inner (Token.sound_as identifier) Token.apart_as (Token.place_as identifier _)
  have first := Form.reads_stage rfl enclosed (Form.reads_stageOf (shift_ne_loop noLoop) (Form.reads_tag rfl rfl))
  have whole := Form.reads_expression.2 ⟨_, _, [], first, Form.reads_noStages (.inr rfl), rfl⟩
  rw [cut]
  refine (parse_of_reads scanned whole).trans ((if_pos rfl).trans ?_)
  simp [Grammar.ofChain, Grammar.chainSpan, Span.union, Cursor.next, Cursor.advance, Stage.span]

/-- Behind a loop in parentheses the next token is refused. -/
lemma enclosed_refused {l : Loop} {u : Token} {after : List Token} (inner : parse source = .ok (.loop l))
    (sound : ∀ p ∈ Token.lexemes text.toList, p.1.Sound) (apart : u.Apart) (solid : u.isFinish = false)
    (begins : (Token.place (source.utf8ByteSize + 4) false (Token.lexemes text.toList)).tokens = u :: after) :
    parse ("(" ++ source ++ "\n) " ++ text) = .error [⟨.trailingInput, u.span⟩] := by
  obtain ⟨tokens, scanned, enclosed⟩ := enclosed_reads inner sound apart begins
  have taken : Reads (Grammar.stageOf 0 (.loop (l.shift 1))) ⟨u :: after, source.utf8ByteSize + 3⟩
      (.expr (.loop (l.shift 1)) none ⟨0, source.utf8ByteSize + 3⟩) ⟨u :: after, source.utf8ByteSize + 3⟩ :=
    Grammar.reads_stageOf.2 (.inl ⟨⟨_, rfl⟩, rfl, rfl⟩)
  have whole := Form.reads_expression.2 ⟨_, _, [], Form.reads_stage rfl enclosed taken, Form.reads_noStages (.inl rfl), rfl⟩
  rw [parse_of_reads scanned whole, if_neg (by simp [Cursor.atEnd, Cursor.next, solid])]
  rfl

/-- Parentheses do not close a loop: neither a stage nor a tag may come behind it. -/
theorem parse_enclosed_loop {l : Loop} {tokens : List Token} (inner : parse source = .ok (.loop l))
    (scanned : Token.scan text = .ok tokens) (identifier : Token.IsIdentifier name) :
    parse ("(" ++ source ++ "\n) |> " ++ text) =
        .error [⟨.trailingInput, ⟨source.utf8ByteSize + 4, source.utf8ByteSize + 6⟩⟩] ∧
      parse ("(" ++ source ++ "\n) as " ++ name) =
        .error [⟨.trailingInput, ⟨source.utf8ByteSize + 4, source.utf8ByteSize + 6⟩⟩] := by
  constructor
  · have cut : "(" ++ source ++ "\n) |> " ++ text = "(" ++ source ++ "\n) " ++ ("|> " ++ text) := by
      simp [← String.toList_inj, String.toList_append]
    rw [cut]
    exact enclosed_refused inner (Token.sound_pipe scanned) Token.apart_pipe rfl (Token.place_pipe _ text)
  · have cut : "(" ++ source ++ "\n) as " ++ name = "(" ++ source ++ "\n) " ++ ("as " ++ name) := by
      simp [← String.toList_inj, String.toList_append]
    rw [cut]
    exact enclosed_refused inner (Token.sound_as identifier) Token.apart_as rfl (Token.place_as identifier _)

example : parse "(for a as b |> c\n) |> d" = .error [⟨.trailingInput, ⟨19, 21⟩⟩] := by cbv

end Expr

end PipeLang
