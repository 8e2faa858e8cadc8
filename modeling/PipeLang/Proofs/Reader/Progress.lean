import Mathlib
import PipeLang.Proofs.Reader.Agree
import PipeLang.Reader

/-!
# Reading comes to an end

A depth and a number of rounds limit the reading of a text, and neither limit is ever met. Without a limit of depth the
readers of the grammar's forms are given by its recursion and by nothing else: `Form.whole_step` and `Form.whole_unique`.
Statement after statement, reading then takes a token for each statement and for each error until the text is at its end.
Main statement: `Module.parse_progress`.
-/

namespace PipeLang

namespace Form

variable {α : Type} {form : Form α} {c : Cursor}

/-- Readers at two depths do the same for all that weighs less than both. -/
lemma read_agree {depth depth' : Nat} (le : depth ≤ depth') :
    Readers.Agree depth (fun form => form.read depth) (fun form => form.read depth') := by
  induction depth generalizing depth' with
  | zero =>
    intro _ form c fits
    cases fits
  | succ depth ih =>
    intro _ form c fits
    cases depth' with
    | zero => exact absurd le (Nat.not_succ_le_zero depth)
    | succ depth' => exact Grammar.step_agree (ih (Nat.le_of_succ_le_succ le)) (Nat.le_of_lt_succ fits)

/-- The reader of a form where nesting has no limit. -/
def whole (form : Form α) : Reader α :=
  fun c => (form.read (depthFor c.rest.length)).run c

lemma whole_run : form.whole.run c = (form.read (depthFor c.rest.length)).run c := by
  simp only [whole, StateT.run]

/-- No text is nested more deeply than its tokens allow. -/
lemma rank_lt_depthFor (form : Form α) (c : Cursor) : 16 * c.rest.length + form.rank < depthFor c.rest.length := by
  have : form.rank ≤ 8 := by cases form <;> simp [rank]
  simp only [depthFor]
  omega

/-- At two depths that are both great enough, reading comes to the same. -/
lemma run_eq_run {depth depth' : Nat} (fits : 16 * c.rest.length + form.rank < depth)
    (fits' : 16 * c.rest.length + form.rank < depth') : (form.read depth).run c = (form.read depth').run c := by
  wlog le : depth ≤ depth' generalizing depth depth'
  · exact (this fits' fits (Nat.le_of_not_le le)).symm
  · cases read_agree le form c fits with
    | reads left right => exact left.trans right.symm
    | refuses left right => exact left.trans right.symm

/-- At a depth that is great enough, reading is as if nesting had no limit. -/
lemma run_eq_whole {depth : Nat} (fits : 16 * c.rest.length + form.rank < depth) :
    (form.read depth).run c = form.whole.run c := by
  rw [whole_run]
  exact run_eq_run fits (rank_lt_depthFor form c)

lemma agree_whole (depth : Nat) : Readers.Agree depth (fun form => form.read depth) (fun form => form.whole) := by
  intro _ form c fits
  cases read_agree (Nat.le_refl depth) form c fits with
  | reads left _ reaches fewer => exact .reads left ((run_eq_whole fits).symm.trans left) reaches fewer
  | refuses left _ reaches shallow => exact .refuses left ((run_eq_whole fits).symm.trans left) reaches shallow

/-- Where nesting has no limit a form is read by its reader over the readers of the forms inside it. -/
theorem whole_step (form : Form α) (c : Cursor) :
    form.whole.run c = (Grammar.step (fun inner => inner.whole) form).run c := by
  rw [← run_eq_whole (Nat.lt_succ_self _)]
  cases Grammar.step_agree (agree_whole _) (Nat.le_refl (16 * c.rest.length + form.rank)) with
  | reads left right => exact left.trans right.symm
  | refuses left right => exact left.trans right.symm

/-- There is only one way to read so. -/
theorem whole_unique {read : Readers}
    (recursion : ∀ {α : Type} (form : Form α) (c : Cursor), (read form).run c = (Grammar.step read form).run c)
    (form : Form α) (c : Cursor) : (read form).run c = form.whole.run c := by
  have agree (depth : Nat) : Readers.Agree depth (fun form => form.read depth) read := by
    induction depth with
    | zero =>
      intro _ form c fits
      cases fits
    | succ depth ih =>
      intro _ form c fits
      cases Grammar.step_agree ih (Nat.le_of_lt_succ fits) with
      | reads left right reaches fewer => exact .reads left ((recursion form c).trans right) reaches fewer
      | refuses left right reaches shallow => exact .refuses left ((recursion form c).trans right) reaches shallow
  rw [← run_eq_whole (Nat.lt_succ_self _)]
  cases agree _ form c (Nat.lt_succ_self _) with
  | reads left right => exact right.trans left.symm
  | refuses left right => exact right.trans left.symm

variable {a : α} {c' : Cursor}

/-- What a form is read as, where nesting has no limit. -/
lemma reads_whole :
    Reader.Reads form.whole c a c' ↔ Reader.Reads (Grammar.step (fun inner => inner.whole) form) c a c' := by
  rw [Reader.Reads, Reader.Reads, whole_step]

/-- To read takes tokens, and at least one where the form cannot be there without. -/
lemma reaches_of_reads (h : Reader.Reads form.whole c a c') :
    c.Reaches c' ∧ c'.rest.length < c.rest.length + form.slack := by
  cases agree_whole _ form c (rank_lt_depthFor form c) with
  | reads _ right reaches fewer =>
    cases right.symm.trans h
    exact ⟨reaches, fewer⟩
  | refuses _ right => cases right.symm.trans h

/-- So such a form is not read at the end of the text. -/
lemma solid_of_reads (h : Reader.Reads form.whole c a c') (taken : form.slack = 0) : c.atEnd = false := by
  obtain ⟨reaches, fewer⟩ := reaches_of_reads h
  cases reaches with
  | refl => simp [taken] at fewer
  | advance solid => exact solid

/-- The readers of the forms as long as what is left weighs less than a bound. -/
def below (bound : Nat) (form : Form α) : Reader α :=
  fun c => if 16 * c.rest.length + form.rank < bound then form.whole.run c else (Reader.refuse .nestingTooDeep).run c

lemma below_run {bound : Nat} (fits : 16 * c.rest.length + form.rank < bound) :
    (form.below bound).run c = form.whole.run c := by
  have here : form.below bound c = form.whole.run c := by
    rw [below, if_pos fits]
  exact here

lemma reads_below {bound : Nat} (h : Reader.Reads (form.below bound) c a c') :
    16 * c.rest.length + form.rank < bound ∧ Reader.Reads form.whole c a c' := by
  by_cases fits : 16 * c.rest.length + form.rank < bound
  · exact ⟨fits, (below_run fits).symm.trans h⟩
  · have here : form.below bound c = (Reader.refuse .nestingTooDeep).run c := by
      rw [below, if_neg fits]
    exact absurd (here.symm.trans h) Reader.reads_refuse

lemma below_agree (bound : Nat) : Readers.Agree bound (fun form => form.below bound) (fun form => form.whole) := by
  intro _ form c fits
  cases agree_whole _ form c (rank_lt_depthFor form c) with
  | reads _ right reaches fewer => exact .reads ((below_run fits).trans right) right reaches fewer
  | refuses _ right reaches shallow => exact .refuses ((below_run fits).trans right) right reaches shallow

/-- What one step of the recursion keeps is so of all that is read: of the forms inside a form it may be assumed. -/
theorem whole_induction {P : {α : Type} → Form α → Cursor → α → Cursor → Prop}
    (step : ∀ read : Readers,
      (∀ {α : Type} (form : Form α) {c : Cursor} {a : α} {c' : Cursor}, Reader.Reads (read form) c a c' →
        Reader.Reads form.whole c a c' ∧ P form c a c') →
      ∀ {α : Type} (form : Form α) {c : Cursor} {a : α} {c' : Cursor}, Reader.Reads (Grammar.step read form) c a c' →
        Reader.Reads form.whole c a c' → P form c a c')
    (h : Reader.Reads form.whole c a c') : P form c a c' := by
  suffices all : ∀ bound {α : Type} (form : Form α) {c : Cursor} {a : α} {c' : Cursor},
      16 * c.rest.length + form.rank < bound → Reader.Reads form.whole c a c' → P form c a c' from
    all _ form (Nat.lt_succ_self _) h
  intro bound
  induction bound with
  | zero => exact fun _ _ _ _ fits => absurd fits (Nat.not_lt_zero _)
  | succ bound ih =>
    intro α form c a c' fits h
    refine step (fun form => form.below bound) (fun form _ _ _ h => ?_) form ?_ h
    · obtain ⟨fits, whole⟩ := reads_below h
      exact ⟨whole, ih form fits whole⟩
    · cases Grammar.step_agree (below_agree bound) (Nat.le_of_lt_succ fits) with
      | reads left right =>
        cases right.symm.trans (reads_whole.1 h)
        exact left
      | refuses _ right => cases right.symm.trans (reads_whole.1 h)

end Form

/-! ### Statements and errors -/

namespace Cursor

variable {c c' : Cursor}

/-- The last unread token is the end of the text. -/
def Ends (c : Cursor) : Prop :=
  ∃ front t, c.rest = front ++ [t] ∧ t.isFinish = true

/-- So there always is a next token. -/
lemma Ends.next_mem (h : c.Ends) : c.next ∈ c.rest := by
  obtain ⟨_ | ⟨t, rest⟩, readTo⟩ := c
  · obtain ⟨front, t, text, -⟩ := h
    simp at text
  · exact List.mem_cons_self

/-- The end of the text is not taken. -/
lemma Ends.reaches (h : c.Ends) (reaches : c.Reaches c') : c'.Ends := by
  induction reaches with
  | refl => exact h
  | @advance c c' solid _ ih =>
    refine ih ?_
    obtain ⟨front, t, text, finish⟩ := h
    obtain ⟨rest, readTo⟩ := c
    obtain rfl : rest = front ++ [t] := text
    cases front with
    | nil => simp [atEnd, next, finish] at solid
    | cons first front => exact ⟨front, t, rfl, finish⟩

/-- Taking tokens goes forward. -/
lemma Reaches.order (h : c.Reaches c') (order : c.InOrder) : c'.InOrder ∧ c.readTo ≤ c'.readTo := by
  induction h with
  | refl => exact ⟨order, Nat.le_refl _⟩
  | advance solid _ ih =>
    obtain ⟨order₁, start, proper, stop⟩ := order.advance solid
    obtain ⟨order', forward⟩ := ih order₁
    exact ⟨order', by omega⟩

/-- To come to another cursor a token is taken. -/
lemma Reaches.eq_or_lt (h : c.Reaches c') : c = c' ∨ c'.rest.length < c.rest.length := by
  cases h with
  | refl => exact .inl rfl
  | advance solid rest =>
    have := rest.suffix.length_le
    have := advance_length solid
    exact .inr (by omega)

end Cursor

namespace Reader

/-- Skipping to the next line takes tokens, and never the end of the text. -/
lemma skipToLine_reaches (readTo : Nat) (rest : List Token) :
    Cursor.Reaches ⟨rest, readTo⟩ (skipToLine readTo rest) := by
  induction rest generalizing readTo with
  | nil => exact .refl
  | cons t rest ih =>
    simp only [skipToLine]
    split
    · exact .refl
    · next plain =>
      refine .advance ?_ (ih t.span.stop)
      simp_all [Cursor.atEnd, Cursor.next]

/-- Recovering takes the token that is refused, unless that is the end of the text. -/
lemma recover_reaches {c : Cursor} (solid : c.atEnd = false) : c.advance.Reaches (recover c) := by
  simp only [recover, solid, Bool.false_eq_true, if_false]
  exact skipToLine_reaches _ _

/-- The rounds of reading statements one after another, each of which takes a token. -/
inductive Parsed : Cursor → List Statement → List SyntaxError → Prop where
  | finish {c} :
    c.atEnd = true →
    Parsed c [] []
  | semicolon {c statements errors} :
    c.atEnd = false →
    c.isAt .semicolon = true →
    c.advance.rest.length < c.rest.length →
    Parsed c.advance statements errors →
    Parsed c statements errors
  | statement {c first c' statements errors} :
    c.atEnd = false →
    c.isAt .semicolon = false →
    Reads Form.statement.whole c first c' →
    c.Reaches c' →
    c'.rest.length < c.rest.length →
    Parsed c' statements errors →
    Parsed c (first :: statements) errors
  | refused {c r statements errors} :
    c.atEnd = false →
    c.isAt .semicolon = false →
    Form.statement.whole.run c = .error r →
    r.cause ≠ .nestingTooDeep →
    c.Reaches r.cursor →
    r.cursor.atEnd = true ∨ (recover r.cursor).rest.length < r.cursor.rest.length →
    Parsed (recover r.cursor) statements errors →
    Parsed c statements (r.error :: errors)

variable {c : Cursor} {statements : List Statement} {errors : List SyntaxError}

/-- Limits that are great enough are never met. -/
lemma moduleParts_parsed {depth limit : Nat} (deep : Form.depthFor c.rest.length ≤ depth)
    (enough : c.rest.length < limit) :
    Parsed c (moduleParts depth limit c).1 (moduleParts depth limit c).2 := by
  induction limit generalizing c with
  | zero => cases enough
  | succ limit ih =>
    have again {c' : Cursor} (fewer : c'.rest.length < c.rest.length) :
        Parsed c' (moduleParts depth limit c').1 (moduleParts depth limit c').2 := by
      refine ih (Nat.le_trans ?_ deep) (by omega)
      simp only [Form.depthFor]
      omega
    simp only [moduleParts]
    split
    · next atEnd => exact .finish atEnd
    next solid =>
    have solid : c.atEnd = false := by simpa using solid
    split
    · next semicolon =>
      have fewer : c.advance.rest.length < c.rest.length := by
        have := Cursor.advance_length solid
        omega
      exact .semicolon solid semicolon fewer (again fewer)
    next other =>
    have other : c.isAt .semicolon = false := by simpa using other
    have fits : 16 * c.rest.length + Form.statement.rank < depth :=
      Nat.lt_of_lt_of_le (Form.rank_lt_depthFor _ c) deep
    cases Form.agree_whole depth .statement c fits with
    | reads left right reaches fewer =>
      have read : (Form.statement.read depth).run c = .ok (_, _) := left
      rw [read]
      exact .statement solid other right reaches fewer (again fewer)
    | @refuses r left right reaches shallow =>
      rw [show (Form.statement.read depth).run c = .error r from left]
      have behind : r.cursor.atEnd = true ∨ (recover r.cursor).rest.length < r.cursor.rest.length := by
        cases atEnd : r.cursor.atEnd with
        | true => exact .inl rfl
        | false =>
          have := (recover_reaches atEnd).suffix.length_le
          have := Cursor.advance_length atEnd
          exact .inr (by omega)
      have fewer : (recover r.cursor).rest.length < c.rest.length := by
        rcases behind with atEnd | behind
        · have stays : recover r.cursor = r.cursor := by simp [recover, atEnd]
          rcases reaches.eq_or_lt with same | fewer
          · rw [← same, solid] at atEnd
            cases atEnd
          · rwa [stays]
        · exact Nat.lt_of_lt_of_le behind reaches.suffix.length_le
      exact .refused solid other right shallow reaches behind (again fewer)

/-- Nothing is read behind the end of the text. -/
lemma Parsed.of_atEnd (h : Parsed c statements errors) (atEnd : c.atEnd = true) : errors = [] := by
  cases h with
  | finish => rfl
  | semicolon solid => simp [atEnd] at solid
  | statement solid => simp [atEnd] at solid
  | refused solid => simp [atEnd] at solid

/-- Errors at tokens that come one behind another, the first of them behind what has been read. -/
structure Errors (c : Cursor) (errors : List SyntaxError) : Prop where
  places : ∀ e ∈ errors, e.cause ≠ .nestingTooDeep ∧ c.readTo ≤ e.span.start ∧ ∃ t ∈ c.rest, e.span = t.span
  increase : errors.Pairwise fun e e' => e.span.start < e'.span.start
  few : errors.length ≤ c.rest.length

/-- What is behind a later cursor is behind an earlier one. -/
lemma Errors.back {c' : Cursor} (h : Errors c' errors) (order : c.InOrder) (reaches : c.Reaches c') : Errors c errors := by
  refine ⟨fun e member => ?_, h.increase, Nat.le_trans h.few reaches.suffix.length_le⟩
  obtain ⟨shallow, start, t, inside, span⟩ := h.places e member
  exact ⟨shallow, Nat.le_trans (reaches.order order).2 start, t, reaches.suffix.subset inside, span⟩

/-- An error at the next token comes before all that are behind it. -/
lemma Errors.cons {r : Refusal} (h : r.cursor.atEnd = true → errors = [])
    (h' : r.cursor.atEnd = false → Errors r.cursor.advance errors) (shallow : r.cause ≠ .nestingTooDeep)
    (order : r.cursor.InOrder) (ends : r.cursor.Ends) : Errors r.cursor (r.error :: errors) := by
  have own : r.error.cause ≠ .nestingTooDeep ∧ r.cursor.readTo ≤ r.error.span.start ∧
      ∃ t ∈ r.cursor.rest, r.error.span = t.span :=
    ⟨shallow, order.next_start, r.cursor.next, ends.next_mem, rfl⟩
  cases atEnd : r.cursor.atEnd with
  | true =>
    obtain rfl := h atEnd
    exact ⟨by simpa using own, by simp, List.length_pos_of_mem ends.next_mem⟩
  | false =>
    obtain ⟨places, increase, few⟩ := h' atEnd
    obtain ⟨order', start, proper, stop⟩ := order.advance atEnd
    have behind := (h' atEnd).back order (.advance atEnd .refl)
    refine ⟨List.forall_mem_cons.2 ⟨own, behind.places⟩, .cons (fun e member => ?_) increase, ?_⟩
    · have := (places e member).2.1
      exact Nat.lt_of_lt_of_le proper (by omega)
    · have := Cursor.advance_length atEnd
      rw [List.length_cons]
      omega

/-- The errors of a reading are at tokens that come one behind another. -/
lemma Parsed.inPlace (h : Parsed c statements errors) (order : c.InOrder) (ends : c.Ends) : Errors c errors := by
  induction h with
  | finish => exact ⟨by simp, .nil, Nat.zero_le _⟩
  | semicolon solid _ _ _ ih =>
    have reaches := Cursor.Reaches.advance solid .refl
    exact (ih (reaches.order order).1 (ends.reaches reaches)).back order reaches
  | statement _ _ _ reaches _ _ ih => exact (ih (reaches.order order).1 (ends.reaches reaches)).back order reaches
  | @refused c r statements errors _ _ _ shallow reaches _ rest ih =>
    have order' := (reaches.order order).1
    have ends' := ends.reaches reaches
    refine Errors.back (.cons (fun atEnd => ?_) (fun solid => ?_) shallow order' ends') order reaches
    · exact rest.of_atEnd (by rwa [recover, if_pos atEnd])
    · have behind := recover_reaches solid
      have whole := Cursor.Reaches.advance solid behind
      exact (ih (whole.order order').1 (ends'.reaches whole)).back (order'.advance solid).1 behind

end Reader

/-- The last token of a text is its end. -/
lemma Token.scan_ends {source : String} {tokens : List Token} (h : scan source = .ok tokens) :
    Cursor.Ends ⟨tokens, 0⟩ := by
  have last (offset : Nat) (fresh : Bool) (pieces : List (Piece × List Char)) :
      ∃ front t, (place offset fresh pieces).tokens = front ++ [t] ∧ t.isFinish = true := by
    induction pieces generalizing offset fresh with
    | nil => exact ⟨[], _, rfl, rfl⟩
    | cons head rest ih =>
      obtain ⟨piece, chars⟩ := head
      cases piece with
      | token kind =>
        obtain ⟨front, t, text, finish⟩ := ih (offset + byteCount chars) false
        exact ⟨_ :: front, t, congrArg _ text, finish⟩
      | _ => exact ih _ _
  simp only [scan] at h
  split at h
  · cases h
    exact last _ _ _
  · cases h

namespace Module

/-- A text whose tokens are all found is always read to its end, well-formed or not: the forms of syntax are read by the
recursion of the grammar, however deeply they nest, and statements one after another, with at least one token taken for
each statement and each error unless the text is at its end. The module is what is read if there is no error. Else the
errors are, which are at tokens, and at a later one each. -/
theorem parse_progress {source : String} {tokens : List Token} (scanned : Token.scan source = .ok tokens) :
    (∀ {α : Type} (form : Form α) (c : Cursor),
      form.whole.run c = (Grammar.step (fun inner => inner.whole) form).run c) ∧
    ∃ statements errors, Reader.Parsed ⟨tokens, 0⟩ statements errors ∧
      (errors = [] → parse source = .ok ⟨statements, ⟨0, source.utf8ByteSize⟩⟩) ∧
      (errors ≠ [] → parse source = .error errors) ∧
      (∀ e ∈ errors, ∃ t ∈ tokens, e.span = t.span) ∧
      (errors.Pairwise fun e e' => e.span.start < e'.span.start) ∧
      errors.length ≤ tokens.length := by
  refine ⟨Form.whole_step, ?_⟩
  have parsed : Reader.Parsed ⟨tokens, 0⟩ _ _ :=
    Reader.moduleParts_parsed (Nat.le_refl (Form.depthFor tokens.length)) (Nat.lt_succ_self tokens.length)
  obtain ⟨places, increase, few⟩ := parsed.inPlace (Token.scan_inOrder scanned) (Token.scan_ends scanned)
  have read : parse source = ofTokens source.utf8ByteSize tokens := by
    simp [parse, scanned, bind, Except.bind]
  refine ⟨_, _, parsed, fun none => ?_, fun some => ?_, fun e member => (places e member).2.2, increase, few⟩
  · rw [read, ofTokens]
    split
    · next found => rw [found]
    · next wrong found => exact absurd ((congrArg Prod.snd found).symm.trans none) wrong
  · rw [read, ofTokens]
    split
    · next found => exact absurd (by rw [found]) some
    · next found => rw [found]

/-- Two statements are refused, one of them behind a bracket that goes over two lines, the other at the end of the text. -/
theorem parse_progress_refused :
    ∃ tokens errors, Token.scan "a = (b\n) c\nd = b +\n" = .ok tokens ∧
      parse "a = (b\n) c\nd = b +\n" = .error errors ∧
      errors = [⟨.expectedStatementEnd, ⟨9, 10⟩⟩, ⟨.expectedExpression, ⟨19, 19⟩⟩] ∧
      errors.length ≤ tokens.length ∧ ∀ e ∈ errors, ∃ t ∈ tokens, e.span = t.span := by
  obtain ⟨tokens, scanned⟩ : ∃ tokens, Token.scan "a = (b\n) c\nd = b +\n" = .ok tokens := ⟨_, by cbv⟩
  have refused : parse "a = (b\n) c\nd = b +\n" =
      .error [⟨.expectedStatementEnd, ⟨9, 10⟩⟩, ⟨.expectedExpression, ⟨19, 19⟩⟩] := by
    cbv
  obtain ⟨-, statements, errors, -, none, some, places, -, few⟩ := parse_progress scanned
  by_cases empty : errors = []
  · rw [none empty] at refused
    cases refused
  · cases (some empty).symm.trans refused
    exact ⟨tokens, _, scanned, refused, rfl, few, places⟩

end Module

namespace Expr

variable {source : String} {tokens : List Token} {c : Cursor} {e : Expr}

/-- What is read of a text is the expression that it spells if nothing is left of it, and else the next token is refused. -/
lemma parse_of_reads (scanned : Token.scan source = .ok tokens) (read : Reader.Reads Form.expression.whole ⟨tokens, 0⟩ e c) :
    parse source = if c.atEnd then .ok e else .error [⟨.trailingInput, c.next.span⟩] := by
  rw [Reader.Reads, Form.whole_run] at read
  simp only [parse, scanned, bind, Except.bind, ofTokens, read]
  cases c.atEnd <;> rfl

/-- The expression that a text spells is read from its tokens up to their end. -/
lemma whole_of_parse (h : parse source = .ok e) : ∃ tokens c, Token.scan source = .ok tokens ∧
    Reader.Reads Form.expression.whole ⟨tokens, 0⟩ e c ∧ c.atEnd = true := by
  cases scanned : Token.scan source with
  | error wrong => simp [parse, scanned, bind, Except.bind] at h
  | ok tokens =>
    refine ⟨tokens, ?_⟩
    simp only [parse, scanned, bind, Except.bind, ofTokens] at h
    split at h
    · next e' c read =>
      split at h
      · next atEnd =>
        cases h
        exact ⟨c, rfl, Form.whole_run.trans read, atEnd⟩
      · cases h
    · cases h

end Expr

end PipeLang
