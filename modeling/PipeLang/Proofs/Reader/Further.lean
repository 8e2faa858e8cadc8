import PipeLang.Proofs.Reader.Inversion
import PipeLang.Proofs.Reader.Moved

/-!
# Forms further on

Whatever is read in a text is read from the same tokens where they stand further on in another, and all that is read is
further on by as much: `Form.whole_follows`. Only a statement at the very end of the text may be read otherwise, since it
takes a semicolon that stands in place of the end and is refused at a closing parenthesis: `Grammar.statement_follows` and
`Grammar.statementEnd_seam`.
-/

namespace PipeLang

namespace Form

/-- A form with what it continues, moved on. -/
def shift (n : Nat) : {α : Type} → Form α → Form α
  | _, .stagesAfter before => .stagesAfter (before.shift n)
  | _, .binaryAfter left least => .binaryAfter (left.shift n) least
  | _, .suffixes base => .suffixes (base.shift n)
  | _, .branch start => .branch (start + n)
  | _, form => form

/-- What a form is read as, moved on. -/
def move (n : Nat) : {α : Type} → Form α → α → α
  | _, .statement => Statement.shift n
  | _, .statements => Statement.allShift n
  | _, .block => Block.shift n
  | _, .importItems => List.map (ImportItem.shift n)
  | _, .expression | _, .binary _ | _, .binaryAfter .. | _, .unary | _, .suffixes _ | _, .primary | _, .lambda =>
    Expr.shift n
  | _, .chain _ => Pipeline.shift n
  | _, .stagesAfter _ => Stage.allShift n
  | _, .stage _ => Stage.shift n
  | _, .loop => Loop.shift n
  | _, .pathSegments => List.map (Ident.shift n)
  | _, .arguments => Argument.allShift n
  | _, .items => Expr.allShift n
  | _, .branch _ => Branch.shift n
  | _, .params => Param.allShift n
  | _, .type => id

/-- Statements are followed as long as what comes behind them is not the end of the text. -/
def Inside {α : Type} (form : Form α) (c' : Cursor) : Prop :=
  match form with
  | .statement | .statements => c'.atEnd = false
  | _ => True

/-- What a form is read as from one cursor to another is read from any cursor further on. -/
def Further (n : Nat) (behind : List Token) {α : Type} (form : Form α) (c : Cursor) (a : α) (c₁ : Cursor) : Prop :=
  ∀ c', form.Inside c₁ → c.Moved n behind c' →
    ∃ c₁', Reader.Reads (form.shift n).whole c' (form.move n a) c₁' ∧ c₁.Moved n behind c₁'

end Form

/-- Whatever these readers read is read further on. -/
def Readers.Follow (n : Nat) (behind : List Token) (read : Readers) : Prop :=
  ∀ {α : Type} (form : Form α) {c : Cursor} {a : α} {c₁ : Cursor}, Reader.Reads (read form) c a c₁ →
    Reader.Reads form.whole c a c₁ ∧ form.Further n behind c a c₁

open Reader

section

variable {n : Nat} {behind : List Token} {read : Readers} {c c' : Cursor}

namespace Readers.Follow

variable {α β : Type}

/-- A form that is followed whatever comes behind it. -/
lemma form (follow : Readers.Follow n behind read) (form : Form α) (free : ∀ c₁, form.Inside c₁)
    (moved : c.Moved n behind c') : Follows n behind (form.move n) (read form) (form.shift n).whole c c' := by
  intro a c₁ h
  obtain ⟨whole, further⟩ := follow form h
  obtain ⟨c₁', read', moved'⟩ := further c' (free c₁) moved
  refine ⟨c₁', read', moved', fun pos => ?_⟩
  rcases moved.eq_or_pos (Form.reaches_of_reads whole).1 with rfl | pos'
  · exact pos
  · exact pos'

/-- To read a form, and to go on behind it. Something has been read then if it had been before or if the form takes a
token. -/
lemma bind (follow : Readers.Follow n behind read) (form : Form α) {g : β → β} {k k' : α → Reader β}
    (free : ∀ c₁, form.Inside c₁) (moved : c.Moved n behind c')
    (rest : ∀ a c₁ c₁', c₁.Moved n behind c₁' → (0 < c.readTo ∨ form.slack = 0 → 0 < c₁.readTo) →
      Follows n behind g (k a) (k' (form.move n a)) c₁ c₁') :
    Follows n behind g (read form >>= k) ((form.shift n).whole >>= k') c c' := by
  intro b c₂ h
  obtain ⟨a, c₁, first, h⟩ := reads_bind.1 h
  obtain ⟨whole, further⟩ := follow form first
  obtain ⟨c₁', first', moved₁⟩ := further c' (free c₁) moved
  obtain ⟨reaches, fewer⟩ := Form.reaches_of_reads whole
  have pos : 0 < c.readTo ∨ form.slack = 0 → 0 < c₁.readTo := by
    rcases moved.eq_or_pos reaches with rfl | pos
    · rintro (pos | taken)
      · exact pos
      · simp [taken] at fewer
    · exact fun _ => pos
  obtain ⟨c₂', last, moved₂, forward⟩ := rest a c₁ c₁' moved₁ pos b c₂ h
  exact ⟨c₂', reads_bind.2 ⟨_, c₁', first', last⟩, moved₂, fun before => forward (pos (.inl before))⟩

end Readers.Follow

/-- The readers of all forms, where nesting has no limit. -/
abbrev Readers.whole : Readers :=
  fun form => form.whole

namespace Grammar

/-! ### Form by form -/

lemma newName?_follows (moved : c.Moved n behind c') :
    Follows n behind (Option.map (Ident.shift n)) newName? newName? c c' :=
  .ifTake moved rfl (fun moved _ => .ident moved fun _ moved _ => .pure moved rfl) (.pure moved rfl)

lemma importItem_follows (moved : c.Moved n behind c') :
    Follows n behind (ImportItem.shift n) importItem importItem c c' := by
  refine .ifAt moved rfl (fun here => ?_) (.ifAt moved rfl (fun here => ?_) ?_)
  · exact .take moved (Cursor.solid_of_isAt here) fun moved _ => .pure moved rfl
  · exact .take moved (Cursor.solid_of_isAt here) fun moved _ =>
      (newName?_follows moved).bind fun _ _ _ moved _ => .pure moved rfl
  · exact .ident moved fun _ moved _ => (newName?_follows moved).bind fun _ _ _ moved _ => .pure moved rfl

lemma importItems_follows (follow : Readers.Follow n behind read) (moved : c.Moved n behind c') :
    Follows n behind (List.map (ImportItem.shift n)) (importItems read) (importItems Readers.whole) c c' :=
  (importItem_follows moved).bind fun _ _ _ moved _ => .ifTake moved rfl
    (fun moved _ => follow.bind .importItems (fun _ => trivial) moved fun _ _ _ moved _ => .pure moved rfl)
    (.pure moved rfl)

lemma importStatement_follows {exported : Bool} {start : Nat} (follow : Readers.Follow n behind read)
    (moved : c.Moved n behind c') :
    Follows n behind (Import.shift n) (importStatement read exported start)
      (importStatement Readers.whole exported (start + n)) c c' := by
  refine .expect moved fun _ moved _ => .look ?_
  rcases moved.kind with same | ⟨finish, closing, -, mark⟩
  · rw [same]
    split
    · next path kind =>
      exact .take moved (Cursor.solid_of_kind kind nofun) fun moved pos => (newName?_follows moved).bind
        fun _ _ _ moved forward => .readTo moved (forward pos) (.pure moved rfl)
    · exact follow.bind .importItems (fun _ => trivial) moved fun _ _ _ moved _ => .expect moved
        fun _ moved _ => .text moved fun _ moved _ => .pure moved rfl
  · simp only [finish, mark]
    exact follow.bind .importItems (fun _ => trivial) moved fun _ _ _ moved _ => .expect moved
      fun _ moved _ => .text moved fun _ moved _ => .pure moved rfl

lemma definition_follows {exported : Bool} {start : Nat} (follow : Readers.Follow n behind read)
    (moved : c.Moved n behind c') :
    Follows n behind (Statement.shift n) (definition read exported start)
      (definition Readers.whole exported (start + n)) c c' :=
  .ident moved fun _ moved _ => .expect moved fun _ moved _ =>
    follow.bind .expression (fun _ => trivial) moved fun _ _ _ moved _ =>
      .pure moved (by simp [Statement.shift, Form.move, Span.shift])

lemma statementBody_follows {start : Nat} (follow : Readers.Follow n behind read) (moved : c.Moved n behind c') :
    Follows n behind (Statement.shift n) (statementBody read start) (statementBody Readers.whole (start + n)) c c' := by
  refine .ifAt moved rfl (fun _ => (importStatement_follows follow moved).map fun _ => rfl)
    (.ifTake moved rfl (fun moved _ => ?_) (.look ?_))
  · exact .ifAt moved rfl (fun _ => (importStatement_follows follow moved).map fun _ => rfl)
      (definition_follows follow moved)
  · rw [moved.startsBinding]
    split
    · exact definition_follows follow moved
    · exact follow.bind .expression (fun _ => trivial) moved fun _ _ _ moved _ =>
        .pure moved (by simp [Statement.shift, Form.move])

/-- A statement is read further on up to its end, and so is the end of it if that is. -/
lemma statement_follows {s : Statement} {c₁ : Cursor} (follow : Readers.Follow n behind read) (moved : c.Moved n behind c')
    (solid : c.atEnd = false) (h : Reads (statement read) c s c₁) :
    ∃ c₀ c₀', c₀.Moved n behind c₀' ∧ Reads statementEnd c₀ () c₁ ∧
      ∀ c₁', Reads statementEnd c₀' () c₁' → Reads (statement Readers.whole) c' (s.shift n) c₁' := by
  obtain ⟨c₀, body, ends⟩ := reads_statement.1 h
  obtain ⟨c₀', body', moved₀, -⟩ := statementBody_follows follow moved _ _ body
  have start : c'.next.span.start = c.next.span.start + n := by rw [moved.next solid, Token.shift_span, Span.shift_start]
  rw [← start] at body'
  exact ⟨c₀, c₀', moved₀, ends, fun c₁' ends' => reads_statement.2 ⟨c₀', body', ends'⟩⟩

/-- What ends a statement in front of the end of the text ends it further on. -/
lemma statementEnd_follows {c₁ : Cursor} (moved : c.Moved n behind c') (solid : c.atEnd = false)
    (h : Reads statementEnd c () c₁) : ∃ c₁', Reads statementEnd c' () c₁' ∧ c₁.Moved n behind c₁' := by
  have next := moved.next solid
  rcases reads_statementEnd.1 h with ⟨here, rfl⟩ | ⟨absent, ends, rfl⟩
  · exact ⟨_, reads_statementEnd.2 (.inl ⟨moved.isAt_of_isAt here, rfl⟩), (moved.advance solid).1⟩
  · have absent' : c'.isAt .semicolon = false := by simpa [Cursor.isAt, next] using absent
    refine ⟨c', reads_statementEnd.2 (.inr ⟨absent', ?_, rfl⟩), moved⟩
    simpa [Cursor.isAt, Cursor.atEnd, next, Token.isFinish] using ends

/-- At the end of the text another end ends a statement, and a semicolon in place of it is taken. -/
lemma statementEnd_seam (moved : c.Moved n behind c') (atEnd : c.atEnd = true) (noParen : c'.isAt .rightParen = false) :
    ∃ c₁', Reads statementEnd c' () c₁' ∧ (c.Moved n behind c₁' ∨ c'.isAt .semicolon = true ∧ c₁' = c'.advance) := by
  cases here : c'.isAt .semicolon with
  | true => exact ⟨_, reads_statementEnd.2 (.inl ⟨here, rfl⟩), .inr ⟨rfl, rfl⟩⟩
  | false =>
    have atEnd' : c'.atEnd = true := by
      rcases moved.kind with same | ⟨-, closing, closes, mark⟩
      · simpa [Cursor.atEnd, Token.isFinish, same] using atEnd
      · rcases Mark.eq_of_closes closes with rfl | rfl <;> simp_all [Cursor.isAt, Token.isMark]
    exact ⟨c', reads_statementEnd.2 (.inr ⟨here, by simp [atEnd'], rfl⟩), .inl moved⟩

/-- The statements of a block are read further on up to its brace. -/
lemma statements_follows {ss : List Statement} {c₁ : Cursor} (follow : Readers.Follow n behind read)
    (moved : c.Moved n behind c') (inside : c₁.atEnd = false) (h : Reads (statements read) c ss c₁) :
    ∃ c₁', Reads (statements Readers.whole) c' (Statement.allShift n ss) c₁' ∧ c₁.Moved n behind c₁' := by
  obtain ⟨ends, rfl, rfl⟩ | ⟨more, goesOn⟩ := reads_statements.1 h
  · have next := moved.next inside
    refine ⟨c', reads_statements.2 (.inl ⟨?_, rfl, rfl⟩), moved⟩
    simpa [Cursor.isAt, Cursor.atEnd, next, Token.isFinish] using ends
  have solid : c.atEnd = false := (Bool.or_eq_false_iff.1 (Bool.eq_false_iff.2 more)).2
  have next := moved.next solid
  have more' : ¬ (c'.isAt .rightBrace || c'.atEnd) = true := by
    simpa [Cursor.isAt, Cursor.atEnd, next, Token.isFinish] using more
  obtain ⟨here, readRest⟩ | ⟨absent, first, c₀, readFirst, rest, readRest, rfl⟩ := goesOn
  · have here' : c'.isAt .semicolon = true := by simpa [Cursor.isAt, next] using here
    obtain ⟨c₁', readRest', moved₁⟩ := (follow .statements readRest).2 c'.advance inside (moved.advance solid).1
    exact ⟨c₁', reads_statements.2 (.inr ⟨more', .inl ⟨here', readRest'⟩⟩), moved₁⟩
  · have absent' : c'.isAt .semicolon = false := by simpa [Cursor.isAt, next] using absent
    obtain ⟨wholeRest, furtherRest⟩ := follow .statements readRest
    -- what is behind the first statement is not the end, or nothing would be read there
    have between : c₀.atEnd = false := by
      rcases (Form.reaches_of_reads wholeRest).1 with _ | solid
      · exact inside
      · exact solid
    obtain ⟨c₀', readFirst', moved₀⟩ := (follow .statement readFirst).2 c' between moved
    obtain ⟨c₁', readRest', moved₁⟩ := furtherRest c₀' inside moved₀
    exact ⟨c₁', reads_statements.2 (.inr ⟨more', .inr ⟨absent', _, c₀', readFirst', _, readRest', rfl⟩⟩), moved₁⟩

lemma block_follows (follow : Readers.Follow n behind read) (moved : c.Moved n behind c') :
    Follows n behind (Block.shift n) (block read) (block Readers.whole) c c' := by
  refine .expect moved fun opening moved pos => ?_
  intro b c₃ h
  rw [reads_bind] at h
  simp only [reads_expect_bind, reads_pure] at h
  obtain ⟨ss, c₂, readStatements, brace, rfl, rfl⟩ := h
  have solid := Cursor.solid_of_isAt brace
  obtain ⟨c₂', readStatements', moved₂⟩ := (follow .statements readStatements).2 _ solid moved
  obtain ⟨moved₃, pos₃⟩ := moved₂.advance solid
  refine ⟨_, reads_bind.2 ⟨_, c₂', readStatements', reads_expect_bind.2 ⟨moved₂.isAt_of_isAt brace, ?_⟩⟩, moved₃, fun _ => pos₃⟩
  rw [moved₂.next solid]
  simp [Block.shift, Form.move, Span.shift]

/-- A chain that is one expression is so further on. -/
lemma ofChain_shift (p : Pipeline) : ofChain (p.shift n) = (ofChain p).shift n := by
  obtain ⟨_ | ⟨⟨e, _ | tag, span⟩ | ⟨op, operand, tag, span⟩, _ | ⟨following, rest⟩⟩, whole⟩ := p <;> rfl

lemma chainSpan_shift (first : Stage) (rest : List Stage) :
    chainSpan (first.shift n) (Stage.allShift n rest) = (chainSpan first rest).shift n := by
  have last : ((first.shift n :: Stage.allShift n rest).getLast (by simp)) =
      ((first :: rest).getLast (by simp)).shift n := by
    simp only [Stage.allShift_eq, ← List.map_cons, List.getLast_map]
  simp only [chainSpan, last, Stage.shift_span, Span.shift_union]

lemma expression_follows (follow : Readers.Follow n behind read) (moved : c.Moved n behind c') :
    Follows n behind (Expr.shift n) (expression read) (expression Readers.whole) c c' :=
  follow.bind (.chain true) (fun _ => trivial) moved fun p _ _ moved _ => .pure moved (ofChain_shift p).symm

lemma chain_follows {first : Bool} (follow : Readers.Follow n behind read) (moved : c.Moved n behind c') :
    Follows n behind (Pipeline.shift n) (chain read first) (chain Readers.whole first) c c' :=
  follow.bind (.stage first) (fun _ => trivial) moved fun stage _ _ moved _ =>
    follow.bind (.stagesAfter stage) (fun _ => trivial) moved fun rest _ _ moved _ =>
      .pure moved (by rw [Pipeline.shift, ← chainSpan_shift]; rfl)

lemma stagesAfter_follows {stage : Stage} (follow : Readers.Follow n behind read) (moved : c.Moved n behind c') :
    Follows n behind (Stage.allShift n) (stagesAfter read stage) (stagesAfter Readers.whole (stage.shift n)) c c' := by
  simp only [stagesAfter, Stage.isLoop_shift]
  split
  · exact .pure moved rfl
  · exact .ifTake moved rfl (fun moved _ => follow.bind (.stage false) (fun _ => trivial) moved fun following _ _ moved _ =>
      follow.bind (.stagesAfter following) (fun _ => trivial) moved fun _ _ _ moved _ => .pure moved rfl) (.pure moved rfl)

lemma tag?_follows (moved : c.Moved n behind c') : Follows n behind (Option.map (Ident.shift n)) tag? tag? c c' :=
  .ifTake moved rfl (fun moved _ => .ident moved fun _ moved _ => .pure moved rfl) (.pure moved rfl)

lemma stageOf_follows {start : Nat} {e : Expr} (moved : c.Moved n behind c') (pos : 0 < c.readTo) :
    Follows n behind (Stage.shift n) (stageOf start e) (stageOf (start + n) (e.shift n)) c c' := by
  cases e with
  | loop l => exact .readTo moved pos (.pure moved rfl)
  | _ => exact (tag?_follows moved).bind fun _ _ _ moved forward => .readTo moved (forward pos) (.pure moved rfl)

lemma stage_follows {first : Bool} (follow : Readers.Follow n behind read) (moved : c.Moved n behind c')
    (solid : c.atEnd = false) :
    Follows n behind (Stage.shift n) (stage read first) (stage Readers.whole first) c c' := by
  refine .here moved solid (.look ?_)
  rw [moved.binaryOp?]
  split
  · exact .take moved solid fun moved pos => follow.bind (.binary _) (fun _ => trivial) moved fun _ _ _ moved some =>
      (tag?_follows moved).bind fun _ _ _ moved forward => .readTo moved (forward (some (.inl pos))) (.pure moved rfl)
  · exact .ifAt moved rfl
      (fun _ => follow.bind .loop (fun _ => trivial) moved fun _ _ _ moved some => stageOf_follows moved (some (.inr rfl)))
      (follow.bind (.binary 0) (fun _ => trivial) moved fun _ _ _ moved some => stageOf_follows moved (some (.inr rfl)))

lemma loop_follows (follow : Readers.Follow n behind read) (moved : c.Moved n behind c') :
    Follows n behind (Loop.shift n) (loop read) (loop Readers.whole) c c' :=
  .expect moved fun _ moved _ => follow.bind (.binary 0) (fun _ => trivial) moved fun _ _ _ moved _ =>
    .expect moved fun _ moved _ => .ident moved fun _ moved _ => .expect moved fun _ moved _ =>
      follow.bind (.chain false) (fun _ => trivial) moved fun _ _ _ moved _ =>
        .pure moved (by simp [Loop.shift, Form.move, Span.shift])

lemma binary_follows {least : Nat} (follow : Readers.Follow n behind read) (moved : c.Moved n behind c') :
    Follows n behind (Expr.shift n) (binary read least) (binary Readers.whole least) c c' :=
  follow.bind .unary (fun _ => trivial) moved fun left _ _ moved _ =>
    follow.form (.binaryAfter left least) (fun _ => trivial) moved

lemma binaryAfter_follows {left : Expr} {least : Nat} (follow : Readers.Follow n behind read)
    (moved : c.Moved n behind c') :
    Follows n behind (Expr.shift n) (binaryAfter read left least) (binaryAfter Readers.whole (left.shift n) least) c c' := by
  refine .look ?_
  rw [moved.binaryOp?]
  split
  · next op spelt =>
    split
    · exact .pure moved rfl
    · refine .take moved (solid_of_binaryOp spelt) fun moved _ =>
        follow.bind (.binary _) (fun _ => trivial) moved fun right _ _ moved _ => ?_
      have whole := follow.form (.binaryAfter (.binary op left right (left.span.union right.span)) least)
        (fun _ => trivial) moved
      simpa [Form.shift, Form.move, Expr.shift, Span.shift_union] using whole
  · exact .pure moved rfl

lemma unary_follows (follow : Readers.Follow n behind read) (moved : c.Moved n behind c') (solid : c.atEnd = false) :
    Follows n behind (Expr.shift n) (unary read) (unary Readers.whole) c c' := by
  refine .here moved solid (.ifTake moved rfl (fun moved _ => ?_) (.ifTake moved rfl (fun moved _ => ?_) ?_))
  · exact follow.bind .unary (fun _ => trivial) moved fun _ _ _ moved _ =>
      .pure moved (by simp [Expr.shift, Form.move, Span.shift])
  · exact follow.bind .unary (fun _ => trivial) moved fun _ _ _ moved _ =>
      .pure moved (by simp [Expr.shift, Form.move, Span.shift])
  · exact follow.bind .primary (fun _ => trivial) moved fun base _ _ moved _ =>
      follow.form (.suffixes base) (fun _ => trivial) moved

/-- Where neither a call nor an index comes next, nothing continues an expression. -/
lemma reads_suffixes_stop {base : Expr} (noCall : c.isAt .leftParen = false) (noIndex : c.isAt .leftBracket = false) :
    Reads (suffixes read base) c base c := by
  by_cases opens : c.next.opensLine = true
  · exact reads_suffixes.2 (.inl ⟨opens, rfl, rfl⟩)
  · exact reads_suffixes.2 (.inr ⟨opens, .inr ⟨noCall, .inr ⟨noIndex, rfl, rfl⟩⟩⟩)

lemma suffixes_follows {base : Expr} (follow : Readers.Follow n behind read) (moved : c.Moved n behind c') :
    Follows n behind (Expr.shift n) (suffixes read base) (suffixes Readers.whole (base.shift n)) c c' := by
  cases atEnd : c.atEnd with
  | true =>
    -- the semicolon opens a line and the end may not, but neither continues an expression
    have none (m : Mark) : c.isAt m = false := Token.isMark_of_finish atEnd
    intro e c₁ h
    cases h.symm.trans (reads_suffixes_stop (none _) (none _))
    refine ⟨c', reads_suffixes_stop ?_ ?_, moved, id⟩
    · rw [moved.isAt (m := .leftParen) rfl, none]
    · rw [moved.isAt (m := .leftBracket) rfl, none]
  | false =>
    refine .look ?_
    have opens : c'.next.opensLine = c.next.opensLine := by rw [moved.next atEnd, Token.shift_opensLine]
    rw [opens]
    split
    · exact .pure moved rfl
    · refine .ifTake moved rfl (fun moved _ => ?_) (.ifTake moved rfl (fun moved _ => ?_) (.pure moved rfl))
      · refine follow.bind .arguments (fun _ => trivial) moved fun args _ _ moved _ => .expect moved fun t moved _ => ?_
        have whole := follow.form (.suffixes (.call base args ⟨base.span.start, t.span.stop⟩)) (fun _ => trivial) moved
        simpa [Form.shift, Form.move, Expr.shift, Span.shift] using whole
      · refine follow.bind .expression (fun _ => trivial) moved fun index _ _ moved _ => .expect moved fun t moved _ => ?_
        have whole := follow.form (.suffixes (.index base index ⟨base.span.start, t.span.stop⟩)) (fun _ => trivial) moved
        simpa [Form.shift, Form.move, Expr.shift, Span.shift] using whole

lemma argument_follows (follow : Readers.Follow n behind read) (moved : c.Moved n behind c') :
    Follows n behind (Argument.shift n) (argument read) (argument Readers.whole) c c' := by
  refine .look ?_
  rw [moved.startsBinding]
  split
  · exact .ident moved fun _ moved _ => .expect moved fun _ moved _ =>
      follow.bind .expression (fun _ => trivial) moved fun _ _ _ moved _ => .pure moved rfl
  · exact follow.bind .expression (fun _ => trivial) moved fun _ _ _ moved _ => .pure moved rfl

/-- There is no argument at the end of the text. -/
lemma solid_of_argument {a : Argument} {c₁ : Cursor} (follow : Readers.Follow n behind read)
    (h : Reads (argument read) c a c₁) : c.atEnd = false := by
  obtain ⟨-, name, named, -⟩ | ⟨-, value, readValue, -⟩ := reads_argument.1 h
  · exact Cursor.solid_of_name named
  · exact Form.solid_of_reads (follow .expression readValue).1 rfl

lemma arguments_follows (follow : Readers.Follow n behind read) (moved : c.Moved n behind c') :
    Follows n behind (Argument.allShift n) (arguments read) (arguments Readers.whole) c c' := by
  refine .ifAtSolid moved (fun args c₁ h => ?_) (fun _ => .pure moved rfl)
    ((argument_follows follow moved).bind fun first _ _ moved _ =>
      .ifTake moved rfl (fun moved _ => follow.bind .arguments (fun _ => trivial) moved fun rest _ _ moved _ =>
        .pure moved (Argument.allShift_cons first rest)) (.pure moved (Argument.allShift_cons first [])))
  obtain ⟨_, _, first, -⟩ := reads_bind.1 h
  exact solid_of_argument follow first

lemma pathSegments_follows (follow : Readers.Follow n behind read) (moved : c.Moved n behind c') :
    Follows n behind (List.map (Ident.shift n)) (pathSegments read) (pathSegments Readers.whole) c c' :=
  .ifTake moved rfl (fun moved _ => .ident moved fun _ moved _ =>
    follow.bind .pathSegments (fun _ => trivial) moved fun _ _ _ moved _ => .pure moved rfl) (.pure moved rfl)

lemma nameOrPath_follows (follow : Readers.Follow n behind read) (moved : c.Moved n behind c') :
    Follows n behind (Expr.shift n) (nameOrPath read) (nameOrPath Readers.whole) c c' := by
  refine .ident moved fun head moved _ => follow.bind .pathSegments (fun _ => trivial) moved fun rest _ _ moved _ => ?_
  simp only [Form.move, List.getLast?_map]
  cases rest.getLast? <;> exact .pure moved rfl

lemma items_follows (follow : Readers.Follow n behind read) (moved : c.Moved n behind c') :
    Follows n behind (Expr.allShift n) (items read) (items Readers.whole) c c' :=
  .ifTake moved rfl (fun moved _ => .ifAt moved rfl (fun _ => .pure moved rfl)
    (follow.bind .expression (fun _ => trivial) moved fun _ _ _ moved _ =>
      follow.bind .items (fun _ => trivial) moved fun _ _ _ moved _ => .pure moved rfl)) (.pure moved rfl)

lemma rangeFrom_follows {start : Nat} {first : Expr} {inclusive : Bool} (follow : Readers.Follow n behind read)
    (moved : c.Moved n behind c') :
    Follows n behind (Expr.shift n) (rangeFrom read start first inclusive)
      (rangeFrom Readers.whole (start + n) (first.shift n) inclusive) c c' :=
  follow.bind .expression (fun _ => trivial) moved fun _ _ _ moved _ => .expect moved fun _ moved _ => .pure moved rfl

lemma bracketed_follows (follow : Readers.Follow n behind read) (moved : c.Moved n behind c') :
    Follows n behind (Expr.shift n) (bracketed read) (bracketed Readers.whole) c c' :=
  .expect moved fun _ moved _ => .ifAt moved rfl
    (fun here => .take moved (Cursor.solid_of_isAt here) fun moved _ => .pure moved rfl)
    (follow.bind .expression (fun _ => trivial) moved fun _ _ _ moved _ =>
      .ifTake moved rfl (fun moved _ => rangeFrom_follows follow moved)
        (.ifTake moved rfl (fun moved _ => rangeFrom_follows follow moved)
          (follow.bind .items (fun _ => trivial) moved fun _ _ _ moved _ =>
            .expect moved fun _ moved _ => .pure moved rfl)))

lemma parenthesised_follows (follow : Readers.Follow n behind read) (moved : c.Moved n behind c') :
    Follows n behind (Expr.shift n) (parenthesised read) (parenthesised Readers.whole) c c' :=
  .expect moved fun _ moved _ => follow.bind .expression (fun _ => trivial) moved fun _ _ _ moved _ =>
    .expect moved fun _ moved _ => .pure moved rfl

lemma alternative_follows (follow : Readers.Follow n behind read) (moved : c.Moved n behind c') :
    Follows n behind (Alternative.shift n) (alternative read) (alternative Readers.whole) c c' :=
  .ifTake moved rfl (fun moved _ => .ifAt moved rfl
    (fun here => .take moved (Cursor.solid_of_isAt here) fun moved _ =>
      (follow.form (.branch c.advance.next.span.start) (fun _ => trivial) moved).map fun _ => rfl)
    ((follow.form .block (fun _ => trivial) moved).map fun _ => rfl)) (.pure moved rfl)

lemma branch_follows {start : Nat} (follow : Readers.Follow n behind read) (moved : c.Moved n behind c') :
    Follows n behind (Branch.shift n) (branch read start) (branch Readers.whole (start + n)) c c' :=
  follow.bind (.binary 0) (fun _ => trivial) moved fun _ _ _ moved _ =>
    follow.bind .block (fun _ => trivial) moved fun _ _ _ moved some =>
      (alternative_follows follow moved).bind fun _ _ _ moved forward =>
        .readTo moved (forward (some (.inr rfl))) (.pure moved rfl)

lemma typeNote_follows (follow : Readers.Follow n behind read) (moved : c.Moved n behind c') :
    Follows n behind (TypeNote.shift n) (typeNote read) (typeNote Readers.whole) c c' := by
  refine .of_solid (fun note c₁ h => ?_) fun solid => .here moved solid (follow.bind .type (fun _ => trivial) moved
    fun _ _ _ moved some => .readTo moved (some (.inr rfl)) (.pure moved rfl))
  obtain ⟨ty, readType, -⟩ := reads_typeNote.1 h
  exact Form.solid_of_reads (follow .type readType).1 rfl

lemma typeBehind?_follows {m : Mark} (inner : m.closes = false) (follow : Readers.Follow n behind read)
    (moved : c.Moved n behind c') :
    Follows n behind (Option.map (TypeNote.shift n)) (typeBehind? read m) (typeBehind? Readers.whole m) c c' :=
  .ifTake moved inner (fun moved _ => (typeNote_follows follow moved).bind fun _ _ _ moved _ => .pure moved rfl)
    (.pure moved rfl)

lemma fallback?_follows (follow : Readers.Follow n behind read) (moved : c.Moved n behind c') :
    Follows n behind (Option.map (Expr.shift n)) (fallback? read) (fallback? Readers.whole) c c' :=
  .ifTake moved rfl (fun moved _ => follow.bind (.binary 0) (fun _ => trivial) moved fun _ _ _ moved _ => .pure moved rfl)
    (.pure moved rfl)

lemma param_follows (follow : Readers.Follow n behind read) (moved : c.Moved n behind c') :
    Follows n behind (Param.shift n) (param read) (param Readers.whole) c c' :=
  .ident moved fun _ moved pos => (typeBehind?_follows (m := .colon) rfl follow moved).bind fun _ _ _ moved forward =>
    (fallback?_follows follow moved).bind fun _ _ _ moved forward' =>
      .readTo moved (forward' (forward pos)) (.pure moved rfl)

lemma params_follows (follow : Readers.Follow n behind read) (moved : c.Moved n behind c') :
    Follows n behind (Param.allShift n) (params read) (params Readers.whole) c c' :=
  (param_follows follow moved).bind fun first _ _ moved _ =>
    .ifTake moved rfl (fun moved _ => follow.bind .params (fun _ => trivial) moved fun rest _ _ moved _ =>
      .pure moved (Param.allShift_cons first rest)) (.pure moved (Param.allShift_cons first []))

lemma parameterList_follows (follow : Readers.Follow n behind read) (moved : c.Moved n behind c') :
    Follows n behind (Param.allShift n) (parameterList read) (parameterList Readers.whole) c c' :=
  .ifAtSolid moved (fun _ _ h => Form.solid_of_reads (follow .params h).1 rfl) (fun _ => .pure moved rfl)
    (follow.form .params (fun _ => trivial) moved)

lemma lambda_follows (follow : Readers.Follow n behind read) (moved : c.Moved n behind c') :
    Follows n behind (Expr.shift n) (lambda read) (lambda Readers.whole) c c' :=
  .expect moved fun _ moved _ => (parameterList_follows follow moved).bind fun _ _ _ moved _ =>
    .expect moved fun _ moved _ => (typeBehind?_follows (m := .arrow) rfl follow moved).bind fun _ _ _ moved _ =>
      .expect (m := .fatArrow) moved fun _ moved _ =>
        follow.bind .expression (fun _ => trivial) moved fun _ _ _ moved _ =>
          .pure moved (by simp [Expr.shift, Lambda.shift, Form.move, Span.shift])

lemma type_follows (follow : Readers.Follow n behind read) (moved : c.Moved n behind c') :
    Follows n behind id (type read) (type Readers.whole) c c' :=
  .ifTake moved rfl (fun moved _ => follow.bind .type (fun _ => trivial) moved fun _ _ _ moved _ =>
    .expect moved fun _ moved _ => .pure moved rfl) (.ident moved fun _ moved _ => .pure moved rfl)

/-- What tells a function literal from an expression in parentheses is the token behind the closing one. -/
lemma startsLambda_parenthesised {e : Expr} {c₁ : Cursor}
    (whole : ∀ {c₀ : Cursor} {e : Expr} {c₁ : Cursor}, Reads (read .expression) c₀ e c₁ → Reads Form.expression.whole c₀ e c₁)
    (h : Reads (parenthesised read) c e c₁) : startsLambda 0 c.rest = (c₁.isAt .fatArrow || c₁.isAt .arrow) := by
  obtain ⟨opening, c₀, inner, closing, rfl⟩ := reads_parenthesised.1 h
  exact (Form.whole_paired .expression _ _ _ (whole inner)).startsLambda_enclosed opening closing

lemma primary_follows (follow : Readers.Follow n behind read) (moved : c.Moved n behind c') (solid : c.atEnd = false) :
    Follows n behind (Expr.shift n) (primary read) (primary Readers.whole) c c' := by
  refine .look ?_
  simp only [moved.next solid, Token.shift_kind]
  split
  case h_1 => exact nameOrPath_follows follow moved
  case h_2 | h_3 | h_4 | h_5 => exact .take moved solid fun moved _ => .pure moved rfl
  case h_6 => exact (follow.form .block (fun _ => trivial) moved).map fun _ => rfl
  case h_7 =>
    exact .take moved solid fun moved _ =>
      (follow.form (.branch c.next.span.start) (fun _ => trivial) moved).map fun _ => rfl
  case h_8 =>
    cases arrow : startsLambda 0 c.rest with
    | true =>
      simp only [moved.tokens.startsLambda arrow, if_true]
      exact follow.form .lambda (fun _ => trivial) moved
    | false =>
      simp only [Bool.false_eq_true, if_false]
      intro e c₁ h
      obtain ⟨c₁', h', moved₁, forward⟩ := parenthesised_follows follow moved e c₁ h
      have arrow' : startsLambda 0 c'.rest = false := by
        rw [startsLambda_parenthesised (fun h => h) h', moved₁.isAt (m := .fatArrow) rfl, moved₁.isAt (m := .arrow) rfl,
          ← startsLambda_parenthesised (fun h => (follow .expression h).1) h, arrow]
      refine ⟨c₁', ?_, moved₁, forward⟩
      rw [arrow']
      exact h'
  case h_9 => exact bracketed_follows follow moved
  case h_10 => exact .refuse

/-- Readers over readers that are followed are followed. -/
lemma step_follows {α : Type} {form : Form α} {a : α} {c₁ : Cursor} (follow : Readers.Follow n behind read)
    (h : Reads (step read form) c a c₁) (whole : Reads form.whole c a c₁) : form.Further n behind c a c₁ := by
  intro c' inside moved
  have solid := Form.solid_of_reads whole
  have found {f : α → α} {y : Reader α} (follows : Follows n behind f (step read form) y c c') :
      ∃ c₁', Reads y c' (f a) c₁' ∧ c₁.Moved n behind c₁' := by
    obtain ⟨c₁', h', moved', -⟩ := follows a c₁ h
    exact ⟨c₁', h', moved'⟩
  simp only [Form.reads_whole]
  cases form with
  | statement =>
    obtain ⟨c₀, c₀', moved₀, ends, read'⟩ := statement_follows follow moved (solid rfl) h
    have solid₀ : c₀.atEnd = false := by
      rcases reads_statementEnd.1 ends with ⟨here, -⟩ | ⟨-, -, rfl⟩
      · exact Cursor.solid_of_isAt here
      · exact inside
    obtain ⟨c₁', ends', moved₁⟩ := statementEnd_follows moved₀ solid₀ ends
    exact ⟨c₁', read' c₁' ends', moved₁⟩
  | statements => exact statements_follows follow moved inside h
  | block => exact found (block_follows follow moved)
  | importItems => exact found (importItems_follows follow moved)
  | expression => exact found (expression_follows follow moved)
  | chain first => exact found (chain_follows follow moved)
  | stagesAfter stage => exact found (stagesAfter_follows follow moved)
  | stage first => exact found (stage_follows follow moved (solid rfl))
  | loop => exact found (loop_follows follow moved)
  | binary least => exact found (binary_follows follow moved)
  | binaryAfter left least => exact found (binaryAfter_follows follow moved)
  | unary => exact found (unary_follows follow moved (solid rfl))
  | suffixes base => exact found (suffixes_follows follow moved)
  | primary => exact found (primary_follows follow moved (solid rfl))
  | pathSegments => exact found (pathSegments_follows follow moved)
  | arguments => exact found (arguments_follows follow moved)
  | items => exact found (items_follows follow moved)
  | branch start => exact found (branch_follows follow moved)
  | lambda => exact found (lambda_follows follow moved)
  | params => exact found (params_follows follow moved)
  | type => exact found (type_follows follow moved)

end Grammar

/-- Whatever is read is read further on. -/
theorem Form.whole_follows : Readers.Follow n behind Readers.whole := by
  intro α form c a c₁ h
  refine ⟨h, Form.whole_induction (P := fun form c a c₁ => form.Further n behind c a c₁) ?_ h⟩
  exact fun read follow α form c a c₁ step whole => Grammar.step_follows follow step whole

end

end PipeLang
