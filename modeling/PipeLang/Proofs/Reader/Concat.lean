import PipeLang.Proofs.Reader.Further

/-!
# Two texts as one

Statements do not bleed into each other: two texts that are read without an error, with a semicolon between them on a line
of its own, are read as the statements of the first and then those of the second, further on: `Module.parse_joined`.
-/

namespace PipeLang

namespace Reader

variable {n : Nat} {behind : List Token} {c c' : Cursor} {statements statements' more : List Statement}
variable {errors errors' : List SyntaxError}

/-- There is one way to read statements one after another. -/
lemma Parsed.unique (h : Parsed c statements errors) (h' : Parsed c statements' errors') :
    statements = statements' ∧ errors = errors' := by
  induction h generalizing statements' errors' with
  | finish atEnd =>
    cases h' with
    | finish => exact ⟨rfl, rfl⟩
    | _ solid => simp [atEnd] at solid
  | semicolon solid here _ _ ih =>
    cases h' with
    | finish atEnd => simp [atEnd] at solid
    | semicolon _ _ _ rest => exact ih rest
    | _ _ absent => simp [here] at absent
  | statement solid absent read _ _ _ ih =>
    cases h' with
    | finish atEnd => simp [atEnd] at solid
    | semicolon _ here => simp [here] at absent
    | statement _ _ read' _ _ rest =>
      cases read.symm.trans read'
      obtain ⟨rfl, rfl⟩ := ih rest
      exact ⟨rfl, rfl⟩
    | refused _ _ refused => cases read.symm.trans refused
  | refused solid absent refused _ _ _ _ ih =>
    cases h' with
    | finish atEnd => simp [atEnd] at solid
    | semicolon _ here => simp [here] at absent
    | statement _ _ read => cases refused.symm.trans read
    | refused _ _ refused' _ _ _ rest =>
      cases refused.symm.trans refused'
      obtain ⟨rfl, rfl⟩ := ih rest
      exact ⟨rfl, rfl⟩

/-- A statement is read, and then those behind it. -/
lemma Parsed.cons {first : Statement} (solid : c.atEnd = false) (absent : c.isAt .semicolon = false)
    (read : Reads Form.statement.whole c first c') (rest : Parsed c' statements errors) :
    Parsed c (first :: statements) errors :=
  .statement solid absent read (Form.reaches_of_reads read).1 (Form.reaches_of_reads read).2 rest

/-- Statements that are read without an error up to the end of a text are read further on, and then those that are read
from what stands in place of the end. -/
theorem Parsed.follows (h : Parsed c statements []) (moved : c.Moved n behind c')
    (noParen : ∀ readTo, (Cursor.mk behind readTo).isAt .rightParen = false)
    (after : ∀ readTo, Parsed ⟨behind, readTo⟩ more []) : Parsed c' (statements.map (Statement.shift n) ++ more) [] := by
  generalize none : ([] : List SyntaxError) = errors at h
  induction h generalizing c' with
  | finish atEnd =>
    obtain ⟨rest, readTo⟩ := c'
    obtain rfl : rest = behind := moved.rest_of_atEnd atEnd
    rw [← none]
    exact after readTo
  | semicolon solid here _ _ ih =>
    have next := moved.next solid
    obtain ⟨moved₁, -⟩ := moved.advance solid
    have solid' : c'.atEnd = false := by simpa [Cursor.atEnd, next, Token.isFinish] using solid
    refine .semicolon solid' (by simpa [Cursor.isAt, next] using here) ?_ (ih moved₁ none)
    have := Cursor.advance_length solid'
    omega
  | @statement c first c₁ statements errors solid absent read _ _ rest ih =>
    have next := moved.next solid
    have solid' : c'.atEnd = false := by simpa [Cursor.atEnd, next, Token.isFinish] using solid
    have absent' : c'.isAt .semicolon = false := by simpa [Cursor.isAt, next] using absent
    obtain ⟨c₀, c₀', moved₀, ends, read'⟩ :=
      Grammar.statement_follows Form.whole_follows moved solid (Form.reads_whole.1 read)
    cases atEnd : c₀.atEnd with
    | false =>
      obtain ⟨c₁', ends', moved₁⟩ := Grammar.statementEnd_follows moved₀ atEnd ends
      exact .cons solid' absent' (Form.reads_whole.2 (read' c₁' ends')) (ih moved₁ none)
    | true =>
    obtain rfl : c₀ = c₁ := by
      rcases Grammar.reads_statementEnd.1 ends with ⟨here, -⟩ | ⟨-, -, same⟩
      · simp [Cursor.solid_of_isAt here] at atEnd
      · exact same
    have there := moved₀.rest_of_atEnd atEnd
    have noParen₀ : c₀'.isAt .rightParen = false := by
      have closed := noParen c₀'.readTo
      rwa [← there] at closed
    obtain ⟨c₁', ends', moved₁ | ⟨semicolon, rfl⟩⟩ := Grammar.statementEnd_seam moved₀ atEnd noParen₀
    · exact .cons solid' absent' (Form.reads_whole.2 (read' c₁' ends')) (ih moved₁ none)
    · -- the statement takes the semicolon, which is the first of what comes after
      refine .cons solid' absent' (Form.reads_whole.2 (read' _ ends')) ?_
      have last : statements = [] := by
        cases rest with
        | finish => rfl
        | _ solid => simp [atEnd] at solid
      have here : Parsed c₀' more [] := by
        have all := after c₀'.readTo
        rwa [← there] at all
      rw [last, ← none]
      cases here with
      | finish atEnd => simp [Cursor.solid_of_isAt semicolon] at atEnd
      | semicolon _ _ _ rest => exact rest
      | statement _ absent => simp [semicolon] at absent
  | refused => cases none

end Reader

namespace Module

lemma scan_of_parse {source : String} {m : Module} (h : parse source = .ok m) : ∃ tokens, Token.scan source = .ok tokens := by
  simp only [parse] at h
  cases scanned : Token.scan source with
  | error e => simp [scanned, bind, Except.bind] at h
  | ok tokens => exact ⟨tokens, rfl⟩

/-- What is parsed without an error is read statement after statement. -/
lemma parse_eq_ok {source : String} {tokens : List Token} {m : Module} (scanned : Token.scan source = .ok tokens) :
    parse source = .ok m ↔ Reader.Parsed ⟨tokens, 0⟩ m.statements [] ∧ m.span = ⟨0, source.utf8ByteSize⟩ := by
  obtain ⟨-, statements, errors, parsed, none, some, -⟩ := parse_progress scanned
  constructor
  · intro h
    by_cases empty : errors = []
    · cases (none empty).symm.trans h
      rw [empty] at parsed
      exact ⟨parsed, rfl⟩
    · cases (some empty).symm.trans h
  · rintro ⟨parsed', span⟩
    obtain ⟨rfl, rfl⟩ := parsed.unique parsed'
    obtain ⟨_, _⟩ := m
    cases span
    exact none rfl

/-- Two texts that are read without an error, with a semicolon between them on a line of its own, are read as the statements
of the first and then those of the second, which are further on by the bytes in front of them. -/
theorem parse_joined {s₁ s₂ : String} {m₁ m₂ : Module} (first : parse s₁ = .ok m₁) (second : parse s₂ = .ok m₂) :
    parse (s₁ ++ "\n;\n" ++ s₂) = .ok
      ⟨m₁.statements ++ m₂.statements.map (Statement.shift (s₁.utf8ByteSize + 3)), ⟨0, (s₁ ++ "\n;\n" ++ s₂).utf8ByteSize⟩⟩ := by
  obtain ⟨tokens₁, scanned₁⟩ := scan_of_parse first
  obtain ⟨tokens₂, scanned₂⟩ := scan_of_parse second
  obtain ⟨front₁, last₁, rfl, finish₁, inside₁⟩ := Token.scan_front scanned₁
  obtain ⟨front₂, last₂, rfl, finish₂, inside₂⟩ := Token.scan_front scanned₂
  have parsed₁ := ((parse_eq_ok scanned₁).1 first).1
  have parsed₂ := ((parse_eq_ok scanned₂).1 second).1
  refine (parse_eq_ok (Token.scan_joined scanned₁ scanned₂)).2 ⟨?_, rfl⟩
  generalize s₁.utf8ByteSize + 3 = n
  -- the second text stands further on, with its own end behind it
  have later (readTo : Nat) : Reader.Parsed ⟨(front₂ ++ [last₂]).map (Token.shift n), readTo⟩
      (m₂.statements.map (Statement.shift n)) [] := by
    have tokens : Token.Moved n [last₂.shift n] (front₂ ++ [last₂]) (front₂.map (Token.shift n) ++ [last₂.shift n]) :=
      .of_front (Token.isFinish_of_kind finish₂) inside₂
    have all : Reader.Parsed ⟨front₂.map (Token.shift n) ++ [last₂.shift n], readTo⟩
        (m₂.statements.map (Statement.shift n) ++ []) [] :=
      parsed₂.follows ⟨tokens, ⟨_, _, rfl, .inl finish₂⟩, nofun⟩
        (fun _ => Token.isMark_of_finish (Token.isFinish_of_kind finish₂)) fun _ => .finish (Token.isFinish_of_kind finish₂)
    simpa using all
  -- the first stands where it stood, with the semicolon in place of its end
  have stays : m₁.statements.map (Statement.shift 0) = m₁.statements := List.map_id'' Statement.shift_zero _
  show Reader.Parsed _ (m₁.statements ++ _) []
  rw [← Token.map_shift_zero front₁, ← stays]
  exact parsed₁.follows
    ⟨.of_front (Token.isFinish_of_kind finish₁) inside₁, ⟨_, _, rfl, .inr ⟨.semicolon, rfl, rfl⟩⟩, nofun⟩ (fun _ => rfl)
      fun readTo => .semicolon rfl rfl (Nat.lt_succ_self _) (later _)

/-- What stands in parentheses behind a function literal is neither an argument of its body nor a parameter. -/
theorem parse_joined_parentheses :
    ∃ m₁ m₂ : Module, parse "f = (x) => g" = .ok m₁ ∧ m₁.statements.length = 1 ∧
      parse "(y) - z" = .ok m₂ ∧ m₂.statements.length = 1 ∧
      parse ("f = (x) => g" ++ "\n;\n" ++ "(y) - z") =
        .ok ⟨m₁.statements ++ m₂.statements.map (Statement.shift 15), ⟨0, 22⟩⟩ := by
  obtain ⟨m₁, first, one⟩ : ∃ m, parse "f = (x) => g" = .ok m ∧ m.statements.length = 1 := ⟨_, by cbv, rfl⟩
  obtain ⟨m₂, second, alone⟩ : ∃ m, parse "(y) - z" = .ok m ∧ m.statements.length = 1 := ⟨_, by cbv, rfl⟩
  exact ⟨m₁, m₂, first, one, second, alone, parse_joined first second⟩

end Module

end PipeLang
