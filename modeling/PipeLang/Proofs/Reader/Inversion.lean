import PipeLang.Proofs.Reader.Reads
import PipeLang.Reader

/-!
# Inversion of the grammar

What each reader of the grammar reads, with the readers of the forms inside it taken as they are: one lemma for each, with one case
for each way in which the form is written. What holds of all that is parsed is shown from these cases.
-/

namespace PipeLang

/-- The literal that a token spells. -/
def Token.literal? (t : Token) : Option Literal :=
  match t.kind with
  | .number value => some (.number value)
  | .text value => some (.text value)
  | .mark .kwTrue => some (.bool true)
  | .mark .kwFalse => some (.bool false)
  | _ => none

/-- A literal is not the end of the text. -/
lemma Cursor.solid_of_literal {c : Cursor} {value : Literal} (h : c.next.literal? = some value) : c.atEnd = false := by
  cases kind : c.next.kind with
  | finish => simp [Token.literal?, kind] at h
  | _ => simp [atEnd, Token.isFinish, kind]

namespace Grammar

open Reader

variable {read : Readers} {c c' : Cursor} {start : Nat} {e : Expr}

/-! ### Statements -/

lemma reads_newName? {name : Option Ident} : Reads newName? c name c' ↔
    c.isAt .kwAs = true ∧ (∃ i : Ident, c.advance.next.name? = some i.name ∧ c.advance.next.span = i.span ∧
      some i = name ∧ c.advance.advance = c') ∨
    c.isAt .kwAs = false ∧ none = name ∧ c = c' := by
  simp only [newName?, reads_ifTake, reads_ident_bind, reads_pure]

lemma reads_importItem {item : ImportItem} : Reads importItem c item c' ↔
    c.isAt .star = true ∧ c.advance = c' ∧ .glob c.next.span = item ∨
    c.isAt .star = false ∧
      (c.isAt .kwSelf = true ∧ (∃ name, Reads newName? c.advance name c' ∧ .self c.next.span name = item) ∨
      c.isAt .kwSelf = false ∧ ∃ i : Ident, c.next.name? = some i.name ∧ c.next.span = i.span ∧
        ∃ name, Reads newName? c.advance name c' ∧ .name i name = item) := by
  simp only [importItem, reads_ifAt, reads_take_bind, reads_ident_bind, reads_bind_pure, reads_take, and_assoc, exists_eq_left']

lemma reads_importItems {items : List ImportItem} : Reads (importItems read) c items c' ↔
    ∃ first c₁, Reads importItem c first c₁ ∧
      (c₁.isAt .comma = true ∧ (∃ rest, Reads (read .importItems) c₁.advance rest c' ∧ first :: rest = items) ∨
      c₁.isAt .comma = false ∧ [first] = items ∧ c₁ = c') := by
  rw [importItems, reads_bind]
  simp only [reads_ifTake, reads_bind_pure, reads_pure]

/-- An import statement names a text, or lists what it imports from one. -/
lemma reads_importStatement {exported : Bool} {i : Import} : Reads (importStatement read exported start) c i c' ↔
    c.isAt .kwImport = true ∧
      ((∃ path, c.advance.next.kind = .text path ∧ ∃ name, Reads newName? c.advance.advance name c' ∧
        ⟨exported, .module name, path, c.advance.next.span, ⟨start, c'.readTo⟩⟩ = i) ∨
      (∀ path, c.advance.next.kind ≠ .text path) ∧ ∃ items c₁, Reads (read .importItems) c.advance items c₁ ∧
        c₁.isAt .kwFrom = true ∧ ∃ path, c₁.advance.next.kind = .text path ∧
          ⟨exported, .list items, path, c₁.advance.next.span, ⟨start, c₁.advance.next.span.stop⟩⟩ = i ∧
          c₁.advance.advance = c') := by
  rw [importStatement, reads_expect_bind, reads_get_bind]
  refine and_congr_right fun _ => ?_
  split
  · next path kind =>
    rw [reads_take_bind, reads_bind_readTo]
    simp [kind]
  · next other =>
    rw [reads_bind, or_iff_right fun ⟨path, kind, _⟩ => other path kind, and_iff_right other]
    simp only [reads_expect_bind, reads_text_bind, reads_pure, Prod.exists, exists_and_left, exists_eq_left']

lemma reads_definition {exported : Bool} {s : Statement} : Reads (definition read exported start) c s c' ↔
    ∃ name : Ident, c.next.name? = some name.name ∧ c.next.span = name.span ∧ c.advance.isAt .eq = true ∧
      ∃ value, Reads (read .expression) c.advance.advance value c' ∧
        .define exported name value ⟨start, value.span.stop⟩ = s := by
  simp only [definition, reads_ident_bind, reads_expect_bind, reads_bind_pure]

/-- A statement ends with a semicolon, or at the end of the line, the block or the text. -/
lemma reads_statementEnd : Reads statementEnd c () c' ↔
    c.isAt .semicolon = true ∧ c.advance = c' ∨
    c.isAt .semicolon = false ∧ (c.next.opensLine || c.isAt .rightBrace || c.atEnd) = true ∧ c = c' := by
  simp only [statementEnd, reads_ifTake, reads_get_bind, reads_ite, reads_pure, true_and]
  simp [Cursor.isAt, Cursor.atEnd]

lemma reads_statementBody {s : Statement} : Reads (statementBody read start) c s c' ↔
    c.isAt .kwImport = true ∧ (∃ i, Reads (importStatement read false start) c i c' ∧ .importing i = s) ∨
    c.isAt .kwImport = false ∧
      (c.isAt .kwExport = true ∧
        (c.advance.isAt .kwImport = true ∧ (∃ i, Reads (importStatement read true start) c.advance i c' ∧ .importing i = s) ∨
        c.advance.isAt .kwImport = false ∧ Reads (definition read true start) c.advance s c') ∨
      c.isAt .kwExport = false ∧
        (c.startsBinding = true ∧ Reads (definition read false start) c s c' ∨
        ¬ c.startsBinding = true ∧ ∃ e, Reads (read .expression) c e c' ∧ .expr e e.span = s)) := by
  simp only [statementBody, reads_ifAt, reads_ifTake, reads_get_bind, reads_ite, reads_map, reads_bind_pure]

lemma reads_statement {s : Statement} : Reads (statement read) c s c' ↔
    ∃ c₁, Reads (statementBody read c.next.span.start) c s c₁ ∧ Reads statementEnd c₁ () c' := by
  rw [statement, reads_here_bind, reads_bind]
  simp only [reads_bind_pure]
  constructor
  · rintro ⟨_, c₁, body, ⟨⟩, ends, rfl⟩
    exact ⟨c₁, body, ends⟩
  · rintro ⟨c₁, body, ends⟩
    exact ⟨s, c₁, body, (), ends, rfl⟩

lemma reads_statements {ss : List Statement} : Reads (statements read) c ss c' ↔
    (c.isAt .rightBrace || c.atEnd) = true ∧ [] = ss ∧ c = c' ∨
    ¬ (c.isAt .rightBrace || c.atEnd) = true ∧
      (c.isAt .semicolon = true ∧ Reads (read .statements) c.advance ss c' ∨
      c.isAt .semicolon = false ∧ ∃ first c₁, Reads (read .statement) c first c₁ ∧
        ∃ rest, Reads (read .statements) c₁ rest c' ∧ first :: rest = ss) := by
  simp only [statements, reads_isAt_bind, reads_get_bind, reads_ite, reads_ifTake, reads_pure]
  rw [reads_bind]
  simp only [reads_bind_pure]

lemma reads_block {b : Block} : Reads (block read) c b c' ↔
    c.isAt .leftBrace = true ∧ ∃ ss c₁, Reads (read .statements) c.advance ss c₁ ∧ c₁.isAt .rightBrace = true ∧
      ⟨ss, ⟨c.next.span.start, c₁.next.span.stop⟩⟩ = b ∧ c₁.advance = c' := by
  rw [block, reads_expect_bind, reads_bind]
  simp only [reads_expect_bind, reads_pure]

/-! ### Chains -/

lemma reads_expression : Reads (expression read) c e c' ↔ ∃ p, Reads (read (.chain true)) c p c' ∧ ofChain p = e := by
  rw [expression, reads_bind_pure]

lemma reads_chain {first : Bool} {p : Pipeline} : Reads (chain read first) c p c' ↔
    ∃ s c₁, Reads (read (.stage first)) c s c₁ ∧
      ∃ rest, Reads (read (.stagesAfter s)) c₁ rest c' ∧ ⟨s :: rest, chainSpan s rest⟩ = p := by
  rw [chain, reads_bind]
  simp only [reads_bind_pure]

lemma reads_stagesAfter {before : Stage} {rest : List Stage} : Reads (stagesAfter read before) c rest c' ↔
    before.isLoop = true ∧ [] = rest ∧ c = c' ∨
    ¬ before.isLoop = true ∧
      (c.isAt .pipe = true ∧ (∃ following c₁, Reads (read (.stage false)) c.advance following c₁ ∧
        ∃ more, Reads (read (.stagesAfter following)) c₁ more c' ∧ following :: more = rest) ∨
      c.isAt .pipe = false ∧ [] = rest ∧ c = c') := by
  simp only [stagesAfter, reads_ite, reads_ifTake, reads_pure]
  rw [reads_bind]
  simp only [reads_bind_pure]

lemma reads_tag? {tag : Option Ident} : Reads tag? c tag c' ↔
    c.isAt .kwAs = true ∧ (∃ i : Ident, c.advance.next.name? = some i.name ∧ c.advance.next.span = i.span ∧
      some i = tag ∧ c.advance.advance = c') ∨
    c.isAt .kwAs = false ∧ none = tag ∧ c = c' := by
  simp only [tag?, reads_ifTake, reads_ident_bind, reads_pure]

/-- A loop has no tag. -/
lemma reads_stageOf {s : Stage} : Reads (stageOf start e) c s c' ↔
    (∃ l, e = .loop l) ∧ .expr e none ⟨start, c.readTo⟩ = s ∧ c = c' ∨
    (∀ l, e ≠ .loop l) ∧ ∃ tag, Reads tag? c tag c' ∧ .expr e tag ⟨start, c'.readTo⟩ = s := by
  unfold stageOf
  split
  · simp only [reads_readTo_bind, reads_pure]
    simp
  · next other =>
    have apart : ¬ ((∃ l, e = .loop l) ∧ .expr e none ⟨start, c.readTo⟩ = s ∧ c = c') :=
      fun both => both.1.elim other
    rw [reads_bind_readTo, or_iff_right apart, and_iff_right other]

/-- Only behind another stage an operator makes a stage with its right operand. -/
lemma reads_stage {begins : Bool} {s : Stage} : Reads (stage read begins) c s c' ↔
    (∃ op, c.next.binaryOp? = some op ∧ begins = false ∧ ∃ operand c₁, Reads (read (.binary (op.precedence + 1))) c.advance operand c₁ ∧
      ∃ tag, Reads tag? c₁ tag c' ∧ .operator op operand tag ⟨c.next.span.start, c'.readTo⟩ = s) ∨
    (c.next.binaryOp? = none ∨ begins = true) ∧
      (c.isAt .kwFor = true ∧ (∃ l c₁, Reads (read .loop) c l c₁ ∧ Reads (stageOf c.next.span.start (.loop l)) c₁ s c') ∨
      c.isAt .kwFor = false ∧ ∃ e c₁, Reads (read (.binary 0)) c e c₁ ∧ Reads (stageOf c.next.span.start e) c₁ s c') := by
  rw [stage, reads_here_bind, reads_get_bind]
  cases found : c.next.binaryOp? with
  | none =>
    dsimp only
    rw [reads_ifAt, reads_bind, reads_bind]
    simp
  | some op =>
    cases begins with
    | true =>
      dsimp only
      rw [reads_ifAt, reads_bind, reads_bind]
      simp
    | false =>
      dsimp only
      rw [reads_take_bind, reads_bind]
      simp only [reads_bind_readTo]
      simp

lemma reads_loop {l : Loop} : Reads (loop read) c l c' ↔
    c.isAt .kwFor = true ∧ ∃ sequence c₁, Reads (read (.binary 0)) c.advance sequence c₁ ∧ c₁.isAt .kwAs = true ∧
      ∃ binding : Ident, c₁.advance.next.name? = some binding.name ∧ c₁.advance.next.span = binding.span ∧
        c₁.advance.advance.isAt .pipe = true ∧ ∃ body, Reads (read (.chain false)) c₁.advance.advance.advance body c' ∧
          ⟨sequence, binding, body, ⟨c.next.span.start, body.span.stop⟩⟩ = l := by
  rw [loop, reads_expect_bind, reads_bind]
  simp only [reads_expect_bind, reads_ident_bind, reads_bind_pure]

/-! ### Operators -/

lemma reads_binary {least : Nat} : Reads (binary read least) c e c' ↔
    ∃ left c₁, Reads (read .unary) c left c₁ ∧ Reads (read (.binaryAfter left least)) c₁ e c' := by
  rw [binary, reads_bind]

/-- An operator that binds tightly enough takes a right operand, and the two are the left operand of what follows. -/
lemma reads_binaryAfter {left : Expr} {least : Nat} : Reads (binaryAfter read left least) c e c' ↔
    (∀ op, c.next.binaryOp? = some op → op.precedence < least) ∧ left = e ∧ c = c' ∨
    ∃ op, c.next.binaryOp? = some op ∧ least ≤ op.precedence ∧
      ∃ right c₁, Reads (read (.binary (op.precedence + 1))) c.advance right c₁ ∧
        Reads (read (.binaryAfter (.binary op left right (left.span.union right.span)) least)) c₁ e c' := by
  rw [binaryAfter, reads_get_bind]
  split
  · next op found =>
    rw [reads_ite, reads_take_bind, reads_bind]
    simp [found]
  · next none => simp [none]

lemma reads_unary : Reads (unary read) c e c' ↔
    c.isAt .minus = true ∧ (∃ operand, Reads (read .unary) c.advance operand c' ∧
      .unary .neg operand ⟨c.next.span.start, operand.span.stop⟩ = e) ∨
    c.isAt .minus = false ∧
      (c.isAt .bang = true ∧ (∃ operand, Reads (read .unary) c.advance operand c' ∧
        .unary .not operand ⟨c.next.span.start, operand.span.stop⟩ = e) ∨
      c.isAt .bang = false ∧ ∃ base c₁, Reads (read .primary) c base c₁ ∧ Reads (read (.suffixes base)) c₁ e c') := by
  simp only [unary, reads_here_bind, reads_ifTake, reads_bind_pure]
  rw [reads_bind]

/-- On the same line an expression may be called or indexed. -/
lemma reads_suffixes {base : Expr} : Reads (suffixes read base) c e c' ↔
    c.next.opensLine = true ∧ base = e ∧ c = c' ∨
    ¬ c.next.opensLine = true ∧
      (c.isAt .leftParen = true ∧ (∃ args c₁, Reads (read .arguments) c.advance args c₁ ∧ c₁.isAt .rightParen = true ∧
        Reads (read (.suffixes (.call base args ⟨base.span.start, c₁.next.span.stop⟩))) c₁.advance e c') ∨
      c.isAt .leftParen = false ∧
        (c.isAt .leftBracket = true ∧ (∃ index c₁, Reads (read .expression) c.advance index c₁ ∧ c₁.isAt .rightBracket = true ∧
          Reads (read (.suffixes (.index base index ⟨base.span.start, c₁.next.span.stop⟩))) c₁.advance e c') ∨
        c.isAt .leftBracket = false ∧ base = e ∧ c = c')) := by
  simp only [suffixes, reads_get_bind, reads_ite, reads_ifTake, reads_bind (x := read _), reads_expect_bind, reads_pure]

/-! ### Calls, arrays and paths -/

lemma reads_argument {a : Argument} : Reads (argument read) c a c' ↔
    c.startsBinding = true ∧ (∃ name : Ident, c.next.name? = some name.name ∧ c.next.span = name.span ∧ c.advance.isAt .eq = true ∧
      ∃ value, Reads (read .expression) c.advance.advance value c' ∧ ⟨some name, value⟩ = a) ∨
    ¬ c.startsBinding = true ∧ ∃ value, Reads (read .expression) c value c' ∧ ⟨none, value⟩ = a := by
  simp only [argument, reads_get_bind, reads_ite, reads_ident_bind, reads_expect_bind, reads_bind_pure]

lemma reads_arguments {args : List Argument} : Reads (arguments read) c args c' ↔
    c.isAt .rightParen = true ∧ [] = args ∧ c = c' ∨
    c.isAt .rightParen = false ∧ ∃ first c₁, Reads (argument read) c first c₁ ∧
      (c₁.isAt .comma = true ∧ (∃ rest, Reads (read .arguments) c₁.advance rest c' ∧ first :: rest = args) ∨
      c₁.isAt .comma = false ∧ [first] = args ∧ c₁ = c') := by
  simp only [arguments, reads_ifAt, reads_bind (x := argument read), reads_ifTake, reads_bind_pure, reads_pure]

lemma reads_pathSegments {segments : List Ident} : Reads (pathSegments read) c segments c' ↔
    c.isAt .colonColon = true ∧ (∃ segment : Ident, c.advance.next.name? = some segment.name ∧
      c.advance.next.span = segment.span ∧ ∃ more, Reads (read .pathSegments) c.advance.advance more c' ∧
        segment :: more = segments) ∨
    c.isAt .colonColon = false ∧ [] = segments ∧ c = c' := by
  simp only [pathSegments, reads_ifTake, reads_ident_bind, reads_bind_pure, reads_pure]

lemma reads_nameOrPath : Reads (nameOrPath read) c e c' ↔
    ∃ head : Ident, c.next.name? = some head.name ∧ c.next.span = head.span ∧
      ∃ rest, Reads (read .pathSegments) c.advance rest c' ∧
        (rest = [] ∧ .name head = e ∨
        ∃ last, rest.getLast? = some last ∧ .path head rest ⟨head.span.start, last.span.stop⟩ = e) := by
  simp only [nameOrPath, reads_ident_bind]
  refine exists_congr fun head => and_congr_right fun _ => and_congr_right fun _ => ?_
  rw [reads_bind]
  refine exists_congr fun rest => ?_
  cases isLast : rest.getLast? with
  | none => simp [List.getLast?_eq_none_iff.1 isLast]
  | some last =>
    have some : rest ≠ [] := by
      rintro rfl
      cases isLast
    simp [some]

lemma reads_items {es : List Expr} : Reads (items read) c es c' ↔
    c.isAt .comma = true ∧
      (c.advance.isAt .rightBracket = true ∧ [] = es ∧ c.advance = c' ∨
      c.advance.isAt .rightBracket = false ∧ ∃ e c₁, Reads (read .expression) c.advance e c₁ ∧
        ∃ rest, Reads (read .items) c₁ rest c' ∧ e :: rest = es) ∨
    c.isAt .comma = false ∧ [] = es ∧ c = c' := by
  simp only [items, reads_ifTake, reads_ifAt, reads_bind (x := read .expression), reads_bind_pure, reads_pure]

lemma reads_rangeFrom {first : Expr} {inclusive : Bool} : Reads (rangeFrom read start first inclusive) c e c' ↔
    ∃ last c₁, Reads (read .expression) c last c₁ ∧ c₁.isAt .rightBracket = true ∧
      .range first last inclusive ⟨start, c₁.next.span.stop⟩ = e ∧ c₁.advance = c' := by
  rw [rangeFrom, reads_bind]
  simp only [reads_expect_bind, reads_pure]

lemma reads_bracketed : Reads (bracketed read) c e c' ↔
    c.isAt .leftBracket = true ∧
      (c.advance.isAt .rightBracket = true ∧ 
        .array [] ⟨c.next.span.start, c.advance.next.span.stop⟩ = e ∧ c.advance.advance = c' ∨
      c.advance.isAt .rightBracket = false ∧ ∃ first c₁, Reads (read .expression) c.advance first c₁ ∧
        (c₁.isAt .dotDot = true ∧ Reads (rangeFrom read c.next.span.start first false) c₁.advance e c' ∨
        c₁.isAt .dotDot = false ∧
          (c₁.isAt .dotDotEq = true ∧ Reads (rangeFrom read c.next.span.start first true) c₁.advance e c' ∨
          c₁.isAt .dotDotEq = false ∧ ∃ rest c₂, Reads (read .items) c₁ rest c₂ ∧ c₂.isAt .rightBracket = true ∧
            .array (first :: rest) ⟨c.next.span.start, c₂.next.span.stop⟩ = e ∧ c₂.advance = c'))) := by
  simp only [bracketed, reads_expect_bind, reads_ifAt, reads_bind (x := read _), reads_ifTake, reads_take_bind, reads_pure]

lemma reads_parenthesised : Reads (parenthesised read) c e c' ↔
    c.isAt .leftParen = true ∧ ∃ c₁, Reads (read .expression) c.advance e c₁ ∧ c₁.isAt .rightParen = true ∧ c₁.advance = c' := by
  rw [parenthesised, reads_expect_bind, reads_bind]
  simp only [reads_expect_bind, reads_pure]
  refine and_congr_right fun _ => ⟨?_, ?_⟩
  · rintro ⟨_, c₁, inner, closed, rfl, moved⟩
    exact ⟨c₁, inner, closed, moved⟩
  · rintro ⟨c₁, inner, closed, moved⟩
    exact ⟨e, c₁, inner, closed, rfl, moved⟩

/-- The next token says how a primary expression goes on; behind a parenthesis the rest of the tokens does. -/
lemma reads_primary : Reads (primary read) c e c' ↔
    (∃ name, c.next.kind = .identifier name) ∧ Reads (nameOrPath read) c e c' ∨
    (∃ value, c.next.literal? = some value ∧ .literal value c.next.span = e ∧ c.advance = c') ∨
    c.next.kind = .mark .leftBrace ∧ (∃ b, Reads (read .block) c b c' ∧ .block b = e) ∨
    c.next.kind = .mark .kwIf ∧ (∃ b, Reads (read (.branch c.next.span.start)) c.advance b c' ∧ .branch b = e) ∨
    c.next.kind = .mark .leftParen ∧
      (startsLambda 0 c.rest = true ∧ Reads (read .lambda) c e c' ∨
      ¬ startsLambda 0 c.rest = true ∧ Reads (parenthesised read) c e c') ∨
    c.next.kind = .mark .leftBracket ∧ Reads (bracketed read) c e c' := by
  rw [primary, reads_get_bind]
  split
  · next kind => simp [Token.literal?, kind]
  · next kind =>
    rw [reads_take_bind]
    simp [Token.literal?, kind]
  · next kind =>
    rw [reads_take_bind]
    simp [Token.literal?, kind]
  · next kind =>
    rw [reads_take_bind]
    simp [Token.literal?, kind]
  · next kind =>
    rw [reads_take_bind]
    simp [Token.literal?, kind]
  · next kind => simp [Token.literal?, kind]
  · next kind =>
    rw [reads_take_bind]
    simp [Token.literal?, kind]
  · next kind =>
    rw [reads_ite]
    simp [Token.literal?, kind]
  · next kind => simp [Token.literal?, kind]
  · simp_all [Token.literal?]

/-! ### Conditionals and function literals -/

lemma reads_alternative {a : Alternative} : Reads (alternative read) c a c' ↔
    c.isAt .kwElse = true ∧
      (c.advance.isAt .kwIf = true ∧
        (∃ b, Reads (read (.branch c.advance.next.span.start)) c.advance.advance b c' ∧ .branch b = a) ∨
      c.advance.isAt .kwIf = false ∧ ∃ b, Reads (read .block) c.advance b c' ∧ .block b = a) ∨
    c.isAt .kwElse = false ∧ .absent = a ∧ c = c' := by
  simp only [alternative, reads_ifTake, reads_ifAt, reads_take_bind, reads_map, reads_pure]

lemma reads_branch {b : Branch} : Reads (branch read start) c b c' ↔
    ∃ condition c₁, Reads (read (.binary 0)) c condition c₁ ∧ ∃ consequence c₂, Reads (read .block) c₁ consequence c₂ ∧
      ∃ other, Reads (alternative read) c₂ other c' ∧ ⟨condition, consequence, other, ⟨start, c'.readTo⟩⟩ = b := by
  rw [branch, reads_bind]
  simp only [reads_bind (x := read _), reads_bind_readTo]

lemma reads_typeNote {note : TypeNote} : Reads (typeNote read) c note c' ↔
    ∃ ty, Reads (read .type) c ty c' ∧ ⟨ty, ⟨c.next.span.start, c'.readTo⟩⟩ = note := by
  rw [typeNote, reads_here_bind, reads_bind_readTo]

lemma reads_typeBehind? {m : Mark} {note : Option TypeNote} : Reads (typeBehind? read m) c note c' ↔
    c.isAt m = true ∧ (∃ found, Reads (typeNote read) c.advance found c' ∧ some found = note) ∨
    c.isAt m = false ∧ none = note ∧ c = c' := by
  simp only [typeBehind?, reads_ifTake, reads_bind_pure, reads_pure]

lemma reads_fallback? {value : Option Expr} : Reads (fallback? read) c value c' ↔
    c.isAt .eq = true ∧ (∃ found, Reads (read (.binary 0)) c.advance found c' ∧ some found = value) ∨
    c.isAt .eq = false ∧ none = value ∧ c = c' := by
  simp only [fallback?, reads_ifTake, reads_bind_pure, reads_pure]

lemma reads_param {q : Param} : Reads (param read) c q c' ↔
    ∃ name : Ident, c.next.name? = some name.name ∧ c.next.span = name.span ∧
      ∃ note c₁, Reads (typeBehind? read .colon) c.advance note c₁ ∧
        ∃ value, Reads (fallback? read) c₁ value c' ∧ ⟨name, note, value, ⟨name.span.start, c'.readTo⟩⟩ = q := by
  simp only [param, reads_ident_bind, reads_bind (x := typeBehind? read _), reads_bind_readTo]

lemma reads_params {ps : List Param} : Reads (params read) c ps c' ↔
    ∃ first c₁, Reads (param read) c first c₁ ∧
      (c₁.isAt .comma = true ∧ (∃ rest, Reads (read .params) c₁.advance rest c' ∧ first :: rest = ps) ∨
      c₁.isAt .comma = false ∧ [first] = ps ∧ c₁ = c') := by
  rw [params, reads_bind]
  simp only [reads_ifTake, reads_bind_pure, reads_pure]

lemma reads_parameterList {ps : List Param} : Reads (parameterList read) c ps c' ↔
    c.isAt .rightParen = true ∧ [] = ps ∧ c = c' ∨ c.isAt .rightParen = false ∧ Reads (read .params) c ps c' := by
  simp only [parameterList, reads_ifAt, reads_pure]

lemma reads_lambda : Reads (lambda read) c e c' ↔
    c.isAt .leftParen = true ∧ ∃ ps c₁, Reads (parameterList read) c.advance ps c₁ ∧ c₁.isAt .rightParen = true ∧
      ∃ returns c₂, Reads (typeBehind? read .arrow) c₁.advance returns c₂ ∧ c₂.isAt .fatArrow = true ∧
        ∃ body, Reads (read .expression) c₂.advance body c' ∧
          .lambda ⟨ps, returns, body, ⟨c.next.span.start, body.span.stop⟩⟩ = e := by
  simp only [lambda, reads_expect_bind, reads_bind (x := parameterList read), reads_bind (x := typeBehind? read _), reads_bind_pure]

lemma reads_type {ty : Ty} : Reads (type read) c ty c' ↔
    c.isAt .leftBracket = true ∧ (∃ element c₁, Reads (read .type) c.advance element c₁ ∧ c₁.isAt .rightBracket = true ∧
      .array element = ty ∧ c₁.advance = c') ∨
    c.isAt .leftBracket = false ∧ ∃ name : Ident, c.next.name? = some name.name ∧ c.next.span = name.span ∧
      .ofName name.name = ty ∧ c.advance = c' := by
  simp only [type, reads_ifTake, reads_bind (x := read _), reads_expect_bind, reads_ident_bind, reads_pure]

end Grammar

end PipeLang
