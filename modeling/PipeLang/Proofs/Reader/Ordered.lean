import PipeLang.Proofs.Reader.Inversion

/-!
# Parsed syntax is ordered

What a form reads stands between the cursor before it and the cursor behind it, and is in order. `Form.Fits`
says so form by form; forms that continue something say it of the whole. Main statement: `parse_ordered`.
-/

namespace PipeLang

/-- The end of the last of some stages that follow a stage. -/
def Stage.lastStop (before : Stage) (rest : List Stage) : Nat :=
  ((before :: rest).getLast (List.cons_ne_nil before rest)).span.stop

/-- A place that begins at or behind the next token and ends where everything has been read. -/
def Cursor.Holds (c c' : Cursor) (s : Span) : Prop :=
  c.next.span.start ≤ s.start ∧ s.stop ≤ c'.readTo

/-- What reading a form from one cursor to another yields. -/
def Form.Fits {α : Type} (form : Form α) (c : Cursor) (a : α) (c' : Cursor) : Prop :=
  match form, a with
  | .statement, s =>
    s.Ordered ∧ c.Holds c' s.span ∧
      (s.span.stop < c'.next.span.start ∨ c'.isAt .rightBrace = true ∨ c'.atEnd = true)
  | .statements, ss =>
    (∀ lo, lo ≤ c.readTo + 1 →
      lo ≤ c.next.span.start ∨ c.isAt .rightBrace = true ∨ c.atEnd = true →
      Span.InOrder lo c'.readTo (ss.map Statement.span)) ∧ ∀ s ∈ ss, s.Ordered
  | .block, b => b.Ordered ∧ c.Holds c' b.span
  | .expression, e | .binary _, e | .unary, e | .primary, e | .lambda, e => e.Ordered ∧ c.Holds c' e.span
  | .chain _, p => p.Ordered ∧ c.Holds c' p.span
  | .stagesAfter before, rest =>
    before.span.stop ≤ c.readTo →
      Span.InOrder (before.span.stop + 1) (before.lastStop rest) (rest.map Stage.span) ∧
        (∀ s ∈ rest, s.Ordered) ∧ before.lastStop rest ≤ c'.readTo
  | .stage _, s => s.Ordered ∧ c.Holds c' s.span
  | .loop, l => l.Ordered ∧ c.Holds c' l.span
  | .binaryAfter left _, e | .suffixes left, e =>
    left.Ordered → left.span.stop ≤ c.readTo →
      e.Ordered ∧ left.span.start ≤ e.span.start ∧ e.span.stop ≤ c'.readTo
  | .pathSegments, rest =>
    ∀ last, rest.getLast? = some last → c.readTo < last.span.stop ∧ last.span.stop ≤ c'.readTo
  | .arguments, args =>
    (∀ lo, lo ≤ c.readTo → Span.InOrder lo c'.readTo (args.map fun a => a.value.span)) ∧
      ∀ a ∈ args, a.value.Ordered
  | .items, es =>
    (∀ lo, lo ≤ c.readTo + 1 → Span.InOrder lo c'.readTo (es.map Expr.span)) ∧ ∀ e ∈ es, e.Ordered
  | .branch start, b =>
    start < c.readTo → b.Ordered ∧ b.span.start = start ∧ b.span.stop ≤ c'.readTo
  | .params, ps =>
    (∀ lo, lo ≤ c.readTo → Span.InOrder lo c'.readTo (ps.map Param.span)) ∧ ∀ p ∈ ps, p.Ordered
  | .importItems, _ | .type, _ => True

/-- A run of a form's reader as it should be. -/
structure Form.Sound {α : Type} (form : Form α) (c : Cursor) (a : α) (c' : Cursor) : Prop where
  fits : form.Fits c a c'
  order : c'.InOrder
  forward : c.readTo ≤ c'.readTo

/-- Every run of these readers is as it should be. -/
def Readers.Sound (read : Readers) : Prop :=
  ∀ {α : Type} (form : Form α) {c : Cursor} {a : α} {c' : Cursor},
    c.InOrder → Reader.Reads (read form) c a c' → form.Sound c a c'

namespace Grammar

open Reader Cursor

variable {read : Readers} {c c' : Cursor}

/-- An operator is not the end of the text. -/
lemma solid_of_binaryOp {op : BinaryOp} (h : c.next.binaryOp? = some op) : c.atEnd = false := by
  simp only [Token.binaryOp?, atEnd, Token.isFinish] at *
  cases kind : c.next.kind <;> simp_all

/-- A name behind `as` moves the cursor forward. -/
lemma newName?_sound {a : Option Ident} (order : c.InOrder) (h : Reads newName? c a c') :
    c'.InOrder ∧ c.readTo ≤ c'.readTo := by
  obtain ⟨isAs, _, name, place, -, rfl⟩ | ⟨-, -, rfl⟩ := reads_newName?.1 h
  · obtain ⟨order₁, _, _, _⟩ := order.takeMark isAs
    obtain ⟨order₂, _, _, _, _⟩ := order₁.takeName name place
    exact ⟨order₂, by omega⟩
  · exact ⟨order, Nat.le_refl _⟩

/-- A tag stands behind what has been read. -/
lemma tag?_sound {a : Option Ident} (order : c.InOrder) (h : Reads tag? c a c') :
    Ident.TagBetween (c.readTo + 1) c'.readTo a ∧ c'.InOrder ∧ c.readTo ≤ c'.readTo := by
  obtain ⟨isAs, _, name, place, rfl, rfl⟩ | ⟨-, rfl, rfl⟩ := reads_tag?.1 h
  · obtain ⟨order₁, _, _, _⟩ := order.takeMark isAs
    obtain ⟨order₂, _, _, proper, _⟩ := order₁.takeName name place
    exact ⟨.some (by omega) proper (by omega), order₂, by omega⟩
  · exact ⟨.none, order, Nat.le_refl _⟩

/-- Behind a statement the line or the block ends, or a semicolon has been taken. -/
lemma statementEnd_sound (order : c.InOrder) (some_read : 0 < c.readTo) (h : Reads statementEnd c () c') :
    (c.readTo < c'.next.span.start ∨ c'.isAt .rightBrace = true ∨ c'.atEnd = true) ∧ c'.InOrder ∧
      c.readTo ≤ c'.readTo := by
  obtain ⟨isEnd, rfl⟩ | ⟨-, ends, rfl⟩ := reads_statementEnd.1 h
  · obtain ⟨order₁, _, _, _⟩ := order.takeMark isEnd
    have := order₁.next_start
    exact ⟨Or.inl (by omega), order₁, by omega⟩
  · refine ⟨?_, order, Nat.le_refl _⟩
    simp only [Bool.or_eq_true] at ends
    rcases ends with (opens | brace) | finish
    · cases ending : c.atEnd with
      | true => exact Or.inr (Or.inr rfl)
      | false =>
        have := order.next_gap opens ending
        exact Or.inl (by omega)
    · exact Or.inr (Or.inl brace)
    · exact Or.inr (Or.inr finish)

/-- An import item moves the cursor forward. -/
lemma importItem_sound {a : ImportItem} (order : c.InOrder) (h : Reads importItem c a c') :
    c'.InOrder ∧ c.readTo ≤ c'.readTo := by
  obtain ⟨isStar, rfl, -⟩ | ⟨-, ⟨isSelf, _, named, -⟩ | ⟨-, _, name, place, _, named, -⟩⟩ := reads_importItem.1 h
  · obtain ⟨order₁, _, _, _⟩ := order.takeMark isStar
    exact ⟨order₁, by omega⟩
  · obtain ⟨order₁, _, _, _⟩ := order.takeMark isSelf
    obtain ⟨order₂, _⟩ := newName?_sound order₁ named
    exact ⟨order₂, by omega⟩
  · obtain ⟨order₁, _, _, _, _⟩ := order.takeName name place
    obtain ⟨order₂, _⟩ := newName?_sound order₁ named
    exact ⟨order₂, by omega⟩

lemma importItems_sound (ih : Readers.Sound read) {items : List ImportItem} (order : c.InOrder)
    (h : Reads (importItems read) c items c') : Form.importItems.Sound c items c' := by
  obtain ⟨first, c₁, readFirst, behind⟩ := reads_importItems.1 h
  obtain ⟨order₁, _⟩ := importItem_sound order readFirst
  obtain ⟨isComma, rest, readRest, -⟩ | ⟨-, -, rfl⟩ := behind
  · obtain ⟨order₂, _, _, _⟩ := order₁.takeMark isComma
    obtain ⟨-, order₃, _⟩ := ih .importItems order₂ readRest
    exact ⟨trivial, order₃, by omega⟩
  · exact ⟨trivial, order₁, by omega⟩

/-- An import statement behind an offset is in order. -/
lemma importStatement_sound (ih : Readers.Sound read) {exported : Bool} {start : Nat} {i : Import}
    (order : c.InOrder) (from_ : start ≤ c.next.span.start)
    (h : Reads (importStatement read exported start) c i c') :
    (i.span.start = start ∧ i.span.start < i.span.stop ∧ i.span.stop = c'.readTo) ∧ c'.InOrder ∧
      c.readTo ≤ c'.readTo := by
  obtain ⟨isImport, whole⟩ := reads_importStatement.1 h
  obtain ⟨order₁, _, _, _⟩ := order.takeMark isImport
  obtain ⟨_, kind, _, named, rfl⟩ | ⟨-, items, c₂, readItems, isFrom, _, kind, rfl, rfl⟩ := whole
  · obtain ⟨order₂, _, _, _⟩ := order₁.advance (solid_of_kind kind (by simp))
    obtain ⟨order₃, _⟩ := newName?_sound order₂ named
    exact ⟨⟨rfl, by simp only; omega, rfl⟩, order₃, by omega⟩
  · obtain ⟨-, order₂, _⟩ := ih .importItems order₁ readItems
    obtain ⟨order₃, _, _, _⟩ := order₂.takeMark isFrom
    obtain ⟨order₄, _, _, _⟩ := order₃.advance (solid_of_kind kind (by simp))
    exact ⟨⟨rfl, by simp only; omega, by simp only; omega⟩, order₄, by omega⟩

/-- A definition behind an offset is in order. -/
lemma definition_sound (ih : Readers.Sound read) {exported : Bool} {start : Nat} {s : Statement}
    (order : c.InOrder) (from_ : start ≤ c.next.span.start)
    (h : Reads (definition read exported start) c s c') :
    (s.Ordered ∧ s.span.start = start ∧ s.span.stop ≤ c'.readTo) ∧ c'.InOrder ∧
      c.readTo ≤ c'.readTo := by
  obtain ⟨name, named, place, isEq, value, readValue, rfl⟩ := reads_definition.1 h
  obtain ⟨order₁, _, _, proper, _⟩ := order.takeName named place
  obtain ⟨order₂, _, _, _⟩ := order₁.takeMark isEq
  obtain ⟨⟨valueOrdered, valueStart, valueStop⟩, order₃, _⟩ := ih .expression order₂ readValue
  have := order₂.next_start
  exact ⟨⟨.define (by simp only; omega) proper (by omega) valueOrdered (Nat.le_refl _), rfl, valueStop⟩,
    order₃, by omega⟩

/-- A statement behind an offset is in order. -/
lemma statementBody_sound (ih : Readers.Sound read) {start : Nat} {s : Statement} (order : c.InOrder)
    (from_ : start ≤ c.next.span.start) (h : Reads (statementBody read start) c s c') :
    (s.Ordered ∧ start ≤ s.span.start ∧ s.span.stop ≤ c'.readTo) ∧ c'.InOrder ∧
      c.readTo ≤ c'.readTo := by
  have importing {exported : Bool} {c₁ : Cursor} {i : Import} (order₁ : c₁.InOrder) (from₁ : start ≤ c₁.next.span.start)
      (h : Reads (importStatement read exported start) c₁ i c') :
      ((Statement.importing i).Ordered ∧ start ≤ i.span.start ∧ i.span.stop ≤ c'.readTo) ∧ c'.InOrder ∧
        c₁.readTo ≤ c'.readTo := by
    obtain ⟨⟨starts, proper, stops⟩, order', forward⟩ := importStatement_sound ih order₁ from₁ h
    exact ⟨⟨.importing proper, Nat.le_of_eq starts.symm, Nat.le_of_eq stops⟩, order', forward⟩
  have defining {exported : Bool} {c₁ : Cursor} (order₁ : c₁.InOrder)
      (from₁ : start ≤ c₁.next.span.start) (h : Reads (definition read exported start) c₁ s c') :
      (s.Ordered ∧ start ≤ s.span.start ∧ s.span.stop ≤ c'.readTo) ∧ c'.InOrder ∧
        c₁.readTo ≤ c'.readTo := by
    obtain ⟨⟨sOrdered, starts, stops⟩, order', forward⟩ := definition_sound ih order₁ from₁ h
    exact ⟨⟨sOrdered, Nat.le_of_eq starts.symm, stops⟩, order', forward⟩
  obtain ⟨-, i, readImport, rfl⟩ | ⟨-, ⟨isExport, exported⟩ | ⟨-, ⟨-, defined⟩ | ⟨-, e, readE, rfl⟩⟩⟩ :=
    reads_statementBody.1 h
  · exact importing order from_ readImport
  · obtain ⟨order₁, _, _, _⟩ := order.takeMark isExport
    have := order₁.next_start
    obtain ⟨-, i, readImport, rfl⟩ | ⟨-, defined⟩ := exported
    · obtain ⟨fits, order', _⟩ := importing order₁ (by omega) readImport
      exact ⟨fits, order', by omega⟩
    · obtain ⟨fits, order', _⟩ := defining order₁ (by omega) defined
      exact ⟨fits, order', by omega⟩
  · exact defining order from_ defined
  · obtain ⟨⟨eOrdered, eStart, eStop⟩, order₁, forward⟩ := ih .expression order readE
    exact ⟨⟨.expr eOrdered, Nat.le_trans from_ eStart, eStop⟩, order₁, forward⟩

lemma statement_sound (ih : Readers.Sound read) {s : Statement} (order : c.InOrder)
    (h : Reads (statement read) c s c') : Form.statement.Sound c s c' := by
  obtain ⟨c₁, readBody, ends⟩ := reads_statement.1 h
  obtain ⟨⟨ordered, starts, stops⟩, order₁, _⟩ := statementBody_sound ih order (Nat.le_refl _) readBody
  have proper : _ < _ := ordered.proper
  obtain ⟨gap, order₂, _⟩ := statementEnd_sound order₁ (by omega) ends
  exact ⟨⟨ordered, ⟨starts, by omega⟩, gap.imp_left fun _ => by omega⟩, order₂, by omega⟩

lemma statements_sound (ih : Readers.Sound read) {ss : List Statement} (order : c.InOrder)
    (h : Reads (statements read) c ss c') : Form.statements.Sound c ss c' := by
  obtain ⟨-, rfl, rfl⟩ | ⟨more, ⟨isEnd, readRest⟩ | ⟨-, first, c₁, readFirst, rest, readRest, rfl⟩⟩ := reads_statements.1 h
  · exact ⟨⟨fun lo le _ => .nil le, by simp⟩, order, Nat.le_refl _⟩
  · obtain ⟨order₁, _, _, _⟩ := order.takeMark isEnd
    obtain ⟨⟨places, ordered⟩, order₂, _⟩ := ih .statements order₁ readRest
    have := order₁.next_start
    exact ⟨⟨fun lo _ _ => places lo (by omega) (Or.inl (by omega)), ordered⟩, order₂, by omega⟩
  · obtain ⟨⟨firstOrdered, ⟨firstStart, firstStop⟩, gap⟩, order₁, _⟩ := ih .statement order readFirst
    obtain ⟨⟨places, restOrdered⟩, order₂, _⟩ := ih .statements order₁ readRest
    simp only [Bool.or_eq_true] at more
    refine ⟨⟨fun lo _ opening => ?_, List.forall_mem_cons.2 ⟨firstOrdered, restOrdered⟩⟩, order₂, by omega⟩
    have := opening.resolve_right more
    exact .cons (by omega) firstOrdered.proper (places _ (by omega) (gap.imp_left fun _ => by omega))

lemma block_sound (ih : Readers.Sound read) {b : Block} (order : c.InOrder)
    (h : Reads (block read) c b c') : Form.block.Sound c b c' := by
  obtain ⟨isOpen, ss, c₂, readBody, isClose, rfl, rfl⟩ := reads_block.1 h
  obtain ⟨order₁, _, _, _⟩ := order.takeMark isOpen
  obtain ⟨⟨places, ordered⟩, order₂, _⟩ := ih .statements order₁ readBody
  obtain ⟨order₃, _, _, _⟩ := order₂.takeMark isClose
  have := order₁.next_start
  refine ⟨⟨.mk ?_ ?_ ordered, Nat.le_refl _, by simp only; omega⟩, order₃, by omega⟩
  · simp only [Span.Proper]
    omega
  · exact (places _ (by simp only; omega) (Or.inl (by simp only; omega))).widen (Nat.le_refl _) (by simp only; omega)

lemma expression_sound (ih : Readers.Sound read) {e : Expr} (order : c.InOrder)
    (h : Reads (expression read) c e c') : Form.expression.Sound c e c' := by
  obtain ⟨⟨stages, span⟩, readChain, rfl⟩ := reads_expression.1 h
  obtain ⟨⟨ordered, pStart, pStop⟩, order₁, forward₁⟩ := ih (.chain true) order readChain
  refine ⟨?_, order₁, forward₁⟩
  simp only [ofChain]
  split
  · next e _ single =>
    cases ordered with
    | mk proper places stagesOrdered =>
      cases single
      obtain ⟨from_, _, upTo⟩ := places.within List.mem_cons_self
      cases stagesOrdered _ List.mem_cons_self with
      | expr before eOrdered behind _ =>
        simp only [Stage.span] at *
        exact ⟨eOrdered, by omega, by omega⟩
  · exact ⟨.pipeline ordered, pStart, pStop⟩

lemma chain_sound (ih : Readers.Sound read) {first : Bool} {p : Pipeline} (order : c.InOrder)
    (h : Reads (chain read first) c p c') : (Form.chain first).Sound c p c' := by
  obtain ⟨s, c₁, readFirst, rest, readRest, rfl⟩ := reads_chain.1 h
  obtain ⟨⟨sOrdered, sStart, sStop⟩, order₁, _⟩ := ih (.stage first) order readFirst
  obtain ⟨continues, order₂, _⟩ := ih (.stagesAfter s) order₁ readRest
  obtain ⟨places, restOrdered, last⟩ := continues sStop
  have : s.span.start < s.span.stop := sOrdered.proper
  have := places.le
  have lastStart : s.span.start ≤ ((s :: rest).getLast (by simp)).span.start := by
    rcases List.mem_cons.1 (List.getLast_mem (l := s :: rest) (by simp)) with e | member
    · simp only [e, Nat.le_refl]
    · have := places.within (List.mem_map_of_mem member)
      omega
  have covers : chainSpan s rest = ⟨s.span.start, s.lastStop rest⟩ := by
    simp only [chainSpan, Span.union, Stage.lastStop] at *
    congr 1 <;> omega
  rw [covers]
  refine ⟨⟨.mk ?_ ?_ (List.forall_mem_cons.2 ⟨sOrdered, restOrdered⟩), sStart, last⟩, order₂, by omega⟩
  · simp only [Span.Proper]
    omega
  · exact .cons (Nat.le_refl _) sOrdered.proper places

lemma stagesAfter_sound (ih : Readers.Sound read) {before : Stage} {rest : List Stage}
    (order : c.InOrder) (h : Reads (stagesAfter read before) c rest c') :
    (Form.stagesAfter before).Sound c rest c' := by
  have none : (Form.stagesAfter before).Sound c [] c :=
    ⟨fun le => ⟨.nil (Nat.le_refl _), by simp, le⟩, order, Nat.le_refl _⟩
  obtain ⟨-, rfl, rfl⟩ | ⟨-, ⟨isPipe, following, c₂, readFollowing, more, readMore, rfl⟩ | ⟨-, rfl, rfl⟩⟩ :=
    reads_stagesAfter.1 h
  · exact none
  · obtain ⟨order₁, _, _, _⟩ := order.takeMark isPipe
    obtain ⟨⟨fOrdered, fStart, fStop⟩, order₂, _⟩ := ih (.stage false) order₁ readFollowing
    obtain ⟨continues, order₃, _⟩ := ih (.stagesAfter following) order₂ readMore
    obtain ⟨places, moreOrdered, last⟩ := continues fStop
    have := order₁.next_start
    exact ⟨fun le => ⟨.cons (by omega) fOrdered.proper places, List.forall_mem_cons.2 ⟨fOrdered, moreOrdered⟩, last⟩,
      order₃, by omega⟩
  · exact none

/-- A stage from an expression that has been read is in order. -/
lemma stageOf_sound {start : Nat} {e : Expr} {s : Stage} (order : c.InOrder) (eOrdered : e.Ordered)
    (starts : start ≤ e.span.start) (stops : e.span.stop ≤ c.readTo) (h : Reads (stageOf start e) c s c') :
    (s.Ordered ∧ start ≤ s.span.start ∧ s.span.stop ≤ c'.readTo) ∧ c'.InOrder ∧ c.readTo ≤ c'.readTo := by
  obtain ⟨-, rfl, rfl⟩ | ⟨-, tag, readTag, rfl⟩ := reads_stageOf.1 h
  · exact ⟨⟨.expr starts eOrdered stops .none, Nat.le_refl _, Nat.le_refl _⟩, order, Nat.le_refl _⟩
  · obtain ⟨between, order₁, forward⟩ := tag?_sound order readTag
    exact ⟨⟨.expr starts eOrdered (Nat.le_trans stops forward) (between.widen (by omega)), Nat.le_refl _,
      Nat.le_refl _⟩, order₁, forward⟩

lemma stage_sound (ih : Readers.Sound read) {first : Bool} {s : Stage} (order : c.InOrder)
    (h : Reads (stage read first) c s c') : (Form.stage first).Sound c s c' := by
  obtain ⟨op, spelt, -, operand, c₂, readOperand, tag, readTag, rfl⟩ |
    ⟨-, ⟨-, l, c₁, readLoop, readTag⟩ | ⟨-, e, c₁, readE, readTag⟩⟩ := reads_stage.1 h
  · obtain ⟨order₁, _, _, _⟩ := order.advance (solid_of_binaryOp spelt)
    obtain ⟨⟨ordered, starts, stops⟩, order₂, _⟩ := ih (.binary _) order₁ readOperand
    obtain ⟨between, order₃, forward⟩ := tag?_sound order₂ readTag
    have := order₁.next_start
    exact ⟨⟨.operator (by simp only; omega) ordered (Nat.le_trans stops forward) (between.widen (by omega)),
      Nat.le_refl _, Nat.le_refl _⟩, order₃, by omega⟩
  · obtain ⟨⟨ordered, starts, stops⟩, order₁, _⟩ := ih .loop order readLoop
    obtain ⟨fits, order₂, _⟩ := stageOf_sound order₁ (.loop ordered) starts stops readTag
    exact ⟨fits, order₂, by omega⟩
  · obtain ⟨⟨ordered, starts, stops⟩, order₁, _⟩ := ih (.binary 0) order readE
    obtain ⟨fits, order₂, _⟩ := stageOf_sound order₁ ordered starts stops readTag
    exact ⟨fits, order₂, by omega⟩

lemma loop_sound (ih : Readers.Sound read) {l : Loop} (order : c.InOrder)
    (h : Reads (loop read) c l c') : Form.loop.Sound c l c' := by
  obtain ⟨isFor, sequence, c₂, readSequence, isAs, binding, name, place, isPipe, body, readBody, rfl⟩ := reads_loop.1 h
  obtain ⟨order₁, _, _, _⟩ := order.takeMark isFor
  obtain ⟨⟨sequenceOrdered, _, _⟩, order₂, _⟩ := ih (.binary 0) order₁ readSequence
  obtain ⟨order₃, _, _, _⟩ := order₂.takeMark isAs
  obtain ⟨order₄, _, _, proper, _⟩ := order₃.takeName name place
  obtain ⟨order₅, _, _, _⟩ := order₄.takeMark isPipe
  obtain ⟨⟨bodyOrdered, _, bodyStop⟩, order₆, _⟩ := ih (.chain false) order₅ readBody
  have := order₁.next_start
  have := order₅.next_start
  have : _ < _ := sequenceOrdered.proper
  refine ⟨⟨.mk ?_ sequenceOrdered ?_ proper ?_ bodyOrdered (Nat.le_refl _), Nat.le_refl _, bodyStop⟩, order₆, ?_⟩
  all_goals first | omega | (simp only; omega)

lemma binary_sound (ih : Readers.Sound read) {least : Nat} {e : Expr} (order : c.InOrder)
    (h : Reads (binary read least) c e c') : (Form.binary least).Sound c e c' := by
  obtain ⟨left, c₁, readLeft, readRest⟩ := reads_binary.1 h
  obtain ⟨⟨leftOrdered, leftStart, leftStop⟩, order₁, _⟩ := ih .unary order readLeft
  obtain ⟨continues, order₂, _⟩ := ih (.binaryAfter left least) order₁ readRest
  obtain ⟨ordered, starts, stops⟩ := continues leftOrdered leftStop
  exact ⟨⟨ordered, Nat.le_trans leftStart starts, stops⟩, order₂, by omega⟩

lemma binaryAfter_sound (ih : Readers.Sound read) {left : Expr} {least : Nat} {e : Expr} (order : c.InOrder)
    (h : Reads (binaryAfter read left least) c e c') : (Form.binaryAfter left least).Sound c e c' := by
  obtain ⟨-, rfl, rfl⟩ | ⟨op, spelt, -, right, c₂, readRight, readRest⟩ := reads_binaryAfter.1 h
  · exact ⟨fun ordered le => ⟨ordered, Nat.le_refl _, le⟩, order, Nat.le_refl _⟩
  · obtain ⟨order₁, _, _, _⟩ := order.advance (solid_of_binaryOp spelt)
    obtain ⟨⟨rightOrdered, rightStart, rightStop⟩, order₂, _⟩ := ih (.binary _) order₁ readRight
    obtain ⟨continues, order₃, _⟩ := ih (.binaryAfter _ least) order₂ readRest
    refine ⟨fun leftOrdered leftStop => ?_, order₃, by omega⟩
    have := order₁.next_start
    have : _ < _ := leftOrdered.proper
    have : _ < _ := rightOrdered.proper
    have covers : left.span.union right.span = ⟨left.span.start, right.span.stop⟩ := by
      simp only [Span.union]
      congr 1 <;> omega
    rw [covers] at continues
    exact continues (.binary (Nat.le_refl _) leftOrdered (by omega) rightOrdered (Nat.le_refl _)) rightStop

lemma unary_sound (ih : Readers.Sound read) {e : Expr} (order : c.InOrder)
    (h : Reads (unary read) c e c') : Form.unary.Sound c e c' := by
  -- a sign before an operand
  have signed {op : UnaryOp} {m : Mark} (isSign : c.isAt m = true)
      (h : ∃ operand, Reads (read .unary) c.advance operand c' ∧
        .unary op operand ⟨c.next.span.start, operand.span.stop⟩ = e) : Form.unary.Sound c e c' := by
    obtain ⟨operand, readOperand, rfl⟩ := h
    obtain ⟨order₁, _, _, _⟩ := order.takeMark isSign
    obtain ⟨⟨ordered, starts, stops⟩, order₂, _⟩ := ih .unary order₁ readOperand
    have := order₁.next_start
    exact ⟨⟨.unary (by simp only; omega) ordered (Nat.le_refl _), Nat.le_refl _, stops⟩, order₂, by omega⟩
  obtain ⟨isMinus, negated⟩ | ⟨-, ⟨isBang, refuted⟩ | ⟨-, base, c₁, readBase, readRest⟩⟩ := reads_unary.1 h
  · exact signed isMinus negated
  · exact signed isBang refuted
  · obtain ⟨⟨baseOrdered, baseStart, baseStop⟩, order₁, _⟩ := ih .primary order readBase
    obtain ⟨continues, order₂, _⟩ := ih (.suffixes base) order₁ readRest
    obtain ⟨ordered, starts, stops⟩ := continues baseOrdered baseStop
    exact ⟨⟨ordered, Nat.le_trans baseStart starts, stops⟩, order₂, by omega⟩

lemma suffixes_sound (ih : Readers.Sound read) {base e : Expr} (order : c.InOrder)
    (h : Reads (suffixes read base) c e c') : (Form.suffixes base).Sound c e c' := by
  have none : (Form.suffixes base).Sound c base c :=
    ⟨fun ordered le => ⟨ordered, Nat.le_refl _, le⟩, order, Nat.le_refl _⟩
  obtain ⟨-, rfl, rfl⟩ | ⟨-, ⟨isParen, args, c₂, readArgs, isClose, readRest⟩ |
    ⟨-, ⟨isBracket, index, c₂, readIndex, isClose, readRest⟩ | ⟨-, rfl, rfl⟩⟩⟩ := reads_suffixes.1 h
  · exact none
  · obtain ⟨order₁, _, _, _⟩ := order.takeMark isParen
    obtain ⟨⟨places, argsOrdered⟩, order₂, _⟩ := ih .arguments order₁ readArgs
    obtain ⟨order₃, _, _, closed⟩ := order₂.takeMark isClose
    obtain ⟨continues, order₄, _⟩ := ih (.suffixes _) order₃ readRest
    refine ⟨fun baseOrdered baseStop => ?_, order₄, by omega⟩
    exact continues
      (.call (Nat.le_refl _) baseOrdered (by simp only; omega)
        ((places _ (by omega)).widen (Nat.le_refl _) (by simp only; omega)) argsOrdered)
      (Nat.le_of_eq closed.symm)
  · obtain ⟨order₁, _, _, _⟩ := order.takeMark isBracket
    obtain ⟨⟨indexOrdered, indexStart, indexStop⟩, order₂, _⟩ := ih .expression order₁ readIndex
    obtain ⟨order₃, _, _, closed⟩ := order₂.takeMark isClose
    obtain ⟨continues, order₄, _⟩ := ih (.suffixes _) order₃ readRest
    have := order₁.next_start
    refine ⟨fun baseOrdered baseStop => ?_, order₄, by omega⟩
    exact continues
      (.index (Nat.le_refl _) baseOrdered (by omega) indexOrdered (by simp only; omega))
      (Nat.le_of_eq closed.symm)
  · exact none

lemma pathSegments_sound (ih : Readers.Sound read) {rest : List Ident} (order : c.InOrder)
    (h : Reads (pathSegments read) c rest c') : Form.pathSegments.Sound c rest c' := by
  obtain ⟨isColons, segment, named, place, more, readMore, rfl⟩ | ⟨-, rfl, rfl⟩ := reads_pathSegments.1 h
  · obtain ⟨order₁, _, _, _⟩ := order.takeMark isColons
    obtain ⟨order₂, _, _, _, _⟩ := order₁.takeName named place
    obtain ⟨places, order₃, _⟩ := ih .pathSegments order₂ readMore
    refine ⟨fun last isLast => ?_, order₃, by omega⟩
    cases more with
    | nil =>
      obtain rfl : segment = last := by simpa using isLast
      omega
    | cons next more =>
      have := places last isLast
      omega
  · exact ⟨fun _ isLast => by simp at isLast, order, Nat.le_refl _⟩

/-- A name or a path is in order. -/
lemma nameOrPath_sound (ih : Readers.Sound read) {e : Expr} (order : c.InOrder)
    (h : Reads (nameOrPath read) c e c') : Form.primary.Sound c e c' := by
  obtain ⟨head, named, place, rest, readRest, whole⟩ := reads_nameOrPath.1 h
  obtain ⟨order₁, _, _, proper, _⟩ := order.takeName named place
  obtain ⟨places, order₂, _⟩ := ih .pathSegments order₁ readRest
  obtain ⟨rfl, rfl⟩ | ⟨last, isLast, rfl⟩ := whole
  · exact ⟨⟨.name proper, by simp only [Expr.span]; omega, by simp only [Expr.span]; omega⟩, order₂, by omega⟩
  · have := places last isLast
    exact ⟨⟨.path proper rfl (by simp only; omega), by simp only [Expr.span]; omega,
      by simp only [Expr.span]; omega⟩, order₂, by omega⟩

/-- An argument is in order. -/
lemma argument_sound (ih : Readers.Sound read) {a : Argument} (order : c.InOrder)
    (h : Reads (argument read) c a c') :
    (a.value.Ordered ∧ c.readTo ≤ a.value.span.start ∧ a.value.span.stop ≤ c'.readTo) ∧ c'.InOrder ∧
      c.readTo ≤ c'.readTo := by
  obtain ⟨-, name, named, place, isEq, value, readValue, rfl⟩ | ⟨-, value, readValue, rfl⟩ := reads_argument.1 h
  · obtain ⟨order₁, _, _, _, _⟩ := order.takeName named place
    obtain ⟨order₂, _, _, _⟩ := order₁.takeMark isEq
    obtain ⟨⟨ordered, starts, stops⟩, order₃, _⟩ := ih .expression order₂ readValue
    have := order₂.next_start
    exact ⟨⟨ordered, by simp only; omega, stops⟩, order₃, by omega⟩
  · obtain ⟨⟨ordered, starts, stops⟩, order₁, forward⟩ := ih .expression order readValue
    exact ⟨⟨ordered, Nat.le_trans order.next_start starts, stops⟩, order₁, forward⟩

lemma arguments_sound (ih : Readers.Sound read) {args : List Argument} (order : c.InOrder)
    (h : Reads (arguments read) c args c') : Form.arguments.Sound c args c' := by
  obtain ⟨-, rfl, rfl⟩ | ⟨-, first, c₁, readFirst, behind⟩ := reads_arguments.1 h
  · exact ⟨⟨fun lo _ => .nil (by omega), by simp⟩, order, Nat.le_refl _⟩
  obtain ⟨⟨firstOrdered, starts, stops⟩, order₁, _⟩ := argument_sound ih order readFirst
  obtain ⟨isComma, rest, readRest, rfl⟩ | ⟨-, rfl, rfl⟩ := behind
  · obtain ⟨order₂, _, _, _⟩ := order₁.takeMark isComma
    obtain ⟨⟨places, restOrdered⟩, order₃, _⟩ := ih .arguments order₂ readRest
    exact ⟨⟨fun lo _ => .cons (by simp only; omega) firstOrdered.proper (places _ (by simp only; omega)),
      List.forall_mem_cons.2 ⟨firstOrdered, restOrdered⟩⟩, order₃, by omega⟩
  · exact ⟨⟨fun lo _ => .cons (by simp only; omega) firstOrdered.proper (.nil (by simp only; omega)),
      List.forall_mem_singleton.2 firstOrdered⟩, order₁, by omega⟩

lemma items_sound (ih : Readers.Sound read) {es : List Expr} (order : c.InOrder)
    (h : Reads (items read) c es c') : Form.items.Sound c es c' := by
  obtain ⟨isComma, ⟨-, rfl, rfl⟩ | ⟨-, e, c₂, readE, rest, readRest, rfl⟩⟩ | ⟨-, rfl, rfl⟩ := reads_items.1 h
  · obtain ⟨order₁, _, _, _⟩ := order.takeMark isComma
    exact ⟨⟨fun lo _ => .nil (by omega), by simp⟩, order₁, by omega⟩
  · obtain ⟨order₁, _, _, _⟩ := order.takeMark isComma
    obtain ⟨⟨eOrdered, eStart, eStop⟩, order₂, _⟩ := ih .expression order₁ readE
    obtain ⟨⟨places, restOrdered⟩, order₃, _⟩ := ih .items order₂ readRest
    have := order₁.next_start
    exact ⟨⟨fun lo _ => .cons (by omega) eOrdered.proper (places _ (by omega)),
      List.forall_mem_cons.2 ⟨eOrdered, restOrdered⟩⟩, order₃, by omega⟩
  · exact ⟨⟨fun lo le => .nil le, by simp⟩, order, Nat.le_refl _⟩

/-- A range behind its dots is in order. -/
lemma rangeFrom_sound (ih : Readers.Sound read) {start : Nat} {first e : Expr} {inclusive : Bool}
    (order : c.InOrder) (firstOrdered : first.Ordered) (starts : start < first.span.start)
    (stops : first.span.stop < c.readTo) (h : Reads (rangeFrom read start first inclusive) c e c') :
    (e.Ordered ∧ start ≤ e.span.start ∧ e.span.stop ≤ c'.readTo) ∧ c'.InOrder ∧ c.readTo ≤ c'.readTo := by
  obtain ⟨last, c₁, readLast, isClose, rfl, rfl⟩ := reads_rangeFrom.1 h
  obtain ⟨⟨lastOrdered, lastStart, lastStop⟩, order₁, _⟩ := ih .expression order readLast
  obtain ⟨order₂, _, _, closed⟩ := order₁.takeMark isClose
  have := order.next_start
  exact ⟨⟨.range starts firstOrdered (by omega) lastOrdered (by simp only; omega), Nat.le_refl _,
    Nat.le_of_eq closed.symm⟩, order₂, by omega⟩

/-- An array literal or a range is in order. -/
lemma bracketed_sound (ih : Readers.Sound read) {e : Expr} (order : c.InOrder)
    (h : Reads (bracketed read) c e c') : Form.primary.Sound c e c' := by
  obtain ⟨isOpen, ⟨isClose, rfl, rfl⟩ | ⟨-, first, c₂, readFirst, behind⟩⟩ := reads_bracketed.1 h
  · obtain ⟨order₁, _, _, _⟩ := order.takeMark isOpen
    obtain ⟨order₂, _, _, closed⟩ := order₁.takeMark isClose
    refine ⟨⟨.array ?_ (.nil ?_) (by simp), Nat.le_refl _, Nat.le_of_eq closed.symm⟩, order₂, by omega⟩
    · simp only [Span.Proper]
      omega
    · simp only
      omega
  obtain ⟨order₁, _, _, _⟩ := order.takeMark isOpen
  obtain ⟨⟨firstOrdered, firstStart, firstStop⟩, order₂, _⟩ := ih .expression order₁ readFirst
  have := order₁.next_start
  -- the two kinds of ranges
  have range {inclusive : Bool} {m : Mark} (isDots : c₂.isAt m = true)
      (h : Reads (rangeFrom read c.next.span.start first inclusive) c₂.advance e c') :
      Form.primary.Sound c e c' := by
    obtain ⟨order₃, _, _, _⟩ := order₂.takeMark isDots
    obtain ⟨fits, order₄, _⟩ := rangeFrom_sound ih order₃ firstOrdered (by omega) (by omega) h
    exact ⟨fits, order₄, by omega⟩
  obtain ⟨isDots, ranges⟩ | ⟨-, ⟨isDots, ranges⟩ | ⟨-, rest, c₃, readRest, isClose, rfl, rfl⟩⟩ := behind
  · exact range isDots ranges
  · exact range isDots ranges
  · obtain ⟨⟨places, restOrdered⟩, order₃, _⟩ := ih .items order₂ readRest
    obtain ⟨order₄, _, _, closed⟩ := order₃.takeMark isClose
    have : _ < _ := firstOrdered.proper
    refine ⟨⟨.array ?_ (.cons ?_ firstOrdered.proper ((places _ ?_).widen (Nat.le_refl _) ?_))
      (List.forall_mem_cons.2 ⟨firstOrdered, restOrdered⟩), Nat.le_refl _, Nat.le_of_eq closed.symm⟩, order₄, by omega⟩
    · simp only [Span.Proper]
      omega
    all_goals first | omega | (simp only; omega)

lemma primary_sound (ih : Readers.Sound read) {e : Expr} (order : c.InOrder)
    (h : Reads (primary read) c e c') : Form.primary.Sound c e c' := by
  obtain ⟨-, readName⟩ | ⟨value, isValue, rfl, rfl⟩ | ⟨-, b, readBlock, rfl⟩ | ⟨isIf, b, readBranch, rfl⟩ |
    ⟨-, ⟨-, readLambda⟩ | ⟨-, inParens⟩⟩ | ⟨-, readItems⟩ := reads_primary.1 h
  · exact nameOrPath_sound ih order readName
  · obtain ⟨order₁, _, proper, stop⟩ := order.advance (solid_of_literal isValue)
    exact ⟨⟨.literal proper, Nat.le_refl _, Nat.le_of_eq stop.symm⟩, order₁, by omega⟩
  · obtain ⟨⟨ordered, starts, stops⟩, order₁, forward⟩ := ih .block order readBlock
    exact ⟨⟨.block ordered, starts, stops⟩, order₁, forward⟩
  · obtain ⟨order₁, _, _, _⟩ := order.advance (solid_of_kind isIf (by simp))
    obtain ⟨continues, order₂, _⟩ := ih (.branch _) order₁ readBranch
    obtain ⟨ordered, starts, stops⟩ := continues (by omega)
    exact ⟨⟨.branch ordered, Nat.le_of_eq starts.symm, stops⟩, order₂, by omega⟩
  · obtain ⟨fits, order₁, forward⟩ := ih .lambda order readLambda
    exact ⟨fits, order₁, forward⟩
  · obtain ⟨isOpen, c₂, readInner, isClose, rfl⟩ := reads_parenthesised.1 inParens
    obtain ⟨order₁, _, _, _⟩ := order.takeMark isOpen
    obtain ⟨⟨ordered, starts, stops⟩, order₂, _⟩ := ih .expression order₁ readInner
    obtain ⟨order₃, _, _, _⟩ := order₂.takeMark isClose
    have := order₁.next_start
    exact ⟨⟨ordered, by omega, by omega⟩, order₃, by omega⟩
  · exact bracketed_sound ih order readItems

/-- What follows the block of a conditional stands behind it. -/
lemma alternative_sound (ih : Readers.Sound read) {a : Alternative} (order : c.InOrder)
    (h : Reads (alternative read) c a c') :
    Alternative.Between (c.readTo + 1) c'.readTo a ∧ c'.InOrder ∧ c.readTo ≤ c'.readTo := by
  obtain ⟨isElse, ⟨isIf, b, readBranch, rfl⟩ | ⟨-, b, readBlock, rfl⟩⟩ | ⟨-, rfl, rfl⟩ := reads_alternative.1 h
  · obtain ⟨order₁, _, _, _⟩ := order.takeMark isElse
    obtain ⟨order₂, _, _, _⟩ := order₁.takeMark isIf
    obtain ⟨continues, order₃, _⟩ := ih (.branch _) order₂ readBranch
    obtain ⟨ordered, starts, stops⟩ := continues (by omega)
    exact ⟨.branch (by omega) ordered stops, order₃, by omega⟩
  · obtain ⟨order₁, _, _, _⟩ := order.takeMark isElse
    obtain ⟨⟨ordered, starts, stops⟩, order₂, _⟩ := ih .block order₁ readBlock
    have := order₁.next_start
    exact ⟨.block (by omega) ordered stops, order₂, by omega⟩
  · exact ⟨.absent, order, Nat.le_refl _⟩

lemma branch_sound (ih : Readers.Sound read) {start : Nat} {b : Branch} (order : c.InOrder)
    (h : Reads (branch read start) c b c') : (Form.branch start).Sound c b c' := by
  obtain ⟨condition, c₁, readCondition, consequence, c₂, readConsequence, other, readOther, rfl⟩ := reads_branch.1 h
  obtain ⟨⟨conditionOrdered, _, _⟩, order₁, _⟩ := ih (.binary 0) order readCondition
  obtain ⟨⟨consequenceOrdered, _, _⟩, order₂, _⟩ := ih .block order₁ readConsequence
  obtain ⟨between, order₃, _⟩ := alternative_sound ih order₂ readOther
  have := order.next_start
  have := order₁.next_start
  exact ⟨fun _ => ⟨.mk (by simp only; omega) conditionOrdered (by omega) consequenceOrdered
    (by simp only; omega) (between.widen (by omega)), rfl, Nat.le_refl _⟩, order₃, by omega⟩

/-- The note of a type moves the cursor forward. -/
lemma typeNote_sound (ih : Readers.Sound read) {note : TypeNote} (order : c.InOrder)
    (h : Reads (typeNote read) c note c') : c'.InOrder ∧ c.readTo ≤ c'.readTo := by
  obtain ⟨ty, readType, -⟩ := reads_typeNote.1 h
  obtain ⟨-, order₁, forward⟩ := ih .type order readType
  exact ⟨order₁, forward⟩

/-- A type behind a mark moves the cursor forward. -/
lemma typeBehind?_sound (ih : Readers.Sound read) {m : Mark} {note : Option TypeNote} (order : c.InOrder)
    (h : Reads (typeBehind? read m) c note c') : c'.InOrder ∧ c.readTo ≤ c'.readTo := by
  obtain ⟨isMark, note, readNote, -⟩ | ⟨-, -, rfl⟩ := reads_typeBehind?.1 h
  · obtain ⟨order₁, _, _, _⟩ := order.takeMark isMark
    obtain ⟨order₂, _⟩ := typeNote_sound ih order₁ readNote
    exact ⟨order₂, by omega⟩
  · exact ⟨order, Nat.le_refl _⟩

/-- A default is in order and behind what has been read. -/
lemma fallback?_sound (ih : Readers.Sound read) {a : Option Expr} (order : c.InOrder)
    (h : Reads (fallback? read) c a c') :
    (∀ e, a = some e → c.readTo < e.span.start ∧ e.Ordered ∧ e.span.stop ≤ c'.readTo) ∧ c'.InOrder ∧
      c.readTo ≤ c'.readTo := by
  obtain ⟨isEq, value, readValue, rfl⟩ | ⟨-, rfl, rfl⟩ := reads_fallback?.1 h
  · obtain ⟨order₁, _, _, _⟩ := order.takeMark isEq
    obtain ⟨⟨ordered, starts, stops⟩, order₂, _⟩ := ih (.binary 0) order₁ readValue
    have := order₁.next_start
    refine ⟨fun e given => ?_, order₂, by omega⟩
    cases given
    exact ⟨by omega, ordered, stops⟩
  · exact ⟨by simp, order, Nat.le_refl _⟩

/-- A parameter is in order. -/
lemma param_sound (ih : Readers.Sound read) {p : Param} (order : c.InOrder)
    (h : Reads (param read) c p c') :
    (p.Ordered ∧ c.readTo ≤ p.span.start ∧ p.span.stop = c'.readTo) ∧ c'.InOrder ∧
      c.readTo ≤ c'.readTo := by
  obtain ⟨name, named, place, note, c₂, readNote, fallback, readFallback, rfl⟩ := reads_param.1 h
  obtain ⟨order₁, _, _, proper, _⟩ := order.takeName named place
  obtain ⟨order₂, _⟩ := typeBehind?_sound ih order₁ readNote
  obtain ⟨fits, order₃, _⟩ := fallback?_sound ih order₂ readFallback
  refine ⟨⟨.mk proper (Nat.le_refl _) (by simp only; omega) (fun e given => ?_) (fun e given => (fits e given).2.1)
    (fun e given => (fits e given).2.2), by simp only; omega, rfl⟩, order₃, by omega⟩
  have := (fits e given).1
  omega

lemma params_sound (ih : Readers.Sound read) {ps : List Param} (order : c.InOrder)
    (h : Reads (params read) c ps c') : Form.params.Sound c ps c' := by
  obtain ⟨first, c₁, readFirst, behind⟩ := reads_params.1 h
  obtain ⟨⟨firstOrdered, starts, stops⟩, order₁, _⟩ := param_sound ih order readFirst
  obtain ⟨isComma, rest, readRest, rfl⟩ | ⟨-, rfl, rfl⟩ := behind
  · obtain ⟨order₂, _, _, _⟩ := order₁.takeMark isComma
    obtain ⟨⟨places, restOrdered⟩, order₃, _⟩ := ih .params order₂ readRest
    exact ⟨⟨fun lo _ => .cons (by omega) firstOrdered.proper (places _ (by omega)),
      List.forall_mem_cons.2 ⟨firstOrdered, restOrdered⟩⟩, order₃, by omega⟩
  · exact ⟨⟨fun lo _ => .cons (by omega) firstOrdered.proper (.nil (by omega)), List.forall_mem_singleton.2 firstOrdered⟩,
      order₁, by omega⟩

/-- The parameters of a function literal are in order. -/
lemma parameterList_sound (ih : Readers.Sound read) {ps : List Param} (order : c.InOrder)
    (h : Reads (parameterList read) c ps c') : Form.params.Sound c ps c' := by
  obtain ⟨-, rfl, rfl⟩ | ⟨-, readParams⟩ := reads_parameterList.1 h
  · exact ⟨⟨fun lo _ => .nil (by omega), by simp⟩, order, Nat.le_refl _⟩
  · exact ih .params order readParams

lemma lambda_sound (ih : Readers.Sound read) {e : Expr} (order : c.InOrder)
    (h : Reads (lambda read) c e c') : Form.lambda.Sound c e c' := by
  obtain ⟨isOpen, ps, c₂, readParams, isClose, returns, c₄, readReturns, isArrow, body, readBody, rfl⟩ := reads_lambda.1 h
  obtain ⟨order₁, _, _, _⟩ := order.takeMark isOpen
  obtain ⟨⟨places, paramsOrdered⟩, order₂, _⟩ := parameterList_sound ih order₁ readParams
  obtain ⟨order₃, _, _, _⟩ := order₂.takeMark isClose
  obtain ⟨order₄, _⟩ := typeBehind?_sound ih order₃ readReturns
  obtain ⟨order₅, _, _, _⟩ := order₄.takeMark isArrow
  obtain ⟨⟨bodyOrdered, bodyStart, bodyStop⟩, order₆, _⟩ := ih .expression order₅ readBody
  have := order₅.next_start
  exact ⟨⟨.lambda (.mk (places _ (by simp only; omega)) paramsOrdered (by omega) bodyOrdered (Nat.le_refl _)),
    Nat.le_refl _, bodyStop⟩, order₆, by omega⟩

lemma type_sound (ih : Readers.Sound read) {ty : Ty} (order : c.InOrder)
    (h : Reads (type read) c ty c') : Form.type.Sound c ty c' := by
  obtain ⟨isOpen, element, c₂, readElement, isClose, -, rfl⟩ | ⟨-, name, named, place, -, rfl⟩ := reads_type.1 h
  · obtain ⟨order₁, _, _, _⟩ := order.takeMark isOpen
    obtain ⟨-, order₂, _⟩ := ih .type order₁ readElement
    obtain ⟨order₃, _, _, _⟩ := order₂.takeMark isClose
    exact ⟨trivial, order₃, by omega⟩
  · obtain ⟨order₁, _, _, _, _⟩ := order.takeName named place
    exact ⟨trivial, order₁, by omega⟩

/-- The readers of one step are as they should be if those inside them are. -/
lemma step_sound (ih : Readers.Sound read) : Readers.Sound (step read) := by
  intro α form c a c' order h
  cases form with
  | statement => exact statement_sound ih order h
  | statements => exact statements_sound ih order h
  | block => exact block_sound ih order h
  | importItems => exact importItems_sound ih order h
  | expression => exact expression_sound ih order h
  | chain first => exact chain_sound ih order h
  | stagesAfter before => exact stagesAfter_sound ih order h
  | stage first => exact stage_sound ih order h
  | loop => exact loop_sound ih order h
  | binary least => exact binary_sound ih order h
  | binaryAfter left least => exact binaryAfter_sound ih order h
  | unary => exact unary_sound ih order h
  | suffixes base => exact suffixes_sound ih order h
  | primary => exact primary_sound ih order h
  | pathSegments => exact pathSegments_sound ih order h
  | arguments => exact arguments_sound ih order h
  | items => exact items_sound ih order h
  | branch start => exact branch_sound ih order h
  | lambda => exact lambda_sound ih order h
  | params => exact params_sound ih order h
  | type => exact type_sound ih order h

end Grammar

/-- Every form is read as it should be, however deeply it may nest. -/
lemma Form.read_sound (depth : Nat) : Readers.Sound (fun form => Form.read depth form) := by
  induction depth with
  | zero =>
    intro α form c a c' _ h
    exact absurd h Reader.reads_refuse
  | succ depth ih =>
    intro α form c a c' order h
    exact Grammar.step_sound ih form order h

/-- The forms on the way from a statement to what it begins with. -/
inductive Form.Opening : {α : Type} → Form α → Prop where
  | statement : Opening .statement
  | expression : Opening .expression
  | chain {first} : Opening (.chain first)
  | stage {first} : Opening (.stage first)
  | binary {least} : Opening (.binary least)
  | unary : Opening .unary
  | primary : Opening .primary

/-- No statement begins with a closing brace. -/
lemma Form.not_reads_brace {α : Type} {depth : Nat} {form : Form α} {c c' : Cursor} {a : α}
    (opening : form.Opening) (brace : c.isAt .rightBrace = true) :
    ¬ Reader.Reads (form.read depth) c a c' := by
  have kind : c.next.kind = .mark .rightBrace := by
    simp only [Cursor.isAt, Token.isMark] at brace
    split at brace <;> simp_all
  have other (m : Mark) (h : m ≠ .rightBrace) : c.isAt m = false := by
    simpa [Cursor.isAt, Token.isMark, kind] using h.symm
  have noBinding : c.startsBinding = false := by simp [Cursor.startsBinding, Token.name?, kind]
  have noOperator : c.next.binaryOp? = none := by simp [Token.binaryOp?, kind]
  induction depth generalizing α c' with
  | zero => exact Reader.reads_refuse
  | succ depth ih =>
    intro h
    simp only [Form.read, Grammar.step] at h
    cases opening with
    | statement =>
      obtain ⟨c₁, body, -⟩ := Grammar.reads_statement.1 h
      obtain ⟨isImport, -⟩ | ⟨-, ⟨isExport, -⟩ | ⟨-, ⟨binds, -⟩ | ⟨-, e, readE, -⟩⟩⟩ := Grammar.reads_statementBody.1 body
      · exact absurd isImport (by simp [other .kwImport (by decide)])
      · exact absurd isExport (by simp [other .kwExport (by decide)])
      · exact absurd binds (by simp [noBinding])
      · exact ih .expression readE
    | expression =>
      obtain ⟨p, readChain, -⟩ := Grammar.reads_expression.1 h
      exact ih .chain readChain
    | chain =>
      obtain ⟨s, c₁, readFirst, -⟩ := Grammar.reads_chain.1 h
      exact ih .stage readFirst
    | stage =>
      obtain ⟨op, spelt, -⟩ | ⟨-, ⟨isFor, -⟩ | ⟨-, e, c₁, readE, -⟩⟩ := Grammar.reads_stage.1 h
      · exact absurd spelt (by simp [noOperator])
      · exact absurd isFor (by simp [other .kwFor (by decide)])
      · exact ih .binary readE
    | binary =>
      obtain ⟨left, c₁, readLeft, -⟩ := Grammar.reads_binary.1 h
      exact ih .unary readLeft
    | unary =>
      obtain ⟨isMinus, -⟩ | ⟨-, ⟨isBang, -⟩ | ⟨-, base, c₁, readBase, -⟩⟩ := Grammar.reads_unary.1 h
      · exact absurd isMinus (by simp [other .minus (by decide)])
      · exact absurd isBang (by simp [other .bang (by decide)])
      · exact ih .primary readBase
    | primary =>
      have noLiteral : c.next.literal? = none := by simp [Token.literal?, kind]
      simp [Grammar.reads_primary, kind, noLiteral] at h

namespace Reader

/-- The statements of a module without errors are in order. -/
lemma moduleParts_sound {depth limit : Nat} {c : Cursor} {ss : List Statement} (order : c.InOrder)
    (h : moduleParts depth limit c = (ss, [])) :
    ∃ hi, (∀ lo, lo ≤ c.readTo + 1 →
      lo ≤ c.next.span.start ∨ c.isAt .rightBrace = true ∨ c.atEnd = true →
      Span.InOrder lo hi (ss.map Statement.span)) ∧ c.readTo ≤ hi ∧ ∀ s ∈ ss, s.Ordered := by
  induction limit generalizing c ss with
  | zero =>
    cases h
    exact ⟨c.readTo, fun lo le _ => .nil le, Nat.le_refl _, by simp⟩
  | succ limit ih =>
    simp only [moduleParts] at h
    split at h
    · cases h
      exact ⟨c.readTo, fun lo le _ => .nil le, Nat.le_refl _, by simp⟩
    next solid =>
    split at h
    · next isEnd =>
      obtain ⟨order₁, _, _, _⟩ := order.takeMark isEnd
      obtain ⟨hi, places, le, ordered⟩ := ih order₁ h
      have := order₁.next_start
      exact ⟨hi, fun lo _ _ => places lo (by omega) (Or.inl (by omega)), by omega, ordered⟩
    split at h
    · next first behind readFirst =>
      simp only [Prod.mk.injEq] at h
      obtain ⟨rfl, noErrors⟩ := h
      obtain ⟨⟨firstOrdered, ⟨starts, stops⟩, gap⟩, order₁, _⟩ := Form.read_sound depth .statement order readFirst
      obtain ⟨hi, places, le, restOrdered⟩ := ih order₁ (Prod.ext rfl noErrors)
      have noBrace : ¬ c.isAt .rightBrace = true := fun brace =>
        Form.not_reads_brace .statement brace readFirst
      refine ⟨hi, fun lo _ opening => ?_, by omega, List.forall_mem_cons.2 ⟨firstOrdered, restOrdered⟩⟩
      simp only [noBrace, solid, Bool.false_eq_true, or_false] at opening
      exact .cons (by omega) firstOrdered.proper (places _ (by omega) (gap.imp_left fun _ => by omega))
    · simp at h

end Reader

/-- What is parsed is in order. -/
theorem Module.parse_ordered {source : String} {m : Module} (h : Module.parse source = .ok m) :
    (∃ hi, Span.InOrder 0 hi (m.statements.map Statement.span)) ∧ ∀ s ∈ m.statements, s.Ordered := by
  simp only [Module.parse] at h
  cases scanned : Token.scan source with
  | error e => simp [scanned, bind, Except.bind] at h
  | ok tokens =>
    simp only [scanned, bind, Except.bind, ofTokens] at h
    split at h
    · next statements read =>
      cases h
      obtain ⟨hi, places, -, ordered⟩ := Reader.moduleParts_sound (c := ⟨tokens, 0⟩)
        (Token.scan_inOrder scanned) read
      exact ⟨⟨hi, places 0 (Nat.zero_le _) (Or.inl (Nat.zero_le _))⟩, ordered⟩
    · cases h

end PipeLang
