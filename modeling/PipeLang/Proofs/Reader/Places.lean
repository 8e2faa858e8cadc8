import PipeLang.Proofs.Reader.Ordered
import PipeLang.Proofs.Syntax.Nodes

/-!
# Places of what is parsed

The nodes of what a form reads are in place between the cursor before it and the cursor behind it. `Form.Places` says so
form by form; forms that continue something say it of the whole. Main statement: `Module.parse_identified`.
-/

namespace PipeLang

open Node

/-- A cursor over tokens in order that all stand between edges. -/
structure Cursor.Edged (edge : Nat → Prop) (c : Cursor) : Prop where
  order : c.InOrder
  readTo : edge c.readTo
  tokens : ∀ t ∈ c.rest, edge t.span.start ∧ edge t.span.stop

namespace Cursor.Edged

variable {edge : Nat → Prop} {c : Cursor}

/-- The next token begins at an edge. -/
lemma next (h : c.Edged edge) : edge c.next.span.start := by
  obtain ⟨rest, readTo⟩ := c
  cases rest with
  | nil => exact h.readTo
  | cons t rest => exact (h.tokens t List.mem_cons_self).1

/-- Taking a token that is not the end of the text moves the cursor over it. -/
lemma advance (h : c.Edged edge) (solid : c.atEnd = false) : c.advance.Edged edge ∧
    c.readTo ≤ c.next.span.start ∧ c.next.span.start < c.next.span.stop ∧ c.advance.readTo = c.next.span.stop := by
  obtain ⟨order, from_, proper, stop⟩ := h.order.advance solid
  refine ⟨⟨order, ?_, ?_⟩, from_, proper, stop⟩
  · obtain ⟨rest, readTo⟩ := c
    cases rest with
    | nil => exact h.readTo
    | cons t rest => exact (h.tokens t List.mem_cons_self).2
  · obtain ⟨rest, readTo⟩ := c
    cases rest with
    | nil => exact h.tokens
    | cons t rest => exact fun u member => h.tokens u (List.mem_cons_of_mem _ member)

/-- Taking a mark moves the cursor over it. -/
lemma takeMark {m : Mark} (h : c.Edged edge) (here : c.isAt m = true) : c.advance.Edged edge ∧
    c.readTo ≤ c.next.span.start ∧ c.next.span.start < c.next.span.stop ∧ c.advance.readTo = c.next.span.stop :=
  h.advance (solid_of_isAt here)

/-- A token that is taken is a node in place. -/
lemma takeLeaf (h : c.Edged edge) (kind : Kind) (noPath : kind ≠ .path) {span : Span} (solid : c.atEnd = false)
    (place : c.next.span = span) : c.advance.Edged edge ∧ c.readTo ≤ c.next.span.start ∧
      InPlace edge c.next.span.start c.advance.readTo [.mk kind span []] := by
  obtain ⟨edged, from_, proper, stop⟩ := h.advance solid
  have ending : edge c.next.span.stop := stop ▸ edged.readTo
  subst place
  exact ⟨edged, from_, .leaf (Nat.le_refl _) proper h.next ending (Nat.le_of_eq stop.symm) noPath⟩

/-- A name that is taken is a node in place. -/
lemma takeName (h : c.Edged edge) {i : Ident} (name : c.next.name? = some i.name) (place : c.next.span = i.span) :
    c.advance.Edged edge ∧ c.readTo ≤ c.next.span.start ∧
      InPlace edge c.next.span.start c.advance.readTo [i.node] :=
  h.takeLeaf .identifier (by simp) (solid_of_name name) place

end Cursor.Edged

/-- What is in place behind reading a form from one cursor to another. -/
def Form.Places (edge : Nat → Prop) {α : Type} (form : Form α) (c : Cursor) (a : α) (c' : Cursor) : Prop :=
  match form, a with
  | .statement, s => InPlace edge c.next.span.start c'.readTo [s.node]
  | .statements, ss => InPlace edge c.readTo c'.readTo (Statement.allNodes ss)
  | .block, b => InPlace edge c.next.span.start c'.readTo [b.node]
  | .importItems, list => InPlace edge c.next.span.start c'.readTo (list.flatMap ImportItem.nodes)
  | .expression, e | .binary _, e | .unary, e | .primary, e | .lambda, e =>
    InPlace edge c.next.span.start c'.readTo [e.node]
  | .chain _, p => InPlace edge c.next.span.start c'.readTo [p.node]
  | .stagesAfter _, rest => InPlace edge c.readTo c'.readTo (Stage.allNodes rest)
  | .stage _, s => InPlace edge c.next.span.start c'.readTo [s.node]
  | .loop, l => InPlace edge c.next.span.start c'.readTo [l.node]
  | .binaryAfter left _, e | .suffixes left, e =>
    ∀ lo, InPlace edge lo c.readTo [left.node] → InPlace edge lo c'.readTo [e.node]
  | .pathSegments, rest => InPlace edge c.readTo c'.readTo (rest.map Ident.node)
  | .arguments, args => InPlace edge c.readTo c'.readTo (Argument.allNodes args)
  | .items, es => InPlace edge c.readTo c'.readTo (Expr.allNodes es)
  | .branch start, b => start < c.readTo → edge start → InPlace edge start c'.readTo [b.node]
  | .params, ps => InPlace edge c.next.span.start c'.readTo (Param.allNodes ps)
  | .type, _ => c.next.span.start < c'.readTo

/-- A run of a form's reader that puts what it reads in place. -/
structure Form.Placed (edge : Nat → Prop) {α : Type} (form : Form α) (c : Cursor) (a : α) (c' : Cursor) : Prop where
  places : form.Places edge c a c'
  edged : c'.Edged edge
  forward : c.readTo ≤ c'.readTo

/-- Every run of these readers puts what it reads in place. -/
def Readers.Place (edge : Nat → Prop) (read : Readers) : Prop :=
  ∀ {α : Type} (form : Form α) {c : Cursor} {a : α} {c' : Cursor},
    c.Edged edge → Reader.Reads (read form) c a c' → form.Placed edge c a c'

namespace Grammar

open Reader Cursor

variable {edge : Nat → Prop} {read : Readers} {c c' : Cursor}

/-- A name behind `as` is in place. -/
lemma newName?_placed {a : Option Ident} (edged : c.Edged edge) (h : Reads newName? c a c') :
    InPlace edge c.readTo c'.readTo (Ident.optionNodes a) ∧ c'.Edged edge := by
  obtain ⟨isAs, _, name, place, rfl, rfl⟩ | ⟨-, rfl, rfl⟩ := reads_newName?.1 h
  · obtain ⟨edged₁, _, _, _⟩ := edged.takeMark isAs
    obtain ⟨edged₂, _, named⟩ := edged₁.takeName name place
    exact ⟨named.widen (by omega) (Nat.le_refl _), edged₂⟩
  · exact ⟨.nil (Nat.le_refl _), edged⟩

/-- A tag is in place. -/
lemma tag?_placed {a : Option Ident} (edged : c.Edged edge) (h : Reads tag? c a c') :
    InPlace edge c.readTo c'.readTo (Ident.optionNodes a) ∧ c'.Edged edge := by
  obtain ⟨isAs, _, name, place, rfl, rfl⟩ | ⟨-, rfl, rfl⟩ := reads_tag?.1 h
  · obtain ⟨edged₁, _, _, _⟩ := edged.takeMark isAs
    obtain ⟨edged₂, _, named⟩ := edged₁.takeName name place
    exact ⟨named.widen (by omega) (Nat.le_refl _), edged₂⟩
  · exact ⟨.nil (Nat.le_refl _), edged⟩

/-- The end of a statement moves the cursor forward. -/
lemma statementEnd_edged (edged : c.Edged edge) (h : Reads statementEnd c () c') :
    c'.Edged edge ∧ c.readTo ≤ c'.readTo := by
  obtain ⟨isEnd, rfl⟩ | ⟨-, -, rfl⟩ := reads_statementEnd.1 h
  · obtain ⟨edged₁, _, _, _⟩ := edged.takeMark isEnd
    exact ⟨edged₁, by omega⟩
  · exact ⟨edged, Nat.le_refl _⟩

/-- An import item is in place. -/
lemma importItem_placed {item : ImportItem} (edged : c.Edged edge) (h : Reads importItem c item c') :
    InPlace edge c.next.span.start c'.readTo item.nodes ∧ c'.Edged edge := by
  obtain ⟨isStar, rfl, rfl⟩ | ⟨-, ⟨isSelf, _, named, rfl⟩ | ⟨-, _, name, place, _, named, rfl⟩⟩ := reads_importItem.1 h
  · obtain ⟨edged₁, _, all⟩ := edged.takeLeaf .other (by simp) (solid_of_isAt isStar) rfl
    exact ⟨all, edged₁⟩
  · obtain ⟨edged₁, _, itself⟩ := edged.takeLeaf .other (by simp) (solid_of_isAt isSelf) rfl
    obtain ⟨alias_, edged₂⟩ := newName?_placed edged₁ named
    exact ⟨itself.append alias_, edged₂⟩
  · obtain ⟨edged₁, _, own⟩ := edged.takeName name place
    obtain ⟨alias_, edged₂⟩ := newName?_placed edged₁ named
    exact ⟨own.append alias_, edged₂⟩

lemma importItems_placed (ih : Readers.Place edge read) {items : List ImportItem} (edged : c.Edged edge)
    (h : Reads (importItems read) c items c') : Form.importItems.Placed edge c items c' := by
  have := edged.order.next_start
  obtain ⟨item, c₁, readItem, behind⟩ := reads_importItems.1 h
  obtain ⟨first, edged₁⟩ := importItem_placed edged readItem
  obtain ⟨isComma, rest, readRest, rfl⟩ | ⟨-, rfl, rfl⟩ := behind
  · obtain ⟨edged₂, _, _, _⟩ := edged₁.takeMark isComma
    obtain ⟨others, edged₃, _⟩ := ih .importItems edged₂ readRest
    have places := first.append (others.widen (by have := edged₂.order.next_start; omega) (Nat.le_refl _))
    exact ⟨places, edged₃, Nat.le_trans this places.le⟩
  · have places : InPlace edge c.next.span.start c₁.readTo ([item].flatMap ImportItem.nodes) := by simpa using first
    exact ⟨places, edged₁, Nat.le_trans this places.le⟩

/-- An import statement behind an offset is in place. -/
lemma importStatement_placed (ih : Readers.Place edge read) {exported : Bool} {start : Nat} {i : Import}
    (edged : c.Edged edge) (from_ : start ≤ c.next.span.start) (begins : edge start)
    (h : Reads (importStatement read exported start) c i c') :
    InPlace edge start c'.readTo [i.node] ∧ c'.Edged edge := by
  obtain ⟨isImport, whole⟩ := reads_importStatement.1 h
  obtain ⟨edged₁, _, _, _⟩ := edged.takeMark isImport
  have := edged₁.order.next_start
  obtain ⟨_, kind, _, named, rfl⟩ | ⟨-, items, c₂, readItems, isFrom, _, kind, rfl, rfl⟩ := whole
  · obtain ⟨edged₂, _, place⟩ := edged₁.takeLeaf .other (by simp) (solid_of_kind kind (by simp)) rfl
    obtain ⟨alias_, edged₃⟩ := newName?_placed edged₂ named
    exact ⟨.behind (Nat.le_refl _) (by simp only; omega) begins edged₃.readTo (Nat.le_refl _) (by simp)
      (place.append alias_), edged₃⟩
  · obtain ⟨listed, edged₂, _⟩ := ih .importItems edged₁ readItems
    obtain ⟨edged₃, _, _, _⟩ := edged₂.takeMark isFrom
    have := edged₃.order.next_start
    obtain ⟨edged₄, _, source⟩ := edged₃.takeLeaf .other (by simp) (solid_of_kind kind (by simp)) rfl
    obtain ⟨_, _, upTo, -, ending⟩ := source.ends mk_span
    have inside := listed.append ((source.narrow mk_span).widen (by omega) (Nat.le_refl _))
    exact ⟨.behind (Nat.le_refl _) (by simp only; omega) begins ending upTo (by simp) inside, edged₄⟩

/-- A definition behind an offset is in place. -/
lemma definition_placed (ih : Readers.Place edge read) {exported : Bool} {start : Nat} {s : Statement}
    (edged : c.Edged edge) (from_ : start ≤ c.next.span.start) (begins : edge start)
    (h : Reads (definition read exported start) c s c') :
    InPlace edge start c'.readTo [s.node] ∧ c'.Edged edge := by
  obtain ⟨name, named, place, isEq, value, readValue, rfl⟩ := reads_definition.1 h
  obtain ⟨edged₁, _, nameIn⟩ := edged.takeName named place
  obtain ⟨edged₂, _, _, _⟩ := edged₁.takeMark isEq
  obtain ⟨valueIn, edged₃, _⟩ := ih .expression edged₂ readValue
  obtain ⟨_, _, upTo, -, ending⟩ := valueIn.ends value.node_span
  have := edged₂.order.next_start
  have := nameIn.le
  have inside := nameIn.append ((valueIn.narrow value.node_span).widen (by omega) (Nat.le_refl _))
  exact ⟨.around (Nat.le_refl _) (by simp only; omega) begins ending upTo (inside.widen from_ (Nat.le_refl _)), edged₃⟩

/-- A statement behind an offset is in place. -/
lemma statementBody_placed (ih : Readers.Place edge read) {start : Nat} {s : Statement} (edged : c.Edged edge)
    (from_ : start ≤ c.next.span.start) (begins : edge start) (h : Reads (statementBody read start) c s c') :
    InPlace edge start c'.readTo [s.node] ∧ c'.Edged edge := by
  obtain ⟨-, i, readImport, rfl⟩ | ⟨-, ⟨isExport, exported⟩ | ⟨-, ⟨-, defined⟩ | ⟨-, e, readE, rfl⟩⟩⟩ :=
    reads_statementBody.1 h
  · exact importStatement_placed ih edged from_ begins readImport
  · obtain ⟨edged₁, _, _, _⟩ := edged.takeMark isExport
    have := edged₁.order.next_start
    obtain ⟨-, i, readImport, rfl⟩ | ⟨-, defined⟩ := exported
    · exact importStatement_placed ih edged₁ (by omega) begins readImport
    · exact definition_placed ih edged₁ (by omega) begins defined
  · exact definition_placed ih edged from_ begins defined
  · obtain ⟨eIn, edged₁, _⟩ := ih .expression edged readE
    obtain ⟨from', proper, upTo, starts, stops⟩ := eIn.ends e.node_span
    exact ⟨.around (Nat.le_trans from_ from') proper starts stops upTo (eIn.narrow e.node_span), edged₁⟩

lemma statement_placed (ih : Readers.Place edge read) {s : Statement} (edged : c.Edged edge)
    (h : Reads (statement read) c s c') : Form.statement.Placed edge c s c' := by
  obtain ⟨c₁, readBody, ends⟩ := reads_statement.1 h
  obtain ⟨body, edged₁⟩ := statementBody_placed ih edged (Nat.le_refl _) edged.next readBody
  obtain ⟨edged₂, forward⟩ := statementEnd_edged edged₁ ends
  have := edged.order.next_start
  have := body.le
  exact ⟨body.widen (Nat.le_refl _) forward, edged₂, by omega⟩

lemma statements_placed (ih : Readers.Place edge read) {ss : List Statement} (edged : c.Edged edge)
    (h : Reads (statements read) c ss c') : Form.statements.Placed edge c ss c' := by
  obtain ⟨-, rfl, rfl⟩ | ⟨-, ⟨isEnd, readRest⟩ | ⟨-, first, c₁, readFirst, rest, readRest, rfl⟩⟩ := reads_statements.1 h
  · exact ⟨.nil (Nat.le_refl _), edged, Nat.le_refl _⟩
  · obtain ⟨edged₁, _, _, _⟩ := edged.takeMark isEnd
    obtain ⟨places, edged₂, _⟩ := ih .statements edged₁ readRest
    exact ⟨places.widen (by omega) (Nat.le_refl _), edged₂, by omega⟩
  · obtain ⟨firstIn, edged₁, _⟩ := ih .statement edged readFirst
    obtain ⟨restIn, edged₂, _⟩ := ih .statements edged₁ readRest
    exact ⟨(firstIn.append restIn).widen edged.order.next_start (Nat.le_refl _), edged₂, by omega⟩

lemma block_placed (ih : Readers.Place edge read) {b : Block} (edged : c.Edged edge)
    (h : Reads (block read) c b c') : Form.block.Placed edge c b c' := by
  obtain ⟨isOpen, ss, c₂, readBody, isClose, rfl, rfl⟩ := reads_block.1 h
  obtain ⟨edged₁, _, _, _⟩ := edged.takeMark isOpen
  obtain ⟨places, edged₂, _⟩ := ih .statements edged₁ readBody
  obtain ⟨edged₃, _, _, closed⟩ := edged₂.takeMark isClose
  rw [← closed]
  exact ⟨.around (Nat.le_refl _) (by simp only; omega) edged.next edged₃.readTo (Nat.le_refl _)
    (places.widen (by simp only; omega) (by simp only; omega)), edged₃, by omega⟩

lemma expression_placed (ih : Readers.Place edge read) {e : Expr} (edged : c.Edged edge)
    (h : Reads (expression read) c e c') : Form.expression.Placed edge c e c' := by
  obtain ⟨⟨stages, span⟩, readChain, rfl⟩ := reads_expression.1 h
  obtain ⟨places, edged₁, forward₁⟩ := ih (.chain true) edged readChain
  refine ⟨?_, edged₁, forward₁⟩
  simp only [ofChain]
  split
  · next e _ single =>
    -- the node of the chain and that of its only stage stand around the expression
    cases single
    cases places with
    | cons from_ _ _ _ _ _ stageIn upTo =>
      cases stageIn with
      | cons from' _ _ _ _ _ eIn upTo' =>
        have := upTo.le
        have := upTo'.le
        exact eIn.widen (by omega) (by omega)
  · exact places

lemma chain_placed (ih : Readers.Place edge read) {first : Bool} {p : Pipeline} (edged : c.Edged edge)
    (h : Reads (chain read first) c p c') : (Form.chain first).Placed edge c p c' := by
  obtain ⟨s, c₁, readFirst, rest, readRest, rfl⟩ := reads_chain.1 h
  obtain ⟨firstIn, edged₁, _⟩ := ih (.stage first) edged readFirst
  obtain ⟨restIn, edged₂, _⟩ := ih (.stagesAfter s) edged₁ readRest
  have stages : InPlace edge c.next.span.start c'.readTo ((s :: rest).map Stage.node) :=
    Stage.allNodes_eq (s :: rest) ▸ firstIn.append restIn
  have isLast : ((s :: rest).map Stage.node).getLast? = some ((s :: rest).getLast (by simp)).node := by
    rw [List.getLast?_map, List.getLast?_eq_some_getLast (by simp), Option.map_some]
  obtain ⟨places, from_, lastStart, proper, lastStop, upTo, starts, stops⟩ := stages.hull isLast
  simp only [Stage.node_span] at *
  have covers : chainSpan s rest = ⟨s.span.start, ((s :: rest).getLast (by simp)).span.stop⟩ := by
    simp only [chainSpan, Span.union]
    congr 1 <;> omega
  rw [covers]
  refine ⟨.around from_ (by simp only; omega) starts stops upTo ?_, edged₂, by omega⟩
  rw [Stage.allNodes_eq]
  exact places

lemma stagesAfter_placed (ih : Readers.Place edge read) {before : Stage} {rest : List Stage} (edged : c.Edged edge)
    (h : Reads (stagesAfter read before) c rest c') : (Form.stagesAfter before).Placed edge c rest c' := by
  have none : (Form.stagesAfter before).Placed edge c [] c := ⟨.nil (Nat.le_refl _), edged, Nat.le_refl _⟩
  obtain ⟨-, rfl, rfl⟩ | ⟨-, ⟨isPipe, following, c₂, readFollowing, more, readMore, rfl⟩ | ⟨-, rfl, rfl⟩⟩ :=
    reads_stagesAfter.1 h
  · exact none
  · obtain ⟨edged₁, _, _, _⟩ := edged.takeMark isPipe
    obtain ⟨followingIn, edged₂, _⟩ := ih (.stage false) edged₁ readFollowing
    obtain ⟨moreIn, edged₃, _⟩ := ih (.stagesAfter following) edged₂ readMore
    have := edged₁.order.next_start
    exact ⟨(followingIn.append moreIn).widen (by omega) (Nat.le_refl _), edged₃, by omega⟩
  · exact none

/-- A stage from an expression that has been read is in place. -/
lemma stageOf_placed {start : Nat} {e : Expr} {s : Stage} (edged : c.Edged edge) (begins : edge start)
    (eIn : InPlace edge start c.readTo [e.node]) (h : Reads (stageOf start e) c s c') :
    InPlace edge start c'.readTo [s.node] ∧ c'.Edged edge := by
  obtain ⟨_, _, _, -, -⟩ := eIn.ends e.node_span
  obtain ⟨-, rfl, rfl⟩ | ⟨-, tag, readTag, rfl⟩ := reads_stageOf.1 h
  · exact ⟨.around (Nat.le_refl _) (by simp only; omega) begins edged.readTo (Nat.le_refl _) eIn, edged⟩
  · obtain ⟨tagIn, edged₁⟩ := tag?_placed edged readTag
    have := tagIn.le
    exact ⟨.around (Nat.le_refl _) (by simp only; omega) begins edged₁.readTo (Nat.le_refl _) (eIn.append tagIn), edged₁⟩

lemma stage_placed (ih : Readers.Place edge read) {first : Bool} {s : Stage} (edged : c.Edged edge)
    (h : Reads (stage read first) c s c') : (Form.stage first).Placed edge c s c' := by
  have := edged.order.next_start
  obtain ⟨op, spelt, -, operand, c₂, readOperand, tag, readTag, rfl⟩ |
    ⟨-, ⟨-, l, c₁, readLoop, readTag⟩ | ⟨-, e, c₁, readE, readTag⟩⟩ := reads_stage.1 h
  · obtain ⟨edged₁, _, _, _⟩ := edged.advance (solid_of_binaryOp spelt)
    obtain ⟨operandIn, edged₂, _⟩ := ih (.binary _) edged₁ readOperand
    obtain ⟨tagIn, edged₃⟩ := tag?_placed edged₂ readTag
    have inside := operandIn.append tagIn
    have := edged₁.order.next_start
    have := inside.le
    exact ⟨.around (Nat.le_refl _) (by simp only; omega) edged.next edged₃.readTo (Nat.le_refl _)
      (inside.widen (by simp only; omega) (Nat.le_refl _)), edged₃, by omega⟩
  · obtain ⟨loopIn, edged₁, _⟩ := ih .loop edged readLoop
    have whole : InPlace edge c.next.span.start c₁.readTo [(Expr.loop l).node] := loopIn
    obtain ⟨places, edged₂⟩ := stageOf_placed edged₁ edged.next whole readTag
    have := places.le
    exact ⟨places, edged₂, by omega⟩
  · obtain ⟨eIn, edged₁, _⟩ := ih (.binary 0) edged readE
    obtain ⟨places, edged₂⟩ := stageOf_placed edged₁ edged.next eIn readTag
    have := places.le
    exact ⟨places, edged₂, by omega⟩

lemma loop_placed (ih : Readers.Place edge read) {l : Loop} (edged : c.Edged edge)
    (h : Reads (loop read) c l c') : Form.loop.Placed edge c l c' := by
  obtain ⟨isFor, sequence, c₂, readSequence, isAs, binding, name, place, isPipe, body, readBody, rfl⟩ := reads_loop.1 h
  obtain ⟨edged₁, _, _, _⟩ := edged.takeMark isFor
  obtain ⟨sequenceIn, edged₂, _⟩ := ih (.binary 0) edged₁ readSequence
  obtain ⟨edged₃, _, _, _⟩ := edged₂.takeMark isAs
  obtain ⟨edged₄, _, bindingIn⟩ := edged₃.takeName name place
  obtain ⟨edged₅, _, _, _⟩ := edged₄.takeMark isPipe
  obtain ⟨bodyIn, edged₆, _⟩ := ih (.chain false) edged₅ readBody
  obtain ⟨_, _, upTo, -, stops⟩ := bodyIn.ends body.node_span
  have := edged₁.order.next_start
  have := edged₅.order.next_start
  have := sequenceIn.le
  have := bindingIn.le
  have inside := (sequenceIn.append (bindingIn.widen (by omega) (Nat.le_refl _))).append
    ((bodyIn.narrow body.node_span).widen (by omega) (Nat.le_refl _))
  exact ⟨.behind (Nat.le_refl _) (by simp only; omega) edged.next stops upTo (by simp) inside, edged₆, by omega⟩

lemma binary_placed (ih : Readers.Place edge read) {least : Nat} {e : Expr} (edged : c.Edged edge)
    (h : Reads (binary read least) c e c') : (Form.binary least).Placed edge c e c' := by
  obtain ⟨left, c₁, readLeft, readRest⟩ := reads_binary.1 h
  obtain ⟨leftIn, edged₁, _⟩ := ih .unary edged readLeft
  obtain ⟨continues, edged₂, _⟩ := ih (.binaryAfter left least) edged₁ readRest
  exact ⟨continues _ leftIn, edged₂, by omega⟩

lemma binaryAfter_placed (ih : Readers.Place edge read) {left : Expr} {least : Nat} {e : Expr} (edged : c.Edged edge)
    (h : Reads (binaryAfter read left least) c e c') : (Form.binaryAfter left least).Placed edge c e c' := by
  obtain ⟨-, rfl, rfl⟩ | ⟨op, spelt, -, right, c₂, readRight, readRest⟩ := reads_binaryAfter.1 h
  · exact ⟨fun _ leftIn => leftIn, edged, Nat.le_refl _⟩
  · obtain ⟨edged₁, _, _, _⟩ := edged.advance (solid_of_binaryOp spelt)
    obtain ⟨rightIn, edged₂, _⟩ := ih (.binary _) edged₁ readRight
    obtain ⟨continues, edged₃, _⟩ := ih (.binaryAfter _ least) edged₂ readRest
    refine ⟨fun lo leftIn => continues lo ?_, edged₃, by omega⟩
    have := edged₁.order.next_start
    obtain ⟨from_, _, _, starts, -⟩ := leftIn.ends left.node_span
    obtain ⟨_, _, upTo, -, stops⟩ := rightIn.ends right.node_span
    have covers : left.span.union right.span = ⟨left.span.start, right.span.stop⟩ := by
      simp only [Span.union]
      congr 1 <;> omega
    have inside := (leftIn.narrow left.node_span).append
      ((rightIn.narrow right.node_span).widen (by omega) (Nat.le_refl _))
    rw [covers]
    exact .around from_ (by simp only; omega) starts stops upTo inside

lemma unary_placed (ih : Readers.Place edge read) {e : Expr} (edged : c.Edged edge)
    (h : Reads (unary read) c e c') : Form.unary.Placed edge c e c' := by
  -- a sign before an operand
  have signed {op : UnaryOp} {m : Mark} (isSign : c.isAt m = true)
      (h : ∃ operand, Reads (read .unary) c.advance operand c' ∧
        .unary op operand ⟨c.next.span.start, operand.span.stop⟩ = e) : Form.unary.Placed edge c e c' := by
    obtain ⟨operand, readOperand, rfl⟩ := h
    obtain ⟨edged₁, _, _, _⟩ := edged.takeMark isSign
    obtain ⟨operandIn, edged₂, _⟩ := ih .unary edged₁ readOperand
    obtain ⟨_, _, upTo, -, stops⟩ := operandIn.ends operand.node_span
    have := edged₁.order.next_start
    exact ⟨.around (Nat.le_refl _) (by simp only; omega) edged.next stops upTo
      ((operandIn.narrow operand.node_span).widen (by simp only; omega) (Nat.le_refl _)), edged₂, by omega⟩
  obtain ⟨isMinus, negated⟩ | ⟨-, ⟨isBang, refuted⟩ | ⟨-, base, c₁, readBase, readRest⟩⟩ := reads_unary.1 h
  · exact signed isMinus negated
  · exact signed isBang refuted
  · obtain ⟨baseIn, edged₁, _⟩ := ih .primary edged readBase
    obtain ⟨continues, edged₂, _⟩ := ih (.suffixes base) edged₁ readRest
    exact ⟨continues _ baseIn, edged₂, by omega⟩

lemma suffixes_placed (ih : Readers.Place edge read) {base e : Expr} (edged : c.Edged edge)
    (h : Reads (suffixes read base) c e c') : (Form.suffixes base).Placed edge c e c' := by
  have none : (Form.suffixes base).Placed edge c base c := ⟨fun _ baseIn => baseIn, edged, Nat.le_refl _⟩
  obtain ⟨-, rfl, rfl⟩ | ⟨-, ⟨isParen, args, c₂, readArgs, isClose, readRest⟩ |
    ⟨-, ⟨isBracket, index, c₂, readIndex, isClose, readRest⟩ | ⟨-, rfl, rfl⟩⟩⟩ := reads_suffixes.1 h
  · exact none
  · obtain ⟨edged₁, _, _, _⟩ := edged.takeMark isParen
    obtain ⟨argsIn, edged₂, _⟩ := ih .arguments edged₁ readArgs
    obtain ⟨edged₃, _, _, closed⟩ := edged₂.takeMark isClose
    obtain ⟨continues, edged₄, _⟩ := ih (.suffixes _) edged₃ readRest
    refine ⟨fun lo baseIn => continues lo ?_, edged₄, by omega⟩
    obtain ⟨from_, _, _, starts, -⟩ := baseIn.ends base.node_span
    have inside := (baseIn.narrow base.node_span).append (argsIn.widen (by omega) (Nat.le_refl _))
    rw [← closed]
    exact .around from_ (by simp only; omega) starts edged₃.readTo (Nat.le_refl _)
      (inside.widen (Nat.le_refl _) (by simp only; omega))
  · obtain ⟨edged₁, _, _, _⟩ := edged.takeMark isBracket
    obtain ⟨indexIn, edged₂, _⟩ := ih .expression edged₁ readIndex
    obtain ⟨edged₃, _, _, closed⟩ := edged₂.takeMark isClose
    obtain ⟨continues, edged₄, _⟩ := ih (.suffixes _) edged₃ readRest
    have := edged₁.order.next_start
    refine ⟨fun lo baseIn => continues lo ?_, edged₄, by omega⟩
    obtain ⟨from_, _, _, starts, -⟩ := baseIn.ends base.node_span
    have inside := (baseIn.narrow base.node_span).append (indexIn.widen (by omega) (Nat.le_refl _))
    rw [← closed]
    exact .around from_ (by simp only; omega) starts edged₃.readTo (Nat.le_refl _)
      (inside.widen (Nat.le_refl _) (by simp only; omega))
  · exact none

lemma pathSegments_placed (ih : Readers.Place edge read) {rest : List Ident} (edged : c.Edged edge)
    (h : Reads (pathSegments read) c rest c') : Form.pathSegments.Placed edge c rest c' := by
  obtain ⟨isColons, segment, named, place, more, readMore, rfl⟩ | ⟨-, rfl, rfl⟩ := reads_pathSegments.1 h
  · obtain ⟨edged₁, _, _, _⟩ := edged.takeMark isColons
    obtain ⟨edged₂, _, segmentIn⟩ := edged₁.takeName named place
    obtain ⟨moreIn, edged₃, _⟩ := ih .pathSegments edged₂ readMore
    have := segmentIn.le
    exact ⟨(segmentIn.append moreIn).widen (by omega) (Nat.le_refl _), edged₃, by omega⟩
  · exact ⟨.nil (Nat.le_refl _), edged, Nat.le_refl _⟩

/-- A name or a path is in place. -/
lemma nameOrPath_placed (ih : Readers.Place edge read) {e : Expr} (edged : c.Edged edge)
    (h : Reads (nameOrPath read) c e c') : Form.primary.Placed edge c e c' := by
  obtain ⟨head, named, place, rest, readRest, whole⟩ := reads_nameOrPath.1 h
  obtain ⟨edged₁, _, headIn⟩ := edged.takeName named place
  obtain ⟨restIn, edged₂, forward⟩ := ih .pathSegments edged₁ readRest
  have := headIn.le
  obtain ⟨rfl, rfl⟩ | ⟨last, isLast, rfl⟩ := whole
  · exact ⟨headIn.widen (Nat.le_refl _) forward, edged₂, by omega⟩
  · obtain ⟨second, more, rfl⟩ : ∃ second more, rest = second :: more := by
      cases rest with
      | nil => cases isLast
      | cons second more => exact ⟨second, more, rfl⟩
    have lastNode : ((second :: more).map Ident.node).getLast? = some last.node := by
      rw [List.getLast?_map, isLast, Option.map_some]
    obtain ⟨inside, from_, _, _, _, upTo, -, stops⟩ := restIn.hull lastNode
    obtain ⟨from', proper, upTo', starts, -⟩ := headIn.ends mk_span
    have names := (headIn.narrow mk_span).append (inside.widen (Nat.le_trans upTo' from_) (Nat.le_refl _))
    have := inside.le
    refine ⟨.cons from' ?_ starts stops (Nat.le_refl _) (.names rfl) names (.nil upTo), edged₂, by omega⟩
    show head.span.start < last.span.stop
    simp only [Ident.node, mk_span] at *
    omega

/-- An argument is in place. -/
lemma argument_placed (ih : Readers.Place edge read) {a : Argument} (edged : c.Edged edge)
    (h : Reads (argument read) c a c') :
    InPlace edge c.next.span.start c'.readTo (Argument.allNodes [a]) ∧ c'.Edged edge := by
  obtain ⟨-, name, named, place, isEq, value, readValue, rfl⟩ | ⟨-, value, readValue, rfl⟩ := reads_argument.1 h
  · obtain ⟨edged₁, _, nameIn⟩ := edged.takeName named place
    obtain ⟨edged₂, _, _, _⟩ := edged₁.takeMark isEq
    obtain ⟨valueIn, edged₃, _⟩ := ih .expression edged₂ readValue
    have := edged₂.order.next_start
    exact ⟨nameIn.append (valueIn.widen (by omega) (Nat.le_refl _)), edged₃⟩
  · obtain ⟨valueIn, edged₁, _⟩ := ih .expression edged readValue
    exact ⟨valueIn, edged₁⟩

lemma arguments_placed (ih : Readers.Place edge read) {args : List Argument} (edged : c.Edged edge)
    (h : Reads (arguments read) c args c') : Form.arguments.Placed edge c args c' := by
  obtain ⟨-, rfl, rfl⟩ | ⟨-, first, c₁, readFirst, behind⟩ := reads_arguments.1 h
  · exact ⟨.nil (Nat.le_refl _), edged, Nat.le_refl _⟩
  obtain ⟨firstIn, edged₁⟩ := argument_placed ih edged readFirst
  have := edged.order.next_start
  have := firstIn.le
  obtain ⟨isComma, rest, readRest, rfl⟩ | ⟨-, rfl, rfl⟩ := behind
  · obtain ⟨edged₂, _, _, _⟩ := edged₁.takeMark isComma
    obtain ⟨restIn, edged₃, _⟩ := ih .arguments edged₂ readRest
    have places := firstIn.append (restIn.widen (by omega) (Nat.le_refl _))
    rw [← Argument.allNodes_cons] at places
    exact ⟨places.widen (by omega) (Nat.le_refl _), edged₃, by omega⟩
  · exact ⟨firstIn.widen (by omega) (Nat.le_refl _), edged₁, by omega⟩

lemma items_placed (ih : Readers.Place edge read) {es : List Expr} (edged : c.Edged edge)
    (h : Reads (items read) c es c') : Form.items.Placed edge c es c' := by
  obtain ⟨isComma, ⟨-, rfl, rfl⟩ | ⟨-, e, c₂, readE, rest, readRest, rfl⟩⟩ | ⟨-, rfl, rfl⟩ := reads_items.1 h
  · obtain ⟨edged₁, _, _, _⟩ := edged.takeMark isComma
    exact ⟨.nil (by omega), edged₁, by omega⟩
  · obtain ⟨edged₁, _, _, _⟩ := edged.takeMark isComma
    obtain ⟨eIn, edged₂, _⟩ := ih .expression edged₁ readE
    obtain ⟨restIn, edged₃, _⟩ := ih .items edged₂ readRest
    have := edged₁.order.next_start
    exact ⟨(eIn.append restIn).widen (by omega) (Nat.le_refl _), edged₃, by omega⟩
  · exact ⟨.nil (Nat.le_refl _), edged, Nat.le_refl _⟩

/-- A range behind its dots is in place. -/
lemma rangeFrom_placed (ih : Readers.Place edge read) {start : Nat} {first e : Expr} {inclusive : Bool}
    (edged : c.Edged edge) (begins : edge start) (firstIn : InPlace edge start c.readTo [first.node])
    (h : Reads (rangeFrom read start first inclusive) c e c') :
    InPlace edge start c'.readTo [e.node] ∧ c'.Edged edge := by
  obtain ⟨last, c₁, readLast, isClose, rfl, rfl⟩ := reads_rangeFrom.1 h
  obtain ⟨lastIn, edged₁, _⟩ := ih .expression edged readLast
  obtain ⟨edged₂, _, _, closed⟩ := edged₁.takeMark isClose
  have inside := firstIn.append (lastIn.widen edged.order.next_start (Nat.le_refl _))
  have := inside.le
  rw [← closed]
  exact ⟨.around (Nat.le_refl _) (by simp only; omega) begins edged₂.readTo (Nat.le_refl _)
    (inside.widen (Nat.le_refl _) (by simp only; omega)), edged₂⟩

/-- An array literal or a range is in place. -/
lemma bracketed_placed (ih : Readers.Place edge read) {e : Expr} (edged : c.Edged edge)
    (h : Reads (bracketed read) c e c') : Form.primary.Placed edge c e c' := by
  obtain ⟨isOpen, ⟨isClose, rfl, rfl⟩ | ⟨-, first, c₂, readFirst, behind⟩⟩ := reads_bracketed.1 h
  · obtain ⟨edged₁, _, _, _⟩ := edged.takeMark isOpen
    obtain ⟨edged₂, _, _, closed⟩ := edged₁.takeMark isClose
    rw [← closed]
    exact ⟨.around (Nat.le_refl _) (by simp only; omega) edged.next edged₂.readTo (Nat.le_refl _)
      (.nil (by simp only; omega)), edged₂, by omega⟩
  obtain ⟨edged₁, _, _, _⟩ := edged.takeMark isOpen
  have := edged₁.order.next_start
  obtain ⟨firstIn, edged₂, _⟩ := ih .expression edged₁ readFirst
  -- the two kinds of ranges
  have range {inclusive : Bool} {m : Mark} (isDots : c₂.isAt m = true)
      (h : Reads (rangeFrom read c.next.span.start first inclusive) c₂.advance e c') :
      Form.primary.Placed edge c e c' := by
    obtain ⟨edged₃, _, _, _⟩ := edged₂.takeMark isDots
    obtain ⟨places, edged₄⟩ := rangeFrom_placed ih edged₃ edged.next (firstIn.widen (by omega) (by omega)) h
    have := places.le
    exact ⟨places, edged₄, by omega⟩
  obtain ⟨isDots, ranges⟩ | ⟨-, ⟨isDots, ranges⟩ | ⟨-, rest, c₃, readRest, isClose, rfl, rfl⟩⟩ := behind
  · exact range isDots ranges
  · exact range isDots ranges
  · obtain ⟨restIn, edged₃, _⟩ := ih .items edged₂ readRest
    obtain ⟨edged₄, _, _, closed⟩ := edged₃.takeMark isClose
    have inside := firstIn.append restIn
    rw [← closed]
    exact ⟨.around (Nat.le_refl _) (by simp only; omega) edged.next edged₄.readTo (Nat.le_refl _)
      (inside.widen (by simp only; omega) (by simp only; omega)), edged₄, by omega⟩

lemma primary_placed (ih : Readers.Place edge read) {e : Expr} (edged : c.Edged edge)
    (h : Reads (primary read) c e c') : Form.primary.Placed edge c e c' := by
  obtain ⟨-, readName⟩ | ⟨value, isValue, rfl, rfl⟩ | ⟨-, b, readBlock, rfl⟩ | ⟨isIf, b, readBranch, rfl⟩ |
    ⟨-, ⟨-, readLambda⟩ | ⟨-, inParens⟩⟩ | ⟨-, readItems⟩ := reads_primary.1 h
  · exact nameOrPath_placed ih edged readName
  · obtain ⟨edged₁, _, place⟩ := edged.takeLeaf .other (by simp) (solid_of_literal isValue) rfl
    have := place.le
    exact ⟨place, edged₁, by omega⟩
  · obtain ⟨places, edged₁, forward⟩ := ih .block edged readBlock
    exact ⟨places, edged₁, forward⟩
  · obtain ⟨edged₁, _, _, _⟩ := edged.advance (solid_of_kind isIf (by simp))
    obtain ⟨places, edged₂, _⟩ := ih (.branch _) edged₁ readBranch
    exact ⟨places (by omega) edged.next, edged₂, by omega⟩
  · obtain ⟨places, edged₁, forward⟩ := ih .lambda edged readLambda
    exact ⟨places, edged₁, forward⟩
  · obtain ⟨isOpen, c₂, readInner, isClose, rfl⟩ := reads_parenthesised.1 inParens
    obtain ⟨edged₁, _, _, _⟩ := edged.takeMark isOpen
    obtain ⟨places, edged₂, _⟩ := ih .expression edged₁ readInner
    obtain ⟨edged₃, _, _, _⟩ := edged₂.takeMark isClose
    have := edged₁.order.next_start
    exact ⟨places.widen (by omega) (by omega), edged₃, by omega⟩
  · exact bracketed_placed ih edged readItems

/-- What follows the block of a conditional is in place. -/
lemma alternative_placed (ih : Readers.Place edge read) {a : Alternative} (edged : c.Edged edge)
    (h : Reads (alternative read) c a c') : InPlace edge c.readTo c'.readTo a.nodes ∧ c'.Edged edge := by
  obtain ⟨isElse, ⟨isIf, b, readBranch, rfl⟩ | ⟨-, b, readBlock, rfl⟩⟩ | ⟨-, rfl, rfl⟩ := reads_alternative.1 h
  · obtain ⟨edged₁, _, _, _⟩ := edged.takeMark isElse
    obtain ⟨edged₂, _, _, _⟩ := edged₁.takeMark isIf
    obtain ⟨places, edged₃, _⟩ := ih (.branch _) edged₂ readBranch
    exact ⟨(places (by omega) edged₁.next).widen (by omega) (Nat.le_refl _), edged₃⟩
  · obtain ⟨edged₁, _, _, _⟩ := edged.takeMark isElse
    obtain ⟨places, edged₂, _⟩ := ih .block edged₁ readBlock
    have := edged₁.order.next_start
    exact ⟨places.widen (by omega) (Nat.le_refl _), edged₂⟩
  · exact ⟨.nil (Nat.le_refl _), edged⟩

lemma branch_placed (ih : Readers.Place edge read) {start : Nat} {b : Branch} (edged : c.Edged edge)
    (h : Reads (branch read start) c b c') : (Form.branch start).Placed edge c b c' := by
  obtain ⟨condition, c₁, readCondition, consequence, c₂, readConsequence, other, readOther, rfl⟩ := reads_branch.1 h
  obtain ⟨conditionIn, edged₁, _⟩ := ih (.binary 0) edged readCondition
  obtain ⟨consequenceIn, edged₂, _⟩ := ih .block edged₁ readConsequence
  obtain ⟨otherIn, edged₃⟩ := alternative_placed ih edged₂ readOther
  have := edged.order.next_start
  have inside := (conditionIn.append (consequenceIn.widen edged₁.order.next_start (Nat.le_refl _))).append otherIn
  have := inside.le
  exact ⟨fun _ begins => .around (Nat.le_refl _) (by simp only; omega) begins edged₃.readTo (Nat.le_refl _)
    (inside.widen (by simp only; omega) (Nat.le_refl _)), edged₃, by omega⟩

/-- A type with its place is in place. -/
lemma typeNote_placed (ih : Readers.Place edge read) {note : TypeNote} (edged : c.Edged edge)
    (h : Reads (typeNote read) c note c') :
    InPlace edge c.next.span.start c'.readTo (TypeNote.optionNodes (some note)) ∧ c'.Edged edge := by
  obtain ⟨ty, readType, rfl⟩ := reads_typeNote.1 h
  obtain ⟨proper, edged₁, _⟩ := ih .type edged readType
  exact ⟨.leaf (Nat.le_refl _) proper edged.next edged₁.readTo (Nat.le_refl _) (by simp), edged₁⟩

/-- A type behind a mark is in place. -/
lemma typeBehind?_placed (ih : Readers.Place edge read) {m : Mark} {note : Option TypeNote} (edged : c.Edged edge)
    (h : Reads (typeBehind? read m) c note c') :
    InPlace edge c.readTo c'.readTo (TypeNote.optionNodes note) ∧ c'.Edged edge := by
  obtain ⟨isMark, note, readNote, rfl⟩ | ⟨-, rfl, rfl⟩ := reads_typeBehind?.1 h
  · obtain ⟨edged₁, _, _, _⟩ := edged.takeMark isMark
    obtain ⟨noteIn, edged₂⟩ := typeNote_placed ih edged₁ readNote
    have := edged₁.order.next_start
    exact ⟨noteIn.widen (by omega) (Nat.le_refl _), edged₂⟩
  · exact ⟨.nil (Nat.le_refl _), edged⟩

/-- A default is in place. -/
lemma fallback?_placed (ih : Readers.Place edge read) {a : Option Expr} (edged : c.Edged edge)
    (h : Reads (fallback? read) c a c') :
    InPlace edge c.readTo c'.readTo (Expr.allNodes a.toList) ∧ c'.Edged edge := by
  obtain ⟨isEq, value, readValue, rfl⟩ | ⟨-, rfl, rfl⟩ := reads_fallback?.1 h
  · obtain ⟨edged₁, _, _, _⟩ := edged.takeMark isEq
    obtain ⟨valueIn, edged₂, _⟩ := ih (.binary 0) edged₁ readValue
    have := edged₁.order.next_start
    exact ⟨valueIn.widen (by omega) (Nat.le_refl _), edged₂⟩
  · exact ⟨.nil (Nat.le_refl _), edged⟩

/-- A parameter is in place. -/
lemma param_placed (ih : Readers.Place edge read) {p : Param} (edged : c.Edged edge)
    (h : Reads (param read) c p c') : InPlace edge c.next.span.start c'.readTo [p.node] ∧ c'.Edged edge := by
  obtain ⟨name, named, place, note, c₂, readNote, fallback, readFallback, rfl⟩ := reads_param.1 h
  obtain ⟨edged₁, _, nameIn⟩ := edged.takeName named place
  obtain ⟨noteIn, edged₂⟩ := typeBehind?_placed ih edged₁ readNote
  obtain ⟨fallbackIn, edged₃⟩ := fallback?_placed ih edged₂ readFallback
  have rest := noteIn.append fallbackIn
  obtain ⟨from_, proper, upTo, begins, -⟩ := nameIn.ends mk_span
  have inside := (nameIn.narrow mk_span).append (rest.widen upTo (Nat.le_refl _))
  have := rest.le
  refine ⟨?_, edged₃⟩
  rw [Param.node_eq]
  exact .around from_ (by simp only; omega) begins edged₃.readTo (Nat.le_refl _) inside

lemma params_placed (ih : Readers.Place edge read) {ps : List Param} (edged : c.Edged edge)
    (h : Reads (params read) c ps c') : Form.params.Placed edge c ps c' := by
  obtain ⟨first, c₁, readFirst, behind⟩ := reads_params.1 h
  obtain ⟨firstIn, edged₁⟩ := param_placed ih edged readFirst
  have := edged.order.next_start
  have := firstIn.le
  obtain ⟨isComma, rest, readRest, rfl⟩ | ⟨-, rfl, rfl⟩ := behind
  · obtain ⟨edged₂, _, _, _⟩ := edged₁.takeMark isComma
    obtain ⟨restIn, edged₃, _⟩ := ih .params edged₂ readRest
    have := edged₂.order.next_start
    exact ⟨firstIn.append (restIn.widen (by omega) (Nat.le_refl _)), edged₃, by omega⟩
  · exact ⟨firstIn, edged₁, by omega⟩

/-- The parameters of a function literal are in place. -/
lemma parameterList_placed (ih : Readers.Place edge read) {ps : List Param} (edged : c.Edged edge)
    (h : Reads (parameterList read) c ps c') :
    InPlace edge c.readTo c'.readTo (Param.allNodes ps) ∧ c'.Edged edge := by
  obtain ⟨-, rfl, rfl⟩ | ⟨-, readParams⟩ := reads_parameterList.1 h
  · exact ⟨.nil (Nat.le_refl _), edged⟩
  · obtain ⟨places, edged₁, _⟩ := ih .params edged readParams
    exact ⟨places.widen edged.order.next_start (Nat.le_refl _), edged₁⟩

lemma lambda_placed (ih : Readers.Place edge read) {e : Expr} (edged : c.Edged edge)
    (h : Reads (lambda read) c e c') : Form.lambda.Placed edge c e c' := by
  obtain ⟨isOpen, ps, c₂, readParams, isClose, returns, c₄, readReturns, isArrow, body, readBody, rfl⟩ := reads_lambda.1 h
  obtain ⟨edged₁, _, _, _⟩ := edged.takeMark isOpen
  obtain ⟨paramsIn, edged₂⟩ := parameterList_placed ih edged₁ readParams
  obtain ⟨edged₃, _, _, _⟩ := edged₂.takeMark isClose
  obtain ⟨returnsIn, edged₄⟩ := typeBehind?_placed ih edged₃ readReturns
  obtain ⟨edged₅, _, _, _⟩ := edged₄.takeMark isArrow
  obtain ⟨bodyIn, edged₆, _⟩ := ih .expression edged₅ readBody
  obtain ⟨_, _, upTo, -, stops⟩ := bodyIn.ends body.node_span
  have := edged₅.order.next_start
  have := paramsIn.le
  have := returnsIn.le
  have inside := paramsIn.append ((returnsIn.append
    ((bodyIn.narrow body.node_span).widen (by omega) (Nat.le_refl _))).widen (by omega) (Nat.le_refl _))
  exact ⟨.around (Nat.le_refl _) (by simp only; omega) edged.next stops upTo
    (inside.widen (by simp only; omega) (Nat.le_refl _)), edged₆, by omega⟩

lemma type_placed (ih : Readers.Place edge read) {ty : Ty} (edged : c.Edged edge)
    (h : Reads (type read) c ty c') : Form.type.Placed edge c ty c' := by
  obtain ⟨isOpen, element, c₂, readElement, isClose, -, rfl⟩ | ⟨-, name, named, place, -, rfl⟩ := reads_type.1 h
  · obtain ⟨edged₁, _, _, _⟩ := edged.takeMark isOpen
    obtain ⟨-, edged₂, _⟩ := ih .type edged₁ readElement
    obtain ⟨edged₃, _, _, _⟩ := edged₂.takeMark isClose
    refine ⟨?_, edged₃, by omega⟩
    simp only [Form.Places]
    omega
  · obtain ⟨edged₁, _, nameIn⟩ := edged.takeName named place
    obtain ⟨_, _, _, -, -⟩ := nameIn.ends mk_span
    refine ⟨?_, edged₁, by omega⟩
    simp only [Form.Places]
    omega

/-- The readers of one step put what they read in place if those inside them do. -/
lemma step_placed (ih : Readers.Place edge read) : Readers.Place edge (step read) := by
  intro α form c a c' edged h
  cases form with
  | statement => exact statement_placed ih edged h
  | statements => exact statements_placed ih edged h
  | block => exact block_placed ih edged h
  | importItems => exact importItems_placed ih edged h
  | expression => exact expression_placed ih edged h
  | chain first => exact chain_placed ih edged h
  | stagesAfter before => exact stagesAfter_placed ih edged h
  | stage first => exact stage_placed ih edged h
  | loop => exact loop_placed ih edged h
  | binary least => exact binary_placed ih edged h
  | binaryAfter left least => exact binaryAfter_placed ih edged h
  | unary => exact unary_placed ih edged h
  | suffixes base => exact suffixes_placed ih edged h
  | primary => exact primary_placed ih edged h
  | pathSegments => exact pathSegments_placed ih edged h
  | arguments => exact arguments_placed ih edged h
  | items => exact items_placed ih edged h
  | branch start => exact branch_placed ih edged h
  | lambda => exact lambda_placed ih edged h
  | params => exact params_placed ih edged h
  | type => exact type_placed ih edged h

end Grammar

/-- Every form puts what it reads in place, however deeply it may nest. -/
lemma Form.read_placed (edge : Nat → Prop) (depth : Nat) : Readers.Place edge (fun form => Form.read depth form) := by
  induction depth with
  | zero =>
    intro α form c a c' _ h
    exact absurd h Reader.reads_refuse
  | succ depth ih =>
    intro α form c a c' edged h
    exact Grammar.step_placed ih form edged h

/-- The statements of a module without errors are in place. -/
lemma Reader.moduleParts_placed {edge : Nat → Prop} {depth limit : Nat} {c : Cursor} {ss : List Statement}
    (edged : c.Edged edge) (h : moduleParts depth limit c = (ss, [])) :
    ∃ hi, edge hi ∧ InPlace edge c.readTo hi (Statement.allNodes ss) := by
  induction limit generalizing c ss with
  | zero =>
    cases h
    exact ⟨c.readTo, edged.readTo, .nil (Nat.le_refl _)⟩
  | succ limit ih =>
    simp only [moduleParts] at h
    split at h
    · cases h
      exact ⟨c.readTo, edged.readTo, .nil (Nat.le_refl _)⟩
    split at h
    · next isEnd =>
      obtain ⟨edged₁, _, _, _⟩ := edged.takeMark isEnd
      obtain ⟨hi, ends, places⟩ := ih edged₁ h
      exact ⟨hi, ends, places.widen (by omega) (Nat.le_refl _)⟩
    split at h
    · next first behind readFirst =>
      simp only [Prod.mk.injEq] at h
      obtain ⟨rfl, noErrors⟩ := h
      obtain ⟨firstIn, edged₁, _⟩ := Form.read_placed edge depth .statement edged readFirst
      obtain ⟨hi, ends, restIn⟩ := ih edged₁ (Prod.ext rfl noErrors)
      exact ⟨hi, ends, (firstIn.append restIn).widen edged.order.next_start (Nat.le_refl _)⟩
    · simp at h

/-- In a tree of nodes of a text, places tell apart what they are looked up for: no two names, paths, loops or imports
have the same place, and no path has that of a name. Every place lies in the text, between edges of it, and no node ends
before what it holds. -/
structure Node.Identified (source : String) (n : Node) : Prop where
  distinct : ∀ kind, kind ≠ .other → (n.spansOf kind).Nodup
  apart : ∀ path ∈ n.all, ∀ name ∈ n.all, path.kind = .path → name.kind = .identifier → path.span ≠ name.span
  within : ∀ inside ∈ n.all, inside.span.start ≤ inside.span.stop ∧ inside.span.stop ≤ source.utf8ByteSize ∧
    Token.Edge source inside.span.start ∧ Token.Edge source inside.span.stop
  nested : ∀ outer ∈ n.all, ∀ inside ∈ outer.inner, inside.span.stop ≤ outer.span.stop

/-- The nodes of what is parsed are in place, between edges of the text. -/
lemma Module.parse_inPlace {source : String} {m : Module} (h : Module.parse source = .ok m) :
    ∃ hi ≤ source.utf8ByteSize, InPlace (Token.Edge source) 0 hi (Statement.allNodes m.statements) ∧
      m.span = ⟨0, source.utf8ByteSize⟩ := by
  simp only [Module.parse] at h
  cases scanned : Token.scan source with
  | error e => simp [scanned, bind, Except.bind] at h
  | ok tokens =>
    simp only [scanned, bind, Except.bind, ofTokens] at h
    split at h
    · next statements read =>
      cases h
      have begins : Token.Edge source 0 := @Token.edge_of_front source [] _ rfl
      obtain ⟨hi, edge, places⟩ := Reader.moduleParts_placed (c := ⟨tokens, 0⟩)
        ⟨Token.scan_inOrder scanned, begins, Token.scan_edges scanned⟩ read
      exact ⟨hi, edge.le_utf8ByteSize, places, rfl⟩
    · cases h

/-- The nodes of what is parsed are told apart by their places. -/
theorem Module.parse_identified {source : String} {m : Module} (h : Module.parse source = .ok m) :
    m.node.Identified source := by
  obtain ⟨hi, upTo, places, whole⟩ := Module.parse_inPlace h
  have begins : Token.Edge source 0 := @Token.edge_of_front source [] _ rfl
  have ends : Token.Edge source source.utf8ByteSize := by
    have whole := Token.edge_of_front (List.append_nil source.toList).symm
    rwa [Token.byteCount_eq, String.ofList_toList] at whole
  refine ⟨fun kind told => ?_, fun path isPath name isName pathKind nameKind => ?_, fun inside member => ?_,
    fun outer member inside held => ?_⟩
  · rw [spansOf, Module.node, all, List.filter_cons_of_neg (by simp [Node.kind, told.symm])]
    exact places.spans_nodup told
  · rcases List.mem_cons.1 isPath with rfl | isPath
    · cases pathKind
    rcases List.mem_cons.1 isName with rfl | isName
    · cases nameKind
    exact places.path_ne_name isPath isName pathKind nameKind
  · rcases List.mem_cons.1 member with rfl | member
    · simpa only [mk_span, whole] using ⟨Nat.zero_le _, Nat.le_refl _, begins, ends⟩
    · obtain ⟨_, proper, stop, edges⟩ := places.within inside member
      exact ⟨Nat.le_of_lt proper, Nat.le_trans stop upTo, edges⟩
  · rcases List.mem_cons.1 member with rfl | member
    · simpa only [mk_span, whole] using Nat.le_trans (places.within inside held).2.2.1 upTo
    · exact places.inner_stop member inside held

end PipeLang
