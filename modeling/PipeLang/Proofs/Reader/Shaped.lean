import PipeLang.Proofs.Reader.Reads
import PipeLang.Proofs.Syntax.Pieces
import PipeLang.Reader

/-!
# The shape of parsed chains

A loop takes the rest of its chain into its body. So it is the last stage wherever it is a stage, and it has no tag; parentheses
around it leave no node, and change nothing about that. An operator is the first stage of nothing but the body of a loop. What is
parsed keeps to both: `Module.parse_shaped` and `Expr.parse_shaped`. `Form.Shapes` says so form by form.
-/

namespace PipeLang

/-- Stages as they are written: no loop stands before another stage, and none has a tag. -/
inductive Stage.Chained : List Stage → Prop where
  | last {s} :
    (s.isLoop = true → s.tag = none) →
    Chained [s]
  | cons {s next rest} :
    s.isLoop = false →
    Chained (next :: rest) →
    Chained (s :: next :: rest)

/-- The first of some stages is an operator. -/
def Stage.opensWithOperator : List Stage → Bool
  | .operator .. :: _ => true
  | _ => false

/-- A piece as it is written. -/
def Piece.Shaped : Piece → Prop
  | .lambda _ | .block _ => True
  | .pipeline p => Stage.Chained p.stages ∧ Stage.opensWithOperator p.stages = false
  | .loop l => Stage.Chained l.body.stages

/-- Pieces as they are written. -/
def Piece.AllShaped (pieces : List Piece) : Prop :=
  ∀ q ∈ pieces, q.Shaped

namespace Piece.AllShaped

variable {pieces others : List Piece}

lemma nil : AllShaped [] :=
  nofun

lemma append (h : AllShaped pieces) (h' : AllShaped others) : AllShaped (pieces ++ others) :=
  List.forall_mem_append.2 ⟨h, h'⟩

lemma cons {q : Piece} (first : q.Shaped) (h : AllShaped pieces) : AllShaped (q :: pieces) :=
  List.forall_mem_cons.2 ⟨first, h⟩

end Piece.AllShaped

open Piece (AllShaped)

/-! ### What readers yield -/

/-- All that a reader yields is of a kind. -/
structure Reader.Yields {α : Type} (x : Reader α) (good : α → Prop) : Prop where
  of_reads : ∀ c a c', Reads x c a c' → good a

namespace Reader.Yields

variable {α β : Type} {good : α → Prop} {good' : β → Prop} {x y : Reader α} {f : α → Reader β}

lemma pure {a : α} (h : good a) : Yields (Pure.pure a) good :=
  ⟨fun _ _ _ reads => (reads_pure.1 reads).1 ▸ h⟩

lemma any : Yields x fun _ => True :=
  ⟨fun _ _ _ _ => trivial⟩

lemma refuse {cause : SyntaxError.Cause} : Yields (Reader.refuse cause) good :=
  ⟨fun _ _ _ reads => absurd reads reads_refuse⟩

lemma bind (first : Yields x good) (next : ∀ a, good a → Yields (f a) good') : Yields (x >>= f) good' := by
  constructor
  intro c b c' reads
  obtain ⟨a, c₁, begins, behind⟩ := reads_bind.1 reads
  exact (next a (first.of_reads c a c₁ begins)).of_reads c₁ b c' behind

/-- What is read first does not matter. -/
lemma behind (next : ∀ a, Yields (f a) good') : Yields (x >>= f) good' :=
  any.bind fun a _ => next a

lemma map {g : α → β} (h : Yields x fun a => good' (g a)) : Yields (g <$> x) good' := by
  constructor
  intro c b c' reads
  obtain ⟨a, begins, same⟩ := reads_map.1 reads
  exact same ▸ h.of_reads c a c' begins

/-- What follows from what is yielded is yielded. -/
lemma mono {better : α → Prop} (h : Yields x good) (implies : ∀ a, good a → better a) : Yields x better :=
  ⟨fun c a c' reads => implies a (h.of_reads c a c' reads)⟩

lemma ite {p : Prop} [Decidable p] (yes : Yields x good) (no : Yields y good) : Yields (if p then x else y) good := by
  split
  · exact yes
  · exact no

end Reader.Yields

/-- What reading a form yields. -/
def Form.Shapes {α : Type} (form : Form α) (a : α) : Prop :=
  match form, a with
  | .statement, s => AllShaped s.pieces
  | .statements, ss => AllShaped (Statement.allPieces ss)
  | .block, b => AllShaped b.pieces
  | .expression, e | .binary _, e | .unary, e | .primary, e | .lambda, e => AllShaped e.pieces
  | .chain first, p => AllShaped (Stage.allPieces p.stages) ∧ Stage.Chained p.stages ∧
      (first = true → Stage.opensWithOperator p.stages = false)
  | .stagesAfter before, rest => AllShaped (Stage.allPieces rest) ∧
      ((before.isLoop = true → before.tag = none) → Stage.Chained (before :: rest))
  | .stage first, s => AllShaped s.pieces ∧ (s.isLoop = true → s.tag = none) ∧
      (first = true → Stage.opensWithOperator [s] = false)
  | .loop, l => AllShaped l.pieces
  | .binaryAfter left _, e | .suffixes left, e => AllShaped left.pieces → AllShaped e.pieces
  | .arguments, args => AllShaped (Argument.allPieces args)
  | .items, es => AllShaped (Expr.allPieces es)
  | .branch _, b => AllShaped b.pieces
  | .params, ps => AllShaped (Param.allPieces ps)
  | .pathSegments, _ | .importItems, _ | .type, _ => True

/-- Every run of these readers yields what it should. -/
def Readers.Shape (read : Readers) : Prop :=
  ∀ {α : Type} (form : Form α), Reader.Yields (read form) form.Shapes

namespace Grammar

open Reader Reader.Yields

variable {read : Readers} (ih : Readers.Shape read)
include ih

lemma definition_shapes {exported : Bool} {start : Nat} :
    Yields (definition read exported start) fun s => AllShaped s.pieces :=
  .behind fun _ => .behind fun _ => (ih .expression).bind fun _ value => .pure value

lemma statement_shapes : Yields (statement read) Form.statement.Shapes := by
  have importing {exported : Bool} {start : Nat} :
      Yields (Statement.importing <$> importStatement read exported start) fun s => AllShaped s.pieces :=
    .map (any.mono fun _ _ => AllShaped.nil)
  have body {start : Nat} : Yields (statementBody read start) fun s => AllShaped s.pieces := by
    refine .behind fun _ => .ite importing (.behind fun _ => .ite (.behind fun _ => .ite importing (definition_shapes ih)) ?_)
    exact .behind fun _ => .ite (definition_shapes ih) ((ih .expression).bind fun _ e => .pure e)
  exact .behind fun _ => body.bind fun _ s => .behind fun _ => .pure s

lemma statements_shapes : Yields (statements read) Form.statements.Shapes := by
  refine .behind fun _ => .behind fun _ => .ite (.pure .nil) (.behind fun _ => .ite (ih .statements) ?_)
  exact (ih .statement).bind fun _ first => (ih .statements).bind fun _ rest => .pure (AllShaped.append first rest)

lemma block_shapes : Yields (block read) Form.block.Shapes :=
  .behind fun _ => (ih .statements).bind fun _ inside => .behind fun _ => .pure (AllShaped.cons trivial inside)

/-- A chain by itself begins with an expression. -/
lemma expression_shapes : Yields (expression read) Form.expression.Shapes := by
  refine (ih (.chain true)).bind fun p ⟨inside, chained, begins⟩ => .pure ?_
  obtain ⟨stages, span⟩ := p
  simp only [ofChain]
  split
  · next e place single =>
    cases single
    exact fun q member => inside q (List.mem_append_left _ member)
  · exact .cons ⟨chained, begins rfl⟩ inside

lemma chain_shapes {first : Bool} : Yields (chain read first) (Form.chain first).Shapes := by
  refine (ih (.stage first)).bind fun s ⟨inside, untagged, begins⟩ => (ih (.stagesAfter s)).bind fun rest ⟨others, chained⟩ => ?_
  refine .pure ⟨AllShaped.append inside others, chained untagged, fun isFirst => ?_⟩
  have := begins isFirst
  cases s with
  | expr e tag span => rfl
  | operator op operand tag span => exact this

lemma stagesAfter_shapes {before : Stage} : Yields (stagesAfter read before) (Form.stagesAfter before).Shapes := by
  simp only [stagesAfter]
  split
  · exact .pure ⟨.nil, .last⟩
  · next more =>
    refine .behind fun _ => .ite ?_ (.pure ⟨.nil, .last⟩)
    refine (ih (.stage false)).bind fun s ⟨inside, untagged, _⟩ => (ih (.stagesAfter s)).bind fun rest ⟨others, chained⟩ => ?_
    exact .pure ⟨AllShaped.append inside others, fun _ => .cons (by simpa using more) (chained untagged)⟩

omit ih in
lemma stageOf_shapes {first : Bool} {start : Nat} {e : Expr} (inside : AllShaped e.pieces) :
    Yields (stageOf start e) (Form.stage first).Shapes := by
  simp only [stageOf]
  split
  · exact .behind fun _ => .pure ⟨inside, fun _ => rfl, fun _ => rfl⟩
  · next other =>
    refine .behind fun tag => .behind fun _ => .pure ⟨inside, fun isLoop => ?_, fun _ => rfl⟩
    cases e with
    | loop l => exact absurd rfl (other l)
    | _ => cases isLoop

lemma stage_shapes {first : Bool} : Yields (stage read first) (Form.stage first).Shapes := by
  refine .behind fun _ => .behind fun c => ?_
  split
  · exact .behind fun _ => (ih (.binary _)).bind fun operand inside => .behind fun _ => .behind fun _ =>
      .pure ⟨inside, nofun, nofun⟩
  · refine .behind fun _ => .ite ?_ ?_
    · exact (ih .loop).bind fun l inside => stageOf_shapes inside
    · exact (ih (.binary 0)).bind fun e inside => stageOf_shapes inside

lemma loop_shapes : Yields (loop read) Form.loop.Shapes := by
  refine .behind fun _ => (ih (.binary 0)).bind fun sequence first => .behind fun _ => .behind fun _ => .behind fun _ => ?_
  refine (ih (.chain false)).bind fun body ⟨inside, chained, _⟩ => .pure ?_
  obtain ⟨stages, span⟩ := body
  exact List.forall_mem_cons.2 ⟨chained, first.append inside⟩

lemma binary_shapes {least : Nat} : Yields (binary read least) (Form.binary least).Shapes :=
  (ih .unary).bind fun left inside => (ih (.binaryAfter left least)).mono fun _ whole => whole inside

lemma binaryAfter_shapes {left : Expr} {least : Nat} :
    Yields (binaryAfter read left least) (Form.binaryAfter left least).Shapes := by
  refine .behind fun c => ?_
  split
  · refine .ite (.pure id) (.behind fun _ => (ih (.binary _)).bind fun right second => ?_)
    exact (ih (.binaryAfter _ least)).mono fun _ whole first => whole (AllShaped.append first second)
  · exact .pure id

lemma unary_shapes : Yields (unary read) Form.unary.Shapes := by
  have signed {op : UnaryOp} {start : Nat} : Yields (do
      let operand ← read .unary
      return Expr.unary op operand ⟨start, operand.span.stop⟩) fun e => AllShaped e.pieces :=
    (ih .unary).bind fun _ inside => .pure inside
  refine .behind fun _ => .behind fun _ => .ite signed (.behind fun _ => .ite signed ?_)
  exact (ih .primary).bind fun base inside => (ih (.suffixes base)).mono fun _ whole => whole inside

lemma suffixes_shapes {base : Expr} : Yields (suffixes read base) (Form.suffixes base).Shapes := by
  refine .behind fun _ => .ite (.pure id) (.behind fun _ => .ite ?_ (.behind fun _ => .ite ?_ (.pure id)))
  · refine (ih .arguments).bind fun args second => .behind fun _ => ?_
    exact (ih (.suffixes _)).mono fun _ whole first => whole (AllShaped.append first second)
  · refine (ih .expression).bind fun index second => .behind fun _ => ?_
    exact (ih (.suffixes _)).mono fun _ whole first => whole (AllShaped.append first second)

lemma arguments_shapes : Yields (arguments read) Form.arguments.Shapes := by
  have one : Yields (argument read) fun a => AllShaped a.value.pieces :=
    .behind fun _ => .ite (.behind fun _ => .behind fun _ => (ih .expression).bind fun _ value => .pure value)
      ((ih .expression).bind fun _ value => .pure value)
  have more {a : Argument} {rest : List Argument} (first : AllShaped a.value.pieces)
      (others : AllShaped (Argument.allPieces rest)) : AllShaped (Argument.allPieces (a :: rest)) := by
    obtain ⟨name, value⟩ := a
    exact AllShaped.append first others
  refine .behind fun _ => .ite (.pure .nil) (one.bind fun a first => .behind fun _ => .ite ?_ (.pure (more first .nil)))
  exact (ih .arguments).bind fun rest others => .pure (more first others)

lemma items_shapes : Yields (items read) Form.items.Shapes := by
  refine .behind fun _ => .ite (.behind fun _ => .ite (.pure .nil) ?_) (.pure .nil)
  exact (ih .expression).bind fun e first => (ih .items).bind fun es others => .pure (AllShaped.append first others)

lemma bracketed_shapes : Yields (bracketed read) fun e => AllShaped e.pieces := by
  have range {start : Nat} {first : Expr} {inclusive : Bool} (inside : AllShaped first.pieces) :
      Yields (rangeFrom read start first inclusive) fun e => AllShaped e.pieces :=
    (ih .expression).bind fun _ last => .behind fun _ => .pure (AllShaped.append inside last)
  refine .behind fun _ => .behind fun _ => .ite (.behind fun _ => .pure .nil) ?_
  refine (ih .expression).bind fun first inside => .behind fun _ => .ite (range inside) ?_
  refine .behind fun _ => .ite (range inside) ((ih .items).bind fun rest others => .behind fun _ => ?_)
  exact .pure (AllShaped.append inside others)

lemma primary_shapes : Yields (primary read) Form.primary.Shapes := by
  refine .behind fun c => ?_
  split
  · refine .behind fun head => .behind fun rest => ?_
    split <;> exact .pure .nil
  · exact .behind fun _ => .pure .nil
  · exact .behind fun _ => .pure .nil
  · exact .behind fun _ => .pure .nil
  · exact .behind fun _ => .pure .nil
  · exact .map (ih .block)
  · exact .behind fun _ => .map (ih (.branch _))
  · -- parentheses leave what is in them as it is
    exact .ite (ih .lambda) (.behind fun _ => (ih .expression).bind fun _ inner => .behind fun _ => .pure inner)
  · exact bracketed_shapes ih
  · exact .refuse

lemma branch_shapes {start : Nat} : Yields (branch read start) (Form.branch start).Shapes := by
  have other : Yields (alternative read) fun a => AllShaped a.pieces :=
    .behind fun _ => .ite (.behind fun _ => .ite (.behind fun _ => .map (ih (.branch _))) (.map (ih .block))) (.pure .nil)
  refine (ih (.binary 0)).bind fun _ first => (ih .block).bind fun _ second => other.bind fun _ last => .behind fun _ => ?_
  exact .pure (first.append (AllShaped.append second last))

lemma params_shapes : Yields (params read) Form.params.Shapes := by
  have fallback : Yields (fallback? read) fun found => ∀ e ∈ found, AllShaped e.pieces :=
    .behind fun _ => .ite ((ih (.binary 0)).bind fun _ value => .pure fun _ same => Option.some.inj same ▸ value) (.pure nofun)
  have one : Yields (param read) fun q => AllShaped (Param.allPieces [q]) := by
    refine .behind fun name => .behind fun note => fallback.bind fun found inside => .behind fun _ => .pure ?_
    cases found with
    | none => exact .nil
    | some e => exact (inside e rfl).append .nil
  have more {q : Param} {ps : List Param} (first : AllShaped (Param.allPieces [q])) (others : AllShaped (Param.allPieces ps)) :
      AllShaped (Param.allPieces (q :: ps)) := by
    obtain ⟨name, note, found, span⟩ := q
    cases found with
    | none => exact others
    | some e => exact AllShaped.append (fun q member => first q (List.mem_append_left _ member)) others
  refine one.bind fun q first => .behind fun _ => .ite ?_ (.pure first)
  exact (ih .params).bind fun ps others => .pure (more first others)

lemma lambda_shapes : Yields (lambda read) Form.lambda.Shapes := by
  have list : Yields (parameterList read) fun ps => AllShaped (Param.allPieces ps) :=
    .behind fun _ => .ite (.pure .nil) (ih .params)
  refine .behind fun _ => list.bind fun ps first => .behind fun _ => .behind fun _ => .behind fun _ => ?_
  exact (ih .expression).bind fun body second => .pure (.cons trivial (first.append second))

/-- What a form yields is as it should be if what its forms yield is. -/
lemma step_shapes : Readers.Shape (step read) := by
  intro α form
  cases form with
  | statement => exact statement_shapes ih
  | statements => exact statements_shapes ih
  | block => exact block_shapes ih
  | expression => exact expression_shapes ih
  | chain first => exact chain_shapes ih
  | stagesAfter before => exact stagesAfter_shapes ih
  | stage first => exact stage_shapes ih
  | loop => exact loop_shapes ih
  | binary least => exact binary_shapes ih
  | binaryAfter left least => exact binaryAfter_shapes ih
  | unary => exact unary_shapes ih
  | suffixes base => exact suffixes_shapes ih
  | primary => exact primary_shapes ih
  | arguments => exact arguments_shapes ih
  | items => exact items_shapes ih
  | branch start => exact branch_shapes ih
  | lambda => exact lambda_shapes ih
  | params => exact params_shapes ih
  | importItems | pathSegments | type => exact .any

end Grammar

lemma Form.read_shapes (depth : Nat) : Readers.Shape fun form => Form.read depth form := by
  induction depth with
  | zero => exact fun form => .refuse
  | succ depth ih => exact Grammar.step_shapes ih

lemma Reader.moduleParts_shaped {depth limit : Nat} {c : Cursor} {ss : List Statement} {errors : List SyntaxError}
    (h : moduleParts depth limit c = (ss, errors)) : AllShaped (Statement.allPieces ss) := by
  induction limit generalizing c ss errors with
  | zero =>
    cases h
    exact .nil
  | succ limit ih =>
    simp only [moduleParts] at h
    split at h
    · cases h
      exact .nil
    split at h
    · exact ih h
    split at h
    · next first behind readFirst =>
      cases h
      exact AllShaped.append ((Form.read_shapes depth .statement).of_reads _ _ _ readFirst) (ih rfl)
    · cases h
      exact ih rfl

/-- Chains are parsed so: a loop is the last stage of its chain and has no tag, and no pipeline begins with an operator. -/
theorem Module.parse_shaped {source : String} {m : Module} (h : Module.parse source = .ok m) : AllShaped m.pieces := by
  simp only [Module.parse] at h
  cases scanned : Token.scan source with
  | error e => simp [scanned, bind, Except.bind] at h
  | ok tokens =>
    simp only [scanned, bind, Except.bind, ofTokens] at h
    split at h
    · next statements read =>
      cases h
      exact Reader.moduleParts_shaped read
    · cases h

/-- So they are in a text that is an expression, and parentheses around a loop do not close it: what follows them is no part of
an expression. -/
theorem Expr.parse_shaped {source : String} {e : Expr} (h : Expr.parse source = .ok e) : AllShaped e.pieces := by
  simp only [Expr.parse] at h
  cases scanned : Token.scan source with
  | error e => simp [scanned, bind, Except.bind] at h
  | ok tokens =>
    simp only [scanned, bind, Except.bind, ofTokens] at h
    split at h
    · next found c read =>
      split at h
      · cases h
        exact (Form.read_shapes _ .expression).of_reads _ _ _ read
      · cases h
    · cases h

end PipeLang
