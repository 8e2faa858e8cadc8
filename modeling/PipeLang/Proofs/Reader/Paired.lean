import PipeLang.Proofs.Reader.Progress

/-!
# Parentheses in pairs

What is read has its parentheses in pairs: `Form.whole_paired`. So when what stands behind an opening parenthesis has been
read, the parenthesis behind that closes it, and what tells a function literal from an expression in parentheses is the
token that comes next: `Cursor.Paired.startsLambda_enclosed`.
-/

namespace PipeLang

namespace Cursor

/-- The next token is neither a parenthesis nor the end of the text. -/
structure Plain (c : Cursor) : Prop where
  solid : c.atEnd = false
  noOpening : c.isAt .leftParen = false
  noClosing : c.isAt .rightParen = false

/-- A cursor that another comes to when tokens are taken with their parentheses in pairs, none of them the end of the
text. -/
inductive Paired : Cursor → Cursor → Prop where
  | refl {c} :
    Paired c c
  | plain {c c'} :
    c.Plain →
    Paired c.advance c' →
    Paired c c'
  | pair {c c₁ c'} :
    c.isAt .leftParen = true →
    Paired c.advance c₁ →
    c₁.isAt .rightParen = true →
    Paired c₁.advance c' →
    Paired c c'

variable {c c' c'' : Cursor} {depth : Nat} {m : Mark}

lemma Paired.trans (h : c.Paired c') (h' : c'.Paired c'') : c.Paired c'' := by
  induction h with
  | refl => exact h'
  | plain plain _ ih => exact .plain plain (ih h')
  | pair opening inner closing _ _ ih => exact .pair opening inner closing (ih h')

lemma plain_of_kind {kind : Token.Kind} (h : c.next.kind = kind) (solid : kind ≠ .finish)
    (noOpening : kind ≠ .mark .leftParen) (noClosing : kind ≠ .mark .rightParen) : c.Plain := by
  refine ⟨solid_of_kind h solid, ?_, ?_⟩ <;> cases kind <;> simp_all [isAt, Token.isMark]

lemma plain_of_isAt (h : c.isAt m = true) (noOpening : m ≠ .leftParen) (noClosing : m ≠ .rightParen) : c.Plain := by
  have kind : c.next.kind = .mark m := by
    simp only [isAt, Token.isMark] at h
    split at h <;> simp_all
  exact plain_of_kind kind (by simp) (by simpa using noOpening) (by simpa using noClosing)

lemma plain_of_name {name : String} (h : c.next.name? = some name) : c.Plain := by
  have kind : c.next.kind = .identifier name := by
    simp only [Token.name?] at h
    split at h <;> simp_all
  exact plain_of_kind kind (by simp) (by simp) (by simp)

lemma plain_of_binaryOp {op : BinaryOp} (h : c.next.binaryOp? = some op) : c.Plain := by
  refine ⟨Grammar.solid_of_binaryOp h, ?_, ?_⟩ <;>
    · simp only [Token.binaryOp?, isAt, Token.isMark] at *
      split at h <;> simp_all

/-! ### Looking for an arrow -/

lemma Plain.startsLambda (h : c.Plain) : startsLambda depth c.rest = startsLambda depth c.advance.rest := by
  obtain ⟨_ | ⟨t, rest⟩, readTo⟩ := c
  · rfl
  · obtain ⟨-, noOpening, noClosing⟩ := h
    simp only [isAt, next] at noOpening noClosing
    simp [PipeLang.startsLambda, noOpening, noClosing, advance]

lemma startsLambda_opening (h : c.isAt .leftParen = true) :
    startsLambda depth c.rest = startsLambda (depth + 1) c.advance.rest := by
  obtain ⟨_ | ⟨t, rest⟩, readTo⟩ := c
  · cases h
  · simp only [isAt, next] at h
    simp [startsLambda, h, advance]

lemma startsLambda_closing (h : c.isAt .rightParen = true) : startsLambda (depth + 1) c.rest =
    if depth = 0 then c.advance.isAt .fatArrow || c.advance.isAt .arrow else startsLambda depth c.advance.rest := by
  obtain ⟨_ | ⟨t, rest⟩, readTo⟩ := c
  · cases h
  · simp only [isAt, next] at h
    have noOpening : t.isMark .leftParen = false := by
      simp only [Token.isMark] at *
      split at h <;> simp_all
    simp only [startsLambda, h, noOpening, advance, Bool.false_eq_true, if_false, if_true, Nat.add_sub_cancel,
      Nat.add_eq_right]
    cases rest with
    | nil => simp [isAt, next, Token.isMark]
    | cons u rest => simp [isAt, next]

/-- What has its parentheses in pairs does not matter to what is looked for behind it. -/
lemma Paired.startsLambda (h : c.Paired c') (inside : 0 < depth) :
    startsLambda depth c.rest = startsLambda depth c'.rest := by
  induction h generalizing depth with
  | refl => rfl
  | plain plain _ ih => rw [plain.startsLambda, ih inside]
  | pair opening _ closing _ inner outer =>
    rw [startsLambda_opening opening, inner (Nat.succ_pos _), startsLambda_closing closing, 
      if_neg (Nat.ne_of_gt inside), outer inside]

/-- Behind an opening parenthesis and what has its parentheses in pairs comes the closing one. -/
lemma Paired.startsLambda_enclosed (h : c.advance.Paired c') (opening : c.isAt .leftParen = true)
    (closing : c'.isAt .rightParen = true) :
    PipeLang.startsLambda 0 c.rest = (c'.advance.isAt .fatArrow || c'.advance.isAt .arrow) := by
  rw [startsLambda_opening opening, h.startsLambda Nat.one_pos, startsLambda_closing closing, if_pos rfl]

end Cursor

namespace Reader

/-- A reader takes parentheses in pairs from a cursor on. -/
def Paired {α : Type} (x : Reader α) (c : Cursor) : Prop :=
  ∀ a c', Reads x c a c' → c.Paired c'

namespace Paired

variable {α β : Type} {x : Reader α} {f : α → Reader β} {yes no : Reader β} {c : Cursor} {m : Mark}

lemma pure {a : α} : Paired (Pure.pure a) c := by
  rintro _ _ ⟨⟩
  exact .refl

lemma refuse {cause : SyntaxError.Cause} : Paired (Reader.refuse cause : Reader α) c :=
  fun _ _ h => absurd h reads_refuse

lemma bind (first : Paired x c) (rest : ∀ a c', Reads x c a c' → Paired (f a) c') : Paired (x >>= f) c := by
  intro b c' h
  obtain ⟨a, c₁, read, behind⟩ := reads_bind.1 h
  exact (first a c₁ read).trans (rest a c₁ read b c' behind)

lemma map {f : α → β} (h : Paired x c) : Paired (f <$> x) c := by
  intro b c' read
  obtain ⟨a, read, -⟩ := reads_map.1 read
  exact h a c' read

lemma look {f : Cursor → Reader β} (rest : Paired (f c) c) : Paired (get >>= f) c :=
  rest

lemma here {f : Nat → Reader β} (rest : Paired (f c.next.span.start) c) : Paired (Reader.here >>= f) c :=
  rest

lemma readTo {f : Nat → Reader β} (rest : Paired (f c.readTo) c) : Paired (Reader.readTo >>= f) c :=
  rest

lemma isAt {f : Bool → Reader β} (rest : Paired (f (c.isAt m)) c) : Paired (Reader.isAt m >>= f) c :=
  rest

lemma ifAt (left : c.isAt m = true → Paired yes c) (right : Paired no c) :
    Paired (Reader.isAt m >>= fun b => if b = true then yes else no) c := by
  refine isAt ?_
  cases at_ : c.isAt m with
  | true => exact left at_
  | false => exact right

lemma take {f : Token → Reader β} (plain : c.Plain) (rest : Paired (f c.next) c.advance) :
    Paired (Reader.take >>= f) c :=
  fun b c' h => .plain plain (rest b c' (reads_take_bind.1 h))

lemma ifTake (noOpening : m ≠ .leftParen) (noClosing : m ≠ .rightParen) (left : Paired yes c.advance) (right : Paired no c) :
    Paired (Reader.takeIf m >>= fun b => if b = true then yes else no) c := by
  intro b c' h
  obtain ⟨here, h⟩ | ⟨-, h⟩ := reads_ifTake.1 h
  · exact .plain (Cursor.plain_of_isAt here noOpening noClosing) (left b c' h)
  · exact right b c' h

lemma expect {f : Token → Reader β} (noOpening : m ≠ .leftParen) (noClosing : m ≠ .rightParen)
    (rest : Paired (f c.next) c.advance) : Paired (Reader.expect m >>= f) c := by
  intro b c' h
  obtain ⟨here, h⟩ := reads_expect_bind.1 h
  exact .plain (Cursor.plain_of_isAt here noOpening noClosing) (rest b c' h)

lemma ident {cause : SyntaxError.Cause} {f : Ident → Reader β} (rest : ∀ i, Paired (f i) c.advance) :
    Paired (Reader.ident cause >>= f) c := by
  intro b c' h
  obtain ⟨i, name, -, h⟩ := reads_ident_bind.1 h
  exact .plain (Cursor.plain_of_name name) (rest i b c' h)

lemma text {cause : SyntaxError.Cause} {f : String × Span → Reader β} (rest : ∀ found, Paired (f found) c.advance) :
    Paired (Reader.text cause >>= f) c := by
  intro b c' h
  obtain ⟨found, kind, -, h⟩ := reads_text_bind.1 h
  exact .plain (Cursor.plain_of_kind kind (by simp) (by simp) (by simp)) (rest found b c' h)

/-- What is read behind an opening parenthesis up to the closing one, and on. -/
lemma behind_opening {f : α → Token → Reader β} (opening : c.isAt .leftParen = true) (inner : Paired x c.advance)
    (rest : ∀ a t c', Paired (f a t) c') {b : β} {c' : Cursor}
    (h : Reads (x >>= fun a => Reader.expect .rightParen >>= f a) c.advance b c') : c.Paired c' := by
  obtain ⟨a, c₁, read, h⟩ := reads_bind.1 h
  obtain ⟨closing, h⟩ := reads_expect_bind.1 h
  exact .pair opening (inner a c₁ read) closing (rest _ _ _ b c' h)

lemma enclosed {f : Token → α → Token → Reader β} (inner : Paired x c.advance) (rest : ∀ t a u c', Paired (f t a u) c') :
    Paired (Reader.expect .leftParen >>= fun t => x >>= fun a => Reader.expect .rightParen >>= f t a) c := by
  intro b c' h
  obtain ⟨opening, h⟩ := reads_expect_bind.1 h
  exact behind_opening opening inner (rest _) h

lemma ifEnclosed {f : α → Token → Reader β} (inner : Paired x c.advance) (rest : ∀ a u c', Paired (f a u) c')
    (right : Paired no c) :
    Paired (Reader.takeIf .leftParen >>= fun b =>
      if b = true then x >>= fun a => Reader.expect .rightParen >>= f a else no) c := by
  intro b c' h
  obtain ⟨opening, h⟩ | ⟨-, h⟩ := reads_ifTake.1 h
  · exact behind_opening opening inner rest h
  · exact right b c' h

end Paired
end Reader

open Reader

/-- All these readers take parentheses in pairs. -/
def Readers.Paired (read : Readers) : Prop :=
  ∀ {α : Type} (form : Form α) (c : Cursor), Reader.Paired (read form) c

section

variable {read : Readers} {c : Cursor}

/-- To read a form, and to go on behind it. -/
lemma Readers.Paired.bind {α β : Type} (paired : Readers.Paired read) (form : Form α) {f : α → Reader β}
    (rest : ∀ a c', Reader.Paired (f a) c') : Reader.Paired (read form >>= f) c :=
  Reader.Paired.bind (paired form c) fun a c' _ => rest a c'

namespace Grammar

/-! ### Form by form -/

lemma newName?_paired : Reader.Paired newName? c :=
  .ifTake nofun nofun (.ident fun _ => .pure) .pure

lemma importItem_paired : Reader.Paired importItem c := by
  refine .ifAt (fun here => ?_) (.ifAt (fun here => ?_) ?_)
  · exact .take (Cursor.plain_of_isAt here nofun nofun) .pure
  · exact .take (Cursor.plain_of_isAt here nofun nofun) (newName?_paired.bind fun _ _ _ => .pure)
  · exact .ident fun _ => newName?_paired.bind fun _ _ _ => .pure

lemma importItems_paired (paired : Readers.Paired read) : Reader.Paired (importItems read) c :=
  importItem_paired.bind fun _ _ _ => .ifTake nofun nofun (paired.bind .importItems fun _ _ => .pure) .pure

lemma importStatement_paired {exported : Bool} {start : Nat} (paired : Readers.Paired read) :
    Reader.Paired (importStatement read exported start) c := by
  refine .expect nofun nofun (.look ?_)
  split
  · next path kind =>
    exact .take (Cursor.plain_of_kind kind nofun nofun nofun) (newName?_paired.bind fun _ _ _ => .readTo .pure)
  · exact paired.bind .importItems fun _ _ => .expect nofun nofun (.text fun _ => .pure)

lemma definition_paired {exported : Bool} {start : Nat} (paired : Readers.Paired read) :
    Reader.Paired (definition read exported start) c :=
  .ident fun _ => .expect nofun nofun (paired.bind .expression fun _ _ => .pure)

lemma statementEnd_paired : Reader.Paired statementEnd c := by
  refine .ifTake nofun nofun .pure (.look ?_)
  dsimp only
  split
  · exact .pure
  · exact .refuse

lemma statementBody_paired {start : Nat} (paired : Readers.Paired read) :
    Reader.Paired (statementBody read start) c := by
  refine .ifAt (fun _ => (importStatement_paired paired).map) (.ifTake nofun nofun ?_ (.look ?_))
  · exact .ifAt (fun _ => (importStatement_paired paired).map) (definition_paired paired)
  · split
    · exact definition_paired paired
    · exact paired.bind .expression fun _ _ => .pure

lemma statement_paired (paired : Readers.Paired read) : Reader.Paired (statement read) c :=
  .here ((statementBody_paired paired).bind fun _ _ _ => statementEnd_paired.bind fun _ _ _ => .pure)

lemma statements_paired (paired : Readers.Paired read) : Reader.Paired (statements read) c := by
  refine .isAt (.look ?_)
  split
  · exact .pure
  · exact .ifTake nofun nofun (paired .statements _)
      (paired.bind .statement fun _ _ => paired.bind .statements fun _ _ => .pure)

lemma block_paired (paired : Readers.Paired read) : Reader.Paired (block read) c :=
  .expect nofun nofun (paired.bind .statements fun _ _ => .expect nofun nofun .pure)

lemma expression_paired (paired : Readers.Paired read) : Reader.Paired (expression read) c :=
  paired.bind (.chain true) fun _ _ => .pure

lemma chain_paired {first : Bool} (paired : Readers.Paired read) : Reader.Paired (chain read first) c :=
  paired.bind (.stage first) fun stage _ => paired.bind (.stagesAfter stage) fun _ _ => .pure

lemma stagesAfter_paired {stage : Stage} (paired : Readers.Paired read) : Reader.Paired (stagesAfter read stage) c := by
  unfold stagesAfter
  split
  · exact .pure
  · exact .ifTake nofun nofun
      (paired.bind (.stage false) fun following _ => paired.bind (.stagesAfter following) fun _ _ => .pure) .pure

lemma tag?_paired : Reader.Paired tag? c :=
  .ifTake nofun nofun (.ident fun _ => .pure) .pure

lemma stageOf_paired {start : Nat} {e : Expr} : Reader.Paired (stageOf start e) c := by
  unfold stageOf
  split
  · exact .readTo .pure
  · exact tag?_paired.bind fun _ _ _ => .readTo .pure

lemma stage_paired {first : Bool} (paired : Readers.Paired read) : Reader.Paired (stage read first) c := by
  refine .here (.look ?_)
  split
  · next op spelt =>
    exact .take (Cursor.plain_of_binaryOp spelt)
      (paired.bind (.binary _) fun _ _ => tag?_paired.bind fun _ _ _ => .readTo .pure)
  · exact .ifAt (fun _ => paired.bind .loop fun _ _ => stageOf_paired) (paired.bind (.binary 0) fun _ _ => stageOf_paired)

lemma loop_paired (paired : Readers.Paired read) : Reader.Paired (loop read) c :=
  .expect nofun nofun (paired.bind (.binary 0) fun _ _ => .expect nofun nofun (.ident fun _ =>
    .expect nofun nofun (paired.bind (.chain false) fun _ _ => .pure)))

lemma binary_paired {least : Nat} (paired : Readers.Paired read) : Reader.Paired (binary read least) c :=
  paired.bind .unary fun left c' => paired (.binaryAfter left least) c'

lemma binaryAfter_paired {left : Expr} {least : Nat} (paired : Readers.Paired read) :
    Reader.Paired (binaryAfter read left least) c := by
  refine .look ?_
  split
  · next op spelt =>
    split
    · exact .pure
    · exact .take (Cursor.plain_of_binaryOp spelt)
        (paired.bind (.binary _) fun _ c' => paired (.binaryAfter _ least) c')
  · exact .pure

lemma unary_paired (paired : Readers.Paired read) : Reader.Paired (unary read) c :=
  .here (.ifTake nofun nofun (paired.bind .unary fun _ _ => .pure)
    (.ifTake nofun nofun (paired.bind .unary fun _ _ => .pure)
      (paired.bind .primary fun base c' => paired (.suffixes base) c')))

lemma suffixes_paired {base : Expr} (paired : Readers.Paired read) : Reader.Paired (suffixes read base) c := by
  refine .look ?_
  split
  · exact .pure
  · refine .ifEnclosed (paired .arguments _) (fun _ _ c' => paired (.suffixes _) c') (.ifTake nofun nofun ?_ .pure)
    exact paired.bind .expression fun _ _ => .expect nofun nofun (paired (.suffixes _) _)

lemma argument_paired (paired : Readers.Paired read) : Reader.Paired (argument read) c := by
  refine .look ?_
  split
  · exact .ident fun _ => .expect nofun nofun (paired.bind .expression fun _ _ => .pure)
  · exact paired.bind .expression fun _ _ => .pure

lemma arguments_paired (paired : Readers.Paired read) : Reader.Paired (arguments read) c :=
  .ifAt (fun _ => .pure) ((argument_paired paired).bind fun _ _ _ =>
    .ifTake nofun nofun (paired.bind .arguments fun _ _ => .pure) .pure)

lemma pathSegments_paired (paired : Readers.Paired read) : Reader.Paired (pathSegments read) c :=
  .ifTake nofun nofun (.ident fun _ => paired.bind .pathSegments fun _ _ => .pure) .pure

lemma nameOrPath_paired (paired : Readers.Paired read) : Reader.Paired (nameOrPath read) c := by
  refine .ident fun _ => paired.bind .pathSegments fun rest _ => ?_
  split <;> exact .pure

lemma items_paired (paired : Readers.Paired read) : Reader.Paired (items read) c :=
  .ifTake nofun nofun (.ifAt (fun _ => .pure)
    (paired.bind .expression fun _ _ => paired.bind .items fun _ _ => .pure)) .pure

lemma rangeFrom_paired {start : Nat} {first : Expr} {inclusive : Bool} (paired : Readers.Paired read) :
    Reader.Paired (rangeFrom read start first inclusive) c :=
  paired.bind .expression fun _ _ => .expect nofun nofun .pure

lemma bracketed_paired (paired : Readers.Paired read) : Reader.Paired (bracketed read) c :=
  .expect nofun nofun (.ifAt (fun here => .take (Cursor.plain_of_isAt here nofun nofun) .pure)
    (paired.bind .expression fun _ _ => .ifTake nofun nofun (rangeFrom_paired paired)
      (.ifTake nofun nofun (rangeFrom_paired paired)
        (paired.bind .items fun _ _ => .expect nofun nofun .pure))))

lemma parenthesised_paired (paired : Readers.Paired read) : Reader.Paired (parenthesised read) c :=
  .enclosed (paired .expression _) fun _ _ _ _ => .pure

lemma literal_paired {l : Literal} {kind : Token.Kind} (next : c.next.kind = kind) (solid : kind ≠ .finish)
    (noOpening : kind ≠ .mark .leftParen) (noClosing : kind ≠ .mark .rightParen) :
    Reader.Paired (do return .literal l (← take).span : Reader Expr) c :=
  .take (Cursor.plain_of_kind next solid noOpening noClosing) .pure

lemma primary_paired (paired : Readers.Paired read) : Reader.Paired (primary read) c := by
  refine .look ?_
  split
  case h_1 => exact nameOrPath_paired paired
  case h_2 next => exact literal_paired next nofun nofun nofun
  case h_3 next => exact literal_paired next nofun nofun nofun
  case h_4 next => exact literal_paired next nofun nofun nofun
  case h_5 next => exact literal_paired next nofun nofun nofun
  case h_6 => exact (paired .block c).map
  case h_7 next => exact .take (Cursor.plain_of_kind next nofun nofun nofun) (paired (.branch _) _).map
  case h_8 =>
    split
    · exact paired .lambda c
    · exact parenthesised_paired paired
  case h_9 => exact bracketed_paired paired
  case h_10 => exact .refuse

lemma alternative_paired (paired : Readers.Paired read) : Reader.Paired (alternative read) c :=
  .ifTake nofun nofun (.ifAt (fun here => .take (Cursor.plain_of_isAt here nofun nofun) (paired (.branch _) _).map)
    (paired .block _).map) .pure

lemma branch_paired {start : Nat} (paired : Readers.Paired read) : Reader.Paired (branch read start) c :=
  paired.bind (.binary 0) fun _ _ => paired.bind .block fun _ _ =>
    (alternative_paired paired).bind fun _ _ _ => .readTo .pure

lemma typeNote_paired (paired : Readers.Paired read) : Reader.Paired (typeNote read) c :=
  .here (paired.bind .type fun _ _ => .readTo .pure)

lemma typeBehind?_paired {m : Mark} (noOpening : m ≠ .leftParen) (noClosing : m ≠ .rightParen)
    (paired : Readers.Paired read) : Reader.Paired (typeBehind? read m) c :=
  .ifTake noOpening noClosing ((typeNote_paired paired).bind fun _ _ _ => .pure) .pure

lemma fallback?_paired (paired : Readers.Paired read) : Reader.Paired (fallback? read) c :=
  .ifTake nofun nofun (paired.bind (.binary 0) fun _ _ => .pure) .pure

lemma param_paired (paired : Readers.Paired read) : Reader.Paired (param read) c :=
  .ident fun _ => (typeBehind?_paired (m := .colon) nofun nofun paired).bind fun _ _ _ =>
    (fallback?_paired paired).bind fun _ _ _ => .readTo .pure

lemma params_paired (paired : Readers.Paired read) : Reader.Paired (params read) c :=
  (param_paired paired).bind fun _ _ _ => .ifTake nofun nofun (paired.bind .params fun _ _ => .pure) .pure

lemma parameterList_paired (paired : Readers.Paired read) : Reader.Paired (parameterList read) c :=
  .ifAt (fun _ => .pure) (paired .params c)

lemma lambda_paired (paired : Readers.Paired read) : Reader.Paired (lambda read) c :=
  .enclosed (parameterList_paired paired) fun _ _ _ _ =>
    (typeBehind?_paired (m := .arrow) nofun nofun paired).bind fun _ _ _ =>
      .expect (m := .fatArrow) nofun nofun (paired.bind .expression fun _ _ => .pure)

lemma type_paired (paired : Readers.Paired read) : Reader.Paired (type read) c :=
  .ifTake nofun nofun (paired.bind .type fun _ _ => .expect nofun nofun .pure) (.ident fun _ => .pure)

/-- Readers over readers that take parentheses in pairs do so too. -/
lemma step_paired (paired : Readers.Paired read) : Readers.Paired (step read) := by
  intro α form c
  cases form with
  | statement => exact statement_paired paired
  | statements => exact statements_paired paired
  | block => exact block_paired paired
  | importItems => exact importItems_paired paired
  | expression => exact expression_paired paired
  | chain first => exact chain_paired paired
  | stagesAfter stage => exact stagesAfter_paired paired
  | stage first => exact stage_paired paired
  | loop => exact loop_paired paired
  | binary least => exact binary_paired paired
  | binaryAfter left least => exact binaryAfter_paired paired
  | unary => exact unary_paired paired
  | suffixes base => exact suffixes_paired paired
  | primary => exact primary_paired paired
  | pathSegments => exact pathSegments_paired paired
  | arguments => exact arguments_paired paired
  | items => exact items_paired paired
  | branch start => exact branch_paired paired
  | lambda => exact lambda_paired paired
  | params => exact params_paired paired
  | type => exact type_paired paired

end Grammar

/-- Whatever is read has its parentheses in pairs. -/
theorem Form.whole_paired : Readers.Paired fun form => form.whole := by
  intro α form c a c' h
  refine Form.whole_induction (P := fun _ c _ c' => c.Paired c') (fun read inner _ form _ _ _ step _ => ?_) h
  exact Grammar.step_paired (fun form _ _ _ h => (inner form h).2) form _ _ _ step

end

end PipeLang
