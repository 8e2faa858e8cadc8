import PipeLang.Proofs.Reader.Ordered

/-!
# Readers that agree

The reader of a form is written over readers of the forms inside it, and these may be limited in how deeply forms nest. Two
such families of readers do the same for a form if they do the same for all that weighs less, where each token that is left
weighs more than any number of forms that are reached through without taking one: `Grammar.step_agree`. What is said of two
readers that do the same also says what any one of them does: it takes tokens off the front and never the end of the text,
and a form that has to have a token takes one.
-/

namespace PipeLang

namespace Cursor

/-- A cursor that another comes to when tokens are taken, none of them the end of the text. -/
inductive Reaches : Cursor → Cursor → Prop where
  | refl {c} :
    Reaches c c
  | advance {c c'} :
    c.atEnd = false →
    Reaches c.advance c' →
    Reaches c c'

variable {c c' c'' : Cursor}

/-- Taking a token that is not the end of the text leaves one token fewer. -/
lemma advance_length (solid : c.atEnd = false) : c.advance.rest.length + 1 = c.rest.length := by
  obtain ⟨_ | ⟨t, rest⟩, readTo⟩ := c
  · cases solid
  · rfl

lemma Reaches.trans (h : c.Reaches c') (h' : c'.Reaches c'') : c.Reaches c'' := by
  induction h with
  | refl => exact h'
  | advance solid _ ih => exact .advance solid (ih h')

/-- What is unread is the end of what was unread before. -/
lemma Reaches.suffix (h : c.Reaches c') : c'.rest <:+ c.rest := by
  induction h with
  | refl => exact List.suffix_rfl
  | @advance c _ solid _ ih =>
    obtain ⟨_ | ⟨t, rest⟩, readTo⟩ := c
    · cases solid
    · exact ih.trans (List.suffix_cons t rest)

end Cursor

namespace Reader

/-- Two readers do the same at a cursor. What they read leaves fewer tokens than a limit, and what they refuse is not
the depth of what is there. -/
inductive Agree {α : Type} (limit : Nat) (x y : Reader α) (c : Cursor) : Prop where
  | reads {a : α} {c' : Cursor} :
    Reads x c a c' →
    Reads y c a c' →
    c.Reaches c' →
    c'.rest.length < limit →
    Agree limit x y c
  | refuses {r : Refusal} :
    x.run c = .error r →
    y.run c = .error r →
    c.Reaches r.cursor →
    r.cause ≠ .nestingTooDeep →
    Agree limit x y c

namespace Agree

variable {α β : Type} {x y : Reader α} {c : Cursor} {limit : Nat}

lemma pure {a : α} (fits : c.rest.length < limit) : Agree limit (Pure.pure a) (Pure.pure a) c :=
  .reads rfl rfl .refl fits

lemma refuse {cause : SyntaxError.Cause} (shallow : cause ≠ .nestingTooDeep) :
    Agree limit (Reader.refuse cause : Reader α) (Reader.refuse cause) c :=
  .refuses rfl rfl .refl shallow

lemma mono {limit' : Nat} (h : Agree limit x y c) (le : limit ≤ limit') : Agree limit' x y c := by
  cases h with
  | reads left right reaches fits => exact .reads left right reaches (Nat.lt_of_lt_of_le fits le)
  | refuses left right reaches shallow => exact .refuses left right reaches shallow

/-- One behind the other, where the second may rely on what the first has taken. -/
lemma bind {limit' : Nat} {f g : α → Reader β} (first : Agree limit' x y c)
    (rest : ∀ a c', Reads x c a c' → c'.rest.length < limit' → Agree limit (f a) (g a) c') :
    Agree limit (x >>= f) (y >>= g) c := by
  cases first with
  | @reads a c' left right reaches fits =>
    cases rest a c' left fits with
    | reads left' right' reaches' fits' =>
      exact .reads (reads_bind.2 ⟨a, c', left, left'⟩) (reads_bind.2 ⟨a, c', right, right'⟩)
        (reaches.trans reaches') fits'
    | refuses left' right' reaches' shallow =>
      refine .refuses ?_ ?_ (reaches.trans reaches') shallow
      · rw [StateT.run_bind, left]
        exact left'
      · rw [StateT.run_bind, right]
        exact right'
  | refuses left right reaches shallow =>
    refine .refuses ?_ ?_ reaches shallow
    · rw [StateT.run_bind, left]
      rfl
    · rw [StateT.run_bind, right]
      rfl

/-- To read something else of what is read. -/
lemma map {f : α → β} (h : Agree limit x y c) : Agree limit (f <$> x) (f <$> y) c := by
  rw [← bind_pure_comp, ← bind_pure_comp]
  exact h.bind fun _ _ _ fits => .pure fits

variable {f g : α → Reader β} {yes no yes' no' : Reader β} {m : Mark}

/-- Nothing comes behind a refusal. -/
lemma refuse_bind {cause : SyntaxError.Cause} (shallow : cause ≠ .nestingTooDeep) :
    Agree limit (Reader.refuse cause >>= f) (Reader.refuse cause >>= g) c :=
  .refuses rfl rfl .refl shallow

/-- To look at the cursor first. -/
lemma look {f g : Cursor → Reader β} (rest : Agree limit (f c) (g c) c) :
    Agree limit (get >>= f) (get >>= g) c := by
  cases rest with
  | reads left right reaches fits => exact .reads left right reaches fits
  | refuses left right reaches shallow => exact .refuses left right reaches shallow

lemma here {f g : Nat → Reader β} (rest : Agree limit (f c.next.span.start) (g c.next.span.start) c) :
    Agree limit (Reader.here >>= f) (Reader.here >>= g) c :=
  look rest

lemma readTo {f g : Nat → Reader β} (rest : Agree limit (f c.readTo) (g c.readTo) c) :
    Agree limit (Reader.readTo >>= f) (Reader.readTo >>= g) c :=
  look rest

lemma isAt {f g : Bool → Reader β} (rest : Agree limit (f (c.isAt m)) (g (c.isAt m)) c) :
    Agree limit (Reader.isAt m >>= f) (Reader.isAt m >>= g) c :=
  look rest

/-- To look whether a mark comes next, and to go on accordingly. -/
lemma ifAt (left : c.isAt m = true → Agree limit yes yes' c) (right : c.isAt m = false → Agree limit no no' c) :
    Agree limit (Reader.isAt m >>= fun b => if b = true then yes else no)
      (Reader.isAt m >>= fun b => if b = true then yes' else no') c := by
  refine isAt ?_
  cases at_ : c.isAt m with
  | true => exact left at_
  | false => exact right at_

/-- To take a token that is not the end of the text. -/
lemma take {f g : Token → Reader β} (solid : c.atEnd = false)
    (rest : c.advance.rest.length + 1 = c.rest.length → Agree limit (f c.next) (g c.next) c.advance) :
    Agree limit (Reader.take >>= f) (Reader.take >>= g) c := by
  have length := Cursor.advance_length solid
  have first : Agree c.rest.length Reader.take Reader.take c := by
    refine .reads (reads_take.2 ⟨rfl, rfl⟩) (reads_take.2 ⟨rfl, rfl⟩) (.advance solid .refl) ?_
    omega
  refine first.bind fun t c' read _ => ?_
  obtain ⟨rfl, rfl⟩ := reads_take.1 read
  exact rest length

/-- To take a mark if it comes next, and to go on accordingly. -/
lemma ifTake (left : c.advance.rest.length + 1 = c.rest.length → Agree limit yes yes' c.advance)
    (right : Agree limit no no' c) :
    Agree limit (Reader.takeIf m >>= fun b => if b = true then yes else no)
      (Reader.takeIf m >>= fun b => if b = true then yes' else no') c := by
  simp only [takeIf, bind_assoc]
  refine isAt ?_
  cases at_ : c.isAt m with
  | true =>
    simp only [if_true, bind_assoc, pure_bind]
    exact take (Cursor.solid_of_isAt at_) left
  | false =>
    simp only [Bool.false_eq_true, if_false, pure_bind]
    exact right

/-- To take a mark that must come next. -/
lemma expect {f g : Token → Reader β}
    (rest : c.advance.rest.length + 1 = c.rest.length → Agree limit (f c.next) (g c.next) c.advance) :
    Agree limit (Reader.expect m >>= f) (Reader.expect m >>= g) c := by
  simp only [Reader.expect, bind_assoc]
  refine isAt ?_
  cases at_ : c.isAt m with
  | true => exact take (Cursor.solid_of_isAt at_) rest
  | false => exact refuse_bind (by simp)

/-- To take a name that must come next. -/
lemma ident {cause : SyntaxError.Cause} {f g : Ident → Reader β} (shallow : cause ≠ .nestingTooDeep)
    (rest : ∀ i, c.advance.rest.length + 1 = c.rest.length → Agree limit (f i) (g i) c.advance) :
    Agree limit (Reader.ident cause >>= f) (Reader.ident cause >>= g) c := by
  simp only [Reader.ident, bind_assoc]
  refine look ?_
  split
  · next name found =>
    simp only [bind_assoc, pure_bind]
    exact take (Cursor.solid_of_name found) (rest _)
  · exact refuse_bind shallow

/-- To take a string literal that must come next. -/
lemma text {cause : SyntaxError.Cause} {f g : String × Span → Reader β} (shallow : cause ≠ .nestingTooDeep)
    (rest : ∀ found, c.advance.rest.length + 1 = c.rest.length → Agree limit (f found) (g found) c.advance) :
    Agree limit (Reader.text cause >>= f) (Reader.text cause >>= g) c := by
  simp only [Reader.text, bind_assoc]
  refine look ?_
  split
  · next value kind =>
    simp only [bind_assoc, pure_bind]
    exact take (Cursor.solid_of_kind kind (by simp)) (rest _)
  · exact refuse_bind shallow

end Agree
end Reader

namespace Form

/-- How many forms a form can reach through, at most, before a token is taken. -/
@[grind =]
def rank : {α : Type} → Form α → Nat
  | _, .statements => 8
  | _, .statement | _, .arguments => 7
  | _, .expression => 6
  | _, .chain _ => 5
  | _, .stage _ | _, .branch _ => 4
  | _, .binary _ => 3
  | _, .unary => 2
  | _, .primary => 1
  | _, .block | _, .importItems | _, .stagesAfter _ | _, .loop | _, .binaryAfter .. | _, .suffixes _
  | _, .pathSegments | _, .items | _, .lambda | _, .params | _, .type => 0

/-- Whether a form can be there without a token. -/
@[grind =]
def slack : {α : Type} → Form α → Nat
  | _, .statements | _, .arguments | _, .stagesAfter _ | _, .binaryAfter .. | _, .suffixes _ | _, .pathSegments
  | _, .items => 1
  | _, .statement | _, .block | _, .importItems | _, .expression | _, .chain _ | _, .stage _ | _, .loop
  | _, .binary _ | _, .unary | _, .primary | _, .branch _ | _, .lambda | _, .params | _, .type => 0

end Form

open Reader

/-- Two families of readers do the same for every form that weighs less than a bound: a token that is left weighs more than
any number of forms that are reached through without taking one. -/
def Readers.Agree (bound : Nat) (read read' : Readers) : Prop :=
  ∀ {α : Type} (form : Form α) (c : Cursor), 16 * c.rest.length + form.rank < bound →
    Reader.Agree (c.rest.length + form.slack) (read form) (read' form) c

section

variable {read read' : Readers} {bound limit : Nat} {c : Cursor}

/-- To read a form, and to go on behind it. -/
lemma Readers.Agree.bind {α β : Type} (agree : Readers.Agree bound read read') (form : Form α) {f g : α → Reader β}
    (fits : 16 * c.rest.length + form.rank < bound)
    (rest : ∀ a c', c'.rest.length < c.rest.length + form.slack → Reader.Agree limit (f a) (g a) c') :
    Reader.Agree limit (read form >>= f) (read' form >>= g) c :=
  (agree form c fits).bind fun a c' _ => rest a c'

namespace Grammar

/-! ### Form by form -/

lemma newName?_agree : Reader.Agree (c.rest.length + 1) newName? newName? c := by
  refine .ifTake (fun _ => .ident nofun fun _ _ => .pure ?_) (.pure ?_) <;> omega

lemma importItem_agree : Reader.Agree c.rest.length importItem importItem c := by
  refine .ifAt (fun here => ?_) fun _ => .ifAt (fun here => ?_) fun _ => ?_
  · refine .take (Cursor.solid_of_isAt here) fun _ => .pure ?_
    omega
  · refine .take (Cursor.solid_of_isAt here) fun _ => newName?_agree.bind fun _ _ _ _ => .pure ?_
    omega
  · refine .ident nofun fun _ _ => newName?_agree.bind fun _ _ _ _ => .pure ?_
    omega

lemma importItems_agree (agree : Readers.Agree bound read read') (fits : 16 * c.rest.length ≤ bound) :
    Reader.Agree c.rest.length (importItems read) (importItems read') c := by
  refine importItem_agree.bind fun _ c' _ _ => .ifTake (fun _ => ?_) (.pure ?_)
  · refine agree.bind .importItems ?_ fun _ _ _ => .pure ?_ <;> grind
  · omega

lemma importStatement_agree {exported : Bool} {start : Nat} (agree : Readers.Agree bound read read')
    (fits : 16 * c.rest.length ≤ bound) :
    Reader.Agree c.rest.length (importStatement read exported start) (importStatement read' exported start) c := by
  refine .expect fun _ => .look ?_
  split
  · next path kind =>
    refine .take (Cursor.solid_of_kind kind nofun) fun _ => newName?_agree.bind fun _ _ _ _ => .readTo (.pure ?_)
    omega
  · refine agree.bind .importItems ?_ fun _ _ _ => .expect fun _ => .text nofun fun _ _ => .pure ?_ <;>
      grind

lemma definition_agree {exported : Bool} {start : Nat} (agree : Readers.Agree bound read read')
    (fits : 16 * c.rest.length ≤ bound) :
    Reader.Agree c.rest.length (definition read exported start) (definition read' exported start) c := by
  refine .ident nofun fun _ _ => .expect fun _ => agree.bind .expression ?_ fun _ _ _ => .pure ?_ <;>
    grind

lemma statementEnd_agree : Reader.Agree (c.rest.length + 1) statementEnd statementEnd c := by
  refine .ifTake (fun _ => .pure ?_) (.look ?_)
  · omega
  · dsimp only
    split
    · refine .pure ?_
      omega
    · exact .refuse nofun

lemma statementBody_agree {start : Nat} (agree : Readers.Agree bound read read') (fits : 16 * c.rest.length + 7 ≤ bound) :
    Reader.Agree c.rest.length (statementBody read start) (statementBody read' start) c := by
  refine .ifAt (fun _ => (importStatement_agree agree ?_).map) fun _ => .ifTake (fun _ => ?_) (.look ?_)
  · omega
  · refine .ifAt (fun _ => (importStatement_agree agree ?_).map.mono ?_) fun _ =>
      (definition_agree agree ?_).mono ?_ <;> omega
  · split
    · exact definition_agree agree (by omega)
    · refine agree.bind .expression ?_ fun _ _ _ => .pure ?_ <;> grind

lemma statement_agree (agree : Readers.Agree bound read read') (fits : 16 * c.rest.length + 7 ≤ bound) :
    Reader.Agree c.rest.length (statement read) (statement read') c := by
  refine .here ((statementBody_agree agree fits).bind fun _ _ _ _ => statementEnd_agree.bind fun _ _ _ _ => .pure ?_)
  omega

lemma statements_agree (agree : Readers.Agree bound read read') (fits : 16 * c.rest.length + 8 ≤ bound) :
    Reader.Agree (c.rest.length + 1) (statements read) (statements read') c := by
  refine .isAt (.look ?_)
  split
  · refine .pure ?_
    omega
  · refine .ifTake (fun _ => (agree .statements _ ?_).mono ?_) ?_
    · grind
    · grind
    · refine agree.bind .statement ?_ fun _ _ _ => agree.bind .statements ?_ fun _ _ _ => .pure ?_ <;> grind

lemma block_agree (agree : Readers.Agree bound read read') (fits : 16 * c.rest.length ≤ bound) :
    Reader.Agree c.rest.length (block read) (block read') c := by
  refine .expect fun _ => agree.bind .statements ?_ fun _ _ _ => .expect fun _ => .pure ?_ <;> grind

lemma expression_agree (agree : Readers.Agree bound read read') (fits : 16 * c.rest.length + 6 ≤ bound) :
    Reader.Agree c.rest.length (expression read) (expression read') c := by
  refine agree.bind (.chain true) ?_ fun _ _ _ => .pure ?_ <;> grind

lemma chain_agree {first : Bool} (agree : Readers.Agree bound read read') (fits : 16 * c.rest.length + 5 ≤ bound) :
    Reader.Agree c.rest.length (chain read first) (chain read' first) c := by
  refine agree.bind (.stage first) ?_ fun stage _ _ => agree.bind (.stagesAfter stage) ?_ fun _ _ _ => .pure ?_ <;> grind

lemma stagesAfter_agree {stage : Stage} (agree : Readers.Agree bound read read') (fits : 16 * c.rest.length ≤ bound) :
    Reader.Agree (c.rest.length + 1) (stagesAfter read stage) (stagesAfter read' stage) c := by
  unfold stagesAfter
  split
  · refine .pure ?_
    omega
  · refine .ifTake (fun _ => ?_) (.pure ?_)
    · refine agree.bind (.stage false) ?_ fun following _ _ =>
        agree.bind (.stagesAfter following) ?_ fun _ _ _ => .pure ?_ <;> grind
    · omega

lemma tag?_agree : Reader.Agree (c.rest.length + 1) tag? tag? c := by
  refine .ifTake (fun _ => .ident nofun fun _ _ => .pure ?_) (.pure ?_) <;> omega

lemma stageOf_agree {start : Nat} {e : Expr} : Reader.Agree (c.rest.length + 1) (stageOf start e) (stageOf start e) c := by
  unfold stageOf
  split
  · refine .readTo (.pure ?_)
    omega
  · refine tag?_agree.bind fun _ _ _ _ => .readTo (.pure ?_)
    omega

lemma stage_agree {first : Bool} (agree : Readers.Agree bound read read') (fits : 16 * c.rest.length + 4 ≤ bound) :
    Reader.Agree c.rest.length (stage read first) (stage read' first) c := by
  refine .here (.look ?_)
  split
  · next op spelt =>
    refine .take (solid_of_binaryOp spelt) fun _ => agree.bind (.binary _) ?_ fun _ _ _ =>
      tag?_agree.bind fun _ _ _ _ => .readTo (.pure ?_) <;> grind
  · refine .ifAt (fun _ => agree.bind .loop ?_ fun _ _ _ => stageOf_agree.mono ?_) fun _ =>
      agree.bind (.binary 0) ?_ fun _ _ _ => stageOf_agree.mono ?_ <;> grind

lemma loop_agree (agree : Readers.Agree bound read read') (fits : 16 * c.rest.length ≤ bound) :
    Reader.Agree c.rest.length (loop read) (loop read') c := by
  refine .expect fun _ => agree.bind (.binary 0) ?_ fun _ _ _ => .expect fun _ => .ident nofun fun _ _ =>
    .expect fun _ => agree.bind (.chain false) ?_ fun _ _ _ => .pure ?_ <;> grind

lemma binary_agree {least : Nat} (agree : Readers.Agree bound read read') (fits : 16 * c.rest.length + 3 ≤ bound) :
    Reader.Agree c.rest.length (binary read least) (binary read' least) c := by
  refine agree.bind .unary ?_ fun left c' _ => (agree (.binaryAfter left least) c' ?_).mono ?_ <;> grind

lemma binaryAfter_agree {left : Expr} {least : Nat} (agree : Readers.Agree bound read read')
    (fits : 16 * c.rest.length ≤ bound) :
    Reader.Agree (c.rest.length + 1) (binaryAfter read left least) (binaryAfter read' left least) c := by
  refine .look ?_
  split
  · next op spelt =>
    split
    · refine .pure ?_
      omega
    · refine .take (solid_of_binaryOp spelt) fun _ => agree.bind (.binary _) ?_ fun _ c' _ =>
        (agree (.binaryAfter _ least) c' ?_).mono ?_ <;> grind
  · refine .pure ?_
    omega

lemma unary_agree (agree : Readers.Agree bound read read') (fits : 16 * c.rest.length + 2 ≤ bound) :
    Reader.Agree c.rest.length (unary read) (unary read') c := by
  refine .here (.ifTake (fun _ => agree.bind .unary ?_ fun _ _ _ => .pure ?_)
    (.ifTake (fun _ => agree.bind .unary ?_ fun _ _ _ => .pure ?_)
      (agree.bind .primary ?_ fun base c' _ => (agree (.suffixes base) c' ?_).mono ?_))) <;> grind

lemma suffixes_agree {base : Expr} (agree : Readers.Agree bound read read') (fits : 16 * c.rest.length ≤ bound) :
    Reader.Agree (c.rest.length + 1) (suffixes read base) (suffixes read' base) c := by
  refine .look ?_
  split
  · refine .pure ?_
    omega
  · refine .ifTake (fun _ => ?_) (.ifTake (fun _ => ?_) (.pure ?_))
    · refine agree.bind .arguments ?_ fun _ _ _ => .expect fun _ => (agree (.suffixes _) _ ?_).mono ?_ <;> grind
    · refine agree.bind .expression ?_ fun _ _ _ => .expect fun _ => (agree (.suffixes _) _ ?_).mono ?_ <;> grind
    · omega

lemma argument_agree (agree : Readers.Agree bound read read') (fits : 16 * c.rest.length + 7 ≤ bound) :
    Reader.Agree c.rest.length (argument read) (argument read') c := by
  refine .look ?_
  split
  · refine .ident nofun fun _ _ => .expect fun _ => agree.bind .expression ?_ fun _ _ _ => .pure ?_ <;> grind
  · refine agree.bind .expression ?_ fun _ _ _ => .pure ?_ <;> grind

lemma arguments_agree (agree : Readers.Agree bound read read') (fits : 16 * c.rest.length + 7 ≤ bound) :
    Reader.Agree (c.rest.length + 1) (arguments read) (arguments read') c := by
  refine .ifAt (fun _ => .pure ?_) fun _ => (argument_agree agree fits).bind fun _ _ _ _ =>
    .ifTake (fun _ => agree.bind .arguments ?_ fun _ _ _ => .pure ?_) (.pure ?_) <;> grind

lemma pathSegments_agree (agree : Readers.Agree bound read read') (fits : 16 * c.rest.length ≤ bound) :
    Reader.Agree (c.rest.length + 1) (pathSegments read) (pathSegments read') c := by
  refine .ifTake (fun _ => .ident nofun fun _ _ => agree.bind .pathSegments ?_ fun _ _ _ => .pure ?_) (.pure ?_) <;> grind

lemma nameOrPath_agree (agree : Readers.Agree bound read read') (fits : 16 * c.rest.length ≤ bound) :
    Reader.Agree c.rest.length (nameOrPath read) (nameOrPath read') c := by
  refine .ident nofun fun _ _ => agree.bind .pathSegments ?_ fun rest _ _ => ?_
  · grind
  · split <;> exact .pure (by grind)

lemma items_agree (agree : Readers.Agree bound read read') (fits : 16 * c.rest.length ≤ bound) :
    Reader.Agree (c.rest.length + 1) (items read) (items read') c := by
  refine .ifTake (fun _ => .ifAt (fun _ => .pure ?_) fun _ => agree.bind .expression ?_ fun _ _ _ =>
    agree.bind .items ?_ fun _ _ _ => .pure ?_) (.pure ?_) <;> grind

lemma rangeFrom_agree {start : Nat} {first : Expr} {inclusive : Bool} (agree : Readers.Agree bound read read')
    (fits : 16 * c.rest.length + 7 ≤ bound) :
    Reader.Agree c.rest.length (rangeFrom read start first inclusive) (rangeFrom read' start first inclusive) c := by
  refine agree.bind .expression ?_ fun _ _ _ => .expect fun _ => .pure ?_ <;> grind

lemma bracketed_agree (agree : Readers.Agree bound read read') (fits : 16 * c.rest.length ≤ bound) :
    Reader.Agree c.rest.length (bracketed read) (bracketed read') c := by
  refine .expect fun _ => .ifAt (fun here => .take (Cursor.solid_of_isAt here) fun _ => .pure ?_) fun _ =>
    agree.bind .expression ?_ fun _ _ _ => .ifTake (fun _ => (rangeFrom_agree agree ?_).mono ?_)
      (.ifTake (fun _ => (rangeFrom_agree agree ?_).mono ?_)
        (agree.bind .items ?_ fun _ _ _ => .expect fun _ => .pure ?_)) <;> grind

lemma parenthesised_agree (agree : Readers.Agree bound read read') (fits : 16 * c.rest.length ≤ bound) :
    Reader.Agree c.rest.length (parenthesised read) (parenthesised read') c := by
  refine .expect fun _ => agree.bind .expression ?_ fun _ _ _ => .expect fun _ => .pure ?_ <;> grind

lemma literal_agree {l : Literal} {kind : Token.Kind} (next : c.next.kind = kind) (solid : kind ≠ .finish) :
    Reader.Agree c.rest.length (do return .literal l (← take).span : Reader Expr)
      (do return .literal l (← take).span) c := by
  refine .take (Cursor.solid_of_kind next solid) fun _ => .pure ?_
  omega

lemma primary_agree (agree : Readers.Agree bound read read') (fits : 16 * c.rest.length + 1 ≤ bound) :
    Reader.Agree c.rest.length (primary read) (primary read') c := by
  refine .look ?_
  split
  case h_1 => exact nameOrPath_agree agree (by omega)
  case h_2 next => exact literal_agree next nofun
  case h_3 next => exact literal_agree next nofun
  case h_4 next => exact literal_agree next nofun
  case h_5 next => exact literal_agree next nofun
  case h_6 => exact (agree .block c (by grind)).map
  case h_7 next =>
    refine .take (Cursor.solid_of_kind next nofun) fun _ => ((agree (.branch _) _ ?_).map).mono ?_ <;> grind
  case h_8 =>
    split
    · exact agree .lambda c (by grind)
    · exact parenthesised_agree agree (by omega)
  case h_9 => exact bracketed_agree agree (by omega)
  case h_10 => exact .refuse nofun

lemma alternative_agree (agree : Readers.Agree bound read read') (fits : 16 * c.rest.length ≤ bound) :
    Reader.Agree (c.rest.length + 1) (alternative read) (alternative read') c := by
  refine .ifTake (fun _ => .ifAt (fun here => .take (Cursor.solid_of_isAt here) fun _ => ?_) fun _ => ?_) (.pure ?_)
  · refine ((agree (.branch _) _ ?_).map).mono ?_ <;> grind
  · refine ((agree .block _ ?_).map).mono ?_ <;> grind
  · omega

lemma branch_agree {start : Nat} (agree : Readers.Agree bound read read') (fits : 16 * c.rest.length + 4 ≤ bound) :
    Reader.Agree c.rest.length (branch read start) (branch read' start) c := by
  refine agree.bind (.binary 0) ?_ fun _ _ _ => agree.bind .block ?_ fun _ _ _ =>
    (alternative_agree agree ?_).bind fun _ _ _ _ => .readTo (.pure ?_) <;> grind

lemma typeNote_agree (agree : Readers.Agree bound read read') (fits : 16 * c.rest.length + 1 ≤ bound) :
    Reader.Agree c.rest.length (typeNote read) (typeNote read') c := by
  refine .here (agree.bind .type ?_ fun _ _ _ => .readTo (.pure ?_)) <;> grind

lemma typeBehind?_agree {m : Mark} (agree : Readers.Agree bound read read') (fits : 16 * c.rest.length ≤ bound) :
    Reader.Agree (c.rest.length + 1) (typeBehind? read m) (typeBehind? read' m) c := by
  refine .ifTake (fun _ => (typeNote_agree agree ?_).bind fun _ _ _ _ => .pure ?_) (.pure ?_) <;> grind

lemma fallback?_agree (agree : Readers.Agree bound read read') (fits : 16 * c.rest.length ≤ bound) :
    Reader.Agree (c.rest.length + 1) (fallback? read) (fallback? read') c := by
  refine .ifTake (fun _ => agree.bind (.binary 0) ?_ fun _ _ _ => .pure ?_) (.pure ?_) <;> grind

lemma param_agree (agree : Readers.Agree bound read read') (fits : 16 * c.rest.length ≤ bound) :
    Reader.Agree c.rest.length (param read) (param read') c := by
  refine .ident nofun fun _ _ => (typeBehind?_agree agree ?_).bind fun _ _ _ _ =>
    (fallback?_agree agree ?_).bind fun _ _ _ _ => .readTo (.pure ?_) <;> grind

lemma params_agree (agree : Readers.Agree bound read read') (fits : 16 * c.rest.length ≤ bound) :
    Reader.Agree c.rest.length (params read) (params read') c := by
  refine (param_agree agree fits).bind fun _ _ _ _ =>
    .ifTake (fun _ => agree.bind .params ?_ fun _ _ _ => .pure ?_) (.pure ?_) <;> grind

lemma parameterList_agree (agree : Readers.Agree bound read read') (fits : 16 * c.rest.length + 1 ≤ bound) :
    Reader.Agree (c.rest.length + 1) (parameterList read) (parameterList read') c := by
  refine .ifAt (fun _ => .pure ?_) fun _ => (agree .params c ?_).mono ?_ <;> grind

lemma lambda_agree (agree : Readers.Agree bound read read') (fits : 16 * c.rest.length ≤ bound) :
    Reader.Agree c.rest.length (lambda read) (lambda read') c := by
  refine .expect fun _ => (parameterList_agree agree ?_).bind fun _ _ _ _ => .expect fun _ =>
    (typeBehind?_agree agree ?_).bind fun _ _ _ _ => .expect fun _ => agree.bind .expression ?_ fun _ _ _ => .pure ?_ <;>
    grind

lemma type_agree (agree : Readers.Agree bound read read') (fits : 16 * c.rest.length ≤ bound) :
    Reader.Agree c.rest.length (type read) (type read') c := by
  refine .ifTake (fun _ => agree.bind .type ?_ fun _ _ _ => .expect fun _ => .pure ?_)
    (.ident nofun fun _ _ => .pure ?_) <;> grind

/-- Readers that do the same for lighter forms do the same for a form. -/
lemma step_agree {α : Type} {form : Form α} (agree : Readers.Agree bound read read')
    (fits : 16 * c.rest.length + form.rank ≤ bound) :
    Reader.Agree (c.rest.length + form.slack) (step read form) (step read' form) c := by
  cases form with
  | statement => exact statement_agree agree fits
  | statements => exact statements_agree agree fits
  | block => exact block_agree agree fits
  | importItems => exact importItems_agree agree fits
  | expression => exact expression_agree agree fits
  | chain first => exact chain_agree agree fits
  | stagesAfter stage => exact stagesAfter_agree agree fits
  | stage first => exact stage_agree agree fits
  | loop => exact loop_agree agree fits
  | binary least => exact binary_agree agree fits
  | binaryAfter left least => exact binaryAfter_agree agree fits
  | unary => exact unary_agree agree fits
  | suffixes base => exact suffixes_agree agree fits
  | primary => exact primary_agree agree fits
  | pathSegments => exact pathSegments_agree agree fits
  | arguments => exact arguments_agree agree fits
  | items => exact items_agree agree fits
  | branch start => exact branch_agree agree fits
  | lambda => exact lambda_agree agree fits
  | params => exact params_agree agree fits
  | type => exact type_agree agree fits

end Grammar

end

end PipeLang
