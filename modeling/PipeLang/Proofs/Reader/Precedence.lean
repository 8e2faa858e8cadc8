import PipeLang.Proofs.Reader.Inversion
import PipeLang.Proofs.Reader.Progress

/-!
# Chains of operators

Operands with operators between them are read as the one tree that keeps their order and puts what binds tighter further
down, with operators of one level grouped to the left. `climb` says so of what comes behind a left operand, from a least
precedence on, by induction on the links that are left. Main statement: `Expr.parse_climbs`.
-/

namespace PipeLang

namespace BinaryOp

/-- The mark that spells an operator. -/
def mark : BinaryOp → Mark
  | add => .plus | sub => .minus | mul => .star | div => .slash | rem => .percent
  | and => .andAnd | or => .orOr
  | eq => .eqEq | notEq => .bangEq | lt => .lt | ltEq => .ltEq | gt => .gt | gtEq => .gtEq

/-- The levels of operators, from those that bind least to those that bind most tightly. -/
def level : BinaryOp → Nat
  | or => 0
  | and => 1
  | eq | notEq => 2
  | lt | ltEq | gt | gtEq => 3
  | add | sub => 4
  | mul | div | rem => 5

/-- Precedences are ordered as levels are. -/
lemma precedence_lt_iff {op op' : BinaryOp} : op.precedence < op'.precedence ↔ op.level < op'.level := by
  cases op <;> cases op' <;> decide

end BinaryOp

namespace Expr

/-- The operator at the root of an expression. -/
def rootOp? : Expr → Option BinaryOp
  | binary op _ _ _ => some op
  | _ => none

/-- The operands and operators of an expression from left to right. -/
def inOrder : Expr → List (BinaryOp ⊕ Expr)
  | binary op left right _ => left.inOrder ++ .inl op :: right.inOrder
  | e => [.inr e]
termination_by structural e => e

/-- What is right of an operator binds tighter than it does, and what is left of it no less tightly. -/
def Climbs : Expr → Prop
  | binary op left right _ =>
    (∀ inner ∈ left.rootOp?, op.level ≤ inner.level) ∧ (∀ inner ∈ right.rootOp?, op.level < inner.level) ∧
      left.Climbs ∧ right.Climbs
  | _ => True
termination_by structural e => e

end Expr

/-- Tokens that spell an operand: a number or a name, behind any number of signs. -/
inductive Operand : List Token → Expr → Prop where
  | name {t name} :
    t.kind = .identifier name →
    Operand [t] (.name ⟨name, t.span⟩)
  | number {t value} :
    t.kind = .number value →
    Operand [t] (.literal (.number value) t.span)
  | neg {t ts e} :
    t.kind = .mark .minus →
    Operand ts e →
    Operand (t :: ts) (.unary .neg e ⟨t.span.start, e.span.stop⟩)
  | not {t ts e} :
    t.kind = .mark .bang →
    Operand ts e →
    Operand (t :: ts) (.unary .not e ⟨t.span.start, e.span.stop⟩)

/-- Operators, each with an operand behind it. -/
inductive Links : List Token → List (BinaryOp ⊕ Expr) → Prop where
  | nil :
    Links [] []
  | cons {t op ts e us items} :
    t.kind = .mark (BinaryOp.mark op) →
    Operand ts e →
    Links us items →
    Links (t :: (ts ++ us)) (.inl op :: .inr e :: items)

/-- Operands with operators between them. -/
inductive OperatorChain : List Token → List (BinaryOp ⊕ Expr) → Prop where
  | mk {ts e us items} :
    Operand ts e →
    Links us items →
    OperatorChain (ts ++ us) (.inr e :: items)

/-- A token that continues no operand: neither a path nor, on the same line, a call or an index. -/
structure Token.Parts (t : Token) : Prop where
  path : t.isMark .colonColon = false
  call : t.opensLine = false → t.isMark .leftParen = false
  index : t.opensLine = false → t.isMark .leftBracket = false

/-- What comes behind a chain of operators and continues it in no way. -/
structure Token.Ends (t : Token) : Prop extends t.Parts where
  operator : t.binaryOp? = none

section

variable {t : Token} {ts us behind : List Token} {e : Expr} {op : BinaryOp} {items : List (BinaryOp ⊕ Expr)} {r : Nat}

lemma Operand.rootOp? (h : Operand ts e) : e.rootOp? = none := by
  cases h <;> rfl

lemma Operand.inOrder (h : Operand ts e) : e.inOrder = [.inr e] := by
  cases h <;> rfl

lemma Operand.climbs (h : Operand ts e) : e.Climbs := by
  cases h <;> trivial

lemma Token.binaryOp?_mark (h : t.kind = .mark op.mark) : t.binaryOp? = some op := by
  cases op <;> simp [binaryOp?, h, BinaryOp.mark]

/-- The end of a text ends every chain. -/
lemma Token.ends_of_finish (h : t.isFinish = true) : t.Ends := by
  have kind : t.kind = .finish := by
    simp only [isFinish] at h
    split at h
    · assumption
    · cases h
  constructor
  · constructor <;> simp [isMark, kind]
  · simp [binaryOp?, kind]

lemma Token.parts_mark (h : t.kind = .mark op.mark) : t.Parts := by
  constructor <;> cases op <;> simp [isMark, h, BinaryOp.mark]

/-- In front of what ends a chain stands a token that continues no operand, whatever links are left. -/
lemma Links.parts (h : Links us items) (ends : t.Ends) : ∃ u rest, us ++ t :: behind = u :: rest ∧ u.Parts := by
  cases h with
  | nil => exact ⟨t, behind, rfl, ends.toParts⟩
  | cons mark _ _ => exact ⟨_, _, rfl, Token.parts_mark mark⟩

end

open Reader

namespace Form

variable {α : Type} {form : Form α} {c c' c₁ : Cursor} {a : α} {e base : Expr}

/-- Where no sign stands, an operand is what no operator continues, with what continues it. -/
lemma reads_unary (minus : c.isAt .minus = false) (bang : c.isAt .bang = false)
    (first : Reads primary.whole c base c₁) (behind : Reads (suffixes base).whole c₁ e c') : Reads unary.whole c e c' :=
  reads_whole.2 (Grammar.reads_unary.2 (.inr ⟨minus, .inr ⟨bang, base, c₁, first, behind⟩⟩))

lemma reads_neg (sign : c.isAt .minus = true) (operand : Reads unary.whole c.advance e c') :
    Reads unary.whole c (.unary .neg e ⟨c.next.span.start, e.span.stop⟩) c' :=
  reads_whole.2 (Grammar.reads_unary.2 (.inl ⟨sign, e, operand, rfl⟩))

lemma reads_not (minus : c.isAt .minus = false) (sign : c.isAt .bang = true) (operand : Reads unary.whole c.advance e c') :
    Reads unary.whole c (.unary .not e ⟨c.next.span.start, e.span.stop⟩) c' :=
  reads_whole.2 (Grammar.reads_unary.2 (.inr ⟨minus, .inl ⟨sign, e, operand, rfl⟩⟩))

end Form

section

variable {t : Token} {ts us rest behind : List Token} {e left : Expr} {op : BinaryOp} {items : List (BinaryOp ⊕ Expr)}

namespace Token

/-- No call and no index is read behind an operand that nothing continues. -/
lemma Parts.suffixes (parts : t.Parts) (r : Nat) : Reads (Form.suffixes e).whole ⟨t :: rest, r⟩ e ⟨t :: rest, r⟩ := by
  refine Form.reads_whole.2 (Grammar.reads_suffixes.2 ?_)
  cases opens : t.opensLine with
  | true => simp [Cursor.next, opens]
  | false => simp [Cursor.isAt, Cursor.next, opens, parts.call opens, parts.index opens]

/-- Nor is a path. -/
lemma Parts.pathSegments (parts : t.Parts) (r : Nat) : Reads Form.pathSegments.whole ⟨t :: rest, r⟩ [] ⟨t :: rest, r⟩ := by
  refine Form.reads_whole.2 (Grammar.reads_pathSegments.2 (.inr ⟨?_, rfl, rfl⟩))
  simp [Cursor.isAt, Cursor.next, parts.path]

lemma reads_name {u : Token} {name : String} (kind : u.kind = .identifier name) (parts : t.Parts) (r : Nat) :
    Reads Form.primary.whole ⟨u :: t :: rest, r⟩ (.name ⟨name, u.span⟩) ⟨t :: rest, u.span.stop⟩ := by
  refine Form.reads_whole.2 (Grammar.reads_primary.2 (.inl ⟨⟨name, kind⟩, Grammar.reads_nameOrPath.2 ?_⟩))
  exact ⟨⟨name, u.span⟩, by simp [Cursor.next, name?, kind], rfl, [], parts.pathSegments _, .inl ⟨rfl, rfl⟩⟩

lemma reads_number {u : Token} {value : Float} (kind : u.kind = .number value) (r : Nat) :
    Reads Form.primary.whole ⟨u :: rest, r⟩ (.literal (.number value) u.span) ⟨rest, u.span.stop⟩ := by
  refine Form.reads_whole.2 (Grammar.reads_primary.2 (.inr (.inl ⟨.number value, ?_, rfl, rfl⟩)))
  simp [literal?, Cursor.next, kind]

end Token

/-- An operand is read up to a token that does not continue it. -/
lemma Operand.reads (h : Operand ts e) (parts : t.Parts) (rest : List Token) (r : Nat) :
    ∃ r', Reads Form.unary.whole ⟨ts ++ t :: rest, r⟩ e ⟨t :: rest, r'⟩ := by
  induction h generalizing r with
  | @name u name kind =>
    refine ⟨u.span.stop, Form.reads_unary ?_ ?_ (Token.reads_name kind parts r) (parts.suffixes _)⟩
    all_goals simp [Cursor.isAt, Cursor.next, Token.isMark, kind]
  | @number u value kind =>
    refine ⟨u.span.stop, Form.reads_unary ?_ ?_ (Token.reads_number kind r) (parts.suffixes _)⟩
    all_goals simp [Cursor.isAt, Cursor.next, Token.isMark, kind]
  | @neg u ts e kind _ ih =>
    obtain ⟨r', operand⟩ := ih u.span.stop
    refine ⟨r', Form.reads_neg ?_ operand⟩
    simp [Cursor.isAt, Cursor.next, Token.isMark, kind]
  | @not u ts e kind _ ih =>
    obtain ⟨r', operand⟩ := ih u.span.stop
    refine ⟨r', Form.reads_not ?_ ?_ operand⟩
    all_goals simp [Cursor.isAt, Cursor.next, Token.isMark, kind]

namespace Form

variable {least : Nat} {c c₁ c₂ c' : Cursor} {right whole : Expr}

/-- Nothing is read behind a left operand where no operator comes next that binds tightly enough. -/
lemma reads_binaryAfter_stop (loose : ∀ op ∈ c.next.binaryOp?, op.precedence < least) :
    Reads (binaryAfter left least).whole c left c :=
  reads_whole.2 (Grammar.reads_binaryAfter.2 (.inl ⟨loose, rfl, rfl⟩))

/-- An operator that binds tightly enough takes what binds tighter still, and with its operands it is the left operand
of what comes behind. -/
lemma reads_binaryAfter_link (found : c.next.binaryOp? = some op) (tight : least ≤ op.precedence)
    (operand : Reads unary.whole c.advance e c₁) (inner : Reads (binaryAfter e (op.precedence + 1)).whole c₁ right c₂)
    (outer : Reads (binaryAfter (.binary op left right (left.span.union right.span)) least).whole c₂ whole c') :
    Reads (binaryAfter left least).whole c whole c' := by
  have taken : Reads (binary (op.precedence + 1)).whole c.advance right c₂ :=
    reads_whole.2 (Grammar.reads_binary.2 ⟨e, c₁, operand, inner⟩)
  exact reads_whole.2 (Grammar.reads_binaryAfter.2 (.inr ⟨op, found, tight, right, c₂, taken, outer⟩))

/-- A stage that begins with no `for` is an expression of operators and what comes behind that. -/
lemma reads_stage {s : Stage} (start : c.isAt .kwFor = false) (read : Reads (binary 0).whole c e c₁)
    (behind : Reads (Grammar.stageOf c.next.span.start e) c₁ s c') : Reads (stage true).whole c s c' :=
  reads_whole.2 (Grammar.reads_stage.2 (.inr ⟨.inr rfl, .inr ⟨start, e, c₁, read, behind⟩⟩))

/-- A tag may come behind what is no loop. -/
lemma reads_stageOf {start : Nat} {tag : Option Ident} (plain : ∀ l, e ≠ .loop l) (read : Reads Grammar.tag? c tag c') :
    Reads (Grammar.stageOf start e) c (.expr e tag ⟨start, c'.readTo⟩) c' :=
  Grammar.reads_stageOf.2 (.inr ⟨plain, tag, read, rfl⟩)

lemma reads_noTag (absent : c.isAt .kwAs = false) : Reads Grammar.tag? c none c :=
  Grammar.reads_tag?.2 (.inr ⟨absent, rfl, rfl⟩)

/-- No stage comes behind a loop, nor where no `|>` comes next. -/
lemma reads_noStages {s : Stage} (none : s.isLoop = true ∨ c.isAt .pipe = false) : Reads (stagesAfter s).whole c [] c := by
  refine reads_whole.2 (Grammar.reads_stagesAfter.2 ?_)
  by_cases isLoop : s.isLoop = true
  · exact .inl ⟨isLoop, rfl, rfl⟩
  · exact .inr ⟨isLoop, .inr ⟨none.resolve_left isLoop, rfl, rfl⟩⟩

/-- An expression is a chain: a stage and those behind it. -/
lemma reads_expression : Reads expression.whole c e c' ↔
    ∃ s c₁ stages, Reads (stage true).whole c s c₁ ∧ Reads (stagesAfter s).whole c₁ stages c' ∧
      e = Grammar.ofChain ⟨s :: stages, Grammar.chainSpan s stages⟩ := by
  constructor
  · intro h
    obtain ⟨p, chained, rfl⟩ := Grammar.reads_expression.1 (reads_whole.1 h)
    obtain ⟨s, c₁, first, stages, behind, rfl⟩ := Grammar.reads_chain.1 (reads_whole.1 chained)
    exact ⟨s, c₁, stages, first, behind, rfl⟩
  · rintro ⟨s, c₁, stages, first, behind, rfl⟩
    have chained : Reads (chain true).whole c ⟨s :: stages, Grammar.chainSpan s stages⟩ c' :=
      reads_whole.2 (Grammar.reads_chain.2 ⟨s, c₁, first, stages, behind, rfl⟩)
    exact reads_whole.2 (Grammar.reads_expression.2 ⟨_, chained, rfl⟩)

end Form

/-- The operator that comes first among some links. -/
def firstOp? : List (BinaryOp ⊕ Expr) → Option BinaryOp
  | .inl op :: _ => some op
  | _ => none

/-- A left operand with some of the links behind it, as it is read from a least precedence on; the next of the others binds
less tightly than that. -/
structure Climbed (left : Expr) (least : Nat) (us : List Token) (items : List (BinaryOp ⊕ Expr)) (e : Expr)
    (us' : List Token) (items' : List (BinaryOp ⊕ Expr)) : Prop where
  links : Links us' items'
  order : e.inOrder ++ items' = left.inOrder ++ items
  climbs : e.Climbs
  tight : ∀ op ∈ e.rootOp?, least ≤ op.precedence
  loose : ∀ op ∈ firstOp? items', op.precedence < least
  fewer : items'.length ≤ items.length
  reads : ∀ {t : Token} (behind r), t.Ends →
    ∃ r', Reads (Form.binaryAfter left least).whole ⟨us ++ t :: behind, r⟩ e ⟨us' ++ t :: behind, r'⟩

/-- Precedence climbing: behind a left operand that binds tightly enough itself, and more tightly than what comes next
or no less so, as many links are taken as bind tightly enough. -/
theorem climb {n least : Nat} (links : Links us items) (short : items.length ≤ n) (climbs : left.Climbs)
    (tight : ∀ op ∈ left.rootOp?, least ≤ op.precedence)
    (next : ∀ op ∈ left.rootOp?, ∀ op' ∈ firstOp? items, op'.precedence ≤ op.precedence) :
    ∃ e us' items', Climbed left least us items e us' items' := by
  induction n generalizing us items left least with
  | zero =>
    obtain rfl : items = [] := List.eq_nil_of_length_eq_zero (Nat.le_zero.1 short)
    cases links
    refine ⟨left, [], [], .nil, rfl, climbs, tight, nofun, Nat.le_refl _, fun behind r ends => ⟨r, ?_⟩⟩
    exact Form.reads_binaryAfter_stop (by simp [Cursor.next, ends.operator])
  | succ n ih =>
    cases links with
    | nil =>
      refine ⟨left, [], [], .nil, rfl, climbs, tight, nofun, Nat.le_refl _, fun behind r ends => ⟨r, ?_⟩⟩
      exact Form.reads_binaryAfter_stop (by simp [Cursor.next, ends.operator])
    | @cons u op ts e us items mark operand links =>
      have found : u.binaryOp? = some op := Token.binaryOp?_mark mark
      by_cases stops : op.precedence < least
      · refine ⟨left, _, _, .cons mark operand links, rfl, climbs, tight, ?_, Nat.le_refl _, fun behind r ends => ⟨r, ?_⟩⟩
        · simpa [firstOp?] using stops
        · exact Form.reads_binaryAfter_stop (by simpa [Cursor.next, found] using stops)
      have binds : least ≤ op.precedence := Nat.not_lt.1 stops
      simp only [List.length_cons] at short
      -- the right operand takes all that binds tighter than the operator
      obtain ⟨right, us₁, items₁, inner⟩ :
          ∃ right us₁ items₁, Climbed e (op.precedence + 1) us items right us₁ items₁ :=
        ih links (by omega) operand.climbs (by simp [operand.rootOp?]) (by simp [operand.rootOp?])
      have joined : (Expr.binary op left right (left.span.union right.span)).Climbs := by
        refine ⟨fun op' root => ?_, fun op' root => ?_, climbs, inner.climbs⟩
        · have above := next op' root op rfl
          exact Nat.not_lt.1 fun less => absurd (BinaryOp.precedence_lt_iff.2 less) (Nat.not_lt.2 above)
        · exact BinaryOp.precedence_lt_iff.1 (inner.tight op' root)
      -- what comes next binds no tighter than the operator, which is at the root now
      have fewer := inner.fewer
      obtain ⟨whole, us₂, items₂, outer⟩ : ∃ whole us₂ items₂,
          Climbed (.binary op left right (left.span.union right.span)) least us₁ items₁ whole us₂ items₂ :=
        ih inner.links (by omega) joined (by simpa [Expr.rootOp?] using binds)
          (by simpa [Expr.rootOp?, Nat.lt_succ_iff] using inner.loose)
      refine ⟨whole, us₂, items₂, outer.links, ?_, outer.climbs, outer.tight, outer.loose, ?_, fun {t} behind r ends => ?_⟩
      · rw [outer.order, Expr.inOrder, List.append_assoc, List.cons_append, inner.order, operand.inOrder]
        rfl
      · have := outer.fewer
        simp only [List.length_cons]
        omega
      · obtain ⟨v, rest, text, parts⟩ : ∃ v rest, us ++ t :: behind = v :: rest ∧ v.Parts := links.parts ends
        obtain ⟨r₁, first⟩ := operand.reads parts rest u.span.stop
        rw [← text, ← List.append_assoc] at first
        obtain ⟨r₂, second⟩ := inner.reads behind r₁ ends
        obtain ⟨r₃, third⟩ := outer.reads behind r₂ ends
        exact ⟨r₃, Form.reads_binaryAfter_link (c := ⟨u :: (ts ++ us) ++ t :: behind, r⟩) found binds first second third⟩

end

namespace Expr

variable {tokens : List Token} {items : List (BinaryOp ⊕ Expr)} {c c' : Cursor} {e : Expr} {t : Token}

/-- A chain of operators is read as one tree, whatever ends it. -/
lemma binary_climbs (chain : OperatorChain tokens items) :
    ∃ e : Expr, e.inOrder = items ∧ e.Climbs ∧ ∀ (t : Token) (behind : List Token) (r : Nat), t.Ends →
      ∃ r', Reads (Form.binary 0).whole ⟨tokens ++ t :: behind, r⟩ e ⟨t :: behind, r'⟩ := by
  obtain @⟨ts, first, us, links, operand, linked⟩ := chain
  obtain ⟨e, us', rest, climbed⟩ : ∃ e us' rest, Climbed first 0 us _ e us' rest :=
    climb linked (Nat.le_refl _) operand.climbs (by simp [operand.rootOp?]) (by simp [operand.rootOp?])
  -- no operator binds too little, so that no link is left
  have whole : us' = [] ∧ rest = [] := by
    cases climbed.links with
    | nil => exact ⟨rfl, rfl⟩
    | @cons u op => exact absurd (climbed.loose op rfl) (Nat.not_lt_zero _)
  obtain ⟨rfl, rfl⟩ := whole
  refine ⟨e, ?_, climbed.climbs, fun t behind r ends => ?_⟩
  · simpa [operand.inOrder] using climbed.order
  · obtain ⟨u, after, text, parts⟩ : ∃ u after, us ++ t :: behind = u :: after ∧ u.Parts := linked.parts ends
    obtain ⟨r₁, left⟩ := operand.reads parts after r
    rw [← text, ← List.append_assoc] at left
    obtain ⟨r₂, right⟩ := climbed.reads behind r₁ ends
    exact ⟨r₂, Form.reads_whole.2 (reads_bind.2 ⟨first, _, left, right⟩)⟩

/-- A chain of operators starts with no loop. -/
lemma isAt_for (chain : OperatorChain tokens items) (behind : List Token) (r : Nat) :
    Cursor.isAt ⟨tokens ++ behind, r⟩ .kwFor = false := by
  obtain ⟨operand, -⟩ := chain
  cases operand with
  | _ kind => simp [Cursor.isAt, Cursor.next, Token.isMark, kind]

/-- What a chain of operators is read as is no loop. -/
lemma ne_loop (order : e.inOrder = items) (chain : OperatorChain tokens items) (l : Loop) : e ≠ .loop l := by
  rintro rfl
  obtain ⟨operand, -⟩ := chain
  cases operand <;> simp [inOrder] at order

/-- At the end of a text nothing makes more than an expression of what has been read. -/
lemma reads_untagged (start : c.isAt .kwFor = false) (plain : ∀ l, e ≠ .loop l)
    (read : Reads (Form.binary 0).whole c e c') (finish : c'.atEnd = true) : Reads Form.expression.whole c e c' := by
  have ends (m : Mark) : c'.isAt m = false := Bool.eq_false_iff.2 fun here => by
    simp [Cursor.solid_of_isAt here] at finish
  have stage := Form.reads_stage start read (Form.reads_stageOf plain (Form.reads_noTag (ends .kwAs)))
  have after : Reads (Form.stagesAfter (.expr e none ⟨c.next.span.start, c'.readTo⟩)).whole c' [] c' :=
    Form.reads_noStages (.inr (ends .pipe))
  exact Form.reads_expression.2 ⟨_, _, _, stage, after, rfl⟩

/-- Operands with operators between them, as many as there are and in any order, are read to their end, whatever token
ends them, and as one tree: from left to right its operands and operators are those that are read, what is the right
operand of an operator binds tighter than it does, and what is its left operand no less tightly. A text of nothing else is
that expression. -/
theorem parse_climbs (chain : OperatorChain tokens items) :
    ∃ e : Expr, e.inOrder = items ∧ e.Climbs ∧
      (∀ (t : Token) (behind : List Token) (r : Nat), t.Ends →
        ∃ r', Reads (Form.binary 0).whole ⟨tokens ++ t :: behind, r⟩ e ⟨t :: behind, r'⟩) ∧
      ∀ (source : String) (last : Token), Token.scan source = .ok (tokens ++ [last]) → parse source = .ok e := by
  obtain ⟨e, order, climbs, reads⟩ := binary_climbs chain
  refine ⟨e, order, climbs, reads, fun source last scanned => ?_⟩
  have finish : last.isFinish = true := by
    obtain ⟨front, t, text, finish⟩ := Token.scan_ends scanned
    obtain ⟨-, same⟩ := List.append_inj' text rfl
    cases same
    exact finish
  obtain ⟨r', read⟩ := reads last [] 0 (Token.ends_of_finish finish)
  have whole := reads_untagged (isAt_for chain [last] 0) (ne_loop order chain) read finish
  exact (parse_of_reads scanned whole).trans (if_pos finish)

/-- Four operands, one behind a sign and one behind two, with operators of three levels between them. -/
theorem parse_climbs_signed :
    ∃ e : Expr, parse "a - b < -c * -!d" = .ok e ∧ e.inOrder.length = 7 ∧
      e.inOrder.filterMap Sum.getLeft? = [.sub, .lt, .mul] ∧ e.Climbs := by
  have a : Operand [⟨.identifier "a", ⟨0, 1⟩, true⟩] _ := .name rfl
  have b : Operand [⟨.identifier "b", ⟨4, 5⟩, false⟩] _ := .name rfl
  have c : Operand [⟨.mark .minus, ⟨8, 9⟩, false⟩, ⟨.identifier "c", ⟨9, 10⟩, false⟩] _ := .neg rfl (.name rfl)
  have d : Operand [⟨.mark .minus, ⟨13, 14⟩, false⟩, ⟨.mark .bang, ⟨14, 15⟩, false⟩,
      ⟨.identifier "d", ⟨15, 16⟩, false⟩] _ := .neg rfl (.not rfl (.name rfl))
  have minus : (⟨.mark .minus, ⟨2, 3⟩, false⟩ : Token).kind = .mark (BinaryOp.mark .sub) := rfl
  have less : (⟨.mark .lt, ⟨6, 7⟩, false⟩ : Token).kind = .mark (BinaryOp.mark .lt) := rfl
  have star : (⟨.mark .star, ⟨11, 12⟩, false⟩ : Token).kind = .mark (BinaryOp.mark .mul) := rfl
  obtain ⟨e, order, climbs, -, parsed⟩ := parse_climbs (.mk a (.cons minus b (.cons less c (.cons star d .nil))))
  refine ⟨e, parsed _ ⟨.finish, ⟨16, 16⟩, false⟩ (by cbv), ?_, ?_, climbs⟩ <;> rw [order] <;> rfl

end Expr

end PipeLang
