import PipeLang.Proofs.Reader.Progress

/-!
# The first token of an expression

Whether the first token of a text opens a line depends on what stands in front of the text. A reader that begins with a
token takes it either way, and so do those of all forms that an expression may begin with: `Form.expression_heedless`.
-/

namespace PipeLang

namespace Token

/-- Tokens of which the first opens a line or does not. -/
def reopen (opens : Bool) : List Token → List Token
  | [] => []
  | t :: rest => ⟨t.kind, t.span, opens⟩ :: rest

/-- If a token comes before a text on its line, then the first token of the text opens no line, and nothing else changes. -/
lemma place_fresh (offset : Nat) (pieces : List (Piece × List Char)) :
    ∃ opens, (place offset false pieces).tokens = reopen opens (place offset true pieces).tokens := by
  have same (ts : List Token) : ∃ opens, ts = reopen opens ts := by
    cases ts with
    | nil => exact ⟨true, rfl⟩
    | cons t ts => exact ⟨t.opensLine, rfl⟩
  induction pieces generalizing offset with
  | nil => exact ⟨false, rfl⟩
  | cons head rest ih =>
    obtain ⟨piece, chars⟩ := head
    cases piece with
    | newline => exact same _
    | comment multiline =>
      cases multiline with
      | true => exact same _
      | false => exact ih _
    | token kind => exact ⟨false, rfl⟩
    | _ => exact ih _

end Token

namespace Cursor

/-- The next token opens a line or does not. -/
def reopen (opens : Bool) (c : Cursor) : Cursor :=
  ⟨Token.reopen opens c.rest, c.readTo⟩

variable (opens : Bool) {c : Cursor} {m : Mark} {depth : Nat}

lemma reopen_startsLambda : startsLambda depth (c.reopen opens).rest = startsLambda depth c.rest := by
  obtain ⟨_ | ⟨t, rest⟩, readTo⟩ := c <;> rfl

@[simp] lemma reopen_kind : (c.reopen opens).next.kind = c.next.kind := by
  obtain ⟨_ | ⟨t, rest⟩, readTo⟩ := c <;> rfl

@[simp] lemma reopen_span : (c.reopen opens).next.span = c.next.span := by
  obtain ⟨_ | ⟨t, rest⟩, readTo⟩ := c <;> rfl

@[simp] lemma reopen_isAt : (c.reopen opens).isAt m = c.isAt m := by
  simp only [isAt, Token.isMark, reopen_kind]

@[simp] lemma reopen_name? : (c.reopen opens).next.name? = c.next.name? := by
  simp only [Token.name?, reopen_kind]

@[simp] lemma reopen_binaryOp? : (c.reopen opens).next.binaryOp? = c.next.binaryOp? := by
  simp only [Token.binaryOp?, reopen_kind]

/-- Once the token is taken it does not matter any more. -/
lemma reopen_advance (solid : c.atEnd = false) : (c.reopen opens).advance = c.advance := by
  obtain ⟨_ | ⟨t, rest⟩, readTo⟩ := c
  · cases solid
  · rfl

end Cursor

namespace Reader

/-- A reader takes a token, whether that opens a line or not. -/
def Heedless {α : Type} (x : Reader α) (c : Cursor) : Prop :=
  ∀ opens a c₁, Reads x c a c₁ → Reads x (c.reopen opens) a c₁

namespace Heedless

variable {α β : Type} {x : Reader α} {k : α → Reader β} {yes no : Reader β} {c : Cursor} {m : Mark}

lemma bind (first : Heedless x c) : Heedless (x >>= k) c := by
  intro opens b c₂ h
  obtain ⟨a, c₁, h, rest⟩ := reads_bind.1 h
  exact reads_bind.2 ⟨a, c₁, first opens a c₁ h, rest⟩

lemma map {f : α → β} (first : Heedless x c) : Heedless (f <$> x) c := by
  intro opens b c₁ h
  obtain ⟨a, h, same⟩ := reads_map.1 h
  exact reads_map.2 ⟨a, first opens a c₁ h, same⟩

lemma refuse {cause : SyntaxError.Cause} : Heedless (Reader.refuse cause : Reader α) c :=
  fun _ _ _ h => absurd h reads_refuse

/-- To take a token of which no more matters than its kind and its place. -/
lemma take {k : Token → Reader β} (solid : c.atEnd = false)
    (only : ∀ opens, k ⟨c.next.kind, c.next.span, opens⟩ = k c.next) : Heedless (Reader.take >>= k) c := by
  intro opens b c₂ h
  rw [reads_take_bind] at h ⊢
  have same := only (c.reopen opens).next.opensLine
  rw [← Cursor.reopen_kind opens, ← Cursor.reopen_span opens] at same
  rwa [same, Cursor.reopen_advance opens solid]

lemma expect {k : Token → Reader β} (only : ∀ opens, k ⟨c.next.kind, c.next.span, opens⟩ = k c.next) :
    Heedless (Reader.expect m >>= k) c := by
  intro opens b c₂ h
  obtain ⟨here, behind⟩ := reads_expect_bind.1 h
  have taken := take (Cursor.solid_of_isAt here) only opens b c₂ (reads_take_bind.2 behind)
  exact reads_expect_bind.2 ⟨(Cursor.reopen_isAt opens).trans here, reads_take_bind.1 taken⟩

lemma ident {cause : SyntaxError.Cause} : Heedless (Reader.ident cause) c := by
  intro opens i c₁ h
  obtain ⟨name, place, rfl⟩ := reads_ident.1 h
  exact reads_ident.2 ⟨(Cursor.reopen_name? opens).trans name, (Cursor.reopen_span opens).trans place,
    Cursor.reopen_advance opens (Cursor.solid_of_name name)⟩

lemma here {k : Nat → Reader β} (rest : Heedless (k c.next.span.start) c) : Heedless (Reader.here >>= k) c := by
  intro opens b c₂ h
  rw [reads_here_bind] at h ⊢
  rw [Cursor.reopen_span]
  exact rest opens b c₂ h

lemma look {k : Cursor → Reader β} (same : ∀ opens, k (c.reopen opens) = k c) (rest : Heedless (k c) c) :
    Heedless (get >>= k) c := by
  intro opens b c₂ h
  rw [reads_get_bind] at h ⊢
  rw [same]
  exact rest opens b c₂ h

lemma ifAt (left : c.isAt m = true → Heedless yes c) (right : Heedless no c) :
    Heedless (Reader.isAt m >>= fun b => if b = true then yes else no) c := by
  intro opens b c₂ h
  rw [reads_ifAt, Cursor.reopen_isAt]
  exact (reads_ifAt.1 h).imp (fun ⟨here, h⟩ => ⟨here, left here opens b c₂ h⟩) (fun ⟨absent, h⟩ => ⟨absent, right opens b c₂ h⟩)

lemma ifTake (right : Heedless no c) : Heedless (Reader.takeIf m >>= fun b => if b = true then yes else no) c := by
  intro opens b c₂ h
  rw [reads_ifTake, Cursor.reopen_isAt]
  obtain ⟨here, h⟩ | ⟨absent, h⟩ := reads_ifTake.1 h
  · exact .inl ⟨here, Cursor.reopen_advance opens (Cursor.solid_of_isAt here) ▸ h⟩
  · exact .inr ⟨absent, right opens b c₂ h⟩

end Heedless
end Reader

namespace Form

open Reader

variable {α : Type} {c : Cursor}

lemma heedless_of_step {form : Form α} (step : Heedless (Grammar.step (fun inner => inner.whole) form) c) :
    Heedless form.whole c :=
  fun opens a c₁ h => reads_whole.2 (step opens a c₁ (reads_whole.1 h))

lemma primary_heedless : Heedless primary.whole c := by
  refine heedless_of_step (.look (fun opens => by simp only [Cursor.reopen_kind, Cursor.reopen_startsLambda]) ?_)
  have solid {kind : Token.Kind} (found : c.next.kind = kind) (some : kind ≠ .finish) : c.atEnd = false :=
    Cursor.solid_of_kind found some
  split
  case h_1 => exact .bind .ident
  case h_2 kind | h_3 kind | h_4 kind | h_5 kind => exact .take (solid kind nofun) fun _ => rfl
  case h_6 => exact .map (heedless_of_step (.expect fun _ => rfl))
  case h_7 kind => exact .take (solid kind nofun) fun _ => rfl
  case h_8 =>
    split
    · exact heedless_of_step (.expect fun _ => rfl)
    · exact .expect fun _ => rfl
  case h_9 => exact .expect fun _ => rfl
  case h_10 => exact .refuse

lemma unary_heedless : Heedless unary.whole c :=
  heedless_of_step (.here (.ifTake (.ifTake (.bind primary_heedless))))

lemma binary_heedless {least : Nat} : Heedless (binary least).whole c :=
  heedless_of_step (.bind unary_heedless)

lemma stage_heedless : Heedless (stage true).whole c := by
  refine heedless_of_step (.here (.look (fun opens => by rw [Cursor.reopen_binaryOp?]) ?_))
  split
  · simp_all
  · exact .ifAt (fun _ => .bind (heedless_of_step (.expect fun _ => rfl))) (.bind binary_heedless)

/-- Whether the first token of an expression opens a line does not matter. -/
lemma expression_heedless : Heedless expression.whole c :=
  heedless_of_step (.bind (heedless_of_step (.bind stage_heedless)))

end Form

end PipeLang
