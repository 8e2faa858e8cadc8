import PipeLang.Proofs.Reader.Paired
import PipeLang.Proofs.Token.Seam

/-!
# Reading further on

The tokens of a text may stand further on in another, with a semicolon, a closing parenthesis or another end where the text
ends. `Follows` says of two readers that what the one reads from a cursor on, the other reads from the same tokens further
on, and for each basic reader there is a rule for what comes behind it. What looks at the next token decides the same at one
of these marks as at the end, unless it looks for that mark.
-/

namespace PipeLang

/-- Whether a mark may come in place of the end of a text. -/
def Mark.closes : Mark → Bool
  | .semicolon | .rightParen => true
  | _ => false

lemma Mark.eq_of_closes {m : Mark} (h : m.closes = true) : m = .semicolon ∨ m = .rightParen := by
  cases m <;> simp [closes] at h ⊢

namespace Token

/-- Tokens that come in place of the end of a text: another end, or a mark and more. -/
def Seam (behind : List Token) : Prop :=
  ∃ t rest, behind = t :: rest ∧ (t.kind = .finish ∨ ∃ m : Mark, m.closes = true ∧ t.kind = .mark m)

/-- Tokens up to the end of a text, and the same tokens further on with others in place of the end. -/
inductive Moved (n : Nat) (behind : List Token) : List Token → List Token → Prop where
  | finish {t} :
    t.isFinish = true →
    Moved n behind [t] behind
  | token {t ts ts'} :
    t.isFinish = false →
    0 < t.span.stop →
    Moved n behind ts ts' →
    Moved n behind (t :: ts) (t.shift n :: ts')

variable {n : Nat} {behind ts ts' : List Token}

@[simp] lemma shift_isMark {t : Token} {m : Mark} : (t.shift n).isMark m = t.isMark m := by
  simp only [isMark, shift_kind]

/-- The tokens in front of the end, further on, with others behind them. -/
lemma Moved.of_front {front : List Token} {last : Token} (finish : last.isFinish = true)
    (inside : ∀ t ∈ front, t.isFinish = false ∧ 0 < t.span.stop) :
    Moved n behind (front ++ [last]) (front.map (shift n) ++ behind) := by
  induction front with
  | nil => exact .finish finish
  | cons t front ih =>
    obtain ⟨⟨solid, pos⟩, rest⟩ := List.forall_mem_cons.1 inside
    exact .token solid pos (ih rest)

lemma isFinish_of_kind {t : Token} (h : t.kind = .finish) : t.isFinish = true := by
  simp [isFinish, h]

/-- The end of a text is no mark. -/
lemma isMark_of_finish {t : Token} {m : Mark} (h : t.isFinish = true) : t.isMark m = false := by
  simp only [isFinish, isMark] at *
  split at h <;> simp_all

/-- An arrow that is found is found further on as well. -/
lemma Moved.startsLambda {depth : Nat} (h : Moved n behind ts ts') (found : startsLambda depth ts = true) :
    PipeLang.startsLambda depth ts' = true := by
  induction h generalizing depth with
  | finish finish => simp [PipeLang.startsLambda, isMark_of_finish finish] at found
  | @token t ts ts' _ _ rest ih =>
    simp only [PipeLang.startsLambda, shift_isMark] at found ⊢
    by_cases opening : t.isMark .leftParen = true
    · rw [if_pos opening] at found ⊢
      exact ih found
    rw [if_neg opening] at found ⊢
    by_cases closing : t.isMark .rightParen = true
    · rw [if_pos closing] at found ⊢
      by_cases last : depth = 1
      · rw [if_pos last] at found ⊢
        cases rest with
        | finish finish => simp [isMark_of_finish finish] at found
        | token => exact found
      · rw [if_neg last] at found ⊢
        exact ih found
    · rw [if_neg closing] at found ⊢
      exact ih found

end Token

namespace Cursor

/-- A cursor, and one at the same tokens further on. -/
structure Moved (n : Nat) (behind : List Token) (c c' : Cursor) : Prop where
  tokens : Token.Moved n behind c.rest c'.rest
  seam : Token.Seam behind
  place : 0 < c.readTo → c'.readTo = c.readTo + n

namespace Moved

variable {n : Nat} {behind : List Token} {c c' c₁ : Cursor} {m : Mark}

lemma next (h : c.Moved n behind c') (solid : c.atEnd = false) : c'.next = c.next.shift n := by
  obtain ⟨rest, readTo⟩ := c
  obtain ⟨rest', readTo'⟩ := c'
  obtain ⟨tokens, -, -⟩ := h
  cases tokens with
  | finish finish => simp [atEnd, Cursor.next, finish] at solid
  | token => rfl

/-- Taking a token that is not the end of the text takes the same one further on. -/
lemma advance (h : c.Moved n behind c') (solid : c.atEnd = false) :
    c.advance.Moved n behind c'.advance ∧ 0 < c.advance.readTo := by
  obtain ⟨rest, readTo⟩ := c
  obtain ⟨rest', readTo'⟩ := c'
  obtain ⟨tokens, seam, -⟩ := h
  cases tokens with
  | finish finish => simp [atEnd, Cursor.next, finish] at solid
  | token _ pos rest => exact ⟨⟨rest, seam, fun _ => rfl⟩, pos⟩

/-- What stands in place of the end. -/
lemma rest_of_atEnd (h : c.Moved n behind c') (atEnd : c.atEnd = true) : c'.rest = behind := by
  obtain ⟨rest, readTo⟩ := c
  obtain ⟨rest', readTo'⟩ := c'
  obtain ⟨tokens, -, -⟩ := h
  cases tokens with
  | finish => rfl
  | token solid => simp [Cursor.atEnd, Cursor.next, solid] at atEnd

/-- The next tokens are of one kind, unless the one is the end and the other a mark in place of it. -/
lemma kind (h : c.Moved n behind c') :
    c'.next.kind = c.next.kind ∨ c.next.kind = .finish ∧ ∃ m : Mark, m.closes = true ∧ c'.next.kind = .mark m := by
  cases atEnd : c.atEnd with
  | false =>
    rw [h.next atEnd]
    exact .inl rfl
  | true =>
    have finish : c.next.kind = .finish := by
      simp only [Cursor.atEnd, Token.isFinish] at atEnd
      split at atEnd <;> simp_all
    obtain ⟨t, rest, text, kind⟩ := h.seam
    have there : c'.next = t := by simp [Cursor.next, h.rest_of_atEnd atEnd, text]
    rw [there, finish]
    exact kind.imp_right fun kind => ⟨rfl, kind⟩

lemma isAt (h : c.Moved n behind c') (inner : m.closes = false) : c'.isAt m = c.isAt m := by
  simp only [Cursor.isAt, Token.isMark]
  rcases h.kind with same | ⟨finish, closing, closes, mark⟩
  · rw [same]
  · have other : closing ≠ m := by
      rintro rfl
      simp [inner] at closes
    simp [finish, mark, other]

/-- A mark that is there is there further on. -/
lemma isAt_of_isAt (h : c.Moved n behind c') (here : c.isAt m = true) : c'.isAt m = true := by
  rwa [Cursor.isAt, h.next (solid_of_isAt here), Token.shift_isMark]

lemma name? (h : c.Moved n behind c') : c'.next.name? = c.next.name? := by
  simp only [Token.name?]
  rcases h.kind with same | ⟨finish, closing, closes, mark⟩
  · rw [same]
  · rcases Mark.eq_of_closes closes with rfl | rfl <;> simp [finish, mark]

lemma binaryOp? (h : c.Moved n behind c') : c'.next.binaryOp? = c.next.binaryOp? := by
  simp only [Token.binaryOp?]
  rcases h.kind with same | ⟨finish, closing, closes, mark⟩
  · rw [same]
  · rcases Mark.eq_of_closes closes with rfl | rfl <;> simp [finish, mark]

lemma startsBinding (h : c.Moved n behind c') : c'.startsBinding = c.startsBinding := by
  simp only [Cursor.startsBinding, h.name?]
  cases named : c.next.name? with
  | none => rfl
  | some name =>
    -- the token behind the name is next once the name is taken
    obtain ⟨behind, -⟩ := h.advance (solid_of_name named)
    have second {c : Cursor} (solid : c.atEnd = false) : (c.second?.any fun t => t.isMark .eq) = c.advance.isAt .eq := by
      obtain ⟨_ | ⟨t, _ | ⟨u, rest⟩⟩, readTo⟩ := c
      · cases solid
      · rfl
      · rfl
    rw [second (solid_of_name named), second (solid_of_name (h.name?.trans named)),
      behind.isAt (m := .eq) rfl]

/-- To come to another cursor a token is taken, and then something has been read. -/
lemma eq_or_pos (h : c.Moved n behind c') (reaches : c.Reaches c₁) : c = c₁ ∨ 0 < c₁.readTo := by
  induction reaches generalizing c' with
  | refl => exact .inl rfl
  | advance solid _ ih =>
    obtain ⟨moved, pos⟩ := h.advance solid
    rcases ih moved with rfl | pos'
    · exact .inr pos
    · exact .inr pos'

end Moved
end Cursor

namespace Reader

variable {n : Nat} {behind : List Token}

/-- What one reader reads from a cursor on, another reads from the same tokens further on. -/
def Follows (n : Nat) (behind : List Token) {α : Type} (f : α → α) (x y : Reader α) (c c' : Cursor) : Prop :=
  ∀ a c₁, Reads x c a c₁ → ∃ c₁', Reads y c' (f a) c₁' ∧ c₁.Moved n behind c₁' ∧ (0 < c.readTo → 0 < c₁.readTo)

namespace Follows

variable {α β : Type} {f : α → α} {g : β → β} {x y : Reader α} {c c' : Cursor} {m : Mark}
variable {yes no yes' no' : Reader β}

lemma pure {a b : α} (moved : c.Moved n behind c') (same : f a = b) :
    Follows n behind f (Pure.pure a) (Pure.pure b) c c' := by
  rintro _ _ ⟨⟩
  exact ⟨c', reads_pure.2 ⟨same.symm, rfl⟩, moved, id⟩

lemma refuse {cause : SyntaxError.Cause} : Follows n behind f (Reader.refuse cause : Reader α) y c c' :=
  fun _ _ h => absurd h reads_refuse

/-- One behind the other. -/
lemma bind {k k' : α → Reader β} (first : Follows n behind f x y c c')
    (rest : ∀ a c₁ c₁', c₁.Moved n behind c₁' → (0 < c.readTo → 0 < c₁.readTo) →
      Follows n behind g (k a) (k' (f a)) c₁ c₁') : Follows n behind g (x >>= k) (y >>= k') c c' := by
  intro b c₂ h
  obtain ⟨a, c₁, read, h⟩ := reads_bind.1 h
  obtain ⟨c₁', read', moved, forward⟩ := first a c₁ read
  obtain ⟨c₂', last, moved', forward'⟩ := rest a c₁ c₁' moved forward b c₂ h
  exact ⟨c₂', reads_bind.2 ⟨_, c₁', read', last⟩, moved', fun pos => forward' (forward pos)⟩

/-- To read something else of what is read. -/
lemma map {h : α → β} (first : Follows n behind f x y c c') (same : ∀ a, g (h a) = h (f a)) :
    Follows n behind g (h <$> x) (h <$> y) c c' := by
  intro b c₁ mapped
  obtain ⟨a, read, rfl⟩ := reads_map.1 mapped
  obtain ⟨c₁', read', moved, forward⟩ := first a c₁ read
  exact ⟨c₁', reads_map.2 ⟨_, read', (same a).symm⟩, moved, forward⟩

/-- To read nothing at the end of a text. -/
lemma of_solid (solid : ∀ a c₁, Reads x c a c₁ → c.atEnd = false)
    (rest : c.atEnd = false → Follows n behind f x y c c') : Follows n behind f x y c c' :=
  fun a c₁ h => rest (solid a c₁ h) a c₁ h

lemma look {k k' : Cursor → Reader β} (rest : Follows n behind g (k c) (k' c') c c') :
    Follows n behind g (get >>= k) (get >>= k') c c' :=
  rest

lemma here {k k' : Nat → Reader β} (moved : c.Moved n behind c') (solid : c.atEnd = false)
    (rest : Follows n behind g (k c.next.span.start) (k' (c.next.span.start + n)) c c') :
    Follows n behind g (Reader.here >>= k) (Reader.here >>= k') c c' := by
  have there : c'.next.span.start = c.next.span.start + n := by rw [moved.next solid, Token.shift_span, Span.shift_start]
  rw [← there] at rest
  exact rest

lemma readTo {k k' : Nat → Reader β} (moved : c.Moved n behind c') (pos : 0 < c.readTo)
    (rest : Follows n behind g (k c.readTo) (k' (c.readTo + n)) c c') :
    Follows n behind g (Reader.readTo >>= k) (Reader.readTo >>= k') c c' := by
  rw [← moved.place pos] at rest
  exact rest

lemma ifAt (moved : c.Moved n behind c') (inner : m.closes = false)
    (left : c.isAt m = true → Follows n behind g yes yes' c c') (right : Follows n behind g no no' c c') :
    Follows n behind g (Reader.isAt m >>= fun b => if b = true then yes else no)
      (Reader.isAt m >>= fun b => if b = true then yes' else no') c c' := by
  have looked : Follows n behind g (if c.isAt m = true then yes else no) (if c'.isAt m = true then yes' else no') c c' := by
    rw [moved.isAt inner]
    split
    · next here => exact left here
    · exact right
  exact looked

/-- What reads nothing at the end of a text may be the other case of any mark. -/
lemma ifAtSolid (moved : c.Moved n behind c') (solid : ∀ b c₁, Reads no c b c₁ → c.atEnd = false)
    (left : c.isAt m = true → Follows n behind g yes yes' c c') (right : Follows n behind g no no' c c') :
    Follows n behind g (Reader.isAt m >>= fun b => if b = true then yes else no)
      (Reader.isAt m >>= fun b => if b = true then yes' else no') c c' := by
  refine of_solid (fun b c₁ h => ?_) fun inside => ?_
  · obtain ⟨here, -⟩ | ⟨-, h⟩ := reads_ifAt.1 h
    · exact Cursor.solid_of_isAt here
    · exact solid b c₁ h
  · have looked : Follows n behind g (if c.isAt m = true then yes else no) (if c'.isAt m = true then yes' else no') c c' := by
      rw [Cursor.isAt, Cursor.isAt, moved.next inside, Token.shift_isMark]
      split
      · next here => exact left here
      · exact right
    exact looked

/-- To take a token that is not the end of the text. -/
lemma take {k k' : Token → Reader β} (moved : c.Moved n behind c') (solid : c.atEnd = false)
    (rest : c.advance.Moved n behind c'.advance → 0 < c.advance.readTo →
      Follows n behind g (k c.next) (k' (c.next.shift n)) c.advance c'.advance) :
    Follows n behind g (Reader.take >>= k) (Reader.take >>= k') c c' := by
  intro b c₂ h
  obtain ⟨moved₁, pos⟩ := moved.advance solid
  obtain ⟨c₂', last, moved₂, forward⟩ := rest moved₁ pos b c₂ (reads_take_bind.1 h)
  rw [← moved.next solid] at last
  exact ⟨c₂', reads_take_bind.2 last, moved₂, fun _ => forward pos⟩

lemma ifTake (moved : c.Moved n behind c') (inner : m.closes = false)
    (left : c.advance.Moved n behind c'.advance → 0 < c.advance.readTo → Follows n behind g yes yes' c.advance c'.advance)
    (right : Follows n behind g no no' c c') :
    Follows n behind g (Reader.takeIf m >>= fun b => if b = true then yes else no)
      (Reader.takeIf m >>= fun b => if b = true then yes' else no') c c' := by
  intro b c₂ h
  obtain ⟨here, h⟩ | ⟨absent, h⟩ := reads_ifTake.1 h
  · obtain ⟨moved₁, pos⟩ := moved.advance (Cursor.solid_of_isAt here)
    obtain ⟨c₂', last, moved₂, forward⟩ := left moved₁ pos b c₂ h
    exact ⟨c₂', reads_ifTake.2 (.inl ⟨(moved.isAt inner).trans here, last⟩), moved₂, fun _ => forward pos⟩
  · obtain ⟨c₂', last, moved₂, forward⟩ := right b c₂ h
    exact ⟨c₂', reads_ifTake.2 (.inr ⟨(moved.isAt inner).trans absent, last⟩), moved₂, forward⟩

/-- To take a token that has to be of some kind. -/
lemma taking {k k' : α → Reader β} (moved : c.Moved n behind c') (solid : ∀ a c₁, Reads x c a c₁ → c.atEnd = false)
    (taken : ∀ a c₁, Reads x c a c₁ → c₁ = c.advance ∧ Reads y c' (f a) c'.advance)
    (rest : ∀ a, c.advance.Moved n behind c'.advance → 0 < c.advance.readTo →
      Follows n behind g (k a) (k' (f a)) c.advance c'.advance) : Follows n behind g (x >>= k) (y >>= k') c c' := by
  intro b c₂ h
  obtain ⟨a, _, read, h⟩ := reads_bind.1 h
  obtain ⟨rfl, read'⟩ := taken a _ read
  obtain ⟨moved₁, pos⟩ := moved.advance (solid a _ read)
  obtain ⟨c₂', last, moved₂, forward⟩ := rest a moved₁ pos b c₂ h
  exact ⟨c₂', reads_bind.2 ⟨_, _, read', last⟩, moved₂, fun _ => forward pos⟩

lemma expect {k k' : Token → Reader β} (moved : c.Moved n behind c')
    (rest : ∀ t, c.advance.Moved n behind c'.advance → 0 < c.advance.readTo →
      Follows n behind g (k t) (k' (t.shift n)) c.advance c'.advance) :
    Follows n behind g (Reader.expect m >>= k) (Reader.expect m >>= k') c c' := by
  refine taking moved (fun t c₁ h => ?_) (fun t c₁ h => ?_) rest <;> obtain ⟨here, rfl, rfl⟩ := reads_expect.1 h
  · exact Cursor.solid_of_isAt here
  · exact ⟨rfl, reads_expect.2 ⟨moved.isAt_of_isAt here, moved.next (Cursor.solid_of_isAt here), rfl⟩⟩

lemma ident {cause : SyntaxError.Cause} {k k' : Ident → Reader β} (moved : c.Moved n behind c')
    (rest : ∀ i, c.advance.Moved n behind c'.advance → 0 < c.advance.readTo →
      Follows n behind g (k i) (k' (i.shift n)) c.advance c'.advance) :
    Follows n behind g (Reader.ident cause >>= k) (Reader.ident cause >>= k') c c' := by
  refine taking moved (fun i c₁ h => ?_) (fun i c₁ h => ?_) rest <;> obtain ⟨name, place, rfl⟩ := reads_ident.1 h
  · exact Cursor.solid_of_name name
  · have next := moved.next (Cursor.solid_of_name name)
    exact ⟨rfl, reads_ident.2 ⟨moved.name?.trans name, by rw [next, Token.shift_span, place, Ident.shift_span], rfl⟩⟩

lemma text {cause : SyntaxError.Cause} {k k' : String × Span → Reader β} (moved : c.Moved n behind c')
    (rest : ∀ found, c.advance.Moved n behind c'.advance → 0 < c.advance.readTo →
      Follows n behind g (k found) (k' (found.1, found.2.shift n)) c.advance c'.advance) :
    Follows n behind g (Reader.text cause >>= k) (Reader.text cause >>= k') c c' := by
  refine taking (f := fun found => (found.1, found.2.shift n)) moved (fun found c₁ h => ?_) (fun found c₁ h => ?_) rest <;>
    obtain ⟨kind, place, rfl⟩ := reads_text.1 h
  · exact Cursor.solid_of_kind kind nofun
  · have next := moved.next (Cursor.solid_of_kind kind nofun)
    exact ⟨rfl, reads_text.2 ⟨by rw [next, Token.shift_kind, kind], by rw [next, Token.shift_span, place], rfl⟩⟩

end Follows
end Reader

end PipeLang
