import Mathlib.Tactic.Lemma
import PipeLang.Proofs.Syntax.Ordered
import PipeLang.Proofs.Token.Order
import PipeLang.Reader.Cursor

/-!
# What readers do

A reader that does not refuse yields something and moves the cursor. `Reads` says so of one run, and for each
basic reader there is a lemma that says what its runs are. A cursor over tokens in order moves forward with
every token that is taken.
-/

namespace PipeLang

/-- A run of a reader from one cursor to another. -/
def Reader.Reads {α : Type} (x : Reader α) (c : Cursor) (a : α) (c' : Cursor) : Prop :=
  x.run c = .ok (a, c')

namespace Reader

variable {α β : Type} {x : Reader α} {c c' : Cursor}

@[simp] lemma reads_pure {a b : α} : Reads (pure a) c b c' ↔ a = b ∧ c = c' := by
  constructor
  · intro h
    cases h
    exact ⟨rfl, rfl⟩
  · rintro ⟨rfl, rfl⟩
    rfl

@[simp] lemma reads_bind {f : α → Reader β} {b : β} :
    Reads (x >>= f) c b c' ↔ ∃ a c₁, Reads x c a c₁ ∧ Reads (f a) c₁ b c' := by
  simp only [Reads, bind, StateT.bind, StateT.run, Except.bind]
  cases x c with
  | error e => simp
  | ok found =>
    obtain ⟨a, c₁⟩ := found
    simp only [Except.ok.injEq, Prod.mk.injEq]
    constructor
    · intro h
      exact ⟨a, c₁, ⟨rfl, rfl⟩, h⟩
    · rintro ⟨a', c₁', ⟨rfl, rfl⟩, h⟩
      exact h

@[simp] lemma reads_map {f : α → β} {b : β} :
    Reads (f <$> x) c b c' ↔ ∃ a, Reads x c a c' ∧ f a = b := by
  rw [← bind_pure_comp]
  simp only [reads_bind, reads_pure]
  constructor
  · rintro ⟨a, c₁, h, e, rfl⟩
    exact ⟨a, h, e⟩
  · rintro ⟨a, h, e⟩
    exact ⟨a, c', h, e, rfl⟩

@[simp] lemma reads_get {b : Cursor} : Reads get c b c' ↔ c = b ∧ c = c' := by
  simp [Reads, get, getThe, MonadStateOf.get, StateT.get, StateT.run, pure, Except.pure]

lemma reads_set {moved : Cursor} {u : PUnit} : Reads (set moved) c u c' ↔ moved = c' := by
  constructor
  · intro h
    cases h
    rfl
  · rintro rfl
    rfl

@[simp] lemma reads_refuse {cause : SyntaxError.Cause} {b : α} : ¬ Reads (refuse cause) c b c' := by
  simp [Reads, refuse, get, getThe, MonadStateOf.get, StateT.get, StateT.run, throw, throwThe,
    MonadExceptOf.throw, StateT.lift, bind, StateT.bind, Except.bind, pure, Except.pure]

/-- To look at the cursor does not move it. -/
lemma reads_look {f : Cursor → α} {a : α} : Reads (f <$> get) c a c' ↔ f c = a ∧ c = c' := by
  rw [reads_map]
  constructor
  · rintro ⟨_, h, e⟩
    obtain ⟨rfl, rfl⟩ := reads_get.1 h
    exact ⟨e, rfl⟩
  · rintro ⟨e, rfl⟩
    exact ⟨c, reads_get.2 ⟨rfl, rfl⟩, e⟩

@[simp] lemma reads_isAt {m : Mark} {b : Bool} : Reads (isAt m) c b c' ↔ c.isAt m = b ∧ c = c' := by
  rw [← reads_look (f := fun c => c.isAt m)]
  rfl

@[simp] lemma reads_take {t : Token} : Reads take c t c' ↔ c.next = t ∧ c.advance = c' := by
  simp only [take, reads_bind, reads_get]
  simp [reads_set]

@[simp] lemma reads_takeIf {m : Mark} {b : Bool} :
    Reads (takeIf m) c b c' ↔
      (c.isAt m = true ∧ b = true ∧ c.advance = c') ∨ (c.isAt m = false ∧ b = false ∧ c = c') := by
  simp only [takeIf, reads_bind, reads_isAt]
  constructor
  · rintro ⟨found, c₁, ⟨rfl, rfl⟩, h⟩
    cases at_ : c.isAt m with
    | true =>
      simp only [at_, if_true, reads_bind, reads_take, reads_pure] at h
      obtain ⟨_, _, ⟨-, rfl⟩, rfl, rfl⟩ := h
      exact Or.inl ⟨rfl, rfl, rfl⟩
    | false =>
      simp only [at_, Bool.false_eq_true, if_false, reads_pure] at h
      obtain ⟨rfl, rfl⟩ := h
      exact Or.inr ⟨rfl, rfl, rfl⟩
  · rintro (⟨at_, rfl, rfl⟩ | ⟨at_, rfl, rfl⟩)
    · exact ⟨true, c, ⟨at_, rfl⟩, by simp⟩
    · exact ⟨false, c, ⟨at_, rfl⟩, by simp⟩

@[simp] lemma reads_expect {m : Mark} {t : Token} :
    Reads (expect m) c t c' ↔ c.isAt m = true ∧ c.next = t ∧ c.advance = c' := by
  simp only [expect, reads_bind, reads_isAt]
  constructor
  · rintro ⟨found, c₁, ⟨rfl, rfl⟩, h⟩
    cases at_ : c.isAt m with
    | true => exact ⟨rfl, by simpa [at_] using h⟩
    | false => simp [at_] at h
  · rintro ⟨at_, rfl, rfl⟩
    exact ⟨true, c, ⟨at_, rfl⟩, by simp⟩

@[simp] lemma reads_ident {cause : SyntaxError.Cause} {i : Ident} :
    Reads (ident cause) c i c' ↔
      c.next.name? = some i.name ∧ c.next.span = i.span ∧ c.advance = c' := by
  simp only [ident, reads_bind, reads_get]
  constructor
  · rintro ⟨_, _, ⟨rfl, rfl⟩, h⟩
    split at h
    · next name found =>
      simp only [reads_bind, reads_take, reads_pure] at h
      obtain ⟨_, _, ⟨rfl, rfl⟩, rfl, rfl⟩ := h
      exact ⟨found, rfl, rfl⟩
    · simp at h
  · rintro ⟨found, place, rfl⟩
    refine ⟨c, c, ⟨rfl, rfl⟩, ?_⟩
    simp [found, place]

@[simp] lemma reads_text {cause : SyntaxError.Cause} {found : String × Span} :
    Reads (text cause) c found c' ↔
      c.next.kind = .text found.1 ∧ c.next.span = found.2 ∧ c.advance = c' := by
  simp only [text, reads_bind, reads_get]
  constructor
  · rintro ⟨_, _, ⟨rfl, rfl⟩, h⟩
    split at h
    · next value kind =>
      simp only [reads_bind, reads_take, reads_pure] at h
      obtain ⟨_, _, ⟨rfl, rfl⟩, rfl, rfl⟩ := h
      exact ⟨kind, rfl, rfl⟩
    · simp at h
  · rintro ⟨kind, place, rfl⟩
    refine ⟨c, c, ⟨rfl, rfl⟩, ?_⟩
    simp [kind, place]

@[simp] lemma reads_here {n : Nat} : Reads here c n c' ↔ c.next.span.start = n ∧ c = c' := by
  rw [← reads_look (f := fun c => c.next.span.start)]
  rfl

@[simp] lemma reads_readTo {n : Nat} : Reads readTo c n c' ↔ c.readTo = n ∧ c = c' := by
  rw [← reads_look (f := Cursor.readTo)]
  rfl

/-! ### What is read behind a basic reader -/

section

variable {yes no : Reader α} {a : α} {b : β}

lemma reads_get_bind {f : Cursor → Reader β} : Reads (get >>= f) c b c' ↔ Reads (f c) c b c' := by
  simp only [reads_bind, reads_get, and_assoc, exists_and_left, exists_eq_left']

lemma reads_here_bind {f : Nat → Reader β} : Reads (here >>= f) c b c' ↔ Reads (f c.next.span.start) c b c' := by
  simp only [reads_bind, reads_here, and_assoc, exists_and_left, exists_eq_left']

lemma reads_readTo_bind {f : Nat → Reader β} : Reads (readTo >>= f) c b c' ↔ Reads (f c.readTo) c b c' := by
  simp only [reads_bind, reads_readTo, and_assoc, exists_and_left, exists_eq_left']

lemma reads_take_bind {f : Token → Reader β} : Reads (take >>= f) c b c' ↔ Reads (f c.next) c.advance b c' := by
  simp only [reads_bind, reads_take, and_assoc, exists_and_left, exists_eq_left']

lemma reads_isAt_bind {m : Mark} {f : Bool → Reader β} : Reads (isAt m >>= f) c b c' ↔ Reads (f (c.isAt m)) c b c' := by
  simp only [reads_bind, reads_isAt, and_assoc, exists_and_left, exists_eq_left']

lemma reads_expect_bind {m : Mark} {f : Token → Reader β} :
    Reads (expect m >>= f) c b c' ↔ c.isAt m = true ∧ Reads (f c.next) c.advance b c' := by
  simp only [reads_bind, reads_expect, and_assoc, exists_and_left, exists_eq_left']

lemma reads_ident_bind {cause : SyntaxError.Cause} {f : Ident → Reader β} : Reads (ident cause >>= f) c b c' ↔
    ∃ i : Ident, c.next.name? = some i.name ∧ c.next.span = i.span ∧ Reads (f i) c.advance b c' := by
  simp only [reads_bind, reads_ident, and_assoc, exists_and_left, exists_eq_left']

lemma reads_text_bind {cause : SyntaxError.Cause} {f : String × Span → Reader β} : Reads (text cause >>= f) c b c' ↔
    ∃ found : String × Span, c.next.kind = .text found.1 ∧ c.next.span = found.2 ∧ Reads (f found) c.advance b c' := by
  simp only [reads_bind, reads_text, and_assoc, exists_and_left, exists_eq_left']

lemma reads_bind_pure {g : α → β} : Reads (x >>= fun a => pure (g a)) c b c' ↔ ∃ a, Reads x c a c' ∧ g a = b := by
  rw [bind_pure_comp, reads_map]

lemma reads_bind_readTo {g : α → Nat → β} :
    Reads (x >>= fun a => readTo >>= fun n => pure (g a n)) c b c' ↔ ∃ a, Reads x c a c' ∧ g a c'.readTo = b := by
  rw [reads_bind]
  simp only [reads_readTo_bind, reads_pure]
  constructor
  · rintro ⟨a, _, h, made, rfl⟩
    exact ⟨a, h, made⟩
  · rintro ⟨a, h, made⟩
    exact ⟨a, c', h, made, rfl⟩

lemma reads_ifAt {m : Mark} : Reads (isAt m >>= fun found => if found = true then yes else no) c a c' ↔
    c.isAt m = true ∧ Reads yes c a c' ∨ c.isAt m = false ∧ Reads no c a c' := by
  rw [reads_isAt_bind]
  cases c.isAt m <;> simp

lemma reads_ifTake {m : Mark} : Reads (takeIf m >>= fun found => if found = true then yes else no) c a c' ↔
    c.isAt m = true ∧ Reads yes c.advance a c' ∨ c.isAt m = false ∧ Reads no c a c' := by
  simp only [reads_bind, reads_takeIf]
  cases here : c.isAt m <;> simp

lemma reads_ite {p : Prop} [Decidable p] :
    Reads (if p then yes else no) c a c' ↔ p ∧ Reads yes c a c' ∨ ¬ p ∧ Reads no c a c' := by
  split
  · next h => simp [h]
  · next h => simp [h]

end

end Reader

namespace Cursor

/-- The unread tokens are in order and behind what has been read. -/
def InOrder (c : Cursor) : Prop :=
  Token.InOrder c.readTo c.rest

variable {c : Cursor}

/-- The next token is behind what has been read. -/
lemma InOrder.next_start (h : c.InOrder) : c.readTo ≤ c.next.span.start := by
  obtain ⟨rest, readTo⟩ := c
  cases h with
  | nil => exact Nat.le_refl _
  | cons le _ _ _ _ => exact le

/-- A token that opens a line does not touch what has been read. -/
lemma InOrder.next_gap (h : c.InOrder) (opens : c.next.opensLine = true) (ending : c.atEnd = false) :
    c.readTo = 0 ∨ c.readTo < c.next.span.start := by
  obtain ⟨rest, readTo⟩ := c
  cases h with
  | nil => simp [atEnd, next, Token.isFinish] at ending
  | cons _ _ _ gap _ => exact gap opens

/-- A mark is not the end of the text. -/
lemma solid_of_isAt {m : Mark} (h : c.isAt m = true) : c.atEnd = false := by
  simp only [isAt, Token.isMark, atEnd, Token.isFinish] at *
  cases kind : c.next.kind <;> simp_all

/-- A name is not the end of the text. -/
lemma solid_of_name {name : String} (h : c.next.name? = some name) : c.atEnd = false := by
  simp only [Token.name?, atEnd, Token.isFinish] at *
  cases kind : c.next.kind <;> simp_all

/-- A literal is not the end of the text. -/
lemma solid_of_kind {kind : Token.Kind} (h : c.next.kind = kind) (solid : kind ≠ .finish) :
    c.atEnd = false := by
  cases kind with
  | finish => exact absurd rfl solid
  | _ => simp [atEnd, Token.isFinish, h]

/-- Taking a token that is not the end of the text moves the cursor over it. -/
lemma InOrder.advance (h : c.InOrder) (solid : c.atEnd = false) :
    c.advance.InOrder ∧ c.readTo ≤ c.next.span.start ∧ c.next.span.start < c.next.span.stop ∧
      c.advance.readTo = c.next.span.stop := by
  obtain ⟨rest, readTo⟩ := c
  cases h with
  | nil => simp [atEnd, next, Token.isFinish] at solid
  | cons le _ proper _ rest => exact ⟨rest, le, proper solid, rfl⟩

/-- Taking a mark moves the cursor over it. -/
lemma InOrder.takeMark {m : Mark} (h : c.InOrder) (here : c.isAt m = true) :
    c.advance.InOrder ∧ c.readTo ≤ c.next.span.start ∧ c.next.span.start < c.next.span.stop ∧
      c.advance.readTo = c.next.span.stop :=
  h.advance (solid_of_isAt here)

/-- Taking a name moves the cursor over it. -/
lemma InOrder.takeName {i : Ident} (h : c.InOrder) (name : c.next.name? = some i.name)
    (place : c.next.span = i.span) :
    c.advance.InOrder ∧ c.readTo ≤ c.next.span.start ∧ c.next.span.start = i.span.start ∧
      i.span.start < i.span.stop ∧ c.advance.readTo = i.span.stop := by
  obtain ⟨order, start, proper, stop⟩ := h.advance (solid_of_name name)
  rw [place] at start proper stop ⊢
  exact ⟨order, start, rfl, proper, stop⟩

end Cursor

end PipeLang
