import Mathlib.Tactic.Lemma
import PipeLang.Token.Scan

/-!
# Order of tokens

The tokens of a text come in the order of their places, and none but the end of the text is empty. A token that
opens a line does not touch the token before it. Every token begins and ends where a character of the text begins
or the text ends. Main statements: `scan_inOrder` and `scan_edges`.
-/

namespace PipeLang.Token

/-- The tokens begin at or behind an offset, each at or behind the end of the one before it. -/
inductive InOrder : Nat → List Token → Prop where
  | nil {lo} :
    InOrder lo []
  | cons {lo t rest} :
    lo ≤ t.span.start →
    t.span.start ≤ t.span.stop →
    (t.isFinish = false → t.span.start < t.span.stop) →
    (t.opensLine = true → lo = 0 ∨ lo < t.span.start) →
    InOrder t.span.stop rest →
    InOrder lo (t :: rest)

/-- A text that is not empty has bytes. -/
lemma byteCount_pos {cs : List Char} (h : cs ≠ []) : 0 < byteCount cs := by
  cases cs with
  | nil => exact absurd rfl h
  | cons c cs =>
    have pos := Char.utf8Size_pos c
    simp only [byteCount, List.foldr_cons]
    omega

/-- No lexeme is empty. -/
lemma lexemes_ne_nil {cs : List Char} : ∀ piece ∈ lexemes cs, piece.2 ≠ [] := by
  fun_induction lexemes cs with
  | case1 => simp
  | case2 c cs piece length h ih =>
    have pos : 0 < length := by simpa [h] using lexeme_length_pos c cs
    intro found member
    rcases List.mem_cons.1 member with rfl | member
    · simpa using Nat.pos_iff_ne_zero.1 pos
    · exact ih found member

/-- Lexemes put in their places give tokens in order. -/
lemma place_inOrder {pieces : List (Piece × List Char)} {lo offset : Nat} {fresh : Bool}
    (full : ∀ piece ∈ pieces, piece.2 ≠ []) (le : lo ≤ offset)
    (gap : fresh = true → lo = 0 ∨ lo < offset) :
    InOrder lo (place offset fresh pieces).tokens := by
  induction pieces generalizing lo offset fresh with
  | nil => exact .cons le (Nat.le_refl _) (by simp [isFinish]) gap .nil
  | cons head rest ih =>
    obtain ⟨piece, chars⟩ := head
    have pos : 0 < byteCount chars := byteCount_pos (full _ List.mem_cons_self)
    have fullRest : ∀ piece ∈ rest, piece.2 ≠ [] := fun p hp => full p (List.mem_cons_of_mem _ hp)
    -- what is no token only moves the offset on, so that a gap stays and a new line makes one
    have skip {fresh' : Bool} : InOrder lo (place (offset + byteCount chars) fresh' rest).tokens :=
      ih fullRest (by omega) fun _ => Or.inr (by omega)
    cases piece with
    | token kind =>
      refine .cons le (by simp) (fun _ => ?_) gap ?_
      · show offset < offset + byteCount chars
        omega
      · exact ih fullRest (Nat.le_refl _) (by simp)
    | _ => exact skip

/-- The tokens of a text are in order. -/
theorem scan_inOrder {source : String} {tokens : List Token} (h : scan source = .ok tokens) :
    InOrder 0 tokens := by
  simp only [scan] at h
  split at h
  · cases h
    exact place_inOrder lexemes_ne_nil (Nat.le_refl _) fun _ => Or.inl rfl
  · cases h

/-- An offset into a text at which a character begins or the text ends. -/
def Edge (source : String) (offset : Nat) : Prop :=
  String.Pos.Raw.IsValid source ⟨offset⟩

lemma byteCount_append (cs ds : List Char) : byteCount (cs ++ ds) = byteCount cs + byteCount ds := by
  induction cs with
  | nil => simp [byteCount]
  | cons c cs ih =>
    simp only [byteCount, List.cons_append, List.foldr_cons] at ih ⊢
    omega

lemma byteCount_eq (cs : List Char) : byteCount cs = (String.ofList cs).utf8ByteSize := by
  induction cs with
  | nil => rfl
  | cons c cs ih =>
    have apart : String.ofList (c :: cs) = String.singleton c ++ String.ofList cs := by
      rw [String.singleton_eq_ofList, ← String.ofList_append, List.singleton_append]
    rw [apart, String.utf8ByteSize_append, String.utf8ByteSize_singleton, ← ih]
    rfl

/-- The characters at the front of a text reach to an edge. -/
lemma edge_of_front {source : String} {before behind : List Char} (text : source.toList = before ++ behind) :
    Edge source (byteCount before) := by
  refine String.Pos.Raw.isValid_iff_exists_take_toList.2 ⟨before.length, ?_⟩
  simp [text, byteCount_eq]

/-- Lexemes put in their places behind the front of a text give tokens between edges of the text. -/
lemma place_edges {source : String} {pieces : List (Piece × List Char)} {before : List Char} {fresh : Bool}
    (text : source.toList = before ++ pieces.flatMap Prod.snd) :
    ∀ t ∈ (place (byteCount before) fresh pieces).tokens, Edge source t.span.start ∧ Edge source t.span.stop := by
  have start : Edge source (byteCount before) := edge_of_front text
  induction pieces generalizing before fresh with
  | nil =>
    intro t member
    cases List.mem_singleton.1 member
    exact ⟨start, start⟩
  | cons head rest ih =>
    obtain ⟨piece, chars⟩ := head
    have text' : source.toList = (before ++ chars) ++ rest.flatMap Prod.snd := by simpa using text
    have stop : Edge source (byteCount before + byteCount chars) := byteCount_append _ _ ▸ edge_of_front text'
    have later {fresh' : Bool} : ∀ t ∈ (place (byteCount before + byteCount chars) fresh' rest).tokens,
        Edge source t.span.start ∧ Edge source t.span.stop := by
      rw [← byteCount_append]
      exact ih text' (edge_of_front text')
    cases piece with
    | token kind => exact List.forall_mem_cons.2 ⟨⟨start, stop⟩, later⟩
    | _ => exact later

/-- The tokens of a text stand between edges of it. -/
theorem scan_edges {source : String} {tokens : List Token} (h : scan source = .ok tokens) :
    ∀ t ∈ tokens, Edge source t.span.start ∧ Edge source t.span.stop := by
  simp only [scan] at h
  split at h
  · cases h
    exact @place_edges source _ [] true (by simp [lexemes_flatten])
  · cases h

end PipeLang.Token
