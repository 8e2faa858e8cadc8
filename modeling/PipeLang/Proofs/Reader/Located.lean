import PipeLang.Proofs.Reader.Places
import PipeLang.Proofs.Reader.Progress

/-!
# Where syntax and its errors lie

Whatever comes of reading a text lies in the text, between characters of it: every node of the syntax, if the text parses,
and every error, if it does not. Main statements: `Module.parse_nodes_liesIn` and `Module.parse_errors_liesIn`.
-/

namespace PipeLang

/-- A place lies in a text: it does not end before it begins, nor behind the text, and it cuts no character. -/
structure Span.LiesIn (source : String) (s : Span) : Prop where
  ordered : s.start ≤ s.stop
  inside : s.stop ≤ source.utf8ByteSize
  start : Token.Edge source s.start
  stop : Token.Edge source s.stop

variable {source : String}

/-- The empty place at the start lies in every text. -/
lemma Span.default_liesIn : (default : Span).LiesIn source where
  ordered := Nat.le_refl _
  inside := Nat.zero_le _
  start := @Token.edge_of_front source [] _ rfl
  stop := @Token.edge_of_front source [] _ rfl

namespace Token

/-- No token ends before it begins. -/
lemma InOrder.proper {tokens : List Token} {lo : Nat} (h : InOrder lo tokens) :
    ∀ t ∈ tokens, t.span.start ≤ t.span.stop := by
  induction h with
  | nil => exact List.forall_mem_nil _
  | cons _ proper _ _ _ ih => exact List.forall_mem_cons.2 ⟨proper, ih⟩

lemma scan_liesIn {tokens : List Token} (h : scan source = .ok tokens) : ∀ t ∈ tokens, t.span.LiesIn source := by
  intro t member
  obtain ⟨start, stop⟩ := scan_edges h t member
  exact ⟨(scan_inOrder h).proper t member, stop.le_utf8ByteSize, start, stop⟩

/-- What is refused while lexemes are put in their places behind the front of a text lies in the text. -/
lemma place_errors_liesIn {pieces : List (Piece × List Char)} {before : List Char} {fresh : Bool}
    (text : source.toList = before ++ pieces.flatMap Prod.snd) :
    ∀ e ∈ (place (byteCount before) fresh pieces).errors, e.span.LiesIn source := by
  induction pieces generalizing before fresh with
  | nil => exact List.forall_mem_nil _
  | cons head rest ih =>
    obtain ⟨piece, chars⟩ := head
    have start : Edge source (byteCount before) := edge_of_front text
    have text' : source.toList = (before ++ chars) ++ rest.flatMap Prod.snd := by simpa using text
    have stop : Edge source (byteCount before + byteCount chars) := byteCount_append _ _ ▸ edge_of_front text'
    have here : Span.LiesIn source ⟨byteCount before, byteCount before + byteCount chars⟩ :=
      ⟨Nat.le_add_right _ _, stop.le_utf8ByteSize, start, stop⟩
    have later {fresh' : Bool} :
        ∀ e ∈ (place (byteCount before + byteCount chars) fresh' rest).errors, e.span.LiesIn source := by
      rw [← byteCount_append]
      exact ih text'
    cases piece with
    | stray | openComment | openText => exact List.forall_mem_cons.2 ⟨here, later⟩
    | _ => exact later

lemma scan_errors_liesIn {errors : List SyntaxError} (h : scan source = .error errors) :
    ∀ e ∈ errors, e.span.LiesIn source := by
  simp only [scan] at h
  split at h
  · cases h
  · cases h
    exact @place_errors_liesIn source _ [] true (by simp [lexemes_flatten])

end Token

/-- A node and all nodes inside of it lie in a text. -/
def Node.LiesIn (source : String) (n : Node) : Prop :=
  ∀ inside ∈ n.all, inside.span.LiesIn source

namespace Node

lemma LiesIn.span {n : Node} (h : n.LiesIn source) : n.span.LiesIn source := by
  obtain ⟨kind, span, parts⟩ := n
  exact h _ List.mem_cons_self

lemma mem_allOf_iff {n : Node} {ns : List Node} : n ∈ allOf ns ↔ ∃ m ∈ ns, n ∈ m.all := by
  induction ns with
  | nil => simp [allOf]
  | cons m ns ih => simp [allOf, ih]

/-- A node lies in a text just if its own place does and what it holds. -/
lemma liesIn_mk {kind : Kind} {span : Span} {parts : List Node} :
    (mk kind span parts).LiesIn source ↔ span.LiesIn source ∧ ∀ n ∈ parts, n.LiesIn source := by
  simp only [LiesIn, all, List.forall_mem_cons, mk_span, mem_allOf_iff]
  refine and_congr_right fun _ => ⟨fun h n member inside held => ?_, fun h inside => ?_⟩
  · exact h inside ⟨n, member, held⟩
  · rintro ⟨n, member, held⟩
    exact h n member inside held

end Node

namespace Module

/-- The syntax of a text that parses lies in the text. -/
theorem parse_nodes_liesIn {m : Module} (h : parse source = .ok m) : m.node.LiesIn source := by
  intro inside member
  obtain ⟨ordered, upTo, start, stop⟩ := (parse_identified h).within inside member
  exact ⟨ordered, upTo, start, stop⟩

/-- The errors of a text that does not parse lie in the text: those of its characters, and those of its tokens. -/
theorem parse_errors_liesIn {errors : List SyntaxError} (h : parse source = .error errors) :
    ∀ e ∈ errors, e.span.LiesIn source := by
  simp only [parse] at h
  cases scanned : Token.scan source with
  | error found =>
    simp only [scanned, bind, Except.bind, Except.error.injEq] at h
    exact h ▸ Token.scan_errors_liesIn scanned
  | ok tokens =>
    simp only [scanned, bind, Except.bind, ofTokens] at h
    have parsed : Reader.Parsed ⟨tokens, 0⟩ _ _ :=
      Reader.moduleParts_parsed (Nat.le_refl (Form.depthFor tokens.length)) (Nat.lt_succ_self tokens.length)
    have inPlace := parsed.inPlace (Token.scan_inOrder scanned) (Token.scan_ends scanned)
    split at h
    · cases h
    · next read =>
      cases h
      intro e member
      obtain ⟨-, -, t, token, same⟩ := inPlace.places e (by rwa [read])
      exact same ▸ Token.scan_liesIn scanned t token

end Module

end PipeLang
