import PipeLang.Span

/-!
# Span tables

Tables keyed by the place of a piece of syntax. Main statement: `get?_insert`.
-/

namespace PipeLang

/-- What is known of pieces of syntax, by their places; the latest entry of a place counts. -/
structure SpanTable (α : Type) where
  entries : List (Span × α)

namespace SpanTable

variable {α : Type}

/-- A table without entries. -/
def empty : SpanTable α := ⟨[]⟩

/-- What is known of a place. -/
def get? (t : SpanTable α) (s : Span) : Option α :=
  t.entries.lookup s

/-- Records what is known of a place. -/
def insert (t : SpanTable α) (s : Span) (x : α) : SpanTable α :=
  ⟨(s, x) :: t.entries⟩

/-- The latest entry of each place, ordered by place. -/
def inOrder (t : SpanTable α) : List (Span × α) :=
  let latest := t.entries.foldl
    (fun kept entry => if kept.any fun k => k.1 = entry.1 then kept else entry :: kept) []
  latest.mergeSort fun a b => a.1.le b.1

@[simp] theorem get?_empty (s : Span) : (empty : SpanTable α).get? s = none := rfl

/-- After recording, the place has what was recorded, and every other place what it had. -/
theorem get?_insert (t : SpanTable α) (s s' : Span) (x : α) :
    (t.insert s x).get? s' = if s' = s then some x else t.get? s' := by
  by_cases h : s' = s
  · simp [get?, insert, h]
  · have : (s' == s) = false := by simpa using h
    simp [get?, insert, List.lookup_cons, this, h]

end SpanTable

end PipeLang
