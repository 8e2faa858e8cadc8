/-!
# Spans

A span is a range of byte offsets into one source text. Syntax, bindings and errors are located by
spans, and the tables that resolution fills are keyed by them.
-/

namespace PipeLang

/-- The bytes of a source text from `start` up to, not including, `stop`. -/
structure Span where
  start : Nat
  stop : Nat
  deriving DecidableEq, Repr, Inhabited

namespace Span

/-- Number of bytes covered. -/
def length (s : Span) : Nat :=
  s.stop - s.start

/-- The least span that covers both. -/
def union (s t : Span) : Span :=
  ⟨min s.start t.start, max s.stop t.stop⟩

/-- Whether an offset lies in the span, both ends included. -/
def contains (s : Span) (offset : Nat) : Bool :=
  s.start ≤ offset && offset ≤ s.stop

/-- Order by start, then by end. -/
def le (s t : Span) : Bool :=
  s.start < t.start || (s.start == t.start && s.stop ≤ t.stop)

theorem contains_iff {s : Span} {offset : Nat} :
    s.contains offset = true ↔ s.start ≤ offset ∧ offset ≤ s.stop := by
  simp [contains]

@[simp] theorem union_self (s : Span) : s.union s = s := by
  simp [union]

end Span

end PipeLang
