import Mathlib.Data.List.Induction
import Mathlib.Tactic.ByContra
import Mathlib.Tactic.Lemma
import PipeLang.Ty

/-!
# Types that are joined

The elements of an array literal are joined from the left, the branches of a conditional from the right. Where all that
is known of them agrees, how they are grouped and in which order they stand makes no difference, `Joined.unique`. Two
that disagree leave nothing behind, so that a type that comes after them is taken for the type of all: `joinAll_eq_iff`
says which types an array literal is given, and `join_not_assoc` that grouping matters then.
-/

namespace PipeLang.Ty

/-- Two types that are both known and differ. -/
def Disagree (a b : Ty) : Prop :=
  a ≠ any ∧ b ≠ any ∧ a ≠ b

/-- A type that a list of types comes to when neighbours are joined, grouped in some way. -/
inductive Joined : List Ty → Ty → Prop where
  | one {a} :
    Joined [a] a
  | join {ts us a b} :
    Joined ts a →
    Joined us b →
    Joined (ts ++ us) (a.join b)

variable {a b t : Ty} {ts us : List Ty}

/-- Two types that disagree come to nothing that is known. -/
lemma Disagree.join (h : Disagree a b) : a.join b = any := by
  simp [Ty.join, h.1, h.2.1, h.2.2]

/-- One more element is joined to what the elements before it have come to. -/
@[simp] lemma joinAll_concat (ts : List Ty) (b : Ty) : joinAll (ts ++ [b]) = (joinAll ts).join b := by
  cases ts with
  | nil => simp [joinAll]
  | cons first rest => simp [joinAll]

/-- From the left is one way to group. -/
lemma Joined.joinAll (a : Ty) (ts : List Ty) : Joined (a :: ts) (joinAll (a :: ts)) := by
  induction ts using List.reverseRecOn with
  | nil => exact .one
  | append_singleton ts b ih =>
    rw [← List.cons_append, joinAll_concat]
    exact .join ih .one

/-- A list without known types comes to none, and one whose known types are all the same comes to it. -/
lemma Joined.eq_of_known (h : Joined ts a) (known : ∀ b ∈ ts, b = any ∨ b = t) :
    a = if t ∈ ts then t else any := by
  induction h with
  | @one a =>
    by_cases same : t = a
    · simp [same]
    · simpa [same, eq_comm] using known a (List.mem_singleton_self a)
  | @join ts us a b _ _ left right =>
    have left := left fun b member => known b (List.mem_append_left _ member)
    have right := right fun b member => known b (List.mem_append_right _ member)
    rw [left, right]
    by_cases inLeft : t ∈ ts <;> by_cases inRight : t ∈ us <;> simp [inLeft, inRight]

/-- Types that do not disagree come to the same in every order and however they are grouped. -/
theorem Joined.unique (agree : ∀ c ∈ ts, ∀ d ∈ ts, ¬Disagree c d) (same : ts.Perm us) (h : Joined ts a)
    (h' : Joined us b) : a = b := by
  obtain ⟨t, known⟩ : ∃ t, ∀ c ∈ ts, c = any ∨ c = t := by
    by_cases all : ∀ c ∈ ts, c = any
    · exact ⟨any, fun c member => .inl (all c member)⟩
    · push Not at all
      obtain ⟨t, inside, some⟩ := all
      refine ⟨t, fun c member => ?_⟩
      by_contra other
      push Not at other
      exact agree c member t inside ⟨other.1, some, other.2⟩
  have known' : ∀ c ∈ us, c = any ∨ c = t := fun c member => known c (same.mem_iff.2 member)
  have inside : t ∈ ts ↔ t ∈ us := same.mem_iff
  simp only [h.eq_of_known known, h'.eq_of_known known', inside]

/-- Behind what has come to nothing, a run in which nothing but one type is known comes to that type. -/
lemma joinAll_run (empty : joinAll ts = any) (known : ∀ c ∈ us, c = any ∨ c = t) :
    joinAll (ts ++ us) = if t ∈ us then t else any := by
  induction us using List.reverseRecOn with
  | nil => simpa using empty
  | append_singleton us b ih =>
    have before := ih fun c member => known c (List.mem_append_left _ member)
    have last : b = any ∨ b = t := known b (by simp)
    rw [← List.append_assoc, joinAll_concat, before]
    by_cases inside : t ∈ us
    · rcases last with last | last <;> simp [inside, last]
    · rw [if_neg inside, any_join]
      by_cases same : t = b
      · simp [same]
      · simpa [inside, same, Ne.symm same] using last

/-- An array literal is given a type if its elements end with a run of that type and what is in front of the run has
come to nothing, be it that nothing was known there or that two types disagreed. -/
theorem joinAll_eq_iff (some : t ≠ any) :
    joinAll ts = t ↔
      ∃ front run, ts = front ++ run ∧ joinAll front = any ∧ t ∈ run ∧ ∀ c ∈ run, c = any ∨ c = t := by
  constructor
  · intro h
    induction ts using List.reverseRecOn with
    | nil => exact absurd h.symm some
    | append_singleton ts b ih =>
      rw [joinAll_concat] at h
      by_cases nothing : joinAll ts = any
      · rw [nothing, any_join] at h
        exact ⟨ts, [b], rfl, nothing, by simp [h], by simp [h]⟩
      · have kept : joinAll ts = t ∧ (b = any ∨ b = t) := by
          by_cases unknown : b = any
          · rw [unknown, join_any] at h
            exact ⟨h, .inl unknown⟩
          · by_cases differ : joinAll ts = b
            · rw [differ, join_self] at h
              exact ⟨differ.trans h, .inr h⟩
            · exact absurd (Disagree.join ⟨nothing, unknown, differ⟩ ▸ h).symm some
        obtain ⟨front, run, rfl, empty, inside, known⟩ := ih kept.1
        refine ⟨front, run ++ [b], by simp, empty, List.mem_append_left _ inside, fun c member => ?_⟩
        rcases List.mem_append.1 member with member | member
        · exact known c member
        · exact List.mem_singleton.1 member ▸ kept.2
  · rintro ⟨front, run, rfl, empty, inside, known⟩
    rw [joinAll_run empty known, if_pos inside]

example : joinAll [number, string, bool] = bool ∧ joinAll [number, bool, string] = string := by decide

/-- Where types disagree it matters how they are grouped. -/
theorem join_not_assoc : (number.join string).join bool ≠ number.join (string.join bool) := by
  decide

end PipeLang.Ty
