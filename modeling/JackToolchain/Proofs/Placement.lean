import Mathlib.Data.List.Infix

/-!
# Parts of a program at their places

Generated programs are lists, and what is generated for a part of a source is a stretch of the list.
Facts about such a stretch are stated for every program that has it at some place, so that they can
be put together as the stretches are.
-/

namespace JackToolchain

variable {α : Type} {program xs ys : List α} {x : α} {place : Nat}

/-- The program has the given stretch at the given place. -/
def PlacedAt (program : List α) (place : Nat) (stretch : List α) : Prop :=
  stretch <+: program.drop place

theorem placedAt_append :
    PlacedAt program place (xs ++ ys) ↔
      PlacedAt program place xs ∧ PlacedAt program (place + xs.length) ys := by
  unfold PlacedAt
  constructor
  · rintro ⟨rest, h⟩
    refine ⟨⟨ys ++ rest, by rw [← List.append_assoc, h]⟩, ⟨rest, ?_⟩⟩
    rw [← List.drop_drop, ← h, List.append_assoc, List.drop_left]
  · rintro ⟨⟨rest, h⟩, ⟨rest', h'⟩⟩
    refine ⟨rest', ?_⟩
    rw [← List.drop_drop, ← h, List.drop_left] at h'
    rw [List.append_assoc, h', h]

theorem placedAt_cons :
    PlacedAt program place (x :: xs) ↔ program[place]? = some x ∧
      PlacedAt program (place + 1) xs := by
  unfold PlacedAt
  constructor
  · rintro ⟨rest, h⟩
    refine ⟨?_, ⟨rest, ?_⟩⟩
    · rw [← List.head?_drop, ← h]
      rfl
    · rw [← List.drop_drop, ← h]
      rfl
  · rintro ⟨hx, ⟨rest, h⟩⟩
    refine ⟨rest, ?_⟩
    rw [← List.head?_drop] at hx
    obtain ⟨tail, ht⟩ := List.head?_eq_some_iff.mp hx
    rw [← List.drop_drop, ht] at h
    rw [ht, List.cons_append, h]
    rfl

/-- Where a list is a concatenation, its middle part is placed behind the first part. -/
theorem placedAt_middle (before stretch behind : List α) :
    PlacedAt (before ++ stretch ++ behind) before.length stretch := by
  refine ⟨behind, ?_⟩
  rw [List.append_assoc, List.drop_left]

end JackToolchain
