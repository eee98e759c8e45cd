import Mathlib

/-!
# Segments of a shared stack

Several owners push on one stack, whose top is the end of a list.  A segment is
a run of consecutive slots with known contents; what happens above a segment
does not touch it.
-/

namespace LuaEngine.System

universe u

variable {α : Type u}

/-- The slots from `base` up hold `values`. -/
def Segment (stack : List α) (base : Nat) (values : List α) : Prop :=
  ∃ below above, stack = below ++ values ++ above ∧ below.length = base

namespace Segment

variable {stack values : List α} {base : Nat}

theorem empty (stack : List α) : Segment stack stack.length [] :=
  ⟨stack, [], by simp, rfl⟩

theorem top_le (segment : Segment stack base values) :
    base + values.length ≤ stack.length := by
  obtain ⟨below, above, rfl, rfl⟩ := segment
  simp

theorem append (segment : Segment stack base values) (more : List α) :
    Segment (stack ++ more) base values := by
  obtain ⟨below, above, rfl, height⟩ := segment
  exact ⟨below, above ++ more, by simp, height⟩

/-- A segment on top of the stack is all that is left above its base. -/
theorem eq_append (segment : Segment stack base values)
    (top : stack.length = base + values.length) :
    ∃ below, stack = below ++ values ∧ below.length = base := by
  obtain ⟨below, above, rfl, height⟩ := segment
  have nothing : above = [] := by
    apply List.eq_nil_of_length_eq_zero
    rw [List.length_append, List.length_append] at top
    omega
  exact ⟨below, by simp [nothing], height⟩

theorem push (segment : Segment stack base values)
    (top : stack.length = base + values.length) (value : α) :
    Segment (stack ++ [value]) base (values ++ [value]) := by
  obtain ⟨below, rfl, height⟩ := segment.eq_append top
  exact ⟨below, [], by simp, height⟩

/-- A segment survives when slots above it are replaced. -/
theorem replace {lower upper : List α} (segment : Segment (lower ++ upper) base values)
    (under : base + values.length ≤ lower.length) (other : List α) :
    Segment (lower ++ other) base values := by
  obtain ⟨below, above, split, height⟩ := segment
  have length : (below ++ values).length ≤ lower.length := by
    rw [List.length_append, height]
    exact under
  obtain ⟨middle, rfl⟩ : (below ++ values) <+: lower := by
    apply List.prefix_of_prefix_length_le _ (List.prefix_append lower upper) length
    rw [split]
    exact List.prefix_append _ above
  exact ⟨below, middle ++ other, by simp, height⟩

end Segment

end LuaEngine.System
