import Mathlib

/-!
# Lists filled from both ends

What a list holds after pushes at its front and its back, and the order of two
elements, written as the sublist `[first, second]`, while a list is extended.
-/

namespace LuaEngine.System

universe u

variable {Item : Type u}

/-- The list that results when the items for which `atFront` holds are pushed at
the front and the others at the back, in order. -/
def fill (atFront : Item → Bool) (items : List Item) : List Item :=
  items.foldl (fun filled item => if atFront item then item :: filled else filled ++ [item]) []

theorem fill_append_front {atFront : Item → Bool} {item : Item}
    (front : atFront item = true) (items : List Item) :
    fill atFront (items ++ [item]) = item :: fill atFront items := by
  simp [fill, front]

theorem fill_append_back {atFront : Item → Bool} {item : Item}
    (back : atFront item = false) (items : List Item) :
    fill atFront (items ++ [item]) = fill atFront items ++ [item] := by
  simp [fill, back]

theorem fill_eq (atFront : Item → Bool) (items : List Item) :
    fill atFront items =
      (items.filter atFront).reverse ++ items.filter fun item => !atFront item := by
  induction items using List.reverseRecOn with
  | nil => rfl
  | append_singleton items item inductionHypothesis =>
      cases side : atFront item with
      | false => simp [fill_append_back side, inductionHypothesis, side]
      | true => simp [fill_append_front side, inductionHypothesis, side]

theorem pair_sublist_cons {first second : Item} {items : List Item}
    (membership : second ∈ items) : [first, second].Sublist (first :: items) :=
  List.Sublist.cons_cons first (List.singleton_sublist.mpr membership)

theorem pair_sublist_append {first second : Item} {items : List Item}
    (membership : first ∈ items) : [first, second].Sublist (items ++ [second]) :=
  List.Sublist.append (List.singleton_sublist.mpr membership) (List.Sublist.refl [second])

/-- The order of two elements is seen in any part of the list that holds the
second one. -/
theorem pair_sublist_left {first second : Item} {left right : List Item}
    (distinct : (left ++ right).Nodup) (ordered : [first, second].Sublist (left ++ right))
    (membership : second ∈ left) : [first, second].Sublist left := by
  have elsewhere : second ∉ right := fun inRight =>
    (List.nodup_append.mp distinct).2.2 second membership second inRight rfl
  rcases List.sublist_append_iff.mp ordered with ⟨before, after, split, inLeft, inRight⟩
  match before, split with
  | [], split =>
      rw [List.nil_append] at split
      exact absurd (inRight.subset (split ▸ by simp)) elsewhere
  | [_], split =>
      simp only [List.cons_append, List.nil_append, List.cons.injEq] at split
      exact absurd (inRight.subset (split.2 ▸ by simp)) elsewhere
  | [_, _], split =>
      simp only [List.cons_append, List.nil_append, List.cons.injEq] at split
      rw [split.1, split.2.1]
      exact inLeft
  | _ :: _ :: _ :: _, split => simp at split

end LuaEngine.System
