import Mathlib

/-!
# Rearranging a stretch of an array

An array is a function of its indices.  A stretch of it is rearranged if the elements go
to other places inside it, and all the others stay.
-/

namespace LuaEngine.System

variable {α : Type} {a b c : Nat → α} {l u i j k : Nat}

def Rearranged (l u : Nat) (a b : Nat → α) : Prop :=
  ∃ σ : Equiv.Perm Nat, (∀ k, k < l ∨ u < k → σ k = k) ∧ b = a ∘ σ

namespace Rearranged

theorem refl (l u : Nat) (a : Nat → α) : Rearranged l u a a := ⟨1, fun _ _ => rfl, rfl⟩

theorem trans (first : Rearranged l u a b) (second : Rearranged l u b c) :
    Rearranged l u a c := by
  obtain ⟨σ, fixed, rfl⟩ := first
  obtain ⟨τ, fixed', rfl⟩ := second
  refine ⟨τ.trans σ, fun k outside => ?_, rfl⟩
  rw [Equiv.trans_apply, fixed' k outside, fixed k outside]

theorem mono {l' u' : Nat} (rearranged : Rearranged l u a b) (lower : l' ≤ l) (upper : u ≤ u') :
    Rearranged l' u' a b := by
  obtain ⟨σ, fixed, rfl⟩ := rearranged
  exact ⟨σ, fun k outside => fixed k (by omega), rfl⟩

theorem swap (a : Nat → α) (left : l ≤ i ∧ i ≤ u) (right : l ≤ j ∧ j ≤ u) :
    Rearranged l u a (a ∘ Equiv.swap i j) := by
  refine ⟨Equiv.swap i j, fun k outside => ?_, rfl⟩
  exact Equiv.swap_apply_of_ne_of_ne (by omega) (by omega)

theorem outside (rearranged : Rearranged l u a b) (beyond : k < l ∨ u < k) : b k = a k := by
  obtain ⟨σ, fixed, rfl⟩ := rearranged
  rw [Function.comp_apply, fixed k beyond]

/-- What stands in the stretch stood in it. -/
theorem inside (rearranged : Rearranged l u a b) (lower : l ≤ k) (upper : k ≤ u) :
    ∃ k', l ≤ k' ∧ k' ≤ u ∧ b k = a k' := by
  obtain ⟨σ, fixed, rfl⟩ := rearranged
  refine ⟨σ k, ?_, ?_, rfl⟩
  · by_contra below
    have same := σ.injective (fixed (σ k) (.inl (not_le.mp below)))
    omega
  · by_contra above
    have same := σ.injective (fixed (σ k) (.inr (not_le.mp above)))
    omega

theorem forall_inside (rearranged : Rearranged l u a b) {p : α → Prop}
    (all : ∀ k, l ≤ k → k ≤ u → p (a k)) : ∀ k, l ≤ k → k ≤ u → p (b k) := by
  intro k lower upper
  obtain ⟨k', lower', upper', same⟩ := rearranged.inside lower upper
  rw [same]
  exact all k' lower' upper'

theorem perm {n : Nat} (rearranged : Rearranged l u a b) (first : 1 ≤ l) (last : u ≤ n) :
    ((List.range' 1 n).map b).Perm ((List.range' 1 n).map a) := by
  obtain ⟨σ, fixed, rfl⟩ := rearranged
  have places : ((List.range' 1 n).map σ).Perm (List.range' 1 n) := by
    have within : ∀ k, 1 ≤ k → k ≤ n → 1 ≤ σ k ∧ σ k ≤ n := by
      intro k lower upper
      by_contra beyond
      have same := σ.injective (fixed (σ k) (by omega))
      omega
    have subset : (List.range' 1 n).map σ ⊆ List.range' 1 n := by
      intro place membership
      obtain ⟨k, inside, rfl⟩ := List.mem_map.mp membership
      rw [List.mem_range'_1] at inside ⊢
      have := within k (by omega) (by omega)
      omega
    have distinct : ((List.range' 1 n).map σ).Nodup :=
      List.Nodup.map σ.injective List.nodup_range'
    exact (distinct.subperm subset).perm_of_length_le (by rw [List.length_map])
  have all := places.map a
  rwa [List.map_map] at all

end Rearranged

end LuaEngine.System
