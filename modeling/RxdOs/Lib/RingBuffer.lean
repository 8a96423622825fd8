/- RxdOs/Lib/RingBuffer
   digest: The list of values stored in a circular window of an array of cells. -/

import Mathlib.Tactic

set_option autoImplicit false
set_option relaxedAutoImplicit false

namespace RxdOs.Lib.RingBuffer

universe u

variable {α : Type u}

/-- The `count` cells from `head` on, going round after `cap` cells. -/
def window (cells : Nat → α) (cap head count : Nat) : List α :=
  (List.range count).map fun i => cells ((head + i) % cap)

variable (cells : Nat → α) (cap head count : Nat)

@[simp] theorem length_window : (window cells cap head count).length = count := by
  simp [window]

/-- The position of the head counts up to full turns only. -/
theorem window_mod : window cells cap (head % cap) count = window cells cap head count := by
  simp [window]

/-- The oldest value is in the cell at the head. -/
theorem window_pop : window cells cap head (count + 1) =
    cells (head % cap) :: window cells cap (head + 1) count := by
  rw [window, List.range_succ_eq_map, List.map_cons, List.map_map]
  congr 1
  apply List.map_congr_left
  intro i _
  show cells ((head + (i + 1)) % cap) = cells ((head + 1 + i) % cap)
  rw [Nat.add_assoc, Nat.add_comm 1 i]

/-- Cells of one turn are different. -/
theorem cell_ne {i : Nat} (hi : i < count) (hcount : count < cap) :
    (head + i) % cap ≠ (head + count) % cap := by
  intro heq
  have hmod : (head + i) ≡ (head + count) [MOD cap] := heq
  have hlow := Nat.ModEq.add_left_cancel' head hmod
  rw [Nat.ModEq, Nat.mod_eq_of_lt (by omega), Nat.mod_eq_of_lt hcount] at hlow
  omega

/-- Storing into the cell after the window appends to it. -/
theorem window_push (hcount : count < cap) (value : α) :
    window (Function.update cells ((head + count) % cap) value) cap head (count + 1) =
      window cells cap head count ++ [value] := by
  rw [window, List.range_succ, List.map_append, List.map_singleton, Function.update_self]
  congr 1
  apply List.map_congr_left
  intro i hi
  exact Function.update_of_ne (cell_ne cap head count (List.mem_range.mp hi) hcount) _ _

end RxdOs.Lib.RingBuffer
