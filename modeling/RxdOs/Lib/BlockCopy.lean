/- RxdOs/Lib/BlockCopy
   digest: A run of cells copied, filled or stored as a whole, and the rules by which a loop that
   writes one cell at a time, upwards or downwards, amounts to it. -/

import Mathlib.Tactic

set_option autoImplicit false
set_option relaxedAutoImplicit false

namespace RxdOs.Lib.BlockCopy

universe u

variable {β : Type u}

/-- The `n` cells from `dst` on hold what the `n` cells from `src` on held. -/
def copied (mem : Nat → β) (dst src n : Nat) : Nat → β := fun a =>
  if dst ≤ a ∧ a < dst + n then mem (src + (a - dst)) else mem a

/-- The `n` cells from `dst` on hold `v`. -/
def filled (mem : Nat → β) (dst n : Nat) (v : β) : Nat → β := fun a =>
  if dst ≤ a ∧ a < dst + n then v else mem a

/-- The cells from `dst` on hold the values of a list. -/
def stored (mem : Nat → β) (dst : Nat) (cells : List β) : Nat → β := fun a =>
  if dst ≤ a then cells[a - dst]?.getD (mem a) else mem a

section Cells

variable {mem : Nat → β} {dst src n a i : Nat} {v : β}

theorem copied_inside (hi : i < n) : copied mem dst src n (dst + i) = mem (src + i) := by
  rw [copied, if_pos ⟨Nat.le_add_right .., Nat.add_lt_add_left hi dst⟩, Nat.add_sub_cancel_left]

theorem copied_outside (h : a < dst ∨ dst + n ≤ a) : copied mem dst src n a = mem a :=
  if_neg (by omega)

theorem copied_zero : copied mem dst src 0 = mem := by
  ext a
  exact copied_outside (by omega)

theorem copied_self : copied mem dst dst n = mem := by
  ext a
  unfold copied
  split_ifs with ha
  · rw [Nat.add_sub_cancel' ha.1]
  · rfl

theorem filled_inside (hi : i < n) : filled mem dst n v (dst + i) = v :=
  if_pos ⟨Nat.le_add_right .., Nat.add_lt_add_left hi dst⟩

theorem filled_outside (h : a < dst ∨ dst + n ≤ a) : filled mem dst n v a = mem a :=
  if_neg (by omega)

theorem filled_zero : filled mem dst 0 v = mem := by
  ext a
  exact filled_outside (by omega)

theorem stored_inside {cells : List β} (hi : i < cells.length) :
    stored mem dst cells (dst + i) = cells[i] := by
  rw [stored, if_pos (Nat.le_add_right ..), Nat.add_sub_cancel_left, List.getElem?_eq_getElem hi]
  rfl

theorem stored_outside {cells : List β} (h : a < dst ∨ dst + cells.length ≤ a) :
    stored mem dst cells a = mem a := by
  unfold stored
  split_ifs with ha
  · rw [List.getElem?_eq_none (by omega)]
    rfl
  · rfl

theorem stored_at (cells : List β) (i : Nat) :
    stored mem dst cells (dst + i) = cells[i]?.getD (mem (dst + i)) := by
  rw [stored, if_pos (Nat.le_add_right ..), Nat.add_sub_cancel_left]

/-- What is stored is the same in memories that agree where it stands. -/
theorem stored_congr {mem' : Nat → β} {cells : List β} (h : mem' a = mem a) :
    stored mem' dst cells a = stored mem dst cells a := by
  unfold stored
  rw [h]

theorem stored_nil : stored mem dst [] = mem := by
  ext a
  exact stored_outside (by rw [List.length_nil]; omega)

end Cells

section Steps

variable {dst src n : Nat}

/-- A copy upwards goes on after its first cell if that cell is not one it still has to read. -/
theorem copied_first (mem : Nat → β) (h : dst ≤ src ∨ src + n < dst) :
    copied (Function.update mem dst (mem src)) (dst + 1) (src + 1) n =
      copied mem dst src (n + 1) := by
  ext a
  by_cases hin : dst ≤ a ∧ a < dst + (n + 1)
  · obtain ⟨i, rfl⟩ := Nat.exists_eq_add_of_le hin.1
    rw [copied_inside (show i < n + 1 by omega)]
    rcases Nat.eq_zero_or_pos i with rfl | hi
    · rw [Nat.add_zero dst, Nat.add_zero src, copied_outside (.inl (by omega)),
        Function.update_self]
    · have hcell : dst + i = dst + 1 + (i - 1) := by omega
      have hread : src + 1 + (i - 1) = src + i := by omega
      have hne : src + i ≠ dst := by omega
      rw [hcell, copied_inside (show i - 1 < n by omega), hread, Function.update_of_ne hne]
  · have hne : a ≠ dst := by omega
    rw [copied_outside (by omega), copied_outside (by omega), Function.update_of_ne hne]

/-- A copy downwards goes on after its last cell if the cells it still has to read lie below. -/
theorem copied_last (mem : Nat → β) (h : src ≤ dst) :
    copied (Function.update mem (dst + n) (mem (src + n))) dst src n =
      copied mem dst src (n + 1) := by
  ext a
  by_cases hin : dst ≤ a ∧ a < dst + (n + 1)
  · obtain ⟨i, rfl⟩ := Nat.exists_eq_add_of_le hin.1
    rw [copied_inside (show i < n + 1 by omega)]
    by_cases hi : i = n
    · rw [hi, copied_outside (.inr le_rfl), Function.update_self]
    · have hne : src + i ≠ dst + n := by omega
      rw [copied_inside (show i < n by omega), Function.update_of_ne hne]
  · have hne : a ≠ dst + n := by omega
    rw [copied_outside (by omega), copied_outside (by omega), Function.update_of_ne hne]

theorem filled_first (mem : Nat → β) (v : β) :
    filled (Function.update mem dst v) (dst + 1) n v = filled mem dst (n + 1) v := by
  ext a
  by_cases hin : dst ≤ a ∧ a < dst + (n + 1)
  · obtain ⟨i, rfl⟩ := Nat.exists_eq_add_of_le hin.1
    rw [filled_inside (show i < n + 1 by omega)]
    rcases Nat.eq_zero_or_pos i with rfl | hi
    · rw [Nat.add_zero dst, filled_outside (.inl (by omega)), Function.update_self]
    · have hcell : dst + i = dst + 1 + (i - 1) := by omega
      rw [hcell, filled_inside (show i - 1 < n by omega)]
  · have hne : a ≠ dst := by omega
    rw [filled_outside (by omega), filled_outside (by omega), Function.update_of_ne hne]

theorem filled_last (mem : Nat → β) (v : β) :
    filled (Function.update mem (dst + n) v) dst n v = filled mem dst (n + 1) v := by
  ext a
  by_cases hlast : a = dst + n
  · rw [hlast, filled_outside (.inr le_rfl), Function.update_self,
      filled_inside (Nat.lt_succ_self n)]
  · by_cases hin : dst ≤ a ∧ a < dst + n
    · obtain ⟨i, rfl⟩ := Nat.exists_eq_add_of_le hin.1
      rw [filled_inside (by omega), filled_inside (by omega)]
    · rw [filled_outside (by omega), filled_outside (by omega), Function.update_of_ne hlast]

/-- A list is stored after a list. -/
theorem stored_append (mem : Nat → β) (l l' : List β) :
    stored (stored mem dst l) (dst + l.length) l' = stored mem dst (l ++ l') := by
  ext a
  by_cases hlow : a < dst
  · rw [stored_outside (.inl (by omega)), stored_outside (.inl hlow), stored_outside (.inl hlow)]
  · obtain ⟨i, rfl⟩ := Nat.exists_eq_add_of_le (not_lt.mp hlow)
    by_cases hi : i < l.length
    · have hboth : i < (l ++ l').length := by
        rw [List.length_append]
        omega
      rw [stored_outside (.inl (by omega)), stored_inside hi, stored_inside hboth,
        List.getElem_append_left hi]
    · obtain ⟨j, rfl⟩ := Nat.exists_eq_add_of_le (not_lt.mp hi)
      by_cases hj : j < l'.length
      · have hboth : l.length + j < (l ++ l').length := by
          rw [List.length_append]
          omega
        rw [← Nat.add_assoc, stored_inside hj, Nat.add_assoc, stored_inside hboth,
          List.getElem_append_right (Nat.le_add_right ..)]
        simp only [Nat.add_sub_cancel_left]
      · rw [stored_outside (.inr (by omega)), stored_outside (.inr (by omega)),
          stored_outside (.inr (by rw [List.length_append]; omega))]

/-- A list stored over the rest of another that is no longer. -/
theorem stored_over (mem : Nat → β) {l c l' : List β} (hc : c.length ≤ l'.length) :
    stored (stored mem dst (l ++ c)) (dst + l.length) l' = stored mem dst (l ++ l') := by
  rw [← stored_append mem l c, ← stored_append mem l l']
  ext a
  by_cases hlow : a < dst + l.length
  · rw [stored_outside (.inl hlow), stored_outside (.inl hlow), stored_outside (.inl hlow)]
  · obtain ⟨i, rfl⟩ := Nat.exists_eq_add_of_le (not_lt.mp hlow)
    by_cases hi : i < l'.length
    · rw [stored_inside hi, stored_inside hi]
    · have hbehind : dst + l.length + l'.length ≤ dst + l.length + i := by omega
      have hcut : dst + l.length + c.length ≤ dst + l.length + i := by omega
      calc stored (stored (stored mem dst l) (dst + l.length) c) (dst + l.length) l'
            (dst + l.length + i)
          = stored (stored mem dst l) (dst + l.length) c (dst + l.length + i) :=
            stored_outside (.inr hbehind)
        _ = stored mem dst l (dst + l.length + i) := stored_outside (.inr hcut)
        _ = stored (stored mem dst l) (dst + l.length) l' (dst + l.length + i) :=
            (stored_outside (.inr hbehind)).symm

theorem stored_single (mem : Nat → β) (dst : Nat) (v : β) :
    stored mem dst [v] = Function.update mem dst v := by
  ext a
  by_cases ha : a = dst
  · rw [ha, Function.update_self, stored, if_pos le_rfl, Nat.sub_self]
    rfl
  · rw [Function.update_of_ne ha, stored_outside (by rw [List.length_singleton]; omega)]

/-- A list is stored upwards, cell by cell. -/
theorem stored_first (mem : Nat → β) (v : β) (l : List β) :
    stored (Function.update mem dst v) (dst + 1) l = stored mem dst (v :: l) := by
  rw [← stored_single]
  exact stored_append mem [v] l

/-- A part of a stored list stored anew. -/
theorem stored_replace (mem : Nat → β) {a l l' : List β} (hlen : l'.length = l.length)
    (c : List β) : stored (stored mem dst (a ++ l ++ c)) (dst + a.length) l' =
      stored mem dst (a ++ l' ++ c) := by
  ext q
  by_cases hlow : q < dst
  · rw [stored_outside (.inl (by omega)), stored_outside (.inl hlow), stored_outside (.inl hlow)]
  obtain ⟨i, rfl⟩ := Nat.exists_eq_add_of_le (not_lt.mp hlow)
  by_cases ha : i < a.length
  · rw [stored_outside (.inl (by omega)), stored_at, stored_at, List.append_assoc,
      List.append_assoc, List.getElem?_append_left ha, List.getElem?_append_left ha]
  obtain ⟨j, rfl⟩ := Nat.exists_eq_add_of_le (not_lt.mp ha)
  by_cases hl : j < l'.length
  · rw [← Nat.add_assoc, stored_inside hl, Nat.add_assoc, stored_at, List.append_assoc,
      List.getElem?_append_right (Nat.le_add_right ..), Nat.add_sub_cancel_left,
      List.getElem?_append_left hl, List.getElem?_eq_getElem hl]
    rfl
  · rw [stored_outside (.inr (by omega)), stored_at, stored_at, List.append_assoc,
      List.append_assoc, List.getElem?_append_right (Nat.le_add_right ..),
      List.getElem?_append_right (Nat.le_add_right ..), Nat.add_sub_cancel_left,
      List.getElem?_append_right (not_lt.mp (hlen ▸ hl)),
      List.getElem?_append_right (not_lt.mp hl), hlen]

/-- Cells moved up by `k`, with the gap filled: what was stored behind them within `k` cells is
gone. -/
theorem filled_copied_stored (mem : Nat → β) (v : β) {a b c : List β} {k : Nat}
    (hc : c.length ≤ k) :
    filled (copied (stored mem dst (a ++ b ++ c)) (dst + a.length + k) (dst + a.length) b.length)
      (dst + a.length) k v = stored mem dst (a ++ List.replicate k v ++ b) := by
  ext q
  by_cases hlow : q < dst
  · rw [filled_outside (.inl (by omega)), copied_outside (.inl (by omega)),
      stored_outside (.inl hlow), stored_outside (.inl hlow)]
  obtain ⟨i, rfl⟩ := Nat.exists_eq_add_of_le (not_lt.mp hlow)
  by_cases ha : i < a.length
  · rw [filled_outside (.inl (by omega)), copied_outside (.inl (by omega)), stored_at, stored_at,
      List.append_assoc, List.append_assoc, List.getElem?_append_left ha,
      List.getElem?_append_left ha]
  obtain ⟨j, rfl⟩ := Nat.exists_eq_add_of_le (not_lt.mp ha)
  rw [← Nat.add_assoc]
  by_cases hk : j < k
  · rw [filled_inside hk, Nat.add_assoc, stored_at, List.append_assoc,
      List.getElem?_append_right (Nat.le_add_right ..), Nat.add_sub_cancel_left,
      List.getElem?_append_left (by simpa using hk), List.getElem?_replicate, if_pos hk]
    rfl
  obtain ⟨l, rfl⟩ := Nat.exists_eq_add_of_le (not_lt.mp hk)
  rw [filled_outside (.inr (by omega)), ← Nat.add_assoc]
  by_cases hb : l < b.length
  · rw [copied_inside hb, Nat.add_assoc dst, stored_at, List.append_assoc,
      List.getElem?_append_right (Nat.le_add_right ..), Nat.add_sub_cancel_left,
      List.getElem?_append_left hb, Nat.add_assoc, Nat.add_assoc, stored_at, List.append_assoc,
      List.getElem?_append_right (Nat.le_add_right ..), Nat.add_sub_cancel_left,
      List.getElem?_append_right (by rw [List.length_replicate]; omega), List.length_replicate,
      Nat.add_sub_cancel_left, List.getElem?_eq_getElem hb]
    rfl
  · rw [copied_outside (.inr (by omega)),
      stored_outside (.inr (by simp only [List.length_append]; omega)),
      stored_outside (.inr (by simp only [List.length_append, List.length_replicate]; omega))]

end Steps

end RxdOs.Lib.BlockCopy
