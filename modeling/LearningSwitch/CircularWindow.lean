import Mathlib.Algebra.Group.Nat.Defs
import Mathlib.Data.List.Range
import Mathlib.Logic.Function.Basic

namespace CircularWindow

/-- Free-running counters of 32 bits: their difference is the distance of the numbers they stand
for, whenever that distance fits, however often they wrapped. -/
theorem toNat_sub_ofNat {a b : Nat} (h : b ≤ a) (near : a < b + 2 ^ 32) :
    (UInt32.ofNat a - UInt32.ofNat b).toNat = a - b := by
  rw [← UInt32.ofNat_sub h, UInt32.toNat_ofNat']
  exact Nat.mod_eq_of_lt (by omega)

theorem ofNat_inj_of_near {a b : Nat} (h : a ≤ b) (near : b < a + 2 ^ 32)
    (he : UInt32.ofNat a = UInt32.ofNat b) : a = b := by
  have hd := toNat_sub_ofNat h near
  rw [he, UInt32.sub_self, UInt32.toNat_zero] at hd
  omega

theorem toNat_and_mask {mask : UInt32} {k : Nat} (h : mask.toNat + 1 = 2 ^ k) (a : Nat) :
    (UInt32.ofNat a &&& mask).toNat = a % (mask.toNat + 1) := by
  have hlt := UInt32.toNat_lt mask
  have hk : k ≤ 32 := by
    by_contra hk
    have := Nat.pow_lt_pow_right (show 1 < 2 by omega) (show 32 < k by omega)
    omega
  have hm : mask.toNat = 2 ^ k - 1 := by omega
  rw [UInt32.toNat_and, UInt32.toNat_ofNat', hm, Nat.and_two_pow_sub_one_eq_mod,
    Nat.mod_mod_of_dvd _ (Nat.pow_dvd_pow 2 hk)]
  congr 1
  omega

/-- Two different positions less than `size` apart have different cells. -/
theorem mod_ne_of_near {a b size : Nat} (h : a < b) (near : b < a + size) :
    a % size ≠ b % size := by
  intro he
  have hd : size ∣ b - a := Nat.dvd_of_mod_eq_zero (Nat.sub_mod_eq_zero_of_mod_eq he.symm)
  exact absurd (Nat.le_of_dvd (by omega) hd) (by omega)

variable {α : Type}

/-- The values at the positions `lo`, ..., `lo + n - 1` of a circular memory of `size` cells. -/
def window (cells : Nat → α) (size lo n : Nat) : List α :=
  (List.range n).map fun k => cells ((lo + k) % size)

variable {cells : Nat → α} {size lo n m : Nat}

@[simp] theorem length_window : (window cells size lo n).length = n := by
  simp [window]

@[simp] theorem window_zero : window cells size lo 0 = [] := rfl

theorem window_add :
    window cells size lo (n + m) = window cells size lo n ++ window cells size (lo + n) m := by
  simp [window, List.range_add, Nat.add_assoc, Function.comp_def]

theorem window_succ :
    window cells size lo (n + 1) = window cells size lo n ++ [cells ((lo + n) % size)] := by
  rw [window_add]
  simp [window]

theorem window_split (h : m ≤ n) :
    window cells size lo n = window cells size lo m ++ window cells size (lo + m) (n - m) := by
  rw [← window_add]
  congr 1
  omega

/-- A write to another position of the same turn of the memory is not seen through a window. -/
theorem window_update (base : Nat) {p : Nat} {v : α} (hlo : base ≤ lo) (hhi : lo + n ≤ base + size)
    (hb : base ≤ p) (hp : p < base + size) (out : p < lo ∨ lo + n ≤ p) :
    window (Function.update cells (p % size) v) size lo n = window cells size lo n := by
  refine List.map_congr_left fun k hk => ?_
  have hk := List.mem_range.mp hk
  refine Function.update_of_ne ?_ v cells
  rcases out with out | out
  · exact (mod_ne_of_near (by omega) (by omega)).symm
  · exact mod_ne_of_near (by omega) (by omega)

/-- A write just behind a window extends it. -/
theorem window_update_succ {v : α} (h : n < size) :
    window (Function.update cells ((lo + n) % size) v) size lo (n + 1) =
      window cells size lo n ++ [v] := by
  rw [window_succ, Function.update_self,
    window_update lo (by omega) (by omega) (by omega) (by omega) (by omega)]

end CircularWindow
