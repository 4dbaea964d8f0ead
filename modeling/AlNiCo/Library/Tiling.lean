import Mathlib.Data.List.Range
import Mathlib.Order.Monotone.Basic

/-! The blocks between the points of a rising sequence of cuts. -/
namespace AlNiCo.Library.Tiling
open List
variable {c : Nat → Nat}

def block (c : Nat → Nat) (i : Nat) : List Nat := List.range' (c i) (c (i+1)-c i)

theorem mem_block {i k} : k ∈ block c i ↔ c i ≤ k ∧ k < c (i+1) := by
  rw [block,mem_range'_1]
  omega

/-- The first blocks, one after the other, count up to the cut behind them. -/
theorem flatMap_block (hc : Monotone c) (hzero : c 0 = 0) (n : Nat) : (range n).flatMap (block c) = range (c n) := by
  induction n with
  | zero => rw [hzero]; rfl
  | succ n ih =>
    have hlast : range (c n) ++ block c n = range (c n+(c (n+1)-c n)) := by
      rw [block,range_eq_range',range_eq_range',← range'_append_1,Nat.zero_add]
    have hle := hc (Nat.le_add_right n 1)
    rw [range_succ,flatMap_append,ih,flatMap_singleton,hlast,Nat.add_sub_cancel' hle]

theorem block_disjoint (hc : Monotone c) {i j} (hij : i ≠ j) : List.Disjoint (block c i) (block c j) := by
  intro k hi hj
  rw [mem_block] at hi hj
  rcases Nat.lt_or_gt_of_ne hij with hlt | hgt
  · have hle := hc (show i+1 ≤ j from hlt)
    omega
  · have hle := hc (show j+1 ≤ i from hgt)
    omega

end AlNiCo.Library.Tiling
