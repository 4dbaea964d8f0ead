import Mathlib

/-! Fields of a machine word: runs of adjacent bits, and a word with one field taken from another. -/
namespace AlNiCo.Library.BitField
open BitVec
variable {w : Nat}

def mask (w lo n : Nat) : BitVec w := (BitVec.allOnes n).setWidth w <<< lo

theorem getLsbD_mask (lo n i : Nat) : (mask w lo n).getLsbD i = decide (i < w ∧ lo ≤ i ∧ i < lo+n) := by
  simp only [mask,getLsbD_shiftLeft,getLsbD_setWidth,getLsbD_allOnes]
  by_cases hw : i < w <;> by_cases hlo : lo ≤ i
  · have h : i-lo < w := by omega
    have hn : i-lo < n ↔ i < lo+n := by omega
    simp [hw,hlo,h,hn]
  all_goals simp [hw,hlo]

def merge (m u x : BitVec w) : BitVec w := (u &&& ~~~m) ||| (x &&& m)

theorem getLsbD_merge (m u x : BitVec w) (i : Nat) : (merge m u x).getLsbD i = if m.getLsbD i then x.getLsbD i else u.getLsbD i := by
  simp only [merge,getLsbD_or,getLsbD_and,getLsbD_not]
  by_cases hi : i < w
  · cases m.getLsbD i <;> simp [hi]
  · have h (y : BitVec w) : y.getLsbD i = false := getLsbD_of_ge y i (by omega)
    simp [h]

theorem merge_ushiftRight {lo n k} (hk : lo+n ≤ k) (u x : BitVec w) : merge (mask w lo n) u x >>> k = u >>> k := by
  apply eq_of_getLsbD_eq
  intro i _
  have hi : ¬ k+i < lo+n := by omega
  simp [getLsbD_merge,getLsbD_mask,hi]

theorem merge_setWidth {lo n k} (hk : k ≤ lo) (u x : BitVec w) : (merge (mask w lo n) u x).setWidth k = u.setWidth k := by
  apply eq_of_getLsbD_eq
  intro i hi
  have h : ¬ lo ≤ i := by omega
  simp [getLsbD_merge,getLsbD_mask,h]

theorem merge_and (m u x : BitVec w) : merge m u x &&& m = x &&& m := by
  apply eq_of_getLsbD_eq
  intro i _
  rw [getLsbD_and,getLsbD_and,getLsbD_merge]
  cases m.getLsbD i <;> simp

theorem toNat_field (lo n : Nat) (hw : lo+n ≤ w) (u : BitVec w) : ((u &&& mask w lo n) >>> lo).toNat = u.toNat / 2^lo % 2^n := by
  apply Nat.eq_of_testBit_eq
  intro i
  rw [testBit_toNat,getLsbD_ushiftRight,getLsbD_and,getLsbD_mask,
    Nat.testBit_mod_two_pow,Nat.testBit_div_two_pow,testBit_toNat,Nat.add_comm i lo]
  by_cases hi : i < n
  · have h : lo+i < w := by omega
    simp [hi,h]
  · simp [hi]

end AlNiCo.Library.BitField
