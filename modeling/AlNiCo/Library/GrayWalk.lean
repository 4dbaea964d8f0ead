import Mathlib.Algebra.BigOperators.Group.Finset.Basic
import Mathlib.Algebra.BigOperators.Intervals
import Mathlib.Data.Nat.Bitwise

/-! Binary-reflected Gray codes, and tables of subset sums filled along their
walk. Values live in any additive group, so the width of an accumulator is a
choice of the caller. -/
namespace AlNiCo.Library.GrayWalk

def gray (n : Nat) : Nat := n ^^^ (n >>> 1)

/-- The sum of the weights of the bits set in `b`, over the low `width` bits. -/
def subsetSum {α : Type*} [AddCommMonoid α] (w : Nat → α) (width b : Nat) : α :=
  ∑ i ∈ Finset.range width, if b.testBit i then w i else 0

section Codes

@[simp] theorem gray_zero : gray 0 = 0 := rfl

theorem testBit_gray (n i : Nat) : (gray n).testBit i = (n.testBit i ^^ n.testBit (i+1)) := by
  rw [gray,Nat.testBit_xor,Nat.testBit_shiftRight,Nat.add_comm 1 i]

private theorem xor_succ (n : Nat) : ∃ k, n ^^^ (n+1) = 2^(k+1)-1 := by
  induction n using Nat.strongRecOn with
  | _ n ih =>
    rcases Nat.even_or_odd' n with ⟨m,rfl | rfl⟩
    · refine ⟨0,?_⟩
      apply Nat.eq_of_testBit_eq
      intro i
      cases i with
      | zero => simp [Nat.testBit_zero]
      | succ i =>
        have hleft : 2*m / 2 = m := by omega
        have hright : (2*m+1) / 2 = m := by omega
        rw [Nat.testBit_xor,Nat.testBit_succ,Nat.testBit_succ,hleft,hright]
        simp [Nat.testBit_succ]
    · obtain ⟨k,hk⟩ := ih m (by omega)
      refine ⟨k+1,?_⟩
      apply Nat.eq_of_testBit_eq
      intro i
      cases i with
      | zero =>
        have hodd : (2^(k+1+1)-1) % 2 = 1 := by
          have := Nat.one_le_two_pow (n := k+1)
          rw [Nat.pow_succ]
          omega
        simp [Nat.testBit_zero,hodd,Nat.add_mod]
      | succ i =>
        have hleft : (2*m+1) / 2 = m := by omega
        have hright : (2*m+1+1) / 2 = m+1 := by omega
        have hpow : (2^(k+1+1)-1) / 2 = 2^(k+1)-1 := by
          have := Nat.one_le_two_pow (n := k+1)
          rw [Nat.pow_succ 2 (k+1)]
          omega
        rw [Nat.testBit_xor,Nat.testBit_succ,Nat.testBit_succ,hleft,hright,← Nat.testBit_xor,hk,Nat.testBit_succ,hpow]

theorem gray_succ_xor (n : Nat) : ∃ i, gray (n+1) ^^^ gray n = 2^i := by
  obtain ⟨k,hk⟩ := xor_succ n
  refine ⟨k,?_⟩
  apply Nat.eq_of_testBit_eq
  intro i
  have hbit (j : Nat) : (n.testBit j ^^ (n+1).testBit j) = decide (j < k+1) := by
    rw [← Nat.testBit_xor,hk,Nat.testBit_two_pow_sub_one]
  have hi := hbit i
  have hj := hbit (i+1)
  rw [Nat.testBit_xor,testBit_gray,testBit_gray,Nat.testBit_two_pow]
  have hsplit : ((n+1).testBit i ^^ (n+1).testBit (i+1) ^^ (n.testBit i ^^ n.testBit (i+1))) =
      ((n.testBit i ^^ (n+1).testBit i) ^^ (n.testBit (i+1) ^^ (n+1).testBit (i+1))) := by
    cases n.testBit i <;> cases (n+1).testBit i <;> cases n.testBit (i+1) <;>
      cases (n+1).testBit (i+1) <;> rfl
  rw [hsplit,hi,hj]
  by_cases h : k = i
  · subst h; simp
  · by_cases hlt : i < k
    · simp [h,show i < k+1 by omega,hlt]
    · simp [h,show ¬ i < k+1 by omega,hlt]

theorem gray_lt {n width : Nat} (h : n < 2^width) : gray n < 2^width :=
  Nat.xor_lt_two_pow h (Nat.lt_of_le_of_lt (Nat.shiftRight_le n 1) h)

/-- The changed bit stays below the width of the walk. -/
theorem gray_succ_bit_lt {n width i : Nat} (h : n+1 < 2^width) (hi : gray (n+1) ^^^ gray n = 2^i) : i < width := by
  have hlt : 2^i < 2^width := hi ▸ Nat.xor_lt_two_pow (gray_lt h) (gray_lt (by omega))
  exact (Nat.pow_lt_pow_iff_right (by omega)).mp hlt

/-- Flipping a clear bit increases a number, flipping a set bit decreases it. -/
theorem lt_of_xor_two_pow {a b i : Nat} (h : b ^^^ a = 2^i) : a < b ↔ a.testBit i = false := by
  have hother (j : Nat) (hj : j ≠ i) : a.testBit j = b.testBit j := by
    have hx := congrArg (fun x => x.testBit j) h
    simp only [Nat.testBit_xor,Nat.testBit_two_pow] at hx
    have hne : ¬ i = j := fun he => hj he.symm
    simp only [hne,decide_false] at hx
    cases ha : a.testBit j <;> cases hb : b.testBit j <;> simp_all
  have hflip : b.testBit i = !a.testBit i := by
    have hx := congrArg (fun x => x.testBit i) h
    simp only [Nat.testBit_xor,Nat.testBit_two_pow,decide_true] at hx
    cases ha : a.testBit i <;> cases hb : b.testBit i <;> simp_all
  constructor
  · intro hlt
    by_contra hset
    rw [Bool.not_eq_false] at hset
    rw [hset] at hflip
    exact Nat.lt_asymm hlt (Nat.lt_of_testBit i hflip hset (fun j hj => (hother j (by omega)).symm))
  · intro hclear
    rw [hclear] at hflip
    exact Nat.lt_of_testBit i hclear hflip (fun j hj => hother j (by omega))

/-- Inverse of the code on `width` bits: the prefix parity of the code. -/
def ungray : Nat → Nat → Nat
  | 0, _ => 0
  | width+1, b => b ^^^ ungray width (b >>> 1)

theorem ungray_lt {width b : Nat} (h : b < 2^width) : ungray width b < 2^width := by
  induction width generalizing b with
  | zero => simp [ungray]
  | succ width ih =>
    have hs : b >>> 1 < 2^width := by
      rw [Nat.shiftRight_eq_div_pow,pow_one]
      rw [Nat.pow_succ] at h
      omega
    exact Nat.xor_lt_two_pow h (Nat.lt_of_lt_of_le (ih hs) (Nat.pow_le_pow_right (by omega) (by omega)))

/-- Every number below `2^width` is visited by the walk. -/
theorem gray_ungray {width b : Nat} (h : b < 2^width) : gray (ungray width b) = b := by
  induction width generalizing b with
  | zero => simp_all [ungray]
  | succ width ih =>
    have hs : b >>> 1 < 2^width := by
      rw [Nat.shiftRight_eq_div_pow,pow_one]
      rw [Nat.pow_succ] at h
      omega
    have hr := ih hs
    rw [ungray,gray,Nat.shiftRight_xor_distrib]
    rw [gray] at hr
    calc
      _ = b ^^^ (ungray width (b >>> 1) ^^^ ungray width (b >>> 1) >>> 1) ^^^ b >>> 1 := by
        simp only [Nat.xor_assoc,Nat.xor_comm (b >>> 1)]
      _ = b := by rw [hr,Nat.xor_assoc,Nat.xor_self,Nat.xor_zero]

end Codes

/-- The last iteration of a loop over the codes from one. -/
theorem foldl_from_one_succ {σ} (f : σ → Nat → σ) (s : σ) (k : Nat) :
    (List.range' 1 (k+1)).foldl f s = f ((List.range' 1 k).foldl f s) (k+1) := by
  rw [List.range'_1_concat,List.foldl_append,Nat.add_comm 1 k,List.foldl_cons,List.foldl_nil]

section
variable {α : Type*}

@[simp] theorem subsetSum_zero [AddCommMonoid α] (w : Nat → α) (width : Nat) : subsetSum w width 0 = 0 := by
  simp [subsetSum]

theorem map_subsetSum {β} [AddCommMonoid α] [AddCommMonoid β] (f : α →+ β) (w : Nat → α)
    (width b : Nat) : f (subsetSum w width b) = subsetSum (fun i => f (w i)) width b := by
  rw [subsetSum,subsetSum,map_sum]
  exact Finset.sum_congr rfl (fun i _ => by split <;> simp)

theorem subsetSum_insert [AddCommMonoid α] (w : Nat → α) {width a b i : Nat} (hi : i < width)
    (h : b ^^^ a = 2^i) (hclear : a.testBit i = false) :
    subsetSum w width b = subsetSum w width a + w i := by
  have hb (j : Nat) : b.testBit j = (a.testBit j || decide (i = j)) := by
    have hx := congrArg (fun x => x.testBit j) h
    simp only [Nat.testBit_xor,Nat.testBit_two_pow] at hx
    by_cases hj : i = j
    · subst hj
      cases hb : b.testBit i <;> simp_all
    · cases ha : a.testBit j <;> cases hb : b.testBit j <;> simp_all
  have hsplit (j : Nat) : (if b.testBit j then w j else 0) = (if a.testBit j then w j else 0) + if i = j then w j else 0 := by
    rw [hb j]
    by_cases hj : i = j
    · subst hj; simp [hclear]
    · simp [hj]
  rw [subsetSum,Finset.sum_congr rfl (fun j _ => hsplit j),Finset.sum_add_distrib]
  simp [subsetSum,hi]

/-- Where the codes shrink the walk drops a bit that is set. -/
theorem subsetSum_gray_shrink [AddCommMonoid α] (w : Nat → α) {width n i : Nat}
    (hn : n+1 < 2^width) (hi : gray (n+1) ^^^ gray n = 2^i) (hge : ¬ gray n < gray (n+1)) :
    subsetSum w width (gray n) = subsetSum w width (gray (n+1)) + w i := by
  have hset : (gray n).testBit i = true := by
    rw [lt_of_xor_two_pow hi,Bool.not_eq_false] at hge
    exact hge
  have hclear : (gray (n+1)).testBit i = false := by
    have hx := congrArg (fun x => x.testBit i) hi
    simp only [Nat.testBit_xor,hset,Nat.testBit_two_pow,decide_true] at hx
    cases h : (gray (n+1)).testBit i <;> simp_all
  have hback : gray n ^^^ gray (n+1) = 2^i := by rw [Nat.xor_comm,hi]
  exact subsetSum_insert w (gray_succ_bit_lt hn hi) hback hclear

/-- The rule of the walk: the sum at the next code is the sum at this one plus
or minus the weight of the changed bit, as the codes grow or shrink. -/
theorem subsetSum_gray_succ [AddCommGroup α] (w : Nat → α) {width n i : Nat} (hn : n+1 < 2^width) (hi : gray (n+1) ^^^ gray n = 2^i) :
    subsetSum w width (gray (n+1)) = if gray n < gray (n+1) then subsetSum w width (gray n) + w i
      else subsetSum w width (gray n) - w i := by
  split
  · rename_i hlt
    exact subsetSum_insert w (gray_succ_bit_lt hn hi) hi ((lt_of_xor_two_pow hi).mp hlt)
  · rename_i hge
    rw [subsetSum_gray_shrink w hn hi hge,add_sub_cancel_right]

end

end AlNiCo.Library.GrayWalk
