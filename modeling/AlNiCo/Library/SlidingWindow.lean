import Mathlib

/-! The last `k` elements of a growing list, and how often an element occurs in them. -/
namespace AlNiCo.Library.SlidingWindow
open List
variable {α : Type*}

def last (k : Nat) (l : List α) : List α := l.drop (l.length-k)

variable {k : Nat} {l : List α}

theorem length_last (k : Nat) (l : List α) : (last k l).length = min k l.length := by
  rw [last,length_drop]
  omega

theorem last_of_le (h : l.length ≤ k) : last k l = l := by
  rw [last,Nat.sub_eq_zero_of_le h,drop_zero]

/-- The window still grows. -/
theorem last_append_of_lt (h : l.length < k) (x : α) : last k (l ++ [x]) = last k l ++ [x] := by
  rw [last_of_le h.le,last_of_le (by simpa using h)]

/-- The window moves: its first element leaves when one arrives. -/
theorem last_append_of_le (hk : 0 < k) (h : k ≤ l.length) (x : α) : last k (l ++ [x]) = (last k l).tail ++ [x] := by
  have hlen : (l ++ [x]).length-k = l.length-k+1 := by
    rw [length_append,length_singleton]
    omega
  rw [last,last,hlen,drop_append_of_le_length (by omega),tail_drop]

theorem last_eq_cons (hk : 0 < k) (h : k ≤ l.length) : ∃ y rest, last k l = y :: rest := by
  apply exists_cons_of_length_pos
  rw [length_last]
  omega

section
variable [DecidableEq α]

theorem count_last_le (k : Nat) (l : List α) (f : α) : (last k l).count f ≤ k := by
  apply count_le_length.trans
  rw [length_last]
  exact min_le_left _ _

theorem count_last_append_of_lt (h : l.length < k) (x f : α) :
    (last k (l ++ [x])).count f = (last k l).count f+if x = f then 1 else 0 := by
  rw [last_append_of_lt h,count_append,count_singleton]
  simp

/-- A moving window gains the new element and loses the oldest. -/
theorem count_last_append_of_le (hk : 0 < k) (h : k ≤ l.length) {y rest} (hy : last k l = y :: rest) (x f : α) :
    (last k (l ++ [x])).count f+(if y = f then 1 else 0) = (last k l).count f+if x = f then 1 else 0 := by
  rw [last_append_of_le hk h,hy,tail_cons,count_append]
  simp only [count_cons,count_nil,beq_iff_eq]
  omega

end

end AlNiCo.Library.SlidingWindow
