import Mathlib

/-! Machine arithmetic that stops at an operation whose result has no room, or that divides by
zero: a computation that comes through is the one in unbounded numbers. -/
namespace AlNiCo.Library.CheckedArithmetic
variable {w n d : Nat}

def fits (w n : Nat) : Option Nat := if n < 2^w then some n else none

def quot (n d : Nat) : Option Nat := if d = 0 then none else some (n/d)

def rem (n d : Nat) : Option Nat := if d = 0 then none else some (n % d)

def minus (n d : Nat) : Option Nat := if n < d then none else some (n-d)

theorem fits_of_lt (h : n < 2^w) : fits w n = some n := if_pos h

theorem fits_bind {α} (h : n < 2^w) (f : Nat → Option α) : (fits w n).bind f = f n := by
  rw [fits_of_lt h,Option.bind_some]

theorem quot_of_pos (h : 0 < d) : quot n d = some (n/d) := if_neg h.ne'

theorem rem_of_pos (h : 0 < d) : rem n d = some (n % d) := if_neg h.ne'

theorem minus_of_le (h : d ≤ n) : minus n d = some (n-d) := if_neg (by omega)

/-- Digits `a` and `b` in steps of `n` on a ring of `m` places: with `b` known, the place gives `a`
if all steps fit on the ring. -/
theorem digit_injective {m a a' b lo hi} (hn : 0 < n) (ha : lo ≤ a ∧ a ≤ hi) (ha' : lo ≤ a' ∧ a' ≤ hi)
    (hroom : (hi-lo)*n < m) (h : (a*n+b % n) % m = (a'*n+b % n) % m) : a = a' := by
  have hstep {x y : Nat} (hx : x ≤ hi) (hy : lo ≤ y) : x*n < y*n+m := by
    have hle : x*n ≤ (y+(hi-lo))*n := Nat.mul_le_mul_right n (by omega)
    rw [Nat.add_mul] at hle
    omega
  have hone := hstep ha.2 ha'.1
  have htwo := hstep ha'.2 ha.1
  have hsum := Nat.ModEq.eq_of_abs_lt h (abs_lt.mpr ⟨by push_cast; omega,by push_cast; omega⟩)
  exact Nat.eq_of_mul_eq_mul_right hn (by omega)

end AlNiCo.Library.CheckedArithmetic
