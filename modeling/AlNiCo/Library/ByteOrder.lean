import Mathlib.Algebra.Group.Nat.Defs

/-! Byte strings in the order of `memcmp`, and the numbers that their first bytes make. -/
namespace AlNiCo.Library.ByteOrder
open List

/-- The bytes that both have, as unsigned numbers. -/
def memcmp : List (BitVec 8) → List (BitVec 8) → Ordering
  | x :: a,y :: b => (compare x.toNat y.toNat).then (memcmp a b)
  | _,_ => .eq

def strcmp (a b : List (BitVec 8)) : Ordering := (memcmp a b).then (compare a.length b.length)

/-- The first `n` bytes with the first one on top, and zeros for those that are missing. -/
def front : Nat → List (BitVec 8) → Nat
  | n+1,x :: a => x.toNat*256^n+front n a
  | _,_ => 0

variable {a b : List (BitVec 8)} {n : Nat}

theorem front_lt (n : Nat) (a : List (BitVec 8)) : front n a < 256^n := by
  induction n generalizing a with
  | zero => exact Nat.one_pos
  | succ n ih =>
    cases a with
    | nil => exact Nat.pow_pos (by decide)
    | cons x a =>
      have hx : (x.toNat+1)*256^n ≤ 256*256^n := Nat.mul_le_mul_right _ x.isLt
      have ha := ih a
      rw [front,Nat.pow_succ]
      rw [Nat.add_mul,Nat.one_mul] at hx
      omega

/-- Two numbers in a digit and a rest. -/
theorem compare_digits {x y r t d : Nat} (hr : r < d) (ht : t < d) : compare (x*d+r) (y*d+t) = (compare x y).then (compare r t) := by
  rcases Nat.lt_trichotomy x y with hlt | rfl | hgt
  · have hle : (x+1)*d ≤ y*d := Nat.mul_le_mul_right d hlt
    rw [Nat.add_mul,Nat.one_mul] at hle
    rw [Nat.compare_eq_lt.mpr hlt,Nat.compare_eq_lt.mpr (by omega)]
    rfl
  · rw [Nat.compare_eq_eq.mpr rfl]
    rcases Nat.lt_trichotomy r t with h | rfl | h
    · rw [Nat.compare_eq_lt.mpr h,Nat.compare_eq_lt.mpr (by omega)]
      rfl
    · rw [Nat.compare_eq_eq.mpr rfl,Nat.compare_eq_eq.mpr rfl]
      rfl
    · rw [Nat.compare_eq_gt.mpr h,Nat.compare_eq_gt.mpr (by omega)]
      rfl
  · have hle : (y+1)*d ≤ x*d := Nat.mul_le_mul_right d hgt
    rw [Nat.add_mul,Nat.one_mul] at hle
    rw [Nat.compare_eq_gt.mpr hgt,Nat.compare_eq_gt.mpr (by omega)]
    rfl

theorem then_assoc (o o' o'' : Ordering) : (o.then o').then o'' = o.then (o'.then o'') := by
  cases o <;> rfl

theorem memcmp_append (h : a.length = b.length) (c d : List (BitVec 8)) : memcmp (a ++ c) (b ++ d) = (memcmp a b).then (memcmp c d) := by
  induction a generalizing b with
  | nil =>
    obtain rfl := length_eq_zero_iff.mp h.symm
    rfl
  | cons x a ih =>
    cases b with
    | nil => cases h
    | cons y b =>
      rw [cons_append,cons_append,memcmp,memcmp,ih (Nat.succ.inj h),then_assoc]

theorem memcmp_self (a : List (BitVec 8)) : memcmp a a = .eq := by
  induction a with
  | nil => rfl
  | cons x a ih => rw [memcmp,ih,Nat.compare_eq_eq.mpr rfl]; rfl

/-- Strings of one length are ordered as the numbers they make. -/
theorem memcmp_eq_compare (ha : a.length = n) (hb : b.length = n) : memcmp a b = compare (front n a) (front n b) := by
  induction n generalizing a b with
  | zero =>
    obtain rfl := length_eq_zero_iff.mp ha
    rfl
  | succ n ih =>
    cases a with
    | nil => cases ha
    | cons x a =>
      cases b with
      | nil => cases hb
      | cons y b =>
        rw [memcmp,front,front,compare_digits (front_lt n a) (front_lt n b),ih (Nat.succ.inj ha) (Nat.succ.inj hb)]

theorem strcmp_append_left (p a b : List (BitVec 8)) : strcmp (p ++ a) (p ++ b) = strcmp a b := by
  have hlength : compare (p ++ a).length (p ++ b).length = compare a.length b.length := by
    rw [length_append,length_append,Nat.compare_eq_ite_lt,Nat.compare_eq_ite_lt]
    simp only [Nat.add_lt_add_iff_left]
  rw [strcmp,strcmp,hlength,memcmp_append rfl,memcmp_self]
  rfl

theorem strcmp_of_front_lt (h : front n a < front n b) : strcmp b a = .gt := by
  induction n generalizing a b with
  | zero => exact absurd h (Nat.lt_irrefl _)
  | succ n ih =>
    cases b with
    | nil => exact absurd h (Nat.not_lt_zero _)
    | cons y b =>
      cases a with
      | nil => exact Nat.compare_eq_gt.mpr (Nat.succ_pos _)
      | cons x a =>
        have hcmp := Nat.compare_eq_gt.mpr h
        rw [front,front,compare_digits (front_lt n b) (front_lt n a)] at hcmp
        rcases Nat.lt_trichotomy x.toNat y.toNat with hlt | heq | hgt
        · rw [strcmp,memcmp,Nat.compare_eq_gt.mpr hlt]
          rfl
        · rw [heq,Nat.compare_eq_eq.mpr rfl] at hcmp
          have hrest := ih (Nat.compare_eq_gt.mp hcmp)
          have hsame : x = y := BitVec.eq_of_toNat_eq heq
          exact hsame ▸ (strcmp_append_left [x] b a).trans hrest
        · rw [Nat.compare_eq_lt.mpr hgt] at hcmp
          cases hcmp

end AlNiCo.Library.ByteOrder
