import Mathlib.Algebra.BigOperators.Group.Finset.Basic
import Mathlib.Algebra.Order.BigOperators.Group.Finset
import Mathlib.Data.List.Basic
import Mathlib.Data.List.Nodup
import Mathlib.Data.List.Perm.Subperm

/-! Totals over finitely many holders when one of them changes. -/
namespace AlNiCo.Library.Counting
open List

/-- One holder changes and the others keep what they have. -/
theorem sum_range_replace {n c : Nat} (hc : c < n) {f g : Nat → Nat} (hother : ∀ d, d ≠ c → g d = f d) :
    (∑ d ∈ Finset.range n, g d)+f c = (∑ d ∈ Finset.range n, f d)+g c := by
  have hmem : c ∈ Finset.range n := Finset.mem_range.mpr hc
  have hrest : ∑ d ∈ (Finset.range n).erase c, g d = ∑ d ∈ (Finset.range n).erase c, f d :=
    Finset.sum_congr rfl (fun d hd => hother d (Finset.ne_of_mem_erase hd))
  rw [← Finset.add_sum_erase _ g hmem,← Finset.add_sum_erase _ f hmem,hrest]
  omega

/-- One holder gains `k` and the others keep what they have. -/
theorem sum_range_gain {n c k : Nat} (hc : c < n) {f g : Nat → Nat} (hother : ∀ d, d ≠ c → g d = f d)
    (hself : g c = f c+k) : ∑ d ∈ Finset.range n, g d = (∑ d ∈ Finset.range n, f d)+k := by
  have hreplace := sum_range_replace hc hother
  omega

def tally (n : Nat) (p : Nat → Bool) : Nat := ∑ g ∈ Finset.range n, (p g).toNat

theorem tally_le (n : Nat) (p : Nat → Bool) : tally n p ≤ n := by
  have hle := Finset.sum_le_card_nsmul (Finset.range n) (fun g => (p g).toNat) 1 (fun g _ => Bool.toNat_le (p g))
  simpa [tally] using hle

theorem toNat_le_tally {n g} (hg : g < n) (p : Nat → Bool) : (p g).toNat ≤ tally n p :=
  Finset.single_le_sum (f := fun g => (p g).toNat) (fun _ _ => Nat.zero_le _) (Finset.mem_range.mpr hg)

theorem tally_replace {n g : Nat} (hg : g < n) {p p' : Nat → Bool} (hother : ∀ x, x ≠ g → p' x = p x) :
    tally n p'+(p g).toNat = tally n p+(p' g).toNat :=
  sum_range_replace hg (fun x hx => congrArg Bool.toNat (hother x hx))

/-- A list without repetitions below `n` has at most `n` elements. -/
theorem length_le_of_count {l : List Nat} {n : Nat} (hlt : ∀ g ∈ l, g < n) (hcount : ∀ g < n, l.count g ≤ 1) : l.Nodup ∧ l.length ≤ n := by
  have hnodup : l.Nodup := by
    rw [nodup_iff_count_le_one]
    intro g
    by_cases hg : g ∈ l
    · exact hcount g (hlt g hg)
    · simp [count_eq_zero_of_not_mem hg]
  have hsub : l ⊆ List.range n := fun g hg => mem_range.mpr (hlt g hg)
  exact ⟨hnodup,by simpa using (hnodup.subperm hsub).length_le⟩

/-- A list with at most `b` elements in each of `n` classes. -/
theorem length_le_of_classes {α : Type*} {l : List α} {f : α → Nat} {n b : Nat} (hlt : ∀ x ∈ l, f x < n)
    (hclass : ∀ t < n, l.countP (fun x => f x == t) ≤ b) : l.length ≤ b*n := by
  induction n generalizing l with
  | zero =>
    have hnil : l = [] := eq_nil_iff_forall_not_mem.mpr (fun x hx => absurd (hlt x hx) (Nat.not_lt_zero _))
    simp [hnil]
  | succ n ih =>
    have hrest : (l.filter (fun x => !(f x == n))).length ≤ b*n := by
      refine ih (fun x hx => ?_) (fun t ht => ?_)
      · obtain ⟨hmem,hne⟩ := mem_filter.mp hx
        have hbound := hlt x hmem
        simp at hne
        omega
      · refine le_trans ?_ (hclass t (by omega))
        exact (filter_sublist (p := fun x => !(f x == n))).countP_le
    have hsplit := length_eq_countP_add_countP (fun x => f x == n) (l := l)
    rw [← countP_eq_length_filter] at hrest
    have hlast := hclass n (by omega)
    have hmul : b*(n+1) = b*n+b := Nat.mul_succ b n
    have hnot : l.countP (fun x => !(f x == n)) = l.countP (fun x => decide ¬ (f x == n) = true) :=
      countP_congr (fun x _ => by simp)
    omega

end AlNiCo.Library.Counting
