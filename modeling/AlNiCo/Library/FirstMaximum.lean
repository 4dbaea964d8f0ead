import Mathlib.Data.List.Basic
import Mathlib.Order.Lattice

/-! The lowest position of the largest positive score, with a fallback for the
case that every score is zero, and the loop that finds it. -/
namespace AlNiCo.Library.FirstMaximum

/-- `t` is the lowest position below `n` of the largest score, which is positive. -/
structure IsFirst (score : Nat → Nat) (n t : Nat) : Prop where
  lt : t < n
  pos : 0 < score t
  le : ∀ u < n, score u ≤ score t
  first : ∀ u < t, score u < score t

/-- `r` is the first maximum below `n`, or the fallback when every score is zero. -/
def Chosen (score : Nat → Nat) (n fallback r : Nat) : Prop :=
  IsFirst score n r ∨ ((∀ t < n, score t = 0) ∧ r = fallback)

theorem IsFirst.unique {score n t u} (ht : IsFirst score n t) (hu : IsFirst score n u) : t = u := by
  rcases Nat.lt_trichotomy t u with h | h | h
  · exact absurd (hu.first t h) (Nat.not_lt.mpr (ht.le u hu.lt))
  · exact h
  · exact absurd (ht.first u h) (Nat.not_lt.mpr (hu.le t ht.lt))

theorem Chosen.unique {score n fallback r s} (hr : Chosen score n fallback r) (hs : Chosen score n fallback s) : r = s := by
  rcases hr with hr | ⟨hz,rfl⟩ <;> rcases hs with hs | ⟨hz',rfl⟩
  · exact hr.unique hs
  · exact absurd (hz' r hr.lt) (Nat.pos_iff_ne_zero.mp hr.pos)
  · exact absurd (hz s hs.lt) (Nat.pos_iff_ne_zero.mp hs.pos)
  · rfl

theorem Chosen.le {score n fallback r u} (hr : Chosen score n fallback r) (hu : u < n) : score u ≤ score r := by
  rcases hr with hr | ⟨hz,_⟩
  · exact hr.le u hu
  · exact hz u hu ▸ Nat.zero_le _

theorem Chosen.congr {score other n fallback r} (h : ∀ t < n, score t = other t) (hr : Chosen score n fallback r) :
    Chosen other n fallback r := by
  rcases hr with hr | ⟨hz,rfl⟩
  · refine .inl ⟨hr.lt,?_,?_,?_⟩
    · exact h r hr.lt ▸ hr.pos
    · intro u hu
      rw [← h u hu,← h r hr.lt]
      exact hr.le u hu
    · intro u hu
      rw [← h u (hu.trans hr.lt),← h r hr.lt]
      exact hr.first u hu
  · exact .inr ⟨fun t ht => h t ht ▸ hz t ht,rfl⟩

/-- One comparison of the loop; the pair holds the best score and its position. -/
def improve (score : Nat → Nat) (best : Nat × Nat) (t : Nat) : Nat × Nat :=
  if best.1 < score t then (score t,t) else best

def scan (score : Nat → Nat) (n fallback : Nat) : Nat × Nat :=
  (List.range n).foldl (improve score) (0,fallback)

variable (score : Nat → Nat)

theorem scan_succ (n fallback : Nat) : scan score (n+1) fallback = improve score (scan score n fallback) n := by
  simp [scan,List.range_succ]

private theorem scan_spec (n fallback : Nat) : (scan score n fallback = (0,fallback) ∧ ∀ t < n, score t = 0) ∨
      (IsFirst score n (scan score n fallback).2 ∧ (scan score n fallback).1 = score (scan score n fallback).2) := by
  induction n with
  | zero => exact .inl ⟨rfl,by simp⟩
  | succ n ih =>
    rw [scan_succ,improve]
    rcases ih with ⟨he,hz⟩ | ⟨hf,hs⟩
    · rw [he]
      by_cases hp : 0 < score n
      · rw [if_pos hp]
        refine .inr ⟨⟨by simp,hp,?_,?_⟩,rfl⟩
        · intro u hu
          rcases Nat.lt_succ_iff_lt_or_eq.mp hu with hu | rfl
          · simp [hz u hu]
          · exact Nat.le_refl _
        · intro u hu
          simpa [hz u hu] using hp
      · rw [if_neg hp]
        refine .inl ⟨rfl,?_⟩
        intro t ht
        rcases Nat.lt_succ_iff_lt_or_eq.mp ht with ht | rfl
        · exact hz t ht
        · exact Nat.eq_zero_of_not_pos hp
    · right
      split
      · rename_i hp
        rw [hs] at hp
        refine ⟨⟨by simp,Nat.zero_lt_of_lt hp,?_,?_⟩,rfl⟩
        · intro u hu
          rcases Nat.lt_succ_iff_lt_or_eq.mp hu with hu | rfl
          · exact (hf.le u hu).trans hp.le
          · exact Nat.le_refl _
        · intro u hu
          exact Nat.lt_of_le_of_lt (hf.le u hu) hp
      · rename_i hp
        rw [hs] at hp
        refine ⟨⟨Nat.lt_succ_of_lt hf.lt,hf.pos,?_,hf.first⟩,hs⟩
        intro u hu
        rcases Nat.lt_succ_iff_lt_or_eq.mp hu with hu | rfl
        · exact hf.le u hu
        · exact Nat.not_lt.mp hp

/-- The loop returns the first maximum, or the fallback on all-zero scores. -/
theorem scan_chosen (n fallback : Nat) : Chosen score n fallback (scan score n fallback).2 := by
  rcases scan_spec score n fallback with ⟨he,hz⟩ | ⟨hf,_⟩
  · exact .inr ⟨hz,by rw [he]⟩
  · exact .inl hf

/-- The best score kept by the loop is one of the scores, or zero. -/
theorem scan_score_le (n fallback bound : Nat) (h : ∀ t < n, score t ≤ bound) : (scan score n fallback).1 ≤ bound := by
  rcases scan_spec score n fallback with ⟨he,_⟩ | ⟨hf,hs⟩
  · simp [he]
  · exact hs ▸ h _ hf.lt

end AlNiCo.Library.FirstMaximum
