import Mathlib

/-! The place of an element in a sorted list without repetitions: the number of elements
that come before it. -/
namespace AlNiCo.Library.Ranking
open List
variable {α : Type*} [LinearOrder α] {l : List α} {x y : α}

def rank (l : List α) (x : α) : Nat := l.countP (· < x)

theorem rank_lt_rank (hx : x ∈ l) (hxy : x < y) : rank l x < rank l y := by
  induction l with
  | nil => cases hx
  | cons a l ih =>
    simp only [rank,countP_cons,decide_eq_true_eq] at ih ⊢
    have hmono : l.countP (· < x) ≤ l.countP (· < y) := by
      apply countP_mono_left
      intro z _ hz
      exact decide_eq_true ((of_decide_eq_true hz).trans hxy)
    rcases mem_cons.mp hx with rfl | hx
    · rw [if_neg (lt_irrefl _),if_pos hxy]
      omega
    · have hlt := ih hx
      by_cases hax : a < x
      · rw [if_pos hax,if_pos (hax.trans hxy)]
        omega
      · rw [if_neg hax]
        omega

theorem rank_lt_iff (hx : x ∈ l) (hy : y ∈ l) : rank l x < rank l y ↔ x < y := by
  refine ⟨fun h => ?_,rank_lt_rank hx⟩
  by_contra hle
  rcases (not_lt.mp hle).lt_or_eq with hlt | rfl
  · exact absurd (rank_lt_rank hy hlt) (by omega)
  · exact lt_irrefl _ h

theorem rank_injOn (hx : x ∈ l) (hy : y ∈ l) (h : rank l x = rank l y) : x = y := by
  rcases lt_trichotomy x y with hlt | rfl | hlt
  · exact absurd (rank_lt_rank hx hlt) (by omega)
  · rfl
  · exact absurd (rank_lt_rank hy hlt) (by omega)

private theorem getElem?_of_pairwise (h : l.Pairwise (· < ·)) (k : Nat) : l[k]? = some x ↔ x ∈ l ∧ rank l x = k := by
  induction l generalizing k with
  | nil => simp
  | cons a l ih =>
    obtain ⟨hhead,htail⟩ := pairwise_cons.mp h
    have hrank (z : α) (hz : z ∈ l) : rank (a :: l) z = rank l z+1 := by
      rw [rank,countP_cons,if_pos (decide_eq_true (hhead z hz)),rank]
    have hfirst : rank (a :: l) a = 0 := by
      rw [rank,countP_eq_zero]
      intro z hz hlt
      rcases mem_cons.mp hz with rfl | hz
      · exact lt_irrefl _ (of_decide_eq_true hlt)
      · exact lt_asymm (hhead z hz) (of_decide_eq_true hlt)
    cases k with
    | zero =>
      rw [getElem?_cons_zero,Option.some.injEq]
      constructor
      · rintro rfl
        exact ⟨mem_cons_self,hfirst⟩
      · rintro ⟨hx,hzero⟩
        rcases mem_cons.mp hx with rfl | hx
        · rfl
        · rw [hrank x hx] at hzero
          omega
    | succ k =>
      rw [getElem?_cons_succ,ih htail]
      constructor
      · rintro ⟨hx,rfl⟩
        exact ⟨mem_cons_of_mem _ hx,hrank x hx⟩
      · rintro ⟨hx,hk⟩
        rcases mem_cons.mp hx with rfl | hx
        · omega
        · rw [hrank x hx] at hk
          exact ⟨hx,by omega⟩

/-- The sorted list has each element at its rank. -/
theorem getElem?_insertionSort (h : l.Nodup) (k : Nat) : (l.insertionSort (· ≤ ·))[k]? = some x ↔ x ∈ l ∧ rank l x = k := by
  have hperm := perm_insertionSort (· ≤ ·) l
  have hlt : (l.insertionSort (· ≤ ·)).Pairwise (· < ·) :=
    ((pairwise_insertionSort (· ≤ ·) l).and (hperm.nodup_iff.mpr h)).imp
      (fun {a b} hab => lt_of_le_of_ne hab.1 hab.2)
  rw [getElem?_of_pairwise hlt,hperm.mem_iff,rank,hperm.countP_eq,rank]

theorem exists_rank (h : l.Nodup) {k} (hk : k < l.length) : ∃ x ∈ l, rank l x = k := by
  have hlen : k < (l.insertionSort (· ≤ ·)).length := by rwa [length_insertionSort]
  exact ⟨_,(getElem?_insertionSort h k).mp (getElem?_eq_getElem hlen)⟩

end AlNiCo.Library.Ranking
