import Mathlib

/-! A log whose entries of one kind are counted by a version: what a recorded version
says about the entries that came after it was recorded. -/
namespace AlNiCo.Library.VersionedLog
open List

variable {α : Type*} {first : Nat} {p : α → Bool} {l : List α}

/-- The version when the first `n` entries are in the log. -/
def versionAt (first : Nat) (p : α → Bool) (l : List α) (n : Nat) : Nat := first+(l.take n).countP p

def version (first : Nat) (p : α → Bool) (l : List α) : Nat := first+l.countP p

theorem versionAt_length : versionAt first p l l.length = version first p l := by
  rw [versionAt,version,take_length]

theorem versionAt_append {n} (h : n ≤ l.length) (l' : List α) : versionAt first p (l ++ l') n = versionAt first p l n := by
  rw [versionAt,versionAt,take_append_of_le_length h]

theorem versionAt_mono {m n} (h : m ≤ n) : versionAt first p l m ≤ versionAt first p l n :=
  Nat.add_le_add_left (List.Sublist.countP_le (take_sublist_take_left h)) first

/-- An entry of the kind moves the version past the one it was appended at. -/
theorem versionAt_lt {i n a} (hget : l[i]? = some a) (hp : p a = true) (h : i < n) : versionAt first p l i < versionAt first p l n := by
  have hsucc : versionAt first p l (i+1) = versionAt first p l i+1 := by
    rw [versionAt,versionAt,take_add_one,hget,Option.toList_some,countP_append,countP_singleton,if_pos hp,Nat.add_assoc]
  exact Nat.lt_of_lt_of_le (hsucc ▸ Nat.lt_succ_self _) (versionAt_mono h)

theorem version_append (a : α) : version first p (l ++ [a]) = version first p l+(if p a then 1 else 0) := by
  rw [version,version,countP_append,countP_singleton,Nat.add_assoc]

/-- The entry that was appended at the version of a log is the next one. -/
theorem eq_of_versionAt_eq {a b i} (hget : (l ++ [a])[i]? = some b) (hp : p b = true)
    (h : versionAt first p (l ++ [a]) i = version first p l) : b = a := by
  rcases Nat.lt_or_ge i l.length with hi | hi
  · have hlt : versionAt first p (l ++ [a]) i < versionAt first p (l ++ [a]) l.length := versionAt_lt hget hp hi
    rw [versionAt_append le_rfl,versionAt_length,h] at hlt
    exact absurd hlt (Nat.lt_irrefl _)
  · rw [getElem?_append_right hi] at hget
    exact (mem_singleton.mp (mem_of_getElem? hget))

/-- From position `n` on, the entries of the kind that version `v` counts satisfy `q`. -/
def UpTo (first : Nat) (p : α → Bool) (q : α → Prop) (l : List α) (n v : Nat) : Prop :=
  ∀ i a, l[i]? = some a → p a = true → n ≤ i → versionAt first p l i < v → q a

namespace UpTo
variable {q : α → Prop} {n v : Nat}

/-- A version that was recorded before counts nothing that came after. -/
theorem of_le (h : v ≤ versionAt first p l n) : UpTo first p q l n v := by
  intro i a _ _ hi hlt
  exact absurd (Nat.lt_of_lt_of_le hlt (h.trans (versionAt_mono hi))) (Nat.lt_irrefl _)

/-- What is appended is not counted by a version of the log before. -/
theorem append (h : UpTo first p q l n v) (hv : v ≤ version first p l) (l' : List α) : UpTo first p q (l ++ l') n v := by
  intro i a hget hp hi hlt
  rcases Nat.lt_or_ge i l.length with hlen | hlen
  · rw [getElem?_append_left hlen] at hget
    rw [versionAt_append hlen.le] at hlt
    exact h i a hget hp hi hlt
  · have hle : versionAt first p (l ++ l') l.length ≤ versionAt first p (l ++ l') i := versionAt_mono hlen
    rw [versionAt_append le_rfl,versionAt_length] at hle
    exact absurd (Nat.lt_of_lt_of_le hlt (hv.trans hle)) (Nat.lt_irrefl _)

/-- The version may be moved past one entry that satisfies `q`. -/
theorem succ (h : UpTo first p q l n v) (hnext : ∀ i a, l[i]? = some a → p a = true → versionAt first p l i = v → q a) :
    UpTo first p q l n (v+1) := by
  intro i a hget hp hi hlt
  rcases Nat.lt_succ_iff_lt_or_eq.mp hlt with hlt | heq
  · exact h i a hget hp hi hlt
  · exact hnext i a hget hp heq

/-- A version that is still the current one at position `m` vouches for all before. -/
theorem between (h : UpTo first p q l n v) {m} (hm : versionAt first p l m ≤ v) {i a} (hget : l[i]? = some a)
    (hp : p a = true) (hn : n ≤ i) (hi : i < m) : q a :=
  h i a hget hp hn (Nat.lt_of_lt_of_le (versionAt_lt hget hp hi) hm)

end UpTo

end AlNiCo.Library.VersionedLog
