import Mathlib.Data.List.Basic

/-! A store that updates are executed on one at a time. -/
namespace AlNiCo.Library
open List

structure Update (X V : Type*) where
  rows : List X
  data : X → V

namespace Update
variable {X V : Type*} [DecidableEq X]

def apply (u : Update X V) (d : X → V) (x : X) : V := if x ∈ u.rows then u.data x else d x

/-- The store after a log of updates, oldest first. -/
def serial {T : Type*} (writes : T → Update X V) (d : X → V) (log : List T) : X → V :=
  log.foldl (fun d t => (writes t).apply d) d

section
variable {T : Type*} {writes : T → Update X V} {d d' : X → V} {x : X}

theorem serial_append (l l' : List T) : serial writes d (l ++ l') = serial writes (serial writes d l) l' := foldl_append

theorem serial_unwritten {l} (h : ∀ t ∈ l, x ∉ (writes t).rows) : serial writes d l x = d x := by
  induction l generalizing d with
  | nil => rfl
  | cons t l ih =>
    obtain ⟨ht,hl⟩ := forall_mem_cons.mp h
    exact (ih hl).trans (if_neg ht)

theorem serial_append_unwritten {l l'} (h : ∀ t ∈ l', x ∉ (writes t).rows) : serial writes d (l ++ l') x = serial writes d l x := by
  rw [serial_append,serial_unwritten h]

theorem serial_last {t l l'} (ht : x ∈ (writes t).rows) (h : ∀ u ∈ l', x ∉ (writes u).rows) :
    serial writes d (l ++ t :: l') x = (writes t).data x := by
  rw [serial_append]
  exact (serial_unwritten h).trans (if_pos ht)

theorem serial_congr {l} (h : d x = d' x) : serial writes d l x = serial writes d' l x := by
  induction l generalizing d d' with
  | nil => exact h
  | cons t l ih =>
    refine ih ?_
    simp only [apply,h]

/-- Only the updates that write `x` decide its value. -/
theorem serial_filter_congr {p q : T → Bool} {l : List T} (h : ∀ t ∈ l, x ∈ (writes t).rows → p t = q t) :
    serial writes d (l.filter p) x = serial writes d (l.filter q) x := by
  induction l generalizing d with
  | nil => rfl
  | cons t l ih =>
    obtain ⟨ht,hl⟩ := forall_mem_cons.mp h
    have hstep (r : T → Bool) : serial writes d ((t :: l).filter r) x =
        serial writes (if r t = true then (writes t).apply d else d) (l.filter r) x := by
      rw [filter_cons]
      split_ifs <;> rfl
    rw [hstep,hstep,ih hl]
    apply serial_congr
    by_cases hx : x ∈ (writes t).rows
    · rw [ht hx]
    · split_ifs <;> simp only [apply,if_neg hx]

/-- A longer part of a log gives the same value when the updates between leave it alone. -/
theorem serial_take_eq {log : List T} {m n : Nat} (hmn : m ≤ n) (h : ∀ i t, m ≤ i → i < n → log[i]? = some t → x ∉ (writes t).rows) :
    serial writes d (log.take n) x = serial writes d (log.take m) x := by
  have hsplit : log.take n = log.take m ++ (log.take n).drop m := by
    conv_lhs => rw [← take_append_drop m (log.take n)]
    rw [take_take,Nat.min_eq_left hmn]
  rw [hsplit]
  apply serial_append_unwritten
  intro t ht
  obtain ⟨i,hi⟩ := mem_iff_getElem?.mp ht
  rw [getElem?_drop,getElem?_take] at hi
  split_ifs at hi with hlt
  exact h (m+i) t (Nat.le_add_right m i) hlt hi

end

end Update

end AlNiCo.Library
