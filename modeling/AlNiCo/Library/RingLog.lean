import Mathlib.Data.List.Basic
import Mathlib.Data.Nat.ModEq
import Mathlib.Logic.Function.Basic

/-! A ring of `N` cells seen as a window on the log of everything ever written.
Producer and consumer each keep an index modulo `N` and never read the other's;
a cell outside the window holds the empty value. -/
namespace AlNiCo.Library.RingLog
open Function

variable {α β : Type*} {N : Nat} {empty : β} {enc : α → β} {cell : Nat → β} {log : List α} {done : Nat}

/-- The cells hold the log from entry `done` on, each at its index modulo `N`. -/
structure Ring (N : Nat) (empty : β) (enc : α → β) (cell : Nat → β) (log : List α) (done : Nat) :
    Prop where
  done_le : done ≤ log.length
  room : log.length ≤ done+N
  live : ∀ k x, done ≤ k → log[k]? = some x → cell (k % N) = enc x
  free : ∀ e < N, (∀ k, done ≤ k → k < log.length → k % N ≠ e) → cell e = empty

private theorem eq_of_mod_eq {a b} (h : a % N = b % N) (hab : a ≤ b) (hlt : b < a+N) : a = b := by
  have hdvd : N ∣ b-a := (Nat.modEq_iff_dvd' hab).mp h
  have hzero := Nat.eq_zero_of_dvd_of_lt hdvd (by omega)
  omega

theorem Ring.nil (h : ∀ e < N, cell e = empty) : Ring N empty enc cell ([] : List α) 0 :=
  ⟨Nat.le_refl 0,by simp,fun k x _ hx => by simp at hx,fun e he _ => h e he⟩

theorem Ring.congr {cell'} (h : Ring N empty enc cell log done)
    (hsame : ∀ e < N, cell' e = cell e) (hN : 0 < N) : Ring N empty enc cell' log done where
  done_le := h.done_le
  room := h.room
  live k x hk hx := (hsame _ (Nat.mod_lt k hN)).trans (h.live k x hk hx)
  free e he hfree := (hsame e he).trans (h.free e he hfree)

section
variable (h : Ring N empty enc cell log done)
include h

section
variable (hroom : log.length < done+N)
include hroom

/-- While there is room the producer's next cell is empty. -/
theorem Ring.next_empty : cell (log.length % N) = empty := by
  refine h.free _ (Nat.mod_lt _ (by have := h.done_le; omega)) (fun k hk hlt heq => ?_)
  have := eq_of_mod_eq heq hlt.le (by omega)
  omega

theorem Ring.push (x : α) : Ring N empty enc (update cell (log.length % N) (enc x)) (log ++ [x]) done := by
  refine ⟨?_,?_,?_,?_⟩
  · have := h.done_le
    simp only [List.length_append,List.length_cons,List.length_nil]
    omega
  · simp only [List.length_append,List.length_cons,List.length_nil]
    omega
  · intro k y hk hy
    by_cases hlast : k = log.length
    · subst hlast
      rw [List.getElem?_append_right (Nat.le_refl _),Nat.sub_self] at hy
      obtain rfl : x = y := by simpa using hy
      rw [update_self]
    · have hlt : k < log.length := by
        have hbound := (List.getElem?_eq_some_iff.mp hy).1
        simp only [List.length_append,List.length_cons,List.length_nil] at hbound
        omega
      rw [List.getElem?_append_left hlt] at hy
      rw [update_of_ne,h.live k y hk hy]
      intro heq
      exact hlast (eq_of_mod_eq heq hlt.le (by omega))
  · intro e he hfree
    have hne : e ≠ log.length % N := by
      rintro rfl
      exact hfree log.length h.done_le (by simp) rfl
    rw [update_of_ne hne]
    exact h.free e he (fun k hk hlt => hfree k hk (by simp; omega))

/-- A producer takes entry `log.length` and will write it later. -/
theorem Ring.reserve {x} (hx : enc x = empty) : Ring N empty enc cell (log ++ [x]) done := by
  have hsame : update cell (log.length % N) (enc x) = cell := by
    rw [hx,← h.next_empty hroom,update_eq_self]
  exact hsame ▸ h.push hroom x

end

/-- Entry `k`, taken before, is written. -/
theorem Ring.set {k} (hk : done ≤ k) (hlt : k < log.length) (y : α) :
    Ring N empty enc (update cell (k % N) (enc y)) (log.set k y) done := by
  have hroom := h.room
  refine ⟨by simpa using h.done_le,by simpa using hroom,?_,?_⟩
  · intro j x hj hx
    by_cases hself : j = k
    · subst hself
      rw [List.getElem?_set_self hlt,Option.some.injEq] at hx
      rw [update_self,hx]
    · rw [List.getElem?_set_ne (Ne.symm hself)] at hx
      have hbound := (List.getElem?_eq_some_iff.mp hx).1
      rw [update_of_ne,h.live j x hj hx]
      intro heq
      rcases Nat.le_total j k with hle | hle
      · exact hself (eq_of_mod_eq heq hle (by omega))
      · exact hself (eq_of_mod_eq heq.symm hle (by omega)).symm
  · intro e he hfree
    rw [List.length_set] at hfree
    rw [update_of_ne (fun heq => hfree k hk hlt heq.symm)]
    exact h.free e he hfree

end

/-- The cell of an entry that is taken first and stored later. -/
def stored (x : α × Bool) : Option α := if x.2 then some x.1 else none

/-- The consumer empties entry `done`. -/
theorem Ring.clear (h : Ring N empty enc cell log done) (hlt : done < log.length) :
    Ring N empty enc (update cell (done % N) empty) log (done+1) := by
  have hroom := h.room
  refine ⟨hlt,by omega,?_,?_⟩
  · intro k x hk hx
    have hbound := (List.getElem?_eq_some_iff.mp hx).1
    rw [update_of_ne,h.live k x (by omega) hx]
    intro heq
    have := eq_of_mod_eq heq.symm (by omega) (by omega)
    omega
  · intro e he hfree
    by_cases hself : e = done % N
    · rw [hself,update_self]
    · rw [update_of_ne hself]
      refine h.free e he (fun k hk hkl => ?_)
      by_cases hfirst : k = done
      · subst hfirst
        exact fun heq => hself heq.symm
      · exact hfree k (by omega) hkl

/-- The consumer finds its cell full exactly when an entry waits, and reads it. -/
theorem Ring.head_iff (h : Ring N empty enc cell log done) (hN : 0 < N) (hne : ∀ x ∈ log, enc x ≠ empty) :
    cell (done % N) ≠ empty ↔ done < log.length := by
  constructor
  · intro hfull
    by_contra hge
    exact hfull (h.free _ (Nat.mod_lt _ hN) (fun k hk hkl => absurd hkl (by omega)))
  · intro hlt
    rw [h.live done log[done] (Nat.le_refl _) (List.getElem?_eq_getElem hlt)]
    exact hne _ (List.getElem_mem hlt)

end AlNiCo.Library.RingLog
