import Mathlib.Logic.Function.Basic

/-! An index of pointers into a heap, where every key has a cell of its own: what an operation on a
cell, or a new cell, does to the contents seen through the index. -/
namespace AlNiCo.Library
open Function

/-- Cells are taken in the order of their addresses, which begin above the null pointer. -/
structure IndexedHeap (K E : Type*) where
  map : K → Option Nat
  cell : Nat → E
  head : Nat
  head_pos : 0 < head
  allocated : ∀ k p, map k = some p → 0 < p ∧ p < head
  injective : ∀ k k' p, map k = some p → map k' = some p → k = k'

namespace IndexedHeap
variable {K E : Type*} {h : IndexedHeap K E} {k : K} {p : Nat}

def view (h : IndexedHeap K E) (k : K) : Option E := (h.map k).map h.cell

theorem view_of_map (hk : h.map k = some p) : h.view k = some (h.cell p) := by rw [view,hk,Option.map_some]

theorem view_eq_none : h.view k = none ↔ h.map k = none := Option.map_eq_none_iff

def modify (h : IndexedHeap K E) (p : Nat) (f : E → E) : IndexedHeap K E :=
  { h with cell := update h.cell p (f (h.cell p)) }

variable [DecidableEq K]

theorem view_modify (hk : h.map k = some p) (f : E → E) : (h.modify p f).view = update h.view k ((h.view k).map f) := by
  funext k'
  by_cases heq : k' = k
  · rw [heq,update_self,view_of_map hk,view_of_map (h := h.modify p f) hk]
    exact congrArg some (update_self ..)
  · rw [update_of_ne heq,view,view]
    cases hk' : h.map k' with
    | none =>
      have hmap : (h.modify p f).map k' = none := hk'
      rw [hmap]
      rfl
    | some q =>
      have hmap : (h.modify p f).map k' = some q := hk'
      have hne : q ≠ p := fun hqp => heq (h.injective k' k p (hqp ▸ hk') hk)
      rw [hmap]
      exact congrArg some (update_of_ne hne ..)

theorem insert_allocated (h : IndexedHeap K E) (k : K) {size} (hsize : 0 < size) (k' : K) (p : Nat)
    (hk' : update h.map k (some h.head) k' = some p) : 0 < p ∧ p < h.head+size := by
  rw [update_apply] at hk'
  split at hk'
  · cases hk'
    exact ⟨h.head_pos,Nat.lt_add_of_pos_right hsize⟩
  · obtain ⟨hpos,hlt⟩ := h.allocated k' p hk'
    exact ⟨hpos,Nat.lt_add_right size hlt⟩

theorem insert_injective (h : IndexedHeap K E) (k k₁ k₂ : K) (p : Nat)
    (h₁ : update h.map k (some h.head) k₁ = some p) (h₂ : update h.map k (some h.head) k₂ = some p) : k₁ = k₂ := by
  rw [update_apply] at h₁ h₂
  split at h₁
  · next heq₁ =>
    split at h₂
    · next heq₂ => rw [heq₁,heq₂]
    · cases h₁
      exact absurd (h.allocated k₂ _ h₂).2 (Nat.lt_irrefl _)
  · split at h₂
    · cases h₂
      exact absurd (h.allocated k₁ _ h₁).2 (Nat.lt_irrefl _)
    · exact h.injective k₁ k₂ p h₁ h₂

def insert (h : IndexedHeap K E) (k : K) (e : E) (size : Nat) (hsize : 0 < size) : IndexedHeap K E where
  map := update h.map k (some h.head)
  cell := update h.cell h.head e
  head := h.head+size
  head_pos := Nat.add_pos_left h.head_pos size
  allocated := h.insert_allocated k hsize
  injective := h.insert_injective k

theorem map_insert (h : IndexedHeap K E) (k : K) (e : E) {size} (hsize : 0 < size) :
    (h.insert k e size hsize).map k = some h.head := update_self ..

theorem map_insert_of_some {e size hsize k'} (hk : h.map k = none) (hk' : h.map k' = some p) :
    (h.insert k e size hsize).map k' = some p := by
  have hne : k' ≠ k := by
    rintro rfl
    exact absurd (hk.symm.trans hk') (Option.some_ne_none p).symm
  exact (update_of_ne hne ..).trans hk'

theorem view_insert (h : IndexedHeap K E) (k : K) (e : E) {size} (hsize : 0 < size) :
    (h.insert k e size hsize).view = update h.view k (some e) := by
  funext k'
  by_cases heq : k' = k
  · rw [heq,update_self,view_of_map (h.map_insert k e hsize)]
    exact congrArg some (update_self ..)
  · have hmap : (h.insert k e size hsize).map k' = h.map k' := update_of_ne heq ..
    rw [update_of_ne heq,view,view,hmap]
    cases hk' : h.map k' with
    | none => rfl
    | some q =>
      have hne : q ≠ h.head := Nat.ne_of_lt (h.allocated k' q hk').2
      exact congrArg some (update_of_ne hne ..)

end IndexedHeap

end AlNiCo.Library
