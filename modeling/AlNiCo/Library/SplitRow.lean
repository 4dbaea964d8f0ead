import Mathlib

/-! Rows as functions of their columns, and the columns of some lists taken over
from another row. -/
namespace AlNiCo.Library.SplitRow
open List

variable {Col : Type} [DecidableEq Col] {T : Col → Type}

def overwrite (cols : List Col) (dst src : ∀ c, T c) : ∀ c, T c := fun c => if c ∈ cols then src c else dst c

def overwriteAll (lists : List (List Col)) (dst src : ∀ c, T c) : ∀ c, T c :=
  lists.foldl (fun row cols => overwrite cols row src) dst

theorem overwriteAll_apply (lists : List (List Col)) (dst src : ∀ c, T c) (c : Col) :
    overwriteAll lists dst src c = if ∃ cols ∈ lists, c ∈ cols then src c else dst c := by
  induction lists generalizing dst with
  | nil => simp [overwriteAll]
  | cons cols lists ih =>
    have hcons : overwriteAll (cols :: lists) dst src = overwriteAll lists (overwrite cols dst src) src := rfl
    rw [hcons,ih,overwrite]
    by_cases hlater : ∃ cols ∈ lists, c ∈ cols
    · obtain ⟨cols',hmem,hc⟩ := hlater
      rw [if_pos ⟨cols',hmem,hc⟩,if_pos ⟨cols',mem_cons_of_mem _ hmem,hc⟩]
    · rw [if_neg hlater]
      by_cases hc : c ∈ cols
      · rw [if_pos hc,if_pos ⟨cols,mem_cons_self,hc⟩]
      · rw [if_neg hc,if_neg]
        rintro ⟨cols',hmem,hc'⟩
        rcases mem_cons.mp hmem with rfl | hmem
        · exact hc hc'
        · exact hlater ⟨cols',hmem,hc'⟩

/-- A fold whose steps never fail, and do something for some entries only. -/
theorem foldlM_some_filter {α β : Type} {l : List β} {p : β → Bool} {f : α → β → α} {g : α → β → Option α}
    (h : ∀ a, ∀ b ∈ l, g a b = some (if p b then f a b else a)) (a : α) :
    l.foldlM g a = some ((l.filter p).foldl f a) := by
  induction l generalizing a with
  | nil => rfl
  | cons b l ih =>
    rw [foldlM_cons,h a b mem_cons_self,Option.bind_eq_bind,Option.bind_some,ih (fun a b hb => h a b (mem_cons_of_mem _ hb))]
    by_cases hp : p b
    · rw [if_pos hp,filter_cons_of_pos hp,foldl_cons]
    · rw [if_neg hp,filter_cons_of_neg hp]

end AlNiCo.Library.SplitRow
