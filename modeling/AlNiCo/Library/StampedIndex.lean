import Mathlib.Data.List.Basic
import Mathlib.Data.List.Nodup
import Mathlib.Logic.Function.Basic

/-! A hash index over the items of the current round: an entry above the base is the position of
an item, and a new base makes every older entry stale. -/
namespace AlNiCo.Library.StampedIndex
open List

/-- The entries of the buckets, and the base that the current ones are above of. -/
structure Stamps (H : Type*) where
  base : Nat
  stamp : H → Nat

section
variable {α H : Type*} {hash : α → H} {x : Stamps H} {items : List α} {a : α}

/-- The entries above the base point to the items, and every item's bucket has one. -/
structure Indexes (hash : α → H) (x : Stamps H) (items : List α) : Prop where
  nodup : items.Nodup
  points : ∀ h, x.base < x.stamp h → ∃ a, items[x.stamp h-x.base-1]? = some a ∧ hash a = h
  covers : ∀ a ∈ items, x.base < x.stamp (hash a)

theorem Indexes.stamp_le (h : Indexes hash x items) (i : H) : x.stamp i ≤ x.base+items.length := by
  by_contra hlt
  obtain ⟨a,ha,-⟩ := h.points i (by omega)
  have hlen := (List.getElem?_eq_some_iff.mp ha).1
  omega

/-- The entry of a bucket none of the items is in. -/
theorem Indexes.stamp_le_base (h : Indexes hash x items) {i} (hi : ∀ a ∈ items, hash a ≠ i) : x.stamp i ≤ x.base := by
  by_contra hlt
  obtain ⟨a,ha,hash⟩ := h.points i (by omega)
  exact hi a (mem_of_getElem? ha) hash

theorem indexes_clear (hash : α → H) : Indexes hash ⟨0,fun _ => 0⟩ [] :=
  ⟨nodup_nil,fun _ h => absurd h (Nat.lt_irrefl 0),fun _ h => absurd h not_mem_nil⟩

/-- A base above all entries begins a new round. -/
theorem indexes_begin (hash : α → H) {base stamp} (h : ∀ i, stamp i ≤ base) : Indexes hash ⟨base,stamp⟩ [] :=
  ⟨nodup_nil,fun i hi => absurd (h i) (Nat.not_le.mpr hi),fun _ h => absurd h not_mem_nil⟩

variable [DecidableEq H]

/-- A new item takes its bucket when no other item of the round has it. -/
theorem Indexes.add (h : Indexes hash x items) (ha : a ∉ items) : Indexes hash
    ⟨x.base,if x.stamp (hash a) ≤ x.base then Function.update x.stamp (hash a) (x.base+(items.length+1)) else x.stamp⟩
    (items ++ [a]) := by
  have hnodup : (items ++ [a]).Nodup := by
    rw [List.nodup_append]
    refine ⟨h.nodup,List.nodup_singleton a,fun b hb c hc hbc => ?_⟩
    rw [List.mem_singleton.mp hc] at hbc
    exact ha (hbc ▸ hb)
  have hold (i : H) (hi : x.base < x.stamp i) : ∃ b, (items ++ [a])[x.stamp i-x.base-1]? = some b ∧ hash b = i := by
    obtain ⟨b,hb,hash⟩ := h.points i hi
    exact ⟨b,(List.getElem?_append_left (List.getElem?_eq_some_iff.mp hb).1).trans hb,hash⟩
  have hcovers (b : α) (hb : b ∈ items ++ [a]) : b ∈ items ∨ b = a := by
    rwa [List.mem_append,List.mem_singleton] at hb
  by_cases hfree : x.stamp (hash a) ≤ x.base
  · rw [if_pos hfree]
    refine ⟨hnodup,fun i hi => ?_,fun b hb => ?_⟩
    · by_cases hia : i = hash a
      · subst hia
        refine ⟨a,?_,rfl⟩
        dsimp only
        rw [Function.update_self,show x.base+(items.length+1)-x.base-1 = items.length by omega]
        exact List.getElem?_concat_length
      · dsimp only at hi ⊢
        rw [Function.update_of_ne hia] at hi ⊢
        exact hold i hi
    · dsimp only
      by_cases hba : hash b = hash a
      · rw [hba,Function.update_self]
        omega
      · rw [Function.update_of_ne hba]
        rcases hcovers b hb with hb | rfl
        · exact h.covers b hb
        · exact absurd rfl hba
  · rw [if_neg hfree]
    refine ⟨hnodup,hold,fun b hb => ?_⟩
    rcases hcovers b hb with hb | rfl
    · exact h.covers b hb
    · exact Nat.lt_of_not_le hfree

variable [DecidableEq α]

omit [DecidableEq H] in
/-- A bucket without an entry of this round has no item. -/
theorem Indexes.idxOf_eq_none (h : Indexes hash x items) (hle : x.stamp (hash a) ≤ x.base) : items.idxOf? a = none := by
  rw [idxOf?_eq_none_iff]
  exact fun ha => absurd (h.covers a ha) (Nat.not_lt.mpr hle)

omit [DecidableEq H] in
theorem Indexes.idxOf_eq_some (h : Indexes hash x items) {i} (hi : items[i]? = some a) : items.idxOf? a = some i := by
  obtain ⟨hlt,heq⟩ := List.getElem?_eq_some_iff.mp hi
  rw [List.idxOf?_eq_some_iff]
  refine ⟨hlt,heq,fun j hj hja => ?_⟩
  have hji := h.nodup.getElem_inj_iff.mp (hja.trans heq.symm)
  omega

end

end AlNiCo.Library.StampedIndex
