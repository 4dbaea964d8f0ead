import Mathlib.Data.List.Nodup
import Mathlib.Data.List.Range
import Mathlib.Logic.Function.Basic

/-! Segments of singly linked lists: the cells that the links of a heap lead through, from one
pointer to another. -/
namespace AlNiCo.Library.LinkedSegment
open Function List

variable {A : Type*} {next next' : A → Option A} {p q : Option A} {l l' : List A} {a : A}

/-- The links lead from `p` through the cells of the list to `q`. -/
def Seg (next : A → Option A) : Option A → List A → Option A → Prop
  | p,[],q => p = q
  | p,a :: l,q => p = some a ∧ Seg next (next a) l q

theorem seg_append : Seg next p (l ++ l') q ↔ ∃ r, Seg next p l r ∧ Seg next r l' q := by
  induction l generalizing p with
  | nil => exact ⟨fun h => ⟨p,rfl,h⟩,fun ⟨_,hr,h⟩ => hr ▸ h⟩
  | cons a l ih =>
    rw [cons_append,Seg,ih]
    constructor
    · rintro ⟨hp,r,hl,hl'⟩
      exact ⟨r,⟨hp,hl⟩,hl'⟩
    · rintro ⟨r,⟨hp,hl⟩,hl'⟩
      exact ⟨hp,r,hl,hl'⟩

theorem seg_concat : Seg next p (l ++ [a]) q ↔ Seg next p l (some a) ∧ next a = q := by
  rw [seg_append]
  constructor
  · rintro ⟨r,hl,hr,hq⟩
    exact ⟨hr ▸ hl,hq⟩
  · rintro ⟨hl,hq⟩
    exact ⟨some a,hl,rfl,hq⟩

theorem seg_none (h : Seg next none l q) : l = [] := by
  cases l with
  | nil => rfl
  | cons a l => exact absurd h.1.symm (Option.some_ne_none a)

/-- Links of other cells do not matter. -/
theorem Seg.congr (h : Seg next p l q) (hnext : ∀ a ∈ l, next' a = next a) : Seg next' p l q := by
  induction l generalizing p with
  | nil => exact h
  | cons a l ih =>
    refine ⟨h.1,?_⟩
    rw [hnext a mem_cons_self]
    exact ih h.2 (fun b hb => hnext b (mem_cons_of_mem a hb))

def walk (next : A → Option A) : Nat → Option A → List A
  | 0,_ => []
  | _+1,none => []
  | n+1,some a => a :: walk next n (next a)

theorem Seg.walk_eq (h : Seg next p l none) {n} (hn : l.length ≤ n) : walk next n p = l := by
  induction l generalizing p n with
  | nil =>
    obtain rfl : p = none := h
    cases n with
    | zero => rfl
    | succ n => rfl
  | cons a l ih =>
    obtain ⟨rfl,hl⟩ := h
    cases n with
    | zero => exact absurd hn (Nat.not_succ_le_zero _)
    | succ n =>
      rw [walk,ih hl (Nat.le_of_succ_le_succ hn)]

section
variable {R : Type*} {root : R → A} {chain : R → List A}

/-- Lists that end, one from each root, with no cell in two of them. -/
structure Chains (next : A → Option A) (root : R → A) (chain : R → List A) : Prop where
  seg : ∀ r, Seg next (some (root r)) (chain r) none
  nodup : ∀ r, (chain r).Nodup
  apart : ∀ {r r' a}, a ∈ chain r → a ∈ chain r' → r = r'

theorem chains_of_roots (hroot : Injective root) (hnext : ∀ r, next (root r) = none) : Chains next root (fun r => [root r]) := by
  refine ⟨fun r => ⟨rfl,hnext r⟩,fun r => nodup_singleton _,fun hr hr' => hroot ?_⟩
  rw [← mem_singleton.mp hr,← mem_singleton.mp hr']

theorem Chains.exists_last (h : Chains next root chain) (r : R) : ∃ l a, chain r = l ++ [a] ∧ next a = none := by
  rcases eq_nil_or_concat' (chain r) with hnil | ⟨l,a,hl⟩
  · have hseg := h.seg r
    rw [hnil] at hseg
    exact absurd hseg (Option.some_ne_none _)
  · have hseg := h.seg r
    rw [hl,seg_concat] at hseg
    exact ⟨l,a,hl,hseg.2⟩

theorem Chains.congr (h : Chains next root chain) (hnext : ∀ r, ∀ a ∈ chain r, next' a = next a) : Chains next' root chain :=
  ⟨fun r => (h.seg r).congr (hnext r),h.nodup,h.apart⟩

/-- A new cell behind the last one of a chain. -/
theorem Chains.extend [DecidableEq R] (h : Chains next root chain) {r : R} {b : A} (hlast : chain r = l ++ [a])
    (hfresh : ∀ r', b ∉ chain r') (hlink : next' a = some b) (hend : next' b = none)
    (hnext : ∀ r', ∀ c ∈ chain r', c ≠ a → next' c = next c) :
    Chains next' root (update chain r (chain r ++ [b])) := by
  have hmem {r' : R} {c : A} (hc : c ∈ update chain r (chain r ++ [b]) r') : c ∈ chain r' ∨ c = b ∧ r' = r := by
    by_cases hr : r' = r
    · subst hr
      rw [update_self,mem_append,mem_singleton] at hc
      exact hc.imp_right (fun hb => ⟨hb,rfl⟩)
    · rw [update_of_ne hr] at hc
      exact Or.inl hc
  refine ⟨fun r' => ?_,fun r' => ?_,fun hc hc' => ?_⟩
  · by_cases hr : r' = r
    · subst hr
      have hseg := h.seg r'
      have hnodup := h.nodup r'
      rw [hlast] at hseg hnodup
      have ha : a ∉ l := fun ha => disjoint_of_nodup_append hnodup ha (mem_singleton_self a)
      rw [update_self,hlast,seg_concat,seg_concat]
      refine ⟨⟨(seg_concat.mp hseg).1.congr (fun c hc => hnext r' c ?_ (fun hca => ha (hca ▸ hc))),hlink⟩,hend⟩
      rw [hlast]
      exact mem_append_left _ hc
    · rw [update_of_ne hr]
      have ha : a ∈ chain r := by
        rw [hlast]
        exact mem_append_right _ (mem_singleton_self a)
      exact (h.seg r').congr (fun c hc => hnext r' c hc (fun hca => hr (h.apart (hca ▸ hc) ha)))
  · by_cases hr : r' = r
    · subst hr
      rw [update_self]
      refine List.Nodup.append (h.nodup r') (nodup_singleton b) ?_
      intro c hc hb
      exact hfresh r' (mem_singleton.mp hb ▸ hc)
    · rw [update_of_ne hr]
      exact h.nodup r'
  · rcases hmem hc with hold | ⟨rfl,rfl⟩
    · rcases hmem hc' with hold' | ⟨rfl,rfl⟩
      · exact h.apart hold hold'
      · exact absurd hold (hfresh _)
    · rcases hmem hc' with hold' | ⟨-,rfl⟩
      · exact absurd hold' (hfresh _)
      · rfl

end

end AlNiCo.Library.LinkedSegment
