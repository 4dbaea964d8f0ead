import Mathlib.Data.List.Nodup
import Mathlib.Data.List.Perm.Basic
import Mathlib.Logic.Function.Basic

/-! Steps that keep an invariant and commute under it: the order in which they are made does
not matter. -/
namespace AlNiCo.Library.CommutingFold
open List

section
variable {σ α : Type*} {step : σ → α → σ} {Inv : σ → Prop} {Ok : α → Prop}

theorem foldl_perm (hkeep : ∀ s a, Inv s → Ok a → Inv (step s a))
    (hcomm : ∀ s a b, Inv s → Ok a → Ok b → step (step s a) b = step (step s b) a) {l l' : List α} (hp : l.Perm l')
    (hl : ∀ a ∈ l, Ok a) {s : σ} (hs : Inv s) : l.foldl step s = l'.foldl step s := by
  induction hp generalizing s with
  | nil => rfl
  | cons a _ ih =>
    exact ih (fun b hb => hl b (mem_cons_of_mem a hb)) (hkeep s a hs (hl a mem_cons_self))
  | swap a b l =>
    have hb : Ok b := hl b mem_cons_self
    have ha : Ok a := hl a (mem_cons_of_mem b mem_cons_self)
    rw [foldl_cons,foldl_cons,foldl_cons,foldl_cons,hcomm s b a hs hb ha]
  | trans hp₁ _ ih₁ ih₂ =>
    exact (ih₁ hl hs).trans (ih₂ (fun a ha => hl a (hp₁.mem_iff.mpr ha)) hs)

end

section
variable {A B : Type*} [DecidableEq A]

/-- Changes at different places: each is made once, with the value that was there before. -/
theorem foldl_update (g : B → B) {step : (A → B) → A → (A → B)} {l : List A} {f : A → B} (hnodup : l.Nodup)
    (hstep : ∀ f, ∀ a ∈ l, step f a = Function.update f a (g (f a))) (b : A) :
    l.foldl step f b = if b ∈ l then g (f b) else f b := by
  induction l generalizing f with
  | nil => rfl
  | cons a l ih =>
    obtain ⟨ha,hrest⟩ := nodup_cons.mp hnodup
    rw [foldl_cons,hstep f a mem_cons_self,ih hrest (fun f c hc => hstep f c (mem_cons_of_mem _ hc))]
    by_cases hba : b = a
    · subst hba
      rw [if_neg ha,if_pos mem_cons_self,Function.update_self]
    · rw [Function.update_of_ne hba]
      simp only [mem_cons,hba,false_or]

end

end AlNiCo.Library.CommutingFold
