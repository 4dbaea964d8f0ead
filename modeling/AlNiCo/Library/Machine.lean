import Mathlib.Order.Basic

/-! Machines that take guarded steps, the states their runs reach, and the rule
of invariants. -/
namespace AlNiCo.Library

structure Machine (σ α : Type*) where
  start : σ
  ready : σ → α → Bool
  step : σ → α → σ

namespace Machine
variable {σ α : Type*} {M : Machine σ α} {P : σ → α → Prop} {s : σ}

/-- The states of the runs whose steps all meet `P`. -/
inductive Reached (M : Machine σ α) (P : σ → α → Prop) : σ → Prop
  | start : Reached M P M.start
  | next {s a} : Reached M P s → M.ready s a = true → P s a → Reached M P (M.step s a)

def Reachable (M : Machine σ α) : σ → Prop := M.Reached (fun _ _ => True)

theorem Reached.reachable (h : M.Reached P s) : M.Reachable s := by
  induction h with
  | start => exact .start
  | next _ hready _ ih => exact .next ih hready trivial

/-- What holds at the start and is kept by every step holds in every state reached. -/
theorem Reached.invariant {I : σ → Prop} (h : M.Reached P s) (hstart : I M.start)
    (hstep : ∀ s a, I s → M.ready s a = true → P s a → I (M.step s a)) : I s := by
  induction h with
  | start => exact hstart
  | next _ hready hP ih => exact hstep _ _ ih hready hP

theorem Reachable.invariant {I : σ → Prop} (h : M.Reachable s) (hstart : I M.start)
    (hstep : ∀ s a, I s → M.ready s a = true → I (M.step s a)) : I s :=
  Reached.invariant h hstart (fun s a hI hready _ => hstep s a hI hready)

def ofNext (start : σ) (next : σ → α → Option σ) : Machine σ α where
  start := start
  ready s a := (next s a).isSome
  step s a := (next s a).getD s

theorem Reached.ofNext_invariant {start : σ} {next : σ → α → Option σ} {I : σ → Prop} (h : (ofNext start next).Reached P s)
    (hstart : I start) (hstep : ∀ s a s', I s → P s a → next s a = some s' → I s') : I s := by
  refine h.invariant hstart (fun s a hI hready hP => ?_)
  obtain ⟨s',hnext⟩ := Option.isSome_iff_exists.mp hready
  have hs : (ofNext start next).step s a = s' := congrArg (fun x => x.getD s) hnext
  exact hs ▸ hstep s a s' hI hP hnext

theorem Reached.ofNext_next {start next a s'} (h : (ofNext start next).Reached P s)
    (hP : P s a) (hnext : next s a = some s') : (ofNext start next).Reached P s' := by
  have hs : (ofNext start next).step s a = s' := congrArg (fun x => x.getD s) hnext
  have hready : (ofNext start next).ready s a = true := congrArg Option.isSome hnext
  exact hs ▸ .next h hready hP

theorem Reachable.ofNext_invariant {start : σ} {next : σ → α → Option σ} {I : σ → Prop} (h : (ofNext start next).Reachable s)
    (hstart : I start) (hstep : ∀ s a s', I s → next s a = some s' → I s') : I s :=
  Reached.ofNext_invariant h hstart (fun s a s' hI _ hnext => hstep s a s' hI hnext)

def play (M : Machine σ α) (s : σ) (steps : List α) : σ := steps.foldl M.step s

/-- Every step of the list is ready when its turn comes. -/
def playable (M : Machine σ α) : σ → List α → Bool
  | _,[] => true
  | s,a :: steps => M.ready s a && M.playable (M.step s a) steps

theorem Reached.play (h : M.Reached P s) (steps : List α) (hplay : M.playable s steps = true)
    (hP : ∀ s, ∀ a ∈ steps, P s a) : M.Reached P (M.play s steps) := by
  induction steps generalizing s with
  | nil => exact h
  | cons a steps ih =>
    rw [playable,Bool.and_eq_true] at hplay
    exact ih (.next h hplay.1 (hP s a List.mem_cons_self)) hplay.2 (fun s b hb => hP s b (List.mem_cons_of_mem _ hb))

theorem Reachable.play (h : M.Reachable s) (steps : List α) (hplay : M.playable s steps = true) :
    M.Reachable (M.play s steps) := Reached.play h steps hplay (fun _ _ _ => trivial)

def playableIf (M : Machine σ α) (p : σ → α → Bool) : σ → List α → Bool
  | _,[] => true
  | s,a :: steps => M.ready s a && p s a && M.playableIf p (M.step s a) steps

theorem Reached.playWhen {p} (hp : ∀ s a, p s a = true → P s a) (h : M.Reached P s) (steps : List α)
    (hplay : M.playableIf p s steps = true) : M.Reached P (M.play s steps) := by
  induction steps generalizing s with
  | nil => exact h
  | cons a steps ih =>
    rw [playableIf,Bool.and_eq_true,Bool.and_eq_true] at hplay
    exact ih (.next h hplay.1.1 (hp s a hplay.1.2)) hplay.2

theorem Reached.playIf {p} (h : M.Reached (fun s a => p s a = true) s) (steps : List α)
    (hplay : M.playableIf p s steps = true) : M.Reached (fun s a => p s a = true) (M.play s steps) :=
  h.playWhen (fun _ _ hp => hp) steps hplay

def Leads (M : Machine σ α) (s t : σ) : Prop := ∃ steps, M.playable s steps = true ∧ M.play s steps = t

theorem Leads.refl (M : Machine σ α) (s : σ) : M.Leads s s := ⟨[],rfl,rfl⟩

theorem Leads.head {a t} (hready : M.ready s a = true) (h : M.Leads (M.step s a) t) : M.Leads s t := by
  obtain ⟨steps,hplay,ht⟩ := h
  exact ⟨a :: steps,by rw [playable,hready,hplay,Bool.and_self],ht⟩

theorem Leads.trans {t u} (h : M.Leads s t) (h' : M.Leads t u) : M.Leads s u := by
  obtain ⟨steps,hplay,ht⟩ := h
  induction steps generalizing s with
  | nil =>
    obtain rfl : s = t := ht
    exact h'
  | cons a steps ih =>
    rw [playable,Bool.and_eq_true] at hplay
    exact .head hplay.1 (ih hplay.2 ht)

/-- A quantity that no step lowers is not lowered by a run. -/
theorem Leads.ofNext_monotone {β} [Preorder β] {start : σ} {next : σ → α → Option σ} {I : σ → Prop} (f : σ → β) {t : σ}
    (h : (ofNext start next).Leads s t) (hI : I s) (hkeep : ∀ s a s', I s → next s a = some s' → I s' ∧ f s ≤ f s') : f s ≤ f t := by
  obtain ⟨steps,hplay,ht⟩ := h
  induction steps generalizing s with
  | nil => exact le_of_eq (congrArg f ht)
  | cons a steps ih =>
    rw [playable,Bool.and_eq_true] at hplay
    obtain ⟨s',hnext⟩ := Option.isSome_iff_exists.mp hplay.1
    have hs : (ofNext start next).step s a = s' := congrArg (fun x => x.getD s) hnext
    obtain ⟨hI',hle⟩ := hkeep s a s' hI hnext
    rw [hs] at hplay
    apply hle.trans (ih hI' hplay.2 _)
    rw [← hs]
    exact ht

theorem Reachable.leads {t} (h : M.Reachable s) (hlead : M.Leads s t) : M.Reachable t := by
  obtain ⟨steps,hplay,rfl⟩ := hlead
  exact h.play steps hplay

end Machine

end AlNiCo.Library
