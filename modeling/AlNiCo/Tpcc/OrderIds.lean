import AlNiCo.Library.Machine
import AlNiCo.Sto.Version

/-! New-orders of one district at the same time: the version of the district row, the
generator of the ids and the id that is stored in the row. The version and the ids are natural
numbers, assumed never to wrap around. -/
namespace AlNiCo.Tpcc.OrderIds
open Library Sto List Option

inductive Phase
  | idle
  | observed (version : Nat)
  | drawn (version oId : Nat)
  | locked (version oId : Nat)
  | validated (version oId : Nat)
  | installed (oId : Nat)
deriving DecidableEq

inductive Act
  | observe | draw | lock | check | install | release | abort

variable {T : Type} [DecidableEq T]

structure District (T : Type) where
  word : Word T
  dNextOId : Nat
  oidGen : Nat
  phase : T → Phase
  /-- The ids of the orders that are committed, in the order of the installs. -/
  committed : List Nat

namespace District

def enter (s : District T) (t : T) (p : Phase) : District T := { s with phase := Function.update s.phase t p }

/-- One step of one transaction. A transaction that meets a lock or a new version
aborts; it can abort for another row at any time until it installs. -/
def next (s : District T) : T × Act → Option (District T)
  | (t,.observe) =>
    match s.phase t with
    | .idle => if s.word.owner.isSome then none else some (s.enter t (.observed s.word.version))
    | _ => none
  | (t,.draw) =>
    match s.phase t with
    | .observed v => some { s.enter t (.drawn v s.oidGen) with oidGen := s.oidGen+1 }
    | _ => none
  | (t,.lock) =>
    match s.phase t with
    | .drawn v o => if s.word.owner.isSome then none else some { s.enter t (.locked v o) with word := s.word.lock t }
    | _ => none
  | (t,.check) =>
    match s.phase t with
    | .locked v o => if s.word.version = v then some (s.enter t (.validated v o)) else none
    | _ => none
  | (t,.install) =>
    match s.phase t with
    | .validated _ o => some { s.enter t (.installed o) with dNextOId := o, committed := s.committed ++ [o] }
    | _ => none
  | (t,.release) =>
    match s.phase t with
    | .installed _ => some { s.enter t .idle with word := s.word.release }
    | _ => none
  | (t,.abort) =>
    match s.phase t with
    | .observed _ => some (s.enter t .idle)
    | .drawn _ _ => some (s.enter t .idle)
    | .locked _ _ => some { s.enter t .idle with word := s.word.unlock }
    | .validated _ _ => some { s.enter t .idle with word := s.word.unlock }
    | _ => none

end District

def district (T : Type) [DecidableEq T] (dNextOId oidGen : Nat) : Machine (District T) (T × Act) :=
  .ofNext ⟨⟨1,none⟩,dNextOId,oidGen,fun _ => .idle,[]⟩ District.next

section

def Phase.Holds : Phase → Prop
  | .locked _ _ | .validated _ _ | .installed _ => True
  | _ => False

def Phase.Seen : Phase → Nat → Prop
  | .observed v,w | .drawn v _,w | .locked v _,w | .validated v _,w => v = w
  | _,_ => False

def Phase.Pending : Phase → Nat → Nat → Prop
  | .drawn v o,w,i | .locked v o,w,i | .validated v o,w,i => v = w ∧ o = i
  | _,_,_ => False

inductive Step (t : T) (s : District T) : District T → Prop
  | observe (hp : s.phase t = .idle) (hfree : s.word.owner = none) : Step t s (s.enter t (.observed s.word.version))
  | draw {v} (hp : s.phase t = .observed v) : Step t s { s.enter t (.drawn v s.oidGen) with oidGen := s.oidGen+1 }
  | lock {v o} (hp : s.phase t = .drawn v o) (hfree : s.word.owner = none) :
      Step t s { s.enter t (.locked v o) with word := s.word.lock t }
  | check {o} (hp : s.phase t = .locked s.word.version o) : Step t s (s.enter t (.validated s.word.version o))
  | install {v o} (hp : s.phase t = .validated v o) :
      Step t s { s.enter t (.installed o) with dNextOId := o, committed := s.committed ++ [o] }
  | release {o} (hp : s.phase t = .installed o) : Step t s { s.enter t .idle with word := s.word.release }
  | leave (hp : ¬(s.phase t).Holds) : Step t s (s.enter t .idle)
  | unlock (hp : (s.phase t).Holds) (hpending : ∃ v, (s.phase t).Seen v) :
      Step t s { s.enter t .idle with word := s.word.unlock }

theorem Step.of_next {s s' : District T} {t : T} {a : Act} (h : s.next (t,a) = some s') : Step t s s' := by
  cases a with
  | observe =>
    simp only [District.next] at h
    split at h
    · rename_i hp
      obtain ⟨hfree,heq⟩ := ite_none_left_eq_some.mp h
      exact some.inj heq ▸ .observe hp (not_isSome_iff_eq_none.mp hfree)
    · cases h
  | draw =>
    simp only [District.next] at h
    split at h
    · rename_i v hp
      exact some.inj h ▸ .draw hp
    · cases h
  | lock =>
    simp only [District.next] at h
    split at h
    · rename_i v o hp
      obtain ⟨hfree,heq⟩ := ite_none_left_eq_some.mp h
      exact some.inj heq ▸ .lock hp (not_isSome_iff_eq_none.mp hfree)
    · cases h
  | check =>
    simp only [District.next] at h
    split at h
    · rename_i v o hp
      obtain ⟨hv,heq⟩ := ite_none_right_eq_some.mp h
      subst hv
      exact some.inj heq ▸ .check hp
    · cases h
  | install =>
    simp only [District.next] at h
    split at h
    · rename_i v o hp
      exact some.inj h ▸ .install hp
    · cases h
  | release =>
    simp only [District.next] at h
    split at h
    · rename_i o hp
      exact some.inj h ▸ .release hp
    · cases h
  | abort =>
    simp only [District.next] at h
    split at h
    · rename_i v hp
      exact some.inj h ▸ .leave (by rw [hp]; exact id)
    · rename_i v o hp
      exact some.inj h ▸ .leave (by rw [hp]; exact id)
    · rename_i v o hp
      exact some.inj h ▸ .unlock (by rw [hp]; trivial) ⟨v,by rw [hp]; rfl⟩
    · rename_i v o hp
      exact some.inj h ▸ .unlock (by rw [hp]; trivial) ⟨v,by rw [hp]; rfl⟩
    · cases h

end

section Invariant

/-- A transaction whose observed version is still there has an id above all that are
committed, unless one of them is just being installed. -/
structure Inv (init : Nat) (s : District T) : Prop where
  owner : ∀ t, s.word.owner = some t ↔ (s.phase t).Holds
  seen : ∀ t v, (s.phase t).Seen v → v ≤ s.word.version
  drawn : ∀ t v o, (s.phase t).Pending v o → o < s.oidGen
  given : ∀ o ∈ s.committed, o < s.oidGen
  validated : ∀ t v o, s.phase t = .validated v o → v = s.word.version
  above : (∀ u i, s.phase u ≠ .installed i) → ∀ t o, (s.phase t).Pending s.word.version o → ∀ i ∈ s.committed, i < o
  sorted : s.committed.Pairwise (· < ·)
  last : s.dNextOId = s.committed.getLastD init

variable {init : Nat} {s s' : District T} {t : T}

/-- What holds of the phase of the transaction that moves, and of the others before. -/
private theorem forall_enter {Q : T → Phase → Prop} {p : Phase} (ht : Q t p) (hother : ∀ u, u ≠ t → Q u (s.phase u)) (u : T) :
    Q u ((s.enter t p).phase u) :=
  (Function.forall_update_iff s.phase Q).mpr ⟨ht,hother⟩ u

theorem enter_of_ne {u p} (hu : u ≠ t) : (s.enter t p).phase u = s.phase u := Function.update_of_ne hu ..

section
variable (h : Inv init s)
include h

omit [DecidableEq T] in
theorem Inv.unique {u} (ht : (s.phase t).Holds) (hu : (s.phase u).Holds) : u = t :=
  some.inj (((h.owner u).mpr hu).symm.trans ((h.owner t).mpr ht))

omit [DecidableEq T] in
theorem Inv.free (hfree : s.word.owner = none) (u : T) : ¬(s.phase u).Holds := by
  intro hu
  rw [(h.owner u).mpr hu] at hfree
  cases hfree

private theorem Inv.move {p : Phase} (hholds : p.Holds ↔ (s.phase t).Holds)
    (hseen : ∀ v, p.Seen v → v ≤ s.word.version) (hdrawn : ∀ v o, p.Pending v o → (s.phase t).Pending v o)
    (hvalid : ∀ v o, p = .validated v o → v = s.word.version) (hinst : ∀ i, s.phase t ≠ .installed i) :
    Inv init (s.enter t p) where
  owner := forall_enter (Q := fun u p => s.word.owner = some u ↔ p.Holds) ((h.owner t).trans hholds.symm)
    (fun u _ => h.owner u)
  seen := forall_enter (Q := fun _ p => ∀ v, p.Seen v → v ≤ s.word.version) hseen (fun u _ => h.seen u)
  drawn := forall_enter (Q := fun _ p => ∀ v o, p.Pending v o → o < s.oidGen)
    (fun v o hp => h.drawn t v o (hdrawn v o hp)) (fun u _ => h.drawn u)
  given := h.given
  validated := forall_enter (Q := fun _ p => ∀ v o, p = .validated v o → v = s.word.version) hvalid (fun u _ => h.validated u)
  above hnone := by
    have hnone' (u : T) (i : Nat) : s.phase u ≠ .installed i := by
      by_cases hu : u = t
      · exact hu ▸ hinst i
      · have hi := hnone u i
        rwa [enter_of_ne hu] at hi
    exact forall_enter (Q := fun _ p => ∀ o, p.Pending s.word.version o → ∀ i ∈ s.committed, i < o)
      (fun o hp => h.above hnone' t o (hdrawn _ o hp)) (fun u _ => h.above hnone' u)
  sorted := h.sorted
  last := h.last

theorem Inv.draw {v} (hp : s.phase t = .observed v) : Inv init { s.enter t (.drawn v s.oidGen) with oidGen := s.oidGen+1 } where
  owner := forall_enter (Q := fun u p => s.word.owner = some u ↔ p.Holds) ((h.owner t).trans (by rw [hp]; exact Iff.rfl))
    (fun u _ => h.owner u)
  seen := forall_enter (Q := fun _ p => ∀ v, p.Seen v → v ≤ s.word.version) (fun w hw => h.seen t w (by rw [hp]; exact hw))
    (fun u _ => h.seen u)
  drawn := forall_enter (Q := fun _ p => ∀ v o, p.Pending v o → o < s.oidGen+1)
    (fun w o hpending => hpending.2 ▸ Nat.lt_succ_self _) (fun u _ w o hpending => Nat.lt_succ_of_lt (h.drawn u w o hpending))
  given o ho := Nat.lt_succ_of_lt (h.given o ho)
  validated := forall_enter (Q := fun _ p => ∀ v o, p = .validated v o → v = s.word.version)
    (fun w o heq => nomatch heq) (fun u _ => h.validated u)
  above hnone := by
    have hnone' (u : T) (i : Nat) : s.phase u ≠ .installed i := by
      by_cases hu : u = t
      · rw [hu,hp]
        exact fun heq => nomatch heq
      · have hi := hnone u i
        rwa [enter_of_ne hu] at hi
    exact forall_enter (Q := fun _ p => ∀ o, p.Pending s.word.version o → ∀ i ∈ s.committed, i < o)
      (fun o hpending i hi => hpending.2 ▸ h.given i hi) (fun u _ => h.above hnone' u)
  sorted := h.sorted
  last := h.last

theorem Inv.lock {v o} (hp : s.phase t = .drawn v o) (hfree : s.word.owner = none) :
    Inv init { s.enter t (.locked v o) with word := s.word.lock t } where
  owner := forall_enter (Q := fun u p => some t = some u ↔ p.Holds) (iff_of_true rfl trivial)
    (fun u hu => iff_of_false (fun heq => hu (some.inj heq).symm) (h.free hfree u))
  seen := forall_enter (Q := fun _ p => ∀ v, p.Seen v → v ≤ s.word.version) (fun w hw => h.seen t w (by rw [hp]; exact hw))
    (fun u _ => h.seen u)
  drawn := forall_enter (Q := fun _ p => ∀ v o, p.Pending v o → o < s.oidGen)
    (fun w i hpending => h.drawn t w i (by rw [hp]; exact hpending)) (fun u _ => h.drawn u)
  given := h.given
  validated := forall_enter (Q := fun _ p => ∀ v o, p = .validated v o → v = s.word.version)
    (fun w o heq => nomatch heq) (fun u _ => h.validated u)
  above _ := by
    have hnone (u : T) (i : Nat) : s.phase u ≠ .installed i := fun heq => h.free hfree u (by rw [heq]; trivial)
    exact forall_enter (Q := fun _ p => ∀ o, p.Pending s.word.version o → ∀ i ∈ s.committed, i < o)
      (fun i hpending => h.above hnone t i (by rw [hp]; exact hpending)) (fun u _ => h.above hnone u)
  sorted := h.sorted
  last := h.last

/-- The lock keeps every other transaction from installing, and the version is the one
that was observed before the id was drawn. -/
theorem Inv.install {v o} (hp : s.phase t = .validated v o) :
    Inv init { s.enter t (.installed o) with dNextOId := o, committed := s.committed ++ [o] } := by
  have hholds : (s.phase t).Holds := by rw [hp]; trivial
  have hnone (u : T) (i : Nat) : s.phase u ≠ .installed i := by
    intro heq
    have hu : (s.phase u).Holds := by rw [heq]; trivial
    obtain rfl := h.unique hholds hu
    rw [hp] at heq
    cases heq
  have hv : v = s.word.version := h.validated t v o hp
  have hpending : (s.phase t).Pending s.word.version o := by rw [hp]; exact ⟨hv,rfl⟩
  have habove : ∀ i ∈ s.committed, i < o := h.above hnone t o hpending
  constructor
  · exact forall_enter (Q := fun u p => s.word.owner = some u ↔ p.Holds) (iff_of_true ((h.owner t).mpr hholds) trivial)
      (fun u _ => h.owner u)
  · exact forall_enter (Q := fun _ p => ∀ v, p.Seen v → v ≤ s.word.version) (fun w hw => False.elim hw) (fun u _ => h.seen u)
  · exact forall_enter (Q := fun _ p => ∀ v o, p.Pending v o → o < s.oidGen) (fun w i hi => False.elim hi)
      (fun u _ => h.drawn u)
  · intro i hi
    rcases mem_append.mp hi with hi | hi
    · exact h.given i hi
    · obtain rfl := mem_singleton.mp hi
      exact h.drawn t _ _ hpending
  · exact forall_enter (Q := fun _ p => ∀ v o, p = .validated v o → v = s.word.version) (fun w i heq => nomatch heq)
      (fun u _ => h.validated u)
  · intro hnone'
    exact absurd (Function.update_self ..) (hnone' t o)
  · refine pairwise_append.mpr ⟨h.sorted,pairwise_singleton _ _,fun i hi j hj => ?_⟩
    obtain rfl := mem_singleton.mp hj
    exact habove i hi
  · exact (getLastD_concat ..).symm

/-- The version moves on, so that nobody has observed it yet. -/
theorem Inv.release {o} (hp : s.phase t = .installed o) : Inv init { s.enter t .idle with word := s.word.release } := by
  have hholds : (s.phase t).Holds := by rw [hp]; trivial
  constructor
  · exact forall_enter (Q := fun u p => none = some u ↔ p.Holds) (iff_of_false (fun heq => nomatch heq) id)
      (fun u hu => iff_of_false (fun heq => nomatch heq) (fun hh => hu (h.unique hholds hh)))
  · exact forall_enter (Q := fun _ p => ∀ v, p.Seen v → v ≤ s.word.version+1) (fun w hw => False.elim hw)
      (fun u _ w hw => Nat.le_succ_of_le (h.seen u w hw))
  · exact forall_enter (Q := fun _ p => ∀ v o, p.Pending v o → o < s.oidGen) (fun w i hi => False.elim hi)
      (fun u _ => h.drawn u)
  · exact h.given
  · refine forall_enter (Q := fun _ p => ∀ v o, p = .validated v o → v = s.word.version+1) (fun w i heq => nomatch heq)
      (fun u hu w i heq => ?_)
    have hu' : (s.phase u).Holds := by rw [heq]; trivial
    exact absurd (h.unique hholds hu') hu
  · intro _
    refine forall_enter (Q := fun _ p => ∀ o, p.Pending (s.word.version+1) o → ∀ i ∈ s.committed, i < o)
      (fun i hi => False.elim hi) (fun u _ i hpending => ?_)
    have hseen : (s.phase u).Seen (s.word.version+1) := by
      cases hphase : s.phase u with
      | drawn | locked | validated => rw [hphase] at hpending; exact hpending.1
      | idle | installed => rw [hphase] at hpending; exact hpending
      | observed => rw [hphase] at hpending; exact False.elim hpending
    exact absurd (h.seen u _ hseen) (Nat.not_succ_le_self _)
  · exact h.sorted
  · exact h.last

theorem Inv.unlock (hholds : (s.phase t).Holds) (hseen : ∃ v, (s.phase t).Seen v) :
    Inv init { s.enter t .idle with word := s.word.unlock } := by
  have hother (u : T) (hu : u ≠ t) : ¬(s.phase u).Holds := fun hh => hu (h.unique hholds hh)
  have hnone (u : T) (i : Nat) : s.phase u ≠ .installed i := by
    intro heq
    have hu : (s.phase u).Holds := by rw [heq]; trivial
    obtain rfl := h.unique hholds hu
    obtain ⟨v,hv⟩ := hseen
    rw [heq] at hv
    exact hv
  constructor
  · exact forall_enter (Q := fun u p => none = some u ↔ p.Holds) (iff_of_false (fun heq => nomatch heq) id)
      (fun u hu => iff_of_false (fun heq => nomatch heq) (hother u hu))
  · exact forall_enter (Q := fun _ p => ∀ v, p.Seen v → v ≤ s.word.version) (fun w hw => False.elim hw) (fun u _ => h.seen u)
  · exact forall_enter (Q := fun _ p => ∀ v o, p.Pending v o → o < s.oidGen) (fun w i hi => False.elim hi)
      (fun u _ => h.drawn u)
  · exact h.given
  · exact forall_enter (Q := fun _ p => ∀ v o, p = .validated v o → v = s.word.version) (fun w i heq => nomatch heq)
      (fun u _ => h.validated u)
  · intro _
    exact forall_enter (Q := fun _ p => ∀ o, p.Pending s.word.version o → ∀ i ∈ s.committed, i < o)
      (fun i hi => False.elim hi) (fun u _ => h.above hnone u)
  · exact h.sorted
  · exact h.last

theorem Inv.step (hstep : Step t s s') : Inv init s' := by
  cases hstep with
  | observe hp hfree =>
    refine h.move (by rw [hp]; exact Iff.rfl) (fun v hv => hv ▸ le_rfl) (fun v o hpending => False.elim hpending)
      (fun v o heq => nomatch heq) (fun i heq => ?_)
    rw [hp] at heq
    cases heq
  | draw hp => exact h.draw hp
  | lock hp hfree => exact h.lock hp hfree
  | check hp =>
    refine h.move (by rw [hp]; exact Iff.rfl) (fun v hv => hv ▸ le_rfl) (fun v o hpending => by rw [hp]; exact hpending)
      (fun v o heq => ?_) (fun i heq => ?_)
    · cases heq
      rfl
    · rw [hp] at heq
      cases heq
  | install hp => exact h.install hp
  | release hp => exact h.release hp
  | leave hp =>
    refine h.move (iff_of_false id hp) (fun v hv => False.elim hv) (fun v o hpending => False.elim hpending)
      (fun v o heq => nomatch heq) (fun i heq => ?_)
    rw [heq] at hp
    exact hp trivial
  | unlock hholds hseen => exact h.unlock hholds hseen

end

end Invariant

/-- The ids grow from one commit to the next, and the row holds the last one. -/
theorem new_order_ids_increase {T : Type} [DecidableEq T] {dNextOId oidGen : Nat} {s : District T}
    (h : (district T dNextOId oidGen).Reachable s) :
    s.committed.Nodup ∧ s.committed.Pairwise (· < ·) ∧
      ((s.committed = [] ∧ s.dNextOId = dNextOId) ∨ (s.dNextOId ∈ s.committed ∧ ∀ o ∈ s.committed, o ≤ s.dNextOId)) := by
  have hinv : Inv dNextOId s := by
    refine Machine.Reachable.ofNext_invariant h ?_ (fun s e s' hs hnext => hs.step (Step.of_next (a := e.2) hnext))
    exact ⟨fun t => iff_of_false (fun heq => nomatch heq) id,fun _ _ hv => False.elim hv,fun _ _ _ hp => False.elim hp,
      by simp,fun _ _ _ heq => (nomatch heq),fun _ _ _ hp => False.elim hp,List.Pairwise.nil,rfl⟩
  refine ⟨hinv.sorted.imp ne_of_lt,hinv.sorted,?_⟩
  have hlast := hinv.last
  rcases List.eq_nil_or_concat s.committed with hnil | ⟨ids,o,heq⟩
  · rw [hnil] at hlast
    exact Or.inl ⟨hnil,hlast⟩
  · rw [List.concat_eq_append] at heq
    have hsorted := hinv.sorted
    rw [heq] at hlast hsorted ⊢
    rw [List.getLastD_concat] at hlast
    refine Or.inr ⟨hlast ▸ by simp,fun i hi => ?_⟩
    rw [hlast]
    rcases List.mem_append.mp hi with hi | hi
    · exact ((List.pairwise_append.mp hsorted).2.2 i hi o (by simp)).le
    · exact (List.mem_singleton.mp hi).le

/-- Two transactions draw 3001 and 3002; the second commits, and the first tries again. -/
def retriedRun : List (Bool × Act) :=
  [(false,.observe),(false,.draw),(true,.observe),(true,.draw),(true,.lock),(true,.check),(true,.install),(true,.release),
    (false,.lock),(false,.abort),(false,.observe),(false,.draw),(false,.lock),(false,.check),(false,.install)]

theorem new_order_ids_increase_retried :
    let s := (district Bool 3001 3001).play (district Bool 3001 3001).start retriedRun
    s.committed = [3002,3003] ∧ s.committed.Pairwise (· < ·) :=
  ⟨by decide +kernel,
    (new_order_ids_increase (Machine.Reached.start.play retriedRun (by decide +kernel) (fun _ _ _ => trivial))).2.1⟩

end AlNiCo.Tpcc.OrderIds
