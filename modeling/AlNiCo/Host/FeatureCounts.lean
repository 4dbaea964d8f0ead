import AlNiCo.Host.Central
import AlNiCo.Library.Counting

/-! Scheduler threads on disjoint slot ranges, with every fetch-and-add a step of
its own. Between its phases a slot is counted in part, by the features its thread
has not yet removed or has already added. -/
namespace AlNiCo.Host
open Placement Library.Counting Function

/-- Where a thread stands in the placement of its slot: before feature `f` of
the loop of `delate_old_request`, before the bitmap update of `f`, after the
copy of the new features, and likewise in `replace_new_request`. -/
inductive Phase
  | idle
  | deleting (f : Nat)
  | clearing (f : Nat)
  | choosing
  | adding (coreId : BitVec 16) (f : Nat)
  | setting (coreId : BitVec 16) (f : Nat) (x : BitVec 64)

structure Thread where
  slot : Nat
  phase : Phase

/-- The ranges `begin_id`, `end_id` of the threads. They are disjoint: a slot
lies in the range of its owner only. -/
structure Ranges (K : Config) where
  beginId : Nat → Nat
  endId : Nat → Nat
  owner : Nat → Nat
  endId_le : ∀ t, endId t ≤ K.slots
  owner_eq : ∀ t g, beginId t ≤ g → g < endId t → owner g = t

structure System where
  central : Central
  thread : Nat → Thread

def System.go (s : System) (t : Nat) (phase : Phase) (central : Central) : System where
  central := central
  thread := update s.thread t ⟨(s.thread t).slot,phase⟩

def System.slot (s : System) (t : Nat) : Nat := (s.thread t).slot

def System.phase (s : System) (t : Nat) : Phase := (s.thread t).phase

def System.features (s : System) (t : Nat) : Nat → BitVec 8 := s.central.oldFeature (s.slot t)

variable {K : Config}

/-- One atomic step. What `get_core_id` reads while others write is arbitrary. -/
inductive Step (R : Ranges K) (s : System) : System → Prop
  | turn (t g : Nat) (hidle : s.phase t = .idle) (hbegin : R.beginId t ≤ g) (hend : g < R.endId t) :
      Step R s { s with thread := update s.thread t ⟨g,.idle⟩ }
  | accept (t : Nat) (hidle : s.phase t = .idle) (hbegin : R.beginId t ≤ s.slot t) (hend : s.slot t < R.endId t) :
      Step R s (s.go t (.deleting (if ((s.central.oldCoreId (s.slot t)).toNat : Int) ≠ -1 then 0 else 512)) s.central)
  | delete (t f : Nat) (hphase : s.phase t = .deleting f) (hf : f < 512) (hbit : hasFeature (s.features t) f = true) :
      Step R s (s.go t (.clearing f) (s.central.addFeature (s.central.oldCoreId (s.slot t)).toNat f (-1)))
  | clear (t f : Nat) (hphase : s.phase t = .clearing f) :
      Step R s (s.go t (.deleting (f+1)) (s.central.clearFeature (s.central.oldCoreId (s.slot t)).toNat f))
  | skipDelete (t f : Nat) (hphase : s.phase t = .deleting f) (hf : f < 512)
      (hbit : hasFeature (s.features t) f = false) : Step R s (s.go t (.deleting (f+1)) s.central)
  | copy (t : Nat) (features : Nat → BitVec 8) (hphase : s.phase t = .deleting 512) :
      Step R s (s.go t .choosing (s.central.copyFeature (s.slot t) features))
  | choose (t : Nat) (mergeWeights : Nat → Nat → BitVec 32) (cByteFeature : Nat → Nat → BitVec 8)
      (defaultId : BitVec 32) (hdefault : defaultId.toNat < K.maxThread) (hphase : s.phase t = .choosing)
      (coreId : BitVec 16)
      (hcore : coreId = Host.getCoreId K.maxThread mergeWeights (s.features t) cByteFeature defaultId) :
      Step R s (s.go t (.adding coreId 0) (s.central.storeCore (s.slot t) coreId))
  | add (t : Nat) (coreId : BitVec 16) (f : Nat) (hphase : s.phase t = .adding coreId f) (hf : f < 512)
      (hbit : hasFeature (s.features t) f = true) :
      Step R s (s.go t (.setting coreId f (s.central.cFeature coreId.toNat f)) (s.central.addFeature coreId.toNat f 1))
  | set (t : Nat) (coreId : BitVec 16) (f : Nat) (x : BitVec 64) (hphase : s.phase t = .setting coreId f x) :
      Step R s (s.go t (.adding coreId (f+1)) (s.central.setFeature coreId.toNat f x))
  | skipAdd (t : Nat) (coreId : BitVec 16) (f : Nat) (hphase : s.phase t = .adding coreId f) (hf : f < 512)
      (hbit : hasFeature (s.features t) f = false) : Step R s (s.go t (.adding coreId (f+1)) s.central)
  | finish (t : Nat) (coreId : BitVec 16) (hphase : s.phase t = .adding coreId 512) : Step R s (s.go t .idle s.central)
  | guideline (filter : Nat → BitVec 8) : Step R s { s with central := { s.central with filter := filter } }
  | weights (mergeWeights : Nat → Nat → BitVec 32) :
      Step R s { s with central := { s.central with mergeWeights := mergeWeights } }

inductive Reachable (R : Ranges K) : System → Prop
  | start : Reachable R ⟨cpuAlnicoInit,fun t => ⟨R.beginId t,.idle⟩⟩
  | step {s s'} : Reachable R s → Step R s s' → Reachable R s'

def Phase.counts : Phase → Nat → Bool
  | .idle, _ => true
  | .deleting k, f => k ≤ f
  | .clearing k, f => k < f
  | .choosing, _ => false
  | .adding _ k, f => f < k
  | .setting _ k _, f => f ≤ k

def Phase.core? : Phase → Option (BitVec 16)
  | .adding coreId _ => some coreId
  | .setting coreId _ _ => some coreId
  | _ => none

variable (R : Ranges K) (s : System)

def System.phaseOf (g : Nat) : Phase := if s.slot (R.owner g) = g then s.phase (R.owner g) else .idle

def System.placed (c f g : Nat) : Bool :=
  (s.central.oldCoreId g).toNat == c && hasFeature (s.central.oldFeature g) f

def System.counted (c f g : Nat) : Bool := s.placed c f g && (s.phaseOf R g).counts f

abbrev System.Located (t : Nat) : Prop := R.beginId t ≤ s.slot t ∧ s.slot t < R.endId t

structure Inv : Prop where
  located : ∀ t, s.phase t ≠ .idle → R.beginId t ≤ s.slot t ∧ s.slot t < R.endId t
  core : ∀ t coreId, (s.phase t).core? = some coreId → s.central.oldCoreId (s.slot t) = coreId
  unplaced : ∀ g, (s.central.oldCoreId g).toNat < K.maxThread ∨ s.phaseOf R g = .choosing ∨
    ∀ f < 512, hasFeature (s.central.oldFeature g) f = false
  counts : ∀ c, ∀ f < 512, (s.central.cFeature c f).toNat = tally K.slots (s.counted R c f)

variable (p : Phase) (x : BitVec 64) (c : Central)

open Host.System

section Local
variable {R : Ranges K} {s : System} {t : Nat}

@[simp] theorem System.central_go : (s.go t p c).central = c := rfl

@[simp] theorem System.go_go (p q : Phase) (c d : Central) : (s.go t p c).go t q d = s.go t q d := by
  simp [go]

@[simp] theorem System.slot_go (u : Nat) : (s.go t p c).slot u = s.slot u := by
  by_cases hu : u = t
  · subst hu
    simp [go,slot]
  · simp [go,slot,hu]

@[simp] theorem System.phase_go_self : (s.go t p c).phase t = p := by
  simp [go,phase]

theorem System.phase_go {u} (hu : u ≠ t) : (s.go t p c).phase u = s.phase u := by
  simp [go,phase,hu]

theorem phaseOf_slot (hin : s.Located R t) : s.phaseOf R (s.slot t) = s.phase t := by
  rw [phaseOf,R.owner_eq t _ hin.1 hin.2,if_pos rfl]

theorem phaseOf_go_self (hin : s.Located R t) (p : Phase) (c : Central) : (s.go t p c).phaseOf R (s.slot t) = p := by
  rw [phaseOf,R.owner_eq t _ hin.1 hin.2,slot_go,if_pos rfl,phase_go_self]

/-- The step of a thread shows at its own slot only. -/
theorem phaseOf_go {g} (hg : g ≠ s.slot t) : (s.go t p c).phaseOf R g = s.phaseOf R g := by
  rw [phaseOf,phaseOf,slot_go]
  by_cases hu : R.owner g = t
  · rw [hu,if_neg (Ne.symm hg),if_neg (Ne.symm hg)]
  · rw [phase_go p c hu]

theorem Inv.slot_ne (h : Inv R s) {u} (hin : s.Located R t) (hu : s.phase u ≠ .idle) (hne : u ≠ t) : s.slot u ≠ s.slot t := by
  intro heq
  obtain ⟨hb,he⟩ := h.located u hu
  exact hne ((R.owner_eq u _ hb he).symm.trans (heq ▸ R.owner_eq t _ hin.1 hin.2))

/-- A step of thread `t` keeps the invariant if it counts what it changes. -/
theorem Inv.go (h : Inv R s) (hin : s.Located R t) {p c} (hcore : ∀ coreId, p.core? = some coreId → c.oldCoreId (s.slot t) = coreId)
    (hother : ∀ g, g ≠ s.slot t → c.oldCoreId g = s.central.oldCoreId g ∧ c.oldFeature g = s.central.oldFeature g)
    (hunplaced : (c.oldCoreId (s.slot t)).toNat < K.maxThread ∨ p = .choosing ∨ ∀ f < 512, hasFeature (c.oldFeature (s.slot t)) f = false)
    (hcounts : ∀ d, ∀ f < 512, (c.cFeature d f).toNat+(s.counted R d f (s.slot t)).toNat =
      (s.central.cFeature d f).toNat+((s.go t p c).counted R d f (s.slot t)).toNat) : Inv R (s.go t p c) := by
  refine ⟨fun u hu => ?_,fun u coreId hu => ?_,fun g => ?_,fun d f hf => ?_⟩
  · rw [System.slot_go]
    by_cases hut : u = t
    · exact hut ▸ hin
    · rw [System.phase_go p c hut] at hu
      exact h.located u hu
  · rw [System.slot_go]
    by_cases hut : u = t
    · subst hut
      rw [System.phase_go_self] at hu
      exact hcore coreId hu
    · rw [System.phase_go p c hut] at hu
      have hbusy : s.phase u ≠ .idle := fun hidle => by simp [hidle,Phase.core?] at hu
      exact (hother _ (h.slot_ne hin hbusy hut)).1.trans (h.core u coreId hu)
  · by_cases hg : g = s.slot t
    · subst hg
      rw [phaseOf_go_self hin]
      exact hunplaced
    · rw [phaseOf_go p c hg]
      obtain ⟨hid,hfeature⟩ := hother g hg
      simpa only [System.go,hid,hfeature] using h.unplaced g
  · have hslot : s.slot t < K.slots := Nat.lt_of_lt_of_le hin.2 (R.endId_le t)
    have hsame : ∀ g, g ≠ s.slot t → (s.go t p c).counted R d f g = s.counted R d f g := by
      intro g hg
      obtain ⟨hid,hfeature⟩ := hother g hg
      rw [System.counted,System.counted,phaseOf_go p c hg]
      simp only [System.placed,System.go,hid,hfeature]
    have htally := tally_replace hslot hsame
    have hcount := h.counts d f hf
    have hchange := hcounts d f hf
    simp only [System.go] at hchange htally ⊢
    omega

private theorem counted_slot (hin : s.Located R t) (d f : Nat) :
    s.counted R d f (s.slot t) = (s.placed d f (s.slot t) && (s.phase t).counts f) := by
  rw [counted,phaseOf_slot hin]

private theorem counted_go (hin : s.Located R t) (p : Phase) (c : Central) (d f : Nat) : (s.go t p c).counted R d f (s.slot t) =
      ((c.oldCoreId (s.slot t)).toNat == d && hasFeature (c.oldFeature (s.slot t)) f && p.counts f) := by
  rw [counted,phaseOf_go_self hin]
  rfl

private theorem Inv.silent (h : Inv R s) (hin : s.Located R t) {p c}
    (hcore : p.core? = none ∨ p.core? = (s.phase t).core?) (hphase : s.phase t ≠ .choosing)
    (hid : c.oldCoreId = s.central.oldCoreId) (hold : c.oldFeature = s.central.oldFeature)
    (hfeature : c.cFeature = s.central.cFeature)
    (hcounts : ∀ f < 512, hasFeature (s.features t) f = true → p.counts f = (s.phase t).counts f) :
    Inv R (s.go t p c) := by
  refine h.go hin (fun coreId hcid => ?_) (fun g _ => by rw [hid,hold]; exact ⟨rfl,rfl⟩) ?_ (fun d f hf => ?_)
  · rcases hcore with hnone | hsame
    · rw [hnone] at hcid
      exact absurd hcid (by simp)
    · rw [hid]
      exact h.core t coreId (hsame ▸ hcid)
  · rcases h.unplaced (s.slot t) with hlt | hchoose | hempty
    · exact .inl (hid ▸ hlt)
    · rw [phaseOf_slot hin] at hchoose
      exact absurd hchoose hphase
    · exact .inr (.inr (hold ▸ hempty))
  · rw [counted_slot hin,counted_go hin,hid,hold,hfeature]
    by_cases hbit : hasFeature (s.features t) f = true
    · rw [hcounts f hf hbit]
      rfl
    · simp only [placed,Bool.not_eq_true] at hbit ⊢
      rw [features] at hbit
      simp [hbit]

end Local

open Central

section Steps
variable {R : Ranges K} {s s' : System}

theorem inv_start (R : Ranges K) : Inv R ⟨cpuAlnicoInit,fun t => ⟨R.beginId t,.idle⟩⟩ := by
  refine ⟨fun t ht => absurd rfl ht,fun t coreId hcore => absurd hcore (by simp [phase,Phase.core?]),
    fun g => .inr (.inr fun f _ => ?_),fun c f _ => ?_⟩
  · simp [cpuAlnicoInit,hasFeature]
  · simp [cpuAlnicoInit,tally,counted,placed,hasFeature]

/-- Each count is at most the number of slots, so no increment wraps. -/
theorem Inv.count_le (h : Inv R s) (c : Nat) {f} (hf : f < 512) : (s.central.cFeature c f).toNat ≤ K.slots := by
  rw [h.counts c f hf]
  exact tally_le _ _

/-- Outside the choice a slot with a feature is placed. -/
theorem Inv.placed_lt (h : Inv R s) {t f} (hbusy : s.phase t ≠ .idle) (hphase : s.phase t ≠ .choosing) (hf : f < 512)
    (hbit : hasFeature (s.features t) f = true) : (s.central.oldCoreId (s.slot t)).toNat < K.maxThread := by
  have hin := h.located t hbusy
  rcases h.unplaced (s.slot t) with hlt | hchoose | hempty
  · exact hlt
  · exact absurd ((phaseOf_slot hin).symm.trans hchoose) hphase
  · exact absurd ((hempty f hf).symm.trans hbit) (by decide)

/-- A set bit that is about to be removed belongs to a placed slot that is counted. -/
theorem Inv.delete_pos (h : Inv R s) {t f} (hphase : s.phase t = .deleting f) (hf : f < 512)
    (hbit : hasFeature (s.features t) f = true) : (s.central.oldCoreId (s.slot t)).toNat < K.maxThread ∧
      0 < (s.central.cFeature (s.central.oldCoreId (s.slot t)).toNat f).toNat := by
  have hbusy : s.phase t ≠ .idle := by simp [hphase]
  have hin := h.located t hbusy
  constructor
  · exact h.placed_lt hbusy (by simp [hphase]) hf hbit
  · have hcounted : s.counted R (s.central.oldCoreId (s.slot t)).toNat f (s.slot t) = true := by
      rw [counted_slot hin,hphase]
      simp only [placed,Phase.counts,beq_self_eq_true,Bool.true_and,Bool.and_eq_true,decide_eq_true_eq]
      exact ⟨hbit,Nat.le_refl f⟩
    have hle := toNat_le_tally (Nat.lt_of_lt_of_le hin.2 (R.endId_le t))
      (s.counted R (s.central.oldCoreId (s.slot t)).toNat f)
    rw [hcounted,← h.counts _ f hf] at hle
    exact hle

private theorem toNat_pred (h : 0 < x.toNat) : (x+ -1).toNat+1 = x.toNat := by
  have hle : 1 ≤ x := BitVec.le_def.mpr (show 1 ≤ x.toNat from h)
  rw [BitVec.add_neg_eq_sub,BitVec.toNat_sub_of_le hle]
  exact Nat.sub_add_cancel h

private theorem toNat_succ (h : x.toNat < 2^31) : (x+1).toNat = x.toNat+1 :=
  BitVec.toNat_add_of_lt (show x.toNat+1 < 2^64 by omega)

/-- Adding `d` to the counter of `f` at the slot's core agrees with a change of
the phase that concerns `f` alone. -/
private theorem counts_addFeature {t f d p} (hin : s.Located R t) (hbit : hasFeature (s.features t) f = true)
    (hother : ∀ f', f' ≠ f → p.counts f' = (s.phase t).counts f')
    (hself : (s.central.cFeature (s.central.oldCoreId (s.slot t)).toNat f+d).toNat+((s.phase t).counts f).toNat =
      (s.central.cFeature (s.central.oldCoreId (s.slot t)).toNat f).toNat+(p.counts f).toNat) (c f' : Nat) :
    ((s.central.addFeature (s.central.oldCoreId (s.slot t)).toNat f d).cFeature c f').toNat+
        (s.counted R c f' (s.slot t)).toNat =
      (s.central.cFeature c f').toNat+((s.go t p (s.central.addFeature (s.central.oldCoreId (s.slot t)).toNat f d)).counted
        R c f' (s.slot t)).toNat := by
  have hplaced : hasFeature (s.central.oldFeature (s.slot t)) f = true := hbit
  rw [counted_slot hin,counted_go hin,cFeature_addFeature,placed]
  by_cases hboth : c = (s.central.oldCoreId (s.slot t)).toNat ∧ f' = f
  · obtain ⟨rfl,rfl⟩ := hboth
    rw [if_pos ⟨rfl,rfl⟩]
    simpa only [addFeature,hplaced,beq_self_eq_true,Bool.true_and] using hself
  · rw [if_neg hboth]
    by_cases hf : f' = f
    · have hcore : ((s.central.oldCoreId (s.slot t)).toNat == c) = false :=
        beq_false_of_ne (fun he => hboth ⟨he.symm,hf⟩)
      simp only [addFeature,hcore,Bool.false_and]
    · simp only [addFeature,hother f' hf]

section
variable (h : Inv R s)
include h

theorem Inv.delete {t f} (hphase : s.phase t = .deleting f) (hf : f < 512) (hbit : hasFeature (s.features t) f = true) :
    Inv R (s.go t (.clearing f) (s.central.addFeature (s.central.oldCoreId (s.slot t)).toNat f (-1))) := by
  have hin := h.located t (by simp [hphase])
  obtain ⟨hlt,hpos⟩ := h.delete_pos hphase hf hbit
  refine h.go hin (fun coreId hcore => absurd hcore (by simp [Phase.core?])) (fun g _ => ⟨rfl,rfl⟩) (.inl hlt)
    (fun c f' _ => counts_addFeature hin hbit (fun f' hne => ?_) ?_ c f')
  · rw [hphase,Phase.counts,Phase.counts]
    exact decide_eq_decide.mpr (by omega)
  · rw [hphase,Phase.counts,Phase.counts,decide_eq_true (Nat.le_refl f),decide_eq_false (Nat.lt_irrefl f)]
    exact toNat_pred _ hpos

theorem Inv.add {t coreId f} (hphase : s.phase t = .adding coreId f) (hf : f < 512) (hbit : hasFeature (s.features t) f = true) :
    Inv R (s.go t (.setting coreId f (s.central.cFeature coreId.toNat f)) (s.central.addFeature coreId.toNat f 1)) := by
  have hin := h.located t (by simp [hphase])
  obtain rfl := h.core t coreId (by simp [hphase,Phase.core?])
  have hle := h.count_le (s.central.oldCoreId (s.slot t)).toNat hf
  have hslots := K.slots_lt
  refine h.go hin (fun d hd => Option.some.inj hd) (fun g _ => ⟨rfl,rfl⟩)
    (.inl (h.placed_lt (by simp [hphase]) (by simp [hphase]) hf hbit))
    (fun c f' _ => counts_addFeature hin hbit (fun f' hne => ?_) ?_ c f')
  · rw [hphase,Phase.counts,Phase.counts]
    exact decide_eq_decide.mpr (by omega)
  · rw [hphase,Phase.counts,Phase.counts,decide_eq_true (Nat.le_refl f),decide_eq_false (Nat.lt_irrefl f)]
    exact toNat_succ _ (by omega)

theorem Inv.copy {t} (features : Nat → BitVec 8) (hphase : s.phase t = .deleting 512) :
    Inv R (s.go t .choosing (s.central.copyFeature (s.slot t) features)) := by
  have hin := h.located t (by simp [hphase])
  refine h.go hin (fun coreId hcore => absurd hcore (by simp [Phase.core?]))
    (fun g hg => ⟨rfl,update_of_ne hg _ _⟩) (.inr (.inl rfl)) (fun d f hf => ?_)
  have hlt : ¬ 512 ≤ f := by omega
  rw [counted_slot hin,counted_go hin,hphase]
  simp [Phase.counts,hlt,copyFeature]

theorem Inv.choose {t coreId} (hcore : coreId.toNat < K.maxThread) (hphase : s.phase t = .choosing) :
    Inv R (s.go t (.adding coreId 0) (s.central.storeCore (s.slot t) coreId)) := by
  have hin := h.located t (by simp [hphase])
  refine h.go hin (fun d hd => ?_) (fun g hg => ⟨update_of_ne hg _ _,rfl⟩) (.inl ?_) (fun d f _ => ?_)
  · exact (update_self _ _ _).trans (Option.some.inj hd)
  · simpa only [storeCore,update_self] using hcore
  · rw [counted_slot hin,counted_go hin,hphase]
    simp [Phase.counts,storeCore]

/-- An idle thread is seen at no slot, so it may move on. -/
theorem Inv.turn {t} (g : Nat) (hidle : s.phase t = .idle) : Inv R { s with thread := update s.thread t ⟨g,.idle⟩ } := by
  set u : System := { s with thread := update s.thread t ⟨g,.idle⟩ } with hu
  have hself : u.phase t = .idle := by simp [hu,phase]
  have hother (k : Nat) (hk : k ≠ t) : u.phase k = s.phase k ∧ u.slot k = s.slot k := by
    simp [hu,phase,slot,hk]
  have hphaseOf (k : Nat) : u.phaseOf R k = s.phaseOf R k := by
    rw [phaseOf,phaseOf]
    by_cases howner : R.owner k = t
    · rw [howner,hself,hidle,ite_self,ite_self]
    · rw [(hother _ howner).1,(hother _ howner).2]
  refine ⟨fun k hk => ?_,fun k coreId hk => ?_,fun k => ?_,fun c f hf => ?_⟩
  · have hne : k ≠ t := fun he => hk (he ▸ hself)
    rw [(hother k hne).2]
    exact h.located k ((hother k hne).1 ▸ hk)
  · have hne : k ≠ t := fun he => by rw [he,hself] at hk; exact absurd hk (by simp [Phase.core?])
    rw [(hother k hne).2]
    exact h.core k coreId ((hother k hne).1 ▸ hk)
  · rw [hphaseOf k]
    exact h.unplaced k
  · have hcounted : u.counted R c f = s.counted R c f := by
      funext k
      rw [counted,counted,hphaseOf k]
      rfl
    rw [hcounted]
    exact h.counts c f hf

theorem Inv.step (hs : Step R s s') : Inv R s' := by
  cases hs with
  | turn t g hidle hbegin hend =>
    exact h.turn g hidle
  | accept t hidle hbegin hend =>
    refine h.silent ⟨hbegin,hend⟩ (.inl rfl) (by simp [hidle]) rfl rfl rfl (fun f _ _ => ?_)
    rw [hidle,if_pos (by omega)]
    exact decide_eq_true (Nat.zero_le f)
  | delete t f hphase hf hbit => exact h.delete hphase hf hbit
  | clear t f hphase =>
    have hin := h.located t (by simp [hphase])
    obtain ⟨hagree,hcount⟩ := s.central.clearFeature_frame (s.central.oldCoreId (s.slot t)).toNat f
    exact h.silent hin (.inl rfl) (by simp [hphase]) hagree.oldCoreId hagree.oldFeature hcount
      (fun f' _ _ => by rw [hphase]; rfl)
  | skipDelete t f hphase hf hbit =>
    have hin := h.located t (by simp [hphase])
    refine h.silent hin (.inl rfl) (by simp [hphase]) rfl rfl rfl (fun f' _ hbit' => ?_)
    have hne : f' ≠ f := fun he => by rw [he,hbit] at hbit'; exact absurd hbit' (by decide)
    rw [hphase,Phase.counts,Phase.counts]
    exact decide_eq_decide.mpr (by omega)
  | copy t features hphase => exact h.copy features hphase
  | choose t mergeWeights cByteFeature defaultId hdefault hphase coreId hcore =>
    have hmax := K.maxThread_le
    refine h.choose ?_ hphase
    rw [hcore]
    exact Host.getCoreId_lt (by omega) _ _ _ hdefault
  | add t coreId f hphase hf hbit => exact h.add hphase hf hbit
  | set t coreId f x hphase =>
    have hin := h.located t (by simp [hphase])
    obtain ⟨hagree,hcount⟩ := s.central.setFeature_frame coreId.toNat f x
    refine h.silent hin (.inr (by rw [hphase]; rfl)) (by simp [hphase]) hagree.oldCoreId hagree.oldFeature hcount
      (fun f' _ _ => ?_)
    rw [hphase,Phase.counts,Phase.counts]
    exact decide_eq_decide.mpr (by omega)
  | skipAdd t coreId f hphase hf hbit =>
    have hin := h.located t (by simp [hphase])
    refine h.silent hin (.inr (by rw [hphase]; rfl)) (by simp [hphase]) rfl rfl rfl (fun f' _ hbit' => ?_)
    have hne : f' ≠ f := fun he => by rw [he,hbit] at hbit'; exact absurd hbit' (by decide)
    rw [hphase,Phase.counts,Phase.counts]
    exact decide_eq_decide.mpr (by omega)
  | finish t coreId hphase =>
    have hin := h.located t (by simp [hphase])
    refine h.silent hin (.inl rfl) (by simp [hphase]) rfl rfl rfl (fun f' hf' _ => ?_)
    rw [hphase]
    exact (decide_eq_true hf').symm
  | guideline | weights => exact ⟨h.located,h.core,h.unplaced,h.counts⟩

end

theorem inv_of_reachable (hs : Reachable R s) : Inv R s := by
  induction hs with
  | start => exact inv_start R
  | step _ hstep ih => exact ih.step hstep

def Ranges.single (K : Config) : Ranges K where
  beginId _ := 0
  endId t := if t = 0 then K.slots else 0
  owner _ := 0
  endId_le t := by split <;> omega
  owner_eq t g _ hg := by
    split at hg
    · exact Eq.symm ‹t = 0›
    · exact absurd hg (Nat.not_lt_zero g)

end Steps

section
variable {R : Ranges K} {s : System} {t : Nat}

@[simp] theorem System.features_go : (s.go t p c).features t = c.oldFeature (s.slot t) := by
  simp [features]

private theorem Reachable.delateFeature {c f} (hs : Reachable R (s.go t (.deleting f) c)) (hf : f < 512) :
    Reachable R (s.go t (.deleting (f+1)) (Central.delateFeature (s.slot t) (c.oldCoreId (s.slot t)).toNat c f)) := by
  rw [Central.delateFeature]
  by_cases hbit : hasFeature (c.oldFeature (s.slot t)) f = true
  · have hdelete := hs.step (.delete t f (by simp) hf (by simpa using hbit))
    have hclear := hdelete.step (.clear t f (by simp))
    simpa [hbit,Central.addFeature] using hclear
  · have hskip := hs.step (.skipDelete t f (by simp) hf (by simpa using hbit))
    simpa [hbit] using hskip

private theorem Reachable.replaceFeature {c coreId f} (hs : Reachable R (s.go t (.adding coreId f) c)) (hf : f < 512) :
    Reachable R (s.go t (.adding coreId (f+1)) (Central.replaceFeature (s.slot t) coreId.toNat c f)) := by
  rw [Central.replaceFeature]
  by_cases hbit : hasFeature (c.oldFeature (s.slot t)) f = true
  · have hadd := hs.step (.add t coreId f (by simp) hf (by simpa using hbit))
    have hset := hadd.step (.set t coreId f (c.cFeature coreId.toNat f) (by simp))
    simpa [hbit] using hset
  · have hskip := hs.step (.skipAdd t coreId f (by simp) hf (by simpa using hbit))
    simpa [hbit] using hskip

private theorem Reachable.delateLoop {c} (hs : Reachable R (s.go t (.deleting 0) c)) {n} (hn : n ≤ 512) :
    Reachable R (s.go t (.deleting n) (c.delateLoop (s.slot t) (c.oldCoreId (s.slot t)).toNat n)) := by
  induction n with
  | zero => rwa [delateLoop_zero]
  | succ n ih =>
    have hnext := (ih (by omega)).delateFeature (by omega)
    rw [(delateLoop_agree _ _ n c).oldCoreId] at hnext
    rwa [delateLoop_succ]

private theorem Reachable.replaceLoop {c coreId} (hs : Reachable R (s.go t (.adding coreId 0) c)) {n} (hn : n ≤ 512) :
    Reachable R (s.go t (.adding coreId n) (c.replaceLoop (s.slot t) coreId.toNat n)) := by
  induction n with
  | zero => rwa [replaceLoop_zero]
  | succ n ih =>
    rw [replaceLoop_succ]
    exact (ih (by omega)).replaceFeature (by omega)

variable (hs : Reachable R s) (hidle : s.phase t = .idle) (r : Request K) (hslot : s.slot t = r.slot)
  (hin : s.Located R t)
include hs hidle hslot hin

theorem Reachable.delateOldRequest : Reachable R (s.go t .choosing (s.central.delateOldRequest r.slot r.features)) := by
  have haccept := hs.step (.accept t hidle hin.1 hin.2)
  rw [if_pos (by omega)] at haccept
  have hcopy := (haccept.delateLoop (Nat.le_refl 512)).step (.copy t r.features (by simp))
  simp only [go_go,central_go,slot_go] at hcopy
  rw [← delateOldRequest_eq,hslot] at hcopy
  exact hcopy

/-- The placement of one request is a run of the thread's atomic steps. -/
theorem Reachable.place : Reachable R (s.go t .idle (s.central.place r)) := by
  have hcopy := hs.delateOldRequest hidle r hslot hin
  have hchoose := hcopy.step (.choose t _ _ r.defaultId r.default_lt (by simp) (s.central.chosen r)
    (by rw [features_go,hslot,chosen]))
  simp only [go_go,central_go,slot_go] at hchoose
  have hreplace := hchoose.replaceLoop (Nat.le_refl 512)
  have hfinish := hreplace.step (.finish t (s.central.chosen r) (by rw [phase_go_self]))
  rw [go_go,central_go,hslot] at hfinish
  exact hfinish

end

/-- Whatever the interleaving, when no thread is inside a placement each counter
is the number of slots last placed on its core with its feature. A counter is
decremented only when it is positive and incremented only below its maximum, at a
core below `MAX_THREAD`, so the marker 65535 of a slot that was never placed is no
index of a decrement. -/
theorem feature_counts_exact (R : Ranges K) {s : System} (hs : Reachable R s) :
    ((∀ t, s.phase t = .idle) → ∀ c, ∀ f < 512, (s.central.cFeature c f).toNat = tally K.slots (s.placed c f)) ∧
    (∀ t f, s.phase t = .deleting f → f < 512 → hasFeature (s.features t) f = true →
      (s.central.oldCoreId (s.slot t)).toNat < K.maxThread ∧ s.central.oldCoreId (s.slot t) ≠ 0xFFFF ∧
        0 < (s.central.cFeature (s.central.oldCoreId (s.slot t)).toNat f).toNat) ∧
    ∀ t coreId f, s.phase t = .adding coreId f → f < 512 → hasFeature (s.features t) f = true →
      coreId.toNat < K.maxThread ∧ (s.central.cFeature coreId.toNat f).toNat+1 < 2^64 := by
  have h := inv_of_reachable hs
  have hmax := K.maxThread_le
  have hslots := K.slots_lt
  refine ⟨fun hidle c f hf => ?_,fun t f hphase hf hbit => ?_,fun t coreId f hphase hf hbit => ?_⟩
  · rw [h.counts c f hf]
    congr 1
    funext g
    have hnone : s.phaseOf R g = .idle := by rw [System.phaseOf,hidle,ite_self]
    rw [System.counted,hnone,Phase.counts,Bool.and_true]
  · obtain ⟨hlt,hpos⟩ := h.delete_pos hphase hf hbit
    refine ⟨hlt,fun hmarker => ?_,hpos⟩
    rw [hmarker] at hlt
    exact absurd hlt (by rw [show (0xFFFF : BitVec 16).toNat = 65535 from rfl]; omega)
  · have hcore := h.core t coreId (by simp [hphase,Phase.core?])
    have hlt := h.placed_lt (by simp [hphase]) (by simp [hphase]) hf hbit
    have hle := h.count_le coreId.toNat hf
    exact ⟨hcore ▸ hlt,by omega⟩

/-- A slot for each thread. -/
def Ranges.each (K : Config) : Ranges K where
  beginId t := t
  endId t := if t < K.slots then t+1 else 0
  owner g := g
  endId_le t := by split <;> omega
  owner_eq t g hbegin hend := by split at hend <;> omega

def Config.pair : Config := ⟨2,2,by decide,by decide⟩

def System.served (s : System) (r : Request .pair) : System := s.go r.slot .idle (s.central.place r)

/-- Both threads stand at their slots, and the weights are those of `cpu_alnico_init`. -/
structure Unweighted (s : System) : Prop where
  reachable : Reachable (.each .pair) s
  idle : ∀ t, s.thread t = ⟨t,.idle⟩
  weights : s.central.mergeWeights = fun _ _ => 0

section
variable {s : System}

private theorem delate_weights (s : Central) (slot : Nat) (features : Nat → BitVec 8) :
    (s.delateOldRequest slot features).mergeWeights = s.mergeWeights := by
  have hcopy (d : Central) : (d.copyFeature slot features).mergeWeights = d.mergeWeights := rfl
  rw [delateOldRequest_eq,hcopy,(delateLoop_agree _ _ 512 s).mergeWeights]

private theorem Unweighted.served (hs : Unweighted s) (r : Request .pair) : Unweighted (s.served r) := by
  have hslot : s.slot r.slot = r.slot := by rw [System.slot,hs.idle]
  refine ⟨hs.reachable.place (by rw [System.phase,hs.idle]) r hslot ⟨hslot.ge,?_⟩,fun t => ?_,?_⟩
  · rw [hslot]
    exact (Nat.lt_succ_self _).trans_eq (if_pos r.slot_lt).symm
  · by_cases ht : t = r.slot
    · simp [System.served,System.go,ht,hs.idle]
    · simp [System.served,System.go,ht,hs.idle]
  · have hstore (d : Central) : (d.storeCore r.slot (s.central.chosen r)).mergeWeights = d.mergeWeights := rfl
    rw [System.served,central_go,place,replaceNewRequest,(replaceLoop_agree _ _ 512 _).mergeWeights,hstore,delate_weights,hs.weights]

/-- Every request goes to its default core. -/
private theorem Unweighted.chosen (hs : Unweighted s) (r : Request .pair) : s.central.chosen r = r.defaultId.setWidth 16 := by
  have hsum (a b : Nat → BitVec 8) : Host.coreSum (fun _ _ => 0) a b 64 = 0 := List.foldl_fixed' (fun _ => rfl) _
  have hstep (a : Nat → BitVec 8) (b : Nat → Nat → BitVec 8) (t : Nat) :
      Host.chooseStep (fun _ _ => 0) a b (0,r.defaultId) t = (0,r.defaultId) := by
    rw [Host.chooseStep,hsum]
    rfl
  rw [Central.chosen,delate_weights,hs.weights,Host.getCoreId,List.foldl_fixed' (hstep _ _)]

private theorem Unweighted.placed (hs : Unweighted s) (r : Request .pair) (c f g : Nat) : (s.served r).placed c f g =
    if g = r.slot then (r.defaultId.setWidth 16).toNat == c && hasFeature r.features f else s.placed c f g := by
  obtain ⟨hfeature,hcore,-⟩ := s.central.place_frame r
  rw [System.placed,System.served,central_go,hfeature,hcore,hs.chosen]
  split
  · next hg => rw [hg,update_self,update_self]
  · next hg => rw [update_of_ne hg,update_of_ne hg,System.placed]

end

/-- Features 5 and 6 on slot 0 and feature 5 on slot 1 go to core 1; the next request of slot 0 goes to core 0. -/
theorem feature_counts_exact_two_threads :
    let request (slot : Fin 2) (features : BitVec 8) (core : Fin 2) : Request .pair :=
      ⟨slot,fun i => if i = 0 then features else 0,BitVec.ofNat 32 core,slot.isLt,by decide +revert⟩
    let before := [request 0 0x60 1,request 1 0x20 1].foldl System.served ⟨cpuAlnicoInit,fun t => ⟨t,.idle⟩⟩
    let after := before.served (request 0 0x20 0)
    (Reachable (.each .pair) before ∧ (before.central.cFeature 1 5).toNat = 2 ∧ (before.central.cFeature 1 6).toNat = 1) ∧
    Reachable (.each .pair) after ∧ (after.central.cFeature 1 5).toNat = 1 ∧ (after.central.cFeature 1 6).toNat = 0 ∧
      (after.central.cFeature 0 5).toNat = 1 := by
  intro request before after
  have h₀ : Unweighted ⟨cpuAlnicoInit,fun t => ⟨t,.idle⟩⟩ := ⟨.start,fun _ => rfl,rfl⟩
  have h₁ := h₀.served (request 0 0x60 1)
  have h₂ : Unweighted before := h₁.served (request 1 0x20 1)
  have h₃ : Unweighted after := h₂.served (request 0 0x20 0)
  have hcount {s : System} (hs : Unweighted s) (c : Nat) {f : Nat} (hf : f < 512) :
      (s.central.cFeature c f).toNat = tally 2 (s.placed c f) :=
    (feature_counts_exact _ hs.reachable).1 (fun t => by rw [System.phase,hs.idle]) c f hf
  have hbefore (c f : Nat) : before.placed c f = _ := funext fun g => (h₁.placed _ c f g).trans (by rw [h₀.placed])
  have hafter (c f : Nat) : after.placed c f = _ := funext fun g => (h₂.placed _ c f g).trans (by rw [hbefore])
  refine ⟨⟨h₂.reachable,?_,?_⟩,h₃.reachable,?_,?_,?_⟩
  · rw [hcount h₂ 1 (by decide),hbefore]
    decide +kernel
  · rw [hcount h₂ 1 (by decide),hbefore]
    decide +kernel
  · rw [hcount h₃ 1 (by decide),hafter]
    decide +kernel
  · rw [hcount h₃ 1 (by decide),hafter]
    decide +kernel
  · rw [hcount h₃ 0 (by decide),hafter]
    decide +kernel

end AlNiCo.Host
