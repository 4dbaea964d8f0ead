import AlNiCo.Strife.Barrier

/-! From every reachable state of the Strife build the workers and `phase_sync_strife`
can go on until everything pushed so far is executed. -/
namespace AlNiCo.Strife
open Library RingLog Relation Function List

section Cores
variable {α : Type*} {now : Phase} {round : Nat} {c c' : Core α}

/-- Steps of one worker that does not push. -/
def Runs (now : Phase) : Core α → Core α → Prop := ReflTransGen (fun c c' => c' = c.work now)

theorem Runs.head (h : Runs now (c.work now) c') : Runs now c c' := ReflTransGen.head rfl h

structure Fit (now : Phase) (round : Nat) (c : Core α) : Prop where
  kept : Kept c
  placed : Placed now round c
  idle : c.isPushing = false
  stored : ∀ x ∈ c.log, x.2 = true

theorem Fit.work (h : Fit now round c) : Fit now round (c.work now) :=
  ⟨h.kept.work h.placed,h.placed.work,Core.work_isPushing h.idle,by rw [Core.work_log]; exact h.stored⟩

theorem Fit.runs (h : Fit now round c) (hrun : Runs now c c') : Fit now round c' ∧ c'.log = c.log := by
  induction hrun with
  | refl => exact ⟨h,rfl⟩
  | tail _ hstep ih =>
    subst hstep
    exact ⟨ih.1.work,by rw [Core.work_log,ih.2]⟩

namespace Core

/-- An upper bound on the steps to the head of the loop. -/
def rank (c : Core α) : Nat :=
  match c.pc with
  | .run => 0
  | .pushing _ _ _ => 0
  | .down => 1
  | .setZero => 1
  | .execute _ => 2
  | .check => 3
  | .batch => 4
  | .testZero => 5
  | .setTwo => 6
  | .store => 7
  | .testTwo => 8
  | .setOne => 9
  | .testOne => 10
  | .count => 11+(c.log.length-c.counted.length)

end Core

section
variable (h : Fit now round c)
include h

theorem Fit.rank_lt (hpc : c.pc ≠ .run) : (c.work now).rank < c.rank := by
  cases hcase : c.pc with
  | run => exact absurd hcase hpc
  | pushing core ticket msg =>
    have hidle := h.idle
    simp [Core.isPushing,hcase] at hidle
  | count =>
    simp only [Core.work,hcase]
    split
    · next msg hcell =>
      -- the message counted is an entry of the log
      have hlt : c.counted.length < c.log.length := by
        rw [h.kept.count_cell] at hcell
        obtain ⟨x,hx,-⟩ := Option.bind_eq_some_iff.mp hcell
        exact (List.getElem?_eq_some_iff.mp hx).1
      simp only [Core.rank,List.length_append,List.length_singleton,hcase]
      omega
    · simp only [Core.rank,hcase]
      omega
  | testOne | testTwo | testZero | batch | check =>
    simp only [Core.work,hcase]
    split <;> simp [Core.rank,hcase]
  | _ => simp [Core.work,Core.rank,hcase]

theorem Fit.settles : ∃ c', Runs now c c' ∧ c'.pc = .run := by
  induction hrank : c.rank using Nat.strong_induction_on generalizing c with
  | _ n ih =>
    by_cases hpc : c.pc = .run
    · exact ⟨c,.refl,hpc⟩
    · obtain ⟨c',hruns,hrun⟩ := ih _ (hrank ▸ h.rank_lt hpc) h.work rfl
      exact ⟨c',hruns.head,hrun⟩

/-- `count_strife` goes on to the end of the queue. -/
theorem Fit.counts (hpc : c.pc = .count) : ∃ c', Runs now c c' ∧ c'.pc = .testOne ∧
    c'.phase = c.phase ∧ c'.cuts = c.cuts ∧ c'.executed = c.executed ∧ c'.counted.length = c.log.length := by
  induction hleft : c.log.length-c.counted.length generalizing c with
  | zero =>
    have hlen : c.counted.length = c.log.length := Nat.le_antisymm h.kept.counted_le (by omega)
    have hcell : c.cell c.cqSignalId = none := by
      rw [h.kept.count_cell,getElem?_eq_none (by omega),Option.bind_none]
    have hwork : c.work now = { c with pc := .testOne } := by simp only [Core.work,hpc,hcell]
    refine ⟨c.work now,Runs.head .refl,?_⟩
    rw [hwork]
    exact ⟨rfl,rfl,rfl,rfl,hlen⟩
  | succ n ih =>
    obtain ⟨x,hx⟩ : ∃ x, c.log[c.counted.length]? = some x := ⟨_,getElem?_eq_getElem (by omega)⟩
    have hcell : c.cell c.cqSignalId = some x.1 := by
      rw [h.kept.count_cell,hx,Option.bind_some,RingLog.stored,if_pos (h.stored x (mem_of_getElem? hx))]
    have hwork : c.work now = { c with
        reqCount := c.reqCount+1
        cqSignalId := (c.cqSignalId+1) % strifeBufNum
        counted := c.counted ++ [x.1] } := by simp only [Core.work,hpc,hcell]
    have hnext := h.work
    rw [hwork] at hnext
    obtain ⟨c',hruns,hc'⟩ := ih hnext hpc (by simp only [length_append,length_singleton]; omega)
    rw [← hwork] at hruns
    exact ⟨c',hruns.head,hc'⟩

/-- From the head of the loop to the first test, with everything counted. -/
theorem Fit.loop (hpc : c.pc = .run) : ∃ c', Runs now c c' ∧ c'.pc = .testOne ∧
    c'.phase = c.phase ∧ c'.cuts = c.cuts ∧ c'.executed = c.executed ∧ c'.counted.length = c.log.length := by
  have hwork : c.work now = { c with pc := .count } := by simp only [Core.work,hpc]
  have hnext := h.work
  rw [hwork] at hnext
  obtain ⟨c',hruns,hc'⟩ := hnext.counts rfl
  rw [← hwork] at hruns
  exact ⟨c',hruns.head,hc'⟩

end

/-- A worker follows into phase 1. -/
theorem runs_one (c : Core α) : Runs .one { c with pc := .testOne, phase := .zero } { c with pc := .run, phase := .one } :=
  Runs.head (Runs.head (Runs.head (Runs.head .refl)))

/-- A worker takes its snapshot and follows into phase 2. -/
theorem runs_two (c : Core α) : Runs .two { c with pc := .testOne, phase := .one }
    { c.storeCount with pc := .run, phase := .two } :=
  Runs.head (Runs.head (Runs.head (Runs.head (Runs.head .refl))))

theorem runs_batch (c : Core α) : Runs .zero { c with pc := .testOne, phase := .two } { c with pc := .batch, phase := .two } :=
  Runs.head (Runs.head (Runs.head .refl))

private theorem with_self {pc phase} (hpc : c.pc = pc) (hphase : c.phase = phase) : c = { c with pc := pc, phase := phase } := by
  subst hpc hphase
  rfl

/-- A worker takes its snapshot; what is counted by then is the batch. -/
theorem Fit.snapshot (h : Fit .two round c) (hpc : c.pc = .run) (hphase : c.phase = .one) :
    ∃ c', Runs .two c c' ∧ c'.pc = .run ∧ c'.phase = .two ∧ c'.last = c'.log.length := by
  obtain ⟨c',hruns,hpc',hphase',-,-,hcounted⟩ := h.loop hpc
  have hlog := (h.runs hruns).2
  rw [with_self hpc' (hphase'.trans hphase)] at hruns
  refine ⟨_,hruns.trans (runs_two c'),rfl,rfl,?_⟩
  have hlast : Core.last { c'.storeCount with pc := .run, phase := .two } = c'.counted.length := c'.last_storeCount
  rw [hlast,hcounted,← hlog]
  rfl

theorem Fit.executes (h : Fit .zero round c) (hpc : c.pc = .run) (hphase : c.phase = .two) :
    ∃ c', Runs .zero c c' ∧ c'.pc = .run ∧ c'.phase = .zero ∧ c'.last = c.last := by
  induction hleft : c.last-c.executed.length generalizing c with
  | zero =>
    obtain ⟨c',hruns,hpc',hphase',hcuts,hexecuted,-⟩ := h.loop hpc
    have hkept := (h.runs hruns).1.kept
    have hlast : c'.last = c.last := by rw [Core.last,hcuts,Core.last]
    have hbatch : c'.batchReqNum = 0 := by
      refine hkept.batch_iff.mpr (Nat.le_antisymm hkept.executed_le ?_)
      rw [hlast,hexecuted]
      omega
    rw [with_self hpc' (hphase'.trans hphase)] at hruns
    have hleave : Runs .zero { c' with pc := .batch, phase := .two } { c' with pc := .run, phase := .zero } := by
      refine Runs.head ?_
      simp only [Core.work,hbatch,if_true]
      exact Runs.head .refl
    exact ⟨_,(hruns.trans (runs_batch c')).trans hleave,rfl,rfl,hlast⟩
  | succ n ih =>
    obtain ⟨c',hruns,hpc',hphase',hcuts,hexecuted,-⟩ := h.loop hpc
    have hkept := (h.runs hruns).1.kept
    have hlast : c'.last = c.last := by rw [Core.last,hcuts,Core.last]
    have hbatch : c'.batchReqNum ≠ 0 := by
      intro hzero
      have hdone := hkept.batch_iff.mp hzero
      rw [hlast,hexecuted] at hdone
      omega
    rw [with_self hpc' (hphase'.trans hphase)] at hruns
    have hcheck : Runs .zero { c' with pc := .batch, phase := .two } { c' with pc := .check, phase := .two } := by
      refine Runs.head ?_
      simp only [Core.work,hbatch,if_false]
      exact .refl
    have hall := (hruns.trans (runs_batch c')).trans hcheck
    obtain ⟨msg,hcell,-⟩ := (h.runs hall).1.kept.check_cell rfl
    have hone : Runs .zero { c' with pc := .check, phase := .two }
        { c' with
          pc := .run
          phase := .two
          batchReqNum := c'.batchReqNum-1
          executed := c'.executed ++ [(msg,c'.cuts.length)]
          cell := update c'.cell c'.strifeMsgId none
          strifeMsgId := (c'.strifeMsgId+1) % strifeBufNum } := by
      dsimp only at hcell
      refine Runs.head ?_
      simp only [Core.work,hcell]
      exact Runs.head (Runs.head .refl)
    have hnext := hall.trans hone
    obtain ⟨c'',hruns',hpc'',hphase'',hlast''⟩ := ih (h.runs hnext).1 rfl rfl (by
      have hsame : Core.last { c' with
          pc := .run
          phase := .two
          batchReqNum := c'.batchReqNum-1
          executed := c'.executed ++ [(msg,c'.cuts.length)]
          cell := update c'.cell c'.strifeMsgId none
          strifeMsgId := (c'.strifeMsgId+1) % strifeBufNum } = c.last := hlast
      rw [hsame]
      simp only [hexecuted,length_append,length_singleton]
      omega)
    exact ⟨c'',hnext.trans hruns',hpc'',hphase'',hlast''.trans hlast⟩

theorem Fit.follows (h : Fit now round c) (hpc : c.pc = .run) : ∃ c', Runs now c c' ∧ c'.pc = .run ∧ c'.phase = now := by
  by_cases hphase : c.phase = now
  · exact ⟨c,.refl,hpc,hphase⟩
  · have hnext := h.placed.phase.resolve_left hphase
    cases hcase : c.phase with
    | zero =>
      obtain rfl : now = .one := by rw [← hnext,hcase]; rfl
      obtain ⟨c',hruns,hpc',hphase',-⟩ := h.loop hpc
      rw [with_self hpc' (hphase'.trans hcase)] at hruns
      exact ⟨_,hruns.trans (runs_one c'),rfl,rfl⟩
    | one =>
      obtain rfl : now = .two := by rw [← hnext,hcase]; rfl
      obtain ⟨c',hruns,hpc',hphase',-⟩ := h.snapshot hpc hcase
      exact ⟨c',hruns,hpc',hphase'⟩
    | two =>
      obtain rfl : now = .zero := by rw [← hnext,hcase]; rfl
      obtain ⟨c',hruns,hpc',hphase',-⟩ := h.executes hpc hcase
      exact ⟨c',hruns,hpc',hphase'⟩

end Cores

open State

section Systems
variable {α : Type*} {workers : Nat} {s : State α}

def Calm (workers : Nat) (s : State α) : Prop := ∀ w < workers, (s.core w).isPushing = false

/-- Outside of pushes everything pushed is stored. -/
theorem Inv.fit (h : Inv workers s) (hcalm : Calm workers s) {w} (hw : w < workers) : Fit s.now s.round (s.core w) := by
  refine ⟨h.kept w,h.placed w hw,hcalm w hw,fun x hx => ?_⟩
  obtain ⟨msg,b⟩ := x
  cases b with
  | true => rfl
  | false =>
    obtain ⟨k,hk⟩ := getElem?_of_mem hx
    obtain ⟨v,hv,hpc⟩ := h.owned w k msg hk
    have hidle := hcalm v hv
    simp [Core.isPushing,hpc] at hidle

/-- The steps of one worker as a run of the system. -/
theorem leads_runs {now c c'} (hruns : Runs now c c') {w} (hw : w < workers)
    (hnow : s.now = now) (hcore : s.core w = c) (hidle : c.isPushing = false) :
    (machine α workers).Leads s (s.setCore w c') := by
  induction hruns using ReflTransGen.head_induction_on generalizing s with
  | refl =>
    have hsame : s.setCore w c' = s := by rw [setCore,← hcore,update_eq_self]
    rw [hsame]
    exact .refl _ _
  | head hstep _ ih =>
    subst hstep hcore hnow
    refine .head (a := .work w) (by simp [machine,ready,hw,hidle]) ?_
    have hnext := ih (s := s.setCore w ((s.core w).work s.now)) rfl (by simp [setCore])
      (Core.work_isPushing hidle)
    have hsame : (s.setCore w ((s.core w).work s.now)).setCore w c' = s.setCore w c' := by
      simp [setCore]
    rwa [hsame] at hnext

/-- What each worker can do alone they can all do, one after the other. -/
theorem leads_each (h : Inv workers s) (hcalm : Calm workers s) {P : Core α → Prop}
    (hrun : ∀ w < workers, ∃ c, Runs s.now (s.core w) c ∧ P c) :
    ∃ s', (machine α workers).Leads s s' ∧ s'.now = s.now ∧ Calm workers s' ∧
      (∀ w < workers, P (s'.core w) ∧ (s'.core w).log = (s.core w).log) := by
  have hpart (k : Nat) (hk : k ≤ workers) : ∃ s', (machine α workers).Leads s s' ∧ s'.now = s.now ∧ Calm workers s' ∧
      (∀ w < k, P (s'.core w) ∧ (s'.core w).log = (s.core w).log) ∧ (∀ w, k ≤ w → s'.core w = s.core w) := by
    induction k with
    | zero => exact ⟨s,.refl _ _,rfl,hcalm,fun w hw => absurd hw (Nat.not_lt_zero w),fun _ _ => rfl⟩
    | succ k ih =>
      obtain ⟨s',hleads,hnow,hcalm',hdone,hrest⟩ := ih (by omega)
      obtain ⟨c,hruns,hP⟩ := hrun k (by omega)
      have hfit := ((h.fit hcalm (show k < workers by omega)).runs hruns)
      refine ⟨s'.setCore k c,hleads.trans (leads_runs hruns (by omega) hnow (hrest k (Nat.le_refl k)) (hcalm k (by omega))),
        hnow,fun w hw => ?_,fun w hw => ?_,fun w hw => ?_⟩
      · by_cases hself : w = k
        · simpa only [setCore,hself,update_self] using hfit.1.idle
        · simpa only [setCore,update_of_ne hself] using hcalm' w hw
      · by_cases hself : w = k
        · subst hself
          simpa only [setCore,update_self] using ⟨hP,hfit.2⟩
        · simpa only [setCore,update_of_ne hself] using hdone w (by omega)
      · rw [setCore]
        dsimp only
        rw [update_of_ne (by omega),hrest w (by omega)]
  obtain ⟨s',hleads,hnow,hcalm',hdone,-⟩ := hpart workers (Nat.le_refl _)
  exact ⟨s',hleads,hnow,hcalm',hdone⟩

/-- `phase_sync_strife` looks at the rest of the workers. -/
theorem leads_look (hphase : ∀ w < workers, (s.core w).phase = s.now) (hi : s.i ≤ workers) :
    (machine α workers).Leads s { s with i := workers } := by
  induction hleft : workers-s.i generalizing s with
  | zero =>
    have hsame : ({ s with i := workers } : State α) = s := by
      rw [show workers = s.i by omega]
    rw [hsame]
    exact .refl _ _
  | succ n ih =>
    have hlt : s.i < workers := by omega
    refine .head (a := .look) (by simp [machine,ready,hlt]) ?_
    have hstep : s.step .look = { s with i := s.i+1 } := by
      simp [step,hphase s.i hlt]
    have hnext := ih (s := { s with i := s.i+1 }) hphase hlt (by dsimp only; omega)
    simpa only [machine,hstep] using hnext

/-- Once all workers have reached the phase, the next one begins. -/
theorem leads_turn (hphase : ∀ w < workers, (s.core w).phase = s.now) (hi : s.i ≤ workers) :
    ∃ s', (machine α workers).Leads s s' ∧ s'.now = s.now.next ∧ s'.core = s.core := by
  have hturn {s : State α} (hphase : ∀ w < workers, (s.core w).phase = s.now) (hi : s.i ≤ workers) :
      (machine α workers).Leads s (({ s with i := workers } : State α).step (.turn true)) :=
    (leads_look hphase hi).trans (.head (a := .turn true) (by simp [machine,ready]) (.refl _ _))
  cases hflag : s.flag with
  | true =>
    refine ⟨_,hturn hphase hi,?_,rfl⟩
    simp [step,hflag,turnPhase]
  | false =>
    -- the scan in progress has failed; the next one succeeds
    have hsame : ({ s with i := workers } : State α).step (.turn true) = { s with i := 0, flag := true } := by
      simp [step,hflag]
    have hfirst := hturn hphase hi
    rw [hsame] at hfirst
    refine ⟨_,hfirst.trans (hturn (s := { s with i := 0, flag := true }) hphase (Nat.zero_le _)),?_,rfl⟩
    simp [step,turnPhase]

theorem leads_calm (hs : (machine α workers).Reachable s) : ∃ s', (machine α workers).Leads s s' ∧ Calm workers s' ∧
      ∀ v, (s'.core v).log.map Prod.fst = (s.core v).log.map Prod.fst := by
  have hpart (k : Nat) (hk : k ≤ workers) : ∃ s', (machine α workers).Leads s s' ∧
      (∀ w < k, (s'.core w).isPushing = false) ∧ ∀ v, (s'.core v).log.map Prod.fst = (s.core v).log.map Prod.fst := by
    induction k with
    | zero => exact ⟨s,.refl _ _,fun w hw => absurd hw (Nat.not_lt_zero w),fun _ => rfl⟩
    | succ k ih =>
      obtain ⟨s',hleads,hcalm,hlog⟩ := ih (by omega)
      have hinv := inv_of_reachable (hs.leads hleads)
      cases hpc : (s'.core k).pc with
      | pushing core ticket msg =>
        refine ⟨s'.step (.store k),hleads.trans (.head (a := .store k) ?_ (.refl _ _)),fun w hw => ?_,fun v => ?_⟩
        · simp [machine,ready,Core.isPushing,hpc]
          omega
        · have hpc' : ((s'.step (.store k)).core w).pc = if w = k then .run else (s'.core w).pc := by
            simp only [step,hpc]
            exact pc_queue s' rfl
          by_cases hself : w = k
          · rw [Core.isPushing,hpc',if_pos hself]
          · rw [Core.isPushing,hpc',if_neg hself]
            exact hcalm w (by omega)
        · have hentry := hinv.reserved k core ticket msg hpc
          simp only [step,hpc]
          rw [log_setPc,← hlog v]
          by_cases hv : v = core
          · subst hv
            have hfst : ((s'.core v).log.map Prod.fst)[ticket]? = some msg := by
              rw [List.getElem?_map,hentry,Option.map_some]
            obtain ⟨hlt,heq⟩ := List.getElem?_eq_some_iff.mp hfst
            simp only [setCore,update_self,Core.put,List.map_set,← heq]
            exact List.set_getElem_self hlt
          · simp only [setCore,update_of_ne hv]
      | _ =>
        refine ⟨s',hleads,fun w hw => ?_,hlog⟩
        by_cases hself : w = k
        · simp [Core.isPushing,hself,hpc]
        · exact hcalm w (by omega)
  exact hpart workers (Nat.le_refl _)

/-- All workers are at the heads of their loops and the phase before has ended. -/
structure Between (workers : Nat) (s : State α) : Prop where
  reachable : (machine α workers).Reachable s
  calm : Calm workers s
  run : ∀ w < workers, (s.core w).pc = .run

theorem Between.inv (h : Between workers s) : Inv workers s := inv_of_reachable h.reachable

theorem Between.next (h : Between workers s) : ∃ s', (machine α workers).Leads s s' ∧ s'.now = s.now.next ∧
    Between workers s' ∧ (∀ w < workers, (s'.core w).phase = s.now ∧ (s'.core w).log = (s.core w).log) := by
  obtain ⟨s1,hleads,hnow,hcalm,hdone⟩ := leads_each h.inv h.calm
    (fun w hw => (h.inv.fit h.calm hw).follows (h.run w hw))
  have hinv := inv_of_reachable (h.reachable.leads hleads)
  obtain ⟨s2,hturn,hnext,hcore⟩ := leads_turn (fun w hw => by rw [(hdone w hw).1.2,hnow]) hinv.scan_le
  refine ⟨s2,hleads.trans hturn,by rw [hnext,hnow],⟨h.reachable.leads (hleads.trans hturn),fun w hw => ?_,fun w hw => ?_⟩,fun w hw => ?_⟩
  · rw [hcore]
    exact hcalm w hw
  · rw [hcore]
    exact (hdone w hw).1.1
  · rw [hcore]
    exact ⟨(hdone w hw).1.2,(hdone w hw).2⟩

theorem Between.two (h : Between workers s) : ∃ s', (machine α workers).Leads s s' ∧ s'.now = .two ∧
    Between workers s' ∧ (∀ w < workers, (s'.core w).phase = .one ∧ (s'.core w).log = (s.core w).log) := by
  have hone {s : State α} (h : Between workers s) (hnow : s.now = .one) : ∃ s', (machine α workers).Leads s s' ∧
      s'.now = .two ∧ Between workers s' ∧
      (∀ w < workers, (s'.core w).phase = .one ∧ (s'.core w).log = (s.core w).log) := by
    obtain ⟨s',hleads,hnext,hb,hdone⟩ := h.next
    rw [hnow] at hnext hdone
    exact ⟨s',hleads,hnext,hb,hdone⟩
  have hzero {s : State α} (h : Between workers s) (hnow : s.now = .zero) : ∃ s', (machine α workers).Leads s s' ∧
      s'.now = .two ∧ Between workers s' ∧
      (∀ w < workers, (s'.core w).phase = .one ∧ (s'.core w).log = (s.core w).log) := by
    obtain ⟨s1,hleads,hnext,hb,hdone⟩ := h.next
    obtain ⟨s2,hleads',hnow',hb',hdone'⟩ := hone hb (by rw [hnext,hnow]; rfl)
    exact ⟨s2,hleads.trans hleads',hnow',hb',fun w hw => ⟨(hdone' w hw).1,(hdone' w hw).2.trans (hdone w hw).2⟩⟩
  cases hnow : s.now with
  | zero => exact hzero h hnow
  | one => exact hone h hnow
  | two =>
    obtain ⟨s1,hleads,hnext,hb,hdone⟩ := h.next
    obtain ⟨s2,hleads',hnow',hb',hdone'⟩ := hzero hb (by rw [hnext,hnow]; rfl)
    exact ⟨s2,hleads.trans hleads',hnow',hb',fun w hw => ⟨(hdone' w hw).1,(hdone' w hw).2.trans (hdone w hw).2⟩⟩

theorem Kept.executed_all {c : Core α} (h : Kept c) (hphase : c.phase = .zero) (hpc : c.pc = .run)
    (hlast : c.last = c.log.length) : c.executed.map Prod.fst = c.log.map Prod.fst := by
  obtain ⟨rest,hrest⟩ := h.counted_start
  have hsettled := h.settled (by simp [hphase]) (by simp [hpc])
  have hprefix : c.executed.map Prod.fst <+: c.log.map Prod.fst := by
    refine h.executed_start.trans ⟨rest.map Prod.fst,?_⟩
    rw [hrest,List.map_append,List.map_map]
    simp [comp_def]
  refine hprefix.eq_of_length ?_
  rw [List.length_map,List.length_map,hsettled,hlast]

theorem leads_executed (hs : (machine α workers).Reachable s) : ∃ s', (machine α workers).Leads s s' ∧
    ∀ w < workers, (s'.core w).executed.map Prod.fst = (s.core w).log.map Prod.fst := by
  obtain ⟨s1,h1,hcalm1,hlog1⟩ := leads_calm hs
  have hr1 := hs.leads h1
  obtain ⟨s2,h2,-,hcalm2,hdone2⟩ := leads_each (inv_of_reachable hr1) hcalm1
    (fun w hw => ((inv_of_reachable hr1).fit hcalm1 hw).settles)
  obtain ⟨s3,h3,hnow3,hb3,hdone3⟩ :=
    Between.two ⟨hr1.leads h2,hcalm2,fun w hw => (hdone2 w hw).1⟩
  -- the snapshot of this round takes everything
  obtain ⟨s4,h4,hnow4,hcalm4,hdone4⟩ := leads_each (P := fun c => c.pc = .run ∧ c.phase = .two ∧ c.last = c.log.length)
    hb3.inv hb3.calm (fun w hw => by
      have hfit := hb3.inv.fit hb3.calm hw
      rw [hnow3] at hfit ⊢
      exact hfit.snapshot (hb3.run w hw) (hdone3 w hw).1)
  have hr4 := hb3.reachable.leads h4
  obtain ⟨s5,h5,hnow5,hcore5⟩ := leads_turn (fun w hw => by rw [(hdone4 w hw).1.2.1,hnow4,hnow3])
    (inv_of_reachable hr4).scan_le
  have hr5 := hr4.leads h5
  have hcalm5 : Calm workers s5 := fun w hw => by rw [hcore5]; exact hcalm4 w hw
  have hzero : s5.now = .zero := by rw [hnow5,hnow4,hnow3]; rfl
  obtain ⟨s6,h6,-,-,hdone6⟩ := leads_each
    (P := fun c => c.pc = .run ∧ c.phase = .zero ∧ ∃ w < workers, c.last = (s5.core w).last ∧ c.log = (s5.core w).log)
    (inv_of_reachable hr5) hcalm5 (fun w hw => by
      have hfit := (inv_of_reachable hr5).fit hcalm5 hw
      rw [hzero] at hfit ⊢
      obtain ⟨c,hruns,hpc,hphase,hlast⟩ := hfit.executes (by rw [hcore5]; exact (hdone4 w hw).1.1)
        (by rw [hcore5]; exact (hdone4 w hw).1.2.1)
      exact ⟨c,hruns,hpc,hphase,w,hw,hlast,(hfit.runs hruns).2⟩)
  refine ⟨s6,h1.trans (h2.trans (h3.trans (h4.trans (h5.trans h6)))),fun w hw => ?_⟩
  obtain ⟨⟨hpc,hphase,v,hv,hlast,hlogv⟩,hlog6⟩ := hdone6 w hw
  have hfull : (s6.core w).last = (s6.core w).log.length := by
    rw [hlast,hlogv,hcore5]
    exact (hdone4 v hv).1.2.2
  rw [((inv_of_reachable (hr5.leads h6)).kept w).executed_all hphase hpc hfull,hlog6,hcore5,(hdone4 w hw).2,
    (hdone3 w hw).2,(hdone2 w hw).2,hlog1 w]

end Systems

/-- For every interleaving: the phase of a worker is `now_phase` or the one before;
when a worker executes, all have taken the snapshot of the round; executed, last
snapshot, counted and pushed messages follow one another; what is counted and what
is executed are the first messages pushed, each once, executed in the round whose
snapshot is the first to include it and all of them by the end of that round; and
everything pushed can still be executed. -/
theorem strife_phase_barrier (α : Type*) (workers : Nat) {s : State α} (hs : (machine α workers).Reachable s) :
    (∀ w < workers, (s.core w).phase = s.now ∨ (s.core w).phase.next = s.now) ∧
    (∀ w < workers, ∀ msg, (s.core w).pc = .execute msg → ∀ v < workers, (s.core v).cuts.length = s.round) ∧
    (∀ w, (s.core w).executed.length ≤ (s.core w).last ∧ (s.core w).last ≤ (s.core w).counted.length ∧
      (s.core w).counted.length ≤ (s.core w).log.length) ∧
    (∀ w, (s.core w).counted <+: (s.core w).log.map Prod.fst ∧
      (s.core w).cqSignalId = (s.core w).counted.length % strifeBufNum ∧
      (s.core w).lastEpochNum = BitVec.ofNat 32 (s.core w).last) ∧
    (∀ w, (s.core w).executed.map Prod.fst <+: (s.core w).log.map Prod.fst ∧
      (∀ k msg r, (s.core w).executed[k]? = some (msg,r) → InRound (s.core w).cuts k r) ∧
      ((s.core w).phase ≠ .two → (s.core w).pc ≠ .setTwo → (s.core w).executed.length = (s.core w).last)) ∧
    ∃ s', (machine α workers).Leads s s' ∧
      ∀ w < workers, (s'.core w).executed.map Prod.fst = (s.core w).log.map Prod.fst := by
  have h := inv_of_reachable hs
  have hcounted (w : Nat) : (s.core w).counted <+: (s.core w).log.map Prod.fst := by
    obtain ⟨rest,hrest⟩ := (h.kept w).counted_start
    refine ⟨rest.map Prod.fst,?_⟩
    rw [hrest,List.map_append,List.map_map]
    simp [comp_def]
  refine ⟨fun w hw => (h.placed w hw).phase,fun w hw msg hpc v hv => ?_,
    fun w => ⟨(h.kept w).executed_le,(h.kept w).last_le,(h.kept w).counted_le⟩,
    fun w => ⟨hcounted w,(h.kept w).cq_eq,(h.kept w).last_eq⟩,
    fun w => ⟨(h.kept w).executed_start.trans (hcounted w),(h.kept w).rounds,(h.kept w).settled⟩,leads_executed hs⟩
  have hnow := ((h.placed w hw).zero (by simp [hpc])).2
  exact (h.placed v hv).taken (by simp [hnow])

/-- Each worker pushes to the other. Worker 1 takes its snapshot when worker 0 has
taken its own, so that one turn passes without a change of phase. -/
def twoWorkers : List (Action Nat) :=
  [[.push 0 1 7,.store 0,.push 1 0 9,.store 1,.look,.look,.turn true],List.replicate 7 (.work 0),List.replicate 7 (.work 1),
    [.look,.look,.turn true],List.replicate 7 (.work 0),[.look,.look,.turn true],List.replicate 7 (.work 1),[.look,.look,.turn true],
    List.replicate 7 (.work 0)].flatten

theorem strife_phase_barrier_two_workers :
    ∃ s, (machine Nat 2).Reachable s ∧ (s.core 0).pc = .execute 9 ∧ s.round = 1 ∧ (s.core 0).cuts.length = 1 ∧
      (s.core 1).cuts.length = 1 ∧ ∃ s', (machine Nat 2).Leads s s' ∧ (s'.core 1).executed.map Prod.fst = [7] := by
  let s := (machine Nat 2).play .start twoWorkers
  have hs : (machine Nat 2).Reachable s := Machine.Reachable.play .start twoWorkers (by decide +kernel)
  have hpc : (s.core 0).pc = .execute 9 := by decide +kernel
  have hround : s.round = 1 := by decide +kernel
  obtain ⟨-,hcuts,-,-,-,s',hleads,hall⟩ := strife_phase_barrier Nat 2 hs
  have htaken := hcuts 0 (by decide) 9 hpc
  rw [hround] at htaken
  exact ⟨s,hs,hpc,hround,htaken 0 (by decide),htaken 1 (by decide),s',hleads,(hall 1 (by decide)).trans (by decide +kernel)⟩

end AlNiCo.Strife
