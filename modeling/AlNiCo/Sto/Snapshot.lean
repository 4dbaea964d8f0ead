import Mathlib
import AlNiCo.Library.Machine

/-! The timestamps of multi-version transactions: the counter that commits draw from, the slot in
which each thread announces the oldest timestamp it may use, and the read timestamp of snapshots.
The 64-bit counter is assumed never to wrap around. -/
namespace AlNiCo.Sto.Snapshot
open Library Option

def incrementValue : Nat := 0x1000

inductive Pc
  | ready
  | starting (tid : Nat)
  | publishing
  | scanning (k minWtid : Nat)
  | loading (next : Nat)
  | swapping (next rtid : Nat)
deriving DecidableEq

structure Thread where
  wtid : Nat
  commitTid : Nat
  /-- A transaction has started and not stopped. -/
  active : Bool
  pc : Pc

structure State (n : Nat) where
  tid : Nat
  rtid : Nat
  thread : Fin n → Thread

inductive Act
  | start | drawTid | stop | advance | go | spurious

variable {n : Nat}

namespace State

def set (s : State n) (t : Fin n) (x : Thread) : State n := { s with thread := Function.update s.thread t x }

def goTo (s : State n) (t : Fin n) (pc : Pc) : State n := s.set t { s.thread t with pc := pc }

def minWtid (wtid minWtid : Nat) : Nat := if wtid ≠ 0 ∧ wtid < minWtid then wtid else minWtid

/-- One atomic step of `start`, `write_tid`, `stop` or `epoch_advance_once` by thread `t`. -/
def next (s : State n) : Fin n × Act → Option (State n)
  | (t,a) =>
    let x := s.thread t
    match x.pc,a with
    | .ready,.start => if x.active then none else some (s.goTo t (.starting s.tid))
    | .starting tid,.go => some (s.set t ⟨tid,0,true,.ready⟩)
    | .ready,.drawTid =>
      if x.active ∧ x.commitTid = 0 then
        some { s.set t { x with commitTid := s.tid, pc := .publishing } with tid := s.tid+incrementValue }
      else none
    | .publishing,.go => some (s.set t { x with wtid := x.commitTid, pc := .ready })
    | .ready,.stop => if x.active then some (s.set t { x with wtid := 0, active := false }) else none
    | .ready,.advance => some (s.goTo t (.scanning 0 s.tid))
    | .scanning k m,.go =>
      if hk : k < n then some (s.goTo t (.scanning (k+1) (minWtid (s.thread ⟨k,hk⟩).wtid m)))
      else some (s.goTo t (if 0 < m then .loading (m-incrementValue) else .ready))
    | .loading next,.go => some (s.goTo t (if s.rtid < next then .swapping next s.rtid else .ready))
    | .swapping next rtid,.go =>
      some (if s.rtid = rtid then { s.goTo t .ready with rtid := next } else s.goTo t (.loading next))
    | .swapping next _,.spurious => some (s.goTo t (.loading next))
    | _,_ => none

end State

def snapshots (n : Nat) : Machine (State n) (Fin n × Act) :=
  .ofNext ⟨3*incrementValue,2*incrementValue,fun _ => ⟨0,0,false,.ready⟩⟩ State.next

section
variable {s s' : State n} {t : Fin n}

/-- The transaction of `t` has its commit timestamp and has not stopped. -/
def Committing (s : State n) (t : Fin n) : Prop := (s.thread t).active = true ∧ (s.thread t).commitTid ≠ 0

instance (s : State n) (t : Fin n) : Decidable (Committing s t) := inferInstanceAs (Decidable (_ ∧ _))

/-- `m` is at most the counter, and at most the commit timestamp of every thread below `k`. -/
structure Bound (s : State n) (k m : Nat) : Prop where
  low : incrementValue ≤ m
  tid : m ≤ s.tid
  commits : ∀ t, Committing s t → t.val < k → m ≤ (s.thread t).commitTid

/-- What every step leaves true of the commit timestamps: they are kept or newly drawn. -/
structure Later (s s' : State n) : Prop where
  tid : s.tid ≤ s'.tid
  commits : ∀ t, Committing s' t → Committing s t ∧ (s'.thread t).commitTid = (s.thread t).commitTid ∨ s.tid ≤ (s'.thread t).commitTid

theorem Bound.later {k m} (h : Bound s k m) (hl : Later s s') : Bound s' k m := by
  refine ⟨h.low,h.tid.trans hl.tid,fun t ht hk => ?_⟩
  rcases hl.commits t ht with ⟨hs,heq⟩ | hnew
  · rw [heq]
    exact h.commits t hs hk
  · exact h.tid.trans hnew

def Loaded (s : State n) (x : Thread) : Pc → Prop
  | .ready => True
  | .starting tid => incrementValue ≤ tid ∧ tid ≤ s.tid
  | .publishing => x.active = true ∧ x.commitTid ≠ 0
  | .scanning k m => Bound s k m
  | .loading next => Bound s n (next+incrementValue)
  | .swapping next rtid => rtid < next ∧ Bound s n (next+incrementValue)

theorem Loaded.later {x pc} (h : Loaded s x pc) (hl : Later s s') : Loaded s' x pc := by
  cases pc with
  | ready => trivial
  | starting => exact ⟨h.1,h.2.trans hl.tid⟩
  | publishing => exact h
  | scanning | loading => exact Bound.later h hl
  | swapping => exact ⟨h.1,h.2.later hl⟩

/-- What holds of a thread: its slot announces no more than the timestamp it draws. -/
structure Ok (s : State n) (x : Thread) : Prop where
  slot : x.wtid ≠ 0 → incrementValue ≤ x.wtid
  active : x.active = true → x.wtid ≠ 0 ∧ x.wtid ≤ s.tid ∧ x.commitTid ≤ s.tid
  commit : x.active = true → x.commitTid ≠ 0 → x.wtid ≤ x.commitTid
  loaded : Loaded s x x.pc

theorem Ok.later {x} (h : Ok s x) (hl : Later s s') : Ok s' x where
  slot := h.slot
  active ha := ⟨(h.active ha).1,(h.active ha).2.1.trans hl.tid,(h.active ha).2.2.trans hl.tid⟩
  commit := h.commit
  loaded := h.loaded.later hl

structure Inv (s : State n) : Prop where
  rtid : Bound s n (s.rtid+incrementValue)
  ok : ∀ t, Ok s (s.thread t)

end

section Steps
variable {s s' : State n} {t : Fin n}

inductive Step (t : Fin n) (s : State n) : State n → Prop
  | load (ha : (s.thread t).active = false) : Step t s (s.goTo t (.starting s.tid))
  | announce {tid} (hp : (s.thread t).pc = .starting tid) : Step t s (s.set t ⟨tid,0,true,.ready⟩)
  | draw (ha : (s.thread t).active = true) :
      Step t s { s.set t { s.thread t with commitTid := s.tid, pc := .publishing } with tid := s.tid+incrementValue }
  | publish (hp : (s.thread t).pc = .publishing) :
      Step t s (s.set t { s.thread t with wtid := (s.thread t).commitTid, pc := .ready })
  | stop (hp : (s.thread t).pc = .ready) : Step t s (s.set t { s.thread t with wtid := 0, active := false })
  | advance : Step t s (s.goTo t (.scanning 0 s.tid))
  | scan {k m} (hp : (s.thread t).pc = .scanning k m) (hk : k < n) :
      Step t s (s.goTo t (.scanning (k+1) (State.minWtid (s.thread ⟨k,hk⟩).wtid m)))
  | scanned {k m} (hp : (s.thread t).pc = .scanning k m) (hk : ¬ k < n) :
      Step t s (s.goTo t (if 0 < m then .loading (m-incrementValue) else .ready))
  | loadRtid {next} (hp : (s.thread t).pc = .loading next) :
      Step t s (s.goTo t (if s.rtid < next then .swapping next s.rtid else .ready))
  | swap {next} (hp : (s.thread t).pc = .swapping next s.rtid) : Step t s { s.goTo t .ready with rtid := next }
  | retry {next rtid} (hp : (s.thread t).pc = .swapping next rtid) : Step t s (s.goTo t (.loading next))

theorem Step.of_next {a} (h : s.next (t,a) = some s') : Step t s s' := by
  simp only [State.next] at h
  split at h
  · obtain ⟨ha,heq⟩ := ite_none_left_eq_some.mp h
    exact some.inj heq ▸ .load (Bool.eq_false_of_not_eq_true ha)
  · rename_i hp
    exact some.inj h ▸ .announce hp
  · obtain ⟨ha,rfl⟩ := ite_some_none_eq_some.mp h
    exact .draw ha.1
  · rename_i hp
    exact some.inj h ▸ .publish hp
  · rename_i hp
    obtain ⟨_,rfl⟩ := ite_some_none_eq_some.mp h
    exact .stop hp
  · exact some.inj h ▸ .advance
  · rename_i hp
    split at h
    · rename_i hk
      exact some.inj h ▸ .scan hp hk
    · rename_i hk
      exact some.inj h ▸ .scanned hp hk
  · rename_i hp
    exact some.inj h ▸ .loadRtid hp
  · rename_i hp
    obtain rfl := some.inj h
    split_ifs with hr
    · subst hr
      exact .swap hp
    · exact .retry hp
  · rename_i hp
    exact some.inj h ▸ .retry hp
  · cases h

/-- A thread that keeps its commit timestamp, or has stopped, or draws the next one. -/
private theorem later_of_set {x tid rtid} (htid : s.tid ≤ tid) (hx : x.active = true → x.commitTid ≠ 0 →
      (Committing s t ∧ x.commitTid = (s.thread t).commitTid) ∨ s.tid ≤ x.commitTid) :
    Later s { s.set t x with tid := tid, rtid := rtid } := by
  refine ⟨htid,fun u hu => ?_⟩
  by_cases hut : u = t
  · subst hut
    have hself : (s.set u x).thread u = x := Function.update_self _ _ _
    simp only [Committing,hself] at hu
    simpa only [hself] using hx hu.1 hu.2
  · have hother : (s.set t x).thread u = s.thread u := Function.update_of_ne hut _ _
    simp only [Committing,hother] at hu ⊢
    exact .inl ⟨hu,trivial⟩

theorem Step.later (h : Step t s s') : Later s s' := by
  have hsame {pc : Pc} {wtid rtid : Nat} : Later s { s.set t { s.thread t with wtid := wtid, pc := pc } with rtid := rtid } :=
    later_of_set le_rfl fun ha hc => .inl ⟨⟨ha,hc⟩,rfl⟩
  cases h with
  | load | publish | advance | scan | scanned | loadRtid | swap | retry => exact hsame
  | announce => exact later_of_set le_rfl fun _ hc => absurd rfl hc
  | draw => exact later_of_set (Nat.le_add_right _ _) fun _ _ => .inr le_rfl
  | stop => exact later_of_set le_rfl nofun

private theorem Inv.set {x tid rtid} (h : Inv s) (hl : Later s { s.set t x with tid := tid, rtid := rtid })
    (hr : Bound s n (rtid+incrementValue)) (hx : Ok { s.set t x with tid := tid, rtid := rtid } x) :
    Inv { s.set t x with tid := tid, rtid := rtid } := by
  refine ⟨hr.later hl,fun u => ?_⟩
  by_cases hut : u = t
  · subst hut
    have hself : (s.set u x).thread u = x := Function.update_self _ _ _
    exact hself.symm ▸ hx
  · have hother : (s.set t x).thread u = s.thread u := Function.update_of_ne hut _ _
    exact hother.symm ▸ (h.ok u).later hl

private theorem Inv.goTo {pc rtid} (h : Inv s) (hr : Bound s n (rtid+incrementValue)) (hpc : Loaded s (s.thread t) pc) :
    Inv { s.goTo t pc with rtid := rtid } := by
  have hl : Later s { s.goTo t pc with rtid := rtid } := later_of_set le_rfl fun ha hc => .inl ⟨⟨ha,hc⟩,rfl⟩
  have hok := (h.ok t).later hl
  have hpc' : Loaded s { s.thread t with pc := pc } pc := by
    cases pc <;> exact hpc
  exact h.set hl hr ⟨hok.slot,hok.active,hok.commit,hpc'.later hl⟩

/-- One more slot is read: the minimum bounds the timestamp of that thread as well. -/
private theorem Bound.scan {k m} (hk : k < n) (h : Bound s k m) (hok : Ok s (s.thread ⟨k,hk⟩)) :
    Bound s (k+1) (State.minWtid (s.thread ⟨k,hk⟩).wtid m) := by
  have hle : State.minWtid (s.thread ⟨k,hk⟩).wtid m ≤ m := by
    unfold State.minWtid
    split_ifs with hw
    · exact hw.2.le
    · exact le_rfl
  have hslot : (s.thread ⟨k,hk⟩).wtid ≠ 0 → State.minWtid (s.thread ⟨k,hk⟩).wtid m ≤ (s.thread ⟨k,hk⟩).wtid := by
    intro h0
    unfold State.minWtid
    split_ifs with hw
    · exact le_rfl
    · exact Nat.le_of_not_lt fun hlt => hw ⟨h0,hlt⟩
  refine ⟨?_,hle.trans h.tid,fun u hu huk => ?_⟩
  · unfold State.minWtid
    split_ifs with hw
    · exact hok.slot hw.1
    · exact h.low
  · rcases Nat.lt_succ_iff_lt_or_eq.mp huk with hlt | heq
    · exact hle.trans (h.commits u hu hlt)
    · obtain rfl : u = ⟨k,hk⟩ := Fin.ext heq
      exact (hslot (hok.active hu.1).1).trans (hok.commit hu.1 hu.2)

theorem Step.inv (h : Inv s) (hs : Step t s s') : Inv s' := by
  have hok := h.ok t
  have hlow : incrementValue ≤ s.tid := le_trans (Nat.le_add_left _ _) h.rtid.tid
  cases hs with
  | load ha => exact h.goTo h.rtid ⟨hlow,le_rfl⟩
  | @announce tid hp =>
    have hl := hok.loaded
    rw [hp] at hl
    refine h.set (Step.later (.announce hp)) h.rtid ⟨fun _ => hl.1,fun _ => ⟨?_,hl.2,Nat.zero_le _⟩,fun _ hc => absurd rfl hc,trivial⟩
    exact Nat.ne_of_gt (lt_of_lt_of_le (by decide) hl.1)
  | draw ha =>
    obtain ⟨h0,hle,-⟩ := hok.active ha
    refine h.set (Step.later (.draw ha)) h.rtid ⟨hok.slot,fun _ => ⟨h0,?_,?_⟩,fun _ _ => hle,ha,?_⟩
    · exact hle.trans (Nat.le_add_right _ _)
    · exact Nat.le_add_right _ _
    · exact Nat.ne_of_gt (lt_of_lt_of_le (by decide) hlow)
  | publish hp =>
    have hl := hok.loaded
    rw [hp] at hl
    obtain ⟨h0,-,hle⟩ := hok.active hl.1
    refine h.set (Step.later (.publish hp)) h.rtid ⟨fun _ => ?_,fun _ => ⟨hl.2,hle,hle⟩,fun _ _ => le_rfl,trivial⟩
    exact (hok.slot h0).trans (hok.commit hl.1 hl.2)
  | stop hp =>
    refine h.set (Step.later (.stop hp)) h.rtid ⟨fun h0 => absurd rfl h0,nofun,nofun,?_⟩
    rw [hp]
    trivial
  | advance => exact h.goTo h.rtid ⟨hlow,le_rfl,fun u _ hu => absurd hu (Nat.not_lt_zero _)⟩
  | scan hp hk =>
    have hl := hok.loaded
    rw [hp] at hl
    exact h.goTo h.rtid (Bound.scan hk hl (h.ok _))
  | @scanned k m hp hk =>
    have hl : Bound s k m := by
      have := hok.loaded
      rwa [hp] at this
    refine h.goTo h.rtid ?_
    split_ifs with hm
    · refine ⟨?_,?_,fun u hu _ => ?_⟩
      · exact Nat.le_add_left _ _
      · rw [Nat.sub_add_cancel hl.low]
        exact hl.tid
      · rw [Nat.sub_add_cancel hl.low]
        exact hl.commits u hu (by omega)
    · trivial
  | @loadRtid next hp =>
    have hl : Bound s n (next+incrementValue) := by
      have := hok.loaded
      rwa [hp] at this
    refine h.goTo h.rtid ?_
    split_ifs with hr
    · exact ⟨hr,hl⟩
    · trivial
  | @swap next hp =>
    have hl : s.rtid < next ∧ Bound s n (next+incrementValue) := by
      have := hok.loaded
      rwa [hp] at this
    exact h.goTo hl.2 trivial
  | @retry next rtid hp =>
    have hl : rtid < next ∧ Bound s n (next+incrementValue) := by
      have := hok.loaded
      rwa [hp] at this
    exact h.goTo h.rtid hl.2

theorem inv_start : Inv (snapshots n).start where
  rtid := ⟨Nat.le_add_left _ _,show 2*incrementValue+incrementValue ≤ 3*incrementValue by decide,
    fun _ hu => absurd hu.1 Bool.false_ne_true⟩
  ok _ := ⟨fun h0 => absurd rfl h0,nofun,nofun,trivial⟩

theorem Step.rtid_le (h : Inv s) (hs : Step t s s') : s.rtid ≤ s'.rtid := by
  cases hs with
  | swap hp =>
    have hl := (h.ok t).loaded
    rw [hp] at hl
    exact hl.1.le
  | _ => exact le_rfl

/-- The read timestamp never decreases, and it is below the commit timestamp of every transaction
that has one and has not stopped, at this point of the run and at every later one. -/
theorem read_timestamp_bound (h : (snapshots n).Reachable s) (hlead : (snapshots n).Leads s s') :
    s.rtid ≤ s'.rtid ∧ ∀ t, Committing s' t → s.rtid < (s'.thread t).commitTid ∧ s'.rtid < (s'.thread t).commitTid := by
  have hinv {s : State n} (h : (snapshots n).Reachable s) : Inv s :=
    h.ofNext_invariant inv_start fun s a s' hI hnext => (Step.of_next (t := a.1) (a := a.2) hnext).inv hI
  have hle : s.rtid ≤ s'.rtid := by
    refine hlead.ofNext_monotone State.rtid (hinv h) fun s a s' hI hnext => ?_
    have hstep := Step.of_next (t := a.1) (a := a.2) hnext
    exact ⟨hstep.inv hI,hstep.rtid_le hI⟩
  refine ⟨hle,fun t ht => ?_⟩
  have hb := (hinv (h.leads hlead)).rtid.commits t ht t.isLt
  have hlt : s'.rtid < (s'.thread t).commitTid := lt_of_lt_of_le (Nat.lt_add_of_pos_right (by decide)) hb
  exact ⟨hle.trans_lt hlt,hlt⟩

end Steps

/-- Two threads start and draw timestamps; the first stops, the second is not waited for by the
third, which moves the read timestamp up to what the second still announces. -/
def snapshotRun (t u w : Fin 3) : List (Fin 3 × Act) :=
  [(t,.start),(t,.go),(t,.drawTid),(t,.go),(u,.start),(u,.go),(u,.drawTid),(t,.stop),
    (w,.advance),(w,.go),(w,.go),(w,.go),(w,.go),(w,.go),(w,.go)]

theorem read_timestamp_bound_advanced :
    let s := (snapshots 3).play (snapshots 3).start (snapshotRun 0 1 2)
    s.rtid = 3*incrementValue ∧ (s.thread 1).commitTid = 4*incrementValue ∧ s.rtid < (s.thread 1).commitTid := by
  have hplay : (snapshots 3).playable (snapshots 3).start (snapshotRun 0 1 2) = true := by decide +kernel
  refine ⟨by decide +kernel,by decide +kernel,?_⟩
  exact ((read_timestamp_bound Machine.Reached.start ⟨snapshotRun 0 1 2,hplay,rfl⟩).2 1 (by decide +kernel)).2

end AlNiCo.Sto.Snapshot
