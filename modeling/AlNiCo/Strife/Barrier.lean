import AlNiCo.Strife.System

/-! What every interleaving of the Strife workers and `phase_sync_strife` keeps: each
queue is a window on the log of what was pushed, with the executed, the snapshot and
the counted part one before the other, and the phases move in step. -/
namespace AlNiCo.Strife
open Library RingLog Function List BitVec

variable {now : Phase} {round : Nat}

open Strife.Core

section Cores
variable {α : Type*} {c : Core α}

namespace Core

def done (c : Core α) : Nat :=
  match c.pc with
  | .down => c.executed.length-1
  | _ => c.executed.length

def last (c : Core α) : Nat := c.cuts.getLast?.getD 0

def Knows (c : Core α) : Prop :=
  match c.pc with
  | .setZero => c.executed.length = c.last
  | .check => c.executed.length < c.last
  | .execute msg => c.executed.length < c.last ∧ c.counted[c.executed.length]? = some msg
  | .down => 0 < c.executed.length
  | _ => True

end Core

/-- A message executed after `r` snapshots is in the last of these and in none before. -/
def InRound (cuts : List Nat) (k r : Nat) : Prop :=
  0 < r ∧ (∃ cut, cuts[r-1]? = some cut ∧ k < cut) ∧ ∀ j cut, j+1 < r → cuts[j]? = some cut → cut ≤ k

structure Kept (c : Core α) : Prop where
  ring : Ring strifeBufNum none stored c.cell c.log c.done
  head_eq : c.head = c.log.length
  cq_eq : c.cqSignalId = c.counted.length % strifeBufNum
  msg_eq : c.strifeMsgId = c.done % strifeBufNum
  req_eq : c.reqCount = BitVec.ofNat 64 c.counted.length
  last_eq : c.lastEpochNum = BitVec.ofNat 32 c.last
  batch_eq : c.batchReqNum = BitVec.ofNat 32 (c.last-c.executed.length)
  counted_start : ∃ rest, c.log = c.counted.map (fun msg => (msg,true)) ++ rest
  executed_start : c.executed.map Prod.fst <+: c.counted
  executed_le : c.executed.length ≤ c.last
  last_le : c.last ≤ c.counted.length
  bound : c.log.length ≤ c.executed.length+48000
  settled : c.phase ≠ .two → c.pc ≠ .setTwo → c.executed.length = c.last
  knows : c.Knows
  past : ∀ j cut, j+1 < c.cuts.length → c.cuts[j]? = some cut → cut ≤ c.executed.length
  rounds : ∀ k msg r, c.executed[k]? = some (msg,r) → InRound c.cuts k r

/-- The phase of a worker against `now_phase`, and the snapshots it has taken. -/
structure Placed (now : Phase) (round : Nat) (c : Core α) : Prop where
  phase : c.phase = now ∨ c.phase.next = now
  one : c.pc = .setOne → c.phase = .zero ∧ now = .one
  two : c.pc = .store ∨ c.pc = .setTwo → c.phase = .one ∧ now = .two
  zero : c.pc = .batch ∨ c.pc = .setZero ∨ c.pc = .check ∨ (∃ msg, c.pc = .execute msg) ∨ c.pc = .down →
    c.phase = .two ∧ now = .zero
  due : now = .two → c.phase = .one → c.pc ≠ .setTwo → c.cuts.length+1 = round
  taken : now ≠ .two ∨ c.phase ≠ .one ∨ c.pc = .setTwo → c.cuts.length = round

theorem Kept.counted_le (h : Kept c) : c.counted.length ≤ c.log.length := by
  obtain ⟨rest,hrest⟩ := h.counted_start
  rw [hrest,length_append,length_map]
  exact Nat.le_add_right _ _

theorem Core.done_of_ne (hpc : c.pc ≠ .down) : c.done = c.executed.length := by
  rw [done]
  split
  · contradiction
  · rfl

theorem Core.done_le (c : Core α) : c.done ≤ c.executed.length := by
  rw [done]
  split
  · exact Nat.sub_le _ _
  · exact Nat.le_refl _

section
variable (h : Kept c)
include h

theorem Kept.log_of_lt {k : Nat} {msg : α} (hk : c.counted[k]? = some msg) : c.log[k]? = some (msg,true) := by
  obtain ⟨rest,hrest⟩ := h.counted_start
  have hlt := (List.getElem?_eq_some_iff.mp hk).1
  rw [hrest,List.getElem?_append_left (by simpa using hlt),List.getElem?_map,hk,Option.map_some]

/-- An entry that is not stored is not counted. -/
theorem Kept.le_ticket {k : Nat} {msg : α} (hk : c.log[k]? = some (msg,false)) : c.counted.length ≤ k := by
  by_contra hlt
  obtain ⟨msg',hmsg⟩ : ∃ msg', c.counted[k]? = some msg' := ⟨_,getElem?_eq_getElem (by omega)⟩
  have hlog := h.log_of_lt hmsg
  rw [hk] at hlog
  simp at hlog

/-- The ring has room for every message that may be pushed. -/
theorem Kept.room : c.log.length < c.done+strifeBufNum := by
  have hbound := h.bound
  have hle : c.executed.length ≤ c.done+1 := by
    rw [done]
    split <;> omega
  rw [strifeBufNum]
  omega

/-- The cell under the count pointer holds the first message that is not counted,
from its store on. -/
theorem Kept.count_cell : c.cell c.cqSignalId = c.log[c.counted.length]?.bind stored := by
  have hexec := h.executed_le
  have hlast := h.last_le
  have hdone := c.done_le
  rw [h.cq_eq]
  cases hx : c.log[c.counted.length]? with
  | some x => exact h.ring.live _ x (by omega) hx
  | none =>
    have hlen : c.counted.length = c.log.length :=
      Nat.le_antisymm h.counted_le (getElem?_eq_none_iff.mp hx)
    rw [hlen]
    exact h.ring.next_empty h.room

/-- Only the place in the loop and the phase change. -/
theorem Kept.move (hold : c.pc ≠ .down) {pc} (hnew : pc ≠ .down) {phase}
    (hsettled : phase ≠ .two → pc ≠ .setTwo → c.executed.length = c.last)
    (hknows : Core.Knows { c with pc := pc, phase := phase }) : Kept { c with pc := pc, phase := phase } := by
  have hdone : done { c with pc := pc, phase := phase } = c.done := by
    rw [done_of_ne hold,done_of_ne hnew]
  refine ⟨?_,h.head_eq,h.cq_eq,?_,h.req_eq,h.last_eq,h.batch_eq,h.counted_start,h.executed_start,h.executed_le,
    h.last_le,h.bound,hsettled,hknows,h.past,h.rounds⟩
  · rw [hdone]
    exact h.ring
  · rw [hdone]
    exact h.msg_eq

theorem Kept.goto (hold : c.pc ≠ .down ∧ c.pc ≠ .setTwo) {pc} (hnew : pc ≠ .down)
    (hknows : Core.Knows { c with pc := pc }) : Kept { c with pc := pc } :=
  h.move hold.1 hnew (fun hphase _ => h.settled hphase hold.2) hknows

theorem Kept.count (hpc : c.pc = .count) {msg} (hcell : c.cell c.cqSignalId = some msg) : Kept { c with
      reqCount := c.reqCount+1
      cqSignalId := (c.cqSignalId+1) % strifeBufNum
      counted := c.counted ++ [msg] } := by
  have hfirst : c.log[c.counted.length]? = some (msg,true) := by
    rw [h.count_cell] at hcell
    obtain ⟨⟨x,b⟩,hx,hb⟩ := Option.bind_eq_some_iff.mp hcell
    cases b with
    | false => simp [stored] at hb
    | true =>
      rw [hx]
      simpa [stored] using hb
  obtain ⟨rest,hrest⟩ := h.counted_start
  have hhead : rest = (msg,true) :: rest.tail := by
    rw [hrest,getElem?_append_right (by simp),length_map,Nat.sub_self] at hfirst
    cases rest with
    | nil => simp at hfirst
    | cons x rest => simpa using hfirst
  have hlast := h.last_le
  refine ⟨h.ring,h.head_eq,?_,h.msg_eq,?_,h.last_eq,h.batch_eq,⟨rest.tail,?_⟩,
    h.executed_start.trans (prefix_append _ _),h.executed_le,?_,h.bound,h.settled,?_,h.past,h.rounds⟩
  · simp only [length_append,length_singleton,h.cq_eq,Nat.mod_add_mod]
  · simp only [length_append,length_singleton,h.req_eq,ofNat_add]
    rfl
  · rw [hrest,hhead]
    simp
  · simp only [length_append,length_singleton]
    exact Nat.le_succ_of_le hlast
  · simp only [Core.Knows,hpc]

end

private theorem setWidth_signExtend (x : BitVec 32) : (x.signExtend 64).setWidth 32 = x := by
  apply eq_of_getLsbD_eq
  intro i hi
  simp [getLsbD_signExtend,hi]
  omega

/-- The batch of a snapshot, up to 32 bits. -/
private theorem batch_sub {a b} (h : b ≤ a) :
    (((BitVec.ofNat 64 a).setWidth 32).signExtend 64-(BitVec.ofNat 32 b).signExtend 64).setWidth 32 = BitVec.ofNat 32 (a-b) := by
  rw [sub_eq_add_neg,setWidth_add _ _ (by decide),setWidth_neg_of_le (by decide),
    setWidth_signExtend,setWidth_signExtend,← sub_eq_add_neg,setWidth_ofNat_of_le (by decide),
    sub_eq_iff_eq_add,← ofNat_add,Nat.sub_add_cancel h]

theorem Core.last_storeCount (c : Core α) : c.storeCount.last = c.counted.length := by
  simp [last,storeCount]

theorem Core.last_eq_getElem (c : Core α) (hne : c.cuts ≠ []) : c.cuts[c.cuts.length-1]? = some c.last := by
  rw [← getLast?_eq_getElem?,last,getLast?_eq_some_getLast hne,Option.getD_some]

theorem InRound.snapshot {cuts k r} (h : InRound cuts k r) (cut : Nat) : InRound (cuts ++ [cut]) k r := by
  obtain ⟨hpos,⟨cut',hcut,hlt⟩,hbefore⟩ := h
  have hr := (List.getElem?_eq_some_iff.mp hcut).1
  refine ⟨hpos,⟨cut',?_,hlt⟩,fun j cut'' hj hcut'' => hbefore j cut'' hj ?_⟩
  · rwa [List.getElem?_append_left hr]
  · rwa [List.getElem?_append_left (by omega)] at hcut''

section
variable (h : Kept c)
include h

theorem Kept.store (hpc : c.pc = .store) (hphase : c.phase ≠ .two) : Kept { c.storeCount with pc := .setTwo } := by
  have hsettled := h.settled hphase (by simp [hpc])
  have hlast := h.last_le
  have hnew : last { c.storeCount with pc := .setTwo } = c.counted.length := c.last_storeCount
  have hdone : done { c.storeCount with pc := .setTwo } = c.done := by
    rw [done_of_ne (by simp),done_of_ne (by simp [hpc])]
    rfl
  refine ⟨?_,h.head_eq,h.cq_eq,?_,h.req_eq,?_,?_,h.counted_start,h.executed_start,?_,?_,h.bound,
    fun _ hne => absurd rfl hne,trivial,fun j cut hj hcut => ?_,fun k msg r hk => (h.rounds k msg r hk).snapshot _⟩
  · rw [hdone]
    exact h.ring
  · rw [hdone]
    exact h.msg_eq
  · rw [hnew]
    simp only [storeCount,h.req_eq]
    exact setWidth_ofNat_of_le (by decide) _
  · rw [hnew]
    simp only [storeCount,h.req_eq,h.last_eq]
    rw [batch_sub hlast,hsettled]
  · rw [hnew]
    exact hsettled ▸ hlast
  · rw [hnew]
    exact Nat.le_refl _
  · -- a snapshot before this one has been executed
    simp only [storeCount,length_append,length_singleton] at hj hcut ⊢
    rw [getElem?_append_left (by omega)] at hcut
    by_cases hprev : j+1 < c.cuts.length
    · exact h.past j cut hprev hcut
    · have hne : c.cuts ≠ [] := ne_nil_of_length_pos (by omega)
      rw [show j = c.cuts.length-1 by omega,c.last_eq_getElem hne,Option.some.injEq] at hcut
      rw [← hcut,hsettled]

theorem Kept.execute {msg} (hpc : c.pc = .execute msg) (hphase : c.phase = .two) : Kept { c with
      batchReqNum := c.batchReqNum-1
      executed := c.executed ++ [(msg,c.cuts.length)]
      pc := .down } := by
  have hknows := h.knows
  simp only [Core.Knows,hpc] at hknows
  obtain ⟨hlt,hmsg⟩ := hknows
  have hdone : c.done = c.executed.length := done_of_ne (by simp [hpc])
  have hne : c.cuts ≠ [] := by
    intro hnil
    simp [last,hnil] at hlt
  have hbound := h.bound
  obtain ⟨rest,hrest⟩ := h.executed_start
  refine ⟨?_,h.head_eq,h.cq_eq,?_,h.req_eq,h.last_eq,?_,h.counted_start,?_,?_,h.last_le,?_,fun hne => absurd hphase hne,
    ?_,fun j cut hj hcut => ?_,fun k msg' r hk => ?_⟩
  · have hring := h.ring
    rw [hdone] at hring
    simpa only [done,List.length_append,List.length_singleton,Nat.add_sub_cancel] using hring
  · have hid := h.msg_eq
    rw [hdone] at hid
    simpa only [done,List.length_append,List.length_singleton,Nat.add_sub_cancel] using hid
  · simp only [List.length_append,List.length_singleton,h.batch_eq,last] at hlt ⊢
    rw [show c.cuts.getLast?.getD 0-c.executed.length = c.cuts.getLast?.getD 0-(c.executed.length+1)+1 by omega,BitVec.ofNat_add]
    exact add_sub_cancel_right _ _
  · have hhead : rest = msg :: rest.tail := by
      rw [← hrest,List.getElem?_append_right (by simp),List.length_map,Nat.sub_self] at hmsg
      cases rest with
      | nil => simp at hmsg
      | cons x rest => simpa using hmsg
    refine ⟨rest.tail,?_⟩
    rw [List.map_append,List.map_singleton,List.append_assoc,List.singleton_append,← hhead]
    exact hrest
  · simpa [last] using hlt
  · simp only [List.length_append,List.length_singleton]
    omega
  · simp [Core.Knows]
  · have hle := h.past j cut hj hcut
    simp only [List.length_append,List.length_singleton]
    omega
  · by_cases hself : k = c.executed.length
    · rw [hself,List.getElem?_append_right (Nat.le_refl _),Nat.sub_self] at hk
      obtain ⟨rfl,rfl⟩ : msg = msg' ∧ c.cuts.length = r := by simpa using hk
      rw [hself]
      exact ⟨List.length_pos_of_ne_nil hne,⟨c.last,c.last_eq_getElem hne,hlt⟩,h.past⟩
    · have hbefore : k < c.executed.length := by
        have hlen := (List.getElem?_eq_some_iff.mp hk).1
        simp only [List.length_append,List.length_singleton] at hlen
        omega
      rw [List.getElem?_append_left hbefore] at hk
      exact h.rounds k msg' r hk

theorem Kept.down (hpc : c.pc = .down) (hphase : c.phase = .two) : Kept { c with
      cell := update c.cell c.strifeMsgId none
      strifeMsgId := (c.strifeMsgId+1) % strifeBufNum
      pc := .run } := by
  have hpos := h.knows
  simp only [Core.Knows,hpc] at hpos
  have hdone : c.done+1 = c.executed.length := by
    rw [done,hpc]
    exact Nat.sub_add_cancel hpos
  have hlt : c.done < c.log.length := by
    have h1 := h.executed_le
    have h2 := h.last_le
    have h3 := h.counted_le
    omega
  refine ⟨?_,h.head_eq,h.cq_eq,?_,h.req_eq,h.last_eq,h.batch_eq,h.counted_start,h.executed_start,h.executed_le,
    h.last_le,h.bound,fun hne => absurd hphase hne,trivial,h.past,h.rounds⟩
  · rw [done_of_ne (by simp),← hdone,h.msg_eq]
    exact h.ring.clear hlt
  · rw [done_of_ne (by simp),← hdone,h.msg_eq,Nat.mod_add_mod]

/-- The batch is done just when everything up to the snapshot is executed. -/
theorem Kept.batch_iff : c.batchReqNum = 0 ↔ c.executed.length = c.last := by
  have h1 := h.executed_le
  have h2 := h.last_le
  have h3 := h.counted_le
  have h4 := h.bound
  have hsmall : c.last-c.executed.length < 2^32 := by omega
  rw [h.batch_eq,← toNat_inj,toNat_ofNat,Nat.mod_eq_of_lt hsmall]
  change _ = 0 ↔ _
  omega

/-- The next message of a batch is in its cell. -/
theorem Kept.check_cell (hpc : c.pc = .check) :
    ∃ msg, c.cell c.strifeMsgId = some msg ∧ c.executed.length < c.last ∧ c.counted[c.executed.length]? = some msg := by
  have hlt := h.knows
  simp only [Core.Knows,hpc] at hlt
  have hle := h.last_le
  obtain ⟨msg,hmsg⟩ : ∃ msg, c.counted[c.executed.length]? = some msg := ⟨_,getElem?_eq_getElem (by omega)⟩
  refine ⟨msg,?_,hlt,hmsg⟩
  have hdone := done_of_ne (c := c) (by simp [hpc])
  rw [h.msg_eq,hdone]
  exact h.ring.live _ (msg,true) (by omega) (h.log_of_lt hmsg)

theorem Kept.reserve (hroom : c.log.length < c.executed.length+48000) (msg : α) : Kept (c.reserve msg) := by
  obtain ⟨rest,hrest⟩ := h.counted_start
  refine ⟨h.ring.reserve h.room rfl,?_,h.cq_eq,h.msg_eq,h.req_eq,h.last_eq,h.batch_eq,⟨rest ++ [(msg,false)],?_⟩,
    h.executed_start,h.executed_le,h.last_le,?_,h.settled,h.knows,h.past,h.rounds⟩
  · simp [Core.reserve,h.head_eq]
  · rw [Core.reserve,hrest,List.append_assoc]
  · simp only [Core.reserve,List.length_append,List.length_singleton]
    omega

theorem Kept.put {ticket msg} (hlog : c.log[ticket]? = some (msg,false)) : Kept (c.put ticket msg) := by
  have hle := h.le_ticket hlog
  have hlt := (List.getElem?_eq_some_iff.mp hlog).1
  have hdone : c.done ≤ ticket := by
    have h1 := h.executed_le
    have h2 := h.last_le
    have h3 := c.done_le
    omega
  obtain ⟨rest,hrest⟩ := h.counted_start
  refine ⟨h.ring.set hdone hlt (msg,true),by simp [Core.put,h.head_eq],h.cq_eq,h.msg_eq,h.req_eq,h.last_eq,h.batch_eq,
    ⟨rest.set (ticket-c.counted.length) (msg,true),?_⟩,h.executed_start,h.executed_le,h.last_le,
    by simpa [Core.put] using h.bound,h.settled,h.knows,h.past,h.rounds⟩
  rw [Core.put,hrest,List.set_append_right _ _ (by simpa using hle),List.length_map]

theorem Kept.work {now round} (hp : Placed now round c) : Kept (c.work now) := by
  cases hpc : c.pc with
  | run =>
    simp only [Core.work,hpc]
    exact h.goto (by simp [hpc]) (by simp) trivial
  | pushing core ticket msg =>
    simp only [Core.work,hpc]
    exact h
  | count =>
    simp only [Core.work,hpc]
    split
    · next msg hcell => simpa only [hpc] using h.count hpc hcell
    · exact h.goto (by simp [hpc]) (by simp) trivial
  | testOne | testTwo | testZero =>
    simp only [Core.work,hpc]
    split
    · exact h.goto (by simp [hpc]) (by simp) trivial
    · exact h.goto (by simp [hpc]) (by simp) trivial
  | setOne =>
    simp only [Core.work,hpc]
    refine h.move (by simp [hpc]) (by simp) (fun _ _ => ?_) trivial
    exact h.settled (by simp [(hp.one hpc).1]) (by simp [hpc])
  | store =>
    simp only [Core.work,hpc]
    exact h.store hpc (by simp [(hp.two (Or.inl hpc)).1])
  | setTwo =>
    simp only [Core.work,hpc]
    exact h.move (by simp [hpc]) (by simp) (fun hne => absurd rfl hne) trivial
  | batch =>
    simp only [Core.work,hpc]
    split
    · next hzero =>
      exact h.goto (by simp [hpc]) (by simp) (h.batch_iff.mp hzero)
    · next hzero =>
      refine h.goto (by simp [hpc]) (by simp) ?_
      exact lt_of_le_of_ne h.executed_le (fun heq => hzero (h.batch_iff.mpr heq))
  | setZero =>
    simp only [Core.work,hpc]
    refine h.move (by simp [hpc]) (by simp) (fun _ _ => ?_) trivial
    have hknows := h.knows
    simpa only [Core.Knows,hpc] using hknows
  | check =>
    obtain ⟨msg,hcell,hfound⟩ := h.check_cell hpc
    simp only [Core.work,hpc,hcell]
    exact h.goto (by simp [hpc]) (by simp) hfound
  | execute msg =>
    simp only [Core.work,hpc]
    exact h.execute hpc (hp.zero (by simp [hpc])).1
  | down =>
    simp only [Core.work,hpc]
    exact h.down hpc (hp.zero (by simp [hpc])).1

end

theorem Placed.goto (h : Placed now round c) (hold : c.pc ≠ .setTwo) {pc}
    (hnew : pc ≠ .setTwo) (hone : pc = .setOne → c.phase = .zero ∧ now = .one)
    (htwo : pc = .store → c.phase = .one ∧ now = .two)
    (hzero : pc = .batch ∨ pc = .setZero ∨ pc = .check ∨ (∃ msg, pc = .execute msg) ∨ pc = .down →
      c.phase = .two ∧ now = .zero) : Placed now round { c with pc := pc } := by
  refine ⟨h.phase,hone,fun hpc => ?_,hzero,fun hnow hphase _ => h.due hnow hphase hold,fun hor => h.taken ?_⟩
  · rcases hpc with hpc | hpc
    · exact htwo hpc
    · exact absurd hpc hnew
  · rcases hor with hnow | hphase | hpc
    · exact Or.inl hnow
    · exact Or.inr (Or.inl hphase)
    · exact absurd hpc hnew

theorem Placed.work (h : Placed now round c) : Placed now round (c.work now) := by
  cases hpc : c.pc with
  | run =>
    simp only [Core.work,hpc]
    exact h.goto (by simp [hpc]) (by simp) (by simp) (by simp) (by simp)
  | pushing core ticket msg =>
    simp only [Core.work,hpc]
    exact h
  | count =>
    simp only [Core.work,hpc]
    split
    · have hsame := h.goto (by simp [hpc]) (show Pc.count ≠ .setTwo by simp) (by simp) (by simp) (by simp)
      exact ⟨hsame.phase,hsame.one,hsame.two,hsame.zero,hsame.due,hsame.taken⟩
    · exact h.goto (by simp [hpc]) (by simp) (by simp) (by simp) (by simp)
  | testOne =>
    simp only [Core.work,hpc]
    split
    · next htest => exact h.goto (by simp [hpc]) (by simp) (fun _ => ⟨htest.2,htest.1⟩) (by simp) (by simp)
    · exact h.goto (by simp [hpc]) (by simp) (by simp) (by simp) (by simp)
  | setOne =>
    obtain ⟨hphase,hnow⟩ := h.one hpc
    simp only [Core.work,hpc]
    exact ⟨Or.inl hnow.symm,by simp,by simp,by simp,by simp [hnow],fun _ => h.taken (by simp [hnow])⟩
  | testTwo =>
    simp only [Core.work,hpc]
    split
    · next htest => exact h.goto (by simp [hpc]) (by simp) (by simp) (fun _ => htest) (by simp)
    · exact h.goto (by simp [hpc]) (by simp) (by simp) (by simp) (by simp)
  | store =>
    obtain ⟨hphase,hnow⟩ := h.two (Or.inl hpc)
    have hdue := h.due hnow hphase (by simp [hpc])
    simp only [Core.work,hpc]
    exact ⟨h.phase,by simp,fun _ => ⟨hphase,hnow⟩,by simp,fun _ _ hne => absurd rfl hne,fun _ => by simpa [Core.storeCount] using hdue⟩
  | setTwo =>
    obtain ⟨hphase,hnow⟩ := h.two (Or.inr hpc)
    simp only [Core.work,hpc]
    exact ⟨Or.inl hnow.symm,by simp,by simp,by simp,fun _ hone => Phase.noConfusion hone,fun _ => h.taken (Or.inr (Or.inr hpc))⟩
  | testZero =>
    simp only [Core.work,hpc]
    split
    · next htest => exact h.goto (by simp [hpc]) (by simp) (by simp) (by simp) (fun _ => ⟨htest.2,htest.1⟩)
    · exact h.goto (by simp [hpc]) (by simp) (by simp) (by simp) (by simp)
  | batch =>
    have hplace := h.zero (by simp [hpc])
    simp only [Core.work,hpc]
    split
    · exact h.goto (by simp [hpc]) (by simp) (by simp) (by simp) (fun _ => hplace)
    · exact h.goto (by simp [hpc]) (by simp) (by simp) (by simp) (fun _ => hplace)
  | setZero =>
    obtain ⟨hphase,hnow⟩ := h.zero (by simp [hpc])
    simp only [Core.work,hpc]
    exact ⟨Or.inl hnow.symm,by simp,by simp,by simp,by simp [hnow],fun _ => h.taken (by simp [hnow])⟩
  | check =>
    have hplace := h.zero (by simp [hpc])
    simp only [Core.work,hpc]
    split
    · exact h.goto (by simp [hpc]) (by simp) (by simp) (by simp) (fun _ => hplace)
    · exact h.goto (by simp [hpc]) (by simp) (by simp) (by simp) (by simp)
  | execute msg =>
    have hplace := h.zero (by simp [hpc])
    have hsame := h.goto (by simp [hpc]) (show Pc.down ≠ .setTwo by simp) (by simp) (by simp) (fun _ => hplace)
    simp only [Core.work,hpc]
    exact ⟨hsame.phase,hsame.one,hsame.two,hsame.zero,hsame.due,hsame.taken⟩
  | down =>
    have hsame := h.goto (by simp [hpc]) (show Pc.run ≠ .setTwo by simp) (by simp) (by simp) (by simp)
    simp only [Core.work,hpc]
    exact ⟨hsame.phase,hsame.one,hsame.two,hsame.zero,hsame.due,hsame.taken⟩

/-- A worker that has reached the phase stays there. -/
theorem Placed.work_phase (h : Placed now round c) (hphase : c.phase = now) : (c.work now).phase = now := by
  cases hpc : c.pc with
  | setOne =>
    obtain ⟨hold,hnow⟩ := h.one hpc
    simp [Core.work,hpc,hnow]
  | setTwo =>
    obtain ⟨hold,hnow⟩ := h.two (Or.inr hpc)
    simp [Core.work,hpc,hnow]
  | setZero =>
    obtain ⟨hold,hnow⟩ := h.zero (by simp [hpc])
    simp [Core.work,hpc,hnow]
  | count | check =>
    simp only [Core.work,hpc]
    split <;> exact hphase
  | _ => simpa only [Core.work,hpc,Core.storeCount] using hphase

theorem Core.work_log (now : Phase) (c : Core α) : (c.work now).log = c.log := by
  cases hpc : c.pc with
  | count | check =>
    simp only [work,hpc]
    split <;> rfl
  | _ => simp only [work,hpc,storeCount]

theorem Core.work_isPushing (h : c.isPushing = false) : (c.work now).isPushing = false := by
  cases hpc : c.pc with
  | pushing core ticket msg => simp [isPushing,hpc] at h
  | count | testOne | testTwo | testZero | batch | check =>
    simp only [work,hpc]
    split <;> rfl
  | _ => simp only [work,hpc,isPushing]

end Cores

section Invariant
variable {α : Type*} {workers : Nat} {s : State α}

structure Inv (workers : Nat) (s : State α) : Prop where
  kept : ∀ w, Kept (s.core w)
  placed : ∀ w < workers, Placed s.now s.round (s.core w)
  reserved : ∀ w core ticket msg, (s.core w).pc = .pushing core ticket msg →
    (s.core core).log[ticket]? = some (msg,false)
  distinct : ∀ v w core ticket msg msg', (s.core v).pc = .pushing core ticket msg →
    (s.core w).pc = .pushing core ticket msg' → v = w
  owned : ∀ core ticket msg, (s.core core).log[ticket]? = some (msg,false) →
    ∃ w < workers, (s.core w).pc = .pushing core ticket msg
  scanned : s.flag = true → ∀ j < s.i, (s.core j).phase = s.now
  scan_le : s.i ≤ workers

theorem inv_start (α : Type*) (workers : Nat) : Inv workers (.start : State α) := by
  refine ⟨fun _ => ?_,fun _ _ => ?_,fun w core ticket msg hpc => (by cases hpc),
    fun v w core ticket msg msg' hpc => (by cases hpc),fun core ticket msg hlog => (by cases hlog),
      fun _ j hj => absurd hj (Nat.not_lt_zero j),Nat.zero_le _⟩
  · exact ⟨Ring.nil (fun _ _ => rfl),rfl,rfl,rfl,rfl,rfl,rfl,⟨[],rfl⟩, nil_prefix,Nat.le_refl _,Nat.le_refl _,
      Nat.zero_le _,fun _ _ => rfl,trivial,fun j cut hj => absurd hj (Nat.not_lt_zero _),
      fun k msg r hk => (by simp [State.start,start] at hk)⟩
  · exact ⟨Or.inl rfl,fun hpc => (by cases hpc),fun hpc => (by rcases hpc with hpc | hpc <;> cases hpc),
      fun hpc => (by rcases hpc with hpc | hpc | hpc | ⟨_,hpc⟩ | hpc <;> cases hpc),fun hnow => (by cases hnow),
      fun _ => rfl⟩

theorem Kept.setPc {c : Core α} (h : Kept c) (hold : c.pc ≠ .down ∧ c.pc ≠ .setTwo) {pc : Pc α}
    (hnew : pc = .run ∨ ∃ core ticket msg, pc = .pushing core ticket msg) : Kept { c with pc := pc } := by
  rcases hnew with rfl | ⟨core,ticket,msg,rfl⟩
  · exact h.goto hold (by simp) trivial
  · exact h.goto hold (by simp) trivial

theorem Placed.setPc {c : Core α} {now : Phase} {round : Nat} (h : Placed now round c) (hold : c.pc ≠ .setTwo)
    {pc : Pc α} (hnew : pc = .run ∨ ∃ core ticket msg, pc = .pushing core ticket msg) :
    Placed now round { c with pc := pc } := by
  rcases hnew with rfl | ⟨core,ticket,msg,rfl⟩
  · exact h.goto hold (by simp) (by simp) (by simp) (by simp)
  · exact h.goto hold (by simp) (by simp) (by simp) (by simp)

/-- The queue of one worker changes. -/
theorem Placed.queue {c c' : Core α} {now : Phase} {round : Nat} (h : Placed now round c) (hpc : c'.pc = c.pc)
    (hphase : c'.phase = c.phase) (hcuts : c'.cuts = c.cuts) : Placed now round c' := by
  obtain ⟨h1,h2,h3,h4,h5,h6⟩ := h
  constructor <;> simpa only [hpc,hphase,hcuts]

theorem Inv.work (h : Inv workers s) {w} (hw : w < workers) (hidle : (s.core w).isPushing = false) :
    Inv workers (s.setCore w ((s.core w).work s.now)) := by
  have hp := h.placed w hw
  have hlog (v : Nat) : (update s.core w ((s.core w).work s.now) v).log = (s.core v).log := by
    by_cases hself : v = w
    · rw [hself,update_self,work_log]
    · rw [update_of_ne hself]
  have hpushing {v core ticket : Nat} {msg : α}
      (hpc : (update s.core w ((s.core w).work s.now) v).pc = .pushing core ticket msg) :
      (s.core v).pc = .pushing core ticket msg := by
    by_cases hself : v = w
    · rw [hself,update_self] at hpc
      have hnot : ((s.core w).work s.now).isPushing = false := work_isPushing hidle
      simp [isPushing,hpc] at hnot
    · rwa [update_of_ne hself] at hpc
  refine ⟨fun v => ?_,fun v hv => ?_,fun v core ticket msg hpc => ?_,fun v v' core ticket msg msg' hpc hpc' => ?_,
    fun core ticket msg hentry => ?_,fun hflag j hj => ?_,h.scan_le⟩
  · by_cases hself : v = w
    · simpa only [State.setCore,hself,update_self] using (h.kept w).work hp
    · simpa only [State.setCore,update_of_ne hself] using h.kept v
  · by_cases hself : v = w
    · simpa only [State.setCore,hself,update_self] using hp.work
    · simpa only [State.setCore,update_of_ne hself] using h.placed v hv
  · simp only [State.setCore,hlog]
    exact h.reserved v core ticket msg (hpushing hpc)
  · exact h.distinct v v' core ticket msg msg' (hpushing hpc) (hpushing hpc')
  · simp only [State.setCore,hlog] at hentry
    obtain ⟨v,hv,hpc⟩ := h.owned core ticket msg hentry
    have hne : v ≠ w := by
      rintro rfl
      simp [isPushing,hpc] at hidle
    exact ⟨v,hv,by simpa only [State.setCore,update_of_ne hne] using hpc⟩
  · have hold := h.scanned hflag j hj
    by_cases hself : j = w
    · subst hself
      simpa only [State.setCore,update_self] using hp.work_phase hold
    · simpa only [State.setCore,update_of_ne hself] using hold

theorem Inv.look (h : Inv workers s) (hi : s.i < workers) : Inv workers (s.step .look) := by
  refine ⟨h.kept,h.placed,h.reserved,h.distinct,h.owned,fun hflag j hj => ?_,hi⟩
  simp only [State.step,Bool.and_eq_true,beq_iff_eq] at hflag hj
  rcases Nat.lt_succ_iff_lt_or_eq.mp hj with hlt | rfl
  · exact h.scanned hflag.1 j hlt
  · exact hflag.2

/-- All workers have reached the phase and the next one begins. -/
theorem Placed.turn {c : Core α} {now : Phase} {round : Nat} (h : Placed now round c) (hphase : c.phase = now) :
    Placed now.next (if now = .one then round+1 else round) c := by
  subst hphase
  have hone : c.pc ≠ .setOne := fun hpc => by simpa using (h.one hpc).1.symm.trans (h.one hpc).2
  have htwo : ¬ (c.pc = .store ∨ c.pc = .setTwo) := fun hpc => by simpa using (h.two hpc).1.symm.trans (h.two hpc).2
  have hzero : ¬ (c.pc = .batch ∨ c.pc = .setZero ∨ c.pc = .check ∨ (∃ msg, c.pc = .execute msg) ∨ c.pc = .down) :=
    fun hpc => by simpa using (h.zero hpc).1.symm.trans (h.zero hpc).2
  have htaken : c.cuts.length = round := by
    apply h.taken
    cases c.phase <;> simp
  refine ⟨Or.inr rfl,fun hpc => absurd hpc hone,fun hpc => absurd hpc htwo,fun hpc => absurd hpc hzero,fun _ hphase _ => ?_,fun hor => ?_⟩
  · rw [if_pos hphase,htaken]
  · cases hcase : c.phase with
    | one =>
      rw [hcase] at hor
      simp only [Phase.next,ne_eq,not_true_eq_false,false_or] at hor
      exact absurd (Or.inr hor) htwo
    | zero | two => simpa using htaken

theorem Inv.turn (h : Inv workers s) (hi : s.i = workers) (full : Bool) : Inv workers (s.step (.turn full)) := by
  refine ⟨h.kept,fun w hw => ?_,h.reserved,h.distinct,h.owned,fun _ j hj => absurd hj (Nat.not_lt_zero j),Nat.zero_le _⟩
  cases hflag : s.flag with
  | false => simpa [State.step,hflag] using h.placed w hw
  | true =>
    have hphase := h.scanned hflag w (by omega)
    have hturn := (h.placed w hw).turn hphase
    simp only [State.step,hflag,State.turnPhase,if_true,true_and]
    by_cases hone : s.now = .one
    · cases full with
      | false => simpa [hone] using h.placed w hw
      | true => simpa [hone] using hturn
    · simpa [hone] using hturn

/-- One queue changes and one worker goes into a push or out of it. -/
theorem Inv.queue (h : Inv workers s) {w core c pc}
    (hkept : Kept c) (hsame : c.pc = (s.core core).pc ∧ c.phase = (s.core core).phase ∧ c.cuts = (s.core core).cuts)
    (hold : (s.core w).pc = .run ∨ ∃ core ticket msg, (s.core w).pc = .pushing core ticket msg)
    (hnew : pc = .run ∨ ∃ core ticket msg, pc = .pushing core ticket msg)
    (hreserved : ∀ v core' ticket msg, ((s.setCore core c).setPc w pc |>.core v).pc = .pushing core' ticket msg →
      ((s.setCore core c).setPc w pc |>.core core').log[ticket]? = some (msg,false))
    (hdistinct : ∀ v v' core' ticket msg msg', ((s.setCore core c).setPc w pc |>.core v).pc = .pushing core' ticket msg →
      ((s.setCore core c).setPc w pc |>.core v').pc = .pushing core' ticket msg' → v = v')
    (howned : ∀ core' ticket msg, ((s.setCore core c).setPc w pc |>.core core').log[ticket]? = some (msg,false) →
      ∃ v < workers, ((s.setCore core c).setPc w pc |>.core v).pc = .pushing core' ticket msg) :
    Inv workers ((s.setCore core c).setPc w pc) := by
  -- the queue first, then the worker
  have hcore (v : Nat) : Kept ((s.setCore core c).core v) ∧ ((s.setCore core c).core v).pc = (s.core v).pc ∧
      ((s.setCore core c).core v).phase = (s.core v).phase ∧ ((s.setCore core c).core v).cuts = (s.core v).cuts := by
    by_cases hv : v = core
    · subst hv
      simpa only [State.setCore,update_self] using ⟨hkept,hsame⟩
    · simp only [State.setCore,update_of_ne hv]
      exact ⟨h.kept v,trivial,trivial,trivial⟩
  have hw : ((s.setCore core c).core w).pc ≠ .down ∧ ((s.setCore core c).core w).pc ≠ .setTwo := by
    rw [(hcore w).2.1]
    rcases hold with hpc | ⟨_,_,_,hpc⟩ <;> simp [hpc]
  have hplaced (v : Nat) (hv : v < workers) : Placed s.now s.round ((s.setCore core c).core v) :=
    (h.placed v hv).queue (hcore v).2.1 (hcore v).2.2.1 (hcore v).2.2.2
  refine ⟨fun v => ?_,fun v hv => ?_,hreserved,hdistinct,howned,fun hflag j hj => ?_,h.scan_le⟩
  · by_cases hv : v = w
    · subst hv
      simp only [State.setPc,State.setCore,update_self]
      exact (hcore v).1.setPc hw hnew
    · simpa only [State.setPc,State.setCore,update_of_ne hv] using (hcore v).1
  · by_cases hvw : v = w
    · subst hvw
      simp only [State.setPc,State.setCore,update_self]
      exact (hplaced v hv).setPc hw.2 hnew
    · simpa only [State.setPc,State.setCore,update_of_ne hvw] using hplaced v hv
  · have hphase := (hcore j).2.2.1.trans (h.scanned hflag j hj)
    by_cases hjw : j = w
    · subst hjw
      simpa only [State.setPc,State.setCore,update_self] using hphase
    · simpa only [State.setPc,State.setCore,update_of_ne hjw] using hphase

theorem State.log_setPc (s : State α) (w v : Nat) (pc : Pc α) : ((s.setPc w pc).core v).log = (s.core v).log := by
  by_cases hv : v = w
  · simp only [State.setPc,State.setCore,hv,update_self]
  · simp only [State.setPc,State.setCore,update_of_ne hv]

theorem State.pc_queue (s : State α) {w core v c pc} (hsame : c.pc = (s.core core).pc) :
    (((s.setCore core c).setPc w pc).core v).pc = if v = w then pc else (s.core v).pc := by
  by_cases hv : v = w
  · simp only [State.setPc,State.setCore,hv,update_self,if_true]
  · by_cases hcore : v = core
    · subst hcore
      simp only [State.setPc,State.setCore,update_of_ne hv,update_self,if_neg hv,hsame]
    · simp only [State.setPc,State.setCore,update_of_ne hv,update_of_ne hcore,if_neg hv]

theorem Inv.push (h : Inv workers s) {w core} (hw : w < workers) (hrun : (s.core w).pc = .run)
    (hroom : (s.core core).log.length < (s.core core).executed.length+48000) (msg : α) :
    Inv workers (s.step (.push w core msg)) := by
  have hhead := (h.kept core).head_eq
  -- an entry of a log stays where it is
  have hkeep {v k : Nat} {x : α × Bool} (hx : (s.core v).log[k]? = some x) :
      ((s.setCore core ((s.core core).reserve msg)).core v).log[k]? = some x := by
    by_cases hv : v = core
    · subst hv
      simp only [State.setCore,update_self,reserve]
      rw [List.getElem?_append_left (List.getElem?_eq_some_iff.mp hx).1,hx]
    · simpa only [State.setCore,update_of_ne hv] using hx
  -- the new ticket is behind every ticket taken before
  have hfresh {v : Nat} {msg' : α} : (s.core v).pc ≠ .pushing core (s.core core).head msg' := by
    intro hpc
    have hlt := (List.getElem?_eq_some_iff.mp (h.reserved v core _ msg' hpc)).1
    omega
  refine h.queue ((h.kept core).reserve hroom msg) ⟨rfl,rfl,rfl⟩ (Or.inl hrun) (Or.inr ⟨core,_,msg,rfl⟩)
    (fun v core' ticket msg' hpc => ?_) (fun v v' core' ticket msg' msg'' hpc hpc' => ?_)
    (fun core' ticket msg' hentry => ?_)
  · rw [State.pc_queue _ (show ((s.core core).reserve msg).pc = _ from rfl)] at hpc
    rw [State.log_setPc]
    by_cases hv : v = w
    · rw [if_pos hv,Pc.pushing.injEq] at hpc
      obtain ⟨rfl,rfl,rfl⟩ := hpc
      simp [State.setCore,reserve,hhead]
    · rw [if_neg hv] at hpc
      exact hkeep (h.reserved v core' ticket msg' hpc)
  · rw [State.pc_queue _ (show ((s.core core).reserve msg).pc = _ from rfl)] at hpc hpc'
    by_cases hv : v = w
    · by_cases hv' : v' = w
      · rw [hv,hv']
      · rw [if_pos hv,Pc.pushing.injEq] at hpc
        rw [if_neg hv'] at hpc'
        obtain ⟨rfl,rfl,-⟩ := hpc
        exact absurd hpc' hfresh
    · rw [if_neg hv] at hpc
      by_cases hv' : v' = w
      · rw [if_pos hv',Pc.pushing.injEq] at hpc'
        obtain ⟨rfl,rfl,-⟩ := hpc'
        exact absurd hpc hfresh
      · rw [if_neg hv'] at hpc'
        exact h.distinct v v' core' ticket msg' msg'' hpc hpc'
  · rw [State.log_setPc] at hentry
    have hold (hentry : (s.core core').log[ticket]? = some (msg',false)) : ∃ v < workers,
        (((s.setCore core ((s.core core).reserve msg)).setPc w (.pushing core (s.core core).head msg)).core v).pc =
          .pushing core' ticket msg' := by
      obtain ⟨v,hv,hpc⟩ := h.owned core' ticket msg' hentry
      have hne : v ≠ w := by
        rintro rfl
        rw [hrun] at hpc
        cases hpc
      exact ⟨v,hv,by rw [State.pc_queue _ (show ((s.core core).reserve msg).pc = _ from rfl),if_neg hne,hpc]⟩
    by_cases hcore : core' = core
    · subst hcore
      simp only [State.setCore,update_self,reserve] at hentry
      by_cases hlast : ticket < (s.core core').log.length
      · rw [List.getElem?_append_left hlast] at hentry
        exact hold hentry
      · rw [List.getElem?_append_right (by omega)] at hentry
        have hticket : ticket-(s.core core').log.length = 0 := by
          have hlt := (List.getElem?_eq_some_iff.mp hentry).1
          simp only [List.length_singleton] at hlt
          omega
        rw [hticket] at hentry
        obtain rfl : msg = msg' := by simpa using hentry
        refine ⟨w,hw,?_⟩
        rw [State.pc_queue _ (show ((s.core core').reserve msg).pc = _ from rfl),if_pos rfl,hhead,
          show ticket = (s.core core').log.length by omega]
    · simp only [State.setCore,update_of_ne hcore] at hentry
      exact hold hentry

theorem Inv.store (h : Inv workers s) {w core ticket msg}
    (hpushing : (s.core w).pc = .pushing core ticket msg) : Inv workers (s.step (.store w)) := by
  have hlog := h.reserved w core ticket msg hpushing
  have hpc_eq {v : Nat} : (((s.setCore core ((s.core core).put ticket msg)).setPc w .run).core v).pc =
      if v = w then .run else (s.core v).pc := State.pc_queue _ rfl
  simp only [State.step,hpushing]
  refine h.queue ((h.kept core).put hlog) ⟨rfl,rfl,rfl⟩ (Or.inr ⟨core,ticket,msg,hpushing⟩) (Or.inl rfl)
    (fun v core' ticket' msg' hpc => ?_) (fun v v' core' ticket' msg' msg'' hpc hpc' => ?_)
    (fun core' ticket' msg' hentry => ?_)
  · rw [hpc_eq] at hpc
    by_cases hv : v = w
    · rw [if_pos hv] at hpc
      cases hpc
    · rw [if_neg hv] at hpc
      have hold := h.reserved v core' ticket' msg' hpc
      rw [State.log_setPc]
      by_cases hcore : core' = core
      · subst hcore
        have hne : ticket ≠ ticket' := by
          rintro rfl
          exact hv (h.distinct v w core' ticket msg' msg hpc hpushing)
        simp only [State.setCore,update_self,put]
        rw [List.getElem?_set_ne hne,hold]
      · simpa only [State.setCore,update_of_ne hcore] using hold
  · rw [hpc_eq] at hpc hpc'
    by_cases hv : v = w
    · rw [if_pos hv] at hpc
      cases hpc
    · by_cases hv' : v' = w
      · rw [if_pos hv'] at hpc'
        cases hpc'
      · rw [if_neg hv] at hpc
        rw [if_neg hv'] at hpc'
        exact h.distinct v v' core' ticket' msg' msg'' hpc hpc'
  · rw [State.log_setPc] at hentry
    have hother : (s.core core').log[ticket']? = some (msg',false) ∧ (core' = core → ticket' ≠ ticket) := by
      by_cases hcore : core' = core
      · subst hcore
        simp only [State.setCore,update_self,put] at hentry
        by_cases hticket : ticket = ticket'
        · subst hticket
          rw [List.getElem?_set_self (List.getElem?_eq_some_iff.mp hlog).1] at hentry
          simp at hentry
        · rw [List.getElem?_set_ne hticket] at hentry
          exact ⟨hentry,fun _ heq => hticket heq.symm⟩
      · simp only [State.setCore,update_of_ne hcore] at hentry
        exact ⟨hentry,fun heq => absurd heq hcore⟩
    obtain ⟨v,hv,hpc⟩ := h.owned core' ticket' msg' hother.1
    have hne : v ≠ w := by
      rintro rfl
      rw [hpushing,Pc.pushing.injEq] at hpc
      exact hother.2 hpc.1.symm hpc.2.1.symm
    exact ⟨v,hv,by rw [hpc_eq,if_neg hne,hpc]⟩

theorem Inv.step {a} (h : Inv workers s) (hready : s.ready workers a = true) : Inv workers (s.step a) := by
  cases a with
  | push w core msg =>
    simp only [State.ready,Bool.and_eq_true,decide_eq_true_eq] at hready
    refine h.push hready.1.1.1 ?_ hready.2 msg
    cases hpc : (s.core w).pc with
    | run => rfl
    | _ => simp [hpc] at hready
  | store w =>
    simp only [State.ready,Bool.and_eq_true,decide_eq_true_eq] at hready
    cases hpc : (s.core w).pc with
    | pushing core ticket msg => exact h.store hpc
    | _ => simp [isPushing,hpc] at hready
  | work w =>
    simp only [State.ready,Bool.and_eq_true,decide_eq_true_eq,Bool.not_eq_true'] at hready
    exact h.work hready.1 hready.2
  | look => exact h.look (of_decide_eq_true hready)
  | turn full => exact h.turn (beq_iff_eq.mp hready) full

theorem inv_of_reachable (h : (machine α workers).Reachable s) : Inv workers s :=
  h.invariant (inv_start α workers) (fun _ _ hinv hready => hinv.step hready)

end Invariant

end AlNiCo.Strife
