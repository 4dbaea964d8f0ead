import AlNiCo.Rpc.Trip

/-! The ids of the requests over whole runs: the round trips of every slot together
with the deliveries that are waited for and the counters that answer them. -/
namespace AlNiCo.Rpc
open Library Library.ByteMemory Client Function Option List

section
variable (K : Config) (t : Nat) (l : Lane) (D : Delivery.State)

structure Header (i : Nat) : Prop where
  copied : l.stage i ≠ .quiet → System.isSent (l.stage i) = false → ∀ j < 16, l.memory i j = l.data i j
  sized : ∀ size, l.stage i = .sent size → 16 ≤ size
  entry : l.stage i ≠ .quiet → K.entryOf (l.data i) = ⟨t,(l.singleRpcId i).toNat⟩

structure Pending (i d : Nat) : Prop where
  stage : System.isSent (l.stage i) = true ∨ l.stage i = .arrived
  txn : load 2 (l.data i) 8 = Txn.delivery.code
  id : (l.singleRpcId i).toNat = d

structure Slots : Prop where
  pending : ∀ i d, Pending l i d → (⟨t,d⟩ : Delivery.Entry) ∈ D.arriving
  distinct : ∀ i j d, Pending l i d → Pending l j d → i = j
  worker : ∀ i < K.slotNum, (D.worker (K.workerOf t i)).isSome = true ↔ l.stage i = .reserved

def Packet.counterAt (d : Nat) : Packet → Option (BitVec 64)
  | .counter c value => if c = d then some value else none
  | .reply _ _ => none

/-- What the client has been sent of a counter and not read: the recorded value for
a while, then the counter itself. -/
def Shows (d : Nat) : Prop :=
  ∃ m n, l.counters d :: l.wire.filterMap (Packet.counterAt d) =
    List.replicate m (l.strifeCqe d) ++ List.replicate n (D.counter t d)

structure Counters : Prop where
  next : l.dI < 1000
  waits : ∀ d, D.unanswered.count ⟨t,d⟩ = if d < 1000 ∧ l.noDeliveryFlag d = false then 1 else 0
  counter : ∀ d < 1000,
    D.counter t d = if (⟨t,d⟩ : Delivery.Entry) ∈ D.counted then l.strifeCqe d+11 else l.strifeCqe d
  shows : ∀ d < 1000, Shows t l D d

structure LaneInv : Prop where
  trips : l.Trips
  headers : ∀ i, Header K t l i
  slots : Slots K t l D
  counters : Counters t l D

end

/-- The deliveries run as the delivery queues do on their own; a counter does not
change between an owner's read and its write. -/
structure Inv (K : Config) (s : System) : Prop where
  reach : (Delivery.machine K.delivery).Reachable s.delivery
  loaded : ∀ w e value, s.delivery.owner w = .loaded e value → value = s.delivery.counter e.thread e.rpcId
  lanes : ∀ t < K.threads, LaneInv K t (s.lane t) s.delivery

open Rpc.System

open Config Delivery

section
variable {K : Config} {t : Nat} {l : Lane} {i : Nat}

theorem Header.memory_id (h : Header K t l i) (hstage : l.stage i ≠ .quiet)
    (hsent : isSent (l.stage i) = false) : word (l.memory i) 4 = word (l.data i) 4 :=
  word_congr (fun _ _ hj => h.copied hstage hsent _ (by omega))

theorem Header.memory_txn (h : Header K t l i) (hstage : l.stage i ≠ .quiet)
    (hsent : isSent (l.stage i) = false) : load 2 (l.memory i) 8 = load 2 (l.data i) 8 :=
  load_congr (fun _ _ hj => h.copied hstage hsent _ (by omega))

theorem Header.memory_entry (h : Header K t l i) (hstage : l.stage i ≠ .quiet) (hsent : isSent (l.stage i) = false) :
    K.entryOf (l.memory i) = ⟨t,(l.singleRpcId i).toNat⟩ := by
  rw [← h.entry hstage,entryOf,entryOf,h.memory_id hstage hsent,h.copied hstage hsent 1 (by omega),h.copied hstage hsent 3 (by omega)]

/-- The server finds the client thread in the header. -/
theorem entryOf_push (ht : t < K.threads) (r : Request) (rpcnum : Nat) (m : Memory) :
    K.entryOf (pushNewCallWrite (r.call K t i) rpcnum m).data = ⟨t,(pushNewCallWrite (r.call K t i) rpcnum m).rpcId.toNat⟩ := by
  have hnode : (K.nodeId t).toNat = t/K.clientThread+1 := by
    have hlt : t/K.clientThread < K.maxClient := Nat.div_lt_of_lt_mul (by rwa [Nat.mul_comm])
    have hmax := K.maxClient_le
    rw [nodeId,BitVec.toNat_ofNat,Nat.mod_eq_of_lt (by omega)]
  have hthread : (K.threadId t).toNat = t % K.clientThread := by
    have hlt := Nat.mod_lt t K.clientThread_pos
    have hmax := K.clientThread_le
    rw [threadId,BitVec.toNat_ofNat,Nat.mod_eq_of_lt (by omega)]
  have hsum : (t/K.clientThread+1-1)*K.clientThread+t % K.clientThread = t := by
    rw [Nat.add_sub_cancel]
    exact Nat.div_add_mod' t K.clientThread
  rw [entryOf,push_nodeid,push_threadId,push_id]
  show (⟨((K.nodeId t).toNat-1)*K.clientThread+(K.threadId t).toNat,_⟩ : Entry) = _
  rw [hnode,hthread,hsum]

theorem Header.generate (h : ∀ i, Header K t l i) (ht : t < K.threads) (r : Request) (delivery : Bool) (i j : Nat) :
    Header K t (l.generate i (r.call K t i) delivery) j := by
  by_cases hj : j = i
  · subst hj
    have hloc := (r.call K t j).le_location
    refine ⟨fun _ hsent => ?_,fun size hsize => ?_,fun _ => ?_⟩
    · simp [Lane.generate,isSent] at hsent
    · simp only [Lane.generate,update_self,Stage.sent.injEq] at hsize
      omega
    · simp only [Lane.generate,update_self]
      exact entryOf_push ht r l.rpcnum (l.data j)
  · obtain ⟨h1,h2,h3⟩ := h j
    constructor <;> simpa only [Lane.generate,update_of_ne hj]

theorem Header.arrive (h : ∀ i, Header K t l i) {size} (hsent : l.stage i = .sent size) (j : Nat) : Header K t (l.arrive i) j := by
  simp only [Lane.arrive,hsent]
  by_cases hj : j = i
  · subst hj
    refine ⟨fun _ _ k hk => ?_,fun size' hsize => ?_,fun _ => (h j).entry (by simp [hsent])⟩
    · have hle := (h j).sized size hsent
      simp only [update_self]
      rw [if_pos (by omega)]
    · simp at hsize
  · obtain ⟨h1,h2,h3⟩ := h j
    constructor <;> simpa only [update_of_ne hj]

theorem Header.setStage (h : ∀ i, Header K t l i) {stage} (hstage : l.stage i ≠ .quiet)
    (hold : isSent (l.stage i) = false) (hnew : isSent stage = false) (j : Nat) :
    Header K t (l.setStage i stage) j := by
  by_cases hj : j = i
  · subst hj
    refine ⟨fun _ _ => (h j).copied hstage hold,fun size hsize => ?_,fun _ => (h j).entry hstage⟩
    simp only [Lane.setStage,update_self] at hsize
    rw [hsize] at hnew
    cases hnew
  · obtain ⟨h1,h2,h3⟩ := h j
    constructor <;> simpa only [Lane.setStage,update_of_ne hj]

end

section Slots
variable {K : Config} {t u : Nat} {l l' : Lane} {D D' : State} {i j d : Nat}

theorem Config.workerOf_inj (hi : i < K.slotNum) (hj : j < K.slotNum) (heq : K.workerOf t i = K.workerOf u j) : t = u ∧ i = j := by
  have hpos : 0 < K.slotNum := by omega
  have hdiv {t i : Nat} (hi : i < K.slotNum) : K.workerOf t i/K.slotNum = t := by
    rw [workerOf,Nat.mul_comm,Nat.mul_add_div hpos,Nat.div_eq_of_lt hi,Nat.add_zero]
  have ht : t = u := (hdiv hi).symm.trans (heq ▸ hdiv hj)
  subst ht
  rw [workerOf,workerOf] at heq
  exact ⟨rfl,by omega⟩

section
variable (h : Slots K t l D)
include h

theorem Slots.frame (harriving : ∀ d, (⟨t,d⟩ : Entry) ∈ D.arriving → (⟨t,d⟩ : Entry) ∈ D'.arriving)
    (hworker : ∀ i < K.slotNum, D'.worker (K.workerOf t i) = D.worker (K.workerOf t i)) : Slots K t l D' :=
  ⟨fun i d hp => harriving d (h.pending i d hp),h.distinct,fun i hi => by rw [hworker i hi]; exact h.worker i hi⟩

theorem Slots.stages (hdata : l'.data = l.data) (hid : l'.singleRpcId = l.singleRpcId)
    (hpending : ∀ j, isSent (l'.stage j) = true ∨ l'.stage j = .arrived → isSent (l.stage j) = true ∨ l.stage j = .arrived)
    (hreserved : ∀ j, l'.stage j = .reserved ↔ l.stage j = .reserved) : Slots K t l' D := by
  have hback {j d : Nat} (hp : Pending l' j d) : Pending l j d :=
    ⟨hpending j hp.stage,by rw [← hdata]; exact hp.txn,by rw [← hid]; exact hp.id⟩
  exact ⟨fun j d hp => h.pending j d (hback hp),fun i j d hi hj => h.distinct i j d (hback hi) (hback hj),
    fun j hj => (h.worker j hj).trans (hreserved j).symm⟩

theorem Slots.setStage {stage} (hpending : isSent stage = false ∧ stage ≠ .arrived) (hold : l.stage i ≠ .reserved)
    (hnew : stage ≠ .reserved) : Slots K t (l.setStage i stage) D := by
  refine h.stages rfl rfl (fun j => ?_) (fun j => ?_)
  · by_cases hj : j = i
    · subst hj
      simp [Lane.setStage,hpending.1,hpending.2]
    · simp only [Lane.setStage,update_of_ne hj,imp_self]
  · by_cases hj : j = i
    · subst hj
      simp [Lane.setStage,hold,hnew]
    · simp only [Lane.setStage,update_of_ne hj]

theorem Slots.arrive {size} (hsent : l.stage i = .sent size) : Slots K t (l.arrive i) D := by
  simp only [Lane.arrive,hsent]
  refine h.stages rfl rfl (fun j => ?_) (fun j => ?_)
  · by_cases hj : j = i
    · subst hj
      simp [hsent,isSent]
    · simp only [update_of_ne hj,imp_self]
  · by_cases hj : j = i
    · subst hj
      simp [hsent]
    · simp only [update_of_ne hj]

/-- A new request: it is pending just if it is a delivery. -/
theorem Slots.generate (hquiet : l.stage i = .quiet) (r : Request) {e}
    (he : e = ⟨t,(pushNewCallWrite (r.call K t i) l.rpcnum (l.data i)).rpcId.toNat⟩) (hfresh : e ∉ D.arriving)
    (harriving : D'.arriving = if r.txn = .delivery then e :: D.arriving else D.arriving)
    (hworker : D'.worker = D.worker) : Slots K t (l.generate i (r.call K t i) (r.txn = .delivery)) D' := by
  have hnew {d : Nat} (hp : Pending (l.generate i (r.call K t i) (r.txn = .delivery)) i d) : r.txn = .delivery ∧ e = ⟨t,d⟩ := by
    obtain ⟨-,htxn,hid⟩ := hp
    simp only [Lane.generate,update_self,push_txnType] at htxn hid
    refine ⟨?_,by rw [he,hid]⟩
    cases hr : r.txn with
    | delivery => rfl
    | _ => simp [Request.call,hr,Txn.code] at htxn
  have hother {j d : Nat} (hj : j ≠ i) (hp : Pending (l.generate i (r.call K t i) (r.txn = .delivery)) j d) : Pending l j d := by
    obtain ⟨h1,h2,h3⟩ := hp
    simp only [Lane.generate,update_of_ne hj] at h1 h2 h3
    exact ⟨h1,h2,h3⟩
  -- the id of a pending delivery is not fresh
  have hclash {j d : Nat} (hj : j ≠ i) (hp : Pending (l.generate i (r.call K t i) (r.txn = .delivery)) j d)
      (hp' : Pending (l.generate i (r.call K t i) (r.txn = .delivery)) i d) : False := by
    refine hfresh ?_
    rw [(hnew hp').2]
    exact h.pending j d (hother hj hp)
  refine ⟨fun j d hp => ?_,fun j k d hp hp' => ?_,fun j hj => ?_⟩
  · by_cases hj : j = i
    · subst hj
      obtain ⟨hr,rfl⟩ := hnew hp
      rw [harriving,if_pos hr]
      exact mem_cons_self
    · have hmem := h.pending j d (hother hj hp)
      rw [harriving]
      split
      · exact mem_cons_of_mem _ hmem
      · exact hmem
  · by_cases hj : j = i
    · subst hj
      by_contra hk
      exact hclash (Ne.symm hk) hp' hp
    · by_cases hk : k = i
      · subst hk
        exact (hclash hj hp hp').elim
      · exact h.distinct j k d (hother hj hp) (hother hk hp')
  · rw [hworker,h.worker j hj]
    by_cases hji : j = i
    · subst hji
      simp [Lane.generate,hquiet]
    · simp only [Lane.generate,update_of_ne hji]

theorem Slots.reserve (hi : i < K.slotNum) (hp : Pending l i d) (w : Nat) :
    Slots K t (l.setStage i .reserved) (D.step K.delivery (.reserve (K.workerOf t i) w ⟨t,d⟩)) := by
  have hother {j c : Nat} (hp' : Pending (l.setStage i .reserved) j c) : j ≠ i ∧ Pending l j c := by
    obtain ⟨h1,h2,h3⟩ := hp'
    by_cases hj : j = i
    · subst hj
      simp [Lane.setStage,isSent] at h1
    · simp only [Lane.setStage,update_of_ne hj] at h1
      exact ⟨hj,h1,h2,h3⟩
  refine ⟨fun j c hp' => ?_,fun j k c hj hk => h.distinct j k c (hother hj).2 (hother hk).2,fun j hj => ?_⟩
  · obtain ⟨hj,hold⟩ := hother hp'
    have hne : (⟨t,c⟩ : Entry) ≠ ⟨t,d⟩ := by
      rintro ⟨⟩
      exact hj (h.distinct j i d hold hp)
    exact (mem_erase_of_ne hne).mpr (h.pending j c hold)
  · by_cases hji : j = i
    · subst hji
      simp [State.step,Lane.setStage]
    · have hne : K.workerOf t j ≠ K.workerOf t i := fun heq => hji (workerOf_inj hj hi heq).2
      simp only [State.step,Lane.setStage,update_of_ne hne,update_of_ne hji]
      exact h.worker j hj

theorem Slots.store (hi : i < K.slotNum) {r} (hr : D.worker (K.workerOf t i) = some r) :
    Slots K t (l.setStage i .served) (D.step K.delivery (.store (K.workerOf t i))) := by
  have hother {j c : Nat} (hp : Pending (l.setStage i .served) j c) : Pending l j c := by
    obtain ⟨h1,h2,h3⟩ := hp
    by_cases hj : j = i
    · subst hj
      simp [Lane.setStage,isSent] at h1
    · simp only [Lane.setStage,update_of_ne hj] at h1
      exact ⟨h1,h2,h3⟩
  simp only [State.step,hr]
  refine ⟨fun j c hp => h.pending j c (hother hp),fun j k c hj hk => h.distinct j k c (hother hj) (hother hk),fun j hj => ?_⟩
  by_cases hji : j = i
  · subst hji
    simp [Lane.setStage]
  · have hne : K.workerOf t j ≠ K.workerOf t i := fun heq => hji (workerOf_inj hj hi heq).2
    simp only [Lane.setStage,update_of_ne hne,update_of_ne hji]
    exact h.worker j hj

end

end Slots

section Counters
variable {K : Config} {t : Nat} {l l' : Lane} {D D' : State} {d : Nat}

section
variable (h : Counters t l D)
include h

theorem Counters.frame (hunanswered : ∀ d, D'.unanswered.count ⟨t,d⟩ = D.unanswered.count ⟨t,d⟩) (hcounter : D'.counter t = D.counter t)
    (hcounted : ∀ d, (⟨t,d⟩ : Entry) ∈ D'.counted ↔ (⟨t,d⟩ : Entry) ∈ D.counted) :
    Counters t l D' := by
  refine ⟨h.next,fun d => (hunanswered d).trans (h.waits d),fun d hd => ?_,fun d hd => ?_⟩
  · simp only [hcounter,hcounted]
    exact h.counter d hd
  · rw [Shows,hcounter]
    exact h.shows d hd

/-- An id whose flag is set is not waited for. -/
theorem Counters.fresh (hflag : l.noDeliveryFlag d = true) : D.unanswered.count ⟨t,d⟩ = 0 := by
  rw [h.waits d,hflag]
  simp

/-- With one more id the thread waits for at most 1000 deliveries. -/
theorem Counters.waiting_lt (hd : d < 1000) (hflag : l.noDeliveryFlag d = true) : D.waiting t < 1000 := by
  have hcount (c : Nat) : ((D.unanswered.filter (fun e => e.thread == t)).map Entry.rpcId).count c = D.unanswered.count ⟨t,c⟩ := by
    rw [count_eq_countP,count_eq_countP,countP_map,countP_filter]
    refine countP_congr (fun e _ => ?_)
    obtain ⟨u,c'⟩ := e
    simp [and_comm]
  have hlength : ((D.unanswered.filter (fun e => e.thread == t)).map Entry.rpcId).length = D.waiting t := by
    rw [length_map,State.waiting,countP_eq_length_filter]
  have hone (c : Nat) : (d :: (D.unanswered.filter (fun e => e.thread == t)).map Entry.rpcId).count c ≤ 1 := by
    rw [count_cons,hcount c]
    by_cases hc : d = c
    · subst hc
      simp [h.fresh hflag]
    · rw [h.waits c]
      simp only [beq_iff_eq,hc,if_false]
      split <;> omega
  have hlt : ∀ c ∈ d :: (D.unanswered.filter (fun e => e.thread == t)).map Entry.rpcId, c < 1000 := by
    intro c hc
    rcases mem_cons.mp hc with rfl | hc
    · exact hd
    · by_contra hge
      have hzero := h.waits c
      rw [if_neg (fun hcon => hge hcon.1),← hcount c] at hzero
      exact count_eq_zero.mp hzero hc
  have htotal := (Counting.length_le_of_count hlt (fun c _ => hone c)).2
  rw [length_cons,hlength] at htotal
  omega

theorem Counters.generate {i c} (hd : d = (pushNewCallWrite c l.rpcnum (l.data i)).rpcId.toNat) (hflag : l.noDeliveryFlag d = true) :
    Counters t (l.generate i c true) (D.step K.delivery (.send ⟨t,d⟩)) := by
  refine ⟨h.next,fun k => ?_,h.counter,h.shows⟩
  have hlt : d < 1000 := hd ▸ push_rpcId_lt c l.rpcnum (l.data i)
  simp only [State.step,count_cons,Lane.generate,if_true,← hd]
  by_cases hk : k = d
  · subst hk
    simp [h.fresh hflag,hlt]
  · have hne : ((⟨t,d⟩ : Entry) == ⟨t,k⟩) = false := by simp [Ne.symm hk]
    simpa [hne,update_of_ne hk] using h.waits k

theorem Counters.transmit : Counters t (l.transmit (D.counter t)) D := by
  cases hposts : l.posts with
  | nil => simpa only [Lane.transmit,hposts] using h
  | cons p posts =>
    cases p with
    | reply i value =>
      simp only [Lane.transmit,hposts]
      refine ⟨h.next,h.waits,h.counter,fun d hd => ?_⟩
      obtain ⟨m,n,hmn⟩ := h.shows d hd
      exact ⟨m,n,by simpa [filterMap_cons,Packet.counterAt] using hmn⟩
    | block c =>
      simp only [Lane.transmit,hposts]
      refine ⟨h.next,h.waits,h.counter,fun d hd => ?_⟩
      obtain ⟨m,n,hmn⟩ := h.shows d hd
      by_cases hc : c = d
      · refine ⟨m,n+1,?_⟩
        subst hc
        rw [filterMap_append,← cons_append,hmn,replicate_succ']
        simp [Packet.counterAt]
      · exact ⟨m,n,by simpa [Packet.counterAt,hc] using hmn⟩

end

/-- The values that follow the first one. -/
private theorem tail_replicate {α : Type} {a b c x : α} {rest : List α} {m n : Nat} (h : c :: x :: rest = replicate m a ++ replicate n b) :
    ∃ m n, x :: rest = replicate m a ++ replicate n b := by
  cases m with
  | zero =>
    cases n with
    | zero => simp at h
    | succ n =>
      rw [replicate_zero,nil_append,replicate_succ,List.cons.injEq] at h
      exact ⟨0,n,by simpa using h.2⟩
  | succ m =>
    rw [replicate_succ,cons_append,List.cons.injEq] at h
    exact ⟨m,n,h.2⟩

section
variable (h : Counters t l D)
include h

theorem Counters.land : Counters t l.land D := by
  cases hwire : l.wire with
  | nil => simpa only [Lane.land,hwire] using h
  | cons p wire =>
    cases p with
    | reply i value =>
      simp only [Lane.land,hwire]
      refine ⟨h.next,h.waits,h.counter,fun d hd => ?_⟩
      obtain ⟨m,n,hmn⟩ := h.shows d hd
      exact ⟨m,n,by simpa [hwire,filterMap_cons,Packet.counterAt] using hmn⟩
    | counter c value =>
      simp only [Lane.land,hwire]
      refine ⟨h.next,h.waits,h.counter,fun d hd => ?_⟩
      obtain ⟨m,n,hmn⟩ := h.shows d hd
      rw [hwire] at hmn
      by_cases hc : c = d
      · subst hc
        simp only [Shows,update_self]
        refine tail_replicate (c := l.counters c) (m := m) (n := n) ?_
        simpa [Packet.counterAt] using hmn
      · refine ⟨m,n,?_⟩
        simpa [Packet.counterAt,hc,filterMap_cons,update_of_ne (Ne.symm hc)] using hmn

/-- The client finds the counter of a delivery it waits for ahead of its own value:
the delivery has been counted, and nothing older is on its way. -/
theorem Counters.completed (hdone : l.completed = true) : (⟨t,l.dI⟩ : Entry) ∈ D.counted ∧ D.counter t l.dI = l.strifeCqe l.dI+11 ∧
      ∃ n, l.counters l.dI :: l.wire.filterMap (Packet.counterAt l.dI) = replicate n (D.counter t l.dI) := by
  simp only [Lane.completed,Bool.and_eq_true,beq_iff_eq] at hdone
  have hstep : l.strifeCqe l.dI+11 ≠ l.strifeCqe l.dI := by
    intro heq
    simp at heq
  have hcounter := h.counter l.dI h.next
  obtain ⟨m,n,hmn⟩ := h.shows l.dI h.next
  have hm : m = 0 := by
    cases m with
    | zero => rfl
    | succ m =>
      rw [replicate_succ,cons_append,List.cons.injEq,hdone.2] at hmn
      exact absurd hmn.1 hstep
  subst hm
  rw [replicate_zero,nil_append] at hmn
  have hhead : l.counters l.dI = D.counter t l.dI := eq_of_mem_replicate (hmn ▸ mem_cons_self)
  have hmem : (⟨t,l.dI⟩ : Entry) ∈ D.counted := by
    by_contra hnot
    rw [if_neg hnot,← hhead,hdone.2] at hcounter
    exact hstep hcounter
  exact ⟨hmem,by rw [← hhead,hdone.2],n,hmn⟩

theorem Counters.afterLoop (hdone : l.completed = false) : Counters t l.afterLoop D := by
  simp only [Lane.afterLoop,hdone]
  exact ⟨Nat.mod_lt _ (by decide),h.waits,h.counter,h.shows⟩

theorem Counters.answer (hinv : Delivery.Inv K.delivery D) (hdone : l.completed = true) :
    Counters t l.afterLoop (D.step K.delivery (.answer ⟨t,l.dI⟩)) := by
  obtain ⟨hmem,hcounter,n,hn⟩ := h.completed hdone
  have hflag : l.noDeliveryFlag l.dI = false := by
    simp only [Lane.completed,Bool.and_eq_true,Bool.not_eq_true'] at hdone
    exact hdone.1
  have hone : D.unanswered.count ⟨t,l.dI⟩ = 1 := by rw [h.waits,if_pos ⟨h.next,hflag⟩]
  have hcounted := hinv.counted_le ⟨t,l.dI⟩
  have hgone : (⟨t,l.dI⟩ : Entry) ∉ D.counted.erase ⟨t,l.dI⟩ := by
    rw [← count_eq_zero,count_erase_self]
    omega
  have hne {d : Nat} (hd : d ≠ l.dI) : (⟨t,d⟩ : Entry) ≠ ⟨t,l.dI⟩ := by
    rintro ⟨⟩
    exact hd rfl
  simp only [Lane.afterLoop,hdone,if_true]
  refine ⟨Nat.mod_lt _ (by decide),fun d => ?_,fun d hd => ?_,fun d hd => ?_⟩
  · by_cases hself : d = l.dI
    · subst hself
      simp [State.step,count_erase_self,hone]
    · simp only [State.step,count_erase_of_ne (hne hself),update_of_ne hself]
      exact h.waits d
  · by_cases hself : d = l.dI
    · subst hself
      simp only [State.step,if_neg hgone,update_self]
      exact hcounter
    · simp only [State.step,mem_erase_of_ne (hne hself),update_of_ne hself]
      exact h.counter d hd
  · by_cases hself : d = l.dI
    · subst hself
      exact ⟨0,n,by simpa [State.step] using hn⟩
    · simpa only [Shows,State.step,update_of_ne hself] using h.shows d hd

theorem Counters.write (hinv : Delivery.Inv K.delivery D) {w e value} (ho : D.owner w = .loaded e value)
    (hvalue : value = D.counter e.thread e.rpcId)
    (hone : D.unanswered.count e ≤ 1) : Counters t l (D.step K.delivery (.write w)) := by
  have hout : e ∉ D.counted := (hinv.held_once hone (w := w) (by simp [ho,Owner.held])).1
  simp only [State.step,ho]
  by_cases ht : e.thread = t
  · subst ht
    refine ⟨h.next,h.waits,fun d hd => ?_,fun d hd => ?_⟩
    · by_cases hself : d = e.rpcId
      · subst hself
        have hold := h.counter e.rpcId hd
        rw [if_neg hout] at hold
        simp [State.setOwner,State.setCounter,hvalue,hold]
      · have hne : (⟨e.thread,d⟩ : Entry) ≠ e := fun heq => hself (congrArg Entry.rpcId heq)
        simpa [State.setOwner,State.setCounter,hself,hne] using h.counter d hd
    · obtain ⟨m,n,hmn⟩ := h.shows d hd
      by_cases hself : d = e.rpcId
      · subst hself
        have hold := h.counter e.rpcId hd
        rw [if_neg hout] at hold
        refine ⟨m+n,0,?_⟩
        rw [hmn,hold,replicate_append_replicate,replicate_zero,append_nil]
      · refine ⟨m,n,?_⟩
        simpa [State.setOwner,State.setCounter,hself] using hmn
  · refine h.frame (fun d => rfl) ?_ (fun d => ?_)
    · simp only [State.setOwner,State.setCounter,update_of_ne (Ne.symm ht)]
    · have hne : (⟨t,d⟩ : Entry) ≠ e := by
        rintro rfl
        exact ht rfl
      simp [hne]

end

end Counters

section Steps
variable {K : Config} {s : System} {t : Nat}

theorem Inv.delivery (h : Inv K s) : Delivery.Inv K.delivery s.delivery := Delivery.inv_of_reachable h.reach

theorem Inv.count_le (h : Inv K s) (e : Entry) : s.delivery.unanswered.count e ≤ 1 := by
  by_cases ht : e.thread < K.threads
  · have hwaits := (h.lanes e.thread ht).counters.waits e.rpcId
    rw [hwaits]
    split <;> omega
  · have hnot : e ∉ s.delivery.unanswered := fun hmem => ht (h.delivery.bounded.thread_lt e hmem)
    rw [count_eq_zero_of_not_mem hnot]
    exact Nat.zero_le _

private theorem loaded_setOwner {D : State} {w : Nat} {o : Owner}
    (h : ∀ w e value, D.owner w = .loaded e value → value = D.counter e.thread e.rpcId)
    (ho : ∀ e value, o = .loaded e value → value = D.counter e.thread e.rpcId) {v : Nat} {e : Entry}
    {value : BitVec 64} (hv : update D.owner w o v = .loaded e value) :
    value = D.counter e.thread e.rpcId := by
  by_cases hself : v = w
  · rw [hself,update_self] at hv
    exact ho e value hv
  · rw [update_of_ne hself] at hv
    exact h v e value hv

/-- The value an owner has read is still the counter. -/
theorem Inv.loaded_step (h : Inv K s) (a : Delivery.Action) (hready : s.delivery.ready K.delivery a = true) :
    ∀ w e value, (s.delivery.step K.delivery a).owner w = .loaded e value →
      value = (s.delivery.step K.delivery a).counter e.thread e.rpcId := by
  intro w e value
  cases a with
  | send | reserve | clear | answer => exact h.loaded w e value
  | store j =>
    obtain ⟨r,hr⟩ := isSome_iff_exists.mp hready
    simp only [State.step,hr]
    exact h.loaded w e value
  | check v => exact loaded_setOwner h.loaded (by simp)
  | fetch v =>
    cases hcell : s.delivery.queue v (s.delivery.tail v) with
    | none =>
      simp only [State.step,hcell]
      exact h.loaded w e value
    | some x =>
      simp only [State.step,hcell]
      exact loaded_setOwner h.loaded (by simp)
  | mark v =>
    cases ho : s.delivery.owner v with
    | seen x =>
      simp only [State.step,ho]
      exact loaded_setOwner h.loaded (by simp)
    | _ => simp [State.ready,ho] at hready
  | load v =>
    cases ho : s.delivery.owner v with
    | taken x =>
      simp only [State.step,ho]
      exact loaded_setOwner h.loaded (by rintro e value ⟨⟩; rfl)
    | _ => simp [State.ready,ho] at hready
  | write v =>
    cases ho : s.delivery.owner v with
    | loaded x value' =>
      simp only [State.step,ho,State.setOwner,State.setCounter]
      intro hw
      -- no other owner holds the delivery whose counter changes
      have hother : w ≠ v := by
        rintro rfl
        simp at hw
      rw [update_of_ne hother] at hw
      have hne : e ≠ x := by
        rintro rfl
        exact hother ((h.delivery.held_once (h.count_le e) (by simp [ho,Owner.held])).2 w
          (by simp [hw,Owner.held]))
      rw [h.loaded w e value hw]
      by_cases ht : e.thread = x.thread
      · have hid : e.rpcId ≠ x.rpcId := fun hid => hne (by cases e; cases x; simp_all)
        rw [ht,update_self,update_of_ne hid]
      · rw [update_of_ne ht]
    | _ => simp [State.ready,ho] at hready
  | raise v =>
    cases ho : s.delivery.owner v with
    | written x =>
      simp only [State.step,ho]
      exact loaded_setOwner h.loaded (by simp)
    | _ => simp [State.ready,ho] at hready
  | post =>
    obtain ⟨u,hu⟩ := isSome_iff_exists.mp hready
    simp only [State.step,hu]
    exact h.loaded w e value

theorem Inv.setLane (h : Inv K s) {l} (hself : LaneInv K t l s.delivery) : Inv K (s.setLane t l) := by
  refine ⟨h.reach,h.loaded,fun u hu => ?_⟩
  by_cases hut : u = t
  · subst hut
    simpa only [System.setLane,update_self] using hself
  · simpa only [System.setLane,update_of_ne hut] using h.lanes u hu

theorem Inv.deliver (h : Inv K s) {a} (hready : s.delivery.ready K.delivery a = true) {l}
    (hself : LaneInv K t l (s.delivery.step K.delivery a))
    (hother : ∀ u < K.threads, u ≠ t → LaneInv K u (s.lane u) s.delivery →
      LaneInv K u (s.lane u) (s.delivery.step K.delivery a)) : Inv K ((s.deliver K a).setLane t l) := by
  refine ⟨.next h.reach hready trivial,h.loaded_step a hready,fun u hu => ?_⟩
  by_cases hut : u = t
  · subst hut
    simpa only [System.setLane,System.deliver,update_self] using hself
  · simpa only [System.setLane,System.deliver,update_of_ne hut] using hother u hu hut (h.lanes u hu)

theorem LaneInv.frame {u l D D'} (h : LaneInv K u l D) (harriving : ∀ d, (⟨u,d⟩ : Entry) ∈ D.arriving → (⟨u,d⟩ : Entry) ∈ D'.arriving)
    (hworker : ∀ i < K.slotNum, D'.worker (K.workerOf u i) = D.worker (K.workerOf u i))
    (hunanswered : ∀ d, D'.unanswered.count ⟨u,d⟩ = D.unanswered.count ⟨u,d⟩) (hcounter : D'.counter u = D.counter u)
    (hcounted : ∀ d, (⟨u,d⟩ : Entry) ∈ D'.counted ↔ (⟨u,d⟩ : Entry) ∈ D.counted) :
    LaneInv K u l D' :=
  ⟨h.trips,h.headers,h.slots.frame harriving hworker,h.counters.frame hunanswered hcounter hcounted⟩

theorem Trip.quiet_of_idle {x} (h : Trip x) (hidle : x.busy = false) : x.quiet = true := by
  obtain ⟨waiting,owed,hp⟩ := h.parts
  have hle := hp.single
  rw [hidle] at hle
  have hnil : x.flying ++ waiting ++ owed = [] := eq_nil_of_length_eq_zero (Nat.le_zero.mp hle)
  exact hp.quiet.mpr (append_eq_nil_iff.mp hnil).2

section
variable (h : Inv K s)
include h

section
variable (ht : t < K.threads)
include ht

theorem Inv.fresh_id (hguard : (s.lane t).deliveryReplyOk (s.lane t).rpcnum = true)
    (hguard' : (s.lane t).deliveryReplyOk ((s.lane t).rpcnum+1) = true) (c : Call) (m : Memory) :
    (s.lane t).noDeliveryFlag (pushNewCallWrite c (s.lane t).rpcnum m).rpcId.toNat = true ∧
      (⟨t,(pushNewCallWrite c (s.lane t).rpcnum m).rpcId.toNat⟩ : Entry) ∉ s.delivery.unanswered := by
  have hflag : (s.lane t).noDeliveryFlag (pushNewCallWrite c (s.lane t).rpcnum m).rpcId.toNat = true := by
    rcases push_rpcId_cases c (s.lane t).rpcnum m with hid | hid
    · rw [hid]
      exact hguard
    · rw [hid]
      exact hguard'
  exact ⟨hflag,count_eq_zero.mp ((h.lanes t ht).counters.fresh hflag)⟩

theorem Inv.generate (r : Request) (hidle : (s.lane t).busy (s.lane t).turn = false)
    (hguard : (s.lane t).deliveryReplyOk (s.lane t).rpcnum = true)
    (hguard' : (s.lane t).deliveryReplyOk ((s.lane t).rpcnum+1) = true) :
    Inv K ((if r.txn = .delivery then s.deliver K (.send ⟨t,(pushNewCallWrite (r.call K t (s.lane t).turn)
      (s.lane t).rpcnum ((s.lane t).data (s.lane t).turn)).rpcId.toNat⟩) else s).setLane t
      ((s.lane t).generate (s.lane t).turn (r.call K t (s.lane t).turn) (r.txn = .delivery))) := by
  have hl := h.lanes t ht
  have hquiet : (s.lane t).stage (s.lane t).turn = .quiet := by
    simpa [Lane.track] using (hl.trips (s.lane t).turn).quiet_of_idle hidle
  obtain ⟨hflag,hnot⟩ := h.fresh_id ht hguard hguard' (r.call K t (s.lane t).turn) ((s.lane t).data (s.lane t).turn)
  have harriving : (⟨t,(pushNewCallWrite (r.call K t (s.lane t).turn) (s.lane t).rpcnum
      ((s.lane t).data (s.lane t).turn)).rpcId.toNat⟩ : Entry) ∉ s.delivery.arriving := by
    have hle := h.delivery.arriving_le ⟨t,(pushNewCallWrite (r.call K t (s.lane t).turn) (s.lane t).rpcnum
      ((s.lane t).data (s.lane t).turn)).rpcId.toNat⟩
    rw [count_eq_zero_of_not_mem hnot] at hle
    exact count_eq_zero.mp (Nat.le_zero.mp hle)
  have htrips := hl.trips.generate hidle (r.call K t (s.lane t).turn) (decide (r.txn = .delivery))
  have hheaders := Header.generate hl.headers ht r (decide (r.txn = .delivery)) (s.lane t).turn
  by_cases hr : r.txn = .delivery
  · rw [if_pos hr]
    refine h.deliver ?_ ⟨htrips,hheaders,hl.slots.generate hquiet r rfl harriving (by simp [hr,State.step]) rfl,?_⟩
      (fun u hu hut hlu => ?_)
    · have hlt := hl.counters.waiting_lt (push_rpcId_lt _ _ _) hflag
      simp [State.ready,hlt,Config.delivery,ht]
    · rw [hr]
      exact hl.counters.generate rfl hflag
    · refine hlu.frame (fun d hd => mem_cons_of_mem _ hd) (fun _ _ => rfl) (fun d => ?_) rfl (fun _ => Iff.rfl)
      simp [State.step,Ne.symm hut]
  · rw [if_neg hr]
    refine h.setLane ⟨htrips,hheaders,hl.slots.generate hquiet r rfl harriving (by simp [hr]) rfl,?_⟩
    have hc := hl.counters
    rw [show decide (r.txn = .delivery) = false by simp [hr]]
    exact ⟨hc.next,hc.waits,hc.counter,hc.shows⟩

theorem Inv.afterLoop : Inv K ((if (s.lane t).completed then s.deliver K (.answer ⟨t,(s.lane t).dI⟩) else s).setLane t
      (s.lane t).afterLoop) := by
  have hl := h.lanes t ht
  have hheaders (i : Nat) : Header K t (s.lane t).afterLoop i :=
    ⟨(hl.headers i).copied,(hl.headers i).sized,(hl.headers i).entry⟩
  have hslots : Slots K t (s.lane t).afterLoop s.delivery :=
    hl.slots.stages rfl rfl (fun _ => id) (fun _ => Iff.rfl)
  cases hdone : (s.lane t).completed with
  | false =>
    exact h.setLane ⟨hl.trips,hheaders,hslots,hl.counters.afterLoop hdone⟩
  | true =>
    have hmem := (hl.counters.completed hdone).1
    refine h.deliver (by simpa [State.ready] using hmem)
      ⟨hl.trips,hheaders,hslots.frame (fun _ => id) (fun _ _ => rfl),hl.counters.answer h.delivery hdone⟩
      (fun u hu hut hlu => ?_)
    have hne (d : Nat) : (⟨u,d⟩ : Entry) ≠ ⟨t,(s.lane t).dI⟩ := by
      rintro ⟨⟩
      exact hut rfl
    refine hlu.frame (fun _ => id) (fun _ _ => rfl) (fun d => ?_) rfl (fun d => ?_)
    · simp only [State.step,count_erase_of_ne (hne d)]
    · simp only [State.step,mem_erase_of_ne (hne d)]

theorem Inv.client (r : Request) : Inv K (s.client K t r) := by
  have hl := h.lanes t ht
  rw [System.client]
  by_cases hturn : (s.lane t).turn < K.slotNum
  · rw [if_pos hturn]
    cases hbusy : (s.lane t).busy (s.lane t).turn with
    | true =>
      exact h.setLane ⟨hl.trips.seeReply hbusy,fun i => ⟨(hl.headers i).copied,(hl.headers i).sized,(hl.headers i).entry⟩,
        hl.slots.stages rfl rfl (fun _ => id) (fun _ => Iff.rfl),
        ⟨hl.counters.next,hl.counters.waits,hl.counters.counter,hl.counters.shows⟩⟩
    | false =>
      cases hguard : (s.lane t).deliveryReplyOk (s.lane t).rpcnum && (s.lane t).deliveryReplyOk ((s.lane t).rpcnum+1) with
      | false =>
        exact h.setLane ⟨hl.trips,fun i => ⟨(hl.headers i).copied,(hl.headers i).sized,(hl.headers i).entry⟩,
          hl.slots.stages rfl rfl (fun _ => id) (fun _ => Iff.rfl),
          ⟨hl.counters.next,hl.counters.waits,hl.counters.counter,hl.counters.shows⟩⟩
      | true =>
        rw [Bool.and_eq_true] at hguard
        exact h.generate ht r hbusy hguard.1 hguard.2
  · rw [if_neg hturn]
    exact h.afterLoop ht

theorem Inv.arrive {i} (hsent : isSent ((s.lane t).stage i) = true) : Inv K (s.setLane t ((s.lane t).arrive i)) := by
  have hl := h.lanes t ht
  cases hstage : (s.lane t).stage i with
  | sent size =>
    refine h.setLane ⟨?_,Header.arrive hl.headers hstage,hl.slots.arrive hstage,?_⟩
    · have htrips := hl.trips.setStage (i := i) (by simp [hstage]) (show Stage.arrived ≠ .quiet by simp)
      simp only [Lane.arrive,hstage]
      exact htrips
    · have hc := hl.counters
      simp only [Lane.arrive,hstage]
      exact ⟨hc.next,hc.waits,hc.counter,hc.shows⟩
  | _ => simp [hstage,isSent] at hsent

theorem Inv.take {i w} (hi : i < K.slotNum) (hw : w < K.warehouses)
    (harrived : (s.lane t).stage i = .arrived) : Inv K (s.take K t i w) := by
  have hl := h.lanes t ht
  have hc := hl.counters
  have hloud : (s.lane t).stage i ≠ .quiet := by simp [harrived]
  have hsent : System.isSent ((s.lane t).stage i) = false := by simp [harrived,System.isSent]
  rw [System.take]
  simp only [(hl.headers i).memory_txn hloud hsent,(hl.headers i).memory_entry hloud hsent]
  by_cases htxn : load 2 ((s.lane t).data i) 8 = Txn.delivery.code
  · rw [if_pos htxn]
    have hp : Pending (s.lane t) i ((s.lane t).singleRpcId i).toNat := ⟨Or.inr harrived,htxn,rfl⟩
    have hmem := hl.slots.pending i _ hp
    have hfree : s.delivery.worker (K.workerOf t i) = none := by
      by_contra hsome
      have hreserved := (hl.slots.worker i hi).mp (isSome_iff_ne_none.mpr hsome)
      rw [harrived] at hreserved
      cases hreserved
    refine h.deliver ?_ ⟨hl.trips.setStage hloud (by simp),Header.setStage hl.headers hloud hsent rfl,
      hl.slots.reserve hi hp w,⟨hc.next,hc.waits,hc.counter,hc.shows⟩⟩ (fun u hu hut hlu => ?_)
    · simp [State.ready,hfree,hmem,Config.delivery,hw]
    · refine hlu.frame (fun d hd => ?_) (fun j hj => ?_) (fun d => rfl) rfl (fun d => Iff.rfl)
      · have hne : (⟨u,d⟩ : Entry) ≠ ⟨t,((s.lane t).singleRpcId i).toNat⟩ := by
          rintro ⟨⟩
          exact hut rfl
        exact (mem_erase_of_ne hne).mpr hd
      · have hne : K.workerOf u j ≠ K.workerOf t i := fun heq => hut (Config.workerOf_inj hj hi heq).1
        simp only [State.step,update_of_ne hne]
  · rw [if_neg htxn]
    exact h.setLane ⟨hl.trips.setStage hloud (by simp),Header.setStage hl.headers hloud hsent rfl,
      hl.slots.setStage ⟨rfl,by simp⟩ (by simp [harrived]) (by simp),⟨hc.next,hc.waits,hc.counter,hc.shows⟩⟩

theorem Inv.store {i} (hi : i < K.slotNum) (hreserved : (s.lane t).stage i = .reserved) :
    Inv K ((s.deliver K (.store (K.workerOf t i))).setLane t ((s.lane t).setStage i .served)) := by
  have hl := h.lanes t ht
  have hc := hl.counters
  have hloud : (s.lane t).stage i ≠ .quiet := by simp [hreserved]
  have hsome := (hl.slots.worker i hi).mpr hreserved
  obtain ⟨r,hr⟩ := isSome_iff_exists.mp hsome
  refine h.deliver (a := .store _) hsome ⟨hl.trips.setStage hloud (by simp),
    Header.setStage hl.headers hloud (by simp [hreserved,isSent]) rfl,hl.slots.store hi hr,?_⟩
    (fun u hu hut hlu => ?_)
  · simp only [State.step,hr]
    exact ⟨hc.next,hc.waits,hc.counter,hc.shows⟩
  · simp only [State.step,hr]
    refine hlu.frame (fun d hd => hd) (fun j hj => ?_) (fun d => rfl) rfl (fun d => Iff.rfl)
    have hne : K.workerOf u j ≠ K.workerOf t i := fun heq => hut (workerOf_inj hj hi heq).1
    simp only [update_of_ne hne]

theorem Inv.publish {i} (hserved : (s.lane t).stage i = .served) : Inv K (s.setLane t ((s.lane t).publish i)) := by
  have hl := h.lanes t ht
  have hc := hl.counters
  have hloud : (s.lane t).stage i ≠ .quiet := by simp [hserved]
  have hsent : isSent ((s.lane t).stage i) = false := by simp [hserved,isSent]
  have hid : word ((s.lane t).memory i) 4 = (s.lane t).singleRpcId i := by
    rw [(hl.headers i).memory_id hloud hsent]
    exact (hl.trips i).head.trans (hl.trips i).single.symm
  refine h.setLane ⟨hl.trips.publish hloud hid,fun j => ?_,?_,⟨hc.next,hc.waits,hc.counter,hc.shows⟩⟩
  · by_cases hj : j = i
    · subst hj
      exact ⟨fun hne => by simp [Lane.publish] at hne,fun size hsize => by simp [Lane.publish] at hsize,
        fun hne => by simp [Lane.publish] at hne⟩
    · obtain ⟨h1,h2,h3⟩ := hl.headers j
      constructor <;> simpa only [Lane.publish,update_of_ne hj]
  · have hslots := hl.slots.setStage (i := i) ⟨rfl,by simp⟩ (by simp [hserved]) (show Stage.quiet ≠ .reserved by simp)
    exact hslots.stages rfl rfl (fun _ => id) (fun _ => Iff.rfl)

end

theorem Inv.owner {a} (hready : s.delivery.ready K.delivery a = true)
    (hlanes : ∀ t < K.threads, LaneInv K t (s.lane t) (s.delivery.step K.delivery a)) : Inv K (s.deliver K a) :=
  ⟨.next h.reach hready trivial,h.loaded_step a hready,hlanes⟩

end

theorem LaneInv.same {l D D'} (h : LaneInv K t l D) (harriving : D'.arriving = D.arriving) (hworker : D'.worker = D.worker)
    (hunanswered : D'.unanswered = D.unanswered) (hcounter : D'.counter = D.counter)
    (hcounted : D'.counted = D.counted) : LaneInv K t l D' := by
  refine h.frame (fun d hd => ?_) (fun i _ => ?_) (fun d => ?_) ?_ (fun d => ?_)
  · rwa [harriving]
  · rw [hworker]
  · rw [hunanswered]
  · rw [hcounter]
  · rw [hcounted]

/-- A step that leaves the requests of the lane alone. -/
theorem LaneInv.keep {l l' D} (h : LaneInv K t l D) (htrips : l'.Trips)
    (hslot : l'.stage = l.stage ∧ l'.data = l.data ∧ l'.memory = l.memory ∧ l'.singleRpcId = l.singleRpcId)
    (hcounters : Counters t l' D) : LaneInv K t l' D := by
  obtain ⟨hstage,hdata,hmemory,hid⟩ := hslot
  refine ⟨htrips,fun i => ?_,?_,hcounters⟩
  · obtain ⟨h1,h2,h3⟩ := h.headers i
    constructor <;> simpa only [hstage,hdata,hmemory,hid]
  · exact h.slots.stages hdata hid (fun j => by rw [hstage]; exact id) (fun j => by rw [hstage])

theorem Counters.keep {l l' D} (h : Counters t l D)
    (heq : l'.dI = l.dI ∧ l'.noDeliveryFlag = l.noDeliveryFlag ∧ l'.strifeCqe = l.strifeCqe ∧
      l'.counters = l.counters ∧ l'.wire = l.wire) : Counters t l' D := by
  obtain ⟨hnext,hflag,hcqe,hcounters,hwire⟩ := heq
  obtain ⟨h1,h2,h3,h4⟩ := h
  constructor <;> simpa only [Shows,hnext,hflag,hcqe,hcounters,hwire]

theorem Inv.owner_step (h : Inv K s) {a} (hready : s.ready K (.owner a) = true) : Inv K (s.deliver K a) := by
  simp only [ready,Bool.and_eq_true] at hready
  obtain ⟨hready,hkind⟩ := hready
  refine h.owner hready (fun t ht => ?_)
  have hl := h.lanes t ht
  cases a with
  | check w => exact hl.same rfl rfl rfl rfl rfl
  | fetch | mark | load | raise =>
    simp only [State.step]
    split
    · exact hl.same rfl rfl rfl rfl rfl
    · exact hl
  | write w =>
    cases ho : s.delivery.owner w with
    | loaded e value =>
      refine ⟨hl.trips,hl.headers,hl.slots.frame (fun d hd => ?_) (fun i _ => ?_),
        hl.counters.write h.delivery ho (h.loaded w e value ho) (h.count_le e)⟩
      · simpa only [State.step,ho,State.setOwner,State.setCounter] using hd
      · simp only [State.step,ho,State.setOwner,State.setCounter]
    | _ => simp [State.ready,ho] at hready
  | _ => cases hkind

theorem Inv.postBlock (h : Inv K s) {t} (hpost : s.delivery.posting = some t) :
    Inv K ((s.deliver K .post).setLane t { s.lane t with posts := (s.lane t).posts ++ [.block 0] }) := by
  have hsame {u : Nat} {l : Lane} (hl : LaneInv K u l s.delivery) : LaneInv K u l (s.delivery.step K.delivery .post) := by
    simp only [State.step,hpost]
    exact hl.same rfl rfl rfl rfl rfl
  have hdeliver : Inv K (s.deliver K .post) := h.owner (by simp [State.ready,hpost]) (fun u hu => hsame (h.lanes u hu))
  refine ⟨hdeliver.reach,hdeliver.loaded,fun u hu => ?_⟩
  by_cases hut : u = t
  · subst hut
    have hl := hdeliver.lanes u hu
    simp only [System.setLane,update_self]
    refine hl.keep (fun i => ?_) ⟨rfl,rfl,rfl,rfl⟩ (hl.counters.keep ⟨rfl,rfl,rfl,rfl,rfl⟩)
    have hself : Lane.track { s.lane u with posts := (s.lane u).posts ++ [.block 0] } i = (s.lane u).track i := by
      simp [Lane.track,filterMap_cons,Post.replyAt]
    rw [hself]
    exact hl.trips i
  · simpa only [System.setLane,update_of_ne hut] using hdeliver.lanes u hu

theorem Inv.step {a} (h : Inv K s) (hready : s.ready K a = true) : Inv K (s.step K a) := by
  cases a with
  | client t r => exact h.client (of_decide_eq_true hready) r
  | arrive t i =>
    simp only [System.ready,Bool.and_eq_true,decide_eq_true_eq] at hready
    exact h.arrive hready.1.1 hready.2
  | take t i w =>
    simp only [System.ready,Bool.and_eq_true,decide_eq_true_eq,beq_iff_eq] at hready
    exact h.take hready.1.1.1 hready.1.1.2 hready.1.2 hready.2
  | store t i =>
    simp only [System.ready,Bool.and_eq_true,decide_eq_true_eq,beq_iff_eq] at hready
    exact h.store hready.1.1 hready.1.2 hready.2
  | publish t i =>
    simp only [System.ready,Bool.and_eq_true,decide_eq_true_eq,beq_iff_eq] at hready
    exact h.publish hready.1.1 hready.2
  | check t i =>
    simp only [System.ready,Bool.and_eq_true,decide_eq_true_eq,beq_iff_eq,bne_iff_ne] at hready
    have hl := h.lanes t hready.1.1.1
    exact h.setLane (hl.keep (hl.trips.check hready.1.2 hready.2) ⟨rfl,rfl,rfl,rfl⟩
      (hl.counters.keep ⟨rfl,rfl,rfl,rfl,rfl⟩))
  | note t =>
    simp only [System.ready,Bool.and_eq_true,decide_eq_true_eq] at hready
    have hl := h.lanes t hready.1
    cases hwatch : (s.lane t).watch with
    | differs i =>
      exact h.setLane (hl.keep (hl.trips.note hwatch) (by simp [Lane.note,hwatch])
        (hl.counters.keep (by simp [Lane.note,hwatch])))
    | _ => simp [hwatch] at hready
  | post t =>
    simp only [System.ready,Bool.and_eq_true,decide_eq_true_eq] at hready
    have hl := h.lanes t hready.1
    cases hwatch : (s.lane t).watch with
    | noted i =>
      exact h.setLane (hl.keep (hl.trips.post hwatch) (by simp [Lane.post,hwatch])
        (hl.counters.keep (by simp [Lane.post,hwatch])))
    | _ => simp [hwatch] at hready
  | owner a => exact h.owner_step hready
  | clear t =>
    simp only [System.ready,Bool.and_eq_true,decide_eq_true_eq] at hready
    exact h.owner hready.2 (fun u hu => (h.lanes u hu).same rfl rfl rfl rfl rfl)
  | postBlock =>
    obtain ⟨t,ht⟩ := isSome_iff_exists.mp hready
    simp only [System.step,ht]
    exact h.postBlock ht
  | transmit t =>
    simp only [System.ready,Bool.and_eq_true,decide_eq_true_eq] at hready
    have hl := h.lanes t hready.1
    refine h.setLane (hl.keep (hl.trips.transmit _) ?_ hl.counters.transmit)
    rw [Lane.transmit]
    split <;> exact ⟨rfl,rfl,rfl,rfl⟩
  | land t =>
    simp only [System.ready,Bool.and_eq_true,decide_eq_true_eq] at hready
    have hl := h.lanes t hready.1
    refine h.setLane (hl.keep hl.trips.land ?_ hl.counters.land)
    rw [Lane.land]
    split <;> exact ⟨rfl,rfl,rfl,rfl⟩

theorem inv_start (K : Config) : Inv K .start := by
  refine ⟨.start,fun _ _ _ ho => (by cases ho),fun t _ => ⟨Lane.Trips.start,fun i => ?_,⟨?_,?_,?_⟩,⟨?_,?_,?_,?_⟩⟩⟩
  · exact ⟨fun hne => absurd rfl hne,fun size hsize => Stage.noConfusion hsize,fun hne => absurd rfl hne⟩
  · rintro i d ⟨hstage | hstage,-,-⟩ <;> cases hstage
  · rintro i j d ⟨hstage | hstage,-,-⟩ <;> cases hstage
  · intro i _
    simp [start,State.start,Lane.start]
  · exact show 0 < 1000 by decide
  · intro d
    simp [start,State.start,Lane.start]
  · intro d _
    simp [start,State.start,Lane.start]
  · intro d _
    exact ⟨1,0,rfl⟩

theorem inv_of_reachable (h : (machine K).Reachable s) : Inv K s :=
  h.invariant (inv_start K) (fun _ _ hinv hready => hinv.step hready)

end Steps

section
variable {x : Track}

theorem Trip.posts_once (h : Trip x) : x.posted <+: x.published ∧ x.published <+: x.issued.map (·+100) ∧
    (x.gaze ≠ .away → x.published = x.posted ++ [x.send]) := by
  obtain ⟨waiting,owed,hp⟩ := h.parts
  refine ⟨⟨waiting,hp.published.symm⟩,⟨owed,hp.issued.symm⟩,fun hgaze => ?_⟩
  have hwaiting := hp.gaze hgaze
  obtain ⟨-,hnil,-⟩ | ⟨v,-,hnil,-,-⟩ | ⟨v,-,rfl,-,-⟩ | ⟨v,-,hnil,-,-⟩ := hp.cases
  · exact absurd hnil hwaiting
  · exact absurd hnil hwaiting
  · rw [h.send,hp.published,latest_concat]
  · exact absurd hnil hwaiting

end

/-- In every run, for every client thread: the ids of consecutive requests of a slot
differ; when a reply is accepted, the reply of the last request has landed; the
replies posted are the first of those published, the reply thread turns to a slot
just when one is not posted, and then posts it; the id the next request takes is
not that of a delivery waited for; and the counter of an id is the value recorded
by the client, or 11 more. -/
theorem rpc_id_discipline (K : Config) {s : System} (hs : (machine K).Reachable s) {t : Nat} (ht : t < K.threads) :
    (∀ i, ((s.lane t).issued i).IsChain (· ≠ ·)) ∧
    (∀ i, (s.lane t).answered i = true → (s.lane t).landed i = ((s.lane t).issued i).map (·+100)) ∧
    (∀ i, (s.lane t).posted i <+: (s.lane t).published i ∧
      (s.lane t).published i <+: ((s.lane t).issued i).map (·+100) ∧
      ((s.lane t).watch ≠ .noted i →
        ((s.lane t).send i ≠ (s.lane t).lastRpcId i ↔ (s.lane t).posted i ≠ (s.lane t).published i)) ∧
      ((s.lane t).watch = .differs i ∨ (s.lane t).watch = .noted i →
        (s.lane t).published i = (s.lane t).posted i ++ [(s.lane t).send i])) ∧
    ((s.lane t).deliveryReplyOk (s.lane t).rpcnum = true → (s.lane t).deliveryReplyOk ((s.lane t).rpcnum+1) = true →
      ∀ c m, (⟨t,(pushNewCallWrite c (s.lane t).rpcnum m).rpcId.toNat⟩ : Delivery.Entry) ∉ s.delivery.unanswered) ∧
    (∀ id < 1000, s.delivery.counter t id-(s.lane t).strifeCqe id = 0 ∨
      s.delivery.counter t id-(s.lane t).strifeCqe id = 11) := by
  have h := inv_of_reachable hs
  have hl := h.lanes t ht
  refine ⟨fun i => (hl.trips i).chain,fun i hanswered => (hl.trips i).accepts_latest (beq_iff_eq.mp hanswered),
    fun i => ?_,fun hguard hguard' c m => (h.fresh_id ht hguard hguard' c m).2,fun id hid => ?_⟩
  · obtain ⟨hposted,hpublished,hgaze⟩ := (hl.trips i).posts_once
    refine ⟨hposted,hpublished,fun hwatch => (hl.trips i).differs_iff ?_,fun hwatch => hgaze ?_⟩
    · rw [Lane.track]
      cases hw : (s.lane t).watch with
      | idle => simp [Watch.gaze]
      | differs j => by_cases hj : j = i <;> simp [Watch.gaze,hj]
      | noted j =>
        have hj : j ≠ i := by
          rintro rfl
          exact hwatch hw
        simp [Watch.gaze,hj]
    · rcases hwatch with hw | hw <;> simp [Lane.track,hw,Watch.gaze]
  · rw [hl.counters.counter id hid]
    split
    · right
      exact add_sub_cancel_left _ _
    · left
      exact sub_self _

def Config.smallest : Config := ⟨1,1,1,1,Nat.one_pos,by decide,Nat.one_pos,by decide⟩

private theorem no_segments_fit : 28+4*([] : List (List (BitVec 8))).length+(([] : List (List (BitVec 8))).map length).sum < 2^32 := by
  decide

/-- A delivery of slot 0 and then a new order, posted and landed one after the other; the
delivery is counted in between, and its block is not yet posted. -/
def twoTrips : List Action :=
  let order : Request := ⟨.newOrder,0,[],no_segments_fit⟩
  let reply : List Action := [.publish 0 0,.check 0 0,.note 0,.post 0,.transmit 0,.land 0]
  [[.client 0 ⟨.delivery,0,[],no_segments_fit⟩,.arrive 0 0,.take 0 0 0,.store 0 0],reply,List.replicate 4 (.client 0 order),
    [.arrive 0 0,.take 0 0 0,.owner (.check 0),.owner (.fetch 0),.owner (.mark 0),.owner (.load 0),.owner (.write 0),.owner (.raise 0)],
    reply].flatten

theorem rpc_id_discipline_two_trips :
    ∃ s, (machine .smallest).Reachable s ∧ (s.lane 0).issued 0 = [1,2] ∧ (s.lane 0).answered 0 = true ∧
      (s.lane 0).landed 0 = [101,102] ∧ s.delivery.unanswered = [⟨0,1⟩] ∧
      (∀ c m, (⟨0,(pushNewCallWrite c (s.lane 0).rpcnum m).rpcId.toNat⟩ : Delivery.Entry) ∉ s.delivery.unanswered) ∧
      s.delivery.counter 0 1-(s.lane 0).strifeCqe 1 = 11 := by
  let s := (machine .smallest).play .start twoTrips
  have hs : (machine .smallest).Reachable s := Machine.Reachable.play .start twoTrips (by decide +kernel)
  obtain ⟨-,hlanded,-,hfresh,-⟩ := rpc_id_discipline .smallest hs (show 0 < 1 by decide)
  have hissued : (s.lane 0).issued 0 = [1,2] := by decide +kernel
  have hanswered : (s.lane 0).answered 0 = true := by decide +kernel
  exact ⟨s,hs,hissued,hanswered,(hlanded 0 hanswered).trans (by rw [hissued]; rfl),by decide +kernel,
    hfresh (by decide +kernel) (by decide +kernel),by decide +kernel⟩

end AlNiCo.Rpc
