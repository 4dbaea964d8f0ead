import AlNiCo.Library.Counting
import AlNiCo.Library.Machine
import AlNiCo.Library.RingLog

/-! The delivery queues `tpcc_delivery_t`. Workers push the deliveries they
receive, the owner of each warehouse answers them, and the reply thread posts the
counter block of every client whose flag it finds set. -/
namespace AlNiCo.Delivery
open Library Function List Option

structure Config where
  /-- `MAX_CLIENT*CLIENT_THREAD`. -/
  threads : Nat
  warehouses : Nat
  threads_pos : 0 < threads

def Config.length (K : Config) : Nat := 1024*K.threads

/-- The `rpc_id_t` of a delivery: the client thread named by `my_nodeid` and
`thread_id`, and the id. -/
structure Entry where
  thread : Nat
  rpcId : Nat
deriving DecidableEq

/-- A worker inside `push_new_delivery`, between fetch-and-add and store. -/
structure Reserved where
  warehouse : Nat
  ticket : Nat
  entry : Entry
deriving DecidableEq

/-- The owner of a warehouse: `check` has found a delivery, `reply_now_delivery`
has read it, cleared its cell, read the counter, written the counter. -/
inductive Owner
  | idle
  | checked
  | seen (e : Entry)
  | taken (e : Entry)
  | loaded (e : Entry) (value : BitVec 64)
  | written (e : Entry)
deriving DecidableEq

structure State where
  /-- Deliveries sent by a client and not yet with a worker. -/
  arriving : List Entry
  worker : Nat → Option Reserved
  head : Nat → Nat
  tail : Nat → Nat
  /-- The cells, `none` for `0xFFFFFFF`. -/
  queue : Nat → Nat → Option Entry
  owner : Nat → Owner
  counter : Nat → Nat → BitVec 64
  /-- `tpcc_reply_delivery`. -/
  flag : Nat → Bool
  /-- The client thread whose flag the reply thread has cleared, before the post. -/
  posting : Option Nat
  /-- The counter block as last posted. -/
  snapshot : Nat → Nat → BitVec 64
  /-- Deliveries counted by the server and not yet seen by the client. -/
  counted : List Entry
  /-- Deliveries the clients wait for. -/
  unanswered : List Entry
  /-- What has been pushed, in the order of the fetch-and-adds, with the stores done. -/
  log : Nat → List (Entry × Bool)
  consumed : Nat → List Entry

inductive Action
  | send (e : Entry)
  | reserve (j w : Nat) (e : Entry)
  | store (j : Nat)
  | check (w : Nat)
  | fetch (w : Nat)
  | mark (w : Nat)
  | load (w : Nat)
  | write (w : Nat)
  | raise (w : Nat)
  | clear (t : Nat)
  | post
  | answer (e : Entry)

namespace State

def start : State where
  arriving := []
  worker _ := none
  head _ := 0
  tail _ := 0
  queue _ _ := none
  owner _ := .idle
  counter _ _ := 0
  flag _ := false
  posting := none
  snapshot _ _ := 0
  counted := []
  unanswered := []
  log _ := []
  consumed _ := []

def setOwner (s : State) (w : Nat) (o : Owner) : State := { s with owner := update s.owner w o }

def setCounter (s : State) (e : Entry) (value : BitVec 64) : State :=
  { s with counter := update s.counter e.thread (update (s.counter e.thread) e.rpcId value) }

def waiting (s : State) (t : Nat) : Nat := s.unanswered.countP (fun e => e.thread == t)

end State

variable (K : Config)

def State.ready (s : State) : Action → Bool
  | .send e => e.thread < K.threads && s.waiting e.thread < 1000
  | .reserve j w e => s.worker j == none && decide (e ∈ s.arriving) && w < K.warehouses
  | .store j => (s.worker j).isSome
  | .check w => s.owner w == .idle && (s.queue w (s.tail w)).isSome && w < K.warehouses
  | .fetch w => s.owner w == .checked
  | .mark w => match s.owner w with | .seen _ => true | _ => false
  | .load w => match s.owner w with | .taken _ => true | _ => false
  | .write w => match s.owner w with | .loaded _ _ => true | _ => false
  | .raise w => match s.owner w with | .written _ => true | _ => false
  | .clear t => s.posting == none && s.flag t
  | .post => s.posting.isSome
  | .answer e => decide (e ∈ s.counted)

def State.step (s : State) : Action → State
  | .send e => { s with arriving := e :: s.arriving, unanswered := e :: s.unanswered }
  | .reserve j w e =>
    -- __sync_fetch_and_add(&(head[w_id][0]), 1)
    { s with
      arriving := s.arriving.erase e
      worker := update s.worker j (some ⟨w,s.head w,e⟩)
      head := update s.head w (s.head w+1)
      log := update s.log w (s.log w ++ [(e,false)]) }
  | .store j =>
    match s.worker j with
    | some r =>
      { s with
        worker := update s.worker j none
        queue := update s.queue r.warehouse
          (update (s.queue r.warehouse) (r.ticket % K.length) (some r.entry))
        log := update s.log r.warehouse ((s.log r.warehouse).set r.ticket (r.entry,true)) }
    | none => s
  | .check w => s.setOwner w .checked
  | .fetch w =>
    match s.queue w (s.tail w) with
    | some e => s.setOwner w (.seen e)
    | none => s
  | .mark w =>
    match s.owner w with
    | .seen e =>
      { s.setOwner w (.taken e) with
        queue := update s.queue w (update (s.queue w) (s.tail w) none)
        tail := update s.tail w ((s.tail w+1) % K.length)
        consumed := update s.consumed w (s.consumed w ++ [e]) }
    | _ => s
  | .load w =>
    match s.owner w with
    | .taken e => s.setOwner w (.loaded e (s.counter e.thread e.rpcId))
    | _ => s
  | .write w =>
    match s.owner w with
    | .loaded e value => { (s.setCounter e (value+11)).setOwner w (.written e) with counted := e :: s.counted }
    | _ => s
  | .raise w =>
    match s.owner w with
    | .written e => { s.setOwner w .idle with flag := update s.flag e.thread true }
    | _ => s
  | .clear t => { s with flag := update s.flag t false, posting := some t }
  | .post =>
    match s.posting with
    | some t => { s with snapshot := update s.snapshot t (s.counter t), posting := none }
    | none => s
  | .answer e => { s with counted := s.counted.erase e, unanswered := s.unanswered.erase e }

def machine : Machine State Action := ⟨.start,State.ready K,State.step K⟩

section
variable {N : Nat} {queue : Nat → Option Entry} {log : List (Entry × Bool)} {consumed : List Entry}
  {head tail : Nat} {owner : Owner}

/-- What the cell of an entry holds: nothing before its store. -/
def cellOf (x : Entry × Bool) : Option Entry := if x.2 then some x.1 else none

def Owner.Found (log : List (Entry × Bool)) (done : Nat) : Owner → Prop
  | .checked => ∃ e, log[done]? = some (e,true)
  | .seen e => log[done]? = some (e,true)
  | _ => True

theorem Owner.Found.keep {log' done} (h : owner.Found log done)
    (hkeep : ∀ e, log[done]? = some (e,true) → log'[done]? = some (e,true)) : owner.Found log' done := by
  cases owner with
  | checked =>
    obtain ⟨e,he⟩ := h
    exact ⟨e,hkeep e he⟩
  | seen e => exact hkeep e h
  | idle | taken | loaded | written => trivial

/-- One queue: its cells are a window on its log, and what is consumed is the
start of the log. -/
structure Queued (N : Nat) (queue : Nat → Option Entry) (log : List (Entry × Bool)) (consumed : List Entry)
    (head tail : Nat) (owner : Owner) : Prop where
  ring : RingLog.Ring N none cellOf queue log consumed.length
  head_eq : head = log.length
  tail_eq : tail = consumed.length % N
  start : ∃ rest, log = consumed.map (fun e => (e,true)) ++ rest
  found : owner.Found log consumed.length

section
variable (h : Queued N queue log consumed head tail owner)
include h

theorem Queued.setOwner {owner'} (hfound : owner'.Found log consumed.length) : Queued N queue log consumed head tail owner' :=
  ⟨h.ring,h.head_eq,h.tail_eq,h.start,hfound⟩

theorem Queued.reserve (hroom : log.length < consumed.length+N)
    (e : Entry) : Queued N queue (log ++ [(e,false)]) consumed (head+1) tail owner := by
  obtain ⟨rest,hstart⟩ := h.start
  refine ⟨h.ring.reserve hroom rfl,by simp [h.head_eq],h.tail_eq,⟨rest ++ [(e,false)],by simp [hstart]⟩,h.found.keep (fun x hx => ?_)⟩
  rw [List.getElem?_append_left (List.getElem?_eq_some_iff.mp hx).1,hx]

/-- An entry that is not stored is not consumed. -/
theorem Queued.le_ticket {k e} (hk : log[k]? = some (e,false)) : consumed.length ≤ k := by
  obtain ⟨rest,hstart⟩ := h.start
  by_contra hlt
  rw [hstart,getElem?_append_left (by simpa using hlt),getElem?_map] at hk
  simp at hk

theorem Queued.store {k e} (hk : log[k]? = some (e,false)) :
    Queued N (update queue (k % N) (some e)) (log.set k (e,true)) consumed head tail owner := by
  have hle := h.le_ticket hk
  have hlt := (List.getElem?_eq_some_iff.mp hk).1
  obtain ⟨rest,hstart⟩ := h.start
  refine ⟨h.ring.set hle hlt (e,true),by simp [h.head_eq],h.tail_eq,⟨rest.set (k-consumed.length) (e,true),?_⟩,
    h.found.keep (fun x hx => ?_)⟩
  · rw [hstart,List.set_append_right _ _ (by simpa using hle),List.length_map]
  · rw [List.getElem?_set_ne,hx]
    rintro rfl
    rw [hk] at hx
    simp at hx

theorem Queued.mark {e} (he : log[consumed.length]? = some (e,true)) :
    Queued N (update queue tail none) log (consumed ++ [e]) head ((tail+1) % N) (.taken e) := by
  have hlt := (List.getElem?_eq_some_iff.mp he).1
  obtain ⟨rest,hstart⟩ := h.start
  have hrest : rest = (e,true) :: rest.tail := by
    rw [hstart,List.getElem?_append_right (by simp),List.length_map,Nat.sub_self] at he
    cases rest with
    | nil => simp at he
    | cons x rest => simpa using he
  refine ⟨?_,h.head_eq,?_,⟨rest.tail,?_⟩,trivial⟩
  · rw [h.tail_eq,List.length_append,List.length_singleton]
    exact h.ring.clear hlt
  · rw [h.tail_eq,List.length_append,List.length_singleton,Nat.mod_add_mod]
  · rw [hstart,hrest]
    simp

/-- The cell of the next delivery holds it from its store on. -/
theorem Queued.cell (hN : 0 < N) : queue tail = log[consumed.length]?.bind cellOf := by
  rw [h.tail_eq]
  cases hx : log[consumed.length]? with
  | some x => exact h.ring.live _ x (Nat.le_refl _) hx
  | none =>
    refine h.ring.free _ (Nat.mod_lt _ hN) (fun k hk hlt => ?_)
    exact absurd hlt (by have := getElem?_eq_none_iff.mp hx; omega)

end

end

open State

section
open Counting
variable {s : State}

def State.unconsumed (s : State) (w : Nat) : List Entry :=
  ((s.log w).map Prod.fst).drop (s.consumed w).length

/-- The delivery the owner has consumed and not yet counted. -/
def Owner.held : Owner → List Entry
  | .taken e => [e]
  | .loaded e _ => [e]
  | _ => []

/-- Every delivery a client waits for is in one place: on its way to a worker, in
a queue, with an owner, or counted. -/
def Accounted (s : State) : Prop :=
  ∀ p : Entry → Bool, s.unanswered.countP p = s.arriving.countP p+
    (∑ w ∈ Finset.range K.warehouses, (s.unconsumed w).countP p)+
    (∑ w ∈ Finset.range K.warehouses, (s.owner w).held.countP p)+s.counted.countP p

/-- No client thread waits for more than 1000 deliveries. -/
structure Bounded (s : State) : Prop where
  waiting_le : ∀ t, s.waiting t ≤ 1000
  thread_lt : ∀ e ∈ s.unanswered, e.thread < K.threads

variable {K}

theorem Bounded.length_le (h : Bounded K s) : s.unanswered.length ≤ 1000*K.threads :=
  length_le_of_classes h.thread_lt (fun t _ => h.waiting_le t)

theorem Accounted.unconsumed_le (h : Accounted K s) {w} (hw : w < K.warehouses) : (s.unconsumed w).length ≤ s.unanswered.length := by
  have htotal := h (fun _ => true)
  have hone := Finset.single_le_sum (f := fun w => (s.unconsumed w).countP (fun _ => true))
    (fun _ _ => Nat.zero_le _) (Finset.mem_range.mpr hw)
  simp only [countP_true] at htotal hone
  omega

theorem countP_erase_add {l : List Entry} {e : Entry} (he : e ∈ l) (p : Entry → Bool) :
    (l.erase e).countP p+(if p e then 1 else 0) = l.countP p := by
  rw [(perm_cons_erase he).countP_eq p,countP_cons]

/-- A queue is never full: its deliveries are all waited for. -/
theorem room (hacc : Accounted K s) (hb : Bounded K s) {w} (hw : w < K.warehouses) {queue head tail owner}
    (hq : Queued K.length queue (s.log w) (s.consumed w) head tail owner) :
    (s.log w).length < (s.consumed w).length+K.length := by
  have hle := hacc.unconsumed_le hw
  have htotal := hb.length_le
  have hpos := K.threads_pos
  have hdone := hq.ring.done_le
  rw [unconsumed,length_drop,length_map] at hle
  rw [Config.length]
  omega

end

section Invariant
open Counting
variable {K : Config} {s : State}

/-- A client whose flag is clear and for which no post and no raise is due has
been posted its counters. -/
def Posted (s : State) : Prop :=
  ∀ t, s.flag t = false → s.posting ≠ some t → (∀ w e, s.owner w = .written e → e.thread ≠ t) →
    s.snapshot t = s.counter t

structure Inv (K : Config) (s : State) : Prop where
  queued : ∀ w < K.warehouses,
    Queued K.length (s.queue w) (s.log w) (s.consumed w) (s.head w) (s.tail w) (s.owner w)
  reserved : ∀ j r, s.worker j = some r →
    r.warehouse < K.warehouses ∧ (s.log r.warehouse)[r.ticket]? = some (r.entry,false)
  distinct : ∀ i j r r', s.worker i = some r → s.worker j = some r' → r.warehouse = r'.warehouse →
    r.ticket = r'.ticket → i = j
  accounted : Accounted K s
  bounded : Bounded K s
  busy : ∀ w, s.owner w ≠ .idle → w < K.warehouses
  posted : Posted s

theorem inv_start (K : Config) : Inv K .start := by
  refine ⟨fun w _ => ⟨RingLog.Ring.nil (fun _ _ => rfl),rfl,by simp [start],⟨[],rfl⟩,trivial⟩,?_,?_,?_,?_,?_,?_⟩
  · intro j r hr
    cases hr
  · intro i j r r' hr
    cases hr
  · intro p
    simp [start,unconsumed,Owner.held]
  · exact ⟨fun t => Nat.zero_le _,fun e he => by cases he⟩
  · intro w hw
    exact absurd rfl hw
  · intro t _ _ _
    rfl

section
variable (h : Inv K s)
include h

theorem Inv.send {e} (ht : e.thread < K.threads) (hw : s.waiting e.thread < 1000) : Inv K (s.step K (.send e)) := by
  refine ⟨h.queued,h.reserved,h.distinct,fun p => ?_,⟨fun t => ?_,fun x hx => ?_⟩,h.busy,h.posted⟩
  · have hacc := h.accounted p
    simp only [step,countP_cons,unconsumed] at hacc ⊢
    omega
  · have hle := h.bounded.waiting_le t
    rw [waiting] at hle hw ⊢
    simp only [step,countP_cons]
    split
    · next heq =>
      rw [beq_iff_eq] at heq
      subst heq
      omega
    · omega
  · rcases mem_cons.mp hx with rfl | hx
    · exact ht
    · exact h.bounded.thread_lt x hx

theorem Inv.answer {e : Entry} (he : e ∈ s.counted) : Inv K (s.step K (.answer e)) := by
  have hmem : e ∈ s.unanswered := by
    have hacc := h.accounted (fun x => x == e)
    have hpos : 0 < s.counted.countP (fun x => x == e) := countP_pos_iff.mpr ⟨e,he,by simp⟩
    have hall : 0 < s.unanswered.countP (fun x => x == e) := by omega
    obtain ⟨x,hx,hxe⟩ := countP_pos_iff.mp hall
    rwa [← beq_iff_eq.mp hxe]
  refine ⟨h.queued,h.reserved,h.distinct,fun p => ?_,⟨fun t => ?_,fun x hx => ?_⟩,h.busy,h.posted⟩
  · have hacc := h.accounted p
    have h1 := countP_erase_add he p
    have h2 := countP_erase_add hmem p
    simp only [step,unconsumed] at hacc ⊢
    omega
  · exact le_trans (erase_sublist.countP_le) (h.bounded.waiting_le t)
  · exact h.bounded.thread_lt x (mem_of_mem_erase hx)

private theorem Inv.busy_update {w} (hw : w < K.warehouses) (o : Owner) (v : Nat) (hv : update s.owner w o v ≠ .idle) :
    v < K.warehouses := by
  by_cases hself : v = w
  · exact hself ▸ hw
  · exact h.busy v (by rwa [update_of_ne hself] at hv)

omit h

private theorem sum_held {w o} (hheld : o.held = (s.owner w).held) (p : Entry → Bool) :
    ∑ v ∈ Finset.range K.warehouses, (update s.owner w o v).held.countP p =
      ∑ v ∈ Finset.range K.warehouses, (s.owner v).held.countP p := by
  refine Finset.sum_congr rfl (fun v _ => ?_)
  by_cases hself : v = w
  · rw [hself,update_self,hheld]
  · rw [update_of_ne hself]

/-- An owner that is about to raise a flag was so before, or is the one that has moved. -/
private theorem written_of_update {w o t} (hraise : ∀ v e, update s.owner w o v = .written e → e.thread ≠ t)
    (hold : ∀ e, s.owner w = .written e → e.thread ≠ t) (v : Nat) (e : Entry) (hv : s.owner v = .written e) : e.thread ≠ t := by
  by_cases hself : v = w
  · exact hold e (hself ▸ hv)
  · exact hraise v e (by rwa [update_of_ne hself])

include h

theorem Inv.setOwner {w o} (hw : w < K.warehouses) (hfound : o.Found (s.log w) (s.consumed w).length) (hheld : o.held = (s.owner w).held)
    (hold : ∀ e, s.owner w ≠ .written e) : Inv K (s.setOwner w o) := by
  refine ⟨fun v hv => ?_,h.reserved,h.distinct,fun p => ?_,⟨h.bounded.waiting_le,h.bounded.thread_lt⟩,h.busy_update hw _,
    fun t hflag hpost hraise => ?_⟩
  · by_cases hself : v = w
    · subst hself
      simpa only [State.setOwner,update_self] using (h.queued v hv).setOwner hfound
    · simpa only [State.setOwner,update_of_ne hself] using h.queued v hv
  · simp only [State.setOwner,State.unconsumed]
    rw [sum_held hheld]
    exact h.accounted p
  · exact h.posted t hflag hpost (written_of_update hraise (fun e he => absurd he (hold e)))

theorem Inv.reserve {j w : Nat} {e : Entry} (hw : w < K.warehouses) (he : e ∈ s.arriving) : Inv K (s.step K (.reserve j w e)) := by
  have hroom := room h.accounted h.bounded hw (h.queued w hw)
  have hhead := (h.queued w hw).head_eq
  have hdone := (h.queued w hw).ring.done_le
  -- an entry of a log stays where it is
  have hkeep {v k : Nat} {x : Entry × Bool} (hx : (s.log v)[k]? = some x) : (update s.log w (s.log w ++ [(e,false)]) v)[k]? = some x := by
    by_cases hself : v = w
    · subst hself
      rw [update_self,List.getElem?_append_left (List.getElem?_eq_some_iff.mp hx).1,hx]
    · rw [update_of_ne hself,hx]
  refine ⟨fun v hv => ?_,fun i r hr => ?_,fun i i' r r' hr hr' hwr ht => ?_,fun p => ?_,⟨h.bounded.waiting_le,h.bounded.thread_lt⟩,h.busy,
    h.posted⟩
  · by_cases hself : v = w
    · subst hself
      simpa only [step,update_self] using (h.queued v hv).reserve hroom e
    · simpa only [step,update_of_ne hself] using h.queued v hv
  · simp only [step] at hr ⊢
    by_cases hi : i = j
    · rw [hi,update_self,Option.some.injEq] at hr
      subst hr
      refine ⟨hw,?_⟩
      simp [hhead]
    · rw [update_of_ne hi] at hr
      obtain ⟨hlt,hlog⟩ := h.reserved i r hr
      exact ⟨hlt,hkeep hlog⟩
  · -- a new ticket is behind every ticket taken before
    have hfresh {i : Nat} {r : Reserved} (hr : s.worker i = some r) (hrw : r.warehouse = w) : r.ticket ≠ s.head w := by
      have hlt := (List.getElem?_eq_some_iff.mp (h.reserved i r hr).2).1
      rw [hrw] at hlt
      omega
    simp only [step] at hr hr'
    by_cases hi : i = j
    · by_cases hi' : i' = j
      · rw [hi,hi']
      · rw [hi,update_self,Option.some.injEq] at hr
        rw [update_of_ne hi'] at hr'
        subst hr
        exact absurd ht.symm (hfresh hr' hwr.symm)
    · rw [update_of_ne hi] at hr
      by_cases hi' : i' = j
      · rw [hi',update_self,Option.some.injEq] at hr'
        subst hr'
        exact absurd ht (hfresh hr hwr)
      · rw [update_of_ne hi'] at hr'
        exact h.distinct i i' r r' hr hr' hwr ht
  · have hacc := h.accounted p
    have harrive := countP_erase_add he p
    have hgain : ∑ v ∈ Finset.range K.warehouses, ((s.step K (.reserve j w e)).unconsumed v).countP p =
        (∑ v ∈ Finset.range K.warehouses, (s.unconsumed v).countP p)+if p e then 1 else 0 := by
      refine sum_range_gain hw (fun v hv => ?_) ?_
      · simp only [unconsumed,step,update_of_ne hv]
      · simp only [unconsumed,step,update_self,List.map_append,List.map_cons,List.map_nil]
        rw [List.drop_append_of_le_length (by simpa using hdone),List.countP_append,List.countP_singleton]
    rw [hgain]
    simp only [step]
    omega

theorem Inv.store {j r} (hr : s.worker j = some r) : Inv K (s.step K (.store j)) := by
  obtain ⟨hw,hlog⟩ := h.reserved j r hr
  have hlt := (List.getElem?_eq_some_iff.mp hlog).1
  simp only [step,hr]
  refine ⟨fun v hv => ?_,fun i q hq => ?_,fun i i' q q' hq hq' hwq ht => ?_,fun p => ?_,
    ⟨h.bounded.waiting_le,h.bounded.thread_lt⟩,h.busy,h.posted⟩
  · by_cases hself : v = r.warehouse
    · subst hself
      simpa only [update_self] using (h.queued _ hv).store hlog
    · simpa only [update_of_ne hself] using h.queued v hv
  · dsimp only at hq ⊢
    have hi : i ≠ j := by
      rintro rfl
      rw [update_self] at hq
      cases hq
    rw [update_of_ne hi] at hq
    obtain ⟨hqw,hqlog⟩ := h.reserved i q hq
    refine ⟨hqw,?_⟩
    by_cases hself : q.warehouse = r.warehouse
    · have hticket : r.ticket ≠ q.ticket := fun heq => hi (h.distinct i j q r hq hr hself heq.symm)
      rw [hself,update_self,List.getElem?_set_ne hticket,← hself,hqlog]
    · rw [update_of_ne hself,hqlog]
  · have hold {i : Nat} {q : Reserved} (hq : update s.worker j none i = some q) : s.worker i = some q := by
      by_cases hi : i = j
      · rw [hi,update_self] at hq
        cases hq
      · rwa [update_of_ne hi] at hq
    exact h.distinct i i' q q' (hold hq) (hold hq') hwq ht
  · -- the store does not change which delivery the entry is
    have hsame : ∀ v, (update s.log r.warehouse ((s.log r.warehouse).set r.ticket (r.entry,true)) v).map
        Prod.fst = (s.log v).map Prod.fst := by
      intro v
      by_cases hself : v = r.warehouse
      · subst hself
        have hentry : ((s.log r.warehouse).map Prod.fst)[r.ticket]? = some r.entry := by
          rw [List.getElem?_map,hlog,Option.map_some]
        rw [update_self,List.map_set]
        obtain ⟨hb,heq⟩ := List.getElem?_eq_some_iff.mp hentry
        simp only [← heq]
        exact List.set_getElem_self hb
      · rw [update_of_ne hself]
    simp only [unconsumed,hsame]
    exact h.accounted p

theorem Inv.mark {w e} (ho : s.owner w = .seen e) : Inv K (s.step K (.mark w)) := by
  have hw : w < K.warehouses := h.busy w (by simp [ho])
  have hq := h.queued w hw
  have hfirst : (s.log w)[(s.consumed w).length]? = some (e,true) := by
    have hfound := hq.found
    rwa [ho] at hfound
  simp only [State.step,ho]
  refine ⟨fun v hv => ?_,h.reserved,h.distinct,fun p => ?_,⟨h.bounded.waiting_le,h.bounded.thread_lt⟩,h.busy_update hw _,
    fun t hflag hpost hraise => ?_⟩
  · by_cases hself : v = w
    · subst hself
      simpa only [State.setOwner,update_self] using hq.mark hfirst
    · simpa only [State.setOwner,update_of_ne hself] using h.queued v hv
  · have hacc := h.accounted p
    have hcons : s.unconsumed w = e :: ((s.log w).map Prod.fst).drop ((s.consumed w).length+1) := by
      have hentry : ((s.log w).map Prod.fst)[(s.consumed w).length]? = some e := by
        rw [List.getElem?_map,hfirst,Option.map_some]
      obtain ⟨hb,heq⟩ := List.getElem?_eq_some_iff.mp hentry
      rw [State.unconsumed,List.drop_eq_getElem_cons hb,heq]
    have hqueue := sum_range_replace hw (f := fun v => (s.unconsumed v).countP p)
      (g := fun v => (((s.log v).map Prod.fst).drop (update s.consumed w (s.consumed w ++ [e]) v).length).countP p)
      (fun v hv => by simp only [update_of_ne hv,State.unconsumed])
    have hheld := sum_range_gain hw (k := if p e then 1 else 0) (f := fun v => (s.owner v).held.countP p)
      (g := fun v => (update s.owner w (.taken e) v).held.countP p)
      (fun v hv => by simp only [update_of_ne hv])
      (by simp [ho,Owner.held,List.countP_cons])
    simp only [hcons,update_self,List.length_append,List.length_singleton,List.countP_cons] at hqueue
    simp only [State.unconsumed,State.setOwner]
    omega
  · exact h.posted t hflag hpost (written_of_update hraise (by simp [ho]))

theorem Inv.write {w e value} (ho : s.owner w = .loaded e value) : Inv K (s.step K (.write w)) := by
  have hw : w < K.warehouses := h.busy w (by simp [ho])
  simp only [State.step,ho]
  refine ⟨fun v hv => ?_,h.reserved,h.distinct,fun p => ?_,⟨h.bounded.waiting_le,h.bounded.thread_lt⟩,h.busy_update hw _,
    fun t hflag hpost hraise => ?_⟩
  · by_cases hself : v = w
    · subst hself
      simpa only [State.setOwner,State.setCounter,update_self] using
        (h.queued v hv).setOwner (show (Owner.written e).Found _ _ from trivial)
    · simpa only [State.setOwner,State.setCounter,update_of_ne hself] using h.queued v hv
  · have hacc := h.accounted p
    have hheld := sum_range_replace hw (f := fun v => (s.owner v).held.countP p)
      (g := fun v => (update s.owner w (.written e) v).held.countP p)
      (fun v hv => by simp only [update_of_ne hv])
    rw [update_self,ho,show (Owner.loaded e value).held = [e] from rfl,
      show (Owner.written e).held = [] from rfl,countP_cons,countP_nil] at hheld
    simp only [State.unconsumed,State.setOwner,State.setCounter,countP_cons] at hacc ⊢
    omega
  · have hne : e.thread ≠ t := hraise w e (by simp [State.setOwner])
    have hold := h.posted t hflag hpost (written_of_update hraise (by simp [ho]))
    simpa only [State.setOwner,State.setCounter,update_of_ne hne.symm] using hold

theorem Inv.raise {w e} (ho : s.owner w = .written e) : Inv K (s.step K (.raise w)) := by
  have hw : w < K.warehouses := h.busy w (by simp [ho])
  simp only [State.step,ho]
  refine ⟨fun v hv => ?_,h.reserved,h.distinct,fun p => ?_,⟨h.bounded.waiting_le,h.bounded.thread_lt⟩,h.busy_update hw _,
    fun t hflag hpost hraise => ?_⟩
  · by_cases hself : v = w
    · subst hself
      simpa only [State.setOwner,update_self] using (h.queued v hv).setOwner (show Owner.idle.Found _ _ from trivial)
    · simpa only [State.setOwner,update_of_ne hself] using h.queued v hv
  · have hacc := h.accounted p
    simp only [State.unconsumed,State.setOwner] at hacc ⊢
    rw [sum_held (by rw [ho]; rfl)]
    exact hacc
  · have hne : t ≠ e.thread := by
      rintro rfl
      simp at hflag
    dsimp only at hflag
    rw [update_of_ne hne] at hflag
    refine h.posted t hflag hpost (written_of_update hraise (fun x hx => ?_))
    rw [ho,Owner.written.injEq] at hx
    exact hx ▸ hne.symm

theorem Inv.clear {t} (hpost : s.posting = none) : Inv K (s.step K (.clear t)) := by
  refine ⟨h.queued,h.reserved,h.distinct,h.accounted,⟨h.bounded.waiting_le,h.bounded.thread_lt⟩,h.busy,fun u hflag hpost' hraise => ?_⟩
  have hne : u ≠ t := by
    rintro rfl
    exact hpost' rfl
  simp only [step,update_of_ne hne] at hflag
  exact h.posted u hflag (by simp [hpost]) hraise

theorem Inv.post {t} (hpost : s.posting = some t) : Inv K (s.step K .post) := by
  simp only [step,hpost]
  refine ⟨h.queued,h.reserved,h.distinct,h.accounted,⟨h.bounded.waiting_le,h.bounded.thread_lt⟩,h.busy,fun u hflag _ hraise => ?_⟩
  dsimp only
  by_cases hself : u = t
  · rw [hself,update_self]
  · rw [update_of_ne hself]
    exact h.posted u hflag (by rw [hpost]; simpa using Ne.symm hself) hraise

end

theorem Inv.step {a} (h : Inv K s) (hready : s.ready K a = true) : Inv K (s.step K a) := by
  have hlength : 0 < K.length := by
    have hpos := K.threads_pos
    rw [Config.length]
    omega
  cases a with
  | send e =>
    simp only [State.ready,Bool.and_eq_true,decide_eq_true_eq] at hready
    exact h.send hready.1 hready.2
  | reserve j w e =>
    simp only [State.ready,Bool.and_eq_true,decide_eq_true_eq] at hready
    exact h.reserve hready.2 hready.1.2
  | store j =>
    obtain ⟨r,hr⟩ := isSome_iff_exists.mp hready
    exact h.store hr
  | check w =>
    simp only [State.ready,Bool.and_eq_true,decide_eq_true_eq,beq_iff_eq] at hready
    obtain ⟨⟨ho,hcell⟩,hw⟩ := hready
    refine h.setOwner hw ?_ (by rw [ho]; rfl) (by simp [ho])
    rw [(h.queued w hw).cell hlength] at hcell
    obtain ⟨e,he⟩ := isSome_iff_exists.mp hcell
    obtain ⟨⟨x,b⟩,hx,hb⟩ := bind_eq_some_iff.mp he
    cases b with
    | false => simp [cellOf] at hb
    | true => exact ⟨x,hx⟩
  | fetch w =>
    simp only [State.ready,beq_iff_eq] at hready
    have hw := h.busy w (by simp [hready])
    have hfound := (h.queued w hw).found
    rw [hready] at hfound
    obtain ⟨e,he⟩ := hfound
    have hcell : s.queue w (s.tail w) = some e := by
      rw [(h.queued w hw).cell hlength,he]
      rfl
    simp only [State.step,hcell]
    exact h.setOwner hw he (by rw [hready]; rfl) (by simp [hready])
  | mark w =>
    cases ho : s.owner w with
    | seen e => exact h.mark ho
    | _ => simp [State.ready,ho] at hready
  | load w =>
    cases ho : s.owner w with
    | taken e =>
      simp only [State.step,ho]
      exact h.setOwner (h.busy w (by simp [ho])) trivial (by rw [ho]; rfl) (by simp [ho])
    | _ => simp [State.ready,ho] at hready
  | write w =>
    cases ho : s.owner w with
    | loaded e value => exact h.write ho
    | _ => simp [State.ready,ho] at hready
  | raise w =>
    cases ho : s.owner w with
    | written e => exact h.raise ho
    | _ => simp [State.ready,ho] at hready
  | clear t =>
    simp only [State.ready,Bool.and_eq_true,beq_iff_eq] at hready
    exact h.clear hready.1
  | post =>
    obtain ⟨t,ht⟩ := isSome_iff_exists.mp hready
    exact h.post ht
  | answer e =>
    simp only [State.ready,decide_eq_true_eq] at hready
    exact h.answer hready

theorem inv_of_reachable (h : (machine K).Reachable s) : Inv K s :=
  h.invariant (inv_start K) (fun _ _ hinv hready => hinv.step hready)

end Invariant

section
variable {K : Config} {s : State} {e : Entry}

theorem Inv.counted_le (h : Inv K s) (e : Entry) : s.counted.count e ≤ s.unanswered.count e := by
  have hacc := h.accounted (fun x => x == e)
  rw [count_eq_countP,count_eq_countP]
  omega

theorem Inv.arriving_le (h : Inv K s) (e : Entry) : s.arriving.count e ≤ s.unanswered.count e := by
  have hacc := h.accounted (fun x => x == e)
  rw [count_eq_countP,count_eq_countP]
  omega

/-- A delivery that is waited for once and held by an owner is nowhere else. -/
theorem Inv.held_once (h : Inv K s) (hone : s.unanswered.count e ≤ 1) {w} (hw : e ∈ (s.owner w).held) :
    e ∉ s.counted ∧ ∀ v, e ∈ (s.owner v).held → v = w := by
  have hlt {v : Nat} (hv : e ∈ (s.owner v).held) : v ∈ Finset.range K.warehouses := by
    refine Finset.mem_range.mpr (h.busy v (fun hidle => ?_))
    rw [hidle] at hv
    cases hv
  have hpos {v : Nat} (hv : e ∈ (s.owner v).held) : 1 ≤ (s.owner v).held.countP (fun x => x == e) :=
    countP_pos_iff.mpr ⟨e,hv,by simp⟩
  have hacc := h.accounted (fun x => x == e)
  rw [count_eq_countP] at hone
  constructor
  · intro hcounted
    have hcount : 1 ≤ s.counted.countP (fun x => x == e) := countP_pos_iff.mpr ⟨e,hcounted,by simp⟩
    have hself := Finset.single_le_sum (f := fun v => (s.owner v).held.countP (fun x => x == e))
      (fun _ _ => Nat.zero_le _) (hlt hw)
    have hheld := hpos hw
    omega
  · intro v hv
    by_contra hne
    have hpair := Finset.sum_le_sum_of_subset (f := fun v => (s.owner v).held.countP (fun x => x == e))
      (Finset.insert_subset (hlt hv) (Finset.singleton_subset_iff.mpr (hlt hw)))
    rw [Finset.sum_pair hne] at hpair
    have h1 := hpos hv
    have h2 := hpos hw
    omega

end

/-- For every interleaving: a worker stores into an empty cell; deliveries are
consumed in the order of the fetch-and-adds, each once, and the next one is found
as soon as it is stored; and a client whose flag is clear, with no post in
progress and no owner between counter and flag, has been posted a block with
every increment made so far. -/
theorem delivery_queue_safe (K : Config) {s : State} (hs : (machine K).Reachable s) :
    (∀ j r, s.worker j = some r → s.queue r.warehouse (r.ticket % K.length) = none) ∧
    (∀ w < K.warehouses, s.consumed w <+: (s.log w).map Prod.fst ∧ s.head w = (s.log w).length ∧
      (s.log w).length < (s.consumed w).length+K.length ∧ s.tail w = (s.consumed w).length % K.length ∧
      s.queue w (s.tail w) = (s.log w)[(s.consumed w).length]?.bind cellOf) ∧
    (∀ t, s.flag t = false → s.posting ≠ some t → (∀ w e, s.owner w = .written e → e.thread ≠ t) →
      s.snapshot t = s.counter t) := by
  have h := inv_of_reachable hs
  refine ⟨fun j r hr => ?_,fun w hw => ?_,h.posted⟩
  · obtain ⟨hw,hlog⟩ := h.reserved j r hr
    exact (h.queued _ hw).ring.live _ _ ((h.queued _ hw).le_ticket hlog) hlog
  · have hq := h.queued w hw
    obtain ⟨rest,hstart⟩ := hq.start
    have hlength : 0 < K.length := Nat.mul_pos (by decide) K.threads_pos
    refine ⟨⟨rest.map Prod.fst,?_⟩,hq.head_eq,room h.accounted h.bounded hw hq,hq.tail_eq,hq.cell hlength⟩
    rw [hstart,List.map_append,List.map_map]
    simp [comp_def]

def Config.pair : Config := ⟨2,1,by decide⟩

/-- Two deliveries are stored out of order, the first is answered and its block is
posted, and a worker is about to store a third. -/
def postedRun : List Action :=
  [.send ⟨0,7⟩,.send ⟨1,3⟩,.reserve 0 0 ⟨0,7⟩,.reserve 1 0 ⟨1,3⟩,.store 1,.store 0,.check 0,.fetch 0,.mark 0,.load 0,.write 0,
    .raise 0,.clear 0,.post,.answer ⟨0,7⟩,.send ⟨0,8⟩,.reserve 0 0 ⟨0,8⟩]

theorem delivery_queue_safe_posted :
    ∃ s, (machine .pair).Reachable s ∧ s.worker 0 = some ⟨0,2,⟨0,8⟩⟩ ∧ s.queue 0 2 = none ∧
      s.consumed 0 = [⟨0,7⟩] ∧ s.queue 0 1 = some ⟨1,3⟩ ∧ s.counter 0 7 = 11 ∧ s.snapshot 0 = s.counter 0 := by
  let s := (machine .pair).play .start postedRun
  have hs : (machine .pair).Reachable s := Machine.Reached.start.play postedRun (by decide +kernel) (fun _ _ _ => trivial)
  obtain ⟨hcell,hqueue,hposted⟩ := delivery_queue_safe .pair hs
  have hworker : s.worker 0 = some ⟨0,2,⟨0,8⟩⟩ := by decide +kernel
  have htail : s.tail 0 = 1 := by decide +kernel
  have hnext := (hqueue 0 (by decide)).2.2.2.2
  rw [htail] at hnext
  have hidle : s.owner 0 = .idle := by decide +kernel
  refine ⟨s,hs,hworker,hcell 0 _ hworker,by decide +kernel,hnext.trans (by decide +kernel),by decide +kernel,
    hposted 0 (by decide +kernel) (by decide +kernel) (fun w e hw => ?_)⟩
  have hlt : w < 1 := (inv_of_reachable hs).busy w (by rw [hw]; simp)
  rw [Nat.lt_one_iff.mp hlt,hidle] at hw
  cases hw

/-- A delivery is counted before the flag of its client is set: no flag, no post
in progress, and the block posted last lacks the increment. -/
theorem posted_block_lags :
    ∃ s, (machine .pair).Reachable s ∧ s.flag 0 = false ∧ s.posting = none ∧
      s.counter 0 7 = 11 ∧ s.snapshot 0 7 = 0 := by
  have hstart : (machine .pair).Reachable (machine .pair).start := .start
  exact ⟨_,hstart.play [.send ⟨0,7⟩,.reserve 0 0 ⟨0,7⟩,.store 0,.check 0,.fetch 0,.mark 0,.load 0,.write 0]
    (by decide +kernel),by decide +kernel,by decide +kernel,by decide +kernel,by decide +kernel⟩

end AlNiCo.Delivery
