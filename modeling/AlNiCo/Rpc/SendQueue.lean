import AlNiCo.Library.CommutingFold
import AlNiCo.Library.Machine
import Mathlib.Data.List.Perm.Subperm
import Mathlib.Data.List.Range
import Mathlib.Tactic

/-! The count of posts that client and server share: a connection counts its writes and asks
for a completion with one of them, and `poll_signal` takes completions off the queue of the
connection's port. -/
namespace AlNiCo.Rpc.SendQueue
open Library Function List Option BitVec

/-- Where the thread is: between two posts, or in `poll_signal` with the arguments of the call,
the number of completions it wants and those `pollWithCQN` has got so far. -/
inductive Pc (Port : Type)
  | idle
  | polling (port : Port) (connect : Nat) (pollflag syncOp : Bool) (pollNum : Nat) (wc : List Nat)
  deriving DecidableEq

structure State (Port : Type) where
  sendnum : Nat → BitVec 64
  /-- `signal_num` of a connection. -/
  connectSignals : Nat → BitVec 64
  /-- `signalNum` of a port. -/
  signalNum : Port → BitVec 64
  /-- The signaled work requests that the NIC has not completed, by their `wr_id`. -/
  nic : Port → List Nat
  sendCq : Port → List Nat
  pc : Pc Port

/-- What the two programs differ in. -/
structure Build (Port : Type) where
  connections : Nat
  portOf : Nat → Port
  /-- The port that the last exit of `poll_signal` looks at. -/
  context : Port
  batchPollSend : BitVec 64
  batchSignalSend : Nat
  /-- The writes of one post. -/
  writes : BitVec 64
  /-- Whether a post calls for completions, by the writes of its connection. -/
  pollflag : BitVec 64 → Bool
  /-- Whether a completion is taken off `signal_num` of its connection. -/
  settles : Bool
  writes_pos : 0 < writes.toNat
  writes_dvd : writes.toNat ∣ batchPollSend.toNat
  room : writes.toNat < batchPollSend.toNat ∧ 3*batchPollSend.toNat < 2^64 ∧ 0 < batchSignalSend ∧ 2*batchSignalSend < 2^64
  /-- It does so with the last post for which there is room. -/
  pollflag_iff : ∀ x : BitVec 64, x.toNat+writes.toNat ≤ 2*batchPollSend.toNat →
    (pollflag x = true ↔ 2*batchPollSend.toNat ≤ x.toNat+writes.toNat)

variable {Port : Type}

namespace State

def start : State Port := ⟨fun _ => 0,fun _ => 0,fun _ => 0,fun _ => [],fun _ => [],.idle⟩

section
variable [DecidableEq Port] (b : Build Port) (s : State Port)

def pollSignal (port : Port) (connect : Nat) (pollflag syncOp : Bool) : State Port :=
  if pollflag ∨ syncOp ∨ 2*b.batchSignalSend ≤ (s.signalNum port).toNat then
    { s with pc := .polling port connect pollflag syncOp (min b.batchSignalSend ((s.signalNum port).toNat+1/2)) [] }
  else s

/-- The write with which connection `i` asks for a completion. -/
def signaled (i : Nat) : State Port := { s with
  sendnum := update s.sendnum i (s.sendnum i+b.writes)
  connectSignals := update s.connectSignals i (s.connectSignals i+1)
  signalNum := update s.signalNum (b.portOf i) (s.signalNum (b.portOf i)+1)
  nic := update s.nic (b.portOf i) (s.nic (b.portOf i) ++ [i]) }

def count (i : Nat) : State Port :=
  if s.sendnum i+b.writes = b.batchPollSend then s.signaled b i
  else { s with sendnum := update s.sendnum i (s.sendnum i+b.writes) }

def post (i : Nat) : State Port :=
  let s := s.count b i
  s.pollSignal b (b.portOf i) i (b.pollflag (s.sendnum i)) false

/-- A completion with a `wr_id` from `connections` on is that of a single synchronous write. -/
def account (wrId : Nat) : State Port :=
  let (i,n) := if b.connections ≤ wrId then (wrId-b.connections,1) else (wrId,b.batchPollSend)
  { s with
    sendnum := update s.sendnum i (s.sendnum i-n)
    connectSignals := if b.settles then update s.connectSignals i (s.connectSignals i-1) else s.connectSignals }

def batch (port : Port) (pollNum : Nat) (wc : List Nat) : State Port :=
  let s := wc.foldl (account b) s
  { s with signalNum := update s.signalNum port (s.signalNum port-BitVec.ofNat 64 pollNum), pc := .idle }

/-- One turn of the loop in `poll_signal`: the batch, then the three exits. -/
def harvest (port : Port) (connect : Nat) (pollflag syncOp : Bool) (pollNum : Nat) (wc : List Nat) : State Port :=
  let s := s.batch b port pollNum wc
  if s.sendnum connect < b.batchPollSend ∧ pollflag then s
  else if s.connectSignals connect = 0 ∧ syncOp then s
  else if (s.signalNum b.context).toNat < b.batchSignalSend ∧ !syncOp ∧ !pollflag then s
  else { s with pc := .polling port connect pollflag syncOp 1 [] }

/-- The NIC completes a signaled work request. -/
def complete (port : Port) (wrId : Nat) : State Port := { s with
  nic := update s.nic port ((s.nic port).erase wrId)
  sendCq := update s.sendCq port (s.sendCq port ++ [wrId]) }

/-- One `ibv_poll_cq` that returns `k` completions. -/
def poll (port : Port) (connect : Nat) (pollflag syncOp : Bool) (pollNum : Nat) (wc : List Nat) (k : Nat) : State Port :=
  { s with
    sendCq := update s.sendCq port ((s.sendCq port).drop k)
    pc := .polling port connect pollflag syncOp pollNum (wc ++ (s.sendCq port).take k) }

def held (port : Port) : List Nat :=
  match s.pc with
  | .idle => []
  | .polling p _ _ _ _ wc => if p = port then wc else []

def outstanding (port : Port) : List Nat := s.nic port ++ s.sendCq port ++ s.held port

end

end State

inductive Action (Port : Type)
  | post (i : Nat)
  | complete (port : Port) (wrId : Nat)
  | poll (k : Nat)
  | harvest

section
variable [DecidableEq Port] (b : Build Port)

def State.next (s : State Port) : Action Port → Option (State Port)
  | .post i => if s.pc = .idle ∧ i < b.connections then some (s.post b i) else none
  | .complete port wrId => if wrId ∈ s.nic port then some (s.complete port wrId) else none
  | .poll k =>
    match s.pc with
    | .idle => none
    | .polling port connect pollflag syncOp pollNum wc =>
      if wc.length+k ≤ pollNum ∧ k ≤ (s.sendCq port).length then
        some (s.poll port connect pollflag syncOp pollNum wc k)
      else none
  | .harvest =>
    match s.pc with
    | .idle => none
    | .polling port connect pollflag syncOp pollNum wc =>
      if wc.length = pollNum then some (s.harvest b port connect pollflag syncOp pollNum wc) else none

def machine : Machine (State Port) (Action Port) := .ofNext .start (State.next b)

/-- The counters against the requests that are with the NIC, in the queue or with the thread. -/
structure Books (s : State Port) : Prop where
  nodup : ∀ port, (s.outstanding port).Nodup
  port : ∀ port, ∀ i ∈ s.outstanding port, i < b.connections ∧ b.portOf i = port
  posts : ∀ i < b.connections, b.writes.toNat ∣ (s.sendnum i).toNat
  signaled : ∀ i < b.connections, b.batchPollSend.toNat ≤ (s.sendnum i).toNat ↔ i ∈ s.outstanding (b.portOf i)
  connect : b.settles = true → ∀ i < b.connections, (s.connectSignals i).toNat = (s.outstanding (b.portOf i)).count i
  signalNum : ∀ port, (s.signalNum port).toNat = (s.outstanding port).length

end

section
variable [DecidableEq Port] {b : Build Port} {s s' : State Port}

/-- What the posts, the NIC and the two halves of `poll_signal` keep holds on every run. -/
theorem reachable_invariant {I : State Port → Prop} (hstart : I .start)
    (hpost : ∀ s i, I s → s.pc = .idle → i < b.connections → I (s.post b i))
    (hcomplete : ∀ s port wrId, I s → wrId ∈ s.nic port → I (s.complete port wrId))
    (hpoll : ∀ s port connect pollflag syncOp pollNum wc k, I s → s.pc = .polling port connect pollflag syncOp pollNum wc →
      wc.length+k ≤ pollNum → I (s.poll port connect pollflag syncOp pollNum wc k))
    (hharvest : ∀ s port connect pollflag syncOp pollNum wc, I s → s.pc = .polling port connect pollflag syncOp pollNum wc →
      wc.length = pollNum → I (s.harvest b port connect pollflag syncOp pollNum wc))
    (h : (machine b).Reachable s) : I s := by
  refine h.ofNext_invariant hstart (fun s a s' hI hnext => ?_)
  cases a with
  | post i =>
    obtain ⟨⟨hpc,hi⟩,rfl⟩ := ite_some_none_eq_some.mp hnext
    exact hpost s i hI hpc hi
  | complete port wrId =>
    obtain ⟨hmem,rfl⟩ := ite_some_none_eq_some.mp hnext
    exact hcomplete s port wrId hI hmem
  | poll k =>
    rw [State.next] at hnext
    split at hnext
    · cases hnext
    · next hpc =>
      obtain ⟨hk,rfl⟩ := ite_some_none_eq_some.mp hnext
      exact hpoll s _ _ _ _ _ _ k hI hpc hk.1
  | harvest =>
    rw [State.next] at hnext
    split at hnext
    · cases hnext
    · next hpc =>
      obtain ⟨hlen,rfl⟩ := ite_some_none_eq_some.mp hnext
      exact hharvest s _ _ _ _ _ _ hI hpc hlen

theorem books_start : Books b .start where
  nodup _ := nodup_nil
  port _ _ h := absurd h not_mem_nil
  posts _ _ := dvd_zero _
  signaled _ _ := iff_of_false (not_le_of_gt (b.writes_pos.trans b.room.1)) not_mem_nil
  connect _ _ _ := rfl
  signalNum _ := rfl

/-- Moving requests between NIC, queue and thread changes nothing. -/
theorem Books.of_perm (h : Books b s) (hsend : s'.sendnum = s.sendnum) (hconnect : s'.connectSignals = s.connectSignals)
    (hsignal : s'.signalNum = s.signalNum) (hperm : ∀ port, (s'.outstanding port).Perm (s.outstanding port)) : Books b s' where
  nodup port := (hperm port).nodup_iff.mpr (h.nodup port)
  port port i hi := h.port port i ((hperm port).mem_iff.mp hi)
  posts := hsend ▸ h.posts
  signaled i hi := by rw [hsend,h.signaled i hi,(hperm _).mem_iff]
  connect hsettles i hi := by rw [hconnect,h.connect hsettles i hi,(hperm _).count_eq]
  signalNum port := by rw [hsignal,h.signalNum port,(hperm port).length_eq]

open State

/-- A completion moves a request from the NIC to the queue. -/
theorem outstanding_complete {port wrId} (hmem : wrId ∈ s.nic port) (q : Port) :
    ((s.complete port wrId).outstanding q).Perm (s.outstanding q) := by
  refine Perm.append_right _ ?_
  by_cases hq : q = port
  · subst hq
    simp only [complete,update_self]
    rw [← List.append_assoc]
    exact (perm_append_singleton wrId _).trans ((perm_cons_erase hmem).symm.append_right _)
  · simp only [complete,update_of_ne hq]
    exact .rfl

section
variable {port : Port} {connect : Nat} {pollflag syncOp : Bool} {pollNum : Nat} {wc : List Nat}

/-- A poll moves requests from the queue to the thread. -/
theorem outstanding_poll {k} (hpc : s.pc = .polling port connect pollflag syncOp pollNum wc) (q : Port) :
    ((s.poll port connect pollflag syncOp pollNum wc k).outstanding q).Perm (s.outstanding q) := by
  simp only [outstanding,held,poll,hpc,List.append_assoc]
  refine Perm.append_left _ ?_
  by_cases hq : q = port
  · subst hq
    simp only [update_self,if_true]
    rw [← List.append_assoc]
    refine perm_append_comm.trans ?_
    rw [← List.append_assoc,take_append_drop]
  · simp only [update_of_ne hq,if_neg (Ne.symm hq)]
    exact .rfl

theorem outstanding_polling (hpc : s.pc = .polling port connect pollflag syncOp pollNum wc) :
    s.outstanding port = s.nic port ++ s.sendCq port ++ wc := by
  rw [outstanding,held,hpc]
  exact congrArg _ (if_pos rfl)

end

/-- A call that has no completion yet holds none. -/
theorem outstanding_called (hpc : s.pc = .idle) (port : Port) (connect : Nat) (pollflag syncOp : Bool) (pollNum : Nat) (q : Port) :
    outstanding { s with pc := .polling port connect pollflag syncOp pollNum [] } q = s.outstanding q := by
  simp only [outstanding,held,hpc,ite_self]

section Count
variable {i : Nat}

omit [DecidableEq Port] in
private theorem toNat_count (hlow : (s.sendnum i).toNat < 2*b.batchPollSend.toNat) :
    (s.sendnum i+b.writes).toNat = (s.sendnum i).toNat+b.writes.toNat := by
  obtain ⟨hwrites,hroom,-⟩ := b.room
  rw [toNat_add]
  omega

/-- A request of the connection joins those of its port. -/
theorem outstanding_signaled (hpc : s.pc = .idle) :
    ((s.signaled b i).outstanding (b.portOf i)).Perm (i :: s.outstanding (b.portOf i)) := by
  simp only [State.signaled,outstanding,held,hpc,update_self,List.append_assoc,singleton_append]
  exact perm_middle

private theorem outstanding_signaled_of_ne (hpc : s.pc = .idle) {q} (hq : q ≠ b.portOf i) :
    (s.signaled b i).outstanding q = s.outstanding q := by
  simp only [State.signaled,outstanding,held,hpc,update_of_ne hq]

/-- The write of the interval adds its request. -/
private theorem Books.signal (h : Books b s) (hpc : s.pc = .idle) (hi : i < b.connections)
    (hlow : (s.sendnum i).toNat < b.batchPollSend.toNat) (hval : s.sendnum i+b.writes = b.batchPollSend)
    (hroom : (s.outstanding (b.portOf i)).length+1 < 2^64) : Books b (s.signaled b i) := by
  have hnew := outstanding_signaled (b := b) (i := i) hpc
  have hnot : i ∉ s.outstanding (b.portOf i) := fun hmem => absurd ((h.signaled i hi).mpr hmem) (by omega)
  have hself : (s.signaled b i).sendnum i = b.batchPollSend := (update_self ..).trans hval
  have hsend {j : Nat} (hji : j ≠ i) : (s.signaled b i).sendnum j = s.sendnum j := update_of_ne hji ..
  have hother {j : Nat} (hji : j ≠ i) : j ∈ (s.signaled b i).outstanding (b.portOf j) ↔ j ∈ s.outstanding (b.portOf j) := by
    by_cases hq : b.portOf j = b.portOf i
    · rw [hq,hnew.mem_iff,mem_cons,or_iff_right hji]
    · rw [outstanding_signaled_of_ne hpc hq]
  refine ⟨fun q => ?_,fun q j hj => ?_,fun j hj => ?_,fun j hj => ?_,fun hsettles j hj => ?_,fun q => ?_⟩
  · by_cases hq : q = b.portOf i
    · subst hq
      exact hnew.nodup_iff.mpr (nodup_cons.mpr ⟨hnot,h.nodup _⟩)
    · rw [outstanding_signaled_of_ne hpc hq]
      exact h.nodup q
  · by_cases hq : q = b.portOf i
    · subst hq
      rcases mem_cons.mp (hnew.mem_iff.mp hj) with rfl | hj
      · exact ⟨hi,rfl⟩
      · exact h.port _ j hj
    · rw [outstanding_signaled_of_ne hpc hq] at hj
      exact h.port q j hj
  · by_cases hji : j = i
    · rw [hji,hself]
      exact b.writes_dvd
    · rw [hsend hji]
      exact h.posts j hj
  · by_cases hji : j = i
    · subst hji
      rw [hself]
      exact iff_of_true le_rfl (hnew.mem_iff.mpr mem_cons_self)
    · rw [hsend hji,h.signaled j hj,hother hji]
  · by_cases hji : j = i
    · subst hji
      have hzero := h.connect hsettles j hj
      rw [count_eq_zero_of_not_mem hnot] at hzero
      rw [hnew.count_eq,count_cons_self,count_eq_zero_of_not_mem hnot]
      simp only [State.signaled,update_self]
      rw [toNat_add,hzero]
      rfl
    · have hconnect : (s.signaled b i).connectSignals j = s.connectSignals j := update_of_ne hji ..
      rw [hconnect,h.connect hsettles j hj]
      by_cases hq : b.portOf j = b.portOf i
      · rw [hq,hnew.count_eq,count_cons_of_ne (Ne.symm hji)]
      · rw [outstanding_signaled_of_ne hpc hq]
  · by_cases hq : q = b.portOf i
    · subst hq
      rw [hnew.length_eq,length_cons,← h.signalNum]
      simp only [State.signaled,update_self]
      rw [toNat_add,show (1 : BitVec 64).toNat = 1 from rfl,h.signalNum]
      exact Nat.mod_eq_of_lt hroom
    · rw [outstanding_signaled_of_ne hpc hq,← h.signalNum q]
      simp only [State.signaled,update_of_ne hq]

/-- Any other write is counted only: it does not reach the interval. -/
private theorem Books.plain (h : Books b s) (hi : i < b.connections) (hval : s.sendnum i+b.writes ≠ b.batchPollSend)
    (hnext : (s.sendnum i+b.writes).toNat = (s.sendnum i).toNat+b.writes.toNat) :
    Books b { s with sendnum := update s.sendnum i (s.sendnum i+b.writes) } := by
  refine ⟨h.nodup,h.port,fun j hj => ?_,fun j hj => Iff.trans ?_ (h.signaled j hj),h.connect,h.signalNum⟩ <;> dsimp only
  · by_cases hji : j = i
    · rw [hji,update_self,hnext]
      exact (h.posts i hi).add dvd_rfl
    · rw [update_of_ne hji]
      exact h.posts j hj
  · by_cases hji : j = i
    · rw [hji,update_self,hnext]
      refine ⟨fun hge => ?_,fun hge => by omega⟩
      have hne : (s.sendnum i).toNat+b.writes.toNat ≠ b.batchPollSend.toNat :=
        fun heq => hval (eq_of_toNat_eq (hnext.trans heq))
      exact Nat.le_of_lt_add_of_dvd (by omega) b.writes_dvd (h.posts i hi)
    · rw [update_of_ne hji]

/-- What a post leaves behind before `poll_signal`. -/
structure Counted (b : Build Port) (s : State Port) (i : Nat) : Prop where
  books : Books b (s.count b i)
  pc : (s.count b i).pc = .idle
  others : ∀ j, j ≠ i → (s.count b i).sendnum j = s.sendnum j
  self : ((s.count b i).sendnum i).toNat = (s.sendnum i).toNat+b.writes.toNat
  length : ((s.count b i).outstanding (b.portOf i)).length =
    (s.outstanding (b.portOf i)).length+if (s.sendnum i).toNat+b.writes.toNat = b.batchPollSend.toNat then 1 else 0
  apart : ∀ q, q ≠ b.portOf i → (s.count b i).outstanding q = s.outstanding q

theorem Books.count (h : Books b s) (hpc : s.pc = .idle) (hi : i < b.connections)
    (hlow : (s.sendnum i).toNat < 2*b.batchPollSend.toNat) (hroom : (s.outstanding (b.portOf i)).length+1 < 2^64) :
    Counted b s i := by
  have hnext := toNat_count hlow
  by_cases hval : s.sendnum i+b.writes = b.batchPollSend
  · have hnat : (s.sendnum i).toNat+b.writes.toNat = b.batchPollSend.toNat := hnext.symm.trans (congrArg BitVec.toNat hval)
    have heq : s.count b i = s.signaled b i := if_pos hval
    have hpos := b.writes_pos
    refine ⟨?_,?_,fun j hji => ?_,?_,?_,fun q hq => ?_⟩ <;> rw [heq]
    · exact h.signal hpc hi (by omega) hval hroom
    · exact hpc
    · exact update_of_ne hji ..
    · rw [← hnext]
      exact congrArg BitVec.toNat (update_self i _ s.sendnum)
    · rw [(outstanding_signaled hpc).length_eq,if_pos hnat,length_cons]
    · exact outstanding_signaled_of_ne hpc hq
  · have hnat : (s.sendnum i).toNat+b.writes.toNat ≠ b.batchPollSend.toNat :=
      fun hnat => hval (eq_of_toNat_eq (hnext.trans hnat))
    have heq : s.count b i = { s with sendnum := update s.sendnum i (s.sendnum i+b.writes) } := if_neg hval
    refine ⟨?_,?_,fun j hji => ?_,?_,?_,fun q hq => ?_⟩ <;> rw [heq]
    · exact h.plain hi hval hnext
    · exact hpc
    · exact update_of_ne hji ..
    · rw [← hnext]
      exact congrArg BitVec.toNat (update_self i _ s.sendnum)
    · rw [if_neg hnat]
      rfl
    · rfl

end Count

section Batch
variable {port : Port} {connect : Nat} {pollflag syncOp : Bool} {pollNum : Nat} {wc : List Nat}

omit [DecidableEq Port] in
theorem foldl_account (hlt : ∀ i ∈ wc, i < b.connections) : wc.foldl (account b) s = { s with
    sendnum := wc.foldl (fun f i => update f i (f i-b.batchPollSend)) s.sendnum
    connectSignals := if b.settles then wc.foldl (fun f i => update f i (f i-1)) s.connectSignals else s.connectSignals } := by
  induction wc generalizing s with
  | nil => simp only [foldl_nil,ite_self]
  | cons i wc ih =>
    have hi := hlt i mem_cons_self
    rw [foldl_cons,ih (fun j hj => hlt j (mem_cons_of_mem _ hj))]
    simp only [account,if_neg (Nat.not_le_of_lt hi),foldl_cons]
    cases b.settles <;> rfl

/-- Each connection of the batch loses its interval, the others nothing. -/
theorem batch_sendnum (hnodup : wc.Nodup) (hlt : ∀ i ∈ wc, i < b.connections) (i : Nat) :
    (s.batch b port pollNum wc).sendnum i = if i ∈ wc then s.sendnum i-b.batchPollSend else s.sendnum i := by
  rw [batch,foldl_account hlt]
  exact CommutingFold.foldl_update (· - b.batchPollSend) hnodup (fun _ _ _ => rfl) i

private theorem batch_connectSignals (hnodup : wc.Nodup) (hlt : ∀ i ∈ wc, i < b.connections) (hsettles : b.settles = true) (i : Nat) :
    (s.batch b port pollNum wc).connectSignals i = if i ∈ wc then s.connectSignals i-1 else s.connectSignals i := by
  rw [batch,foldl_account hlt]
  simp only [hsettles,if_true]
  exact CommutingFold.foldl_update (· - 1) hnodup (fun _ _ _ => rfl) i

/-- What a full batch leaves behind before the exits. -/
structure Taken (b : Build Port) (s : State Port) (port : Port) (pollNum : Nat) (wc : List Nat) : Prop where
  books : Books b (s.batch b port pollNum wc)
  pc : (s.batch b port pollNum wc).pc = .idle
  sendnum : ∀ i, ((s.batch b port pollNum wc).sendnum i).toNat =
    if i ∈ wc then (s.sendnum i).toNat-b.batchPollSend.toNat else (s.sendnum i).toNat
  outstanding : ∀ q, (s.batch b port pollNum wc).outstanding q = if q = port then s.nic port ++ s.sendCq port else s.outstanding q

/-- The completions of a batch are requests of its port, each of them once. -/
private theorem Books.collected (h : Books b s) (hpc : s.pc = .polling port connect pollflag syncOp pollNum wc) :
    wc.Nodup ∧ ∀ i ∈ wc, i < b.connections ∧ b.portOf i = port := by
  have hparts := outstanding_polling hpc
  have hnodup := h.nodup port
  rw [hparts] at hnodup
  exact ⟨hnodup.of_append_right,fun i hi => h.port port i (hparts.symm ▸ mem_append_right _ hi)⟩

private theorem outstanding_batch (hlt : ∀ i ∈ wc, i < b.connections)
    (hpc : s.pc = .polling port connect pollflag syncOp pollNum wc) (q : Port) :
    (s.batch b port pollNum wc).outstanding q = if q = port then s.nic port ++ s.sendCq port else s.outstanding q := by
  rw [batch,foldl_account hlt]
  simp only [outstanding,held,hpc,append_nil]
  split
  · next hq => rw [hq]
  · next hq => rw [if_neg (Ne.symm hq),append_nil]

/-- The requests of the batch are outstanding no more. -/
private theorem Books.mem_batch (h : Books b s) (hpc : s.pc = .polling port connect pollflag syncOp pollNum wc) (i : Nat) :
    i ∈ (s.batch b port pollNum wc).outstanding (b.portOf i) ↔ i ∈ s.outstanding (b.portOf i) ∧ i ∉ wc := by
  obtain ⟨-,hin⟩ := h.collected hpc
  rw [outstanding_batch (fun i hi => (hin i hi).1) hpc]
  split
  · next hq =>
    have hnodup := h.nodup port
    rw [outstanding_polling hpc] at hnodup
    rw [hq,outstanding_polling hpc,List.mem_append (t := wc)]
    constructor
    · exact fun hrest => ⟨.inl hrest,fun hi => (nodup_append.mp hnodup).2.2 i hrest i hi rfl⟩
    · exact fun ⟨hall,hi⟩ => hall.resolve_right hi
  · next hq => exact (and_iff_left (fun hi => hq (hin i hi).2)).symm

theorem Books.batch (h : Books b s) (hpc : s.pc = .polling port connect pollflag syncOp pollNum wc) (hlen : wc.length = pollNum)
    (hlow : ∀ i ∈ wc, (s.sendnum i).toNat < 2*b.batchPollSend.toNat) : Taken b s port pollNum wc := by
  have hparts := outstanding_polling hpc
  obtain ⟨hwc,hin⟩ := h.collected hpc
  have hlt (i : Nat) (hi : i ∈ wc) := (hin i hi).1
  have hmine (i : Nat) (hi : i ∈ wc) : i ∈ s.outstanding (b.portOf i) := by
    rw [(hin i hi).2,hparts]
    exact mem_append_right _ hi
  have hout := outstanding_batch hlt hpc
  have hsend (i : Nat) : ((s.batch b port pollNum wc).sendnum i).toNat =
      if i ∈ wc then (s.sendnum i).toNat-b.batchPollSend.toNat else (s.sendnum i).toNat := by
    rw [batch_sendnum hwc hlt i]
    split
    · next hi => exact toNat_sub_of_le (le_def.mpr ((h.signaled i (hlt i hi)).mpr (hmine i hi)))
    · rfl
  have hnodup (q : Port) : ((s.batch b port pollNum wc).outstanding q).Nodup := by
    rw [hout]
    split
    · exact (hparts ▸ h.nodup port).of_append_left
    · exact h.nodup q
  refine ⟨⟨hnodup,fun q i hi => ?_,fun i hi => ?_,fun i hi => ?_,fun hsettles i hi => ?_,fun q => ?_⟩,rfl,hsend,hout⟩
  · rw [hout] at hi
    split at hi
    · next hq => exact h.port q i (hq ▸ hparts.symm ▸ mem_append_left _ hi)
    · exact h.port q i hi
  · rw [hsend]
    split
    · exact Nat.dvd_sub (h.posts i hi) b.writes_dvd
    · exact h.posts i hi
  · rw [hsend,h.mem_batch hpc,← h.signaled i hi]
    split
    · next hiw =>
      have hlow := hlow i hiw
      exact iff_of_false (by omega) (fun hand => hand.2 hiw)
    · next hiw => exact (and_iff_left hiw).symm
  · have hconnect := h.connect hsettles i hi
    rw [(h.nodup _).count] at hconnect
    rw [batch_connectSignals hwc hlt hsettles i,(hnodup _).count]
    split
    · next hiw =>
      rw [if_pos (hmine i hiw)] at hconnect
      rw [if_neg (fun hmem => ((h.mem_batch hpc i).mp hmem).2 hiw),show s.connectSignals i = 1 from eq_of_toNat_eq hconnect]
      rfl
    · next hiw =>
      rw [hconnect]
      exact if_congr ((h.mem_batch hpc i).trans (and_iff_left hiw)).symm rfl rfl
  · have hnum : (s.batch b port pollNum wc).signalNum = update s.signalNum port (s.signalNum port-BitVec.ofNat 64 pollNum) := by
      rw [State.batch,foldl_account hlt]
    rw [hnum,hout]
    by_cases hq : q = port
    · have hall := h.signalNum port
      rw [hparts,length_append,hlen] at hall
      have hcast : (BitVec.ofNat 64 pollNum).toNat = pollNum := by
        have hbound := (s.signalNum port).isLt
        rw [toNat_ofNat]
        exact Nat.mod_eq_of_lt (by omega)
      rw [hq,update_self,if_pos rfl,toNat_sub_of_le (le_def.mpr (by rw [hcast]; omega)),hcast,hall]
      omega
    · rw [update_of_ne hq,if_neg hq]
      exact h.signalNum q

end Batch

/-- No port can have more requests than one poll takes. -/
def Small (b : Build Port) : Prop := ∀ s port, Books b s → (s.outstanding port).length ≤ b.batchSignalSend

/-- What `poll_signal` has found when it waits: either its connection has no room for another
post, and then its request is outstanding, or the port has as many requests as it may. -/
structure Called (b : Build Port) (s : State Port) (port : Port) (connect : Nat) (pollflag syncOp : Bool) (pollNum : Nat)
    (wc : List Nat) : Prop where
  async : syncOp = false
  caller : connect < b.connections ∧ b.portOf connect = port
  bound : ∀ i < b.connections, (s.sendnum i).toNat+(if pollflag ∧ i = connect then b.writes.toNat else 2*b.writes.toNat) ≤
    2*b.batchPollSend.toNat
  full : if pollflag then b.batchPollSend.toNat ≤ (s.sendnum connect).toNat else ¬Small b
  others : ∀ q, q ≠ port → (s.outstanding q).length < 2*b.batchSignalSend
  crowd : (s.outstanding port).length+(if pollflag then 1 else 0) ≤ 2*b.batchSignalSend
  got : 0 < pollNum ∧ wc.length ≤ pollNum ∧ pollNum ≤ (s.outstanding port).length
  all : Small b → pollNum = (s.outstanding port).length

def Waiting (b : Build Port) (s : State Port) : Prop :=
  match s.pc with
  | .idle => (∀ i < b.connections, (s.sendnum i).toNat+2*b.writes.toNat ≤ 2*b.batchPollSend.toNat) ∧
    ∀ port, (s.outstanding port).length < 2*b.batchSignalSend
  | .polling port connect pollflag syncOp pollNum wc => Called b s port connect pollflag syncOp pollNum wc

structure Inv (b : Build Port) (s : State Port) : Prop extends Books b s where
  waiting : Waiting b s

section Calls
variable {port : Port} {connect : Nat} {pollflag syncOp : Bool} {pollNum k : Nat} {wc : List Nat}

theorem Inv.idle (h : Inv b s) (hpc : s.pc = .idle) :
    (∀ i < b.connections, (s.sendnum i).toNat+2*b.writes.toNat ≤ 2*b.batchPollSend.toNat) ∧
      ∀ port, (s.outstanding port).length < 2*b.batchSignalSend := by
  have hwait := h.waiting
  rwa [Waiting,hpc] at hwait

theorem Inv.called (h : Inv b s) (hpc : s.pc = .polling port connect pollflag syncOp pollNum wc) :
    Called b s port connect pollflag syncOp pollNum wc := by
  have hwait := h.waiting
  rwa [Waiting,hpc] at hwait

/-- A connection has room for the post that calls for completions. -/
theorem Inv.bound (h : Inv b s) {i} (hi : i < b.connections) : (s.sendnum i).toNat+b.writes.toNat ≤ 2*b.batchPollSend.toNat := by
  cases hpc : s.pc with
  | idle =>
    have hle := (h.idle hpc).1 i hi
    omega
  | polling =>
    have hle := (h.called hpc).bound i hi
    split at hle <;> omega

theorem inv_start : Inv b .start := by
  have hpos := b.writes_pos
  obtain ⟨hwrites,-,hsignal,-⟩ := b.room
  refine ⟨books_start,fun i _ => ?_,fun port => ?_⟩
  · change 0+_ ≤ _
    omega
  · change 0 < _
    omega

/-- A call is not disturbed by moving requests. -/
private theorem Called.of_perm {wc'} (h : Called b s port connect pollflag syncOp pollNum wc) (hsend : s'.sendnum = s.sendnum)
    (hperm : ∀ port, (s'.outstanding port).Perm (s.outstanding port)) (hgot : wc'.length ≤ pollNum) :
    Called b s' port connect pollflag syncOp pollNum wc' where
  async := h.async
  caller := h.caller
  bound := hsend ▸ h.bound
  full := hsend ▸ h.full
  others q hq := (hperm q).length_eq ▸ h.others q hq
  crowd := (hperm port).length_eq ▸ h.crowd
  got := ⟨h.got.1,hgot,(hperm port).length_eq ▸ h.got.2.2⟩
  all hsmall := (hperm port).length_eq ▸ h.all hsmall

theorem Inv.complete (h : Inv b s) {wrId} (hmem : wrId ∈ s.nic port) : Inv b (s.complete port wrId) := by
  have hperm := outstanding_complete hmem
  refine ⟨h.of_perm rfl rfl rfl hperm,?_⟩
  cases hpc : s.pc with
  | idle =>
    obtain ⟨hsend,hfew⟩ := h.idle hpc
    rw [Waiting,show (s.complete port wrId).pc = .idle from hpc]
    exact ⟨hsend,fun q => (hperm q).length_eq ▸ hfew q⟩
  | polling p connect pollflag syncOp pollNum wc =>
    have hcalled := h.called hpc
    rw [Waiting,show (s.complete port wrId).pc = .polling p connect pollflag syncOp pollNum wc from hpc]
    exact hcalled.of_perm rfl hperm hcalled.got.2.1

theorem Inv.poll (h : Inv b s) (hpc : s.pc = .polling port connect pollflag syncOp pollNum wc) (hk : wc.length+k ≤ pollNum) :
    Inv b (s.poll port connect pollflag syncOp pollNum wc k) := by
  have hperm := outstanding_poll (k := k) hpc
  refine ⟨h.of_perm rfl rfl rfl hperm,(h.called hpc).of_perm rfl hperm ?_⟩
  rw [length_append,length_take]
  omega

/-- A call without a completion yet. -/
private theorem Called.inv (hbooks : Books b s) (hidle : s.pc = .idle) (h : Called b s port connect pollflag syncOp pollNum []) :
    Inv b { s with pc := .polling port connect pollflag syncOp pollNum [] } := by
  have hperm (q : Port) := Perm.of_eq (outstanding_called hidle port connect pollflag syncOp pollNum q)
  exact ⟨hbooks.of_perm rfl rfl rfl hperm,h.of_perm rfl hperm h.got.2.1⟩

/-- The connection of a call is the only one that may have no room for two posts. -/
private theorem Inv.returned (hbooks : Books b s) (hidle : s.pc = .idle)
    (hothers : ∀ i < b.connections, i ≠ connect → (s.sendnum i).toNat+2*b.writes.toNat ≤ 2*b.batchPollSend.toNat)
    (hself : (s.sendnum connect).toNat+2*b.writes.toNat ≤ 2*b.batchPollSend.toNat)
    (hapart : ∀ q, q ≠ port → (s.outstanding q).length < 2*b.batchSignalSend)
    (hfew : (s.outstanding port).length < 2*b.batchSignalSend) : Inv b s := by
  refine ⟨hbooks,?_⟩
  rw [Waiting,hidle]
  refine ⟨fun i hi => ?_,fun q => ?_⟩
  · by_cases hic : i = connect
    · exact hic ▸ hself
    · exact hothers i hi hic
  · by_cases hq : q = port
    · exact hq ▸ hfew
    · exact hapart q hq

/-- What a post finds before `poll_signal`: all connections but its own have room for two. -/
private theorem Inv.call (hbooks : Books b s) (hidle : s.pc = .idle) (hconnect : connect < b.connections)
    (hothers : ∀ i < b.connections, i ≠ connect → (s.sendnum i).toNat+2*b.writes.toNat ≤ 2*b.batchPollSend.toNat)
    (hself : (s.sendnum connect).toNat+b.writes.toNat ≤ 2*b.batchPollSend.toNat)
    (hapart : ∀ q, q ≠ b.portOf connect → (s.outstanding q).length < 2*b.batchSignalSend)
    (hcrowd : (s.outstanding (b.portOf connect)).length ≤ 2*b.batchSignalSend)
    (hroom : b.pollflag (s.sendnum connect) = true → (s.outstanding (b.portOf connect)).length < 2*b.batchSignalSend) :
    Inv b (s.pollSignal b (b.portOf connect) connect (b.pollflag (s.sendnum connect)) false) := by
  have hnum := hbooks.signalNum (b.portOf connect)
  have hpos := b.writes_pos
  obtain ⟨hwrites,-,hsignal,-⟩ := b.room
  have hflag := b.pollflag_iff _ hself
  -- short of the last post there is room for two, as posts are counted in whole
  have hlow (hno : b.pollflag (s.sendnum connect) = false) : (s.sendnum connect).toNat+2*b.writes.toNat ≤ 2*b.batchPollSend.toNat := by
    rw [hno] at hflag
    have hlt : ¬2*b.batchPollSend.toNat ≤ (s.sendnum connect).toNat+b.writes.toNat := fun hge => Bool.false_ne_true (hflag.mpr hge)
    refine Nat.le_of_lt_add_of_dvd (n := b.writes.toNat) (by omega) ?_ (b.writes_dvd.mul_left 2)
    exact (hbooks.posts connect hconnect).add (dvd_mul_left _ 2)
  rw [State.pollSignal]
  generalize b.pollflag (s.sendnum connect) = pollflag at hflag hlow hroom
  split
  · next hpoll =>
    have hfull : 0 < (s.outstanding (b.portOf connect)).length ∧
        if pollflag then b.batchPollSend.toNat ≤ (s.sendnum connect).toNat else ¬Small b := by
      cases pollflag with
      | true =>
        have hge := hflag.mp rfl
        have hle : b.batchPollSend.toNat ≤ (s.sendnum connect).toNat := by omega
        exact ⟨length_pos_of_mem ((hbooks.signaled connect hconnect).mp hle),hle⟩
      | false =>
        have hmany : 2*b.batchSignalSend ≤ (s.outstanding (b.portOf connect)).length := by
          rw [← hnum]
          simpa using hpoll
        exact ⟨by omega,fun hsmall => absurd (hsmall s (b.portOf connect) hbooks) (by omega)⟩
    refine Called.inv hbooks hidle ⟨rfl,⟨hconnect,rfl⟩,fun i hi => ?_,hfull.2,hapart,?_,?_,fun hsmall => ?_⟩
    · by_cases hic : i = connect
      · subst hic
        cases pollflag with
        | true =>
          rw [if_pos ⟨rfl,rfl⟩]
          exact hself
        | false => exact hlow rfl
      · rw [if_neg (fun hand => hic hand.2)]
        exact hothers i hi hic
    · cases pollflag with
      | true => exact hroom rfl
      | false => exact hcrowd
    · rw [hnum]
      exact ⟨by omega,Nat.zero_le _,by omega⟩
    · have hle := hsmall s (b.portOf connect) hbooks
      omega
  · next hpoll =>
    have hno : pollflag = false := Bool.eq_false_iff.mpr (fun hyes => hpoll (.inl hyes))
    have hfew : (s.outstanding (b.portOf connect)).length < 2*b.batchSignalSend := by
      rw [← hnum]
      exact Nat.lt_of_not_le (fun hmany => hpoll (.inr (.inr hmany)))
    exact Inv.returned hbooks hidle hothers (hlow hno) hapart hfew

theorem Inv.post (h : Inv b s) (hpc : s.pc = .idle) (hconnect : connect < b.connections) : Inv b (s.post b connect) := by
  obtain ⟨hsend,hfew⟩ := h.idle hpc
  have hpos := b.writes_pos
  obtain ⟨hwrites,-,-,hsignal⟩ := b.room
  have hle := hsend connect hconnect
  have hport := hfew (b.portOf connect)
  obtain ⟨hbooks,hidle,hothers,hself,hlength,hapart⟩ := h.toBooks.count hpc hconnect (by omega) (by omega)
  refine Inv.call hbooks hidle hconnect (fun i hi hic => ?_) (by omega) (fun q hq => ?_) ?_ (fun hflag => ?_)
  · rw [hothers i hic]
    exact hsend i hi
  · rw [hapart q hq]
    exact hfew q
  · split at hlength <;> omega
  · have hge := (b.pollflag_iff _ (by omega)).mp hflag
    rw [if_neg (show (s.sendnum connect).toNat+b.writes.toNat ≠ b.batchPollSend.toNat by omega)] at hlength
    omega

/-- A turn of the loop ends it or finds a request to wait for. -/
theorem Inv.harvest (h : Inv b s) (hfit : Small b ∨ ∀ port, port = b.context)
    (hpc : s.pc = .polling port connect pollflag syncOp pollNum wc) (hlen : wc.length = pollNum) :
    Inv b (s.harvest b port connect pollflag syncOp pollNum wc) := by
  have hparts := outstanding_polling hpc
  have hpos := b.writes_pos
  have hlast (i : Nat) (hi : i ∈ wc) : (s.sendnum i).toNat < 2*b.batchPollSend.toNat := by
    have hle := h.bound ((h.collected hpc).2 i hi).1
    omega
  obtain ⟨hbooks,hidle,hless,hout⟩ := h.toBooks.batch hpc hlen hlast
  obtain ⟨rfl,⟨hconnect,hport⟩,hbound,hfull,hothers,hcrowd,hgot,hall⟩ := h.called hpc
  rw [State.harvest]
  generalize s.batch b port pollNum wc = t at hbooks hidle hless hout
  have hlength := congrArg length hparts
  have hrest := hout port
  rw [if_pos rfl] at hrest
  rw [length_append,hlen,← hrest] at hlength
  have hlow (i : Nat) (hi : i < b.connections) :
      (t.sendnum i).toNat+(if pollflag ∧ i = connect then b.writes.toNat else 2*b.writes.toNat) ≤ 2*b.batchPollSend.toNat := by
    refine le_trans (Nat.add_le_add_right ?_ _) (hbound i hi)
    rw [hless]
    split
    · exact Nat.sub_le _ _
    · exact le_rfl
  have hapart (q : Port) (hq : q ≠ port) : (t.outstanding q).length < 2*b.batchSignalSend := by
    rw [hout,if_neg hq]
    exact hothers q hq
  have hreturn (hself : (t.sendnum connect).toNat+2*b.writes.toNat ≤ 2*b.batchPollSend.toNat) : Inv b t := by
    refine Inv.returned hbooks hidle (fun i hi hic => ?_) hself hapart (by omega)
    have hle := hlow i hi
    rwa [if_neg (fun hand => hic hand.2)] at hle
  have hstay (hagain : if pollflag then b.batchPollSend.toNat ≤ (t.sendnum connect).toNat else ¬Small b)
      (hone : 0 < (t.outstanding port).length) : Inv b { t with pc := .polling port connect pollflag false 1 [] } := by
    refine Called.inv hbooks hidle ⟨rfl,⟨hconnect,hport⟩,hlow,hagain,hapart,by omega,⟨Nat.one_pos,Nat.zero_le 1,hone⟩,fun hsmall => ?_⟩
    have heq := hall hsmall
    omega
  cases pollflag with
  | true =>
    by_cases hexit : t.sendnum connect < b.batchPollSend
    · rw [if_pos ⟨hexit,rfl⟩]
      have hwrites := b.room.1
      refine hreturn ?_
      have hlt : (t.sendnum connect).toNat < b.batchPollSend.toNat := lt_def.mp hexit
      have hposts := Nat.le_of_lt_add_of_dvd (n := b.writes.toNat) (show (t.sendnum connect).toNat+b.writes.toNat < _+_ by omega)
        ((hbooks.posts connect hconnect).add dvd_rfl) b.writes_dvd
      omega
    · rw [if_neg (fun hand => hexit hand.1),if_neg (fun hand => absurd hand.2 (by decide)),
        if_neg (fun hand => absurd hand.2.2 (by decide))]
      have hge : b.batchPollSend.toNat ≤ (t.sendnum connect).toNat := Nat.le_of_not_lt (fun hlt => hexit (lt_def.mpr hlt))
      exact hstay hge (length_pos_of_mem (hport ▸ (hbooks.signaled connect hconnect).mp hge))
  | false =>
    have hself := hlow connect hconnect
    rw [if_neg (fun hand => absurd hand.1 (by decide))] at hself
    rw [if_neg (fun hand => absurd hand.2 (by decide)),if_neg (fun hand => absurd hand.2 (by decide))]
    by_cases hexit : (t.signalNum b.context).toNat < b.batchSignalSend
    · rw [if_pos ⟨hexit,rfl,rfl⟩]
      exact hreturn hself
    · rw [if_neg (fun hand => hexit hand.1)]
      have hmine := hfit.resolve_left hfull port
      have hnum := hbooks.signalNum port
      obtain ⟨-,-,hsignal,-⟩ := b.room
      refine hstay hfull ?_
      rw [← hmine] at hexit
      omega

end Calls

theorem reachable_inv (hfit : Small b ∨ ∀ port, port = b.context) (h : (machine b).Reachable s) : Inv b s :=
  reachable_invariant inv_start (fun _ _ hI hpc hi => hI.post hpc hi) (fun _ _ _ hI hmem => hI.complete hmem)
    (fun _ _ _ _ _ _ _ _ hI hpc hk => hI.poll hpc hk) (fun _ _ _ _ _ _ _ hI hpc hlen => hI.harvest hfit hpc hlen) h

/-- A request in the thread's hands is one of its port's, and one the counter has. -/
theorem Books.covered (h : Books b s) {port i} (hi : i ∈ s.held port) : i < b.connections ∧ b.batchPollSend.toNat ≤ (s.sendnum i).toNat ∧
      (b.settles = true → (s.connectSignals i).toNat = 1) := by
  have hmem : i ∈ s.outstanding port := mem_append_right _ hi
  obtain ⟨hlt,hport⟩ := h.port port i hmem
  refine ⟨hlt,(h.signaled i hlt).mpr (hport ▸ hmem),fun hsettles => ?_⟩
  rw [h.connect hsettles i hlt,hport]
  exact count_eq_one_of_mem (h.nodup port) hmem

theorem Books.signaled_iff_count (h : Books b s) {i} (hi : i < b.connections) :
    b.batchPollSend.toNat ≤ (s.sendnum i).toNat ↔ (s.outstanding (b.portOf i)).count i = 1 := by
  have hle := nodup_iff_count_le_one.mp (h.nodup (b.portOf i)) i
  rw [h.signaled i hi,← count_pos_iff]
  omega

end

end AlNiCo.Rpc.SendQueue
