import AlNiCo.Rpc.SendQueue

/-! The client's count of its posts: `double_rdma_write` posts a request's data and metadata
together, asks for a completion with the 32nd write of a connection, and `poll_signal` takes
completions off the one queue of all servers before a connection has 64 writes in flight. -/
namespace AlNiCo.Rpc.ClientSendAccounting
open Library List SendQueue

def client (maxServer : Nat) : Build Unit where
  connections := maxServer
  portOf _ := ()
  context := ()
  batchPollSend := 32
  batchSignalSend := 32
  writes := 2
  pollflag sendnum := 2*32-2 ≤ sendnum.toNat
  settles := true
  writes_pos := by decide
  writes_dvd := by decide
  room := by decide
  pollflag_iff x _ := by
    change decide (62 ≤ x.toNat) = true ↔ 64 ≤ x.toNat+2
    rw [decide_eq_true_eq]
    omega

def doubleRdmaWrite (maxServer : Nat) (s : State Unit) (node : Nat) : State Unit := s.post (client maxServer) node

def machine (maxServer : Nat) : Machine (State Unit) (Action Unit) := SendQueue.machine (client maxServer)

structure Accounted (maxServer : Nat) (s : State Unit) : Prop where
  even : ∀ i < maxServer, Even (s.sendnum i).toNat
  bound : ∀ i < maxServer, (s.sendnum i).toNat ≤ 62
  signaled : ∀ i < maxServer, 32 ≤ (s.sendnum i).toNat ↔ (s.outstanding ()).count i = 1
  once : ∀ i, (s.outstanding ()).count i ≤ 1
  /-- The subtractions for a completion do not wrap. -/
  covered : ∀ i ∈ s.held (), i < maxServer ∧ 32 ≤ (s.sendnum i).toNat ∧ (s.connectSignals i).toNat = 1
  /-- A wait is for requests that are with the NIC or in the queue. -/
  requested : ∀ pollflag syncOp node pollNum wc, s.pc = .polling () node pollflag syncOp pollNum wc →
    pollNum ≤ (s.signalNum ()).toNat ∧ pollNum-wc.length ≤ (s.nic () ++ s.sendCq ()).length

/-- Whatever the order of writes and completions, with any number of servers the counters never
leave their range, and `poll_signal` waits only for what was asked for. -/
theorem client_send_accounting (maxServer : Nat) (s : State Unit) (h : (machine maxServer).Reachable s) : Accounted maxServer s := by
  have hinv := reachable_inv (.inr (fun _ => rfl)) h
  refine ⟨fun i hi => even_iff_two_dvd.mpr (hinv.posts i hi),fun i hi => ?_,fun _ => hinv.signaled_iff_count,
    nodup_iff_count_le_one.mp (hinv.nodup ()),fun i hi => ?_,fun pollflag syncOp node pollNum wc hpc => ?_⟩
  · have hle : (s.sendnum i).toNat+2 ≤ 2*32 := hinv.bound hi
    omega
  · obtain ⟨hlt,hge,hone⟩ := hinv.covered hi
    exact ⟨hlt,hge,hone rfl⟩
  · obtain ⟨-,-,hnum⟩ := (hinv.called hpc).got
    have hlength := congrArg length (outstanding_polling hpc)
    rw [length_append] at hlength
    exact ⟨hnum.trans_eq (hinv.signalNum ()).symm,by omega⟩

/-- Thirty-one requests to one server, and the return of the poll for the first sixteen. -/
def oneRound : List (Action Unit) := List.replicate 31 (.post 3) ++ [.complete () 3,.poll 1,.harvest]

theorem client_send_accounting_one_round :
    (((machine 4).play .start oneRound).sendnum 3).toNat = 30 ∧ Accounted 4 ((machine 4).play .start oneRound) :=
  ⟨by decide +kernel,client_send_accounting 4 _ (.play .start oneRound (by decide +kernel))⟩

end AlNiCo.Rpc.ClientSendAccounting
