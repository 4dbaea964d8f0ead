import AlNiCo.Rpc.SendQueue

/-! The reply thread's count of its posts: `rdma_write_reply_nictx` asks for a completion
with every 24th write of a connection, and `poll_signal` takes completions off the queue
of the port before a connection has 48 writes in flight. -/
namespace AlNiCo.Rpc.SendAccounting
open Library List SendQueue

/-- The port of connection `i`; `true` is `context_dual`. -/
def portOf (clientThread i : Nat) : Bool := decide (clientThread ≤ i)

/-- The reply thread never takes a completion off `signal_num`, and the last exit of its
`poll_signal` looks at the default port whichever port was polled. -/
def server (clientThread : Nat) : Build Bool where
  connections := 2*clientThread
  portOf := portOf clientThread
  context := false
  batchPollSend := 24
  batchSignalSend := 64
  writes := 1
  pollflag sendnum := sendnum = 2*24-1
  settles := false
  writes_pos := by decide
  writes_dvd := by decide
  room := by decide
  pollflag_iff x (hle : x.toNat+1 ≤ 48) := by
    change decide (x = 47) = true ↔ 48 ≤ x.toNat+1
    rw [decide_eq_true_eq,← BitVec.toNat_inj]
    change x.toNat = 47 ↔ _
    omega

def rdmaWriteReplyNictx (clientThread : Nat) (s : State Bool) (i : Nat) : State Bool := s.post (server clientThread) i

def machine (clientThread : Nat) : Machine (State Bool) (Action Bool) := SendQueue.machine (server clientThread)

variable {clientThread : Nat} {s : State Bool}

/-- A port has at most one outstanding request of each of its connections. -/
theorem length_outstanding_le (h : Books (server clientThread) s) (port : Bool) : (s.outstanding port).length ≤ clientThread := by
  have hsub : s.outstanding port ⊆ List.range' (if port then clientThread else 0) clientThread := by
    intro i hi
    obtain ⟨hlt,hport⟩ := h.port port i hi
    change i < 2*clientThread at hlt
    rw [mem_range'_1]
    cases port with
    | false =>
      have hi : ¬clientThread ≤ i := of_decide_eq_false hport
      simp only [Bool.false_eq_true,if_false]
      omega
    | true =>
      have hi : clientThread ≤ i := of_decide_eq_true hport
      simp only [if_true]
      omega
  have hle := ((h.nodup port).subperm hsub).length_le
  rwa [length_range'] at hle

theorem small_server (hlimit : clientThread ≤ 24) : Small (server clientThread) :=
  fun _ port h => (length_outstanding_le h port).trans (hlimit.trans (show 24 ≤ 64 by decide))

structure Accounted (clientThread : Nat) (s : State Bool) : Prop where
  bound : ∀ i < 2*clientThread, (s.sendnum i).toNat ≤ 47
  signaled : ∀ i < 2*clientThread, 24 ≤ (s.sendnum i).toNat ↔ (s.outstanding (portOf clientThread i)).count i = 1
  once : ∀ port i, (s.outstanding port).count i ≤ 1
  signalNum : ∀ port, (s.signalNum port).toNat = (s.outstanding port).length
  /-- The subtraction for a completion does not wrap. -/
  covered : ∀ port, ∀ i ∈ s.held port, i < 2*clientThread ∧ 24 ≤ (s.sendnum i).toNat
  /-- What `poll_signal` still waits for is with the NIC or in the queue of its port. -/
  requested : ∀ port connect pollflag syncOp pollNum wc, s.pc = .polling port connect pollflag syncOp pollNum wc →
    pollNum-wc.length = (s.nic port).length+(s.sendCq port).length

/-- Whatever the order of posts and completions, with at most 24 connections to a port the
counters never leave their range and `poll_signal` waits only for what was asked for. -/
theorem send_accounting (clientThread : Nat) (hlimit : clientThread ≤ 24) (s : State Bool)
    (h : (machine clientThread).Reachable s) : Accounted clientThread s := by
  have hinv := reachable_inv (.inl (small_server hlimit)) h
  refine ⟨fun i hi => ?_,fun _ => hinv.signaled_iff_count,fun port i => nodup_iff_count_le_one.mp (hinv.nodup port) i,
    hinv.signalNum,fun port i hi => ?_,fun port c f y n wc hpc => ?_⟩
  · have hle : (s.sendnum i).toNat+1 ≤ 2*24 := hinv.bound hi
    omega
  · obtain ⟨hlt,hge,-⟩ := hinv.covered hi
    exact ⟨hlt,hge⟩
  · have hnum := (hinv.called hpc).all (small_server hlimit)
    rw [hnum,outstanding_polling hpc]
    simp only [length_append]
    omega

/-- The writes of one connection up to the call for its completion, and the return. -/
def oneRound : List (Action Bool) := List.replicate 47 (.post 0) ++ [.complete false 0,.poll 1,.harvest]

theorem send_accounting_one_round :
    (((machine 24).play .start oneRound).sendnum 0).toNat = 23 ∧ Accounted 24 ((machine 24).play .start oneRound) :=
  ⟨by decide +kernel,send_accounting 24 (by decide) _ (.play .start oneRound (by decide +kernel))⟩

end AlNiCo.Rpc.SendAccounting
