import AlNiCo.Nic.WorkerSteps

/-! The doorbell ring of each core: neither side reads the other's index, and
the reply goes out before the entry is cleared. -/
namespace AlNiCo.Nic
open Library Library.RingLog
variable {B : Build} {s : System}

/-- The write of the doorbell stage goes to the next entry of a core's ring. -/
theorem doorbell_write (h : Inv B s) {addr word} (hw : (doorbellDataflow s.fpga).2 = some (addr,word)) :
    ∃ c < B.coreNum, ∃ g < B.maxSlot, addr = B.entryAddr c ((s.rung c).length % 256) ∧
      word = BitVec.ofNat 32 g ∧ s.doorbell.rung c = s.rung c ++ [g] ∧ ∀ d, d ≠ c → s.doorbell.rung d = s.rung d := by
  cases hout : s.fpga.computeCoreIdOut with
  | nil => simp [doorbellDataflow,hout] at hw
  | cons msg rest =>
    obtain ⟨hid,hcore⟩ := h.streamed.compute msg (by simp [hout])
    have hpair : s.fpga.queueAddrMap msg.coreId+s.fpga.queueMetadata msg.coreId*16 = addr ∧ BitVec.ofNat 32 msg.i = word := by
      simpa [doorbellDataflow,hout] using hw
    refine ⟨msg.coreId,hcore,msg.i,hid,?_,hpair.2.symm,?_,fun d hd => ?_⟩
    · rw [← hpair.1,h.configured.addr_eq _ hcore,(h.queued _ hcore).head,Build.entryAddr_eq,Build.entryAddr_eq]
      omega
    · simp [System.doorbell,hout]
    · simp [System.doorbell,hout,hd]

private theorem room (h : Inv B s) {c} (hc : c < B.coreNum) : (s.rung c).length ≤ s.cleared c+193 := by
  have hocc := h.occupancy hc
  have hbank := B.perBank_le
  rw [Build.maxSlot] at hocc
  omega

/-- What a worker has received is the start of what its queue was sent. -/
private theorem received_start (h : Inv B s) {c} (hc : c < B.coreNum) : s.received c <+: s.rung c := by
  have hduty := (h.queued c hc).duty
  rw [Served] at hduty
  cases hd : (s.worker c).duty with
  | waiting =>
    rw [hd] at hduty
    exact hduty ▸ List.take_prefix _ _
  | serving | replied =>
    rw [hd] at hduty
    exact hduty.2 ▸ List.take_prefix _ _

/-- In every reachable state a doorbell is written only over a cleared entry,
and it is the next entry of its core's log; each ring holds exactly the entries
not yet cleared, at most 193 of 256; `msg_id` is the index of the oldest of them,
or of the next to be written when there is none; and each worker has received
the log in its order. -/
theorem doorbell_ring_safe (B : Build) {s : System} (hs : Reachable B s) :
    (∀ addr word, (doorbellDataflow s.fpga).2 = some (addr,word) → s.hostm addr = 0xFFFFFFFF ∧
      ∃ c < B.coreNum, ∃ g < B.maxSlot, addr = B.entryAddr c ((s.rung c).length % 256) ∧
        word = BitVec.ofNat 32 g ∧ s.doorbell.rung c = s.rung c ++ [g]) ∧
    (∀ c < B.coreNum,
      Ring 256 0xFFFFFFFF (BitVec.ofNat 32) (fun e => s.hostm (B.entryAddr c e)) (s.rung c) (s.cleared c) ∧
      (s.rung c).length ≤ s.cleared c+193 ∧
      s.fpga.queueMetadata c = (s.rung c).length % 256 ∧
      (s.worker c).msgId = s.cleared c % 256 ∧
      s.received c <+: s.rung c ∧
      ((s.worker c).duty = .waiting → (s.received c).length = s.cleared c) ∧
      ((s.worker c).duty ≠ .waiting → (s.received c).length = s.cleared c+1)) := by
  have h := inv_of_reachable hs
  refine ⟨fun addr word hw => ?_,fun c hc => ?_⟩
  · obtain ⟨c,hc,g,hg,haddr,hword,hrung,-⟩ := doorbell_write h hw
    refine ⟨?_,c,hc,g,hg,haddr,hword,hrung⟩
    have hroom := room h hc
    rw [haddr]
    exact (h.queued c hc).ring.next_empty (by omega)
  · have hq := h.queued c hc
    have hdone := hq.ring.done_le
    have hduty := hq.duty
    rw [Served] at hduty
    refine ⟨hq.ring,room h hc,hq.head,hq.msgId,received_start h hc,fun hwait => ?_,fun hbusy => ?_⟩
    · rw [hwait] at hduty
      rw [hduty,List.length_take,Nat.min_eq_left hdone]
    · cases hd : (s.worker c).duty with
      | waiting => exact absurd hd hbusy
      | serving g =>
        rw [hd] at hduty
        have hlt := (List.getElem?_eq_some_iff.mp hduty.1).1
        rw [hduty.2,List.length_take,Nat.min_eq_left hlt]
      | replied =>
        rw [hd] at hduty
        rw [hduty.2,List.length_take,Nat.min_eq_left hduty.1]

/-- The entry of core 0 was written, received, replied to and cleared, that of core 1 waits. -/
theorem doorbell_ring_safe_two_served :
    let s := ((path .twoCores).play (path .twoCores).start twoServed).2
    s.rung 0 = [0] ∧ s.received 0 = [0] ∧ s.cleared 0 = 1 ∧ s.hostm (Build.twoCores.entryAddr 0 0) = 0xFFFFFFFF ∧
      s.hostm (Build.twoCores.entryAddr 1 0) = 1 ∧ s.fpga.queueMetadata 0 = (s.rung 0).length % 256 ∧
      (s.worker 0).msgId = s.cleared 0 % 256 ∧ s.received 0 <+: s.rung 0 := by
  have hreach := Machine.Reachable.play .start twoServed
    (show (path .twoCores).playable (path .twoCores).start twoServed = true by decide +kernel)
  obtain ⟨-,-,hhead,hmsg,hreceived,-,-⟩ := (doorbell_ring_safe .twoCores (run_of_path hreach).reachable).2 0 (by decide)
  exact ⟨by decide +kernel,by decide +kernel,by decide +kernel,by decide +kernel,by decide +kernel,hhead,hmsg,hreceived⟩

end AlNiCo.Nic
