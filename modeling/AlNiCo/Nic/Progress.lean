import AlNiCo.Nic.WorkerSteps

/-! Requests that have landed reach their doorbell queue: enough turns of
`dataflow_no_dma` drain NIC memory and the streams. No request may land
meanwhile, since a bank that is polled full keeps `kk` and starves the other. -/
namespace AlNiCo.Nic
variable {B : Build} {s : System}

/-- One call of `dataflow_no_dma`, the stages in program order. -/
def System.call (s : System) : System :=
  Stage.update.run (Stage.doorbell.run (Stage.compute.run (Stage.poll1.run (Stage.poll0.run s))))

theorem Inv.call (h : Inv B s) : Inv B s.call :=
  ((((h.stage .poll0).stage .poll1).stage .compute).stage .doorbell).stage .update

open Nic.System

section

private structure Quiet (s t : System) : Prop where
  memory : t.m = s.m
  flight : t.flight = s.flight
  issued : t.issued = s.issued
  rrb : ∀ b, (t.fpga.bank b).rrb = (s.fpga.bank b).rrb
  next : ∀ b, (t.fpga.bank b).next = (s.fpga.bank b).next

private theorem Quiet.trans {s t u} (h : Quiet s t) (k : Quiet t u) : Quiet s u :=
  ⟨k.memory.trans h.memory,k.flight.trans h.flight,k.issued.trans h.issued,
    fun b => (k.rrb b).trans (h.rrb b),fun b => (k.next b).trans (h.next b)⟩

end

section

section
variable (h : Inv B s)
include h

theorem Inv.calls (n : Nat) : Inv B (System.call^[n] s) := by
  induction n with
  | zero => exact h
  | succ n ih =>
    rw [Function.iterate_succ_apply']
    exact ih.call

end

end

section Drain

private def size (s : System) (b : Bool) : Nat := (s.fpga.bank b).checkMsgOut.length

private def work (s : System) : Nat :=
  3*(size s false+size s true)+s.fpga.computeCoreIdOut.length+if size s s.fpga.kk = 0 then 1 else 0

end Drain

end AlNiCo.Nic
