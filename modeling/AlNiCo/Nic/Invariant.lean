import AlNiCo.Nic.Stages
import AlNiCo.Library.Counting
import AlNiCo.Library.RingLog

/-! The invariant of the NIC path. A request of a slot is one token that moves
from the network through NIC memory, two streams and a doorbell queue; the slot
is outstanding exactly while the token exists. -/
namespace AlNiCo.Nic
open Library.Counting Library.RingLog

section
variable (B : Build) (s : System) (g : Nat)

def header : BitVec 32 := s.m (B.bankOf g) (B.headerAddr g)

def landed : BitVec 16 := (header B s g).extractLsb' 16 16
def polled : BitVec 16 := ((s.fpga.bank (B.bankOf g)).rrb (B.localOf g)).setWidth 16

def featureWord (k : Fin 16) : BitVec 32 := s.m (B.bankOf g) (512*B.localOf g+k.val)

def inFlight : Nat := if (s.flight g).isSome then 1 else 0
def unpolled : Nat := if landed B s g = polled B s g then 0 else 1
def checked : Nat := ((s.fpga.bank (B.bankOf g)).checkMsgOut.map CdmaMsgOut.i).count g
def computed : Nat := (s.fpga.computeCoreIdOut.map ComputeIdOut.i).count g

def pending : Nat := inFlight s g+unpolled B s g+checked B s g+computed s g

def served (c : Nat) : Nat := s.cleared c+if (s.worker c).duty = .replied then 1 else 0

def live (c : Nat) : List Nat := (s.rung c).drop (served s c)

def liveCount : Nat := ∑ c ∈ Finset.range B.coreNum, (live s c).count g

def rungCount : Nat := ∑ c ∈ Finset.range B.coreNum, (s.rung c).count g

end

/-- Client, network and NIC memory agree on the RRB word of slot `g`, and a
header that waits for its poll stands behind its own features and hint. -/
structure Linked (B : Build) (s : System) (g : Nat) : Prop where
  hint_lt : ((header B s g).setWidth 16).toNat < B.coreNum
  latest_lt : (s.latest g).hint.toNat < B.coreNum
  flying : ∀ f, s.flight g = some f → f.request = s.latest g ∧ landed B s g = polled B s g ∧
    s.rrb g = ~~~(landed B s g) ∧
    ∀ k, k ∉ f.words → featureWord B s g k = (s.latest g).features.extractLsb' (32*k.val) 32
  arrived : s.flight g = none → s.rrb g = landed B s g
  fresh : landed B s g ≠ polled B s g → landed B s g = ~~~(polled B s g) ∧
    (header B s g).setWidth 16 = (s.latest g).hint ∧
    ∀ k, featureWord B s g k = (s.latest g).features.extractLsb' (32*k.val) 32

structure Streamed (B : Build) (s : System) : Prop where
  check : ∀ b, ∀ msg ∈ (s.fpga.bank b).checkMsgOut, (∃ i < B.perBank, msg.i = B.slotId b i) ∧
    msg.coreId = (s.latest msg.i).hint.toNat ∧ msg.newFeatures = (s.latest msg.i).features
  compute : ∀ msg ∈ s.fpga.computeCoreIdOut, msg.i < B.maxSlot ∧ msg.coreId < B.coreNum

def Served (s : System) (c : Nat) : Prop :=
  match (s.worker c).duty with
  | .waiting => s.received c = (s.rung c).take (s.cleared c)
  | .serving g => (s.rung c)[s.cleared c]? = some g ∧ s.received c = (s.rung c).take (s.cleared c+1)
  | .replied => s.cleared c < (s.rung c).length ∧ s.received c = (s.rung c).take (s.cleared c+1)

/-- The doorbell queue of core `c` holds the entries rung and not cleared. -/
structure Queued (B : Build) (s : System) (c : Nat) : Prop where
  ring : Ring 256 0xFFFFFFFF (BitVec.ofNat 32) (fun e => s.hostm (B.entryAddr c e)) (s.rung c) (s.cleared c)
  head : s.fpga.queueMetadata c = (s.rung c).length % 256
  msgId : (s.worker c).msgId = s.cleared c % 256
  ids : ∀ g ∈ s.rung c, g < B.maxSlot
  duty : Served s c

structure Inv (B : Build) (s : System) : Prop where
  configured : Configured B s.fpga
  linked : ∀ g < B.maxSlot, Linked B s g
  streamed : Streamed B s
  queued : ∀ c < B.coreNum, Queued B s c
  beyond : ∀ c, B.coreNum ≤ c → s.rung c = []
  tokens : ∀ g < B.maxSlot, pending B s g+liveCount B s g = if s.phase g = .outstanding then 1 else 0
  counted : ∀ g < B.maxSlot, rungCount B s g+pending B s g = s.issued g

section
variable {B : Build} {hostm : Nat → BitVec 32}

private theorem start_polled {g} (hg : g < B.maxSlot) : polled B (.start B hostm) g = 0 := by
  simp [polled,System.start,invoke_eq,Build.localOf_lt hg]

private theorem start_landed (g : Nat) : landed B (.start B hostm) g = 0 := by
  simp [landed,header,System.start]

private theorem start_pending {g} (hg : g < B.maxSlot) : pending B (.start B hostm) g = 0 := by
  rw [pending,unpolled,if_pos ((start_landed g).trans (start_polled hg).symm)]
  simp [inFlight,checked,computed,System.start,invoke_eq,Fpga.static]

theorem inv_start (h : QueuesEmpty B hostm) : Inv B (.start B hostm) where
  configured := configured_invoke B _
  linked g hg := by
    refine ⟨?_,B.coreNum_pos,fun f hf => absurd hf (by simp [System.start]),fun _ => (start_landed g).symm,fun hne => ?_⟩
    · simpa [header,System.start] using B.coreNum_pos
    · exact absurd ((start_landed g).trans (start_polled hg).symm) hne
  streamed := by
    refine ⟨fun b msg hmsg => ?_,fun msg hmsg => ?_⟩
    · simp [System.start,invoke_eq,Fpga.static] at hmsg
    · simp [System.start,invoke_eq,Fpga.static] at hmsg
  queued c hc := by
    refine ⟨.nil (fun e he => h c hc e he),?_,rfl,fun g hg => absurd hg (by simp [System.start]),rfl⟩
    simp [System.start,invoke_eq,hc]
  beyond _ _ := rfl
  tokens g hg := by
    rw [start_pending hg]
    simp [liveCount,live,System.start]
  counted g hg := by
    rw [start_pending hg]
    simp [rungCount,System.start]

end

section
variable {B : Build} {s : System}

theorem Inv.liveCount_le (h : Inv B s) {g} (hg : g < B.maxSlot) : liveCount B s g ≤ 1 := by
  have htok := h.tokens g hg
  split at htok <;> omega

/-- An idle or answered slot has no request anywhere. -/
theorem Inv.quiet (h : Inv B s) {g} (hg : g < B.maxSlot) (hphase : s.phase g ≠ .outstanding) :
    pending B s g = 0 ∧ liveCount B s g = 0 := by
  have htok := h.tokens g hg
  rw [if_neg hphase] at htok
  omega

theorem count_live_le {c} (hc : c < B.coreNum) (g : Nat) : (live s c).count g ≤ liveCount B s g :=
  Finset.single_le_sum (f := fun c => (live s c).count g) (fun _ _ => Nat.zero_le _) (Finset.mem_range.mpr hc)

theorem served_le (h : Inv B s) {c} (hc : c < B.coreNum) : served s c ≤ (s.rung c).length := by
  have hq := h.queued c hc
  have hdone := hq.ring.done_le
  have hduty := hq.duty
  rw [served]
  split
  · rename_i hr
    rw [Served,hr] at hduty
    exact hduty.1
  · exact hdone

/-- Outstanding slots and one replied entry bound what a queue holds. -/
theorem Inv.occupancy (h : Inv B s) {c} (hc : c < B.coreNum) : (s.rung c).length ≤ s.cleared c+B.maxSlot+1 := by
  have hlen : (live s c).length ≤ B.maxSlot := by
    refine (length_le_of_count (fun g hg => (h.queued c hc).ids g (List.mem_of_mem_drop hg)) (fun g hg => ?_)).2
    exact (count_live_le hc g).trans (h.liveCount_le hg)
  have hserved : served s c ≤ s.cleared c+1 := by
    rw [served]
    split <;> omega
  rw [live,List.length_drop] at hlen
  omega

end

end AlNiCo.Nic
