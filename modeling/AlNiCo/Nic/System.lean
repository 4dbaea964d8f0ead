import AlNiCo.Library.Machine
import AlNiCo.Nic.Prologue

/-! The NIC path as one system: client slots, their RDMA writes on the way to
NIC memory, the FPGA stages, the doorbell queues in host memory and the workers.
Every stage and every landing word is a step of its own. -/
namespace AlNiCo.Nic

namespace Build
variable (B : Build)

/-- The bank that polls global slot `g`, and the slot's index there. -/
def bankOf (g : Nat) : Bool := decide (B.perBank ≤ g)
def localOf (g : Nat) : Nat := if B.perBank ≤ g then g-B.perBank else g

def slotId (b : Bool) (i : Nat) : Nat := (if b then B.perBank else 0)+i

/-- Word offsets in NIC memory: sixteen feature words, then the header. -/
def headerAddr (g : Nat) : Nat := 512*B.localOf g+16

variable {B}

theorem bankOf_slotId {b i} (hi : i < B.perBank) : B.bankOf (B.slotId b i) = b := by
  cases b
  · simp [bankOf,slotId,hi]
  · simp [bankOf,slotId]

theorem localOf_slotId {b i} (hi : i < B.perBank) : B.localOf (B.slotId b i) = i := by
  cases b
  · simp [localOf,slotId,hi]
  · simp [localOf,slotId]

theorem slotId_bankOf (g : Nat) : B.slotId (B.bankOf g) (B.localOf g) = g := by
  by_cases h : B.perBank ≤ g
  · simp only [slotId,bankOf,localOf,h,decide_true,if_true]
    omega
  · simp [slotId,bankOf,localOf,h]

theorem localOf_lt {g} (hg : g < B.maxSlot) : B.localOf g < B.perBank := by
  rw [maxSlot] at hg
  rw [localOf]
  split <;> omega

theorem slotId_lt {b i} (hi : i < B.perBank) : B.slotId b i < B.maxSlot := by
  rw [maxSlot,slotId]
  split <;> omega

theorem eq_of_bankOf_localOf {g h} (hb : B.bankOf g = B.bankOf h) (hl : B.localOf g = B.localOf h) : g = h := by
  rw [← slotId_bankOf (B := B) g,← slotId_bankOf (B := B) h,hb,hl]

end Build

/-- A slot as its client sees it; it is reused only from `idle`. -/
inductive Phase
  | idle
  | outstanding
  | answered
  deriving DecidableEq

structure Request where
  hint : BitVec 16
  features : BitVec 512

/-- A `serialization`d write under way: the feature words still to land. The
header lands after all of them. -/
structure Flight where
  request : Request
  words : Finset (Fin 16)

/-- `serving g` is between `next_txn_check` and the reply, `replied` between
the reply and `set_message_down`. -/
inductive Duty
  | waiting
  | serving (g : Nat)
  | replied
  deriving DecidableEq

structure Worker where
  msgId : Nat
  duty : Duty

/-- The state of all parties. The last five fields are history: the latest
request and the number of requests of a slot, and what each core's queue was
sent, what its worker received, and how many entries it cleared. -/
structure System where
  fpga : Fpga
  m : Bool → Nat → BitVec 32
  hostm : Nat → BitVec 32
  rrb : Nat → BitVec 16
  phase : Nat → Phase
  flight : Nat → Option Flight
  worker : Nat → Worker
  latest : Nat → Request
  issued : Nat → Nat
  rung : Nat → List Nat
  received : Nat → List Nat
  cleared : Nat → Nat

section
variable (B : Build)

/-- `serialization`: flip the RRB word and post features and header. -/
def System.issue (g : Nat) (r : Request) (s : System) : System :=
  { s with
    rrb := Function.update s.rrb g (~~~(s.rrb g))
    phase := Function.update s.phase g .outstanding
    flight := Function.update s.flight g (some ⟨r,Finset.univ⟩)
    latest := Function.update s.latest g r
    issued := Function.update s.issued g (s.issued g+1) }

def System.writeNic (b : Bool) (addr : Nat) (word : BitVec 32) (s : System) : System :=
  { s with m := Function.update s.m b (Function.update (s.m b) addr word) }

def System.landWord (g : Nat) (f : Flight) (k : Fin 16) (s : System) : System :=
  { s.writeNic (B.bankOf g) (512*B.localOf g+k.val) (f.request.features.extractLsb' (32*k.val) 32) with
    flight := Function.update s.flight g (some { f with words := f.words.erase k }) }

def System.landHeader (g : Nat) (f : Flight) (s : System) : System :=
  { s.writeNic (B.bankOf g) (B.headerAddr g) (s.rrb g ++ f.request.hint) with
    flight := Function.update s.flight g none }

def System.seeReply (g : Nat) (s : System) : System :=
  { s with phase := Function.update s.phase g .idle }

def System.poll (b : Bool) (s : System) : System :=
  { s with fpga := checkMessageDataflowNodma b (s.m b) s.fpga }

def System.compute (s : System) : System := { s with fpga := computeCoreId s.fpga }

def System.doorbell (s : System) : System :=
  { s with
    fpga := (doorbellDataflow s.fpga).1
    hostm := match (doorbellDataflow s.fpga).2 with
      | none => s.hostm
      | some (addr,word) => Function.update s.hostm addr word
    rung := match s.fpga.computeCoreIdOut with
      | [] => s.rung
      | msg :: _ => Function.update s.rung msg.coreId (s.rung msg.coreId ++ [msg.i]) }

def System.update (s : System) : System := { s with fpga := updateCluster s.fpga }

def System.bitmap (s : System) : System := { s with fpga := initBitmap s.fpga }

def System.weight (cdmaBuf : Nat → BitVec 8) (s : System) : System :=
  { s with fpga := initWeight cdmaBuf s.fpga }

/-- `get_message_client_id` and `get_message_slot_id`, as one global slot. -/
def messageSlot (entry : BitVec 32) : Nat :=
  entry.toNat / B.slotNum * B.slotNum + entry.toNat % B.slotNum

def System.receive (c : Nat) (s : System) : System :=
  let g := messageSlot B (s.hostm (B.entryAddr c (s.worker c).msgId))
  { s with
    worker := Function.update s.worker c { s.worker c with duty := .serving g }
    received := Function.update s.received c (s.received c ++ [g]) }

/-- First half of `reply_now`: the reply is published. -/
def System.reply (c g : Nat) (s : System) : System :=
  { s with
    phase := Function.update s.phase g .answered
    worker := Function.update s.worker c { s.worker c with duty := .replied } }

/-- Second half of `reply_now`: `set_message_down` and the next `msg_id`. -/
def System.clear (c : Nat) (s : System) : System :=
  { s with
    hostm := Function.update s.hostm (B.entryAddr c (s.worker c).msgId) 0xFFFFFFFF
    worker := Function.update s.worker c ⟨((s.worker c).msgId+1) % 256,.waiting⟩
    cleared := Function.update s.cleared c (s.cleared c+1) }

end

inductive Stage
  | poll0
  | poll1
  | compute
  | doorbell
  | update
  deriving DecidableEq

def Stage.run : Stage → System → System
  | poll0, s => s.poll false
  | poll1, s => s.poll true
  | compute, s => s.compute
  | doorbell, s => s.doorbell
  | update, s => s.update

inductive Outside (B : Build) : System → System → Prop
  | issue {s g r} (hg : g < B.maxSlot) (hidle : s.phase g = .idle) (hhint : r.hint.toNat < B.coreNum) :
      Outside B s (s.issue g r)
  | landWord {s g f} (k : Fin 16) (hg : g < B.maxSlot) (hflight : s.flight g = some f) (hk : k ∈ f.words) :
      Outside B s (s.landWord B g f k)
  | landHeader {s g f} (hg : g < B.maxSlot) (hflight : s.flight g = some f) (hlast : f.words = ∅) :
      Outside B s (s.landHeader B g f)
  | seeReply {s g} (hg : g < B.maxSlot) (hphase : s.phase g = .answered) : Outside B s (s.seeReply g)
  | bitmap {s} : Outside B s s.bitmap
  | weight {s} (cdmaBuf : Nat → BitVec 8) : Outside B s (s.weight cdmaBuf)
  | receive {s c} (hc : c < B.coreNum) (hduty : (s.worker c).duty = .waiting)
      (hfull : s.hostm (B.entryAddr c (s.worker c).msgId) ≠ 0xFFFFFFFF) : Outside B s (s.receive B c)
  | reply {s c g} (hc : c < B.coreNum) (hduty : (s.worker c).duty = .serving g) : Outside B s (s.reply c g)
  | clear {s c} (hc : c < B.coreNum) (hduty : (s.worker c).duty = .replied) : Outside B s (s.clear B c)

/-- Zeroed statics and NIC memory, idle slots, and queues emptied by `init`. -/
def System.start (B : Build) (hostm : Nat → BitVec 32) : System where
  fpga := Fpga.static.invoke B.args
  m _ _ := 0
  hostm := hostm
  rrb _ := 0
  phase _ := .idle
  flight _ := none
  worker _ := ⟨0,.waiting⟩
  latest _ := ⟨0,0⟩
  issued _ := 0
  rung _ := []
  received _ := []
  cleared _ := 0

def QueuesEmpty (B : Build) (hostm : Nat → BitVec 32) : Prop :=
  ∀ c < B.coreNum, ∀ id < 256, hostm (B.entryAddr c id) = 0xFFFFFFFF

/-- Every interleaving: any stage of the FPGA and any other party may step. -/
inductive Reachable (B : Build) : System → Prop
  | start {hostm} (h : QueuesEmpty B hostm) : Reachable B (.start B hostm)
  | stage {s} (k : Stage) : Reachable B s → Reachable B (k.run s)
  | outside {s t} : Reachable B s → Outside B s t → Reachable B t

/-- What a stage writes to host memory. -/
def Stage.written (s : System) : Stage → List (Nat × BitVec 32)
  | doorbell => (doorbellDataflow s.fpga).2.toList
  | _ => []

/-- The same runs, with all words that were written to host memory in their order. -/
inductive Run (B : Build) : List (Nat × BitVec 32) → System → Prop
  | start {hostm} (h : QueuesEmpty B hostm) : Run B [] (.start B hostm)
  | stage {w s} (k : Stage) : Run B w s → Run B (w ++ k.written s) (k.run s)
  | outside {w s t} : Run B w s → Outside B s t → Run B w t

theorem Run.reachable {B w s} (h : Run B w s) : Reachable B s := by
  induction h with
  | start hempty => exact .start hempty
  | stage k _ ih => exact .stage k ih
  | outside _ hstep ih => exact .outside ih hstep

section

/-- A move of one party. -/
inductive Move
  | stage (k : Stage)
  | issue (g : Nat) (r : Request)
  | landWord (g : Nat) (k : Fin 16)
  | landHeader (g : Nat)
  | seeReply (g : Nat)
  | receive (c : Nat)
  | reply (c : Nat)
  | clear (c : Nat)

def System.next (B : Build) (s : System) : Move → Option System
  | .stage k => some (k.run s)
  | .issue g r => if g < B.maxSlot ∧ s.phase g = .idle ∧ r.hint.toNat < B.coreNum then some (s.issue g r) else none
  | .landWord g k =>
    (s.flight g).bind fun f => if g < B.maxSlot ∧ k ∈ f.words then some (s.landWord B g f k) else none
  | .landHeader g =>
    (s.flight g).bind fun f => if g < B.maxSlot ∧ f.words = ∅ then some (s.landHeader B g f) else none
  | .seeReply g => if g < B.maxSlot ∧ s.phase g = .answered then some (s.seeReply g) else none
  | .receive c =>
    if c < B.coreNum ∧ (s.worker c).duty = .waiting ∧ s.hostm (B.entryAddr c (s.worker c).msgId) ≠ 0xFFFFFFFF then
      some (s.receive B c)
    else none
  | .reply c =>
    match (s.worker c).duty with
    | .serving g => if c < B.coreNum then some (s.reply c g) else none
    | _ => none
  | .clear c => if c < B.coreNum ∧ (s.worker c).duty = .replied then some (s.clear B c) else none

def Move.written (s : System) : Move → List (Nat × BitVec 32)
  | stage k => k.written s
  | _ => []

open Option in
theorem Run.move {B w s t} (h : Run B w s) {e} (hnext : s.next B e = some t) : Run B (w ++ e.written s) t := by
  have hquiet (hstep : Outside B s t) : Run B (w ++ []) t := (List.append_nil w).symm ▸ h.outside hstep
  cases e with
  | stage k => exact some.inj hnext ▸ h.stage k
  | issue g r =>
    obtain ⟨⟨hg,hidle,hhint⟩,rfl⟩ := ite_some_none_eq_some.mp hnext
    exact hquiet (.issue hg hidle hhint)
  | landWord g k =>
    obtain ⟨f,hf,hland⟩ := bind_eq_some_iff.mp hnext
    obtain ⟨⟨hg,hk⟩,rfl⟩ := ite_some_none_eq_some.mp hland
    exact hquiet (.landWord k hg hf hk)
  | landHeader g =>
    obtain ⟨f,hf,hland⟩ := bind_eq_some_iff.mp hnext
    obtain ⟨⟨hg,hlast⟩,rfl⟩ := ite_some_none_eq_some.mp hland
    exact hquiet (.landHeader hg hf hlast)
  | seeReply g =>
    obtain ⟨⟨hg,hphase⟩,rfl⟩ := ite_some_none_eq_some.mp hnext
    exact hquiet (.seeReply hg hphase)
  | receive c =>
    obtain ⟨⟨hc,hduty,hfull⟩,rfl⟩ := ite_some_none_eq_some.mp hnext
    exact hquiet (.receive hc hduty hfull)
  | reply c =>
    rw [System.next] at hnext
    split at hnext
    · next hduty =>
      obtain ⟨hc,rfl⟩ := ite_some_none_eq_some.mp hnext
      exact hquiet (.reply hc hduty)
    · cases hnext
  | clear c =>
    obtain ⟨⟨hc,hduty⟩,rfl⟩ := ite_some_none_eq_some.mp hnext
    exact hquiet (.clear hc hduty)

/-- The system as a machine that keeps the words written. -/
def path (B : Build) : Library.Machine (List (Nat × BitVec 32) × System) Move :=
  .ofNext ([],.start B (fun _ => 0xFFFFFFFF)) (fun x e => (x.2.next B e).map (fun t => (x.1 ++ e.written x.2,t)))

theorem run_of_path {B x} (h : (path B).Reachable x) : Run B x.1 x.2 := by
  refine h.ofNext_invariant (I := fun x => Run B x.1 x.2) (.start (fun _ _ _ _ => rfl)) (fun x e y hx hnext => ?_)
  obtain ⟨t,ht,rfl⟩ := Option.map_eq_some_iff.mp hnext
  exact hx.move ht

def landing (g : Nat) : List Move := (List.finRange 16).map (.landWord g) ++ [.landHeader g]

open Move in
/-- Two slots ask at once, each for its core, and both are dispatched. The worker of core 0 serves
its request, and the slot asks again. -/
def twoServed : List Move :=
  [issue 0 ⟨0,5⟩,issue 1 ⟨1,6⟩] ++ landing 0 ++ landing 1 ++
    [stage .poll0,stage .poll1,stage .compute,stage .doorbell,stage .compute,stage .compute,stage .doorbell,
      receive 0,reply 0,clear 0,seeReply 0,issue 0 ⟨0,9⟩]

end

end AlNiCo.Nic
