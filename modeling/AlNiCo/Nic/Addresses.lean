import AlNiCo.Nic.System

/-! Where clients, FPGA and workers look for the same words: the headers of the slots, in
two banks of FPGA memory that the host maps as one range, and the entries of the queues,
in an array in host memory. -/
namespace AlNiCo.Nic

/-- A slot of a client thread; the server is node 0. -/
@[ext] structure Site (B : Build) where
  remoteId : Nat
  clientThreadId : Nat
  slot : Nat
  remoteId_pos : 1 ≤ remoteId
  remoteId_le : remoteId ≤ 2
  clientThreadId_lt : clientThreadId < B.clientThread
  slot_lt : slot < B.slotNum

def Build.fpgaRevSize (B : Build) : Nat := 2048*B.slotNum*2*B.clientThread

/-- The byte of FPGA memory behind an address of the host: `init_fpga` maps the first half
at 0 and the second half, with a page more, at 1 MB. -/
def Build.mapped (B : Build) (fpgaMm addr : Nat) : Option Nat :=
  if fpgaMm ≤ addr ∧ addr < fpgaMm+B.fpgaRevSize/2 then some (addr-fpgaMm)
  else if fpgaMm+B.fpgaRevSize/2 ≤ addr ∧ addr < fpgaMm+B.fpgaRevSize/2+(B.fpgaRevSize/2+4096) then
    some (addr-(fpgaMm+B.fpgaRevSize/2)+0x100000)
  else none

def getRemoteAddr (localBase remoteAddr localAddr : Nat) : Nat := localAddr-localBase+remoteAddr

def getMessageClientId (B : Build) (entry : BitVec 32) : Nat := entry.toNat/B.slotNum
def getMessageSlotId (B : Build) (entry : BitVec 32) : Nat := entry.toNat % B.slotNum

/-- `sizeof(fpga_dispatch_queue_t)`: head, tail, count and padding, then the messages. -/
def sizeofQueue : Nat := 4+4+4+244+256*64

def Build.queueMessageAddr (B : Build) (hostMm c id : Nat) : Nat :=
  let controlMm := hostMm+B.fpgaRevSize
  controlMm+c*sizeofQueue+(4+4+4+244)+id*64

open Build

namespace Site
variable {B : Build} (x : Site B)

def client : Nat := (x.remoteId-1)*B.clientThread+x.clientThreadId

/-- The bank of the slot and its index there, as the prologue of `schedule_nodma` counts. -/
def bank : Bool := !decide (x.client*2 < 2*B.clientThread)
def index : Nat :=
  if x.client*2 < 2*B.clientThread then x.client*B.slotNum+x.slot
  else (x.client-2*B.clientThread/2)*B.slotNum+x.slot

/-- The word of FPGA memory that is polled for the slot; bank 1 is polled through
`m1 + 0x40000`. -/
def polledWord (s : Fpga) : Nat :=
  (if x.bank then 0x40000 else 0)+((s.invoke B.args).bank x.bank).slotOffset x.index

def writtenId (s : Fpga) : Nat := (s.invoke B.args).base x.bank+x.index

/-- `localBase` of the server's connection, with `SLOT_NUM` slots of metadata. -/
def localBase (fpgaMm : Nat) : Nat := 2048*B.slotNum*x.client+fpgaMm

def metadataAddr (clientBase : Nat) : Nat := clientBase+x.slot*2048

/-- The address in the host to which the client's write brings the header, `metadata[32]`. -/
def headerWrite (clientBase fpgaMm : Nat) : Nat :=
  getRemoteAddr clientBase (x.localBase fpgaMm) (x.metadataAddr clientBase)+2*32

theorem client_lt : x.client < 2*B.clientThread := by
  have hthread := x.clientThreadId_lt
  have hnode : (x.remoteId-1)*B.clientThread ≤ 1*B.clientThread :=
    Nat.mul_le_mul_right _ (Nat.sub_le_of_le_add x.remoteId_le)
  rw [client]
  omega

private theorem bank_eq_true_iff : x.bank = true ↔ B.clientThread ≤ x.client := by
  rw [bank,Bool.not_eq_true',decide_eq_false_iff_not]
  omega

/-- The banks hold the slots of the two nodes, one after another. -/
theorem slotId_index : B.slotId x.bank x.index = x.client*B.slotNum+x.slot := by
  rw [slotId,index]
  by_cases hbank : x.bank = true
  · have hge := x.bank_eq_true_iff.mp hbank
    have hle : B.clientThread*B.slotNum ≤ x.client*B.slotNum := Nat.mul_le_mul_right _ hge
    rw [if_pos hbank,if_neg (by omega),Nat.mul_div_cancel_left _ (by decide),Nat.sub_mul,perBank]
    omega
  · have hlt := Nat.lt_of_not_le (fun h => hbank (x.bank_eq_true_iff.mpr h))
    rw [if_neg hbank,if_pos (by omega),Nat.zero_add]

theorem index_lt : x.index < B.perBank := by
  have hslot := x.slot_lt
  have hid := x.slotId_index
  rw [slotId] at hid
  by_cases hbank : x.bank = true
  · have hle : (x.client+1)*B.slotNum ≤ 2*B.clientThread*B.slotNum := Nat.mul_le_mul_right _ x.client_lt
    rw [Nat.succ_mul,Nat.mul_assoc] at hle
    rw [if_pos hbank] at hid
    rw [perBank] at hid ⊢
    omega
  · have hlt := Nat.lt_of_not_le (fun h => hbank (x.bank_eq_true_iff.mpr h))
    have hle : (x.client+1)*B.slotNum ≤ B.clientThread*B.slotNum := Nat.mul_le_mul_right _ hlt
    rw [Nat.succ_mul] at hle
    rw [if_neg hbank] at hid
    rw [perBank]
    omega

theorem polledWord_eq (s : Fpga) : x.polledWord s = (if x.bank then 0x40000 else 0)+(512*x.index+16) := by
  rw [polledWord,invoke_eq]
  dsimp only
  rw [if_pos x.index_lt]

theorem writtenId_eq (s : Fpga) : x.writtenId s = B.slotId x.bank x.index := by
  rw [writtenId,invoke_eq,slotId,Fpga.base]

theorem eq_of_client_slot {x y : Site B} (hclient : x.client = y.client) (hslot : x.slot = y.slot) : x = y := by
  have hx := x.clientThreadId_lt
  have hy := y.clientThreadId_lt
  have hxn := x.remoteId_pos
  have hyn := y.remoteId_pos
  rw [client,client] at hclient
  have hnode : x.remoteId-1 = y.remoteId-1 := by
    have hdiv := congrArg (· / B.clientThread) hclient
    simpa [Nat.mul_add_div B.clientThread_pos,Nat.mul_comm _ B.clientThread,Nat.div_eq_of_lt hx,Nat.div_eq_of_lt hy] using hdiv
  rw [hnode] at hclient
  exact Site.ext (by omega) (by omega) hslot

end Site

section
variable (B : Build) (s : Fpga)

/-- Each bank has its own words below the megabyte. -/
theorem polledWord_injective : Function.Injective (fun x : Site B => x.polledWord s) := by
  intro x y h
  have hx := x.index_lt
  have hy := y.index_lt
  have hle := B.perBank_le
  simp only [Site.polledWord_eq] at h
  have hbank : x.bank = y.bank := by
    cases hbx : x.bank <;> cases hby : y.bank <;> simp [hbx,hby] at h ⊢ <;> omega
  have hindex : x.index = y.index := by
    rw [hbank] at h
    omega
  have hid := congrArg₂ B.slotId hbank hindex
  rw [x.slotId_index,y.slotId_index] at hid
  have hclient := congrArg (· / B.slotNum) hid
  have hslot := congrArg (· % B.slotNum) hid
  simp only [Nat.mul_comm _ B.slotNum,Nat.mul_add_div B.slotNum_pos,Nat.div_eq_of_lt x.slot_lt,Nat.div_eq_of_lt y.slot_lt,
    Nat.add_zero] at hclient
  simp only [Nat.mul_comm _ B.slotNum,Nat.mul_add_mod,Nat.mod_eq_of_lt x.slot_lt,Nat.mod_eq_of_lt y.slot_lt] at hslot
  exact Site.eq_of_client_slot hclient hslot

theorem fpgaRevSize_half : B.fpgaRevSize/2 = 2048*B.perBank := by
  rw [fpgaRevSize,perBank,show 2048*B.slotNum*2*B.clientThread = 2048*(B.clientThread*B.slotNum)*2 by ring,
    Nat.mul_div_cancel _ (by decide)]

variable {B}

theorem headerWrite_eq (x : Site B) (clientBase fpgaMm : Nat) :
    x.headerWrite clientBase fpgaMm = fpgaMm+2048*B.slotId x.bank x.index+64 := by
  rw [Site.headerWrite,getRemoteAddr,Site.metadataAddr,Nat.add_sub_cancel_left,Site.localBase,x.slotId_index]
  ring

theorem mapped_headerWrite (x : Site B) (clientBase fpgaMm : Nat) :
    B.mapped fpgaMm (x.headerWrite clientBase fpgaMm) = some (4*x.polledWord s) := by
  have hlt := x.index_lt
  rw [headerWrite_eq,mapped,fpgaRevSize_half,x.polledWord_eq,slotId]
  cases x.bank with
  | false =>
    simp only [Bool.false_eq_true,if_false]
    rw [if_pos (by omega)]
    congr 1
    omega
  | true =>
    simp only [if_true]
    rw [if_neg (by omega),if_pos (by omega)]
    congr 1
    omega

/-- The worker divides the id by the slots of a client. -/
theorem decoded_writtenId (x : Site B) : getMessageClientId B (BitVec.ofNat 32 (x.writtenId s)) = x.client ∧
    getMessageSlotId B (BitVec.ofNat 32 (x.writtenId s)) = x.slot := by
  have hlt := x.index_lt
  have hle := B.perBank_le
  have hid : B.slotId x.bank x.index < 2^32 := by
    rw [slotId]
    split <;> omega
  rw [getMessageClientId,getMessageSlotId,x.writtenId_eq,BitVec.toNat_ofNat,Nat.mod_eq_of_lt hid,x.slotId_index,Nat.mul_comm x.client]
  exact ⟨by rw [Nat.mul_add_div B.slotNum_pos,Nat.div_eq_of_lt x.slot_lt,Nat.add_zero],by rw [Nat.mul_add_mod,Nat.mod_eq_of_lt x.slot_lt]⟩

/-- The word at which `doorbell_dataflow` writes, seen from the host: FPGA address
`HOSTADDR` is `host_mm`. -/
theorem queueAddrMap_entry {c} (hc : c < B.coreNum) (hostMm id : Nat) :
    4*((s.invoke B.args).queueAddrMap c+id*16)+hostMm = B.queueMessageAddr hostMm c id+0x04000000 := by
  have hsize : B.fpgaRevSize = 2*(2048*B.perBank) := by
    rw [fpgaRevSize,perBank]
    ring
  rw [invoke_eq]
  dsimp only
  rw [if_pos hc,entryAddr_eq,queueMessageAddr,sizeofQueue,hsize]
  omega

end

/-- All parties agree on the words of the slots and of the queues. -/
theorem slot_and_queue_addresses_agree (B : Build) (s : Fpga) (fpgaMm hostMm : Nat) :
    Function.Injective (fun x : Site B => x.polledWord s) ∧
    (∀ (x : Site B) (clientBase : Nat), B.mapped fpgaMm (x.headerWrite clientBase fpgaMm) = some (4*x.polledWord s)) ∧
    (∀ x : Site B, getMessageClientId B (BitVec.ofNat 32 (x.writtenId s)) = x.client ∧
      getMessageSlotId B (BitVec.ofNat 32 (x.writtenId s)) = x.slot) ∧
    ∀ c < B.coreNum, ∀ id < 256,
      4*((s.invoke B.args).queueAddrMap c+id*16)+hostMm = B.queueMessageAddr hostMm c id+0x04000000 :=
  ⟨polledWord_injective B s,fun x clientBase => mapped_headerWrite s x clientBase fpgaMm,decoded_writtenId s,
    fun _ hc id _ => queueAddrMap_entry s hc hostMm id⟩

end AlNiCo.Nic
