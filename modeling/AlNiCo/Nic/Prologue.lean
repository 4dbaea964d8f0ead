import AlNiCo.Nic.Scheduler

/-! The builds the host starts the scheduler with (`begin_fpga`), and the state
its prologue leaves for them. -/
namespace AlNiCo.Nic
open List

/-- The build parameters of a deployment: `CLIENT_THREAD` client threads on each
of `MAX_CLIENT` = 2 nodes, `SLOT_NUM` slots for each and `MAX_THREAD` workers. -/
structure Build where
  clientThread : Nat
  slotNum : Nat
  coreNum : Nat
  clientThread_pos : 0 < clientThread
  slotNum_pos : 0 < slotNum
  coreNum_pos : 0 < coreNum
  coreNum_le : coreNum ≤ 24
  slots_le : 2*clientThread*slotNum ≤ 192

namespace Build

private theorem one_core_fits : 1 ≤ 24 := by decide

private theorem two_slots_fit : 2*1*1 ≤ 192 := by decide

def smallest : Build := ⟨1,1,1,Nat.one_pos,Nat.one_pos,Nat.one_pos,one_core_fits,two_slots_fit⟩

private theorem two_cores_fit : 2 ≤ 24 := by decide

def twoCores : Build := ⟨1,1,2,Nat.one_pos,Nat.one_pos,Nat.two_pos,two_cores_fit,two_slots_fit⟩

variable (B : Build)

/-- What `begin_fpga` writes to the argument registers, with one IP. -/
def args : Args where
  clientNum := 2*B.clientThread
  slotNum := B.slotNum
  coreNum := B.coreNum
  messNum := 256
  bClient := 0
  eClient := 2*B.clientThread
  ipId := 0

def perBank : Nat := B.clientThread*B.slotNum

def maxSlot : Nat := 2*B.perBank

/-- Word address of `queue_message[id][0]` in the `fpga_dispatch_queue_t` of a
worker: 256 bytes of metadata, then 256 messages of 64 bytes. -/
def entryAddr (c id : Nat) : Nat :=
  (2048*B.slotNum*(2*B.clientThread)+0x04000000+c*(256+256*64)+256+id*64)/4

theorem perBank_pos : 0 < B.perBank := Nat.mul_pos B.clientThread_pos B.slotNum_pos

theorem perBank_le : B.perBank ≤ 96 := by
  have h := B.slots_le
  rw [Nat.mul_assoc] at h
  rw [perBank]
  omega

theorem entryAddr_eq (c id : Nat) : B.entryAddr c id = 1024*B.perBank+16777280+4160*c+16*id := by
  have h : 2048*B.slotNum*(2*B.clientThread) = 4*(1024*B.perBank) := by
    rw [perBank]
    ring
  rw [entryAddr,h]
  omega

/-- No two entries of any queues share their word. -/
theorem entryAddr_inj {c d i j} (hi : i < 256) (hj : j < 256) (h : B.entryAddr c i = B.entryAddr d j) : c = d ∧ i = j := by
  rw [entryAddr_eq,entryAddr_eq] at h
  omega

end Build

variable (B : Build)

private theorem update_ite {α} (f v : Nat → α) (n : Nat) : Function.update (fun k => if k < n then v k else f k) n (v n) =
      fun k => if k < n+1 then v k else f k := by
  funext k
  by_cases h : k = n
  · subst h
    simp
  · rw [Function.update_of_ne h]
    simp only [show k < n+1 ↔ k < n by omega]

private theorem initQueue_fold (s : Fpga) (addr n : Nat) : (range n).foldl (initQueue B.args) (s,addr) = ({ s with
          queueMetadata := fun c => if c < n then 0 else s.queueMetadata c
          queueAddrMap := fun c => if c < n then (addr+c*16640+256)/4 else s.queueAddrMap c },
        addr+n*16640) := by
  induction n with
  | zero => simp
  | succ n ih =>
    rw [range_succ,foldl_append,ih]
    simp only [foldl_cons,foldl_nil,initQueue,Build.args,Nat.mul_zero,Nat.zero_div,Nat.add_zero]
    have haddr : addr+n*16640+(256*64+256) = addr+(n+1)*16640 := by omega
    rw [update_ite s.queueMetadata (fun _ => 0) n,update_ite s.queueAddrMap (fun c => (addr+c*16640+256)/4) n,haddr]

private def slotsDone (s : Fpga) (t : Nat) : Fpga :=
  { s with
    bank := fun b => { s.bank b with
      slotOffset := fun k =>
        if k < (if b then t-B.perBank else min t B.perBank) then 512*k+16 else (s.bank b).slotOffset k
      rrb := fun k => if k < min t B.perBank then 0 else (s.bank b).rrb k }
    oldCoreId := fun k => if k < t then B.coreNum else s.oldCoreId k }

private theorem wordOffset (k : Nat) : (2048*k+0*B.slotNum*2048)/4+16 = 512*k+16 := by
  omega

private theorem initSlot_slotsDone (s : Fpga) {i j} (hj : j < B.slotNum) :
    initSlot B.args i (slotsDone B s (i*B.slotNum+j)) j = slotsDone B s (i*B.slotNum+j+1) := by
  have hsplit : i*2 < 2*B.clientThread ↔ i < B.clientThread := by omega
  by_cases hi : i < B.clientThread
  · have hlt : i*B.slotNum+j+1 ≤ B.perBank := by
      have h : (i+1)*B.slotNum ≤ B.clientThread*B.slotNum := Nat.mul_le_mul_right _ hi
      rw [Nat.succ_mul] at h
      rw [Build.perBank]
      omega
    simp only [initSlot,slotsDone,Build.args,Nat.sub_zero,hsplit,hi,if_true,Fpga.setBank,wordOffset,update_ite]
    congr 1
    funext b
    cases b with
    | false =>
      simp only [Function.update_self,Function.update_of_ne (show false ≠ true by decide),if_false,
        Nat.min_eq_left hlt,Nat.min_eq_left (Nat.le_of_succ_le hlt),Bool.false_eq_true]
      rw [update_ite (s.bank false).slotOffset (fun k => 512*k+16),update_ite (s.bank false).rrb (fun _ => 0)]
    | true =>
      simp only [Function.update_self,if_true,Nat.min_eq_left hlt,Nat.min_eq_left (Nat.le_of_succ_le hlt),
        Nat.sub_eq_zero_of_le hlt,Nat.sub_eq_zero_of_le (Nat.le_of_succ_le hlt)]
      rw [update_ite (s.bank true).rrb (fun _ => 0)]
  · have hge : B.perBank ≤ i*B.slotNum+j := by
      have h : B.clientThread*B.slotNum ≤ i*B.slotNum := Nat.mul_le_mul_right _ (by omega)
      rw [Build.perBank]
      omega
    have hlocal : (i-2*B.clientThread/2)*B.slotNum+j = i*B.slotNum+j-B.perBank := by
      rw [Nat.mul_div_cancel_left _ (by decide),Nat.sub_mul,Build.perBank]
      have h : B.clientThread*B.slotNum ≤ i*B.slotNum := Nat.mul_le_mul_right _ (by omega)
      omega
    simp only [initSlot,slotsDone,Build.args,Nat.sub_zero,hsplit,hi,if_false,Fpga.setBank,wordOffset,update_ite,hlocal]
    congr 1
    funext b
    cases b with
    | false =>
      simp only [Function.update_of_ne (show false ≠ true by decide),Nat.min_eq_right hge,
        Nat.min_eq_right (Nat.le_succ_of_le hge),Bool.false_eq_true,if_false]
    | true =>
      simp only [Function.update_self,if_true,Nat.min_eq_right hge,Nat.min_eq_right (Nat.le_succ_of_le hge),Nat.succ_sub hge]
      rw [update_ite (s.bank true).slotOffset (fun k => 512*k+16)]

private theorem initSlot_row (s : Fpga) (i : Nat) {n} (hn : n ≤ B.slotNum) :
    (range n).foldl (initSlot B.args i) (slotsDone B s (i*B.slotNum)) = slotsDone B s (i*B.slotNum+n) := by
  induction n with
  | zero => rfl
  | succ n ih =>
    rw [range_succ,foldl_append,ih (by omega),foldl_cons,foldl_nil,initSlot_slotsDone B s hn,Nat.add_assoc]

private theorem initSlots_rows (s : Fpga) (n : Nat) :
    (range n).foldl (fun s i => (range B.slotNum).foldl (initSlot B.args i) s) s = slotsDone B s (n*B.slotNum) := by
  induction n with
  | zero => simp [slotsDone]
  | succ n ih =>
    rw [range_succ,foldl_append,ih,foldl_cons,foldl_nil,initSlot_row B s n (Nat.le_refl _),Nat.succ_mul]

/-- The state in which an invocation enters its loop: cursors, RRB words, queue
heads and old cores are reset; features, clusters, tables and streams are not. -/
theorem invoke_eq (s : Fpga) : s.invoke B.args = { s with
      coreNum := B.coreNum
      messNum := 256
      bank := fun b => { s.bank b with
        slotOffset := fun k => if k < B.perBank then 512*k+16 else (s.bank b).slotOffset k
        rrb := fun k => if k < B.perBank then 0 else (s.bank b).rrb k
        next := 0
        slotPartition := B.perBank }
      kk := false
      oldCoreId := fun k => if k < B.maxSlot then B.coreNum else s.oldCoreId k
      queueMetadata := fun c => if c < B.coreNum then 0 else s.queueMetadata c
      queueAddrMap := fun c => if c < B.coreNum then B.entryAddr c 0 else s.queueAddrMap c } := by
  have hslots : 2*B.clientThread*B.slotNum = B.maxSlot := Nat.mul_assoc _ _ _
  have hpart : B.slotNum*(2*B.clientThread)/2 = B.perBank := by
    rw [Nat.mul_left_comm,Nat.mul_div_cancel_left _ (by decide),Nat.mul_comm]
    rfl
  have hsub : B.maxSlot-B.perBank = B.perBank := by
    rw [Build.maxSlot]
    omega
  have hmin : min B.maxSlot B.perBank = B.perBank := Nat.min_eq_right (by rw [Build.maxSlot]; omega)
  have haddr (c : Nat) : (2048*B.slotNum*(2*B.clientThread)+0x04000000+c*16640+256)/4 = B.entryAddr c 0 := by
    rw [Build.entryAddr]
  have hargs : (B.args.eClient-B.args.bClient) = 2*B.clientThread := rfl
  have hnum : B.args.slotNum = B.slotNum := rfl
  have hcores : B.args.coreNum = B.coreNum := rfl
  have hclients : B.args.clientNum = 2*B.clientThread := rfl
  simp only [Fpga.invoke,initSlots,initQueue_fold,hargs,hnum,hcores,hclients,initSlots_rows,slotsDone,
    hslots,hsub,hmin,ite_self,hpart,haddr]
  rfl

end AlNiCo.Nic
