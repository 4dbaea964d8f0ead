import AlNiCo.Nic.System

/-! What each stage of the FPGA does to its state, stated once for every later
invariant. -/
namespace AlNiCo.Nic
open BitVec

variable {B : Build} (head : BitVec 32) {f : Fpga}

section

private theorem low_mask : ∀ i < 32, (0xFFFF : BitVec 32).getLsbD i = decide (i < 16) := by decide
private theorem high_mask : ∀ i < 32, (0xFFFF0000 : BitVec 32).getLsbD i = decide (16 ≤ i) := by decide

/-- `(message_head >> 16) & 0xFFFF`. -/
theorem getLsbD_tmpRRB {i} (hi : i < 32) : (head.sshiftRight 16 &&& 0xFFFF).getLsbD i = (decide (i < 16) && head.getLsbD (16+i)) := by
  rw [getLsbD_and,low_mask i hi,getLsbD_sshiftRight]
  by_cases h : i < 16
  · simp [h,show ¬ 32 ≤ i by omega,show 16+i < 32 by omega]
  · simp [h]

/-- The test of the poll: the header's upper half is the complement of the
sixteen bits polled last. -/
theorem flipped_iff (head rrb : BitVec 32) : ((head.sshiftRight 16 &&& 0xFFFF) ||| 0xFFFF0000 = ~~~rrb ||| 0xFFFF0000) ↔
      head.extractLsb' 16 16 = ~~~(rrb.setWidth 16) := by
  constructor
  · intro h
    apply eq_of_getLsbD_eq
    intro i hi
    have hb := congrArg (fun v => v.getLsbD i) h
    simp only [getLsbD_or,getLsbD_tmpRRB head (show i < 32 by omega),high_mask i (by omega),getLsbD_not] at hb
    simpa [hi,show i < 32 by omega,show ¬ 16 ≤ i by omega] using hb
  · intro h
    apply eq_of_getLsbD_eq
    intro i hi
    rw [getLsbD_or,getLsbD_or,getLsbD_tmpRRB head hi,high_mask i hi,getLsbD_not]
    by_cases h16 : i < 16
    · have hb := congrArg (fun v => v.getLsbD i) h
      simpa [h16,hi,show ¬ 16 ≤ i by omega] using hb
    · simp [h16,show 16 ≤ i by omega]

theorem setWidth_tmpRRB : (head.sshiftRight 16 &&& 0xFFFF).setWidth 16 = head.extractLsb' 16 16 := by
  apply eq_of_getLsbD_eq
  intro i hi
  rw [getLsbD_setWidth,getLsbD_tmpRRB head (by omega),getLsbD_extractLsb']
  simp [hi]

theorem and_low : (head &&& 0xFFFF).toNat = (head.setWidth 16).toNat := by
  rw [toNat_and,toNat_setWidth]
  exact Nat.and_two_pow_sub_one_eq_mod _ 16

theorem loadFeature_eq {offset m v} (h : ∀ k : Fin 16, m (offset+k.val) = v.extractLsb' (32*k.val) 32) : loadFeature offset m = v := by
  apply eq_of_getLsbD_eq
  intro i hi
  rw [loadFeature,getLsbD_ofFnLE,dif_pos hi]
  have hk := h ⟨i/32,by omega⟩
  simp only at hk
  rw [hk,getLsbD_extractLsb']
  have hidx : 32*(i/32)+i % 32 = i := Nat.div_add_mod i 32
  simp [hidx,Nat.mod_lt]

end

/-- The values an invocation sets up and no stage changes, and the cursors. -/
structure Configured (B : Build) (f : Fpga) : Prop where
  coreNum_eq : f.coreNum = B.coreNum
  messNum_eq : f.messNum = 256
  partition_eq : ∀ b, (f.bank b).slotPartition = B.perBank
  next_lt : ∀ b, (f.bank b).next < B.perBank
  offset_eq : ∀ b, ∀ k < B.perBank, (f.bank b).slotOffset k = 512*k+16
  addr_eq : ∀ c < B.coreNum, f.queueAddrMap c = B.entryAddr c 0

theorem Configured.congr {g : Fpga} (h : Configured B f) (hcore : g.coreNum = f.coreNum) (hmess : g.messNum = f.messNum)
    (hbank : g.bank = f.bank) (haddr : g.queueAddrMap = f.queueAddrMap) : Configured B g :=
  ⟨hcore ▸ h.1,hmess ▸ h.2,hbank ▸ h.3,hbank ▸ h.4,hbank ▸ h.5,haddr ▸ h.6⟩

theorem configured_invoke (B : Build) (f : Fpga) : Configured B (f.invoke B.args) := by
  rw [invoke_eq]
  refine ⟨rfl,rfl,fun _ => rfl,fun _ => B.perBank_pos,fun b k hk => ?_,fun c hc => ?_⟩
  · simp only [hk,if_true]
  · simp only [hc,if_true]

def Fpga.cursor (B : Build) (f : Fpga) (b : Bool) : Nat := B.slotId b (f.bank b).next

def Bank.advance (bank : Bank) : Nat := if bank.next+1 = bank.slotPartition then 0 else bank.next+1

def Bank.message (base : Nat) (m : Nat → BitVec 32) (bank : Bank) : CdmaMsgOut where
  i := base+bank.next
  coreId := ((m (bank.slotOffset bank.next)).setWidth 16).toNat
  oldFeatures := bank.features bank.next
  newFeatures := loadFeature (bank.slotOffset bank.next-16) m

def Bank.accept (base : Nat) (m : Nat → BitVec 32) (bank : Bank) : Bank :=
  { bank with
    rrb := Function.update bank.rrb bank.next ((m (bank.slotOffset bank.next)).sshiftRight 16 &&& 0xFFFF)
    checkMsgOut := bank.checkMsgOut ++ [bank.message base m]
    features := Function.update bank.features bank.next (loadFeature (bank.slotOffset bank.next-16) m)
    next := bank.advance }

/-- A poll accepts a flipped header and only moves the cursor otherwise. -/
theorem checkMessage_cases (base : Nat) (m : Nat → BitVec 32) (bank : Bank) : checkMessage base m bank =
      if (m (bank.slotOffset bank.next)).extractLsb' 16 16 = ~~~((bank.rrb bank.next).setWidth 16)
      then bank.accept base m else { bank with next := bank.advance } := by
  by_cases h : (m (bank.slotOffset bank.next)).extractLsb' 16 16 = ~~~((bank.rrb bank.next).setWidth 16)
  · rw [if_pos h]
    simp only [checkMessage,if_pos ((flipped_iff _ _).mpr h),and_low]
    rfl
  · rw [if_neg h]
    simp only [checkMessage,if_neg (fun hc => h ((flipped_iff _ _).mp hc))]
    rfl

theorem Configured.advance_lt (h : Configured B f) (b : Bool) : (f.bank b).advance < B.perBank := by
  have hlt := h.next_lt b
  have hpos := B.perBank_pos
  rw [Bank.advance,h.partition_eq b]
  split <;> omega

@[simp] theorem setBank_self (f : Fpga) (b : Bool) (bank : Bank) : (f.setBank b bank).bank b = bank := by
  simp [Fpga.setBank]

theorem setBank_of_ne (f : Fpga) {b c} (bank : Bank) (h : c ≠ b) : (f.setBank b bank).bank c = f.bank c := by
  simp [Fpga.setBank,Function.update_of_ne h]

/-- A part of the banks that the new bank keeps is unchanged. -/
theorem setBank_proj {α : Type*} (p : Bank → α) {f : Fpga} {b : Bool} {bank : Bank}
    (h : p bank = p (f.bank b)) (c : Bool) : p ((f.setBank b bank).bank c) = p (f.bank c) := by
  by_cases hc : c = b
  · subst hc
    rw [setBank_self,h]
  · rw [setBank_of_ne f bank hc]

theorem mem_of_mem_rest {msg : CdmaMsgOut} {rest b} (hout : (f.bank b).checkMsgOut = msg :: rest) {c m}
    (hm : m ∈ ((f.setBank b { f.bank b with checkMsgOut := rest }).bank c).checkMsgOut) : m ∈ (f.bank c).checkMsgOut := by
  by_cases hc : c = b
  · subst hc
    rw [setBank_self] at hm
    rw [hout]
    exact List.mem_cons_of_mem _ hm
  · rwa [setBank_of_ne _ _ hc] at hm

theorem Configured.setBank (h : Configured B f) {b bank} (hpart : bank.slotPartition = (f.bank b).slotPartition)
    (hoffset : bank.slotOffset = (f.bank b).slotOffset) (hnext : bank.next < B.perBank) :
    Configured B (f.setBank b bank) := by
  refine ⟨h.coreNum_eq,h.messNum_eq,fun c => ?_,fun c => ?_,fun c k hk => ?_,h.addr_eq⟩
  · rw [setBank_proj Bank.slotPartition hpart,h.partition_eq]
  · by_cases hc : c = b
    · subst hc
      rwa [setBank_self]
    · rw [setBank_of_ne f bank hc]
      exact h.next_lt c
  · rw [setBank_proj Bank.slotOffset hoffset,h.offset_eq c k hk]

theorem base_eq (h : Configured B f) (b : Bool) (i : Nat) : f.base b+i = B.slotId b i := by
  rw [Fpga.base,Build.slotId,h.partition_eq]

section

theorem bump_apply (clusters : Nat → Nat → BitVec 8) (c f : Nat) (d : BitVec 8) (c' f' : Nat) :
    bump clusters c f d c' f' = clusters c' f'+if c' = c ∧ f' = f then d else 0 := by
  rw [bump]
  by_cases hc : c' = c
  · subst hc
    by_cases hf : f' = f
    · subst hf
      simp
    · simp [hf]
  · simp [hc]

def clusterChange (oldIndex : Nat) (msg : UpdateClusterIn) (c f : Nat) : BitVec 8 :=
  (if msg.oldFeatures.getLsbD f ∧ c = oldIndex then -1 else 0)+
    if msg.newFeatures.getLsbD f ∧ c = msg.coreId then 1 else 0

private theorem updateFeature_apply (oldIndex : Nat) (msg : UpdateClusterIn) (clusters : Nat → Nat → BitVec 8)
    (f c f' : Nat) : updateFeature oldIndex msg clusters f c f' = clusters c f'+if f' = f then clusterChange oldIndex msg c f' else 0 := by
  rw [updateFeature,clusterChange]
  by_cases hf : f' = f
  · subst hf
    cases msg.oldFeatures.getLsbD f' <;> cases msg.newFeatures.getLsbD f' <;> simp [bump_apply,add_assoc]
  · cases msg.oldFeatures.getLsbD f <;> cases msg.newFeatures.getLsbD f <;> simp [bump_apply,hf]

/-- The loop over the features changes each column once. -/
theorem updateFeatures_apply (oldIndex : Nat) (msg : UpdateClusterIn) (clusters : Nat → Nat → BitVec 8) (n c f : Nat) :
    (List.range n).foldl (updateFeature oldIndex msg) clusters c f = clusters c f+if f < n then clusterChange oldIndex msg c f else 0 := by
  induction n with
  | zero => simp
  | succ n ih =>
    rw [List.range_succ,List.foldl_append,List.foldl_cons,List.foldl_nil,updateFeature_apply,ih]
    by_cases hf : f = n
    · subst hf
      simp
    · simp [hf,show f < n+1 ↔ f < n by omega]

end

end AlNiCo.Nic
