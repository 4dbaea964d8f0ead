import AlNiCo.Library.Tiling
import Mathlib.Tactic.Ring

/-! The slots that each runner thread polls in the builds where the host schedules. A thread
computes its block in 16-bit variables and hands it to `run_strife_once`. -/
namespace AlNiCo.Host.SlotRanges
open Library.Tiling

structure SlotRange where
  slotBase : BitVec 16
  slotEnd : BitVec 16
  deriving DecidableEq

/-- The loop of `run_strife_once`, which goes idle when its block starts past the last slot. -/
def runStrifeOnce (slots : Nat) (r : SlotRange) : List Nat :=
  (List.range' r.slotBase.toNat (r.slotEnd.toNat-r.slotBase.toNat)).filter (fun _ => decide (r.slotBase.toNat < slots))

def roundedUp (slots workers id : Nat) : SlotRange :=
  let slotSize := BitVec.ofNat 16 ((slots+workers-1)/workers)
  let slotBase := BitVec.ofNat 16 (slotSize.toNat*id)
  ⟨slotBase,BitVec.ofNat 16 (min (slotBase.toNat+slotSize.toNat) slots)⟩

section
variable (slots workers id : Nat)

def tpccRunnerThreadStrifeHack : SlotRange := roundedUp slots workers id

def staticHack : SlotRange := roundedUp slots workers id

def ycsbRunnerThreadStrifeHack : SlotRange := roundedUp slots workers id

/-- With `MAX_THREAD` workers: the first `left` of them take one slot more. -/
def ycsbStaticHack : SlotRange :=
  let slotSize := BitVec.ofNat 16 (slots/workers)
  let left := BitVec.ofNat 16 (slots-slotSize.toNat*workers)
  let slotBase := BitVec.ofNat 16 (min (slotSize.toNat*id+min left.toNat id) slots)
  ⟨slotBase,BitVec.ofNat 16 (min (slotBase.toNat+slotSize.toNat+(if id < left.toNat then 1 else 0)) slots)⟩

inductive Build
  | tpccStrife
  | tpccStatic
  | ycsbStrife
  | ycsbStatic
  deriving DecidableEq

def Build.slotRange : Build → SlotRange
  | tpccStrife => tpccRunnerThreadStrifeHack slots workers id
  | tpccStatic => staticHack slots workers id
  | ycsbStrife => ycsbRunnerThreadStrifeHack slots workers id
  | ycsbStatic => ycsbStaticHack slots workers id

end

def SlotRange.slots (r : SlotRange) : List Nat := List.range' r.slotBase.toNat (r.slotEnd.toNat-r.slotBase.toNat)

section
variable {slots workers id : Nat}

private theorem toNat_uint16 {n} (h : n < 65536) : (BitVec.ofNat 16 n).toNat = n := by
  rw [BitVec.toNat_ofNat]
  exact Nat.mod_eq_of_lt h

/-- The end of the blocks before `id`, cut off at the last slot. -/
def roundedCut (slots workers id : Nat) : Nat := min ((slots+workers-1)/workers*id) slots

theorem monotone_roundedCut (slots workers : Nat) : Monotone (roundedCut slots workers) :=
  fun _ _ h => min_le_min_right slots (Nat.mul_le_mul_left _ h)

theorem roundedCut_last (hpos : 1 ≤ workers) : roundedCut slots workers workers = slots := by
  have hlt := Nat.lt_mul_div_succ (slots+workers-1) (show 0 < workers from hpos)
  rw [Nat.mul_add,Nat.mul_one,Nat.mul_comm] at hlt
  exact Nat.min_eq_right (by omega)

/-- A block that starts past the last slot is empty, however far its end lies before it. -/
theorem slots_roundedUp (hslots : slots ≤ 32767) (hpos : 1 ≤ workers) (hworkers : workers ≤ 32767) (hid : id < workers) :
    (roundedUp slots workers id).slots = block (roundedCut slots workers) id := by
  have hall := Nat.div_mul_le_self (slots+workers-1) workers
  have hnext : (slots+workers-1)/workers*(id+1) ≤ (slots+workers-1)/workers*workers := Nat.mul_le_mul_left _ hid
  have hone : (slots+workers-1)/workers*1 ≤ (slots+workers-1)/workers*workers := Nat.mul_le_mul_left _ hpos
  rw [SlotRange.slots,roundedUp,block,roundedCut,roundedCut]
  rw [Nat.mul_add] at hnext ⊢
  generalize hsize : (slots+workers-1)/workers = size at *
  have hbase : (BitVec.ofNat 16 ((BitVec.ofNat 16 size).toNat*id)).toNat = size*id := by
    rw [toNat_uint16 (show size < 65536 by omega),toNat_uint16 (show size*id < 65536 by omega)]
  simp only [hbase]
  rw [toNat_uint16 (show size < 65536 by omega),toNat_uint16 (by omega),Nat.mul_one]
  by_cases hin : size*id ≤ slots
  · rw [Nat.min_eq_left hin]
  · rw [show min (size*id+size) slots-size*id = 0 by omega,show min (size*id+size) slots-min (size*id) slots = 0 by omega]
    rfl

/-- The slots of the workers before `id`, of which the first few have one more. -/
def spreadCut (slots workers id : Nat) : Nat := slots/workers*id+min (slots % workers) id

theorem monotone_spreadCut (slots workers : Nat) : Monotone (spreadCut slots workers) :=
  fun _ _ h => Nat.add_le_add (Nat.mul_le_mul_left _ h) (min_le_min_left _ h)

theorem spreadCut_last (hpos : 1 ≤ workers) : spreadCut slots workers workers = slots := by
  have hmod := Nat.mod_lt slots (show 0 < workers from hpos)
  rw [spreadCut,Nat.min_eq_left hmod.le]
  exact Nat.div_add_mod' slots workers

theorem slots_ycsbStaticHack (hslots : slots ≤ 32767) (hpos : 1 ≤ workers) (hid : id < workers) :
    (ycsbStaticHack slots workers id).slots = block (spreadCut slots workers) id := by
  have hcut : spreadCut slots workers (id+1) ≤ slots :=
    (monotone_spreadCut slots workers hid).trans_eq (spreadCut_last hpos)
  have hdiv := Nat.div_le_self slots workers
  have hmod := Nat.mod_le slots workers
  have hleft : slots-slots/workers*workers = slots % workers := by
    have hsum := Nat.div_add_mod' slots workers
    omega
  rw [spreadCut,Nat.mul_add,Nat.mul_one] at hcut
  rw [SlotRange.slots,ycsbStaticHack,block,spreadCut,spreadCut,Nat.mul_add,Nat.mul_one]
  rw [toNat_uint16 (show slots/workers < 65536 by omega)]
  simp only [hleft]
  rw [toNat_uint16 (show slots % workers < 65536 by omega)]
  generalize slots/workers*id = before at *
  generalize slots/workers = size at *
  generalize slots % workers = left at *
  have hbase : min (before+min left id) slots = before+min left id := by omega
  have hend : before+min left id+size+(if id < left then 1 else 0) = before+size+min left (id+1) := by
    split_ifs <;> omega
  rw [hbase,toNat_uint16 (show before+min left id < 65536 by omega),hend,Nat.min_eq_left hcut,
    toNat_uint16 (show before+size+min left (id+1) < 65536 by omega)]

/-- Every build cuts the slots at rising points. -/
theorem Build.exists_cut (b : Build) (hslots : slots ≤ 32767) (hpos : 1 ≤ workers) (hworkers : workers ≤ 32767) :
    ∃ c, Monotone c ∧ c 0 = 0 ∧ c workers = slots ∧ ∀ id < workers, (b.slotRange slots workers id).slots = block c id := by
  cases b with
  | tpccStrife | tpccStatic | ycsbStrife =>
    exact ⟨roundedCut slots workers,monotone_roundedCut slots workers,by rw [roundedCut,Nat.mul_zero,Nat.zero_min],
      roundedCut_last hpos,fun id hid => slots_roundedUp hslots hpos hworkers hid⟩
  | ycsbStatic =>
    exact ⟨spreadCut slots workers,monotone_spreadCut slots workers,by rw [spreadCut,Nat.mul_zero,Nat.min_zero],
      spreadCut_last hpos,fun id hid => slots_ycsbStaticHack hslots hpos hid⟩

end

/-- A block inside of the slots is polled as it is. -/
theorem runStrifeOnce_eq {slots r} (h : ∀ k ∈ r.slots, k < slots) : runStrifeOnce slots r = r.slots := by
  apply List.filter_eq_self.mpr
  intro k hk
  have hle := (List.mem_range'_1.mp hk).1
  exact decide_eq_true (hle.trans_lt (h k hk))

/-- In every host-scheduled build the blocks of two workers are disjoint, every slot is in one of
them, and a round of all workers polls each slot once. -/
theorem slot_ranges_partition (b : Build) {slots workers : Nat} (hslots : slots ≤ 32767) (hpos : 1 ≤ workers)
    (hworkers : workers ≤ 32767) :
    (∀ i < workers, ∀ j < workers, i ≠ j →
      List.Disjoint (b.slotRange slots workers i).slots (b.slotRange slots workers j).slots) ∧
    (∀ k, k < slots ↔ ∃ i < workers, k ∈ (b.slotRange slots workers i).slots) ∧
    (List.range workers).flatMap (fun i => runStrifeOnce slots (b.slotRange slots workers i)) = List.range slots := by
  obtain ⟨c,hc,hzero,hlast,hblock⟩ := b.exists_cut hslots hpos hworkers
  have hcover : (List.range workers).flatMap (block c) = List.range slots := by
    rw [flatMap_block hc hzero,hlast]
  have hinside (k : Nat) : k < slots ↔ ∃ i < workers, k ∈ (b.slotRange slots workers i).slots := by
    rw [← List.mem_range,← hcover,List.mem_flatMap]
    simp only [List.mem_range]
    exact exists_congr (fun i => and_congr_right (fun hi => by rw [hblock i hi]))
  refine ⟨fun i hi j hj hij => ?_,hinside,?_⟩
  · rw [hblock i hi,hblock j hj]
    exact block_disjoint hc hij
  · rw [← hcover]
    apply List.flatMap_congr
    intro i hi
    have hi := List.mem_range.mp hi
    rw [runStrifeOnce_eq (fun k hk => (hinside k).mpr ⟨i,hi,hk⟩),hblock i hi]

/-- Five workers for two slots: the last three start past the end. -/
theorem slot_ranges_partition_five : (List.range 5).flatMap (fun i => runStrifeOnce 2 (Build.tpccStrife.slotRange 2 5 i)) = [0,1] :=
  (slot_ranges_partition .tpccStrife (by decide) (by decide) (by decide)).2.2

end AlNiCo.Host.SlotRanges
