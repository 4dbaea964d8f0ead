import AlNiCo.Placement.NicWeights

/-! Where the FPGA placement and the CPU placement agree. The hardware walk
stops at 127 and accumulates in eight bits, and its core loop stops at 22. -/
namespace AlNiCo.Placement.Agreement
open Library.GrayWalk Library.FirstMaximum Placement.Nic BitVec

/-- The core both implementations should choose is the core each one chooses,
for every bitmap of every core and every hint below the core count. -/
def Agrees (weights : Nat → BitVec 8) (loads : List (Nat → BitVec 8)) (table : Nat → Nat → BitVec 32)
    (coreNum : Nat) (request : BitVec 512) : Prop :=
  ∀ (bitmaps : Nat → BitVec 512) (hint : Nat), hint < coreNum →
    let nicCore := coreIdFunc coreNum (initWeight weights (loadedTable loads)) bitmaps hint request
    let hostCore := Host.getCoreId coreNum (Host.updateWeights weights table) (bytesOf request)
      (fun t => bytesOf (bitmaps t)) (BitVec.ofNat 32 hint)
    nicCore = hostCore.toNat ∧
      Chosen (fun t => sharedWeight weights (bytesOf request) (bytesOf (bitmaps t))) coreNum hint nicCore

/-- Byte by byte, the weight of the request's features fits the 8-bit
accumulator and none of it stands beside the request's top feature. -/
def Representable (weights : Nat → BitVec 8) (request : BitVec 512) : Prop :=
  ∀ i < 64, byteWeight weights i (bytesOf request i) ≤ 255 ∧
    ((bytesOf request i).getLsbD 7 = true → byteWeight weights i (bytesOf request i) = 0)

section

variable (weights : Nat → BitVec 8) (request : BitVec 512) (i : Nat)

@[simp] theorem byteWeight_zero : byteWeight weights i 0#8 = 0 := by
  simp [byteWeight]

@[simp] theorem nicByte_zero : nicByte weights i 0#8 = 0 := by
  simp [nicByte]

theorem byteWeight_and_le (a b : BitVec 8) : byteWeight weights i (a &&& b) ≤ byteWeight weights i a := by
  rw [byteWeight,byteWeight,subsetSum,subsetSum]
  refine Finset.sum_le_sum (fun j _ => ?_)
  rw [toNat_and,Nat.testBit_and]
  cases a.toNat.testBit j <;> cases b.toNat.testBit j <;> simp

def singleByte (i : Nat) (b : BitVec 8) : BitVec 512 := b.setWidth 512 <<< (8*i)

theorem bytesOf_singleByte {i j} (hi : i < 64) (hj : j < 64) (b : BitVec 8) : bytesOf (singleByte i b) j = if j = i then b else 0 := by
  apply eq_of_getLsbD_eq
  intro k hk
  rw [bytesOf,singleByte,getLsbD_extractLsb',getLsbD_shiftLeft,getLsbD_setWidth]
  by_cases h : j = i
  · subst h
    have hin : 8*j+k < 512 := by omega
    have hge : ¬ 8*j+k < 8*j := by omega
    simp [hk,hin,hge,show k < 512 by omega]
  · rw [if_neg h]
    by_cases hlt : 8*j+k < 8*i
    · simp [hlt]
    · have hout : 8 ≤ 8*j+k-8*i := by omega
      simp [getLsbD_of_ge b _ hout]

private theorem and_singleByte {i j} (hi : i < 64) (hj : j < 64) (hne : j ≠ i) (a b : BitVec 8) :
    a &&& bytesOf (singleByte i b) j = 0#8 := by
  rw [bytesOf_singleByte hi hj,if_neg hne]
  exact and_zero

theorem sharedWeight_singleByte {i} (hi : i < 64) (b : BitVec 8) :
    sharedWeight weights (bytesOf request) (bytesOf (singleByte i b)) = byteWeight weights i (bytesOf request i &&& b) := by
  rw [sharedWeight_eq_bytes,Finset.sum_eq_single i]
  · rw [bytesOf_singleByte hi hi,if_pos rfl]
  · intro j hj hne
    rw [and_singleByte hi (Finset.mem_range.mp hj) hne,byteWeight_zero]
  · intro h
    exact absurd (Finset.mem_range.mpr hi) h

theorem nicScore_singleByte {i} (hi : i < 64) (b : BitVec 8) :
    nicScore weights request (singleByte i b) = nicByte weights i (bytesOf request i &&& b) := by
  rw [nicScore,Finset.sum_eq_single i]
  · rw [bytesOf_singleByte hi hi,if_pos rfl]
  · intro j hj hne
    rw [and_singleByte hi (Finset.mem_range.mp hj) hne,nicByte_zero]
  · intro h
    exact absurd (Finset.mem_range.mpr hi) h

private theorem and_bytesOf_zero (a : BitVec 8) (i : Nat) : a &&& bytesOf 0#512 i = 0#8 := by
  simp [bytesOf]

private theorem nicScore_zero : nicScore weights request 0#512 = 0 := by
  refine Finset.sum_eq_zero (fun i _ => ?_)
  rw [and_bytesOf_zero,nicByte_zero]

private theorem sharedWeight_zero : sharedWeight weights (bytesOf request) (bytesOf 0#512) = 0 := by
  rw [sharedWeight_eq_bytes]
  refine Finset.sum_eq_zero (fun i _ => ?_)
  rw [and_bytesOf_zero,byteWeight_zero]

end

section

variable {weights : Nat → BitVec 8} (loads : List (Nat → BitVec 8)) (table : Nat → Nat → BitVec 32)
  {request : BitVec 512}

private theorem nicByte_eq (h : Representable weights request) {i} (hi : i < 64) (b : BitVec 8) :
    nicByte weights i (bytesOf request i &&& b) = byteWeight weights i (bytesOf request i &&& b) := by
  obtain ⟨hfit,htop⟩ := h i hi
  have hle := byteWeight_and_le weights i (bytesOf request i) b
  rw [nicByte]
  split
  · rename_i hset
    rw [getLsbD_and,Bool.and_eq_true] at hset
    have hzero := htop hset.1
    omega
  · exact Nat.mod_eq_of_lt (by omega)

private theorem nicScore_eq (h : Representable weights request) (bitmap : BitVec 512) :
    nicScore weights request bitmap = sharedWeight weights (bytesOf request) (bytesOf bitmap) := by
  rw [sharedWeight_eq_bytes]
  exact Finset.sum_congr rfl (fun i hi => nicByte_eq h (Finset.mem_range.mp hi) _)

private theorem representable_of_weightless
    (h : ∀ i < 64, byteWeight weights i (bytesOf request i) = 0) : Representable weights request := by
  intro i hi
  rw [h i hi]
  exact ⟨Nat.zero_le _,fun _ => rfl⟩

/-- A specified choice of the hardware is the choice of the CPU. -/
private theorem agrees_of_chosen {loads table coreNum} (hcores : coreNum ≤ 24) {request}
    (h : ∀ (bitmaps : Nat → BitVec 512) (hint : Nat), hint < coreNum →
      Chosen (fun t => sharedWeight weights (bytesOf request) (bytesOf (bitmaps t))) coreNum hint
        (coreIdFunc coreNum (initWeight weights (loadedTable loads)) bitmaps hint request)) :
    Agrees weights loads table coreNum request := by
  intro bitmaps hint hhint
  have hnic := h bitmaps hint hhint
  have hhost := Host.getCoreId_chosen weights table (show coreNum ≤ 2^16 by omega) (bytesOf request)
    (fun t => bytesOf (bitmaps t)) (BitVec.ofNat 32 hint)
  rw [toNat_ofNat,Nat.mod_eq_of_lt (show hint < 2^32 by omega),Nat.mod_eq_of_lt (show hint < 2^16 by omega)] at hhost
  exact ⟨hnic.unique hhost,hnic⟩

private theorem agrees_of_representable {coreNum} (hcores : coreNum ≤ 22) {request}
    (h : Representable weights request) : Agrees weights loads table coreNum request := by
  refine agrees_of_chosen (by omega) (fun bitmaps hint _ => ?_)
  rw [coreIdFunc_eq_scan,Nat.min_eq_right hcores]
  exact (scan_chosen _ coreNum hint).congr (fun t _ => nicScore_eq h (bitmaps t))

private theorem agrees_of_weightless {coreNum} (hcores : coreNum ≤ 24) {request}
    (h : ∀ i < 64, byteWeight weights i (bytesOf request i) = 0) :
    Agrees weights loads table coreNum request := by
  have hshared (bitmap : BitVec 512) : sharedWeight weights (bytesOf request) (bytesOf bitmap) = 0 := by
    rw [sharedWeight_eq_bytes]
    refine Finset.sum_eq_zero (fun i hi => Nat.eq_zero_of_le_zero ?_)
    exact (byteWeight_and_le weights i _ _).trans (h i (Finset.mem_range.mp hi)).le
  refine agrees_of_chosen hcores (fun bitmaps hint _ => ?_)
  rw [coreIdFunc_eq_scan]
  rcases scan_chosen (fun c => nicScore weights request (bitmaps c)) (min 22 coreNum) hint with
    hfirst | ⟨_,hhint⟩
  · refine absurd hfirst.pos (Nat.not_lt.mpr (Nat.le_of_eq ?_))
    rw [nicScore_eq (representable_of_weightless h),hshared]
  · exact .inr ⟨fun t _ => hshared (bitmaps t),hhint⟩

private theorem agrees_of_single_core (weights : Nat → BitVec 8) (loads : List (Nat → BitVec 8))
    (table : Nat → Nat → BitVec 32) {coreNum} (hcores : coreNum ≤ 1) (request : BitVec 512) :
    Agrees weights loads table coreNum request := by
  refine agrees_of_chosen (by omega) (fun bitmaps hint hhint => ?_)
  obtain rfl : coreNum = 1 := by omega
  obtain rfl : hint = 0 := by omega
  have hcore := coreIdFunc_lt hhint (initWeight weights (loadedTable loads)) bitmaps request
  rw [Nat.lt_one_iff.mp hcore]
  by_cases hz : sharedWeight weights (bytesOf request) (bytesOf (bitmaps 0)) = 0
  · refine .inr ⟨fun t ht => ?_,rfl⟩
    rw [Nat.lt_one_iff.mp ht]
    exact hz
  · refine .inl ⟨hhint,Nat.pos_of_ne_zero hz,fun u hu => ?_,fun u hu => absurd hu (Nat.not_lt_zero u)⟩
    rw [Nat.lt_one_iff.mp hu]

end

section Necessary

variable {weights : Nat → BitVec 8} {loads : List (Nat → BitVec 8)} {table : Nat → Nat → BitVec 32} {coreNum : Nat}
  {request : BitVec 512}

/-- Agreement fails once the hardware stays on core 0 while another core shares
more weight with the request. -/
private theorem not_agrees (bitmaps : Nat → BitVec 512) {t} (ht : t < coreNum)
    (hlt : sharedWeight weights (bytesOf request) (bytesOf (bitmaps 0)) < sharedWeight weights (bytesOf request) (bytesOf (bitmaps t)))
    (hnic : Chosen (fun c => nicScore weights request (bitmaps c)) (min 22 coreNum) 0 0) :
    ¬ Agrees weights loads table coreNum request := by
  intro h
  have hspec := (h bitmaps 0 (by omega)).2
  rw [coreIdFunc_eq_scan,(scan_chosen _ _ _).unique hnic] at hspec
  exact Nat.not_lt.mpr (hspec.le ht) hlt

def onlyCore (t : Nat) (bitmap : BitVec 512) (c : Nat) : BitVec 512 := if c = t then bitmap else 0#512

/-- The hardware does not see the weight: it lies in the unfilled half of the
table, or on a core its loop never reaches. -/
private theorem not_agrees_of_unseen {i t} (hi : i < 64)
    (ht : t < coreNum) (hpos : 0 < t) (hweight : 0 < byteWeight weights i (bytesOf request i))
    (hunseen : 22 ≤ t ∨ (bytesOf request i).getLsbD 7 = true) :
    ¬ Agrees weights loads table coreNum request := by
  refine not_agrees (onlyCore t (singleByte i (bytesOf request i))) ht ?_ (.inr ⟨?_,rfl⟩)
  · rw [onlyCore,onlyCore,if_neg (by omega),if_pos rfl,sharedWeight_zero,sharedWeight_singleByte weights request hi,BitVec.and_self]
    exact hweight
  · intro c hc
    change nicScore weights request (onlyCore t _ c) = 0
    rw [onlyCore]
    split
    · rename_i he
      rcases hunseen with hcore | htop
      · omega
      · rw [nicScore_singleByte weights request hi,BitVec.and_self,nicByte,if_pos htop]
    · exact nicScore_zero weights request

def lowBits (k : Nat) : BitVec 8 := BitVec.ofNat 8 (2^k-1)

private theorem byteWeight_lowBits (weights : Nat → BitVec 8) (i : Nat) (a : BitVec 8) {k}
    (hk : k ≤ 8) : byteWeight weights i (a &&& lowBits k) = subsetSum (fun j => (weights (i*8+j)).toNat) k a.toNat := by
  have hmask : (lowBits k).toNat = 2^k-1 := by
    have hpow : 2^k ≤ 2^8 := Nat.pow_le_pow_right (by decide) hk
    rw [lowBits,toNat_ofNat,Nat.mod_eq_of_lt (by omega)]
  rw [byteWeight,subsetSum,subsetSum]
  refine (Finset.sum_subset_zero_on_sdiff (Finset.range_mono hk) ?_ ?_).symm
  · intro j hj
    have hge : ¬ j < k := fun h => (Finset.mem_sdiff.mp hj).2 (Finset.mem_range.mpr h)
    simp [hmask,hge]
  · intro j hj
    simp [hmask,Finset.mem_range.mp hj]

/-- Weights are added one by one, so some prefix is the last to fit. -/
private theorem exists_overflow (w : Nat → Nat) (b bound n : Nat) (h : bound < subsetSum w n b) :
    ∃ k < n, subsetSum w k b ≤ bound ∧ bound < subsetSum w (k+1) b := by
  induction n with
  | zero => simp [subsetSum] at h
  | succ n ih =>
    by_cases hn : bound < subsetSum w n b
    · obtain ⟨k,hk,hfit⟩ := ih hn
      exact ⟨k,by omega,hfit⟩
    · exact ⟨n,by omega,by omega,h⟩

/-- The 8-bit accumulator wraps between two prefixes of the byte, and the
longer one looks lighter. -/
private theorem not_agrees_of_overflow {i} (hi : i < 64) (hcores : 2 ≤ coreNum) (htop : (bytesOf request i).getLsbD 7 = false)
    (hover : 255 < byteWeight weights i (bytesOf request i)) :
    ¬ Agrees weights loads table coreNum request := by
  set w := fun j => (weights (i*8+j)).toNat
  set a := bytesOf request i with ha
  obtain ⟨k,hk,hfit,hwrap⟩ := exists_overflow w a.toNat 255 8 hover
  have hlast : subsetSum w (k+1) a.toNat ≤ subsetSum w k a.toNat + 255 := by
    have hw : w k ≤ 255 := Nat.lt_succ_iff.mp (weights (i*8+k)).isLt
    rw [subsetSum,Finset.sum_range_succ,← subsetSum]
    split <;> omega
  have hbyte (m : Nat) (hm : m ≤ 8) : nicByte weights i (a &&& lowBits m) = subsetSum w m a.toNat % 256 := by
    rw [nicByte,getLsbD_and,htop,byteWeight_lowBits weights i a hm]
    simp [w]
  let bitmaps : Nat → BitVec 512 := fun c =>
    if c = 0 then singleByte i (lowBits k) else if c = 1 then singleByte i (lowBits (k+1)) else 0#512
  have hzero : nicScore weights request (bitmaps 0) = subsetSum w k a.toNat := by
    rw [show bitmaps 0 = singleByte i (lowBits k) from rfl,nicScore_singleByte weights request hi,← ha,
      hbyte k hk.le,Nat.mod_eq_of_lt (by omega)]
  have hone : nicScore weights request (bitmaps 1) < subsetSum w k a.toNat := by
    rw [show bitmaps 1 = singleByte i (lowBits (k+1)) from rfl,nicScore_singleByte weights request hi,← ha,hbyte (k+1) hk]
    omega
  refine not_agrees bitmaps (show 1 < coreNum by omega) ?_ (.inl ⟨by omega,by omega,?_,?_⟩)
  · rw [show bitmaps 0 = singleByte i (lowBits k) from rfl,
      show bitmaps 1 = singleByte i (lowBits (k+1)) from rfl,sharedWeight_singleByte weights request hi,
      sharedWeight_singleByte weights request hi,← ha,byteWeight_lowBits weights i a hk.le,
      byteWeight_lowBits weights i a hk]
    exact Nat.lt_of_le_of_lt hfit hwrap
  · intro c _
    by_cases h0 : c = 0
    · rw [h0]
    · by_cases h1 : c = 1
      · rw [h1]
        omega
      · rw [show bitmaps c = 0#512 by simp [bitmaps,h0,h1],nicScore_zero]
        exact Nat.zero_le _
  · intro c hc
    exact absurd hc (Nat.not_lt_zero c)

end Necessary

/-- The two placements agree on every bitmap and hint exactly for one core, for
a request without weight, or for at most 22 cores and a representable request. -/
theorem nic_placement_agrees_iff (weights : Nat → BitVec 8) (loads : List (Nat → BitVec 8))
    (table : Nat → Nat → BitVec 32) {coreNum : Nat} (hcores : coreNum ≤ 24) (request : BitVec 512) :
    Agrees weights loads table coreNum request ↔
      coreNum ≤ 1 ∨ (∀ i < 64, byteWeight weights i (bytesOf request i) = 0) ∨
        (coreNum ≤ 22 ∧ Representable weights request) := by
  constructor
  · intro h
    by_contra hnot
    push Not at hnot
    obtain ⟨hmany,⟨i,hi,hweight⟩,hrest⟩ := hnot
    by_cases hcount : coreNum ≤ 22
    · have hbad := hrest hcount
      rw [Representable] at hbad
      push Not at hbad
      obtain ⟨j,hj,hbyte⟩ := hbad
      by_cases htop : (bytesOf request j).getLsbD 7 = true
      · have hpos : 0 < byteWeight weights j (bytesOf request j) := by
          by_contra hz
          exact (hbyte (by omega)).2 (by omega)
        exact not_agrees_of_unseen hj (show 1 < coreNum by omega) (by omega) hpos (.inr htop) h
      · rw [Bool.not_eq_true] at htop
        have hover : 255 < byteWeight weights j (bytesOf request j) := by
          by_contra hle
          rw [(hbyte (by omega)).1] at htop
          exact absurd htop (by decide)
        exact not_agrees_of_overflow hj (by omega) htop hover h
    · exact not_agrees_of_unseen hi (show 22 < coreNum by omega) (by omega)
        (Nat.pos_of_ne_zero hweight) (.inl (Nat.le_refl 22)) h
  · rintro (hone | hzero | ⟨hcount,hfit⟩)
    · exact agrees_of_single_core weights loads table hone request
    · exact agrees_of_weightless loads table hcores hzero
    · exact agrees_of_representable loads table hcount hfit

private theorem representable_bit_zero : Representable (fun _ => 10) (singleByte 0 1) := by
  intro i hi
  rw [bytesOf_singleByte (by decide) hi]
  rcases Nat.eq_zero_or_pos i with rfl | hpos
  · decide
  · rw [if_neg (by omega),show (0 : BitVec 8) = 0#8 from rfl,byteWeight_zero]
    exact ⟨by decide,fun _ => rfl⟩

/-- A request with feature 0 alone, of weight 10, is placed alike on two cores. -/
theorem nic_placement_agrees_on_feature_zero :
    2 ≤ 24 ∧ Agrees (fun _ => 10) [] (fun _ _ => 0) 2 (singleByte 0 1) :=
  ⟨by decide,(nic_placement_agrees_iff (fun _ => 10) [] (fun _ _ => 0) (by decide) (singleByte 0 1)).mpr
    (.inr (.inr ⟨by decide,representable_bit_zero⟩))⟩

/-- A request whose only feature is the top bit of a byte, of weight 10 and
held by core 1 alone: the FPGA keeps the hint 0, the CPU chooses core 1. -/
theorem nic_ignores_top_feature :
    coreIdFunc 2 (initWeight (fun _ => 10) (loadedTable [])) (onlyCore 1 (singleByte 0 128)) 0
      (singleByte 0 128) = 0 ∧
    (Host.getCoreId 2 (Host.updateWeights (fun _ => 10) (fun _ _ => 0)) (bytesOf (singleByte 0 128))
      (fun t => bytesOf (onlyCore 1 (singleByte 0 128) t)) 0).toNat = 1 := by
  have hbyte : bytesOf (singleByte 0 128) 0 = 128 := bytesOf_singleByte (by decide) (by decide) 128
  have hnic (c : Nat) : nicScore (fun _ => 10) (singleByte 0 128) (onlyCore 1 (singleByte 0 128) c) = 0 := by
    rw [onlyCore]
    split
    · rw [nicScore_singleByte _ _ (by decide),hbyte]
      rfl
    · exact nicScore_zero _ _
  have hhost (c : Nat) : sharedWeight (fun _ => 10) (bytesOf (singleByte 0 128))
      (bytesOf (onlyCore 1 (singleByte 0 128) c)) = if c = 1 then 10 else 0 := by
    rw [onlyCore]
    split
    · rw [sharedWeight_singleByte _ _ (by decide),hbyte]
      decide
    · exact sharedWeight_zero _ _
  constructor
  · rw [coreIdFunc_eq_scan]
    exact (scan_chosen _ _ _).unique (.inr ⟨fun c _ => hnic c,rfl⟩)
  · refine (Host.getCoreId_chosen (fun _ => 10) (fun _ _ => 0) (by decide) _ _ 0).unique
      (.inl ⟨by decide,?_,?_,?_⟩)
    · rw [hhost]
      decide
    · intro u _
      rw [hhost,hhost]
      split <;> decide
    · intro u hu
      rw [hhost,hhost,if_neg (by omega)]
      decide

end AlNiCo.Placement.Agreement
