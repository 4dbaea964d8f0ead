import AlNiCo.Placement.HostWeights
import Mathlib.Data.List.TakeWhile

/-! The placement of the FPGA scheduler: the table merged by `init_weight` and
the choice made by `core_id_func`. The loops, bounds and widths are those of
the hardware source, which differ from the CPU's. -/
namespace AlNiCo.Placement.Nic
open Library.GrayWalk Library.FirstMaximum Function List BitVec

structure Walk where
  now : Nat
  lastValue : Nat → BitVec 8
  mergeWeights : Nat → Nat → BitVec 12

def laneStep (weights : Nat → BitVec 8) (last now : Nat) (s : Walk) (i : Nat) : Walk :=
  let weight := rowWeights weights i (deltaId (now ^^^ last))
  let value := if now > last then s.lastValue i + weight else s.lastValue i - weight
  { s with
    lastValue := update s.lastValue i value
    mergeWeights := update s.mergeWeights i
      (update (s.mergeWeights i) now (value.setWidth 12)) }

def initStep (weights : Nat → BitVec 8) (s : Walk) (g : Nat) : Walk :=
  let last := s.now
  let now := (g ^^^ (g >>> 1)) % 256
  (List.range 64).foldl (laneStep weights last now) { s with now := now }

/-- The first `k` iterations of `for (int gray = 1; gray < 128; gray++)`. -/
def initLoop (weights : Nat → BitVec 8) (mergeWeights : Nat → Nat → BitVec 12) (k : Nat) : Walk :=
  (List.range' 1 k).foldl (initStep weights)
    { now := 0
      lastValue := fun _ => 0
      mergeWeights := fun i => if i < 64 then update (mergeWeights i) 0 0 else mergeWeights i }

def initWeight (weights : Nat → BitVec 8) (mergeWeights : Nat → Nat → BitVec 12) :
    Nat → Nat → BitVec 12 :=
  (initLoop weights mergeWeights 127).mergeWeights

/-- `ansmap` of `core_id_func` after the first `n` bytes. -/
def ansmap (mergeWeights : Nat → Nat → BitVec 12) (distanceBitmap : BitVec 512) (n : Nat) : BitVec 16 :=
  (List.range n).foldl (fun ans f =>
    ans + (mergeWeights f (distanceBitmap.extractLsb' (8*f) 8).toNat).setWidth 16) 0

structure Membership where
  index : Nat
  ans : BitVec 16

def coreStep (mergeWeights : Nat → Nat → BitVec 12) (bitClusters : Nat → BitVec 512)
    (newFeatures : BitVec 512) (membership : Membership) (c : Nat) : Membership :=
  let ans := ansmap mergeWeights (newFeatures &&& bitClusters c) 64
  if ans > membership.ans then ⟨c,ans⟩ else membership

/-- The index computed by `core_id_func`. The loop runs to 22 whatever the
size of the arrays and breaks at `CORE_NUM`. -/
def coreIdFunc (coreNum : Nat) (mergeWeights : Nat → Nat → BitVec 12) (bitClusters : Nat → BitVec 512)
    (coreId : Nat) (newFeatures : BitVec 512) : Nat :=
  (((List.range 22).takeWhile (· < coreNum)).foldl
    (coreStep mergeWeights bitClusters newFeatures) ⟨coreId,0⟩).index

variable (weights : Nat → BitVec 8) (loads : List (Nat → BitVec 8))

private theorem lanes_now (last now n : Nat) (s : Walk) : ((range n).foldl (laneStep weights last now) s).now = s.now := by
  induction n with
  | zero => rfl
  | succ n ih => simp [range_succ,laneStep,ih]

/-- The unrolled loop acts on every byte by itself. -/
private theorem lanes_eq (last now n : Nat) (s : Walk) (i : Nat) : let t := (range n).foldl (laneStep weights last now) s
    let weight := rowWeights weights i (deltaId (now ^^^ last))
    let value := if now > last then s.lastValue i + weight else s.lastValue i - weight
    t.lastValue i = (if i < n then value else s.lastValue i) ∧
      t.mergeWeights i = if i < n then update (s.mergeWeights i) now (value.setWidth 12)
        else s.mergeWeights i := by
  induction n with
  | zero => exact ⟨rfl,rfl⟩
  | succ n ih =>
    obtain ⟨hvalue,htable⟩ := ih
    simp only [range_succ,foldl_append,foldl_cons,foldl_nil,laneStep]
    by_cases hi : i = n
    · subst hi
      rw [update_self,update_self,hvalue,htable]
      simp
    · have hiff : i < n+1 ↔ i < n := by omega
      rw [update_of_ne hi,update_of_ne hi,hvalue,htable]
      simp [hiff]

/-- The invariant of the walk: `last_value` holds the 8-bit sum of the current
code, visited codes hold their 8-bit sums, the upper half is untouched. -/
structure WalkInvariant (weights : Nat → BitVec 8) (table : Nat → Nat → BitVec 12) (k : Nat)
    (s : Walk) : Prop where
  now_eq : s.now = gray k
  value_eq : ∀ i < 64, s.lastValue i = subsetSum (rowWeights weights i) 8 (gray k)
  visited : ∀ i < 64, ∀ j ≤ k,
    s.mergeWeights i (gray j) = (subsetSum (rowWeights weights i) 8 (gray j)).setWidth 12
  upper : ∀ i < 64, ∀ b ≥ 128, s.mergeWeights i b = table i b

private theorem initStep_invariant {weights table k} (hk : k < 127) {s} (h : WalkInvariant weights table k s) :
    WalkInvariant weights table (k+1) (initStep weights s (k+1)) := by
  have hlt : k+1 < 2^8 := by omega
  have hlow : gray (k+1) < 2^7 := gray_lt (by omega)
  obtain ⟨bit,hbit⟩ := gray_succ_xor k
  have hcode : ((k+1) ^^^ ((k+1) >>> 1)) % 256 = gray (k+1) := Nat.mod_eq_of_lt (gray_lt hlt)
  have hdelta : deltaId (gray (k+1) ^^^ gray k) = bit := by
    rw [hbit,deltaId_two_pow bit (gray_succ_bit_lt hlt hbit)]
  have hlane (i : Nat) (hi : i < 64) : (initStep weights s (k+1)).lastValue i = subsetSum (rowWeights weights i) 8 (gray (k+1)) ∧
      (initStep weights s (k+1)).mergeWeights i = update (s.mergeWeights i) (gray (k+1))
        ((subsetSum (rowWeights weights i) 8 (gray (k+1))).setWidth 12) := by
    have hloop := lanes_eq weights s.now (gray (k+1)) 64 { s with now := gray (k+1) } i
    simp only [hi,if_true,h.now_eq,hdelta,h.value_eq i hi] at hloop
    rw [← subsetSum_gray_succ (rowWeights weights i) hlt hbit] at hloop
    rw [initStep,hcode,h.now_eq]
    exact hloop
  refine ⟨?_,fun i hi => (hlane i hi).1,?_,?_⟩
  · rw [initStep,lanes_now]
    exact hcode
  · intro i hi j hj
    rw [(hlane i hi).2]
    by_cases he : gray j = gray (k+1)
    · rw [he,update_self]
    · rw [update_of_ne he]
      refine h.visited i hi j (Nat.lt_succ_iff.mp (Nat.lt_of_le_of_ne hj ?_))
      rintro rfl
      exact he rfl
  · intro i hi b hb
    rw [(hlane i hi).2,update_of_ne (by omega),h.upper i hi b hb]

private theorem initLoop_invariant (table : Nat → Nat → BitVec 12) {k}
    (hk : k ≤ 127) : WalkInvariant weights table k (initLoop weights table k) := by
  induction k with
  | zero =>
    refine ⟨rfl,?_,?_,?_⟩
    · intro i _
      simp [initLoop]
    · intro i hi j hj
      obtain rfl : j = 0 := Nat.le_zero.mp hj
      simp [initLoop,hi]
    · intro i hi b hb
      simp [initLoop,hi,update_of_ne (show b ≠ 0 by omega)]
  | succ k ih =>
    rw [initLoop,foldl_from_one_succ,← initLoop]
    exact initStep_invariant (by omega) (ih (by omega))

/-- What the hardware adds for byte `i`: codes with the top bit are never
filled, and the accumulator has eight bits. -/
def nicByte (weights : Nat → BitVec 8) (i : Nat) (b : BitVec 8) : Nat :=
  if b.getLsbD 7 then 0 else byteWeight weights i b % 256

theorem nicByte_le (i : Nat) (b : BitVec 8) : nicByte weights i b ≤ 255 := by
  rw [nicByte]
  split
  · omega
  · exact Nat.lt_succ_iff.mp (Nat.mod_lt _ (by decide))

private theorem getLsbD_seven_iff (b : BitVec 8) : b.getLsbD 7 = true ↔ 128 ≤ b.toNat := by
  have hlt := b.isLt
  rw [← testBit_toNat,Nat.testBit_eq_decide_div_mod_eq,decide_eq_true_iff]
  omega

private theorem subsetSum_toNat (i : Nat) (b : Nat) : (subsetSum (rowWeights weights i) 8 b).toNat =
      subsetSum (fun j => (weights (i*8+j)).toNat) 8 b % 256 := by
  have hmap := map_subsetSum (Nat.castAddMonoidHom (BitVec 8)) (fun j => (weights (i*8+j)).toNat) 8 b
  simp only [Nat.coe_castAddMonoidHom,natCast_eq_ofNat,ofNat_toNat,setWidth_eq] at hmap
  have hnat := congrArg BitVec.toNat hmap
  rw [toNat_ofNat] at hnat
  exact hnat.symm

/-- The entries of the table after `init_weight`, given that the half it never
writes was zero. -/
theorem initWeight_entry {table} (hzero : ∀ i < 64, ∀ b ≥ 128, table i b = 0) {i} (hi : i < 64) (b : BitVec 8) :
    (initWeight weights table i b.toNat).toNat = nicByte weights i b := by
  have hinv := initLoop_invariant weights table (Nat.le_refl 127)
  rw [nicByte]
  split
  · rename_i htop
    have hge := (getLsbD_seven_iff b).mp htop
    rw [initWeight,hinv.upper i hi _ hge,hzero i hi _ hge]
    rfl
  · rename_i htop
    have hlt : b.toNat < 2^7 := by
      rw [getLsbD_seven_iff] at htop
      omega
    have hcode : gray (ungray 7 b.toNat) = b.toNat := gray_ungray hlt
    have hentry := hinv.visited i hi (ungray 7 b.toNat) (by have := ungray_lt hlt; omega)
    rw [hcode] at hentry
    rw [initWeight,hentry,toNat_setWidth,subsetSum_toNat,byteWeight]
    exact Nat.mod_eq_of_lt (by omega)

/-- The tables the hardware can hold: the zeroed static, then any loads. -/
def loadedTable (loads : List (Nat → BitVec 8)) : Nat → Nat → BitVec 12 :=
  loads.foldl (fun table weights => initWeight weights table) (fun _ _ => 0)

theorem loadedTable_upper : ∀ i < 64, ∀ b ≥ 128, loadedTable loads i b = 0 := by
  induction loads using List.reverseRecOn with
  | nil => exact fun _ _ _ _ => rfl
  | append_singleton loads weights ih =>
    intro i hi b hb
    have hinv := initLoop_invariant weights (loadedTable loads) (Nat.le_refl 127)
    have hstep : loadedTable (loads ++ [weights]) = initWeight weights (loadedTable loads) := by
      simp only [loadedTable,foldl_append,foldl_cons,foldl_nil]
    rw [hstep,initWeight,hinv.upper i hi b hb,ih i hi b hb]

private theorem initLoop_beyond (table : Nat → Nat → BitVec 12) (k : Nat) {i}
    (hi : 64 ≤ i) : (initLoop weights table k).mergeWeights i = table i := by
  have hlt : ¬ i < 64 := by omega
  induction k with
  | zero => simp [initLoop,hlt]
  | succ k ih =>
    rw [initLoop,foldl_from_one_succ,← initLoop,initStep,(lanes_eq weights _ _ 64 _ i).2,if_neg hlt]
    exact ih

private theorem loadedTable_beyond {i} (hi : 64 ≤ i) : loadedTable loads i = fun _ => 0 := by
  induction loads using List.reverseRecOn with
  | nil => rfl
  | append_singleton loads weights ih =>
    rw [loadedTable,foldl_append,foldl_cons,foldl_nil,← loadedTable,initWeight,initLoop_beyond _ _ _ hi,ih]

/-- A load leaves nothing of the tables loaded before it. -/
theorem initWeight_loadedTable : initWeight weights (loadedTable loads) = initWeight weights (fun _ _ => 0) := by
  have hinv := initLoop_invariant weights (loadedTable loads) (Nat.le_refl 127)
  have hfresh := initLoop_invariant weights (fun _ _ => 0) (Nat.le_refl 127)
  funext i
  by_cases hi : i < 64
  · funext b
    by_cases hb : b < 2^7
    · have hcode : gray (ungray 7 b) = b := gray_ungray hb
      have hvisit : ungray 7 b ≤ 127 := Nat.lt_succ_iff.mp (ungray_lt hb)
      have hentry := hinv.visited i hi _ hvisit
      rw [← hfresh.visited i hi _ hvisit,hcode] at hentry
      exact hentry
    · rw [initWeight,initWeight,hinv.upper i hi b (by omega),hfresh.upper i hi b (by omega),loadedTable_upper loads i hi b (by omega)]
  · rw [initWeight,initWeight,initLoop_beyond _ _ _ (by omega),initLoop_beyond _ _ _ (by omega),loadedTable_beyond loads (by omega)]

/-- Byte `i` of a feature vector, as `range(8*i+7, 8*i)` and as `memcpy` see it. -/
def bytesOf (v : BitVec 512) (i : Nat) : BitVec 8 := v.extractLsb' (8*i) 8

theorem bytesOf_and (v w : BitVec 512) (i : Nat) : bytesOf (v &&& w) i = bytesOf v i &&& bytesOf w i := by
  rw [bytesOf,extractLsb'_and]
  rfl

def nicScore (weights : Nat → BitVec 8) (request bitmap : BitVec 512) : Nat :=
  ∑ i ∈ Finset.range 64, nicByte weights i (bytesOf request i &&& bytesOf bitmap i)

theorem nicScore_le (request bitmap : BitVec 512) : nicScore weights request bitmap ≤ 16320 := by
  have hle := Finset.sum_le_card_nsmul (Finset.range 64)
    (fun i => nicByte weights i (bytesOf request i &&& bytesOf bitmap i)) 255
    (fun i _ => nicByte_le weights i _)
  simpa [nicScore] using hle

private theorem ansmap_toNat (request bitmap : BitVec 512) {n} (hn : n ≤ 64) :
    (ansmap (initWeight weights (loadedTable loads)) (request &&& bitmap) n).toNat =
      ∑ i ∈ Finset.range n, nicByte weights i (bytesOf request i &&& bytesOf bitmap i) := by
  induction n with
  | zero => rfl
  | succ n ih =>
    have hbound := Finset.sum_le_card_nsmul (Finset.range (n+1))
      (fun i => nicByte weights i (bytesOf request i &&& bytesOf bitmap i)) 255
      (fun i _ => nicByte_le weights i _)
    have hentry := initWeight_entry weights (loadedTable_upper loads) (show n < 64 by omega)
      (bytesOf (request &&& bitmap) n)
    have hsmall := nicByte_le weights n (bytesOf (request &&& bitmap) n)
    rw [Finset.card_range,nsmul_eq_mul,Nat.cast_id] at hbound
    have hstep : ansmap (initWeight weights (loadedTable loads)) (request &&& bitmap) (n+1) =
        ansmap (initWeight weights (loadedTable loads)) (request &&& bitmap) n +
          (initWeight weights (loadedTable loads) n (bytesOf (request &&& bitmap) n).toNat).setWidth 16 := by
      simp [ansmap,range_succ,bytesOf]
    rw [hstep,toNat_add,toNat_setWidth,ih (by omega),hentry,
      Nat.mod_eq_of_lt (show nicByte weights n (bytesOf (request &&& bitmap) n) < 2^16 by omega),
      bytesOf_and,← Finset.sum_range_succ]
    exact Nat.mod_eq_of_lt (by omega)

private theorem cores_eq (coreNum : Nat) : (range 22).takeWhile (· < coreNum) = range (min 22 coreNum) := by
  by_cases h : 22 ≤ coreNum
  · rw [Nat.min_eq_left h,takeWhile_eq_self_iff]
    intro c hc
    have := mem_range.mp hc
    exact decide_eq_true (by omega)
  · have hsmall : ∀ n < 22, (range 22).takeWhile (· < n) = range n := by decide
    rw [hsmall coreNum (by omega),Nat.min_eq_right (by omega)]

private theorem coreSteps_eq_scan (bitClusters : Nat → BitVec 512) (hint : Nat) (request : BitVec 512) (n : Nat) :
    let best := scan (fun c => nicScore weights request (bitClusters c)) n hint
    (List.range n).foldl (coreStep (initWeight weights (loadedTable loads)) bitClusters request)
      ⟨hint,0⟩ = ⟨best.2,BitVec.ofNat 16 best.1⟩ := by
  induction n with
  | zero => rfl
  | succ n ih =>
    have hbest := scan_score_le (fun c => nicScore weights request (bitClusters c)) n hint
      16320 (fun c _ => nicScore_le weights request (bitClusters c))
    have hscore := nicScore_le weights request (bitClusters n)
    have hsum := ansmap_toNat weights loads request (bitClusters n) (Nat.le_refl 64)
    rw [range_succ,foldl_append,ih,scan_succ]
    simp only [foldl_cons,foldl_nil,coreStep,improve]
    set best := scan (fun c => nicScore weights request (bitClusters c)) n hint
    rw [← nicScore] at hsum
    have hcompare : ansmap (initWeight weights (loadedTable loads)) (request &&& bitClusters n) 64 >
        BitVec.ofNat 16 best.1 ↔ best.1 < nicScore weights request (bitClusters n) := by
      rw [gt_iff_lt,lt_def,toNat_ofNat,Nat.mod_eq_of_lt (by omega),hsum]
    by_cases h : best.1 < nicScore weights request (bitClusters n)
    · rw [if_pos (hcompare.mpr h),if_pos h,← hsum,ofNat_toNat,setWidth_eq]
    · rw [if_neg (fun hc => h (hcompare.mp hc)),if_neg h]

/-- The choice of `core_id_func` is the scan of the hardware's scores over the
cores below both 22 and `CORE_NUM`. -/
theorem coreIdFunc_eq_scan (coreNum : Nat) (weights : Nat → BitVec 8) (loads : List (Nat → BitVec 8))
    (bitClusters : Nat → BitVec 512) (hint : Nat) (request : BitVec 512) :
    coreIdFunc coreNum (initWeight weights (loadedTable loads)) bitClusters hint request =
      (scan (fun c => nicScore weights request (bitClusters c)) (min 22 coreNum) hint).2 := by
  rw [coreIdFunc,cores_eq,coreSteps_eq_scan]

/-- The index is a core below `CORE_NUM` whenever the hint is, on any tables. -/
theorem coreIdFunc_lt {coreNum hint} (h : hint < coreNum)
    (mergeWeights : Nat → Nat → BitVec 12) (bitClusters : Nat → BitVec 512) (request : BitVec 512) :
    coreIdFunc coreNum mergeWeights bitClusters hint request < coreNum := by
  have hfold (n : Nat) (hn : n ≤ coreNum) : ((range n).foldl (coreStep mergeWeights bitClusters request) ⟨hint,0⟩).index < coreNum := by
    induction n with
    | zero => exact h
    | succ n ih =>
      rw [range_succ,foldl_append,foldl_cons,foldl_nil,coreStep]
      split
      · exact hn
      · exact ih (by omega)
  rw [coreIdFunc,cores_eq]
  exact hfold _ (Nat.min_le_right _ _)

end AlNiCo.Placement.Nic
