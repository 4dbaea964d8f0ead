import AlNiCo.Library.GrayWalk
import AlNiCo.Library.FirstMaximum
import Mathlib.Data.BitVec
import Mathlib.Algebra.Order.BigOperators.Group.Finset

/-! The CPU placement of `central_scheduler_t`: the table merged by
`update_weights` and the choice made by `get_core_id`. Arrays are total
functions of their index; only indices inside the source's bounds are read. -/
namespace AlNiCo.Placement
open Library.GrayWalk Library.FirstMaximum Function List BitVec

/-- The `switch (delta_bit)` of both placements: the position of a single set
bit, and zero where no case applies. -/
def deltaId (deltaBit : Nat) : Nat :=
  if deltaBit = 1 then 0 else if deltaBit = 2 then 1 else if deltaBit = 4 then 2
  else if deltaBit = 8 then 3 else if deltaBit = 16 then 4 else if deltaBit = 32 then 5
  else if deltaBit = 64 then 6 else if deltaBit = 128 then 7 else 0

theorem deltaId_two_pow : ∀ i < 8, deltaId (2^i) = i := by decide

def hasFeature (v : Nat → BitVec 8) (f : Nat) : Bool := (v (f / 8)).getLsbD (f % 8)

def rowWeights (weights : Nat → BitVec 8) (i j : Nat) : BitVec 8 := weights (i*8+j)

def byteWeight (weights : Nat → BitVec 8) (i : Nat) (b : BitVec 8) : Nat :=
  subsetSum (fun j => (weights (i*8+j)).toNat) 8 b.toNat

/-- The weight of the features shared by a request and a core's bitmap, which
the placement is meant to maximise. -/
def sharedWeight (weights : Nat → BitVec 8) (request bitmap : Nat → BitVec 8) : Nat :=
  ∑ f ∈ Finset.range 512, if hasFeature request f && hasFeature bitmap f then (weights f).toNat else 0

variable (weights : Nat → BitVec 8) (table : Nat → Nat → BitVec 32) (request : Nat → BitVec 8) (i : Nat)
  (row : Nat → BitVec 32) (b : BitVec 8) (bitmap : Nat → BitVec 8) (n : Nat)

theorem byteWeight_le : byteWeight weights i b ≤ 2040 := by
  have hle : ∀ j ∈ Finset.range 8,(if b.toNat.testBit j then (weights (i*8+j)).toNat else 0) ≤ 255 := by
    intro j _
    split
    · have := (weights (i*8+j)).isLt
      omega
    · omega
  simpa [byteWeight,subsetSum] using Finset.sum_le_sum hle

private theorem sum_range_mul (f : Nat → Nat) (n m : Nat) :
    ∑ k ∈ Finset.range (n*m), f k = ∑ i ∈ Finset.range n, ∑ j ∈ Finset.range m, f (i*m+j) := by
  induction n with
  | zero => simp
  | succ n ih => rw [Nat.succ_mul,Finset.sum_range_add,ih,Finset.sum_range_succ]

/-- The 512 features summed byte by byte, as both table lookups do. -/
theorem sharedWeight_eq_bytes : sharedWeight weights request bitmap =
      ∑ i ∈ Finset.range 64, byteWeight weights i (request i &&& bitmap i) := by
  rw [sharedWeight,show 512 = 64*8 from rfl,sum_range_mul]
  refine Finset.sum_congr rfl (fun i _ => ?_)
  rw [byteWeight,subsetSum]
  refine Finset.sum_congr rfl (fun j hj => ?_)
  have hj : j < 8 := Finset.mem_range.mp hj
  have hdiv : (i*8+j) / 8 = i := by omega
  have hmod : (i*8+j) % 8 = j := by omega
  simp only [hasFeature,hdiv,hmod,testBit_toNat,getLsbD_and]

namespace Host

/-- Body of the inner loop of `update_weights` on `now` and the row. -/
def mergeStep (weights : Nat → BitVec 8) (s : Nat × (Nat → BitVec 32)) (j : Nat) :
    Nat × (Nat → BitVec 32) :=
  let last := s.1
  let now := (j ^^^ (j >>> 1)) % 256
  let weight := (weights (deltaId (now ^^^ last))).setWidth 32
  (now,update s.2 now (if now > last then s.2 last + weight else s.2 last - weight))

/-- The first `k` iterations of the inner loop, from `merge_weights[i][0] = 0`. -/
def mergeLoop (weights : Nat → BitVec 8) (row : Nat → BitVec 32) (k : Nat) :
    Nat × (Nat → BitVec 32) :=
  (List.range' 1 k).foldl (mergeStep weights) (0,update row 0 0)

def updateRows (weights : Nat → BitVec 8) (mergeWeights : Nat → Nat → BitVec 32) (n : Nat) :
    Nat → Nat → BitVec 32 :=
  (List.range n).foldl (fun table i =>
    update table i (mergeLoop (rowWeights weights i) (table i) 255).2) mergeWeights

def updateWeights (weights : Nat → BitVec 8) (mergeWeights : Nat → Nat → BitVec 32) :
    Nat → Nat → BitVec 32 :=
  updateRows weights mergeWeights 64

/-- `tmp_ans` of `get_core_id` after the first `n` bytes. -/
def coreSum (mergeWeights : Nat → Nat → BitVec 32) (oldFeature cByteFeature : Nat → BitVec 8)
    (n : Nat) : BitVec 32 :=
  (List.range n).foldl (fun tmpAns i =>
    tmpAns + mergeWeights i (oldFeature i &&& cByteFeature i).toNat) 0

/-- One core of `get_core_id`; the pair is `ans`, compared as signed integers. -/
def chooseStep (mergeWeights : Nat → Nat → BitVec 32) (oldFeature : Nat → BitVec 8)
    (cByteFeature : Nat → Nat → BitVec 8) (ans : BitVec 32 × BitVec 32) (t : Nat) :
    BitVec 32 × BitVec 32 :=
  let tmpAns := coreSum mergeWeights oldFeature (cByteFeature t) 64
  if ans.1.slt tmpAns then (tmpAns,BitVec.ofNat 32 t) else ans

/-- `central_scheduler_t::get_core_id`, which returns a `uint16_t`. -/
def getCoreId (maxThread : Nat) (mergeWeights : Nat → Nat → BitVec 32)
    (oldFeature : Nat → BitVec 8) (cByteFeature : Nat → Nat → BitVec 8) (defaultId : BitVec 32) :
    BitVec 16 :=
  ((List.range maxThread).foldl (chooseStep mergeWeights oldFeature cByteFeature)
    (0,defaultId)).2.setWidth 16

theorem getCoreId_lt {maxThread} (hmax : maxThread ≤ 65536) (mergeWeights : Nat → Nat → BitVec 32)
    (oldFeature : Nat → BitVec 8) (cByteFeature : Nat → Nat → BitVec 8) {defaultId}
    (hdefault : defaultId.toNat < maxThread) :
    (getCoreId maxThread mergeWeights oldFeature cByteFeature defaultId).toNat < maxThread := by
  have hfold (n : Nat) (hn : n ≤ maxThread) :
      ((List.range n).foldl (chooseStep mergeWeights oldFeature cByteFeature) (0,defaultId)).2.toNat < maxThread := by
    induction n with
    | zero => exact hdefault
    | succ n ih =>
      rw [range_succ,foldl_append,foldl_cons,foldl_nil,chooseStep]
      split
      · rw [toNat_ofNat,Nat.mod_eq_of_lt (by omega)]
        exact hn
      · exact ih (by omega)
  have hlt := hfold maxThread (Nat.le_refl _)
  rw [getCoreId,toNat_setWidth,Nat.mod_eq_of_lt (by omega)]
  exact hlt

def rowSum (weights : Nat → BitVec 8) (b : Nat) : BitVec 32 :=
  subsetSum (fun j => (weights j).setWidth 32) 8 b

/-- After `k` iterations `now` is the `k`-th code and every code visited so far
holds the sum of its bits' weights. -/
private theorem mergeLoop_spec {k} (hk : k ≤ 255) : (mergeLoop weights row k).1 = gray k ∧
      ∀ j ≤ k, (mergeLoop weights row k).2 (gray j) = rowSum weights (gray j) := by
  induction k with
  | zero =>
    refine ⟨rfl,?_⟩
    intro j hj
    obtain rfl : j = 0 := Nat.le_zero.mp hj
    simp [mergeLoop,rowSum]
  | succ k ih =>
    obtain ⟨hnow,hrow⟩ := ih (by omega)
    have hlt : k+1 < 2^8 := by omega
    obtain ⟨i,hi⟩ := gray_succ_xor k
    have hi8 : i < 8 := gray_succ_bit_lt hlt hi
    have hcode : ((k+1) ^^^ ((k+1) >>> 1)) % 256 = gray (k+1) := Nat.mod_eq_of_lt (gray_lt hlt)
    have hvalue : (mergeStep weights (mergeLoop weights row k) (k+1)).2 =
        update (mergeLoop weights row k).2 (gray (k+1)) (rowSum weights (gray (k+1))) := by
      rw [mergeStep,hcode,hnow,hi,deltaId_two_pow i hi8,hrow k (Nat.le_refl k),rowSum,rowSum,subsetSum_gray_succ _ hlt hi]
    rw [mergeLoop,foldl_from_one_succ,← mergeLoop]
    refine ⟨hcode,?_⟩
    intro j hj
    rw [hvalue]
    by_cases he : gray j = gray (k+1)
    · rw [he,update_self]
    · rw [update_of_ne he]
      refine hrow j (Nat.lt_succ_iff.mp (Nat.lt_of_le_of_ne hj ?_))
      rintro rfl
      exact he rfl

theorem rowSum_toNat : (rowSum (rowWeights weights i) b.toNat).toNat = byteWeight weights i b := by
  have hcast : rowSum (rowWeights weights i) b.toNat = BitVec.ofNat 32 (byteWeight weights i b) := by
    have hmap := map_subsetSum (Nat.castAddMonoidHom (BitVec 32))
      (fun j => (weights (i*8+j)).toNat) 8 b.toNat
    simp only [Nat.coe_castAddMonoidHom,natCast_eq_ofNat] at hmap
    rw [byteWeight,hmap,rowSum,subsetSum,subsetSum]
    refine Finset.sum_congr rfl (fun j _ => ?_)
    simp [rowWeights,ofNat_toNat]
  have hle := byteWeight_le weights i b
  rw [hcast,toNat_ofNat,Nat.mod_eq_of_lt (by omega)]

/-- The addition or subtraction of iteration `j` stays inside 32 bits. -/
def StepFits (weights : Nat → BitVec 8) (s : Nat × (Nat → BitVec 32)) (j : Nat) : Prop :=
  let last := s.1
  let now := (j ^^^ (j >>> 1)) % 256
  let weight := (weights (deltaId (now ^^^ last))).toNat
  if now > last then (s.2 last).toNat + weight < 2^32 else weight ≤ (s.2 last).toNat

/-- Every subtraction of the walk removes a weight that the entry contains. -/
theorem mergeLoop_fits {k} (hk : k < 255) : StepFits (rowWeights weights i) (mergeLoop (rowWeights weights i) row k) (k+1) := by
  obtain ⟨hnow,hrow⟩ := mergeLoop_spec (rowWeights weights i) row (show k ≤ 255 by omega)
  have hlt : k+1 < 2^8 := by omega
  obtain ⟨bit,hbit⟩ := gray_succ_xor k
  have hcode : ((k+1) ^^^ ((k+1) >>> 1)) % 256 = gray (k+1) := Nat.mod_eq_of_lt (gray_lt hlt)
  have hlast : (BitVec.ofNat 8 (gray k)).toNat = gray k := by
    rw [toNat_ofNat,Nat.mod_eq_of_lt (gray_lt (by omega))]
  have hentry : (rowSum (rowWeights weights i) (gray k)).toNat = byteWeight weights i (BitVec.ofNat 8 (gray k)) := by
    rw [← rowSum_toNat,hlast]
  rw [StepFits,hcode,hnow,hbit,deltaId_two_pow bit (gray_succ_bit_lt hlt hbit),hrow k (Nat.le_refl k),hentry]
  split
  · have hle := byteWeight_le weights i (BitVec.ofNat 8 (gray k))
    have hweight := (rowWeights weights i bit).isLt
    omega
  · rename_i hge
    rw [byteWeight,hlast,subsetSum_gray_shrink _ hlt hbit hge]
    exact Nat.le_add_left _ _

/-- One pass leaves the sum of its bits' weights at every code of the row. -/
theorem mergeLoop_row {b} (hb : b < 256) : (mergeLoop weights row 255).2 b = rowSum weights b := by
  have hlt : ungray 8 b < 2^8 := ungray_lt hb
  have hrow := (mergeLoop_spec weights row (Nat.le_refl 255)).2 (ungray 8 b) (by omega)
  rwa [gray_ungray hb] at hrow

private theorem updateRows_succ : updateRows weights table (n+1) = update (updateRows weights table n) n
      (mergeLoop (rowWeights weights n) (updateRows weights table n n) 255).2 := by
  simp [updateRows,range_succ]

/-- Every entry of the finished table is the weight of its byte. -/
theorem updateRows_entry {n i} (hi : i < n) (b : BitVec 8) : (updateRows weights table n i b.toNat).toNat = byteWeight weights i b := by
  induction n with
  | zero => omega
  | succ n ih =>
    rw [updateRows_succ]
    by_cases h : i = n
    · subst h
      rw [update_self,mergeLoop_row _ _ b.isLt,rowSum_toNat]
    · rw [update_of_ne h]
      exact ih (by omega)

/-- The weight over the first `n` bytes, as far as the inner loop has come. -/
def partialWeight (weights : Nat → BitVec 8) (request bitmap : Nat → BitVec 8) (n : Nat) : Nat :=
  ∑ i ∈ Finset.range n, byteWeight weights i (request i &&& bitmap i)

theorem partialWeight_le : partialWeight weights request bitmap n ≤ 2040*n := by
  have hle := Finset.sum_le_card_nsmul (Finset.range n)
    (fun i => byteWeight weights i (request i &&& bitmap i)) 2040 (fun i _ => byteWeight_le weights i _)
  simpa [partialWeight,Nat.mul_comm] using hle

private theorem coreSum_succ : coreSum table request bitmap (n+1) =
      coreSum table request bitmap n + table n (request n &&& bitmap n).toNat := by
  simp [coreSum,range_succ]

/-- No core sum wraps: `tmp_ans` is the exact weight of the bytes it has seen. -/
theorem coreSum_toNat {n} (hn : n ≤ 64) : (coreSum (updateWeights weights table) request bitmap n).toNat =
      partialWeight weights request bitmap n := by
  induction n with
  | zero => rfl
  | succ n ih =>
    have hle := partialWeight_le weights request bitmap (n+1)
    have hentry := updateRows_entry weights table (show n < 64 by omega) (request n &&& bitmap n)
    have hsucc : partialWeight weights request bitmap (n+1) = partialWeight weights request bitmap n +
        byteWeight weights n (request n &&& bitmap n) := Finset.sum_range_succ _ n
    rw [coreSum_succ,toNat_add,ih (by omega),updateWeights,hentry,← hsucc]
    exact Nat.mod_eq_of_lt (by omega)

private theorem coreSum_all : (coreSum (updateWeights weights table) request bitmap 64).toNat = sharedWeight weights request bitmap := by
  rw [coreSum_toNat weights table request bitmap (Nat.le_refl 64),sharedWeight_eq_bytes]
  rfl

theorem sharedWeight_le : sharedWeight weights request bitmap ≤ 130560 := by
  rw [sharedWeight_eq_bytes]
  exact partialWeight_le weights request bitmap 64

/-- The loop over the cores carries the abstract scan in 32-bit words. -/
private theorem choose_eq_scan (bitmaps : Nat → Nat → BitVec 8) (defaultId : BitVec 32) (n : Nat) :
    let best := scan (fun t => sharedWeight weights request (bitmaps t)) n defaultId.toNat
    (List.range n).foldl (chooseStep (updateWeights weights table) request bitmaps) (0,defaultId) =
      (BitVec.ofNat 32 best.1,BitVec.ofNat 32 best.2) := by
  induction n with
  | zero => simp [scan]
  | succ n ih =>
    have hbest := scan_score_le (fun t => sharedWeight weights request (bitmaps t)) n defaultId.toNat
      130560 (fun t _ => sharedWeight_le weights request (bitmaps t))
    have hscore := sharedWeight_le weights request (bitmaps n)
    have hsum := coreSum_all weights table request (bitmaps n)
    rw [range_succ,foldl_append,ih,scan_succ]
    simp only [foldl_cons,foldl_nil,chooseStep,improve]
    set best := scan (fun t => sharedWeight weights request (bitmaps t)) n defaultId.toNat
    have hcompare : (BitVec.ofNat 32 best.1).slt
        (coreSum (updateWeights weights table) request (bitmaps n) 64) = true ↔ best.1 < sharedWeight weights request (bitmaps n) := by
      have hnow : (BitVec.ofNat 32 best.1).toNat = best.1 := by
        rw [toNat_ofNat,Nat.mod_eq_of_lt (by omega)]
      rw [slt_iff_toInt_lt,toInt_eq_toNat_of_lt (by omega),toInt_eq_toNat_of_lt (by omega),hnow,hsum,Int.ofNat_lt]
    by_cases h : best.1 < sharedWeight weights request (bitmaps n)
    · rw [if_pos (hcompare.mpr h),if_pos h,← hsum,ofNat_toNat,setWidth_eq]
    · rw [if_neg (fun hc => h (hcompare.mp hc)),if_neg h]

/-- The choice of `get_core_id` on a merged table. -/
theorem getCoreId_chosen {maxThread} (hmax : maxThread ≤ 2^16) (request : Nat → BitVec 8) (bitmaps : Nat → Nat → BitVec 8)
    (defaultId : BitVec 32) :
    Chosen (fun t => sharedWeight weights request (bitmaps t)) maxThread (defaultId.toNat % 2^16)
      (getCoreId maxThread (updateWeights weights table) request bitmaps defaultId).toNat := by
  set score := fun t => sharedWeight weights request (bitmaps t)
  have hresult : (getCoreId maxThread (updateWeights weights table) request bitmaps defaultId).toNat =
      (scan score maxThread defaultId.toNat).2 % 2^16 := by
    rw [getCoreId,choose_eq_scan,toNat_setWidth,toNat_ofNat]
    exact Nat.mod_mod_of_dvd _ (by decide)
  rw [hresult]
  rcases scan_chosen score maxThread defaultId.toNat with hfirst | ⟨hzero,hdefault⟩
  · rw [Nat.mod_eq_of_lt (Nat.lt_of_lt_of_le hfirst.lt hmax)]
    exact .inl hfirst
  · exact .inr ⟨hzero,by rw [hdefault]⟩

/-- The CPU placement: the first core of the largest positive shared weight, or
the default id as `uint16_t` carries it, with no wrap in the table or the sums. -/
theorem cpu_placement_chosen (weights : Nat → BitVec 8) (table : Nat → Nat → BitVec 32)
    {maxThread : Nat} (hmax : maxThread ≤ 2^16) (request : Nat → BitVec 8)
    (bitmaps : Nat → Nat → BitVec 8) (defaultId : BitVec 32) :
    Chosen (fun t => sharedWeight weights request (bitmaps t)) maxThread (defaultId.toNat % 2^16)
      (getCoreId maxThread (updateWeights weights table) request bitmaps defaultId).toNat ∧
    (∀ i < 64, ∀ k < 255, StepFits (rowWeights weights i)
      (mergeLoop (rowWeights weights i) (updateRows weights table i i) k) (k+1)) ∧
    (∀ t, ∀ n < 64, (coreSum (updateWeights weights table) request (bitmaps t) n).toNat +
      (updateWeights weights table n (request n &&& bitmaps t n).toNat).toNat < 2^31) := by
  refine ⟨getCoreId_chosen weights table hmax request bitmaps defaultId,?_,?_⟩
  · intro i _ k hk
    exact mergeLoop_fits weights i _ hk
  · intro t n hn
    have hle := partialWeight_le weights request (bitmaps t) n
    have hbyte := byteWeight_le weights n (request n &&& bitmaps t n)
    rw [coreSum_toNat weights table request (bitmaps t) (by omega),updateWeights,
      updateRows_entry weights table hn]
    omega

theorem cpu_placement_chosen_second_core :
    Chosen (fun t => sharedWeight (fun _ => 3) (fun i => if i = 0 then 1 else 0)
        (fun i => if i = 0 ∧ t = 1 then 1 else 0)) 2 0
      (getCoreId 2 (updateWeights (fun _ => 3) (fun _ _ => 0)) (fun i => if i = 0 then 1 else 0)
        (fun t i => if i = 0 ∧ t = 1 then 1 else 0) 0).toNat :=
  (cpu_placement_chosen (fun _ => 3) (fun _ _ => 0) (by decide) (fun i => if i = 0 then 1 else 0)
    (fun t i => if i = 0 ∧ t = 1 then 1 else 0) 0).1

/-- A default id of 65536 comes back as core 0 although every sum is zero: the
result is a `uint16_t`. -/
theorem default_id_truncated :
    sharedWeight (fun _ => 0) (fun _ => 0) (fun _ => 0) = 0 ∧
    (getCoreId 1 (updateWeights (fun _ => 0) (fun _ _ => 0)) (fun _ => 0) (fun _ _ => 0) 65536).toNat = 0 ∧
    (getCoreId 1 (updateWeights (fun _ => 0) (fun _ _ => 0)) (fun _ => 0) (fun _ _ => 0) 65536).toNat ≠
      (65536 : BitVec 32).toNat := by
  have hzero : sharedWeight (fun _ => 0) (fun _ => 0) (fun _ => 0) = 0 := by simp [sharedWeight]
  have hresult : (getCoreId 1 (updateWeights (fun _ => 0) (fun _ _ => 0)) (fun _ => 0)
      (fun _ _ => 0) 65536).toNat = 0 := by
    rcases getCoreId_chosen (fun _ => 0) (fun _ _ => 0) (show 1 ≤ 2^16 by decide)
      (fun _ => 0) (fun _ _ => 0) 65536 with hfirst | ⟨_,hdefault⟩
    · exact absurd hfirst.pos (Nat.not_lt.mpr hzero.le)
    · simpa using hdefault
  refine ⟨hzero,hresult,?_⟩
  rw [hresult]
  decide

end Host
end AlNiCo.Placement
