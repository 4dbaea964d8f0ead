import AlNiCo.Client.Procedures
import AlNiCo.Library.Ranking

/-! `merge_weights`: the weights of the features summed over the threads, the walk over the
tables that finds the hottest one, and the guideline cores of its features. Weights are
exact rationals. -/
namespace AlNiCo.ModelUpdate
open Function List

structure FeaturePartition where
  offset : Nat → Nat
  size : Nat → Nat

section

/-- The table of the server (fpga.h), next to that of the client. -/
def featureSize512base : List Nat := [10,20,110,10,10,10,10,115,177,10,10,20,0,0,0]

private def base (i : Nat) : Nat := featureSize512base.getD i 0

def initFeaturePartition : FeaturePartition :=
  (List.range' 1 11).foldl
    (fun p i => ⟨update p.offset i (p.offset (i-1)+base (i-1)),update p.size i (base i)⟩)
    ⟨fun _ => 0,update (fun _ => 0) 0 (base 0)⟩

def initFeaturePartitionycsb : FeaturePartition :=
  (List.range' 1 11).foldl (fun p i => ⟨update p.offset i 512,update p.size i 0⟩)
    ⟨fun _ => 0,update (fun _ => 0) 0 512⟩

/-- `hash_k2f` of the server reads the partition. -/
def FeaturePartition.hashK2f (p : FeaturePartition) (key : Client.TxKey) : Nat :=
  p.offset key.first.toNat+key.second.toNat % p.size key.first.toNat

end

/-- The build: with `YCSBplusT` or without. -/
inductive Workload
  | tpcc
  | ycsb
  deriving DecidableEq

namespace Workload

def partition : Workload → FeaturePartition
  | .tpcc => initFeaturePartition
  | .ycsb => initFeaturePartitionycsb

def share (maxThread : Nat) (count : BitVec 16) : Workload → ℚ
  | .tpcc => 1/5*count.toNat/maxThread
  | .ycsb => (count.toNat/maxThread : Nat)

/-- The quotient that is stored as the weight of a feature, if it is defined. -/
def quotient (weight maxDouble : ℚ) : Workload → Option ℚ
  | .tpcc => if maxDouble = 0 then none else some (weight/maxDouble/200*255+1/10)
  | .ycsb => if maxDouble = 0 then none else some (weight/maxDouble/512)

/-- The weight of the feature assigned in turn `i` is this number less `i`. -/
def top : Workload → Int
  | .tpcc => 90
  | .ycsb => 50

end Workload

/-- The conversion of a `double` to `uint8_t`, which is defined for values that fit. -/
def toUint8 (x : ℚ) : Option (BitVec 8) :=
  let n := if 0 ≤ x then ⌊x⌋ else ⌈x⌉
  if 0 ≤ n ∧ n < 256 then some (BitVec.ofInt 8 n) else none

def weightDouble (L : Workload) (maxThread : Nat) (coreWeights : Nat → Nat → BitVec 16) (j : Nat) : ℚ :=
  (List.range maxThread).foldl (fun w i => w+L.share maxThread (coreWeights i j)) 0

/-- The variables of the first loop; `tNext` is `t_id + 1` and no table is `none`. -/
structure Scan where
  tNext : Nat
  hottestTable : ℚ × Option Nat
  nothingCount : Nat
  count : Nat
  maxDouble : ℚ
  tableWeightAvg : Nat → ℚ
  sortedWeights : Nat → ℚ ×ₗ ℕ

namespace Scan

def start : Scan := ⟨0,(1/100000,none),0,0,0,fun _ => 0,fun _ => toLex (0,0)⟩

variable (p : FeaturePartition) (maxThread : Nat) (weight : Nat → ℚ) (j : Nat) (s : Scan)

def enter : Scan :=
  if j = p.offset s.tNext then
    { s with
      tNext := s.tNext+1
      nothingCount := 0
      count := 0
      tableWeightAvg := update s.tableWeightAvg s.tNext 0 }
  else s

def add : Scan :=
  let t := s.tNext-1
  { s with
    nothingCount := if weight j < 1 then s.nothingCount+1 else s.nothingCount
    tableWeightAvg := update s.tableWeightAvg t (s.tableWeightAvg t+weight j)
    sortedWeights := update s.sortedWeights j (toLex (-weight j,j))
    count := s.count+1
    maxDouble := if weight j > s.maxDouble then weight j else s.maxDouble }

/-- The last feature of a table: a table with too few warm features is no candidate. -/
def close : Scan :=
  let t := s.tNext-1
  if s.count = p.size t ∧ s.count ≠ s.nothingCount ∧ s.count-s.nothingCount ≥ maxThread then
    let avg := s.tableWeightAvg t/(s.count-s.nothingCount : Nat)
    { s with
      tableWeightAvg := update s.tableWeightAvg t avg
      hottestTable := if avg > s.hottestTable.1 then (avg,some t) else s.hottestTable }
  else s

def turn (s : Scan) (j : Nat) : Scan := ((s.enter p j).add weight j).close p maxThread

end Scan

def scan (p : FeaturePartition) (maxThread : Nat) (weight : Nat → ℚ) : Scan :=
  (List.range 512).foldl (Scan.turn p maxThread weight) .start

/-- The memory that the FPGA reads; a weight whose conversion is undefined is `none`. -/
structure Published where
  weights : Nat → Option (BitVec 8)
  guidelineGroup : Nat → BitVec 8

/-- The loop that hands out the cores, over the sorted features; it stops behind the last core. -/
def assign (L : Workload) (maxThread : Nat) : List (ℚ ×ₗ ℕ) → Nat → Int → Int → Published → Published
  | [],_,_,_,r => r
  | x :: xs,i,ans,direct,r =>
    let f := (ofLex x).2
    let r : Published :=
      ⟨update r.weights f (some (BitVec.ofInt 8 (L.top-i))),
        update r.guidelineGroup f (BitVec.ofInt 8 ans)⟩
    let ans := ans+direct
    let (ans,direct) := if ans = -1 then (0,1) else (ans,direct)
    if ans = maxThread then r else assign L maxThread xs (i+1) ans direct r

/-- The weights and the empty groups that are written before the guidelines. -/
def normalise (L : Workload) (s : Scan) : Published :=
  ⟨fun j => (L.quotient (-(ofLex (s.sortedWeights j)).1) s.maxDouble).bind toUint8,fun _ => 24+1⟩

def mergeWeights (L : Workload) (maxThread : Nat) (coreWeights : Nat → Nat → BitVec 16) : Published :=
  let s := scan L.partition maxThread (weightDouble L maxThread coreWeights)
  let r := normalise L s
  match s.hottestTable.2 with
  | none => r
  | some t =>
    if L.partition.size t ≥ maxThread then
      let sorted := ((List.range' (L.partition.offset t) (L.partition.size t)).map s.sortedWeights).insertionSort (· ≤ ·)
      assign L maxThread sorted (L.partition.offset t) 0 1 r
    else r

section
variable (p : FeaturePartition) (maxThread : Nat) (weight : Nat → ℚ)

def features (t : Nat) : List Nat := List.range' (p.offset t) (p.size t)

def warm (t : Nat) : Nat := (features p t).countP (1 ≤ weight ·)

def average (t : Nat) : ℚ := ((features p t).map weight).sum/warm p weight t

def Qualifies (t : Nat) : Prop := maxThread ≤ warm p weight t

/-- The choice among the first `n` tables: the first of the greatest average. -/
def Hottest (n : Nat) : ℚ × Option Nat → Prop
  | (x,none) => x = 1/100000 ∧ ∀ t < n, ¬Qualifies p maxThread weight t
  | (x,some t) => t < n ∧ Qualifies p maxThread weight t ∧ x = average p weight t ∧
    (∀ u < n, Qualifies p maxThread weight u → average p weight u ≤ average p weight t) ∧
    ∀ u < t, Qualifies p maxThread weight u → average p weight u < average p weight t

structure Tiles (n : Nat) : Prop where
  offset : ∀ t < n, p.offset t = ((List.range t).map p.size).sum
  size_pos : ∀ t < n, 0 < p.size t
  total : ((List.range n).map p.size).sum = 512
  stop : p.offset n = 0 ∨ 512 ≤ p.offset n

end

theorem tiles_tpcc : Tiles initFeaturePartition 12 := ⟨by decide,by decide,by decide,by decide⟩

theorem tiles_ycsb : Tiles initFeaturePartitionycsb 1 := ⟨by decide,by decide,by decide,by decide⟩

section
variable {p : FeaturePartition} {maxThread : Nat} {weight : Nat → ℚ} {n : Nat} {hottest : ℚ × Option Nat}

theorem Hottest.skip (h : Hottest p maxThread weight n hottest) (hn : ¬Qualifies p maxThread weight n) :
    Hottest p maxThread weight (n+1) hottest := by
  obtain ⟨x,_ | t⟩ := hottest
  · obtain ⟨hx,hnone⟩ := h
    refine ⟨hx,fun u hu => ?_⟩
    obtain hlt | rfl := Nat.lt_succ_iff_lt_or_eq.mp hu
    · exact hnone u hlt
    · exact hn
  · obtain ⟨ht,hq,hx,hle,hfirst⟩ := h
    refine ⟨ht.trans (Nat.lt_succ_self n),hq,hx,fun u hu huq => ?_,hfirst⟩
    obtain hlt | rfl := Nat.lt_succ_iff_lt_or_eq.mp hu
    · exact hle u hlt huq
    · exact absurd huq hn

theorem Hottest.take (h : Hottest p maxThread weight n hottest) (hn : Qualifies p maxThread weight n)
    (hwarm : 1/100000 < average p weight n) : Hottest p maxThread weight (n+1)
      (if average p weight n > hottest.1 then (average p weight n,some n) else hottest) := by
  obtain ⟨x,_ | t⟩ := hottest
  · obtain ⟨rfl,hnone⟩ := h
    rw [if_pos hwarm]
    refine ⟨Nat.lt_succ_self n,hn,rfl,fun u hu huq => ?_,fun u hu huq => absurd huq (hnone u hu)⟩
    obtain hlt | rfl := Nat.lt_succ_iff_lt_or_eq.mp hu
    · exact absurd huq (hnone u hlt)
    · exact le_rfl
  · obtain ⟨ht,hq,rfl,hle,hfirst⟩ := h
    by_cases hgt : average p weight n > average p weight t
    · rw [if_pos hgt]
      refine ⟨Nat.lt_succ_self n,hn,rfl,fun u hu huq => ?_,fun u hu huq => (hle u hu huq).trans_lt hgt⟩
      obtain hlt | rfl := Nat.lt_succ_iff_lt_or_eq.mp hu
      · exact (hle u hlt huq).trans hgt.le
      · exact le_rfl
    · rw [if_neg hgt]
      refine ⟨ht.trans (Nat.lt_succ_self n),hq,rfl,fun u hu huq => ?_,hfirst⟩
      obtain hlt | rfl := Nat.lt_succ_iff_lt_or_eq.mp hu
      · exact hle u hlt huq
      · exact not_lt.mp hgt

/-- A table of enough warm features is far above the starting value. -/
theorem average_ge_one (hweight : ∀ j, 0 ≤ weight j) {t} (hwarm : 0 < warm p weight t) : 1 ≤ average p weight t := by
  have hsum (l : List Nat) : (l.countP (1 ≤ weight ·) : ℚ) ≤ (l.map weight).sum := by
    induction l with
    | nil => simp
    | cons j l ih =>
      rw [countP_cons,map_cons,sum_cons]
      have hj := hweight j
      by_cases h1 : 1 ≤ weight j
      · simp only [h1,decide_true,if_true]
        push_cast
        linarith
      · simp only [h1,decide_false,Bool.false_eq_true,if_false,Nat.add_zero]
        linarith
  rw [average,le_div_iff₀ (by exact_mod_cast hwarm),one_mul]
  exact hsum (features p t)

end

section Walk
variable {p : FeaturePartition} {maxThread : Nat} {weight : Nat → ℚ} {s : Scan} {t k j n : Nat}

structure Inside (p : FeaturePartition) (weight : Nat → ℚ) (t k : Nat) (s : Scan) : Prop where
  next : s.tNext = t+1
  count : s.count = k
  nothing : s.nothingCount = (List.range' (p.offset t) k).countP (weight · < 1)
  sum : s.tableWeightAvg t = ((List.range' (p.offset t) k).map weight).sum

theorem Inside.add (h : Inside p weight t k s) : Inside p weight t (k+1) (s.add weight (p.offset t+k)) := by
  have hrange : range' (p.offset t) (k+1) = range' (p.offset t) k ++ [p.offset t+k] := by
    rw [range'_1_concat]
  refine ⟨h.next,congrArg (·+1) h.count,?_,?_⟩
  · rw [hrange,countP_append,countP_singleton,← h.nothing]
    by_cases hlt : weight (p.offset t+k) < 1 <;> simp [Scan.add,hlt]
  · rw [hrange,map_append,sum_append,← h.sum]
    simp [Scan.add,h.next]

/-- The warm features of a table are those that were not counted as nothing. -/
theorem Inside.warm_eq (h : Inside p weight t (p.size t) s) : s.count-s.nothingCount = warm p weight t := by
  have hsplit := length_eq_countP_add_countP (l := features p t) (fun j => decide (weight j < 1))
  have hnot : (fun j => decide ¬decide (weight j < 1) = true) = (fun j => decide (1 ≤ weight j)) := by
    funext j
    simp
  rw [hnot,← warm,features,length_range'] at hsplit
  rw [h.count,h.nothing]
  omega

theorem Inside.close_eq (h : Inside p weight t k s) (hk : k < p.size t) : s.close p maxThread = s := by
  rw [Scan.close]
  dsimp only
  rw [if_neg]
  rintro ⟨hcount,-⟩
  rw [h.next,h.count,Nat.add_sub_cancel] at hcount
  omega

theorem Inside.close_hottest (h : Inside p weight t (p.size t) s) (hpos : 0 < maxThread) (hweight : ∀ j, 0 ≤ weight j)
    (hbest : Hottest p maxThread weight t s.hottestTable) :
    (s.close p maxThread).tNext = t+1 ∧ Hottest p maxThread weight (t+1) (s.close p maxThread).hottestTable := by
  have ht : s.tNext-1 = t := by rw [h.next,Nat.add_sub_cancel]
  have hwarm := h.warm_eq
  rw [Scan.close]
  dsimp only
  rw [ht,hwarm,h.count]
  by_cases hq : Qualifies p maxThread weight t
  · have hne : p.size t ≠ s.nothingCount := by
      rw [h.count] at hwarm
      have hq' : maxThread ≤ warm p weight t := hq
      omega
    rw [if_pos ⟨rfl,hne,hq⟩,h.sum]
    refine ⟨h.next,hbest.take hq ?_⟩
    exact lt_of_lt_of_le (by norm_num) (average_ge_one hweight (hpos.trans_le hq))
  · rw [if_neg (fun hc => hq hc.2.2)]
    exact ⟨h.next,hbest.skip hq⟩

structure Before (p : FeaturePartition) (maxThread : Nat) (weight : Nat → ℚ) (t : Nat) (s : Scan) : Prop where
  next : s.tNext = t
  hottest : Hottest p maxThread weight t s.hottestTable

theorem Before.enter (h : Before p maxThread weight t s) : Inside p weight t 0 (s.enter p (p.offset t)) ∧
    (s.enter p (p.offset t)).hottestTable = s.hottestTable := by
  rw [Scan.enter,h.next,if_pos rfl]
  exact ⟨⟨rfl,rfl,rfl,update_self ..⟩,rfl⟩

theorem Tiles.end_eq (h : Tiles p n) (ht : t < n) : p.offset t+p.size t = ((range (t+1)).map p.size).sum := by
  rw [h.offset t ht,range_succ,map_append,sum_append]
  simp

theorem Tiles.end_le (h : Tiles p n) (ht : t < n) : p.offset t+p.size t ≤ 512 := by
  rw [h.end_eq ht,← h.total]
  apply Sublist.sum_le_sum
  · exact (range_sublist.mpr ht).map _
  · intro x _
    exact Nat.zero_le x

theorem Tiles.ne_offset (h : Tiles p n) (ht : t < n) (hk : 0 < k) (hlt : k < p.size t) : p.offset t+k ≠ p.offset (t+1) := by
  have hend := h.end_le ht
  obtain hnext | rfl : t+1 < n ∨ n = t+1 := by omega
  · rw [h.offset (t+1) hnext,← h.end_eq ht]
    omega
  · rcases h.stop with hstop | hstop <;> omega

theorem Inside.enter_eq (h : Inside p weight t k s) (hp : Tiles p n) (ht : t < n) (hk : 0 < k) (hlt : k < p.size t) :
    s.enter p (p.offset t+k) = s := by
  rw [Scan.enter,h.next,if_neg (hp.ne_offset ht hk hlt)]

/-- One table: the turns over its features take the walk to the next one. -/
theorem Before.table (h : Before p maxThread weight t s) (hp : Tiles p n) (ht : t < n) (hpos : 0 < maxThread)
    (hweight : ∀ j, 0 ≤ weight j) :
    Before p maxThread weight (t+1) ((features p t).foldl (Scan.turn p maxThread weight) s) := by
  have hsize := hp.size_pos t ht
  -- the state before the last feature of the table is counted
  have hinside (k : Nat) (hk : k < p.size t) : let s' := (range' (p.offset t) k).foldl (Scan.turn p maxThread weight) s
      Inside p weight t k (s'.enter p (p.offset t+k)) ∧ (s'.enter p (p.offset t+k)).hottestTable = s.hottestTable := by
    induction k with
    | zero => exact h.enter
    | succ k ih =>
      obtain ⟨hin,hhot⟩ := ih (by omega)
      have hadd := hin.add
      rw [range'_1_concat,foldl_append,foldl_cons,foldl_nil]
      dsimp only
      rw [Scan.turn,hadd.close_eq hk,← Nat.add_assoc]
      rw [show p.offset t+k+1 = p.offset t+(k+1) from rfl,hadd.enter_eq hp ht (Nat.succ_pos k) hk]
      exact ⟨hadd,hhot⟩
  obtain ⟨k,hk⟩ := Nat.exists_eq_add_one.mpr hsize
  obtain ⟨hin,hhot⟩ := hinside k (by omega)
  have hadd := hin.add
  rw [← hk] at hadd
  have hbefore := h.hottest
  rw [← hhot] at hbefore
  obtain ⟨hnext,hbest⟩ := hadd.close_hottest hpos hweight hbefore
  rw [features,hk,range'_1_concat,foldl_append,foldl_cons,foldl_nil]
  exact ⟨hnext,hbest⟩

theorem before_tables (hp : Tiles p n) (hpos : 0 < maxThread) (hweight : ∀ j, 0 ≤ weight j) (ht : t ≤ n) : Before p maxThread weight t
      ((range ((range t).map p.size).sum).foldl (Scan.turn p maxThread weight) .start) := by
  induction t with
  | zero => exact ⟨rfl,rfl,fun t ht => absurd ht (Nat.not_lt_zero t)⟩
  | succ t ih =>
    have hstep := (ih (Nat.le_of_succ_le ht)).table hp ht hpos hweight
    rw [features,← foldl_append,hp.offset t ht,range_eq_range'] at hstep
    rw [← hp.end_eq ht,hp.offset t ht,range_eq_range',← range'_append_1,Nat.zero_add]
    exact hstep

/-- The walk over all features ends with the hottest table. -/
theorem scan_hottest (hp : Tiles p n) (hpos : 0 < maxThread) (hweight : ∀ j, 0 ≤ weight j) :
    Hottest p maxThread weight n (scan p maxThread weight).hottestTable := by
  have h := (before_tables hp hpos hweight le_rfl).hottest
  rwa [hp.total] at h

theorem Scan.enter_frame (s : Scan) (p : FeaturePartition) (j : Nat) :
    (s.enter p j).sortedWeights = s.sortedWeights ∧ (s.enter p j).maxDouble = s.maxDouble := by
  rw [Scan.enter]
  split <;> exact ⟨rfl,rfl⟩

theorem Scan.close_frame (s : Scan) (p : FeaturePartition) (maxThread : Nat) :
    (s.close p maxThread).sortedWeights = s.sortedWeights ∧ (s.close p maxThread).maxDouble = s.maxDouble := by
  rw [Scan.close]
  dsimp only
  split <;> exact ⟨rfl,rfl⟩

/-- What does not depend on the tables: the pairs to sort and the maximum. -/
structure Seen (weight : Nat → ℚ) (j : Nat) (s : Scan) : Prop where
  sorted : ∀ i < j, s.sortedWeights i = toLex (-weight i,i)
  max_nonneg : 0 ≤ s.maxDouble
  le_max : ∀ i < j, weight i ≤ s.maxDouble
  max_mem : s.maxDouble = 0 ∨ ∃ i < j, weight i = s.maxDouble

theorem Seen.turn (h : Seen weight j s) : Seen weight (j+1) (s.turn p maxThread weight j) := by
  have hsorted : (s.turn p maxThread weight j).sortedWeights = update s.sortedWeights j (toLex (-weight j,j)) := by
    rw [Scan.turn,(Scan.close_frame ..).1,Scan.add,(s.enter_frame p j).1]
  have hmax : (s.turn p maxThread weight j).maxDouble = if weight j > s.maxDouble then weight j else s.maxDouble := by
    rw [Scan.turn,(Scan.close_frame ..).2,Scan.add,(s.enter_frame p j).2]
  refine ⟨fun i hi => ?_,?_,fun i hi => ?_,?_⟩
  · rw [hsorted]
    obtain hlt | rfl := Nat.lt_succ_iff_lt_or_eq.mp hi
    · rw [update_of_ne hlt.ne]
      exact h.sorted i hlt
    · exact update_self ..
  · rw [hmax]
    split
    · next hgt => exact h.max_nonneg.trans hgt.le
    · exact h.max_nonneg
  · have hle : weight j ≤ (s.turn p maxThread weight j).maxDouble ∧ s.maxDouble ≤ (s.turn p maxThread weight j).maxDouble := by
      rw [hmax]
      split
      · next hgt => exact ⟨le_rfl,hgt.le⟩
      · next hgt => exact ⟨not_lt.mp hgt,le_rfl⟩
    obtain hlt | rfl := Nat.lt_succ_iff_lt_or_eq.mp hi
    · exact (h.le_max i hlt).trans hle.2
    · exact hle.1
  · rw [hmax]
    split
    · exact .inr ⟨j,Nat.lt_succ_self j,rfl⟩
    · obtain hzero | ⟨i,hi,hw⟩ := h.max_mem
      · exact .inl hzero
      · exact .inr ⟨i,hi.trans (Nat.lt_succ_self j),hw⟩

theorem scan_seen (p : FeaturePartition) (maxThread : Nat) (weight : Nat → ℚ) : Seen weight 512 (scan p maxThread weight) := by
  have hall (j : Nat) : Seen weight j ((range j).foldl (Scan.turn p maxThread weight) .start) := by
    induction j with
    | zero => exact ⟨fun i hi => absurd hi (Nat.not_lt_zero i),le_rfl,fun i hi => absurd hi (Nat.not_lt_zero i),.inl rfl⟩
    | succ j ih =>
      rw [range_succ,foldl_append,foldl_cons,foldl_nil]
      exact ih.turn
  exact hall 512

end Walk

-- the 512 turns are only reasoned about through the two theorems above
attribute [irreducible] scan

end AlNiCo.ModelUpdate
