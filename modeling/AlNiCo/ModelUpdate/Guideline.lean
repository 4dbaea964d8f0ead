import AlNiCo.ModelUpdate.MergeWeights

/-! What `merge_weights` publishes: the guideline cores of the hottest table, how they follow
the abort counts, and when every weight is defined. -/
namespace AlNiCo.ModelUpdate
open Library.Ranking Function List

section
variable {L : Workload} {maxThread i a : Nat} {xs : List (ℚ ×ₗ ℕ)} {r : Published}

/-- A turn of the loop that hands out the cores; `direct` stays 1. -/
theorem assign_cons (x : ℚ ×ₗ ℕ) : assign L maxThread (x :: xs) i a 1 r =
    let r : Published := ⟨update r.weights (ofLex x).2 (some (BitVec.ofInt 8 (L.top-i))),
      update r.guidelineGroup (ofLex x).2 (BitVec.ofInt 8 a)⟩
    if a+1 = maxThread then r else assign L maxThread xs (i+1) (a+1 : Nat) 1 r := by
  rw [assign]
  dsimp only
  rw [if_neg (show (a : Int)+1 ≠ -1 by omega)]
  simp only [← Nat.cast_succ,Nat.cast_inj]

theorem assign_other {f} (ha : a < maxThread) (hf : ∀ x ∈ xs.take (maxThread-a), (ofLex x).2 ≠ f) :
    (assign L maxThread xs i a 1 r).guidelineGroup f = r.guidelineGroup f ∧ (assign L maxThread xs i a 1 r).weights f = r.weights f := by
  induction xs generalizing i a r with
  | nil => exact ⟨rfl,rfl⟩
  | cons x xs ih =>
    obtain ⟨m,hm⟩ : ∃ m, maxThread-a = m+1 := ⟨maxThread-a-1,by omega⟩
    rw [hm,take_succ_cons] at hf
    have hx : f ≠ (ofLex x).2 := (hf x mem_cons_self).symm
    rw [assign_cons]
    dsimp only
    split
    · exact ⟨update_of_ne hx ..,update_of_ne hx ..⟩
    · have hrest : ∀ y ∈ xs.take (maxThread-(a+1)), (ofLex y).2 ≠ f := by
        rw [show maxThread-(a+1) = m by omega]
        exact fun y hy => hf y (mem_cons_of_mem _ hy)
      obtain ⟨hgroup,hweight⟩ := ih (i := i+1) (by omega) hrest
      exact ⟨hgroup.trans (update_of_ne hx ..),hweight.trans (update_of_ne hx ..)⟩

/-- The feature at position `k` gets core `a + k`. -/
theorem assign_at {k x} (hnodup : (xs.map (fun x => (ofLex x).2)).Nodup) (hk : a+k < maxThread) (hx : xs[k]? = some x) :
    (assign L maxThread xs i a 1 r).guidelineGroup (ofLex x).2 = BitVec.ofNat 8 (a+k) ∧
      (assign L maxThread xs i a 1 r).weights (ofLex x).2 = some (BitVec.ofInt 8 (L.top-(i+k : Nat))) := by
  induction xs generalizing i a k r with
  | nil => cases hx
  | cons y xs ih =>
    rw [map_cons,nodup_cons] at hnodup
    rw [assign_cons]
    dsimp only
    cases k with
    | zero =>
      obtain rfl : y = x := by simpa using hx
      split
      · exact ⟨update_self ..,update_self ..⟩
      · have hother : ∀ z ∈ xs.take (maxThread-(a+1)), (ofLex z).2 ≠ (ofLex y).2 := by
          intro z hz heq
          exact hnodup.1 (heq ▸ mem_map_of_mem (mem_of_mem_take hz))
        obtain ⟨hgroup,hweight⟩ := assign_other (L := L) (i := i+1) (a := a+1) (r := ⟨_,_⟩) (by omega) hother
        exact ⟨hgroup.trans (update_self ..),hweight.trans (update_self ..)⟩
    | succ k =>
      rw [if_neg (by omega)]
      rw [getElem?_cons_succ] at hx
      rw [show a+(k+1) = a+1+k by omega,show i+(k+1) = i+1+k by omega]
      exact ih hnodup.2 (by omega) hx

theorem assign_isSome {f} (h : (r.weights f).isSome) : ((assign L maxThread xs i a 1 r).weights f).isSome := by
  induction xs generalizing i a r with
  | nil => exact h
  | cons x xs ih =>
    have hupdate : (update r.weights (ofLex x).2 (some (BitVec.ofInt 8 (L.top-i))) f).isSome := by
      rw [update_apply]
      split
      · rfl
      · exact h
    rw [assign_cons]
    dsimp only
    split
    · exact hupdate
    · exact ih hupdate

end

open Workload

section
variable (L : Workload) {maxThread : Nat} (coreWeights : Nat → Nat → BitVec 16)

def aborts (maxThread : Nat) (coreWeights : Nat → Nat → BitVec 16) (f : Nat) : Nat :=
  ((List.range maxThread).map (fun i => (coreWeights i f).toNat)).sum

theorem weightDouble_eq_sum (f : Nat) : weightDouble L maxThread coreWeights f =
    ((range maxThread).map (fun i => L.share maxThread (coreWeights i f))).sum := by
  have hfold (l : List Nat) (w : ℚ) : l.foldl (fun w i => w+L.share maxThread (coreWeights i f)) w =
      w+(l.map (fun i => L.share maxThread (coreWeights i f))).sum := by
    induction l generalizing w with
    | nil => simp
    | cons i l ih => rw [foldl_cons,ih,map_cons,sum_cons,add_assoc]
  rw [weightDouble,hfold,zero_add]

theorem share_nonneg (count : BitVec 16) : 0 ≤ L.share maxThread count := by
  cases L with
  | tpcc => exact div_nonneg (mul_nonneg (by norm_num) (Nat.cast_nonneg _)) (Nat.cast_nonneg _)
  | ycsb => exact Nat.cast_nonneg _

/-- A count that is not lost in the share of its thread. -/
def Workload.Counts (maxThread : Nat) (count : BitVec 16) : Workload → Prop
  | .tpcc => 0 < count.toNat
  | .ycsb => maxThread ≤ count.toNat

theorem share_pos_iff (hpos : 0 < maxThread) (count : BitVec 16) : 0 < L.share maxThread count ↔ L.Counts maxThread count := by
  have hT : (0 : ℚ) < maxThread := by exact_mod_cast hpos
  cases L with
  | tpcc =>
    rw [share,Workload.Counts,div_pos_iff_of_pos_right hT,mul_pos_iff_of_pos_left (by norm_num),Nat.cast_pos]
  | ycsb =>
    rw [share,Workload.Counts,Nat.cast_pos,Nat.div_pos_iff]
    exact ⟨fun h => h.2,fun h => ⟨hpos,h⟩⟩

theorem weightDouble_nonneg (f : Nat) : 0 ≤ weightDouble L maxThread coreWeights f := by
  rw [weightDouble_eq_sum]
  apply sum_nonneg
  intro x hx
  obtain ⟨i,-,rfl⟩ := mem_map.mp hx
  exact share_nonneg L _

theorem weightDouble_pos_iff (hpos : 0 < maxThread) (f : Nat) :
    0 < weightDouble L maxThread coreWeights f ↔ ∃ i < maxThread, L.Counts maxThread (coreWeights i f) := by
  rw [weightDouble_eq_sum]
  constructor
  · intro h
    by_contra hnone
    refine h.ne' (sum_eq_zero fun x hx => ?_)
    obtain ⟨i,hi,rfl⟩ := mem_map.mp hx
    refine le_antisymm (not_lt.mp fun hlt => hnone ?_) (share_nonneg L _)
    exact ⟨i,mem_range.mp hi,(share_pos_iff L hpos _).mp hlt⟩
  · rintro ⟨i,hi,hcount⟩
    refine ((share_pos_iff L hpos _).mpr hcount).trans_le (single_le_sum (fun x hx => ?_) _ ?_)
    · obtain ⟨k,-,rfl⟩ := mem_map.mp hx
      exact share_nonneg L _
    · exact mem_map_of_mem (f := fun i => L.share maxThread (coreWeights i f)) (mem_range.mpr hi)

theorem weightDouble_tpcc (f : Nat) : weightDouble .tpcc maxThread coreWeights f = 1/5*aborts maxThread coreWeights f/maxThread := by
  rw [weightDouble_eq_sum,aborts,Nat.cast_list_sum,map_map,div_eq_mul_inv,← sum_map_mul_left,← sum_map_mul_right]
  exact congrArg List.sum (map_congr_left fun i _ => div_eq_mul_inv _ _)

theorem weightDouble_tpcc_lt (hpos : 0 < maxThread) {f g} (h : aborts maxThread coreWeights g < aborts maxThread coreWeights f) :
    weightDouble .tpcc maxThread coreWeights g < weightDouble .tpcc maxThread coreWeights f := by
  have hT : (0 : ℚ) < maxThread := by exact_mod_cast hpos
  have hlt : (aborts maxThread coreWeights g : ℚ) < aborts maxThread coreWeights f := by exact_mod_cast h
  rw [weightDouble_tpcc,weightDouble_tpcc]
  apply div_lt_div_of_pos_right _ hT
  linarith

end

section
variable (p : FeaturePartition) (weight : Nat → ℚ)

def sortKey (f : Nat) : ℚ ×ₗ ℕ := toLex (-weight f,f)

theorem sortKey_injective : Injective (sortKey weight) := fun _ _ h => congrArg (fun x => (ofLex x).2) h

theorem sortKey_lt_iff {f g} : sortKey weight f < sortKey weight g ↔ weight g < weight f ∨ weight f = weight g ∧ f < g := by
  rw [sortKey,sortKey,Prod.Lex.toLex_lt_toLex,neg_lt_neg_iff,neg_inj]

/-- The place of a feature in its table: heavier features first, then lower ones. -/
def place (t f : Nat) : Nat := rank ((features p t).map (sortKey weight)) (sortKey weight f)

variable {p weight} {t f g : Nat}

theorem nodup_features : (features p t).Nodup := nodup_range'

theorem nodup_sortKeys : ((features p t).map (sortKey weight)).Nodup :=
  nodup_features.map (sortKey_injective weight)

theorem place_lt_iff (hf : f ∈ features p t) (hg : g ∈ features p t) :
    place p weight t f < place p weight t g ↔ weight g < weight f ∨ weight f = weight g ∧ f < g := by
  rw [place,place,rank_lt_iff (mem_map_of_mem hf) (mem_map_of_mem hg),sortKey_lt_iff]

theorem place_injOn (hf : f ∈ features p t) (hg : g ∈ features p t) (h : place p weight t f = place p weight t g) : f = g :=
  sortKey_injective weight (rank_injOn (mem_map_of_mem hf) (mem_map_of_mem hg) h)

theorem exists_place {k} (hk : k < p.size t) : ∃ f ∈ features p t, place p weight t f = k := by
  have hlen : k < ((features p t).map (sortKey weight)).length := by
    rwa [length_map,features,length_range']
  obtain ⟨x,hx,hrank⟩ := exists_rank nodup_sortKeys hlen
  obtain ⟨f,hf,rfl⟩ := mem_map.mp hx
  exact ⟨f,hf,hrank⟩

end

section Groups
variable (L : Workload) {maxThread : Nat} (coreWeights : Nat → Nat → BitVec 16)

def Workload.tables : Workload → Nat
  | .tpcc => 12
  | .ycsb => 1

theorem tiles : Tiles L.partition L.tables := by
  cases L with
  | tpcc => exact tiles_tpcc
  | ycsb => exact tiles_ycsb

def hottest (maxThread : Nat) : Option Nat :=
  (scan L.partition maxThread (weightDouble L maxThread coreWeights)).hottestTable.2

theorem hottest_spec (hpos : 0 < maxThread) : Hottest L.partition maxThread (weightDouble L maxThread coreWeights) L.tables
      ((scan L.partition maxThread (weightDouble L maxThread coreWeights)).hottestTable.1,hottest L coreWeights maxThread) :=
  scan_hottest (tiles L) hpos (weightDouble_nonneg L coreWeights)

theorem mem_features_lt {p n t f} (h : Tiles p n) (ht : t < n) (hf : f ∈ features p t) : f < 512 := by
  have hend := h.end_le ht
  have hmem := mem_range'_1.mp hf
  omega

theorem mergeWeights_none (h : hottest L coreWeights maxThread = none) : mergeWeights L maxThread coreWeights =
    normalise L (scan L.partition maxThread (weightDouble L maxThread coreWeights)) := by
  rw [hottest] at h
  unfold mergeWeights
  simp only [h]

variable {coreWeights}

/-- The sorted features of the chosen table are handed the cores. -/
theorem mergeWeights_some (hpos : 0 < maxThread) {t} (h : hottest L coreWeights maxThread = some t) :
    mergeWeights L maxThread coreWeights = assign L maxThread
      (((features L.partition t).map (sortKey (weightDouble L maxThread coreWeights))).insertionSort (· ≤ ·))
      (L.partition.offset t) (0 : Nat) 1
      (normalise L (scan L.partition maxThread (weightDouble L maxThread coreWeights))) := by
  have hspec := hottest_spec L coreWeights hpos
  rw [h] at hspec
  obtain ⟨ht,hq,-⟩ := hspec
  have hsize : L.partition.size t ≥ maxThread := by
    have hle : warm L.partition (weightDouble L maxThread coreWeights) t ≤ (features L.partition t).length :=
      countP_le_length
    rw [features,length_range'] at hle
    exact le_trans hq hle
  have hkeys : (features L.partition t).map
      (scan L.partition maxThread (weightDouble L maxThread coreWeights)).sortedWeights =
      (features L.partition t).map (sortKey (weightDouble L maxThread coreWeights)) := by
    apply map_congr_left
    intro f hf
    exact (scan_seen ..).sorted f (mem_features_lt (tiles L) ht hf)
  rw [hottest] at h
  unfold mergeWeights
  simp only [h,if_pos hsize]
  rw [← features,hkeys]
  rfl

/-- A feature of the chosen table is assigned the core of its place. -/
theorem group_assigned (hpos : 0 < maxThread) {t f} (h : hottest L coreWeights maxThread = some t)
    (hf : f ∈ features L.partition t) (hplace : place L.partition (weightDouble L maxThread coreWeights) t f < maxThread) :
    (mergeWeights L maxThread coreWeights).guidelineGroup f =
        BitVec.ofNat 8 (place L.partition (weightDouble L maxThread coreWeights) t f) ∧
      (mergeWeights L maxThread coreWeights).weights f = some (BitVec.ofInt 8
        (L.top-(L.partition.offset t+place L.partition (weightDouble L maxThread coreWeights) t f : Nat))) := by
  have hsorted := (getElem?_insertionSort nodup_sortKeys _).mpr
    ⟨mem_map_of_mem (f := sortKey (weightDouble L maxThread coreWeights)) hf,rfl⟩
  have hnodup : ((((features L.partition t).map (sortKey (weightDouble L maxThread coreWeights))).insertionSort
      (· ≤ ·)).map (fun x => (ofLex x).2)).Nodup := by
    rw [((perm_insertionSort _ _).map _).nodup_iff,map_map]
    exact nodup_features.map (fun f g hfg => hfg)
  rw [mergeWeights_some L hpos h]
  have hassign := assign_at (L := L) (i := L.partition.offset t) (a := 0)
    (r := normalise L (scan L.partition maxThread (weightDouble L maxThread coreWeights))) hnodup
    (by rwa [Nat.zero_add]) hsorted
  rw [Nat.zero_add] at hassign
  exact hassign

/-- Every other feature has no group. -/
theorem group_unassigned (hpos : 0 < maxThread) {t f} (h : hottest L coreWeights maxThread = some t)
    (hf : f ∈ features L.partition t → maxThread ≤ place L.partition (weightDouble L maxThread coreWeights) t f) :
    (mergeWeights L maxThread coreWeights).guidelineGroup f = 25 := by
  rw [mergeWeights_some L hpos h]
  apply (assign_other hpos ?_).1
  intro x hx
  obtain ⟨k,hk,hxk⟩ := List.mem_take_iff_getElem.mp hx
  have hsorted := List.getElem?_eq_some_iff.mpr ⟨_,hxk⟩
  obtain ⟨hmem,hrank⟩ := (getElem?_insertionSort nodup_sortKeys k).mp hsorted
  obtain ⟨g,hg,rfl⟩ := List.mem_map.mp hmem
  rintro rfl
  have hle := hf hg
  change place L.partition (weightDouble L maxThread coreWeights) t g = k at hrank
  rw [show (ofLex (sortKey (weightDouble L maxThread coreWeights) g)).2 = g from rfl] at hle
  omega

/-- How far the published weights of a table can go down before they would wrap. -/
theorem top_room {t} (ht : t < L.tables) : 23 ≤ (L.top-L.partition.offset t) % 256 := by
  cases L with
  | tpcc =>
    have h : ∀ t < 12, 23 ≤ (tpcc.top-tpcc.partition.offset t) % 256 := by decide
    exact h t ht
  | ycsb =>
    have h : ∀ t < 1, 23 ≤ (ycsb.top-ycsb.partition.offset t) % 256 := by decide
    exact h t ht

theorem weight_toNat {t c} (ht : t < L.tables) (hc : c < 24) :
    ((BitVec.ofInt 8 (L.top-(L.partition.offset t+c : Nat))).toNat : Int) = (L.top-L.partition.offset t) % 256-c := by
  have hroom := top_room L ht
  rw [BitVec.toNat_ofInt]
  omega

end Groups

/-- The guidelines of table `t`: `core c` is the feature of core `c`. -/
structure Guides (p : FeaturePartition) (maxThread : Nat) (weight : Nat → ℚ) (r : Published) (t : Nat)
    (core : Fin maxThread → Nat) : Prop where
  injective : Injective core
  mem : ∀ c, core c ∈ features p t
  group : ∀ c, r.guidelineGroup (core c) = BitVec.ofNat 8 c
  others : ∀ f, (∀ c, core c ≠ f) → r.guidelineGroup f = 25
  ordered : ∀ c d, c ≤ d → weight (core d) ≤ weight (core c)
  heaviest : ∀ f ∈ features p t, (∀ c, core c ≠ f) → ∀ c, weight f ≤ weight (core c)
  decreasing : ∀ c d, c < d → ∃ a b, r.weights (core c) = some a ∧ r.weights (core d) = some b ∧ b.toNat < a.toNat

/-- Either no table qualifies and no feature has a group, or the first of the hottest
qualifying tables has its heaviest features bound to the cores. -/
theorem guideline_groups (L : Workload) (maxThread : Nat) (hpos : 0 < maxThread) (hle : maxThread ≤ 24)
    (coreWeights : Nat → Nat → BitVec 16) :
    let weight := weightDouble L maxThread coreWeights
    let r := mergeWeights L maxThread coreWeights
    ((∀ t < L.tables, ¬Qualifies L.partition maxThread weight t) ∧ ∀ f, r.guidelineGroup f = 25) ∨
    ∃ t < L.tables, Qualifies L.partition maxThread weight t ∧
      (∀ u < L.tables, Qualifies L.partition maxThread weight u →
        average L.partition weight u ≤ average L.partition weight t ∧
          (average L.partition weight u = average L.partition weight t → t ≤ u)) ∧
      ∃ core, Guides L.partition maxThread weight r t core := by
  have hspec := hottest_spec L coreWeights hpos
  cases hhot : hottest L coreWeights maxThread with
  | none =>
    rw [hhot] at hspec
    refine .inl ⟨hspec.2,fun f => ?_⟩
    rw [mergeWeights_none L coreWeights hhot]
    rfl
  | some t =>
    rw [hhot] at hspec
    obtain ⟨ht,hq,-,hmax,hfirst⟩ := hspec
    have hsize : maxThread ≤ L.partition.size t := by
      refine hq.trans (List.countP_le_length.trans ?_)
      rw [features,List.length_range']
    choose core hmem hplace using fun c : Fin maxThread =>
      exists_place (c.isLt.trans_le hsize)
    have hassigned (c : Fin maxThread) := group_assigned L hpos hhot (hmem c) ((hplace c).trans_lt c.isLt)
    refine .inr ⟨t,ht,hq,fun u hu huq => ⟨hmax u hu huq,fun heq => ?_⟩,core,?_,hmem,?_,?_,?_,?_,?_⟩
    · by_contra hlt
      exact absurd heq (hfirst u (not_le.mp hlt) huq).ne
    · intro c d hcd
      exact Fin.ext ((hplace c).symm.trans ((congrArg _ hcd).trans (hplace d)))
    · intro c
      rw [(hassigned c).1,hplace c]
    · intro f hf
      apply group_unassigned L hpos hhot
      intro hmemf
      by_contra hlt
      refine hf ⟨_,not_le.mp hlt⟩ (place_injOn (hmem _) hmemf (hplace _))
    · intro c d hcd
      obtain rfl | hlt := hcd.eq_or_lt
      · exact le_rfl
      · have hbefore := (place_lt_iff (hmem c) (hmem d)).mp (by rw [hplace,hplace]; exact hlt)
        rcases hbefore with hw | ⟨hw,-⟩
        · exact hw.le
        · exact hw.ge
    · intro f hmemf hf c
      have hlater : place L.partition (weightDouble L maxThread coreWeights) t (core c) <
          place L.partition (weightDouble L maxThread coreWeights) t f := by
        by_contra hle
        have hlt := ((not_lt.mp hle).trans (hplace c).le).trans_lt c.isLt
        exact hf ⟨_,hlt⟩ (place_injOn (hmem _) hmemf (hplace _))
      rcases (place_lt_iff (hmem c) hmemf).mp hlater with hw | ⟨hw,-⟩
      · exact hw.le
      · exact hw.ge
    · intro c d hcd
      refine ⟨_,_,(hassigned c).2,(hassigned d).2,?_⟩
      rw [hplace,hplace]
      have hcw := weight_toNat L ht (c.isLt.trans_le hle)
      have hdw := weight_toNat L ht (d.isLt.trans_le hle)
      have hlt : c.val < d.val := hcd
      omega

/-- Every thread has 5 aborts in each district and 10 in the last one. -/
def districts (_ j : Nat) : BitVec 16 :=
  if 10 ≤ j ∧ j < 30 then (if j = 29 then 10 else 5) else 0

private theorem weight_districts (f : Nat) : weightDouble .tpcc 20 districts f =
    if 10 ≤ f ∧ f < 30 then (if f = 29 then 2 else 1) else 0 := by
  rw [weightDouble_eq_sum]
  change ((range 20).map (fun _ => share 20 (districts 0 f) .tpcc)).sum = _
  rw [map_const',sum_replicate,length_range,nsmul_eq_mul]
  simp only [districts,share]
  by_cases hmem : 10 ≤ f ∧ f < 30
  · rw [if_pos hmem,if_pos hmem]
    split
    · rw [show (10 : BitVec 16).toNat = 10 from rfl]
      norm_num
    · rw [show (5 : BitVec 16).toNat = 5 from rfl]
      norm_num
  · rw [if_neg hmem,if_neg hmem]
    norm_num

private theorem qualifies_districts {t} (ht : t < 12) : Qualifies tpcc.partition 20 (weightDouble .tpcc 20 districts) t ↔ t = 1 := by
  constructor
  · intro hq
    by_contra hne
    have hcold : warm tpcc.partition (weightDouble .tpcc 20 districts) t = 0 := by
      have hoff : ∀ t < 12, t ≠ 1 → tpcc.partition.offset t+tpcc.partition.size t ≤ 10 ∨ 30 ≤ tpcc.partition.offset t := by decide
      rw [warm,countP_eq_zero]
      intro f hf
      have hmem := mem_range'_1.mp hf
      have hapart := hoff t ht hne
      rw [weight_districts,if_neg (by omega)]
      decide
    exact absurd (hcold.symm.trans_ge hq) (by decide)
  · rintro rfl
    rw [Qualifies,warm,countP_eq_length.mpr]
    · decide
    · intro f hf
      have hrange : ∀ f ∈ features tpcc.partition 1, 10 ≤ f ∧ f < 30 := by decide
      rw [weight_districts,if_pos (hrange f hf)]
      split <;> decide

/-- The twenty districts are bound to the twenty cores. -/
theorem guideline_groups_districts :
    ∃ core, Guides tpcc.partition 20 (weightDouble .tpcc 20 districts) (mergeWeights .tpcc 20 districts) 1 core := by
  rcases guideline_groups .tpcc 20 (by decide) (by decide) districts with ⟨hnone,-⟩ | ⟨t,ht,hq,-,hcore⟩
  · exact absurd ((qualifies_districts (by decide)).mpr rfl) (hnone 1 (by decide))
  · rwa [(qualifies_districts ht).mp hq] at hcore

section
variable {L : Workload} {maxThread : Nat} {coreWeights : Nat → Nat → BitVec 16} {t f g : Nat}

/-- The features with a core are those of the first places. -/
theorem group_eq_iff (hpos : 0 < maxThread) (hle : maxThread ≤ 24) (h : hottest L coreWeights maxThread = some t)
    (hf : f ∈ features L.partition t) {c} (hc : c < maxThread) :
    (mergeWeights L maxThread coreWeights).guidelineGroup f = BitVec.ofNat 8 c ↔
      place L.partition (weightDouble L maxThread coreWeights) t f = c := by
  obtain hlt | hge := Nat.lt_or_ge (place L.partition (weightDouble L maxThread coreWeights) t f) maxThread
  · rw [(group_assigned L hpos h hf hlt).1]
    constructor
    · intro heq
      have hnat := congrArg BitVec.toNat heq
      rw [BitVec.toNat_ofNat,BitVec.toNat_ofNat] at hnat
      omega
    · intro heq
      rw [heq]
  · rw [group_unassigned L hpos h (fun _ => hge)]
    constructor
    · intro heq
      have hnat := congrArg BitVec.toNat heq
      rw [BitVec.toNat_ofNat,show BitVec.toNat (25 : BitVec 8) = 25 from rfl] at hnat
      omega
    · omega

/-- The core of `g` is not before that of `f`, in terms of their places. -/
theorem follows_iff (hpos : 0 < maxThread) (hle : maxThread ≤ 24) (h : hottest L coreWeights maxThread = some t)
    (hf : f ∈ features L.partition t) (hg : g ∈ features L.partition t) (hne : f ≠ g) :
    (∀ d < maxThread, (mergeWeights L maxThread coreWeights).guidelineGroup g = BitVec.ofNat 8 d →
      ∃ c ≤ d, (mergeWeights L maxThread coreWeights).guidelineGroup f = BitVec.ofNat 8 c) ↔
    (place L.partition (weightDouble L maxThread coreWeights) t g < maxThread →
      place L.partition (weightDouble L maxThread coreWeights) t f < place L.partition (weightDouble L maxThread coreWeights) t g) := by
  constructor
  · intro hfollow hplace
    obtain ⟨c,hc,hgroup⟩ := hfollow _ hplace ((group_eq_iff hpos hle h hg hplace).mpr rfl)
    have hcf := (group_eq_iff hpos hle h hf (hc.trans_lt hplace)).mp hgroup
    rw [hcf]
    exact hc.lt_of_ne fun heq => hne (place_injOn hf hg (hcf.trans heq))
  · intro hplaces d hd hgroup
    have hplace := (group_eq_iff hpos hle h hg hd).mp hgroup
    have hbefore := hplaces (hplace.trans_lt hd)
    exact ⟨_,by omega,(group_eq_iff hpos hle h hf (by omega)).mpr rfl⟩

end

section
variable (maxThread : Nat) (coreWeights : Nat → Nat → BitVec 16)

/-- What is left of a feature's aborts when the count of each thread is divided by `MAX_THREAD`. -/
def quotients (f : Nat) : Nat := ((range maxThread).map (fun i => (coreWeights i f).toNat/maxThread)).sum

/-- The feature of which more is left comes first, then the lower one. -/
def Ahead (f g : Nat) : Prop :=
  quotients maxThread coreWeights g < quotients maxThread coreWeights f ∨
    quotients maxThread coreWeights f = quotients maxThread coreWeights g ∧ f < g

instance : DecidableRel (Ahead maxThread coreWeights) := fun _ _ => inferInstanceAs (Decidable (_ ∨ _))

theorem weightDouble_ycsb (f : Nat) : weightDouble .ycsb maxThread coreWeights f = quotients maxThread coreWeights f := by
  rw [weightDouble_eq_sum,quotients,Nat.cast_list_sum,map_map]
  rfl

theorem features_ycsb : features ycsb.partition 0 = range 512 := by
  rw [features,show ycsb.partition.offset 0 = 0 by decide,show ycsb.partition.size 0 = 512 by decide,range_eq_range']

theorem place_ycsb (g : Nat) : place ycsb.partition (weightDouble .ycsb maxThread coreWeights) 0 g =
    (range 512).countP (Ahead maxThread coreWeights · g) := by
  rw [place,rank,countP_map,features_ycsb]
  refine countP_congr fun f _ => ?_
  rw [comp_apply,decide_eq_true_iff,decide_eq_true_iff,sortKey_lt_iff,weightDouble_ycsb,weightDouble_ycsb,Nat.cast_lt,Nat.cast_inj,Ahead]

variable {maxThread}

theorem hottest_ycsb_iff (hpos : 0 < maxThread) (t : Nat) : hottest .ycsb coreWeights maxThread = some t ↔
    t = 0 ∧ maxThread ≤ (range 512).countP (1 ≤ quotients maxThread coreWeights ·) := by
  have hwarm : warm ycsb.partition (weightDouble .ycsb maxThread coreWeights) 0 =
      (range 512).countP (1 ≤ quotients maxThread coreWeights ·) := by
    rw [warm,features_ycsb]
    refine countP_congr fun f _ => ?_
    simp [weightDouble_ycsb]
  have hspec := hottest_spec .ycsb coreWeights hpos
  rw [← hwarm]
  cases hhot : hottest .ycsb coreWeights maxThread with
  | none =>
    rw [hhot] at hspec
    refine iff_of_false (Option.some_ne_none t).symm ?_
    rintro ⟨rfl,hq⟩
    exact hspec.2 0 Nat.zero_lt_one hq
  | some u =>
    rw [hhot] at hspec
    obtain rfl := Nat.lt_one_iff.mp hspec.1
    rw [Option.some.injEq,eq_comm]
    exact (and_iff_left hspec.2.1).symm

end

/-- A feature with more aborts has a core whenever one with fewer has, and no later one.
In TPC-C this always holds. In YCSB it holds exactly if fewer features than threads have a
quotient, so that none gets a core, or every feature comes behind those with more aborts
in the order of the quotients or behind as many features as there are cores. -/
theorem cores_follow_aborts_iff (L : Workload) (maxThread : Nat) (hpos : 0 < maxThread) (hle : maxThread ≤ 24)
    (coreWeights : Nat → Nat → BitVec 16) :
    let r := mergeWeights L maxThread coreWeights
    (∀ t, hottest L coreWeights maxThread = some t → ∀ f ∈ features L.partition t, ∀ g ∈ features L.partition t,
      aborts maxThread coreWeights g < aborts maxThread coreWeights f →
      ∀ d < maxThread, r.guidelineGroup g = BitVec.ofNat 8 d → ∃ c ≤ d, r.guidelineGroup f = BitVec.ofNat 8 c) ↔
    L = .tpcc ∨ (range 512).countP (1 ≤ quotients maxThread coreWeights ·) < maxThread ∨
      ∀ f < 512, ∀ g < 512, aborts maxThread coreWeights g < aborts maxThread coreWeights f →
        Ahead maxThread coreWeights f g ∨ maxThread ≤ (range 512).countP (Ahead maxThread coreWeights · g) := by
  dsimp only
  have hne {f g : Nat} (hlt : aborts maxThread coreWeights g < aborts maxThread coreWeights f) : f ≠ g := by
    rintro rfl
    exact lt_irrefl _ hlt
  cases L with
  | tpcc =>
    refine iff_of_true (fun t ht f hf g hg hlt => ?_) (.inl rfl)
    refine (follows_iff hpos hle ht hf hg (hne hlt)).mpr fun _ => (place_lt_iff hf hg).mpr (.inl ?_)
    exact weightDouble_tpcc_lt coreWeights hpos hlt
  | ycsb =>
    have hahead {f g : Nat} (hf : f ∈ features ycsb.partition 0) (hg : g ∈ features ycsb.partition 0) :
        place ycsb.partition (weightDouble .ycsb maxThread coreWeights) 0 f <
          place ycsb.partition (weightDouble .ycsb maxThread coreWeights) 0 g ↔ Ahead maxThread coreWeights f g := by
      rw [place_lt_iff hf hg,weightDouble_ycsb,weightDouble_ycsb,Nat.cast_lt,Nat.cast_inj,Ahead]
    rw [or_iff_right (fun h : ycsb = tpcc => nomatch h)]
    constructor
    · intro h
      refine or_iff_not_imp_left.mpr fun hq f hf g hg hlt => ?_
      rw [not_lt] at hq
      have ht := (hottest_ycsb_iff coreWeights hpos 0).mpr ⟨rfl,hq⟩
      rw [← mem_range,← features_ycsb] at hf hg
      have hfollow := (follows_iff hpos hle ht hf hg (hne hlt)).mp (h 0 ht f hf g hg hlt)
      rw [hahead hf hg,place_ycsb,imp_iff_or_not,not_lt] at hfollow
      exact hfollow
    · intro h t ht f hf g hg hlt
      obtain ⟨rfl,hq⟩ := (hottest_ycsb_iff coreWeights hpos t).mp ht
      refine (follows_iff hpos hle ht hf hg (hne hlt)).mpr ?_
      rw [hahead hf hg,place_ycsb,imp_iff_or_not,not_lt]
      rw [features_ycsb,mem_range] at hf hg
      exact h.resolve_left (not_lt.mpr hq) f hf g hg hlt

private theorem hottest_districts : hottest .tpcc districts 20 = some 1 := by
  have hspec := hottest_spec .tpcc districts (show 0 < 20 by decide)
  cases hhot : hottest .tpcc districts 20 with
  | none =>
    rw [hhot] at hspec
    exact absurd ((qualifies_districts (by decide)).mpr rfl) (hspec.2 1 (by decide))
  | some t =>
    rw [hhot] at hspec
    rw [(qualifies_districts hspec.1).mp hspec.2.1]

/-- Every thread has 40 aborts of the first feature, and one less of each further one of twenty. -/
def descending (_ j : Nat) : BitVec 16 := BitVec.ofNat 16 (if j < 20 then 40-j else 0)

private theorem ahead_descending {f g} (h : aborts 20 descending g < aborts 20 descending f) : Ahead 20 descending f g := by
  have hcount (f : Nat) : (BitVec.ofNat 16 (if f < 20 then 40-f else 0)).toNat = if f < 20 then 40-f else 0 := by
    rw [BitVec.toNat_ofNat]
    split <;> omega
  simp only [aborts,Ahead,quotients,descending,hcount,map_const',sum_replicate,length_range,smul_eq_mul] at h ⊢
  split_ifs at h ⊢ <;> omega

/-- The last district has the most aborts and a core before the first one; in YCSB the first feature
has a core before the second. -/
theorem cores_follow_aborts_both_builds :
    (hottest .tpcc districts 20 = some 1 ∧ aborts 20 districts 10 < aborts 20 districts 29 ∧
      ∀ d < 20, (mergeWeights .tpcc 20 districts).guidelineGroup 10 = BitVec.ofNat 8 d →
        ∃ c ≤ d, (mergeWeights .tpcc 20 districts).guidelineGroup 29 = BitVec.ofNat 8 c) ∧
    hottest .ycsb descending 20 = some 0 ∧ aborts 20 descending 1 < aborts 20 descending 0 ∧
      ∀ d < 20, (mergeWeights .ycsb 20 descending).guidelineGroup 1 = BitVec.ofNat 8 d →
        ∃ c ≤ d, (mergeWeights .ycsb 20 descending).guidelineGroup 0 = BitVec.ofNat 8 c := by
  have htpcc := (cores_follow_aborts_iff .tpcc 20 (by decide) (by decide) districts).mpr (.inl rfl)
  have hycsb := (cores_follow_aborts_iff .ycsb 20 (by decide) (by decide) descending).mpr
    (.inr (.inr fun f _ g _ hlt => .inl (ahead_descending hlt)))
  have hhot : hottest .ycsb descending 20 = some 0 := (hottest_ycsb_iff descending (by decide) 0).mpr ⟨rfl,by decide +kernel⟩
  have hmem {f : Nat} (hf : f < 512) : f ∈ features ycsb.partition 0 := features_ycsb ▸ mem_range.mpr hf
  exact ⟨⟨hottest_districts,by decide,htpcc 1 hottest_districts 29 (by decide) 10 (by decide) (by decide)⟩,hhot,by decide,
    hycsb 0 hhot 0 (hmem (by decide)) 1 (hmem (by decide)) (by decide)⟩

section

/-- Twenty features with 20 aborts of one thread each, and one with 19 aborts of every thread. -/
def scattered (i j : Nat) : BitVec 16 :=
  if j < 20 then (if i = 0 then 20 else 0) else if j = 20 then 19 else 0

/-- The feature with 380 aborts gets no core, while one with 20 aborts gets core 0. -/
theorem scattered_aborts_lost :
    aborts 20 scattered 0 = 20 ∧ aborts 20 scattered 20 = 380 ∧ hottest .ycsb scattered 20 = some 0 ∧
      (mergeWeights .ycsb 20 scattered).guidelineGroup 0 = 0 ∧ (mergeWeights .ycsb 20 scattered).guidelineGroup 20 = 25 := by
  have hhot : hottest .ycsb scattered 20 = some 0 := (hottest_ycsb_iff scattered (by decide) 0).mpr ⟨rfl,by decide +kernel⟩
  have hfirst : 0 ∈ features ycsb.partition 0 := features_ycsb ▸ mem_range.mpr (by decide)
  refine ⟨by decide,by decide,hhot,?_,?_⟩
  · refine (group_eq_iff (by decide) (by decide) hhot hfirst (c := 0) (by decide)).mpr ?_
    rw [place_ycsb]
    decide +kernel
  · refine group_unassigned .ycsb (by decide) hhot fun _ => ?_
    rw [place_ycsb]
    decide +kernel

end

section
variable {L : Workload} {maxThread : Nat} {coreWeights : Nat → Nat → BitVec 16}

theorem quotient_isSome {weight maxDouble} (hw : 0 ≤ weight) (hle : weight ≤ maxDouble) (hpos : 0 < maxDouble) :
    ((L.quotient weight maxDouble).bind toUint8).isSome := by
  have hshare : weight/maxDouble ≤ 1 := (div_le_one hpos).mpr hle
  have hnonneg : 0 ≤ weight/maxDouble := div_nonneg hw hpos.le
  have hfits {x : ℚ} (h0 : 0 ≤ x) (h2 : x < 2) : (toUint8 x).isSome := by
    have hfloor : (⌊x⌋ : Int) < 2 := Int.floor_lt.mpr (by exact_mod_cast h2)
    rw [toUint8,if_pos h0,if_pos ⟨Int.floor_nonneg.mpr h0,by omega⟩]
    rfl
  cases L with
  | tpcc | ycsb =>
    rw [quotient,if_neg hpos.ne',Option.bind_some]
    exact hfits (by linarith) (by linarith)

/-- The loop leaves no maximum to divide by. -/
theorem weights_undefined (hpos : 0 < maxThread) (hzero : ∀ f < 512, weightDouble L maxThread coreWeights f = 0) (f : Nat) :
    (mergeWeights L maxThread coreWeights).weights f = none := by
  have hnone : hottest L coreWeights maxThread = none := by
    have hspec := hottest_spec L coreWeights hpos
    cases hhot : hottest L coreWeights maxThread with
    | none => rfl
    | some t =>
      rw [hhot] at hspec
      obtain ⟨ht,hq,-⟩ := hspec
      refine absurd (hpos.trans_le hq) (Nat.not_lt.mpr (le_of_eq ?_))
      rw [warm,countP_eq_zero]
      intro g hg hwarm
      rw [hzero g (mem_features_lt (tiles L) ht hg)] at hwarm
      exact absurd (of_decide_eq_true hwarm) (by norm_num)
  have hmax : (scan L.partition maxThread (weightDouble L maxThread coreWeights)).maxDouble = 0 := by
    rcases (scan_seen L.partition maxThread (weightDouble L maxThread coreWeights)).max_mem with h | ⟨i,hi,h⟩
    · exact h
    · rw [← h,hzero i hi]
  rw [mergeWeights_none L coreWeights hnone,normalise]
  cases L <;> simp [quotient,hmax]

end

/-- No weight is divided by zero and every weight fits its 8 bits, exactly if some thread has
a count that reaches a weight: any abort in TPC-C, one count of at least the number of
threads in YCSB. -/
theorem weights_defined_iff (L : Workload) (maxThread : Nat) (hpos : 0 < maxThread)
    (coreWeights : Nat → Nat → BitVec 16) :
    (∀ f < 512, ((mergeWeights L maxThread coreWeights).weights f).isSome) ↔
      ∃ f < 512, ∃ i < maxThread, L.Counts maxThread (coreWeights i f) := by
  constructor
  · intro h
    by_contra hnone
    have hzero : ∀ f < 512, weightDouble L maxThread coreWeights f = 0 := by
      intro f hf
      refine le_antisymm (not_lt.mp fun hlt => hnone ⟨f,hf,?_⟩) (weightDouble_nonneg L coreWeights f)
      exact (weightDouble_pos_iff L coreWeights hpos f).mp hlt
    have hsome := h 0 (by decide)
    rw [weights_undefined hpos hzero] at hsome
    cases hsome
  · rintro ⟨g,hg,hcounts⟩ f hf
    have hseen := scan_seen L.partition maxThread (weightDouble L maxThread coreWeights)
    have hmax := ((weightDouble_pos_iff L coreWeights hpos g).mpr hcounts).trans_le (hseen.le_max g hg)
    have hnormal : ((normalise L (scan L.partition maxThread (weightDouble L maxThread coreWeights))).weights f).isSome := by
      rw [normalise]
      dsimp only
      rw [hseen.sorted f hf,ofLex_toLex,neg_neg]
      exact quotient_isSome (weightDouble_nonneg L coreWeights f) (hseen.le_max f hf) hmax
    cases hhot : hottest L coreWeights maxThread with
    | none =>
      rw [mergeWeights_none L coreWeights hhot]
      exact hnormal
    | some t =>
      rw [mergeWeights_some L hpos hhot]
      exact assign_isSome hnormal

theorem weights_defined_one_abort :
    (List.range 512).all (fun f => ((mergeWeights .tpcc 20 (fun i j => if i = 3 ∧ j = 7 then 1 else 0)).weights f).isSome) = true := by
  have hdefined := (weights_defined_iff .tpcc 20 (by decide) (fun i j => if i = 3 ∧ j = 7 then 1 else 0)).mpr
    ⟨7,by decide,3,by decide,by unfold Workload.Counts; decide⟩
  exact List.all_eq_true.mpr (fun f hf => hdefined f (List.mem_range.mp hf))

/-- Before the first abort every weight is a quotient by zero. -/
theorem weights_undefined_idle : (mergeWeights .tpcc 20 (fun _ _ => 0)).weights = fun _ => none := by
  funext f
  refine weights_undefined (by decide) (fun f _ => ?_) f
  refine le_antisymm (not_lt.mp fun hlt => ?_) (weightDouble_nonneg ..)
  obtain ⟨i,-,hi⟩ := (weightDouble_pos_iff .tpcc _ (by decide) f).mp hlt
  exact absurd hi (Nat.lt_irrefl 0)

end AlNiCo.ModelUpdate
