import AlNiCo.Library.SlidingWindow
import AlNiCo.ModelUpdate.MergeWeights
import AlNiCo.Tpcc.Runners

/-! The abort weights of one worker: the window of aborted keys (`abort_queue_t`) and the
counters of its features that `update_weight` moves along with it. -/
namespace AlNiCo.ModelUpdate
open List
open Client (TxKey)
open Library.SlidingWindow

/-- `abort_queue_t`: the features in the window and `abort_depth`. -/
structure AbortQueue where
  abortKey : List Nat
  abortDepth : Nat

/-- The sum is a 32-bit one. -/
def hashK2fYcsb (ycsbCol : Nat) (col key : BitVec 32) : Nat :=
  (col.toNat*(512/ycsbCol)+key.toNat % (512/ycsbCol)) % 2^32

namespace AbortQueue

def init : AbortQueue := ⟨[],0⟩

/-- `push`; the pair is the feature that leaves the window, or the placeholder while the
window fills, and the feature that enters. `abort_depth` is not counted up here. -/
def push (q : AbortQueue) (newKey : TxKey) : AbortQueue × (Nat × Nat) :=
  let (rest,first) := if q.abortDepth = 4096 then (q.abortKey.tail,q.abortKey.headD 0) else (q.abortKey,512+1)
  let second := initFeaturePartition.hashK2f newKey
  (⟨rest ++ [second],q.abortDepth⟩,(first,second))

/-- `push_ycsb`, which moves the queue and its depth only in the build with `DYNAMIC`. -/
def pushYcsb (ycsbCol : Nat) (dynamic : Bool) (q : AbortQueue) (col key : BitVec 32) : AbortQueue × (Nat × Nat) :=
  let (q,first) :=
    if q.abortDepth = 4096 then ({ q with abortKey := q.abortKey.tail },q.abortKey.headD 0)
    else ({ q with abortDepth := if dynamic then q.abortDepth+1 else q.abortDepth },512+1)
  let second := hashK2fYcsb ycsbCol col key
  (if dynamic then { q with abortKey := q.abortKey ++ [second] } else q,(first,second))

end AbortQueue

def updateWeight (coreWeights : Nat → BitVec 16) (abortShift : Nat × Nat) : Nat → BitVec 16 :=
  let w := Function.update coreWeights abortShift.2 (coreWeights abortShift.2+1)
  Function.update w abortShift.1 (w abortShift.1-1)

/-- What a `worker_msg_t` keeps of its aborts: the queue and `core_weights[worker_thread_id]`. -/
structure Worker where
  abortQueue : AbortQueue
  coreWeights : Nat → BitVec 16

namespace Worker

def init : Worker := ⟨.init,fun _ => 0⟩

/-- `abort_key`; a key without a feature of its own is not recorded. -/
def abortKey (s : Worker) (key : TxKey) : Worker :=
  if key.first = 0xFFFF then s else
    let (q,abortShift) := s.abortQueue.push key
    ⟨q,updateWeight s.coreWeights abortShift⟩

def abortKeyYcsb (ycsbCol : Nat) (dynamic : Bool) (s : Worker) (op : BitVec 32 × BitVec 32) : Worker :=
  let (q,abortShift) := s.abortQueue.pushYcsb ycsbCol dynamic op.1 op.2
  ⟨q,updateWeight s.coreWeights abortShift⟩

end Worker

def recorded (keys : List TxKey) : List Nat := (keys.filter (fun key => key.first ≠ 0xFFFF)).map initFeaturePartition.hashK2f

def recordedYcsb (ycsbCol : Nat) (ops : List (BitVec 32 × BitVec 32)) : List Nat :=
  ops.map (fun op => hashK2fYcsb ycsbCol op.1 op.2)

/-- Each counter is the number of occurrences among the last 4096 records, and has room. -/
def Windowed (s : Worker) (records : List Nat) : Prop :=
  ∀ f < 512, (s.coreWeights f).toNat = (last 4096 records).count f ∧ (s.coreWeights f).toNat+1 < 2^16

section

theorem hashK2f_lt {key} (h : key.first.toNat < 12) : initFeaturePartition.hashK2f key < 512 := by
  have htable (t : Fin 12) : 0 < initFeaturePartition.size t ∧ initFeaturePartition.offset t+initFeaturePartition.size t ≤ 512 := by
    revert t
    decide
  obtain ⟨hpos,hle⟩ := htable ⟨key.first.toNat,h⟩
  have hmod := Nat.mod_lt key.second.toNat hpos
  rw [FeaturePartition.hashK2f]
  dsimp only at hmod hle
  omega

theorem hashK2fYcsb_lt {ycsbCol col} (hpos : 1 ≤ ycsbCol) (hle : ycsbCol ≤ 512)
    (hcol : col.toNat < ycsbCol) (key : BitVec 32) : hashK2fYcsb ycsbCol col key < 512 := by
  have hwidth : 0 < 512/ycsbCol := Nat.div_pos hle hpos
  have hmod := Nat.mod_lt key.toNat hwidth
  have htotal : ycsbCol*(512/ycsbCol) ≤ 512 := Nat.mul_div_le 512 ycsbCol
  have hrow : (col.toNat+1)*(512/ycsbCol) ≤ ycsbCol*(512/ycsbCol) := Nat.mul_le_mul_right _ hcol
  rw [Nat.succ_mul] at hrow
  rw [hashK2fYcsb]
  exact (Nat.mod_le _ _).trans_lt (by omega)

end

section
variable {coreWeights : Nat → BitVec 16} {f first second : Nat}

theorem updateWeight_apply (coreWeights : Nat → BitVec 16) (first second f : Nat) : updateWeight coreWeights (first,second) f =
      coreWeights f+(if second = f then 1 else 0)-(if first = f then 1 else 0) := by
  simp only [updateWeight,Function.update_apply]
  grind

/-- A moved window: `m` is the count after the old feature has left and the new one is in. -/
theorem updateWeight_moved {n m} (hw : coreWeights f = BitVec.ofNat 16 n)
    (hm : m+(if first = f then 1 else 0) = n+if second = f then 1 else 0) :
    updateWeight coreWeights (first,second) f = BitVec.ofNat 16 m := by
  have hcast := congrArg (BitVec.ofNat 16) hm
  rw [updateWeight_apply,hw]
  simp only [BitVec.ofNat_add] at hcast
  rw [BitVec.sub_eq_iff_eq_add]
  split at hcast <;> split at hcast <;> simp_all

/-- While the window fills, only the counter of the new feature changes. -/
theorem updateWeight_placeholder (hf : f < 512) {n} (hw : coreWeights f = BitVec.ofNat 16 n) :
    updateWeight coreWeights (512+1,second) f = BitVec.ofNat 16 (n+if second = f then 1 else 0) := by
  apply updateWeight_moved hw
  rw [if_neg (show ¬512+1 = f by omega),Nat.add_zero]

end

section

theorem recorded_append (keys : List TxKey) (key : TxKey) :
    recorded (keys ++ [key]) = if key.first = 0xFFFF then recorded keys else recorded keys ++ [initFeaturePartition.hashK2f key] := by
  rw [recorded,filter_append,map_append]
  split <;> simp_all [recorded]

/-- `push` never finds its window full: every counter counts all records. -/
theorem tpcc_counts (keys : List TxKey) : let s := keys.foldl Worker.abortKey .init
    s.abortQueue.abortDepth = 0 ∧ ∀ f < 512, s.coreWeights f = BitVec.ofNat 16 ((recorded keys).count f) := by
  induction keys using List.reverseRecOn with
  | nil => exact ⟨rfl,fun f hf => rfl⟩
  | append_singleton keys key ih =>
    obtain ⟨hdepth,hweights⟩ := ih
    rw [foldl_append,foldl_cons,foldl_nil,recorded_append,Worker.abortKey]
    split
    · exact ⟨hdepth,hweights⟩
    · simp only [AbortQueue.push,hdepth]
      refine ⟨trivial,fun f hf => ?_⟩
      rw [count_append,count_singleton]
      simpa using updateWeight_placeholder hf (hweights f hf)

theorem recorded_sublist {p keys} (h : p <+: keys) : (recorded p).length ≤ (recorded keys).length :=
  ((h.sublist.filter _).map _).length_le

theorem recorded_lt {keys} (hkeys : ∀ key ∈ keys, key.first.toNat < 12 ∨ key.first = 0xFFFF) : ∀ f ∈ recorded keys, f < 512 := by
  intro f hf
  obtain ⟨key,hkey,rfl⟩ := mem_map.mp hf
  obtain ⟨hmem,hne⟩ := mem_filter.mp hkey
  exact hashK2f_lt ((hkeys key hmem).resolve_right (by simpa using hne))

theorem exists_recorded_length {n} (keys : List TxKey) (h : n ≤ (recorded keys).length) : ∃ p, p <+: keys ∧ (recorded p).length = n := by
  induction keys using List.reverseRecOn with
  | nil => exact ⟨[], nil_prefix,(Nat.le_zero.mp h).symm⟩
  | append_singleton keys key ih =>
    obtain hle | hlt := Nat.lt_or_ge (recorded keys).length n
    · refine ⟨keys ++ [key],prefix_rfl,le_antisymm ?_ h⟩
      rw [recorded_append]
      split
      · exact hle.le
      · simpa using hle
    · obtain ⟨p,hp,hlen⟩ := ih hlt
      exact ⟨p,hp.trans (prefix_append _ _),hlen⟩

end

section
variable (ycsbCol : Nat)

/-- With `DYNAMIC` the queue is the window and each counter its count. -/
theorem ycsb_counts (ops : List (BitVec 32 × BitVec 32)) : let s := ops.foldl (Worker.abortKeyYcsb ycsbCol true) .init
    let records := recordedYcsb ycsbCol ops
    s.abortQueue.abortKey = last 4096 records ∧ s.abortQueue.abortDepth = min 4096 records.length ∧
      ∀ f < 512, s.coreWeights f = BitVec.ofNat 16 ((last 4096 records).count f) := by
  induction ops using List.reverseRecOn with
  | nil => simp [Worker.init,AbortQueue.init,recordedYcsb,last_of_le]
  | append_singleton ops op ih =>
    obtain ⟨hqueue,hdepth,hweights⟩ := ih
    have hrecords : recordedYcsb ycsbCol (ops ++ [op]) = recordedYcsb ycsbCol ops ++ [hashK2fYcsb ycsbCol op.1 op.2] :=
      map_append
    rw [foldl_append,foldl_cons,foldl_nil,hrecords]
    generalize recordedYcsb ycsbCol ops = records at *
    generalize ops.foldl (Worker.abortKeyYcsb ycsbCol true) .init = s at *
    simp only [Worker.abortKeyYcsb,AbortQueue.pushYcsb,if_true,length_append,length_singleton]
    obtain hfull | hfills := Nat.lt_or_ge records.length 4096
    · rw [if_neg (by omega)]
      refine ⟨by rw [last_append_of_lt hfull,hqueue],by dsimp only; omega,fun f hf => ?_⟩
      rw [count_last_append_of_lt hfull]
      exact updateWeight_placeholder hf (hweights f hf)
    · rw [if_pos (by omega)]
      refine ⟨by rw [last_append_of_le (by decide) hfills,hqueue],by dsimp only; omega,fun f hf => ?_⟩
      obtain ⟨y,rest,hy⟩ := last_eq_cons (by decide) hfills
      apply updateWeight_moved (hweights f hf)
      rw [hqueue,hy,headD_cons,← hy]
      exact count_last_append_of_le (by decide) hfills hy _ f

end

section

theorem windowed_of_counts {s records}
    (h : ∀ f < 512, s.coreWeights f = BitVec.ofNat 16 ((last 4096 records).count f)) : Windowed s records := by
  intro f hf
  have hle := count_last_le 4096 records f
  rw [h f hf,BitVec.toNat_ofNat,Nat.mod_eq_of_lt (by omega)]
  exact ⟨rfl,by omega⟩

/-- The weights are those of the window for every run of dynamic YCSB, and for a run of
TPC-C as long as it has recorded no more than the window holds. -/
theorem abort_window_iff (keys : List TxKey) (hkeys : ∀ key ∈ keys, key.first.toNat < 12 ∨ key.first = 0xFFFF)
    (ycsbCol : Nat) (ops : List (BitVec 32 × BitVec 32)) :
    ((∀ p, p <+: keys → Windowed (p.foldl Worker.abortKey .init) (recorded p)) ↔ (recorded keys).length ≤ 4096) ∧
    ∀ p, p <+: ops → Windowed (p.foldl (Worker.abortKeyYcsb ycsbCol true) .init) (recordedYcsb ycsbCol p) := by
  refine ⟨⟨fun h => ?_,fun hlen p hp => ?_⟩,fun p _ => windowed_of_counts (ycsb_counts ycsbCol p).2.2⟩
  · by_contra hlong
    -- the first record that should have left the window
    obtain ⟨p,hp,hlen⟩ := exists_recorded_length keys (show 4097 ≤ (recorded keys).length by omega)
    obtain ⟨y,rest,hy⟩ := List.exists_cons_of_length_eq_add_one hlen
    have hwindow : last 4096 (recorded p) = rest := by
      rw [last,hlen,hy,List.drop_succ_cons,List.drop_zero]
    have hlt : y < 512 := recorded_lt (fun key hkey => hkeys key (hp.subset hkey)) y (hy ▸ List.mem_cons_self)
    have hcount : (recorded p).count y = rest.count y+1 := by rw [hy,List.count_cons_self]
    have hle : (recorded p).count y ≤ 4097 := hlen ▸ List.count_le_length
    have hweight := (h p hp y hlt).1
    rw [(tpcc_counts p).2 y hlt,BitVec.toNat_ofNat,Nat.mod_eq_of_lt (by omega),hwindow] at hweight
    omega
  · apply windowed_of_counts
    rw [last_of_le ((recorded_sublist hp).trans hlen)]
    exact (tpcc_counts p).2

/-- Three of five aborted keys share a feature and one has none; 4097 operations fill the window and
move it once. -/
theorem abort_window_repeats :
    let keys : List TxKey := [⟨1,7⟩,⟨8,300⟩,⟨0xFFFF,0⟩,⟨1,7⟩,⟨1,27⟩]
    let ops : List (BitVec 32 × BitVec 32) := replicate 4096 (3,5) ++ [(4,5)]
    (recorded keys).count 17 = 3 ∧ Windowed (keys.foldl Worker.abortKey .init) (recorded keys) ∧
      Windowed (ops.foldl (Worker.abortKeyYcsb 20 true) .init) (recordedYcsb 20 ops) := by
  intro keys ops
  obtain ⟨htpcc,hycsb⟩ := abort_window_iff keys (by decide) 20 ops
  exact ⟨by decide,htpcc.mpr (by decide) keys prefix_rfl,hycsb ops prefix_rfl⟩

/-- The same row aborted 4097 times: its weight is one more than the window holds. -/
theorem window_never_moves :
    ¬Windowed ((List.replicate 4097 ⟨0,0⟩).foldl Worker.abortKey .init) (recorded (List.replicate 4097 ⟨0,0⟩)) := by
  intro h
  have hrecorded : recorded (List.replicate 4097 ⟨0,0⟩) = List.replicate 4097 0 := by
    rw [recorded,List.filter_replicate_of_pos (by decide),List.map_replicate]
    rfl
  have hweight := (h 0 (by decide)).1
  rw [(tpcc_counts _).2 0 (by decide),hrecorded,List.count_replicate_self,last,List.length_replicate,
    List.drop_replicate,List.count_replicate_self] at hweight
  exact absurd hweight (by decide)

end

section Indices
open Tpcc.Runners

/-- The threads of `run_benchmark` that call `worker_msg_t::init`: with the NIC the two
owners of the deliveries do not. -/
def callsInit (b : Build) (r : Runner) : Bool :=
  match b with
  | .nic => r.wOwn = 0
  | .colocated | .central | .strife | .static => true

/-- Both indices are inside `core_weights[thread_id]`, which has `FEATURE_SIZE + 1` entries. -/
def InArray (abortShift : Nat × Nat) : Prop := abortShift.1 < 512+1 ∧ abortShift.2 < 512+1

/-- The indices that `update_weight` gets for `key` after the keys before it. -/
def nextShift (keys : List TxKey) (key : TxKey) : Nat × Nat :=
  ((keys.foldl Worker.abortKey .init).abortQueue.push key).2

def nextShiftYcsb (ycsbCol : Nat) (dynamic : Bool) (ops : List (BitVec 32 × BitVec 32)) (op : BitVec 32 × BitVec 32) :
    Nat × Nat :=
  ((ops.foldl (Worker.abortKeyYcsb ycsbCol dynamic) .init).abortQueue.pushYcsb ycsbCol dynamic op.1 op.2).2

/-- An extra thread calls `init` in every build but that of the NIC. -/
theorem runnerId_lt_iff {b maxThread nwh r} (hr : r ∈ spawn b maxThread maxThread nwh)
    (hinit : callsInit b r = true) : r.runnerId < maxThread ↔ b = .nic ∨ r.runnerId ∉ [maxThread,maxThread+1] := by
  obtain ⟨i,own⟩ := r
  obtain ⟨hi,rfl⟩ := (mem_spawn ..).mp hr
  simp only [mem_cons,not_mem_nil,or_false,not_or]
  cases b with
  | nic =>
    refine iff_of_true ?_ (.inl rfl)
    by_contra hge
    simp [callsInit,wOwn,hge] at hinit
  | colocated | central | strife | static =>
    simp only [reduceCtorEq,false_or]
    omega

theorem ycsb_static_depth (ycsbCol : Nat) (ops : List (BitVec 32 × BitVec 32)) :
    (ops.foldl (Worker.abortKeyYcsb ycsbCol false) .init).abortQueue.abortDepth = 0 := by
  induction ops using List.reverseRecOn with
  | nil => rfl
  | append_singleton ops op ih =>
    rw [foldl_append,foldl_cons,foldl_nil]
    simp [Worker.abortKeyYcsb,AbortQueue.pushYcsb,ih]

/-- The index of the feature that leaves: the placeholder until the window is full. -/
theorem pushYcsb_first (ycsbCol : Nat) (dynamic : Bool) (q : AbortQueue) (op : BitVec 32 × BitVec 32) :
    (q.pushYcsb ycsbCol dynamic op.1 op.2).2 =
      (if q.abortDepth = 4096 then q.abortKey.headD 0 else 512+1,hashK2fYcsb ycsbCol op.1 op.2) := by
  by_cases h : q.abortDepth = 4096 <;> simp [AbortQueue.pushYcsb,h]

theorem nextShiftYcsb_inArray_iff {ycsbCol} (hpos : 1 ≤ ycsbCol) (hle : ycsbCol ≤ 512) (dynamic : Bool) {ops op}
    (hops : ∀ o ∈ op :: ops, o.1.toNat < ycsbCol) :
    InArray (nextShiftYcsb ycsbCol dynamic ops op) ↔ dynamic = true ∧ 4096 ≤ ops.length := by
  have hsecond := hashK2fYcsb_lt hpos hle (hops op mem_cons_self) op.2
  rw [nextShiftYcsb,pushYcsb_first,InArray]
  cases dynamic with
  | false =>
    rw [if_neg (by rw [ycsb_static_depth]; decide)]
    simp
  | true =>
    obtain ⟨hqueue,hdepth,-⟩ := ycsb_counts ycsbCol ops
    rw [recordedYcsb,length_map] at hdepth
    rw [hqueue,hdepth]
    obtain hfills | hfull := Nat.lt_or_ge ops.length 4096
    · rw [if_neg (by omega)]
      simp only [lt_irrefl,false_and,true_and,false_iff]
      omega
    · rw [if_pos (by omega)]
      obtain ⟨y,rest,hy⟩ := last_eq_cons (by decide) (show 4096 ≤ (recordedYcsb ycsbCol ops).length by
        rwa [recordedYcsb,length_map])
      have hmem : y ∈ recordedYcsb ycsbCol ops := mem_of_mem_drop (hy ▸ mem_cons_self : y ∈ last 4096 _)
      obtain ⟨o,ho,rfl⟩ := mem_map.mp hmem
      have hfirst := hashK2fYcsb_lt hpos hle (hops o (mem_cons_of_mem _ ho)) o.2
      rw [hy,headD_cons]
      exact iff_of_true ⟨by omega,by omega⟩ ⟨rfl,hfull⟩

/-- The thread ids and the indices that `update_weight` gets: the id is inside for a thread
that is not an extra one outside the NIC build; the index of the new feature always is, the
other one only in a dynamic YCSB build once 4096 keys are recorded. -/
theorem weight_indices_iff (b : Build) (maxThread nwh : Nat) (r : Runner) (hr : r ∈ spawn b maxThread maxThread nwh)
    (hinit : callsInit b r = true) (keys : List TxKey) (key : TxKey) (hkey : key.first.toNat < 12)
    (ycsbCol : Nat) (hpos : 1 ≤ ycsbCol) (hle : ycsbCol ≤ 512) (dynamic : Bool)
    (ops : List (BitVec 32 × BitVec 32)) (op : BitVec 32 × BitVec 32) (hops : ∀ o ∈ op :: ops, o.1.toNat < ycsbCol) :
    (r.runnerId < maxThread ↔ b = .nic ∨ r.runnerId ∉ [maxThread,maxThread+1]) ∧
    (nextShift keys key).2 < 512 ∧ ¬InArray (nextShift keys key) ∧
    (nextShiftYcsb ycsbCol dynamic ops op).2 < 512 ∧
    (InArray (nextShiftYcsb ycsbCol dynamic ops op) ↔ dynamic = true ∧ 4096 ≤ ops.length) := by
  refine ⟨runnerId_lt_iff hr hinit,hashK2f_lt hkey,fun hin => ?_,?_,nextShiftYcsb_inArray_iff hpos hle dynamic hops⟩
  · have hfirst := hin.1
    simp [nextShift,AbortQueue.push,(tpcc_counts keys).1] at hfirst
  · rw [nextShiftYcsb,pushYcsb_first]
    exact hashK2fYcsb_lt hpos hle (hops op List.mem_cons_self) op.2

/-- A worker of the NIC build that has recorded three keys, or as many operations as the window holds. -/
theorem weight_indices_full_window :
    let keys : List TxKey := [⟨1,7⟩,⟨8,300⟩,⟨1,7⟩]
    let ops : List (BitVec 32 × BitVec 32) := replicate 4096 (2,9)
    ⟨3,0⟩ ∈ spawn .nic 20 20 4 ∧ (nextShift keys ⟨8,7⟩).2 < 512 ∧ ¬InArray (nextShift keys ⟨8,7⟩) ∧
      (nextShiftYcsb 20 true ops (0,7)).2 < 512 ∧ InArray (nextShiftYcsb 20 true ops (0,7)) := by
  intro keys ops
  have hr : ⟨3,0⟩ ∈ spawn .nic 20 20 4 := by decide
  have hops : ∀ o ∈ (0,7) :: ops, o.1.toNat < 20 := by
    refine forall_mem_cons.mpr ⟨by decide,fun o ho => ?_⟩
    rw [eq_of_mem_replicate ho]
    decide
  obtain ⟨-,htpcc,hout,hycsb,hin⟩ := weight_indices_iff .nic 20 4 ⟨3,0⟩ hr (by decide) keys ⟨8,7⟩ (by decide) 20 (by decide)
    (by decide) true ops (0,7) hops
  exact ⟨hr,htpcc,hout,hycsb,hin.mpr ⟨rfl,length_replicate.ge⟩⟩

/-- The first aborted key of a thread already decrements an entry behind the array, and
thread 20 of the static build has no array. -/
theorem placeholder_outside :
    ¬InArray (nextShift [] ⟨0,1⟩) ∧
      ∃ r ∈ spawn .static 20 20 1, callsInit .static r = true ∧ ¬r.runnerId < 20 := by
  refine ⟨fun hin => ?_,⟨20,0⟩,by decide,by decide,by decide⟩
  have hfirst := hin.1
  simp [nextShift,AbortQueue.push,Worker.init,AbortQueue.init] at hfirst

end Indices

end AlNiCo.ModelUpdate
