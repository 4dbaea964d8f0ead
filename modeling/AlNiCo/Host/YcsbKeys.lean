import AlNiCo.Host.YcsbBuffers

/-! The keys of a YCSB request. The client draws them until they are new, after a while from a
shifted range; the server moves each by the offset of the request's column and wraps around at the
end of the table, which the loader has filled in segments. -/
namespace AlNiCo.Client.Ycsb
open Library.ByteMemory List

section
variable (tx : Tx)

def Tx.take (x : Fin 20) (i : Nat) (draw : Draw) (key : BitVec 32) : Tx :=
  let tx := { tx with ycsbSet := key :: tx.ycsbSet }
  let tx := if draw.isWrite then tx.addToYcsbWriteBit i else tx
  if draw.featured then tx.addToYcsbWritef i x key else tx.addToYcsbRead i x key

theorem Tx.turn_eq (x : Fin 20) (i : Nat) (draw : Draw) :
    tx.turn x i draw = (draw.samples.find? (fun key => key ∉ tx.ycsbSet)).map (tx.take x i draw) := rfl

/-- After 49069 requests the samples are shifted, and the multiples of 25 are left out. -/
def nextKey (ycsbCount : Nat) (ycsbSet samples : List (BitVec 32)) : Option (BitVec 32) :=
  if ycsbCount > 49069 then (samples.map (· + 20012)).find? (fun key => !(ycsbSet.contains key || key % 25 == 0))
  else samples.find? (fun key => !ycsbSet.contains key)

def Tx.turnAt (ycsbCount : Nat) (x : Fin 20) (i : Nat) (draw : Draw) : Option Tx :=
  (nextKey ycsbCount tx.ycsbSet draw.samples).map (tx.take x i draw)

def fillAt (ycsbCount : Nat) (x : Fin 20) : Nat → List Draw → Tx → Option Tx
  | _,[],tx => some tx
  | i,draw :: draws,tx => (tx.turnAt ycsbCount x i draw).bind (fillAt ycsbCount x (i+1) draws)

def ycsbPartitionalAt (ycsbCount : Nat) (x : Fin 20) (draws : List Draw) : Option Tx :=
  fillAt ycsbCount x 0 draws tx.begin

def Draw.shift (ycsbCount : Nat) (draw : Draw) : Draw :=
  if ycsbCount > 49069 then { draw with samples := (draw.samples.map (· + 20012)).filter (fun key => key % 25 ≠ 0) } else draw

end

section
variable {ycsbCount : Nat}

theorem turnAt_eq (tx : Tx) (x : Fin 20) (i : Nat) (draw : Draw) : tx.turnAt ycsbCount x i draw = tx.turn x i (draw.shift ycsbCount) := by
  have hfresh (key : BitVec 32) : (!tx.ycsbSet.contains key) = decide (key ∉ tx.ycsbSet) := by
    rw [contains_eq_mem,decide_not]
  rw [Tx.turnAt,nextKey,Draw.shift]
  by_cases hcount : ycsbCount > 49069
  · rw [if_pos hcount,if_pos hcount,Tx.turn_eq,find?_filter]
    have htest : (fun key : BitVec 32 => !(tx.ycsbSet.contains key || key % 25 == 0)) =
        fun key => decide (decide (key % 25 ≠ 0) = true ∧ decide (key ∉ tx.ycsbSet) = true) := by
      funext key
      have hmod : (!(key % 25 == 0)) = decide (key % 25 ≠ 0) := decide_not.symm
      rw [Bool.not_or,hfresh,hmod,Bool.and_comm]
      simp only [decide_eq_true_eq,Bool.decide_and]
    rw [htest]
    rfl
  · rw [if_neg hcount,if_neg hcount,Tx.turn_eq]
    simp only [hfresh]

theorem fillAt_eq (x : Fin 20) (i : Nat) (draws : List Draw) (tx : Tx) :
    fillAt ycsbCount x i draws tx = fill x i (draws.map (Draw.shift ycsbCount)) tx := by
  induction draws generalizing i tx with
  | nil => rfl
  | cons draw draws ih =>
    rw [fillAt,map_cons,fill,turnAt_eq]
    congr 1
    funext tx'
    exact ih (i+1) tx'

/-- The shifted generator is the plain one on other samples, so that what holds of every request of
the one holds of every request of the other. -/
theorem ycsbPartitionalAt_eq (tx : Tx) (x : Fin 20) (draws : List Draw) :
    ycsbPartitionalAt tx ycsbCount x draws = ycsbPartitional tx x (draws.map (Draw.shift ycsbCount)) :=
  fillAt_eq x 0 draws tx.begin

def rangeStart (ycsbCount : Nat) : Nat := if ycsbCount > 49069 then 20012 else 0

theorem mem_shift {draw : Draw} (hsamples : ∀ sample ∈ draw.samples, sample.toNat < 10000000) {key : BitVec 32}
    (hkey : key ∈ (draw.shift ycsbCount).samples) :
    rangeStart ycsbCount ≤ key.toNat ∧ key.toNat < rangeStart ycsbCount+10000000 := by
  rw [Draw.shift] at hkey
  rw [rangeStart]
  by_cases hcount : ycsbCount > 49069
  · rw [if_pos hcount] at hkey ⊢
    obtain ⟨sample,hsample,rfl⟩ := mem_map.mp (mem_filter.mp hkey).1
    have hlt := hsamples sample hsample
    rw [BitVec.toNat_add,show (20012 : BitVec 32).toNat = 20012 from rfl]
    omega
  · rw [if_neg hcount] at hkey ⊢
    have hlt := hsamples key hkey
    omega

end

section
variable {x : Fin 20} {keys : List (BitVec 32)} {tx tx' : Tx}

/-- The keys drawn so far are new each, and they are in the arrays under the request's column. -/
structure Keyed (x : Fin 20) (keys : List (BitVec 32)) (tx : Tx) : Prop where
  nodup : keys.Nodup
  set : ∀ key ∈ keys, key ∈ tx.ycsbSet
  key : ∀ i key, keys[i]? = some key → word tx.ycsbKeyArrays (4*i) = key
  col : ∀ i < keys.length, load 2 tx.ycsbColArrays (2*i) = BitVec.ofNat 16 x.val

theorem take_arrays (tx : Tx) (x : Fin 20) (i : Nat) (draw : Draw) (key : BitVec 32) :
    (tx.take x i draw key).ycsbKeyArrays = storeWord tx.ycsbKeyArrays (4*i) key ∧
      (tx.take x i draw key).ycsbColArrays = store 2 tx.ycsbColArrays (2*i) (BitVec.ofNat 16 x.val) ∧
      (tx.take x i draw key).ycsbSet = key :: tx.ycsbSet := by
  rw [Tx.take]
  cases draw.isWrite <;> cases draw.featured <;> exact ⟨rfl,rfl,rfl⟩

theorem Keyed.take (h : Keyed x keys tx) (draw : Draw) {key} (hnew : key ∉ tx.ycsbSet) :
    Keyed x (keys ++ [key]) (tx.take x keys.length draw key) := by
  obtain ⟨hkeys,hcols,hset⟩ := take_arrays tx x keys.length draw key
  refine ⟨?_,?_,?_,?_⟩
  · refine List.Nodup.append h.nodup (nodup_singleton key) ?_
    intro other hother hsingle
    rw [mem_singleton] at hsingle
    subst hsingle
    exact hnew (h.set other hother)
  · intro other hother
    rw [hset,mem_cons]
    rcases mem_append.mp hother with hold | hsingle
    · exact Or.inr (h.set other hold)
    · exact Or.inl (mem_singleton.mp hsingle)
  · intro i other hi
    rw [hkeys]
    rcases Nat.lt_trichotomy i keys.length with hlt | rfl | hgt
    · rw [getElem?_append_left hlt] at hi
      rw [word_storeWord _ (by omega)]
      exact h.key i other hi
    · rw [getElem?_concat_length] at hi
      cases hi
      exact word_storeWord_self _ _ _
    · rw [getElem?_eq_none (by simpa using hgt)] at hi
      cases hi
  · intro i hi
    rw [length_append,length_singleton] at hi
    rw [hcols]
    rcases Nat.lt_or_eq_of_le (Nat.lt_succ_iff.mp hi) with hlt | rfl
    · rw [load_store _ (by omega)]
      exact h.col i hlt
    · exact load_store_self _ _ _

theorem Keyed.turn (h : Keyed x keys tx) {draw} (hturn : tx.turn x keys.length draw = some tx') :
    ∃ key ∈ draw.samples, Keyed x (keys ++ [key]) tx' := by
  rw [Tx.turn_eq] at hturn
  obtain ⟨key,hfind,rfl⟩ := Option.map_eq_some_iff.mp hturn
  have hnew : key ∉ tx.ycsbSet := by simpa using find?_some hfind
  exact ⟨key,mem_of_find?_eq_some hfind,h.take draw hnew⟩

/-- Over the whole loop: as many new keys as turns, each one of the samples. -/
theorem Keyed.fill {draws} (h : Keyed x keys tx) (hfill : fill x keys.length draws tx = some tx') :
    ∃ more, more.length = draws.length ∧ (∀ key ∈ more, ∃ draw ∈ draws, key ∈ draw.samples) ∧ Keyed x (keys ++ more) tx' := by
  induction draws generalizing keys tx with
  | nil =>
    cases hfill
    exact ⟨[],rfl,fun key hkey => absurd hkey not_mem_nil,by rwa [append_nil]⟩
  | cons draw draws ih =>
    obtain ⟨tx1,hturn,hrest⟩ := Option.bind_eq_some_iff.mp hfill
    obtain ⟨key,hkey,hnext⟩ := h.turn hturn
    have hlength : keys.length+1 = (keys ++ [key]).length := by rw [length_append,length_singleton]
    rw [hlength] at hrest
    obtain ⟨more,hmore,hdrawn,hall⟩ := ih hnext hrest
    refine ⟨key :: more,by rw [length_cons,length_cons,hmore],?_,by rwa [append_assoc] at hall⟩
    intro other hother
    rcases mem_cons.mp hother with rfl | hother
    · exact ⟨draw,mem_cons_self,hkey⟩
    · obtain ⟨turn,hturn,hmem⟩ := hdrawn other hother
      exact ⟨turn,mem_cons_of_mem _ hturn,hmem⟩

theorem keyed_of_partitional {draws} (h : ycsbPartitional tx x draws = some tx') :
    ∃ keys, keys.length = draws.length ∧ (∀ key ∈ keys, ∃ draw ∈ draws, key ∈ draw.samples) ∧ Keyed x keys tx' := by
  have hbegin : Keyed x [] tx.begin :=
    ⟨nodup_nil,fun key hkey => absurd hkey not_mem_nil,fun i key hkey => by simp at hkey,fun i hi => absurd hi (Nat.not_lt_zero i)⟩
  exact hbegin.fill h

end

end AlNiCo.Client.Ycsb

namespace AlNiCo.Host.Message
open Library.ByteMemory Client Client.Ycsb

section

def ycsbPrepopulationThread (keyBegin keyEnd : Nat) : List Nat := List.range' keyBegin (keyEnd-keyBegin)

def startThreads (segmentSize : Nat) : Nat → Nat → Nat → List Nat
  | 0,_,_ => []
  | threads+1,keyBegin,keyEnd =>
    ycsbPrepopulationThread keyBegin keyEnd ++ startThreads segmentSize threads (keyBegin+segmentSize) (keyEnd+segmentSize)

/-- `ycsb_table_size` is 10000000, and there are 32 threads. -/
def prepopulate : List Nat :=
  let segmentSize := 10000000/32
  startThreads segmentSize 32 0 segmentSize

theorem startThreads_eq (segmentSize threads keyBegin : Nat) :
    startThreads segmentSize threads keyBegin (keyBegin+segmentSize) = List.range' keyBegin (threads*segmentSize) := by
  induction threads generalizing keyBegin with
  | zero => rw [startThreads,Nat.zero_mul,List.range'_zero]
  | succ threads ih =>
    rw [startThreads,ih,ycsbPrepopulationThread,Nat.add_sub_cancel_left,List.range'_append_1,Nat.succ_mul,Nat.add_comm]

/-- The segments leave nothing over. -/
theorem mem_prepopulate {key} : key ∈ prepopulate ↔ key < 10000000 := by
  have hsegments := startThreads_eq (10000000/32) 32 0
  rw [Nat.zero_add] at hsegments
  rw [prepopulate,hsegments,List.mem_range'_1]
  omega

end

def Msg.getYcsbKeyOf (msg : Msg) (ycsbCol i : Nat) : BitVec 32 :=
  let key := word msg.memory ((msg.reqP 1).addr+4*i)
  let col := load 2 msg.memory ((msg.reqP 2).addr+2*i)
  (key+col.setWidth 32*BitVec.ofNat 32 (10000000/ycsbCol)) % 10000000

def Msg.ycsbKeys (msg : Msg) (ycsbCol ycsbSize : Nat) : List (BitVec 32) := (List.range ycsbSize).map (msg.getYcsbKeyOf ycsbCol)

section
variable {col share start : Nat}

def moved (col share key : Nat) : Nat := (key+col*share) % 10000000

/-- Moving by one offset keeps the keys of a range of the table's size apart. -/
theorem moved_injective {key key'} (hkey : start ≤ key ∧ key < start+10000000)
    (hkey' : start ≤ key' ∧ key' < start+10000000) (h : moved col share key = moved col share key') : key = key' := by
  rw [moved,moved] at h
  generalize col*share = offset at h
  omega

theorem toNat_moved {key} (hcol : col < 20) (hshare : share ≤ 10000000) (hkey : key.toNat < 20012+10000000) :
    ((key+(BitVec.ofNat 16 col).setWidth 32*BitVec.ofNat 32 share) % 10000000).toNat = moved col share key.toNat := by
  have hproduct : col*share ≤ 20*10000000 := Nat.mul_le_mul hcol.le hshare
  have hcast : ((BitVec.ofNat 16 col).setWidth 32).toNat = col := by
    rw [BitVec.toNat_setWidth,BitVec.toNat_ofNat]
    omega
  have hsize : share % 2^32 = share := Nat.mod_eq_of_lt (by omega)
  rw [BitVec.toNat_umod,BitVec.toNat_add,BitVec.toNat_mul,hcast,BitVec.toNat_ofNat,hsize,
    Nat.mod_eq_of_lt (show col*share < 2^32 by omega),Nat.mod_eq_of_lt (show key.toNat+col*share < 2^32 by omega)]
  rfl

end

section
variable {call : Call} {rpcnum : Nat} {buffer m : Memory} {tx : Ycsb.Tx} {x : Fin 20} {keys : List (BitVec 32)}

/-- The server reads every key with the request's column. -/
theorem getYcsbKeyOf_eq (hkeyed : Keyed x keys tx) (hreq : call.req = tx.req keys.length)
    (hm : Received call (pushNewCallWrite call rpcnum buffer).data m) (reqP : Nat → ReqPair) (ycsbCol : Nat) {i key}
    (hi : keys[i]? = some key) :
    (deserialization reqP m).getYcsbKeyOf ycsbCol i =
      (key+(BitVec.ofNat 16 x.val).setWidth 32*BitVec.ofNat 32 (10000000/ycsbCol)) % 10000000 := by
  have hlt := (List.getElem?_eq_some_iff.mp hi).1
  have hnum : call.req.length < 256 := by rw [hreq,Ycsb.Tx.length_req]; decide
  have hkeys : call.req[1]? = some (slice tx.ycsbKeyArrays 0 (4*keys.length)) := by rw [hreq]; rfl
  have hcols : call.req[2]? = some (slice tx.ycsbColArrays 0 (2*keys.length)) := by rw [hreq]; rfl
  have hkey : word m (call.segment 1+4*i) = key := (hm.load (w := 4) hkeys (by omega)).trans (hkeyed.key i key hi)
  have hcol : load 2 m (call.segment 2+2*i) = BitVec.ofNat 16 x.val :=
    (hm.load (w := 2) hcols (by omega)).trans (hkeyed.col i hlt)
  rw [Msg.getYcsbKeyOf,hm.reqP hnum reqP hkeys,hm.reqP hnum reqP hcols]
  change (word m (call.segment 1+4*i)+(load 2 m (call.segment 2+2*i)).setWidth 32*_) % _ = _
  rw [hkey,hcol]

theorem ycsbKeys_eq (hkeyed : Keyed x keys tx) (hreq : call.req = tx.req keys.length)
    (hm : Received call (pushNewCallWrite call rpcnum buffer).data m) (reqP : Nat → ReqPair) (ycsbCol : Nat) :
    (deserialization reqP m).ycsbKeys ycsbCol keys.length =
      keys.map (fun key => (key+(BitVec.ofNat 16 x.val).setWidth 32*BitVec.ofNat 32 (10000000/ycsbCol)) % 10000000) := by
  refine List.ext_getElem? (fun i => ?_)
  rw [Msg.ycsbKeys,List.getElem?_map,List.getElem?_map]
  by_cases hi : i < keys.length
  · have hkey := List.getElem?_eq_getElem hi
    rw [List.getElem?_range hi,hkey,Option.map_some,Option.map_some,getYcsbKeyOf_eq hkeyed hreq hm reqP ycsbCol hkey]
  · rw [List.getElem?_eq_none (by rw [List.length_range]; omega),List.getElem?_eq_none (by omega)]
    rfl

end

/-- No two operations of a request are on the same row of the server, and the loader has put all of
these rows into the table; before and after the shift, with any number of columns in the build. -/
theorem ycsb_keys_distinct_and_loaded (ycsbCount : Nat) (tx : Ycsb.Tx) (x : Fin 20) (draws : List Draw) (tx' : Ycsb.Tx)
    (hsamples : ∀ draw ∈ draws, ∀ sample ∈ draw.samples, sample.toNat < 10000000)
    (hbuild : ycsbPartitionalAt tx ycsbCount x draws = some tx') (call : Call) (hreq : call.req = tx'.req draws.length)
    (rpcnum : Nat) (buffer m : Memory) (hm : Received call (pushNewCallWrite call rpcnum buffer).data m)
    (reqP : Nat → ReqPair) (ycsbCol : Nat) :
    let keys := (deserialization reqP m).ycsbKeys ycsbCol draws.length
    keys.length = draws.length ∧ keys.Nodup ∧ ∀ key ∈ keys, key.toNat ∈ prepopulate := by
  rw [ycsbPartitionalAt_eq] at hbuild
  obtain ⟨keys,hlength,hdrawn,hkeyed⟩ := keyed_of_partitional hbuild
  rw [List.length_map] at hlength
  have hrange (key : BitVec 32) (hkey : key ∈ keys) :
      rangeStart ycsbCount ≤ key.toNat ∧ key.toNat < rangeStart ycsbCount+10000000 := by
    obtain ⟨shifted,hshifted,hmem⟩ := hdrawn key hkey
    obtain ⟨draw,hdraw,rfl⟩ := List.mem_map.mp hshifted
    exact mem_shift (hsamples draw hdraw) hmem
  have hstart : rangeStart ycsbCount ≤ 20012 := by
    rw [rangeStart]
    split
    · exact le_rfl
    · exact Nat.zero_le _
  have hnat (key : BitVec 32) (hkey : key ∈ keys) :=
    toNat_moved x.isLt (Nat.div_le_self 10000000 ycsbCol) ((hrange key hkey).2.trans_le (Nat.add_le_add_right hstart _))
  rw [← hlength] at hreq ⊢
  dsimp only
  rw [ycsbKeys_eq hkeyed hreq hm reqP ycsbCol]
  refine ⟨List.length_map _,?_,?_⟩
  · refine List.Nodup.map_on (fun key hkey key' hkey' heq => ?_) hkeyed.nodup
    have hmoved := congrArg BitVec.toNat heq
    rw [hnat key hkey,hnat key' hkey'] at hmoved
    exact BitVec.eq_of_toNat_eq (moved_injective (hrange key hkey) (hrange key' hkey') hmoved)
  · intro key hkey
    obtain ⟨drawn,hmem,rfl⟩ := List.mem_map.mp hkey
    rw [mem_prepopulate,hnat drawn hmem]
    exact Nat.mod_lt _ (by decide)

/-- The last row twice, after the shift and in the last column. -/
def lastRows : List Draw := [⟨[9999999],true,true⟩,⟨[9999999,9999998],false,false⟩]

theorem ycsb_keys_distinct_and_loaded_last : (∀ draw ∈ lastRows, ∀ sample ∈ draw.samples, sample.toNat < 10000000) ∧
    ∃ tx' call, ycsbPartitionalAt emptyTx 50000 19 lastRows = some tx' ∧ call.req = tx'.req 2 ∧
      let keys := (deserialization (fun _ => ⟨0,0⟩) (pushNewCallWrite call 0 (fun _ => 0)).data).ycsbKeys 20 2
      keys.Nodup ∧ ∀ key ∈ keys, key.toNat ∈ prepopulate := by
  have hsamples : ∀ draw ∈ lastRows, ∀ sample ∈ draw.samples, sample.toNat < 10000000 := by simp [lastRows]
  obtain ⟨tx',hbuild⟩ : ∃ tx', ycsbPartitionalAt emptyTx 50000 19 lastRows = some tx' :=
    Option.isSome_iff_exists.mp (by decide)
  let call : Call := ⟨0,0,0,0,0,0,0,tx'.req 2,none,tx'.req_fits (by decide)⟩
  refine ⟨hsamples,tx',call,hbuild,rfl,?_⟩
  exact (ycsb_keys_distinct_and_loaded 50000 emptyTx 19 lastRows tx' hsamples hbuild call rfl 0 (fun _ => 0) _
    (fun _ _ => rfl) (fun _ => ⟨0,0⟩) 20).2

end AlNiCo.Host.Message
