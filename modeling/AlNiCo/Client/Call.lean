import AlNiCo.Library.ByteMemory

/-! `push_new_call_write` of the client: the id of the request, its header, its
sizes and segments, and the tail word behind them, written into the send buffer
of the slot. The buffer keeps what earlier requests left in it. -/
namespace AlNiCo.Client
open Library.ByteMemory List

/-- The arguments of `push_new_call_write`, with the ids of the calling thread. -/
structure Call where
  rpcType : BitVec 8
  myNodeid : BitVec 8
  serverNodeid : BitVec 8
  threadId : BitVec 8
  txnType : BitVec 16
  txId : BitVec 8
  partitionHint : BitVec 32
  /-- The segments of the request, each `req[i].size` bytes at `req[i].addr`. -/
  req : List (List (BitVec 8))
  /-- `YCSBSIZE`, in the `YCSBplusT` build. -/
  ycsbSize : Option Nat
  fits : 28+4*req.length+(req.map List.length).sum < 2^32

/-- The size of the request in bytes, which is where its tail word goes. -/
def Call.location (c : Call) : Nat := 28+4*c.req.length+(c.req.map List.length).sum

def skipId (rpcnum : Nat) (head : BitVec 32) : Nat :=
  if rpcnum % 1000 = head.toNat ∨ rpcnum % 1000+100 = head.toNat then (rpcnum+1) % 1000 else rpcnum

/-- The byte `read_num`, which only the `YCSBplusT` build sets: its fourth segment has the values to write. -/
def Call.readNum (c : Call) : List (BitVec 8) :=
  match c.ycsbSize with
  | some size => [BitVec.ofNat 8 size-BitVec.ofNat 8 ((c.req.getD 3 []).length/384)]
  | none => []

theorem Call.length_readNum_le (c : Call) : c.readNum.length ≤ 1 := by
  unfold readNum
  split
  · exact le_rfl
  · exact Nat.zero_le 1

/-- The fields of `ReqHead` that are set before the segments. -/
def Call.storeHead (c : Call) (id : BitVec 32) (m : Memory) : Memory :=
  let m := store 2 m 8 c.txnType
  let m := copy m 0 [c.rpcType,c.myNodeid,c.serverNodeid,c.threadId]
  let m := storeWord m 4 id
  let m := copy m 13 [c.txId]
  let m := copy m 10 [BitVec.ofNat 8 c.req.length]
  let m := copy m 11 c.readNum
  storeWord m 24 c.partitionHint

def storeSizes : List (List (BitVec 8)) → Nat → Memory → Memory
  | [],_,m => m
  | seg :: req,location,m => storeSizes req (location+4) (storeWord m location (BitVec.ofNat 32 seg.length))

def copySegments : List (List (BitVec 8)) → Nat → Memory → Memory
  | [],_,m => m
  | seg :: req,location,m => copySegments req (location+seg.length) (copy m location seg)

/-- Header, sizes and segments; the magic word and the size come last. -/
def Call.fill (c : Call) (id : BitVec 32) (m : Memory) : Memory :=
  copySegments c.req (28+4*c.req.length) (storeSizes c.req 28 (c.storeHead id m))

/-- The tail word toggles against what the buffer holds there. -/
def toggle (old : BitVec 32) : BitVec 32 := if old = 111 then 222 else 111

structure Pushed where
  rpcnum : Nat
  rpcId : BitVec 32
  data : Memory

def pushNewCallWrite (c : Call) (rpcnum : Nat) (m : Memory) : Pushed :=
  let rpcnum := skipId rpcnum (word m 4)
  let id := BitVec.ofNat 32 (rpcnum % 1000)
  let m := c.fill id m
  let tail := toggle (word m c.location)
  let m := storeWord m c.location tail
  let m := storeWord m 16 (BitVec.ofNat 32 c.location)
  ⟨(rpcnum+1) % 1000,id,storeWord m 20 tail⟩

open Call

theorem Call.le_location (c : Call) : 28 ≤ c.location := by
  rw [location]
  omega

theorem Call.location_lt (c : Call) : c.location < 2^32 := c.fits

theorem toggle_ne (old : BitVec 32) : toggle old ≠ old := by
  rw [toggle]
  split
  · next h => rw [h]; decide
  · next h => exact fun he => h he.symm

theorem toggle_ne_zero (old : BitVec 32) : toggle old ≠ 0 := by
  rw [toggle]
  split <;> decide

section

variable (req : List (List (BitVec 8))) (c : Call) (id : BitVec 32) (m : Memory) {i : Nat}

theorem storeSizes_of_lt {location i} (m : Memory) (h : i < location) : storeSizes req location m i = m i := by
  induction req generalizing location m with
  | nil => rfl
  | cons seg req ih => rw [storeSizes,ih _ (by omega),storeWord_of_lt m _ h]

theorem storeSizes_of_ge {location i} (m : Memory) (h : location+4*req.length ≤ i) : storeSizes req location m i = m i := by
  induction req generalizing location m with
  | nil => rfl
  | cons seg req ih =>
    rw [length_cons] at h
    rw [storeSizes,ih _ (by omega),storeWord_of_ge m _ (by omega)]

theorem copySegments_of_lt {location i} (m : Memory) (h : i < location) : copySegments req location m i = m i := by
  induction req generalizing location m with
  | nil => rfl
  | cons seg req ih => rw [copySegments,ih _ (by omega),copy_of_lt m _ h]

theorem copySegments_of_ge {location i} (m : Memory)
    (h : location+(req.map List.length).sum ≤ i) : copySegments req location m i = m i := by
  induction req generalizing location m with
  | nil => rfl
  | cons seg req ih =>
    rw [map_cons,sum_cons] at h
    rw [copySegments,ih _ (by omega),copy_of_ge m _ (by omega)]

theorem storeSizes_get {req} (location : Nat) (m : Memory) {k seg} (hseg : req[k]? = some seg) :
    word (storeSizes req location m) (location+4*k) = BitVec.ofNat 32 seg.length := by
  induction req generalizing location m k with
  | nil => simp at hseg
  | cons first req ih =>
    rw [storeSizes]
    cases k with
    | zero =>
      obtain rfl : first = seg := by simpa using hseg
      rw [word_congr (fun i _ hi => storeSizes_of_lt _ _ (by omega))]
      exact word_storeWord_self _ _ _
    | succ k =>
      rw [getElem?_cons_succ] at hseg
      rw [show location+4*(k+1) = location+4+4*k by omega]
      exact ih _ _ hseg

theorem copySegments_get {req} (location : Nat) (m : Memory) {k j seg b} (hseg : req[k]? = some seg) (hb : seg[j]? = some b) :
    copySegments req location m (location+((req.take k).map List.length).sum+j) = b := by
  induction req generalizing location m k with
  | nil => simp at hseg
  | cons first req ih =>
    rw [copySegments]
    cases k with
    | zero =>
      obtain rfl : first = seg := by simpa using hseg
      have hj := (List.getElem?_eq_some_iff.mp hb).1
      rw [copySegments_of_lt _ _ (by simpa using hj)]
      exact copy_add _ _ hb
    | succ k =>
      rw [List.getElem?_cons_succ] at hseg
      rw [List.take_succ_cons,List.map_cons,List.sum_cons,← Nat.add_assoc location]
      exact ih _ _ hseg

theorem Call.storeHead_of_ge (h : 28 ≤ i) : c.storeHead id m i = m i := by
  have hread := c.length_readNum_le
  rw [storeHead,storeWord_of_ge _ _ (by omega),copy_of_ge _ _ (by omega),copy_of_ge _ _ (by simp; omega),copy_of_ge _ _ (by simp; omega),
    storeWord_of_ge _ _ (by omega),copy_of_ge _ _ (by simp; omega),store_of_ge _ _ (by omega)]

theorem Call.fill_of_lt (h : i < 28) : c.fill id m i = c.storeHead id m i := by
  rw [fill,copySegments_of_lt _ _ (by omega),storeSizes_of_lt _ _ h]

theorem Call.fill_of_ge (h : c.location ≤ i) : c.fill id m i = m i := by
  rw [location] at h
  rw [fill,copySegments_of_ge _ _ (by omega),storeSizes_of_ge _ _ (by omega),c.storeHead_of_ge id m (by omega)]

end

section Pushed
variable (c : Call) (rpcnum : Nat) (m : Memory)

private theorem tail_fill (id : BitVec 32) : word (c.fill id m) c.location = word m c.location :=
  word_congr (fun _ h _ => c.fill_of_ge id m h)

theorem push_tail : word (pushNewCallWrite c rpcnum m).data c.location = toggle (word m c.location) := by
  have hloc := c.le_location
  rw [pushNewCallWrite,word_storeWord _ (by omega),word_storeWord _ (by omega),word_storeWord_self,tail_fill]

theorem push_size : word (pushNewCallWrite c rpcnum m).data 16 = BitVec.ofNat 32 c.location := by
  rw [pushNewCallWrite,word_storeWord _ (by omega),word_storeWord_self]

theorem push_magic : word (pushNewCallWrite c rpcnum m).data 20 = toggle (word m c.location) := by
  rw [pushNewCallWrite,word_storeWord_self,tail_fill]

/-- Behind the tail word the buffer keeps its contents. -/
theorem push_beyond {i} (h : c.location+4 ≤ i) : (pushNewCallWrite c rpcnum m).data i = m i := by
  have hloc := c.le_location
  simp only [pushNewCallWrite]
  rw [storeWord_of_ge _ _ (by omega),storeWord_of_ge _ _ (by omega),storeWord_of_ge _ _ h,c.fill_of_ge _ m (by omega)]

theorem push_head {i} (h : i < 16) : (pushNewCallWrite c rpcnum m).data i = c.storeHead (pushNewCallWrite c rpcnum m).rpcId m i := by
  have hloc := c.le_location
  simp only [pushNewCallWrite]
  rw [storeWord_of_lt _ _ (by omega),storeWord_of_lt _ _ h,storeWord_of_lt _ _ (by omega),c.fill_of_lt _ m (by omega)]

theorem push_id : word (pushNewCallWrite c rpcnum m).data 4 = (pushNewCallWrite c rpcnum m).rpcId := by
  rw [word_congr (fun i _ hi => push_head c rpcnum m (by omega)),storeHead,word_storeWord _ (by omega)]
  refine Eq.trans (load_copy (w := 4) _ (by simp)) (Eq.trans (load_copy (w := 4) _ (by simp)) ?_)
  exact Eq.trans (load_copy (w := 4) _ (by simp)) (word_storeWord_self _ _ _)

theorem push_nodeid : (pushNewCallWrite c rpcnum m).data 1 = c.myNodeid := by
  rw [push_head c rpcnum m (by omega),storeHead,storeWord_of_lt _ _ (by omega),copy_of_lt _ _ (by omega),
    copy_of_lt _ _ (by omega),copy_of_lt _ _ (by omega),storeWord_of_lt _ _ (by omega)]
  exact copy_add (k := 1) _ 0 rfl

theorem push_threadId : (pushNewCallWrite c rpcnum m).data 3 = c.threadId := by
  rw [push_head c rpcnum m (by omega),storeHead,storeWord_of_lt _ _ (by omega),copy_of_lt _ _ (by omega),
    copy_of_lt _ _ (by omega),copy_of_lt _ _ (by omega),storeWord_of_lt _ _ (by omega)]
  exact copy_add (k := 3) _ 0 rfl

theorem push_txnType : load 2 (pushNewCallWrite c rpcnum m).data 8 = c.txnType := by
  rw [load_congr (fun i _ hi => push_head c rpcnum m (by omega)),storeHead]
  refine Eq.trans (load_store (w := 4) _ (by omega)) (Eq.trans (load_copy _ (by simp)) (Eq.trans (load_copy _ (by simp)) ?_))
  refine Eq.trans (load_copy _ (by simp)) ?_
  exact Eq.trans (load_store (w := 4) _ (by omega)) (Eq.trans (load_copy _ (by simp)) (load_store_self _ _ _))

theorem push_reqNum : (pushNewCallWrite c rpcnum m).data 10 = BitVec.ofNat 8 c.req.length := by
  rw [push_head c rpcnum m (by omega),storeHead,storeWord_of_lt _ _ (by omega),copy_of_lt _ _ (by omega)]
  exact copy_add (k := 0) _ 10 rfl

/-- The magic word, the size and the tail word leave the rest alone. -/
private theorem push_body {i} (hlo : 24 ≤ i) (hhi : i < c.location) :
    (pushNewCallWrite c rpcnum m).data i = c.fill (pushNewCallWrite c rpcnum m).rpcId m i := by
  simp only [pushNewCallWrite]
  rw [storeWord_of_ge _ _ (by omega),storeWord_of_ge _ _ (by omega),storeWord_of_lt _ _ hhi]

theorem push_sizes {k seg} (hseg : c.req[k]? = some seg) :
    word (pushNewCallWrite c rpcnum m).data (28+4*k) = BitVec.ofNat 32 seg.length := by
  have hk := (List.getElem?_eq_some_iff.mp hseg).1
  have hloc : 28+4*c.req.length ≤ c.location := Nat.le_add_right _ _
  have hsizes (i : Nat) (hlo : 28+4*k ≤ i) (hhi : i < 28+4*k+4) : (pushNewCallWrite c rpcnum m).data i =
      storeSizes c.req 28 (c.storeHead (pushNewCallWrite c rpcnum m).rpcId m) i := by
    rw [push_body c rpcnum m (by omega) (by omega),fill,copySegments_of_lt _ _ (by omega)]
  rw [word_congr hsizes]
  exact storeSizes_get _ _ hseg

def Call.segment (c : Call) (k : Nat) : Nat := 28+4*c.req.length+((c.req.take k).map List.length).sum

theorem Call.segment_succ {k seg} (hseg : c.req[k]? = some seg) : c.segment (k+1) = c.segment k+seg.length := by
  obtain ⟨hk,rfl⟩ := List.getElem?_eq_some_iff.mp hseg
  rw [segment,segment,List.take_succ_eq_append_getElem hk,List.map_append,List.sum_append,
    List.map_singleton,List.sum_singleton,← Nat.add_assoc]

theorem Call.segment_length : c.segment c.req.length = c.location := by
  rw [segment,location,take_length]

theorem Call.segment_le (k : Nat) : c.segment k ≤ c.location := by
  have hsum := congrArg (fun l => (l.map List.length).sum) (take_append_drop k c.req)
  simp only [map_append,sum_append] at hsum
  rw [segment,location]
  omega

theorem push_segment {k j seg b} (hseg : c.req[k]? = some seg)
    (hb : seg[j]? = some b) : (pushNewCallWrite c rpcnum m).data (c.segment k+j) = b := by
  have hj := (List.getElem?_eq_some_iff.mp hb).1
  have hnext := c.segment_le (k+1)
  rw [c.segment_succ hseg] at hnext
  have hlo : 28 ≤ c.segment k := by
    rw [Call.segment]
    omega
  rw [push_body c rpcnum m (by omega) (by omega)]
  exact copySegments_get _ _ hseg hb

private theorem rpcId_toNat : (pushNewCallWrite c rpcnum m).rpcId.toNat = skipId rpcnum (word m 4) % 1000 := by
  rw [pushNewCallWrite,BitVec.toNat_ofNat,Nat.mod_eq_of_lt (by omega)]

theorem push_rpcId_lt : (pushNewCallWrite c rpcnum m).rpcId.toNat < 1000 := by
  rw [rpcId_toNat]
  omega

/-- The id is one of the two that the caller has looked at. -/
theorem push_rpcId_cases : (pushNewCallWrite c rpcnum m).rpcId.toNat = rpcnum % 1000 ∨
    (pushNewCallWrite c rpcnum m).rpcId.toNat = (rpcnum+1) % 1000 := by
  rw [rpcId_toNat,skipId]
  split
  · exact Or.inr (Nat.mod_mod _ _)
  · exact Or.inl rfl

theorem push_rpcId_ne : (pushNewCallWrite c rpcnum m).rpcId ≠ word m 4 := by
  intro heq
  have hid := rpcId_toNat c rpcnum m
  rw [heq,skipId] at hid
  split at hid <;> omega

end Pushed

end AlNiCo.Client
