import AlNiCo.Client.Requests
import AlNiCo.Host.Ycsb

/-! Where the server looks for the features of a request: the CPU scheduler counts
back from the end of the message, the worker takes the fourth segment. -/
namespace AlNiCo.Host.Message
open Library.ByteMemory Client Client.Ycsb

structure Slot where
  addr : Nat
  behind : 64 ≤ addr

namespace Slot
variable (slot : Slot)

def receive (host data : Memory) (size : Nat) : Memory := copy host slot.addr (slice data 0 (size+4))

def view (host : Memory) : Memory := fun i => host (slot.addr+i)

def getFeatureAddr (host : Memory) : Nat := slot.addr+(word (slot.view host) 16).toNat-512/8

def schedulerFeatures (host : Memory) : List (BitVec 8) := slice host (slot.getFeatureAddr host) 64

def workerFeatures (reqP : Nat → ReqPair) (host : Memory) : List (BitVec 8) :=
  slice host (slot.addr+((deserialization reqP (slot.view host)).reqP 3).addr) 64

end Slot

section Windows
variable {slot : Slot} {host : Memory} {c : Call} {rpcnum : Nat} {buffer : Memory}

theorem view_receive {data size i} (hi : i < size+4) : slot.view (slot.receive host data size) i = data i := by
  have hb := getElem?_slice data 0 hi
  rw [Nat.zero_add] at hb
  exact copy_add _ _ hb

theorem received_receive (c : Call) (rpcnum : Nat) (buffer : Memory) : Received c (pushNewCallWrite c rpcnum buffer).data
      (slot.view (slot.receive host (pushNewCallWrite c rpcnum buffer).data c.location)) :=
  fun _ hi => view_receive (by omega)

theorem getFeatureAddr_receive : slot.getFeatureAddr (slot.receive host (pushNewCallWrite c rpcnum buffer).data c.location) =
    slot.addr+c.location-64 := by
  have hloc := c.le_location
  have hlt := c.location_lt
  rw [Slot.getFeatureAddr,word_congr (fun i _ hi => view_receive (by omega)),push_size,BitVec.toNat_ofNat,Nat.mod_eq_of_lt hlt]

private theorem host_segment {k n i src} (hseg : c.req[k]? = some (slice src 0 n)) (hi : i < n) :
    slot.receive host (pushNewCallWrite c rpcnum buffer).data c.location (slot.addr+(c.segment k+i)) = src i := by
  have hb := getElem?_slice src 0 hi
  rw [Nat.zero_add] at hb
  exact (received_receive c rpcnum buffer).byte hseg hb

theorem schedulerFeatures_segment {n src} (hlen : c.req.length = 4) (hseg : c.req[3]? = some (slice src 0 n)) (hn : 64 ≤ n) :
    slot.schedulerFeatures (slot.receive host (pushNewCallWrite c rpcnum buffer).data c.location) = slice src (n-64) 64 := by
  have hend : c.location = c.segment 3+n := by
    rw [← c.segment_length,hlen,c.segment_succ hseg,length_slice]
  rw [Slot.schedulerFeatures,getFeatureAddr_receive]
  refine slice_congr (fun i hi => ?_)
  rw [show slot.addr+c.location-64+i = slot.addr+(c.segment 3+(n-64+i)) by omega]
  exact host_segment hseg (by omega)

theorem workerFeatures_segment {n src} (hlen : c.req.length = 4)
    (hseg : c.req[3]? = some (slice src 0 n)) (hn : 64 ≤ n) (reqP : Nat → ReqPair) :
    slot.workerFeatures reqP (slot.receive host (pushNewCallWrite c rpcnum buffer).data c.location) = slice src 0 64 := by
  rw [Slot.workerFeatures,(received_receive c rpcnum buffer).reqP (by omega) reqP hseg]
  refine slice_congr (fun i hi => ?_)
  rw [Nat.zero_add,Nat.add_assoc]
  exact host_segment hseg (by omega)

/-- With nothing in it, the worker reads the tail word and what the slot held before. -/
theorem workerFeatures_behind {src} (hlen : c.req.length = 4) (hseg : c.req[3]? = some (slice src 0 0)) (reqP : Nat → ReqPair) :
    slot.workerFeatures reqP (slot.receive host (pushNewCallWrite c rpcnum buffer).data c.location) =
      bytes 4 (toggle (word buffer c.location)) ++ slice host (slot.addr+c.location+4) 60 := by
  have hend : c.location = c.segment 3 := by
    rw [← c.segment_length,hlen,c.segment_succ hseg,length_slice]
    rfl
  rw [Slot.workerFeatures,(received_receive c rpcnum buffer).reqP (by omega) reqP hseg,← hend]
  refine Eq.trans (slice_append _ _ 4 60) ?_
  have htail : slice (slot.receive host (pushNewCallWrite c rpcnum buffer).data c.location) (slot.addr+c.location) 4 =
      bytes 4 (toggle (word buffer c.location)) := by
    rw [← push_tail c rpcnum buffer]
    refine Eq.trans (slice_congr (fun i hi => ?_)) (bytes_load 4 _ _).symm
    rw [Nat.add_assoc]
    exact view_receive (by omega)
  have hrest : slice (slot.receive host (pushNewCallWrite c rpcnum buffer).data c.location) (slot.addr+c.location+4) 60 =
      slice host (slot.addr+c.location+4) 60 :=
    slice_congr (fun i hi => copy_of_ge _ _ (by rw [length_slice]; omega))
  rw [htail,hrest]

/-- The segments stand one behind the other. -/
private theorem slice_segments (c : Call) (rpcnum : Nat) (buffer : Memory) {k} (hk : k ≤ c.req.length) :
    slice (slot.receive host (pushNewCallWrite c rpcnum buffer).data c.location) (slot.addr+c.segment 0)
      (c.req.take k).flatten.length = (c.req.take k).flatten := by
  induction k with
  | zero => rfl
  | succ k ih =>
    have hseg := List.getElem?_eq_getElem hk
    have hstart : c.segment 0+(c.req.take k).flatten.length = c.segment k := by
      simp [Call.segment,List.length_flatten]
    have hlast : slice (slot.receive host (pushNewCallWrite c rpcnum buffer).data c.location) (slot.addr+c.segment k)
        c.req[k].length = c.req[k] := by
      refine List.ext_getElem (length_slice _ _ _) (fun i hi hi' => ?_)
      rw [List.getElem_eq_iff,getElem?_slice _ _ hi',Nat.add_assoc]
      exact congrArg some ((received_receive c rpcnum buffer).byte hseg (List.getElem?_eq_getElem hi'))
    rw [List.take_succ_eq_append_getElem hk,List.flatten_append,List.flatten_singleton,List.length_append,slice_append,ih (by omega),
      Nat.add_assoc,hstart,hlast]

/-- The last 64 bytes of a YCSB request without a write. -/
theorem schedulerFeatures_arrays {tx : Ycsb.Tx} {n : Nat} (hreq : c.req = tx.req n) (hnum : tx.ycsbWriteNum = 0) :
    slot.schedulerFeatures (slot.receive host (pushNewCallWrite c rpcnum buffer).data c.location) =
      if 10 ≤ n then (tx.req n).flatten.drop (6*n-56)
      else slice (copy host slot.addr (slice (pushNewCallWrite c rpcnum buffer).data 0 44)) (slot.addr+6*n-12) (56-6*n) ++
        (tx.req n).flatten := by
  have hbehind := slot.behind
  have hlen : (tx.req n).flatten.length = 8+6*n := by rw [List.length_flatten,tx.sum_req,hnum]; rfl
  have hloc : c.location = 52+6*n := by
    rw [Call.location,hreq,tx.length_req,tx.sum_req,hnum]
    change 28+4*4+(8+6*n+0*384) = 52+6*n
    omega
  have hsegments := @slice_segments slot host c rpcnum buffer _ le_rfl
  rw [List.take_length,hreq,hlen,show slot.addr+c.segment 0 = slot.addr+44 by rw [Call.segment,hreq]; rfl] at hsegments
  rw [Slot.schedulerFeatures,getFeatureAddr_receive]
  split
  · next hn =>
    rw [← hsegments,show 8+6*n = 6*n-56+64 by omega,slice_append,List.drop_left' (length_slice _ _ _)]
    exact congrArg (fun a => slice _ a 64) (by omega)
  · next hn =>
    rw [show (64 : Nat) = 56-6*n+(8+6*n) by omega,slice_append,show slot.addr+c.location-(56-6*n+(8+6*n)) = slot.addr+6*n-12 by omega,
      show slot.addr+6*n-12+(56-6*n) = slot.addr+44 by omega,hsegments]
    refine congrArg (· ++ _) (slice_congr (fun i hi => ?_))
    rw [Slot.receive,show c.location+4 = 44+(c.location+4-44) by omega,slice_append,copy_append_of_lt _ _ _ (by rw [length_slice]; omega)]

end Windows

section Located
variable (slot : Slot) (host : Memory) (c : Call) (rpcnum : Nat) (buffer : Memory)

/-- Both readers of the host find the features that the NIC was given. -/
def FeaturesFound (reqP : Nat → ReqPair) (metadata : Memory) (r : Request) : Prop :=
  let received := slot.receive host (pushNewCallWrite c rpcnum buffer).data c.location
  let sent := slice (serialization metadata c.partitionHint r.features) 0 64
  sent = r.features ∧ slot.schedulerFeatures received = sent ∧ slot.workerFeatures reqP received = sent

/-- A YCSB request has its features nowhere, and only what stands in their place can
be the same by chance: the values of its writes, which are never set, or without a
write the end of its mask, keys and columns, with the header before them if there are
fewer than ten operations, and what the slot held behind the message. -/
def Coincide : Request → Prop
  | .tpcc _ => True
  | .ycsb n tx =>
    let features := slice tx.feature 0 64
    if tx.ycsbWriteNum = 0 then
      (if 10 ≤ n then (tx.req n).flatten.drop (6*n-56)
        else slice (copy host slot.addr (slice (pushNewCallWrite c rpcnum buffer).data 0 44)) (slot.addr+6*n-12) (56-6*n) ++
          (tx.req n).flatten) = features ∧
        bytes 4 (toggle (word buffer c.location)) ++ slice host (slot.addr+c.location+4) 60 = features
    else slice tx.ycsbCtx (tx.ycsbWriteNum.toNat*384-64) 64 = features ∧ slice tx.ycsbCtx 0 64 = features

variable {slot host c rpcnum buffer}

private theorem serialization_features (metadata : Memory) (hint : BitVec 32) {features}
    (h : features.length = 64) : slice (serialization metadata hint features) 0 64 = features := by
  have hcopy := slice_copy metadata 0 features
  rw [h] at hcopy
  refine Eq.trans (slice_congr (fun i hi => ?_)) hcopy
  rw [serialization,store_of_lt _ _ (by omega),store_of_lt _ _ (by omega)]

private theorem length_features (r : Request) : r.features.length = 64 := by
  cases r <;> exact length_slice _ _ _

/-- The features are found in every request of TPC-C, and in one of YCSB only by chance. -/
theorem feature_location_iff (r : Request) (hbuilt : r.Built) (c : Call) (hreq : c.req = r.segments) (rpcnum : Nat)
    (buffer host metadata : Memory) (slot : Slot) (reqP : Nat → ReqPair) :
    FeaturesFound slot host c rpcnum buffer reqP metadata r ↔ Coincide slot host c rpcnum buffer r := by
  have hsent := serialization_features metadata c.partitionHint (length_features r)
  rw [FeaturesFound,hsent]
  cases hbuilt with
  | tpcc h =>
    next tx tx' p =>
    have hseg : c.req[3]? = some (slice tx'.feature 0 64) := by rw [hreq]; rfl
    have hlen : c.req.length = 4 := by rw [hreq]; rfl
    refine ⟨fun _ => trivial,fun _ => ⟨rfl,?_,?_⟩⟩
    · exact schedulerFeatures_segment hlen hseg (by decide)
    · exact workerFeatures_segment hlen hseg (by decide) reqP
  | ycsb h =>
    next tx tx' x draws =>
    have hseg : c.req[3]? = some (slice tx'.ycsbCtx 0 (tx'.ycsbWriteNum.toNat*384)) := by rw [hreq]; rfl
    have hlen : c.req.length = 4 := by rw [hreq]; rfl
    rw [Coincide]
    by_cases hnum : tx'.ycsbWriteNum = 0
    · rw [hnum] at hseg
      rw [if_pos hnum,schedulerFeatures_arrays hreq hnum,workerFeatures_behind hlen hseg]
      exact ⟨fun h => h.2,fun h => ⟨rfl,h⟩⟩
    · have hpos : tx'.ycsbWriteNum.toNat ≠ 0 := fun h0 => hnum (BitVec.eq_of_toNat_eq h0)
      rw [if_neg hnum,schedulerFeatures_segment hlen hseg (by omega),workerFeatures_segment hlen hseg (by omega)]
      exact ⟨fun h => h.2,fun h => ⟨rfl,h⟩⟩

theorem feature_location_stock_level :
    ∃ r c, r.Built ∧ c.req = r.segments ∧
      FeaturesFound ⟨4096,by decide⟩ (fun _ => 0) c 0 (fun _ => 0) (fun _ => ⟨0,0⟩) (fun _ => 0) r := by
  have hbuilt : Request.Built (.tpcc (stockLevel ⟨0,fun _ => 0,fun _ => 0,0,fun _ => 0⟩ 1 1)) :=
    .tpcc (p := .stockLevel 1 1) rfl
  have hfits : 28+4*(stockLevel ⟨0,fun _ => 0,fun _ => 0,0,fun _ => 0⟩ 1 1).req.length+
      ((stockLevel ⟨0,fun _ => 0,fun _ => 0,0,fun _ => 0⟩ 1 1).req.map List.length).sum < 2^32 := by
    rw [Client.Tx.length_req,Client.Tx.sum_req]
    decide
  refine ⟨_,⟨0,0,0,0,3,0,0,_,none,hfits⟩,hbuilt,rfl,?_⟩
  exact (feature_location_iff _ hbuilt _ rfl 0 (fun _ => 0) (fun _ => 0) (fun _ => 0) ⟨4096,by decide⟩
    (fun _ => ⟨0,0⟩)).mpr trivial

/-- The one write of a YCSB request has key 7, so that bit 7 of the vector is set; the
value of the write, which is zero, is taken for it. -/
theorem ycsb_features_not_found :
    ∃ r,∃ c : Call, r.Built ∧ c.req = r.segments ∧
      ∀ slot host rpcnum buffer reqP metadata, ¬FeaturesFound slot host c rpcnum buffer reqP metadata r := by
  obtain ⟨tx,c,hbuild,hreq⟩ := built_of_isSome [⟨[7],true,true⟩] (by decide) (by decide)
  refine ⟨.ycsb 1 tx,c,.ycsb hbuild,hreq,?_⟩
  rintro slot host rpcnum buffer reqP metadata ⟨hsent,-,hworker⟩
  have hvalues : (ycsbPartitional emptyTx 0 [⟨[7],true,true⟩]).map (fun tx => (tx.ycsbWriteNum,tx.ycsbCtx 0,tx.feature 0)) =
      some (1,0,128) := by decide
  rw [hbuild] at hvalues
  obtain ⟨hnum,hctx,hfeature⟩ : tx.ycsbWriteNum = 1 ∧ tx.ycsbCtx 0 = 0 ∧ tx.feature 0 = 128 := by simpa using hvalues
  have hseg : c.req[3]? = some (slice tx.ycsbCtx 0 384) := by
    rw [hreq]
    change some (slice tx.ycsbCtx 0 (tx.ycsbWriteNum.toNat*384)) = _
    rw [hnum]
    rfl
  rw [hsent,workerFeatures_segment (by rw [hreq]; rfl) hseg (by decide)] at hworker
  have hfirst := congrArg (fun l => l[0]?) hworker
  change (slice tx.ycsbCtx 0 64)[0]? = (slice tx.feature 0 64)[0]? at hfirst
  rw [getElem?_slice _ _ (by decide),getElem?_slice _ _ (by decide),hctx,hfeature] at hfirst
  revert hfirst
  decide

end Located

end AlNiCo.Host.Message
