import AlNiCo.Client.Ycsb
import AlNiCo.Host.Message

/-! Which operations of a YCSB request the server executes as writes. The client
sends a mask with one bit for each operation; the server looks at bit 0 only. -/
namespace AlNiCo.Host.Message
open Library.ByteMemory Client Client.Ycsb

structure YcsbOp where
  isWrite : Bool
  key : BitVec 32

def msgNextTx (ycsbSize : Nat) (msg : Msg) : List YcsbOp :=
  (List.range ycsbSize).map (fun j => ⟨msg.getYcsbIsWrite j,msg.getYcsbKey j⟩)

def readsExecuted (ops : List YcsbOp) : Nat := ops.countP (fun op => !op.isWrite)

section Decoded
variable {call : Call} {rpcnum : Nat} {buffer m : Memory} {tx tx' : Ycsb.Tx} {x : Fin 20} {draws : List Draw}

private theorem and_ite_one (v : BitVec 64) (p : Prop) [Decidable p] : (v &&& (if p then 1 else 0) != 0) = (decide p && v.getLsbD 0) := by
  by_cases hp : p
  · rw [if_pos hp,decide_eq_true hp,Bool.true_and]
    change (v &&& 1#64 != 0) = v.getLsbD 0
    rw [BitVec.and_one_eq_setWidth_ofBool_getLsbD]
    cases v.getLsbD 0 <;> rfl
  · simp [hp]

theorem getYcsbIsWrite_eq (hbuild : ycsbPartitional tx x draws = some tx') (hreq : call.req = tx'.req draws.length)
    (hm : Received call (pushNewCallWrite call rpcnum buffer).data m) (reqP : Nat → ReqPair) (i : Nat) :
    (deserialization reqP m).getYcsbIsWrite i = (decide (1 < i) && (draws.map Draw.isWrite).getD 0 false) := by
  have hseg : call.req[0]? = some (bytes 8 tx'.writeBits) := by rw [hreq]; rfl
  have hnum : call.req.length < 256 := by rw [hreq,Ycsb.Tx.length_req]; decide
  have hbits : (deserialization reqP m).writeBits = tx'.writeBits := by
    rw [Msg.writeBits,hm.reqP hnum reqP hseg]
    exact load_of_bytes (w := 8) (fun i b hb => hm.byte hseg hb)
  rw [Msg.getYcsbIsWrite,and_ite_one,hbits,(encoded_of_partitional hbuild).bits 0 (by decide)]

theorem getReadNum_eq (hbuild : ycsbPartitional tx x draws = some tx') (hreq : call.req = tx'.req draws.length)
    (hm : Received call (pushNewCallWrite call rpcnum buffer).data m) (reqP : Nat → ReqPair) (hlen : draws.length < 2^16) :
    (deserialization reqP m).getReadNum draws.length = draws.length-(draws.countP Draw.isWrite : Nat) := by
  have hseg : call.req[3]? = some (slice tx'.ycsbCtx 0 (tx'.ycsbWriteNum.toNat*384)) := by rw [hreq]; rfl
  have hnum : call.req.length < 256 := by rw [hreq,Ycsb.Tx.length_req]; decide
  have hcount : (draws.map Draw.isWrite).count true = draws.countP Draw.isWrite := by
    rw [List.count_eq_countP,List.countP_map]
    exact List.countP_congr (fun draw _ => by simp)
  have hle : draws.countP Draw.isWrite ≤ draws.length := List.countP_le_length
  rw [Msg.getReadNum,hm.reqP hnum reqP hseg,length_slice,(encoded_of_partitional hbuild).num,hcount,
    Nat.mul_div_cancel _ (by decide),BitVec.toNat_ofNat,Nat.mod_eq_of_lt (by omega)]

/-- What the client chose comes out at the server, and the reply has room for the reads. -/
def KindsKept (draws : List Draw) (msg : Msg) : Prop :=
  (∀ i draw, draws[i]? = some draw → msg.getYcsbIsWrite i = draw.isWrite) ∧
    (readsExecuted (msgNextTx draws.length msg) : Int) = msg.getReadNum draws.length

/-- The kinds survive exactly when there is nothing but reads. -/
theorem ycsb_kinds_kept_iff (tx : Ycsb.Tx) (x : Fin 20) (draws : List Draw) (tx' : Ycsb.Tx) (hlen : draws.length ≤ 48)
    (hbuild : ycsbPartitional tx x draws = some tx') (call : Call) (hreq : call.req = tx'.req draws.length) (rpcnum : Nat)
    (buffer m : Memory) (hm : Received call (pushNewCallWrite call rpcnum buffer).data m) (reqP : Nat → ReqPair) :
    KindsKept draws (deserialization reqP m) ↔ ∀ draw ∈ draws, draw.isWrite = false := by
  have hdecode := getYcsbIsWrite_eq hbuild hreq hm reqP
  constructor
  · rintro ⟨hkinds,-⟩ draw hdraw
    obtain ⟨i,hi⟩ := List.mem_iff_getElem?.mp hdraw
    -- the first operation is always decoded as a read, and its bit stands for all later ones
    have hfirst : (draws.map Draw.isWrite).getD 0 false = false := by
      cases draws with
      | nil => rfl
      | cons first draws =>
        have hzero := hkinds 0 first rfl
        rw [hdecode 0] at hzero
        exact hzero.symm
    rw [← hkinds i draw hi,hdecode i,hfirst,Bool.and_false]
  · intro hreads
    have hfirst : (draws.map Draw.isWrite).getD 0 false = false := by
      cases draws with
      | nil => rfl
      | cons first draws => exact hreads first List.mem_cons_self
    have hfalse (i : Nat) : (deserialization reqP m).getYcsbIsWrite i = false := by rw [hdecode i,hfirst,Bool.and_false]
    refine ⟨fun i draw hi => ?_,?_⟩
    · rw [hfalse i,hreads draw (List.mem_of_getElem? hi)]
    · have hzero : draws.countP Draw.isWrite = 0 := List.countP_eq_zero.mpr (fun draw hdraw => by simp [hreads draw hdraw])
      rw [getReadNum_eq hbuild hreq hm reqP (by omega),hzero,readsExecuted,msgNextTx,List.countP_map]
      simp [Function.comp_def,hfalse]

def emptyTx : Ycsb.Tx := ⟨0,fun _ => 0,fun _ => 0,fun _ => 0,[],0,fun _ => 0⟩

theorem built_of_isSome (draws) (h : (ycsbPartitional emptyTx 0 draws).isSome = true) (hlen : draws.length ≤ 48) :
    ∃ tx',∃ call : Call, ycsbPartitional emptyTx 0 draws = some tx' ∧ call.req = tx'.req draws.length := by
  obtain ⟨tx',htx⟩ := Option.isSome_iff_exists.mp h
  exact ⟨tx',⟨0,0,0,0,0,0,0,tx'.req draws.length,none,tx'.req_fits hlen⟩,htx,rfl⟩

/-- Three operations, of which only the last may be a write. -/
def three (isWrite : Bool) : List Draw := [⟨[7],false,true⟩,⟨[8],false,true⟩,⟨[9],isWrite,true⟩]

theorem ycsb_kinds_kept_three_reads :
    let decoded (call : Call) := deserialization (fun _ => ⟨0,0⟩) (pushNewCallWrite call 0 (fun _ => 0)).data
    (∃ tx' call, ycsbPartitional emptyTx 0 (three false) = some tx' ∧ call.req = tx'.req 3 ∧ KindsKept (three false) (decoded call)) ∧
      ∃ tx' call, ycsbPartitional emptyTx 0 (three true) = some tx' ∧ call.req = tx'.req 3 ∧ ¬ KindsKept (three true) (decoded call) := by
  intro decoded
  have hkept (isWrite : Bool) : ∃ tx' call, ycsbPartitional emptyTx 0 (three isWrite) = some tx' ∧ call.req = tx'.req 3 ∧
      (KindsKept (three isWrite) (decoded call) ↔ isWrite = false) := by
    obtain ⟨tx',call,hbuild,hreq⟩ := built_of_isSome (three isWrite) (by decide +revert) (Nat.le_add_left 3 45)
    refine ⟨tx',call,hbuild,hreq,?_⟩
    rw [ycsb_kinds_kept_iff emptyTx 0 (three isWrite) tx' (Nat.le_add_left 3 45) hbuild call hreq 0 (fun _ => 0) _ (fun _ _ => rfl)
      (fun _ => ⟨0,0⟩)]
    simp [three]
  simpa using And.intro (hkept false) (hkept true)

/-- A single write is executed as a read that the reply has no room for. -/
theorem ycsb_write_executed_as_read :
    ∃ tx' call, ycsbPartitional emptyTx 0 [⟨[7],true,true⟩] = some tx' ∧ call.req = tx'.req 1 ∧
      let msg := deserialization (fun _ => ⟨0,0⟩) (pushNewCallWrite call 0 (fun _ => 0)).data
      msg.getYcsbIsWrite 0 = false ∧ readsExecuted (msgNextTx 1 msg) = 1 ∧ msg.getReadNum 1 = 0 := by
  obtain ⟨tx',call,hbuild,hreq⟩ := built_of_isSome [⟨[7],true,true⟩] (by decide) (by decide)
  refine ⟨tx',call,hbuild,hreq,?_⟩
  intro msg
  have hzero : msg.getYcsbIsWrite 0 = false := getYcsbIsWrite_eq hbuild hreq (fun _ _ => rfl) (fun _ => ⟨0,0⟩) 0
  refine ⟨hzero,?_,getReadNum_eq hbuild hreq (fun _ _ => rfl) (fun _ => ⟨0,0⟩) (by decide)⟩
  simp [readsExecuted,msgNextTx,List.range_succ,hzero]

end Decoded

end AlNiCo.Host.Message
