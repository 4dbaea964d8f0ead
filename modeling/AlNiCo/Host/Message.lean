import AlNiCo.Client.Call

/-! `msg_t` of the server: `deserialization` finds the segments of a request in the
receive buffer of its slot, and the accessors read them by position. Addresses are
counted from the start of the buffer. -/
namespace AlNiCo.Host.Message
open Library.ByteMemory Client

/-- The inverse of the stock key, in which item 100000 belongs to the warehouse below. -/
def stockKeyToWare (key : BitVec 64) : BitVec 32 :=
  if key % 100000 = 0 then (key/100000-1).setWidth 32 else (key/100000).setWidth 32

structure ReqPair where
  size : Nat
  addr : Nat

structure Msg where
  memory : Memory
  type : BitVec 16
  reqP : Nat → ReqPair

/-- The loop of `deserialization`; pairs it does not set stay as they were. -/
def reqPairs (m : Memory) : Nat → Nat → Nat → (Nat → ReqPair) → (Nat → ReqPair)
  | 0,_,_,reqP => reqP
  | count+1,i,addr,reqP =>
    let size := (word m (28+4*i)).toNat
    reqPairs m count (i+1) (addr+size) (Function.update reqP i ⟨size,addr⟩)

def deserialization (reqP : Nat → ReqPair) (m : Memory) : Msg :=
  ⟨m,load 2 m 8,reqPairs m (m 10).toNat 0 (28+4*(m 10).toNat) reqP⟩

namespace Msg
variable (msg : Msg)

def keySecond (i : Nat) : BitVec 64 := load 8 msg.memory ((msg.reqP 1).addr+16*i+8)

def args (i : Nat) : BitVec 32 := word msg.memory ((msg.reqP 2).addr+4*i)

def getWId : BitVec 64 := (msg.args 0).setWidth 64
def getDId : BitVec 64 := (msg.args 1).setWidth 64
def getCId : BitVec 64 := (msg.args 2).setWidth 64
def getSNum : BitVec 64 := (msg.args 3).setWidth 64

def getIId (id : Nat) : BitVec 64 := msg.keySecond (2*id+3)

/-- The warehouse passes through an `int`. -/
def getSW (id : Nat) : BitVec 64 := (stockKeyToWare (msg.keySecond (2*id+4))).signExtend 64

def writeBits : BitVec 64 := load 8 msg.memory (msg.reqP 0).addr

def getYcsbKey (i : Nat) : BitVec 32 :=
  let key := word msg.memory ((msg.reqP 1).addr+4*i)
  let col := load 2 msg.memory ((msg.reqP 2).addr+2*i)
  (key+col.setWidth 32*BitVec.ofNat 32 (10000000/20)) % 10000000

/-- The mask is compared with, not shifted to, the position of the operation. -/
def getYcsbIsWrite (i : Nat) : Bool := msg.writeBits &&& (if 1 < i then 1 else 0) != 0

/-- The operations that are not writes, by the size of the last segment. -/
def getReadNum (ycsbSize : Nat) : Int := ycsbSize-((msg.reqP 3).size/384 : Nat)

end Msg

section
variable {c : Call} {rpcnum : Nat} {buffer m : Memory}

def Received (c : Call) (data m : Memory) : Prop := ∀ i < c.location, m i = data i

def offset (m : Memory) (start : Nat) : Nat → Nat
  | 0 => start
  | i+1 => offset m start i+(word m (28+4*i)).toNat

theorem reqPairs_apply (start count i : Nat) (reqP : Nat → ReqPair) (k : Nat) : reqPairs m count i (offset m start i) reqP k =
      if i ≤ k ∧ k < i+count then ⟨(word m (28+4*k)).toNat,offset m start k⟩ else reqP k := by
  induction count generalizing i reqP with
  | zero => rw [reqPairs,if_neg (by omega)]
  | succ count ih =>
    rw [reqPairs]
    refine Eq.trans (ih (i+1) _) ?_
    by_cases hk : k = i
    · subst hk
      rw [if_neg (by omega),if_pos (by omega),Function.update_self]
    · rw [Function.update_of_ne hk]
      by_cases hin : i+1 ≤ k ∧ k < i+1+count
      · rw [if_pos hin,if_pos (by omega)]
      · rw [if_neg hin,if_neg (by omega)]

section
variable (h : Received c (pushNewCallWrite c rpcnum buffer).data m)
include h

theorem Received.size {k seg} (hseg : c.req[k]? = some seg) : (word m (28+4*k)).toNat = seg.length := by
  have hk := (List.getElem?_eq_some_iff.mp hseg).1
  have hloc : 28+4*c.req.length ≤ c.location := Nat.le_add_right _ _
  have hlen : seg.length < 2^32 := by
    have hnext := c.segment_le (k+1)
    have hlt := c.location_lt
    rw [c.segment_succ hseg] at hnext
    omega
  rw [word_congr (fun i _ hi => h i (by omega)),push_sizes c rpcnum buffer hseg,BitVec.toNat_ofNat,Nat.mod_eq_of_lt hlen]

theorem Received.offset {k} (hk : k ≤ c.req.length) : offset m (28+4*c.req.length) k = c.segment k := by
  induction k with
  | zero => simp [Message.offset,Call.segment]
  | succ k ih =>
    obtain ⟨seg,hseg⟩ : ∃ seg, c.req[k]? = some seg := ⟨_,List.getElem?_eq_getElem (by omega)⟩
    rw [Message.offset,ih (by omega),h.size hseg,c.segment_succ hseg]

/-- `deserialization` finds every segment. -/
theorem Received.reqP (hnum : c.req.length < 256) (reqP : Nat → ReqPair) {k seg} (hseg : c.req[k]? = some seg) :
    (deserialization reqP m).reqP k = ⟨seg.length,c.segment k⟩ := by
  have hk := (List.getElem?_eq_some_iff.mp hseg).1
  have hloc := c.le_location
  have hreq : (m 10).toNat = c.req.length := by
    rw [h 10 (by omega),push_reqNum,BitVec.toNat_ofNat,Nat.mod_eq_of_lt hnum]
  rw [deserialization,hreq]
  refine Eq.trans (reqPairs_apply (28+4*c.req.length) _ 0 _ _) ?_
  rw [if_pos (by omega),h.size hseg,h.offset (by omega)]

theorem Received.byte {k j seg b} (hseg : c.req[k]? = some seg) (hb : seg[j]? = some b) : m (c.segment k+j) = b := by
  have hj := (List.getElem?_eq_some_iff.mp hb).1
  have hnext := c.segment_le (k+1)
  rw [c.segment_succ hseg] at hnext
  rw [h _ (by omega),push_segment c rpcnum buffer hseg hb]

/-- A value inside a segment that was copied from `src` is read as `src` has it. -/
theorem Received.load {k n w a src}
    (hseg : c.req[k]? = some (slice src 0 n)) (ha : a+w ≤ n) : load w m (c.segment k+a) = load w src a := by
  refine load_move (fun i hi => ?_)
  have hb := getElem?_slice src 0 (show a+i < n by omega)
  rw [Nat.zero_add] at hb
  rw [Nat.add_assoc]
  exact h.byte hseg hb

end

end

end AlNiCo.Host.Message
