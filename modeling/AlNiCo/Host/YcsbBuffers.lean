import AlNiCo.Host.Ycsb

/-! The bytes that a YCSB request and its reply take up in their slots. More writes make the
request longer and the reply shorter. -/
namespace AlNiCo.Host.Message
open Library.ByteMemory Client Client.Ycsb List

def dataLen : Nat := 1024*18
def replyLen : Nat := 8192

/-- `get_send_data_addr` of the client, and `get_rev_addr` of the server. -/
def getSendDataAddr (dataAddr id : Nat) : Nat := dataAddr+id*dataLen

/-- `get_send_addr` of the server, and `get_my_reply_addr` of the client. -/
def getSendAddr (replyAddr id : Nat) : Nat := replyAddr+id*replyLen

/-- `rpc_type` of the reply, in which the worker stores the number of reads. -/
def replyNum (ycsbSize : Nat) (msg : Msg) : BitVec 8 := BitVec.ofInt 8 (msg.getReadNum ycsbSize)

/-- A YCSB request of `ycsbSize` operations as the client built and pushed it and as the
server has it in its memory. -/
structure Sent (ycsbSize : Nat) where
  before : Ycsb.Tx
  column : Fin 20
  draws : List Draw
  length_draws : draws.length = ycsbSize
  tx : Ycsb.Tx
  built : ycsbPartitional before column draws = some tx
  call : Call
  req_eq : call.req = tx.req ycsbSize
  rpcnum : Nat
  buffer : Memory
  memory : Memory
  received : Received call (pushNewCallWrite call rpcnum buffer).data memory
  reqP : Nat → ReqPair

namespace Sent
variable {ycsbSize : Nat} (s : Sent ycsbSize)

def writes : Nat := s.draws.countP Draw.isWrite

def requestBytes (dataAddr id : Nat) : Set Nat :=
  Set.Ico (getSendDataAddr dataAddr id) (getSendDataAddr dataAddr id+(s.call.location+4))

def replyBytes (replyAddr id : Nat) : Set Nat :=
  Set.Ico (getSendAddr replyAddr id)
    (getSendAddr replyAddr id+(8+(replyNum ycsbSize (deserialization s.reqP s.memory)).toNat*384))

structure InSlots (dataAddr replyAddr id : Nat) : Prop where
  request : s.requestBytes dataAddr id ⊆ Set.Ico (getSendDataAddr dataAddr id) (getSendDataAddr dataAddr (id+1))
  reply : s.replyBytes replyAddr id ⊆ Set.Ico (getSendAddr replyAddr id) (getSendAddr replyAddr (id+1))

theorem writes_le : s.writes ≤ ycsbSize := countP_le_length.trans_eq s.length_draws

theorem location_eq (hsize : ycsbSize < 2^16) : s.call.location = 52+6*ycsbSize+384*s.writes := by
  have hcount : (s.draws.map Draw.isWrite).count true = s.writes := by
    rw [writes,count_eq_countP,countP_map]
    exact countP_congr (fun draw _ => by simp)
  have hle := s.writes_le
  rw [Call.location,s.req_eq,Ycsb.Tx.length_req,Ycsb.Tx.sum_req,(encoded_of_partitional s.built).num,hcount,
    BitVec.toNat_ofNat,Nat.mod_eq_of_lt (by omega)]
  omega

theorem replyNum_eq (hsize : ycsbSize < 256) : (replyNum ycsbSize (deserialization s.reqP s.memory)).toNat = ycsbSize-s.writes := by
  have hle := s.writes_le
  have hread : (deserialization s.reqP s.memory).getReadNum ycsbSize = ycsbSize-(s.writes : Nat) := by
    have hreq : s.call.req = s.tx.req s.draws.length := by rw [s.req_eq,s.length_draws]
    have heq := getReadNum_eq s.built hreq s.received s.reqP (by rw [s.length_draws]; omega)
    rwa [s.length_draws] at heq
  rw [replyNum,hread,BitVec.toNat_ofInt]
  omega

private theorem range_subset_iff {base len id size} (hsize : 0 < size) :
    Set.Ico (base+id*len) (base+id*len+size) ⊆ Set.Ico (base+id*len) (base+(id+1)*len) ↔ size ≤ len := by
  rw [Set.Ico_subset_Ico_iff (by omega),Nat.succ_mul]
  omega

/-- At most 21 reads, and a request whose writes leave room for the keys. -/
theorem inSlots_iff (hsize : ycsbSize < 256) (dataAddr replyAddr id : Nat) :
    s.InSlots dataAddr replyAddr id ↔ ycsbSize-s.writes ≤ 21 ∧ 6*ycsbSize+384*s.writes ≤ 18376 := by
  have hreply := s.replyNum_eq hsize
  have hrequest := s.location_eq (by omega)
  have hslots : s.InSlots dataAddr replyAddr id ↔ s.call.location+4 ≤ dataLen ∧
      8+(replyNum ycsbSize (deserialization s.reqP s.memory)).toNat*384 ≤ replyLen :=
    ⟨fun h => ⟨(range_subset_iff (by omega)).mp h.request,(range_subset_iff (by omega)).mp h.reply⟩,
      fun h => ⟨(range_subset_iff (by omega)).mpr h.1,(range_subset_iff (by omega)).mpr h.2⟩⟩
  rw [hslots,hreply,hrequest,dataLen,replyLen]
  omega

end Sent

section

def uniform (isWrite : Bool) (n : Nat) : List Draw := (List.range n).map (fun i => ⟨[BitVec.ofNat 32 i],isWrite,true⟩)

/-- The loop ends when every turn draws a key that is new. -/
theorem fill_isSome {keys : List (BitVec 32)} (hnodup : keys.Nodup) (x : Fin 20) (i : Nat) (isWrite : Bool) (tx : Ycsb.Tx)
    (hnew : ∀ key ∈ keys, key ∉ tx.ycsbSet) : (fill x i (keys.map (fun key => ⟨[key],isWrite,true⟩)) tx).isSome := by
  induction keys generalizing i tx with
  | nil => rfl
  | cons key keys ih =>
    obtain ⟨hkey,hrest⟩ := nodup_cons.mp hnodup
    obtain ⟨tx',hturn,hset⟩ : ∃ tx', tx.turn x i ⟨[key],isWrite,true⟩ = some tx' ∧ tx'.ycsbSet = key :: tx.ycsbSet := by
      have hfind : [key].find? (fun key => key ∉ tx.ycsbSet) = some key :=
        find?_cons_of_pos (decide_eq_true (hnew key mem_cons_self))
      refine ⟨_,congrArg _ hfind,?_⟩
      cases isWrite <;> rfl
    rw [map_cons,fill,hturn,Option.bind_some]
    apply ih hrest
    intro other hother
    rw [hset,mem_cons,not_or]
    exact ⟨fun heq => hkey (heq ▸ hother),hnew other (mem_cons_of_mem _ hother)⟩

theorem uniform_built (isWrite : Bool) {n} (hn : n ≤ 64) : ∃ s : Sent n, s.draws = uniform isWrite n := by
  have hnodup : ((List.range n).map (BitVec.ofNat 32)).Nodup := by
    refine List.Nodup.map_on (fun i hi j hj heq => ?_) nodup_range
    have hnat := congrArg BitVec.toNat heq
    rw [mem_range] at hi hj
    rw [BitVec.toNat_ofNat,BitVec.toNat_ofNat] at hnat
    omega
  obtain ⟨tx,htx⟩ := Option.isSome_iff_exists.mp (fill_isSome hnodup 0 0 isWrite emptyTx.begin (fun _ _ => not_mem_nil))
  rw [map_map] at htx
  have hfits : 28+4*(tx.req n).length+((tx.req n).map List.length).sum < 2^32 := by
    have hnum := tx.ycsbWriteNum.isLt
    rw [Ycsb.Tx.length_req,Ycsb.Tx.sum_req]
    omega
  exact ⟨⟨emptyTx,0,uniform isWrite n,by simp [uniform],tx,htx,⟨0,0,0,0,0,0,0,tx.req n,none,hfits⟩,rfl,0,fun _ => 0,_,
    fun _ _ => rfl,fun _ => ⟨0,0⟩⟩,rfl⟩

theorem writes_uniform {isWrite : Bool} {n : Nat} {s : Sent n} (h : s.draws = uniform isWrite n) :
    s.writes = if isWrite then n else 0 := by
  rw [Sent.writes,h,uniform,countP_map]
  cases isWrite <;> simp [Function.comp_def]

end

/-- Requests and replies of every mask stay in their slots exactly with at most 21
operations; of a longer request, those whose reads and writes leave the room. -/
theorem ycsb_buffers_iff (ycsbSize : Nat) (hmask : ycsbSize ≤ 64) :
    (∀ (s : Sent ycsbSize) (dataAddr replyAddr id : Nat), s.InSlots dataAddr replyAddr id ↔
      ycsbSize-s.writes ≤ 21 ∧ 6*ycsbSize+384*s.writes ≤ 18376) ∧
    ((∀ (s : Sent ycsbSize) (dataAddr replyAddr id : Nat), s.InSlots dataAddr replyAddr id) ↔ ycsbSize ≤ 21) := by
  have hiff (s : Sent ycsbSize) := s.inSlots_iff (by omega)
  refine ⟨hiff,fun h => ?_,fun h s dataAddr replyAddr id => ?_⟩
  · obtain ⟨s,hs⟩ := uniform_built false hmask
    have hreads := ((hiff s 0 0 0).mp (h s 0 0 0)).1
    rwa [writes_uniform hs,if_neg (by decide)] at hreads
  · have hle := s.writes_le
    exact (hiff s dataAddr replyAddr id).mpr ⟨by omega,by omega⟩

theorem ycsb_buffers_of_scripts :
    16 ≤ 64 ∧ ∀ (s : Sent 16) (dataAddr replyAddr id : Nat), s.InSlots dataAddr replyAddr id :=
  ⟨by decide,(ycsb_buffers_iff 16 (by decide)).2.mpr (by decide)⟩

/-- With the makefile's 48 operations, a request of writes and a reply to reads are too long. -/
theorem ycsb_buffers_overflow_of_makefile :
    (∃ s : Sent 48, s.writes = 48 ∧ s.call.location+4 = 18776 ∧ ¬s.requestBytes 0 0 ⊆ Set.Ico 0 dataLen) ∧
      ∃ s : Sent 48, s.writes = 0 ∧ ¬s.replyBytes 0 0 ⊆ Set.Ico 0 replyLen := by
  obtain ⟨s,hs⟩ := uniform_built true (show 48 ≤ 64 by decide)
  obtain ⟨r,hr⟩ := uniform_built false (show 48 ≤ 64 by decide)
  have hwrites := writes_uniform hs
  have hreads := writes_uniform hr
  rw [if_pos rfl] at hwrites
  rw [if_neg (by decide)] at hreads
  have hlocation := s.location_eq (by decide)
  have hreply := r.replyNum_eq (by decide)
  refine ⟨⟨s,hwrites,by omega,fun hsub => ?_⟩,r,hreads,fun hsub => ?_⟩
  · have hmem : dataLen ∈ s.requestBytes 0 0 := by
      rw [Sent.requestBytes,hlocation,hwrites]
      exact ⟨by decide,by decide⟩
    exact absurd (hsub hmem).2 (lt_irrefl _)
  · have hmem : replyLen ∈ r.replyBytes 0 0 := by
      rw [Sent.replyBytes,hreply,hreads]
      exact ⟨by decide,by decide⟩
    exact absurd (hsub hmem).2 (lt_irrefl _)

end AlNiCo.Host.Message
