import AlNiCo.Client.Call
import AlNiCo.Delivery.Queue

/-! The TPC-C client threads with their server: `run_tpcc_client`, the workers,
the owners of the warehouses and the reply thread. A request reaches a worker
once its write has arrived; the doorbell that tells the worker is not modelled. -/
namespace AlNiCo.Rpc
open Library Library.ByteMemory Client Function

structure Config where
  maxClient : Nat
  clientThread : Nat
  slotNum : Nat
  warehouses : Nat
  maxClient_pos : 0 < maxClient
  maxClient_le : maxClient ≤ 255
  clientThread_pos : 0 < clientThread
  clientThread_le : clientThread ≤ 256

namespace Config
variable (K : Config)

def threads : Nat := K.maxClient*K.clientThread

def delivery : Delivery.Config := ⟨K.threads,K.warehouses,Nat.mul_pos K.maxClient_pos K.clientThread_pos⟩

/-- The node and the thread of client thread `t`; node 0 is the server. -/
def nodeId (t : Nat) : BitVec 8 := BitVec.ofNat 8 (t/K.clientThread+1)
def threadId (t : Nat) : BitVec 8 := BitVec.ofNat 8 (t % K.clientThread)

/-- The delivery a request header announces: `server->nic_connect[my_nodeid][thread_id]`. -/
def entryOf (m : Memory) : Delivery.Entry :=
  ⟨((m 1).toNat-1)*K.clientThread+(m 3).toNat,(word m 4).toNat⟩

def workerOf (t i : Nat) : Nat := t*K.slotNum+i

end Config

inductive Txn
  | newOrder
  | payment
  | orderStatus
  | stockLevel
  | delivery
deriving DecidableEq

def Txn.code : Txn → BitVec 16
  | .newOrder => 0
  | .payment => 1
  | .orderStatus => 2
  | .stockLevel => 3
  | .delivery => 4

structure Request where
  txn : Txn
  partitionHint : BitVec 32
  req : List (List (BitVec 8))
  fits : 28+4*req.length+(req.map List.length).sum < 2^32

def Request.call (K : Config) (r : Request) (t i : Nat) : Call :=
  ⟨67,K.nodeId t,0,K.threadId t,r.txn.code,BitVec.ofNat 8 i,r.partitionHint,r.req,none,r.fits⟩

/-- Where the request of a slot is between the client's write and the reply. -/
inductive Stage
  | quiet
  | sent (size : Nat)
  | arrived
  | reserved
  | served
deriving DecidableEq

/-- The reply thread at a slot: it has found a new reply, it has noted its id. -/
inductive Watch
  | idle
  | differs (i : Nat)
  | noted (i : Nat)
deriving DecidableEq

/-- A write of the reply thread: a reply, or the counter block from `next` on,
which is read only as it is transmitted. -/
inductive Post
  | reply (i : Nat) (value : BitVec 32)
  | block (next : Nat)

inductive Packet
  | reply (i : Nat) (value : BitVec 32)
  | counter (d : Nat) (value : BitVec 64)

/-- One client thread and what the server keeps for it. -/
structure Lane where
  rpcnum : Nat
  data : Nat → Memory
  singleRpcId : Nat → BitVec 32
  busy : Nat → Bool
  noDeliveryFlag : Nat → Bool
  strifeCqe : Nat → BitVec 64
  /-- The loop variable `i`; `SLOT_NUM` stands for the part after the loop. -/
  turn : Nat
  dI : Nat
  /-- The replies and the counters in the memory of the client. -/
  reply : Nat → BitVec 32
  counters : Nat → BitVec 64
  memory : Nat → Memory
  stage : Nat → Stage
  /-- The replies as the workers publish them. -/
  send : Nat → BitVec 32
  lastRpcId : Nat → BitVec 32
  watch : Watch
  posts : List Post
  wire : List Packet
  /-- The ids issued, and the replies published, posted and landed, by slot. -/
  issued : Nat → List (BitVec 32)
  published : Nat → List (BitVec 32)
  posted : Nat → List (BitVec 32)
  landed : Nat → List (BitVec 32)

namespace Lane

def start : Lane where
  rpcnum := 0
  data _ _ := 0
  singleRpcId _ := 0
  busy _ := false
  noDeliveryFlag _ := true
  strifeCqe _ := 0
  turn := 0
  dI := 0
  reply _ := 0
  counters _ := 0
  memory _ _ := 0
  stage _ := .quiet
  send _ := 0
  lastRpcId _ := 0
  watch := .idle
  posts := []
  wire := []
  issued _ := []
  published _ := []
  posted _ := []
  landed _ := []

def deliveryReplyOk (l : Lane) (rpcId : Nat) : Bool := l.noDeliveryFlag (rpcId % 1000)

def generate (l : Lane) (i : Nat) (c : Call) (delivery : Bool) : Lane :=
  let pushed := pushNewCallWrite c l.rpcnum (l.data i)
  { l with
    rpcnum := pushed.rpcnum
    data := update l.data i pushed.data
    singleRpcId := update l.singleRpcId i pushed.rpcId
    busy := update l.busy i true
    noDeliveryFlag :=
      if delivery then update l.noDeliveryFlag pushed.rpcId.toNat false else l.noDeliveryFlag
    turn := l.turn+1
    stage := update l.stage i (.sent (c.location+4))
    issued := update l.issued i (l.issued i ++ [pushed.rpcId]) }

def answered (l : Lane) (i : Nat) : Bool := l.reply i == l.singleRpcId i+100

def seeReply (l : Lane) (i : Nat) : Lane :=
  { l with busy := update l.busy i (!l.answered i), turn := l.turn+1 }

/-- The test of `update_reply_flag` behind the flag. -/
def completed (l : Lane) : Bool := !l.noDeliveryFlag l.dI && l.counters l.dI == l.strifeCqe l.dI+11

def afterLoop (l : Lane) : Lane :=
  { l with
    strifeCqe := if l.completed then update l.strifeCqe l.dI (l.strifeCqe l.dI+11) else l.strifeCqe
    noDeliveryFlag := if l.completed then update l.noDeliveryFlag l.dI true else l.noDeliveryFlag
    dI := (l.dI+1) % 1000
    turn := 0 }

def arrive (l : Lane) (i : Nat) : Lane :=
  match l.stage i with
  | .sent size =>
    { l with
      memory := update l.memory i (fun j => if j < size then l.data i j else l.memory i j)
      stage := update l.stage i .arrived }
  | _ => l

def setStage (l : Lane) (i : Nat) (stage : Stage) : Lane := { l with stage := update l.stage i stage }

/-- `reply_now`: the id of the request and 100. -/
def publish (l : Lane) (i : Nat) : Lane :=
  { l with
    send := update l.send i (word (l.memory i) 4+100)
    stage := update l.stage i .quiet
    published := update l.published i (l.published i ++ [word (l.memory i) 4+100]) }

def note (l : Lane) : Lane :=
  match l.watch with
  | .differs i => { l with lastRpcId := update l.lastRpcId i (l.send i), watch := .noted i }
  | _ => l

def post (l : Lane) : Lane :=
  match l.watch with
  | .noted i =>
    { l with
      watch := .idle
      posts := l.posts ++ [.reply i (l.send i)]
      posted := update l.posted i (l.posted i ++ [l.send i]) }
  | _ => l

/-- The next part of the oldest write leaves the server. -/
def transmit (l : Lane) (counter : Nat → BitVec 64) : Lane :=
  match l.posts with
  | [] => l
  | .reply i value :: posts => { l with posts := posts, wire := l.wire ++ [.reply i value] }
  | .block d :: posts =>
    { l with
      posts := if d+1 < 1000 then .block (d+1) :: posts else posts
      wire := l.wire ++ [.counter d (counter d)] }

def land (l : Lane) : Lane :=
  match l.wire with
  | [] => l
  | .reply i value :: wire =>
    { l with
      wire := wire
      reply := update l.reply i value
      landed := update l.landed i (l.landed i ++ [value]) }
  | .counter d value :: wire => { l with wire := wire, counters := update l.counters d value }

end Lane

structure System where
  lane : Nat → Lane
  delivery : Delivery.State

inductive Action
  | client (t : Nat) (r : Request)
  | arrive (t i : Nat)
  | take (t i w : Nat)
  | store (t i : Nat)
  | publish (t i : Nat)
  | check (t i : Nat)
  | note (t : Nat)
  | post (t : Nat)
  | owner (a : Delivery.Action)
  | clear (t : Nat)
  | postBlock
  | transmit (t : Nat)
  | land (t : Nat)

namespace System

def start : System := ⟨fun _ => .start,.start⟩

def setLane (s : System) (t : Nat) (l : Lane) : System := { s with lane := update s.lane t l }

variable (K : Config)

def deliver (s : System) (a : Delivery.Action) : System :=
  { s with delivery := s.delivery.step K.delivery a }

def client (s : System) (t : Nat) (r : Request) : System :=
  let l := s.lane t
  if l.turn < K.slotNum then
    if l.busy l.turn then s.setLane t (l.seeReply l.turn)
    else if l.deliveryReplyOk l.rpcnum && l.deliveryReplyOk (l.rpcnum+1) then
      let c := r.call K t l.turn
      let s := if r.txn = .delivery
        then s.deliver K (.send ⟨t,(pushNewCallWrite c l.rpcnum (l.data l.turn)).rpcId.toNat⟩) else s
      s.setLane t (l.generate l.turn c (r.txn = .delivery))
    else s.setLane t { l with turn := K.slotNum }
  else
    let s := if l.completed then s.deliver K (.answer ⟨t,l.dI⟩) else s
    s.setLane t l.afterLoop

/-- A worker takes the request of a slot; a delivery gets its place in a queue. -/
def take (s : System) (t i w : Nat) : System :=
  let l := s.lane t
  if load 2 (l.memory i) 8 = Txn.delivery.code then
    (s.deliver K (.reserve (K.workerOf t i) w (K.entryOf (l.memory i)))).setLane t (l.setStage i .reserved)
  else s.setLane t (l.setStage i .served)

def step (s : System) : Action → System
  | .client t r => s.client K t r
  | .arrive t i => s.setLane t ((s.lane t).arrive i)
  | .take t i w => s.take K t i w
  | .store t i => (s.deliver K (.store (K.workerOf t i))).setLane t ((s.lane t).setStage i .served)
  | .publish t i => s.setLane t ((s.lane t).publish i)
  | .check t i => s.setLane t { s.lane t with watch := .differs i }
  | .note t => s.setLane t (s.lane t).note
  | .post t => s.setLane t (s.lane t).post
  | .owner a => s.deliver K a
  | .clear t => s.deliver K (.clear t)
  | .postBlock =>
    match s.delivery.posting with
    | some t => (s.deliver K .post).setLane t { s.lane t with posts := (s.lane t).posts ++ [.block 0] }
    | none => s
  | .transmit t => s.setLane t ((s.lane t).transmit (s.delivery.counter t))
  | .land t => s.setLane t (s.lane t).land

def isSent : Stage → Bool
  | .sent _ => true
  | _ => false

def ready (s : System) : Action → Bool
  | .client t _ => t < K.threads
  | .arrive t i => t < K.threads && i < K.slotNum && isSent ((s.lane t).stage i)
  | .take t i w => t < K.threads && i < K.slotNum && w < K.warehouses && (s.lane t).stage i == .arrived
  | .store t i => t < K.threads && i < K.slotNum && (s.lane t).stage i == .reserved
  | .publish t i => t < K.threads && i < K.slotNum && (s.lane t).stage i == .served
  | .check t i => t < K.threads && i < K.slotNum && (s.lane t).watch == .idle &&
      (s.lane t).send i != (s.lane t).lastRpcId i
  | .note t => t < K.threads && match (s.lane t).watch with | .differs _ => true | _ => false
  | .post t => t < K.threads && match (s.lane t).watch with | .noted _ => true | _ => false
  | .owner a => s.delivery.ready K.delivery a && match a with
      | .check _ => true | .fetch _ => true | .mark _ => true | .load _ => true | .write _ => true | .raise _ => true
      | _ => false
  | .clear t => t < K.threads && s.delivery.ready K.delivery (.clear t)
  | .postBlock => s.delivery.posting.isSome
  | .transmit t => t < K.threads && !(s.lane t).posts.isEmpty
  | .land t => t < K.threads && !(s.lane t).wire.isEmpty

end System

def machine (K : Config) : Machine System Action := ⟨.start,System.ready K,System.step K⟩

end AlNiCo.Rpc
