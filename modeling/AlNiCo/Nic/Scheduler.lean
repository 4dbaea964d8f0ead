import Mathlib
import AlNiCo.Placement.NicWeights

/-! The FPGA scheduler `schedule_nodma`: its static variables, the prologue of
an invocation and the five stages of `dataflow_no_dma`. The two polled banks are
one definition at an index; `false` is bank 0 and `true` is bank 1. -/
namespace AlNiCo.Nic
open Function

/-- The arguments of `schedule_nodma` that the scheduling loop depends on. -/
structure Args where
  clientNum : Nat
  slotNum : Nat
  coreNum : Nat
  messNum : Nat
  bClient : Nat
  eClient : Nat
  ipId : Nat
  deriving DecidableEq

structure CdmaMsgOut where
  i : Nat
  coreId : Nat
  oldFeatures : BitVec 512
  newFeatures : BitVec 512
  deriving DecidableEq

structure ComputeIdOut where
  i : Nat
  coreId : Nat
  deriving DecidableEq

structure UpdateClusterIn where
  oldFeatures : BitVec 512
  newFeatures : BitVec 512
  i : Nat
  coreId : Nat
  deriving DecidableEq

/-- What is kept per polled bank: `slot_offset`, `RRB`, `features`, the cursor
`ii` or `jj`, `slot_partition` and the stream `check_msg_out`. -/
@[ext] structure Bank where
  slotOffset : Nat → Nat
  rrb : Nat → BitVec 32
  features : Nat → BitVec 512
  next : Nat
  slotPartition : Nat
  checkMsgOut : List CdmaMsgOut

@[ext] structure Fpga where
  coreNum : Nat
  messNum : Nat
  bank : Bool → Bank
  kk : Bool
  computeCoreIdOut : List ComputeIdOut
  updateClusterIn : List UpdateClusterIn
  oldCoreId : Nat → Nat
  clusters : Nat → Nat → BitVec 8
  bitClusters : Nat → BitVec 512
  mergeWeights : Nat → Nat → BitVec 12
  hardPartition : Nat → BitVec 8
  queueAddrMap : Nat → Nat
  queueMetadata : Nat → Nat

def initialClusters (c f : Nat) : BitVec 8 := if c = f then 1 else 0

/-- The zero-initialised globals, with `cluster` constructed. -/
def Fpga.static : Fpga where
  coreNum := 0
  messNum := 0
  bank _ := ⟨fun _ => 0,fun _ => 0,fun _ => 0,0,0,[]⟩
  kk := false
  computeCoreIdOut := []
  updateClusterIn := []
  oldCoreId _ := 0
  clusters := initialClusters
  bitClusters _ := 0
  mergeWeights _ _ := 0
  hardPartition _ := 0
  queueAddrMap _ := 0
  queueMetadata _ := 0

def Fpga.setBank (s : Fpga) (b : Bool) (bank : Bank) : Fpga :=
  { s with bank := update s.bank b bank }

section

/-- Loop body over the cores; the second component is `addr`. -/
def initQueue (args : Args) (s : Fpga × Nat) (i : Nat) : Fpga × Nat :=
  ({ s.1 with
      queueMetadata := update s.1.queueMetadata i 0
      queueAddrMap := update s.1.queueAddrMap i ((s.2+256+(args.messNum*64*args.ipId)/2)/4) },
    s.2+(256*64+256))

def initSlot (args : Args) (i : Nat) (s : Fpga) (j : Nat) : Fpga :=
  let myClientNum := args.eClient-args.bClient
  let queueAddrBase := args.bClient*args.slotNum*2048
  let k := i*args.slotNum+j
  let bank0 := s.bank false
  let bank1 := s.bank true
  let s :=
    if i*2 < myClientNum then
      (s.setBank false { bank0 with
        slotOffset := update bank0.slotOffset k ((2048*k+queueAddrBase)/4+16)
        rrb := update bank0.rrb k 0 }).setBank true { bank1 with
        rrb := update bank1.rrb k 0 }
    else
      let k1 := (i-myClientNum/2)*args.slotNum+j
      s.setBank true { bank1 with
        slotOffset := update bank1.slotOffset k1 ((2048*k1+queueAddrBase)/4+16) }
  { s with oldCoreId := update s.oldCoreId k args.coreNum }

def initSlots (args : Args) (s : Fpga) : Fpga :=
  (List.range (args.eClient-args.bClient)).foldl (fun s i =>
    (List.range args.slotNum).foldl (initSlot args i) s) s

/-- `schedule_nodma` up to the first turn of its loop, for `con == 2`. What it
does not mention survives from the invocation before. -/
def Fpga.invoke (args : Args) (s : Fpga) : Fpga :=
  let addr := 2048*args.slotNum*args.clientNum+0x04000000
  let s := ((List.range args.coreNum).foldl (initQueue args)
    ({ s with coreNum := args.coreNum, messNum := args.messNum },addr)).1
  let s := initSlots args s
  let slotPartition := args.slotNum*(args.eClient-args.bClient)/2
  { s with
    bank := fun b => { s.bank b with slotPartition := slotPartition, next := 0 }
    kk := false }

end

section

/-- `load_feature`: sixteen words from `offset`, lowest word first. -/
def loadFeature (offset : Nat) (m : Nat → BitVec 32) : BitVec 512 :=
  BitVec.ofFnLE (fun j : Fin 512 => (m (offset+j.val/32)).getLsbD (j.val % 32))

/-- `check_message_dataflow_nodma0` and `1`: poll the slot under the cursor of
a bank whose slots have global ids from `base`. -/
def checkMessage (base : Nat) (m : Nat → BitVec 32) (bank : Bank) : Bank :=
  let i := bank.next
  let offset := bank.slotOffset i
  let messageHead := m offset
  let tmpRRB := (messageHead.sshiftRight 16) &&& 0xFFFF
  let polled :=
    if tmpRRB ||| 0xFFFF0000 = ~~~(bank.rrb i) ||| 0xFFFF0000 then
      let newFeatures := loadFeature (offset-16) m
      { bank with
        rrb := update bank.rrb i tmpRRB
        checkMsgOut := bank.checkMsgOut ++
          [⟨base+i,(messageHead &&& 0xFFFF).toNat,bank.features i,newFeatures⟩]
        features := update bank.features i newFeatures }
    else bank
  { polled with next := if i+1 = bank.slotPartition then 0 else i+1 }

def Fpga.base (s : Fpga) (b : Bool) : Nat := if b then (s.bank true).slotPartition else 0

def checkMessageDataflowNodma (b : Bool) (m : Nat → BitVec 32) (s : Fpga) : Fpga :=
  s.setBank b (checkMessage (s.base b) m (s.bank b))

/-- `core_id_func` on one message: the two writes it ends with. -/
def dispatch (msg : CdmaMsgOut) (s : Fpga) : Fpga :=
  let index := Placement.Nic.coreIdFunc s.coreNum s.mergeWeights s.bitClusters msg.coreId msg.newFeatures
  { s with
    computeCoreIdOut := s.computeCoreIdOut ++ [⟨msg.i,index⟩]
    updateClusterIn := s.updateClusterIn ++ [⟨msg.oldFeatures,msg.newFeatures,msg.i,index⟩] }

/-- `compute_core_id`: stay on a stream while it has messages. -/
def computeCoreId (s : Fpga) : Fpga :=
  match (s.bank s.kk).checkMsgOut with
  | [] => { s with kk := !s.kk }
  | msg :: rest => dispatch msg (s.setBank s.kk { s.bank s.kk with checkMsgOut := rest })

/-- `doorbell_dataflow`: the write to host memory, if there is one, as address
and word. -/
def doorbellDataflow (s : Fpga) : Fpga × Option (Nat × BitVec 32) :=
  match s.computeCoreIdOut with
  | [] => (s,none)
  | msg :: rest =>
    let localHead := s.queueMetadata msg.coreId
    let head := if localHead+1 = s.messNum then 0 else localHead+1
    ({ s with
        computeCoreIdOut := rest
        queueMetadata := update s.queueMetadata msg.coreId head },
      some (s.queueAddrMap msg.coreId+localHead*16,BitVec.ofNat 32 msg.i))

def bump (clusters : Nat → Nat → BitVec 8) (c f : Nat) (d : BitVec 8) : Nat → Nat → BitVec 8 :=
  update clusters c (update (clusters c) f (clusters c f+d))

/-- Loop body of `update_cluster`: the decrement, then the increment. -/
def updateFeature (oldIndex : Nat) (msg : UpdateClusterIn) (clusters : Nat → Nat → BitVec 8) (f : Nat) :
    Nat → Nat → BitVec 8 :=
  let clusters := if msg.oldFeatures.getLsbD f then bump clusters oldIndex f (-1) else clusters
  if msg.newFeatures.getLsbD f then bump clusters msg.coreId f 1 else clusters

def updateCluster (s : Fpga) : Fpga :=
  match s.updateClusterIn with
  | [] => s
  | msg :: rest =>
    { s with
      updateClusterIn := rest
      clusters := (List.range 512).foldl (updateFeature (s.oldCoreId msg.i) msg) s.clusters
      oldCoreId := update s.oldCoreId msg.i msg.coreId }

/-- `init_bitmap`: the first 22 bitmaps are recomputed from the counters. -/
def initBitmap (s : Fpga) : Fpga :=
  { s with
    bitClusters := fun i =>
      if i < 22 then BitVec.ofFnLE (fun f : Fin 512 =>
        (s.hardPartition f).toNat == i || (s.clusters i f != 0 && (s.hardPartition f).toNat == 25))
      else s.bitClusters i }

/-- `init_weight` on the buffer `cdma_buf + 0x200000`: weights, then partition. -/
def initWeight (cdmaBuf : Nat → BitVec 8) (s : Fpga) : Fpga :=
  { s with
    mergeWeights := Placement.Nic.initWeight cdmaBuf s.mergeWeights
    hardPartition := fun f => cdmaBuf (512+f) }

end

end AlNiCo.Nic
