import AlNiCo.Client.NewOrder
import AlNiCo.Client.Ycsb

/-! The requests of both builds: the five procedures of TPC-C, chosen by
`tpcc_procedure`, and YCSB. -/
namespace AlNiCo.Client
open Library.ByteMemory

section
variable (tx : Tx)

/-- The customer's warehouse is drawn until it is another one. -/
def paymentProcedure (qWId qDId : BitVec 64) (isHome : Bool) (warehouses : List (BitVec 64)) (district qCId : BitVec 64) :
    Option Tx :=
  let customer := if isHome then some (qWId,qDId) else (warehouses.find? (· ≠ qWId)).map (fun w => (w,district))
  customer.map (fun (qCWId,qCDId) =>
    let tx := tx.begin.addToWritef 1 (makeDistrictKey (qWId.setWidth 32) (qDId.setWidth 32))
    let args := [qWId.setWidth 32,qDId.setWidth 32,qCWId.setWidth 32,qCDId.setWidth 32,
      (BitVec.ofBool isHome).setWidth 32,0,qCId.setWidth 32]
    args.foldl Tx.addToArgs tx)

def orderStatus (qWId qDId : BitVec 64) (byName : Bool) (customer : BitVec 64) : Tx :=
  let qCId := if byName then 0 else customer
  let tx := tx.begin.addToWritef 1 (makeDistrictKey (qWId.setWidth 32) (qDId.setWidth 32))
  let args := [qWId.setWidth 32,qDId.setWidth 32,(BitVec.ofBool byName).setWidth 32,qCId.setWidth 32]
  args.foldl Tx.addToArgs tx

def stockLevel (qWId qDId : BitVec 64) : Tx :=
  let tx := tx.begin.addToWritef 1 (makeDistrictKey (qWId.setWidth 32) (qDId.setWidth 32))
  [qWId.setWidth 32,qDId.setWidth 32].foldl Tx.addToArgs tx

/-- The key is the member `warehouse_id` that the last new-order or payment left, not
the warehouse of this request. -/
def delivery (warehouseId : BitVec 32) (qWId : BitVec 64) : Tx :=
  (tx.begin.addToWritef 0 (warehouseId.setWidth 64)).addToArgs (qWId.setWidth 32)

end

inductive Procedure
  | newOrder (w : NewOrder.Warehouse) (d c : BitVec 32) (numItems : Nat) (draws : List NewOrder.Draw)
  | payment (qWId qDId : BitVec 64) (isHome : Bool) (warehouses : List (BitVec 64)) (district qCId : BitVec 64)
  | orderStatus (qWId qDId : BitVec 64) (byName : Bool) (customer : BitVec 64)
  | stockLevel (qWId qDId : BitVec 64)
  | delivery (warehouseId : BitVec 32) (qWId : BitVec 64)

def tpccProcedure (tx : Tx) : Procedure → Option Tx
  | .newOrder w d c numItems draws => (NewOrder.newOrderProcedure tx w d c numItems draws).map NewOrder.Order.tx
  | .payment qWId qDId isHome warehouses district qCId => paymentProcedure tx qWId qDId isHome warehouses district qCId
  | .orderStatus qWId qDId byName customer => some (orderStatus tx qWId qDId byName customer)
  | .stockLevel qWId qDId => some (stockLevel tx qWId qDId)
  | .delivery warehouseId qWId => some (delivery tx warehouseId qWId)

/-- A request of one of the builds, after its procedure has run. -/
inductive Request
  | tpcc (tx : Tx)
  | ycsb (n : Nat) (tx : Ycsb.Tx)

namespace Request

inductive Built : Request → Prop
  | tpcc {tx tx' p} (h : tpccProcedure tx p = some tx') : Built (.tpcc tx')
  | ycsb {tx tx' x draws} (h : Ycsb.ycsbPartitional tx x draws = some tx') :
    Built (.ycsb draws.length tx')

def segments : Request → List (List (BitVec 8))
  | .tpcc tx => tx.req
  | .ycsb n tx => tx.req n

def features : Request → List (BitVec 8)
  | .tpcc tx => slice tx.feature 0 64
  | .ycsb _ tx => slice tx.feature 0 64

end Request

/-- `serialization`: the features, the hint and a toggled word, as they go to the NIC. -/
def serialization (metadata : Memory) (partitionHint : BitVec 32) (feature : List (BitVec 8)) : Memory :=
  let m := copy metadata 0 feature
  let m := store 2 m 66 (~~~load 2 m 66)
  store 2 m 64 (partitionHint.setWidth 16)

end AlNiCo.Client
