import AlNiCo.Library.OrderedIndex
import AlNiCo.Sto.SplitUpdate
import AlNiCo.Tpcc.Changes

/-! The TPC-C tables, and what new-order, payment and delivery read and write there
when they run alone. The write set holds one write for a row; it is stored at the
commit. -/
namespace AlNiCo.Tpcc
open Sto Library Function Option

section

structure OrderKey where
  wId : Nat
  dId : Nat
  oId : Nat

/-- The components are stored big-endian, so that the bytes are ordered as they are. -/
instance : LinearOrder OrderKey :=
  LinearOrder.lift' (fun k => toLex (k.wId,toLex (k.dId,k.oId))) (by rintro ⟨_,_,_⟩ ⟨_,_,_⟩ h; simpa using h)

structure OrderlineKey where
  wId : Nat
  dId : Nat
  oId : Nat
  number : Nat

instance : LinearOrder OrderlineKey :=
  LinearOrder.lift' (fun k => toLex (k.wId,toLex (k.dId,toLex (k.oId,k.number))))
    (by rintro ⟨_,_,_,_⟩ ⟨_,_,_,_⟩ h; simpa using h)

def OrderlineKey.order (k : OrderlineKey) : OrderKey := ⟨k.wId,k.dId,k.oId⟩

theorem OrderKey.le_def {k k' : OrderKey} : k ≤ k' ↔ toLex (k.wId,toLex (k.dId,k.oId)) ≤ toLex (k'.wId,toLex (k'.dId,k'.oId)) := Iff.rfl

theorem OrderKey.lt_def {k k' : OrderKey} : k < k' ↔ toLex (k.wId,toLex (k.dId,k.oId)) < toLex (k'.wId,toLex (k'.dId,k'.oId)) := Iff.rfl

theorem OrderlineKey.le_def {k k' : OrderlineKey} : k ≤ k' ↔ toLex (k.wId,toLex (k.dId,toLex (k.oId,k.number))) ≤
      toLex (k'.wId,toLex (k'.dId,toLex (k'.oId,k'.number))) := Iff.rfl

/-- Within a district the ids decide. -/
theorem OrderKey.le_iff {w d o o'} : (⟨w,d,o⟩ : OrderKey) ≤ ⟨w,d,o'⟩ ↔ o ≤ o' := by
  simp [OrderKey.le_def,Prod.Lex.toLex_le_toLex]

theorem OrderKey.lt_iff {w d o o'} : (⟨w,d,o⟩ : OrderKey) < ⟨w,d,o'⟩ ↔ o < o' := by
  simp [OrderKey.lt_def,Prod.Lex.toLex_lt_toLex]

theorem OrderKey.between {w d o o' : Nat} {k : OrderKey} (hle : ⟨w,d,o⟩ ≤ k) (hlt : k < ⟨w,d,o'⟩) : k = ⟨w,d,k.oId⟩ := by
  obtain ⟨kw,kd,ko⟩ := k
  simp only [OrderKey.le_def,OrderKey.lt_def,Prod.Lex.toLex_le_toLex,Prod.Lex.toLex_lt_toLex] at hle hlt
  obtain rfl : kw = w := by omega
  obtain rfl : kd = d := by omega
  rfl

end

/-- The columns of `item_value` that new-order uses. -/
structure Item where
  imId : BitVec 64
  price : BitVec 32

structure History where
  cId : BitVec 64
  cDId : BitVec 64
  cWId : BitVec 64
  dId : BitVec 64
  wId : BitVec 64
  date : BitVec 32
  amount : BitVec 64
  data : VarString 24

structure Db where
  warehouses : Nat → Option warehouseValue.Row
  districts : Nat × Nat → Option districtValue.Row
  customers : Nat × Nat × Nat → Option customerValue.Row
  customerIndex : Nat × Nat × VarString 16 → Option (List Nat)
  items : Nat → Option Item
  stocks : Nat × Nat → Option stockValue.Row
  orders : OrderedIndex OrderKey orderValue.Row
  neworders : OrderedIndex OrderKey Unit
  orderlines : OrderedIndex OrderlineKey orderlineValue.Row
  /-- By the customer's warehouse, as there is one table for each. -/
  histories : Nat × Nat × Nat × Nat × Nat → Option History
  oidGens : Nat × Nat → Nat
  keyGens : Nat → Nat

section

def Db.next (db : Db) (wid did : Nat) : Nat × Db :=
  let idx := (wid%64,did%16)
  (db.oidGens idx,{ db with oidGens := update db.oidGens idx (db.oidGens idx+1) })

def Db.genKey (db : Db) (wid : Nat) : Nat × Db :=
  (db.keyGens wid,{ db with keyGens := update db.keyGens wid (db.keyGens wid+1) })

end

section

/-- An `update_row`: by `Commute`, or with a new row in every build. -/
inductive RowWrite (t : SplitTable)
  | change (ch : Change t)
  | put (accesses : List (t.value.Col × Access)) (newRow : t.value.Row → t.value.Row)

def RowWrite.store {t : SplitTable} (b : Build) (commute : Bool) : RowWrite t → t.value.Row → Option t.value.Row
  | change ch,old => ch.run b old commute
  | put accesses newRow,old =>
    commitRow (b.sel t) (fun (c : Empty) => c.elim)
      (updateRow dbDefaultParams (newRow old) (selectSplitRow t.value (b.sel t) dbDefaultParams accesses .fresh)) old

structure Writes where
  warehouses : Nat → Option (RowWrite .warehouse)
  districts : Nat × Nat → Option (RowWrite .district)
  customers : Nat × Nat × Nat → Option (RowWrite .customer)
  stocks : Nat × Nat → Option (RowWrite .stock)
  orders : OrderKey → Option (RowWrite .order)
  orderlines : OrderlineKey → Option (RowWrite .orderline)
  insertedOrders : List (OrderKey × orderValue.Row)
  insertedNeworders : List (OrderKey × Unit)
  insertedOrderlines : List (OrderlineKey × orderlineValue.Row)
  insertedHistory : Option ((Nat × Nat × Nat × Nat × Nat) × History)
  deletedNeworders : List OrderKey

def Writes.none : Writes :=
  ⟨fun _ => .none,fun _ => .none,fun _ => .none,fun _ => .none,fun _ => .none,fun _ => .none,[],[],[],.none,[]⟩

variable {K : Type} {t : SplitTable}

def storeRow (b : Build) (commute : Bool) (writes : K → Option (RowWrite t)) (k : K) (old : t.value.Row) :
    Option t.value.Row :=
  match writes k with
  | some w => w.store b commute old
  | none => some old

def storeRows (b : Build) (commute : Bool) (writes : K → Option (RowWrite t)) (table : K → Option t.value.Row) :
    K → Option t.value.Row :=
  fun k => (table k).bind (storeRow b commute writes k)

def Db.commit (b : Build) (commute : Bool) (db : Db) (ws : Writes) : Db :=
  { db with
    warehouses := storeRows b commute ws.warehouses db.warehouses
    districts := storeRows b commute ws.districts db.districts
    customers := storeRows b commute ws.customers db.customers
    stocks := storeRows b commute ws.stocks db.stocks
    orders := (db.orders.mapRows (storeRow b commute ws.orders)).insertAll ws.insertedOrders
    neworders := (db.neworders.insertAll ws.insertedNeworders).eraseAll ws.deletedNeworders
    orderlines := (db.orderlines.mapRows (storeRow b commute ws.orderlines)).insertAll ws.insertedOrderlines
    histories := match ws.insertedHistory with
      | some (k,h) => update db.histories k (some h)
      | none => db.histories }

end

section

structure OrderItem where
  iId : Nat
  supplyWId : Nat
  quantity : Nat

structure NewOrder where
  wId : Nat
  dId : Nat
  cId : Nat
  entryD : BitVec 32
  items : List OrderItem

/-- `d_next_o_id` gets the id of the order itself. -/
def orderDistrict (oId : Nat) : RowWrite .district :=
  .put [(DistrictColumn.dTax,.read),(DistrictColumn.dNextOId,.update)]
    (fun value => update value DistrictColumn.dNextOId (BitVec.ofNat 64 oId))

def NewOrder.orderRow (r : NewOrder) : orderValue.Row
  | .oCId => BitVec.ofNat 64 r.cId
  | .oEntryD => r.entryD
  | .oOlCnt => BitVec.ofNat 32 r.items.length
  | .oAllLocal => if r.items.all (fun i => decide (i.supplyWId = r.wId)) then 1 else 0
  | .oCarrierId => 0

/-- `ol_amount` is computed as a `double` and truncated. -/
def OrderItem.lineRow (i : OrderItem) (price : BitVec 32) (dist : FixString 24) : orderlineValue.Row
  | .olIId => BitVec.ofNat 64 i.iId
  | .olSupplyWId => BitVec.ofNat 64 i.supplyWId
  | .olQuantity => BitVec.ofNat 32 i.quantity
  | .olAmount => BitVec.ofNat 32 (i.quantity*price.toNat/100)
  | .olDistInfo => dist
  | .olDeliveryD => 0

def NewOrder.line (r : NewOrder) (oId : Nat) (db : Db) (idx : Nat) (i : OrderItem) :
    Option (OrderlineKey × orderlineValue.Row) := do
  let iv ← db.items i.iId
  if iv.imId = 0 then none
  else
    let sv ← db.stocks (i.supplyWId,i.iId)
    let dists : Vector (FixString 24) 10 := sv StockColumn.sDists
    let dist ← dists[r.dId-1]?
    some (⟨r.wId,r.dId,oId,idx+1⟩,i.lineRow iv.price dist)

/-- A second line of one stock record replaces the write of the first. -/
def NewOrder.stockWrite (r : NewOrder) (k : Nat × Nat) : Option (RowWrite .stock) :=
  (r.items.reverse.find? (fun i => decide ((i.supplyWId,i.iId) = k))).map (fun i =>
    .change (orderStock (BitVec.ofNat 64 i.quantity) (decide (i.supplyWId ≠ r.wId))))

def NewOrder.lines (r : NewOrder) (oId : Nat) (db : Db) : Option (List (OrderlineKey × orderlineValue.Row)) := do
  let _ ← db.warehouses r.wId
  let _ ← db.districts (r.wId,r.dId)
  let _ ← db.customers (r.wId,r.dId,r.cId)
  r.items.zipIdx.mapM (fun x => r.line oId db x.2 x.1)

def NewOrder.writes (r : NewOrder) (oId : Nat) (db : Db) : Option Writes :=
  (r.lines oId db).map (fun lines =>
    { Writes.none with
      districts := update (fun _ => none) (r.wId,r.dId) (some (orderDistrict oId))
      stocks := r.stockWrite
      insertedOrders := [(⟨r.wId,r.dId,oId⟩,r.orderRow)]
      insertedNeworders := [(⟨r.wId,r.dId,oId⟩,())]
      insertedOrderlines := lines })

end

section

structure Payment where
  wId : Nat
  dId : Nat
  cWId : Nat
  cDId : Nat
  /-- A last name, or an id. -/
  customer : VarString 16 ⊕ Nat
  hAmount : BitVec 64
  hDate : BitVec 32

/-- The customer in the middle of the first hundred with the last name. -/
def Payment.customerId (p : Payment) (db : Db) : Option Nat :=
  match p.customer with
  | .inl lastName => (db.customerIndex (p.cWId,p.cDId,lastName)).bind (fun ids => (ids.take 100)[(ids.take 100).length/2]?)
  | .inr cId => if cId = 0 then none else some cId

def Payment.info (p : Payment) (cId : Nat) : CDataInfo :=
  ⟨BitVec.ofNat 64 cId,BitVec.ofNat 64 p.cDId,BitVec.ofNat 64 p.cWId,BitVec.ofNat 64 p.dId,BitVec.ofNat 64 p.wId,p.hAmount⟩

def historyData (wName dName : VarString 10) : VarString 24 :=
  ⟨wName.1 ++ List.replicate 4 32#8 ++ dName.1,by
    have hw := wName.2
    have hd := dName.2
    rw [List.length_append,List.length_append,List.length_replicate]
    omega⟩

def Payment.reads (p : Payment) (db : Db) : Option (VarString 10 × VarString 10 × Nat) := do
  let wv ← db.warehouses p.wId
  let dv ← db.districts (p.wId,p.dId)
  let cId ← p.customerId db
  let _ ← db.customers (p.cWId,p.cDId,cId)
  some (wv WarehouseColumn.wName,dv DistrictColumn.dName,cId)

def Payment.writeSet (p : Payment) (hId : Nat) (wName dName : VarString 10) (cId : Nat) : Writes :=
  { Writes.none with
    warehouses := update (fun _ => none) p.wId (some (.change (payWarehouse p.hAmount)))
    districts := update (fun _ => none) (p.wId,p.dId) (some (.change (payDistrict p.hAmount)))
    customers := update (fun _ => none) (p.cWId,p.cDId,cId)
      (some (.change (payCustomer p.hAmount (p.info cId))))
    insertedHistory := some ((p.cWId,p.wId,p.dId,cId,hId),
      ⟨BitVec.ofNat 64 cId,BitVec.ofNat 64 p.cDId,BitVec.ofNat 64 p.cWId,BitVec.ofNat 64 p.dId,BitVec.ofNat 64 p.wId,
        p.hDate,p.hAmount,historyData wName dName⟩) }

def Payment.writes (p : Payment) (hId : Nat) (db : Db) : Option Writes :=
  (p.reads db).map (fun x => p.writeSet hId x.1 x.2.1 x.2.2)

end

section Delivery

structure Delivery where
  wId : Nat
  carrierId : BitVec 64
  deliveryDate : BitVec 32

/-- What `order_id` is after the scan of a district: it keeps its value when nothing
is found. -/
def scannedId (db : Db) (wId dId lastDelivered orderId : Nat) : Nat :=
  match (db.neworders.scan ⟨wId,dId,lastDelivered⟩ ⟨wId,dId,2^64-1⟩).head? with
  | some k => k.oId
  | none => orderId

/-- An attempt as far as it is: `order_id`, the array `delivered_order_ids` and the
orders that are delivered. -/
structure Walk where
  orderId : Nat
  deliveredOrderIds : Nat → Nat
  delivered : List OrderKey

inductive Attempt
  | going (w : Walk)
  | aborted (orderId : Nat)

def Walk.turn (db : Db) (wId : Nat) (lastDelivered : Nat → Nat) (w : Walk) (dId : Nat) : Attempt :=
  let orderId := scannedId db wId dId (lastDelivered dId) w.orderId
  let w := { w with orderId := orderId, deliveredOrderIds := update w.deliveredOrderIds dId orderId }
  if orderId = 0 then .going w
  else
    let ok : OrderKey := ⟨wId,dId,orderId⟩
    if (db.orders.get ok).isNone then .going w
    else if (db.neworders.get ok).isNone then .aborted orderId
    else .going { w with delivered := w.delivered ++ [ok] }

def Attempt.turn (db : Db) (wId : Nat) (lastDelivered : Nat → Nat) (a : Attempt) (dId : Nat) : Attempt :=
  match a with
  | .going w => w.turn db wId lastDelivered dId
  | .aborted orderId => .aborted orderId

def districts : List Nat := List.range' 1 10

def attempt (db : Db) (wId : Nat) (lastDelivered : Nat → Nat) (orderId : Nat) : Attempt :=
  districts.foldl (fun a dId => a.turn db wId lastDelivered dId) (.going ⟨orderId,lastDelivered,[]⟩)

/-- The attempts until one gets through; `order_id` is the same variable in all. -/
def attempts (db : Db) (wId : Nat) (lastDelivered : Nat → Nat) : Nat → Nat → Option Walk
  | 0,_ => none
  | fuel+1,orderId =>
    match attempt db wId lastDelivered orderId with
    | .going w => some w
    | .aborted orderId => attempts db wId lastDelivered fuel orderId

structure Delivered where
  order : OrderKey
  lines : List OrderlineKey
  customer : Nat × Nat × Nat
  olAmountSum : BitVec 32

def amountSum (db : Db) (lines : List OrderlineKey) : Option (BitVec 32) :=
  lines.foldlM (fun sum k => (db.orderlines.get k).map (fun (ol : orderlineValue.Row) =>
    let amount : BitVec 32 := ol OrderlineColumn.olAmount
    sum+amount)) 0

def orderlineKeys (ok : OrderKey) (ov : orderValue.Row) : List OrderlineKey :=
  let olCnt : BitVec 32 := ov OrderColumn.oOlCnt
  (List.range' 1 olCnt.toNat).map (fun olNum => ⟨ok.wId,ok.dId,ok.oId,olNum⟩)

def deliveredOrder (db : Db) (ok : OrderKey) : Option Delivered := do
  let ov ← db.orders.get ok
  let cId : BitVec 64 := ov OrderColumn.oCId
  let lines := orderlineKeys ok ov
  let sum ← amountSum db lines
  let _ ← db.customers (ok.wId,ok.dId,cId.toNat)
  some ⟨ok,lines,(ok.wId,ok.dId,cId.toNat),sum⟩

def Delivery.writes (r : Delivery) (orders : List Delivered) : Writes :=
  { Writes.none with
    orders := fun k => if k ∈ orders.map (·.order) then some (.change (deliverOrder r.carrierId)) else none
    orderlines := fun k =>
      if k ∈ orders.flatMap (·.lines) then some (.change (deliverOrderline r.deliveryDate)) else none
    customers := fun k => (orders.find? (fun x => decide (x.customer = k))).map (fun x =>
      .change (deliverCustomer (x.olAmountSum.signExtend 64)))
    deletedNeworders := orders.map (·.order) }

theorem map_eq_of_mapM {α β : Type} {f : α → Option β} {l : List α} {r : List β} (h : l.mapM f = some r) : l.map f = r.map some := by
  induction l generalizing r with
  | nil =>
    obtain rfl : [] = r := some.inj h
    rfl
  | cons a l ih =>
    rw [List.mapM_cons] at h
    obtain ⟨x,hx,h⟩ := bind_eq_some_iff.mp h
    obtain ⟨r',hr,h⟩ := bind_eq_some_iff.mp h
    obtain rfl : x :: r' = r := some.inj h
    rw [List.map_cons,List.map_cons,hx,ih hr]

theorem deliveredOrder_eq_some {db ok x} (h : deliveredOrder db ok = some x) :
    ∃ ov, db.orders.get ok = some ov ∧ x.order = ok ∧ x.lines = orderlineKeys ok ov := by
  obtain ⟨ov,hov,h⟩ := bind_eq_some_iff.mp h
  obtain ⟨sum,-,h⟩ := bind_eq_some_iff.mp h
  obtain ⟨cv,-,h⟩ := bind_eq_some_iff.mp h
  obtain rfl := some.inj h
  exact ⟨ov,hov,rfl,rfl⟩

theorem map_order_of_mapM {db : Db} {oks : List OrderKey} {orders : List Delivered}
    (h : oks.mapM (deliveredOrder db) = some orders) : orders.map (·.order) = oks := by
  have hmap := map_eq_of_mapM h
  clear h
  induction oks generalizing orders with
  | nil => rw [List.map_eq_nil_iff.mp hmap.symm,List.map_nil]
  | cons ok oks ih =>
    cases orders with
    | nil => cases hmap
    | cons x orders =>
      obtain ⟨hx,hrest⟩ := List.cons.inj hmap
      obtain ⟨-,-,horder,-⟩ := deliveredOrder_eq_some hx
      rw [List.map_cons,horder,ih hrest]

end Delivery

end AlNiCo.Tpcc
