import AlNiCo.Tpcc.Database

/-! The build with commutators against the build with full new rows: what the two leave
in the database after the same transaction. -/
namespace AlNiCo.Tpcc
open Sto Library Function List Option

inductive Txn
  | newOrder (r : NewOrder)
  | payment (p : Payment)
  | delivery (r : Delivery) (lastDelivered : Nat → Nat) (orderId : Nat)

namespace Txn

/-- The database when the write set is complete, and the write set. -/
def prepare (fuel : Nat) (db : Db) : Txn → Option (Db × Writes)
  | newOrder r =>
    let (oId,db) := db.next r.wId r.dId
    (r.writes oId db).map (fun ws => (db,ws))
  | payment p =>
    let (hId,db) := db.genKey p.cWId
    (p.writes hId db).map (fun ws => (db,ws))
  | delivery r lastDelivered orderId =>
    ((attempts db r.wId lastDelivered fuel orderId).bind (fun w => w.delivered.mapM (deliveredOrder db))).map
      (fun orders => (db,r.writes orders))

def outcome (b : Build) (commute : Bool) (fuel : Nat) (db : Db) (txn : Txn) : Option Db :=
  (txn.prepare fuel db).map (fun x => x.1.commit b commute x.2)

/-- A delivery finds the carrier and the date that it writes. -/
def Settled (fuel : Nat) (db : Db) : Txn → Prop
  | newOrder _ => True
  | payment _ => False
  | delivery r lastDelivered orderId =>
    ∀ w, attempts db r.wId lastDelivered fuel orderId = some w → ∀ ok ∈ w.delivered, ∀ ov, db.orders.get ok = some ov →
      ov OrderColumn.oCarrierId = r.carrierId ∧
        ∀ k ∈ orderlineKeys ok ov, ∀ ol, db.orderlines.get k = some ol → ol OrderlineColumn.olDeliveryD = r.deliveryDate

end Txn

open RowWrite

section
variable {t : SplitTable} {b : Build} {old : t.value.Row}

def Once (b : Build) (ch : Change t) (old : t.value.Row) : Prop := ch.run b old true = some (ch.operate (ch.comm old) old)

theorem once_of_single {ch j} (h : writtenCells (b.sel t) (ch.accesses true) = [j]) (old : t.value.Row) : Once b ch old := by
  rw [Once,ch.run_commute,h,length_singleton,iterate_one]

/-- The two builds store the same row, and change it once. -/
def RowWrite.Commutes (b : Build) : RowWrite t → t.value.Row → Prop
  | change ch,old => Agree b ch old ∧ Once b ch old
  | put _ _,_ => True

def RowWrite.Agrees (b : Build) (w : RowWrite t) (old : t.value.Row) : Prop := w.store b true old = w.store b false old

def RowWrite.OnceOnly (b : Build) : RowWrite t → t.value.Row → Prop
  | change ch,old => Once b ch old
  | put _ _,_ => True

theorem RowWrite.commutes_iff {w : RowWrite t} : w.Commutes b old ↔ w.Agrees b old ∧ w.OnceOnly b old := by
  cases w with
  | change ch => exact Iff.rfl
  | put accesses newRow => exact iff_of_true trivial ⟨rfl,trivial⟩

theorem commutes_iff_agree {ch j} (h : writtenCells (b.sel t) (ch.accesses true) = [j]) : (change ch).Commutes b old ↔ Agree b ch old :=
  and_iff_left (once_of_single h old)

variable {K : Type}

def EachRow (P : RowWrite t → t.value.Row → Prop) (writes : K → Option (RowWrite t)) (table : K → Option t.value.Row) : Prop :=
  ∀ k w old, writes k = some w → table k = some old → P w old

theorem storeRows_eq_iff {writes : K → Option (RowWrite t)} {table : K → Option t.value.Row} :
    storeRows b true writes table = storeRows b false writes table ↔ EachRow (RowWrite.Agrees b) writes table := by
  rw [funext_iff]
  refine forall_congr' (fun k => ?_)
  rw [storeRows,storeRows]
  constructor
  · intro h w old hw hold
    simpa only [hold,bind_some,storeRow,hw,RowWrite.Agrees] using h
  · intro h
    cases hold : table k with
    | none => rfl
    | some old =>
      simp only [bind_some,storeRow]
      cases hw : writes k with
      | none => rfl
      | some w => exact h w old hw hold

theorem mapRows_eq_iff [LinearOrder K] {writes : K → Option (RowWrite t)} {table : OrderedIndex K t.value.Row} :
    table.mapRows (storeRow b true writes) = table.mapRows (storeRow b false writes) ↔ EachRow (RowWrite.Agrees b) writes table.get := by
  rw [← storeRows_eq_iff]
  exact ⟨fun h => congrArg OrderedIndex.get h,fun h => OrderedIndex.ext_get h⟩

end

section

inductive Rewrites (ws : Writes) (db : Db) : {t : SplitTable} → RowWrite t → t.value.Row → Prop
  | warehouse {k w old} (hw : ws.warehouses k = some w) (hold : db.warehouses k = some old) : Rewrites ws db w old
  | district {k w old} (hw : ws.districts k = some w) (hold : db.districts k = some old) : Rewrites ws db w old
  | customer {k w old} (hw : ws.customers k = some w) (hold : db.customers k = some old) : Rewrites ws db w old
  | stock {k w old} (hw : ws.stocks k = some w) (hold : db.stocks k = some old) : Rewrites ws db w old
  | order {k w old} (hw : ws.orders k = some w) (hold : db.orders.get k = some old) : Rewrites ws db w old
  | orderline {k w old} (hw : ws.orderlines k = some w) (hold : db.orderlines.get k = some old) : Rewrites ws db w old

variable {b : Build} {db : Db} {ws : Writes}

theorem commit_eq (h : ∀ t (w : RowWrite t) old, Rewrites ws db w old → w.Agrees b old) : db.commit b true ws = db.commit b false ws := by
  rw [Db.commit,Db.commit,storeRows_eq_iff.mpr (fun _ w old hw hold => h _ w old (.warehouse hw hold)),
    storeRows_eq_iff.mpr (fun _ w old hw hold => h _ w old (.district hw hold)),
    storeRows_eq_iff.mpr (fun _ w old hw hold => h _ w old (.customer hw hold)),
    storeRows_eq_iff.mpr (fun _ w old hw hold => h _ w old (.stock hw hold)),
    mapRows_eq_iff.mpr (fun _ w old hw hold => h _ w old (.order hw hold)),
    mapRows_eq_iff.mpr (fun _ w old hw hold => h _ w old (.orderline hw hold))]

/-- No inserted row hides one that was changed. -/
theorem agrees_of_commit_eq (horders : ws.insertedOrders = []) (hlines : ws.insertedOrderlines = [])
    (h : db.commit b true ws = db.commit b false ws) {t : SplitTable} {w : RowWrite t} {old : t.value.Row}
    (hrow : Rewrites ws db w old) : w.Agrees b old := by
  have ho := congrArg Db.orders h
  have hl := congrArg Db.orderlines h
  simp only [Db.commit,horders,hlines,OrderedIndex.insertAll_nil] at ho hl
  cases hrow with
  | warehouse hw hold => exact storeRows_eq_iff.mp (congrArg Db.warehouses h) _ _ _ hw hold
  | district hw hold => exact storeRows_eq_iff.mp (congrArg Db.districts h) _ _ _ hw hold
  | customer hw hold => exact storeRows_eq_iff.mp (congrArg Db.customers h) _ _ _ hw hold
  | stock hw hold => exact storeRows_eq_iff.mp (congrArg Db.stocks h) _ _ _ hw hold
  | order hw hold => exact mapRows_eq_iff.mp ho _ _ _ hw hold
  | orderline hw hold => exact mapRows_eq_iff.mp hl _ _ _ hw hold

end

section
variable (b : Build)

theorem commutes_payWarehouse (hAmount : BitVec 64) (old : warehouseValue.Row) : (change (payWarehouse hAmount)).Commutes b old := by
  have h : writtenCells (b.sel .warehouse) ((payWarehouse hAmount).accesses true) = [0] := written_payWarehouse b true
  exact (commutes_iff_agree h).mpr (agree_payWarehouse b hAmount old)

theorem commutes_payDistrict (hAmount : BitVec 64) (old : districtValue.Row) : (change (payDistrict hAmount)).Commutes b old := by
  have h : writtenCells (b.sel .district) ((payDistrict hAmount).accesses true) = [0] := written_payDistrict b true
  exact (commutes_iff_agree h).mpr (agree_payDistrict b hAmount old)

theorem commutes_payCustomer_iff (hAmount : BitVec 64) (info : CDataInfo) (old : customerValue.Row) :
    (change (payCustomer hAmount info)).Commutes b old ↔ b = .wholeRow := by
  constructor
  · rintro ⟨hagree,-⟩
    exact (agree_payCustomer_iff b hAmount info old).mp hagree
  · rintro rfl
    have h : writtenCells (Build.wholeRow.sel .customer) ((payCustomer hAmount info).accesses true) = [0] :=
      written_payCustomer .wholeRow true
    exact (commutes_iff_agree h).mpr ((agree_payCustomer_iff .wholeRow hAmount info old).mpr rfl)

theorem commutes_orderStock (qty : BitVec 64) (remote : Bool) (old : stockValue.Row) :
    (change (orderStock qty remote)).Commutes b old := by
  have h : writtenCells (b.sel .stock) ((orderStock qty remote).accesses true) = [0] := written_orderStock b true
  exact (commutes_iff_agree h).mpr (agree_orderStock b qty remote old)

theorem commutes_deliverCustomer (olAmountSum : BitVec 64) (old : customerValue.Row) :
    (change (deliverCustomer olAmountSum)).Commutes b old := by
  have h : writtenCells (b.sel .customer) ((deliverCustomer olAmountSum).accesses true) = [0] :=
    written_deliverCustomer b true
  exact (commutes_iff_agree h).mpr (agree_deliverCustomer b olAmountSum old)

theorem commutes_deliverOrder_iff (carrierId : BitVec 64) (old : orderValue.Row) :
    (change (deliverOrder carrierId)).Commutes b old ↔ b = .wholeRow ∨ old OrderColumn.oCarrierId = carrierId := by
  have h : ∃ j, writtenCells (b.sel .order) ((deliverOrder carrierId).accesses true) = [j] := by
    cases b with
    | fineGrained => exact ⟨1,written_deliverOrder .fineGrained true⟩
    | wholeRow => exact ⟨0,written_deliverOrder .wholeRow true⟩
  obtain ⟨j,h⟩ := h
  exact (commutes_iff_agree h).trans (agree_deliverOrder_iff b carrierId old)

theorem commutes_deliverOrderline_iff (deliveryDate : BitVec 32) (old : orderlineValue.Row) :
    (change (deliverOrderline deliveryDate)).Commutes b old ↔ b = .wholeRow ∨ old OrderlineColumn.olDeliveryD = deliveryDate := by
  have h : ∃ j, writtenCells (b.sel .orderline) ((deliverOrderline deliveryDate).accesses true) = [j] := by
    cases b with
    | fineGrained => exact ⟨1,written_deliverOrderline .fineGrained true⟩
    | wholeRow => exact ⟨0,written_deliverOrderline .wholeRow true⟩
  obtain ⟨j,h⟩ := h
  exact (commutes_iff_agree h).trans (agree_deliverOrderline_iff b deliveryDate old)

end

section Transactions
variable {b : Build} {fuel : Nat} {db db' : Db} {ws : Writes}

/-- The write set is of this transaction, and each of its rows commutes. -/
def AllCommute (b : Build) (ws : Writes) (db : Db) : Prop :=
  ∀ t (w : RowWrite t) old, Rewrites ws db w old → w.Commutes b old

private theorem eq_of_update_none {K : Type} {α : Type 1} [DecidableEq K] {key k : K} {x y : α}
    (h : update (fun _ => none) key (some x) k = some y) : k = key ∧ x = y := by
  by_cases hk : k = key
  · subst hk
    rw [update_self] at h
    exact ⟨rfl,some.inj h⟩
  · rw [update_of_ne hk] at h
    cases h

theorem allCommute_newOrder {r : NewOrder} {oId : Nat} (h : r.writes oId db = some ws) : AllCommute b ws db' := by
  obtain ⟨lines,-,rfl⟩ := map_eq_some_iff.mp h
  intro t w old hrow
  cases hrow with
  | district hw hold =>
    obtain ⟨-,rfl⟩ := eq_of_update_none hw
    trivial
  | stock hw hold =>
    obtain ⟨i,-,rfl⟩ := map_eq_some_iff.mp hw
    exact commutes_orderStock b _ _ _
  | warehouse hw | customer hw | order hw | orderline hw => cases hw

/-- A payment always has a customer to write. -/
theorem allCommute_payment_iff {p : Payment} {hId : Nat} (h : p.writes hId db = some ws) (hdb : db'.customers = db.customers) :
    AllCommute b ws db' ↔ b = .wholeRow := by
  obtain ⟨⟨wName,dName,cId⟩,hreads,rfl⟩ := map_eq_some_iff.mp h
  obtain ⟨wv,-,hreads⟩ := bind_eq_some_iff.mp hreads
  obtain ⟨dv,-,hreads⟩ := bind_eq_some_iff.mp hreads
  obtain ⟨cId',-,hreads⟩ := bind_eq_some_iff.mp hreads
  obtain ⟨cv,hcv,hreads⟩ := bind_eq_some_iff.mp hreads
  obtain rfl : cId' = cId := congrArg (fun x => x.2.2) (some.inj hreads)
  constructor
  · intro hall
    have hw : (p.writeSet hId wName dName cId').customers (p.cWId,p.cDId,cId') = some (.change (payCustomer p.hAmount (p.info cId'))) := by
      simp only [Payment.writeSet,update_self]
    have hrow := hall .customer _ cv (.customer hw (hdb ▸ hcv))
    exact (commutes_payCustomer_iff b _ _ _).mp hrow
  · rintro rfl t w old hrow
    cases hrow with
    | warehouse hw hold =>
      obtain ⟨-,rfl⟩ := eq_of_update_none hw
      exact commutes_payWarehouse _ _ _
    | district hw hold =>
      obtain ⟨-,rfl⟩ := eq_of_update_none hw
      exact commutes_payDistrict _ _ _
    | customer hw hold =>
      obtain ⟨-,rfl⟩ := eq_of_update_none hw
      exact (commutes_payCustomer_iff _ _ _ _).mpr rfl
    | stock hw | order hw | orderline hw => cases hw

/-- The keys of the orders that are written, and of their lines. -/
private theorem delivered_keys {oks : List OrderKey} {orders : List Delivered} (h : oks.mapM (deliveredOrder db) = some orders) :
    (∀ ok, ok ∈ orders.map (·.order) ↔ ok ∈ oks) ∧
      ∀ k, k ∈ orders.flatMap (·.lines) ↔ ∃ ok ∈ oks, ∃ ov, db.orders.get ok = some ov ∧ k ∈ orderlineKeys ok ov := by
  have hmap := map_eq_of_mapM h
  have hfrom (x : Delivered) (hx : x ∈ orders) : ∃ ok ∈ oks, deliveredOrder db ok = some x := by
    have hmem : some x ∈ oks.map (deliveredOrder db) := hmap ▸ mem_map_of_mem hx
    exact mem_map.mp hmem
  have hto (ok : OrderKey) (hok : ok ∈ oks) : ∃ x ∈ orders, deliveredOrder db ok = some x := by
    have hmem : deliveredOrder db ok ∈ orders.map some := hmap ▸ mem_map_of_mem hok
    obtain ⟨x,hx,heq⟩ := mem_map.mp hmem
    exact ⟨x,hx,heq.symm⟩
  refine ⟨fun ok => ⟨fun hok => ?_,fun hok => ?_⟩,fun k => ⟨fun hk => ?_,?_⟩⟩
  · obtain ⟨x,hx,rfl⟩ := mem_map.mp hok
    obtain ⟨ok,hok,heq⟩ := hfrom x hx
    obtain ⟨-,-,horder,-⟩ := deliveredOrder_eq_some heq
    exact horder ▸ hok
  · obtain ⟨x,hx,heq⟩ := hto ok hok
    obtain ⟨-,-,horder,-⟩ := deliveredOrder_eq_some heq
    exact mem_map.mpr ⟨x,hx,horder⟩
  · obtain ⟨x,hx,hk⟩ := mem_flatMap.mp hk
    obtain ⟨ok,hok,heq⟩ := hfrom x hx
    obtain ⟨ov,hov,-,hlines⟩ := deliveredOrder_eq_some heq
    exact ⟨ok,hok,ov,hov,hlines ▸ hk⟩
  · rintro ⟨ok,hok,ov,hov,hk⟩
    obtain ⟨x,hx,heq⟩ := hto ok hok
    obtain ⟨ov',hov',-,hlines⟩ := deliveredOrder_eq_some heq
    obtain rfl : ov = ov' := some.inj (hov.symm.trans hov')
    exact mem_flatMap.mpr ⟨x,hx,hlines ▸ hk⟩

theorem allCommute_delivery_iff {r : Delivery} {oks : List OrderKey} {orders : List Delivered}
    (h : oks.mapM (deliveredOrder db) = some orders) :
    AllCommute b (r.writes orders) db ↔ b = .wholeRow ∨ ∀ ok ∈ oks, ∀ ov, db.orders.get ok = some ov →
      ov OrderColumn.oCarrierId = r.carrierId ∧
        ∀ k ∈ orderlineKeys ok ov, ∀ ol, db.orderlines.get k = some ol → ol OrderlineColumn.olDeliveryD = r.deliveryDate := by
  obtain ⟨horders,hlines⟩ := delivered_keys h
  constructor
  · intro hall
    by_cases hb : b = .wholeRow
    · exact Or.inl hb
    · refine Or.inr (fun ok hok ov hov => ⟨?_,fun k hk ol hol => ?_⟩)
      · have hrow := hall .order _ ov (.order (if_pos ((horders ok).mpr hok)) hov)
        exact ((commutes_deliverOrder_iff b _ _).mp hrow).resolve_left hb
      · have hrow := hall .orderline _ ol (.orderline (if_pos ((hlines k).mpr ⟨ok,hok,ov,hov,hk⟩)) hol)
        exact ((commutes_deliverOrderline_iff b _ _).mp hrow).resolve_left hb
  · intro hcond t w old hrow
    cases hrow with
    | @order k w old hw hold =>
      obtain ⟨hmem,rfl⟩ := ite_some_none_eq_some.mp hw
      refine (commutes_deliverOrder_iff b _ _).mpr (hcond.imp id (fun hset => ?_))
      exact (hset k ((horders k).mp hmem) old hold).1
    | @orderline k w old hw hold =>
      obtain ⟨hmem,rfl⟩ := ite_some_none_eq_some.mp hw
      refine (commutes_deliverOrderline_iff b _ _).mpr (hcond.imp id (fun hset => ?_))
      obtain ⟨ok,hok,ov,hov,hk⟩ := (hlines k).mp hmem
      exact (hset ok hok ov hov).2 k hk old hold
    | customer hw hold =>
      obtain ⟨x,-,rfl⟩ := map_eq_some_iff.mp hw
      exact commutes_deliverCustomer b _ _
    | warehouse hw | district hw | stock hw => cases hw

/-- The builds store the same rows, and each commutator changes its row once. -/
def Txn.Equivalent (b : Build) (fuel : Nat) (db : Db) (txn : Txn) : Prop :=
  txn.outcome b true fuel db = txn.outcome b false fuel db ∧
    ∀ db' ws, txn.prepare fuel db = some (db',ws) → ∀ t (w : RowWrite t) old, Rewrites ws db' w old → w.OnceOnly b old

private theorem equivalent_of_allCommute {txn : Txn} (h : txn.prepare fuel db = some (db',ws)) (hall : AllCommute b ws db') :
    txn.Equivalent b fuel db := by
  constructor
  · rw [Txn.outcome,Txn.outcome,h,map_some,map_some,commit_eq (fun t w old hrow => (commutes_iff.mp (hall t w old hrow)).1)]
  · rintro db'' ws' heq t w old hrow
    obtain ⟨rfl,rfl⟩ := Prod.mk.inj (some.inj (h.symm.trans heq))
    exact (commutes_iff.mp (hall t w old hrow)).2

/-- The rows decide, as no inserted row takes the place of one that was changed. -/
private theorem equivalent_iff {txn : Txn} (h : txn.prepare fuel db = some (db',ws)) (horders : ws.insertedOrders = [])
    (hlines : ws.insertedOrderlines = []) : txn.Equivalent b fuel db ↔ AllCommute b ws db' := by
  refine ⟨?_,equivalent_of_allCommute h⟩
  rintro ⟨heq,honce⟩ t w old hrow
  rw [Txn.outcome,Txn.outcome,h,map_some,map_some,some.injEq] at heq
  exact commutes_iff.mpr ⟨agrees_of_commit_eq horders hlines heq hrow,honce _ _ h t w old hrow⟩

/-- The two builds agree on the stock of a new-order, and on everything when rows are
not split. Split rows keep them apart in every payment, and in a delivery that changes
a carrier or a delivery date. -/
theorem commuted_rows_agree_iff (b : Build) (fuel : Nat) (db : Db) (txn : Txn)
    (hcommits : (txn.outcome b false fuel db).isSome) :
    txn.Equivalent b fuel db ↔ b = .wholeRow ∨ txn.Settled fuel db := by
  rw [Txn.outcome,Option.isSome_map] at hcommits
  obtain ⟨⟨db',ws⟩,hprepare⟩ := Option.isSome_iff_exists.mp hcommits
  cases txn with
  | newOrder r =>
    obtain ⟨ws',hws,heq⟩ := Option.map_eq_some_iff.mp hprepare
    obtain ⟨rfl,rfl⟩ := Prod.mk.inj heq
    exact iff_of_true (equivalent_of_allCommute hprepare (allCommute_newOrder hws)) (Or.inr trivial)
  | payment p =>
    obtain ⟨ws',hws,heq⟩ := Option.map_eq_some_iff.mp hprepare
    obtain ⟨rfl,rfl⟩ := Prod.mk.inj heq
    have hset : ws'.insertedOrders = [] ∧ ws'.insertedOrderlines = [] := by
      obtain ⟨x,-,rfl⟩ := Option.map_eq_some_iff.mp hws
      exact ⟨rfl,rfl⟩
    rw [equivalent_iff hprepare hset.1 hset.2,allCommute_payment_iff hws rfl]
    exact (or_iff_left id).symm
  | delivery r lastDelivered orderId =>
    obtain ⟨orders,horders,heq⟩ := Option.map_eq_some_iff.mp hprepare
    obtain ⟨rfl,rfl⟩ := Prod.mk.inj heq
    obtain ⟨w,hw,horders⟩ := Option.bind_eq_some_iff.mp horders
    rw [equivalent_iff hprepare rfl rfl,allCommute_delivery_iff horders,Txn.Settled]
    refine or_congr_right ⟨fun h w' hw' => ?_,fun h => h w hw⟩
    obtain rfl : w = w' := Option.some.inj (hw.symm.trans hw')
    exact h

end Transactions

section

def someCustomer : customerValue.Row
  | .cFirst | .cLast | .cStreet1 | .cStreet2 | .cCity => ⟨[],Nat.zero_le _⟩
  | .cMiddle | .cState | .cZip | .cPhone | .cData => Vector.replicate _ 0
  | .cCredit => #v[0x47#8,0x43#8]
  | .cSince | .cCreditLim | .cDiscount | .cBalance | .cYtdPayment | .cDeliveryCnt => 0
  | .cPaymentCnt => 1

def someWarehouse : warehouseValue.Row
  | .wName | .wStreet1 | .wStreet2 | .wCity => ⟨[],Nat.zero_le _⟩
  | .wState | .wZip => Vector.replicate _ 0
  | .wTax | .wYtd => 0

def someDistrict : districtValue.Row
  | .dName | .dStreet1 | .dStreet2 | .dCity => ⟨[],Nat.zero_le _⟩
  | .dState | .dZip => Vector.replicate _ 0
  | .dTax | .dYtd => 0
  | .dNextOId => 3001

def someDb : Db where
  warehouses := update (fun _ => none) 1 (some someWarehouse)
  districts := update (fun _ => none) (1,1) (some someDistrict)
  customers := update (fun _ => none) (1,1,1) (some someCustomer)
  customerIndex _ := none
  items _ := none
  stocks _ := none
  orders := .empty
  neworders := .empty
  orderlines := .empty
  histories _ := none
  oidGens _ := 3001
  keyGens _ := 0

def somePayment : Payment := ⟨1,1,1,1,.inr 1,100,0⟩

theorem commuted_payment_agrees_in_whole_rows :
    (Txn.payment somePayment).Equivalent .wholeRow 0 someDb :=
  (commuted_rows_agree_iff .wholeRow 0 someDb (.payment somePayment) (by decide)).mpr (Or.inl rfl)

/-- With split rows the payment of a customer is counted twice. -/
theorem commuted_payment_counted_twice :
    ((Txn.payment somePayment).outcome .fineGrained true 0 someDb).bind (fun db =>
      (db.customers (1,1,1)).map (fun c => c CustomerColumn.cPaymentCnt)) = some 3#16 ∧
    ((Txn.payment somePayment).outcome .fineGrained false 0 someDb).bind (fun db =>
      (db.customers (1,1,1)).map (fun c => c CustomerColumn.cPaymentCnt)) = some 2#16 := by
  decide +kernel

end

end AlNiCo.Tpcc
