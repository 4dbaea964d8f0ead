import AlNiCo.Sto.Commutators

/-! The rows that payment, new-order and delivery change, with the accesses they
declare for them. -/
namespace AlNiCo.Tpcc
open Sto Library.SplitRow Function

def writeOrUpdate (commute : Bool) : Access := if commute then .write else .update

section

def payWarehouseAccesses (commute : Bool) : List (WarehouseColumn × Access) :=
  [(.wName,.read),(.wStreet1,.read),(.wStreet2,.read),
    (.wCity,.read),(.wState,.read),(.wZip,.read),
    (.wYtd,writeOrUpdate commute)]

def payWarehouse (hAmount : BitVec 64) : Change .warehouse where
  Comm := WarehouseComm
  operate := WarehouseComm.operate
  accesses := payWarehouseAccesses
  comm _ := ⟨hAmount⟩
  newRow value :=
    let ytd : BitVec 64 := value WarehouseColumn.wYtd
    update value WarehouseColumn.wYtd (ytd+hAmount)

def payDistrictAccesses (commute : Bool) : List (DistrictColumn × Access) :=
  [(.dName,.read),(.dStreet1,.read),(.dStreet2,.read),
    (.dCity,.read),(.dState,.read),(.dZip,.read),
    (.dYtd,writeOrUpdate commute)]

def payDistrict (hAmount : BitVec 64) : Change .district where
  Comm := DistrictComm
  operate := DistrictComm.operate
  accesses := payDistrictAccesses
  comm _ := ⟨hAmount⟩
  newRow value :=
    let ytd : BitVec 64 := value DistrictColumn.dYtd
    update value DistrictColumn.dYtd (ytd+hAmount)

def badCredit (credit : FixString 2) : Bool := credit.toList == [0x42#8,0x43#8]

/-- The column `c_credit` is read, and declared as written too. -/
def payCustomerAccesses (commute : Bool) : List (CustomerColumn × Access) :=
  [(.cSince,.read),(.cCredit,.read),(.cDiscount,.read),
    (.cBalance,.update),(.cPaymentCnt,writeOrUpdate commute),
    (.cYtdPayment,writeOrUpdate commute),(.cCredit,writeOrUpdate commute)]

def payCustomer (hAmount : BitVec 64) (info : CDataInfo) : Change .customer where
  Comm := CustomerComm
  operate := CustomerComm.operate
  accesses := payCustomerAccesses
  comm value := .payment (-hAmount) hAmount (if badCredit (value CustomerColumn.cCredit) then some info else none)
  newRow value :=
    let balance : BitVec 64 := value CustomerColumn.cBalance
    let cnt : BitVec 16 := value CustomerColumn.cPaymentCnt
    let ytd : BitVec 64 := value CustomerColumn.cYtdPayment
    let c := update value CustomerColumn.cBalance (balance-hAmount)
    let c := update c CustomerColumn.cPaymentCnt (cnt+1)
    let c := update c CustomerColumn.cYtdPayment (ytd+hAmount)
    if badCredit (value CustomerColumn.cCredit) then
      update c CustomerColumn.cData (insertLeft (c CustomerColumn.cData) info.buf)
    else c

end

section

def orderStockAccesses (commute : Bool) : List (StockColumn × Access) :=
  [(.sQuantity,writeOrUpdate commute),(.sYtd,writeOrUpdate commute),
    (.sOrderCnt,writeOrUpdate commute),(.sRemoteCnt,writeOrUpdate commute),
    (.sDists,.read),(.sData,.read)]

def orderStock (qty : BitVec 64) (remote : Bool) : Change .stock where
  Comm := StockComm
  operate := StockComm.operate
  accesses := orderStockAccesses
  comm _ := ⟨qty.setWidth 32,remote⟩
  newRow value :=
    let quantity : BitVec 32 := value StockColumn.sQuantity
    let ytd : BitVec 32 := value StockColumn.sYtd
    let orderCnt : BitVec 32 := value StockColumn.sOrderCnt
    let remoteCnt : BitVec 32 := value StockColumn.sRemoteCnt
    let sv := update value StockColumn.sQuantity (takeStock quantity (qty.setWidth 32))
    let sv := update sv StockColumn.sYtd (ytd+qty.setWidth 32)
    let sv := update sv StockColumn.sOrderCnt (orderCnt+1)
    if remote then update sv StockColumn.sRemoteCnt (remoteCnt+1) else sv

end

section

def deliverOrderAccesses (commute : Bool) : List (OrderColumn × Access) :=
  [(.oCId,.read),(.oOlCnt,.read),(.oCarrierId,writeOrUpdate commute)]

def deliverOrder (carrierId : BitVec 64) : Change .order where
  Comm := OrderComm
  operate := OrderComm.operate
  accesses := deliverOrderAccesses
  comm _ := ⟨carrierId⟩
  newRow value := update value OrderColumn.oCarrierId carrierId

def deliverOrderlineAccesses (commute : Bool) : List (OrderlineColumn × Access) :=
  [(.olAmount,.read),(.olDeliveryD,writeOrUpdate commute)]

def deliverOrderline (deliveryDate : BitVec 32) : Change .orderline where
  Comm := OrderlineComm
  operate := OrderlineComm.operate
  accesses := deliverOrderlineAccesses
  comm _ := ⟨deliveryDate⟩
  newRow value := update value OrderlineColumn.olDeliveryD deliveryDate

def deliverCustomerAccesses (commute : Bool) : List (CustomerColumn × Access) :=
  [(.cBalance,writeOrUpdate commute),(.cDeliveryCnt,writeOrUpdate commute)]

def deliverCustomer (olAmountSum : BitVec 64) : Change .customer where
  Comm := CustomerComm
  operate := CustomerComm.operate
  accesses := deliverCustomerAccesses
  comm _ := .delivery olAmountSum
  newRow value :=
    let balance : BitVec 64 := value CustomerColumn.cBalance
    let cnt : BitVec 16 := value CustomerColumn.cDeliveryCnt
    let c := update value CustomerColumn.cBalance (balance+olAmountSum)
    update c CustomerColumn.cDeliveryCnt (cnt+1)

end

open CustomerColumn

section
variable {t : SplitTable} {ch : Change t} {b : Build} {old : t.value.Row}

def Consistent (ch : Change t) : Prop := ∀ old, ch.operate (ch.comm old) old = ch.newRow old

def Agree (b : Build) (ch : Change t) (old : t.value.Row) : Prop := ch.run b old true = ch.run b old false

/-- With one cell written, the commutator is applied once, and the row agrees in the
columns of that cell. -/
theorem agree_iff_of_single (hch : Consistent ch) {j k} (hcomm : writtenCells (b.sel t) (ch.accesses true) = [j])
    (hplain : writtenCells (b.sel t) (ch.accesses false) = [k]) :
    Agree b ch old ↔ ∀ c, c ∉ (b.sel t).copied k → ch.newRow old c = old c := by
  rw [Agree,ch.run_commute,ch.run_plain,hcomm,hplain,List.length_singleton,iterate_one,hch old,Option.some.injEq,funext_iff]
  refine forall_congr' (fun c => ?_)
  rw [overwriteAll_apply]
  by_cases hc : c ∈ (b.sel t).copied k
  · simp [hc]
  · simp [hc]

theorem agree_wholeRow (hch : Consistent ch)
    (hwritten : ∀ commute, writtenCells (Build.wholeRow.sel t) (ch.accesses commute) = [0]) (old : t.value.Row) :
    Agree .wholeRow ch old := by
  rw [agree_iff_of_single hch (hwritten true) (hwritten false)]
  intro c hc
  exact absurd (t.value.complete c) hc

variable (hAmount : BitVec 64)

theorem consistent_payWarehouse : Consistent (payWarehouse hAmount) := fun _ => rfl

theorem consistent_payDistrict : Consistent (payDistrict hAmount) := fun _ => rfl

theorem consistent_payCustomer (info : CDataInfo) : Consistent (payCustomer hAmount info) := by
  intro old
  have hsub (balance : BitVec 64) : balance+-hAmount = balance-hAmount := (BitVec.sub_eq_add_neg _ _).symm
  simp only [payCustomer,CustomerComm.operate]
  rw [hsub]
  cases badCredit (old cCredit) <;> rfl

theorem consistent_orderStock (qty : BitVec 64) (remote : Bool) : Consistent (orderStock qty remote) := fun _ => rfl

theorem consistent_deliverOrder (carrierId : BitVec 64) : Consistent (deliverOrder carrierId) := fun _ => rfl

theorem consistent_deliverOrderline (deliveryDate : BitVec 32) : Consistent (deliverOrderline deliveryDate) := fun _ => rfl

theorem consistent_deliverCustomer (olAmountSum : BitVec 64) : Consistent (deliverCustomer olAmountSum) := fun _ => rfl

end

section

variable (b : Build) (commute : Bool)

theorem written_payWarehouse : writtenCells (b.sel .warehouse) (payWarehouseAccesses commute) = [0] := by
  cases b <;> cases commute <;> decide

theorem written_payDistrict : writtenCells (b.sel .district) (payDistrictAccesses commute) = [0] := by
  cases b <;> cases commute <;> decide

theorem written_orderStock : writtenCells (b.sel .stock) (orderStockAccesses commute) = [0] := by
  cases b <;> cases commute <;> decide

theorem written_deliverCustomer : writtenCells (b.sel .customer) (deliverCustomerAccesses commute) = [0] := by
  cases b <;> cases commute <;> decide

/-- The mask of `order_value` sends the carrier to cell 1. -/
theorem written_deliverOrder :
    writtenCells (b.sel .order) (deliverOrderAccesses commute) = match b with | .fineGrained => [1] | .wholeRow => [0] := by
  cases b <;> cases commute <;> decide

theorem written_deliverOrderline : writtenCells (b.sel .orderline) (deliverOrderlineAccesses commute) =
      match b with | .fineGrained => [1] | .wholeRow => [0] := by
  cases b <;> cases commute <;> decide

/-- `c_credit` is in cell 1. -/
theorem written_payCustomer : writtenCells (b.sel .customer) (payCustomerAccesses commute) =
      match b with | .fineGrained => [0,1] | .wholeRow => [0] := by
  cases b <;> cases commute <;> decide

end

section

variable (b : Build) (hAmount : BitVec 64)

theorem agree_payWarehouse (old : warehouseValue.Row) : Agree b (payWarehouse hAmount) old := by
  cases b with
  | wholeRow => exact agree_wholeRow (consistent_payWarehouse hAmount) (written_payWarehouse .wholeRow) old
  | fineGrained =>
    refine (agree_iff_of_single (consistent_payWarehouse hAmount) (written_payWarehouse _ _) (written_payWarehouse _ _)).mpr
      (fun c hc => ?_)
    cases c <;> first | rfl | exact absurd (by decide) hc

theorem agree_payDistrict (old : districtValue.Row) : Agree b (payDistrict hAmount) old := by
  cases b with
  | wholeRow => exact agree_wholeRow (consistent_payDistrict hAmount) (written_payDistrict .wholeRow) old
  | fineGrained =>
    refine (agree_iff_of_single (consistent_payDistrict hAmount) (written_payDistrict _ _) (written_payDistrict _ _)).mpr
      (fun c hc => ?_)
    cases c <;> first | rfl | exact absurd (by decide) hc

theorem agree_orderStock (qty : BitVec 64) (remote : Bool) (old : stockValue.Row) : Agree b (orderStock qty remote) old := by
  cases b with
  | wholeRow => exact agree_wholeRow (consistent_orderStock qty remote) (written_orderStock .wholeRow) old
  | fineGrained =>
    refine (agree_iff_of_single (consistent_orderStock qty remote) (written_orderStock _ _) (written_orderStock _ _)).mpr
      (fun c hc => ?_)
    cases remote <;> cases c <;> first | rfl | exact absurd (by decide) hc

theorem agree_deliverCustomer (olAmountSum : BitVec 64) (old : customerValue.Row) : Agree b (deliverCustomer olAmountSum) old := by
  cases b with
  | wholeRow => exact agree_wholeRow (consistent_deliverCustomer olAmountSum) (written_deliverCustomer .wholeRow) old
  | fineGrained =>
    refine (agree_iff_of_single (consistent_deliverCustomer olAmountSum) (written_deliverCustomer _ _)
      (written_deliverCustomer _ _)).mpr (fun c hc => ?_)
    cases c <;> first | rfl | exact absurd (by decide) hc

/-- The carrier is asked for in the cell that does not copy it. -/
theorem agree_deliverOrder_iff (carrierId : BitVec 64) (old : orderValue.Row) :
    Agree b (deliverOrder carrierId) old ↔ b = .wholeRow ∨ old OrderColumn.oCarrierId = carrierId := by
  cases b with
  | wholeRow =>
    exact iff_of_true (agree_wholeRow (consistent_deliverOrder carrierId) (written_deliverOrder .wholeRow) old) (Or.inl rfl)
  | fineGrained =>
    rw [agree_iff_of_single (consistent_deliverOrder carrierId) (written_deliverOrder _ _) (written_deliverOrder _ _)]
    constructor
    · intro h
      exact Or.inr (h OrderColumn.oCarrierId (by decide)).symm
    · rintro (hb | hcarrier) c hc
      · cases hb
      · cases c <;> first | rfl | exact absurd (by decide) hc | exact hcarrier.symm

theorem agree_deliverOrderline_iff (deliveryDate : BitVec 32) (old : orderlineValue.Row) :
    Agree b (deliverOrderline deliveryDate) old ↔ b = .wholeRow ∨ old OrderlineColumn.olDeliveryD = deliveryDate := by
  cases b with
  | wholeRow =>
    exact iff_of_true (agree_wholeRow (consistent_deliverOrderline deliveryDate) (written_deliverOrderline .wholeRow) old)
      (Or.inl rfl)
  | fineGrained =>
    rw [agree_iff_of_single (consistent_deliverOrderline deliveryDate) (written_deliverOrderline _ _)
      (written_deliverOrderline _ _)]
    constructor
    · intro h
      exact Or.inr (h OrderlineColumn.olDeliveryD (by decide)).symm
    · rintro (hb | hdate) c hc
      · cases hb
      · cases c <;> first | rfl | exact absurd (by decide) hc | exact hdate.symm

private theorem operate_paymentCnt (deltaBalance deltaYtd : BitVec 64) (info : Option CDataInfo) (c : customerValue.Row) :
    (CustomerComm.payment deltaBalance deltaYtd info).operate c cPaymentCnt = c cPaymentCnt+1 := by
  cases info <;> rfl

/-- Both cells of the customer are written, and the commutator is applied for each. -/
theorem agree_payCustomer_iff (info : CDataInfo) (old : customerValue.Row) : Agree b (payCustomer hAmount info) old ↔ b = .wholeRow := by
  cases b with
  | wholeRow =>
    exact iff_of_true (agree_wholeRow (consistent_payCustomer hAmount info) (written_payCustomer .wholeRow) old) rfl
  | fineGrained =>
    refine iff_of_false (fun h => ?_) (fun h => nomatch h)
    rw [Agree,Change.run_commute,Change.run_plain,Option.some.injEq] at h
    have hcnt := congrFun h cPaymentCnt
    have hcomm : (writtenCells (Build.fineGrained.sel .customer) ((payCustomer hAmount info).accesses true)).length = 2 :=
      congrArg List.length (written_payCustomer .fineGrained true)
    have hplain : writtenCells (Build.fineGrained.sel .customer) ((payCustomer hAmount info).accesses false) = [0,1] :=
      written_payCustomer .fineGrained false
    rw [hcomm,hplain,overwriteAll_apply,if_pos ⟨_,List.mem_cons_self,(by decide)⟩,← consistent_payCustomer hAmount info old,
      iterate_succ_apply,iterate_one] at hcnt
    have htwo : old cPaymentCnt+1+1 = old cPaymentCnt+1 :=
      ((operate_paymentCnt _ _ _ _).trans (congrArg (fun n : BitVec 16 => n+1) (operate_paymentCnt _ _ _ _))).symm.trans
        (hcnt.trans (operate_paymentCnt _ _ _ _))
    have hone : (1 : BitVec 16) = 0 := add_eq_left.mp (add_right_cancel htwo)
    exact absurd hone (by decide)

end

end AlNiCo.Tpcc
