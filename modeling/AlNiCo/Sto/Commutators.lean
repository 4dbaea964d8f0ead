import AlNiCo.Library.ByteMemory
import AlNiCo.Sto.RowItems

/-! The commutators of the TPC-C rows, and a change of one row in both builds: as a
commutator, or as a full new row. -/
namespace AlNiCo.Sto
open Library.SplitRow Function

section

structure WarehouseComm where
  deltaYtd : BitVec 64

def WarehouseComm.operate (comm : WarehouseComm) (w : warehouseValue.Row) : warehouseValue.Row :=
  let ytd : BitVec 64 := w WarehouseColumn.wYtd
  update w WarehouseColumn.wYtd (ytd+comm.deltaYtd)

structure DistrictComm where
  deltaYtd : BitVec 64

def DistrictComm.operate (comm : DistrictComm) (d : districtValue.Row) : districtValue.Row :=
  let ytd : BitVec 64 := d DistrictColumn.dYtd
  update d DistrictColumn.dYtd (ytd+comm.deltaYtd)

structure CDataInfo where
  cid : BitVec 64
  cdid : BitVec 64
  cwid : BitVec 64
  did : BitVec 64
  wid : BitVec 64
  hAmount : BitVec 64

def CDataInfo.buf (info : CDataInfo) : List (BitVec 8) :=
  [info.cid,info.cdid,info.cwid,info.did,info.wid,info.hAmount].flatMap (Library.ByteMemory.bytes 8)

/-- `insert_left`: what is there moves to the right, and the end is lost. -/
def insertLeft {n : Nat} (s : FixString n) (buf : List (BitVec 8)) : FixString n :=
  Vector.ofFn (fun i : Fin n => (buf ++ s.toList).getD i.val 0)

inductive CustomerComm
  | payment (deltaBalance deltaYtdPayment : BitVec 64) (badCredit : Option CDataInfo)
  | delivery (deltaBalance : BitVec 64)

def CustomerComm.operate : CustomerComm → customerValue.Row → customerValue.Row
  | payment deltaBalance deltaYtdPayment badCredit,c =>
    let balance : BitVec 64 := c CustomerColumn.cBalance
    let cnt : BitVec 16 := c CustomerColumn.cPaymentCnt
    let ytd : BitVec 64 := c CustomerColumn.cYtdPayment
    let c := update c CustomerColumn.cBalance (balance+deltaBalance)
    let c := update c CustomerColumn.cPaymentCnt (cnt+1)
    let c := update c CustomerColumn.cYtdPayment (ytd+deltaYtdPayment)
    match badCredit with
    | none => c
    | some info => update c CustomerColumn.cData (insertLeft (c CustomerColumn.cData) info.buf)
  | delivery deltaBalance,c =>
    let balance : BitVec 64 := c CustomerColumn.cBalance
    let cnt : BitVec 16 := c CustomerColumn.cDeliveryCnt
    let c := update c CustomerColumn.cBalance (balance+deltaBalance)
    update c CustomerColumn.cDeliveryCnt (cnt+1)

structure OrderComm where
  writeCarrierId : BitVec 64

def OrderComm.operate (comm : OrderComm) (ov : orderValue.Row) : orderValue.Row :=
  update ov OrderColumn.oCarrierId comm.writeCarrierId

structure OrderlineComm where
  writeDeliveryD : BitVec 32

def OrderlineComm.operate (comm : OrderlineComm) (ol : orderlineValue.Row) : orderlineValue.Row :=
  update ol OrderlineColumn.olDeliveryD comm.writeDeliveryD

structure StockComm where
  updateQty : BitVec 32
  isRemote : Bool

/-- The new quantity, with the comparison of `int32_t`. -/
def takeStock (quantity qty : BitVec 32) : BitVec 32 :=
  if qty.sle (quantity-10) then quantity-qty else quantity+(91-qty)

def StockComm.operate (comm : StockComm) (sv : stockValue.Row) : stockValue.Row :=
  let quantity : BitVec 32 := sv StockColumn.sQuantity
  let ytd : BitVec 32 := sv StockColumn.sYtd
  let orderCnt : BitVec 32 := sv StockColumn.sOrderCnt
  let remoteCnt : BitVec 32 := sv StockColumn.sRemoteCnt
  let sv := update sv StockColumn.sQuantity (takeStock quantity comm.updateQty)
  let sv := update sv StockColumn.sYtd (ytd+comm.updateQty)
  let sv := update sv StockColumn.sOrderCnt (orderCnt+1)
  if comm.isRemote then update sv StockColumn.sRemoteCnt (remoteCnt+1) else sv

end

inductive Build
  | fineGrained | wholeRow

def Build.sel : Build → (t : SplitTable) → VerSel t.value.Col
  | fineGrained,t => t.sel
  | wholeRow,t => t.value.wholeRow

theorem Build.numVersions_pos (b : Build) (t : SplitTable) : 0 < (b.sel t).numVersions := by
  cases b with
  | fineGrained => rw [sel,SplitTable.numVersions_eq]; decide
  | wholeRow => exact Nat.one_pos

/-- How a transaction changes a row, given what it reads there: the accesses it
declares and the commutator or the new row it passes, by `Commute`. -/
structure Change (t : SplitTable) where
  Comm : Type
  operate : Comm → t.value.Row → t.value.Row
  accesses : Bool → List (t.value.Col × Access)
  comm : t.value.Row → Comm
  newRow : t.value.Row → t.value.Row

namespace Change
variable {t : SplitTable} (ch : Change t) (b : Build) (old : t.value.Row)

/-- The row that is stored when the transaction runs alone to its commit. -/
def run (commute : Bool) : Option t.value.Row :=
  let items := selectSplitRow t.value (b.sel t) dbDefaultParams (ch.accesses commute) .fresh
  if commute then commitRow (b.sel t) ch.operate (updateRowComm (ch.comm old) items) old
  else commitRow (b.sel t) ch.operate (updateRow dbDefaultParams (ch.newRow old) items) old

theorem run_commute : ch.run b old true = some ((ch.operate (ch.comm old))^[(writtenCells (b.sel t) (ch.accesses true)).length] old) :=
  commitRow_updateRowComm _ _ _ (b.numVersions_pos t) _ _ _

theorem run_plain : ch.run b old false = some (overwriteAll ((writtenCells (b.sel t) (ch.accesses false)).map (b.sel t).copied) old
      (ch.newRow old)) :=
  commitRow_updateRow _ _ _ (b.numVersions_pos t) _ _ _

end Change

end AlNiCo.Sto
