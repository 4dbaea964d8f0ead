import AlNiCo.Library.SplitRow

/-! The rows of the TPC-C tables and their version selectors: which cell an access to
a column goes to, and which columns the install of a cell copies. The two are written
down separately in the source. -/
namespace AlNiCo.Sto

def VarString (n : Nat) : Type := { s : List (BitVec 8) // s.length ≤ n }

abbrev FixString (n : Nat) : Type := Vector (BitVec 8) n

/-- A row type with its `NamedColumn`. -/
structure Table where
  Col : Type
  decEq : DecidableEq Col
  /-- The number that a column has in `NamedColumn`. -/
  colN : Col → Nat
  columns : List Col
  complete : ∀ c, c ∈ columns
  type : Col → Type

attribute [instance] Table.decEq

abbrev Table.Row (t : Table) : Type := ∀ c, t.type c

/-- `VerSel`, without the versions. -/
structure VerSel (Col : Type) where
  numVersions : Nat
  mapImpl : Nat → Nat
  /-- The assignments of `install_by_cell_impl`. -/
  copied : Nat → List Col
  /-- Whether the constructor gives the version of a new row to cell 0. -/
  keepsVersion : Bool

/-- The default selector has one version and copies the whole row. -/
def Table.wholeRow (t : Table) : VerSel t.Col := ⟨1,fun _ => 0,fun _ => t.columns,true⟩

/-- The selectors that read the cell out of a mask with `vidx_width` 1. -/
def packedMap (colCellMap : BitVec 64) (colN : Nat) : Nat :=
  let mask := ~~~(~~~0#64 <<< 1)
  let shift := colN*1
  ((colCellMap &&& (mask <<< shift)) >>> shift).toNat

section

inductive WarehouseColumn
  | wName | wStreet1 | wStreet2 | wCity | wState | wZip | wTax | wYtd
  deriving DecidableEq

abbrev WarehouseColumn.type : WarehouseColumn → Type
  | .wName => VarString 10
  | .wStreet1 => VarString 20
  | .wStreet2 => VarString 20
  | .wCity => VarString 20
  | .wState => FixString 2
  | .wZip => FixString 9
  | .wTax => BitVec 64
  | .wYtd => BitVec 64

abbrev warehouseValue : Table where
  Col := WarehouseColumn
  decEq := inferInstance
  colN := WarehouseColumn.ctorIdx
  columns := [.wName,.wStreet1,.wStreet2,.wCity,.wState,.wZip,.wTax,.wYtd]
  complete c := by cases c <;> decide
  type := WarehouseColumn.type

def warehouseSel : VerSel WarehouseColumn where
  numVersions := 2
  mapImpl colN := if colN = WarehouseColumn.wYtd.ctorIdx then 0 else 1
  copied
    | 0 => [.wYtd]
    | 1 => [.wName,.wStreet1,.wStreet2,.wCity,.wState,.wZip,.wTax]
    | _ => []
  keepsVersion := true

end

section

inductive DistrictColumn
  | dName | dStreet1 | dStreet2 | dCity | dState | dZip | dTax | dYtd | dNextOId
  deriving DecidableEq

abbrev DistrictColumn.type : DistrictColumn → Type
  | .dName => VarString 10
  | .dStreet1 => VarString 20
  | .dStreet2 => VarString 20
  | .dCity => VarString 20
  | .dState => FixString 2
  | .dZip => FixString 9
  | .dTax => BitVec 64
  | .dYtd => BitVec 64
  | .dNextOId => BitVec 64

abbrev districtValue : Table where
  Col := DistrictColumn
  decEq := inferInstance
  colN := DistrictColumn.ctorIdx
  columns := [.dName,.dStreet1,.dStreet2,.dCity,.dState,.dZip,.dTax,.dYtd,.dNextOId]
  complete c := by cases c <;> decide
  type := DistrictColumn.type

def districtSel : VerSel DistrictColumn where
  numVersions := 2
  mapImpl colN := if colN = DistrictColumn.dYtd.ctorIdx ∨ colN = DistrictColumn.dNextOId.ctorIdx then 0 else 1
  copied
    | 0 => [.dYtd,.dNextOId]
    | 1 => [.dName,.dStreet1,.dStreet2,.dCity,.dState,.dZip,.dTax]
    | _ => []
  keepsVersion := true

end

section

inductive CustomerColumn
  | cFirst | cMiddle | cLast | cStreet1 | cStreet2 | cCity | cState | cZip | cPhone | cSince | cCredit | cCreditLim
  | cDiscount | cBalance | cYtdPayment | cPaymentCnt | cDeliveryCnt | cData
  deriving DecidableEq

abbrev CustomerColumn.type : CustomerColumn → Type
  | .cFirst => VarString 16
  | .cMiddle => FixString 2
  | .cLast => VarString 16
  | .cStreet1 => VarString 20
  | .cStreet2 => VarString 20
  | .cCity => VarString 20
  | .cState => FixString 2
  | .cZip => FixString 9
  | .cPhone => FixString 16
  | .cSince => BitVec 32
  | .cCredit => FixString 2
  | .cCreditLim => BitVec 64
  | .cDiscount => BitVec 64
  | .cBalance => BitVec 64
  | .cYtdPayment => BitVec 64
  | .cPaymentCnt => BitVec 16
  | .cDeliveryCnt => BitVec 16
  | .cData => FixString 500

abbrev customerValue : Table where
  Col := CustomerColumn
  decEq := inferInstance
  colN := CustomerColumn.ctorIdx
  columns := [.cFirst,.cMiddle,.cLast,.cStreet1,.cStreet2,.cCity,.cState,.cZip,.cPhone,.cSince,.cCredit,.cCreditLim,
    .cDiscount,.cBalance,.cYtdPayment,.cPaymentCnt,.cDeliveryCnt,.cData]
  complete c := by cases c <;> decide
  type := CustomerColumn.type

def customerSel : VerSel CustomerColumn where
  numVersions := 2
  mapImpl := packedMap 8191
  copied
    | 0 => [.cBalance,.cYtdPayment,.cPaymentCnt,.cDeliveryCnt,.cData]
    | 1 => [.cFirst,.cMiddle,.cLast,.cStreet1,.cStreet2,.cCity,.cState,.cZip,.cPhone,.cSince,.cCredit,.cCreditLim,
      .cDiscount]
    | _ => []
  keepsVersion := true

end

section

inductive OrderColumn
  | oCId | oEntryD | oOlCnt | oAllLocal | oCarrierId
  deriving DecidableEq

abbrev OrderColumn.type : OrderColumn → Type
  | .oCId => BitVec 64
  | .oEntryD => BitVec 32
  | .oOlCnt => BitVec 32
  | .oAllLocal => BitVec 32
  | .oCarrierId => BitVec 64

abbrev orderValue : Table where
  Col := OrderColumn
  decEq := inferInstance
  colN := OrderColumn.ctorIdx
  columns := [.oCId,.oEntryD,.oOlCnt,.oAllLocal,.oCarrierId]
  complete c := by cases c <;> decide
  type := OrderColumn.type

def orderSel : VerSel OrderColumn where
  numVersions := 2
  mapImpl := packedMap 29
  copied
    | 0 => [.oCarrierId]
    | 1 => [.oCId,.oEntryD,.oOlCnt,.oAllLocal]
    | _ => []
  keepsVersion := false

end

section

inductive OrderlineColumn
  | olIId | olSupplyWId | olQuantity | olAmount | olDistInfo | olDeliveryD
  deriving DecidableEq

abbrev OrderlineColumn.type : OrderlineColumn → Type
  | .olIId => BitVec 64
  | .olSupplyWId => BitVec 64
  | .olQuantity => BitVec 32
  | .olAmount => BitVec 32
  | .olDistInfo => FixString 24
  | .olDeliveryD => BitVec 32

abbrev orderlineValue : Table where
  Col := OrderlineColumn
  decEq := inferInstance
  colN := OrderlineColumn.ctorIdx
  columns := [.olIId,.olSupplyWId,.olQuantity,.olAmount,.olDistInfo,.olDeliveryD]
  complete c := by cases c <;> decide
  type := OrderlineColumn.type

def orderlineSel : VerSel OrderlineColumn where
  numVersions := 2
  mapImpl := packedMap 59
  copied
    | 0 => [.olDeliveryD]
    | 1 => [.olIId,.olSupplyWId,.olQuantity,.olAmount,.olDistInfo]
    | _ => []
  keepsVersion := false

end

section

inductive StockColumn
  | sDists | sData | sQuantity | sYtd | sOrderCnt | sRemoteCnt
  deriving DecidableEq

abbrev StockColumn.type : StockColumn → Type
  | .sDists => Vector (FixString 24) 10
  | .sData => VarString 50
  | .sQuantity => BitVec 32
  | .sYtd => BitVec 32
  | .sOrderCnt => BitVec 32
  | .sRemoteCnt => BitVec 32

abbrev stockValue : Table where
  Col := StockColumn
  decEq := inferInstance
  colN := StockColumn.ctorIdx
  columns := [.sDists,.sData,.sQuantity,.sYtd,.sOrderCnt,.sRemoteCnt]
  complete c := by cases c <;> decide
  type := StockColumn.type

def stockSel : VerSel StockColumn where
  numVersions := 2
  mapImpl colN := if colN ≤ StockColumn.sRemoteCnt.ctorIdx then 0 else 1
  copied
    | 0 => [.sQuantity,.sYtd,.sOrderCnt,.sRemoteCnt]
    | 1 => [.sDists,.sData]
    | _ => []
  keepsVersion := false

end

inductive SplitTable
  | warehouse | district | customer | order | orderline | stock

namespace SplitTable

abbrev value : SplitTable → Table
  | warehouse => warehouseValue
  | district => districtValue
  | customer => customerValue
  | order => orderValue
  | orderline => orderlineValue
  | stock => stockValue

def sel : (t : SplitTable) → VerSel t.value.Col
  | warehouse => warehouseSel
  | district => districtSel
  | customer => customerSel
  | order => orderSel
  | orderline => orderlineSel
  | stock => stockSel

/-- The columns that one cell is asked for and the other cell copies. -/
def misplaced : (t : SplitTable) → List t.value.Col
  | warehouse => []
  | district => []
  | customer => []
  | order => [OrderColumn.oEntryD,OrderColumn.oCarrierId]
  | orderline => [OrderlineColumn.olQuantity,OrderlineColumn.olDeliveryD]
  | stock => [StockColumn.sDists,StockColumn.sData]

theorem numVersions_eq (t : SplitTable) : t.sel.numVersions = 2 := by
  cases t <;> rfl

def cell (t : SplitTable) (c : t.value.Col) : Nat := t.sel.mapImpl (t.value.colN c)

theorem cell_lt (t : SplitTable) (c : t.value.Col) : t.cell c < 2 := by
  cases t <;> cases c <;> decide

/-- Every column is copied with one cell: the one it is mapped to, or the other. -/
theorem mem_copied_iff (t : SplitTable) (c : t.value.Col) {k} (hk : k < 2) :
    c ∈ t.sel.copied k ↔ k = if c ∈ t.misplaced then 1-t.cell c else t.cell c := by
  rw [← decide_eq_decide]
  obtain rfl | rfl : k = 0 ∨ k = 1 := by omega
  all_goals cases t <;> cases c <;> rfl

end SplitTable

end AlNiCo.Sto
