import AlNiCo.Sto.Selectors

/-! The items that a transaction keeps for one row, from `select_split_row` over
`update_row` to the installs of its commit. Item 0 is the row item, and it is the item
of cell 0 as well. -/
namespace AlNiCo.Sto
open Library.SplitRow List

inductive Access
  | none | read | write | update
  deriving DecidableEq

/-- `access_t` as the source numbers it: bit 0 is a read and bit 1 a write. -/
def Access.bits : Access → BitVec 2
  | none => 0
  | read => 1
  | write => 2
  | update => 3

def Access.writes (a : Access) : Bool := a.bits.getLsbD 1

structure Flags where
  read : Bool
  write : Bool
  commute : Bool
  insertBit : Bool
  deleteBit : Bool
  rowUpdate : Bool
  rowCell : Bool

inductive WData (V C : Type)
  | unset
  | row (v : V)
  | comm (c : C)

structure Items (V C : Type) where
  item : Nat → Flags
  wdata : WData V C

namespace Items
variable {V C : Type}

def fresh : Items V C := ⟨fun _ => ⟨false,false,false,false,false,false,false⟩,.unset⟩

def rowItem (s : Items V C) : Flags := s.item 0

def setRowItem (s : Items V C) (item : Flags) : Items V C := { s with item := Function.update s.item 0 item }

@[simp] theorem setRowItem_of_ne (s : Items V C) (item : Flags) {k} (h0 : k ≠ 0) : (s.setRowItem item).item k = s.item k :=
  Function.update_of_ne h0 ..

end Items

inductive VersionType
  /-- `TVersion` and `TNonopaqueVersion`. -/
  | occ
  | tictoc
  /-- `TLockVersion` and `TSwissVersion`. -/
  | lock
  deriving DecidableEq

structure DbParams where
  rdMyWr : Bool
  version : VersionType

def dbDefaultParams : DbParams := ⟨false,.occ⟩

section
variable (p : DbParams)

/-- Only the optimistic versions go through `add_write`, which takes the commute flag back. -/
def acquireWrite (item : Flags) : Flags :=
  { item with commute := item.commute && decide (p.version ≠ .occ), write := true }

/-- One turn of `access_all`, for a transaction that runs alone. -/
def accessItem (idx : Nat) (access : BitVec 2) (item : Flags) : Flags :=
  let item := if access.getLsbD 0 then { item with read := true } else item
  if access.getLsbD 1 then { acquireWrite p item with rowCell := item.rowCell || decide (idx = 0) } else item

end

section
variable (t : Table) (sel : VerSel t.Col)

def columnToCellAccesses (accesses : List (t.Col × Access)) : Nat → BitVec 2 :=
  accesses.foldl (fun cells x =>
    let cell := sel.mapImpl (t.colN x.1)
    Function.update cells cell (cells cell ||| x.2.bits)) (fun _ => 0)

variable (p : DbParams) {V C : Type}

/-- `select_split_row`; with read-my-writes an item that is written is left as it is. -/
def selectSplitRow (accesses : List (t.Col × Access)) (s : Items V C) : Items V C :=
  let cells := columnToCellAccesses t sel accesses
  let anyHasWrite := (List.range sel.numVersions).any (fun k => decide (cells k ≠ 0) && (s.item k).write)
  if p.rdMyWr ∧ (s.rowItem.deleteBit ∨ anyHasWrite ∨ s.rowItem.rowUpdate) then s
  else { s with item := fun k => if k < sel.numVersions then accessItem p k (cells k) (s.item k) else s.item k }

def updateRow (newRow : V) (s : Items V C) : Items V C :=
  { s.setRowItem (acquireWrite p s.rowItem) with wdata := .row newRow }

def updateRowComm (comm : C) (s : Items V C) : Items V C :=
  { s.setRowItem { s.rowItem with write := true, commute := true } with wdata := .comm comm }

variable {t} (operate : C → t.Row → t.Row)

def installByCell (dst src : t.Row) (cell : Nat) : t.Row := overwrite (sel.copied cell) dst src

/-- `install` of the item of a cell; it fails where the source reads `wdata_` as
something that was not stored there. -/
def install (s : Items t.Row C) (row : t.Row) (cell : Nat) : Option t.Row :=
  let rowItem := s.rowItem
  if cell = 0 then
    if rowItem.deleteBit ∨ rowItem.insertBit then some row
    else if rowItem.commute then
      match s.wdata with
      | .comm comm => some (if rowItem.rowUpdate ∨ rowItem.rowCell then operate comm row else row)
      | _ => none
    else
      match s.wdata with
      | .row v => some (if rowItem.rowUpdate then v else if rowItem.rowCell then installByCell sel row v 0 else row)
      | _ => none
  else if rowItem.rowUpdate then some row
  else if rowItem.commute then
    match s.wdata with
    | .comm comm => some (operate comm row)
    | _ => none
  else
    match s.wdata with
    | .row v => some (installByCell sel row v cell)
    | _ => none

/-- The third phase of `try_commit`: the items that are written, in the order in which
the transaction got them. -/
def commitRow (s : Items t.Row C) (row : t.Row) : Option t.Row :=
  ((List.range sel.numVersions).filter (fun k => (s.item k).write)).foldlM (install sel operate s) row

end

section
variable {t : Table} (sel : VerSel t.Col) {C : Type} (operate : C → t.Row → t.Row)

def writtenCells (accesses : List (t.Col × Access)) : List Nat :=
  (List.range sel.numVersions).filter (fun k => (columnToCellAccesses t sel accesses k).getLsbD 1)

private theorem getLsbD_foldl (accesses : List (t.Col × Access)) (cells : Nat → BitVec 2) (k : Nat) :
    (accesses.foldl (fun cells x => Function.update cells (sel.mapImpl (t.colN x.1))
      (cells (sel.mapImpl (t.colN x.1)) ||| x.2.bits)) cells k).getLsbD 1 =
      ((cells k).getLsbD 1 || accesses.any (fun x => decide (sel.mapImpl (t.colN x.1) = k) && x.2.writes)) := by
  induction accesses generalizing cells with
  | nil => simp
  | cons x accesses ih =>
    rw [foldl_cons,ih,any_cons]
    by_cases hk : k = sel.mapImpl (t.colN x.1)
    · subst hk
      simp [Function.update_self,Access.writes,Bool.or_assoc]
    · rw [Function.update_of_ne hk,decide_eq_false (fun h => hk h.symm),Bool.false_and,Bool.false_or]

theorem mem_writtenCells {accesses k} : k ∈ writtenCells sel accesses ↔
      k < sel.numVersions ∧ ∃ x ∈ accesses, x.2.writes = true ∧ sel.mapImpl (t.colN x.1) = k := by
  rw [writtenCells,mem_filter,mem_range,columnToCellAccesses,getLsbD_foldl]
  simp [and_comm]

variable (p : DbParams)

/-- What the first `select_split_row` leaves in an item of the row. -/
private theorem selectSplitRow_item {V} (accesses : List (t.Col × Access)) {k} (hk : k < sel.numVersions) :
    let item := (selectSplitRow t sel p accesses (.fresh : Items V C)).item k
    item.write = (columnToCellAccesses t sel accesses k).getLsbD 1 ∧
      item.rowCell = ((columnToCellAccesses t sel accesses k).getLsbD 1 && decide (k = 0)) ∧
      item.rowUpdate = false ∧ item.insertBit = false ∧ item.deleteBit = false ∧ item.commute = false := by
  have hfresh : (selectSplitRow t sel p accesses (.fresh : Items V C)).item k =
      accessItem p k (columnToCellAccesses t sel accesses k) ⟨false,false,false,false,false,false,false⟩ := by
    rw [selectSplitRow,if_neg]
    · exact if_pos hk
    · simp [Items.rowItem,Items.fresh]
  rw [hfresh,accessItem,acquireWrite]
  cases (columnToCellAccesses t sel accesses k).getLsbD 0 <;>
    cases (columnToCellAccesses t sel accesses k).getLsbD 1 <;> simp

/-- The installs of the items that are written come down to the cells that are
declared as written: the row item does nothing for itself. -/
private theorem commitRow_eq {s} (accesses : List (t.Col × Access)) (f : t.Row → Nat → t.Row)
    (hwrite : ∀ k < sel.numVersions, (s.item k).write = (decide (k = 0) || (columnToCellAccesses t sel accesses k).getLsbD 1))
    (hrow : ∀ row, install sel operate s row 0 = some (if (columnToCellAccesses t sel accesses 0).getLsbD 1 then f row 0 else row))
    (hcell : ∀ row k, k ≠ 0 → install sel operate s row k = some (f row k)) (old : t.Row) :
    commitRow sel operate s old = some ((writtenCells sel accesses).foldl f old) := by
  have hstep (row : t.Row) (k : Nat) (hk : k ∈ (List.range sel.numVersions).filter (fun k => (s.item k).write)) :
      install sel operate s row k = some (if (columnToCellAccesses t sel accesses k).getLsbD 1 then f row k else row) := by
    obtain ⟨hlt,hw⟩ := mem_filter.mp hk
    by_cases h0 : k = 0
    · subst h0
      exact hrow row
    · rw [hwrite k (mem_range.mp hlt),decide_eq_false h0,Bool.false_or] at hw
      rw [if_pos hw,hcell row k h0]
  rw [commitRow,foldlM_some_filter hstep,filter_filter,writtenCells]
  refine congrArg (fun l => some (List.foldl f old l)) (filter_congr (fun k hk => ?_))
  rw [hwrite k (mem_range.mp hk)]
  cases (columnToCellAccesses t sel accesses k).getLsbD 1 <;> simp

/-- A new row reaches the cells that are declared as written. -/
theorem commitRow_updateRow (hpos : 0 < sel.numVersions) (accesses : List (t.Col × Access)) (newRow old : t.Row) :
    commitRow sel operate (updateRow p newRow (selectSplitRow t sel p accesses .fresh)) old =
      some (overwriteAll ((writtenCells sel accesses).map sel.copied) old newRow) := by
  obtain ⟨-,hcell,hupdate,hinsert,hdelete,hcommute⟩ := selectSplitRow_item (V := t.Row) (C := C) sel p accesses hpos
  rw [commitRow_eq sel operate accesses (fun row k => installByCell sel row newRow k),overwriteAll,foldl_map]
  · rfl
  · intro k hk
    by_cases h0 : k = 0
    · subst h0
      simp [updateRow,acquireWrite,Items.setRowItem]
    · simp only [updateRow,Items.setRowItem_of_ne _ _ h0,(selectSplitRow_item sel p accesses hk).1,decide_eq_false h0,Bool.false_or]
  · intro row
    simp [install,updateRow,acquireWrite,Items.rowItem,Items.setRowItem,hcell,hupdate,hinsert,hdelete,hcommute]
  · intro row k h0
    simp [install,updateRow,acquireWrite,Items.rowItem,Items.setRowItem,h0,hupdate,hcommute]

/-- A commutator is applied once for each of them. -/
theorem commitRow_updateRowComm (hpos : 0 < sel.numVersions) (accesses : List (t.Col × Access)) (comm : C) (old : t.Row) :
    commitRow sel operate (updateRowComm comm (selectSplitRow t sel p accesses .fresh)) old =
      some ((operate comm)^[(writtenCells sel accesses).length] old) := by
  obtain ⟨-,hcell,hupdate,hinsert,hdelete,-⟩ := selectSplitRow_item (V := t.Row) (C := C) sel p accesses hpos
  rw [commitRow_eq sel operate accesses (fun row _ => operate comm row),foldl_const]
  · intro k hk
    by_cases h0 : k = 0
    · subst h0
      simp [updateRowComm,Items.setRowItem]
    · simp only [updateRowComm,Items.setRowItem_of_ne _ _ h0,(selectSplitRow_item sel p accesses hk).1,decide_eq_false h0,Bool.false_or]
  · intro row
    simp [install,updateRowComm,Items.rowItem,Items.setRowItem,hcell,hupdate,hinsert,hdelete]
  · intro row k h0
    simp [install,updateRowComm,Items.rowItem,Items.setRowItem,h0,hupdate]

end

end AlNiCo.Sto
