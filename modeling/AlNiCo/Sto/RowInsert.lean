import AlNiCo.Sto.RowItems

/-! `insert_row` and `delete_row` of the two single-version indexes on one key, for a
transaction that runs alone: which flags they leave in the row item next to those of
`select_split_row` and `update_row`, and what is stored under the key after the commit. -/
namespace AlNiCo.Sto.RowInsert
open Library.SplitRow List Option

structure Params extends DbParams where
  /-- `ordered_index` and not `unordered_index`. -/
  ordered : Bool

/-- The row in the element that the index has under the key, and the items that the
transaction has for that element. -/
structure RowTxn (V C : Type) where
  stored : Option V
  items : Items V C

inductive Call (Col V C : Type)
  | select (accesses : List (Col × Access))
  | update (newRow : V)
  | updateComm (comm : C)
  | insert (vptr : V) (overwrite : Bool)
  | delete

section
variable (p : Params)

def selectForUpdate (item : Flags) : Flags :=
  match p.version with
  | .lock => acquireWrite p.toDbParams item
  | _ => acquireWrite p.toDbParams { item with read := true }

variable {V C : Type}

def RowTxn.rowItem (st : RowTxn V C) : Flags := st.items.rowItem

def RowTxn.setRowItem (st : RowTxn V C) (item : Flags) : RowTxn V C := { st with items := st.items.setRowItem item }

def RowTxn.setWData (st : RowTxn V C) (wdata : WData V C) : RowTxn V C :=
  { st with items := ⟨st.items.item,wdata⟩ }

@[simp] theorem setWData_rowItem (st : RowTxn V C) (wdata : WData V C) : (st.setWData wdata).rowItem = st.rowItem := rfl

def insertRow (vptr : V) (overwrite : Bool) (st : RowTxn V C) : RowTxn V C :=
  match st.stored with
  | some row =>
    if p.rdMyWr ∧ st.rowItem.deleteBit then
      (st.setRowItem { st.rowItem with deleteBit := false, commute := false, write := true }).setWData (.row vptr)
    else if overwrite then
      { (st.setRowItem (acquireWrite p.toDbParams st.rowItem)).setWData (.row vptr) with
        stored := some (if p.rdMyWr ∧ st.rowItem.insertBit then vptr else row) }
    else st.setRowItem { st.rowItem with read := true }
  | none =>
    -- The ordered index acquires the write without a value.
    let st : RowTxn V C := ⟨some vptr,.fresh⟩
    let st := st.setRowItem { st.rowItem with write := true, insertBit := true }
    if p.ordered then st else st.setWData (.row vptr)

variable {t : Table} (sel : VerSel t.Col)

/-- `valid()`: the only row with the invalid bit that the transaction can meet is its own
insert, and that has it only if the selector keeps the version it is constructed with. -/
def valid (st : RowTxn V C) : Bool := !(st.rowItem.insertBit && sel.keepsVersion)

def deleteRow (st : RowTxn V C) : RowTxn V C :=
  match st.stored with
  | some _ =>
    let deleted := st.setRowItem { selectForUpdate p st.rowItem with deleteBit := true }
    if p.rdMyWr then
      if p.ordered then
        if st.rowItem.deleteBit then st
        else if !valid sel st ∧ st.rowItem.insertBit then st.setRowItem { st.rowItem with deleteBit := true }
        else deleted
      else if !valid sel st ∧ st.rowItem.insertBit then ⟨none,.fresh⟩
      else if st.rowItem.deleteBit then st
      else deleted
    else deleted
  | none => st

def call (st : RowTxn t.Row C) : Call t.Col t.Row C → RowTxn t.Row C
  | .select accesses => if st.stored.isSome then { st with items := selectSplitRow t sel p.toDbParams accesses st.items } else st
  | .update newRow => if st.stored.isSome then { st with items := updateRow p.toDbParams newRow st.items } else st
  | .updateComm comm => if st.stored.isSome then { st with items := updateRowComm comm st.items } else st
  | .insert vptr overwrite => insertRow p vptr overwrite st
  | .delete => deleteRow p sel st

def start (stored : Option V) : RowTxn V C := ⟨stored,.fresh⟩

def calls (l : List (Call t.Col t.Row C)) (st : RowTxn t.Row C) : RowTxn t.Row C := l.foldl (call p sel) st

variable (operate : C → t.Row → t.Row)

/-- What is stored under the key after the installs of the commit and their cleanup. -/
def committed (st : RowTxn t.Row C) : Option (Option t.Row) :=
  match st.stored with
  | none => some none
  | some row =>
    if st.rowItem.write ∧ st.rowItem.deleteBit then some none
    else (commitRow sel operate st.items row).map some

end

section
variable {t : Table} (sel : VerSel t.Col) {C : Type} (operate : C → t.Row → t.Row)

variable {sel}

end

section Run
variable {p : Params} {t : Table} {sel : VerSel t.Col} {C : Type}

variable (operate : C → t.Row → t.Row)

variable {st : RowTxn t.Row C} {row v : t.Row}

end Run

section

end

end AlNiCo.Sto.RowInsert
