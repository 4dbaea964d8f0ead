import AlNiCo.Sto.RowItems

/-! What a full new row changes in a table whose rows are split: the cells that are
declared as written are copied, and each copies what its own list names. -/
namespace AlNiCo.Sto
open Library.SplitRow

namespace SplitTable
variable (t : SplitTable) (accesses : List (t.value.Col × Access)) (old newRow : t.value.Row)

def updated : Option t.value.Row :=
  commitRow t.sel (fun (c : Empty) => c.elim)
    (updateRow dbDefaultParams newRow (selectSplitRow t.value t.sel dbDefaultParams accesses .fresh)) old

def Declared (c : t.value.Col) : Prop := ∃ a, (c,a) ∈ accesses ∧ a.writes = true

def Written (k : Nat) : Prop := ∃ c, t.Declared accesses c ∧ t.cell c = k

/-- The declared columns have the new values, and what lies in no written cell is kept. -/
def Faithful (row : t.value.Row) : Prop :=
  (∀ c, t.Declared accesses c → row c = newRow c) ∧ ∀ c, ¬t.Written accesses (t.cell c) → row c = old c

/-- A misplaced column is lost, or changed by the way, when only one of its two cells is
written. -/
def Touched (c : t.value.Col) : Prop :=
  (t.Declared accesses c ∧ ¬t.Written accesses (1-t.cell c)) ∨
    (¬t.Written accesses (t.cell c) ∧ t.Written accesses (1-t.cell c))

variable {t accesses}

theorem written_iff {k} : t.Written accesses k ↔ k ∈ writtenCells t.sel accesses := by
  rw [mem_writtenCells,numVersions_eq]
  constructor
  · rintro ⟨c,⟨a,hmem,hw⟩,rfl⟩
    exact ⟨t.cell_lt c,(c,a),hmem,hw,rfl⟩
  · rintro ⟨-,⟨c,a⟩,hmem,hw,hk⟩
    exact ⟨c,⟨a,hmem,hw⟩,hk⟩

/-- A column is new when the cell that copies it is written. -/
theorem updated_apply (t : SplitTable) (accesses : List (t.value.Col × Access)) (old newRow : t.value.Row) :
    ∃ row, t.updated accesses old newRow = some row ∧ ∀ c,
    (t.Written accesses (if c ∈ t.misplaced then 1-t.cell c else t.cell c) → row c = newRow c) ∧
    (¬t.Written accesses (if c ∈ t.misplaced then 1-t.cell c else t.cell c) → row c = old c) := by
  refine ⟨_,commitRow_updateRow t.sel _ _ (by rw [numVersions_eq]; decide) accesses newRow old,fun c => ?_⟩
  have hcopied : (∃ cols ∈ (writtenCells t.sel accesses).map t.sel.copied, c ∈ cols) ↔
      t.Written accesses (if c ∈ t.misplaced then 1-t.cell c else t.cell c) := by
    rw [written_iff]
    constructor
    · rintro ⟨cols,hcols,hc⟩
      obtain ⟨k,hk,rfl⟩ := List.mem_map.mp hcols
      have hlt : k < 2 := t.numVersions_eq ▸ ((mem_writtenCells t.sel).mp hk).1
      rwa [← (t.mem_copied_iff c hlt).mp hc]
    · intro hk
      have hlt := t.numVersions_eq ▸ ((mem_writtenCells t.sel).mp hk).1
      exact ⟨_,List.mem_map_of_mem hk,(t.mem_copied_iff c hlt).mpr rfl⟩
  rw [overwriteAll_apply]
  constructor
  · intro hw
    rw [if_pos (hcopied.mpr hw)]
  · intro hw
    rw [if_neg (fun h => hw (hcopied.mp h))]

/-- The update is faithful exactly when it gives no misplaced column a value that is
lost or that was not asked for. -/
theorem split_update_faithful_iff (t : SplitTable) (accesses : List (t.value.Col × Access)) (old newRow : t.value.Row) :
    (∃ row, t.updated accesses old newRow = some row ∧ t.Faithful accesses old newRow row) ↔
      ∀ c ∈ t.misplaced, t.Touched accesses c → newRow c = old c := by
  obtain ⟨row,hrow,happly⟩ := updated_apply t accesses old newRow
  constructor
  · rintro ⟨row',hrow',hdeclared,hkept⟩ c hc htouched
    obtain rfl : row = row' := Option.some.inj (hrow.symm.trans hrow')
    have hc' := happly c
    rw [if_pos hc] at hc'
    rcases htouched with ⟨hdecl,hother⟩ | ⟨hcell,hother⟩
    · rw [← hdeclared c hdecl,hc'.2 hother]
    · rw [← hc'.1 hother,hkept c hcell]
  · intro hcond
    refine ⟨row,hrow,fun c hdecl => ?_,fun c hcell => ?_⟩
    · have hwritten : t.Written accesses (t.cell c) := ⟨c,hdecl,rfl⟩
      by_cases hc : c ∈ t.misplaced
      · have hc' := happly c
        rw [if_pos hc] at hc'
        by_cases hother : t.Written accesses (1-t.cell c)
        · exact hc'.1 hother
        · rw [hc'.2 hother,hcond c hc (Or.inl ⟨hdecl,hother⟩)]
      · exact (happly c).1 (by rwa [if_neg hc])
    · by_cases hc : c ∈ t.misplaced
      · have hc' := happly c
        rw [if_pos hc] at hc'
        by_cases hother : t.Written accesses (1-t.cell c)
        · rw [hc'.1 hother,hcond c hc (Or.inr ⟨hcell,hother⟩)]
        · exact hc'.2 hother
      · exact (happly c).2 (by rwa [if_neg hc])

def someOrder (carrier : BitVec 64) : order.value.Row
  | .oCId => 1#64
  | .oEntryD => 0#32
  | .oOlCnt => 10#32
  | .oAllLocal => 1#32
  | .oCarrierId => carrier

/-- The carrier that a delivery writes into an order is lost. -/
theorem delivered_carrier_lost :
    ∃ row : order.value.Row, order.updated [(OrderColumn.oCId,.read),(OrderColumn.oOlCnt,.read),(OrderColumn.oCarrierId,.update)]
        (someOrder 0) (someOrder 5) = some row ∧
      row OrderColumn.oCarrierId = 0#64 ∧ someOrder 5 OrderColumn.oCarrierId = 5#64 := by
  obtain ⟨row,hrow,happly⟩ := updated_apply order
    [(OrderColumn.oCId,.read),(OrderColumn.oOlCnt,.read),(OrderColumn.oCarrierId,.update)] (someOrder 0) (someOrder 5)
  refine ⟨row,hrow,(happly OrderColumn.oCarrierId).2 ?_,rfl⟩
  rw [written_iff]
  decide

end SplitTable

end AlNiCo.Sto
