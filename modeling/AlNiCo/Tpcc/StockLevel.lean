import AlNiCo.Tpcc.Commute

/-! The stock-level transaction: the items that it looks up, against the items of the
last orders of the district. -/
namespace AlNiCo.Tpcc
open Sto Library

section

/-- The items of the lines that a scan visits. -/
def scannedItems (db : Db) (first boundary : OrderlineKey) : Finset (BitVec 64) :=
  ((db.orderlines.scan first boundary).filterMap (fun k =>
    (db.orderlines.get k).map (fun (ol : orderlineValue.Row) => (ol OrderlineColumn.olIId : BitVec 64)))).toFinset

/-- `ol_iids`. The scan gets the upper key first and the lower one as its boundary. -/
def olIids (db : Db) (wId dId : Nat) : Option (Finset (BitVec 64)) :=
  (db.districts (wId,dId)).map (fun dv =>
    let dNextOid : BitVec 64 := dv DistrictColumn.dNextOId
    let oidLower := if 20 < dNextOid.toNat then dNextOid.toNat-20 else 0
    let olk0 : OrderlineKey := ⟨wId,dId,oidLower,0⟩
    let olk1 : OrderlineKey := ⟨wId,dId,dNextOid.toNat,0⟩
    scannedItems db olk1 olk0)

end

section

/-- The orders of the district. -/
def districtOrders (db : Db) (wId dId : Nat) : Finset OrderKey :=
  db.orders.keys.toFinset.filter (fun k => k.wId = wId ∧ k.dId = dId)

/-- The twenty most recent ones. -/
def recentOrders (db : Db) (wId dId : Nat) : Finset OrderKey :=
  (districtOrders db wId dId).filter (fun k => ((districtOrders db wId dId).filter (k < ·)).card < 20)

/-- The items in the lines of the recent orders. -/
def recentItems (db : Db) (wId dId : Nat) : Finset (BitVec 64) :=
  (db.orderlines.keys.toFinset.filter (fun k => k.order ∈ recentOrders db wId dId)).biUnion (fun k =>
    ((db.orderlines.get k).map (fun (ol : orderlineValue.Row) => (ol OrderlineColumn.olIId : BitVec 64))).toFinset)

variable (db : Db) (wId dId : Nat)

theorem recentItems_eq_empty_iff : recentItems db wId dId = ∅ ↔ ∀ k ∈ db.orderlines.keys, k.order ∉ recentOrders db wId dId := by
  constructor
  · intro hempty k hk hrecent
    obtain ⟨ol,hol⟩ := Option.isSome_iff_exists.mp ((db.orderlines.mem_keys k).mp hk)
    have hitem : ol OrderlineColumn.olIId ∈ recentItems db wId dId :=
      Finset.mem_biUnion.mpr ⟨k,Finset.mem_filter.mpr ⟨List.mem_toFinset.mpr hk,hrecent⟩,by simp [hol]⟩
    exact absurd (hempty ▸ hitem) (Finset.notMem_empty _)
  · intro hlines
    rw [recentItems,Finset.filter_eq_empty_iff.mpr (fun k hk => hlines k (List.mem_toFinset.mp hk)),Finset.biUnion_empty]

/-- The boundary is not above the first key, so that the scan ends before it begins. -/
theorem olIids_eq : olIids db wId dId = (db.districts (wId,dId)).map (fun _ => ∅) := by
  refine congrFun (congrArg Option.map ?_) _
  funext dv
  have hboundary (n : Nat) : (⟨wId,dId,if 20 < n then n-20 else 0,0⟩ : OrderlineKey) ≤ ⟨wId,dId,n,0⟩ := by
    have hle : (if 20 < n then n-20 else 0) ≤ n := by split <;> omega
    rcases hle.lt_or_eq with hlt | heq
    · simp [OrderlineKey.le_def,Prod.Lex.toLex_le_toLex,hlt]
    · rw [heq]
  simp only [scannedItems,OrderedIndex.scan_eq_nil _ (hboundary _),List.filterMap_nil,List.toFinset_nil]

end

/-- The transaction inspects nothing. That is what it should inspect only while the
recent orders have no lines. -/
theorem stock_level_items_iff (db : Db) (wId dId : Nat) :
    olIids db wId dId = some (recentItems db wId dId) ↔
      (db.districts (wId,dId)).isSome ∧ ∀ k ∈ db.orderlines.keys, k.order ∉ recentOrders db wId dId := by
  rw [← recentItems_eq_empty_iff,olIids_eq,Option.map_eq_some_iff,Option.isSome_iff_exists]
  constructor
  · rintro ⟨dv,hdv,hempty⟩
    exact ⟨⟨dv,hdv⟩,hempty.symm⟩
  · rintro ⟨⟨dv,hdv⟩,hempty⟩
    exact ⟨dv,hdv,hempty.symm⟩

section

def someStock : stockValue.Row
  | .sDists => Vector.replicate _ (Vector.replicate _ 0)
  | .sData => ⟨[],Nat.zero_le _⟩
  | .sQuantity => 50
  | .sYtd | .sOrderCnt | .sRemoteCnt => 0

/-- The warehouse has item 7 in stock. -/
def stockedDb : Db :=
  { someDb with
    items := Function.update (fun _ => none) 7 (some ⟨1,100⟩)
    stocks := Function.update (fun _ => none) (1,7) (some someStock) }

def someNewOrder : NewOrder := ⟨1,1,1,0,[⟨7,1,5⟩]⟩

/-- After the first new-order of a district, item 7 is not inspected. -/
theorem stock_level_misses_last_order : ∃ db : Db,
    (Txn.newOrder someNewOrder).outcome .fineGrained false 0 stockedDb = some db ∧
      olIids db 1 1 = some ∅ ∧ 7#64 ∈ recentItems db 1 1 := by
  refine ⟨_,rfl,?_,?_⟩
  · rw [olIids_eq]
    rfl
  · decide +kernel

end

end AlNiCo.Tpcc
