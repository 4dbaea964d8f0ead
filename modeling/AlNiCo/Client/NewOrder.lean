import AlNiCo.Client.Procedures

/-! `new_order_procedure`: the loop that draws items and suppliers until it has as
many different stocks as the order has lines. -/
namespace AlNiCo.Client.NewOrder
open Library.ByteMemory List Option

def Item : Type := { item : BitVec 32 // 1 ≤ item.toNat ∧ item.toNat ≤ 100000 }

theorem signExtend_item (item : Item) : item.val.signExtend 64 = item.val.setWidth 64 := by
  obtain ⟨item,hlo,hhi⟩ := item
  exact BitVec.signExtend_eq_setWidth_of_msb_false (BitVec.msb_eq_false_iff_two_mul_lt.mpr (by dsimp only; omega))

/-- A stock key has 32 bits, which is room for 42000 warehouses. -/
def Warehouse : Type := { w : BitVec 32 // w.toNat ≤ 42000 }

theorem signExtend_warehouse (w : Warehouse) : w.val.signExtend 64 = w.val.setWidth 64 := by
  obtain ⟨w,hw⟩ := w
  exact BitVec.signExtend_eq_setWidth_of_msb_false (BitVec.msb_eq_false_iff_two_mul_lt.mpr (by dsimp only; omega))

/-- What one turn of the loop draws; in the remote case the suppliers of the inner
loop, which stops at the first that is not the home warehouse. -/
inductive Draw
  | home (item : Item) (quantity : BitVec 32)
  | remote (item : Item) (quantity : BitVec 32) (suppliers : List Warehouse)

structure Line where
  item : Item
  supplier : Warehouse

structure Order where
  tx : Tx
  stockSet : List (BitVec 64)
  lines : List Line
  allLocal : Bool

/-- The inner loop: the supplier, the stock set and whether there was a conflict. -/
def remoteSupplier (w : Warehouse) (item : Item) :
    List Warehouse → List (BitVec 64) → Bool → Option (Warehouse × List (BitVec 64) × Bool)
  | [],_,_ => none
  | supplier :: suppliers,stockSet,conflict =>
    let key := makeStockKey supplier.val item.val
    let conflict' := conflict || decide (key ∈ stockSet)
    let stockSet' := if key ∈ stockSet then stockSet else key :: stockSet
    if supplier.val = w.val then remoteSupplier w item suppliers stockSet' conflict' else some (supplier,stockSet',conflict')

namespace Order
variable (o : Order)

def add (item : Item) (supplier : Warehouse) (quantity : BitVec 32) : Order :=
  let tx := ((o.tx.addToArgs item.val).addToArgs supplier.val).addToArgs quantity
  { o with
    tx := (tx.addToWritef 7 (item.val.signExtend 64)).addToWritef 8 (makeStockKey supplier.val item.val)
    lines := o.lines ++ [⟨item,supplier⟩] }

def turn (w : Warehouse) : Draw → Option Order
  | .home item quantity =>
    let key := makeStockKey w.val item.val
    if key ∈ o.stockSet then some o else some ({ o with stockSet := key :: o.stockSet }.add item w quantity)
  | .remote item quantity suppliers =>
    (remoteSupplier w item suppliers o.stockSet false).map (fun (supplier,stockSet,conflict) =>
      let o := { o with stockSet := stockSet, allLocal := false }
      if conflict then o else o.add item supplier quantity)

end Order

def fill (w : Warehouse) (numItems : Nat) : List Draw → Order → Option Order
  | [],o => if o.lines.length = numItems then some o else none
  | draw :: draws,o => if o.lines.length = numItems then some o else (o.turn w draw).bind (fill w numItems draws)

def prologue (tx : Tx) (w : Warehouse) (d c : BitVec 32) (numItems : Nat) : Tx :=
  let tx := tx.begin.addToWritef 2 (makeCustomerKey w.val d c)
  let tx := tx.addToWritef 0 (w.val.setWidth 64)
  let tx := tx.addToWritef 1 (makeDistrictKey w.val d)
  (((tx.addToArgs w.val).addToArgs d).addToArgs c).addToArgs (BitVec.ofNat 32 numItems)

/-- The order of the request, if the draws are enough. -/
def newOrderProcedure (tx : Tx) (w : Warehouse) (d c : BitVec 32) (numItems : Nat) (draws : List Draw) : Option Order :=
  fill w numItems draws ⟨prologue tx w d c numItems,[],[],true⟩

section Lines
variable {tx : Tx} {w : Warehouse} {d c : BitVec 32} {numItems : Nat} {o o' : Order}

def Line.keys (l : Line) : List TxKey := [⟨7,l.item.val.signExtend 64⟩,⟨8,makeStockKey l.supplier.val l.item.val⟩]

def Filled (w : Warehouse) (d c : BitVec 32) (numItems : Nat) (o : Order) : Prop :=
  o.lines.length ≤ numItems ∧ ∃ quantities : List (BitVec 32), quantities.length = o.lines.length ∧
    Holds o.tx (⟨2,makeCustomerKey w.val d c⟩ :: ⟨0,w.val.setWidth 64⟩ :: ⟨1,makeDistrictKey w.val d⟩ :: o.lines.flatMap Line.keys)
      (w.val :: d :: c :: BitVec.ofNat 32 numItems ::
        (o.lines.zip quantities).flatMap (fun x => [x.1.item.val,x.1.supplier.val,x.2]))

theorem filled_start (tx : Tx) (w : Warehouse) (d c : BitVec 32) (numItems : Nat) :
    Filled w d c numItems ⟨prologue tx w d c numItems,[],[],true⟩ := by
  refine ⟨Nat.zero_le _,[],rfl,?_⟩
  exact ((((((Holds.begin tx).addToWritef 2 _).addToWritef 0 _).addToWritef 1 _).addToArgs _).addToArgs _).addToArgs _
    |>.addToArgs _

theorem Filled.add (h : Filled w d c numItems o) (hlt : o.lines.length < numItems) (item : Item) (supplier : Warehouse)
    (quantity : BitVec 32) : Filled w d c numItems (o.add item supplier quantity) := by
  obtain ⟨-,quantities,hlen,hold⟩ := h
  refine ⟨by simpa [Order.add] using hlt,quantities ++ [quantity],by simp [Order.add,hlen],?_⟩
  have hnew := (((((hold.addToArgs item.val).addToArgs supplier.val).addToArgs quantity).addToWritef 7
    (item.val.signExtend 64)).addToWritef 8 (makeStockKey supplier.val item.val))
  have hzip : (o.lines ++ [(⟨item,supplier⟩ : Line)]).zip (quantities ++ [quantity]) =
      o.lines.zip quantities ++ [((⟨item,supplier⟩ : Line),quantity)] := zip_append hlen.symm
  simpa [Order.add,hzip,Line.keys] using hnew

theorem Filled.turn (h : Filled w d c numItems o) (hlt : o.lines.length < numItems) {draw}
    (hturn : o.turn w draw = some o') : Filled w d c numItems o' := by
  cases draw with
  | home item quantity =>
    simp only [Order.turn] at hturn
    split at hturn
    · rwa [← some.inj hturn]
    · rw [← some.inj hturn]
      exact Filled.add (o := { o with stockSet := _ :: o.stockSet }) h hlt item w quantity
  | remote item quantity suppliers =>
    simp only [Order.turn,map_eq_some_iff] at hturn
    obtain ⟨⟨supplier,stockSet,conflict⟩,-,hturn⟩ := hturn
    cases conflict with
    | true =>
      rw [← hturn]
      exact h
    | false =>
      rw [← hturn]
      exact Filled.add (o := { o with stockSet := stockSet, allLocal := false }) h hlt item supplier quantity

theorem Filled.fill {draws} (h : Filled w d c numItems o) (hfill : fill w numItems draws o = some o') :
    Filled w d c numItems o' ∧ o'.lines.length = numItems := by
  induction draws generalizing o with
  | nil =>
    rw [NewOrder.fill] at hfill
    split at hfill
    · next hlen => exact ⟨some.inj hfill ▸ h,some.inj hfill ▸ hlen⟩
    · cases hfill
  | cons draw draws ih =>
    rw [NewOrder.fill] at hfill
    split at hfill
    · next hlen => exact ⟨some.inj hfill ▸ h,some.inj hfill ▸ hlen⟩
    · next hlen =>
      obtain ⟨o1,hturn,hrest⟩ := bind_eq_some_iff.mp hfill
      exact ih (h.turn (lt_of_le_of_ne h.1 hlen) hturn) hrest

/-- Every order that is built is in the buffers of its transaction. -/
theorem filled_of_procedure {draws} (h : newOrderProcedure tx w d c numItems draws = some o) :
    Filled w d c numItems o ∧ o.lines.length = numItems :=
  (filled_start tx w d c numItems).fill h

theorem length_flatMap_keys (lines : List Line) : (lines.flatMap Line.keys).length = 2*lines.length := by
  induction lines with
  | nil => rfl
  | cons l lines ih =>
    simp only [flatMap_cons,length_append,length_cons,ih,Line.keys,length_nil]
    omega

theorem Filled.counts (h : Filled w d c numItems o) : o.tx.mainReadCount = 2*o.lines.length+3 ∧ o.tx.argsCount = 3*o.lines.length+4 := by
  obtain ⟨-,quantities,hquantities,hold⟩ := h
  rw [hold.count,hold.argsCount]
  refine ⟨by simp only [length_cons,length_flatMap_keys],?_⟩
  simp [hquantities]
  omega

theorem getElem?_flatMap_of_length {α β : Type} {f : α → List β} {n : Nat} (hf : ∀ a, (f a).length = n) (l : List α)
    (k : Nat) {j : Nat} (hj : j < n) : (l.flatMap f)[n*k+j]? = l[k]?.bind (fun a => (f a)[j]?) := by
  induction l generalizing k with
  | nil => rfl
  | cons a l ih =>
    have hlen := hf a
    rw [flatMap_cons]
    cases k with
    | zero =>
      rw [getElem?_append_left (by omega)]
      simp
    | succ k =>
      rw [Nat.mul_succ,getElem?_append_right (by omega),hlen,show n*k+n+j-n = n*k+j by omega,ih k,getElem?_cons_succ]

theorem getElem?_flatMap_keys (lines : List Line) (k : Nat) {j} (hj : j < 2) :
    (lines.flatMap Line.keys)[2*k+j]? = lines[k]?.bind (fun l => l.keys[j]?) :=
  getElem?_flatMap_of_length (f := Line.keys) (fun _ => rfl) lines k hj

end Lines

end AlNiCo.Client.NewOrder
