import AlNiCo.Client.Requests
import AlNiCo.Host.NewOrder

/-! The requests of one client slot, one after another. The buffers and the member
`warehouse_id` stay from one transaction to the next; what of them shows in the keys and
features of a later request. -/
namespace AlNiCo.Client.History
open Library.ByteMemory NewOrder List Option BitVec

def District : Type := { d : BitVec 32 // 1 ≤ d.toNat ∧ d.toNat ≤ 10 }

inductive Params
  | newOrder (w : Warehouse) (d : District) (c : BitVec 32) (numItems : Nat) (draws : List Draw)
  | payment (w : Warehouse) (d : District) (isHome : Bool) (warehouses : List Warehouse) (district : District) (c : BitVec 64)
  | orderStatus (w : Warehouse) (d : District) (byName : Bool) (c : BitVec 64)
  | stockLevel (w : Warehouse) (d : District)
  | delivery (w : Warehouse)

/-- The procedure that runs, in a slot with this `warehouse_id`. -/
def Params.procedure (warehouseId : BitVec 32) : Params → Procedure
  | .newOrder w d c numItems draws => .newOrder w d.val c numItems draws
  | .payment w d isHome warehouses district c => .payment (w.val.setWidth 64) (d.val.setWidth 64) isHome
    (warehouses.map (fun w => w.val.setWidth 64)) (district.val.setWidth 64) c
  | .orderStatus w d byName c => .orderStatus (w.val.setWidth 64) (d.val.setWidth 64) byName c
  | .stockLevel w d => .stockLevel (w.val.setWidth 64) (d.val.setWidth 64)
  | .delivery w => .delivery warehouseId (w.val.setWidth 64)

def Params.warehouseId (old : BitVec 32) : Params → BitVec 32
  | .newOrder w .. => w.val
  | .payment w .. => w.val
  | _ => old

structure Slot where
  tx : Tx
  warehouseId : BitVec 32

def Slot.generateTx (s : Slot) (p : Params) : Option Slot :=
  (tpccProcedure s.tx (p.procedure s.warehouseId)).map (fun tx => ⟨tx,p.warehouseId s.warehouseId⟩)

def Slot.run : List Params → Slot → Option Slot
  | [],s => some s
  | p :: ps,s => (s.generateTx p).bind (run ps)

def lastWarehouse (start : BitVec 32) (history : List Params) : BitVec 32 := history.foldl Params.warehouseId start

theorem run_warehouseId {history : List Params} {s t : Slot} (h : s.run history = some t) :
    t.warehouseId = lastWarehouse s.warehouseId history := by
  induction history generalizing s with
  | nil => rw [← some.inj h]; rfl
  | cons p history ih =>
    obtain ⟨u,hgen,hrest⟩ := bind_eq_some_iff.mp h
    obtain ⟨tx,-,rfl⟩ := map_eq_some_iff.mp hgen
    exact ih hrest

section

def keyList (tx : Tx) : List TxKey :=
  (List.range tx.mainReadCount).map (fun k => ⟨load 8 tx.mainRead (16*k),load 8 tx.mainRead (16*k+8)⟩)

def argList (tx : Tx) : List (BitVec 32) := (List.range tx.argsCount).map (fun k => word tx.args (4*k))

def featuresOf (keys : List TxKey) : Memory := keys.foldl (fun feature key => setFeature feature (hashK2f key)) (fun _ => 0)

variable {tx tx' : Tx} {keys : List TxKey} {args : List (BitVec 32)}

theorem keyList_eq (h : Holds tx keys args) : keyList tx = keys := by
  apply List.ext_getElem?
  intro k
  rw [keyList,List.getElem?_map,h.count]
  by_cases hk : k < keys.length
  · obtain ⟨hfirst,hsecond⟩ := h.keys k keys[k] (List.getElem?_eq_getElem hk)
    rw [List.getElem?_range hk,List.getElem?_eq_getElem hk,Option.map_some,hfirst,hsecond]
  · rw [List.getElem?_eq_none (by simpa using hk),List.getElem?_eq_none (by simpa using hk),Option.map_none]

theorem argList_eq (h : Holds tx keys args) : argList tx = args := by
  apply List.ext_getElem?
  intro k
  rw [argList,List.getElem?_map,h.argsCount]
  by_cases hk : k < args.length
  · rw [List.getElem?_range hk,List.getElem?_eq_getElem hk,Option.map_some,h.args k args[k] (List.getElem?_eq_getElem hk)]
  · rw [List.getElem?_eq_none (by simpa using hk),List.getElem?_eq_none (by simpa using hk),Option.map_none]

/-- Keys and arguments are in the buffers, and the features are those of the keys. -/
structure Written (tx : Tx) (keys : List TxKey) (args : List (BitVec 32)) : Prop where
  holds : Holds tx keys args
  feature : tx.feature = featuresOf keys

theorem Written.begin (tx : Tx) : Written tx.begin [] [] := ⟨.begin tx,rfl⟩

theorem Written.addToArgs (h : Written tx keys args) (value : BitVec 32) : Written (tx.addToArgs value) keys (args ++ [value]) :=
  ⟨h.holds.addToArgs value,h.feature⟩

theorem Written.addToWritef (h : Written tx keys args) (table : Nat) (key : BitVec 64) :
    Written (tx.addToWritef table key) (keys ++ [⟨BitVec.ofNat 64 table,key⟩]) args := by
  refine ⟨h.holds.addToWritef table key,?_⟩
  rw [Tx.addToWritef,h.feature,featuresOf,featuresOf,foldl_append]
  rfl

theorem Written.foldl_addToArgs (h : Written tx keys args) (values : List (BitVec 32)) :
    Written (values.foldl Tx.addToArgs tx) keys (args ++ values) := by
  induction values generalizing tx args with
  | nil => rwa [append_nil]
  | cons value values ih =>
    rw [foldl_cons,show args ++ value :: values = (args ++ [value]) ++ values by simp]
    exact ih (h.addToArgs value)

/-- The same keys, arguments and features, whatever else is in the buffers. -/
def Alike (tx tx' : Tx) : Prop := ∃ keys args, Written tx keys args ∧ Written tx' keys args

section
variable (h : Alike tx tx')
include h

theorem Alike.addToArgs (value : BitVec 32) : Alike (tx.addToArgs value) (tx'.addToArgs value) := by
  obtain ⟨keys,args,htx,htx'⟩ := h
  exact ⟨keys,_,htx.addToArgs value,htx'.addToArgs value⟩

theorem Alike.addToWritef (table : Nat) (key : BitVec 64) : Alike (tx.addToWritef table key) (tx'.addToWritef table key) := by
  obtain ⟨keys,args,htx,htx'⟩ := h
  exact ⟨_,args,htx.addToWritef table key,htx'.addToWritef table key⟩

theorem Alike.keyList_eq : keyList tx = keyList tx' := by
  obtain ⟨keys,args,htx,htx'⟩ := h
  rw [History.keyList_eq htx.holds,History.keyList_eq htx'.holds]

theorem Alike.feature_eq : tx.feature = tx'.feature := by
  obtain ⟨keys,args,htx,htx'⟩ := h
  rw [htx.feature,htx'.feature]

end

end

section
variable {o o' r r' : Order} {w : Warehouse} {numItems : Nat} {draws : List Draw}

structure OrdersAlike (o o' : Order) : Prop where
  lines : o.lines = o'.lines
  stockSet : o.stockSet = o'.stockSet
  tx : Alike o.tx o'.tx

theorem OrdersAlike.add (h : OrdersAlike o o') (item : Item) (supplier : Warehouse) (quantity : BitVec 32) :
    OrdersAlike (o.add item supplier quantity) (o'.add item supplier quantity) :=
  ⟨congrArg (· ++ [_]) h.lines,h.stockSet,((((h.tx.addToArgs _).addToArgs _).addToArgs _).addToWritef 7 _).addToWritef 8 _⟩

theorem OrdersAlike.turn {draw} (h : OrdersAlike o o') (hr : o.turn w draw = some r) (hr' : o'.turn w draw = some r') :
    OrdersAlike r r' := by
  cases draw with
  | home item quantity =>
    simp only [Order.turn,← h.stockSet] at hr hr'
    split at hr
    · next hmem =>
      rw [if_pos hmem] at hr'
      rwa [← some.inj hr,← some.inj hr']
    · next hmem =>
      rw [if_neg hmem] at hr'
      have hinsert : OrdersAlike { o with stockSet := makeStockKey w.val item.val :: o.stockSet }
          { o' with stockSet := makeStockKey w.val item.val :: o.stockSet } := ⟨h.lines,rfl,h.tx⟩
      rw [← some.inj hr,← some.inj hr']
      exact hinsert.add item w quantity
  | remote item quantity suppliers =>
    simp only [Order.turn,← h.stockSet,map_eq_some_iff] at hr hr'
    obtain ⟨⟨supplier,stockSet,conflict⟩,hdraw,hr⟩ := hr
    obtain ⟨drawn,hdraw',hr'⟩ := hr'
    obtain rfl := some.inj (hdraw.symm.trans hdraw')
    have hdrawn : OrdersAlike { o with stockSet := stockSet, allLocal := false }
        { o' with stockSet := stockSet, allLocal := false } := ⟨h.lines,rfl,h.tx⟩
    rw [← hr,← hr']
    cases conflict with
    | true => exact hdrawn
    | false => exact hdrawn.add item supplier quantity

theorem OrdersAlike.fill (h : OrdersAlike o o') (hr : fill w numItems draws o = some r)
    (hr' : fill w numItems draws o' = some r') : OrdersAlike r r' := by
  induction draws generalizing o o' with
  | nil =>
    rw [NewOrder.fill] at hr hr'
    split at hr
    · next hlen =>
      rw [if_pos (h.lines ▸ hlen)] at hr'
      rwa [← some.inj hr,← some.inj hr']
    · cases hr
  | cons draw draws ih =>
    rw [NewOrder.fill] at hr hr'
    split at hr
    · next hlen =>
      rw [if_pos (h.lines ▸ hlen)] at hr'
      rwa [← some.inj hr,← some.inj hr']
    · next hlen =>
      rw [if_neg (h.lines ▸ hlen)] at hr'
      obtain ⟨o1,hturn,hrest⟩ := bind_eq_some_iff.mp hr
      obtain ⟨o1',hturn',hrest'⟩ := bind_eq_some_iff.mp hr'
      exact ih (h.turn hturn hturn') hrest hrest'

theorem newOrder_alike {tx tx' d c} (hr : newOrderProcedure tx w d c numItems draws = some r)
    (hr' : newOrderProcedure tx' w d c numItems draws = some r') : OrdersAlike r r' := by
  have hbegin : Alike tx.begin tx'.begin := ⟨[],[],.begin tx,.begin tx'⟩
  have hprologue : OrdersAlike ⟨prologue tx w d c numItems,[],[],true⟩ ⟨prologue tx' w d c numItems,[],[],true⟩ :=
    ⟨rfl,rfl,((((((hbegin.addToWritef 2 _).addToWritef 0 _).addToWritef 1 _).addToArgs _).addToArgs _).addToArgs _).addToArgs _⟩
  exact hprologue.fill hr hr'

end

section
variable {tx tx' : Tx}

theorem written_payment {qWId qDId district c isHome warehouses}
    (h : paymentProcedure tx qWId qDId isHome warehouses district c = some tx') :
    ∃ args, args[0]? = some (qWId.setWidth 32) ∧ Written tx' [⟨1,makeDistrictKey (qWId.setWidth 32) (qDId.setWidth 32)⟩] args := by
  obtain ⟨⟨w,d⟩,-,rfl⟩ := map_eq_some_iff.mp h
  exact ⟨_,rfl,((Written.begin tx).addToWritef 1 _).foldl_addToArgs _⟩

theorem written_orderStatus (qWId qDId customer : BitVec 64) (byName : Bool) :
    ∃ args, args[0]? = some (qWId.setWidth 32) ∧ Written (orderStatus tx qWId qDId byName customer)
      [⟨1,makeDistrictKey (qWId.setWidth 32) (qDId.setWidth 32)⟩] args :=
  ⟨_,rfl,((Written.begin tx).addToWritef 1 _).foldl_addToArgs _⟩

theorem written_stockLevel (qWId qDId : BitVec 64) : ∃ args, args[0]? = some (qWId.setWidth 32) ∧ Written (stockLevel tx qWId qDId)
      [⟨1,makeDistrictKey (qWId.setWidth 32) (qDId.setWidth 32)⟩] args :=
  ⟨_,rfl,((Written.begin tx).addToWritef 1 _).foldl_addToArgs _⟩

theorem written_delivery (warehouseId : BitVec 32) (qWId : BitVec 64) :
    Written (delivery tx warehouseId qWId) [⟨0,warehouseId.setWidth 64⟩] [qWId.setWidth 32] :=
  ((Written.begin tx).addToWritef 0 _).addToArgs _

end

section Warehouses

def districtKeyToWare (key : BitVec 64) : BitVec 32 :=
  if key % 10 = 0 then (key/10-1).setWidth 32 else (key/10).setWidth 32

def customerKeyToWare (key : BitVec 64) : BitVec 32 :=
  let upper := (key >>> 32).setWidth 32
  if upper % 10 = 0 then upper/10-1 else upper/10

/-- The warehouse that a key names; an item names none. -/
def ware (key : TxKey) : Option (BitVec 32) :=
  if key.first = 0 then some (key.second.setWidth 32)
  else if key.first = 1 then some (districtKeyToWare key.second)
  else if key.first = 2 then some (customerKeyToWare key.second)
  else if key.first = 8 then some (Host.Message.stockKeyToWare key.second)
  else none

/-- Where the arguments of a request have warehouses. -/
def Params.warehousePositions : Params → List Nat
  | .newOrder _ _ _ numItems _ => 0 :: (List.range numItems).map (fun i => 5+3*i)
  | .payment .. => [0,2]
  | _ => [0]

/-- Every warehouse of the key list is a warehouse of the argument list. -/
def WarehousesNamed (p : Params) (tx : Tx) : Prop :=
  ∀ key ∈ keyList tx, ∀ w, ware key = some w → ∃ i ∈ p.warehousePositions, (argList tx)[i]? = some w

/-- District 10 of a warehouse has the quotient of the next one. -/
theorem quotient_toNat {n w d} (key : BitVec n) (hten : (10 : BitVec n).toNat = 10)
    (hone : (1 : BitVec n).toNat = 1) (hlo : 1 ≤ d) (hhi : d ≤ 10) (hkey : key.toNat = 10*w+d) :
    (if key % 10 = 0 then key/10-1 else key/10).toNat = w := by
  have hdiv : (key/10).toNat = (10*w+d)/10 := by rw [toNat_udiv,hkey,hten]
  have hmod : (key % 10).toNat = (10*w+d) % 10 := by rw [toNat_umod,hkey,hten]
  split
  · next h =>
    rw [h,show (0 : BitVec n).toNat = 0 from toNat_zero] at hmod
    have hle : (1 : BitVec n) ≤ key/10 := by rw [le_def,hone,hdiv]; omega
    rw [toNat_sub_of_le hle,hone,hdiv]
    omega
  · next h =>
    have hne : (key % 10).toNat ≠ 0 := fun h0 => h (eq_of_toNat_eq (h0.trans toNat_zero.symm))
    rw [hdiv]
    omega

variable (w : Warehouse) (d : District)

private theorem ten_mul_add : (w.val*10+d.val).toNat = 10*w.val.toNat+d.val.toNat := by
  have hw := w.property
  have hd := d.property
  rw [toNat_add,toNat_mul]
  change (w.val.toNat*10 % 2^32+d.val.toNat) % 2^32 = 10*w.val.toNat+d.val.toNat
  omega

theorem districtKeyToWare_make : districtKeyToWare (makeDistrictKey w.val d.val) = w.val := by
  have hw := w.property
  have hd := d.property
  have hkey : (makeDistrictKey w.val d.val).toNat = 10*w.val.toNat+d.val.toNat := by
    rw [makeDistrictKey,toNat_setWidth,add_comm,ten_mul_add,Nat.mod_eq_of_lt (by omega)]
  apply eq_of_toNat_eq
  rw [districtKeyToWare,← apply_ite (BitVec.setWidth 32),toNat_setWidth,
    quotient_toNat _ rfl rfl hd.1 hd.2 hkey,Nat.mod_eq_of_lt w.val.isLt]

theorem customerKeyToWare_make (c : BitVec 32) : customerKeyToWare (makeCustomerKey w.val d.val c) = w.val := by
  have hd := d.property
  have hupper : ((makeCustomerKey w.val d.val c >>> 32).setWidth 32 : BitVec 32) = w.val*10+d.val := by
    rw [makeCustomerKey]
    ext i hi
    simp [show 32+i < 64 by omega,show i < 64 by omega,getLsbD_eq_getElem hi]
  apply eq_of_toNat_eq
  rw [customerKeyToWare,hupper]
  exact quotient_toNat _ rfl rfl hd.1 hd.2 (ten_mul_add w d)

variable {tx tx' : Tx}

private theorem named_district {p : Params} {w : Warehouse} {d : District} (hp : 0 ∈ p.warehousePositions)
    (h : ∃ args, args[0]? = some ((w.val.setWidth 64).setWidth 32) ∧
      Written tx [⟨1,makeDistrictKey ((w.val.setWidth 64).setWidth 32) ((d.val.setWidth 64).setWidth 32)⟩] args) :
    WarehousesNamed p tx := by
  obtain ⟨args,hfirst,hwritten⟩ := h
  rw [setWidth_setWidth_of_le _ (by decide),setWidth_eq] at hfirst hwritten
  rw [setWidth_setWidth_of_le _ (by decide),setWidth_eq] at hwritten
  intro key hkey v hv
  rw [keyList_eq hwritten.holds,mem_singleton] at hkey
  subst hkey
  refine ⟨0,hp,?_⟩
  rw [argList_eq hwritten.holds,hfirst,← hv]
  exact congrArg some (districtKeyToWare_make w d).symm

/-- A new-order names its own warehouse and its suppliers. -/
theorem named_newOrder {w d c numItems draws o} (h : newOrderProcedure tx w d.val c numItems draws = some o) :
    WarehousesNamed (.newOrder w d c numItems draws) o.tx := by
  obtain ⟨⟨-,quantities,hquantities,hold⟩,hlen⟩ := filled_of_procedure h
  intro key hkey v hv
  rw [keyList_eq hold] at hkey
  rw [argList_eq hold]
  have hhome (hvw : some v = some w.val) : ∃ i ∈ (Params.newOrder w d c numItems draws).warehousePositions,
      (w.val :: d.val :: c :: BitVec.ofNat 32 numItems ::
        (o.lines.zip quantities).flatMap (fun x => [x.1.item.val,x.1.supplier.val,x.2]))[i]? = some v :=
    ⟨0,List.mem_cons_self,hvw.symm⟩
  rcases List.mem_cons.mp hkey with rfl | hkey
  · exact hhome (hv.symm.trans (congrArg some (customerKeyToWare_make w d c)))
  rcases List.mem_cons.mp hkey with rfl | hkey
  · refine hhome (hv.symm.trans (congrArg some ?_))
    rw [BitVec.setWidth_setWidth_of_le _ (by decide),BitVec.setWidth_eq]
  rcases List.mem_cons.mp hkey with rfl | hkey
  · exact hhome (hv.symm.trans (congrArg some (districtKeyToWare_make w d)))
  obtain ⟨line,hline,hkey⟩ := List.mem_flatMap.mp hkey
  obtain ⟨k,hk,rfl⟩ := List.mem_iff_getElem.mp hline
  rcases List.mem_cons.mp hkey with rfl | hkey
  · -- an item is in no warehouse
    cases hv
  rw [List.mem_singleton] at hkey
  subst hkey
  have hv := hv.symm.trans (congrArg some (Host.Message.stockKeyToWare_makeStockKey o.lines[k].supplier o.lines[k].item))
  refine ⟨5+3*k,List.mem_cons_of_mem _ (List.mem_map.mpr ⟨k,List.mem_range.mpr (hlen ▸ hk),rfl⟩),?_⟩
  have hzip : (o.lines.zip quantities)[k]? = some (o.lines[k],quantities[k]) := by
    rw [List.getElem?_eq_getElem (by rw [List.length_zip]; omega),List.getElem_zip]
  have hsupplier := getElem?_flatMap_of_length (f := fun x : Line × BitVec 32 => [x.1.item.val,x.1.supplier.val,x.2])
    (fun _ => rfl) (o.lines.zip quantities) k (show 1 < 3 by decide)
  rw [hzip] at hsupplier
  rw [show 5+3*k = 3*k+1+4 by omega]
  simp only [List.getElem?_cons_succ]
  exact hsupplier.trans hv.symm

theorem named_delivery_iff {w warehouseId} :
    WarehousesNamed (.delivery w) (delivery tx warehouseId (w.val.setWidth 64)) ↔ warehouseId = w.val := by
  have hwritten : Written (delivery tx warehouseId (w.val.setWidth 64)) _ _ := written_delivery warehouseId _
  have hkey : ware ⟨0,warehouseId.setWidth 64⟩ = some warehouseId := by
    change some ((warehouseId.setWidth 64).setWidth 32) = _
    rw [setWidth_setWidth_of_le _ (by decide),setWidth_eq]
  rw [setWidth_setWidth_of_le _ (by decide),setWidth_eq] at hwritten
  rw [WarehousesNamed,keyList_eq hwritten.holds,argList_eq hwritten.holds]
  constructor
  · intro h
    obtain ⟨i,hi,hw⟩ := h _ (mem_singleton_self _) warehouseId hkey
    obtain rfl := mem_singleton.mp hi
    exact (some.inj hw).symm
  · rintro rfl key hmem v hv
    obtain rfl := mem_singleton.mp hmem
    exact ⟨0,mem_singleton_self _,hkey.symm.trans hv⟩

end Warehouses

section
variable {p : Params} {s s' t t' u u' : Slot} {history history' : List Params}

/-- Apart from deliveries, a request is built of its own draws. -/
theorem generated_alike (hu : t.generateTx p = some u) (hu' : t'.generateTx p = some u')
    (hp : ∀ w, p = .delivery w → t.warehouseId = t'.warehouseId) : Alike u.tx u'.tx := by
  obtain ⟨tx,htx,rfl⟩ := map_eq_some_iff.mp hu
  obtain ⟨tx',htx',rfl⟩ := map_eq_some_iff.mp hu'
  cases p with
  | newOrder w d c numItems draws =>
    obtain ⟨o,ho,rfl⟩ := map_eq_some_iff.mp htx
    obtain ⟨o',ho',rfl⟩ := map_eq_some_iff.mp htx'
    exact (newOrder_alike ho ho').tx
  | payment w d isHome warehouses district c =>
    obtain ⟨customer,hcustomer,rfl⟩ := map_eq_some_iff.mp htx
    obtain ⟨customer',hcustomer',rfl⟩ := map_eq_some_iff.mp htx'
    obtain rfl := some.inj (hcustomer.symm.trans hcustomer')
    exact ⟨_,_,((Written.begin t.tx).addToWritef 1 _).foldl_addToArgs _,((Written.begin t'.tx).addToWritef 1 _).foldl_addToArgs _⟩
  | orderStatus | stockLevel =>
    rw [← some.inj htx,← some.inj htx']
    exact ⟨_,_,((Written.begin t.tx).addToWritef 1 _).foldl_addToArgs _,((Written.begin t'.tx).addToWritef 1 _).foldl_addToArgs _⟩
  | delivery w =>
    rw [← some.inj htx,← some.inj htx',← hp w rfl]
    exact ⟨_,_,written_delivery _ _,written_delivery _ _⟩

theorem generated_named (hu : t.generateTx p = some u) (hp : ∀ w, p = .delivery w → t.warehouseId = w.val) : WarehousesNamed p u.tx := by
  obtain ⟨tx,htx,rfl⟩ := map_eq_some_iff.mp hu
  cases p with
  | newOrder w d c numItems draws =>
    obtain ⟨o,ho,rfl⟩ := map_eq_some_iff.mp htx
    exact named_newOrder ho
  | payment w d isHome warehouses district c =>
    exact named_district mem_cons_self (written_payment htx)
  | orderStatus w d byName c =>
    rw [← some.inj htx]
    exact named_district mem_cons_self (written_orderStatus ..)
  | stockLevel w d =>
    rw [← some.inj htx]
    exact named_district mem_cons_self (written_stockLevel ..)
  | delivery w =>
    rw [← some.inj htx]
    exact named_delivery_iff.mpr (hp w rfl)

/-- Two runs of a slot that draw the same for their current transaction send the same keys
and features, and name no warehouse outside of the arguments, exactly if that transaction
is no delivery or both slots were left with its warehouse. -/
theorem request_of_draws_iff (p : Params) (s s' t t' u u' : Slot) (history history' : List Params)
    (hrun : s.run history = some t) (hrun' : s'.run history' = some t')
    (hu : t.generateTx p = some u) (hu' : t'.generateTx p = some u') :
    (keyList u.tx = keyList u'.tx ∧ slice u.tx.feature 0 64 = slice u'.tx.feature 0 64 ∧
      WarehousesNamed p u.tx ∧ WarehousesNamed p u'.tx) ↔
    ∀ w, p = .delivery w → lastWarehouse s.warehouseId history = w.val ∧ lastWarehouse s'.warehouseId history' = w.val := by
  rw [← run_warehouseId hrun,← run_warehouseId hrun']
  constructor
  · rintro ⟨-,-,hnamed,hnamed'⟩ w rfl
    obtain ⟨tx,htx,rfl⟩ := Option.map_eq_some_iff.mp hu
    obtain ⟨tx',htx',rfl⟩ := Option.map_eq_some_iff.mp hu'
    obtain rfl := Option.some.inj htx
    obtain rfl := Option.some.inj htx'
    exact ⟨named_delivery_iff.mp hnamed,named_delivery_iff.mp hnamed'⟩
  · intro hleft
    have halike := generated_alike hu hu' (fun w hw => (hleft w hw).1.trans (hleft w hw).2.symm)
    exact ⟨halike.keyList_eq,by rw [halike.feature_eq],generated_named hu (fun w hw => (hleft w hw).1),
      generated_named hu' (fun w hw => (hleft w hw).2)⟩

end

section

def Slot.fresh : Slot := ⟨⟨0,fun _ => 0,fun _ => 0,0,fun _ => 0⟩,0⟩

def homePayment (w : Warehouse) : Params := .payment w ⟨1,by decide⟩ true [] ⟨1,by decide⟩ 1

theorem request_of_draws_after_payment :
    ∃ t t' u u' : Slot, Slot.fresh.run [homePayment ⟨7,by decide⟩] = some t ∧
      Slot.fresh.run [homePayment ⟨3,by decide⟩,homePayment ⟨7,by decide⟩] = some t' ∧
      t.generateTx (.delivery ⟨7,by decide⟩) = some u ∧ t'.generateTx (.delivery ⟨7,by decide⟩) = some u' ∧
      keyList u.tx = keyList u'.tx ∧ slice u.tx.feature 0 64 = slice u'.tx.feature 0 64 :=
  have h := (request_of_draws_iff (.delivery ⟨7,by decide⟩) .fresh .fresh _ _ _ _ [homePayment ⟨7,by decide⟩]
    [homePayment ⟨3,by decide⟩,homePayment ⟨7,by decide⟩] rfl rfl rfl rfl).mpr (fun w hw => by cases hw; exact ⟨rfl,rfl⟩)
  ⟨_,_,_,_,rfl,rfl,rfl,rfl,h.1,h.2.1⟩

/-- The same delivery after two different payments: the key is the warehouse of the payment. -/
theorem delivery_key_of_payment :
    ∃ t t' u u' : Slot, Slot.fresh.run [homePayment ⟨3,by decide⟩] = some t ∧
      Slot.fresh.run [homePayment ⟨7,by decide⟩] = some t' ∧
      t.generateTx (.delivery ⟨7,by decide⟩) = some u ∧ t'.generateTx (.delivery ⟨7,by decide⟩) = some u' ∧
      keyList u.tx ≠ keyList u'.tx ∧ slice u.tx.feature 0 64 ≠ slice u'.tx.feature 0 64 ∧
      ¬WarehousesNamed (.delivery ⟨7,by decide⟩) u.tx := by
  refine ⟨_,_,_,_,rfl,rfl,rfl,rfl,?_,?_,fun hnamed => absurd (named_delivery_iff.mp hnamed) (by decide)⟩
  · intro heq
    have hkeys := congrArg (List.map TxKey.second)
      ((keyList_eq (written_delivery ..).holds).symm.trans (heq.trans (keyList_eq (written_delivery ..).holds)))
    exact absurd hkeys (by decide)
  · rw [(written_delivery ..).feature,(written_delivery ..).feature]
    decide

end

end AlNiCo.Client.History
