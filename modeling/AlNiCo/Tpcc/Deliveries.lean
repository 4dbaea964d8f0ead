import AlNiCo.Library.Machine
import AlNiCo.Tpcc.StockLevel

/-! New-orders and the deliveries of one warehouse, call after call. The owner keeps
`last_delivered` from one delivery to the next. -/
namespace AlNiCo.Tpcc
open Sto Library Function List Option

section

structure Shop where
  db : Db
  lastDelivered : Nat → Nat
  /-- The orders that were delivered, in their order. -/
  history : List OrderKey

inductive Event
  | newOrder (r : NewOrder)
  /-- An attempt of a new-order draws an id and aborts. -/
  | draw (wId dId : Nat)
  | delivery (carrierId : BitVec 64) (deliveryDate : BitVec 32) (orderId fuel : Nat)

variable (b : Build) (commute : Bool) (wId : Nat)

/-- A delivery that commits. `order_id` is not initialised. -/
def Shop.deliver (s : Shop) (carrierId : BitVec 64) (deliveryDate : BitVec 32) (orderId fuel : Nat) : Option Shop :=
  (attempts s.db wId s.lastDelivered fuel orderId).bind (fun w =>
    (w.delivered.mapM (deliveredOrder s.db)).map (fun orders =>
      ⟨s.db.commit b commute (Delivery.writes ⟨wId,carrierId,deliveryDate⟩ orders),w.deliveredOrderIds,
        s.history ++ w.delivered⟩))

def Shop.next (s : Shop) : Event → Option Shop
  | .newOrder r => ((Txn.newOrder r).outcome b commute 0 s.db).map (fun db => { s with db := db })
  | .draw w d => some { s with db := (s.db.next w d).2 }
  | .delivery carrierId deliveryDate orderId fuel => s.deliver b commute wId carrierId deliveryDate orderId fuel

def shop (db : Db) (lastDelivered : Nat → Nat) : Machine Shop Event :=
  .ofNext ⟨db,lastDelivered,[]⟩ (fun s e => s.next b commute wId e)

end

section

def Ordered (db : Db) (k : OrderKey) : Prop := (db.orders.get k).isSome

def Undelivered (db : Db) (k : OrderKey) : Prop := (db.neworders.get k).isSome

/-- The load: new orders are orders, ids come from the generators, and `last_delivered`
names the last order that is delivered. -/
structure Loaded (wId : Nat) (db : Db) (lastDelivered : Nat → Nat) : Prop where
  fresh : ∀ k, Ordered db k → k.oId < db.oidGens (k.wId%64,k.dId%16)
  ordered : ∀ k, Undelivered db k → Ordered db k
  last : ∀ d ∈ districts, Ordered db ⟨wId,d,lastDelivered d⟩
  later : ∀ d ∈ districts, ∀ o, Undelivered db ⟨wId,d,o⟩ → lastDelivered d < o

structure Orderly (wId : Nat) (s : Shop) : Prop where
  once : s.history.Nodup
  ascending : s.history.Pairwise (fun k k' => k.dId = k'.dId → k.oId < k'.oId)
  bounded : ∀ d ∈ districts, ∃ o, Ordered s.db ⟨wId,d,o⟩ ∧ ¬Undelivered s.db ⟨wId,d,o⟩ ∧ s.lastDelivered d ≤ o
  noSkip : ∀ d ∈ districts, ∀ o, Undelivered s.db ⟨wId,d,o⟩ → s.lastDelivered d ≤ o

/-- Every district has an order for the delivery to find. -/
def Supplied (wId : Nat) (s : Shop) : Event → Prop
  | .delivery _ _ _ _ => ∀ d ∈ districts, ∃ o, Undelivered s.db ⟨wId,d,o⟩ ∧ s.lastDelivered d ≤ o ∧ o < 2^64-1
  | _ => True

end

section
variable {b : Build} {commute : Bool} {db : Db}

theorem RowWrite.isSome_store {t} (w : RowWrite t) (old : t.value.Row) : (w.store b commute old).isSome := by
  cases w with
  | change ch =>
    cases commute with
    | false => exact isSome_iff_exists.mpr ⟨_,ch.run_plain b old⟩
    | true => exact isSome_iff_exists.mpr ⟨_,ch.run_commute b old⟩
  | put accesses newRow =>
    exact isSome_iff_exists.mpr ⟨_,commitRow_updateRow _ _ _ (b.numVersions_pos t) accesses _ _⟩

/-- The installs keep every row. -/
theorem isSome_storeRow {K t} (writes : K → Option (RowWrite t)) (k : K) (old : Option t.value.Row) :
    (old.bind (storeRow b commute writes k)).isSome = old.isSome := by
  cases old with
  | none => rfl
  | some old =>
    rw [bind_some,storeRow]
    cases writes k with
    | none => rfl
    | some w => exact w.isSome_store old

theorem ordered_commit (ws : Writes) (k : OrderKey) :
    Ordered (db.commit b commute ws) k ↔ k ∈ ws.insertedOrders.map Prod.fst ∨ Ordered db k := by
  have hmap : (((db.orders.mapRows (storeRow b commute ws.orders)).get k).isSome) = (db.orders.get k).isSome :=
    isSome_storeRow ws.orders k _
  rw [Ordered,Ordered,← hmap]
  exact OrderedIndex.isSome_insertAll _ _ _

theorem undelivered_commit (ws : Writes) (k : OrderKey) : Undelivered (db.commit b commute ws) k ↔
      k ∉ ws.deletedNeworders ∧ (k ∈ ws.insertedNeworders.map Prod.fst ∨ Undelivered db k) := by
  have hget : (db.commit b commute ws).neworders.get k =
      if k ∈ ws.deletedNeworders then none else (db.neworders.insertAll ws.insertedNeworders).get k :=
    OrderedIndex.get_eraseAll _ _ _
  rw [Undelivered,Undelivered,hget,← OrderedIndex.isSome_insertAll]
  by_cases hk : k ∈ ws.deletedNeworders <;> simp [hk]

/-- What a committed new-order does to the orders of its district. -/
theorem newOrder_outcome {r db'} (h : (Txn.newOrder r).outcome b commute 0 db = some db') :
    ∃ ok : OrderKey, ok = ⟨r.wId,r.dId,db.oidGens (r.wId%64,r.dId%16)⟩ ∧
      (∀ k, Ordered db' k ↔ k = ok ∨ Ordered db k) ∧ (∀ k, Undelivered db' k ↔ k = ok ∨ Undelivered db k) ∧
      db'.oidGens = update db.oidGens (r.wId%64,r.dId%16) (ok.oId+1) := by
  obtain ⟨⟨db'',ws⟩,hprepare,rfl⟩ := map_eq_some_iff.mp h
  obtain ⟨ws',hws,heq⟩ := map_eq_some_iff.mp hprepare
  obtain ⟨rfl,rfl⟩ := Prod.mk.inj heq
  obtain ⟨lines,-,rfl⟩ := map_eq_some_iff.mp hws
  refine ⟨_,rfl,fun k => ?_,fun k => ?_,rfl⟩
  · refine (ordered_commit _ k).trans (or_congr_left ?_)
    exact mem_singleton
  · refine (undelivered_commit _ k).trans ((and_iff_right not_mem_nil).trans (or_congr_left ?_))
    exact mem_singleton

/-- What a delivery does there, given the orders that it has walked to. -/
theorem delivery_commit (b : Build) (commute : Bool) {r : Delivery} {oks : List OrderKey} {orders : List Delivered}
    (h : oks.mapM (deliveredOrder db) = some orders) (k : OrderKey) :
    (Ordered (db.commit b commute (r.writes orders)) k ↔ Ordered db k) ∧
      (Undelivered (db.commit b commute (r.writes orders)) k ↔ k ∉ oks ∧ Undelivered db k) := by
  have hkeys : orders.map (·.order) = oks := map_order_of_mapM h
  constructor
  · exact (ordered_commit _ k).trans (or_iff_right not_mem_nil)
  · refine (undelivered_commit _ k).trans ?_
    rw [← hkeys]
    exact and_congr_right (fun _ => or_iff_right not_mem_nil)

end

open OrderKey

section
variable {db : Db} {wId : Nat} {lastDelivered : Nat → Nat}

/-- What a scan finds in a district that has an order for it. -/
theorem scannedId_spec {d : Nat} (orderId : Nat) (h : ∃ o, Undelivered db ⟨wId,d,o⟩ ∧ lastDelivered d ≤ o ∧ o < 2^64-1) :
    Undelivered db ⟨wId,d,scannedId db wId d (lastDelivered d) orderId⟩ ∧ lastDelivered d ≤ scannedId db wId d (lastDelivered d) orderId ∧
      ∀ o, Undelivered db ⟨wId,d,o⟩ → lastDelivered d ≤ o → scannedId db wId d (lastDelivered d) orderId ≤ o := by
  obtain ⟨o,ho,hle,hlt⟩ := h
  rw [scannedId]
  cases hhead : (db.neworders.scan ⟨wId,d,lastDelivered d⟩ ⟨wId,d,2^64-1⟩).head? with
  | none =>
    have hnone := db.neworders.head?_scan_eq_none.mp hhead ⟨wId,d,o⟩ ho (le_iff.mpr hle)
    exact absurd (lt_iff.mpr hlt) hnone
  | some k =>
    obtain ⟨⟨hk,hfirst,hbound⟩,hmin⟩ := db.neworders.head?_scan_eq_some hhead
    have hkey := between hfirst hbound
    rw [hkey] at hk hfirst hbound hmin
    refine ⟨hk,le_iff.mp hfirst,fun o' ho' hle' => ?_⟩
    by_cases hlt' : o' < 2^64-1
    · exact le_iff.mp (hmin ⟨wId,d,o'⟩ ho' (le_iff.mpr hle') (lt_iff.mpr hlt'))
    · have hb := lt_iff.mp hbound
      show k.oId ≤ o'
      omega

/-- A district with an order for the delivery has it delivered. -/
theorem Walk.turn_of_supplied {w : Walk} {d : Nat} (hordered : ∀ k, Undelivered db k → Ordered db k)
    (hlater : ∀ o, Undelivered db ⟨wId,d,o⟩ → lastDelivered d < o)
    (h : ∃ o, Undelivered db ⟨wId,d,o⟩ ∧ lastDelivered d ≤ o ∧ o < 2^64-1) :
    ∃ o, w.turn db wId lastDelivered d = .going ⟨o,update w.deliveredOrderIds d o,w.delivered ++ [⟨wId,d,o⟩]⟩ ∧
      Undelivered db ⟨wId,d,o⟩ ∧ ∀ o', Undelivered db ⟨wId,d,o'⟩ → o ≤ o' := by
  obtain ⟨hundelivered,-,hmin⟩ := scannedId_spec w.orderId h
  refine ⟨_,?_,hundelivered,fun o' ho' => hmin o' ho' (hlater o' ho').le⟩
  have hpos : scannedId db wId d (lastDelivered d) w.orderId ≠ 0 := Nat.ne_zero_of_lt (hlater _ hundelivered)
  have horder := isSome_iff_ne_none.mp (hordered _ hundelivered)
  have hneworder := isSome_iff_ne_none.mp hundelivered
  simp only [Walk.turn,if_neg hpos,isNone_iff_eq_none,if_neg horder,if_neg hneworder]

/-- The walk over districts that all have an order: one key for each, in their order. -/
theorem foldl_turn_of_supplied {ds : List Nat} (hnodup : ds.Nodup) (hordered : ∀ k, Undelivered db k → Ordered db k)
    (hlater : ∀ d ∈ ds, ∀ o, Undelivered db ⟨wId,d,o⟩ → lastDelivered d < o)
    (h : ∀ d ∈ ds, ∃ o, Undelivered db ⟨wId,d,o⟩ ∧ lastDelivered d ≤ o ∧ o < 2^64-1) (w : Walk) :
    ∃ (w' : Walk) (first : Nat → Nat),ds.foldl (fun (a : Attempt) d => a.turn db wId lastDelivered d) (.going w) = .going w' ∧
      w'.delivered = w.delivered ++ ds.map (fun d => ⟨wId,d,first d⟩) ∧
      (∀ d ∈ ds, w'.deliveredOrderIds d = first d) ∧ (∀ d, d ∉ ds → w'.deliveredOrderIds d = w.deliveredOrderIds d) ∧
      ∀ d ∈ ds, Undelivered db ⟨wId,d,first d⟩ ∧ ∀ o, Undelivered db ⟨wId,d,o⟩ → first d ≤ o := by
  induction ds generalizing w with
  | nil => exact ⟨w,fun _ => 0,rfl,by simp,by simp,fun _ _ => rfl,by simp⟩
  | cons d ds ih =>
    obtain ⟨hd,hnodup⟩ := nodup_cons.mp hnodup
    obtain ⟨o,hturn,ho,hmin⟩ := Walk.turn_of_supplied (w := w) hordered (hlater d mem_cons_self) (h d mem_cons_self)
    obtain ⟨w',first,hfold,hdelivered,hids,hothers,hfirst⟩ := ih hnodup
      (fun d' hd' => hlater d' (mem_cons_of_mem _ hd')) (fun d' hd' => h d' (mem_cons_of_mem _ hd'))
      ⟨o,update w.deliveredOrderIds d o,w.delivered ++ [⟨wId,d,o⟩]⟩
    have hne (d' : Nat) (hd' : d' ∈ ds) : d' ≠ d := fun heq => hd (heq ▸ hd')
    refine ⟨w',update first d o,?_,?_,?_,?_,?_⟩
    · rw [foldl_cons,Attempt.turn,hturn]
      exact hfold
    · rw [hdelivered,map_cons,update_self,append_assoc,singleton_append]
      refine congrArg (fun l => w.delivered ++ ⟨wId,d,o⟩ :: l) (map_congr_left (fun d' hd' => ?_))
      rw [update_of_ne (hne d' hd')]
    · intro d' hd'
      rcases mem_cons.mp hd' with rfl | hd'
      · refine (hothers _ hd).trans ?_
        simp only [update_self]
      · rw [hids d' hd',update_of_ne (hne d' hd')]
    · intro d' hd'
      obtain ⟨hne',hd'⟩ := ne_and_not_mem_of_not_mem_cons hd'
      exact (hothers d' hd').trans (update_of_ne hne' _ _)
    · intro d' hd'
      rcases mem_cons.mp hd' with rfl | hd'
      · rw [update_self]
        exact ⟨ho,hmin⟩
      · rw [update_of_ne (hne d' hd')]
        exact hfirst d' hd'

end

section Invariant
variable {b : Build} {commute : Bool} {wId : Nat}

/-- The orders that were delivered are at or below `last_delivered`, and the others are
above it. -/
structure Inv (wId : Nat) (s : Shop) : Prop where
  loaded : Loaded wId s.db s.lastDelivered
  delivered : ∀ k ∈ s.history, k.wId = wId ∧ k.dId ∈ districts ∧ k.oId ≤ s.lastDelivered k.dId
  ascending : s.history.Pairwise (fun k k' => k.dId = k'.dId → k.oId < k'.oId)

theorem Inv.orderly {s : Shop} (h : Inv wId s) : Orderly wId s where
  once := by
    refine h.ascending.imp (fun {k k'} hlt heq => ?_)
    obtain rfl := heq
    exact lt_irrefl _ (hlt rfl)
  ascending := h.ascending
  bounded d hd := ⟨s.lastDelivered d,h.loaded.last d hd,fun hu => lt_irrefl _ (h.loaded.later d hd _ hu),le_rfl⟩
  noSkip d hd o ho := (h.loaded.later d hd o ho).le

/-- Ids only grow, so that an order of a district is above all orders there. -/
theorem inv_newOrder {s r db} (h : Inv wId s)
    (hout : (Txn.newOrder r).outcome b commute 0 s.db = some db) : Inv wId { s with db := db } := by
  obtain ⟨ok,rfl,hordered,hundelivered,hgens⟩ := newOrder_outcome hout
  refine ⟨⟨fun k hk => ?_,fun k hk => ?_,fun d hd => ?_,fun d hd o ho => ?_⟩,h.delivered,h.ascending⟩
  · simp only [hgens]
    by_cases hidx : (k.wId%64,k.dId%16) = (r.wId%64,r.dId%16)
    · rw [hidx,update_self]
      rcases (hordered k).mp hk with rfl | hk
      · exact Nat.lt_succ_self _
      · have hlt := h.loaded.fresh k hk
        rw [hidx] at hlt
        exact Nat.lt_succ_of_lt hlt
    · rw [update_of_ne hidx]
      rcases (hordered k).mp hk with rfl | hk
      · exact absurd rfl hidx
      · exact h.loaded.fresh k hk
  · exact (hordered k).mpr (((hundelivered k).mp hk).imp id (h.loaded.ordered k))
  · exact (hordered _).mpr (Or.inr (h.loaded.last d hd))
  · rcases (hundelivered _).mp ho with heq | ho
    · obtain ⟨rfl,rfl,rfl⟩ := mk.inj heq
      exact h.loaded.fresh _ (h.loaded.last _ hd)
    · exact h.loaded.later d hd o ho

theorem inv_draw {s : Shop} (w d : Nat) (h : Inv wId s) : Inv wId { s with db := (s.db.next w d).2 } := by
  refine ⟨⟨fun k hk => ?_,h.loaded.ordered,h.loaded.last,h.loaded.later⟩,h.delivered,h.ascending⟩
  have hlt := h.loaded.fresh k hk
  simp only [Db.next]
  by_cases hidx : (k.wId%64,k.dId%16) = (w%64,d%16)
  · rw [hidx,update_self]
    rw [hidx] at hlt
    exact Nat.lt_succ_of_lt hlt
  · rw [update_of_ne hidx]
    exact hlt

theorem districts_nodup : districts.Nodup := nodup_range'

/-- An attempt that gets through is the last one. -/
theorem attempts_of_going {db lastDelivered orderId fuel w} (h : attempt db wId lastDelivered orderId = .going w) :
    attempts db wId lastDelivered (fuel+1) orderId = some w := by
  unfold attempts
  rw [h]

/-- A delivery that finds an order everywhere takes the first of each district. -/
theorem inv_deliver {s s' : Shop} {carrierId : BitVec 64} {deliveryDate : BitVec 32} {orderId fuel : Nat} (h : Inv wId s)
    (hsupplied : Supplied wId s (.delivery carrierId deliveryDate orderId fuel))
    (hdeliver : s.deliver b commute wId carrierId deliveryDate orderId fuel = some s') : Inv wId s' := by
  obtain ⟨w,hattempts,horders⟩ := Option.bind_eq_some_iff.mp hdeliver
  obtain ⟨orders,hmapM,rfl⟩ := Option.map_eq_some_iff.mp horders
  obtain ⟨w',first,hfold,hdelivered,hids,-,hfirst⟩ :=
    foldl_turn_of_supplied districts_nodup h.loaded.ordered h.loaded.later hsupplied ⟨orderId,s.lastDelivered,[]⟩
  have hw : w = w' := by
    cases fuel with
    | zero => cases hattempts
    | succ fuel =>
      rw [attempts_of_going hfold] at hattempts
      exact (Option.some.inj hattempts).symm
  subst hw
  rw [List.nil_append] at hdelivered
  have hmem (d o : Nat) (hd : d ∈ districts) : (⟨wId,d,o⟩ : OrderKey) ∈ w.delivered ↔ o = first d := by
    rw [hdelivered,List.mem_map]
    constructor
    · rintro ⟨d',-,heq⟩
      obtain ⟨-,rfl,rfl⟩ := mk.inj heq
      rfl
    · rintro rfl
      exact ⟨d,hd,rfl⟩
  have hcommit (k : OrderKey) := delivery_commit b commute (r := ⟨wId,carrierId,deliveryDate⟩) hmapM k
  have hlast (d : Nat) (hd : d ∈ districts) : s.lastDelivered d < first d := h.loaded.later d hd _ (hfirst d hd).1
  refine ⟨⟨fun k hk => ?_,fun k hk => ?_,fun d hd => ?_,fun d hd o ho => ?_⟩,fun k hk => ?_,?_⟩
  · exact h.loaded.fresh k ((hcommit k).1.mp hk)
  · exact (hcommit k).1.mpr (h.loaded.ordered k ((hcommit k).2.mp hk).2)
  · refine (hcommit _).1.mpr (h.loaded.ordered _ ?_)
    simpa only [hids d hd] using (hfirst d hd).1
  · obtain ⟨hnot,ho⟩ := (hcommit _).2.mp ho
    refine (hids d hd).trans_lt (lt_of_le_of_ne ((hfirst d hd).2 o ho) (fun heq => hnot ?_))
    exact (hmem d o hd).mpr heq.symm
  · rcases List.mem_append.mp hk with hk | hk
    · obtain ⟨hw,hd,hle⟩ := h.delivered k hk
      exact ⟨hw,hd,hle.trans ((hlast _ hd).le.trans (hids _ hd).ge)⟩
    · rw [hdelivered] at hk
      obtain ⟨d,hd,rfl⟩ := List.mem_map.mp hk
      exact ⟨rfl,hd,(hids d hd).ge⟩
  · refine List.pairwise_append.mpr ⟨h.ascending,?_,fun k hk k' hk' heq => ?_⟩
    · rw [hdelivered,List.pairwise_map]
      exact districts_nodup.imp (fun hne heq => absurd heq hne)
    · rw [hdelivered] at hk'
      obtain ⟨d,hd,rfl⟩ := List.mem_map.mp hk'
      obtain ⟨-,-,hle⟩ := h.delivered k hk
      rw [heq] at hle
      exact hle.trans_lt (hlast d hd)

/-- As long as no district runs out of orders, the deliveries of a warehouse are orderly. -/
theorem deliveries_orderly (b : Build) (commute : Bool) (wId : Nat) {db : Db} {lastDelivered : Nat → Nat}
    (hload : Loaded wId db lastDelivered) {s : Shop}
    (h : (shop b commute wId db lastDelivered).Reached (Supplied wId) s) : Orderly wId s := by
  have hinv : Inv wId s := by
    refine Machine.Reached.ofNext_invariant h ⟨hload,by simp,List.Pairwise.nil⟩ (fun s e s' hs hsupplied hnext => ?_)
    cases e with
    | newOrder r =>
      obtain ⟨db',hout,rfl⟩ := Option.map_eq_some_iff.mp hnext
      exact inv_newOrder hs hout
    | draw w d =>
      obtain rfl := Option.some.inj hnext
      exact inv_draw w d hs
    | delivery carrierId deliveryDate orderId fuel => exact inv_deliver hs hsupplied hnext
  exact hinv.orderly

end Invariant

section

/-- Warehouse 1 when all orders are delivered, up to 3000 in each district. -/
def deliveredDb : Db :=
  { stockedDb with
    districts := fun k => if k.1 = 1 then some someDistrict else none
    customers := fun k => if k.1 = 1 then some someCustomer else none
    orders := OrderedIndex.empty.insertAll (districts.map (fun d => (⟨1,d,3000⟩,someNewOrder.orderRow))) }

theorem loaded_deliveredDb : Loaded 1 deliveredDb (fun _ => 3000) := by
  have hordered (k : OrderKey) : Ordered deliveredDb k ↔ k ∈ districts.map (fun d => (⟨1,d,3000⟩ : OrderKey)) := by
    refine (OrderedIndex.isSome_insertAll _ _ k).trans ?_
    rw [List.map_map]
    exact or_iff_left (by simp)
  refine ⟨fun k hk => ?_,fun k hk => absurd hk (by simp [Undelivered,deliveredDb,stockedDb,someDb]),fun d hd => ?_,
    fun d hd o ho => absurd ho (by simp [Undelivered,deliveredDb,stockedDb,someDb])⟩
  · obtain ⟨d,-,rfl⟩ := List.mem_map.mp ((hordered k).mp hk)
    exact Nat.lt_succ_self 3000
  · exact (hordered _).mpr (List.mem_map_of_mem hd)

def someShop : Machine Shop Event := shop .fineGrained false 1 deliveredDb (fun _ => 3000)

def suppliedRun : List Event := districts.map (fun d => .newOrder { someNewOrder with dId := d })

/-- Ten orders are placed, and a delivery takes them. -/
theorem deliveries_orderly_ten_orders : Orderly 1 (someShop.play someShop.start (suppliedRun ++ [.delivery 5 1 0 1])) := by
  have hplaced : someShop.Reached (Supplied 1) _ :=
    Machine.Reached.start.play suppliedRun (by decide +kernel) (fun s e he => by
      obtain ⟨d,-,rfl⟩ := List.mem_map.mp he
      trivial)
  have hnew : ∀ d ∈ districts, ((someShop.play someShop.start suppliedRun).db.neworders.get ⟨1,d,3001⟩).isSome = true ∧
      (someShop.play someShop.start suppliedRun).lastDelivered d ≤ 3001 := by
    decide +kernel
  rw [Machine.play,List.foldl_append]
  refine deliveries_orderly .fineGrained false 1 loaded_deliveredDb (.next hplaced (by decide +kernel) (fun d hd => ?_))
  exact ⟨3001,(hnew d hd).1,(hnew d hd).2,by decide⟩

/-- Two orders of district 1 are delivered before district 2 gets its first. -/
def skippedRun : List Event :=
  [.newOrder someNewOrder,.newOrder someNewOrder,.delivery 5 1 0 1,.delivery 5 1 0 1,
    .newOrder { someNewOrder with dId := 2 }]

/-- District 2 has no order while the orders of district 1 are delivered, and takes over
their ids. Its own next order has a smaller one and is never found. -/
theorem delivery_skips_order : Loaded 1 deliveredDb (fun _ => 3000) ∧
    ∃ s, someShop.Reachable s ∧ Undelivered s.db ⟨1,2,3001⟩ ∧ s.lastDelivered 2 = 3002 ∧ ¬Orderly 1 s := by
  have hskipped : ((someShop.play someShop.start skippedRun).db.neworders.get ⟨1,2,3001⟩).isSome = true ∧
      (someShop.play someShop.start skippedRun).lastDelivered 2 = 3002 := by
    decide +kernel
  refine ⟨loaded_deliveredDb,_,Machine.Reached.start.play skippedRun (by decide +kernel) (fun _ _ _ => trivial),
    hskipped.1,hskipped.2,fun horderly => ?_⟩
  have hle := horderly.noSkip 2 (by decide) 3001 hskipped.1
  rw [hskipped.2] at hle
  exact absurd hle (by decide)

end

end AlNiCo.Tpcc
