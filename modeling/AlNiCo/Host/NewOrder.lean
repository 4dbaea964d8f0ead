import AlNiCo.Client.NewOrder
import AlNiCo.Host.Message

/-! What the server reads out of a new-order request is what the client drew. -/
namespace AlNiCo.Host.Message
open Library.ByteMemory Client Client.NewOrder BitVec

/-- The key of an item of a warehouse fits in the 32 bits it is cut to. -/
theorem toNat_makeStockKey {w item} (hw : w.toNat ≤ 42000) (hitem : item.toNat ≤ 100000) :
    (makeStockKey w item).toNat = item.toNat+w.toNat*100000 := by
  have hlt : item.toNat+w.toNat*100000 < 2^32 := by omega
  have hsum : (item.setWidth 64+w.setWidth 64*100000).toNat = item.toNat+w.toNat*100000 := by
    rw [toNat_add,toNat_mul,toNat_setWidth_of_le (by decide),toNat_setWidth_of_le (by decide)]
    change (item.toNat+w.toNat*100000 % 2^64) % 2^64 = _
    omega
  rw [makeStockKey,toNat_setWidth_of_le (by decide),toNat_setWidth,hsum,Nat.mod_eq_of_lt hlt]

theorem stockKeyToWare_makeStockKey (w : Warehouse) (item : Item) : stockKeyToWare (makeStockKey w.val item.val) = w.val := by
  obtain ⟨w,hw⟩ := w
  obtain ⟨item,hlo,hhi⟩ := item
  change stockKeyToWare (makeStockKey w item) = w
  have hkey := toNat_makeStockKey hw hhi
  have hdiv : (makeStockKey w item/100000).toNat = (item.toNat+w.toNat*100000)/100000 := by
    rw [toNat_udiv,hkey]
    rfl
  have hmod : (makeStockKey w item % 100000).toNat = (item.toNat+w.toNat*100000) % 100000 := by
    rw [toNat_umod,hkey]
    rfl
  apply eq_of_toNat_eq
  rw [stockKeyToWare]
  split
  · next h =>
    -- only item 100000 has this key, and the division counts one warehouse too many
    have hitem : item.toNat = 100000 := by
      rw [h] at hmod
      change 0 = _ at hmod
      omega
    have hone : (1 : BitVec 64).toNat = 1 := rfl
    rw [toNat_setWidth,toNat_sub,hdiv,hone,hitem]
    omega
  · next h =>
    have hitem : item.toNat ≠ 100000 := by
      intro h100
      apply h
      apply eq_of_toNat_eq
      rw [hmod,h100]
      exact Nat.add_mul_mod_self_right _ _ _
    rw [toNat_setWidth,hdiv]
    omega

section
variable {c : Call} {rpcnum : Nat} {buffer m : Memory} {tx : Tx} {keys : List TxKey} {values : List (BitVec 32)}

/-- The keys of the transaction, read behind `deserialization`. -/
theorem Received.keySecond (h : Received c (pushNewCallWrite c rpcnum buffer).data m) (hreq : c.req = tx.req)
    (hold : Holds tx keys values) (reqP : Nat → ReqPair) {k key} (hk : keys[k]? = some key) :
    (deserialization reqP m).keySecond k = key.second := by
  have hseg : c.req[1]? = some (slice tx.mainRead 0 (16*tx.mainReadCount)) := by rw [hreq]; rfl
  have hnum : c.req.length < 256 := by rw [hreq,Tx.length_req]; decide
  have hlt := (List.getElem?_eq_some_iff.mp hk).1
  have hcount := hold.count
  rw [Msg.keySecond,h.reqP hnum reqP hseg,← (hold.keys k key hk).2,Nat.add_assoc]
  exact h.load (w := 8) hseg (by omega)

theorem Received.args (h : Received c (pushNewCallWrite c rpcnum buffer).data m) (hreq : c.req = tx.req)
    (hold : Holds tx keys values) (reqP : Nat → ReqPair) {k value} (hk : values[k]? = some value) :
    (deserialization reqP m).args k = value := by
  have hseg : c.req[2]? = some (slice tx.args 0 (8*tx.argsCount)) := by rw [hreq]; rfl
  have hnum : c.req.length < 256 := by rw [hreq,Tx.length_req]; decide
  have hlt := (List.getElem?_eq_some_iff.mp hk).1
  have hcount := hold.argsCount
  rw [Msg.args,h.reqP hnum reqP hseg,← hold.args k value hk]
  exact h.load (w := 4) hseg (by omega)

end

section
variable {tx : Tx} {w : Warehouse} {d c : BitVec 32} {numItems : Nat} {o : Order}

/-- The arrays the segments are copied from: `main_read_count`, `main_read` with
`MAX_ITEM * 2 + 10` entries, `args` with 100 words, and `feature`. -/
def arraySizes : List Nat := [4,16*(15*2+10),4*100,128]

/-- The request stays inside the arrays of the client, the pairs of `deserialization`
and, with its tail word, the slot. -/
structure Fits (call : Call) : Prop where
  segments : List.Forall₂ (fun seg size => seg.length ≤ size) call.req arraySizes
  pairs : call.req.length ≤ 10
  slot : call.location+4 ≤ 2048

theorem fits_of_filled {call} (hfilled : Filled w d c numItems o) (hreq : call.req = o.tx.req) (hle : numItems ≤ 15) : Fits call := by
  have hlen := hfilled.1
  obtain ⟨hcount,hargs⟩ := hfilled.counts
  refine ⟨?_,?_,?_⟩
  · rw [hreq,Tx.req,arraySizes]
    refine .cons ?_ (.cons ?_ (.cons ?_ (.cons ?_ .nil)))
    all_goals
      simp only [length_bytes,length_slice]
      omega
  · rw [hreq,Tx.length_req]
    decide
  · rw [Call.location,hreq,Tx.length_req,Tx.sum_req]
    omega

/-- A new-order request comes out at the server as the client built it, whatever the
buffers on both sides held before. -/
theorem new_order_round_trip (tx : Tx) (w : Warehouse) (d c : BitVec 32) (numItems : Nat) (draws : List Draw) (o : Order)
    (hlo : 5 ≤ numItems) (hhi : numItems ≤ 15) (hbuild : newOrderProcedure tx w d c numItems draws = some o)
    (call : Call) (hreq : call.req = o.tx.req) (rpcnum : Nat) (buffer m : Memory)
    (hm : Received call (pushNewCallWrite call rpcnum buffer).data m) (reqP : Nat → ReqPair) :
    Fits call ∧
    let msg := deserialization reqP m
    msg.getWId = w.val.setWidth 64 ∧ msg.getDId = d.setWidth 64 ∧ msg.getCId = c.setWidth 64 ∧
      msg.getSNum.toNat = numItems ∧ o.lines.length = numItems ∧
      ∀ k line, o.lines[k]? = some line →
        msg.getIId k = line.item.val.setWidth 64 ∧ msg.getSW k = line.supplier.val.setWidth 64 := by
  obtain ⟨hfilled,hnum⟩ := filled_of_procedure hbuild
  have hfits := fits_of_filled hfilled hreq hhi
  obtain ⟨-,quantities,-,hold⟩ := hfilled
  refine ⟨hfits,?_,?_,?_,?_,hnum,fun k line hk => ⟨?_,?_⟩⟩
  · rw [Msg.getWId,hm.args hreq hold reqP (k := 0) rfl]
  · rw [Msg.getDId,hm.args hreq hold reqP (k := 1) rfl]
  · rw [Msg.getCId,hm.args hreq hold reqP (k := 2) rfl]
  · rw [Msg.getSNum,hm.args hreq hold reqP (k := 3) rfl,BitVec.toNat_setWidth,BitVec.toNat_ofNat]
    omega
  · have hkey := getElem?_flatMap_keys o.lines k (j := 0) (by decide)
    rw [hk] at hkey
    rw [Msg.getIId,hm.keySecond hreq hold reqP (k := 2*k+3) hkey]
    exact signExtend_item line.item
  · have hkey := getElem?_flatMap_keys o.lines k (j := 1) (by decide)
    rw [hk] at hkey
    rw [Msg.getSW,hm.keySecond hreq hold reqP (k := 2*k+4) hkey]
    dsimp only
    rw [stockKeyToWare_makeStockKey]
    exact signExtend_warehouse line.supplier

/-- Five lines of the last warehouse; the first item is the last one, and the second
line comes from another warehouse. -/
def lastOrder : Option Order :=
  newOrderProcedure ⟨0,fun _ => 0,fun _ => 0,0,fun _ => 0⟩ ⟨42000,by decide⟩ 10 3000 5
    [.home ⟨100000,by decide⟩ 1,.remote ⟨100000,by decide⟩ 2 [⟨42000,by decide⟩,⟨7,by decide⟩],
      .remote ⟨100000,by decide⟩ 2 [⟨8,by decide⟩],.home ⟨1,by decide⟩ 3,.home ⟨1,by decide⟩ 3,
      .home ⟨2,by decide⟩ 4,.home ⟨3,by decide⟩ 5]

theorem new_order_round_trip_last_order :
    ∃ o call, lastOrder = some o ∧ call.req = o.tx.req ∧
      let msg := deserialization (fun _ => ⟨0,0⟩) (pushNewCallWrite call 0 (fun _ => 0)).data
      msg.getWId = 42000 ∧ msg.getSNum.toNat = 5 ∧ msg.getIId 0 = 100000 ∧ msg.getSW 0 = 42000 := by
  obtain ⟨o,ho⟩ : ∃ o, lastOrder = some o := Option.isSome_iff_exists.mp (by decide +kernel)
  have hfirst : lastOrder.bind (fun o => o.lines[0]?.map (fun l => (l.item.val,l.supplier.val))) = some (100000,42000) := by
    decide +kernel
  rw [ho,Option.bind_some,Option.map_eq_some_iff] at hfirst
  obtain ⟨line,hline,hpair⟩ := hfirst
  obtain ⟨hitem,hsupplier⟩ := Prod.mk.inj hpair
  have hfits : 28+4*o.tx.req.length+(o.tx.req.map List.length).sum < 2^32 := by
    obtain ⟨hfilled,hlen⟩ := filled_of_procedure ho
    rw [Tx.length_req,Tx.sum_req,hfilled.counts.1,hfilled.counts.2,hlen]
    decide
  obtain ⟨-,hw,-,-,hnum,-,hlines⟩ :=
    new_order_round_trip _ _ _ _ _ _ o (by decide) (by decide) ho ⟨0,0,0,0,0,0,0,o.tx.req,none,hfits⟩ rfl 0 (fun _ => 0) _
      (fun _ _ => rfl) (fun _ => ⟨0,0⟩)
  obtain ⟨hi,hs⟩ := hlines 0 line hline
  rw [hitem] at hi
  rw [hsupplier] at hs
  exact ⟨o,⟨0,0,0,0,0,0,0,o.tx.req,none,hfits⟩,ho,rfl,hw,hnum,hi,hs⟩

end

end AlNiCo.Host.Message
