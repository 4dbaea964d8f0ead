import AlNiCo.Client.History
import AlNiCo.Library.CheckedArithmetic

/-! The keys of the client's store: the ids of a record packed into 64 bits, the warehouse read
back from them, and `easy_hash`, which splits a key into a bucket and what is left of it. -/
namespace AlNiCo.Store
open Client Client.History Library.CheckedArithmetic Option BitVec

section

def makeHistoryKey (hCId hCDId hCWId hDId hWId : BitVec 32) : BitVec 64 :=
  let cid := (hCWId*10+hCDId)*3000+hCId
  let did := hDId+hWId*10
  cid.setWidth 64 <<< 20 ||| did.setWidth 64

def makeOrderKey (wId dId oId : BitVec 32) : BitVec 64 := makeCustomerKey wId dId oId

def makeNewOrderKey (wId dId oId : BitVec 32) : BitVec 64 := makeCustomerKey wId dId oId

def makeOrderLineKey (wId dId oId number : BitVec 32) : BitVec 64 :=
  let upperId := wId*10+dId
  let oid := upperId.setWidth 64*10000000+oId.setWidth 64
  oid*15+number.setWidth 64

end

section

def orderKeyToWare (oKey : BitVec 64) : BitVec 32 := customerKeyToWare oKey

def newOrderKeyToWare (noKey : BitVec 64) : BitVec 32 := customerKeyToWare noKey

def orderLineKeyToWare (olKey : BitVec 64) : BitVec 32 :=
  let oid := olKey/15
  let upper : BitVec 32 := (oid/10000000).setWidth 32
  if upper % 10 = 0 then upper/10-1 else upper/10

end

section
variable (scaleFactor : Nat)

/-- `tpccmapsize` is 467. -/
def numDistrict : BitVec 64 := 467/(10*BitVec.ofNat 64 (scaleFactor+1)+1)

def districtBucket (tmp second : BitVec 64) : BitVec 64 :=
  (tmp*numDistrict scaleFactor+second % numDistrict scaleFactor) % 467

/-- The bucket, and the key with which the record is found there. -/
def easyHash (key : TxKey) : BitVec 64 × BitVec 64 :=
  let tmp := key.second
  match key.first.toNat with
  | 0 => (tmp*3 % 467,0)
  | 1 => (tmp*2 % 467,0)
  | 2 | 4 | 5 => (districtBucket scaleFactor (tmp >>> 32) (tmp &&& 0xFFFFFFFF),tmp &&& 0xFFFFFFFF)
  | 6 => (districtBucket scaleFactor (tmp/15/10000000) (tmp % 150000000),tmp % 150000000)
  | 8 =>
    let second := tmp % 100000
    let share : BitVec 64 := 467/BitVec.ofNat 64 (scaleFactor+1)
    ((tmp/100000*share+second % share) % 467,second)
  | _ => (tmp % 467,tmp/467)

end

section

def Id (lo hi : Nat) : Type := { x : BitVec 32 // lo ≤ x.toNat ∧ x.toNat ≤ hi }

def Id.toNat {lo hi : Nat} (x : Id lo hi) : Nat := x.val.toNat

theorem Id.ext {lo hi : Nat} {x y : Id lo hi} (h : x.toNat = y.toNat) : x = y := Subtype.ext (eq_of_toNat_eq h)

/-- A record of each table by its ids, in a store of `scaleFactor` warehouses. -/
inductive Record (scaleFactor : Nat)
  | ware (w : Id 1 scaleFactor)
  | dist (w : Id 1 scaleFactor) (d : Id 1 10)
  | cust (w : Id 1 scaleFactor) (d : Id 1 10) (c : Id 1 3000)
  | hist (c : Id 1 3000) (cd : Id 1 10) (cw : Id 1 scaleFactor) (d : Id 1 10) (w : Id 1 scaleFactor)
  | newo (w : Id 1 scaleFactor) (d : Id 1 10) (o : Id 0 9999998)
  | orde (w : Id 1 scaleFactor) (d : Id 1 10) (o : Id 0 9999998)
  | orli (w : Id 1 scaleFactor) (d : Id 1 10) (o : Id 0 9999998) (number : Id 1 15)
  | item (i : Id 1 100000)
  | stoc (w : Id 1 scaleFactor) (s : Id 1 100000)

namespace Record
variable {scaleFactor : Nat}

def table : Record scaleFactor → Nat
  | ware .. => 0
  | dist .. => 1
  | cust .. => 2
  | hist .. => 3
  | newo .. => 4
  | orde .. => 5
  | orli .. => 6
  | item .. => 7
  | stoc .. => 8

def second : Record scaleFactor → BitVec 64
  | ware w => w.val.setWidth 64
  | dist w d => makeDistrictKey w.val d.val
  | cust w d c => makeCustomerKey w.val d.val c.val
  | hist c cd cw d w => makeHistoryKey c.val cd.val cw.val d.val w.val
  | newo w d o => makeNewOrderKey w.val d.val o.val
  | orde w d o => makeOrderKey w.val d.val o.val
  | orli w d o number => makeOrderLineKey w.val d.val o.val number.val
  | item i => i.val.setWidth 64
  | stoc w s => makeStockKey w.val s.val

def key (r : Record scaleFactor) : TxKey := ⟨BitVec.ofNat 64 r.table,r.second⟩

/-- What the decoder of the record's table makes of its key, beside the warehouse that went into
it; the other tables have no decoder. -/
def decoded : Record scaleFactor → Option (BitVec 32 × BitVec 32)
  | r@(dist w _) => some (districtKeyToWare r.second,w.val)
  | r@(cust w _ _) => some (customerKeyToWare r.second,w.val)
  | r@(newo w _ _) => some (newOrderKeyToWare r.second,w.val)
  | r@(orde w _ _) => some (orderKeyToWare r.second,w.val)
  | r@(orli w _ _ _) => some (orderLineKeyToWare r.second,w.val)
  | r@(stoc w _) => some (Host.Message.stockKeyToWare r.second,w.val)
  | _ => none

end Record

end

/-! The same computations with every operation checked. -/
section

def checkedUpperId (w d : Nat) : Option Nat := do
  let product ← fits 64 (w*10)
  let sum ← fits 64 (product+d)
  fits 32 sum

def checkedCustomerKey (w d c : Nat) : Option Nat := do
  let upperId ← checkedUpperId w d
  let shifted ← fits 64 (upperId <<< 32)
  some (shifted ||| c)

def checkedHistoryKey (c cd cw d w : Nat) : Option Nat := do
  let product ← fits 64 (cw*10)
  let sum ← fits 64 (product+cd)
  let customers ← fits 64 (sum*3000)
  let whole ← fits 64 (customers+c)
  let cid ← fits 32 whole
  let did ← checkedUpperId w d
  let shifted ← fits 64 (cid <<< 20)
  some (shifted ||| did)

def checkedOrderLineKey (w d o number : Nat) : Option Nat := do
  let upperId ← checkedUpperId w d
  let product ← fits 64 (upperId*10000000)
  let oid ← fits 64 (product+o)
  let lines ← fits 64 (oid*15)
  fits 64 (lines+number)

def checkedStockKey (w s : Nat) : Option Nat := do
  let product ← fits 64 (w*100000)
  let sum ← fits 64 (s+product)
  fits 32 sum

def Record.checkedSecond {scaleFactor : Nat} : Record scaleFactor → Option Nat
  | ware w => some w.toNat
  | dist w d => checkedUpperId w.toNat d.toNat
  | cust w d c => checkedCustomerKey w.toNat d.toNat c.toNat
  | hist c cd cw d w => checkedHistoryKey c.toNat cd.toNat cw.toNat d.toNat w.toNat
  | newo w d o => checkedCustomerKey w.toNat d.toNat o.toNat
  | orde w d o => checkedCustomerKey w.toNat d.toNat o.toNat
  | orli w d o number => checkedOrderLineKey w.toNat d.toNat o.toNat number.toNat
  | item i => some i.toNat
  | stoc w s => checkedStockKey w.toNat s.toNat

/-- The quotient of a decoder: a remainder of zero belongs to the warehouse below. -/
def checkedWare (n size : Nat) : Option Nat :=
  if n % size = 0 then (minus (n/size) 1).bind (fits 32) else fits 32 (n/size)

def Record.checkedDecoded {scaleFactor : Nat} (r : Record scaleFactor) (key : Nat) : Option Nat :=
  match r with
  | dist .. => checkedWare key 10
  | cust .. | newo .. | orde .. => (fits 32 (key/2^32)).bind (fun upper => checkedWare upper 10)
  | orli .. => (fits 32 (key/15/10000000)).bind (fun upper => checkedWare upper 10)
  | stoc .. => checkedWare key 100000
  | _ => none

/-- A `scale_factor + 1` is an `int`. -/
def checkedNumDistrict (scaleFactor : Nat) : Option Nat := do
  let warehouses ← fits 31 (scaleFactor+1)
  let product ← fits 64 (10*warehouses)
  let districts ← fits 64 (product+1)
  quot 467 districts

def checkedBucket (tmp second share : Nat) : Option Nat := do
  let product ← fits 64 (tmp*share)
  let place ← rem second share
  let sum ← fits 64 (product+place)
  some (sum % 467)

def checkedEasyHash (scaleFactor table tmp : Nat) : Option (Nat × Nat) :=
  match table with
  | 0 => (fits 64 (tmp*3)).map (fun n => (n % 467,0))
  | 1 => (fits 64 (tmp*2)).map (fun n => (n % 467,0))
  | 2 | 4 | 5 => do
    let upper ← fits 32 (tmp/2^32)
    let share ← checkedNumDistrict scaleFactor
    let bucket ← checkedBucket upper (tmp % 2^32) share
    some (bucket,tmp % 2^32)
  | 6 => do
    let share ← checkedNumDistrict scaleFactor
    let bucket ← checkedBucket (tmp/15/10000000) (tmp % 150000000) share
    some (bucket,tmp % 150000000)
  | 8 => do
    let warehouses ← fits 31 (scaleFactor+1)
    let share ← quot 467 warehouses
    let bucket ← checkedBucket (tmp/100000) (tmp % 100000) share
    some (bucket,tmp % 100000)
  | _ => some (tmp % 467,tmp/467)

end

namespace Record
variable {scaleFactor : Nat}

def packed : Record scaleFactor → Nat
  | ware w => w.toNat
  | dist w d => w.toNat*10+d.toNat
  | cust w d c => (w.toNat*10+d.toNat)*2^32+c.toNat
  | hist c cd cw d w => ((cw.toNat*10+cd.toNat)*3000+c.toNat)*2^20+(w.toNat*10+d.toNat)
  | newo w d o => (w.toNat*10+d.toNat)*2^32+o.toNat
  | orde w d o => (w.toNat*10+d.toNat)*2^32+o.toNat
  | orli w d o number => ((w.toNat*10+d.toNat)*10000000+o.toNat)*15+number.toNat
  | item i => i.toNat
  | stoc w s => s.toNat+w.toNat*100000

end Record

section Packing
variable {scaleFactor : Nat}

theorem Id.bounds {lo hi} (x : Id lo hi) : lo ≤ x.toNat ∧ x.toNat ≤ hi := x.property

private theorem shiftLeft_or {a b k} (hb : b < 2^k) : a <<< k ||| b = a*2^k+b := by
  rw [← Nat.shiftLeft_add_eq_or_of_lt hb,Nat.shiftLeft_eq]

theorem toNat_pack {k} (a b : BitVec 32) (ha : a.toNat*2^k < 2^64) (hb : b.toNat < 2^k) :
    (a.setWidth 64 <<< k ||| b.setWidth 64).toNat = a.toNat*2^k+b.toNat := by
  have hsmall (x : BitVec 32) : x.toNat % 2^64 = x.toNat := Nat.mod_eq_of_lt (x.isLt.trans (by decide))
  rw [toNat_or,toNat_shiftLeft,toNat_setWidth,toNat_setWidth,hsmall,hsmall,Nat.mod_eq_of_lt (by rwa [Nat.shiftLeft_eq]),shiftLeft_or hb]

theorem checkedUpperId_eq {w d} (hw : w ≤ 45) (hd : d ≤ 10) : checkedUpperId w d = some (w*10+d) := by
  have hproduct : w*10 < 2^64 := by omega
  have hsum : w*10+d < 2^64 := by omega
  have hcut : w*10+d < 2^32 := by omega
  rw [checkedUpperId,bind_eq_bind,fits_bind hproduct,fits_bind hsum,fits_of_lt hcut]

theorem checkedCustomerKey_eq {w d x} (hw : w ≤ 45) (hd : d ≤ 10) (hx : x < 2^32) : checkedCustomerKey w d x = some ((w*10+d)*2^32+x) := by
  have hshift : (w*10+d) <<< 32 < 2^64 := by
    rw [Nat.shiftLeft_eq]
    omega
  rw [checkedCustomerKey,checkedUpperId_eq hw hd,bind_eq_bind,bind_some,fits_bind hshift,shiftLeft_or hx]

theorem checkedHistoryKey_eq {c cd cw d w} (hc : c ≤ 3000) (hcd : cd ≤ 10) (hcw : cw ≤ 45) (hd : d ≤ 10) (hw : w ≤ 45) :
    checkedHistoryKey c cd cw d w = some (((cw*10+cd)*3000+c)*2^20+(w*10+d)) := by
  have hlow : w*10+d < 2^20 := by omega
  have hshift : ((cw*10+cd)*3000+c) <<< 20 < 2^64 := by
    rw [Nat.shiftLeft_eq]
    omega
  obtain ⟨hproduct,hsum,hcustomers,hwhole,hcut⟩ : cw*10 < 2^64 ∧ cw*10+cd < 2^64 ∧ (cw*10+cd)*3000 < 2^64 ∧
    (cw*10+cd)*3000+c < 2^64 ∧ (cw*10+cd)*3000+c < 2^32 := by omega
  rw [checkedHistoryKey,bind_eq_bind,fits_bind hproduct,fits_bind hsum,fits_bind hcustomers,fits_bind hwhole,
    fits_bind hcut,checkedUpperId_eq hw hd,bind_some,fits_bind hshift,shiftLeft_or hlow]

theorem checkedOrderLineKey_eq {w d o number} (hw : w ≤ 45) (hd : d ≤ 10) (ho : o ≤ 9999998) (hn : number ≤ 15) :
    checkedOrderLineKey w d o number = some (((w*10+d)*10000000+o)*15+number) := by
  obtain ⟨hproduct,hoid,hlines,holid⟩ : (w*10+d)*10000000 < 2^64 ∧ (w*10+d)*10000000+o < 2^64 ∧
    ((w*10+d)*10000000+o)*15 < 2^64 ∧ ((w*10+d)*10000000+o)*15+number < 2^64 := by omega
  rw [checkedOrderLineKey,checkedUpperId_eq hw hd,bind_eq_bind,bind_some,fits_bind hproduct,fits_bind hoid,
    fits_bind hlines,fits_of_lt holid]

theorem checkedStockKey_eq {w s} (hw : w ≤ 45) (hs : s ≤ 100000) : checkedStockKey w s = some (s+w*100000) := by
  have hproduct : w*100000 < 2^64 := by omega
  have hsum : s+w*100000 < 2^64 := by omega
  have hcut : s+w*100000 < 2^32 := by omega
  rw [checkedStockKey,bind_eq_bind,fits_bind hproduct,fits_bind hsum,fits_of_lt hcut]

private theorem toNat_widen (x : BitVec 32) : (x.setWidth 64).toNat = x.toNat :=
  toNat_setWidth_of_le (by decide)

variable (hle : scaleFactor ≤ 45) (w : Id 1 scaleFactor) (d : Id 1 10) (o : Id 0 9999998) (number : Id 1 15)
include hle

theorem toNat_upperId : (w.val*10+d.val).toNat = w.toNat*10+d.toNat := by
  have hw := w.bounds
  have hd := d.bounds
  rw [toNat_add,toNat_mul]
  change (w.toNat*10 % 2^32+d.toNat) % 2^32 = _
  omega

theorem toNat_makeCustomerKey (x : BitVec 32) : (makeCustomerKey w.val d.val x).toNat = (w.toNat*10+d.toNat)*2^32+x.toNat := by
  have hw := w.bounds
  have hd := d.bounds
  have hupper := toNat_upperId hle w d
  rw [makeCustomerKey,toNat_pack _ _ (by omega) x.isLt,hupper]

theorem toNat_makeHistoryKey (c : Id 1 3000) (cd : Id 1 10) (cw : Id 1 scaleFactor) :
    (makeHistoryKey c.val cd.val cw.val d.val w.val).toNat = ((cw.toNat*10+cd.toNat)*3000+c.toNat)*2^20+(w.toNat*10+d.toNat) := by
  have hc := c.bounds
  have hcd := cd.bounds
  have hcw := cw.bounds
  have hd := d.bounds
  have hw := w.bounds
  have hupper := toNat_upperId hle cw cd
  have hcid : ((cw.val*10+cd.val)*3000+c.val).toNat = (cw.toNat*10+cd.toNat)*3000+c.toNat := by
    rw [toNat_add,toNat_mul,hupper,show (3000 : BitVec 32).toNat = 3000 from rfl,show c.val.toNat = c.toNat from rfl]
    omega
  have hdid : (d.val+w.val*10).toNat = w.toNat*10+d.toNat := by rw [add_comm,toNat_upperId hle w d]
  have hroom : ((cw.val*10+cd.val)*3000+c.val).toNat*2^20 < 2^64 := by
    rw [hcid]
    omega
  have hlow : (d.val+w.val*10).toNat < 2^20 := by
    rw [hdid]
    omega
  rw [makeHistoryKey,toNat_pack _ _ hroom hlow,hcid,hdid]

theorem toNat_makeOrderLineKey : (makeOrderLineKey w.val d.val o.val number.val).toNat =
      ((w.toNat*10+d.toNat)*10000000+o.toNat)*15+number.toNat := by
  have hw := w.bounds
  have hd := d.bounds
  have ho := o.bounds
  have hn := number.bounds
  have hupper := toNat_upperId hle w d
  rw [makeOrderLineKey,toNat_add,toNat_mul,toNat_add,toNat_mul,toNat_setWidth,
    toNat_setWidth,toNat_setWidth,hupper,show (10000000 : BitVec 64).toNat = 10000000 from rfl,
    show (15 : BitVec 64).toNat = 15 from rfl,show o.val.toNat = o.toNat from rfl,show number.val.toNat = number.toNat from rfl]
  omega

/-- The machine and the checked computation agree on every key. -/
theorem Record.toNat_second (r : Record scaleFactor) : r.second.toNat = r.packed := by
  cases r with
  | ware w => exact toNat_widen w.val
  | dist w d =>
    have hw := w.bounds
    have hd := d.bounds
    have hupper := toNat_upperId hle w d
    rw [second,makeDistrictKey,toNat_widen,add_comm,hupper]
    rfl
  | cust w d c => exact toNat_makeCustomerKey hle w d c.val
  | hist c cd cw d w => exact toNat_makeHistoryKey hle w d c cd cw
  | newo w d o | orde w d o => exact toNat_makeCustomerKey hle w d o.val
  | orli w d o number => exact toNat_makeOrderLineKey hle w d o number
  | item i => exact toNat_widen i.val
  | stoc w s => exact Host.Message.toNat_makeStockKey ((w.bounds.2.trans hle).trans (by decide)) s.bounds.2

theorem Record.checkedSecond_eq (r : Record scaleFactor) : r.checkedSecond = some r.packed := by
  have hware (w : Id 1 scaleFactor) : w.toNat ≤ 45 := w.bounds.2.trans hle
  cases r with
  | ware w => rfl
  | dist w d => exact checkedUpperId_eq (hware w) d.bounds.2
  | cust w d c => exact checkedCustomerKey_eq (hware w) d.bounds.2 c.val.isLt
  | hist c cd cw d w => exact checkedHistoryKey_eq c.bounds.2 cd.bounds.2 (hware cw) d.bounds.2 (hware w)
  | newo w d o | orde w d o => exact checkedCustomerKey_eq (hware w) d.bounds.2 o.val.isLt
  | orli w d o number => exact checkedOrderLineKey_eq (hware w) d.bounds.2 o.bounds.2 number.bounds.2
  | item i => rfl
  | stoc w s => exact checkedStockKey_eq (hware w) s.bounds.2

end Packing

section Hashing
variable {scaleFactor : Nat}

/-- A record's place: buckets in steps of `share` for its warehouse or district. -/
def place (upper second share : Nat) : Nat × Nat := ((upper*share+second % share) % 467,second)

def districtShare (scaleFactor : Nat) : Nat := 467/(10*(scaleFactor+1)+1)

def stockShare (scaleFactor : Nat) : Nat := 467/(scaleFactor+1)

def hashed (scaleFactor table n : Nat) : Nat × Nat :=
  match table with
  | 0 => (n*3 % 467,0)
  | 1 => (n*2 % 467,0)
  | 2 | 4 | 5 => place (n/2^32) (n % 2^32) (districtShare scaleFactor)
  | 6 => place (n/15/10000000) (n % 150000000) (districtShare scaleFactor)
  | 8 => place (n/100000) (n % 100000) (stockShare scaleFactor)
  | _ => (n % 467,n/467)

theorem hashed_lt (scaleFactor table n : Nat) : (hashed scaleFactor table n).1 < 467 := by
  unfold hashed
  split <;> exact Nat.mod_lt _ (by decide)

/-- The bucket of a small district or warehouse number is computed without overflow. -/
theorem toNat_place {upper second share : BitVec 64} {a b n : Nat} (hupper : upper.toNat = a) (hsecond : second.toNat = b)
    (hshare : share.toNat = n) (ha : a ≤ 1000) (hn : 0 < n ∧ n ≤ 467) :
    (((upper*share+second % share) % 467).toNat,second.toNat) = place a b n := by
  have hproduct : a*n ≤ 1000*467 := Nat.mul_le_mul ha hn.2
  have hrem : b % n < n := Nat.mod_lt b hn.1
  have hfirst : a*n % 2^64 = a*n := Nat.mod_eq_of_lt (by omega)
  have hsum : (a*n+b % n) % 2^64 = a*n+b % n := Nat.mod_eq_of_lt (by omega)
  rw [toNat_umod,toNat_add,toNat_mul,toNat_umod,hupper,hsecond,hshare,hfirst,hsum]
  rfl

theorem checkedBucket_eq {a b n} (ha : a ≤ 1000) (hn : 0 < n ∧ n ≤ 467) : checkedBucket a b n = some (place a b n).1 := by
  have hproduct : a*n ≤ 1000*467 := Nat.mul_le_mul ha hn.2
  have hrem : b % n < n := Nat.mod_lt b hn.1
  have hfirst : a*n < 2^64 := by omega
  have hsum : a*n+b % n < 2^64 := by omega
  rw [checkedBucket,bind_eq_bind,fits_bind hfirst,rem_of_pos hn.1,bind_some,fits_bind hsum]
  rfl

private theorem toNat_low (x : BitVec 64) : (x &&& 0xFFFFFFFF).toNat = x.toNat % 2^32 := by
  rw [toNat_and,show (0xFFFFFFFF : BitVec 64).toNat = 2^32-1 from rfl,Nat.and_two_pow_sub_one_eq_mod]

private theorem toNat_high (x : BitVec 64) : (x >>> 32).toNat = x.toNat/2^32 := by
  rw [toNat_ushiftRight,Nat.shiftRight_eq_div_pow]

private theorem toNat_times {x} (k : BitVec 64) {n} (hx : x.toNat = n) (hroom : n*k.toNat < 2^64) :
    (x*k % 467).toNat = n*k.toNat % 467 := by
  rw [toNat_umod,toNat_mul,hx,Nat.mod_eq_of_lt hroom]
  rfl

/-- The steps of `k+1` shares stay below the number of buckets. -/
theorem share_room {k} (hk : k < 467) : 0 < 467/(k+1) ∧ 467/(k+1) ≤ 467 ∧ k*(467/(k+1)) < 467 := by
  have hpos : 0 < 467/(k+1) := Nat.div_pos hk (Nat.succ_pos k)
  have hmul := Nat.mul_div_le 467 (k+1)
  rw [Nat.add_mul,Nat.one_mul] at hmul
  exact ⟨hpos,Nat.div_le_self 467 _,by omega⟩

variable (hle : scaleFactor ≤ 45) (w : Id 1 scaleFactor) (d : Id 1 10) (o : Id 0 9999998) (number : Id 1 15)
include hle

theorem toNat_numDistrict : (numDistrict scaleFactor).toNat = districtShare scaleFactor := by
  have hone : (scaleFactor+1) % 2^64 = scaleFactor+1 := by omega
  have hdistricts : (10*(scaleFactor+1) % 2^64+1) % 2^64 = 10*(scaleFactor+1)+1 := by omega
  rw [numDistrict,toNat_udiv,toNat_add,toNat_mul,toNat_ofNat,hone,
    show (10 : BitVec 64).toNat = 10 from rfl,show (1 : BitVec 64).toNat = 1 from rfl,hdistricts]
  rfl

theorem toNat_stockShare : ((467 : BitVec 64)/BitVec.ofNat 64 (scaleFactor+1)).toNat = stockShare scaleFactor := by
  have hone : (scaleFactor+1) % 2^64 = scaleFactor+1 := by omega
  rw [toNat_udiv,toNat_ofNat,hone]
  rfl

theorem checkedNumDistrict_eq : checkedNumDistrict scaleFactor = some (districtShare scaleFactor) := by
  have hone : scaleFactor+1 < 2^31 := by omega
  have hproduct : 10*(scaleFactor+1) < 2^64 := by omega
  have hsum : 10*(scaleFactor+1)+1 < 2^64 := by omega
  rw [checkedNumDistrict,bind_eq_bind,fits_bind hone,fits_bind hproduct,fits_bind hsum,quot_of_pos (by omega)]
  rfl

theorem districtShare_room :
    0 < districtShare scaleFactor ∧ districtShare scaleFactor ≤ 467 ∧ 10*(scaleFactor+1)*districtShare scaleFactor < 467 :=
  share_room (by omega)

theorem stockShare_room : 0 < stockShare scaleFactor ∧ stockShare scaleFactor ≤ 467 ∧ scaleFactor*stockShare scaleFactor < 467 :=
  share_room (by omega)

theorem upper_packed {x} (hx : x < 2^32) :
    ((w.toNat*10+d.toNat)*2^32+x)/2^32 = w.toNat*10+d.toNat ∧ ((w.toNat*10+d.toNat)*2^32+x) % 2^32 = x ∧
      w.toNat*10+d.toNat ≤ 10*(scaleFactor+1) ∧ w.toNat*10+d.toNat ≤ 1000 := by
  have hw := w.bounds
  have hd := d.bounds
  omega

theorem upper_orderLine : (((w.toNat*10+d.toNat)*10000000+o.toNat)*15+number.toNat)/15/10000000 = w.toNat*10+d.toNat ∧
      (((w.toNat*10+d.toNat)*10000000+o.toNat)*15+number.toNat) % 150000000 = o.toNat*15+number.toNat ∧
      w.toNat*10+d.toNat ≤ 10*(scaleFactor+1) ∧ w.toNat*10+d.toNat ≤ 1000 := by
  have hw := w.bounds
  have hd := d.bounds
  have ho := o.bounds
  have hn := number.bounds
  omega

/-- Item 100000 of a warehouse is the last number before the next one's. -/
theorem upper_stock (s : Id 1 100000) : 1 ≤ (s.toNat+w.toNat*100000)/100000 ∧ (s.toNat+w.toNat*100000)/100000 ≤ scaleFactor+1 ∧
      (s.toNat+w.toNat*100000)/100000 ≤ 1000 := by
  have hw := w.bounds
  have hs := s.bounds
  omega

/-- A table whose buckets are dealt out to the districts. -/
theorem toNat_districtBucket {upper second a b} (hupper : upper.toNat = a) (hsecond : second.toNat = b) (ha : a ≤ 1000) :
    ((districtBucket scaleFactor upper second).toNat,second.toNat) = place a b (districtShare scaleFactor) := by
  have hroom := districtShare_room hle
  exact toNat_place hupper hsecond (toNat_numDistrict hle) ha ⟨hroom.1,hroom.2.1⟩

theorem Record.toNat_easyHash (r : Record scaleFactor) :
    ((easyHash scaleFactor r.key).1.toNat,(easyHash scaleFactor r.key).2.toNat) = hashed scaleFactor r.table r.packed := by
  have hkey := r.toNat_second hle
  have hupper {w : Id 1 scaleFactor} {d : Id 1 10} {x : BitVec 64} {y : BitVec 32}
      (hx : x.toNat = (w.toNat*10+d.toNat)*2^32+y.toNat) :
      ((districtBucket scaleFactor (x >>> 32) (x &&& 0xFFFFFFFF)).toNat,(x &&& 0xFFFFFFFF).toNat) =
        place (((w.toNat*10+d.toNat)*2^32+y.toNat)/2^32) (((w.toNat*10+d.toNat)*2^32+y.toNat) % 2^32)
          (districtShare scaleFactor) := by
    have hbound := upper_packed hle w d y.isLt
    exact toNat_districtBucket hle (by rw [toNat_high,hx]) (by rw [toNat_low,hx]) (hbound.1.trans_le hbound.2.2.2)
  have hplain {x : BitVec 64} {n : Nat} (hx : x.toNat = n) : ((x % 467).toNat,(x/467).toNat) = (n % 467,n/467) := by
    rw [toNat_umod,toNat_udiv,hx]
    rfl
  cases r with
  | ware w =>
    have hw := w.bounds
    refine Prod.ext (toNat_times 3 hkey ?_) rfl
    change w.toNat*3 < 2^64
    omega
  | dist w d =>
    have hw := w.bounds
    have hd := d.bounds
    refine Prod.ext (toNat_times 2 hkey ?_) rfl
    change (w.toNat*10+d.toNat)*2 < 2^64
    omega
  | cust | newo | orde => exact hupper hkey
  | hist | item => exact hplain hkey
  | orli w d o number =>
    have hbound := upper_orderLine hle w d o number
    refine toNat_districtBucket hle ?_ ?_ (hbound.1.trans_le hbound.2.2.2)
    · rw [toNat_udiv,toNat_udiv]
      exact congrArg (fun n => n/15/10000000) hkey
    · rw [toNat_umod]
      exact congrArg (fun n => n % 150000000) hkey
  | stoc w s =>
    have hbound := upper_stock hle w s
    have hroom := stockShare_room hle
    refine toNat_place ?_ ?_ (toNat_stockShare hle) hbound.2.2 ⟨hroom.1,hroom.2.1⟩
    · rw [toNat_udiv]
      exact congrArg (fun n => n/100000) hkey
    · rw [toNat_umod]
      exact congrArg (fun n => n % 100000) hkey

theorem checkedEasyHash_upper {n} (hn : n/2^32 ≤ 1000) : checkedEasyHash scaleFactor 2 n = some (hashed scaleFactor 2 n) := by
  have hroom := districtShare_room hle
  have hfit : n/2^32 < 2^32 := by omega
  rw [checkedEasyHash,bind_eq_bind,fits_bind hfit,checkedNumDistrict_eq hle,bind_some,checkedBucket_eq hn ⟨hroom.1,hroom.2.1⟩]
  rfl

theorem checkedEasyHash_orderLine {n} (hn : n/15/10000000 ≤ 1000) : checkedEasyHash scaleFactor 6 n = some (hashed scaleFactor 6 n) := by
  have hroom := districtShare_room hle
  rw [checkedEasyHash,bind_eq_bind,checkedNumDistrict_eq hle,bind_some,checkedBucket_eq hn ⟨hroom.1,hroom.2.1⟩]
  rfl

theorem checkedEasyHash_stock {n} (hn : n/100000 ≤ 1000) : checkedEasyHash scaleFactor 8 n = some (hashed scaleFactor 8 n) := by
  have hroom := stockShare_room hle
  have hone : scaleFactor+1 < 2^31 := by omega
  rw [checkedEasyHash,bind_eq_bind,fits_bind hone,quot_of_pos (by omega),bind_some,← stockShare,checkedBucket_eq hn ⟨hroom.1,hroom.2.1⟩]
  rfl

theorem Record.checkedEasyHash_eq (r : Record scaleFactor) :
    checkedEasyHash scaleFactor r.table r.packed = some (hashed scaleFactor r.table r.packed) := by
  have hupper (w : Id 1 scaleFactor) (d : Id 1 10) {x : Nat} (hx : x < 2^32) :=
    checkedEasyHash_upper hle ((upper_packed hle w d hx).1.trans_le (upper_packed hle w d hx).2.2.2)
  cases r with
  | ware w =>
    have hw := w.bounds
    have hfit : w.toNat*3 < 2^64 := by omega
    exact congrArg (Option.map (fun n => (n % 467,0))) (fits_of_lt hfit)
  | dist w d =>
    have hw := w.bounds
    have hd := d.bounds
    have hfit : (w.toNat*10+d.toNat)*2 < 2^64 := by omega
    exact congrArg (Option.map (fun n => (n % 467,0))) (fits_of_lt hfit)
  | cust w d c => exact hupper w d c.val.isLt
  | hist | item => rfl
  | newo w d o | orde w d o => exact hupper w d o.val.isLt
  | orli w d o number =>
    have hbound := upper_orderLine hle w d o number
    exact checkedEasyHash_orderLine hle (hbound.1.trans_le hbound.2.2.2)
  | stoc w s => exact checkedEasyHash_stock hle (upper_stock hle w s).2.2

end Hashing

section Places
variable {scaleFactor : Nat} {w w' : Id 1 scaleFactor} {d d' : Id 1 10}

/-- A place gives back the step and what was stored there. -/
theorem place_injective {a a' b b' n lo hi} (hn : 0 < n) (ha : lo ≤ a ∧ a ≤ hi) (ha' : lo ≤ a' ∧ a' ≤ hi)
    (hroom : (hi-lo)*n < 467) (h : place a b n = place a' b' n) : a = a' ∧ b = b' := by
  have hbucket := congrArg Prod.fst h
  obtain rfl : b = b' := congrArg Prod.snd h
  exact ⟨digit_injective hn ha ha' hroom hbucket,rfl⟩

theorem district_injective (h : w.toNat*10+d.toNat = w'.toNat*10+d'.toNat) : w = w' ∧ d = d' := by
  have hd := d.bounds
  have hd' := d'.bounds
  exact ⟨Id.ext (by omega),Id.ext (by omega)⟩

theorem eq_of_div_mod {n n'} (h : (n % 467,n/467) = (n' % 467,n'/467)) : n = n' := by
  obtain ⟨hmod,hdiv⟩ := Prod.mk.inj h
  omega

private theorem customer_digit {u u' c c'} (hc : 1 ≤ c ∧ c ≤ 3000) (hc' : 1 ≤ c' ∧ c' ≤ 3000)
    (h : u*3000+c = u'*3000+c') : u = u' ∧ c = c' := by omega

variable (hle : scaleFactor ≤ 45)
include hle

/-- In the tables whose buckets are dealt out to the districts a place gives back the district. -/
theorem districtPlace_injective {b b'}
    (h : place (w.toNat*10+d.toNat) b (districtShare scaleFactor) = place (w'.toNat*10+d'.toNat) b' (districtShare scaleFactor)) :
    w = w' ∧ d = d' ∧ b = b' := by
  have hroom := districtShare_room hle
  have hbound := (upper_packed hle w d (show 0 < 2^32 by decide)).2.2.1
  have hbound' := (upper_packed hle w' d' (show 0 < 2^32 by decide)).2.2.1
  obtain ⟨hsum,hb⟩ := place_injective hroom.1 ⟨Nat.zero_le _,hbound⟩ ⟨Nat.zero_le _,hbound'⟩ hroom.2.2 h
  obtain ⟨hw,hd⟩ := district_injective hsum
  exact ⟨hw,hd,hb⟩

theorem hashed_upper_injective {x x'} (hx : x < 2^32) (hx' : x' < 2^32)
    (h : hashed scaleFactor 2 ((w.toNat*10+d.toNat)*2^32+x) = hashed scaleFactor 2 ((w'.toNat*10+d'.toNat)*2^32+x')) :
    w = w' ∧ d = d' ∧ x = x' := by
  obtain ⟨hdiv,hmod,-⟩ := upper_packed hle w d hx
  obtain ⟨hdiv',hmod',-⟩ := upper_packed hle w' d' hx'
  rw [hashed,hashed,hdiv,hmod,hdiv',hmod'] at h
  exact districtPlace_injective hle h

theorem hashed_district_injective
    (h : hashed scaleFactor 1 (w.toNat*10+d.toNat) = hashed scaleFactor 1 (w'.toNat*10+d'.toNat)) : w = w' ∧ d = d' := by
  have hw := w.bounds
  have hd := d.bounds
  have hw' := w'.bounds
  have hd' := d'.bounds
  have hbucket : (w.toNat*10+d.toNat)*2 % 467 = (w'.toNat*10+d'.toNat)*2 % 467 := congrArg Prod.fst h
  -- the modulus is odd
  have hsum : w.toNat*10+d.toNat = w'.toNat*10+d'.toNat := by omega
  exact district_injective hsum

theorem hashed_history_injective {c c' : Id 1 3000} {cd cd' : Id 1 10} {cw cw' : Id 1 scaleFactor}
    (h : (Record.hist c cd cw d w).packed = (Record.hist c' cd' cw' d' w').packed) :
    c = c' ∧ cd = cd' ∧ cw = cw' ∧ d = d' ∧ w = w' := by
  have hc := c.bounds
  have hd := d.bounds
  have hw := w.bounds
  have hc' := c'.bounds
  have hd' := d'.bounds
  have hw' := w'.bounds
  rw [Record.packed,Record.packed] at h
  obtain ⟨hcid,hdid⟩ : (cw.toNat*10+cd.toNat)*3000+c.toNat = (cw'.toNat*10+cd'.toNat)*3000+c'.toNat ∧
    w.toNat*10+d.toNat = w'.toNat*10+d'.toNat := by omega
  obtain ⟨hupper,hcustomer⟩ := customer_digit hc hc' hcid
  obtain ⟨hcw,hcd⟩ := district_injective hupper
  obtain ⟨hw,hd⟩ := district_injective hdid
  exact ⟨Id.ext hcustomer,hcd,hcw,hd,hw⟩

theorem hashed_orderLine_injective {o o' : Id 0 9999998} {number number' : Id 1 15}
    (h : hashed scaleFactor 6 (Record.orli w d o number).packed = hashed scaleFactor 6 (Record.orli w' d' o' number').packed) :
    w = w' ∧ d = d' ∧ o = o' ∧ number = number' := by
  have hn := number.bounds
  have hn' := number'.bounds
  obtain ⟨hdiv,hmod,-⟩ := upper_orderLine hle w d o number
  obtain ⟨hdiv',hmod',-⟩ := upper_orderLine hle w' d' o' number'
  rw [Record.packed,Record.packed,hashed,hashed,hdiv,hmod,hdiv',hmod'] at h
  obtain ⟨hw,hd,hline⟩ := districtPlace_injective hle h
  exact ⟨hw,hd,Id.ext (by omega),Id.ext (by omega)⟩

theorem hashed_stock_injective {s s' : Id 1 100000}
    (h : hashed scaleFactor 8 (Record.stoc w s).packed = hashed scaleFactor 8 (Record.stoc w' s').packed) : w = w' ∧ s = s' := by
  have hshare := stockShare_room hle
  have hbound := upper_stock hle w s
  have hbound' := upper_stock hle w' s'
  have hs := s.bounds
  have hs' := s'.bounds
  obtain ⟨hdiv,hmod⟩ := place_injective hshare.1 ⟨hbound.1,hbound.2.1⟩ ⟨hbound'.1,hbound'.2.1⟩ hshare.2.2 h
  have hkey : s.toNat+w.toNat*100000 = s'.toNat+w'.toNat*100000 := by
    rw [Record.packed,Record.packed] at hmod
    omega
  exact ⟨Id.ext (by omega),Id.ext (by omega)⟩

theorem Record.eq_of_hashed {r r' : Record scaleFactor} (htable : r.table = r'.table)
    (h : hashed scaleFactor r.table r.packed = hashed scaleFactor r'.table r'.packed) : r = r' := by
  cases r with
  | ware w => cases r' with
    | ware w' =>
      have hw := w.bounds
      have hw' := w'.bounds
      have hbucket : w.toNat*3 % 467 = w'.toNat*3 % 467 := congrArg Prod.fst h
      exact congrArg ware (Id.ext (by omega))
    | _ => cases htable
  | dist w d => cases r' with
    | dist w' d' =>
      obtain ⟨rfl,rfl⟩ := hashed_district_injective hle h
      rfl
    | _ => cases htable
  | cust w d c => cases r' with
    | cust w' d' c' =>
      obtain ⟨rfl,rfl,hc⟩ := hashed_upper_injective hle c.val.isLt c'.val.isLt h
      exact congrArg (cust w d) (Id.ext hc)
    | _ => cases htable
  | hist c cd cw d w => cases r' with
    | hist c' cd' cw' d' w' =>
      obtain ⟨rfl,rfl,rfl,rfl,rfl⟩ := hashed_history_injective hle (eq_of_div_mod h)
      rfl
    | _ => cases htable
  | newo w d o => cases r' with
    | newo w' d' o' =>
      obtain ⟨rfl,rfl,ho⟩ := hashed_upper_injective hle o.val.isLt o'.val.isLt h
      exact congrArg (newo w d) (Id.ext ho)
    | _ => cases htable
  | orde w d o => cases r' with
    | orde w' d' o' =>
      obtain ⟨rfl,rfl,ho⟩ := hashed_upper_injective hle o.val.isLt o'.val.isLt h
      exact congrArg (orde w d) (Id.ext ho)
    | _ => cases htable
  | orli w d o number => cases r' with
    | orli w' d' o' number' =>
      obtain ⟨rfl,rfl,rfl,rfl⟩ := hashed_orderLine_injective hle h
      rfl
    | _ => cases htable
  | item i => cases r' with
    | item i' => exact congrArg item (Id.ext (eq_of_div_mod h))
    | _ => cases htable
  | stoc w s => cases r' with
    | stoc w' s' =>
      obtain ⟨rfl,rfl⟩ := hashed_stock_injective hle h
      rfl
    | _ => cases htable

end Places

section
variable {scaleFactor : Nat}

/-- A number from `1` to `size` above the warehouse's multiple. -/
theorem checkedWare_eq {n w x size} (hn : n = w*size+x) (hsize : 1 < size) (hx : 1 ≤ x ∧ x ≤ size) (hw : w ≤ 45) :
    checkedWare n size = some w := by
  obtain hlt | heq := Nat.lt_or_eq_of_le hx.2
  · have hdiv : n/size = w := by
      rw [hn,Nat.mul_comm,Nat.mul_add_div (by omega),Nat.div_eq_of_lt hlt,Nat.add_zero]
    have hmod : n % size = x := by rw [hn,Nat.mul_comm,Nat.mul_add_mod,Nat.mod_eq_of_lt hlt]
    rw [checkedWare,hmod,if_neg (by omega),hdiv,fits_of_lt (by omega)]
  · have hnext : n = (w+1)*size := by rw [hn,heq,Nat.add_mul,Nat.one_mul]
    have hdiv : n/size = w+1 := by rw [hnext,Nat.mul_div_cancel _ (by omega)]
    have hmod : n % size = 0 := by rw [hnext,Nat.mul_mod_left]
    rw [checkedWare,if_pos hmod,hdiv,minus_of_le (by omega),Nat.add_sub_cancel,bind_some,fits_of_lt (by omega)]

variable (hle : scaleFactor ≤ 45)
include hle

theorem Record.checkedDecoded_eq (r : Record scaleFactor) : r.checkedDecoded r.packed = r.decoded.map (fun p => p.2.toNat) := by
  have hware (w : Id 1 scaleFactor) : w.toNat ≤ 45 := w.bounds.2.trans hle
  have hupper {n : Nat} (w : Id 1 scaleFactor) (d : Id 1 10) (hn : n = w.toNat*10+d.toNat) :
      (fits 32 n).bind (fun upper => checkedWare upper 10) = some w.toNat := by
    have hw := hware w
    have hd := d.bounds
    rw [fits_bind (by omega)]
    exact checkedWare_eq hn (by decide) hd hw
  cases r with
  | ware | hist | item => rfl
  | dist w d => exact checkedWare_eq rfl (by decide) d.bounds (hware w)
  | cust w d c => exact hupper w d (upper_packed hle w d c.val.isLt).1
  | newo w d o | orde w d o => exact hupper w d (upper_packed hle w d o.val.isLt).1
  | orli w d o number => exact hupper w d (upper_orderLine hle w d o number).1
  | stoc w s => exact checkedWare_eq (Nat.add_comm _ _) (by decide) s.bounds (hware w)

theorem orderLineKeyToWare_make (w : Id 1 scaleFactor) (d : Id 1 10) (o : Id 0 9999998)
    (number : Id 1 15) : orderLineKeyToWare (makeOrderLineKey w.val d.val o.val number.val) = w.val := by
  have hkey := toNat_makeOrderLineKey hle w d o number
  have hdiv := (upper_orderLine hle w d o number).1
  have hw := w.bounds
  have hd := d.bounds
  have hupper : ((makeOrderLineKey w.val d.val o.val number.val/15/10000000).setWidth 32 : BitVec 32).toNat =
      10*w.val.toNat+d.val.toNat := by
    rw [toNat_setWidth,toNat_udiv,toNat_udiv,hkey,show (15 : BitVec 64).toNat = 15 from rfl,
      show (10000000 : BitVec 64).toNat = 10000000 from rfl,hdiv,Nat.mul_comm 10]
    exact Nat.mod_eq_of_lt (by omega)
  exact eq_of_toNat_eq (quotient_toNat _ rfl rfl hd.1 hd.2 hupper)

/-- Every decoder is the inverse of its table's encoder. -/
theorem Record.eq_of_mem_decoded (r : Record scaleFactor) {p} (hp : p ∈ r.decoded) : p.1 = p.2 := by
  have hware (w : Id 1 scaleFactor) : w.val.toNat ≤ 42000 := (w.bounds.2.trans hle).trans (by decide)
  cases r with
  | ware | hist | item => cases hp
  | dist w d =>
    cases hp
    exact districtKeyToWare_make ⟨w.val,hware w⟩ ⟨d.val,d.bounds⟩
  | cust w d c =>
    cases hp
    exact customerKeyToWare_make ⟨w.val,hware w⟩ ⟨d.val,d.bounds⟩ c.val
  | newo w d o | orde w d o =>
    cases hp
    exact customerKeyToWare_make ⟨w.val,hware w⟩ ⟨d.val,d.bounds⟩ o.val
  | orli w d o number =>
    cases hp
    exact orderLineKeyToWare_make hle w d o number
  | stoc w s =>
    cases hp
    exact Host.Message.stockKeyToWare_makeStockKey ⟨w.val,hware w⟩ ⟨s.val,s.bounds⟩

end

/-- The warehouses come back out of the keys, two records of a table never share a bucket and a key
in it, every bucket is one of the table's, and no operation on the way runs out of its bits or
divides by zero. -/
theorem packed_keys_sound {scaleFactor : Nat} (hle : scaleFactor ≤ 45) :
    (∀ (r : Record scaleFactor), ∀ p ∈ r.decoded, p.1 = p.2) ∧
    (∀ r : Record scaleFactor, (easyHash scaleFactor r.key).1.toNat < 467) ∧
    (∀ r r' : Record scaleFactor, r.table = r'.table → easyHash scaleFactor r.key = easyHash scaleFactor r'.key → r = r') ∧
    (∀ r : Record scaleFactor, r.checkedSecond = some r.second.toNat ∧
      checkedEasyHash scaleFactor r.table r.second.toNat =
        some ((easyHash scaleFactor r.key).1.toNat,(easyHash scaleFactor r.key).2.toNat) ∧
      r.checkedDecoded r.second.toNat = r.decoded.map (fun p => p.1.toNat)) := by
  refine ⟨fun r p hp => r.eq_of_mem_decoded hle hp,fun r => ?_,fun r r' htable h => ?_,fun r => ⟨?_,?_,?_⟩⟩
  · have hbucket : (easyHash scaleFactor r.key).1.toNat = (hashed scaleFactor r.table r.packed).1 :=
      congrArg Prod.fst (r.toNat_easyHash hle)
    rw [hbucket]
    exact hashed_lt scaleFactor r.table r.packed
  · refine r.eq_of_hashed hle htable ?_
    rw [← r.toNat_easyHash hle,h]
    exact r'.toNat_easyHash hle
  · rw [r.toNat_second hle]
    exact r.checkedSecond_eq hle
  · rw [r.toNat_second hle,r.toNat_easyHash hle]
    exact r.checkedEasyHash_eq hle
  · rw [r.toNat_second hle,r.checkedDecoded_eq hle]
    refine Option.map_congr ?_
    intro p hp
    rw [r.eq_of_mem_decoded hle hp]

theorem packed_keys_sound_largest : (45 : Nat) ≤ 45 ∧
    customerKeyToWare (makeCustomerKey 45 10 3000) = 45 ∧ (easyHash 45 ⟨2,makeCustomerKey 45 10 3000⟩).1.toNat < 467 := by
  have hsound := packed_keys_sound (show 45 ≤ 45 by decide)
  let r : Record 45 := .cust ⟨45,by decide⟩ ⟨10,by decide⟩ ⟨3000,by decide⟩
  exact ⟨by decide,hsound.1 r _ rfl,hsound.2.1 r⟩

end AlNiCo.Store
