import AlNiCo.ModelUpdate.AbortWindow

/-! The feature of a record on both sides: the bit that the client sets when it adds the record
to a request, and the counter that the server moves when the record's key structure aborts. -/
namespace AlNiCo.ModelUpdate
open Client List BitVec

section

/-- The client computes with the offsets and the sizes that the server's loop leaves. -/
theorem initFeaturePartition_eq {table} (h : table < 12) : initFeaturePartition.offset table = featureOffset table ∧
    initFeaturePartition.size table = Client.featureSize512base.getD table 0 := by
  have htable (t : Fin 12) : initFeaturePartition.offset t = featureOffset t ∧
      initFeaturePartition.size t = Client.featureSize512base.getD t 0 := by
    revert t
    decide
  exact htable ⟨table,h⟩

theorem hashK2f_init {key} (h : key.first.toNat < 12) : initFeaturePartition.hashK2f key = Client.hashK2f key := by
  obtain ⟨hoffset,hsize⟩ := initFeaturePartition_eq h
  rw [FeaturePartition.hashK2f,hoffset,hsize,Client.hashK2f]

private theorem sum_range_succ (size : Nat → Nat) (t : Nat) : ((range (t+1)).map size).sum = ((range t).map size).sum+size t := by
  rw [range_succ,map_append,sum_append,map_singleton,sum_singleton]

/-- A number below the sum of all sizes lies within one of them. -/
private theorem exists_of_lt_sum (size : Nat → Nat) {n f} (hf : f < ((range n).map size).sum) :
    ∃ t < n, ((range t).map size).sum ≤ f ∧ f < ((range (t+1)).map size).sum := by
  induction n with
  | zero => exact absurd hf (Nat.not_lt_zero f)
  | succ n ih =>
    rcases Nat.lt_or_ge f ((range n).map size).sum with hlt | hge
    · obtain ⟨t,ht,hbounds⟩ := ih hlt
      exact ⟨t,ht.trans (Nat.lt_succ_self n),hbounds⟩
    · exact ⟨n,Nat.lt_succ_self n,hge,hf⟩

section
variable {p : FeaturePartition} {n : Nat} (h : Tiles p n)
include h

/-- A table ends where the next one begins. -/
theorem Tiles.end_le_offset {t u} (ht : t < u) (hu : u < n) : p.offset t+p.size t ≤ p.offset u := by
  rw [h.offset t (ht.trans hu),h.offset u hu,← sum_range_succ]
  exact ((range_sublist.mpr ht).map p.size).sum_le_sum (fun _ _ => Nat.zero_le _)

/-- Every feature below 512 is in exactly one of the tables, and no other feature is. -/
theorem Tiles.existsUnique_iff (f : Nat) : (∃! t, t < n ∧ f ∈ features p t) ↔ f < 512 := by
  have hmem (t : Nat) : f ∈ features p t ↔ p.offset t ≤ f ∧ f < p.offset t+p.size t := mem_range'_1
  constructor
  · rintro ⟨t,⟨ht,hf⟩,-⟩
    exact (((hmem t).mp hf).2).trans_le (h.end_le ht)
  · intro hf
    obtain ⟨t,ht,hlo,hhi⟩ := exists_of_lt_sum p.size (h.total.symm ▸ hf)
    rw [← h.offset t ht] at hlo
    rw [sum_range_succ,← h.offset t ht] at hhi
    refine ⟨t,⟨ht,(hmem t).mpr ⟨hlo,hhi⟩⟩,?_⟩
    rintro u ⟨hu,hfu⟩
    obtain ⟨hulo,huhi⟩ := (hmem u).mp hfu
    rcases Nat.lt_trichotomy u t with hut | hut | hut
    · have hend := h.end_le_offset hut ht
      omega
    · exact hut
    · have hend := h.end_le_offset hut hu
      omega

end

end

section

def bswap (x : BitVec 64) : BitVec 64 := BitVec.ofFnLE (fun i : Fin 64 => x.getLsbD (8*(7-i.val/8)+i.val % 8))

theorem bswap_bswap (x : BitVec 64) : bswap (bswap x) = x := by
  apply eq_of_getLsbD_eq
  intro i hi
  have hswap : 8*(7-(8*(7-i/8)+i % 8)/8)+(8*(7-i/8)+i % 8) % 8 = i := by omega
  rw [bswap,getLsbD_ofFnLE,dif_pos hi,bswap,getLsbD_ofFnLE,dif_pos (by dsimp only; omega)]
  exact congrArg x.getLsbD hswap

def makeDistrictKey (wId dId : BitVec 32) : BitVec 64 :=
  let did := dId+wId*10
  did.setWidth 64

def makeCustomerKey (wId dId cId : BitVec 32) : BitVec 64 :=
  let upperId := wId*10+dId
  upperId.setWidth 64 <<< 32 ||| cId.setWidth 64

/-- The constant is a 64-bit one. -/
def makeStockKey (wId sId : BitVec 32) : BitVec 64 :=
  let sid : BitVec 32 := (sId.setWidth 64+wId.setWidth 64*100000).setWidth 32
  sid.setWidth 64

structure WarehouseKey where
  wId : BitVec 64

structure DistrictKey where
  dWId : BitVec 64
  dId : BitVec 64

structure CustomerKey where
  cWId : BitVec 64
  cDId : BitVec 64
  cId : BitVec 64

structure ItemKey where
  iId : BitVec 64

structure StockKey where
  sWId : BitVec 64
  sIId : BitVec 64

def WarehouseKey.ofId (id : BitVec 64) : WarehouseKey := ⟨bswap id⟩

def DistrictKey.ofIds (wid did : BitVec 64) : DistrictKey := ⟨bswap wid,bswap did⟩

def CustomerKey.ofIds (wid did cid : BitVec 64) : CustomerKey := ⟨bswap wid,bswap did,bswap cid⟩

def ItemKey.ofId (id : BitVec 64) : ItemKey := ⟨bswap id⟩

def StockKey.ofIds (w i : BitVec 64) : StockKey := ⟨bswap w,bswap i⟩

def WarehouseKey.nicKey (k : WarehouseKey) : TxKey := ⟨0,bswap k.wId⟩

/-- The arguments are cut to 32 bits, here and below. -/
def DistrictKey.nicKey (k : DistrictKey) : TxKey :=
  ⟨1,makeDistrictKey ((bswap k.dWId).setWidth 32) ((bswap k.dId).setWidth 32)⟩

def CustomerKey.nicKey (k : CustomerKey) : TxKey :=
  ⟨2,makeCustomerKey ((bswap k.cWId).setWidth 32) ((bswap k.cDId).setWidth 32) ((bswap k.cId).setWidth 32)⟩

def ItemKey.nicKey (k : ItemKey) : TxKey := ⟨7,bswap k.iId⟩

def StockKey.nicKey (k : StockKey) : TxKey :=
  ⟨8,makeStockKey ((bswap k.sWId).setWidth 32) ((bswap k.sIId).setWidth 32)⟩

end

inductive Record
  | warehouse (w : Nat)
  | district (w d : Nat)
  | customer (w d c : Nat)
  | item (i : Nat)
  | stock (w i : Nat)

namespace Record

/-- The ids that the client draws: a warehouse of an unsigned 32-bit number, ten districts, 3000
customers of each, 100000 items. -/
def InRange : Record → Prop
  | warehouse w => 1 ≤ w ∧ w < 2^32
  | district w d => (1 ≤ w ∧ w < 2^32) ∧ 1 ≤ d ∧ d ≤ 10
  | customer w d c => (1 ≤ w ∧ w < 2^32) ∧ (1 ≤ d ∧ d ≤ 10) ∧ 1 ≤ c ∧ c ≤ 3000
  | item i => 1 ≤ i ∧ i ≤ 100000
  | stock w i => (1 ≤ w ∧ w < 2^32) ∧ 1 ≤ i ∧ i ≤ 100000

/-- `ADD_TO_WRITEF` as the procedures of the client call it for the record; only an item id is
a signed number. -/
def addTo (tx : Tx) : Record → Tx
  | warehouse w => tx.addToWritef 0 ((BitVec.ofNat 32 w).setWidth 64)
  | district w d => tx.addToWritef 1 (Client.makeDistrictKey (.ofNat 32 w) (.ofNat 32 d))
  | customer w d c => tx.addToWritef 2 (Client.makeCustomerKey (.ofNat 32 w) (.ofNat 32 d) (.ofNat 32 c))
  | item i => tx.addToWritef 7 ((BitVec.ofNat 32 i).signExtend 64)
  | stock w i => tx.addToWritef 8 (Client.makeStockKey (.ofNat 32 w) (.ofNat 32 i))

/-- The key that `RECORED_ABORT` passes on, from the key structure of the record. -/
def nicKey : Record → TxKey
  | warehouse w => (WarehouseKey.ofId (.ofNat 64 w)).nicKey
  | district w d => (DistrictKey.ofIds (.ofNat 64 w) (.ofNat 64 d)).nicKey
  | customer w d c => (CustomerKey.ofIds (.ofNat 64 w) (.ofNat 64 d) (.ofNat 64 c)).nicKey
  | item i => (ItemKey.ofId (.ofNat 64 i)).nicKey
  | stock w i => (StockKey.ofIds (.ofNat 64 w) (.ofNat 64 i)).nicKey

private theorem setWidth_ofNat {n} (h : n < 2^32) : (BitVec.ofNat 32 n).setWidth 64 = BitVec.ofNat 64 n := by
  apply eq_of_toNat_eq
  rw [toNat_setWidth,toNat_ofNat,toNat_ofNat,Nat.mod_eq_of_lt h]

private theorem ofNat_setWidth (n : Nat) : (BitVec.ofNat 64 n).setWidth 32 = BitVec.ofNat 32 n := by
  apply eq_of_toNat_eq
  rw [toNat_setWidth,toNat_ofNat,toNat_ofNat,Nat.mod_mod_of_dvd n (by decide)]

theorem first_lt (r : Record) : r.nicKey.first.toNat < 12 := by
  cases r with
  | warehouse w => exact (by decide : (0#64).toNat < 12)
  | district w d => exact (by decide : (1#64).toNat < 12)
  | customer w d c => exact (by decide : (2#64).toNat < 12)
  | item i => exact (by decide : (7#64).toNat < 12)
  | stock w i => exact (by decide : (8#64).toNat < 12)

/-- Both programs pack the ids into the same key. -/
theorem addTo_eq {r : Record} (hr : r.InRange) (tx : Tx) : r.addTo tx = tx.addToWritef r.nicKey.first.toNat r.nicKey.second := by
  cases r with
  | warehouse w =>
    simp only [addTo,nicKey,WarehouseKey.ofId,WarehouseKey.nicKey,bswap_bswap]
    rw [setWidth_ofNat hr.2]
    rfl
  | district w d =>
    simp only [addTo,nicKey,DistrictKey.ofIds,DistrictKey.nicKey,bswap_bswap,ofNat_setWidth]
    rfl
  | customer w d c =>
    simp only [addTo,nicKey,CustomerKey.ofIds,CustomerKey.nicKey,bswap_bswap,ofNat_setWidth]
    rfl
  | item i =>
    have hmsb : (BitVec.ofNat 32 i).msb = false := by
      apply msb_eq_false_iff_two_mul_lt.mpr
      rw [toNat_ofNat]
      have := hr.2
      omega
    simp only [addTo,nicKey,ItemKey.ofId,ItemKey.nicKey,bswap_bswap]
    rw [signExtend_eq_setWidth_of_msb_false hmsb,setWidth_ofNat (hr.2.trans_lt (by decide))]
    rfl
  | stock w i =>
    simp only [addTo,nicKey,StockKey.ofIds,StockKey.nicKey,bswap_bswap,ofNat_setWidth]
    rfl

end Record

def featureBit (feature : Library.ByteMemory.Memory) (f : Nat) : Bool := (feature (f/8)).getLsbD (f % 8)

theorem featureBit_setFeature (feature : Library.ByteMemory.Memory) (f : Nat) : featureBit (setFeature feature f) f = true := by
  have hmod : f % 8 < 8 := Nat.mod_lt f (by decide)
  rw [featureBit,setFeature,Function.update_self,getLsbD_or,getLsbD_shiftLeft]
  simp [hmod]

/-- The twelve tables share out the 512 features. The bit that the client sets for a record is
the feature under which the server records an abort of it: the counter that goes up belongs to a
bit that the request carries. -/
theorem feature_hashes_coincide :
    (∀ f, (∃! table, table < 12 ∧ f ∈ features initFeaturePartition table) ↔ f < 512) ∧
      ∀ r : Record, r.InRange → ∀ (tx : Tx) (aborts : List TxKey),
        let f := initFeaturePartition.hashK2f r.nicKey
        let worker := aborts.foldl Worker.abortKey .init
        (r.addTo tx).feature = setFeature tx.feature f ∧ featureBit (r.addTo tx).feature f = true ∧
          (worker.abortKey r.nicKey).coreWeights f = worker.coreWeights f+1 := by
  refine ⟨tiles_tpcc.existsUnique_iff,fun r hr tx aborts => ?_⟩
  intro f worker
  have hf : f = Client.hashK2f r.nicKey := hashK2f_init r.first_lt
  have hset : (r.addTo tx).feature = setFeature tx.feature f := by
    rw [Record.addTo_eq hr,hf]
    change setFeature tx.feature (Client.hashK2f ⟨BitVec.ofNat 64 r.nicKey.first.toNat,r.nicKey.second⟩) = _
    rw [BitVec.ofNat_toNat,BitVec.setWidth_eq]
  refine ⟨hset,?_,?_⟩
  · rw [hset]
    exact featureBit_setFeature tx.feature f
  · have hne : r.nicKey.first ≠ 0xFFFF := by
      intro h
      have hlt := r.first_lt
      rw [h] at hlt
      exact absurd hlt (by decide)
    have hlt : f < 512 := hashK2f_lt r.first_lt
    have hdepth : worker.abortQueue.abortDepth = 0 := (tpcc_counts aborts).1
    rw [Worker.abortKey,if_neg hne]
    simp only [AbortQueue.push,hdepth]
    rw [if_neg (by decide),updateWeight_apply,if_pos rfl,if_neg (by omega)]
    exact BitVec.sub_zero _

theorem feature_hashes_coincide_stock :
    let r := Record.stock 3 77
    let tx := r.addTo ⟨0,fun _ => 0,fun _ => 0,0,fun _ => 0⟩
    r.InRange ∧ initFeaturePartition.hashK2f r.nicKey = 472-177+(300077 % 177) ∧
      featureBit tx.feature (initFeaturePartition.hashK2f r.nicKey) = true := by
  have hr : (Record.stock 3 77).InRange := ⟨⟨by decide,by decide⟩,by decide,by decide⟩
  exact ⟨hr,by decide +kernel,(feature_hashes_coincide.2 _ hr ⟨0,fun _ => 0,fun _ => 0,0,fun _ => 0⟩ []).2.1⟩

end AlNiCo.ModelUpdate
