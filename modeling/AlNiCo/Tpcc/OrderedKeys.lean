import AlNiCo.Library.ByteOrder
import AlNiCo.ModelUpdate.FeatureKeys

/-! The keys of the order, order-line and order-by-customer tables as the tree stores them:
swapped words in a structure, compared byte by byte. -/
namespace AlNiCo.Tpcc.OrderedKeys
open Library.ByteMemory Library.ByteOrder ModelUpdate List BitVec

/-- The bytes of a key structure whose fields are these ids, swapped. -/
def keyStr (ids : List (BitVec 64)) : List (BitVec 8) := ids.flatMap (fun id => bytes 8 (bswap id))

/-- What `bswap` makes of the `n` words of a structure. -/
def fields : Nat → List (BitVec 8) → List (BitVec 64)
  | 0,_ => []
  | n+1,str => bswap (load 8 (fun i => str.getD i 0) 0) :: fields n (str.drop 8)

/-- A structure of `n` words made from a string, and its components. -/
def ofStr (n : Nat) (mtKey : List (BitVec 8)) : Option (List (BitVec 64)) :=
  if mtKey.length = 8*n then some (fields n mtKey) else none

/-- The components of a key, with `CONTENTION_AWARE_IDX` as it is set: all are 64-bit words. -/
inductive Key
  | orderCidx (wid did cid oid : BitVec 64)
  | order (wid did oid : BitVec 64)
  | orderline (w d o n : BitVec 64)

def Key.district : Key → List (BitVec 64)
  | orderCidx wid did _ _ => [wid,did]
  | order wid did _ => [wid,did]
  | orderline w d _ _ => [w,d]

def Key.inner : Key → List (BitVec 64)
  | orderCidx _ _ cid oid => [cid,oid]
  | order _ _ oid => [oid]
  | orderline _ _ o n => [o,n]

def Key.ids (k : Key) : List (BitVec 64) := k.district ++ k.inner

def Key.str (k : Key) : List (BitVec 8) := keyStr k.ids

/-- Keys of one table. -/
def Key.SameTable : Key → Key → Prop
  | orderCidx .. ,orderCidx .. => True
  | order .. ,order .. => True
  | orderline .. ,orderline .. => True
  | _,_ => False

/-- The ids one after the other, as numbers. -/
def compareIds : List (BitVec 64) → List (BitVec 64) → Ordering
  | a :: l,b :: m => (compare a.toNat b.toNat).then (compareIds l m)
  | _,_ => .eq

/-- A scan takes the keys from `begin` on, up or down, before `boundary`. -/
def InScan {α : Type} (cmp : α → α → Ordering) (reverse : Bool) ( begin boundary key : α) : Prop :=
  match reverse with
  | false => cmp begin key ≠ .gt ∧ cmp boundary key = .gt
  | true => cmp begin key ≠ .lt ∧ cmp boundary key = .lt

variable {a b : List (BitVec 64)}

section

theorem getLsbD_bswap (x : BitVec 64) {i} (h : i < 64) : (bswap x).getLsbD i = x.getLsbD (8*(7-i/8)+i % 8) := by
  rw [bswap,getLsbD_ofFnLE,dif_pos h]

/-- The low byte of the swapped word is the high byte of the word. -/
theorem extractLsb_bswap (x : BitVec 64) {k} (h : k < 8) : (bswap x).extractLsb' (8*k) 8 = x.extractLsb' (8*(7-k)) 8 := by
  apply eq_of_getLsbD_eq
  intro i hi
  rw [getLsbD_extractLsb',getLsbD_extractLsb',getLsbD_bswap x (by omega)]
  congr 2
  omega

theorem bytes_bswap (x : BitVec 64) : bytes 8 (bswap x) = (range 8).map (fun k => x.extractLsb' (8*(7-k)) 8) :=
  map_congr_left (fun _ hk => extractLsb_bswap x (mem_range.mp hk))

theorem front_bytes_bswap (x : BitVec 64) : front 8 (bytes 8 (bswap x)) = x.toNat := by
  rw [bytes_bswap]
  simp only [range,range.loop,map,front,extractLsb'_toNat,Nat.shiftRight_eq_div_pow]
  have := x.isLt
  omega

theorem memcmp_bytes_bswap (x y : BitVec 64) : memcmp (bytes 8 (bswap x)) (bytes 8 (bswap y)) = compare x.toNat y.toNat := by
  rw [memcmp_eq_compare (length_bytes 8 _) (length_bytes 8 _),front_bytes_bswap,front_bytes_bswap]

end

section

theorem length_keyStr (ids : List (BitVec 64)) : (keyStr ids).length = 8*ids.length := by
  induction ids with
  | nil => rfl
  | cons id ids ih => rw [keyStr,flatMap_cons,length_append,length_bytes,← keyStr,ih,length_cons]; omega

theorem memcmp_keyStr (h : a.length = b.length) : memcmp (keyStr a) (keyStr b) = compareIds a b := by
  induction a generalizing b with
  | nil => rfl
  | cons x a ih =>
    cases b with
    | nil => cases h
    | cons y b =>
      rw [keyStr,keyStr,flatMap_cons,flatMap_cons,memcmp_append (by rw [length_bytes,length_bytes]),memcmp_bytes_bswap,compareIds]
      exact congrArg _ (ih (Nat.succ.inj h))

theorem strcmp_keyStr (h : a.length = b.length) : strcmp (keyStr a) (keyStr b) = compareIds a b := by
  rw [strcmp,memcmp_keyStr h,length_keyStr,length_keyStr,h,Nat.compare_eq_eq.mpr rfl]
  cases compareIds a b <;> rfl

theorem fields_keyStr (ids : List (BitVec 64)) : fields ids.length (keyStr ids) = ids := by
  induction ids with
  | nil => rfl
  | cons id ids ih =>
    have hload : load 8 (fun i => (bytes 8 (bswap id) ++ keyStr ids).getD i 0) 0 = bswap id := by
      apply load_of_bytes
      intro i byte hbyte
      have hi := (List.getElem?_eq_some_iff.mp hbyte).1
      rw [Nat.zero_add,List.getD_eq_getElem?_getD,List.getElem?_append_left hi,hbyte]
      rfl
    rw [List.length_cons,fields,keyStr,List.flatMap_cons,← keyStr,hload,bswap_bswap,List.drop_left' (length_bytes 8 _),ih]

end

section

theorem compareIds_append (h : a.length = b.length) (c d : List (BitVec 64)) :
    compareIds (a ++ c) (b ++ d) = (compareIds a b).then (compareIds c d) := by
  induction a generalizing b with
  | nil =>
    obtain rfl := List.length_eq_zero_iff.mp h.symm
    rfl
  | cons x a ih =>
    cases b with
    | nil => cases h
    | cons y b => rw [List.cons_append,List.cons_append,compareIds,compareIds,ih (Nat.succ.inj h),then_assoc]

theorem compareIds_eq_iff (h : a.length = b.length) : compareIds a b = .eq ↔ a = b := by
  induction a generalizing b with
  | nil => exact ⟨fun _ => (length_eq_zero_iff.mp h.symm).symm,fun _ => rfl⟩
  | cons x a ih =>
    cases b with
    | nil => cases h
    | cons y b =>
      rw [compareIds,Ordering.then_eq_eq,Nat.compare_eq_eq,ih (Nat.succ.inj h),List.cons.injEq,toNat_inj]

/-- Outside the district both ends of the scan lie on one side of the key. -/
theorem inScan_append {k lo hi k'} (h : a.length = k.length) (reverse : Bool) :
    InScan compareIds reverse (a ++ lo) (a ++ hi) (k ++ k') ↔ k = a ∧ InScan compareIds reverse lo hi k' := by
  have heq := compareIds_eq_iff h
  rw [eq_comm,← heq]
  cases reverse <;> dsimp only [InScan] <;> rw [compareIds_append h,compareIds_append h] <;>
    cases compareIds a k <;> simp

end

namespace Key

theorem SameTable.length {k l : Key} (h : k.SameTable l) : k.ids.length = l.ids.length := by
  cases k <;> cases l <;> first | rfl | cases h

theorem length_district (k : Key) : k.district.length = 2 := by
  cases k <;> rfl

theorem SameTable.strcmp_str {k l : Key} (h : k.SameTable l) : strcmp k.str l.str = compareIds k.ids l.ids :=
  strcmp_keyStr h.length

/-- Stored keys compare as their components do and give them back, and a scan between two keys of
a district takes exactly the keys of the district with the other components in between. -/
theorem stored_keys_ordered :
    (∀ k l : Key,k.SameTable l → strcmp k.str l.str = compareIds k.ids l.ids) ∧
    (∀ k : Key,ofStr k.ids.length k.str = some k.ids) ∧
    ∀ (reverse : Bool) (lo hi k : Key),lo.SameTable k → hi.SameTable k → hi.district = lo.district →
      (InScan strcmp reverse lo.str hi.str k.str ↔
        k.district = lo.district ∧ InScan compareIds reverse lo.inner hi.inner k.inner) := by
  refine ⟨fun k l h => h.strcmp_str,fun k => ?_,fun reverse lo hi k hlo hhi hdistrict => ?_⟩
  · rw [ofStr,str,if_pos (length_keyStr k.ids),fields_keyStr]
  · rw [← inScan_append ((length_district lo).trans (length_district k).symm)]
    cases reverse <;> simp only [InScan] <;> rw [hlo.strcmp_str,hhi.strcmp_str,ids,ids,ids,hdistrict]

end Key
end AlNiCo.Tpcc.OrderedKeys
