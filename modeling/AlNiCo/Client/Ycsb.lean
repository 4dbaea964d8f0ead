import AlNiCo.Client.Procedures

/-! `YCSB_partitional`: the loop that draws the operations of a request. Which of
them are writes goes into a mask and, as a count, into the size of the last segment. -/
namespace AlNiCo.Client.Ycsb
open Library.ByteMemory

/-- The members a YCSB request is built in; `ycsb_ctx` is allocated and never written. -/
structure Tx where
  writeBits : BitVec 64
  ycsbKeyArrays : Memory
  ycsbColArrays : Memory
  ycsbCtx : Memory
  ycsbSet : List (BitVec 32)
  ycsbWriteNum : BitVec 16
  feature : Memory

/-- What one turn of the loop draws: keys until one is new, the kind of the operation,
and whether its key goes into the feature vector. -/
structure Draw where
  samples : List (BitVec 32)
  isWrite : Bool
  featured : Bool

def hashK2fYcsb (col : Fin 20) (key : BitVec 32) : Nat := col.val*(512/20)+key.toNat % (512/20)

namespace Tx
variable (tx : Tx)

def begin : Tx := { tx with writeBits := 0, ycsbSet := [], ycsbWriteNum := 0, feature := fun _ => 0 }

def addToYcsbRead (i : Nat) (col : Fin 20) (key : BitVec 32) : Tx :=
  { tx with
    ycsbColArrays := store 2 tx.ycsbColArrays (2*i) (BitVec.ofNat 16 col.val)
    ycsbKeyArrays := storeWord tx.ycsbKeyArrays (4*i) key }

def addToYcsbWritef (i : Nat) (col : Fin 20) (key : BitVec 32) : Tx :=
  { tx.addToYcsbRead i col key with feature := setFeature tx.feature (hashK2fYcsb col key) }

def addToYcsbWriteBit (i : Nat) : Tx :=
  { tx with writeBits := tx.writeBits ||| 1#64 <<< i, ycsbWriteNum := tx.ycsbWriteNum+1 }

def turn (x : Fin 20) (i : Nat) (draw : Draw) : Option Tx :=
  (draw.samples.find? (fun key => key ∉ tx.ycsbSet)).map (fun key =>
    let tx := { tx with ycsbSet := key :: tx.ycsbSet }
    let tx := if draw.isWrite then tx.addToYcsbWriteBit i else tx
    if draw.featured then tx.addToYcsbWritef i x key else tx.addToYcsbRead i x key)

def req (n : Nat) : List (List (BitVec 8)) :=
  [bytes 8 tx.writeBits,slice tx.ycsbKeyArrays 0 (4*n),slice tx.ycsbColArrays 0 (2*n),
    slice tx.ycsbCtx 0 (tx.ycsbWriteNum.toNat*384)]

theorem length_req (n : Nat) : (tx.req n).length = 4 := rfl

theorem sum_req (n : Nat) : ((tx.req n).map List.length).sum = 8+6*n+tx.ycsbWriteNum.toNat*384 := by
  simp [req,bytes]
  omega

theorem req_fits {n} (hn : n ≤ 48) : 28+4*(tx.req n).length+((tx.req n).map List.length).sum < 2^32 := by
  have hnum := tx.ycsbWriteNum.isLt
  rw [length_req,sum_req]
  omega

end Tx

def fill (x : Fin 20) : Nat → List Draw → Tx → Option Tx
  | _,[],tx => some tx
  | i,draw :: draws,tx => (tx.turn x i draw).bind (fill x (i+1) draws)

def ycsbPartitional (tx : Tx) (x : Fin 20) (draws : List Draw) : Option Tx := fill x 0 draws tx.begin

section
variable {tx tx' : Tx} {x : Fin 20} {writes : List Bool}

/-- The kinds drawn so far are in the mask and in the count. -/
structure Encoded (writes : List Bool) (tx : Tx) : Prop where
  bits : ∀ k < 64, tx.writeBits.getLsbD k = writes.getD k false
  num : tx.ycsbWriteNum = BitVec.ofNat 16 (writes.count true)

theorem Encoded.begin (tx : Tx) : Encoded [] tx.begin :=
  ⟨fun k _ => (by simp [Tx.begin]),rfl⟩

private theorem getD_append_singleton (writes : List Bool) (b : Bool) (k : Nat) :
    (writes ++ [b]).getD k false = (writes.getD k false || (decide (k = writes.length) && b)) := by
  rcases Nat.lt_trichotomy k writes.length with hlt | heq | hgt
  · rw [List.getD_append _ _ _ _ hlt,decide_eq_false (by omega),Bool.false_and,Bool.or_false]
  · subst heq
    simp
  · simp [List.getElem?_eq_none,show writes.length+1 ≤ k by omega,hgt.le,hgt.ne']

private theorem turn_writeBits {i draw} (h : tx.turn x i draw = some tx') :
    tx'.writeBits = (if draw.isWrite then tx.writeBits ||| 1#64 <<< i else tx.writeBits) ∧
      tx'.ycsbWriteNum = (if draw.isWrite then tx.ycsbWriteNum+1 else tx.ycsbWriteNum) := by
  obtain ⟨key,-,rfl⟩ := Option.map_eq_some_iff.mp h
  cases draw.isWrite <;> cases draw.featured <;> exact ⟨rfl,rfl⟩

theorem Encoded.turn {draw} (h : Encoded writes tx) (hturn : tx.turn x writes.length draw = some tx') :
    Encoded (writes ++ [draw.isWrite]) tx' := by
  obtain ⟨hbits,hnum⟩ := turn_writeBits hturn
  refine ⟨fun k hk => ?_,?_⟩
  · rw [hbits,getD_append_singleton,← h.bits k hk]
    cases draw.isWrite with
    | false => simp
    | true =>
      simp only [if_true,BitVec.getLsbD_or,Bool.and_true,BitVec.getLsbD_shiftLeft,BitVec.getLsbD_one]
      grind
  · rw [hnum,h.num]
    cases draw.isWrite with
    | false => simp
    | true => simp [BitVec.ofNat_add]

theorem Encoded.fill {draws} (h : Encoded writes tx) (hfill : fill x writes.length draws tx = some tx') :
    Encoded (writes ++ draws.map Draw.isWrite) tx' := by
  induction draws generalizing writes tx with
  | nil => simpa using Option.some.inj hfill ▸ h
  | cons draw draws ih =>
    obtain ⟨tx1,hturn,hrest⟩ := Option.bind_eq_some_iff.mp hfill
    have hnext := ih (h.turn hturn) (by simpa using hrest)
    simpa using hnext

theorem encoded_of_partitional {draws} (h : ycsbPartitional tx x draws = some tx') : Encoded (draws.map Draw.isWrite) tx' :=
  (Encoded.begin tx).fill h

end

end AlNiCo.Client.Ycsb
