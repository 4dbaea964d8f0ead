import AlNiCo.Client.Call

/-! How the client puts a request together: the keys and arguments of a transaction
and its feature vector, collected in buffers that keep what earlier requests left. -/
namespace AlNiCo.Client
open Library.ByteMemory

/-- `pair<uint64_t,uint64_t>`: a table and a key. -/
structure TxKey where
  first : BitVec 64
  second : BitVec 64

def featureSize512base : List Nat := [10,20,110,10,10,10,10,115,177,10,10,20,0,0,0]

/-- `feature_partition`, as `init_feature_partition` fills it. -/
def featureOffset (table : Nat) : Nat := (featureSize512base.take table).sum

def hashK2f (key : TxKey) : Nat :=
  featureOffset key.first.toNat+key.second.toNat % featureSize512base.getD key.first.toNat 0

def setFeature (feature : Memory) (offset : Nat) : Memory :=
  Function.update feature (offset/8) (feature (offset/8) ||| 1#8 <<< (offset % 8))

/-- The members of `switch_tx` a procedure fills. -/
structure Tx where
  mainReadCount : Nat
  mainRead : Memory
  args : Memory
  argsCount : Nat
  feature : Memory

namespace Tx
variable (tx : Tx)

def begin : Tx := { tx with mainReadCount := 0, argsCount := 0, feature := fun _ => 0 }

def addToArgs (value : BitVec 32) : Tx :=
  { tx with args := storeWord tx.args (4*tx.argsCount) value, argsCount := tx.argsCount+1 }

def addToWritef (table : Nat) (key : BitVec 64) : Tx :=
  { tx with
    mainRead := store 8 (store 8 tx.mainRead (16*tx.mainReadCount) (BitVec.ofNat 64 table)) (16*tx.mainReadCount+8) key
    mainReadCount := tx.mainReadCount+1
    feature := setFeature tx.feature (hashK2f ⟨BitVec.ofNat 64 table,key⟩) }

/-- The segments: the count, the keys, 8 bytes for each argument, the features. -/
def req : List (List (BitVec 8)) :=
  [bytes 4 (BitVec.ofNat 32 tx.mainReadCount),slice tx.mainRead 0 (16*tx.mainReadCount),
    slice tx.args 0 (8*tx.argsCount),slice tx.feature 0 64]

theorem length_req : tx.req.length = 4 := rfl

theorem sum_req : (tx.req.map List.length).sum = 4+16*tx.mainReadCount+8*tx.argsCount+64 := by
  simp [req,bytes]
  omega

end Tx

section

def makeDistrictKey (w d : BitVec 32) : BitVec 64 := (d+w*10).setWidth 64

def makeCustomerKey (w d c : BitVec 32) : BitVec 64 := (w*10+d).setWidth 64 <<< 32 ||| c.setWidth 64

/-- The product is taken in 64 bits and the sum cut to 32. -/
def makeStockKey (w s : BitVec 32) : BitVec 64 := ((s.setWidth 64+w.setWidth 64*100000).setWidth 32).setWidth 64

end

section

/-- The keys and arguments that a procedure has put into the buffers. -/
structure Holds (tx : Tx) (keys : List TxKey) (args : List (BitVec 32)) : Prop where
  count : tx.mainReadCount = keys.length
  keys : ∀ k key, keys[k]? = some key →
    load 8 tx.mainRead (16*k) = key.first ∧ load 8 tx.mainRead (16*k+8) = key.second
  argsCount : tx.argsCount = args.length
  args : ∀ k value, args[k]? = some value → word tx.args (4*k) = value

variable {tx : Tx} {keys : List TxKey} {args : List (BitVec 32)}

theorem Holds.begin (tx : Tx) : Holds tx.begin [] [] :=
  ⟨rfl,fun k key hk => (by simp at hk),rfl,fun k value hk => (by simp at hk)⟩

theorem Holds.addToArgs (h : Holds tx keys args) (value : BitVec 32) : Holds (tx.addToArgs value) keys (args ++ [value]) := by
  refine ⟨h.count,h.keys,by simp [Tx.addToArgs,h.argsCount],fun k value' hk => ?_⟩
  simp only [Tx.addToArgs,h.argsCount]
  by_cases hlast : k = args.length
  · subst hlast
    obtain rfl : value = value' := by simpa using hk
    exact word_storeWord_self _ _ _
  · have hlt : k < args.length := by
      have hlen := (List.getElem?_eq_some_iff.mp hk).1
      simp only [List.length_append,List.length_singleton] at hlen
      omega
    rw [List.getElem?_append_left hlt] at hk
    rw [word_storeWord _ (by omega)]
    exact h.args k value' hk

theorem Holds.addToWritef (h : Holds tx keys args) (table : Nat) (key : BitVec 64) :
    Holds (tx.addToWritef table key) (keys ++ [⟨BitVec.ofNat 64 table,key⟩]) args := by
  refine ⟨by simp [Tx.addToWritef,h.count],fun k key' hk => ?_,h.argsCount,h.args⟩
  simp only [Tx.addToWritef,h.count]
  by_cases hlast : k = keys.length
  · subst hlast
    obtain rfl : (⟨BitVec.ofNat 64 table,key⟩ : TxKey) = key' := by simpa using hk
    exact ⟨Eq.trans (load_store (w := 8) _ (by omega)) (load_store_self (w := 8) _ _ _),load_store_self (w := 8) _ _ _⟩
  · have hlt : k < keys.length := by
      have hlen := (List.getElem?_eq_some_iff.mp hk).1
      simp only [List.length_append,List.length_singleton] at hlen
      omega
    rw [List.getElem?_append_left hlt] at hk
    obtain ⟨hfirst,hsecond⟩ := h.keys k key' hk
    refine ⟨?_,?_⟩
    · rw [← hfirst]
      exact Eq.trans (load_store (w := 8) _ (by omega)) (load_store (w := 8) _ (by omega))
    · rw [← hsecond]
      exact Eq.trans (load_store (w := 8) _ (by omega)) (load_store (w := 8) _ (by omega))

end

end AlNiCo.Client
