import AlNiCo.Library.Machine
import AlNiCo.Library.StampedIndex
import Mathlib.Algebra.Group.Nat.Defs
import Mathlib.Data.List.Range

/-! The items of a transaction and their hash table (Transaction.hh, Transaction.cc): an entry of
the 16 bit table counts only above the base, which moves with every transaction. -/
namespace AlNiCo.Sto.ItemSet
open Library Library.StampedIndex Function List Option

/-- An item's object, the 48 pointer bits of its owner word, and its packed key. -/
structure TransItem where
  owner : BitVec 48
  key : BitVec 64
deriving DecidableEq

/-- `tset_chunk`, also the capacity of `tset0_`. -/
def tsetChunk : Nat := 512

def tsetMaxCapacity : Nat := 32768

def hashSize : Nat := 32779

structure Transaction where
  hashBase : BitVec 16
  hashtable : Nat → BitVec 16
  tsetSize : Nat
  -- the chunks, the first of them is tset0_; what an earlier transaction left stays in them
  tset : Nat → Option (Nat → TransItem)

namespace Transaction

def initialized : Transaction where
  hashBase := 32768
  hashtable := fun _ => 0
  tsetSize := 0
  tset := fun i => if i = 0 then some (fun _ => ⟨0,0⟩) else none

def start (t : Transaction) : Transaction :=
  let t := { t with hashBase := t.hashBase+BitVec.ofNat 16 (t.tsetSize+1), tsetSize := 0 }
  if hashSize ≤ t.hashBase.toNat then { t with hashtable := fun _ => 0, hashBase := 0 } else t

def hashRegular (obj : BitVec 48) (key : BitVec 64) : Nat :=
  let n := key+0x4000000
  let n := n+if n.toNat < 0x8000000 then obj.setWidth 64 >>> 4 else 0
  (n+(n >>> 16)*9).toNat % hashSize

/-- The item at an index, nothing when its chunk is null. -/
def at? (t : Transaction) (tidx : Nat) : Option TransItem :=
  (t.tset (tidx/tsetChunk)).map (fun chunk => chunk (tidx%tsetChunk))

def refreshTsetChunk (t : Transaction) : Transaction :=
  match t.tset (t.tsetSize/tsetChunk) with
  | some _ => t
  | none => { t with tset := update t.tset (t.tsetSize/tsetChunk) (some (fun _ => ⟨0,0⟩)) }

def allocateItemUpdateHash (t : Transaction) (obj : BitVec 48) (xkey : BitVec 64) : Transaction :=
  let hi := hashRegular obj xkey
  if t.hashtable hi ≤ t.hashBase then
    { t with hashtable := update t.hashtable hi (t.hashBase+BitVec.ofNat 16 t.tsetSize) }
  else t

/-- `new(tset_next_) TransItem(..)`; `tset_next_` is always the slot of index `tset_size_`. -/
def putNext (t : Transaction) (item : TransItem) : Transaction :=
  let chunk := (t.tset (t.tsetSize/tsetChunk)).map (fun chunk => update chunk (t.tsetSize%tsetChunk) item)
  { t with tset := update t.tset (t.tsetSize/tsetChunk) chunk }

def nextChunk (t : Transaction) : Transaction :=
  if t.tsetSize ≠ 0 ∧ t.tsetSize%tsetChunk = 0 then t.refreshTsetChunk else t

def allocateItem (t : Transaction) (obj : BitVec 48) (xkey : BitVec 64) : Transaction :=
  let t := t.nextChunk.putNext ⟨obj,xkey⟩
  { t with tsetSize := t.tsetSize+1 }.allocateItemUpdateHash obj xkey

def findItemScan (t : Transaction) (obj : BitVec 48) (xkey : BitVec 64) : Option Nat :=
  (List.range t.tsetSize).find? (fun tidx => t.at? tidx == some ⟨obj,xkey⟩)

/-- The index of the item that is found; the outer option is the access to a null chunk. -/
def findItem (t : Transaction) (obj : BitVec 48) (xkey : BitVec 64) : Option (Option Nat) :=
  let hi := hashRegular obj xkey
  if t.hashtable hi ≤ t.hashBase then some none
  else
    let tidx := (t.hashtable hi).toNat-t.hashBase.toNat-1
    (t.at? tidx).map (fun ti => if ti = ⟨obj,xkey⟩ then some tidx else t.findItemScan obj xkey)

end Transaction

section

inductive Call
  | start
  | item (obj : BitVec 48) (key : BitVec 64)
  | newItem (obj : BitVec 48) (key : BitVec 64)

/-- A thread's transaction object, with the items that the current transaction has touched. -/
structure Thread where
  trans : Transaction
  touched : List TransItem

def Thread.allocate (s : Thread) (obj : BitVec 48) (key : BitVec 64) : Option Thread :=
  if s.trans.tsetSize < tsetMaxCapacity then some ⟨s.trans.allocateItem obj key,s.touched ++ [⟨obj,key⟩]⟩ else none

def Thread.next (s : Thread) : Call → Option Thread
  | .start => some ⟨s.trans.start,[]⟩
  | .item obj key =>
    match s.trans.findItem obj key with
    | none => none
    | some (some _) => some s
    | some none => s.allocate obj key
  -- the caller knows that the item is new
  | .newItem obj key => if ⟨obj,key⟩ ∈ s.touched then none else s.allocate obj key

def thread : Machine Thread Call := Machine.ofNext ⟨Transaction.initialized.start,[]⟩ Thread.next

/-- The next entry and the next base fit into 16 bits. -/
def Room (s : Thread) (_ : Call) : Prop := s.trans.hashBase.toNat+s.trans.tsetSize+1 < 2^16

end

variable (t : Transaction) (item : TransItem)

open Transaction

section Refinement

def Transaction.stamps (t : Transaction) : Stamps Nat := ⟨t.hashBase.toNat,fun i => (t.hashtable i).toNat⟩

def TransItem.hash (item : TransItem) : Nat := Transaction.hashRegular item.owner item.key

structure Stored (s : Thread) : Prop where
  size : s.trans.tsetSize = s.touched.length
  first : (s.trans.tset 0).isSome
  items : ∀ i, i < s.touched.length → s.trans.at? i = s.touched[i]?

structure Holds (s : Thread) : Prop extends Stored s where
  indexes : Indexes TransItem.hash s.trans.stamps s.touched

variable {s : Thread} {obj : BitVec 48} {key : BitVec 64}

theorem Stored.scan_eq (h : Stored s) : s.trans.findItemScan obj key = s.touched.idxOf? ⟨obj,key⟩ := by
  rw [findItemScan,h.size]
  cases hidx : s.touched.idxOf? ⟨obj,key⟩ with
  | none =>
    rw [List.find?_eq_none]
    intro i hi heq
    rw [h.items i (List.mem_range.mp hi),beq_iff_eq] at heq
    exact List.idxOf?_eq_none_iff.mp hidx (List.mem_of_getElem? heq)
  | some i =>
    obtain ⟨hlt,hat,hfirst⟩ := List.idxOf?_eq_some_iff.mp hidx
    rw [List.find?_range_eq_some]
    refine ⟨?_,List.mem_range.mpr hlt,fun j hj => ?_⟩
    · rw [h.items i hlt,beq_iff_eq]
      exact List.getElem?_eq_some_iff.mpr ⟨hlt,hat⟩
    · rw [h.items j (hj.trans hlt),Bool.not_eq_true',beq_eq_false_iff_ne]
      exact fun heq => hfirst j hj (List.getElem?_eq_some_iff.mp heq).2

/-- The entry decides as the scan does. -/
theorem Holds.findItem_eq (h : Holds s) : s.trans.findItem obj key = some (s.trans.findItemScan obj key) := by
  rw [findItem]
  by_cases hle : s.trans.hashtable (hashRegular obj key) ≤ s.trans.hashBase
  · have hnone : s.touched.idxOf? ⟨obj,key⟩ = none := h.indexes.idxOf_eq_none hle
    rw [if_pos hle,h.scan_eq,hnone]
  · obtain ⟨a,ha,-⟩ := h.indexes.points (hashRegular obj key) (Nat.lt_of_not_le hle)
    have hat := (h.items _ (List.getElem?_eq_some_iff.mp ha).1).trans ha
    dsimp only [stamps] at ha hat
    rw [if_neg hle]
    dsimp only
    rw [hat,Option.map_some]
    by_cases heq : a = ⟨obj,key⟩
    · rw [if_pos heq,h.scan_eq,h.indexes.idxOf_eq_some (heq ▸ ha)]
    · rw [if_neg heq]

theorem Transaction.putNext_at (h : (t.tset (t.tsetSize/tsetChunk)).isSome) : (t.putNext item).at? t.tsetSize = some item := by
  obtain ⟨chunk,hchunk⟩ := isSome_iff_exists.mp h
  rw [at?,putNext]
  dsimp only
  rw [update_self,hchunk,map_some,map_some,update_self]

theorem Transaction.putNext_at_ne {i} (h : i ≠ t.tsetSize) : (t.putNext item).at? i = t.at? i := by
  rw [at?,putNext,at?]
  dsimp only
  by_cases hchunk : i/tsetChunk = t.tsetSize/tsetChunk
  · have hslot : i%tsetChunk ≠ t.tsetSize%tsetChunk := by
      rw [tsetChunk] at hchunk ⊢
      omega
    rw [hchunk,update_self,Option.map_map]
    congr 1
    funext chunk
    exact update_of_ne hslot item chunk
  · rw [update_of_ne hchunk]

theorem Transaction.nextChunk_at {t : Transaction} {i : Nat} {item : TransItem} (h : t.at? i = some item) :
    t.nextChunk.at? i = some item := by
  rw [nextChunk,refreshTsetChunk]
  split
  · cases hchunk : t.tset (t.tsetSize/tsetChunk) with
    | some chunk => exact h
    | none =>
      have hi : i/tsetChunk ≠ t.tsetSize/tsetChunk := by
        intro hi
        rw [at?,hi,hchunk,map_none] at h
        exact some_ne_none item h.symm
      rw [at?] at h ⊢
      dsimp only
      rwa [update_of_ne hi]
  · exact h

/-- Only the chunks change when the next chunk is made ready. -/
theorem Transaction.nextChunk_eq : t.nextChunk = { t with tset := t.nextChunk.tset } := by
  rw [nextChunk,refreshTsetChunk]
  split
  · split
    · rfl
    · rfl
  · rfl

theorem Transaction.allocateItem_eq (obj : BitVec 48) (key : BitVec 64) : t.allocateItem obj key =
    { hashBase := t.hashBase
      hashtable := if t.hashtable (hashRegular obj key) ≤ t.hashBase then
        update t.hashtable (hashRegular obj key) (t.hashBase+BitVec.ofNat 16 (t.tsetSize+1)) else t.hashtable
      tsetSize := t.tsetSize+1
      tset := (t.nextChunk.putNext ⟨obj,key⟩).tset } := by
  rw [allocateItem,nextChunk_eq,putNext,allocateItemUpdateHash]
  dsimp only
  split
  · rfl
  · rfl

/-- The slot of the next item is in a chunk that is there. -/
theorem Stored.nextChunk_isSome (h : Stored s) : (s.trans.nextChunk.tset (s.trans.tsetSize/tsetChunk)).isSome := by
  rw [nextChunk]
  by_cases hzero : s.trans.tsetSize = 0
  · rw [if_neg (fun hand => hand.1 hzero),hzero]
    exact h.first
  · by_cases hfull : s.trans.tsetSize%tsetChunk = 0
    · rw [if_pos ⟨hzero,hfull⟩,refreshTsetChunk]
      split
      · rename_i chunk hchunk
        rw [hchunk]
        rfl
      · dsimp only
        rw [update_self]
        rfl
    · -- the item before it is in the same chunk
      have hlt : s.trans.tsetSize-1 < s.touched.length := by
        rw [← h.size]
        omega
      have hsame : (s.trans.tsetSize-1)/tsetChunk = s.trans.tsetSize/tsetChunk := by
        rw [tsetChunk] at hfull ⊢
        omega
      have hat := h.items _ hlt
      rw [at?,hsame,getElem?_eq_getElem hlt,map_eq_some_iff] at hat
      obtain ⟨chunk,hchunk,-⟩ := hat
      rw [if_neg (fun hand => hfull hand.2),hchunk]
      rfl

theorem Transaction.putNext_isSome (i : Nat) : ((t.putNext item).tset i).isSome = (t.tset i).isSome := by
  rw [putNext]
  dsimp only
  by_cases hi : i = t.tsetSize/tsetChunk
  · rw [hi,update_self,isSome_map]
  · rw [update_of_ne hi]

theorem Transaction.nextChunk_first {t : Transaction} (h : (t.tset 0).isSome) : (t.nextChunk.tset 0).isSome := by
  obtain ⟨chunk,hchunk⟩ := isSome_iff_exists.mp h
  have hat : t.at? 0 = some (chunk 0) := by
    rw [at?,Nat.zero_div,hchunk]
    rfl
  have hnext := nextChunk_at hat
  rw [at?,Nat.zero_div,map_eq_some_iff] at hnext
  obtain ⟨chunk',hchunk',-⟩ := hnext
  rw [hchunk']
  rfl

theorem toNat_addSize {base n} (h : base.toNat+n < 2^16) : (base+BitVec.ofNat 16 n).toNat = base.toNat+n := by
  rw [BitVec.toNat_add,BitVec.toNat_ofNat]
  omega

/-- The entry of a new item, with the numbers read as numbers. -/
theorem Transaction.stamps_allocateItem {t : Transaction} (hroom : t.hashBase.toNat+(t.tsetSize+1) < 2^16) :
    (t.allocateItem obj key).stamps = ⟨t.stamps.base,if t.stamps.stamp (TransItem.hash ⟨obj,key⟩) ≤ t.stamps.base then
      update t.stamps.stamp (TransItem.hash ⟨obj,key⟩) (t.stamps.base+(t.tsetSize+1)) else t.stamps.stamp⟩ := by
  rw [allocateItem_eq,show TransItem.hash ⟨obj,key⟩ = hashRegular obj key from rfl]
  by_cases hfree : t.hashtable (hashRegular obj key) ≤ t.hashBase
  · rw [if_pos hfree,if_pos (show t.stamps.stamp (hashRegular obj key) ≤ t.stamps.base from hfree)]
    dsimp only [stamps]
    congr 1
    funext i
    by_cases hi : i = hashRegular obj key
    · rw [hi,update_self,update_self,toNat_addSize hroom]
    · rw [update_of_ne hi,update_of_ne hi]
  · rw [if_neg hfree,if_neg (show ¬ t.stamps.stamp (hashRegular obj key) ≤ t.stamps.base from hfree)]
    rfl

theorem Stored.allocateItem (h : Stored s) (obj : BitVec 48) (key : BitVec 64) :
    Stored ⟨s.trans.allocateItem obj key,s.touched ++ [⟨obj,key⟩]⟩ := by
  have hsize : s.trans.nextChunk.tsetSize = s.trans.tsetSize := by
    rw [nextChunk_eq]
  have htset : (s.trans.allocateItem obj key).tset = (s.trans.nextChunk.putNext ⟨obj,key⟩).tset := by
    rw [allocateItem_eq]
  have hat (i : Nat) : (s.trans.allocateItem obj key).at? i = (s.trans.nextChunk.putNext ⟨obj,key⟩).at? i := by
    rw [at?,htset,at?]
  refine ⟨?_,?_,fun i hi => ?_⟩
  · rw [length_append,length_singleton,← h.size,allocateItem_eq]
  · rw [htset,putNext_isSome]
    exact nextChunk_first h.first
  · rw [length_append,length_singleton] at hi
    rw [hat]
    rcases Nat.lt_succ_iff_lt_or_eq.mp hi with hlt | rfl
    · have hitem := (h.items i hlt).trans (getElem?_eq_getElem hlt)
      rw [putNext_at_ne _ _ (by rw [hsize,h.size]; exact Nat.ne_of_lt hlt),nextChunk_at hitem,
        getElem?_append_left hlt,getElem?_eq_getElem hlt]
    · rw [getElem?_concat_length,← h.size,← hsize]
      exact putNext_at _ _ (hsize ▸ h.nextChunk_isSome)

/-- The hash table takes an item that is new to the transaction. -/
theorem Holds.allocateItem (h : Holds s) (hroom : s.trans.hashBase.toNat+s.trans.tsetSize+1 < 2^16)
    (hnew : ⟨obj,key⟩ ∉ s.touched) : Holds ⟨s.trans.allocateItem obj key,s.touched ++ [⟨obj,key⟩]⟩ := by
  refine ⟨h.toStored.allocateItem obj key,?_⟩
  rw [stamps_allocateItem hroom,h.size]
  exact h.indexes.add hnew

theorem Stored.start (h : Stored s) : Stored ⟨s.trans.start,[]⟩ := by
  have hsize : s.trans.start.tsetSize = 0 ∧ s.trans.start.tset = s.trans.tset := by
    rw [Transaction.start]
    dsimp only
    split
    · exact ⟨rfl,rfl⟩
    · exact ⟨rfl,rfl⟩
  refine ⟨hsize.1,?_,fun i hi => absurd hi (Nat.not_lt_zero i)⟩
  rw [hsize.2]
  exact h.first

/-- A new transaction finds none of the old items. -/
theorem Holds.start (h : Holds s) (hroom : s.trans.hashBase.toNat+s.trans.tsetSize+1 < 2^16) : Holds ⟨s.trans.start,[]⟩ := by
  have hbase : (s.trans.hashBase+BitVec.ofNat 16 (s.trans.tsetSize+1)).toNat = s.trans.stamps.base+(s.touched.length+1) :=
    h.size ▸ toNat_addSize hroom
  refine ⟨h.toStored.start,?_⟩
  rw [Transaction.start]
  dsimp only
  split
  · exact indexes_clear TransItem.hash
  · rw [Transaction.stamps]
    dsimp only
    rw [hbase]
    exact indexes_begin TransItem.hash (fun i => (h.indexes.stamp_le i).trans (by omega))

theorem Holds.next (h : Holds s) {s' call} (hroom : Room s call) (hnext : s.next call = some s') : Holds s' := by
  have hadd (obj : BitVec 48) (key : BitVec 64) (hnew : ⟨obj,key⟩ ∉ s.touched) (hs' : s.allocate obj key = some s') : Holds s' := by
    rw [Thread.allocate] at hs'
    split at hs'
    · rw [← some.inj hs']
      exact h.allocateItem hroom hnew
    · exact absurd hs'.symm (some_ne_none s')
  cases call with
  | start => exact some.inj hnext ▸ h.start hroom
  | item obj key =>
    rw [Thread.next,h.findItem_eq,h.scan_eq] at hnext
    cases hidx : s.touched.idxOf? ⟨obj,key⟩ with
    | some i =>
      rw [hidx] at hnext
      exact some.inj hnext ▸ h
    | none =>
      rw [hidx] at hnext
      exact hadd obj key (idxOf?_eq_none_iff.mp hidx) hnext
  | newItem obj key =>
    rw [Thread.next] at hnext
    split at hnext
    · exact absurd hnext.symm (some_ne_none s')
    · rename_i hnew
      exact hadd obj key hnew hnext

theorem holds_of_reached (h : thread.Reached Room s) : Holds s := by
  refine h.ofNext_invariant ⟨⟨rfl,rfl,fun i hi => absurd hi (Nat.not_lt_zero i)⟩,?_⟩ (fun s call s' hs hroom hnext => hs.next hroom hnext)
  exact indexes_begin TransItem.hash (fun i => Nat.zero_le _)

end Refinement

section Lookup

/-- While the entries fit into their 16 bits, `find_item` finds what a scan finds: the item of this
transaction, and nothing else. -/
theorem find_item_is_scan {s : Thread} (h : thread.Reached Room s) (obj : BitVec 48) (key : BitVec 64) :
    s.trans.findItem obj key = some (s.trans.findItemScan obj key) ∧
      s.trans.findItemScan obj key = s.touched.idxOf? ⟨obj,key⟩ :=
  ⟨(holds_of_reached h).findItem_eq,(holds_of_reached h).scan_eq⟩

/-- Two transactions of a thread: the second one touches an item of the first again, and one of its own. -/
def twoTransactions : List Call :=
  [.item 16 7,.item 32 7,.newItem 48 9,.item 16 7,.start,.item 32 7,.item 64 9,.item 32 7]

theorem find_item_is_scan_two_transactions :
    let s := thread.play thread.start twoTransactions
    s.touched = [⟨32,7⟩,⟨64,9⟩] ∧ s.trans.findItem 64 9 = some (s.trans.findItemScan 64 9) ∧ s.trans.findItemScan 64 9 = some 1 ∧
      s.trans.findItem 16 7 = some (s.trans.findItemScan 16 7) ∧ s.trans.findItemScan 16 7 = none := by
  intro s
  have h : thread.Reached Room s := Machine.Reached.playWhen (p := fun s _ => decide (s.trans.hashBase.toNat+s.trans.tsetSize+1 < 2^16))
    (fun _ _ => of_decide_eq_true) .start twoTransactions (by decide +kernel)
  have htouched : s.touched = [⟨32,7⟩,⟨64,9⟩] := by decide +kernel
  obtain ⟨hown,hscan⟩ := find_item_is_scan h 64 9
  obtain ⟨hold,hnone⟩ := find_item_is_scan h 16 7
  rw [htouched] at hscan hnone
  exact ⟨htouched,hown,hscan,hold,hnone⟩

theorem hashBase_lt {s} (h : thread.Reachable s) : s.trans.hashBase.toNat < hashSize := by
  have hstart (t : Transaction) : t.start.hashBase.toNat < hashSize := by
    rw [start]
    dsimp only
    split
    · exact Nat.succ_pos 32778
    · rename_i hlt
      exact Nat.lt_of_not_le hlt
  have hadd (s s' : Thread) (obj : BitVec 48) (key : BitVec 64) (h : s.allocate obj key = some s') :
      s'.trans.hashBase = s.trans.hashBase := by
    rw [Thread.allocate] at h
    split at h
    · rw [← some.inj h,allocateItem_eq]
    · exact absurd h.symm (some_ne_none s')
  refine h.ofNext_invariant (I := fun s => s.trans.hashBase.toNat < hashSize) (hstart _) (fun s call s' hs hnext => ?_)
  cases call with
  | start => exact some.inj hnext ▸ hstart s.trans
  | item obj key =>
    rw [Thread.next] at hnext
    split at hnext
    · exact absurd hnext.symm (some_ne_none s')
    · exact some.inj hnext ▸ hs
    · exact hadd s s' obj key hnext ▸ hs
  | newItem obj key =>
    rw [Thread.next] at hnext
    split at hnext
    · exact absurd hnext.symm (some_ne_none s')
    · exact hadd s s' obj key hnext ▸ hs

theorem room_of_le {s} (h : thread.Reachable s) (hsize : s.trans.tsetSize ≤ 32756) (call : Call) : Room s call := by
  have hbase := hashBase_lt h
  rw [hashSize] at hbase
  rw [Room]
  omega

/-- A thread whose transactions have at most 32756 items when they look for another finds every item
of the transaction, and nothing else. -/
theorem short_transactions_find_items {s : Thread} (h : thread.Reached (fun s _ => s.trans.tsetSize ≤ 32756) s)
    (obj : BitVec 48) (key : BitVec 64) : s.trans.findItem obj key = some (s.touched.idxOf? ⟨obj,key⟩) := by
  have hroom : thread.Reached Room s := by
    induction h with
    | start => exact .start
    | next hs hready hsize ih => exact .next ih hready (room_of_le hs.reachable hsize _)
  have hholds := holds_of_reached hroom
  rw [hholds.findItem_eq,hholds.scan_eq]

theorem short_transactions_find_items_two_transactions :
    let s := thread.play thread.start twoTransactions
    s.trans.findItem 32 7 = some (some 0) ∧ s.trans.findItem 64 9 = some (some 1) ∧ s.trans.findItem 48 9 = some none := by
  intro s
  have h := Machine.Reached.playWhen (M := thread) (P := fun s _ => s.trans.tsetSize ≤ 32756)
    (p := fun s _ => decide (s.trans.tsetSize ≤ 32756)) (fun _ _ => of_decide_eq_true) .start twoTransactions (by decide +kernel)
  have htouched : s.touched = [⟨32,7⟩,⟨64,9⟩] := by decide +kernel
  have hfound (obj : BitVec 48) (key : BitVec 64) :
      s.trans.findItem obj key = some (([⟨32,7⟩,⟨64,9⟩] : List TransItem).idxOf? ⟨obj,key⟩) :=
    htouched ▸ short_transactions_find_items h obj key
  exact ⟨hfound 32 7,hfound 64 9,hfound 48 9⟩

/-- Items of many objects under one key, all of them in one bucket; the objects are aligned. -/
def filling (i : Nat) : TransItem := ⟨BitVec.ofNat 48 (16*(i+1)),0x4000000⟩

theorem filling_notMem {n} (hn : n < 2^43) : filling n ∉ (List.range n).map filling := by
  intro h
  obtain ⟨i,hi,heq⟩ := mem_map.mp h
  have hlt := mem_range.mp hi
  have howner := congrArg (fun item => item.owner.toNat) heq
  dsimp only [filling] at howner
  rw [BitVec.toNat_ofNat,BitVec.toNat_ofNat,Nat.mod_eq_of_lt (by omega),Nat.mod_eq_of_lt (by omega)] at howner
  omega

/-- A new item is not found, so it is allocated. -/
theorem Holds.next_item {s item} (h : Holds s) (hnew : item ∉ s.touched)
    (hsize : s.trans.tsetSize < tsetMaxCapacity) : s.next (.item item.owner item.key) =
      some ⟨s.trans.allocateItem item.owner item.key,s.touched ++ [item]⟩ := by
  rw [Thread.next,h.findItem_eq,h.scan_eq,idxOf?_eq_none_iff.mpr hnew]
  dsimp only
  rw [Thread.allocate,if_pos hsize]

/-- The first transaction of a thread after that many of them. -/
theorem reached_filling {n} (hn : n ≤ 32766) : ∃ s, thread.Reached Room s ∧ s.trans.hashBase = 32769 ∧
    s.touched = (List.range n).map filling := by
  induction n with
  | zero => exact ⟨_,.start,by decide,rfl⟩
  | succ n ih =>
    obtain ⟨s,hs,hbase,htouched⟩ := ih (by omega)
    have hholds := holds_of_reached hs
    have hsize : s.trans.tsetSize = n := by
      rw [hholds.size,htouched,length_map,length_range]
    have hnext := hholds.next_item (htouched ▸ filling_notMem (by omega)) (by rw [hsize,tsetMaxCapacity]; omega)
    have hroom : Room s (.item (filling n).owner (filling n).key) := by
      rw [Room,hbase,hsize]
      exact (show 32769+n+1 < 2^16 by omega)
    refine ⟨_,hs.ofNext_next hroom hnext,?_,?_⟩
    · rw [allocateItem_eq]
      exact hbase
    · rw [range_succ,map_append,htouched]
      rfl

theorem hash_filling (i : Nat) : (filling i).hash = 6155 := by
  rw [TransItem.hash,filling,hashRegular]
  dsimp only
  rw [if_neg (by decide)]
  decide

/-- The entry of the 32767th item of a thread's first transaction wraps to zero, so the item is not
found again. -/
theorem find_item_misses : ∃ s, thread.Reachable s ∧ s.touched.length = 32767 ∧
    s.trans.findItemScan 16 1 = some 32766 ∧ s.trans.findItem 16 1 = some none := by
  obtain ⟨s,hs,hbase,htouched⟩ := reached_filling (le_refl 32766)
  have hholds := holds_of_reached hs
  have hlen : s.touched.length = 32766 := by
    rw [htouched,List.length_map,List.length_range]
  have hother (a : TransItem) (ha : a ∈ s.touched) : a.hash ≠ Transaction.hashRegular 16 1 := by
    rw [htouched] at ha
    obtain ⟨i,-,rfl⟩ := List.mem_map.mp ha
    rw [hash_filling]
    decide
  have hnew : ⟨16,1⟩ ∉ s.touched := fun h => hother ⟨16,1⟩ h rfl
  have hnext := hholds.next_item hnew (by rw [hholds.size,hlen]; decide)
  refine ⟨_,hs.reachable.ofNext_next trivial hnext,?_,?_,?_⟩
  · rw [List.length_append,hlen]
    rfl
  · rw [(hholds.toStored.allocateItem 16 1).scan_eq,List.idxOf?_eq_some_iff]
    have hlast : 32766 < (s.touched ++ [(⟨16,1⟩ : TransItem)]).length := by
      rw [List.length_append,hlen]
      decide
    refine ⟨hlast,?_,fun j hj hjlast => ?_⟩
    · rw [List.getElem_append_right (le_of_eq hlen)]
      exact List.getElem_singleton _
    · rw [List.getElem_append_left (hlen ▸ hj)] at hjlast
      exact hnew (hjlast ▸ List.getElem_mem (hlen ▸ hj))
  · have hfree : s.trans.hashtable (Transaction.hashRegular 16 1) ≤ s.trans.hashBase := hholds.indexes.stamp_le_base hother
    have hentry : (s.trans.allocateItem 16 1).hashtable (Transaction.hashRegular 16 1) = 0 := by
      rw [Transaction.allocateItem_eq,if_pos hfree]
      dsimp only
      rw [update_self,hbase,hholds.size,hlen]
      decide
    exact if_pos (hentry ▸ Nat.zero_le _)

end Lookup

end AlNiCo.Sto.ItemSet
