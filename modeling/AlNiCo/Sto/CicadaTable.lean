import AlNiCo.Library.LinkedSegment
import AlNiCo.Sto.ItemSet
import Mathlib.Data.List.Perm.Subperm

/-! The other hash table over the items of a transaction (Transaction.hh, `CICADA_HASHTABLE`): chains
of buckets from 257 roots. A clear only sets a counter; the first access after it empties the roots,
and the buckets behind them are taken again one by one. -/
namespace AlNiCo.Sto.CicadaTable
open Library.LinkedSegment ItemSet Function List Option

def accessBucketSize : Nat := 6

def accessBucketRootCount : Nat := 257

def emptyBucketID : Nat := 65535

/-- At most as many indices as the array has room for. -/
structure AccessBucket where
  count : Fin (accessBucketSize+1)
  next : Nat
  idx : Fin accessBucketSize → Nat

namespace AccessBucket

/-- The loop over a bucket reads the first `count` indices. -/
def entries (bkt : AccessBucket) : List Nat := ((List.finRange accessBucketSize).take bkt.count.val).map bkt.idx

theorem count_lt {bkt : AccessBucket} (h : bkt.count.val ≠ accessBucketSize) : bkt.count.val < accessBucketSize :=
  lt_of_le_of_ne (Nat.lt_succ_iff.mp bkt.count.isLt) h

def push (bkt : AccessBucket) (h : bkt.count.val ≠ accessBucketSize) (idx : Nat) : AccessBucket :=
  { bkt with
    count := ⟨bkt.count.val+1,Nat.succ_lt_succ (count_lt h)⟩
    idx := update bkt.idx ⟨bkt.count.val,count_lt h⟩ idx }

/-- A root after a clear, or a bucket that has just been taken. -/
def emptied (bkt : AccessBucket) : AccessBucket := { bkt with count := 0, next := emptyBucketID }

theorem emptied_not_full (bkt : AccessBucket) : bkt.emptied.count.val ≠ accessBucketSize := Nat.succ_ne_zero 5 ∘ Eq.symm

end AccessBucket

structure CicadaHashtable where
  accessBucketCount : Nat
  accessBuckets : List AccessBucket

theorem toNat_umod_lt (n : BitVec 64) : (n % 257).toNat < accessBucketRootCount :=
  BitVec.umod_lt n (show (0 : BitVec 64) < 257 by decide)

def hash (item : TransItem) : Fin accessBucketRootCount := ⟨((item.owner.setWidth 64/64+item.key) % 257).toNat,toNat_umod_lt _⟩

namespace CicadaHashtable

def constructed : CicadaHashtable := ⟨0,List.replicate accessBucketRootCount ⟨0,0,fun _ => 0⟩⟩

def clear (t : CicadaHashtable) : CicadaHashtable := { t with accessBucketCount := 0 }

/-- What `find` and `put` begin with. -/
def prepared (t : CicadaHashtable) : CicadaHashtable :=
  if t.accessBucketCount = 0 then
    ⟨accessBucketRootCount,t.accessBuckets.mapIdx (fun i bkt => if i < accessBucketRootCount then bkt.emptied else bkt)⟩
  else t

/-- The loop over a bucket's indices; nothing is the access to an item that is not there. -/
def scan (trans : Transaction) (item : TransItem) : List Nat → Option (Option Nat)
  | [] => some none
  | idx :: rest => (trans.at? idx).bind (fun ti => if ti = item then some (some idx) else scan trans item rest)

/-- The loop over a chain. Longer than the vector it goes in a circle. -/
def findFrom (t : CicadaHashtable) (trans : Transaction) (item : TransItem) : Nat → Nat → Option (Option Nat)
  | 0,_ => none
  | fuel+1,bktId => (t.accessBuckets[bktId]?).bind (fun bkt => (scan trans item bkt.entries).bind (fun
    | some idx => some (some idx)
    | none => if bkt.next = emptyBucketID then some none else findFrom t trans item fuel bkt.next))

def find (t : CicadaHashtable) (trans : Transaction) (item : TransItem) : Option (Option Nat × CicadaHashtable) :=
  let t := t.prepared
  (t.findFrom trans item t.accessBuckets.length (hash item).val).map (fun found => (found,t))

def lastFrom (t : CicadaHashtable) : Nat → Nat → Option Nat
  | 0,_ => none
  | fuel+1,bktId => (t.accessBuckets[bktId]?).bind (fun bkt =>
    if bkt.next = emptyBucketID then some bktId else lastFrom t fuel bkt.next)

def set (t : CicadaHashtable) (id : Nat) (bkt : AccessBucket) : CicadaHashtable :=
  { t with accessBuckets := t.accessBuckets.set id bkt }

/-- The counter goes up, and the vector grows when it has not been as long before. -/
def grown (t : CicadaHashtable) : CicadaHashtable :=
  let count := (t.accessBucketCount+1) % 2^16
  ⟨count,if t.accessBuckets.length < count then
    t.accessBuckets ++ List.replicate (count-t.accessBuckets.length) ⟨0,0,fun _ => 0⟩ else t.accessBuckets⟩

def putBehind (t : CicadaHashtable) (bktId : Nat) (bkt : AccessBucket) (idx : Nat) : Option CicadaHashtable :=
  let newBktId := t.accessBucketCount
  let t := t.grown
  (t.accessBuckets[newBktId]?).map (fun newBkt =>
    let t := t.set newBktId newBkt.emptied
    let t := t.set bktId { bkt with next := newBktId }
    t.set newBktId (newBkt.emptied.push newBkt.emptied_not_full idx))

def put (t : CicadaHashtable) (item : TransItem) (idx : Nat) : Option CicadaHashtable :=
  let t := t.prepared
  (t.lastFrom t.accessBuckets.length (hash item).val).bind (fun bktId =>
    (t.accessBuckets[bktId]?).bind (fun bkt =>
      if h : bkt.count.val = accessBucketSize then t.putBehind bktId bkt idx else some (t.set bktId (bkt.push h idx))))

end CicadaHashtable

/-- A transaction object with this table; the members of the other table are not used. -/
structure Thread where
  trans : Transaction
  cht : CicadaHashtable

inductive Call
  | clear
  | put (owner : BitVec 48) (key : BitVec 64)
  | find (owner : BitVec 48) (key : BitVec 64)

namespace Thread

def constructed : Thread := ⟨Transaction.initialized,CicadaHashtable.constructed⟩

def start (s : Thread) : Thread :=
  ⟨{ s.trans with hashBase := s.trans.hashBase+BitVec.ofNat 16 (s.trans.tsetSize+1), tsetSize := 0 },s.cht.clear⟩

def allocateItem (s : Thread) (item : TransItem) : Option Thread :=
  if s.trans.tsetSize < tsetMaxCapacity then
    let trans := s.trans.nextChunk.putNext item
    let trans := { trans with tsetSize := trans.tsetSize+1 }
    (s.cht.put item (trans.tsetSize-1)).map (fun cht => ⟨trans,cht⟩)
  else none

def findItem (s : Thread) (item : TransItem) : Option (Option Nat × Thread) :=
  (s.cht.find s.trans item).map (fun (found,cht) => (found,⟨s.trans,cht⟩))

def run : Thread → List Call → Option (List (Option Nat))
  | _,[] => some []
  | s,.clear :: calls => s.start.run calls
  | s,.put owner key :: calls => (s.allocateItem ⟨owner,key⟩).bind (fun s => s.run calls)
  | s,.find owner key :: calls => (s.findItem ⟨owner,key⟩).bind (fun (found,s) => (s.run calls).map (fun rest => found :: rest))

end Thread

section

/-- What the table is for: a map from the items put since the last clear to their indices. -/
structure ItemMap where
  map : TransItem → Option Nat
  size : Nat

namespace ItemMap

def empty : ItemMap := ⟨fun _ => none,0⟩

def put (m : ItemMap) (item : TransItem) : ItemMap := ⟨update m.map item (some m.size),m.size+1⟩

def answers : ItemMap → List Call → List (Option Nat)
  | _,[] => []
  | _,.clear :: calls => empty.answers calls
  | m,.put owner key :: calls => (m.put ⟨owner,key⟩).answers calls
  | m,.find owner key :: calls => m.map ⟨owner,key⟩ :: m.answers calls

/-- Between two clears every item is put once, and there is room for all of them. -/
def Legal : ItemMap → List Call → Prop
  | _,[] => True
  | _,.clear :: calls => empty.Legal calls
  | m,.put owner key :: calls => m.map ⟨owner,key⟩ = none ∧ m.size < tsetMaxCapacity ∧ (m.put ⟨owner,key⟩).Legal calls
  | m,.find _ _ :: calls => m.Legal calls

instance decidableLegal : (m : ItemMap) → (calls : List Call) → Decidable (m.Legal calls)
  | _,[] => .isTrue trivial
  | _,.clear :: calls => decidableLegal empty calls
  | m,.put owner key :: calls =>
    have := decidableLegal (m.put ⟨owner,key⟩) calls
    inferInstanceAs (Decidable (m.map ⟨owner,key⟩ = none ∧ m.size < tsetMaxCapacity ∧ (m.put ⟨owner,key⟩).Legal calls))
  | m,.find _ _ :: calls => decidableLegal m calls

end ItemMap

end

namespace AccessBucket
variable {bkt : AccessBucket}

theorem entries_push (h : bkt.count.val ≠ accessBucketSize) (idx : Nat) : (bkt.push h idx).entries = bkt.entries ++ [idx] := by
  have hlt : bkt.count.val < (List.finRange accessBucketSize).length := by
    rw [length_finRange]
    exact count_lt h
  rw [entries,entries,push]
  dsimp only
  rw [take_succ_eq_append_getElem hlt,map_append,map_singleton,getElem_finRange]
  congr 1
  · refine map_congr_left (fun i hi => update_of_ne ?_ _ _)
    obtain ⟨j,hj,rfl⟩ := mem_take_iff_getElem.mp hi
    rw [getElem_finRange]
    intro heq
    have hval := congrArg Fin.val heq
    exact absurd hval (Nat.ne_of_lt (lt_of_lt_of_le hj (Nat.min_le_left _ _)))
  · exact congrArg (fun x => [x]) (update_self ..)

theorem entries_emptied (bkt : AccessBucket) : bkt.emptied.entries = [] := rfl

end AccessBucket

open CicadaHashtable

section
variable {trans : Transaction} {items : List TransItem}

theorem scan_append (item : TransItem) (l l' : List Nat) : scan trans item (l ++ l') = (scan trans item l).bind (fun
      | some idx => some (some idx)
      | none => scan trans item l') := by
  induction l with
  | nil => rfl
  | cons idx l ih =>
    rw [cons_append,scan,scan,bind_assoc]
    congr 1
    funext ti
    split
    · rfl
    · exact ih

def positions (items : List TransItem) (r : Fin accessBucketRootCount) : List Nat :=
  (items.zipIdx.filter (fun p => hash p.1 = r)).map Prod.snd

theorem positions_concat (items : List TransItem) (item : TransItem) (r : Fin accessBucketRootCount) :
    positions (items ++ [item]) r = positions items r ++ if hash item = r then [items.length] else [] := by
  rw [positions,zipIdx_append,filter_append,map_append,← positions]
  congr 1
  by_cases hr : hash item = r
  · simp [hr]
  · simp [hr]

theorem idxOf?_concat (items : List TransItem) (item other : TransItem) :
    (items ++ [other]).idxOf? item = (items.idxOf? item).or (if other = item then some items.length else none) := by
  rw [List.idxOf?,findIdx?_append,← List.idxOf?]
  congr 1
  by_cases heq : other = item
  · simp [heq]
  · simp [heq]

/-- Among the positions of its root an item is found at its first one. -/
theorem scan_positions (hat : ∀ i < items.length, trans.at? i = items[i]?) (item : TransItem) :
    scan trans item (positions items (hash item)) = some (items.idxOf? item) := by
  induction items using List.reverseRecOn with
  | nil => rfl
  | append_singleton items other ih =>
    have hlast : trans.at? items.length = some other := by
      rw [hat _ (by rw [length_append]; exact Nat.lt_succ_self _),getElem?_concat_length]
    have hinit : scan trans item (positions items (hash item)) = some (items.idxOf? item) := by
      refine ih (fun i hi => ?_)
      rw [hat i (by rw [length_append]; exact Nat.lt_succ_of_lt hi),getElem?_append_left hi]
    rw [positions_concat,scan_append,hinit,bind_some,idxOf?_concat]
    cases items.idxOf? item with
    | some i => rfl
    | none =>
      rw [none_or]
      by_cases heq : other = item
      · rw [heq,if_pos rfl,if_pos rfl,scan,hlast,bind_some,if_pos heq]
      · rw [if_neg heq]
        by_cases hroot : hash other = hash item
        · rw [if_pos hroot,scan,hlast,bind_some,if_neg heq]
          rfl
        · rw [if_neg hroot]
          rfl

end

namespace CicadaHashtable
variable {t : CicadaHashtable} {l : List Nat} {id fuel : Nat}

def next (t : CicadaHashtable) (id : Nat) : Option Nat :=
  (t.accessBuckets[id]?).bind (fun bkt => if bkt.next = emptyBucketID then none else some bkt.next)

def entries (t : CicadaHashtable) (id : Nat) : List Nat := (t.accessBuckets[id]?).elim [] AccessBucket.entries

theorem exists_bucket (h : id < t.accessBuckets.length) : ∃ bkt, t.accessBuckets[id]? = some bkt :=
  ⟨_,getElem?_eq_getElem h⟩

/-- The loop of `find` over a chain is one scan over all its buckets. -/
theorem findFrom_eq {trans item} (hseg : Seg t.next (some id) l none)
    (hids : ∀ id ∈ l, id < t.accessBuckets.length) (hfuel : l.length ≤ fuel) :
    t.findFrom trans item fuel id = scan trans item (l.flatMap t.entries) := by
  induction l generalizing id fuel with
  | nil => exact absurd hseg (some_ne_none id)
  | cons a l ih =>
    obtain ⟨hid,hrest⟩ := hseg
    cases hid
    cases fuel with
    | zero => exact absurd hfuel (Nat.not_succ_le_zero _)
    | succ fuel =>
      obtain ⟨bkt,hbkt⟩ := exists_bucket (hids a mem_cons_self)
      have hentries : t.entries a = bkt.entries := by rw [entries,hbkt]; rfl
      rw [next,hbkt,bind_some] at hrest
      rw [findFrom,hbkt,bind_some,flatMap_cons,hentries,scan_append]
      congr 1
      funext found
      cases found with
      | some idx => rfl
      | none =>
        by_cases hlast : bkt.next = emptyBucketID
        · rw [if_pos hlast] at hrest
          rw [seg_none hrest]
          exact if_pos hlast
        · rw [if_neg hlast] at hrest
          refine (if_neg hlast).trans ?_
          exact ih hrest (fun b hb => hids b (mem_cons_of_mem _ hb)) (Nat.le_of_succ_le_succ hfuel)

/-- The loop of `put` ends at the last bucket. -/
theorem lastFrom_eq {a} (hseg : Seg t.next (some id) (l ++ [a]) none)
    (hids : ∀ id ∈ l ++ [a], id < t.accessBuckets.length) (hfuel : l.length < fuel) : t.lastFrom fuel id = some a := by
  induction l generalizing id fuel with
  | nil =>
    obtain ⟨hid,hend⟩ := hseg
    cases hid
    cases fuel with
    | zero => exact absurd hfuel (Nat.not_lt_zero _)
    | succ fuel =>
      obtain ⟨bkt,hbkt⟩ := exists_bucket (hids a mem_cons_self)
      rw [lastFrom,hbkt,bind_some]
      refine if_pos ?_
      by_contra hnot
      obtain hend : t.next a = none := hend
      rw [next,hbkt,bind_some,if_neg hnot] at hend
      exact some_ne_none _ hend
  | cons b l ih =>
    obtain ⟨hid,hrest⟩ := hseg
    cases hid
    cases fuel with
    | zero => exact absurd hfuel (Nat.not_lt_zero _)
    | succ fuel =>
      obtain ⟨bkt,hbkt⟩ := exists_bucket (hids b mem_cons_self)
      rw [next,hbkt,bind_some] at hrest
      rw [lastFrom,hbkt,bind_some]
      by_cases hlast : bkt.next = emptyBucketID
      · rw [if_pos hlast] at hrest
        exact absurd (seg_none hrest) (append_ne_nil_of_right_ne_nil _ (cons_ne_nil a []))
      · rw [if_neg hlast] at hrest ⊢
        exact ih hrest (fun c hc => hids c (mem_cons_of_mem _ hc)) (Nat.lt_of_succ_lt_succ hfuel)

section
variable {t' : CicadaHashtable} {bkt : AccessBucket}

theorem next_of_bucket (h : t.accessBuckets[id]? = some bkt) : t.next id = if bkt.next = emptyBucketID then none else some bkt.next := by
  rw [next,h,bind_some]

theorem entries_of_bucket (h : t.accessBuckets[id]? = some bkt) : t.entries id = bkt.entries := by
  rw [entries,h]
  rfl

theorem next_congr (h : t'.accessBuckets[id]? = t.accessBuckets[id]?) : t'.next id = t.next id := by rw [next,next,h]

theorem entries_congr (h : t'.accessBuckets[id]? = t.accessBuckets[id]?) : t'.entries id = t.entries id := by
  rw [entries,entries,h]

theorem set_ne {id'} (h : id' ≠ id) : (t.set id bkt).accessBuckets[id']? = t.accessBuckets[id']? :=
  getElem?_set_ne h.symm

theorem set_self (h : id < t.accessBuckets.length) : (t.set id bkt).accessBuckets[id]? = some bkt :=
  getElem?_set_self h

theorem length_set (t : CicadaHashtable) (id : Nat) (bkt : AccessBucket) :
    (t.set id bkt).accessBuckets.length = t.accessBuckets.length := List.length_set

end

/-- The chains of a table in use hold the positions of the items, each with its root. -/
structure Chained (t : CicadaHashtable) (items : List TransItem) (chain : Fin accessBucketRootCount → List Nat) : Prop where
  chains : Chains t.next Fin.val chain
  range : ∀ r, ∀ id ∈ chain r, id < t.accessBucketCount
  roots : accessBucketRootCount ≤ t.accessBucketCount
  vector : t.accessBucketCount ≤ t.accessBuckets.length
  room : t.accessBucketCount ≤ accessBucketRootCount+items.length
  content : ∀ r, (chain r).flatMap t.entries = positions items r

section Invariant
variable {items : List TransItem} {item : TransItem} {chain : Fin accessBucketRootCount → List Nat}

theorem length_prepared (t : CicadaHashtable) : t.prepared.accessBuckets.length = t.accessBuckets.length := by
  rw [prepared]
  split
  · exact length_mapIdx
  · rfl

theorem prepared_clear (t : CicadaHashtable) : t.clear.prepared = ⟨accessBucketRootCount,
    t.accessBuckets.mapIdx (fun i bkt => if i < accessBucketRootCount then bkt.emptied else bkt)⟩ := if_pos rfl

/-- Whatever the chains were, after a clear the roots begin anew. -/
theorem chained_clear (h : accessBucketRootCount ≤ t.accessBuckets.length) : Chained t.clear.prepared [] (fun r => [r.val]) := by
  have hlength : accessBucketRootCount ≤ t.clear.prepared.accessBuckets.length := (length_prepared t.clear).symm ▸ h
  have hroot (r : Fin accessBucketRootCount) : ∃ bkt : AccessBucket, t.clear.prepared.accessBuckets[r.val]? = some bkt.emptied := by
    obtain ⟨bkt,hbkt⟩ := exists_bucket (lt_of_lt_of_le r.isLt h)
    refine ⟨bkt,?_⟩
    rw [prepared_clear,getElem?_mapIdx,hbkt,map_some,if_pos r.isLt]
  have hnext (r : Fin accessBucketRootCount) : t.clear.prepared.next r.val = none := by
    obtain ⟨bkt,hbkt⟩ := hroot r
    rw [next_of_bucket hbkt]
    exact if_pos rfl
  have hcount : t.clear.prepared.accessBucketCount = accessBucketRootCount := by rw [prepared_clear]
  refine ⟨chains_of_roots (fun _ _ => Fin.ext) hnext,fun r id hid => ?_,hcount.ge,hcount.le.trans hlength,hcount.le,fun r => ?_⟩
  · rw [mem_singleton.mp hid,hcount]
    exact r.isLt
  · obtain ⟨bkt,hbkt⟩ := hroot r
    rw [flatMap_singleton,entries_of_bucket hbkt,AccessBucket.entries_emptied]
    rfl

section
variable (h : Chained t items chain)
include h

theorem Chained.prepared : t.prepared = t := by
  have hroots := h.roots
  rw [CicadaHashtable.prepared,if_neg]
  intro hzero
  rw [hzero] at hroots
  exact absurd hroots (by decide)

theorem Chained.mem_length {r} (hid : id ∈ chain r) : id < t.accessBuckets.length := lt_of_lt_of_le (h.range r id hid) h.vector

theorem Chained.length_le (r : Fin accessBucketRootCount) : (chain r).length ≤ t.accessBuckets.length := by
  have hsub : chain r ⊆ List.range t.accessBuckets.length := fun id hid => mem_range.mpr (h.mem_length hid)
  have hle := (subperm_of_subset (h.chains.nodup r) hsub).length_le
  rwa [length_range] at hle

theorem Chained.find_eq {trans} (hat : ∀ i < items.length, trans.at? i = items[i]?)
    (item : TransItem) : t.find trans item = some (items.idxOf? item,t) := by
  rw [find,h.prepared,findFrom_eq (h.chains.seg (hash item)) (fun id hid => h.mem_length hid) (h.length_le (hash item)),h.content,
    scan_positions hat,map_some]

end

/-- One more index in the last bucket of a chain. -/
theorem flatMap_last {l : List Nat} {a idx : Nat} {e e' : Nat → List Nat} (hnodup : (l ++ [a]).Nodup)
    (hlast : e' a = e a ++ [idx]) (hother : ∀ id ∈ l, id ≠ a → e' id = e id) :
    (l ++ [a]).flatMap e' = (l ++ [a]).flatMap e ++ [idx] := by
  have ha : a ∉ l := fun ha => disjoint_of_nodup_append hnodup ha (mem_singleton_self a)
  have hl : l.flatMap e' = l.flatMap e := flatMap_congr (fun id hid => hother id hid (fun heq => ha (heq ▸ hid)))
  rw [flatMap_append,flatMap_append,flatMap_singleton,flatMap_singleton,hl,hlast,append_assoc]

theorem positions_of_ne {r} (h : r ≠ hash item) : positions (items ++ [item]) r = positions items r := by
  rw [positions_concat,if_neg h.symm,append_nil]

theorem positions_of_hash : positions (items ++ [item]) (hash item) = positions items (hash item) ++ [items.length] := by
  rw [positions_concat,if_pos rfl]

theorem Chained.push (h : Chained t items chain) {a : Nat} (hlast : chain (hash item) = l ++ [a]) {bkt : AccessBucket}
    (hbkt : t.accessBuckets[a]? = some bkt) (hroom : bkt.count.val ≠ accessBucketSize) :
    Chained (t.set a (bkt.push hroom items.length)) (items ++ [item]) chain := by
  have ha : a ∈ chain (hash item) := hlast ▸ mem_append_right _ (mem_singleton_self a)
  have hself : (t.set a (bkt.push hroom items.length)).accessBuckets[a]? = some _ := set_self (h.mem_length ha)
  have hnext (id : Nat) : (t.set a (bkt.push hroom items.length)).next id = t.next id := by
    by_cases hid : id = a
    · rw [hid,next_of_bucket hself,next_of_bucket hbkt]
      rfl
    · exact next_congr (set_ne hid)
  have hentries : (t.set a (bkt.push hroom items.length)).entries a = t.entries a ++ [items.length] := by
    rw [entries_of_bucket hself,entries_of_bucket hbkt,AccessBucket.entries_push]
  refine ⟨h.chains.congr (fun r id _ => hnext id),h.range,h.roots,h.vector.trans_eq (length_set ..).symm,?_,fun r => ?_⟩
  · rw [length_append]
    exact h.room.trans (by omega)
  · by_cases hr : r = hash item
    · rw [hr,positions_of_hash,← h.content,hlast]
      exact flatMap_last (hlast ▸ h.chains.nodup (hash item)) hentries (fun id _ hid => entries_congr (set_ne hid))
    · rw [positions_of_ne hr,← h.content]
      exact flatMap_congr (fun id hid => entries_congr (set_ne (fun heq => hr (h.chains.apart hid (heq ▸ ha)))))

section

/-- The counter does not wrap, and the vector has the new bucket. -/
theorem grown_count (h : t.accessBucketCount+1 < 2^16) : t.grown.accessBucketCount = t.accessBucketCount+1 := Nat.mod_eq_of_lt h

theorem grown_length (h : t.accessBucketCount+1 < 2^16) : t.accessBucketCount < t.grown.accessBuckets.length := by
  rw [grown]
  dsimp only
  rw [Nat.mod_eq_of_lt h]
  split
  · rw [length_append,length_replicate]
    omega
  · omega

/-- The buckets that were there stay as they were. -/
theorem grown_getElem (hid : id < t.accessBuckets.length) : t.grown.accessBuckets[id]? = t.accessBuckets[id]? := by
  rw [grown]
  dsimp only
  split
  · exact getElem?_append_left hid
  · rfl

end

theorem Chained.putBehind (h : Chained t items chain) {a} (hlast : chain (hash item) = l ++ [a]) {bkt}
    (hbkt : t.accessBuckets[a]? = some bkt) (hroom : t.accessBucketCount+1 < 2^16) :
    ∃ t', t.putBehind a bkt items.length = some t' ∧
      Chained t' (items ++ [item]) (update chain (hash item) (chain (hash item) ++ [t.accessBucketCount])) := by
  have ha : a ∈ chain (hash item) := hlast ▸ mem_append_right _ (mem_singleton_self a)
  have hlt := h.range _ a ha
  have hne : a ≠ t.accessBucketCount := Nat.ne_of_lt hlt
  have hfresh (r : Fin accessBucketRootCount) : t.accessBucketCount ∉ chain r := fun hmem => Nat.lt_irrefl _ (h.range r _ hmem)
  obtain ⟨newBkt,hnew⟩ := exists_bucket (grown_length hroom)
  refine ⟨_,congrArg (Option.map _) hnew,?_⟩
  dsimp only
  generalize ht' : (((t.grown.set t.accessBucketCount newBkt.emptied).set a { bkt with next := t.accessBucketCount }).set
    t.accessBucketCount (newBkt.emptied.push newBkt.emptied_not_full items.length)) = t'
  have hlength : t'.accessBuckets.length = t.grown.accessBuckets.length := by rw [← ht',length_set,length_set,length_set]
  have hnewest : t'.accessBuckets[t.accessBucketCount]? = some (newBkt.emptied.push newBkt.emptied_not_full items.length) := by
    rw [← ht']
    refine set_self ?_
    rw [length_set,length_set]
    exact grown_length hroom
  have hfull : t'.accessBuckets[a]? = some { bkt with next := t.accessBucketCount } := by
    rw [← ht',set_ne hne]
    refine set_self ?_
    rw [length_set]
    exact hlt.trans (grown_length hroom)
  have hold {r : Fin accessBucketRootCount} {id : Nat} (hid : id ∈ chain r) (hida : id ≠ a) :
      t'.accessBuckets[id]? = t.accessBuckets[id]? := by
    have hidn : id ≠ t.accessBucketCount := Nat.ne_of_lt (h.range r id hid)
    rw [← ht',set_ne hidn,set_ne hida,set_ne hidn,grown_getElem (h.mem_length hid)]
  have hlink : t'.next a = some t.accessBucketCount := by
    rw [next_of_bucket hfull]
    refine if_neg ?_
    change t.accessBucketCount ≠ 65535
    omega
  have hend : t'.next t.accessBucketCount = none := by
    rw [next_of_bucket hnewest]
    exact if_pos rfl
  have hentries {r : Fin accessBucketRootCount} {id : Nat} (hid : id ∈ chain r) : t'.entries id = t.entries id := by
    by_cases hida : id = a
    · rw [hida,entries_of_bucket hfull,entries_of_bucket hbkt]
      rfl
    · exact entries_congr (hold hid hida)
  have hcount : t'.accessBucketCount = t.accessBucketCount+1 := by
    rw [← ht']
    exact grown_count hroom
  refine ⟨h.chains.extend hlast hfresh hlink hend (fun r id hid hida => next_congr (hold hid hida)),
    fun r id hid => ?_,h.roots.trans (hcount ▸ Nat.le_succ _),?_,?_,fun r => ?_⟩
  · rw [hcount]
    by_cases hr : r = hash item
    · rw [hr,update_self,mem_append,mem_singleton] at hid
      rcases hid with hid | rfl
      · exact Nat.lt_succ_of_lt (h.range _ id hid)
      · exact Nat.lt_succ_self _
    · rw [update_of_ne hr] at hid
      exact Nat.lt_succ_of_lt (h.range r id hid)
  · rw [hcount,hlength]
    exact grown_length hroom
  · rw [hcount,length_append,length_singleton,← Nat.add_assoc]
    exact Nat.succ_le_succ h.room
  · by_cases hr : r = hash item
    · rw [hr,update_self,positions_of_hash,← h.content,flatMap_append,flatMap_singleton,
        entries_of_bucket hnewest,AccessBucket.entries_push,AccessBucket.entries_emptied]
      exact congrArg (· ++ _) (flatMap_congr (fun id hid => hentries hid))
    · rw [update_of_ne hr,positions_of_ne hr,← h.content]
      exact flatMap_congr (fun id hid => hentries hid)

theorem Chained.put (h : Chained t items chain) (item : TransItem) (hroom : t.accessBucketCount+1 < 2^16) :
    ∃ t' chain', t.put item items.length = some t' ∧ Chained t' (items ++ [item]) chain' := by
  obtain ⟨l,a,hlast,-⟩ := h.chains.exists_last (hash item)
  have hseg := h.chains.seg (hash item)
  have hlength := h.length_le (hash item)
  have hids : ∀ id ∈ l ++ [a], id < t.accessBuckets.length := fun id hid => h.mem_length (hlast ▸ hid)
  rw [hlast] at hseg hlength
  rw [length_append] at hlength
  obtain ⟨bkt,hbkt⟩ := exists_bucket (hids a (mem_append_right _ (mem_singleton_self a)))
  rw [CicadaHashtable.put,h.prepared,lastFrom_eq hseg hids hlength,bind_some,hbkt,bind_some]
  by_cases hfull : bkt.count.val = accessBucketSize
  · rw [dif_pos hfull]
    obtain ⟨t',ht',hchained⟩ := h.putBehind hlast hbkt hroom
    exact ⟨t',_,ht',hchained⟩
  · rw [dif_neg hfull]
    exact ⟨_,chain,rfl,h.push hlast hbkt hfull⟩

end Invariant

end CicadaHashtable

section
variable {s : Thread} {items : List TransItem} {m : ItemMap}

structure Holds (s : Thread) (items : List TransItem) : Prop where
  stored : Stored ⟨s.trans,items⟩
  chained : ∃ chain, s.cht.prepared.Chained items chain

def Maps (m : ItemMap) (items : List TransItem) : Prop := m.size = items.length ∧ ∀ item, m.map item = items.idxOf? item

theorem holds_constructed : Holds Thread.constructed [] :=
  ⟨⟨rfl,rfl,fun i hi => absurd hi (Nat.not_lt_zero i)⟩,_,chained_clear (t := constructed) (length_replicate ..).ge⟩

theorem Holds.start (h : Holds s items) : Holds s.start [] := by
  obtain ⟨chain,hchained⟩ := h.chained
  have hlength : accessBucketRootCount ≤ s.cht.accessBuckets.length := by
    rw [← length_prepared]
    exact hchained.roots.trans hchained.vector
  exact ⟨⟨rfl,h.stored.first,fun i hi => absurd hi (Nat.not_lt_zero i)⟩,_,chained_clear hlength⟩

theorem Holds.findItem (h : Holds s items) (item : TransItem) : ∃ s', s.findItem item = some (items.idxOf? item,s') ∧ Holds s' items := by
  obtain ⟨chain,hchained⟩ := h.chained
  have hfind : s.cht.find s.trans item = some (items.idxOf? item,s.cht.prepared) := by
    have heq := hchained.find_eq h.stored.items item
    rw [find,hchained.prepared] at heq
    exact heq
  refine ⟨⟨s.trans,s.cht.prepared⟩,?_,h.stored,chain,by rwa [hchained.prepared]⟩
  rw [Thread.findItem,hfind]
  rfl

/-- The memory of the items does not depend on the hash table. -/
theorem stored_allocate (h : Stored ⟨s.trans,items⟩) (item : TransItem) :
    Stored ⟨{ s.trans.nextChunk.putNext item with tsetSize := (s.trans.nextChunk.putNext item).tsetSize+1 },items ++ [item]⟩ := by
  have hstored := h.allocateItem item.owner item.key
  have hsize : (s.trans.nextChunk.putNext item).tsetSize = s.trans.tsetSize := by
    rw [Transaction.nextChunk_eq]
    rfl
  have htset : (s.trans.allocateItem item.owner item.key).tset = (s.trans.nextChunk.putNext item).tset := by
    rw [Transaction.allocateItem_eq]
  refine ⟨?_,htset ▸ hstored.first,fun i hi => ?_⟩
  · dsimp only
    rw [hsize,length_append,h.size]
    rfl
  · rw [← hstored.items i hi,Transaction.at?,Transaction.at?]
    dsimp only
    rw [htset]

theorem Holds.allocateItem (h : Holds s items) (hroom : items.length < tsetMaxCapacity) (item : TransItem) :
    ∃ s', s.allocateItem item = some s' ∧ Holds s' (items ++ [item]) := by
  obtain ⟨chain,hchained⟩ := h.chained
  have hcount : s.cht.prepared.accessBucketCount+1 < 2^16 := by
    have hle := hchained.room
    rw [tsetMaxCapacity] at hroom
    rw [accessBucketRootCount] at hle
    omega
  obtain ⟨cht,chain',hput,hnext⟩ := hchained.put item hcount
  have hsize : (s.trans.nextChunk.putNext item).tsetSize = items.length := by
    rw [Transaction.nextChunk_eq]
    exact h.stored.size
  rw [put,hchained.prepared] at hput
  have hput : s.cht.put item items.length = some cht := hput
  rw [Thread.allocateItem,if_pos (h.stored.size ▸ hroom)]
  dsimp only
  rw [hsize,Nat.add_sub_cancel,hput,← hsize]
  exact ⟨_,rfl,stored_allocate h.stored item,chain',by rwa [hnext.prepared]⟩

theorem Maps.put (h : Maps m items) {item} (hnew : m.map item = none) : Maps (m.put item) (items ++ [item]) := by
  refine ⟨by rw [ItemMap.put,length_append,h.1]; rfl,fun other => ?_⟩
  rw [idxOf?_concat,ItemMap.put]
  dsimp only
  by_cases heq : other = item
  · rw [heq,update_self,← h.2,hnew,if_pos rfl,h.1]
    rfl
  · rw [update_of_ne heq,if_neg (fun hsymm => heq hsymm.symm),h.2,or_none]

/-- From related states the calls get the answers of the map. -/
theorem Holds.run (h : Holds s items) (hm : Maps m items) (calls : List Call) (hlegal : m.Legal calls) :
    s.run calls = some (m.answers calls) := by
  induction calls generalizing s items m with
  | nil => rfl
  | cons call calls ih =>
    cases call with
    | clear => exact ih h.start ⟨rfl,fun _ => rfl⟩ hlegal
    | put owner key =>
      obtain ⟨hnew,hroom,hrest⟩ := hlegal
      obtain ⟨s',hs',hnext⟩ := h.allocateItem (hm.1 ▸ hroom) ⟨owner,key⟩
      rw [Thread.run,hs',bind_some]
      exact ih hnext (hm.put hnew) hrest
    | find owner key =>
      obtain ⟨s',hs',hnext⟩ := h.findItem ⟨owner,key⟩
      rw [Thread.run,hs',bind_some]
      dsimp only
      rw [ih hnext hm hlegal,map_some,← hm.2]
      rfl

end

/-- Over any sequence of transactions the finds are answered as by a map that every clear empties;
no call leaves the arrays or goes in circles. -/
theorem cicada_finds_are_of_map (calls : List Call) (hlegal : ItemMap.empty.Legal calls) :
    Thread.constructed.run calls = some (ItemMap.empty.answers calls) :=
  holds_constructed.run ⟨rfl,fun _ => rfl⟩ calls hlegal

/-- Eight items of one root, which fill a bucket and begin the next; after the clear the second
bucket of that root is taken by another one's items. -/
def reusedCalls : List Call :=
  (List.range 8).map (fun i => .put 0 (BitVec.ofNat 64 (257*i))) ++ [.find 0 1542,.clear,.find 0 1542] ++
    (List.range 7).map (fun i => .put 0 (BitVec.ofNat 64 (257*i+1))) ++ [.find 0 1543,.find 0 1542]

theorem cicada_finds_are_of_map_reused : ItemMap.empty.Legal reusedCalls ∧
    Thread.constructed.run reusedCalls = some [some 6,none,some 6,none] := by
  have hlegal : ItemMap.empty.Legal reusedCalls := by decide
  refine ⟨hlegal,(cicada_finds_are_of_map reusedCalls hlegal).trans ?_⟩
  decide

end AlNiCo.Sto.CicadaTable
