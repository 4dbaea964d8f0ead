import AlNiCo.Library.IndexedHeap
import AlNiCo.Library.Machine
import AlNiCo.Store.PackedKeys

/-! Locking and validation in the client's store (tx_exe.cpp, mystorage.cpp): `execute_lock` takes the
locks of the write slots in order, replacing the key of each slot by its entry, and `execute_free`
walks the same slots to give them back. -/
namespace AlNiCo.Store
open Client Library Library.IndexedHeap List Option
open Function (update update_of_ne update_self)

/-- The lock word and the version of a `MAP_entry_t`. -/
structure Entry where
  version : BitVec 64
  serverLockId : BitVec 64
deriving DecidableEq

/-- `server_lock_id` of an entry that nobody holds. -/
def unlocked : BitVec 64 := -1

/-- The table, and the bucket and the key of `easy_hash`. -/
abbrev Cell := BitVec 64 × BitVec 64 × BitVec 64

/-- `tpcc_map` and the entries that it points to. -/
abbrev Entries := IndexedHeap Cell Entry

structure Build where
  scaleFactor : Nat
  schemaSize : Nat → Nat
  /-- `MAX_THREAD == 1` -/
  singleThread : Bool

/-- The first word of a slot: where the key is, or after locking where the entry is. -/
inductive Slot
  | key (key : TxKey)
  | entry (ptr : Nat)

/-- A return value; `abort_key` is set with a failure. -/
inductive Outcome
  | done
  | aborted (abortKey : TxKey)

section
variable (b : Build) (s : Entries)

def Build.cell (key : TxKey) : Cell := (key.first,easyHash b.scaleFactor key)

/-- `find` in the map of the key's table and bucket; there are nine tables. -/
def find (key : TxKey) : Option (Option Nat) := if key.first.toNat < 9 then some (s.map (b.cell key)) else none

/-- The bytes from an entry to the next. -/
def Build.entryRoom (table : Nat) : Nat := (b.schemaSize table+28+4+63)/64*64

theorem Build.entryRoom_pos (table : Nat) : 0 < b.entryRoom table := by
  rw [entryRoom]
  omega

/-- The tables whose missing entries are made by locking them. -/
def Build.inserts (key : TxKey) : Bool := b.singleThread || (4 ≤ key.first.toNat && key.first.toNat ≤ 6)

def initEntry (key : TxKey) (id : BitVec 16) : Entries :=
  s.insert (b.cell key) ⟨0,id.setWidth 64⟩ (b.entryRoom key.first.toNat) (b.entryRoom_pos _)

/-- The return value, the store, and the pointer that is left in the slot. Nothing is the access to
the null pointer. -/
def lockKey (key : TxKey) (id : BitVec 16) : Option (Bool × Entries × Nat) :=
  (find b s key).bind (fun
    | some ptr =>
      if (s.cell ptr).serverLockId = unlocked then
        some (true,s.modify ptr (fun e => { e with serverLockId := id.setWidth 64 }),ptr)
      else some (false,s,ptr)
    | none => if b.inserts key then some (true,initEntry b s key id,s.head) else none)

/-- A slot that still points to its key is not an entry. -/
def freeKey : Slot → Option Entries
  | .key _ => none
  | .entry ptr => if ptr ≠ 0 then some (s.modify ptr (fun e => { e with serverLockId := unlocked })) else none

def executeFree (writeSlotStart : Nat) (slots : List Slot) (lockFailedPoint : Nat) : Option Entries :=
  let freePoint := min (writeSlotStart+slots.length) lockFailedPoint
  (slots.take (freePoint-writeSlotStart)).foldlM freeKey s

def lockFrom (writeSlotStart : Nat) (id : BitVec 16) : Entries → List Slot → List Slot → Option (Outcome × Entries × List Slot)
  | s,before,[] => some (.done,s,before)
  | _,_,.entry _ :: _ => none
  | s,before,.key key :: rest => (lockKey b s key id).bind (fun (ok,s,ptr) =>
    if ok then lockFrom writeSlotStart id s (before ++ [.entry ptr]) rest
    else
      let slots := before ++ .entry ptr :: rest
      (executeFree s writeSlotStart slots (writeSlotStart+before.length)).map (fun s => (.aborted key,s,slots)))

def executeLock (writeSlotStart : Nat) (id : BitVec 16) (slots : List Slot) : Option (Outcome × Entries × List Slot) :=
  lockFrom b writeSlotStart id s [] slots

/-- The lock and the version of a key that is read; nothing is the access to the null pointer. -/
def validationKey (key : TxKey) (version : BitVec 64) (id : BitVec 16) : Option Bool :=
  (find b s key).bind (fun found => found.map (fun ptr =>
    if (s.cell ptr).serverLockId ≠ unlocked ∧ (s.cell ptr).serverLockId ≠ id.setWidth 64 then false
    else (s.cell ptr).version = version))

/-- The loop of `execute_validate` over the read slots; `execute_free` has its default argument. -/
def validateFrom (writeSlotStart : Nat) (id : BitVec 16) (slots : List Slot) : List (TxKey × BitVec 64) → Option (Outcome × Entries)
  | [] => some (.done,s)
  | (key,version) :: rest => (validationKey b s key version id).bind (fun ok =>
    if ok then validateFrom writeSlotStart id slots rest
    else (executeFree s writeSlotStart slots 0x3f3f3f3f).map (fun s => (.aborted key,s)))

/-- The write slots begin where the read slots end. -/
def executeValidate (id : BitVec 16) (reads : List (TxKey × BitVec 64)) (slots : List Slot) : Option (Outcome × Entries) :=
  validateFrom b s reads.length id slots reads

end

section Locks
variable {b : Build} {s s' s₀ : Entries} {id : BitVec 16} {key : TxKey}

/-- An entry once its lock is taken; a missing one begins with version 0. -/
def lockedEntry (id : BitVec 16) : Option Entry → Entry
  | none => ⟨0,id.setWidth 64⟩
  | some e => { e with serverLockId := id.setWidth 64 }

theorem id_ne_unlocked (id : BitVec 16) : id.setWidth 64 ≠ unlocked := by
  intro h
  have hnat := congrArg BitVec.toNat h
  have hid := id.isLt
  rw [BitVec.toNat_setWidth_of_le (by decide),show unlocked.toNat = 2^64-1 from rfl] at hnat
  omega

/-- Locking a key fails and leaves everything as it is, or takes a lock that was free. -/
theorem lockKey_cases {ok ptr} (h : lockKey b s key id = some (ok,s',ptr)) : ok = false ∧ s' = s ∨
    ok = true ∧ s'.map (b.cell key) = some ptr ∧ (∀ c p, s.map c = some p → s'.map c = some p) ∧
      (∀ e, s.view (b.cell key) = some e → e.serverLockId = unlocked) ∧
      s'.view = update s.view (b.cell key) (some (lockedEntry id (s.view (b.cell key)))) := by
  obtain ⟨found,hfind,hlock⟩ := bind_eq_some_iff.mp h
  obtain ⟨-,hfound⟩ := ite_none_right_eq_some.mp hfind
  have hmap := some.inj hfound
  cases found with
  | some p =>
    dsimp only at hlock
    split at hlock
    · next hfree =>
      cases hlock
      refine .inr ⟨rfl,hmap,fun c q hc => hc,fun e he => ?_,?_⟩
      · rw [view_of_map hmap] at he
        exact some.inj he ▸ hfree
      · rw [view_modify hmap,view_of_map hmap]
        rfl
    · cases hlock
      exact .inl ⟨rfl,rfl⟩
  | none =>
    dsimp only at hlock
    obtain ⟨-,hins⟩ := ite_none_right_eq_some.mp hlock
    cases hins
    have hview : s.view (b.cell key) = none := view_eq_none.mpr hmap
    refine .inr ⟨rfl,map_insert ..,fun c q hc => map_insert_of_some hmap hc,fun e he => ?_,?_⟩
    · exact absurd (he.symm.trans hview) (some_ne_none e)
    · rw [initEntry,view_insert,hview]
      rfl

/-- How far `execute_lock` has come: the cells that it has locked, with the pointers in their slots. -/
structure Progress (id : BitVec 16) (s₀ s : Entries) (taken : List (Cell × Nat)) : Prop where
  pointer : ∀ x ∈ taken, s.map x.1 = some x.2
  free : ∀ c ∈ taken.map Prod.fst, ∀ e, s₀.view c = some e → e.serverLockId = unlocked
  view : ∀ c, s.view c = if c ∈ taken.map Prod.fst then some (lockedEntry id (s₀.view c)) else s₀.view c

variable {taken : List (Cell × Nat)}

def takenSlots (taken : List (Cell × Nat)) : List Slot := taken.map (fun x => .entry x.2)

theorem Progress.start (id : BitVec 16) (s : Entries) : Progress id s s [] :=
  ⟨fun _ hx => absurd hx not_mem_nil,fun _ hc => absurd hc not_mem_nil,fun _ => (if_neg not_mem_nil).symm⟩

/-- A lock that is taken now was free at the start. -/
theorem Progress.lock (h : Progress id s₀ s taken) {ptr} (hptr : s'.map (b.cell key) = some ptr)
    (hkept : ∀ c p, s.map c = some p → s'.map c = some p)
    (hfree : ∀ e, s.view (b.cell key) = some e → e.serverLockId = unlocked)
    (hview : s'.view = update s.view (b.cell key) (some (lockedEntry id (s.view (b.cell key))))) :
    Progress id s₀ s' (taken ++ [(b.cell key,ptr)]) := by
  have hnew : b.cell key ∉ taken.map Prod.fst := by
    intro hmem
    have hlocked := (h.view (b.cell key)).trans (if_pos hmem)
    have hnot := hfree _ hlocked
    cases hold : s₀.view (b.cell key) with
    | none | some =>
      rw [hold] at hnot
      exact id_ne_unlocked id hnot
  have hcell : s.view (b.cell key) = s₀.view (b.cell key) := (h.view _).trans (if_neg hnew)
  have hcells : (taken ++ [(b.cell key,ptr)]).map Prod.fst = taken.map Prod.fst ++ [b.cell key] := map_append
  refine ⟨fun x hx => ?_,fun c hc e he => ?_,fun c => ?_⟩
  · rcases mem_append.mp hx with hold | hlast
    · exact hkept _ _ (h.pointer x hold)
    · rw [mem_singleton.mp hlast]
      exact hptr
  · rw [hcells] at hc
    rcases mem_append.mp hc with hold | hlast
    · exact h.free c hold e he
    · rw [mem_singleton.mp hlast,← hcell] at he
      exact hfree e he
  · rw [hview,hcells]
    by_cases heq : c = b.cell key
    · rw [heq,update_self,hcell,if_pos (mem_append_right _ (mem_singleton_self _))]
    · have hiff : c ∈ taken.map Prod.fst ++ [b.cell key] ↔ c ∈ taken.map Prod.fst := by
        rw [mem_append,mem_singleton,or_iff_left heq]
      rw [update_of_ne heq,h.view c]
      simp only [hiff]

/-- Freeing entries by their pointers unlocks the cells they belong to, and only these. -/
theorem foldlM_freeKey (l : List (Cell × Nat)) (hptr : ∀ x ∈ l, s.map x.1 = some x.2) :
    ∃ s', (takenSlots l).foldlM freeKey s = some s' ∧ ∀ c, s'.view c =
      if c ∈ l.map Prod.fst then (s.view c).map (fun e => { e with serverLockId := unlocked }) else s.view c := by
  induction l generalizing s with
  | nil => exact ⟨s,rfl,fun c => (if_neg List.not_mem_nil).symm⟩
  | cons x l ih =>
    have hx := hptr x List.mem_cons_self
    have hpos : x.2 ≠ 0 := (s.allocated _ _ hx).1.ne'
    have hfree : freeKey s (.entry x.2) = some (s.modify x.2 (fun e => { e with serverLockId := unlocked })) := if_pos hpos
    obtain ⟨s',hrest,hview⟩ := ih (s := s.modify x.2 (fun e => { e with serverLockId := unlocked }))
      (fun y hy => hptr y (List.mem_cons_of_mem _ hy))
    refine ⟨s',?_,fun c => ?_⟩
    · rw [takenSlots,List.map_cons,List.foldlM_cons,hfree]
      exact hrest
    · rw [hview c,view_modify hx,List.map_cons]
      by_cases heq : c = x.1
      · rw [heq,update_self,if_pos List.mem_cons_self,Option.map_map]
        split
        · rfl
        · rfl
      · rw [update_of_ne heq]
        simp only [List.mem_cons,heq,false_or]

/-- Every entry is as it was; one that was made on the way is unlocked and has version 0. -/
def Restored (s₀ s : Entries) : Prop := ∀ c, s.view c = s₀.view c ∨ s₀.view c = none ∧ s.view c = some ⟨0,unlocked⟩

theorem Progress.restored (h : Progress id s₀ s taken) : ∃ s', (takenSlots taken).foldlM freeKey s = some s' ∧ Restored s₀ s' := by
  obtain ⟨s',hfold,hview⟩ := foldlM_freeKey taken h.pointer
  refine ⟨s',hfold,fun c => ?_⟩
  rw [hview c,h.view c]
  by_cases hc : c ∈ taken.map Prod.fst
  · rw [if_pos hc,if_pos hc]
    cases hold : s₀.view c with
    | none => exact .inr ⟨rfl,rfl⟩
    | some e =>
      obtain ⟨version,lock⟩ := e
      obtain rfl : lock = unlocked := h.free c hc _ hold
      exact .inl rfl
  · rw [if_neg hc,if_neg hc]
    exact .inl rfl

end Locks

section
variable {b : Build} {s s' s₀ : Entries} {id : BitVec 16} {taken : List (Cell × Nat)}

/-- Locking the key does not access the null pointer. -/
def Build.Reaches (b : Build) (s : Entries) (key : TxKey) : Prop :=
  key.first.toNat < 9 ∧ ((s.map (b.cell key)).isSome ∨ b.inserts key = true)

theorem lockKey_isSome {key} (h : b.Reaches s key) (id : BitVec 16) : (lockKey b s key id).isSome := by
  rw [lockKey,find,if_pos h.1,bind_some]
  cases hmap : s.map (b.cell key) with
  | some ptr =>
    dsimp only
    split
    · rfl
    · rfl
  | none =>
    have hinserts : b.inserts key = true := h.2.resolve_left (by rw [hmap]; exact Bool.false_ne_true)
    dsimp only
    rw [if_pos hinserts]
    rfl

theorem executeFree_taken (s : Entries) (taken : List (Cell × Nat)) (rest : List Slot) (start : Nat) :
    executeFree s start (takenSlots taken ++ rest) (start+(takenSlots taken).length) = (takenSlots taken).foldlM freeKey s := by
  have hpoint : min (start+(takenSlots taken ++ rest).length) (start+(takenSlots taken).length)-start = (takenSlots taken).length := by
    rw [length_append]
    omega
  rw [executeFree,hpoint,take_left]

def LockResult (id : BitVec 16) (s₀ : Entries) (cells : List Cell) : Outcome × Entries × List Slot → Prop
  | (.aborted _,s,_) => Restored s₀ s
  | (.done,s,slots) => ∃ taken, slots = takenSlots taken ∧ Progress id s₀ s taken ∧ taken.map Prod.fst = cells

/-- The invariant is that exactly the slots behind the loop are locked. -/
theorem lockFrom_spec (h : Progress id s₀ s taken) (start : Nat) (keys : List TxKey) :
    (∀ r, lockFrom b start id s (takenSlots taken) (keys.map .key) = some r → LockResult id s₀ (taken.map Prod.fst ++ keys.map b.cell) r) ∧
    ((∀ key ∈ keys, b.Reaches s key) → (lockFrom b start id s (takenSlots taken) (keys.map .key)).isSome) := by
  induction keys generalizing s taken with
  | nil =>
    refine ⟨fun r hr => ?_,fun _ => rfl⟩
    cases hr
    exact ⟨taken,rfl,h,(append_nil _).symm⟩
  | cons key keys ih =>
    rw [map_cons,lockFrom]
    cases hlock : lockKey b s key id with
    | none =>
      refine ⟨fun r hr => absurd hr.symm (some_ne_none r),fun hreach => ?_⟩
      have hsome := lockKey_isSome (hreach key mem_cons_self) id
      rw [hlock] at hsome
      exact absurd hsome Bool.false_ne_true
    | some found =>
      obtain ⟨ok,s₁,ptr⟩ := found
      rw [bind_some]
      dsimp only
      rcases lockKey_cases hlock with ⟨rfl,rfl⟩ | ⟨rfl,hptr,hkept,hfree,hview⟩
      · obtain ⟨s₂,hfold,hrestored⟩ := h.restored
        rw [if_neg Bool.false_ne_true,executeFree_taken,hfold]
        refine ⟨fun r hr => ?_,fun _ => rfl⟩
        cases hr
        exact hrestored
      · have hnext := h.lock hptr hkept hfree hview
        have hslots : takenSlots taken ++ [.entry ptr] = takenSlots (taken ++ [(b.cell key,ptr)]) := by
          rw [takenSlots,takenSlots,map_append]
          rfl
        have hcells : (taken ++ [(b.cell key,ptr)]).map Prod.fst ++ keys.map b.cell = taken.map Prod.fst ++ (key :: keys).map b.cell := by
          rw [map_append,append_assoc]
          rfl
        obtain ⟨hresult,hsome⟩ := ih hnext
        rw [if_pos rfl,hslots,← hcells]
        refine ⟨hresult,fun hreach => hsome (fun k hk => ?_)⟩
        obtain ⟨htable,hfound⟩ := hreach k (mem_cons_of_mem _ hk)
        refine ⟨htable,hfound.imp_left (fun hold => ?_)⟩
        obtain ⟨p,hp⟩ := isSome_iff_exists.mp hold
        exact isSome_iff_exists.mpr ⟨p,hkept _ p hp⟩

/-- A validation that fails has freed the slots, up to the default failure point. -/
theorem validateFrom_aborted {start slots abortKey} (reads : List (TxKey × BitVec 64))
    (h : validateFrom b s start id slots reads = some (.aborted abortKey,s')) : executeFree s start slots 0x3f3f3f3f = some s' := by
  induction reads with
  | nil => cases h
  | cons read reads ih =>
    obtain ⟨ok,-,hrest⟩ := bind_eq_some_iff.mp h
    cases ok with
    | true => exact ih hrest
    | false =>
      obtain ⟨s'',hfree,heq⟩ := map_eq_some_iff.mp hrest
      cases heq
      exact hfree

/-- The loop runs over all of the slots, or over none, according to where the failure point is. -/
theorem executeFree_whole {start point slots} (h : start+slots.length ≤ point) :
    executeFree s start slots point = slots.foldlM freeKey s := by
  rw [executeFree,Nat.min_eq_left h,Nat.add_sub_cancel_left,take_length]

theorem executeFree_none {start point slots} (h : point ≤ start) : executeFree s start slots point = some s := by
  rw [executeFree,Nat.sub_eq_zero_of_le ((Nat.min_le_right _ _).trans h),take_zero]
  rfl

end

/-- A failing `execute_lock` restores the store; a succeeding one has locked exactly the listed keys,
all of them free before, and has kept every version; and a failing `execute_validate` after it
restores the store, if there are at most `0x3f3f3f3f` slots. Neither fails otherwise than by the
missing key of a table that locking does not extend. -/
theorem lock_validate_all_or_nothing (b : Build) (s : Entries) (id : BitVec 16) (keys : List TxKey) (reads : List (TxKey × BitVec 64)) :
    ((∀ key ∈ keys, b.Reaches s key) → (executeLock b s reads.length id (keys.map .key)).isSome) ∧
    (∀ abortKey s' slots, executeLock b s reads.length id (keys.map .key) = some (.aborted abortKey,s',slots) → Restored s s') ∧
    (∀ s' slots, executeLock b s reads.length id (keys.map .key) = some (.done,s',slots) →
      (∀ key ∈ keys, ∀ e, s.view (b.cell key) = some e → e.serverLockId = unlocked) ∧
      (∀ c, s'.view c = if c ∈ keys.map b.cell then some (lockedEntry id (s.view c)) else s.view c) ∧
      (reads.length+keys.length ≤ 0x3f3f3f3f → ∀ abortKey s'',
        executeValidate b s' id reads slots = some (.aborted abortKey,s'') → Restored s s'')) := by
  obtain ⟨hresult,hsome⟩ := lockFrom_spec (b := b) (Progress.start id s) reads.length keys
  refine ⟨hsome,fun abortKey s' slots h => hresult _ h,fun s' slots h => ?_⟩
  obtain ⟨taken,rfl,hprogress,hcells⟩ := hresult _ h
  rw [List.map_nil,List.nil_append] at hcells
  refine ⟨fun key hkey => ?_,fun c => ?_,fun hroom abortKey s'' hfail => ?_⟩
  · exact hprogress.free _ (hcells ▸ List.mem_map_of_mem hkey)
  · rw [← hcells]
    exact hprogress.view c
  · have hlength : (takenSlots taken).length = keys.length := by
      rw [takenSlots,List.length_map,← List.length_map Prod.fst,hcells,List.length_map]
    have hfree := validateFrom_aborted reads hfail
    rw [executeFree_whole (by rwa [hlength])] at hfree
    obtain ⟨s₁,hfold,hrestored⟩ := hprogress.restored
    rw [hfold] at hfree
    cases hfree
    exact hrestored

section

def smallBuild : Build := ⟨1,fun _ => 0,false⟩

def firstWarehouse : TxKey := ⟨0,1⟩

def oneEntry : Entries where
  map c := if c = smallBuild.cell firstWarehouse then some 64 else none
  cell _ := ⟨0,unlocked⟩
  head := 128
  head_pos := by decide
  allocated _ p h := by
    obtain ⟨-,hp⟩ := Option.ite_none_right_eq_some.mp h
    cases hp
    decide
  injective _ _ _ h h' :=
    (Option.ite_none_right_eq_some.mp h).1.trans (Option.ite_none_right_eq_some.mp h').1.symm

theorem lock_validate_all_or_nothing_twice : ∃ s' slots,
    executeLock smallBuild oneEntry 0 7 [.key firstWarehouse,.key firstWarehouse] = some (.aborted firstWarehouse,s',slots) ∧
      Restored oneEntry s' :=
  ⟨_,_,rfl,(lock_validate_all_or_nothing smallBuild oneEntry 7 [firstWarehouse,firstWarehouse] []).2.1 _ _ _ rfl⟩

def heldEntry : Entries := oneEntry.modify 64 (fun e => { e with serverLockId := 7 })

/-- With so many read slots the free loop of a failing validation ends before it begins. -/
theorem failed_validation_keeps_lock :
    executeLock smallBuild oneEntry 0x3f3f3f3f 7 [.key firstWarehouse] = some (.done,heldEntry,[.entry 64]) ∧
    executeValidate smallBuild heldEntry 7 (List.replicate 0x3f3f3f3f (firstWarehouse,1)) [.entry 64] =
      some (.aborted firstWarehouse,heldEntry) ∧
    ¬ Restored oneEntry heldEntry := by
  refine ⟨rfl,?_,fun h => ?_⟩
  · have hfails : validationKey smallBuild heldEntry firstWarehouse 1 7 = some false := by decide
    rw [executeValidate,List.length_replicate,show 0x3f3f3f3f = 0x3f3f3f3e+1 from rfl,List.replicate_succ,validateFrom,
      hfails,Option.bind_some,if_neg Bool.false_ne_true,executeFree_none le_rfl]
    rfl
  · have hcell := h (smallBuild.cell firstWarehouse)
    revert hcell
    decide

end

section Interleaved
variable {T : Type} [DecidableEq T] (b : Build) (id : T → BitVec 16)

/-- The entries, and the pointers in the slots that each transaction has locked. -/
structure Shared (T : Type) where
  store : Entries
  taken : T → List Nat

inductive Turn (T : Type)
  | lock (t : T) (key : TxKey)
  | free (t : T)

/-- The calls of `lock_key` and `free_key` by transactions that run at the same time. A key that is
locked has its entry already: to make one takes more than one step. -/
def Shared.next (s : Shared T) : Turn T → Option (Shared T)
  | .lock t key => (s.store.map (b.cell key)).bind (fun _ => (lockKey b s.store key (id t)).map (fun (ok,store,ptr) =>
    ⟨store,if ok then update s.taken t (s.taken t ++ [ptr]) else s.taken⟩))
  | .free t =>
    match s.taken t with
    | [] => none
    | ptr :: rest => (freeKey s.store (.entry ptr)).map (fun store => ⟨store,update s.taken t rest⟩)

def shared (s₀ : Entries) : Machine (Shared T) (Turn T) := .ofNext ⟨s₀,fun _ => []⟩ (Shared.next b id)

/-- The lock word of an entry names the only transaction that has taken it, and that once. -/
def Shared.Owned (s : Shared T) (ptr : Nat) : Prop := ∃ owner : Option T,
  (s.store.cell ptr).serverLockId = owner.elim unlocked (fun t => (id t).setWidth 64) ∧
  ∀ t, (s.taken t).count ptr = if owner = some t then 1 else 0

variable {b : Build} {id : T → BitVec 16} {s s' : Shared T}

/-- A call that changes one entry, and that entry in the slots of `t`, leaves the other entries. -/
theorem Shared.Owned.change {t p q taken f} (h : s.Owned id q) (hne : q ≠ p)
    (hrest : taken.count q = (s.taken t).count q) : (⟨s.store.modify p f,update s.taken t taken⟩ : Shared T).Owned id q := by
  obtain ⟨owner,hword,hcount⟩ := h
  refine ⟨owner,(congrArg Entry.serverLockId (update_of_ne hne ..)).trans hword,fun u => ?_⟩
  dsimp only
  by_cases hu : u = t
  · rw [hu,update_self,hrest,hcount]
  · rw [update_of_ne hu,hcount]

theorem Shared.owned_next {turn} (h : ∀ c q, s.store.map c = some q → s.Owned id q)
    (hnext : s.next b id turn = some s') : ∀ c q, s'.store.map c = some q → s'.Owned id q := by
  cases turn with
  | lock t key =>
    obtain ⟨p,hmap,hcall⟩ := bind_eq_some_iff.mp hnext
    obtain ⟨⟨ok,store,ptr⟩,hlock,rfl⟩ := map_eq_some_iff.mp hcall
    obtain ⟨found,hfind,hkey⟩ := bind_eq_some_iff.mp hlock
    obtain ⟨-,hfound⟩ := ite_none_right_eq_some.mp hfind
    cases hfound
    rw [hmap] at hkey
    dsimp only at hkey
    split at hkey
    · next hfree =>
      cases hkey
      intro c q hq
      rcases eq_or_ne q p with rfl | hne
      · obtain ⟨owner,hword,hcount⟩ := h c q hq
        cases owner with
        | some u => exact absurd (hword.symm.trans hfree) (id_ne_unlocked _)
        | none =>
          refine ⟨some t,by simp [IndexedHeap.modify],fun u => ?_⟩
          by_cases hu : u = t
          · simp [hu,hcount]
          · simp [update_of_ne hu,hcount,Ne.symm hu]
      · exact (h c q hq).change hne (by simp [Ne.symm hne])
    · cases hkey
      exact h
  | free t =>
    rw [Shared.next] at hnext
    split at hnext
    · cases hnext
    · next p rest htaken =>
      obtain ⟨store,hfree,rfl⟩ := map_eq_some_iff.mp hnext
      obtain ⟨-,hstore⟩ := ite_none_right_eq_some.mp hfree
      cases hstore
      intro c q hq
      rcases eq_or_ne q p with rfl | hne
      · obtain ⟨owner,-,hcount⟩ := h c q hq
        have hmine := hcount t
        rw [htaken,count_cons_self] at hmine
        obtain rfl : owner = some t := by
          by_contra hother
          rw [if_neg hother] at hmine
          cases hmine
        refine ⟨none,by simp [IndexedHeap.modify],fun u => ?_⟩
        by_cases hu : u = t
        · simpa [hu] using hmine
        · simp [update_of_ne hu,hcount,Ne.symm hu]
      · exact (h c q hq).change hne (by simp [htaken,Ne.symm hne])

/-- Whatever the order of the calls, the lock of an entry is with one transaction at most, its word
says with whom, and it is free when no transaction has it. -/
theorem locks_exclusive {s₀ : Entries} (hfree : ∀ c ptr, s₀.map c = some ptr → (s₀.cell ptr).serverLockId = unlocked)
    (h : (shared b id s₀).Reachable s) {c : Cell} {ptr : Nat} (hmap : s.store.map c = some ptr) : s.Owned id ptr :=
  h.ofNext_invariant (I := fun s => ∀ c ptr, s.store.map c = some ptr → s.Owned id ptr)
    (fun c ptr hptr => ⟨none,hfree c ptr hptr,fun _ => rfl⟩) (fun _ _ _ hI hnext => Shared.owned_next hI hnext) c ptr hmap

def twoIds (t : Bool) : BitVec 16 := if t then 7 else 8

/-- The second transaction is refused once, and gets the lock when the first has freed it. -/
def contending : List (Turn Bool) := [.lock true firstWarehouse,.lock false firstWarehouse,.free true,.lock false firstWarehouse]

theorem locks_exclusive_contending :
    let s (n : Nat) := (shared smallBuild twoIds oneEntry).play ⟨oneEntry,fun _ => []⟩ (contending.take n)
    ((s 2).taken true = [64] ∧ (s 2).taken false = [] ∧ (s 2).Owned twoIds 64) ∧
      (s 4).taken true = [] ∧ (s 4).taken false = [64] ∧ (s 4).Owned twoIds 64 := by
  have howned (n : Nat) (hplay : (shared smallBuild twoIds oneEntry).playable ⟨oneEntry,fun _ => []⟩ (contending.take n) = true)
      (hmap : ((shared smallBuild twoIds oneEntry).play ⟨oneEntry,fun _ => []⟩ (contending.take n)).store.map
        (smallBuild.cell firstWarehouse) = some 64) :=
    locks_exclusive (fun _ _ _ => rfl) (Machine.Reachable.play .start _ hplay) hmap
  exact ⟨⟨by decide,by decide,howned 2 (by decide) (by decide)⟩,by decide,by decide,howned 4 (by decide) (by decide)⟩

end Interleaved

end AlNiCo.Store
