import AlNiCo.Sto.TicToc

/-! Transactions over many objects with the two-word TicToc version. The commit timestamp
is collected item by item while the first phase of `try_commit` locks and scans, and
`compute_tictoc_commit_ts` computes one from all items at once. Timestamps are
assumed never to wrap around. -/
namespace AlNiCo.Sto.TicTocCommit
open Library TicToc Function List

structure Object (T : Type) where
  wts : Nat
  rts : Word T

structure Item (O : Type) where
  obj : O
  read : Bool
  write : Bool
  /-- `rdata_`: the read timestamp and the write timestamp that were packed. -/
  rdata : Nat × Nat

inductive Pc (T O : Type)
  | running
  | packing (o : O) (observe fresh : Bool)
  | half (o : O) (observe fresh : Bool) (rts : Nat)
  | locking (todo : List (Item O))
  | stamping (i : Item O) (todo : List (Item O))
  | scanned
  | checking (todo : List (Item O))
  | loadedWts (i : Item O) (wts : Nat) (todo : List (Item O))
  | loadedRts (i : Item O) (wts : Nat) (rts : Word T) (todo : List (Item O))
  | installing (todo : List (Item O))
  | storing (i : Item O) (todo : List (Item O))
  | erasing (i : Item O) (todo : List (Item O))
  | stopping
  | stopped

structure Txn (T O : Type) where
  items : List (Item O)
  mayDuplicateItems : Bool
  tictocTid : Nat
  /-- The objects of the items that need an unlock. -/
  locks : List O
  pc : Pc T O

structure State (T O : Type) where
  obj : O → Object T
  txn : T → Txn T O

inductive Act (O : Type)
  | observe (o : O) (fresh : Bool)
  | acquireWrite (o : O)
  | addWrite (o : O)
  | commit | go | install | delete | leave | abort | start

section
variable {O : Type}

/-- A read item counts with the write timestamp of what was read. -/
def scanRead (i : Item O) (ts : Nat) : Nat := if i.read then max ts i.rdata.2 else ts

def Item.pack (i : Item O) (observe : Bool) (rdata : Nat × Nat) : Item O :=
  if observe then if i.read then i else { i with read := true, rdata := rdata }
  else { i with rdata := rdata }

variable [DecidableEq O]

/-- `Sto::item`: the item of the object, new if there is none. -/
def touch (o : O) (f : Item O → Item O) : List (Item O) → List (Item O)
  | [] => [f ⟨o,false,false,(0,0)⟩]
  | i :: items => if i.obj = o then f i :: items else i :: touch o f items

def findItem (o : O) (items : List (Item O)) : Item O :=
  (items.find? (fun i => i.obj == o)).getD ⟨o,false,false,(0,0)⟩

/-- A read of the same object stands before the item that is checked; `todo` stands behind it. -/
def Txn.precedingDuplicateRead {T : Type} (x : Txn T O) (i : Item O) (todo : List (Item O)) : Bool :=
  let reads := x.items.filter (fun j => j.read)
  (reads.take (reads.length - (todo.length+1))).any (fun j => j.obj == i.obj)

end

section Steps
variable {T O : Type} [DecidableEq T] [DecidableEq O]

namespace State
variable (s : State T O)

def setTxn (t : T) (x : Txn T O) : State T O := { s with txn := update s.txn t x }

def setObj (o : O) (b : Object T) : State T O := { s with obj := update s.obj o b }

def computeTictocCommitTs (items : List (Item O)) : Nat :=
  items.foldl (fun ts i => max ts (if i.write then (s.obj i.obj).rts.version+1 else i.rdata.2)) 0

def commitTid (x : Txn T O) : Nat := if x.tictocTid ≠ 0 then x.tictocTid else s.computeTictocCommitTs x.items

/-- A check that fails counts only for the first item that has read the object. -/
def validate (t : T) (x : Txn T O) (i : Item O) (tWts : Nat) (tRts : Word T) (todo : List (Item O)) : State T O :=
  let commitTs := s.commitTid x
  if tWts ≠ i.rdata.2 ∨ (tRts.version < commitTs ∧ isLockedElsewhere t tRts = true) then
    s.setTxn t { x with pc := if x.mayDuplicateItems && x.precedingDuplicateRead i todo then .checking todo else .stopping }
  else if commitTs ≤ tRts.version then s.setTxn t { x with pc := .checking todo }
  else if (s.obj i.obj).rts = tRts then
    (s.setObj i.obj { s.obj i.obj with rts := ⟨commitTs,tRts.owner⟩ }).setTxn t { x with pc := .checking todo }
  else s.setTxn t { x with pc := .checking (i :: todo) }

def go (t : T) : Option (State T O) :=
  let x := s.txn t
  match x.pc with
  | .packing o observe fresh => some (s.setTxn t { x with pc := .half o observe fresh (s.obj o).rts.version })
  | .half o observe fresh rts =>
    let f (i : Item O) := i.pack observe (rts,(s.obj o).wts)
    some (s.setTxn t { x with
      items := if fresh then x.items ++ [f ⟨o,false,false,(0,0)⟩] else touch o f x.items
      mayDuplicateItems := if fresh then !x.items.isEmpty else x.mayDuplicateItems
      pc := .running })
  | .locking [] => some (s.setTxn t { x with pc := .scanned })
  | .locking (i :: todo) =>
    if i.write then
      let b := s.obj i.obj
      if b.rts.owner = none then
        some ((s.setObj i.obj { b with rts := b.rts.lock t }).setTxn t { x with locks := i.obj :: x.locks, pc := .stamping i todo })
      else none
    else some (s.setTxn t { x with tictocTid := scanRead i x.tictocTid, pc := .locking todo })
  | .stamping i todo =>
    some (s.setTxn t { x with
      tictocTid := scanRead i (max x.tictocTid ((s.obj i.obj).rts.version+1))
      pc := .locking todo })
  | .scanned => some (s.setTxn t { x with pc := .checking (x.items.filter (fun i => i.read)) })
  | .checking [] => some (s.setTxn t { x with pc := .installing (x.items.filter (fun i => i.write)) })
  | .checking (i :: todo) =>
    if s.commitTid x ≤ i.rdata.1 then some (s.setTxn t { x with pc := .checking todo })
    else some (s.setTxn t { x with pc := .loadedWts i (s.obj i.obj).wts todo })
  | .loadedWts i wts todo => some (s.setTxn t { x with pc := .loadedRts i wts (s.obj i.obj).rts todo })
  | .loadedRts i wts rts todo => some (s.validate t x i wts rts todo)
  | .installing [] => some (s.setTxn t { x with pc := .stopping })
  | .storing i todo =>
    -- the second store of `cp_set_version_unlock`
    some ((s.setObj i.obj { s.obj i.obj with rts := ⟨s.commitTid x,none⟩ }).setTxn t
      { x with locks := x.locks.erase i.obj, pc := .installing todo })
  | .erasing i todo =>
    -- the second store of `cp_set_version`; the cleanup of a delete takes the unlock back
    some ((s.setObj i.obj { s.obj i.obj with wts := s.commitTid x }).setTxn t
      { x with locks := x.locks.erase i.obj, pc := .installing todo })
  | .stopping =>
    match x.locks with
    | [] => some (s.setTxn t { x with pc := .stopped })
    | o :: locks =>
      some ((s.setObj o { s.obj o with rts := (s.obj o).rts.unlock }).setTxn t { x with locks := locks, pc := .stopping })
  | .running | .installing (_ :: _) | .stopped => none

/-- What the program, or a lock that is not free, may do. -/
def next (s : State T O) : T × Act O → Option (State T O)
  | (t,.go) => s.go t
  | (t,.observe o fresh) =>
    let x := s.txn t
    match x.pc with
    | .running =>
      if isLockedElsewhere t (s.obj o).rts then some (s.setTxn t { x with pc := .stopping })
      else if !fresh && (findItem o x.items).read then some s
      else some (s.setTxn t { x with pc := .packing o true fresh })
    | _ => none
  | (t,.acquireWrite o) =>
    let x := s.txn t
    match x.pc with
    | .running =>
      let item := findItem o x.items
      if item.write then some s
      else some (s.setTxn t { x with
        items := touch o (fun i => { i with write := true }) x.items
        pc := if item.read then .running else .packing o false false })
    | _ => none
  | (t,.addWrite o) =>
    let x := s.txn t
    match x.pc with
    | .running => some (s.setTxn t { x with items := touch o (fun i => { i with write := true }) x.items })
    | _ => none
  | (t,.commit) =>
    let x := s.txn t
    match x.pc with
    | .running => some (s.setTxn t { x with pc := .locking x.items })
    | _ => none
  | (t,.install) =>
    let x := s.txn t
    match x.pc with
    | .installing (i :: todo) =>
      some ((s.setObj i.obj { s.obj i.obj with wts := s.commitTid x }).setTxn t { x with pc := .storing i todo })
    | _ => none
  | (t,.delete) =>
    let x := s.txn t
    match x.pc with
    | .installing (i :: todo) =>
      some ((s.setObj i.obj { s.obj i.obj with rts := ⟨s.commitTid x,some t⟩ }).setTxn t { x with pc := .erasing i todo })
    | _ => none
  | (t,.leave) =>
    -- the row of an insert that is given up stays locked
    let x := s.txn t
    match x.pc,x.locks with
    | .stopping,_ :: locks => some (s.setTxn t { x with locks := locks })
    | _,_ => none
  | (t,.abort) =>
    let x := s.txn t
    match x.pc with
    | .running | .locking _ | .checking _ => some (s.setTxn t { x with pc := .stopping })
    | _ => none
  | (t,.start) =>
    match (s.txn t).pc with
    | .stopped => some (s.setTxn t ⟨[],false,0,[],.running⟩)
    | _ => none

end State

def objects (T : Type) [DecidableEq T] (ts : O → Nat) : Machine (State T O) (T × Act O) :=
  .ofNext ⟨fun o => ⟨ts o,⟨ts o,none⟩⟩,fun _ => ⟨[],false,0,[],.running⟩⟩ State.next

end Steps

section Invariant
variable {T O : Type}

/-- What locking and scanning some items adds up to, with the objects as they are now. -/
def State.accumulated (s : State T O) (items : List (Item O)) : Nat :=
  items.foldl (fun ts i => scanRead i (if i.write then max ts ((s.obj i.obj).rts.version+1) else ts)) 0

def lockedObjs (items : List (Item O)) : List O := ((items.filter (fun i => i.write)).map Item.obj).reverse

structure Scanned (s : State T O) (x : Txn T O) (items : List (Item O)) : Prop where
  tid : x.tictocTid = s.accumulated items
  locks : x.locks = lockedObjs items

structure Held (s : State T O) (x : Txn T O) (items : List (Item O)) : Prop where
  nodup : (items.map Item.obj).Nodup
  locks : ∀ i ∈ items, i.obj ∈ x.locks
  wts : ∀ i ∈ items, (s.obj i.obj).wts ≤ x.tictocTid
  rts : ∀ i ∈ items, (s.obj i.obj).rts.version ≤ x.tictocTid
  pos : ∀ i ∈ items, 0 < x.tictocTid

def PcOk (s : State T O) (x : Txn T O) : Pc T O → Prop
  | .running => x.tictocTid = 0 ∧ x.locks = []
  | .packing o observe fresh | .half o observe fresh _ => x.tictocTid = 0 ∧ x.locks = [] ∧
    (observe = false → fresh = false ∧ ∃ k ∈ x.items, k.obj = o)
  | .locking todo => ∃ pre, x.items = pre ++ todo ∧ Scanned s x pre
  | .stamping i todo => ∃ pre, x.items = pre ++ i :: todo ∧ i.write = true ∧ x.tictocTid = s.accumulated pre ∧
    x.locks = i.obj :: lockedObjs pre
  | .scanned => Scanned s x x.items
  | .checking _ | .loadedWts .. | .loadedRts .. => Held s x (x.items.filter (fun i => i.write))
  | .installing todo => Held s x todo
  | .storing i todo => Held s x (i :: todo) ∧ (s.obj i.obj).wts = x.tictocTid
  | .erasing i todo => Held s x (i :: todo) ∧ (s.obj i.obj).rts.version = x.tictocTid
  | .stopping | .stopped => True

structure TxnOk (s : State T O) (t : T) (x : Txn T O) : Prop where
  locks : ∀ o ∈ x.locks, (s.obj o).rts.owner = some t
  nodup : x.locks.Nodup
  flagged : ∀ i ∈ x.items, i.write = false → i.read = true
  rdata : ∀ i ∈ x.items, i.rdata.2 ≤ (s.obj i.obj).wts
  pc : PcOk s x x.pc

/-- An install has stored the write timestamp and not the read timestamp. -/
def Pc.isStoring : Pc T O → Bool
  | .storing _ _ => true
  | _ => false

/-- The write timestamp is not above the read timestamp, but for an install that has
stored the one and not the other. -/
structure Inv (s : State T O) : Prop where
  obj : ∀ o, (s.obj o).wts ≤ (s.obj o).rts.version ∨ ∃ t i todo, (s.txn t).pc = .storing i todo ∧ i.obj = o
  txn : ∀ t, TxnOk s t (s.txn t)

variable {s s' : State T O} {t u : T} {x : Txn T O}

private theorem mem_lockedObjs {items : List (Item O)} {i : Item O} (hi : i ∈ items) (hw : i.write = true) : i.obj ∈ lockedObjs items :=
  mem_reverse.mpr (mem_map_of_mem (mem_filter.mpr ⟨hi,hw⟩))

private theorem accumulated_concat (pre : List (Item O)) (i : Item O) : s.accumulated (pre ++ [i]) =
      scanRead i (if i.write then max (s.accumulated pre) ((s.obj i.obj).rts.version+1) else s.accumulated pre) :=
  foldl_append ..

private theorem accumulated_congr {items} (h : ∀ i ∈ items, i.write = true → (s'.obj i.obj).rts.version = (s.obj i.obj).rts.version) :
    s'.accumulated items = s.accumulated items := by
  induction items using List.reverseRecOn with
  | nil => rfl
  | append_singleton pre i ih =>
    rw [accumulated_concat,accumulated_concat,ih (fun j hj => h j (mem_append_left _ hj))]
    cases hw : i.write with
    | false => rfl
    | true => rw [h i (mem_append_right _ (mem_singleton_self i)) hw]

private theorem Scanned.congr {items : List (Item O)} (h : Scanned s x items)
    (hobj : ∀ o ∈ x.locks, (s'.obj o).rts.version = (s.obj o).rts.version) : Scanned s' x items := by
  refine ⟨h.tid.trans (accumulated_congr (fun i hi hw => hobj i.obj ?_)).symm,h.locks⟩
  rw [h.locks]
  exact mem_lockedObjs hi hw

private theorem Held.congr {items} (h : Held s x items)
    (hobj : ∀ o ∈ x.locks, (s'.obj o).wts = (s.obj o).wts ∧ (s'.obj o).rts.version = (s.obj o).rts.version) : Held s' x items := by
  refine ⟨h.nodup,h.locks,fun i hi => ?_,fun i hi => ?_,h.pos⟩
  · rw [(hobj i.obj (h.locks i hi)).1]
    exact h.wts i hi
  · rw [(hobj i.obj (h.locks i hi)).2]
    exact h.rts i hi

/-- Nothing that a transaction relies on changes while the objects it has locked do not. -/
private theorem TxnOk.ext (h : TxnOk s u x) (hlocked : ∀ o, (s.obj o).rts.owner = some u → s'.obj o = s.obj o)
    (hwts : ∀ o, (s.obj o).wts ≤ (s'.obj o).wts) : TxnOk s' u x := by
  have hobj (o : O) (ho : o ∈ x.locks) : s'.obj o = s.obj o := hlocked o (h.locks o ho)
  have hversion (o : O) (ho : o ∈ x.locks) : (s'.obj o).rts.version = (s.obj o).rts.version := by rw [hobj o ho]
  have hboth (o : O) (ho : o ∈ x.locks) : (s'.obj o).wts = (s.obj o).wts ∧ (s'.obj o).rts.version = (s.obj o).rts.version := by
    rw [hobj o ho]
    exact ⟨rfl,rfl⟩
  refine ⟨fun o ho => ?_,h.nodup,h.flagged,fun i hi => (h.rdata i hi).trans (hwts i.obj),?_⟩
  · rw [hobj o ho]
    exact h.locks o ho
  · have hpc := h.pc
    cases hp : x.pc with
    | running | packing | half => rwa [hp] at hpc
    | locking todo =>
      rw [hp] at hpc
      obtain ⟨pre,hitems,hscan⟩ := hpc
      exact ⟨pre,hitems,hscan.congr hversion⟩
    | stamping i todo =>
      rw [hp] at hpc
      obtain ⟨pre,hitems,hw,htid,hlocks⟩ := hpc
      refine ⟨pre,hitems,hw,htid.trans (accumulated_congr (fun j hj hjw => hversion j.obj ?_)).symm,hlocks⟩
      rw [hlocks]
      exact mem_cons_of_mem _ (mem_lockedObjs hj hjw)
    | scanned =>
      rw [hp] at hpc
      exact hpc.congr hversion
    | checking | loadedWts | loadedRts | installing =>
      rw [hp] at hpc
      exact hpc.congr hboth
    | storing i todo =>
      rw [hp] at hpc
      exact ⟨hpc.1.congr hboth,(hboth i.obj (hpc.1.locks i mem_cons_self)).1.trans hpc.2⟩
    | erasing i todo =>
      rw [hp] at hpc
      exact ⟨hpc.1.congr hboth,(hboth i.obj (hpc.1.locks i mem_cons_self)).2.trans hpc.2⟩
    | stopping | stopped => trivial

/-- An object that nobody installs on has its write timestamp below its read timestamp. -/
private theorem Inv.wts_le (h : Inv s) {o} (howner : ∀ u, (s.obj o).rts.owner = some u → (s.txn u).pc.isStoring = false) :
    (s.obj o).wts ≤ (s.obj o).rts.version := by
  rcases h.obj o with hle | ⟨u,i,todo,hp,rfl⟩
  · exact hle
  · have hpc := (h.txn u).pc
    rw [hp] at hpc
    have hnot := howner u ((h.txn u).locks _ (hpc.1.locks i mem_cons_self))
    rw [hp] at hnot
    cases hnot

end Invariant

section
variable {T O : Type} [DecidableEq T] [DecidableEq O] {s : State T O} {t : T} {x : Txn T O}

omit [DecidableEq O] in
private theorem Inv.setTxn (h : Inv s) (hpc : (s.txn t).pc.isStoring = false) (hx : TxnOk s t x) : Inv (s.setTxn t x) := by
  have ht : (s.setTxn t x).txn t = x := update_self ..
  have htxn {u : T} (hu : u ≠ t) : (s.setTxn t x).txn u = s.txn u := update_of_ne hu ..
  constructor
  · intro o
    rcases h.obj o with hle | ⟨u,i,todo,hp,ho⟩
    · exact .inl hle
    · have hu : u ≠ t := by
        rintro rfl
        rw [hp] at hpc
        cases hpc
      exact .inr ⟨u,i,todo,(congrArg Txn.pc (htxn hu)).trans hp,ho⟩
  · intro u
    by_cases hu : u = t
    · rw [hu,ht]
      exact hx.ext (fun _ _ => rfl) (fun _ => le_rfl)
    · rw [htxn hu]
      exact (h.txn u).ext (fun _ _ => rfl) (fun _ => le_rfl)

omit [DecidableEq O] in
/-- A step to another place, which may take a new timestamp along. -/
private theorem Inv.goto (h : Inv s) {p pc tid} (hp : (s.txn t).pc = p) (hnot : p.isStoring = false)
    (hpc : PcOk s (s.txn t) p → PcOk s { s.txn t with tictocTid := tid, pc := pc } pc) :
    Inv (s.setTxn t { s.txn t with tictocTid := tid, pc := pc }) := by
  have hok := h.txn t
  exact h.setTxn (hp ▸ hnot) ⟨hok.locks,hok.nodup,hok.flagged,hok.rdata,hpc (hp ▸ hok.pc)⟩

private theorem Inv.setObj (h : Inv s) {o b} (howner : ∀ u ≠ t, (s.obj o).rts.owner ≠ some u)
    (hwts : (s.obj o).wts ≤ b.wts) (hb : b.wts ≤ b.rts.version ∨ ∃ i todo, x.pc = .storing i todo ∧ i.obj = o)
    (hpc : ∀ i todo, (s.txn t).pc = .storing i todo → i.obj = o) (hx : TxnOk (s.setObj o b) t x) :
    Inv ((s.setObj o b).setTxn t x) := by
  have hself : ((s.setObj o b).setTxn t x).obj o = b := update_self ..
  have hother {o' : O} (ho : o' ≠ o) : ((s.setObj o b).setTxn t x).obj o' = s.obj o' := update_of_ne ho ..
  have ht : ((s.setObj o b).setTxn t x).txn t = x := update_self ..
  have htxn {u : T} (hu : u ≠ t) : ((s.setObj o b).setTxn t x).txn u = s.txn u := update_of_ne hu ..
  constructor
  · intro o'
    by_cases ho : o' = o
    · rw [ho,hself]
      exact hb.imp_right (fun ⟨i,todo,hp,hi⟩ => ⟨t,i,todo,(congrArg Txn.pc ht).trans hp,hi⟩)
    · rw [hother ho]
      refine (h.obj o').imp_right (fun ⟨u,i,todo,hp,hi⟩ => ?_)
      have hu : u ≠ t := by
        rintro rfl
        exact ho (hi.symm.trans (hpc i todo hp))
      exact ⟨u,i,todo,(congrArg Txn.pc (htxn hu)).trans hp,hi⟩
  · intro u
    by_cases hu : u = t
    · rw [hu,ht]
      exact hx.ext (fun _ _ => rfl) (fun _ => le_rfl)
    · rw [htxn hu]
      refine (h.txn u).ext (fun o' ho' => hother ?_) (fun o' => ?_)
      · rintro rfl
        exact howner u hu ho'
      · by_cases ho : o' = o
        · rw [ho,hself]
          exact hwts
        · rw [hother ho]

end

section Items
variable {T O : Type} {s : State T O} {t : T} {x : Txn T O}

private theorem pack_obj (i : Item O) (observe : Bool) (rdata : Nat × Nat) : (i.pack observe rdata).obj = i.obj := by
  unfold Item.pack
  split
  · split <;> rfl
  · rfl

private theorem pack_rdata {i : Item O} {observe : Bool} {r w : Nat} (h : i.rdata.2 ≤ w) : (i.pack observe (r,w)).rdata.2 ≤ w := by
  unfold Item.pack
  split
  · split
    · exact h
    · exact le_rfl
  · exact le_rfl

private theorem pack_read (i : Item O) (rdata : Nat × Nat) : (i.pack true rdata).read = true := by
  unfold Item.pack
  split
  · split
    · assumption
    · rfl
  · contradiction

variable [DecidableEq O]

private theorem mem_touch {o : O} {f : Item O → Item O} {items : List (Item O)} {i : Item O} (h : i ∈ touch o f items) :
    i ∈ items ∨ ∃ j, i = f j ∧ j.obj = o ∧ (j ∈ items ∨ j = ⟨o,false,false,(0,0)⟩ ∧ ∀ k ∈ items, k.obj ≠ o) := by
  induction items with
  | nil => exact .inr ⟨_,mem_singleton.mp h,rfl,.inr ⟨rfl,nofun⟩⟩
  | cons k items ih =>
    rw [touch] at h
    split at h
    · rename_i hk
      rcases mem_cons.mp h with rfl | h
      · exact .inr ⟨k,rfl,hk,.inl mem_cons_self⟩
      · exact .inl (mem_cons_of_mem _ h)
    · rename_i hk
      rcases mem_cons.mp h with rfl | h
      · exact .inl mem_cons_self
      · rcases ih h with h | ⟨j,hj,ho,hmem | ⟨hnew,hnone⟩⟩
        · exact .inl (mem_cons_of_mem _ h)
        · exact .inr ⟨j,hj,ho,.inl (mem_cons_of_mem _ hmem)⟩
        · exact .inr ⟨j,hj,ho,.inr ⟨hnew,forall_mem_cons.mpr ⟨hk,hnone⟩⟩⟩

private theorem exists_mem_touch {o f} (hf : ∀ j, (f j).obj = j.obj) (items : List (Item O)) : ∃ k ∈ touch o f items, k.obj = o := by
  induction items with
  | nil => exact ⟨_,mem_singleton_self _,hf _⟩
  | cons k items ih =>
    rw [touch]
    split
    · rename_i hk
      exact ⟨f k,mem_cons_self,(hf k).trans hk⟩
    · obtain ⟨j,hj,ho⟩ := ih
      exact ⟨j,mem_cons_of_mem _ hj,ho⟩

/-- What a call may do to the item of an object. -/
private theorem TxnOk.touch {o : O} {f : Item O → Item O} {pc : Pc T O} (h : TxnOk s t x) (hobj : ∀ j, (f j).obj = j.obj)
    (hrdata : ∀ j : Item O, j.rdata.2 ≤ (s.obj o).wts → (f j).rdata.2 ≤ (s.obj o).wts)
    (hflagged : ∀ j, (j.write = false → j.read = true) ∨ (∀ k ∈ x.items, k.obj ≠ o) → (f j).write = false → (f j).read = true)
    (hpc : PcOk s { x with items := TicTocCommit.touch o f x.items, pc := pc } pc) :
    TxnOk s t { x with items := TicTocCommit.touch o f x.items, pc := pc } := by
  refine ⟨h.locks,h.nodup,fun i hi => ?_,fun i hi => ?_,hpc⟩
  · rcases mem_touch hi with hi | ⟨j,rfl,-,hj | ⟨-,hnone⟩⟩
    · exact h.flagged i hi
    · exact hflagged j (.inl (h.flagged j hj))
    · exact hflagged j (.inr hnone)
  · rcases mem_touch hi with hi | ⟨j,rfl,ho,hj⟩
    · exact h.rdata i hi
    · rw [hobj,ho]
      refine hrdata j ?_
      rcases hj with hj | ⟨rfl,-⟩
      · exact ho ▸ h.rdata j hj
      · exact Nat.zero_le _

/-- The pair of timestamps goes into the item. -/
private theorem TxnOk.half {o observe fresh r} (h : TxnOk s t x) (hp : x.pc = .half o observe fresh r) : TxnOk s t { x with
      items := if fresh then x.items ++ [(⟨o,false,false,(0,0)⟩ : Item O).pack observe (r,(s.obj o).wts)]
        else TicTocCommit.touch o (fun i => i.pack observe (r,(s.obj o).wts)) x.items
      mayDuplicateItems := if fresh then !x.items.isEmpty else x.mayDuplicateItems
      pc := .running } := by
  have hpc := h.pc
  rw [hp] at hpc
  obtain ⟨htid,hlocks,hpack⟩ := hpc
  cases fresh with
  | true =>
    have hobserve : observe = true := by
      cases observe with
      | true => rfl
      | false => cases (hpack rfl).1
    subst hobserve
    refine ⟨h.locks,h.nodup,fun i hi => ?_,fun i hi => ?_,htid,hlocks⟩
    · rcases mem_append.mp hi with hi | hi
      · exact h.flagged i hi
      · rw [mem_singleton.mp hi]
        exact fun _ => pack_read ..
    · rcases mem_append.mp hi with hi | hi
      · exact h.rdata i hi
      · rw [mem_singleton.mp hi,pack_obj]
        exact pack_rdata (Nat.zero_le _)
  | false =>
    refine h.touch (fun j => pack_obj ..) (fun j => pack_rdata) (fun j hj => ?_) ⟨htid,hlocks⟩
    cases observe with
    | true => exact fun _ => pack_read ..
    | false =>
      obtain ⟨k,hk,ho⟩ := (hpack rfl).2
      exact hj.resolve_right (fun hnone => hnone k hk ho)

end Items

section Timestamps
variable {T O : Type} {s : State T O} {t : T} {x : Txn T O}

private theorem lockedObjs_concat (pre : List (Item O)) {i} (hw : i.write = true) : lockedObjs (pre ++ [i]) = i.obj :: lockedObjs pre := by
  simp [lockedObjs,filter_append,hw]

private theorem lockedObjs_concat_read (pre : List (Item O)) {i} (hw : i.write = false) : lockedObjs (pre ++ [i]) = lockedObjs pre := by
  simp [lockedObjs,filter_append,hw]

private theorem computeTictocCommitTs_concat (pre : List (Item O)) (i : Item O) : s.computeTictocCommitTs (pre ++ [i]) =
      max (s.computeTictocCommitTs pre) (if i.write then (s.obj i.obj).rts.version+1 else i.rdata.2) :=
  foldl_append ..

private theorem le_computeTictocCommitTs {items i} (hi : i ∈ items) :
    (if i.write then (s.obj i.obj).rts.version+1 else i.rdata.2) ≤ s.computeTictocCommitTs items := by
  induction items using List.reverseRecOn with
  | nil => cases hi
  | append_singleton pre j ih =>
    rw [computeTictocCommitTs_concat]
    rcases mem_append.mp hi with hi | hi
    · exact (ih hi).trans (le_max_left _ _)
    · rw [mem_singleton.mp hi]
      exact le_max_right _ _

private theorem accumulated_eq_compute {items} (hflagged : ∀ i ∈ items, i.write = false → i.read = true)
    (hbelow : ∀ i ∈ items, i.write = true → i.rdata.2 ≤ (s.obj i.obj).rts.version) :
    s.accumulated items = s.computeTictocCommitTs items := by
  induction items using List.reverseRecOn with
  | nil => rfl
  | append_singleton pre i ih =>
    have hi : i ∈ pre ++ [i] := mem_append_right _ (mem_singleton_self i)
    rw [accumulated_concat,computeTictocCommitTs_concat,ih (fun j hj => hflagged j (mem_append_left _ hj))
      (fun j hj => hbelow j (mem_append_left _ hj)),scanRead]
    cases hw : i.write with
    | false =>
      rw [if_pos (hflagged i hi hw)]
      rfl
    | true =>
      have hle : i.rdata.2 ≤ max (s.computeTictocCommitTs pre) ((s.obj i.obj).rts.version+1) :=
        (hbelow i hi hw).trans ((Nat.le_succ _).trans (le_max_right _ _))
      rw [if_pos rfl,if_pos rfl,max_eq_left hle,ite_self]

private theorem commitTid_eq (h : 0 < x.tictocTid) : s.commitTid x = x.tictocTid := if_pos h.ne'

/-- An object that a transaction has locked, unless it is the one being installed. -/
private theorem Inv.wts_le_of_lock (h : Inv s) {o} (ho : o ∈ (s.txn t).locks) (hpc : (s.txn t).pc.isStoring = false) :
    (s.obj o).wts ≤ (s.obj o).rts.version := by
  refine h.wts_le (fun u hu => ?_)
  obtain rfl : t = u := Option.some.inj (((h.txn t).locks o ho).symm.trans hu)
  exact hpc

/-- The timestamp of the first phase is the one that is computed from the items: what an
item that is read and written adds as a read is below what it adds as a write. -/
private theorem Inv.scanned (h : Inv s) (hp : (s.txn t).pc = .scanned) : (s.txn t).tictocTid = s.computeTictocCommitTs (s.txn t).items ∧
      (∀ i ∈ (s.txn t).items, i.write = true → (s.obj i.obj).rts.version < (s.txn t).tictocTid) ∧
      ∀ i ∈ (s.txn t).items, i.read = true → i.rdata.2 ≤ (s.txn t).tictocTid := by
  have hok := h.txn t
  have hpc := hok.pc
  rw [hp] at hpc
  have hbelow (i : Item O) (hi : i ∈ (s.txn t).items) (hw : i.write = true) : i.rdata.2 ≤ (s.obj i.obj).rts.version := by
    have hlock : i.obj ∈ (s.txn t).locks := by
      rw [hpc.locks]
      exact mem_lockedObjs hi hw
    exact (hok.rdata i hi).trans (h.wts_le_of_lock hlock (by rw [hp]; rfl))
  have htid : (s.txn t).tictocTid = s.computeTictocCommitTs (s.txn t).items :=
    hpc.tid.trans (accumulated_eq_compute hok.flagged hbelow)
  rw [htid]
  refine ⟨rfl,fun i hi hw => ?_,fun i hi _ => ?_⟩
  · have hle : _ ≤ s.computeTictocCommitTs (s.txn t).items := le_computeTictocCommitTs hi
    rw [if_pos hw] at hle
    exact hle
  · have hle : _ ≤ s.computeTictocCommitTs (s.txn t).items := le_computeTictocCommitTs hi
    cases hw : i.write with
    | false =>
      rw [hw] at hle
      exact hle
    | true =>
      rw [hw,if_pos rfl] at hle
      exact (hbelow i hi hw).trans (Nat.le_of_succ_le hle)

/-- The locks of the first phase, and the timestamps of their objects. -/
private theorem Inv.held (h : Inv s) (hp : (s.txn t).pc = .scanned) : Held s (s.txn t) ((s.txn t).items.filter (fun i => i.write)) := by
  have hok := h.txn t
  have hpc := hok.pc
  rw [hp] at hpc
  obtain ⟨-,hlt,-⟩ := h.scanned hp
  have hlocks (i : Item O) (hi : i ∈ (s.txn t).items.filter (fun i => i.write)) : i.obj ∈ (s.txn t).locks := by
    obtain ⟨hi,hw⟩ := mem_filter.mp hi
    rw [hpc.locks]
    exact mem_lockedObjs hi hw
  have hrts (i : Item O) (hi : i ∈ (s.txn t).items.filter (fun i => i.write)) : (s.obj i.obj).rts.version < (s.txn t).tictocTid := by
    obtain ⟨hi,hw⟩ := mem_filter.mp hi
    exact hlt i hi hw
  refine ⟨?_,hlocks,fun i hi => ?_,fun i hi => (hrts i hi).le,fun i hi => Nat.zero_lt_of_lt (hrts i hi)⟩
  · have hnodup := hok.nodup
    rw [hpc.locks,lockedObjs] at hnodup
    exact nodup_reverse.mp hnodup
  · exact (h.wts_le_of_lock (hlocks i hi) (by rw [hp]; rfl)).trans (hrts i hi).le

private theorem Inv.not_elsewhere (h : Inv s) {o} (ho : o ∈ (s.txn t).locks) : ∀ u ≠ t, (s.obj o).rts.owner ≠ some u := by
  intro u hu hou
  exact hu (Option.some.inj (hou.symm.trans ((h.txn t).locks o ho)))

variable [DecidableEq O]

private theorem setObj_self (o : O) (b : Object T) : (s.setObj o b).obj o = b := update_self ..

private theorem setObj_of_ne {o o'} (b : Object T) (h : o' ≠ o) : (s.setObj o b).obj o' = s.obj o' := update_of_ne h ..

private theorem rdata_setObj {o : O} {b : Object T} {items : List (Item O)} (h : ∀ i ∈ items, i.rdata.2 ≤ (s.obj i.obj).wts)
    (hwts : (s.obj o).wts ≤ b.wts) : ∀ i ∈ items, i.rdata.2 ≤ ((s.setObj o b).obj i.obj).wts := by
  intro i hi
  by_cases ho : i.obj = o
  · rw [ho,setObj_self]
    exact (ho ▸ h i hi).trans hwts
  · rw [setObj_of_ne _ ho]
    exact h i hi

private theorem locks_setObj {o : O} {b : Object T} {locks : List O} (h : ∀ o' ∈ locks, o' ≠ o → (s.obj o').rts.owner = some t)
    (hb : o ∈ locks → b.rts.owner = some t) : ∀ o' ∈ locks, ((s.setObj o b).obj o').rts.owner = some t := by
  intro o' ho'
  by_cases ho : o' = o
  · rw [ho,setObj_self]
    exact hb (ho ▸ ho')
  · rw [setObj_of_ne _ ho]
    exact h o' ho' ho

private theorem Held.setObj {o b items pc} (h : Held s x items)
    (hb : ∀ i ∈ items, i.obj = o → b.wts ≤ x.tictocTid ∧ b.rts.version ≤ x.tictocTid) :
    Held (s.setObj o b) { x with pc := pc } items := by
  refine ⟨h.nodup,h.locks,fun i hi => ?_,fun i hi => ?_,h.pos⟩
  · by_cases ho : i.obj = o
    · rw [ho,setObj_self]
      exact (hb i hi ho).1
    · rw [setObj_of_ne _ ho]
      exact h.wts i hi
  · by_cases ho : i.obj = o
    · rw [ho,setObj_self]
      exact (hb i hi ho).2
    · rw [setObj_of_ne _ ho]
      exact h.rts i hi

omit [DecidableEq O] in
private theorem Held.goto {items pc} (h : Held s x items) : Held s { x with pc := pc } items :=
  ⟨h.nodup,h.locks,h.wts,h.rts,h.pos⟩

omit [DecidableEq O] in
private theorem Held.tail {i items} (h : Held s x (i :: items)) : Held s x items :=
  ⟨(nodup_cons.mp h.nodup).2,fun j hj => h.locks j (mem_cons_of_mem _ hj),
    fun j hj => h.wts j (mem_cons_of_mem _ hj),fun j hj => h.rts j (mem_cons_of_mem _ hj),
    fun j hj => h.pos j (mem_cons_of_mem _ hj)⟩

omit [DecidableEq O] in
private theorem Held.ne {i j items} (h : Held s x (i :: items)) (hj : j ∈ items) : j.obj ≠ i.obj :=
  fun heq => (nodup_cons.mp h.nodup).1 (heq ▸ mem_map_of_mem hj)

/-- The first item is installed, and its object is not the transaction's any more. -/
private theorem Held.erase {i b items pc} (h : Held s x (i :: items)) :
    Held (s.setObj i.obj b) { x with locks := x.locks.erase i.obj, pc := pc } items := by
  have hset : Held (s.setObj i.obj b) { x with pc := pc } items := h.tail.setObj (fun j hj heq => absurd heq (h.ne hj))
  exact ⟨hset.nodup,fun j hj => (mem_erase_of_ne (h.ne hj)).mpr (hset.locks j hj),hset.wts,hset.rts,hset.pos⟩

end Timestamps

section Phases
variable {T O : Type} [DecidableEq T] [DecidableEq O] {s : State T O} {t : T}

section
variable (h : Inv s)
include h

private theorem Inv.lock {i : Item O} {todo : List (Item O)} (hp : (s.txn t).pc = .locking (i :: todo))
    (hw : i.write = true) (hfree : (s.obj i.obj).rts.owner = none) :
    Inv ((s.setObj i.obj { s.obj i.obj with rts := (s.obj i.obj).rts.lock t }).setTxn t
      { s.txn t with locks := i.obj :: (s.txn t).locks, pc := .stamping i todo }) := by
  have hok := h.txn t
  have hpc := hok.pc
  rw [hp] at hpc
  obtain ⟨pre,hitems,hscan⟩ := hpc
  have hnew : i.obj ∉ (s.txn t).locks := by
    intro hmem
    rw [hok.locks _ hmem] at hfree
    cases hfree
  have hversion (o : O) : ((s.setObj i.obj { s.obj i.obj with rts := (s.obj i.obj).rts.lock t }).obj o).rts.version =
      (s.obj o).rts.version := by
    by_cases ho : o = i.obj
    · rw [ho,setObj_self]
      rfl
    · rw [setObj_of_ne _ ho]
  have hle : (s.obj i.obj).wts ≤ (s.obj i.obj).rts.version := by
    refine h.wts_le (fun u hu => ?_)
    rw [hfree] at hu
    cases hu
  refine h.setObj (fun u _ hu => ?_) le_rfl (.inl hle) (fun j todo' hj => ?_)
    ⟨locks_setObj (fun o ho hne => ?_) (fun _ => rfl),nodup_cons.mpr ⟨hnew,hok.nodup⟩,hok.flagged,rdata_setObj hok.rdata le_rfl,?_⟩
  · rw [hfree] at hu
    cases hu
  · rw [hp] at hj
    cases hj
  · exact hok.locks o ((mem_cons.mp ho).resolve_left hne)
  · refine ⟨pre,hitems,hw,?_,?_⟩
    · exact hscan.tid.trans (accumulated_congr (fun j _ _ => hversion j.obj)).symm
    · rw [← hscan.locks]

omit [DecidableEq O] in
private theorem Inv.scan {p i todo pre tid} (hp : (s.txn t).pc = p)
    (hnot : p.isStoring = false) (hitems : (s.txn t).items = pre ++ i :: todo) (htid : tid = s.accumulated (pre ++ [i]))
    (hlocks : (s.txn t).locks = lockedObjs (pre ++ [i])) :
    Inv (s.setTxn t { s.txn t with tictocTid := tid, pc := .locking todo }) :=
  h.goto hp hnot (fun _ => ⟨pre ++ [i],by rw [hitems,append_assoc]; rfl,htid,hlocks⟩)

/-- The read timestamp of an object is moved up to the commit timestamp. -/
private theorem Inv.extend {i : Item O} {wts : Nat} {rts : Word T} {todo : List (Item O)}
    (hp : (s.txn t).pc = .loadedRts i wts rts todo) (hsame : (s.obj i.obj).rts = rts)
    (hlt : rts.version < s.commitTid (s.txn t)) (hfree : isLockedElsewhere t rts = false) :
    Inv ((s.setObj i.obj { s.obj i.obj with rts := ⟨s.commitTid (s.txn t),rts.owner⟩ }).setTxn t
      { s.txn t with pc := .checking todo }) := by
  have hok := h.txn t
  have hpc := hok.pc
  rw [hp] at hpc
  have howner (u : T) (hu : (s.obj i.obj).rts.owner = some u) : u = t := by
    by_contra hne
    rw [hsame] at hu
    rw [isLockedElsewhere,hu] at hfree
    exact absurd hfree (by simp [hne])
  have hle : (s.obj i.obj).wts ≤ rts.version := by
    rw [← hsame]
    refine h.wts_le (fun u hu => ?_)
    rw [howner u hu,hp]
    rfl
  refine h.setObj (fun u hu hou => hu (howner u hou)) le_rfl (.inl (hle.trans hlt.le)) (fun j todo' hj => ?_)
    ⟨locks_setObj (fun o ho _ => hok.locks o ho) (fun ho => ?_),hok.nodup,hok.flagged,rdata_setObj hok.rdata le_rfl,
      hpc.setObj (fun j hj heq => ⟨heq ▸ hpc.wts j hj,(commitTid_eq (hpc.pos j hj)).le⟩)⟩
  · rw [hp] at hj
    cases hj
  · rw [← hsame]
    exact hok.locks _ ho

private theorem Inv.store {i : Item O} {todo : List (Item O)} (hp : (s.txn t).pc = .installing (i :: todo)) :
    Inv ((s.setObj i.obj { s.obj i.obj with wts := s.commitTid (s.txn t) }).setTxn t { s.txn t with pc := .storing i todo }) := by
  have hok := h.txn t
  have hpc := hok.pc
  rw [hp] at hpc
  have htid : s.commitTid (s.txn t) = (s.txn t).tictocTid := commitTid_eq (hpc.pos i mem_cons_self)
  have hwts : (s.obj i.obj).wts ≤ s.commitTid (s.txn t) := (hpc.wts i mem_cons_self).trans htid.ge
  refine h.setObj (h.not_elsewhere (hpc.locks i mem_cons_self)) hwts (.inr ⟨i,todo,rfl,rfl⟩) (fun j todo' hj => ?_)
    ⟨locks_setObj (fun o ho _ => hok.locks o ho) (hok.locks _),hok.nodup,hok.flagged,rdata_setObj hok.rdata hwts,
      hpc.setObj (fun j hj heq => ⟨htid.le,heq ▸ hpc.rts j hj⟩),?_⟩
  · rw [hp] at hj
    cases hj
  · rw [setObj_self]
    exact htid

private theorem Inv.storeLocked {i : Item O} {todo : List (Item O)} (hp : (s.txn t).pc = .installing (i :: todo)) :
    Inv ((s.setObj i.obj { s.obj i.obj with rts := ⟨s.commitTid (s.txn t),some t⟩ }).setTxn t { s.txn t with pc := .erasing i todo }) := by
  have hok := h.txn t
  have hpc := hok.pc
  rw [hp] at hpc
  have htid : s.commitTid (s.txn t) = (s.txn t).tictocTid := commitTid_eq (hpc.pos i mem_cons_self)
  refine h.setObj (h.not_elsewhere (hpc.locks i mem_cons_self)) le_rfl (.inl ((hpc.wts i mem_cons_self).trans htid.ge))
    (fun j todo' hj => ?_)
    ⟨locks_setObj (fun o ho _ => hok.locks o ho) (fun _ => rfl),hok.nodup,hok.flagged,rdata_setObj hok.rdata le_rfl,
      hpc.setObj (fun j hj heq => ⟨heq ▸ hpc.wts j hj,htid.le⟩),?_⟩
  · rw [hp] at hj
    cases hj
  · rw [setObj_self]
    exact htid

/-- The other word follows, and the item is done. -/
private theorem Inv.stored {i : Item O} {todo : List (Item O)} {b : Object T} (hheld : Held s (s.txn t) (i :: todo))
    (hwts : (s.obj i.obj).wts ≤ b.wts) (hb : b.wts ≤ b.rts.version)
    (hpc : ∀ j todo, (s.txn t).pc = .storing j todo → j.obj = i.obj) :
    Inv ((s.setObj i.obj b).setTxn t { s.txn t with locks := (s.txn t).locks.erase i.obj, pc := .installing todo }) := by
  have hok := h.txn t
  have hgone : i.obj ∉ (s.txn t).locks.erase i.obj := hok.nodup.not_mem_erase
  exact h.setObj (h.not_elsewhere (hheld.locks i mem_cons_self)) hwts (.inl hb) hpc
    ⟨locks_setObj (fun o ho _ => hok.locks o (mem_of_mem_erase ho)) (fun ho => absurd ho hgone),hok.nodup.erase _,hok.flagged,
      rdata_setObj hok.rdata hwts,hheld.erase⟩

/-- One of the locks that are left is given back. -/
private theorem Inv.unlock {o : O} {locks : List O} (hp : (s.txn t).pc = .stopping) (hlocks : (s.txn t).locks = o :: locks) :
    Inv ((s.setObj o { s.obj o with rts := (s.obj o).rts.unlock }).setTxn t { s.txn t with locks := locks, pc := .stopping }) := by
  have hok := h.txn t
  have ho : o ∈ (s.txn t).locks := hlocks ▸ mem_cons_self
  have hnodup : (o :: locks).Nodup := hlocks ▸ hok.nodup
  have hnot : (s.txn t).pc.isStoring = false := by rw [hp]; rfl
  refine h.setObj (h.not_elsewhere ho) le_rfl (.inl (h.wts_le_of_lock ho hnot)) (fun i todo hi => ?_)
    ⟨locks_setObj (fun o' ho' _ => hok.locks o' (hlocks ▸ mem_cons_of_mem _ ho')) (fun ho' => ?_),(nodup_cons.mp hnodup).2,
      hok.flagged,rdata_setObj hok.rdata le_rfl,trivial⟩
  · rw [hi] at hnot
    cases hnot
  · exact absurd ho' (nodup_cons.mp hnodup).1

end

end Phases

section Run
variable {T O : Type} [DecidableEq T] [DecidableEq O] {s s' : State T O} {t : T}

private theorem Inv.validate (h : Inv s) {i wts rts todo}
    (hp : (s.txn t).pc = .loadedRts i wts rts todo) : Inv (s.validate t (s.txn t) i wts rts todo) := by
  have hchecking (todo : List (Item O)) : Inv (s.setTxn t { s.txn t with pc := .checking todo }) := h.goto hp rfl Held.goto
  rw [State.validate]
  dsimp only
  split
  · split
    · exact hchecking todo
    · exact h.goto hp rfl (fun _ => trivial)
  · next hfail =>
    split
    · exact hchecking todo
    · next hlow =>
      split
      · next hsame =>
        -- The words were loaded without another's lock, so the swap has met none.
        have hfree : isLockedElsewhere t rts = false := by
          by_contra hlocked
          exact hfail (.inr ⟨Nat.lt_of_not_le hlow,Bool.not_eq_false _ ▸ hlocked⟩)
        exact h.extend hp hsame (Nat.lt_of_not_le hlow) hfree
      · exact hchecking (i :: todo)

private theorem Inv.locking (h : Inv s) {todo} (hp : (s.txn t).pc = .locking todo) (hgo : s.go t = some s') : Inv s' := by
  have hpc := (h.txn t).pc
  rw [hp] at hpc
  obtain ⟨pre,hitems,hscan⟩ := hpc
  rw [State.go,hp] at hgo
  cases todo with
  | nil =>
    cases hgo
    rw [append_nil] at hitems
    exact h.goto hp rfl (fun _ => ⟨hitems ▸ hscan.tid,hitems ▸ hscan.locks⟩)
  | cons i todo =>
    rcases ite_eq_iff.mp hgo with ⟨hw,hgo⟩ | ⟨hw,⟨⟩⟩
    · obtain ⟨hfree,⟨⟩⟩ := Option.ite_none_right_eq_some.mp hgo
      exact h.lock hp hw hfree
    · rw [Bool.not_eq_true] at hw
      refine h.scan hp rfl hitems ?_ ?_
      · rw [accumulated_concat,hw,hscan.tid]
        rfl
      · rw [lockedObjs_concat_read pre hw]
        exact hscan.locks

omit [DecidableEq O] in
private theorem Inv.stamp (h : Inv s) {i todo} (hp : (s.txn t).pc = .stamping i todo) : Inv (s.setTxn t { s.txn t with
      tictocTid := scanRead i (max (s.txn t).tictocTid ((s.obj i.obj).rts.version+1)), pc := .locking todo }) := by
  have hpc := (h.txn t).pc
  rw [hp] at hpc
  obtain ⟨pre,hitems,hw,htid,hlocks⟩ := hpc
  refine h.scan hp rfl hitems ?_ ?_
  · rw [accumulated_concat,if_pos hw,htid]
  · rw [lockedObjs_concat pre hw]
    exact hlocks

private theorem Inv.checking (h : Inv s) {todo} (hp : (s.txn t).pc = .checking todo) (hgo : s.go t = some s') : Inv s' := by
  rw [State.go,hp] at hgo
  cases todo with
  | nil =>
    cases hgo
    exact h.goto hp rfl Held.goto
  | cons i todo =>
    rcases ite_eq_iff.mp hgo with ⟨-,⟨⟩⟩ | ⟨-,⟨⟩⟩
    · exact h.goto hp rfl Held.goto
    · exact h.goto hp rfl Held.goto

/-- The second word of an install: the write timestamp stands already. -/
private theorem Inv.storing (h : Inv s) {i todo} (hp : (s.txn t).pc = .storing i todo) :
    Inv ((s.setObj i.obj { s.obj i.obj with rts := ⟨s.commitTid (s.txn t),none⟩ }).setTxn t
      { s.txn t with locks := (s.txn t).locks.erase i.obj, pc := .installing todo }) := by
  have hpc := (h.txn t).pc
  rw [hp] at hpc
  obtain ⟨hheld,hwts⟩ := hpc
  refine h.stored hheld le_rfl ?_ (fun j todo' hj => ?_)
  · rw [commitTid_eq (hheld.pos i mem_cons_self)]
    exact hwts.le
  · rw [hp] at hj
    cases hj
    rfl

/-- The second word of a delete: the read timestamp stands already. -/
private theorem Inv.erasing (h : Inv s) {i todo} (hp : (s.txn t).pc = .erasing i todo) :
    Inv ((s.setObj i.obj { s.obj i.obj with wts := s.commitTid (s.txn t) }).setTxn t
      { s.txn t with locks := (s.txn t).locks.erase i.obj, pc := .installing todo }) := by
  have hpc := (h.txn t).pc
  rw [hp] at hpc
  obtain ⟨hheld,hrts⟩ := hpc
  have htid : s.commitTid (s.txn t) = (s.txn t).tictocTid := commitTid_eq (hheld.pos i mem_cons_self)
  refine h.stored hheld ?_ (htid.le.trans hrts.ge) (fun j todo' hj => ?_)
  · exact (hheld.wts i mem_cons_self).trans htid.ge
  · rw [hp] at hj
    cases hj

private theorem Inv.stopping (h : Inv s) (hp : (s.txn t).pc = .stopping) (hgo : s.go t = some s') : Inv s' := by
  rw [State.go,hp] at hgo
  dsimp only at hgo
  split at hgo
  · cases hgo
    exact h.goto hp rfl (fun _ => trivial)
  · next hl =>
    cases hgo
    exact h.unlock hp hl

private theorem Inv.go (h : Inv s) (hgo : s.go t = some s') : Inv s' := by
  cases hp : (s.txn t).pc with
  | locking todo => exact h.locking hp hgo
  | checking todo => exact h.checking hp hgo
  | stopping => exact h.stopping hp hgo
  | packing o observe fresh =>
    rw [State.go,hp] at hgo
    cases hgo
    exact h.goto hp rfl id
  | half o observe fresh r =>
    rw [State.go,hp] at hgo
    cases hgo
    exact h.setTxn (by rw [hp]; rfl) ((h.txn t).half hp)
  | stamping i todo =>
    rw [State.go,hp] at hgo
    cases hgo
    exact h.stamp hp
  | scanned =>
    rw [State.go,hp] at hgo
    cases hgo
    exact h.goto hp rfl (fun _ => (h.held hp).goto)
  | loadedWts i wts todo =>
    rw [State.go,hp] at hgo
    cases hgo
    exact h.goto hp rfl Held.goto
  | loadedRts i wts rts todo =>
    rw [State.go,hp] at hgo
    cases hgo
    exact h.validate hp
  | installing todo =>
    rw [State.go,hp] at hgo
    cases todo with
    | nil =>
      cases hgo
      exact h.goto hp rfl (fun _ => trivial)
    | cons i todo => cases hgo
  | storing i todo =>
    rw [State.go,hp] at hgo
    cases hgo
    exact h.storing hp
  | erasing i todo =>
    rw [State.go,hp] at hgo
    cases hgo
    exact h.erasing hp
  | running | stopped =>
    rw [State.go,hp] at hgo
    cases hgo

omit [DecidableEq T] [DecidableEq O] in
private theorem txnOk_begin (s : State T O) (t : T) : TxnOk s t ⟨[],false,0,[],.running⟩ :=
  ⟨fun _ ho => absurd ho not_mem_nil,nodup_nil,fun _ hi => absurd hi not_mem_nil,fun _ hi => absurd hi not_mem_nil,rfl,rfl⟩

private theorem Inv.observe (h : Inv s) {o fresh} (hnext : s.next (t,.observe o fresh) = some s') : Inv s' := by
  rw [State.next] at hnext
  split at hnext
  · next hp =>
    rcases ite_eq_iff.mp hnext with ⟨-,⟨⟩⟩ | ⟨-,hnext⟩
    · exact h.goto hp rfl (fun _ => trivial)
    · rcases ite_eq_iff.mp hnext with ⟨-,⟨⟩⟩ | ⟨-,⟨⟩⟩
      · exact h
      · exact h.goto hp rfl (fun hpc => ⟨hpc.1,hpc.2,nofun⟩)
  · cases hnext

/-- An item is marked as written. -/
private theorem Inv.mark (h : Inv s) {o pc} (hp : (s.txn t).pc = .running)
    (hpc : PcOk s { s.txn t with items := touch o (fun i => { i with write := true }) (s.txn t).items, pc := pc } pc) :
    Inv (s.setTxn t { s.txn t with items := touch o (fun i => { i with write := true }) (s.txn t).items, pc := pc }) :=
  h.setTxn (by rw [hp]; rfl) ((h.txn t).touch (fun _ => rfl) (fun _ h => h) (fun _ _ => nofun) hpc)

private theorem Inv.acquireWrite (h : Inv s) {o} (hnext : s.next (t,.acquireWrite o) = some s') : Inv s' := by
  have hpc := (h.txn t).pc
  rw [State.next] at hnext
  split at hnext
  · next hp =>
    rw [hp] at hpc
    rcases ite_eq_iff.mp hnext with ⟨-,⟨⟩⟩ | ⟨-,⟨⟩⟩
    · exact h
    · refine h.mark hp ?_
      cases (findItem o (s.txn t).items).read with
      | true => exact hpc
      | false =>
        refine ⟨hpc.1,hpc.2,fun _ => ⟨rfl,?_⟩⟩
        exact exists_mem_touch (f := fun i => { i with write := true }) (fun _ => rfl) _
  · cases hnext

private theorem Inv.leave (h : Inv s) (hnext : s.next (t,.leave) = some s') : Inv s' := by
  have hok := h.txn t
  rw [State.next] at hnext
  split at hnext
  · next o locks hp hl =>
    cases hnext
    have hnodup := hok.nodup
    rw [hl] at hnodup
    refine h.setTxn (by rw [hp]; rfl) ⟨fun o' ho' => hok.locks o' ?_,(nodup_cons.mp hnodup).2,hok.flagged,hok.rdata,?_⟩
    · rw [hl]
      exact mem_cons_of_mem _ ho'
    · rw [hp]
      trivial
  · cases hnext

private theorem Inv.next (h : Inv s) {a} (hnext : s.next a = some s') : Inv s' := by
  obtain ⟨t,a⟩ := a
  cases a with
  | go => exact h.go hnext
  | observe o fresh => exact h.observe hnext
  | acquireWrite o => exact h.acquireWrite hnext
  | addWrite o =>
    have hpc := (h.txn t).pc
    rw [State.next] at hnext
    split at hnext
    · next hp =>
      cases hnext
      rw [hp] at hpc
      refine h.mark hp ?_
      rw [hp]
      exact hpc
    · cases hnext
  | commit =>
    rw [State.next] at hnext
    split at hnext
    · next hp =>
      cases hnext
      exact h.goto hp rfl (fun hpc => ⟨[],rfl,hpc.1,hpc.2⟩)
    · cases hnext
  | install =>
    rw [State.next] at hnext
    split at hnext
    · next hp =>
      cases hnext
      exact h.store hp
    · cases hnext
  | delete =>
    rw [State.next] at hnext
    split at hnext
    · next hp =>
      cases hnext
      exact h.storeLocked hp
    · cases hnext
  | leave => exact h.leave hnext
  | abort =>
    rw [State.next] at hnext
    split at hnext
    · next hp =>
      cases hnext
      exact h.goto hp rfl (fun _ => trivial)
    · next hp =>
      cases hnext
      exact h.goto hp rfl (fun _ => trivial)
    · next hp =>
      cases hnext
      exact h.goto hp rfl (fun _ => trivial)
    · cases hnext
  | start =>
    rw [State.next] at hnext
    split at hnext
    · next hp =>
      cases hnext
      exact h.setTxn (by rw [hp]; rfl) (txnOk_begin s t)
    · cases hnext

theorem inv_reachable {ts} (h : (objects T ts).Reachable s) : Inv s := by
  refine Machine.Reachable.ofNext_invariant h ⟨fun o => .inl le_rfl,fun t => ?_⟩ (fun _ _ _ hs hnext => hs.next hnext)
  exact txnOk_begin _ t

/-- When the first phase has locked every item that is written and scanned every item
that is read, the timestamp it has collected is the one that is computed from the
items, above the read timestamp of everything that is written and not below the write
timestamp of anything that was read; it stays so whatever the others do. -/
theorem accumulated_ts_eq_computed {ts : O → Nat} (h : (objects T ts).Reachable s) (t : T) (hp : (s.txn t).pc = .scanned) :
    (∀ i ∈ (s.txn t).items, i.write = true → (s.obj i.obj).rts.owner = some t) ∧
      (s.txn t).tictocTid = s.computeTictocCommitTs (s.txn t).items ∧
      (∀ i ∈ (s.txn t).items, i.write = true → (s.obj i.obj).rts.version < (s.txn t).tictocTid) ∧
      ∀ i ∈ (s.txn t).items, i.read = true → i.rdata.2 ≤ (s.txn t).tictocTid := by
  have hinv := inv_reachable h
  refine ⟨fun i hi hw => ?_,hinv.scanned hp⟩
  exact (hinv.txn t).locks _ ((hinv.held hp).locks i (List.mem_filter.mpr ⟨hi,hw⟩))

end Run

section

/-- `u` reads the first object and extends it past the observation of `t`, which reads
and writes it and reads the other one. -/
def extendedRun {T : Type} (t u : T) : List (T × Act Bool) :=
  [(t,.observe false false),(t,.go),(t,.go),(t,.acquireWrite false),(t,.observe true false),(t,.go),(t,.go),
   (u,.observe false false),(u,.go),(u,.go),(u,.acquireWrite true),(u,.go),(u,.go),(u,.commit),(u,.go),(u,.go),(u,.go),(u,.go),
   (u,.go),(u,.go),(u,.go),(u,.go),(t,.commit),(t,.go),(t,.go),(t,.go),(t,.go)]

def afterExtension : State Bool Bool := (objects Bool (fun _ => 5)).play (objects Bool (fun _ => 5)).start (extendedRun true false)

theorem accumulated_ts_eq_computed_extended :
    (afterExtension.txn true).pc = .scanned ∧ (afterExtension.txn true).tictocTid = 7 ∧
      (afterExtension.txn true).tictocTid = afterExtension.computeTictocCommitTs (afterExtension.txn true).items := by
  have hreach : (objects Bool (fun _ => 5)).Reachable afterExtension := Machine.Reachable.play .start _ (by decide)
  have hp : (afterExtension.txn true).pc = .scanned := rfl
  exact ⟨hp,rfl,(accumulated_ts_eq_computed hreach true hp).2.1⟩

end


end AlNiCo.Sto.TicTocCommit
