import AlNiCo.Library.Machine
import AlNiCo.Sto.RowItems

/-! A row of an index under fine-grained optimistic control: an inserted row is in the index
before its transaction commits, and a deleted one until after, so a reader has to tell from the
row's versions whether the row is there. The versions are assumed never to wrap around. -/
namespace AlNiCo.Sto.RowPresence
open Library Option List

/-- The version of a cell. The invalid bit of cell 0 marks a row whose insert has not committed. -/
structure Version (T : Type) where
  version : Nat
  invalidBit : Bool
  owner : Option T

namespace Version
variable {T : Type}

/-- `TNonopaqueVersion()`. -/
def unset : Version T := ⟨0,false,none⟩

/-- `Sto::initialized_tid()`, with the invalid bit for an insert. -/
def initialized (insert : Bool) : Version T := ⟨1,insert,none⟩

def setVersion (v : Version T) : Version T := { v with version := v.version+1, invalidBit := false }

def setVersionUnlock (v : Version T) : Version T := { v.setVersion with owner := none }

end Version

/-- The constructor of a selector: the versions of a new row from the one it is given. -/
abbrev Construct (T : Type) : Type := Version T → Nat → Version T

def firstVersion {T : Type} : Construct T := fun v cell => if cell = 0 then v else .unset

/-- The selectors of orders, order lines and stock drop the version they are given. -/
def noVersion {T : Type} : Construct T := fun _ _ => .unset

def splitVersions {T : Type} (t : SplitTable) : Construct T := if t.sel.keepsVersion then firstVersion else noVersion

def readCells {t : Table} (sel : VerSel t.Col) (cols : List t.Col) : List Nat :=
  (List.range sel.numVersions).filter fun k => (columnToCellAccesses t sel (cols.map (·,.read)) k).getLsbD 0

/-- A transaction's items for the row: item 0 is the row item. -/
structure ItemSet (Col : Type) where
  /-- The element was found in the index. -/
  ptr : Bool
  insertBit : Bool
  deleteBit : Bool
  write : Bool
  reads : List (Nat × Nat)
  /-- The columns of its finished selects. -/
  found : List (List Col)

inductive Pc (Col : Type)
  | running
  | selecting (todo : List Nat) (cols : List Col)
  | deleting
  | flagging
  | locking
  | checking (todo : List (Nat × Nat))
  | comparing (cell v : Nat) (todo : List (Nat × Nat))
  | committed
  | setting
  | removing
  | done
  | aborting
  | aborted
deriving DecidableEq

structure Txn (Col : Type) where
  items : ItemSet Col
  /-- The row was there at a load of its validation. -/
  present : Bool
  pc : Pc Col

/-- The element with its place in the index, and who has inserted and deleted it. -/
structure Row (T : Type) where
  vers : Nat → Version T
  created : Bool
  indexed : Bool
  deleted : Bool
  inserter : Option T
  deleter : Option T
  commits : List T

structure State (T Col : Type) where
  row : Row T
  txn : T → Txn Col

inductive Act (Col : Type)
  | insert | find
  | select (cols : List Col)
  | delete | overwrite | commit | go | abort

section
variable {T : Type} [DecidableEq T] {tab : Table}

/-- `observe`: the first read of a cell is kept. -/
def ItemSet.observe {Col : Type} (x : ItemSet Col) (cell v : Nat) : ItemSet Col :=
  { x with reads := if (x.reads.lookup cell).isSome then x.reads else x.reads ++ [(cell,v)] }

/-- Inserted by a committed transaction or by `t` itself, and not deleted by a committed one. -/
def Row.presentFor (r : Row T) (t : T) : Bool :=
  (match r.inserter with | none => true | some u => u == t || r.commits.contains u) && r.deleter.isNone

def Row.setVers (r : Row T) (cell : Nat) (v : Version T) : Row T := { r with vers := Function.update r.vers cell v }

def Row.isPhantom {Col : Type} (r : Row T) (x : ItemSet Col) : Bool := (r.vers 0).invalidBit && !x.insertBit

namespace State

def set (s : State T tab.Col) (t : T) (r : Row T) (x : Txn tab.Col) : State T tab.Col := ⟨r,Function.update s.txn t x⟩

def go (s : State T tab.Col) (t : T) : Option (State T tab.Col) :=
  let r := s.row
  match s.txn t with
  | ⟨x,p,.selecting [] cols⟩ => some (s.set t r ⟨{ x with found := cols :: x.found },p,.running⟩)
  | ⟨x,p,.selecting (k :: todo) cols⟩ =>
    if (r.vers k).owner = none then some (s.set t r ⟨x.observe k (r.vers k).version,p,.selecting todo cols⟩) else none
  | ⟨x,p,.deleting⟩ =>
    if (r.vers 0).owner = none then some (s.set t r ⟨{ x.observe 0 (r.vers 0).version with write := true },p,.flagging⟩) else none
  | ⟨x,p,.flagging⟩ => if r.deleted then none else some (s.set t r ⟨{ x with deleteBit := true },p,.running⟩)
  | ⟨x,p,.locking⟩ =>
    if (r.vers 0).owner = none then some (s.set t (r.setVers 0 { r.vers 0 with owner := some t }) ⟨x,p,.checking x.reads⟩) else none
  | ⟨x,p,.checking ((k,v) :: todo)⟩ =>
    if (r.vers k).owner ≠ none ∧ ¬ (k = 0 ∧ x.write = true) then none
    else some (s.set t r ⟨x,p || r.presentFor t,.comparing k v todo⟩)
  | ⟨x,p,.comparing k v todo⟩ => if (r.vers k).version = v then some (s.set t r ⟨x,p,.checking todo⟩) else none
  | ⟨x,p,.checking []⟩ =>
    some (s.set t { r with commits := t :: r.commits, deleter := if x.deleteBit then some t else r.deleter } ⟨x,p,.committed⟩)
  | ⟨x,p,.committed⟩ =>
    if x.deleteBit then some (s.set t { r with deleted := true } ⟨x,p,.setting⟩)
    else some (s.set t (if x.write then r.setVers 0 (r.vers 0).setVersionUnlock else r) ⟨x,p,.done⟩)
  | ⟨x,p,.setting⟩ => some (s.set t (r.setVers 0 (r.vers 0).setVersion) ⟨x,p,.removing⟩)
  | ⟨x,p,.removing⟩ => some (s.set t { r with indexed := false } ⟨x,p,.done⟩)
  | ⟨x,p,.aborting⟩ =>
    -- the cleanup of an insert takes the row out and forgets the lock
    some (s.set t (if x.insertBit then { r with indexed := false }
      else if (r.vers 0).owner = some t then r.setVers 0 { r.vers 0 with owner := none } else r) ⟨x,p,.aborted⟩)
  | _ => none

def next (sel : VerSel tab.Col) (construct : Construct T) (s : State T tab.Col) : T × Act tab.Col → Option (State T tab.Col)
  | (t,.go) => s.go t
  | (t,.insert) =>
    match s.txn t with
    | ⟨x,p,.running⟩ =>
      if s.row.created then none
      else some (s.set t { s.row with
        vers := construct (.initialized true), created := true, indexed := true, inserter := some t }
        ⟨{ x with insertBit := true, write := true },p,.running⟩)
    | _ => none
  | (t,.find) =>
    match s.txn t with
    | ⟨x,p,.running⟩ => if s.row.indexed then some (s.set t s.row ⟨{ x with ptr := true },p,.running⟩) else none
    | _ => none
  | (t,.select cols) =>
    match s.txn t with
    | ⟨x,p,.running⟩ =>
      if x.ptr && !s.row.isPhantom x then some (s.set t s.row ⟨x,p,.selecting (readCells sel cols) cols⟩) else none
    | _ => none
  | (t,.delete) =>
    match s.txn t with
    | ⟨x,p,.running⟩ => if x.ptr && !s.row.isPhantom x then some (s.set t s.row ⟨x,p,.deleting⟩) else none
    | _ => none
  | (t,.overwrite) =>
    match s.txn t with
    | ⟨x,p,.running⟩ =>
      if x.ptr && !s.row.isPhantom x then some (s.set t s.row ⟨{ x with write := true },p,.running⟩) else none
    | _ => none
  | (t,.commit) =>
    match s.txn t with
    | ⟨x,p,.running⟩ => some (s.set t s.row ⟨x,p,if x.write then .locking else .checking x.reads⟩)
    | _ => none
  | (t,.abort) =>
    match s.txn t with
    | ⟨x,p,.running⟩ | ⟨x,p,.selecting _ _⟩ | ⟨x,p,.deleting⟩ | ⟨x,p,.flagging⟩ | ⟨x,p,.locking⟩ | ⟨x,p,.checking _⟩
    | ⟨x,p,.comparing _ _ _⟩ => some (s.set t s.row ⟨x,p,.aborting⟩)
    | _ => none

end State

def row (T : Type) [DecidableEq T] {tab : Table} (sel : VerSel tab.Col) (construct : Construct T) (prepopulated : Bool) :
    Machine (State T tab.Col) (T × Act tab.Col) :=
  .ofNext ⟨⟨if prepopulated then construct (.initialized false) else fun _ => .unset,prepopulated,prepopulated,false,none,none,[]⟩,
    fun _ => ⟨⟨false,false,false,false,[],[]⟩,false,.running⟩⟩ (State.next sel construct)

section Steps
variable {sel : VerSel tab.Col} {construct : Construct T} {s s' : State T tab.Col} {r r' : Row T} {x : ItemSet tab.Col} {p : Bool} {t : T}

def Row.Inserted (r : Row T) (t : T) : Prop :=
  r.created = true ∧ ∀ u, r.inserter = some u → u = t ∨ u ∈ r.commits

structure Row.Ok (r : Row T) : Prop where
  fresh : r.created = false → (r.vers 0).owner = none ∧ r.inserter = none
  indexed : r.indexed = true → r.created = true
  valid : r.created = true → (r.vers 0).invalidBit = false → ∀ u, r.inserter = some u → u ∈ r.commits
  /-- A deleted row stays locked. -/
  deleter : ∀ u, r.deleter = some u → (r.vers 0).owner = some u ∧ u ∈ r.commits

structure ItemSet.Ok (sel : VerSel tab.Col) (r : Row T) (t : T) (x : ItemSet tab.Col) : Prop where
  ptr : x.ptr = true → r.created = true
  insert : x.insertBit = true → r.created = true ∧ r.inserter = some t
  delete : x.deleteBit = true → x.write = true
  reads : x.reads ≠ [] ∨ x.write = true → r.Inserted t
  found : ∀ cols ∈ x.found, ∀ k ∈ readCells sel cols, ∃ v, (k,v) ∈ x.reads
  deleter : r.deleter = some t → x.deleteBit = true

def PcOk (sel : VerSel tab.Col) (r : Row T) (t : T) (x : ItemSet tab.Col) (p : Bool) : Pc tab.Col → Prop
  | .selecting todo cols => t ∉ r.commits ∧ r.Inserted t ∧ ∀ k ∈ readCells sel cols, k ∈ todo ∨ ∃ v, (k,v) ∈ x.reads
  | .deleting => t ∉ r.commits ∧ r.Inserted t
  | .flagging | .locking => t ∉ r.commits ∧ x.write = true
  | .checking todo | .comparing _ _ todo =>
    t ∉ r.commits ∧ (x.write = true → (r.vers 0).owner = some t) ∧ ∀ v, (0,v) ∈ x.reads → (0,v) ∈ todo ∨ p = true
  | .committed => t ∈ r.commits ∧ (x.write = true → (r.vers 0).owner = some t) ∧ ∀ v, (0,v) ∈ x.reads → p = true
  | .setting => t ∈ r.commits ∧ x.deleteBit = true ∧ ∀ v, (0,v) ∈ x.reads → p = true
  | .removing | .done => t ∈ r.commits ∧ ∀ v, (0,v) ∈ x.reads → p = true
  | .running | .aborting | .aborted => t ∉ r.commits

structure Txn.Ok (sel : VerSel tab.Col) (r : Row T) (t : T) (y : Txn tab.Col) : Prop where
  items : y.items.Ok sel r t
  pc : PcOk sel r t y.items y.present y.pc

structure Inv (sel : VerSel tab.Col) (s : State T tab.Col) : Prop where
  row : s.row.Ok
  txn : ∀ t, (s.txn t).Ok sel s.row t

structure Row.Later (t : T) (r r' : Row T) : Prop where
  owner : ∀ u, u ≠ t → (r.vers 0).owner = some u → (r'.vers 0).owner = some u
  created : r.created = true → r'.created = true ∧ r'.inserter = r.inserter
  commits : ∀ u, u ∈ r.commits → u ∈ r'.commits
  others : ∀ u, u ≠ t → u ∈ r'.commits → u ∈ r.commits
  deleter : ∀ u, u ≠ t → r'.deleter = some u → r.deleter = some u

section
omit [DecidableEq T]

theorem Row.Later.refl (t : T) (r : Row T) : r.Later t r := ⟨fun _ _ => id,fun h => ⟨h,rfl⟩,fun _ => id,fun _ _ => id,fun _ _ => id⟩

theorem Row.Inserted.later {u} (h : r.Inserted u) (hl : r.Later t r') : r'.Inserted u := by
  obtain ⟨hc,hi⟩ := hl.created h.1
  exact ⟨hc,fun w hw => (h.2 w (hi ▸ hw)).imp_right (hl.commits w)⟩

theorem Txn.Ok.later {u : T} {y : Txn tab.Col} (h : y.Ok sel r u) (hl : r.Later t r') (hu : u ≠ t) : y.Ok sel r' u := by
  have hin (hc : u ∉ r.commits) : u ∉ r'.commits := fun hc' => hc (hl.others u hu hc')
  have howner {q : Prop} (ho : q → (r.vers 0).owner = some u) (hq : q) : (r'.vers 0).owner = some u := hl.owner u hu (ho hq)
  refine ⟨⟨fun hp => (hl.created (h.items.ptr hp)).1,fun hb => ?_,h.items.delete,fun hr => (h.items.reads hr).later hl,h.items.found,
    fun hd => h.items.deleter (hl.deleter u hu hd)⟩,?_⟩
  · obtain ⟨hc,hi⟩ := h.items.insert hb
    exact ⟨(hl.created hc).1,(hl.created hc).2.trans hi⟩
  · have hpc := h.pc
    generalize y.pc = pc at hpc
    match pc,hpc with
    | .selecting _ _,⟨hc,hi,hk⟩ => exact ⟨hin hc,hi.later hl,hk⟩
    | .deleting,⟨hc,hi⟩ => exact ⟨hin hc,hi.later hl⟩
    | .flagging,⟨hc,hw⟩ | .locking,⟨hc,hw⟩ => exact ⟨hin hc,hw⟩
    | .checking _,⟨hc,ho,hv⟩ | .comparing _ _ _,⟨hc,ho,hv⟩ => exact ⟨hin hc,howner ho,hv⟩
    | .committed,⟨hc,ho,hv⟩ => exact ⟨hl.commits u hc,howner ho,hv⟩
    | .setting,⟨hc,hd,hv⟩ => exact ⟨hl.commits u hc,hd,hv⟩
    | .removing,⟨hc,hv⟩ | .done,⟨hc,hv⟩ => exact ⟨hl.commits u hc,hv⟩
    | .running,hc | .aborting,hc | .aborted,hc => exact hin hc

end

/-- A step of `t`: what it does to the row, what the others keep, and what `t` has afterwards. -/
theorem Inv.set {y : Txn tab.Col} (h : Inv sel s) (hrow : r.Ok) (hl : s.row.Later t r) (hy : y.Ok sel r t) : Inv sel (s.set t r y) :=
  ⟨hrow,(Function.forall_update_iff s.txn fun u z => z.Ok sel r u).mpr ⟨hy,fun u hu => (h.txn u).later hl hu⟩⟩

theorem Inv.move {y} (h : Inv sel s) (hy : y.Ok sel s.row t) : Inv sel (s.set t s.row y) :=
  h.set h.row (.refl t s.row) hy

/-- A step that only marks the row as deleted, or takes it out of the index. -/
theorem Inv.mark {deleted indexed y} (h : Inv sel s) (hidx : indexed = true → s.row.created = true)
    (hy : y.Ok sel s.row t) : Inv sel (s.set t { s.row with deleted := deleted, indexed := indexed } y) := by
  refine h.set ⟨h.row.fresh,hidx,h.row.valid,h.row.deleter⟩ ⟨fun _ _ => id,fun h => ⟨h,rfl⟩,fun _ => id,fun _ _ => id,fun _ _ => id⟩ ⟨?_,
    hy.pc⟩
  exact ⟨hy.items.ptr,hy.items.insert,hy.items.delete,hy.items.reads,hy.items.found,hy.items.deleter⟩

section
omit [DecidableEq T]

/-- A transaction that gets past `is_phantom` has a committed row, or its own. -/
theorem Row.Ok.inserted (h : r.Ok) (hx : x.Ok sel r t) (hfind : (x.ptr && !r.isPhantom x) = true) : r.Inserted t := by
  simp only [Row.isPhantom,Bool.and_eq_true,Bool.not_eq_true',Bool.and_eq_false_iff,Bool.not_eq_false'] at hfind
  obtain ⟨hptr,hvalid | hins⟩ := hfind
  · exact ⟨hx.ptr hptr,fun u hu => .inr (h.valid (hx.ptr hptr) hvalid u hu)⟩
  · obtain ⟨hc,hi⟩ := hx.insert hins
    exact ⟨hc,fun u hu => .inl (some.inj (hu.symm.trans hi))⟩

theorem ItemSet.mem_observe {k j v w} (h : (j,w) ∈ x.reads) : (j,w) ∈ (x.observe k v).reads := by
  rw [ItemSet.observe]
  split_ifs
  · exact h
  · exact mem_append_left _ h

theorem ItemSet.observe_self (x : ItemSet tab.Col) (k v : Nat) : ∃ w, (k,w) ∈ (x.observe k v).reads := by
  rw [ItemSet.observe]
  split_ifs with hk
  · obtain ⟨⟨j,w⟩,hm,hj⟩ := lookup_isSome_iff.mp hk
    obtain rfl : k = j := eq_of_beq hj
    exact ⟨w,hm⟩
  · exact ⟨v,mem_append_right _ (mem_singleton_self _)⟩

theorem ItemSet.Ok.observe (h : x.Ok sel r t) (hi : r.Inserted t) (k v : Nat) : (x.observe k v).Ok sel r t where
  ptr := h.ptr
  insert := h.insert
  delete := h.delete
  reads _ := hi
  found cols hm j hj := (h.found cols hm j hj).imp fun _ hw => ItemSet.mem_observe hw
  deleter := h.deleter

/-- The row is there for a transaction that finds cell 0 unlocked or holds its lock. -/
theorem Row.Ok.presentFor [DecidableEq T] (h : r.Ok) (hi : r.Inserted t) (hc : t ∉ r.commits)
    (ho : (r.vers 0).owner = none ∨ (r.vers 0).owner = some t) : r.presentFor t = true := by
  have hdel : r.deleter = none := by
    cases hd : r.deleter with
    | none => rfl
    | some u =>
      obtain ⟨hou,hcu⟩ := h.deleter u hd
      rcases ho with ho | ho
      · exact nomatch ho.symm.trans hou
      · exact absurd (some.inj (ho.symm.trans hou) ▸ hcu) hc
  rw [Row.presentFor,hdel,isNone_none,Bool.and_true]
  cases hins : r.inserter with
  | none => rfl
  | some u =>
    rw [Bool.or_eq_true,beq_iff_eq,contains_iff_mem]
    exact hi.2 u hins

theorem Row.setVers_vers (r : Row T) (v : Version T) : (r.setVers 0 v).vers 0 = v := by
  change Function.update r.vers 0 v 0 = v
  rw [Function.update_self]

/-- New versions of cell 0, whose insert has committed, that leave no foreign or deleting lock. -/
theorem Row.Ok.install (h : r.Ok) (hi : r.Inserted t) (hc : t ∈ r.commits) {v}
    (hv : ∀ u, r.deleter = some u → v.owner = some u) : (r.setVers 0 v).Ok := by
  refine ⟨fun hn => (nomatch hi.1.symm.trans hn),h.indexed,fun _ _ u hu => ?_,fun u hu => ⟨?_,(h.deleter u hu).2⟩⟩
  · exact (hi.2 u hu).elim (fun heq => heq ▸ hc) id
  · rw [Row.setVers_vers]
    exact hv u hu

/-- A lock taken or given back on cell 0 of a row that nobody has deleted. -/
theorem Row.Ok.setOwner (h : r.Ok) {o} (hc : r.created = true) (hd : ∀ u, r.deleter ≠ some u) :
    (r.setVers 0 { r.vers 0 with owner := o }).Ok := by
  refine ⟨fun hn => (nomatch hc.symm.trans hn),h.indexed,fun _ hinv => ?_,fun u hu => absurd hu (hd u)⟩
  rw [Row.setVers_vers] at hinv
  exact h.valid hc hinv

theorem ItemSet.Ok.setVers {v} (h : x.Ok sel r t) : x.Ok sel (r.setVers 0 v) t :=
  ⟨h.ptr,h.insert,h.delete,h.reads,h.found,h.deleter⟩

theorem Row.Later.setVers {v} (h : ∀ u, u ≠ t → (r.vers 0).owner = some u → v.owner = some u) : r.Later t (r.setVers 0 v) := by
  refine ⟨fun u hu ho => ?_,fun h => ⟨h,rfl⟩,fun _ => id,fun _ _ => id,fun _ _ => id⟩
  rw [Row.setVers_vers]
  exact h u hu ho

end

/-- The instant of a commit: the row counts the transaction, and its delete if it has one. -/
theorem Inv.committed (h : Inv sel s) (hx : x.Ok sel s.row t) (hw : x.write = true → (s.row.vers 0).owner = some t)
    (hv : ∀ v, (0,v) ∈ x.reads → p = true) :
    Inv sel (s.set t { s.row with commits := t :: s.row.commits, deleter := if x.deleteBit then some t else s.row.deleter }
      ⟨x,p,.committed⟩) := by
  have hdeleter {u : T} (hu : (if x.deleteBit then some t else s.row.deleter) = some u) :
      u = t ∧ x.deleteBit = true ∨ s.row.deleter = some u := by
    split_ifs at hu with hd
    · exact .inl ⟨(some.inj hu).symm,hd⟩
    · exact .inr hu
  refine h.set ⟨h.row.fresh,h.row.indexed,fun hcr hinv u hu => ?_,fun u hu => ?_⟩ ⟨fun _ _ => id,fun h => ⟨h,rfl⟩,?_,?_,?_⟩
    ⟨⟨hx.ptr,hx.insert,hx.delete,fun hr => ?_,hx.found,fun hd => ?_⟩,?_⟩
  · exact mem_cons_of_mem t (h.row.valid hcr hinv u hu)
  · rcases hdeleter hu with ⟨rfl,hd⟩ | hu
    · exact ⟨hw (hx.delete hd),mem_cons_self ..⟩
    · exact (h.row.deleter u hu).imp_right (mem_cons_of_mem t)
  · exact fun u => mem_cons_of_mem t
  · exact fun u hu hm => (mem_cons.mp hm).resolve_left hu
  · exact fun u hu hd => (hdeleter hd).resolve_left (fun heq => hu heq.1)
  · exact ⟨(hx.reads hr).1,fun u hu => ((hx.reads hr).2 u hu).imp_right (mem_cons_of_mem t)⟩
  · exact (hdeleter hd).elim And.right hx.deleter
  · exact ⟨mem_cons_self ..,hw,hv⟩

omit [DecidableEq T] in
theorem Inv.ok_of {y} (h : Inv sel s) (heq : s.txn t = y) : y.Ok sel s.row t := heq ▸ h.txn t

theorem Inv.selected {cols} (h : Inv sel s) (heq : s.txn t = ⟨x,p,.selecting [] cols⟩) :
    Inv sel (s.set t s.row ⟨{ x with found := cols :: x.found },p,.running⟩) := by
  obtain ⟨hx,hc,hi,hk⟩ := h.ok_of heq
  refine h.move ⟨⟨hx.ptr,hx.insert,hx.delete,hx.reads,fun cols' hm => ?_,hx.deleter⟩,hc⟩
  rcases mem_cons.mp hm with rfl | hm
  · exact fun k hm => (hk k hm).resolve_left not_mem_nil
  · exact hx.found cols' hm

theorem Inv.select {k v todo cols} (h : Inv sel s)
    (heq : s.txn t = ⟨x,p,.selecting (k :: todo) cols⟩) : Inv sel (s.set t s.row ⟨x.observe k v,p,.selecting todo cols⟩) := by
  obtain ⟨hx,hc,hi,hk⟩ := h.ok_of heq
  refine h.move ⟨hx.observe hi k _,hc,hi,fun j hj => ?_⟩
  rcases hk j hj with hm | ⟨v,hv⟩
  · rcases mem_cons.mp hm with rfl | hm
    · exact .inr (ItemSet.observe_self x j _)
    · exact .inl hm
  · exact .inr ⟨v,ItemSet.mem_observe hv⟩

theorem Inv.lock (h : Inv sel s) (heq : s.txn t = ⟨x,p,.locking⟩) (ho : (s.row.vers 0).owner = none) :
    Inv sel (s.set t (s.row.setVers 0 { s.row.vers 0 with owner := some t }) ⟨x,p,.checking x.reads⟩) := by
  obtain ⟨hx,hc,hw⟩ := h.ok_of heq
  have hd (u : T) (hu : s.row.deleter = some u) : False := nomatch ho.symm.trans (h.row.deleter u hu).1
  refine h.set (h.row.setOwner (hx.reads (.inr hw)).1 hd) (.setVers fun u _ hou => nomatch ho.symm.trans hou) ⟨hx.setVers,hc,?_,?_⟩
  · exact fun _ => congrArg Version.owner (Row.setVers_vers ..)
  · exact fun v hv => .inl hv

/-- A check that meets no foreign lock finds the row there. -/
theorem Inv.check {k v todo} (h : Inv sel s) (heq : s.txn t = ⟨x,p,.checking ((k,v) :: todo)⟩)
    (hlock : ¬((s.row.vers k).owner ≠ none ∧ ¬ (k = 0 ∧ x.write = true))) :
    Inv sel (s.set t s.row ⟨x,p || s.row.presentFor t,.comparing k v todo⟩) := by
  obtain ⟨hx,hc,hw,hv⟩ := h.ok_of heq
  refine h.move ⟨hx,hc,hw,fun w hm => ?_⟩
  rcases hv w hm with hmem | hp
  · rcases mem_cons.mp hmem with hkv | hmem
    · obtain ⟨rfl,rfl⟩ := Prod.mk.inj hkv
      refine .inr (Bool.or_eq_true_iff.mpr (.inr ?_))
      refine h.row.presentFor (hx.reads (.inl (ne_nil_of_mem hm))) hc ?_
      rw [not_and_or,not_not,not_not] at hlock
      exact hlock.imp_right fun hk => hw hk.2
    · exact .inl hmem
  · exact .inr (Bool.or_eq_true_iff.mpr (.inl hp))

theorem Inv.install (h : Inv sel s) (heq : s.txn t = ⟨x,p,.committed⟩) (hd : x.deleteBit ≠ true) :
    Inv sel (s.set t (if x.write then s.row.setVers 0 (s.row.vers 0).setVersionUnlock else s.row) ⟨x,p,.done⟩) := by
  obtain ⟨hx,hc,hw,hv⟩ := h.ok_of heq
  split_ifs with hwr
  · refine h.set (h.row.install (hx.reads (.inr hwr)) hc fun u hu => ?_) (.setVers fun u hu ho => ?_) ⟨hx.setVers,hc,hv⟩
    · obtain rfl := some.inj ((hw hwr).symm.trans (h.row.deleter u hu).1)
      exact absurd (hx.deleter hu) hd
    · exact absurd (some.inj (ho.symm.trans (hw hwr))) hu
  · exact h.move ⟨hx,hc,hv⟩

theorem Inv.abort (h : Inv sel s) (heq : s.txn t = ⟨x,p,.aborting⟩) : Inv sel (s.set t (if x.insertBit then { s.row with indexed := false }
      else if (s.row.vers 0).owner = some t then s.row.setVers 0 { s.row.vers 0 with owner := none } else s.row) ⟨x,p,.aborted⟩) := by
  obtain ⟨hx,hc⟩ := h.ok_of heq
  split_ifs with hins ho
  · exact h.mark nofun ⟨hx,hc⟩
  · have hcr : s.row.created = true := by
      rw [← Bool.not_eq_false]
      exact fun hn => nomatch (h.row.fresh hn).1.symm.trans ho
    have hd (u : T) (hu : s.row.deleter = some u) : False := by
      obtain ⟨hou,hcu⟩ := h.row.deleter u hu
      exact hc (some.inj (ho.symm.trans hou) ▸ hcu)
    refine h.set (h.row.setOwner hcr hd) (.setVers fun u hu hou => ?_) ⟨hx.setVers,hc⟩
    exact absurd (some.inj (hou.symm.trans ho)) hu
  · exact h.move ⟨hx,hc⟩

theorem Inv.go (h : Inv sel s) (hnext : s.go t = some s') : Inv sel s' := by
  simp only [State.go] at hnext
  split at hnext
  case h_1 heq => exact some.inj hnext ▸ h.selected heq
  case h_2 heq => exact some.inj (ite_none_right_eq_some.mp hnext).2 ▸ h.select heq
  case h_3 x p heq =>
    obtain ⟨hx,hc,hi⟩ := h.ok_of heq
    have hobs := hx.observe hi 0 (s.row.vers 0).version
    refine some.inj (ite_none_right_eq_some.mp hnext).2 ▸ h.move ⟨?_,hc,rfl⟩
    exact ⟨hobs.ptr,hobs.insert,fun _ => rfl,fun _ => hi,hobs.found,hobs.deleter⟩
  case h_4 x p heq =>
    obtain ⟨hx,hc,hw⟩ := h.ok_of heq
    refine some.inj (ite_none_left_eq_some.mp hnext).2 ▸ h.move ⟨?_,hc⟩
    exact ⟨hx.ptr,hx.insert,fun _ => hw,hx.reads,hx.found,fun _ => rfl⟩
  case h_5 heq =>
    obtain ⟨ho,rfl⟩ := ite_some_none_eq_some.mp hnext
    exact h.lock heq ho
  case h_6 heq =>
    obtain ⟨hlock,hnext⟩ := ite_none_left_eq_some.mp hnext
    exact some.inj hnext ▸ h.check heq hlock
  case h_7 heq =>
    obtain ⟨hx,hpc⟩ := h.ok_of heq
    exact some.inj (ite_none_right_eq_some.mp hnext).2 ▸ h.move ⟨hx,hpc⟩
  case h_8 heq =>
    obtain ⟨hx,hc,hw,hv⟩ := h.ok_of heq
    exact some.inj hnext ▸ h.committed hx hw fun v hm => (hv v hm).resolve_left not_mem_nil
  case h_9 heq =>
    rcases ite_eq_iff.mp hnext with ⟨hd,hnext⟩ | ⟨hd,hnext⟩
    · obtain ⟨hx,hc,hw,hv⟩ := h.ok_of heq
      exact some.inj hnext ▸ h.mark h.row.indexed ⟨hx,hc,hd,hv⟩
    · exact some.inj hnext ▸ h.install heq hd
  case h_10 heq =>
    obtain ⟨hx,hc,hd,hv⟩ := h.ok_of heq
    exact some.inj hnext ▸ h.set (h.row.install (hx.reads (.inr (hx.delete hd))) hc fun u hu => (h.row.deleter u hu).1)
      (.setVers fun _ _ => id) ⟨hx.setVers,hc,hv⟩
  case h_11 heq =>
    obtain ⟨hx,hpc⟩ := h.ok_of heq
    exact some.inj hnext ▸ h.mark nofun ⟨hx,hpc⟩
  case h_12 heq => exact some.inj hnext ▸ h.abort heq
  case h_13 => cases hnext

/-- An insert puts an invalid row where there was none. -/
theorem Inv.insert (h : Inv sel s) (hsel : ∀ v, construct v 0 = v) (heq : s.txn t = ⟨x,p,.running⟩) (hn : s.row.created = false) :
    Inv sel (s.set t { s.row with vers := construct (.initialized true), created := true, indexed := true, inserter := some t }
      ⟨{ x with insertBit := true, write := true },p,.running⟩) := by
  obtain ⟨hx,hpc⟩ := h.txn t
  rw [heq] at hx hpc
  have hd (u : T) (hu : s.row.deleter = some u) : False := nomatch (h.row.fresh hn).1.symm.trans (h.row.deleter u hu).1
  refine h.set ⟨nofun,fun _ => rfl,fun _ hinv => ?_,fun u hu => (hd u hu).elim⟩
    ⟨fun u _ ho => (nomatch (h.row.fresh hn).1.symm.trans ho),fun hc => (nomatch hn.symm.trans hc),fun _ => id,fun _ _ => id,fun _ _ => id⟩
    ⟨⟨fun _ => rfl,fun _ => ⟨rfl,rfl⟩,fun _ => rfl,fun _ => ⟨rfl,fun u hu => .inl (some.inj hu).symm⟩,hx.found,fun hu => (hd t hu).elim⟩,
      hpc⟩
  change (construct (.initialized true) 0).invalidBit = false at hinv
  rw [hsel] at hinv
  cases hinv

theorem Inv.next {a} (h : Inv sel s) (hsel : ∀ v, construct v 0 = v) (hnext : s.next sel construct (t,a) = some s') : Inv sel s' := by
  obtain ⟨hx,hpc⟩ := h.txn t
  cases a with
  | go => exact h.go hnext
  | insert =>
    simp only [State.next] at hnext
    split at hnext
    · rename_i x p heq
      obtain ⟨hn,hnext⟩ := ite_none_left_eq_some.mp hnext
      exact some.inj hnext ▸ h.insert hsel heq (Bool.eq_false_of_not_eq_true hn)
    · cases hnext
  | find =>
    simp only [State.next] at hnext
    split at hnext
    · rename_i x p heq
      obtain ⟨hidx,hnext⟩ := ite_none_right_eq_some.mp hnext
      rw [heq] at hx hpc
      exact some.inj hnext ▸ h.move ⟨⟨fun _ => h.row.indexed hidx,hx.insert,hx.delete,hx.reads,hx.found,hx.deleter⟩,hpc⟩
    · cases hnext
  | select cols =>
    simp only [State.next] at hnext
    split at hnext
    · rename_i x p heq
      obtain ⟨hfind,hnext⟩ := ite_none_right_eq_some.mp hnext
      rw [heq] at hx hpc
      exact some.inj hnext ▸ h.move ⟨hx,hpc,h.row.inserted hx hfind,fun k hk => .inl hk⟩
    · cases hnext
  | delete =>
    simp only [State.next] at hnext
    split at hnext
    · rename_i x p heq
      obtain ⟨hfind,hnext⟩ := ite_none_right_eq_some.mp hnext
      rw [heq] at hx hpc
      exact some.inj hnext ▸ h.move ⟨hx,hpc,h.row.inserted hx hfind⟩
    · cases hnext
  | overwrite =>
    simp only [State.next] at hnext
    split at hnext
    · rename_i x p heq
      obtain ⟨hfind,hnext⟩ := ite_none_right_eq_some.mp hnext
      rw [heq] at hx hpc
      exact some.inj hnext ▸ h.move
        ⟨⟨hx.ptr,hx.insert,fun _ => rfl,fun _ => h.row.inserted hx hfind,hx.found,hx.deleter⟩,hpc⟩
    · cases hnext
  | commit =>
    simp only [State.next] at hnext
    split at hnext
    · rename_i x p heq
      rw [heq] at hx hpc
      refine some.inj hnext ▸ h.move ⟨hx,?_⟩
      change PcOk sel s.row t x p (if x.write = true then .locking else .checking x.reads)
      split_ifs with hw
      · exact ⟨hpc,hw⟩
      · exact ⟨hpc,fun hw' => absurd hw' hw,fun v hv => .inl hv⟩
    · cases hnext
  | abort =>
    simp only [State.next] at hnext
    split at hnext
    case h_8 => cases hnext
    case h_1 heq =>
      rw [heq] at hx hpc
      exact some.inj hnext ▸ h.move ⟨hx,hpc⟩
    all_goals
      rename_i heq
      rw [heq] at hx hpc
      exact some.inj hnext ▸ h.move ⟨hx,hpc.1⟩

end Steps

theorem inv_start {sel : VerSel tab.Col} {construct : Construct T} (prepopulated : Bool) :
    Inv sel (row T sel construct prepopulated).start := by
  refine ⟨⟨fun hn => ?_,?_,fun _ _ _ => nofun,fun _ => nofun⟩,fun t => ⟨⟨nofun,nofun,nofun,fun hr => ?_,nofun,nofun⟩,not_mem_nil⟩⟩
  · obtain rfl : prepopulated = false := hn
    exact ⟨rfl,rfl⟩
  · exact id
  · rcases hr with hr | hr
    · exact absurd rfl hr
    · cases hr

/-- In a table whose selector keeps the version of a new row in cell 0, a transaction that commits
having found a row by a column of cell 0 had it there at its validation. -/
theorem found_row_present {sel : VerSel tab.Col} {construct : Construct T} {prepopulated : Bool} {s : State T tab.Col}
    (hsel : ∀ v, construct v 0 = v) (h : (row T sel construct prepopulated).Reachable s) {t : T} (hc : t ∈ s.row.commits)
    {cols : List tab.Col} (hfound : cols ∈ (s.txn t).items.found) (hcell : 0 ∈ readCells sel cols) : (s.txn t).present = true := by
  have hinv : Inv sel s := h.ofNext_invariant (inv_start prepopulated) fun s a s' hI hnext => hI.next hsel hnext
  obtain ⟨hx,hpc⟩ := hinv.txn t
  obtain ⟨v,hv⟩ := hx.found cols hfound 0 hcell
  generalize (s.txn t).pc = pc at hpc
  match pc,hpc with
  | .committed,hpc => exact hpc.2.2 v hv
  | .setting,hpc => exact hpc.2.2 v hv
  | .removing,hpc | .done,hpc => exact hpc.2 v hv
  | .selecting _ _,hpc | .deleting,hpc | .flagging,hpc | .locking,hpc | .checking _,hpc | .comparing _ _ _,hpc => exact absurd hc hpc.1
  | .running,hpc | .aborting,hpc | .aborted,hpc => exact absurd hc hpc

end

abbrev warehouseRow (prepopulated : Bool) : Machine (State (Fin 2) warehouseValue.Col) (Fin 2 × Act warehouseValue.Col) :=
  row (Fin 2) warehouseSel (splitVersions .warehouse) prepopulated

abbrev orderRow : Machine (State (Fin 2) orderValue.Col) (Fin 2 × Act orderValue.Col) :=
  row (Fin 2) orderSel (splitVersions .order) false

/-- A warehouse is inserted; another transaction then finds it by its year-to-date amount. -/
def insertedRun {T : Type} (t u : T) : List (T × Act WarehouseColumn) :=
  [(t,.insert),(t,.commit),(t,.go),(t,.go),(t,.go),
    (u,.find),(u,.select [.wName,.wYtd]),(u,.go),(u,.go),(u,.go),(u,.commit),(u,.go),(u,.go),(u,.go),(u,.go),(u,.go)]

theorem found_row_present_inserted :
    let s := (warehouseRow false).play (warehouseRow false).start (insertedRun 0 1)
    s.row.commits = [1,0] ∧ (s.txn 1).present = true := by
  have hreach := Machine.Reachable.play .start (insertedRun 0 1)
    (show (warehouseRow false).playable (warehouseRow false).start (insertedRun 0 1) = true by decide +kernel)
  have hfound : [WarehouseColumn.wName,WarehouseColumn.wYtd] ∈
      (((warehouseRow false).play (warehouseRow false).start (insertedRun 0 1)).txn 1).items.found := by
    decide +kernel
  exact ⟨by decide +kernel,found_row_present (fun _ => rfl) hreach (by decide +kernel) hfound (by decide +kernel)⟩

/-- An order is found and read by one transaction before the one that inserts it has committed. -/
def uncommittedRun {T : Type} (t u : T) : List (T × Act OrderColumn) :=
  [(t,.insert),(u,.find),(u,.select [.oCId,.oEntryD]),(u,.go),(u,.go),(u,.go),(u,.commit),(u,.go),(u,.go),(u,.go),(u,.go),(u,.go),
    (t,.abort),(t,.go)]

/-- A warehouse is found, another transaction deletes it and commits, and it is read by its name. -/
def deletedRun {T : Type} (t u : T) : List (T × Act WarehouseColumn) :=
  [(u,.find),(t,.find),(t,.delete),(t,.go),(t,.go),(t,.commit),(t,.go),(t,.go),(t,.go),(t,.go),(t,.go),(t,.go),(t,.go),
    (u,.select [.wName]),(u,.go),(u,.go),(u,.commit),(u,.go),(u,.go),(u,.go)]

theorem absent_rows_found :
    (let s := orderRow.play orderRow.start (uncommittedRun 0 1)
     orderRow.Reachable s ∧ s.row.commits = [1] ∧ s.row.inserter = some 0 ∧
        (s.txn 1).items.found = [[OrderColumn.oCId,OrderColumn.oEntryD]] ∧ (s.txn 1).present = false) ∧
    (let s := (warehouseRow true).play (warehouseRow true).start (deletedRun 0 1);
     (warehouseRow true).Reachable s ∧ s.row.commits = [1,0] ∧ s.row.deleter = some 0 ∧
        (s.txn 1).items.found = [[WarehouseColumn.wName]] ∧ (s.txn 1).present = false) :=
  ⟨⟨Machine.Reachable.play .start (uncommittedRun 0 1) (by decide +kernel),by decide +kernel,by decide +kernel,by decide +kernel,
    by decide +kernel⟩,
    ⟨Machine.Reachable.play .start (deletedRun 0 1) (by decide +kernel),by decide +kernel,by decide +kernel,by decide +kernel,
      by decide +kernel⟩⟩

end AlNiCo.Sto.RowPresence
