import AlNiCo.Library.Machine
import AlNiCo.Library.VersionedLog

/-! The buckets of `unordered_index` under optimistic control. A key that is not found
is protected by the version of its bucket, which every insert moves; a transaction that
inserts into a bucket it has observed moves its own observation along. The version of a bucket is
assumed never to wrap around. -/
namespace AlNiCo.Sto.HashIndex
open Library VersionedLog Function List Option

structure Config (K B : Type) where
  findBucketIdx : K → B
  rdMyWr : Bool
  /-- The selector keeps the version of a new row, with its invalid bit. -/
  keepsVersion : Bool
  /-- The buckets have `TVersion` and not `TNonopaqueVersion`. -/
  opacity : Bool

structure Elem (K : Type) where
  key : K
  valid : Bool
  deleted : Bool

structure Bucket (T : Type) where
  /-- The list from `head` on. -/
  elems : List Nat
  version : Nat
  lock : Option T

structure Copy (T : Type) where
  version : Nat
  lock : Option T

structure RowItem where
  write : Bool
  insertBit : Bool
  deleteBit : Bool

inductive Op
  | select (write : Bool)
  | delete

inductive Caller (T B : Type)
  | deleteRow (b : B) (buckVers : Copy T)
  | cleanup (committed : Bool) (todo : List Nat)

/-- How far a transaction is. The position in the log is where the version was loaded. -/
inductive Pc (T K B : Type)
  | running
  | loaded (op : Op) (k : K) (buckVers : Copy T) (since : Nat)
  | missing (k : K) (buckVers : Copy T) (since : Nat)
  | found (op : Op) (k : K) (buckVers : Copy T) (e : Nat)
  | locked (k : K) (overwrite : Bool)
  | insertFound (e : Nat) (overwrite : Bool)
  | insertMissing (k : K)
  | pushed (k : K) (e buckVers0 : Nat)
  | incremented (k : K) (e buckVers0 buckVers1 : Nat)
  | unlocked (k : K) (e buckVers0 buckVers1 : Nat)
  | removing (e : Nat) (caller : Caller T B)
  | removeLocked (b : B) (e : Nat) (caller : Caller T B)
  | removeUnlinked (b : B) (e : Nat) (caller : Caller T B)
  | checking (todo : List B)
  | comparing (b : B) (pos : Nat) (todo : List B)
  | installing (todo : List Nat)
  | cleanup (committed : Bool) (todo : List Nat)
  | stopped (committed : Bool)

structure Txn (T K B : Type) where
  /-- The bucket items, with what was read. -/
  bucketItems : List B
  recorded : B → Option Nat
  rows : List (Nat × RowItem)
  anyWrites : Bool
  pc : Pc T K B
  /-- The keys that were not found, with the position in the log. -/
  absent : List (K × Nat)
  /-- The buckets that passed the check of the commit, with the position in the log. -/
  checked : List (B × Nat)

/-- The log has all rows that were put into a list, and by whom. -/
structure State (T K B : Type) where
  elem : Nat → Elem K
  fresh : Nat
  bucket : B → Bucket T
  log : List (T × K)
  txn : T → Txn T K B

inductive Act (K : Type)
  | select (k : K) (write : Bool)
  | delete (k : K)
  | insert (k : K) (overwrite : Bool)
  | commit
  | abort
  | go

section
variable {T K B : Type}

def Txn.row (x : Txn T K B) (e : Nat) : RowItem := (x.rows.lookup e).getD ⟨false,false,false⟩

def Txn.setRow (x : Txn T K B) (e : Nat) (item : RowItem) : Txn T K B :=
  { x with
    rows := if (x.rows.lookup e).isSome then x.rows.map (fun r => if r.1 = e then (e,item) else r) else x.rows ++ [(e,item)]
    anyWrites := x.anyWrites || item.write }

/-- `stop(false)`: what the transaction has inserted is removed. -/
def Txn.abort (x : Txn T K B) : Txn T K B :=
  { x with pc := .cleanup false ((x.rows.filter (fun r => r.2.write && r.2.insertBit)).map Prod.fst) }

variable [DecidableEq B]

/-- `observe` keeps the first read. -/
def Txn.observe (x : Txn T K B) (b : B) (v : Nat) : Txn T K B :=
  match x.recorded b with
  | some _ => x
  | none => { x with recorded := update x.recorded b (some v), bucketItems := x.bucketItems ++ [b] }

def Txn.updateRead (x : Txn T K B) (b : B) (old new : Nat) : Txn T K B :=
  if x.recorded b = some old then { x with recorded := update x.recorded b (some new) } else x

end

section Steps
variable {T K B : Type} [DecidableEq T] [DecidableEq K] [DecidableEq B] (cfg : Config K B)

def Copy.isLocked (c : Copy T) (t : T) : Bool :=
  match c.lock with
  | none => false
  | some u => !(cfg.opacity && u == t)

namespace State
variable (s : State T K B)

def findInBucket (k : K) : Option Nat :=
  (s.bucket (cfg.findBucketIdx k)).elems.find? (fun e => (s.elem e).key == k)

def isPhantom (x : Txn T K B) (e : Nat) : Bool := !(s.elem e).valid && !(x.row e).insertBit

def setTxn (t : T) (x : Txn T K B) : State T K B := { s with txn := update s.txn t x }

def setBucket (b : B) (buck : Bucket T) : State T K B := { s with bucket := update s.bucket b buck }

def setElem (e : Nat) (x : Elem K) : State T K B := { s with elem := update s.elem e x }

/-- The version is loaded before the list is read. -/
def load (t : T) (op : Op) (k : K) : State T K B :=
  let buck := s.bucket (cfg.findBucketIdx k)
  s.setTxn t { s.txn t with pc := .loaded op k ⟨buck.version,buck.lock⟩ s.log.length }

def deleteFound (t : T) (k : K) (buckVers : Copy T) (e : Nat) : State T K B :=
  let x := s.txn t
  let item := x.row e
  if s.isPhantom x e then s.setTxn t x.abort
  else if cfg.rdMyWr && (!(s.elem e).valid && item.insertBit) then
    s.setTxn t { x with pc := .removing e (.deleteRow (cfg.findBucketIdx k) buckVers) }
  else if cfg.rdMyWr && item.deleteBit then s.setTxn t { x with pc := .running }
  else if (s.elem e).deleted then s.setTxn t x.abort
  else s.setTxn t { x.setRow e { item with write := true, deleteBit := true } with pc := .running }

def selectFound (t : T) (write : Bool) (e : Nat) : State T K B :=
  let x := s.txn t
  let item := x.row e
  if s.isPhantom x e then s.setTxn t x.abort
  else if cfg.rdMyWr && item.deleteBit then s.setTxn t { x with pc := .running }
  else s.setTxn t { x.setRow e { item with write := item.write || write } with pc := .running }

def overwriteFound (t : T) (overwrite : Bool) (e : Nat) : State T K B :=
  let x := s.txn t
  let item := x.row e
  if s.isPhantom x e then s.setTxn t x.abort
  else if cfg.rdMyWr && item.deleteBit then s.setTxn t { x.setRow e { item with deleteBit := false, write := true } with pc := .running }
  else s.setTxn t { x.setRow e { item with write := item.write || overwrite } with pc := .running }

def install (t : T) (e : Nat) : State T K B :=
  let el := s.elem e
  s.setElem e { el with valid := true, deleted := el.deleted || ((s.txn t).row e).deleteBit }

def removed (t : T) (e : Nat) : Caller T B → State T K B
  | .deleteRow b buckVers =>
    let x := (s.txn t).setRow e ⟨false,false,false⟩
    -- The result of this observation is not looked at.
    let x := if buckVers.isLocked cfg t then x else x.observe b buckVers.version
    s.setTxn t { x with pc := .running }
  | .cleanup committed todo => s.setTxn t { s.txn t with pc := .cleanup committed todo }

def go (t : T) : Option (State T K B) :=
  let x := s.txn t
  match x.pc with
  | .loaded op k buckVers since =>
    some (s.setTxn t { x with pc := match s.findInBucket cfg k with
      | some e => .found op k buckVers e
      | none => .missing k buckVers since })
  | .missing k buckVers since =>
    if buckVers.isLocked cfg t then some (s.setTxn t x.abort)
    else some (s.setTxn t { x.observe (cfg.findBucketIdx k) buckVers.version with absent := (k,since) :: x.absent, pc := .running })
  | .found (.select write) _ _ e => some (s.selectFound cfg t write e)
  | .found .delete k buckVers e => some (s.deleteFound cfg t k buckVers e)
  | .locked k overwrite =>
    let b := cfg.findBucketIdx k
    match s.findInBucket cfg k with
    | some e => some ((s.setBucket b { s.bucket b with lock := none }).setTxn t { x with pc := .insertFound e overwrite })
    | none => some (s.setTxn t { x with pc := .insertMissing k })
  | .insertFound e overwrite => some (s.overwriteFound cfg t overwrite e)
  | .insertMissing k =>
    let b := cfg.findBucketIdx k
    let buck := s.bucket b
    let s' := (s.setElem s.fresh ⟨k,!cfg.keepsVersion,false⟩).setBucket b { buck with elems := s.fresh :: buck.elems }
    some ({ s' with fresh := s.fresh+1, log := s.log ++ [(t,k)] }.setTxn t { x with pc := .pushed k s.fresh buck.version })
  | .pushed k e buckVers0 =>
    let b := cfg.findBucketIdx k
    let buck := s.bucket b
    some ((s.setBucket b { buck with version := buck.version+1 }).setTxn t { x with pc := .incremented k e buckVers0 (buck.version+1) })
  | .incremented k e buckVers0 buckVers1 =>
    let b := cfg.findBucketIdx k
    some ((s.setBucket b { s.bucket b with lock := none }).setTxn t { x with pc := .unlocked k e buckVers0 buckVers1 })
  | .unlocked k e buckVers0 buckVers1 =>
    let x := x.updateRead (cfg.findBucketIdx k) buckVers0 buckVers1
    some (s.setTxn t { x.setRow e { x.row e with write := true, insertBit := true } with pc := .running })
  | .removing e caller =>
    let b := cfg.findBucketIdx (s.elem e).key
    if (s.bucket b).lock = none then
      some ((s.setBucket b { s.bucket b with lock := some t }).setTxn t { x with pc := .removeLocked b e caller })
    else none
  | .removeLocked b e caller =>
    let buck := s.bucket b
    some ((s.setBucket b { buck with elems := buck.elems.erase e }).setTxn t { x with pc := .removeUnlinked b e caller })
  | .removeUnlinked b e caller => some ((s.setBucket b { s.bucket b with lock := none }).removed cfg t e caller)
  | .checking [] => some (s.setTxn t { x with pc := .installing ((x.rows.filter (fun r => r.2.write)).map Prod.fst) })
  | .checking (b :: todo) =>
    -- A bucket item is never written, so a lock on the bucket is somebody else's.
    if (s.bucket b).lock = none then some (s.setTxn t { x with pc := .comparing b s.log.length todo })
    else some (s.setTxn t x.abort)
  | .comparing b pos todo =>
    if x.recorded b = some (s.bucket b).version then
      some (s.setTxn t { x with checked := (b,pos) :: x.checked, pc := .checking todo })
    else some (s.setTxn t x.abort)
  | .installing [] =>
    some (s.setTxn t { x with pc := .cleanup true ((x.rows.filter (fun r => r.2.write && r.2.deleteBit)).map Prod.fst) })
  | .installing (e :: todo) => some ((s.install t e).setTxn t { x with pc := .installing todo })
  | .cleanup committed [] => some (s.setTxn t { x with pc := .stopped committed })
  | .cleanup committed (e :: todo) => some (s.setTxn t { x with pc := .removing e (.cleanup committed todo) })
  | .running | .stopped _ => none

/-- Where a transaction may abort for something else than its buckets: its program, the
locks and versions of its rows, the check of opacity. -/
def mayAbort : Pc T K B → Bool
  | .running | .missing .. | .found .. | .insertFound .. | .checking _ => true
  | _ => false

def call (t : T) : Act K → Option (State T K B)
  | .select k write => some (s.load cfg t (.select write) k)
  | .delete k => some (s.load cfg t .delete k)
  | .insert k overwrite =>
    let b := cfg.findBucketIdx k
    if (s.bucket b).lock = none then
      some ((s.setBucket b { s.bucket b with lock := some t }).setTxn t { s.txn t with pc := .locked k overwrite })
    else none
  | .commit =>
    -- With opacity a transaction that has written nothing is not checked.
    if cfg.opacity && !(s.txn t).anyWrites then some (s.setTxn t { s.txn t with pc := .cleanup true [] })
    else some (s.setTxn t { s.txn t with pc := .checking (s.txn t).bucketItems })
  | .abort | .go => none

def isRunning : Pc T K B → Bool
  | .running => true
  | _ => false

def next (s : State T K B) : T × Act K → Option (State T K B)
  | (t,.go) => s.go cfg t
  | (t,.abort) => if mayAbort (s.txn t).pc then some (s.setTxn t (s.txn t).abort) else none
  | (t,a) => if isRunning (s.txn t).pc then s.call cfg t a else none

end State

def Txn.begin : Txn T K B := ⟨[],fun _ => none,[],false,.running,[],[]⟩

/-- An index that was filled before: its elements, and the version of each bucket. -/
structure Filled (K B : Type) where
  elem : Nat → Elem K
  fresh : Nat
  elems : B → List Nat
  version : B → Nat

def index (init : Filled K B) : Machine (State T K B) (T × Act K) :=
  .ofNext ⟨init.elem,init.fresh,fun b => ⟨init.elems b,init.version b,none⟩,[],fun _ => .begin⟩ (State.next cfg)

end Steps

section Invariant
variable {T K B : Type} [DecidableEq B] (cfg : Config K B) (init : Filled K B)

def inBucket (b : B) (a : T × K) : Bool := cfg.findBucketIdx a.2 == b

def total (s : State T K B) (b : B) : Nat := version (init.version b) (inBucket cfg b) s.log

/-- The rows put into the bucket from a position on, as far as a version counts them, are `t`'s. -/
abbrev OwnUpTo (s : State T K B) (t : T) (b : B) (n v : Nat) : Prop :=
  UpTo (init.version b) (inBucket cfg b) (fun a => a.1 = t) s.log n v

/-- Whether the commit, or the end without one, is still to come. -/
def Pc.calling : Pc T K B → Bool
  | .checking _ | .comparing .. | .installing _ | .cleanup .. | .stopped _ => false
  | .removing _ (.cleanup ..) | .removeLocked _ _ (.cleanup ..) | .removeUnlinked _ _ (.cleanup ..) => false
  | _ => true

structure ItemsOk (s : State T K B) (t : T) (x : Txn T K B) : Prop where
  recorded_le : ∀ b v, x.recorded b = some v → v ≤ (s.bucket b).version
  item_mem : ∀ b v, x.recorded b = some v → b ∈ x.bucketItems
  absent : ∀ k n, (k,n) ∈ x.absent → ∃ v, x.recorded (cfg.findBucketIdx k) = some v ∧
    OwnUpTo cfg init s t (cfg.findBucketIdx k) n v
  checked : ∀ b m, (b,m) ∈ x.checked → m ≤ s.log.length ∧ ∀ k n, (k,n) ∈ x.absent → cfg.findBucketIdx k = b →
    ∀ i a, s.log[i]? = some a → inBucket cfg b a = true → n ≤ i → i < m → a.1 = t
  calling : x.pc.calling = true → x.checked = []

/-- A copy of the version of a bucket from a position on, with no newer read of it. -/
structure Loaded (s : State T K B) (x : Txn T K B) (b : B) (buckVers since : Nat) : Prop where
  since_le : since ≤ s.log.length
  le_versionAt : buckVers ≤ versionAt (init.version b) (inBucket cfg b) s.log since
  le_version : buckVers ≤ (s.bucket b).version
  recorded_le : ∀ v, x.recorded b = some v → v ≤ buckVers

/-- The row that was put into the bucket at a version is `t`'s. -/
structure OwnAt (s : State T K B) (t : T) (b : B) (v : Nat) : Prop where
  lt_total : v < total cfg init s b
  own : ∀ i a, s.log[i]? = some a → inBucket cfg b a = true → versionAt (init.version b) (inBucket cfg b) s.log i = v → a.1 = t

/-- Every bucket that was read is checked, or nothing has to be. -/
def AllChecked (x : Txn T K B) : Prop :=
  (∀ b ∈ x.bucketItems, ∃ m, (b,m) ∈ x.checked) ∨ cfg.opacity = true ∧ x.anyWrites = false

def CallerOk (s : State T K B) (x : Txn T K B) : Caller T B → Prop
  | .deleteRow b buckVers => buckVers.version ≤ (s.bucket b).version
  | .cleanup committed _ => committed = true → AllChecked cfg x

def PcOk (s : State T K B) (t : T) (x : Txn T K B) : Pc T K B → Prop
  | .loaded _ k buckVers since | .missing k buckVers since => Loaded cfg init s x (cfg.findBucketIdx k) buckVers.version since
  | .found _ k buckVers _ => buckVers.version ≤ (s.bucket (cfg.findBucketIdx k)).version
  | .locked k _ | .insertMissing k => (s.bucket (cfg.findBucketIdx k)).lock = some t
  | .pushed k _ v => (s.bucket (cfg.findBucketIdx k)).lock = some t ∧ (s.bucket (cfg.findBucketIdx k)).version = v ∧
    OwnAt cfg init s t (cfg.findBucketIdx k) v
  | .incremented k _ v v' => (s.bucket (cfg.findBucketIdx k)).lock = some t ∧ v' = v+1 ∧
    v' ≤ (s.bucket (cfg.findBucketIdx k)).version ∧ OwnAt cfg init s t (cfg.findBucketIdx k) v
  | .unlocked k _ v v' => v' = v+1 ∧ v' ≤ (s.bucket (cfg.findBucketIdx k)).version ∧ OwnAt cfg init s t (cfg.findBucketIdx k) v
  | .removing _ caller => CallerOk cfg s x caller
  | .removeLocked b _ caller | .removeUnlinked b _ caller => (s.bucket b).lock = some t ∧ CallerOk cfg s x caller
  | .checking todo => ∀ b ∈ x.bucketItems, b ∈ todo ∨ ∃ m, (b,m) ∈ x.checked
  | .comparing b m todo => m ≤ s.log.length ∧ versionAt (init.version b) (inBucket cfg b) s.log m ≤ (s.bucket b).version ∧
    ∀ b' ∈ x.bucketItems, b' ∈ b :: todo ∨ ∃ m, (b',m) ∈ x.checked
  | .installing _ => AllChecked cfg x
  | .cleanup committed _ | .stopped committed => committed = true → AllChecked cfg x
  | .running | .insertFound .. => True

/-- A row that is in the list of a bucket while its version is still to be moved. -/
def Pc.pending (b : B) : Pc T K B → Nat
  | .pushed k _ _ => if cfg.findBucketIdx k = b then 1 else 0
  | _ => 0

def State.pending (s : State T K B) (b : B) : Nat :=
  match (s.bucket b).lock with
  | none => 0
  | some t => (s.txn t).pc.pending cfg b

structure Inv (s : State T K B) : Prop where
  version : ∀ b, (s.bucket b).version+s.pending cfg b = total cfg init s b
  items : ∀ t, ItemsOk cfg init s t (s.txn t)
  pc : ∀ t, PcOk cfg init s t (s.txn t) (s.txn t).pc

structure Ext (s s' : State T K B) (u : T) : Prop where
  log : ∃ l, s'.log = s.log ++ l
  version_le : ∀ b, (s.bucket b).version ≤ (s'.bucket b).version
  locked : ∀ b, (s.bucket b).lock = some u → (s'.bucket b).lock = some u ∧ (s'.bucket b).version = (s.bucket b).version

variable {cfg init} {s s' : State T K B} {t u : T} {x : Txn T K B}

private theorem version_le_total (h : Inv cfg init s) (b : B) : (s.bucket b).version ≤ total cfg init s b := by
  rw [← h.version b]
  exact Nat.le_add_right _ _

omit [DecidableEq B] in
private theorem getElem?_of_append {l l' : List (T × K)} {i n : Nat} {a : T × K} (hget : (l ++ l')[i]? = some a)
    (hi : i < n) (hn : n ≤ l.length) : l[i]? = some a := by
  rwa [getElem?_append_left (Nat.lt_of_lt_of_le hi hn)] at hget

private theorem ItemsOk.ext (hinv : Inv cfg init s) (h : ItemsOk cfg init s t x) (hlog : ∃ l, s'.log = s.log ++ l)
    (hversion : ∀ b, (s.bucket b).version ≤ (s'.bucket b).version) : ItemsOk cfg init s' t x := by
  obtain ⟨l,hl⟩ := hlog
  refine ⟨fun b v hv => (h.recorded_le b v hv).trans (hversion b),h.item_mem,?_,?_,h.calling⟩
  · intro k n hk
    obtain ⟨v,hv,hown⟩ := h.absent k n hk
    refine ⟨v,hv,?_⟩
    rw [OwnUpTo,hl]
    exact hown.append ((h.recorded_le _ v hv).trans (version_le_total hinv _)) l
  · intro b m hm
    obtain ⟨hle,hown⟩ := h.checked b m hm
    rw [hl]
    refine ⟨hle.trans (by rw [length_append]; exact Nat.le_add_right _ _),?_⟩
    intro k n hk hb i a hget hp hn hi
    exact hown k n hk hb i a (getElem?_of_append hget hi hle) hp hn hi

private theorem Loaded.ext {b v since} (h : Loaded cfg init s x b v since) (hlog : ∃ l, s'.log = s.log ++ l)
    (hversion : (s.bucket b).version ≤ (s'.bucket b).version) : Loaded cfg init s' x b v since := by
  obtain ⟨l,hl⟩ := hlog
  refine ⟨?_,?_,h.le_version.trans hversion,h.recorded_le⟩
  · rw [hl,length_append]
    exact h.since_le.trans (Nat.le_add_right _ _)
  · rw [hl,versionAt_append h.since_le]
    exact h.le_versionAt

private theorem OwnAt.ext {b v} (h : OwnAt cfg init s t b v) (hlog : ∃ l, s'.log = s.log ++ l) : OwnAt cfg init s' t b v := by
  obtain ⟨l,hl⟩ := hlog
  constructor
  · rw [total,hl,version,countP_append,← Nat.add_assoc]
    exact Nat.lt_of_lt_of_le h.lt_total (Nat.le_add_right _ _)
  · intro i a hget hp hat
    rw [hl] at hget hat
    -- An entry that is appended now has a later version.
    rcases Nat.lt_or_ge i s.log.length with hi | hi
    · rw [getElem?_append_left hi] at hget
      rw [versionAt_append hi.le] at hat
      exact h.own i a hget hp hat
    · have hle : versionAt (init.version b) (inBucket cfg b) (s.log ++ l) s.log.length ≤ v := hat ▸ versionAt_mono hi
      rw [versionAt_append le_rfl,versionAt_length] at hle
      exact absurd (Nat.lt_of_lt_of_le h.lt_total hle) (Nat.lt_irrefl _)

omit [DecidableEq B] in
private theorem CallerOk.ext {caller} (h : CallerOk cfg s x caller)
    (hversion : ∀ b, (s.bucket b).version ≤ (s'.bucket b).version) : CallerOk cfg s' x caller := by
  cases caller with
  | deleteRow b buckVers => exact h.trans (hversion b)
  | cleanup committed todo => exact h

private theorem PcOk.ext {pc} (h : PcOk cfg init s u x pc) (hext : Ext s s' u) : PcOk cfg init s' u x pc := by
  cases pc with
  | loaded | missing => exact Loaded.ext h hext.log (hext.version_le _)
  | found op k buckVers e => exact Nat.le_trans h (hext.version_le _)
  | locked | insertMissing => exact (hext.locked _ h).1
  | pushed k e v => exact ⟨(hext.locked _ h.1).1,(hext.locked _ h.1).2.trans h.2.1,h.2.2.ext hext.log⟩
  | incremented k e v v' => exact ⟨(hext.locked _ h.1).1,h.2.1,h.2.2.1.trans (hext.version_le _),h.2.2.2.ext hext.log⟩
  | unlocked k e v v' => exact ⟨h.1,h.2.1.trans (hext.version_le _),h.2.2.ext hext.log⟩
  | removing e caller => exact CallerOk.ext h hext.version_le
  | removeLocked | removeUnlinked => exact ⟨(hext.locked _ h.1).1,h.2.ext hext.version_le⟩
  | comparing b m todo =>
    obtain ⟨hm,hversion,htodo⟩ := h
    obtain ⟨l,hl⟩ := hext.log
    refine ⟨?_,?_,htodo⟩
    · rw [hl,length_append]
      exact hm.trans (Nat.le_add_right _ _)
    · rw [hl,versionAt_append hm]
      exact hversion.trans (hext.version_le b)
  | checking | installing | cleanup | stopped => exact h
  | running | insertFound => trivial

end Invariant

open State

section Preserved
variable {T K B : Type} [DecidableEq T] [DecidableEq B] {cfg : Config K B} {init : Filled K B}
variable {s s' : State T K B} {t : T} {x : Txn T K B}

private theorem Inv.of_ext (h : Inv cfg init s) (htxn : s'.txn = update s.txn t x) (hext : ∀ u ≠ t, Ext s s' u)
    (hversion : ∀ b, (s'.bucket b).version+s'.pending cfg b = total cfg init s' b)
    (hitems : ItemsOk cfg init s' t x) (hpc : PcOk cfg init s' t x x.pc) : Inv cfg init s' := by
  refine ⟨hversion,fun u => ?_,fun u => ?_⟩
  · by_cases hu : u = t
    · rw [htxn,hu,update_self]
      exact hitems
    · rw [htxn,update_of_ne hu]
      exact (h.items u).ext h (hext u hu).log (hext u hu).version_le
  · by_cases hu : u = t
    · rw [htxn,hu,update_self]
      exact hpc
    · rw [htxn,update_of_ne hu]
      exact (h.pc u).ext (hext u hu)

/-- What a bucket has to count is the same when only its lock moves and the
transaction has no row in the list that is not counted. -/
private theorem pending_eq {b} (htxn : s'.txn = update s.txn t x) (hx : x.pc.pending cfg b = 0) (ht : (s.txn t).pc.pending cfg b = 0)
    (hlock : (s'.bucket b).lock = (s.bucket b).lock ∨ ((s'.bucket b).lock = none ∨ (s'.bucket b).lock = some t) ∧
      ((s.bucket b).lock = none ∨ (s.bucket b).lock = some t)) : s'.pending cfg b = s.pending cfg b := by
  have hzero (s : State T K B) (hs : (s.txn t).pc.pending cfg b = 0) (h : (s.bucket b).lock = none ∨ (s.bucket b).lock = some t) :
      s.pending cfg b = 0 := by
    rcases h with h | h
    · rw [pending,h]
    · rw [pending,h]
      exact hs
  have hx' : (s'.txn t).pc.pending cfg b = 0 := by rw [htxn,update_self]; exact hx
  rcases hlock with hlock | ⟨h',h⟩
  · rw [pending,pending,hlock]
    cases hl : (s.bucket b).lock with
    | none => rfl
    | some u =>
      by_cases hu : u = t
      · rw [hu]
        exact hx'.trans ht.symm
      · rw [htxn]
        dsimp only
        rw [update_of_ne hu]
  · rw [hzero s' hx' h',hzero s ht h]

omit [DecidableEq T] in
/-- The items do not depend on how far the transaction is, nor on its rows. -/
private theorem ItemsOk.same {y} (h : ItemsOk cfg init s t x) (hrecorded : y.recorded = x.recorded)
    (hitems : y.bucketItems = x.bucketItems) (habsent : y.absent = x.absent) (hchecked : y.checked = x.checked)
    (hcalling : y.pc.calling = true → x.pc.calling = true) : ItemsOk cfg init s t y := by
  constructor
  · rw [hrecorded]
    exact h.recorded_le
  · rw [hrecorded,hitems]
    exact h.item_mem
  · rw [hrecorded,habsent]
    exact h.absent
  · rw [hchecked,habsent]
    exact h.checked
  · rw [hchecked]
    exact fun hc => h.calling (hcalling hc)

/-! The steps of a transaction that has no row in a list that is not counted. -/
section
variable {p} (h : Inv cfg init s) (hp : (s.txn t).pc = p) (ht : ∀ b, p.pending cfg b = 0)
include h hp ht

/-- A step that moves locks at most. -/
private theorem Inv.of_locks (htxn : s'.txn = update s.txn t x) (hlog : s'.log = s.log)
    (hversion : ∀ b, (s'.bucket b).version = (s.bucket b).version)
    (hlock : ∀ b, (s'.bucket b).lock = (s.bucket b).lock ∨ ((s'.bucket b).lock = none ∨ (s'.bucket b).lock = some t) ∧
      ((s.bucket b).lock = none ∨ (s.bucket b).lock = some t))
    (hx : ∀ b, x.pc.pending cfg b = 0) (hitems : ItemsOk cfg init s t x) (hpc : PcOk cfg init s' t x x.pc) : Inv cfg init s' := by
  have hle (b : B) : (s.bucket b).version ≤ (s'.bucket b).version := (hversion b).ge
  have hl : ∃ l, s'.log = s.log ++ l := ⟨[],by rw [hlog,append_nil]⟩
  refine h.of_ext htxn (fun u hu => ⟨hl,hle,fun b hb => ⟨?_,hversion b⟩⟩) (fun b => ?_) (hitems.ext h hl hle) hpc
  · rcases hlock b with heq | ⟨-,h | h⟩
    · exact heq.trans hb
    · rw [h] at hb
      cases hb
    · rw [h] at hb
      exact absurd (some.inj hb).symm hu
  · rw [hversion,pending_eq htxn (hx b) (hp ▸ ht b) (hlock b),total,hlog]
    exact h.version b

private theorem Inv.of_quiet (htxn : s'.txn = update s.txn t x) (hlog : s'.log = s.log)
    (hbucket : ∀ b, (s'.bucket b).version = (s.bucket b).version ∧ (s'.bucket b).lock = (s.bucket b).lock)
    (hx : ∀ b, x.pc.pending cfg b = 0) (hitems : ItemsOk cfg init s t x) (hpc : PcOk cfg init s t x x.pc) : Inv cfg init s' := by
  refine h.of_locks hp ht htxn hlog (fun b => (hbucket b).1) (fun b => .inl (hbucket b).2) hx hitems (hpc.ext ?_)
  exact ⟨⟨[],by rw [hlog,append_nil]⟩,fun b => (hbucket b).1.ge,fun b hb => ⟨(hbucket b).2.trans hb,(hbucket b).1⟩⟩

private theorem Inv.setTxn (hx : ∀ b, x.pc.pending cfg b = 0)
    (hitems : ItemsOk cfg init s t x) (hpc : PcOk cfg init s t x x.pc) : Inv cfg init (s.setTxn t x) :=
  h.of_quiet hp ht rfl rfl (fun _ => ⟨rfl,rfl⟩) hx hitems hpc

private theorem Inv.move {p'} (hp' : ∀ b, p'.pending cfg b = 0) (hcalling : p'.calling = true → p.calling = true)
    (hpc : PcOk cfg init s t { s.txn t with pc := p' } p') : Inv cfg init (s.setTxn t { s.txn t with pc := p' }) :=
  h.setTxn hp ht hp' ((h.items t).same rfl rfl rfl rfl (fun hc => hp ▸ hcalling hc)) hpc

private theorem Inv.abort : Inv cfg init (s.setTxn t (s.txn t).abort) := by
  refine h.setTxn hp ht (fun _ => rfl) ((h.items t).same rfl rfl rfl rfl (fun hc => ?_)) (fun hc => ?_)
  · exact absurd hc Bool.false_ne_true
  · exact absurd hc Bool.false_ne_true

/-- A call that returns, whatever it has done to the rows. -/
private theorem Inv.return (hitems : ItemsOk cfg init s t x) (hcalling : x.pc.calling = true) :
    Inv cfg init (s.setTxn t { x with pc := .running }) :=
  h.setTxn hp ht (fun _ => rfl) (hitems.same rfl rfl rfl rfl (fun _ => hcalling)) trivial

private theorem Inv.setLock {b l} (hl : l = none ∨ l = some t) (hb : (s.bucket b).lock = none ∨ (s.bucket b).lock = some t)
    (hx : ∀ b, x.pc.pending cfg b = 0) (hitems : ItemsOk cfg init s t x)
    (hpc : PcOk cfg init ((s.setBucket b { s.bucket b with lock := l }).setTxn t x) t x x.pc) :
    Inv cfg init ((s.setBucket b { s.bucket b with lock := l }).setTxn t x) := by
  have hbucket (b' : B) : ((s.setBucket b { s.bucket b with lock := l }).setTxn t x).bucket b' =
      if b' = b then { s.bucket b with lock := l } else s.bucket b' := update_apply ..
  refine h.of_locks hp ht rfl rfl (fun b' => ?_) (fun b' => ?_) hx hitems hpc
  · rw [hbucket]
    split
    · rename_i heq
      rw [heq]
    · rfl
  · rw [hbucket]
    split
    · rename_i heq
      rw [heq]
      exact .inr ⟨hl,hb⟩
    · exact .inl rfl

end

section
omit [DecidableEq T]

private theorem update_eq_some {f : B → Option Nat} {b b' v w} (hw : update f b (some v) b' = some w) :
    b' = b ∧ w = v ∨ f b' = some w := by
  by_cases hb : b' = b
  · rw [hb,update_self] at hw
    exact .inl ⟨hb,(some.inj hw).symm⟩
  · rw [update_of_ne hb] at hw
    exact .inr hw

/-- An observation that keeps what was read, and one that is the first. -/
private theorem ItemsOk.observe {b v} (h : ItemsOk cfg init s t x) (hv : v ≤ (s.bucket b).version) :
    ItemsOk cfg init s t (x.observe b v) ∧ ∃ w, (x.observe b v).recorded b = some w ∧ (x.recorded b = some w ∨ w = v) := by
  unfold Txn.observe
  cases hr : x.recorded b with
  | some w => exact ⟨h,w,hr,.inl rfl⟩
  | none =>
    refine ⟨⟨fun b' w hw => ?_,fun b' w hw => ?_,fun k n hk => ?_,h.checked,h.calling⟩,v,update_self ..,.inr rfl⟩
    · rcases update_eq_some hw with ⟨rfl,rfl⟩ | hw
      · exact hv
      · exact h.recorded_le b' w hw
    · rcases update_eq_some hw with ⟨rfl,-⟩ | hw
      · exact mem_append_right _ (mem_singleton_self _)
      · exact mem_append_left _ (h.item_mem b' w hw)
    · obtain ⟨w,hw,hown⟩ := h.absent k n hk
      have hne : cfg.findBucketIdx k ≠ b := by
        rintro rfl
        rw [hr] at hw
        cases hw
      exact ⟨w,(update_of_ne hne _ _).trans hw,hown⟩

/-- A key that is not found: a version that was read when the version of its bucket was
loaded, or is that version, counts nothing that comes after. -/
private theorem ItemsOk.missing {k v since} (h : ItemsOk cfg init s t x) (hcalling : x.pc.calling = true)
    (hload : Loaded cfg init s x (cfg.findBucketIdx k) v since) :
    ItemsOk cfg init s t { x.observe (cfg.findBucketIdx k) v with absent := (k,since) :: x.absent, pc := .running } := by
  obtain ⟨hobs,w,hw,hcase⟩ := h.observe hload.le_version
  have habsent : (x.observe (cfg.findBucketIdx k) v).absent = x.absent := by unfold Txn.observe; split <;> rfl
  have hnone : (x.observe (cfg.findBucketIdx k) v).checked = [] := by
    rw [← h.calling hcalling]
    unfold Txn.observe
    split <;> rfl
  refine ⟨hobs.recorded_le,hobs.item_mem,fun k' n hk => ?_,fun b m hm => ?_,fun _ => hnone⟩
  · rcases mem_cons.mp hk with heq | hk
    · obtain ⟨rfl,rfl⟩ := Prod.mk.inj heq
      have hle : w ≤ v := by
        rcases hcase with hr | rfl
        · exact hload.recorded_le w hr
        · exact le_rfl
      exact ⟨w,hw,.of_le (hle.trans hload.le_versionAt)⟩
    · exact hobs.absent k' n (habsent ▸ hk)
  · exact absurd (hnone ▸ hm : (b,m) ∈ []) not_mem_nil

/-- The read of a bucket is moved past a row only if it was the version just before, and
that row is the transaction's own. -/
private theorem ItemsOk.updateRead {b v v'} (h : ItemsOk cfg init s t x) (hv : v' = v+1)
    (hle : v' ≤ (s.bucket b).version) (hown : OwnAt cfg init s t b v) : ItemsOk cfg init s t (x.updateRead b v v') := by
  unfold Txn.updateRead
  split
  · rename_i hr
    refine ⟨fun b' w hw => ?_,fun b' w hw => ?_,fun k n hk => ?_,h.checked,h.calling⟩
    · rcases update_eq_some hw with ⟨rfl,rfl⟩ | hw
      · exact hle
      · exact h.recorded_le b' w hw
    · rcases update_eq_some hw with ⟨rfl,-⟩ | hw
      · exact h.item_mem _ v hr
      · exact h.item_mem b' w hw
    · obtain ⟨w,hw,hupto⟩ := h.absent k n hk
      by_cases hb : cfg.findBucketIdx k = b
      · rw [hb] at hw hupto ⊢
        obtain rfl : v = w := some.inj (hr.symm.trans hw)
        refine ⟨v',update_self ..,?_⟩
        rw [hv]
        exact hupto.succ hown.own
      · exact ⟨w,(update_of_ne hb _ _).trans hw,hupto⟩
  · exact h

/-- A bucket whose version is the recorded one has had no other row since. -/
private theorem ItemsOk.compare {b m pc} (h : ItemsOk cfg init s t x) (hm : m ≤ s.log.length)
    (hversion : versionAt (init.version b) (inBucket cfg b) s.log m ≤ (s.bucket b).version)
    (hr : x.recorded b = some (s.bucket b).version) (hcalling : pc.calling = false) :
    ItemsOk cfg init s t { x with checked := (b,m) :: x.checked, pc := pc } := by
  refine ⟨h.recorded_le,h.item_mem,h.absent,fun b' m' hmem => ?_,fun hc => absurd (hcalling.symm.trans hc) Bool.false_ne_true⟩
  rcases mem_cons.mp hmem with heq | hmem
  · obtain ⟨rfl,rfl⟩ := Prod.mk.inj heq
    refine ⟨hm,fun k n hk hb i a hget hp hn hi => ?_⟩
    obtain ⟨v,hv,hown⟩ := h.absent k n hk
    rw [hb] at hv hown
    obtain rfl : v = (s.bucket b').version := some.inj (hv.symm.trans hr)
    exact hown.between hversion hget hp hn hi
  · exact h.checked b' m' hmem

end

/-- A row is put into the list: the bucket is locked, and the version is the one it is
counted at. -/
private theorem Inv.push {k e} (h : Inv cfg init s) (hp : (s.txn t).pc = .insertMissing k)
    (htxn : s'.txn = update s.txn t { s.txn t with pc := .pushed k e (s.bucket (cfg.findBucketIdx k)).version })
    (hlog : s'.log = s.log ++ [(t,k)])
    (hbucket : ∀ b, (s'.bucket b).version = (s.bucket b).version ∧ (s'.bucket b).lock = (s.bucket b).lock) : Inv cfg init s' := by
  have hlock : (s.bucket (cfg.findBucketIdx k)).lock = some t := by
    have hpc := h.pc t
    rwa [hp] at hpc
  have hl : ∃ l, s'.log = s.log ++ l := ⟨_,hlog⟩
  have hle (b : B) : (s.bucket b).version ≤ (s'.bucket b).version := (hbucket b).1.ge
  have hcount : (s.bucket (cfg.findBucketIdx k)).version = total cfg init s (cfg.findBucketIdx k) := by
    rw [← h.version,pending,hlock]
    dsimp only
    rw [hp]
    rfl
  have htotal (b : B) : total cfg init s' b = total cfg init s b+(if cfg.findBucketIdx k = b then 1 else 0) := by
    rw [total,hlog,version_append,total]
    simp [inBucket]
  refine h.of_ext htxn (fun u _ => ⟨hl,hle,fun b hb => ⟨(hbucket b).2.trans hb,(hbucket b).1⟩⟩) (fun b => ?_) ?_ ?_
  · rw [(hbucket b).1,htotal,← h.version b]
    by_cases hb : cfg.findBucketIdx k = b
    · subst hb
      rw [pending,(hbucket _).2,pending,htxn,hlock]
      dsimp only
      rw [update_self,hp]
      rfl
    · rw [if_neg hb,pending_eq htxn (if_neg hb) (hp ▸ rfl) (.inl (hbucket b).2)]
      rfl
  · exact ((h.items t).ext h hl hle).same rfl rfl rfl rfl (fun _ => by rw [hp]; rfl)
  · refine ⟨(hbucket _).2.trans hlock,(hbucket _).1,?_,?_⟩
    · rw [htotal,if_pos rfl,hcount]
      exact Nat.lt_succ_self _
    · intro i a hget hin hat
      rw [hlog] at hget hat
      rw [hcount] at hat
      rw [eq_of_versionAt_eq hget hin hat]

private theorem Inv.increment {k e v} (h : Inv cfg init s) (hp : (s.txn t).pc = .pushed k e v) : let b := cfg.findBucketIdx k
    Inv cfg init ((s.setBucket b { s.bucket b with version := (s.bucket b).version+1 }).setTxn t
      { s.txn t with pc := .incremented k e v ((s.bucket b).version+1) }) := by
  intro b
  have hpc := h.pc t
  rw [hp] at hpc
  obtain ⟨hlock,hv,hown⟩ := hpc
  generalize hs : (s.setBucket b { s.bucket b with version := (s.bucket b).version+1 }).setTxn t
    { s.txn t with pc := .incremented k e v ((s.bucket b).version+1) } = s'
  have hbucket (b' : B) : s'.bucket b' = if b' = b then { s.bucket b with version := (s.bucket b).version+1 } else s.bucket b' :=
    hs ▸ update_apply ..
  have htxn : s'.txn = update s.txn t { s.txn t with pc := .incremented k e v ((s.bucket b).version+1) } := hs ▸ rfl
  have hl : ∃ l, s'.log = s.log ++ l := ⟨[],by rw [← hs,append_nil]; rfl⟩
  have hself : s'.bucket b = { s.bucket b with version := (s.bucket b).version+1 } := by rw [hbucket,if_pos rfl]
  have hother {b' : B} (hb : b' ≠ b) : s'.bucket b' = s.bucket b' := by rw [hbucket,if_neg hb]
  have hle (b' : B) : (s.bucket b').version ≤ (s'.bucket b').version := by
    by_cases hb : b' = b
    · rw [hb,hself]
      exact Nat.le_succ _
    · rw [hother hb]
  refine h.of_ext htxn (fun u hu => ⟨hl,hle,fun b' hb' => ?_⟩) (fun b' => ?_) ?_ ?_
  · by_cases hb : b' = b
    · rw [hb,show (s.bucket b).lock = some t from hlock] at hb'
      exact absurd (some.inj hb').symm hu
    · rw [hother hb]
      exact ⟨hb',rfl⟩
  · have htotal : total cfg init s' b' = total cfg init s b' := by rw [← hs]; rfl
    rw [htotal,← h.version b']
    by_cases hb : b' = b
    · rw [hb,pending,pending,htxn,hself,show (s.bucket b).lock = some t from hlock]
      dsimp only
      rw [update_self,hp]
      exact (congrArg ((s.bucket b).version+·) (if_pos rfl)).symm
    · rw [pending_eq htxn rfl (hp ▸ if_neg (Ne.symm hb)) (.inl (by rw [hother hb])),hother hb]
  · exact ((h.items t).ext h hl hle).same rfl rfl rfl rfl (fun _ => by rw [hp]; rfl)
  · refine ⟨by rw [hself]; exact hlock,by rw [← hv],by rw [hself],hown.ext hl⟩

private theorem Inv.removed {b e caller} (h : Inv cfg init s) (hp : (s.txn t).pc = .removeUnlinked b e caller) :
    Inv cfg init ((s.setBucket b { s.bucket b with lock := none }).removed cfg t e caller) := by
  have hpc := h.pc t
  rw [hp] at hpc
  obtain ⟨hlock,hcaller⟩ := hpc
  cases caller with
  | deleteRow b' buckVers =>
    have hrow : ItemsOk cfg init s t ((s.txn t).setRow e ⟨false,false,false⟩) := (h.items t).same rfl rfl rfl rfl id
    have hcalling : (s.txn t).pc.calling = true := by rw [hp]; rfl
    refine h.setLock hp (fun _ => rfl) (.inl rfl) (.inr hlock) (fun _ => rfl) ?_ trivial
    split
    · exact hrow.same rfl rfl rfl rfl (fun _ => hcalling)
    · refine (hrow.observe hcaller).1.same rfl rfl rfl rfl (fun _ => ?_)
      unfold Txn.observe
      split <;> exact hcalling
  | cleanup committed todo =>
    exact h.setLock hp (fun _ => rfl) (.inl rfl) (.inr hlock) (fun _ => rfl)
      ((h.items t).same rfl rfl rfl rfl (fun hc => absurd hc Bool.false_ne_true)) hcaller

end Preserved

section Run
variable {T K B : Type} [DecidableEq T] [DecidableEq K] [DecidableEq B] {cfg : Config K B} {init : Filled K B}
variable {s s' : State T K B} {t : T}

private theorem Inv.found {op k buckVers e} (h : Inv cfg init s)
    (hp : (s.txn t).pc = .found op k buckVers e) (hgo : s.go cfg t = some s') : Inv cfg init s' := by
  have hcalling : (s.txn t).pc.calling = true := by rw [hp]; rfl
  have hpc := h.pc t
  rw [hp] at hpc
  rw [go,hp] at hgo
  cases op with
  | select write =>
    cases hgo
    unfold selectFound
    dsimp only
    split
    · exact h.abort hp (fun _ => rfl)
    · split
      · exact h.return hp (fun _ => rfl) (h.items t) hcalling
      · exact h.return hp (fun _ => rfl) ((h.items t).same rfl rfl rfl rfl id) hcalling
  | delete =>
    cases hgo
    unfold deleteFound
    dsimp only
    split
    · exact h.abort hp (fun _ => rfl)
    · split
      · exact h.move hp (fun _ => rfl) (fun _ => rfl) (fun _ => rfl) hpc
      · split
        · exact h.return hp (fun _ => rfl) (h.items t) hcalling
        · split
          · exact h.abort hp (fun _ => rfl)
          · exact h.return hp (fun _ => rfl) ((h.items t).same rfl rfl rfl rfl id) hcalling

section
variable (h : Inv cfg init s)
include h

private theorem Inv.loaded {op k buckVers since} (hp : (s.txn t).pc = .loaded op k buckVers since)
    (hgo : s.go cfg t = some s') : Inv cfg init s' := by
  have hpc := h.pc t
  rw [hp] at hpc
  rw [go,hp] at hgo
  cases hgo
  cases hf : s.findInBucket cfg k with
  | some e => exact h.move hp (fun _ => rfl) (fun _ => rfl) (fun _ => rfl) hpc.le_version
  | none =>
    exact h.move hp (fun _ => rfl) (fun _ => rfl) (fun _ => rfl)
      ⟨hpc.since_le,hpc.le_versionAt,hpc.le_version,hpc.recorded_le⟩

private theorem Inv.locked {k overwrite} (hp : (s.txn t).pc = .locked k overwrite) (hgo : s.go cfg t = some s') : Inv cfg init s' := by
  have hpc := h.pc t
  rw [hp] at hpc
  rw [go,hp] at hgo
  have hcalling : (s.txn t).pc.calling = true := by rw [hp]; rfl
  dsimp only at hgo
  cases hf : s.findInBucket cfg k with
  | some e =>
    rw [hf] at hgo
    cases hgo
    exact h.setLock hp (fun _ => rfl) (.inl rfl) (.inr hpc) (fun _ => rfl) ((h.items t).same rfl rfl rfl rfl (fun _ => hcalling)) trivial
  | none =>
    rw [hf] at hgo
    cases hgo
    exact h.move hp (fun _ => rfl) (fun _ => rfl) (fun _ => rfl) hpc

private theorem Inv.insertFound {e overwrite} (hp : (s.txn t).pc = .insertFound e overwrite)
    (hgo : s.go cfg t = some s') : Inv cfg init s' := by
  have hitems := h.items t
  rw [go,hp] at hgo
  cases hgo
  have hcalling : (s.txn t).pc.calling = true := by rw [hp]; rfl
  unfold overwriteFound
  dsimp only
  split
  · exact h.abort hp (fun _ => rfl)
  · split
    · exact h.return hp (fun _ => rfl) (hitems.same rfl rfl rfl rfl id) hcalling
    · exact h.return hp (fun _ => rfl) (hitems.same rfl rfl rfl rfl id) hcalling

private theorem Inv.removing {e caller} (hp : (s.txn t).pc = .removing e caller) (hgo : s.go cfg t = some s') : Inv cfg init s' := by
  have hpc := h.pc t
  rw [hp] at hpc
  rw [State.go,hp] at hgo
  dsimp only at hgo
  split at hgo
  · rename_i hfree
    cases hgo
    refine h.setLock hp (fun _ => rfl) (.inr rfl) (.inl hfree) (fun _ => rfl) ((h.items t).same rfl rfl rfl rfl (fun hc => ?_)) ⟨?_,?_⟩
    · rw [hp]
      cases caller <;> exact hc
    · simp [State.setTxn,State.setBucket]
    · refine CallerOk.ext hpc (fun b => ?_)
      by_cases hb : b = cfg.findBucketIdx (s.elem e).key
      · rw [hb]
        simp [State.setTxn,State.setBucket]
      · simp [State.setTxn,State.setBucket,hb]
  · cases hgo

private theorem Inv.unlink {b e caller} (hp : (s.txn t).pc = .removeLocked b e caller) (hgo : s.go cfg t = some s') : Inv cfg init s' := by
  have hpc := h.pc t
  rw [hp] at hpc
  rw [State.go,hp] at hgo
  cases hgo
  refine h.of_quiet hp (fun _ => rfl) rfl rfl (fun b' => ?_) (fun _ => rfl) ((h.items t).same rfl rfl rfl rfl (fun hc => ?_)) hpc
  · by_cases hb : b' = b
    · subst hb
      simp [State.setTxn,State.setBucket]
    · simp [State.setTxn,State.setBucket,hb]
  · rw [hp]
    cases caller <;> exact hc

private theorem Inv.checking {todo} (hp : (s.txn t).pc = .checking todo) (hgo : s.go cfg t = some s') : Inv cfg init s' := by
  have hpc := h.pc t
  rw [hp] at hpc
  cases todo with
  | nil =>
    rw [go,hp] at hgo
    cases hgo
    refine h.move hp (fun _ => rfl) (fun _ => rfl) id (.inl ?_)
    exact fun b hb => (hpc b hb).resolve_left not_mem_nil
  | cons b todo =>
    rw [go,hp] at hgo
    dsimp only at hgo
    split at hgo
    · rename_i hfree
      cases hgo
      refine h.move hp (fun _ => rfl) (fun _ => rfl) id ⟨le_rfl,?_,hpc⟩
      -- The version of an unlocked bucket counts every row in its list.
      have hcount := h.version b
      rw [pending,hfree] at hcount
      rw [versionAt_length]
      exact hcount.ge
    · cases hgo
      exact h.abort hp (fun _ => rfl)

private theorem Inv.comparing {b m todo} (hp : (s.txn t).pc = .comparing b m todo) (hgo : s.go cfg t = some s') : Inv cfg init s' := by
  have hpc := h.pc t
  rw [hp] at hpc
  rw [go,hp] at hgo
  obtain ⟨hm,hversion,htodo⟩ := hpc
  dsimp only at hgo
  split at hgo
  · rename_i hr
    cases hgo
    refine h.setTxn hp (fun _ => rfl) (fun _ => rfl) ((h.items t).compare hm hversion hr rfl) (fun b' hb' => ?_)
    rcases htodo b' hb' with hmem | ⟨m',hm'⟩
    · rcases mem_cons.mp hmem with rfl | hmem
      · exact .inr ⟨m,mem_cons_self⟩
      · exact .inl hmem
    · exact .inr ⟨m',mem_cons_of_mem _ hm'⟩
  · cases hgo
    exact h.abort hp (fun _ => rfl)

private theorem Inv.go (hgo : s.go cfg t = some s') : Inv cfg init s' := by
  have hpc := h.pc t
  have hitems := h.items t
  cases hp : (s.txn t).pc with
  | loaded op k buckVers since => exact h.loaded hp hgo
  | missing k buckVers since =>
    rw [hp] at hpc
    rw [State.go,hp] at hgo
    dsimp only at hgo
    split at hgo
    · cases hgo
      exact h.abort hp (fun _ => rfl)
    · cases hgo
      exact h.setTxn hp (fun _ => rfl) (fun _ => rfl) (hitems.missing (by rw [hp]; rfl) hpc) trivial
  | found op k buckVers e => exact h.found hp hgo
  | locked k overwrite => exact h.locked hp hgo
  | insertFound e overwrite => exact h.insertFound hp hgo
  | insertMissing k =>
    rw [State.go,hp] at hgo
    cases hgo
    refine h.push hp rfl rfl (fun b => ?_)
    by_cases hb : b = cfg.findBucketIdx k
    · subst hb
      simp [State.setTxn,State.setBucket,State.setElem]
    · simp [State.setTxn,State.setBucket,State.setElem,hb]
  | pushed k e v =>
    rw [State.go,hp] at hgo
    cases hgo
    exact h.increment hp
  | incremented k e v v' =>
    rw [hp] at hpc
    rw [State.go,hp] at hgo
    cases hgo
    refine h.setLock hp (fun _ => rfl) (.inl rfl) (.inr hpc.1) (fun _ => rfl) (hitems.same rfl rfl rfl rfl (fun _ => by rw [hp]; rfl))
      ⟨hpc.2.1,?_,hpc.2.2.2.ext ⟨[],(append_nil _).symm⟩⟩
    exact hpc.2.2.1.trans (by simp [State.setTxn,State.setBucket])
  | unlocked k e v v' =>
    rw [hp] at hpc
    rw [State.go,hp] at hgo
    cases hgo
    refine h.return hp (fun _ => rfl) ((hitems.updateRead hpc.1 hpc.2.1 hpc.2.2).same rfl rfl rfl rfl id) ?_
    unfold Txn.updateRead
    split <;> exact hp ▸ rfl
  | removing e caller => exact h.removing hp hgo
  | removeLocked b e caller => exact h.unlink hp hgo
  | removeUnlinked b e caller =>
    rw [State.go,hp] at hgo
    cases hgo
    exact h.removed hp
  | checking todo => exact h.checking hp hgo
  | comparing b m todo => exact h.comparing hp hgo
  | installing todo =>
    rw [hp] at hpc
    cases todo with
    | nil =>
      rw [State.go,hp] at hgo
      cases hgo
      exact h.move hp (fun _ => rfl) (fun _ => rfl) id (fun _ => hpc)
    | cons e todo =>
      rw [State.go,hp] at hgo
      cases hgo
      exact h.of_quiet hp (fun _ => rfl) rfl rfl (fun _ => ⟨rfl,rfl⟩) (fun _ => rfl)
        (hitems.same rfl rfl rfl rfl (fun hc => absurd hc Bool.false_ne_true)) hpc
  | cleanup committed todo =>
    rw [hp] at hpc
    cases todo with
    | nil | cons =>
      rw [State.go,hp] at hgo
      cases hgo
      exact h.move hp (fun _ => rfl) (fun _ => rfl) id hpc
  | running | stopped =>
    rw [State.go,hp] at hgo
    cases hgo

omit [DecidableEq K] in
private theorem Inv.call (hp : (s.txn t).pc = .running) {a} (hcall : s.call cfg t a = some s') : Inv cfg init s' := by
  have hcalling : (s.txn t).pc.calling = true := by rw [hp]; rfl
  have hload (op : Op) (k : K) : Inv cfg init (s.load cfg t op k) := by
    have hle : (s.bucket (cfg.findBucketIdx k)).version ≤ total cfg init s (cfg.findBucketIdx k) := version_le_total h _
    refine h.move hp (fun _ => rfl) (fun _ => rfl) (fun _ => rfl)
      ⟨le_rfl,?_,le_rfl,(h.items t).recorded_le _⟩
    rw [versionAt_length]
    exact hle
  cases a with
  | select k | delete k =>
    cases hcall
    exact hload _ k
  | insert k overwrite =>
    rw [State.call] at hcall
    split at hcall
    · rename_i hfree
      cases hcall
      exact h.setLock hp (fun _ => rfl) (.inr rfl) (.inl hfree) (fun _ => rfl) ((h.items t).same rfl rfl rfl rfl (fun _ => hcalling))
        (by simp [PcOk,State.setTxn,State.setBucket])
    · cases hcall
  | commit =>
    rw [State.call] at hcall
    split at hcall
    · rename_i hread
      cases hcall
      rw [Bool.and_eq_true,Bool.not_eq_true'] at hread
      exact h.move hp (fun _ => rfl) (fun _ => rfl) (fun _ => rfl) (fun _ => .inr hread)
    · cases hcall
      exact h.move hp (fun _ => rfl) (fun _ => rfl) (fun _ => rfl) (fun b hb => .inl hb)
  | abort | go => cases hcall

private theorem Inv.next {a} (hnext : s.next cfg a = some s') : Inv cfg init s' := by
  obtain ⟨t,a⟩ := a
  rw [State.next.eq_def] at hnext
  split at hnext
  · exact h.go hnext
  · rename_i t' heq
    split at hnext
    · rename_i hmay
      cases hnext
      refine h.abort rfl (fun b => ?_)
      cases hp : (s.txn t').pc with
      | pushed k e v =>
        rw [hp] at hmay
        cases hmay
      | _ => rfl
    · cases hnext
  · rename_i t' a' _ _ heq
    split at hnext
    · rename_i hrun
      refine h.call ?_ hnext
      cases hp : (s.txn t').pc with
      | running => rfl
      | _ =>
        rw [hp] at hrun
        cases hrun
    · cases hnext

end

theorem reachable_inv (h : (index cfg init).Reachable s) : Inv cfg init s := by
  refine Machine.Reachable.ofNext_invariant h ⟨fun b => rfl,fun t => ?_,fun t => trivial⟩
    (fun _ _ _ hs hnext => hs.next hnext)
  exact ⟨nofun,nofun,nofun,nofun,fun _ => rfl⟩

/-- A transaction that commits and has not found a key: no other transaction has put a
row with the key into the index from the load of the bucket version up to the check of
the bucket. The check is left out only with opacity, for a transaction that has written
nothing. -/
theorem absent_key_not_inserted (h : (index cfg init).Reachable s) (t : T) (hcommit : (s.txn t).pc = .stopped true)
    {k : K} {n : Nat} (habsent : (k,n) ∈ (s.txn t).absent) :
    (∃ m, (cfg.findBucketIdx k,m) ∈ (s.txn t).checked ∧
      ∀ i u, n ≤ i → i < m → s.log[i]? = some (u,k) → u = t) ∨
      cfg.opacity = true ∧ (s.txn t).anyWrites = false := by
  have hinv := reachable_inv h
  have hpc := hinv.pc t
  rw [hcommit] at hpc
  rcases hpc rfl with hall | hread
  · left
    obtain ⟨v,hv,-⟩ := (hinv.items t).absent k n habsent
    obtain ⟨m,hm⟩ := hall _ ((hinv.items t).item_mem _ v hv)
    refine ⟨m,hm,fun i u hn hi hget => ?_⟩
    exact ((hinv.items t).checked _ m hm).2 k n habsent rfl i (u,k) hget (beq_self_eq_true _) hn hi
  · exact .inr hread

end Run

section

def oneBucket : Config Nat Unit := ⟨fun _ => (),false,true,false⟩

def empty : Filled Nat Unit := ⟨fun _ => ⟨0,false,false⟩,0,fun _ => [],fun _ => 0⟩

/-- `u` inserts a row and commits, then `t` does not find another key, inserts a third
one and commits. -/
def insertAfterMissing (t u : Bool) : List (Bool × Act Nat) :=
  (u,Act.insert 5 false) :: List.replicate 5 (u,Act.go) ++ (u,Act.commit) :: List.replicate 4 (u,Act.go) ++
    (t,Act.select 7 false) :: List.replicate 2 (t,Act.go) ++ (t,Act.insert 8 false) :: List.replicate 5 (t,Act.go) ++
    (t,Act.commit) :: List.replicate 6 (t,Act.go)

def afterCommit : State Bool Nat Unit := (index oneBucket empty).play (index oneBucket empty).start (insertAfterMissing true false)

theorem absent_key_not_inserted_own_row :
    (afterCommit.txn true).pc = .stopped true ∧ (7,1) ∈ (afterCommit.txn true).absent ∧
      afterCommit.log = [(false,5),(true,8)] ∧
      ((∃ m, ((),m) ∈ (afterCommit.txn true).checked ∧
        ∀ i u, 1 ≤ i → i < m → afterCommit.log[i]? = some (u,7) → u = true) ∨
        oneBucket.opacity = true ∧ (afterCommit.txn true).anyWrites = false) := by
  have hreach : (index oneBucket empty).Reachable afterCommit := Machine.Reachable.play .start _ (by decide)
  have hpc : (afterCommit.txn true).pc = .stopped true := rfl
  have habsent : (7,1) ∈ (afterCommit.txn true).absent := List.mem_singleton_self _
  exact ⟨hpc,habsent,rfl,absent_key_not_inserted hreach true hpc habsent⟩

end

end AlNiCo.Sto.HashIndex
