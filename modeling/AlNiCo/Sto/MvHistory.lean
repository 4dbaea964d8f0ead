import AlNiCo.Library.DescendingChain
import AlNiCo.Library.Machine
import Mathlib.Logic.Function.Basic
import Mathlib.Tactic

/-! `MvObject` and `MvHistory`: the versions of one object in a chain of descending write
timestamps, the steps of `find`, `cp_lock`, `cp_check`, `cp_install` and of an abort, and
`flatten`, which turns a committed delta into a full version. Every load, store and
compare-and-swap of shared memory is a step of its own. Timestamps are natural numbers: the counter
they are drawn from is assumed never to wrap around. -/
namespace AlNiCo.Sto.Mvcc
open Library DescendingChain

inductive Flag
  | full
  | deleted
  | delta
  deriving DecidableEq

/-- `MvStatus`, without the bits that name the reason of an abort and those of the garbage
collector. -/
inductive MvStatus
  | pending (f : Flag)
  | committed (f : Flag)
  /-- `LOCKED_COMMITTED_DELTA`. -/
  | locked
  | aborted
  deriving DecidableEq

namespace MvStatus

def isPending : MvStatus → Bool
  | .pending _ => true
  | _ => false

def isCommitted : MvStatus → Bool
  | .committed _ => true
  | .locked => true
  | _ => false

def isDeleted : MvStatus → Bool
  | .pending .deleted => true
  | .committed .deleted => true
  | _ => false

def isDelta : MvStatus → Bool
  | .pending .delta => true
  | .committed .delta => true
  | .locked => true
  | _ => false

/-- `status_is(COMMITTED_DELTA, COMMITTED)`. -/
def isFull (s : MvStatus) : Bool := s.isCommitted && !s.isDelta

/-- `(s & ~PENDING) | COMMITTED`. -/
def commit : MvStatus → MvStatus
  | .pending f => .committed f
  | s => s

end MvStatus

/-- What a transaction writes; a deleted version has some value too. -/
inductive Update (α : Type)
  | full (v : α)
  | delete (v : α)
  | delta (operate : α → α)

namespace Update
variable {α : Type}

def flag : Update α → Flag
  | .full _ => .full
  | .delete _ => .deleted
  | .delta _ => .delta

def apply : Update α → α → α
  | .full v,_ => v
  | .delete v,_ => v
  | .delta operate,x => operate x

end Update

/-- The version an object starts with, and one for each transaction that writes it. -/
inductive Version (T : Type)
  | initial
  | of (t : T)
  deriving DecidableEq

/-- The transactions on one object: their timestamps, the timestamps they read at and what
they write, if they do. -/
structure Program (T α : Type) where
  ts : T → Nat
  ts_pos : ∀ t, 0 < ts t
  ts_injective : Function.Injective ts
  readTs : T → Nat
  readTs_le : ∀ t, readTs t ≤ ts t
  update : T → Update α
  first : α
  firstDeleted : Bool

namespace Program
variable {T α : Type} (P : Program T α)

def wtid : Version T → Nat
  | .initial => 0
  | .of t => P.ts t

def updateOf : Version T → Update α
  | .initial => if P.firstDeleted then .delete P.first else .full P.first
  | .of t => P.update t

end Program

/-- The shared memory: the chain from `h_` on, and the fields of every version. -/
structure Memory (T α : Type) where
  chain : List (Version T)
  status : Version T → MvStatus
  rtid : Version T → Nat
  value : Version T → α
  /-- How often a flattened value has been stored. -/
  stores : Version T → Nat

/-- A transaction's read: `find`, then `cp_check` of the version it found. -/
inductive ReadPc (T : Type)
  | idle
  | find (w : Walk (Version T))
  | found (v : Version T)
  | check (v : Version T) (w : Walk (Version T))
  | passed (v : Version T)
  | failed
  deriving DecidableEq

/-- The loads of the last loop in `cp_lock`, at one version. -/
inductive Stage
  | deleted
  | committed
  | rtid
  | stop
  deriving DecidableEq

/-- A transaction's write: `cp_lock` with its search for the place (`seek`, `probe`,
`probeRtid`, `cas`) and its two consistency checks, and what becomes of the version. -/
inductive WritePc (T : Type)
  | idle
  | seek (target : Option (Version T))
  | probe (target : Option (Version T)) (x : Version T)
  | probeRtid (target : Option (Version T)) (x : Version T)
  | cas (target : Option (Version T)) (x : Version T)
  | wv1 (w : Walk (Version T))
  | wv2 (w : Walk (Version T)) (stage : Stage)
  | locked
  | installed
  /-- `cp_lock` returned false before the version was linked. -/
  | refused
  | aborted
  deriving DecidableEq

/-- A call of `flatten` for a version; the stack is a list, its top first. -/
inductive FlatPc (T α : Type)
  | idle
  | back (fv curr : Version T) (trace : List (Version T))
  | backLoad (fv curr : Version T) (trace : List (Version T))
  | base (fv curr : Version T) (trace : List (Version T))
  | walk (fv : Version T) (value : α) (safe : Nat) (trace : List (Version T))
  | wait (fv : Version T) (value : α) (trace : List (Version T))
  | apply (fv : Version T) (value : α) (trace : List (Version T)) (delta : Bool)
  | cas (fv : Version T) (value : α)
  | store (fv : Version T) (value : α)
  | publish (fv : Version T)
  | done

section
variable {T α : Type} [DecidableEq T] (P : Program T α)

namespace Memory
variable (m : Memory T α)

def updateRtid (v : Version T) (tid : Nat) : Memory T α :=
  { m with rtid := Function.update m.rtid v (max (m.rtid v) tid) }

def setStatus (v : Version T) (s : MvStatus) : Memory T α := { m with status := Function.update m.status v s }

/-- The compare-and-swap that links a version; its own link was set before. -/
def link (v : Version T) (target : Option (Version T)) : Memory T α := { m with chain := linkAfter m.chain v target }

def storeValue (v : Version T) (x : α) : Memory T α :=
  { m with value := Function.update m.value v x, stores := Function.update m.stores v (m.stores v+1) }

end Memory

def ReadPc.step (t : T) (m : Memory T α) : ReadPc T → Option (ReadPc T)
  | .find (.load place) => (after m.chain place).map (fun h => .find (.at h))
  | .find (.at h) =>
    if P.wtid h < P.readTs t ∧ (m.status h).isPending then none  -- wait_if_pending
    else if P.wtid h ≤ P.readTs t ∧ (m.status h).isCommitted then some (.found h)
    else some (.find (.load (some h)))
  | .check v (.load place) => (after m.chain place).map (fun h => .check v (.at h))
  | .check v (.at h) =>
    if h = v then some (.passed v)
    else if m.status h ≠ .aborted ∧ P.wtid h < P.ts t then some .failed
    else some (.check v (.load (some h)))
  | _ => none

def WritePc.step (t : T) (m : Memory T α) : WritePc T → Option (Memory T α × WritePc T)
  | .seek target => (after m.chain target).map (fun x => (m,.probe target x))
  | .probe target x =>
    if P.ts t < P.wtid x then
      if (P.update t).flag = .deleted ∧ (m.status x).isDelta then some (m,.refused) else some (m,.seek (some x))
    else if m.status x = .aborted then some (m,.cas target x)
    else some (m,.probeRtid target x)
  | .probeRtid target x => if P.ts t < m.rtid x then some (m,.refused) else some (m,.cas target x)
  | .cas target x =>
    if after m.chain target = some x then
      some (m.link (.of t) target,
        if (P.update t).flag = .deleted then .wv1 (.load none) else .wv2 (.load (some (.of t))) .deleted)
    else some (m,.seek target)
  | .wv1 (.load place) => (after m.chain place).map (fun h => (m,.wv1 (.at h)))
  | .wv1 (.at h) =>
    if h = .of t then some (m,.wv2 (.load (some (.of t))) .deleted)
    else if (m.status h).isDelta then some (m.setStatus (.of t) .aborted,.aborted)
    else some (m,.wv1 (.load (some h)))
  | .wv2 (.load place) _ =>
    match after m.chain place with
    | some h => some (m,.wv2 (.at h) .deleted)
    | none => some (m,.locked)
  | .wv2 (.at h) .deleted =>
    if (m.status h).isDeleted ∧ (P.update t).flag = .delta then some (m.setStatus (.of t) .aborted,.aborted)
    else some (m,.wv2 (.at h) .committed)
  | .wv2 (.at h) .committed =>
    if (m.status h).isCommitted then some (m,.wv2 (.at h) .rtid) else some (m,.wv2 (.at h) .stop)
  | .wv2 (.at h) .rtid =>
    if P.ts t < m.rtid h then some (m.setStatus (.of t) .aborted,.aborted) else some (m,.wv2 (.at h) .stop)
  | .wv2 (.at h) .stop =>
    if (m.status h).isCommitted then some (m,.locked) else some (m,.wv2 (.load (some h)) .deleted)
  | _ => none

/-- What follows when the top of the stack is done with. -/
def FlatPc.pop (fv : Version T) (value : α) (safe : Nat) : List (Version T) → FlatPc T α
  | [] => .cas fv value
  | trace => .walk fv value safe trace

def FlatPc.step (m : Memory T α) : FlatPc T α → Option (Memory T α × FlatPc T α)
  | .back fv curr trace =>
    if (m.status curr).isFull then some (m,.base fv curr trace) else some (m,.backLoad fv curr (curr :: trace))
  | .backLoad fv curr trace => (after m.chain (some curr)).map (fun h => (m,.back fv h trace))
  | .base fv curr trace => some (m.updateRtid curr (P.wtid fv),FlatPc.pop fv (m.value curr) (P.wtid curr) trace)
  | .walk fv value safe (hnext :: trace) =>
    (after m.chain (some hnext)).map (fun prev =>
      if P.wtid prev ≤ safe then (m,.wait fv value (hnext :: trace))
      else (m,.walk fv value safe (prev :: hnext :: trace)))
  | .wait fv value (hnext :: trace) =>
    if (m.status hnext).isPending then none  -- wait_if_pending
    else if (m.status hnext).isCommitted then some (m,.apply fv value (hnext :: trace) (m.status hnext).isDelta)
    else some (m,FlatPc.pop fv value (P.wtid hnext) trace)
  | .apply fv value (hnext :: trace) delta =>
    some (m.updateRtid hnext (P.wtid fv),
      FlatPc.pop fv (if delta then (P.updateOf hnext).apply value else m.value hnext) (P.wtid hnext) trace)
  | .cas fv value =>
    if m.status fv = .committed .delta then some (m.setStatus fv .locked,.store fv value) else some (m,.done)
  | .store fv value => some (m.storeValue fv value,.publish fv)
  | .publish fv => some (m.setStatus fv (.committed .full),.done)
  | _ => none

end

structure State (T F α : Type) where
  memory : Memory T α
  read : T → ReadPc T
  write : T → WritePc T
  flat : F → FlatPc T α

inductive Action (T F : Type)
  | find (t : T)
  | read (t : T)
  | check (t : T)
  | lock (t : T)
  | write (t : T)
  | install (t : T)
  | abort (t : T)
  | flatten (f : F) (fv : Version T)
  | flat (f : F)

section
variable {T F α : Type} [DecidableEq T] [DecidableEq F] (P : Program T α)

namespace State
variable (s : State T F α)

def start : State T F α where
  memory :=
    { chain := [.initial]
      status := fun
        | .initial => .committed (P.updateOf .initial).flag
        | .of t => .pending (P.update t).flag
      rtid := P.wtid
      value := fun v => (P.updateOf v).apply P.first
      stores := fun _ => 0 }
  read _ := .idle
  write _ := .idle
  flat _ := .idle

/-- `cp_check` up to its loop. A transaction checks when it holds its own version. -/
def startCheck (t : T) : Option (State T F α) :=
  match s.read t with
  | .found v =>
    if s.write t = .idle ∨ s.write t = .locked then
      some { s with
        memory := s.memory.updateRtid v (P.ts t)
        read := Function.update s.read t (.check v (.load none)) }
    else none
  | _ => none

/-- Reads are over when the transaction locks, and checked when it installs. -/
def readDone : ReadPc T → Bool
  | .idle => true
  | .found _ => true
  | _ => false

def readChecked : ReadPc T → Bool
  | .idle => true
  | .passed _ => true
  | _ => false

def next : Action T F → Option (State T F α)
  | .find t =>
    if s.read t = .idle ∧ s.write t = .idle then some { s with read := Function.update s.read t (.find (.load none)) } else none
  | .read t => ((s.read t).step P t s.memory).map (fun r => { s with read := Function.update s.read t r })
  | .check t => s.startCheck P t
  | .lock t =>
    if readDone (s.read t) ∧ s.write t = .idle then some { s with write := Function.update s.write t (.seek none) } else none
  | .write t =>
    ((s.write t).step P t s.memory).map (fun r => { s with memory := r.1, write := Function.update s.write t r.2 })
  | .install t =>
    if s.write t = .locked ∧ readChecked (s.read t) then
      some { s with
        memory := s.memory.setStatus (.of t) (s.memory.status (.of t)).commit
        write := Function.update s.write t .installed }
    else none
  | .abort t =>
    if s.write t ≠ .installed then
      some { s with
        memory := s.memory.setStatus (.of t) .aborted
        read := Function.update s.read t .failed
        write := Function.update s.write t .aborted }
    else none
  | .flatten f fv =>
    match s.flat f with
    | .idle =>
      if s.memory.status fv = .committed .delta then some { s with flat := Function.update s.flat f (.back fv fv []) } else none
    | _ => none
  | .flat f =>
    ((s.flat f).step P s.memory).map (fun r => { s with memory := r.1, flat := Function.update s.flat f r.2 })

end State

def machine : Machine (State T F α) (Action T F) := .ofNext (.start P) (State.next P)

def writeAlone (t : T) (steps : Nat) : List (Action T F) :=
  .lock t :: (List.replicate steps (.write t)).append [.install t]

end

end AlNiCo.Sto.Mvcc
