import AlNiCo.Sto.MvFlatten

/-! Garbage collection of an `MvObject`. Whoever makes a version full registers
`gc_committed_cb` for it. The callback walks down from that version to the next full one,
marks every version on its way with `GARBAGE` and hands it to `gc_deleted_cb`. Transactions
begin, draw timestamps and finish; they flatten the versions they have found, and
`gc_flatten_cb` flattens in the background. -/
namespace AlNiCo.Sto.MvGarbage
open Library DescendingChain Function
open Mvcc (Version Program Memory MvStatus ReadPc WritePc FlatPc Action)

inductive Phase
  | fresh
  | active
  | finished
  deriving DecidableEq

/-- `gc_flatten_cb`: its walk from the head, and the call of `flatten` at its end. -/
inductive ScanPc (T : Type)
  | idle
  | walk (flattenv : Nat) (w : Walk (Version T))
  | flatten
  | done
  deriving DecidableEq

/-- Who registers a callback: `cp_install` of a transaction, or a call of `flatten`. -/
inductive Caller (T B : Type)
  | install (t : T)
  | flatten (f : T ⊕ B)
  deriving DecidableEq

/-- `gc_committed_cb` for the version `base`; `h` and `next` are the variables of its loop. -/
inductive GcPc (T : Type)
  | idle
  | registered (base : Version T)
  | visit (base h : Version T)
  | status (base h : Version T) (next : Option (Version T))
  | mark (base h : Version T) (next : Option (Version T)) (st : MvStatus)
  /-- The mark is set; the loop around the compare-and-swap has still to fail once. -/
  | marked (base h : Version T) (next : Option (Version T))
  | done (base h : Version T)
  deriving DecidableEq

def ScanPc.running {T : Type} : ScanPc T → Bool
  | .walk _ _ => true
  | .flatten => true
  | _ => false

def seen {T : Type} : ReadPc T → Option (Version T)
  | .found v => some v
  | .check v _ => some v
  | .passed v => some v
  | _ => none

def readOver {T : Type} : ReadPc T → Bool
  | .find _ => false
  | .check _ _ => false
  | _ => true

/-- The transaction writes nothing, or its version is settled. -/
def writeOver {T : Type} : WritePc T → Bool
  | .idle => true
  | .installed => true
  | .aborted => true
  | _ => false

def GcPc.base {T : Type} : GcPc T → Option (Version T)
  | .idle => none
  | .registered base => some base
  | .visit base _ => some base
  | .status base _ _ => some base
  | .mark base _ _ _ => some base
  | .marked base _ _ => some base
  | .done base _ => some base

/-- The loop goes on at `next`, unless the version just handed over is full. -/
def GcPc.leave {T : Type} (base h : Version T) (next : Option (Version T)) (st : MvStatus) : GcPc T :=
  if st.isFull then .done base h else next.elim (.done base h) (.visit base)

structure State (T B α : Type) where
  object : Mvcc.State T (T ⊕ B) α
  /-- `_TID`. -/
  tid : Nat
  phase : T → Phase
  drawn : T → Bool
  scan : B → ScanPc T
  garbage : Version T → Bool
  gc : Caller T B → GcPc T
  /-- Who was running when a callback was registered. -/
  waits : Caller T B → T ⊕ B → Bool
  /-- The versions handed to `gc_deleted_cb`, the last one first. -/
  handed : List (Version T)

inductive Act (T B : Type)
  | begin (t : T)
  | draw (t : T)
  | finish (t : T)
  | object (a : Action T (T ⊕ B))
  | background (b : B) (flattenv : Nat)
  | scan (b : B)
  | collect (c : Caller T B)

section Machine
variable {T B α : Type} [DecidableEq T] [DecidableEq B] (P : Program T α)

namespace State
variable (s : State T B α)

def start : State T B α where
  object := .start P
  tid := 0
  phase _ := .fresh
  drawn _ := false
  scan _ := .idle
  garbage _ := false
  gc _ := .idle
  waits _ _ := false
  handed := []

def running : T ⊕ B → Bool
  | .inl t => decide (s.phase t = .active)
  | .inr b => (s.scan b).running

/-- The bit `GARBAGE` after a step: `cp_install` keeps it, any other store of a status
clears it. -/
def keptGarbage (m : Memory T α) (v : Version T) : Bool :=
  s.garbage v && (decide (m.status v = s.object.memory.status v) ||
    (s.object.memory.status v).isPending && (m.status v).isCommitted)

def withObject (o : Mvcc.State T (T ⊕ B) α) : State T B α := { s with object := o, garbage := s.keptGarbage o.memory }

/-- `rcu_call(gc_committed_cb,v)`. The call touches nothing that is shared, so it goes with
the store before it. -/
def register (c : Caller T B) (v : Version T) : State T B α :=
  { s with gc := update s.gc c (.registered v), waits := update s.waits c s.running }

def act (a : Action T (T ⊕ B)) : Option (State T B α) := (s.object.next P a).map s.withObject

def own (t : T) (a : Action T (T ⊕ B)) : Option (State T B α) :=
  if s.phase t = .active ∧ (s.object.flat (.inl t)).target = none then s.act P a else none

/-- `flatten` expects exactly `COMMITTED_DELTA`, so its compare-and-swap fails on garbage. -/
def runFlatten (f : T ⊕ B) : Option (State T B α) :=
  match s.object.flat f with
  | .cas fv _ =>
    if s.garbage fv then some (s.withObject { s.object with flat := update s.object.flat f .done })
    else s.act P (.flat f)
  | .publish fv => (s.act P (.flat f)).map (fun s' => s'.register (.flatten f) fv)
  | _ => s.act P (.flat f)

/-- The steps on the object. A transaction has its write timestamp before it reads, unless
it reads at an earlier one, and before it locks or checks. -/
def use : Action T (T ⊕ B) → Option (State T B α)
  | .find t => if P.readTs t = P.ts t → s.drawn t = true then s.own P t (.find t) else none
  | .read t => s.own P t (.read t)
  | .check t => if s.drawn t then s.own P t (.check t) else none
  | .lock t => if s.drawn t then s.own P t (.lock t) else none
  | .write t => s.own P t (.write t)
  | .install t =>
    (s.own P t (.install t)).map
      (fun s' => if (P.update t).flag = .delta then s' else s'.register (.install t) (.of t))
  | .abort t => s.own P t (.abort t)
  | .flatten (.inl t) fv =>
    if s.phase t = .active ∧ seen (s.object.read t) = some fv then s.act P (.flatten (.inl t) fv) else none
  | .flatten (.inr _) _ => none
  | .flat f => s.runFlatten P f

def setScan (b : B) (c : ScanPc T) : State T B α := { s with scan := update s.scan b c }

def goOn (b : B) : Option (State T B α) :=
  match s.scan b with
  | .walk flattenv (.load place) =>
    (after s.object.memory.chain place).map (fun h => s.setScan b (.walk flattenv (.at h)))
  | .walk flattenv (.at h) =>
    if flattenv < P.wtid h ∧ (s.object.memory.status h).isFull = false ∧ s.object.memory.status h ≠ .locked then
      some (s.setScan b (.walk flattenv (.load (some h))))
    else if s.object.memory.status h = .committed .delta ∧ s.garbage h = false then
      (s.act P (.flatten (.inr b) h)).map (fun s' => s'.setScan b .flatten)
    else some (s.setScan b .done)
  | .flatten => if (s.object.flat (.inr b)).target = none then some (s.setScan b .done) else none
  | _ => none

def setGc (c : Caller T B) (pc : GcPc T) : State T B α := { s with gc := update s.gc c pc }

/-- `rcu_call(gc_deleted_cb,h)`, and the end of the loop's body. -/
def handOver (c : Caller T B) (base h : Version T) (next : Option (Version T)) : State T B α :=
  { s with
    gc := update s.gc c (.leave base h next (s.object.memory.status h))
    handed := h :: s.handed }

def collect (c : Caller T B) : Option (State T B α) :=
  match s.gc c with
  | .registered base =>
    some (s.setGc c ((after s.object.memory.chain (some base)).elim (.done base base) (.visit base)))
  | .visit base h => some (s.setGc c (.status base h (after s.object.memory.chain (some h))))
  | .status base h next =>
    if s.garbage h then some (s.handOver c base h next)
    else some (s.setGc c (.mark base h next (s.object.memory.status h)))
  | .mark base h next st =>
    if s.object.memory.status h = st ∧ s.garbage h = false then
      some { s with garbage := update s.garbage h true, gc := update s.gc c (.marked base h next) }
    else some (s.handOver c base h next)
  | .marked base h next => some (s.handOver c base h next)
  | _ => none

def next : Act T B → Option (State T B α)
  | .begin t => if s.phase t = .fresh then some { s with phase := update s.phase t .active } else none
  | .draw t =>
    -- `_TID.fetch_add`; the timestamps in between go to transactions on other objects
    if s.phase t = .active ∧ s.drawn t = false ∧ s.tid ≤ P.ts t then
      some { s with tid := P.ts t+1, drawn := update s.drawn t true }
    else none
  | .finish t =>
    if s.phase t = .active ∧ readOver (s.object.read t) = true ∧ writeOver (s.object.write t) = true ∧
        (s.object.flat (.inl t)).target = none then
      some { s with phase := update s.phase t .finished }
    else none
  | .object a => s.use P a
  | .background b flattenv => if s.scan b = .idle then some (s.setScan b (.walk flattenv (.load none))) else none
  | .scan b => s.goOn P b
  | .collect c => s.collect c

/-- No active transaction has a timestamp below that of the version the callback is for. -/
def Timely (c : Caller T B) : Prop := ∀ h ∈ (s.gc c).base, ∀ t, s.phase t = .active → P.wtid h ≤ P.readTs t

/-- Whoever was running when the callback was registered has finished. -/
def Grace (c : Caller T B) : Prop := ∀ r, s.waits c r = true → s.running r = false

end State

def TimelyOnly (s : State T B α) : Act T B → Prop
  | .collect c => s.Timely P c
  | _ => True

def Assumed (s : State T B α) : Act T B → Prop
  | .collect c => s.Timely P c ∧ s.Grace c
  | _ => True

def machine : Machine (State T B α) (Act T B) := .ofNext (.start P) (State.next P)

end Machine

end AlNiCo.Sto.MvGarbage
