import AlNiCo.Library.Machine
import AlNiCo.Library.RingLog
import Mathlib

/-! The Strife build: workers that push the messages they receive to one another,
count what is in their own queue and execute it batch by batch, and the thread
`phase_sync_strife` that moves them through the phases of a round. The messages are
of any type; what a transaction does is not modelled. -/
namespace AlNiCo.Strife
open Library

inductive Phase
  | zero
  | one
  | two
deriving DecidableEq

def Phase.next : Phase → Phase
  | .zero => .one
  | .one => .two
  | .two => .zero

def strifeBufNum : Nat := 1024*64

/-- Where a worker is in its loop. Between two of these points a worker reads or
writes at most one thing that another thread reads or writes. -/
inductive Pc (α : Type*)
  /-- `run_strife_once`. -/
  | run
  /-- `push_new_request_stife`, between fetch-and-add and store. -/
  | pushing (core ticket : Nat) (msg : α)
  /-- `count_strife`. -/
  | count
  | testOne
  | setOne
  | testTwo
  /-- `store_count`. -/
  | store
  | setTwo
  | testZero
  | batch
  | setZero
  /-- `next_txn_check_strife`. -/
  | check
  | execute (msg : α)
  /-- `reply_now_strife` or `next_now_strife`. -/
  | down
deriving DecidableEq

structure Core (α : Type*) where
  pc : Pc α
  phase : Phase
  /-- The cells, `none` for `0xFFFFFFFF`. -/
  cell : Nat → Option α
  head : Nat
  cqSignalId : Nat
  strifeMsgId : Nat
  /-- The counter of the worker in `strife_batch`. -/
  reqCount : BitVec 64
  lastEpochNum : BitVec 32
  batchReqNum : BitVec 32
  /-- What has been pushed, in the order of the fetch-and-adds, with the stores done. -/
  log : List (α × Bool)
  counted : List α
  /-- How much was counted at each snapshot. -/
  cuts : List Nat
  /-- What has been executed, with the number of snapshots taken by then. -/
  executed : List (α × Nat)

namespace Core
variable {α : Type*}

def start : Core α where
  pc := .run
  phase := .zero
  cell _ := none
  head := 0
  cqSignalId := 0
  strifeMsgId := 0
  reqCount := 0
  lastEpochNum := 0
  batchReqNum := 0
  log := []
  counted := []
  cuts := []
  executed := []

/-- `store_count`; the subtraction is done in 64 bits and cut to an `int`. -/
def storeCount (c : Core α) : Core α :=
  let last := c.reqCount.setWidth 32
  { c with
    lastEpochNum := last
    batchReqNum := (last.signExtend 64-c.lastEpochNum.signExtend 64).setWidth 32
    cuts := c.cuts ++ [c.counted.length] }

def work (now : Phase) (c : Core α) : Core α :=
  match c.pc with
  | .run => { c with pc := .count }
  | .pushing _ _ _ => c
  | .count =>
    match c.cell c.cqSignalId with
    | some msg =>
      { c with
        reqCount := c.reqCount+1
        cqSignalId := (c.cqSignalId+1) % strifeBufNum
        counted := c.counted ++ [msg] }
    | none => { c with pc := .testOne }
  | .testOne => { c with pc := if now = .one ∧ c.phase = .zero then .setOne else .testTwo }
  | .setOne => { c with phase := .one, pc := .testTwo }
  | .testTwo => { c with pc := if c.phase = .one ∧ now = .two then .store else .testZero }
  | .store => { c.storeCount with pc := .setTwo }
  | .setTwo => { c with phase := .two, pc := .testZero }
  | .testZero => { c with pc := if now = .zero ∧ c.phase = .two then .batch else .run }
  | .batch => { c with pc := if c.batchReqNum = 0 then .setZero else .check }
  | .setZero => { c with phase := .zero, pc := .run }
  | .check =>
    match c.cell c.strifeMsgId with
    | some msg => { c with pc := .execute msg }
    | none => { c with pc := .run }
  | .execute msg =>
    { c with
      batchReqNum := c.batchReqNum-1
      executed := c.executed ++ [(msg,c.cuts.length)]
      pc := .down }
  | .down =>
    { c with
      cell := Function.update c.cell c.strifeMsgId none
      strifeMsgId := (c.strifeMsgId+1) % strifeBufNum
      pc := .run }

def reserve (c : Core α) (msg : α) : Core α :=
  { c with
    head := c.head+1
    log := c.log ++ [(msg,false)] }

def put (c : Core α) (ticket : Nat) (msg : α) : Core α :=
  { c with
    cell := Function.update c.cell (ticket % strifeBufNum) (some msg)
    log := c.log.set ticket (msg,true) }

def isPushing (c : Core α) : Bool :=
  match c.pc with
  | .pushing _ _ _ => true
  | _ => false

end Core

structure State (α : Type*) where
  /-- `now_phase`. -/
  now : Phase
  /-- The loop of `phase_sync_strife`. -/
  i : Nat
  flag : Bool
  core : Nat → Core α
  /-- How often phase 2 has begun. -/
  round : Nat

inductive Action (α : Type*)
  | push (w core : Nat) (msg : α)
  | store (w : Nat)
  | work (w : Nat)
  | look
  /-- The `switch`, with what `check_batch_size` answers. -/
  | turn (full : Bool)

namespace State
variable {α : Type*}

def start : State α := ⟨.zero,0,true,fun _ => .start,0⟩

def setCore (s : State α) (w : Nat) (c : Core α) : State α := { s with core := Function.update s.core w c }

def setPc (s : State α) (w : Nat) (pc : Pc α) : State α := s.setCore w { s.core w with pc := pc }

def turnPhase (s : State α) (full : Bool) : Phase := if s.now = .one ∧ full = false then .one else s.now.next

def step (s : State α) : Action α → State α
  | .push w core msg =>
    (s.setCore core ((s.core core).reserve msg)).setPc w (.pushing core (s.core core).head msg)
  | .store w =>
    match (s.core w).pc with
    | .pushing core ticket msg => (s.setCore core ((s.core core).put ticket msg)).setPc w .run
    | _ => s
  | .work w => s.setCore w ((s.core w).work s.now)
  | .look => { s with i := s.i+1, flag := s.flag && (s.core s.i).phase == s.now }
  | .turn full =>
    { s with
      now := if s.flag then s.turnPhase full else s.now
      i := 0
      flag := true
      round := if s.flag = true ∧ s.now = .one ∧ full = true then s.round+1 else s.round }

/-- At most 48000 of the messages pushed to a worker are not executed. -/
def ready (workers : Nat) (s : State α) : Action α → Bool
  | .push w core _ => w < workers && core < workers && (match (s.core w).pc with | .run => true | _ => false) &&
      (s.core core).log.length < (s.core core).executed.length+48000
  | .store w => w < workers && (s.core w).isPushing
  | .work w => w < workers && !(s.core w).isPushing
  | .look => s.i < workers
  | .turn _ => s.i == workers

end State

def machine (α : Type*) (workers : Nat) : Machine (State α) (Action α) := ⟨.start,State.ready workers,State.step⟩

end AlNiCo.Strife
