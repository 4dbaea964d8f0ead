import AlNiCo.Sto.LockVersion
import AlNiCo.Sto.TransactionTid

/-! The 64-bit word of a reader/writer-lock version (EagerVersions.hh, ConcurrencyControl.hh): the
count of read locks in its seven low bits and the write lock above them, under swaps, fetch-and-adds
and the plain stores of a writer. -/
namespace AlNiCo.Sto.LockBits
open Library TransactionTid LockVersion Function Option

section

def dirtyBit : Tid := 1 <<< (maskWidth+3)
def optBit : Tid := 1 <<< (maskWidth+4)

def isDirty (v : Tid) : Bool := v &&& dirtyBit != 0#64

/-- `vv & mask`, the count of read locks. -/
def rlockCnt (vv : Tid) : Nat := (vv &&& threadidMask).toNat

def lockRead (vv : Tid) : Tid := (vv &&& ~~~threadidMask) ||| ((vv &&& threadidMask)+1)

def lockWrite (vv : Tid) : Tid := vv ||| lockBit

def upgrade (vv : Tid) : Tid := (vv-1) ||| lockBit

def unlockRead (adaptive chance : Bool) (v : Tid) : Tid := if adaptive && chance then (v-1) ||| optBit else v-1

/-- What `unlock_write` stores, from the word that it loads. -/
def unlockWrite (adaptive chance : Bool) (v : Tid) : Tid :=
  if adaptive then
    let newV := v &&& ~~~(lockBit ||| dirtyBit)
    if newV &&& optBit != 0#64 && chance then newV &&& ~~~optBit else newV
  else v &&& ~~~(lockBit ||| dirtyBit ||| optBit)

def setVersionUnlockDirty (newV : Tid) : Tid := newV &&& ~~~(lockBit ||| dirtyBit ||| threadidMask)

def cpCommitTid (commitTid v : Tid) : Tid := if commitTid ≠ 0 then commitTid else nextUnflaggedVersion v

end

section Runs
variable {T : Type} [DecidableEq T]

/-- Where a transaction is between two accesses to the word, with the word it has loaded, or the
one that it is about to store. -/
inductive Pc
  | running
  | hinted (addRead : Bool)
  | readLoaded (vv : Tid)
  | writeLoaded (vv : Tid)
  | upgradeLoaded (vv : Tid)
  | checking
  | committed
  | storing (newV : Tid) (delete : Bool)
  | done
deriving DecidableEq

def Pc.canAbort : Pc → Bool
  | .committed | .storing .. | .done => false
  | _ => true

structure Item where
  mode : CCMode
  hasRead : Bool
  hasWrite : Bool
  needsUnlock : Bool
  pc : Pc

structure State (T : Type) where
  word : Tid
  item : T → Item
  -- the row was deleted: its word stays locked, and the row is out of the index
  deleted : Bool

inductive Act
  | observe (addRead : Bool)
  | write
  | commit
  -- the transaction's commit_tid_, and whether the row is deleted
  | install (commitTid : Tid) (delete : Bool)
  | go
  | finish (chance : Bool)
  | abort (chance : Bool)

namespace State

def set (s : State T) (t : T) (x : Item) : State T := { s with item := update s.item t x }

def read (s : State T) (t : T) (addRead : Bool) : Option (State T) :=
  let x := s.item t
  if x.mode = .opt then
    if isDirty s.word then none
    else some (s.set t { x with hasRead := x.hasRead || addRead, pc := .running })
  else if !x.needsUnlock && addRead && !x.hasRead then
    if isLocked s.word then none
    else if rlockCnt s.word < rlockCntMax then some (s.set t { x with pc := .readLoaded s.word })
    else if isDirty s.word then none
    else some (s.set t { x with hasRead := true, pc := .running })
  else some (s.set t { x with pc := .running })

def go (s : State T) (t : T) : Option (State T) :=
  let x := s.item t
  match x.pc with
  | .hinted addRead => s.read t addRead
  | .readLoaded vv =>
    if s.word = vv then
      some { s.set t { x with hasRead := true, needsUnlock := true, pc := .running } with word := lockRead vv }
    else some (s.set t { x with pc := .hinted true })
  | .writeLoaded vv =>
    if s.word = vv then
      some { s.set t { x with hasWrite := true, needsUnlock := true, pc := .running } with word := lockWrite vv }
    else some (s.set t { x with pc := .running })
  | .upgradeLoaded vv =>
    if s.word = vv then some { s.set t { x with hasWrite := true, pc := .running } with word := upgrade vv }
    else some (s.set t { x with pc := .running })
  | .checking =>
    if x.hasRead && (x.hasWrite || !x.needsUnlock) && isDirty s.word && !x.hasWrite then none
    else some (s.set t { x with pc := .committed })
  | .storing newV delete =>
    some { s.set t { x with needsUnlock := false, pc := .done } with word := newV, deleted := s.deleted || delete }
  | _ => none

/-- One access of transaction `t` to the word. A spinning lock attempt is a step that is not ready. -/
def next (adaptive : Bool) (threadid : T → BitVec 7) (s : State T) : T × Act → Option (State T)
  | (t,.go) => s.go t
  | (t,.observe addRead) =>
    if (s.item t).pc = .running then
      let mode := match (s.item t).mode with | .none => if s.word &&& optBit != 0#64 then .opt else .lock | m => m
      some (s.set t { s.item t with mode := mode, pc := .hinted addRead })
    else none
  | (t,.write) =>
    let x := s.item t
    if x.pc = .running ∧ x.hasWrite = false then
      if x.hasRead && x.needsUnlock then
        if rlockCnt s.word = 1 then some (s.set t { x with pc := .upgradeLoaded s.word }) else none
      else if isLocked s.word || rlockCnt s.word != 0 then none
      else some (s.set t { x with pc := .writeLoaded s.word })
    else none
  | (t,.commit) =>
    let x := s.item t
    -- an item that is locked already is not locked again
    if x.pc = .running then some { s.set t { x with pc := .checking } with
      word := if x.hasWrite && !x.needsUnlock then s.word ||| dirtyBit else s.word }
    else none
  | (t,.install commitTid delete) =>
    if (s.item t).pc = .committed ∧ (s.item t).hasWrite = true then
      let v := cpCommitTid commitTid s.word
      let newV := if delete then setVersion v ((threadid t).setWidth 64) else setVersionUnlockDirty v
      some (s.set t { s.item t with pc := .storing newV delete })
    else none
  | (t,.finish chance) =>
    let x := s.item t
    if x.pc = .committed ∧ x.hasWrite = false then
      some { s.set t { x with needsUnlock := false, pc := .done } with
        word := if x.needsUnlock then unlockRead adaptive chance s.word else s.word }
    else none
  | (t,.abort chance) =>
    let x := s.item t
    if !x.pc.canAbort then none
    else if x.needsUnlock && x.hasWrite then
      some (s.set t { x with pc := .storing (unlockWrite adaptive chance s.word) false })
    else some { s.set t { x with needsUnlock := false, pc := .done } with
      word := if x.needsUnlock then unlockRead adaptive chance s.word else s.word }

end State

def object (T : Type) [DecidableEq T] (adaptive : Bool) (threadid : T → BitVec 7) (version : Tid) : Machine (State T) (T × Act) :=
  .ofNext ⟨setVersionUnlockDirty version,fun _ => ⟨.none,false,false,false,.running⟩,false⟩ (State.next adaptive threadid)

def Item.ReadLocked (x : Item) : Prop := x.needsUnlock = true ∧ x.hasWrite = false

def Item.WriteLocked (x : Item) : Prop := x.needsUnlock = true ∧ x.hasWrite = true

end Runs

section
variable {v : Tid}

theorem rlockCnt_eq (v : Tid) : rlockCnt v = v.toNat % 128 := by
  rw [rlockCnt,BitVec.toNat_and,show threadidMask.toNat = 2^7-1 from rfl,Nat.and_two_pow_sub_one_eq_mod]

theorem isLocked_eq_toNat (v : Tid) : isLocked v = decide (v.toNat/128 % 2 = 1) := by
  rw [isLocked_eq,← BitVec.testBit_toNat,Nat.testBit_eq_decide_div_mod_eq]

/-- Bits above the count leave it. -/
theorem rlockCnt_or {m} (h : m &&& threadidMask = 0) : rlockCnt (v ||| m) = rlockCnt v := by
  rw [rlockCnt,BitVec.and_or_distrib_right,h,rlockCnt]
  exact congrArg BitVec.toNat BitVec.or_zero

theorem rlockCnt_and {m} (h : m &&& threadidMask = threadidMask) : rlockCnt (v &&& m) = rlockCnt v := by
  rw [rlockCnt,BitVec.and_assoc,h,rlockCnt]

theorem isLocked_or {m} (h : m &&& lockBit = 0) : isLocked (v ||| m) = isLocked v := by
  rw [isLocked,BitVec.and_or_distrib_right,h,isLocked]
  exact congrArg (fun x : Tid => x != 0#64) BitVec.or_zero

theorem isLocked_and {m} (h : m &&& lockBit = lockBit) : isLocked (v &&& m) = isLocked v := by
  rw [isLocked,BitVec.and_assoc,h,isLocked]

theorem not_isLocked_and {m} (h : m &&& lockBit = 0) : isLocked (v &&& m) = false := by
  rw [isLocked,BitVec.and_assoc,h]
  exact congrArg (fun x : Tid => x != 0#64) BitVec.and_zero

theorem isLocked_lockWrite (v : Tid) : isLocked (lockWrite v) = true := by
  rw [isLocked_eq,lockWrite,BitVec.getLsbD_or,show lockBit.getLsbD 7 = true by decide,Bool.or_true]

theorem rlockCnt_lockWrite (v : Tid) : rlockCnt (lockWrite v) = rlockCnt v := rlockCnt_or (by decide)

theorem countUp_and_mask (h : rlockCnt v < rlockCntMax) : ((v &&& threadidMask)+1) &&& threadidMask = (v &&& threadidMask)+1 := by
  have hcnt : ((v &&& threadidMask)+1).toNat = rlockCnt v+1 := by
    rw [BitVec.toNat_add,show (1 : Tid).toNat = 1 from rfl,← rlockCnt]
    exact Nat.mod_eq_of_lt (by rw [rlockCntMax] at h; omega)
  apply BitVec.eq_of_toNat_eq
  rw [← rlockCnt,rlockCnt_eq,hcnt]
  exact Nat.mod_eq_of_lt (by rw [rlockCntMax] at h; omega)

theorem lockRead_spec (h : rlockCnt v < rlockCntMax) : rlockCnt (lockRead v) = rlockCnt v+1 ∧ isLocked (lockRead v) = isLocked v := by
  constructor
  · rw [lockRead,rlockCnt,BitVec.and_or_distrib_right,BitVec.and_assoc,show ~~~threadidMask &&& threadidMask = 0#64 by decide,
      BitVec.and_zero,BitVec.zero_or,countUp_and_mask h,BitVec.toNat_add,show (1 : Tid).toNat = 1 from rfl,← rlockCnt]
    exact Nat.mod_eq_of_lt (by rw [rlockCntMax] at h; omega)
  · have hcnt : ((v &&& threadidMask)+1) &&& lockBit = 0 := by
      rw [← countUp_and_mask h,BitVec.and_assoc,show threadidMask &&& lockBit = 0#64 by decide]
      exact BitVec.and_zero
    rw [lockRead,isLocked_or hcnt,isLocked_and (by decide)]

theorem toNat_sub_one (h : rlockCnt v ≠ 0) : (v-1).toNat = v.toNat-1 := by
  rw [rlockCnt_eq] at h
  rw [BitVec.toNat_sub,show (1 : Tid).toNat = 1 from rfl]
  have := v.isLt
  omega

theorem rlockCnt_sub_one (h : rlockCnt v ≠ 0) : rlockCnt (v-1) = rlockCnt v-1 := by
  rw [rlockCnt_eq,toNat_sub_one h,rlockCnt_eq]
  rw [rlockCnt_eq] at h
  omega

theorem isLocked_sub_one (h : rlockCnt v ≠ 0) : isLocked (v-1) = isLocked v := by
  rw [isLocked_eq_toNat,isLocked_eq_toNat,toNat_sub_one h]
  rw [rlockCnt_eq] at h
  exact decide_eq_decide.mpr (by omega)

theorem isLocked_upgrade (v : Tid) : isLocked (upgrade v) = true := isLocked_lockWrite (v-1)

theorem rlockCnt_upgrade (h : rlockCnt v ≠ 0) : rlockCnt (upgrade v) = rlockCnt v-1 :=
  (rlockCnt_lockWrite (v-1)).trans (rlockCnt_sub_one h)

theorem unlockRead_spec (adaptive chance : Bool) (h : rlockCnt v ≠ 0) :
    rlockCnt (unlockRead adaptive chance v) = rlockCnt v-1 ∧ isLocked (unlockRead adaptive chance v) = isLocked v := by
  rw [unlockRead]
  split
  · exact ⟨(rlockCnt_or (by decide)).trans (rlockCnt_sub_one h),(isLocked_or (by decide)).trans (isLocked_sub_one h)⟩
  · exact ⟨rlockCnt_sub_one h,isLocked_sub_one h⟩

theorem unlockWrite_spec (adaptive chance : Bool) (v : Tid) :
    rlockCnt (unlockWrite adaptive chance v) = rlockCnt v ∧ isLocked (unlockWrite adaptive chance v) = false := by
  rw [unlockWrite]
  dsimp only
  split
  · split
    · exact ⟨(rlockCnt_and (by decide)).trans (rlockCnt_and (by decide)),(isLocked_and (by decide)).trans (not_isLocked_and (by decide))⟩
    · exact ⟨rlockCnt_and (by decide),not_isLocked_and (by decide)⟩
  · exact ⟨rlockCnt_and (by decide),not_isLocked_and (by decide)⟩

theorem setVersionUnlockDirty_spec (newV : Tid) :
    rlockCnt (setVersionUnlockDirty newV) = 0 ∧ isLocked (setVersionUnlockDirty newV) = false := by
  refine ⟨?_,not_isLocked_and (by decide)⟩
  rw [setVersionUnlockDirty,rlockCnt,BitVec.and_assoc,show ~~~(lockBit ||| dirtyBit ||| threadidMask) &&& threadidMask = 0 by decide]
  exact congrArg BitVec.toNat BitVec.and_zero

theorem isLocked_setVersion (newV here : Tid) : isLocked (setVersion newV here) = true := by
  rw [isLocked_eq,setVersion,BitVec.getLsbD_or,BitVec.getLsbD_or,show lockBit.getLsbD 7 = true by decide,Bool.true_or,Bool.or_true]

end

section Locks
variable {T : Type} {s s' : State T} {t : T}

def Item.toTxn (x : Item) : Txn T := ⟨x.mode,x.hasRead,x.hasWrite,x.needsUnlock,.running,none,false⟩

/-- What the word says: the count is that of the read locks unless the word is locked. -/
def decode (v : Tid) : LockWord :=
  ⟨(TransactionTid.word v).version,if isLocked v then 0 else rlockCnt v,isLocked v,isDirty v,v &&& optBit != 0#64⟩

def Item.At (x : Item) : Pc → Prop
  | .readLoaded vv => x.needsUnlock = false ∧ x.hasWrite = false ∧ isLocked vv = false ∧ rlockCnt vv < rlockCntMax
  | .writeLoaded vv => x.needsUnlock = false ∧ x.hasWrite = false ∧ isLocked vv = false ∧ rlockCnt vv = 0
  | .upgradeLoaded vv => x.ReadLocked ∧ rlockCnt vv = 1
  | .storing newV delete => x.WriteLocked ∧ isLocked newV = delete ∧ (delete = false → rlockCnt newV = 0)
  | .done => x.needsUnlock = false
  | _ => True

structure Item.Ok (x : Item) : Prop where
  read_of_lock : x.ReadLocked → x.hasRead = true
  write_lock : x.hasWrite = true → x.pc ≠ .done → x.needsUnlock = true
  atPc : x.At x.pc

structure Inv (s : State T) : Prop where
  locks : Locks (decode s.word) (fun t => ((s.item t).toTxn : Txn T))
  few : (decode s.word).rlockCnt ≤ rlockCntMax
  zero : ∀ t, (s.item t).WriteLocked → rlockCnt s.word = 0
  held : isLocked s.word = true → s.deleted = false → ∃ t, (s.item t).WriteLocked
  dead : s.deleted = true → isLocked s.word = true ∧ ∀ t, ¬ (s.item t).WriteLocked
  ok : ∀ t, (s.item t).Ok

variable [DecidableEq T]

inductive Step (t : T) (s : State T) : State T → Prop
  | move {mode hasRead pc} (hp : (s.item t).pc ≠ .done) (hr : (s.item t).hasRead = true → hasRead = true)
      (hl : (s.item t).At pc) (hd : pc ≠ .done) : Step t s (s.set t { s.item t with mode := mode, hasRead := hasRead, pc := pc })
  | lockRead (hp : (s.item t).pc = .readLoaded s.word) :
      Step t s { s.set t { s.item t with hasRead := true, needsUnlock := true, pc := .running } with word := lockRead s.word }
  | lockWrite (hp : (s.item t).pc = .writeLoaded s.word) :
      Step t s { s.set t { s.item t with hasWrite := true, needsUnlock := true, pc := .running } with word := lockWrite s.word }
  | upgrade (hp : (s.item t).pc = .upgradeLoaded s.word) :
      Step t s { s.set t { s.item t with hasWrite := true, pc := .running } with word := upgrade s.word }
  | store {newV delete} (hp : (s.item t).pc = .storing newV delete) :
      Step t s { s.set t { s.item t with needsUnlock := false, pc := .done } with word := newV, deleted := s.deleted || delete }
  | unlockRead {adaptive chance} (hp : (s.item t).pc ≠ .done) (hn : (s.item t).ReadLocked) :
      Step t s { s.set t { s.item t with needsUnlock := false, pc := .done } with word := unlockRead adaptive chance s.word }
  | leave (hn : (s.item t).needsUnlock = false) : Step t s (s.set t { s.item t with needsUnlock := false, pc := .done })

theorem Step.of_read {addRead} (hi : Inv s) (hp : (s.item t).pc = .hinted addRead) (h : s.read t addRead = some s') : Step t s s' := by
  have hd : (s.item t).pc ≠ .done := by
    rw [hp]
    nofun
  rw [State.read] at h
  split_ifs at h with hmode hdirty hlock hlocked hcnt hdirty
  · refine some.inj h ▸ .move hd (fun hr => ?_) trivial nofun
    rw [hr,Bool.true_or]
  · rw [Bool.and_eq_true,Bool.and_eq_true,Bool.not_eq_true',Bool.not_eq_true'] at hlock
    have hw : (s.item t).hasWrite = false := by
      apply Bool.eq_false_of_not_eq_true
      intro hw
      exact Bool.false_ne_true (hlock.1.1.symm.trans ((hi.ok t).write_lock hw hd))
    exact some.inj h ▸ .move hd id ⟨hlock.1.1,hw,Bool.eq_false_of_not_eq_true hlocked,hcnt⟩ nofun
  · exact some.inj h ▸ .move hd (fun _ => rfl) trivial nofun
  · exact some.inj h ▸ .move hd id trivial nofun

theorem Step.of_go (hi : Inv s) (h : s.go t = some s') : Step t s s' := by
  have hback {pc : Pc} (hp : (s.item t).pc = pc) (hd : pc ≠ .done) : (s.item t).pc ≠ .done := hp ▸ hd
  rw [State.go] at h
  cases hp : (s.item t).pc with
  | hinted addRead =>
    rw [hp] at h
    exact .of_read hi hp h
  | readLoaded vv =>
    rw [hp] at h
    dsimp only at h
    split_ifs at h with hw
    · exact some.inj h ▸ hw ▸ .lockRead (hw ▸ hp)
    · exact some.inj h ▸ .move (hback hp nofun) id trivial nofun
  | writeLoaded vv =>
    rw [hp] at h
    dsimp only at h
    split_ifs at h with hw
    · exact some.inj h ▸ hw ▸ .lockWrite (hw ▸ hp)
    · exact some.inj h ▸ .move (hback hp nofun) id trivial nofun
  | upgradeLoaded vv =>
    rw [hp] at h
    dsimp only at h
    split_ifs at h with hw
    · exact some.inj h ▸ hw ▸ .upgrade (hw ▸ hp)
    · exact some.inj h ▸ .move (hback hp nofun) id trivial nofun
  | checking =>
    rw [hp] at h
    exact some.inj (ite_none_left_eq_some.mp h).2 ▸ .move (hback hp nofun) id trivial nofun
  | storing newV delete =>
    rw [hp] at h
    exact some.inj h ▸ .store hp
  | running | committed | done =>
    rw [hp] at h
    exact absurd h.symm (some_ne_none s')

/-- The end of a transaction that holds no write lock. -/
theorem Step.of_leave {adaptive chance} (hp : (s.item t).pc ≠ .done) (hw : (s.item t).needsUnlock = true → (s.item t).hasWrite = false) :
    Step t s { s.set t { s.item t with needsUnlock := false, pc := .done } with
      word := if (s.item t).needsUnlock then LockBits.unlockRead adaptive chance s.word else s.word } := by
  by_cases hn : (s.item t).needsUnlock = true
  · rw [if_pos hn]
    exact .unlockRead hp ⟨hn,hw hn⟩
  · rw [if_neg hn]
    exact .leave (Bool.eq_false_of_not_eq_true hn)

theorem Step.of_next {adaptive threadid a} (hi : Inv s) (h : s.next adaptive threadid (t,a) = some s') : Step t s s' := by
  have hok := hi.ok t
  have hrun (hp : (s.item t).pc = .running) : (s.item t).pc ≠ .done := by
    rw [hp]
    nofun
  cases a with
  | go => exact .of_go hi h
  | observe addRead =>
    obtain ⟨hp,rfl⟩ := ite_some_none_eq_some.mp h
    exact .move (hrun hp) id trivial nofun
  | write =>
    rw [State.next] at h
    split_ifs at h with hp hup hcnt hbusy
    · rw [Bool.and_eq_true] at hup
      exact some.inj h ▸ .move (hrun hp.1) id ⟨⟨hup.2,hp.2⟩,hcnt⟩ nofun
    · -- a read lock comes with the read bit, so there is none here
      have hn : (s.item t).needsUnlock = false := by
        apply Bool.eq_false_of_not_eq_true
        intro hn
        exact hup (Bool.and_eq_true _ _ ▸ ⟨hok.read_of_lock ⟨hn,hp.2⟩,hn⟩)
      rw [Bool.or_eq_true,not_or,Bool.not_eq_true,bne_iff_ne,not_not] at hbusy
      exact some.inj h ▸ .move (hrun hp.1) id ⟨hn,hp.2,hbusy.1,hbusy.2⟩ nofun
  | commit =>
    obtain ⟨hp,heq⟩ := ite_none_right_eq_some.mp h
    -- a write item has its lock
    have hword : ((s.item t).hasWrite && !(s.item t).needsUnlock) = false := by
      apply Bool.eq_false_of_not_eq_true
      intro hand
      rw [Bool.and_eq_true,Bool.not_eq_true'] at hand
      exact Bool.false_ne_true (hand.2.symm.trans (hok.write_lock hand.1 (hrun hp)))
    rw [hword] at heq
    exact some.inj heq ▸ .move (hrun hp) id trivial nofun
  | install commitTid delete =>
    obtain ⟨hp,heq⟩ := ite_none_right_eq_some.mp h
    have hd : (s.item t).pc ≠ .done := by
      rw [hp.1]
      nofun
    refine some.inj heq ▸ .move hd id ⟨⟨hok.write_lock hp.2 hd,hp.2⟩,?_,?_⟩ nofun
    · cases delete with
      | false => exact (setVersionUnlockDirty_spec _).2
      | true => exact isLocked_setVersion _ _
    · rintro rfl
      exact (setVersionUnlockDirty_spec _).1
  | finish chance =>
    obtain ⟨hp,rfl⟩ := ite_some_none_eq_some.mp h
    exact .of_leave (by rw [hp.1]; nofun) (fun _ => hp.2)
  | abort chance =>
    rw [State.next] at h
    obtain ⟨hcan,h⟩ := ite_none_left_eq_some.mp h
    have hp : (s.item t).pc ≠ .done := by
      intro hp
      rw [hp] at hcan
      exact hcan rfl
    by_cases hboth : ((s.item t).needsUnlock && (s.item t).hasWrite) = true
    · rw [if_pos hboth] at h
      rw [Bool.and_eq_true] at hboth
      obtain ⟨hcnt,hlock⟩ := unlockWrite_spec adaptive chance s.word
      exact some.inj h ▸ .move hp id ⟨hboth,hlock,fun _ => hcnt.trans (hi.zero t hboth)⟩ nofun
    · rw [if_neg hboth] at h
      refine some.inj h ▸ .of_leave hp (fun hn => ?_)
      rw [hn,Bool.true_and] at hboth
      exact Bool.eq_false_of_not_eq_true hboth

theorem toTxn_update (item : T → Item) (t : T) (x : Item) :
    (fun u => ((update item t x u).toTxn : Txn T)) = update (fun u => ((item u).toTxn : Txn T)) t x.toTxn := by
  funext u
  by_cases hu : u = t
  · rw [hu,update_self,update_self]
  · rw [update_of_ne hu,update_of_ne hu]

section
omit [DecidableEq T]

theorem Locks.of_word {w w' : LockWord} {txn : T → Txn T} (h : Locks w txn) (hcnt : w'.rlockCnt = w.rlockCnt) (hlock : w'.lock = w.lock) :
    Locks w' txn := by
  obtain ⟨R,hR,hc⟩ := h.readers
  exact ⟨⟨R,hR,hc.trans hcnt.symm⟩,fun t ht => hlock ▸ hcnt ▸ h.writer t ht,h.unique⟩

theorem Inv.not_locked (hi : Inv s) (hr : (s.item t).ReadLocked) : isLocked s.word = false ∧ rlockCnt s.word ≠ 0 := by
  have hpos : (if isLocked s.word then 0 else rlockCnt s.word) ≠ 0 := hi.locks.reader_pos (t := t) hr
  by_cases hl : isLocked s.word = true
  · rw [if_pos hl] at hpos
    exact absurd rfl hpos
  · rw [if_neg hl] at hpos
    exact ⟨Bool.eq_false_of_not_eq_true hl,hpos⟩

theorem Inv.not_writer (hi : Inv s) (hl : isLocked s.word = false) (u : T) : ¬ (s.item u).WriteLocked :=
  fun hu => Bool.false_ne_true (hl.symm.trans (hi.locks.writer u hu).1)

end

theorem decode_of_unlocked {v} (h : isLocked v = false) : (decode v).rlockCnt = rlockCnt v := by
  rw [decode,h]
  rfl

theorem decode_of_locked {v} (h : isLocked v = true) : (decode v).rlockCnt = 0 := by
  rw [decode,h]
  rfl

theorem Step.locks (h : Step t s s') (hi : Inv s) : Locks (decode s'.word) (fun u => ((s'.item u).toTxn : Txn T)) := by
  have hat := (hi.ok t).atPc
  cases h with
  | move =>
    rw [State.set,toTxn_update]
    exact hi.locks.congr rfl rfl rfl rfl
  | lockRead hp =>
    rw [hp] at hat
    obtain ⟨hn,hw,hlock,hlt⟩ := hat
    obtain ⟨hcnt,hsame⟩ := lockRead_spec hlt
    have hnew := hi.locks.lockRead (t := t)
      (x := { s.item t with hasRead := true, needsUnlock := true, pc := .running }.toTxn) hlock hn ⟨rfl,hw⟩
    rw [State.set,toTxn_update]
    refine Locks.of_word hnew ?_ hsame
    rw [decode_of_unlocked (hsame.trans hlock),hcnt,decode_of_unlocked hlock]
  | lockWrite hp =>
    rw [hp] at hat
    obtain ⟨hn,-,hlock,hcnt⟩ := hat
    rw [State.set,toTxn_update]
    refine hi.locks.moveWrite (fun u _ => hi.not_writer hlock u) (fun hr => Bool.false_ne_true (hn.symm.trans hr.1)) nofun ?_ (fun _ => ?_)
    · rw [decode_of_locked (isLocked_lockWrite _),decode_of_unlocked hlock,hcnt]
    · exact ⟨isLocked_lockWrite _,decode_of_locked (isLocked_lockWrite _)⟩
  | upgrade hp =>
    rw [hp] at hat
    rw [State.set,toTxn_update]
    refine hi.locks.leaveRead hat.1 nofun ?_ (fun _ => ?_)
    · rw [decode_of_locked (isLocked_upgrade _),decode_of_unlocked (hi.not_locked hat.1).1,hat.2]
    · exact ⟨isLocked_upgrade _,decode_of_locked (isLocked_upgrade _)⟩
  | store hp =>
    rename_i newV delete
    rw [hp] at hat
    obtain ⟨hw,hlock,hcnt⟩ := hat
    have hzero : (decode newV).rlockCnt = 0 := by
      cases delete with
      | true => exact decode_of_locked hlock
      | false => exact (decode_of_unlocked hlock).trans (hcnt rfl)
    rw [State.set,toTxn_update]
    refine hi.locks.moveWrite (fun u hu hwu => hu (hi.locks.unique u t hwu hw))
      (fun hr => Bool.false_ne_true (hr.2.symm.trans hw.2)) nofun ?_ nofun
    exact hzero.trans (hi.locks.writer t hw).2.symm
  | unlockRead hp hr =>
    obtain ⟨hlock,hpos⟩ := hi.not_locked hr
    rename_i adaptive chance
    obtain ⟨hcnt,hsame⟩ := unlockRead_spec adaptive chance hpos
    rw [State.set,toTxn_update]
    refine hi.locks.leaveRead hr nofun ?_ nofun
    rw [decode_of_unlocked (hsame.trans hlock),hcnt,decode_of_unlocked hlock]
  | leave hn =>
    rw [State.set,toTxn_update]
    exact hi.locks.congr hn.symm rfl rfl rfl

theorem Step.ok (h : Step t s s') (hi : Inv s) : ∀ u, (s'.item u).Ok := by
  have hok := hi.ok t
  have hat := hok.atPc
  have hset {x : Item} (hx : x.Ok) : ∀ u, (update s.item t x u).Ok :=
    (forall_update_iff s.item fun _ y => y.Ok).mpr ⟨hx,fun u _ => hi.ok u⟩
  cases h with
  | move hp hr hl hd => exact hset ⟨fun h => hr (hok.read_of_lock h),fun hw _ => hok.write_lock hw hp,hl⟩
  | lockRead hp => exact hset ⟨fun _ => rfl,fun _ _ => rfl,trivial⟩
  | lockWrite hp => exact hset ⟨nofun,fun _ _ => rfl,trivial⟩
  | upgrade hp =>
    rw [hp] at hat
    exact hset ⟨nofun,fun _ _ => hat.1.1,trivial⟩
  | store | unlockRead | leave => exact hset ⟨nofun,fun _ hd => (hd rfl).elim,rfl⟩

section
omit [DecidableEq T]

theorem Inv.deleted_eq_false (hi : Inv s) (h : isLocked s.word = false ∨ ∃ t, (s.item t).WriteLocked) : s.deleted = false := by
  apply Bool.eq_false_of_not_eq_true
  intro hdel
  rcases h with hl | ⟨t,ht⟩
  · exact Bool.false_ne_true (hl.symm.trans (hi.dead hdel).1)
  · exact (hi.dead hdel).2 t ht

/-- The word is not locked: the count is all there is. -/
theorem Inv.of_unlocked (hlocks : Locks (decode s.word) (fun u => ((s.item u).toTxn : Txn T))) (hok : ∀ u, (s.item u).Ok)
    (hl : isLocked s.word = false) (hcnt : rlockCnt s.word ≤ rlockCntMax) (hdel : s.deleted = false) : Inv s where
  locks := hlocks
  few := (decode_of_unlocked hl).trans_le hcnt
  zero u hu := absurd (hl.symm.trans (hlocks.writer u hu).1) Bool.false_ne_true
  held h := absurd (hl.symm.trans h) Bool.false_ne_true
  dead h := absurd (hdel.symm.trans h) Bool.false_ne_true
  ok := hok

theorem Inv.of_writer (hlocks : Locks (decode s.word) (fun u => ((s.item u).toTxn : Txn T))) (hok : ∀ u, (s.item u).Ok)
    (hw : (s.item t).WriteLocked) (hcnt : rlockCnt s.word = 0) (hdel : s.deleted = false) : Inv s where
  locks := hlocks
  few := (hlocks.writer t hw).2.trans_le (Nat.zero_le _)
  zero _ _ := hcnt
  held _ _ := ⟨t,hw⟩
  dead h := absurd (hdel.symm.trans h) Bool.false_ne_true
  ok := hok

/-- The word and the write locks are what they were. -/
theorem Inv.of_same (hi : Inv s) (hlocks : Locks (decode s'.word) (fun u => ((s'.item u).toTxn : Txn T))) (hok : ∀ u, (s'.item u).Ok)
    (hword : s'.word = s.word) (hdel : s'.deleted = s.deleted) (hw : ∀ u, (s'.item u).WriteLocked ↔ (s.item u).WriteLocked) : Inv s' where
  locks := hlocks
  few := hword ▸ hi.few
  zero u hu := hword ▸ hi.zero u ((hw u).mp hu)
  held hl hd := by
    obtain ⟨u,hu⟩ := hi.held (hword ▸ hl) (hdel ▸ hd)
    exact ⟨u,(hw u).mpr hu⟩
  dead hd := by
    obtain ⟨hl,hnone⟩ := hi.dead (hdel ▸ hd)
    exact ⟨hword ▸ hl,fun u hu => hnone u ((hw u).mp hu)⟩
  ok := hok

end

theorem writeLocked_update {x} (hx : x.WriteLocked ↔ (s.item t).WriteLocked) (u : T) :
    (update s.item t x u).WriteLocked ↔ (s.item u).WriteLocked := by
  by_cases hu : u = t
  · rw [hu,update_self]
    exact hx
  · rw [update_of_ne hu]

theorem Step.inv (h : Step t s s') (hi : Inv s) : Inv s' := by
  have hlocks := h.locks hi
  have hok := h.ok hi
  have hat := (hi.ok t).atPc
  cases h with
  | move => exact hi.of_same hlocks hok rfl rfl (fun u => writeLocked_update (by exact Iff.rfl) u)
  | lockRead hp =>
    rw [hp] at hat
    obtain ⟨-,-,hlock,hlt⟩ := hat
    obtain ⟨hcnt,hsame⟩ := lockRead_spec hlt
    exact .of_unlocked hlocks hok (hsame.trans hlock) (hcnt.trans_le hlt) (hi.deleted_eq_false (.inl hlock))
  | lockWrite hp =>
    rw [hp] at hat
    obtain ⟨-,-,hlock,hcnt⟩ := hat
    refine .of_writer (t := t) hlocks hok ?_ ((rlockCnt_lockWrite _).trans hcnt) (hi.deleted_eq_false (.inl hlock))
    dsimp only [State.set]
    rw [update_self]
    exact ⟨rfl,rfl⟩
  | upgrade hp =>
    rw [hp] at hat
    obtain ⟨hlock,hpos⟩ := hi.not_locked hat.1
    refine .of_writer (t := t) hlocks hok ?_ ?_ (hi.deleted_eq_false (.inl hlock))
    · dsimp only [State.set]
      rw [update_self]
      exact ⟨hat.1.1,rfl⟩
    · exact (rlockCnt_upgrade hpos).trans (by rw [hat.2])
  | store hp =>
    rename_i newV delete
    rw [hp] at hat
    obtain ⟨hw,hlock,hcnt⟩ := hat
    have hdel := hi.deleted_eq_false (.inr ⟨t,hw⟩)
    cases delete with
    | false =>
      refine .of_unlocked hlocks hok hlock ((hcnt rfl).trans_le (Nat.zero_le _)) ?_
      rw [hdel]
      rfl
    | true =>
      have hnone (u : T) : ¬ (update s.item t { s.item t with needsUnlock := false, pc := .done } u).WriteLocked := by
        intro hu
        by_cases hut : u = t
        · rw [hut,update_self] at hu
          exact Bool.false_ne_true hu.1
        · rw [update_of_ne hut] at hu
          exact hut (hi.locks.unique u t hu hw)
      refine ⟨hlocks,(decode_of_locked hlock).trans_le (Nat.zero_le _),fun u hu => absurd hu (hnone u),fun _ hd => ?_,
        fun _ => ⟨hlock,hnone⟩,hok⟩
      rw [Bool.or_true] at hd
      exact Bool.noConfusion hd
  | unlockRead hp hr =>
    obtain ⟨hlock,hpos⟩ := hi.not_locked hr
    rename_i adaptive chance
    obtain ⟨hcnt,hsame⟩ := unlockRead_spec adaptive chance hpos
    refine .of_unlocked hlocks hok (hsame.trans hlock) ?_ (hi.deleted_eq_false (.inl hlock))
    have hfew := (decode_of_unlocked hlock) ▸ hi.few
    exact hcnt.trans_le ((Nat.sub_le _ _).trans hfew)
  | leave hn =>
    refine hi.of_same hlocks hok rfl rfl (fun u => writeLocked_update ?_ u)
    exact iff_of_false (fun hx => Bool.false_ne_true hx.1) (fun hx => Bool.false_ne_true (hn.symm.trans hx.1))

theorem inv_start (adaptive : Bool) (threadid : T → BitVec 7) (version : Tid) : Inv (object T adaptive threadid version).start := by
  obtain ⟨hcnt,hlock⟩ := setVersionUnlockDirty_spec version
  refine .of_unlocked ⟨⟨∅,fun _ => iff_of_false (Finset.notMem_empty _) nofun,?_⟩,nofun,nofun⟩ (fun _ => ⟨nofun,nofun,trivial⟩)
    hlock (hcnt.trans_le (Nat.zero_le _)) rfl
  exact ((decode_of_unlocked hlock).trans hcnt).symm

/-- The low bits count the read locks while there is no write lock, at most sixteen; the lock bit is
the write lock, which one transaction has and which excludes the read locks; at the end both are zero.
Only a committed delete leaves its row locked, for nobody. -/
theorem lock_word_counts {adaptive : Bool} {threadid : T → BitVec 7} {version : Tid} {s : State T}
    (h : (object T adaptive threadid version).Reachable s) : ∃ R : Finset T, (∀ t, t ∈ R ↔ (s.item t).ReadLocked) ∧
      R.card ≤ rlockCntMax ∧ (∀ t u, (s.item t).ReadLocked → ¬ (s.item u).WriteLocked) ∧
      (∀ t u, (s.item t).WriteLocked → (s.item u).WriteLocked → t = u) ∧
      (s.deleted = false →
        ((∀ t, ¬ (s.item t).WriteLocked) → (s.word &&& threadidMask).toNat = R.card) ∧
        (isLocked s.word = true ↔ ∃ t, (s.item t).WriteLocked) ∧
        ((∀ t, (s.item t).pc = .done) → (s.word &&& threadidMask).toNat = 0 ∧ isLocked s.word = false)) ∧
      (s.deleted = true → isLocked s.word = true ∧ R = ∅ ∧ ∀ t, ¬ (s.item t).WriteLocked) := by
  have hi : Inv s := h.ofNext_invariant (inv_start adaptive threadid version) (fun s a s' hI hnext =>
    (Step.of_next (t := a.1) (a := a.2) hI hnext).inv hI)
  obtain ⟨R,hR,hcard⟩ := hi.locks.readers
  have hiff : s.deleted = false → (isLocked s.word = true ↔ ∃ t, (s.item t).WriteLocked) := fun hdel =>
    ⟨fun hl => hi.held hl hdel,fun ⟨t,ht⟩ => (hi.locks.writer t ht).1⟩
  have hcount (hdel : s.deleted = false) (hnone : ∀ t, ¬ (s.item t).WriteLocked) : isLocked s.word = false ∧ rlockCnt s.word = R.card := by
    have hl : isLocked s.word = false := Bool.eq_false_of_not_eq_true (fun hl => (hi.held hl hdel).elim hnone)
    exact ⟨hl,(decode_of_unlocked hl).symm.trans hcard.symm⟩
  refine ⟨R,hR,hcard.trans_le hi.few,fun t u ht hu => ?_,hi.locks.unique,fun hdel => ⟨fun hnone => (hcount hdel hnone).2,hiff hdel,?_⟩,
    fun hdel => ⟨(hi.dead hdel).1,?_,(hi.dead hdel).2⟩⟩
  · exact Bool.false_ne_true ((hi.not_locked ht).1.symm.trans (hi.locks.writer u hu).1)
  · intro hdone
    have hfree (t : T) : (s.item t).needsUnlock = false := by
      have hat := (hi.ok t).atPc
      rw [hdone t] at hat
      exact hat
    obtain ⟨hl,hcnt⟩ := hcount hdel (fun t ht => Bool.false_ne_true ((hfree t).symm.trans ht.1))
    have hempty : R = ∅ := Finset.eq_empty_of_forall_notMem (fun t ht => Bool.false_ne_true ((hfree t).symm.trans ((hR t).mp ht).1))
    exact ⟨hcnt.trans (by rw [hempty,Finset.card_empty]),hl⟩
  · exact Finset.eq_empty_of_forall_notMem (fun t ht => Bool.false_ne_true ((hi.not_locked ((hR t).mp ht)).1.symm.trans (hi.dead hdel).1))

end Locks

/-- Two transactions read under locks; one ends, and the other upgrades its lock. -/
def upgradeRun (t u : Bool) : List (Bool × Act) :=
  [(t,.observe true),(u,.observe true),(t,.go),(t,.go),(u,.go),(u,.go),(u,.commit),(u,.go),(u,.finish false),(t,.write),(t,.go)]

theorem lock_word_counts_upgraded :
    let s := (object Bool false (fun _ => 5) incrementValue).play (object Bool false (fun _ => 5) incrementValue).start
        (upgradeRun true false)
    s.word = 0x1080 ∧ s.deleted = false ∧ (s.item true).WriteLocked ∧ ∃ R : Finset Bool, (∀ t, t ∈ R ↔ (s.item t).ReadLocked) ∧
      R.card ≤ rlockCntMax ∧ (isLocked s.word = true ↔ ∃ t, (s.item t).WriteLocked) := by
  have hreach := Machine.Reachable.play .start (upgradeRun true false)
    (show (object Bool false (fun _ => 5) incrementValue).playable (object Bool false (fun _ => 5) incrementValue).start
      (upgradeRun true false) = true by decide +kernel)
  obtain ⟨R,hR,hcard,-,-,hlive,-⟩ := lock_word_counts hreach
  exact ⟨by decide +kernel,by decide +kernel,⟨by decide +kernel,by decide +kernel⟩,R,hR,hcard,(hlive (by decide +kernel)).2.1⟩

def deleteRun (t : Unit) : List (Unit × Act) := [(t,.write),(t,.go),(t,.commit),(t,.go),(t,.install 0 true),(t,.go)]

/-- After a committed delete the word is locked, though every transaction is over and none is
recorded as holding the lock. -/
theorem deleted_row_stays_locked :
    let s := (object Unit false (fun _ => 0) incrementValue).play (object Unit false (fun _ => 0) incrementValue).start (deleteRun ())
    (object Unit false (fun _ => 0) incrementValue).Reachable s ∧ (s.item ()).pc = .done ∧ (s.item ()).needsUnlock = false ∧
      isLocked s.word = true := by
  refine ⟨Machine.Reachable.play .start (deleteRun ()) (by decide +kernel),?_,?_,?_⟩
  · decide +kernel
  · decide +kernel
  · decide +kernel

end AlNiCo.Sto.LockBits
