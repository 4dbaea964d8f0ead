import Mathlib
import AlNiCo.Library.Machine

/-! The reader/writer-lock version of one object: a count of read locks and a write lock in one
word, reads that fall back to optimistic mode, and commits that check those reads. The version is
assumed never to wrap around. -/
namespace AlNiCo.Sto.LockVersion
open Library Function Option

def rlockCntMax : Nat := 16

/-- The version word; `rlockCnt` is its low field. -/
structure LockWord where
  version : Nat
  rlockCnt : Nat
  lock : Bool
  dirty : Bool
  opt : Bool
deriving DecidableEq

inductive CCMode
  | none | opt | lock
deriving DecidableEq

/-- Where a transaction is between two atomic steps, with the word it has loaded. -/
inductive Pc
  | running
  | hinted
  | readLoaded (vv : LockWord)
  | writeLoaded (vv : LockWord)
  | upgradeLoaded (vv : LockWord)
  | checking
  | committed
  | installing
  | done
deriving DecidableEq

structure Txn (T : Type) where
  mode : CCMode
  hasRead : Bool
  hasWrite : Bool
  needsUnlock : Bool
  pc : Pc
  /-- Who had installed when the object was first read. -/
  readAt : Option (List T)
  /-- It was read without a lock. -/
  optimistic : Bool

structure State (T : Type) where
  word : LockWord
  txn : T → Txn T
  installs : List T
  /-- Who committed, with the installs at its read and at its commit. -/
  commits : List (T × List T × List T)

inductive Act
  | observe | write | commit | install | go
  | finish (chance : Bool)
  | abort (chance : Bool)

namespace LockWord

/-- `unlock_read`: an adaptive version may set the optimistic hint. -/
def unlockRead (adaptive chance : Bool) (w : LockWord) : LockWord :=
  { w with rlockCnt := w.rlockCnt-1, opt := w.opt || (adaptive && chance) }

/-- `unlock_write`: an adaptive version may clear the hint, any other always does. -/
def unlockWrite (adaptive chance : Bool) (w : LockWord) : LockWord :=
  { w with lock := false, dirty := false, opt := w.opt && adaptive && !chance }

end LockWord

section
variable {T : Type} [DecidableEq T]

def Txn.noteRead (x : Txn T) (installs : List T) (optimistic : Bool) : Txn T :=
  match x.readAt with
  | none => { x with readAt := some installs, optimistic := optimistic }
  | some _ => x

namespace State

def set (s : State T) (t : T) (x : Txn T) : State T := { s with txn := update s.txn t x }

/-- `observe_read` once the mode is chosen: an optimistic read, a read under a lock that is held,
or the load before a read lock is taken. -/
def read (s : State T) (t : T) : Option (State T) :=
  let x := s.txn t
  if x.mode = .opt then
    if s.word.dirty then none
    else some (s.set t ({ x with hasRead := true, pc := .running }.noteRead s.installs (!x.needsUnlock)))
  else if x.needsUnlock then some (s.set t ({ x with pc := .running }.noteRead s.installs false))
  else if x.hasRead then some (s.set t { x with pc := .running })
  else if s.word.lock then none
  else if rlockCntMax ≤ s.word.rlockCnt then
    if s.word.dirty then none
    else some (s.set t ({ x with hasRead := true, pc := .running }.noteRead s.installs true))
  else some (s.set t { x with pc := .readLoaded s.word })

def go (s : State T) (t : T) : Option (State T) :=
  let x := s.txn t
  match x.pc with
  | .hinted => s.read t
  | .readLoaded vv =>
    if s.word = vv then
      some { s.set t ({ x with hasRead := true, needsUnlock := true, pc := .running }.noteRead s.installs false) with
        word := { vv with rlockCnt := vv.rlockCnt+1 } }
    else some (s.set t { x with pc := .hinted })
  | .writeLoaded vv =>
    if s.word = vv then
      some { s.set t { x with hasWrite := true, needsUnlock := true, pc := .running } with word := { vv with lock := true } }
    else some (s.set t { x with pc := .running })
  | .upgradeLoaded vv =>
    if s.word = vv then
      some { s.set t { x with hasWrite := true, pc := .running } with
        word := { vv with rlockCnt := vv.rlockCnt-1, lock := true } }
    else some (s.set t { x with pc := .running })
  | .checking =>
    -- the version that was read is not compared
    if x.hasRead && (x.hasWrite || !x.needsUnlock) && s.word.dirty && !x.hasWrite then none
    else some { s.set t { x with pc := .committed } with
      commits := match x.readAt with | none => s.commits | some b => (t,b,s.installs)::s.commits }
  | .installing => some { s.set t { x with needsUnlock := false, pc := .done } with word := ⟨s.word.version+1,0,false,false,false⟩ }
  | _ => none

/-- One atomic step of transaction `t`. A spinning lock attempt is a step that is not ready. -/
def next (adaptive : Bool) (s : State T) : T × Act → Option (State T)
  | (t,.go) => s.go t
  | (t,.observe) =>
    if (s.txn t).pc = .running then
      let mode := match (s.txn t).mode with | .none => if s.word.opt then .opt else .lock | m => m
      some (s.set t { s.txn t with mode := mode, pc := .hinted })
    else none
  | (t,.write) =>
    let x := s.txn t
    if x.pc = .running ∧ x.hasWrite = false then
      if x.hasRead && x.needsUnlock then
        if s.word.rlockCnt = 1 then some (s.set t { x with pc := .upgradeLoaded s.word }) else none
      else if s.word.lock || s.word.rlockCnt != 0 then none
      else some (s.set t { x with pc := .writeLoaded s.word })
    else none
  | (t,.commit) => if (s.txn t).pc = .running then some (s.set t { s.txn t with pc := .checking }) else none
  | (t,.install) =>
    if (s.txn t).pc = .committed ∧ (s.txn t).hasWrite = true then
      some { s.set t { s.txn t with pc := .installing } with installs := t::s.installs }
    else none
  | (t,.finish chance) =>
    let x := s.txn t
    if x.pc = .committed ∧ x.hasWrite = false then
      some { s.set t { x with needsUnlock := false, pc := .done } with
        word := if x.needsUnlock then s.word.unlockRead adaptive chance else s.word }
    else none
  | (t,.abort chance) =>
    let x := s.txn t
    if x.pc = .committed ∨ x.pc = .installing ∨ x.pc = .done then none
    else some { s.set t { x with needsUnlock := false, pc := .done } with
      word := if x.hasWrite then s.word.unlockWrite adaptive chance
        else if x.needsUnlock then s.word.unlockRead adaptive chance else s.word }

end State

def object (T : Type) [DecidableEq T] (adaptive : Bool) (version : Nat) : Machine (State T) (T × Act) :=
  .ofNext ⟨⟨version,0,false,false,false⟩,fun _ => ⟨.none,false,false,false,.running,none,false⟩,[],[]⟩ (State.next adaptive)

section Steps
variable {s s' : State T} {t : T}

def Txn.ReadLocked (x : Txn T) : Prop := x.needsUnlock = true ∧ x.hasWrite = false

def Txn.WriteLocked (x : Txn T) : Prop := x.needsUnlock = true ∧ x.hasWrite = true

def Pc.Final : Pc → Prop
  | .committed | .installing | .done => True
  | _ => False

def Txn.At (x : Txn T) : Pc → Prop
  | .readLoaded vv => x.needsUnlock = false ∧ x.hasWrite = false ∧ vv.lock = false
  | .writeLoaded vv => x.needsUnlock = false ∧ x.hasWrite = false ∧ vv.lock = false ∧ vv.rlockCnt = 0
  | .upgradeLoaded vv => x.ReadLocked ∧ vv.rlockCnt = 1
  | .installing => x.hasWrite = true
  | .done => x.needsUnlock = false
  | _ => True

inductive Step (t : T) (s : State T) : State T → Prop
  | move {mode pc} (hp : ¬ (s.txn t).pc.Final) (hpc : ¬ pc.Final) (hl : (s.txn t).At pc) :
      Step t s (s.set t { s.txn t with mode := mode, pc := pc })
  | read {hasRead o} (hp : (s.txn t).pc = .hinted) (hr : (s.txn t).hasRead = true → hasRead = true)
      (ho : o = false → (s.txn t).needsUnlock = true) :
      Step t s (s.set t ({ s.txn t with hasRead := hasRead, pc := .running }.noteRead s.installs o))
  | lockRead (hp : (s.txn t).pc = .readLoaded s.word) :
      Step t s { s.set t ({ s.txn t with hasRead := true, needsUnlock := true, pc := .running }.noteRead s.installs false) with
        word := { s.word with rlockCnt := s.word.rlockCnt+1 } }
  | lockWrite (hp : (s.txn t).pc = .writeLoaded s.word) :
      Step t s { s.set t { s.txn t with hasWrite := true, needsUnlock := true, pc := .running } with
        word := { s.word with lock := true } }
  | upgrade (hp : (s.txn t).pc = .upgradeLoaded s.word) :
      Step t s { s.set t { s.txn t with hasWrite := true, pc := .running } with
        word := { s.word with rlockCnt := s.word.rlockCnt-1, lock := true } }
  | commit (hp : (s.txn t).pc = .checking) :
      Step t s { s.set t { s.txn t with pc := .committed } with
        commits := match (s.txn t).readAt with | none => s.commits | some b => (t,b,s.installs)::s.commits }
  | install (hp : (s.txn t).pc = .committed) (hw : (s.txn t).hasWrite = true) :
      Step t s { s.set t { s.txn t with pc := .installing } with installs := t::s.installs }
  | installed (hp : (s.txn t).pc = .installing) :
      Step t s { s.set t { s.txn t with needsUnlock := false, pc := .done } with word := ⟨s.word.version+1,0,false,false,false⟩ }
  | releaseRead {w} (hp : (s.txn t).pc ≠ .done) (hw : (s.txn t).hasWrite = false)
      (hcnt : w.rlockCnt = if (s.txn t).needsUnlock then s.word.rlockCnt-1 else s.word.rlockCnt) (hlock : w.lock = s.word.lock) :
      Step t s { s.set t { s.txn t with needsUnlock := false, pc := .done } with word := w }
  | releaseWrite {w} (hp : (s.txn t).pc ≠ .done) (hi : (s.txn t).pc ≠ .installing) (hw : (s.txn t).hasWrite = true)
      (hcnt : w.rlockCnt = s.word.rlockCnt) :
      Step t s { s.set t { s.txn t with needsUnlock := false, pc := .done } with word := w }

structure Txn.Ok (installs : List T) (x : Txn T) : Prop where
  read_of_lock : x.ReadLocked → x.hasRead = true
  write_lock : x.hasWrite = true → x.pc ≠ .done → x.needsUnlock = true
  held : ∀ b, x.readAt = some b → x.optimistic = false → x.pc ≠ .installing → x.pc ≠ .done → x.needsUnlock = true ∧ installs = b
  atPc : x.At x.pc

/-- The word counts the read locks, and a write lock excludes every other lock. -/
structure Locks (word : LockWord) (txn : T → Txn T) : Prop where
  readers : ∃ R : Finset T, (∀ t, t ∈ R ↔ (txn t).ReadLocked) ∧ R.card = word.rlockCnt
  writer : ∀ t, (txn t).WriteLocked → word.lock = true ∧ word.rlockCnt = 0
  unique : ∀ t u, (txn t).WriteLocked → (txn u).WriteLocked → t = u

structure Inv (s : State T) : Prop where
  locks : Locks s.word s.txn
  ok : ∀ t, (s.txn t).Ok s.installs
  commits : ∀ t b a, (t,b,a) ∈ s.commits → (s.txn t).pc.Final ∧ ((s.txn t).optimistic = false → a = b)

theorem Step.of_read (hp : (s.txn t).pc = .hinted) (hok : (s.txn t).Ok s.installs) (h : s.read t = some s') : Step t s s' := by
  have hfree (hn : ¬ (s.txn t).needsUnlock = true) : (s.txn t).hasWrite = false := by
    apply Bool.eq_false_of_not_eq_true
    intro hw
    exact hn (hok.write_lock hw (by rw [hp]; nofun))
  have hnf : ¬ (s.txn t).pc.Final := by
    rw [hp]
    exact id
  simp only [State.read] at h
  split_ifs at h with hmode hdirty hn hr hlock hcnt hdirty
  · refine some.inj h ▸ .read hp (fun _ => rfl) fun ho => ?_
    simpa using ho
  · exact some.inj h ▸ .read hp id fun _ => hn
  · exact some.inj h ▸ .move hnf id trivial
  · exact some.inj h ▸ .read hp (fun _ => rfl) nofun
  · exact some.inj h ▸ .move hnf id ⟨Bool.eq_false_of_not_eq_true hn,hfree hn,Bool.eq_false_of_not_eq_true hlock⟩

theorem Step.of_go (hok : (s.txn t).Ok s.installs) (h : s.go t = some s') : Step t s s' := by
  simp only [State.go] at h
  split at h
  · rename_i hp
    exact .of_read hp hok h
  · rename_i vv hp
    split_ifs at h with hw
    · subst hw
      exact some.inj h ▸ .lockRead hp
    · exact some.inj h ▸ .move (by rw [hp]; exact id) id trivial
  · rename_i vv hp
    split_ifs at h with hw
    · subst hw
      exact some.inj h ▸ .lockWrite hp
    · exact some.inj h ▸ .move (by rw [hp]; exact id) id trivial
  · rename_i vv hp
    split_ifs at h with hw
    · subst hw
      exact some.inj h ▸ .upgrade hp
    · exact some.inj h ▸ .move (by rw [hp]; exact id) id trivial
  · rename_i hp
    obtain ⟨-,heq⟩ := ite_none_left_eq_some.mp h
    exact some.inj heq ▸ .commit hp
  · rename_i hp
    exact some.inj h ▸ .installed hp
  · cases h

theorem Step.of_next {adaptive a} (hok : (s.txn t).Ok s.installs) (h : s.next adaptive (t,a) = some s') : Step t s s' := by
  have hrun (hp : (s.txn t).pc = .running) : ¬ (s.txn t).pc.Final := by
    rw [hp]
    exact id
  cases a with
  | go => exact .of_go hok h
  | observe | commit =>
    obtain ⟨hp,rfl⟩ := ite_some_none_eq_some.mp h
    exact .move (hrun hp) id trivial
  | write =>
    simp only [State.next] at h
    split_ifs at h with hp hup hcnt hbusy
    · rw [Bool.and_eq_true] at hup
      exact some.inj h ▸ .move (hrun hp.1) id ⟨⟨hup.2,hp.2⟩,hcnt⟩
    · -- a read lock comes with the read bit, so there is none here
      have hn : (s.txn t).needsUnlock = false := by
        apply Bool.eq_false_of_not_eq_true
        intro hn
        exact hup (Bool.and_eq_true _ _ ▸ ⟨hok.read_of_lock ⟨hn,hp.2⟩,hn⟩)
      simp only [Bool.or_eq_true,bne_iff_ne,not_or,Bool.not_eq_true,not_not] at hbusy
      exact some.inj h ▸ .move (hrun hp.1) id ⟨hn,hp.2,hbusy.1,hbusy.2⟩
  | install =>
    obtain ⟨hp,rfl⟩ := ite_some_none_eq_some.mp h
    exact .install hp.1 hp.2
  | finish chance =>
    obtain ⟨hp,rfl⟩ := ite_some_none_eq_some.mp h
    refine .releaseRead (by rw [hp.1]; nofun) hp.2 ?_ ?_
    · split_ifs <;> rfl
    · split_ifs <;> rfl
  | abort chance =>
    obtain ⟨hp,heq⟩ := ite_none_left_eq_some.mp h
    simp only [not_or] at hp
    obtain rfl := some.inj heq
    rcases Bool.eq_false_or_eq_true (s.txn t).hasWrite with hw | hw
    · exact .releaseWrite hp.2.2 hp.2.1 hw (by rw [if_pos hw]; rfl)
    · refine .releaseRead hp.2.2 hw ?_ ?_
      · rw [if_neg (Bool.eq_false_iff.mp hw)]
        split_ifs <;> rfl
      · rw [if_neg (Bool.eq_false_iff.mp hw)]
        split_ifs <;> rfl

theorem Locks.congr {word w txn x} (h : Locks word txn) (hn : x.needsUnlock = (txn t).needsUnlock) (hw : x.hasWrite = (txn t).hasWrite)
    (hcnt : w.rlockCnt = word.rlockCnt) (hlock : w.lock = word.lock) : Locks w (update txn t x) := by
  have hr (u : T) : (update txn t x u).ReadLocked ↔ (txn u).ReadLocked := by
    by_cases hu : u = t
    · subst hu
      rw [update_self,Txn.ReadLocked,hn,hw,Txn.ReadLocked]
    · rw [update_of_ne hu]
  have hwl (u : T) : (update txn t x u).WriteLocked ↔ (txn u).WriteLocked := by
    by_cases hu : u = t
    · subst hu
      rw [update_self,Txn.WriteLocked,hn,hw,Txn.WriteLocked]
    · rw [update_of_ne hu]
  obtain ⟨R,hR,hc⟩ := h.readers
  refine ⟨⟨R,fun u => (hR u).trans (hr u).symm,hc.trans hcnt.symm⟩,?_,?_⟩
  · intro u hu
    rw [hcnt,hlock]
    exact h.writer u ((hwl u).mp hu)
  · intro u v hu hv
    exact h.unique u v ((hwl u).mp hu) ((hwl v).mp hv)

/-- A step of a transaction when no other holds the write lock. -/
theorem Locks.of_alone {w : LockWord} {txn : T → Txn T} {x : Txn T} {R : Finset T}
    (hne : ∀ u, u ≠ t → ¬ (txn u).WriteLocked) (hR : ∀ u, u ≠ t → (u ∈ R ↔ (txn u).ReadLocked))
    (ht : t ∈ R ↔ x.ReadLocked) (hc : R.card = w.rlockCnt) (hx : x.WriteLocked → w.lock = true ∧ w.rlockCnt = 0) :
    Locks w (update txn t x) := by
  have hself (u : T) (hu : (update txn t x u).WriteLocked) : u = t := by
    by_contra hut
    rw [update_of_ne hut] at hu
    exact hne u hut hu
  refine ⟨⟨R,fun u => ?_,hc⟩,?_,fun u v hu hv => (hself u hu).trans (hself v hv).symm⟩
  · by_cases hu : u = t
    · rw [hu,update_self]
      exact ht
    · rw [update_of_ne hu]
      exact hR u hu
  · intro u hu
    rw [hself u hu,update_self] at hu
    exact hx hu

section
omit [DecidableEq T]

theorem Locks.not_writer {word txn} (h : Locks word txn) (hw : word.lock = false ∨ word.rlockCnt ≠ 0) (u : T) : ¬ (txn u).WriteLocked := by
  intro hu
  obtain ⟨hlock,hcnt⟩ := h.writer u hu
  rcases hw with hw | hw
  · rw [hlock] at hw
    cases hw
  · exact hw hcnt

theorem Locks.reader_pos {word txn} (h : Locks word txn) (hr : (txn t).ReadLocked) : word.rlockCnt ≠ 0 := by
  obtain ⟨R,hR,hc⟩ := h.readers
  rw [← hc]
  exact Finset.card_ne_zero_of_mem ((hR t).mpr hr)

theorem Locks.exclusive {word txn} (h : Locks word txn) (hw : (txn t).WriteLocked) {u} (hu : (txn u).needsUnlock = true) : u = t := by
  rcases Bool.eq_false_or_eq_true (txn u).hasWrite with hwu | hwu
  · exact h.unique u t ⟨hu,hwu⟩ hw
  · exact absurd (h.writer t hw).2 (h.reader_pos ⟨hu,hwu⟩)

end

theorem Locks.lockRead {word : LockWord} {txn : T → Txn T} {x : Txn T} (h : Locks word txn) (hlock : word.lock = false)
    (hn : (txn t).needsUnlock = false) (hx : x.ReadLocked) : Locks { word with rlockCnt := word.rlockCnt+1 } (update txn t x) := by
  obtain ⟨R,hR,hc⟩ := h.readers
  have ht : t ∉ R := by
    rw [hR]
    exact fun hr => Bool.false_ne_true (hn.symm.trans hr.1)
  refine .of_alone (fun u _ => h.not_writer (.inl hlock) u) (R := insert t R) ?_ ?_ ?_ ?_
  · intro u hu
    rw [Finset.mem_insert,or_iff_right hu]
    exact hR u
  · exact iff_of_true (Finset.mem_insert_self t R) hx
  · rw [Finset.card_insert_of_notMem ht,hc]
  · exact fun hw => absurd (hx.2.symm.trans hw.2) Bool.false_ne_true

/-- A read lock is given back, or becomes the write lock. -/
theorem Locks.leaveRead {word w : LockWord} {txn : T → Txn T} {x : Txn T} (h : Locks word txn) (hr : (txn t).ReadLocked)
    (hx : ¬ x.ReadLocked) (hcnt : w.rlockCnt = word.rlockCnt-1) (hw : x.WriteLocked → w.lock = true ∧ w.rlockCnt = 0) :
    Locks w (update txn t x) := by
  obtain ⟨R,hR,hc⟩ := h.readers
  refine .of_alone (fun u _ => h.not_writer (.inr (h.reader_pos hr)) u) (R := R.erase t) ?_ ?_ ?_ hw
  · intro u hu
    rw [Finset.mem_erase,and_iff_right hu]
    exact hR u
  · exact iff_of_false (Finset.notMem_erase t R) hx
  · rw [Finset.card_erase_of_mem ((hR t).mpr hr),hc,hcnt]

theorem Locks.moveWrite {word w : LockWord} {txn : T → Txn T} {x : Txn T} (h : Locks word txn)
    (hne : ∀ u, u ≠ t → ¬ (txn u).WriteLocked) (ht : ¬ (txn t).ReadLocked) (hx : ¬ x.ReadLocked)
    (hcnt : w.rlockCnt = word.rlockCnt) (hw : x.WriteLocked → w.lock = true ∧ w.rlockCnt = 0) :
    Locks w (update txn t x) := by
  obtain ⟨R,hR,hc⟩ := h.readers
  exact .of_alone hne (fun u _ => hR u) (iff_of_false (mt (hR t).mp ht) hx) (hc.trans hcnt.symm) hw

section
omit [DecidableEq T]

@[simp]
theorem Txn.noteRead_needsUnlock (x : Txn T) (l : List T) (o : Bool) : (x.noteRead l o).needsUnlock = x.needsUnlock := by
  rw [Txn.noteRead]
  split <;> rfl

@[simp]
theorem Txn.noteRead_hasWrite (x : Txn T) (l : List T) (o : Bool) : (x.noteRead l o).hasWrite = x.hasWrite := by
  rw [Txn.noteRead]
  split <;> rfl

private theorem Txn.Ok.finish {l : List T} (x : Txn T) : Txn.Ok l { x with needsUnlock := false, pc := .done } :=
  ⟨fun hr => absurd hr.1 Bool.false_ne_true,fun _ hd => (hd rfl).elim,fun _ _ _ _ hd => (hd rfl).elim,rfl⟩

private theorem Txn.Ok.noteRead {l : List T} {x : Txn T} {o : Bool} (h : x.Ok l) (ho : o = false → x.needsUnlock = true) :
    (x.noteRead l o).Ok l := by
  rw [Txn.noteRead]
  split
  · refine ⟨h.read_of_lock,h.write_lock,?_,h.atPc⟩
    intro b hb hopt _ _
    exact ⟨ho hopt,some.inj hb⟩
  · exact h

end

section
variable (h : Step t s s')
include h

theorem Step.locks (hi : Inv s) : Locks s'.word s'.txn := by
  have hat := (hi.ok t).atPc
  cases h with
  | move | commit | install => exact hi.locks.congr rfl rfl rfl rfl
  | read => exact hi.locks.congr (Txn.noteRead_needsUnlock ..) (Txn.noteRead_hasWrite ..) rfl rfl
  | lockRead hp =>
    rw [hp] at hat
    exact hi.locks.lockRead hat.2.2 hat.1 ⟨Txn.noteRead_needsUnlock ..,(Txn.noteRead_hasWrite ..).trans hat.2.1⟩
  | lockWrite hp =>
    rw [hp] at hat
    obtain ⟨hn,-,hlock,hcnt⟩ := hat
    exact hi.locks.moveWrite (fun u _ => hi.locks.not_writer (.inl hlock) u) (fun hr => Bool.false_ne_true (hn.symm.trans hr.1))
      nofun rfl fun _ => ⟨rfl,hcnt⟩
  | upgrade hp =>
    rw [hp] at hat
    exact hi.locks.leaveRead hat.1 nofun rfl fun _ => ⟨rfl,by rw [hat.2]⟩
  | installed hp =>
    rw [hp] at hat
    have hw : (s.txn t).WriteLocked := ⟨(hi.ok t).write_lock hat (by rw [hp]; nofun),hat⟩
    exact hi.locks.moveWrite (fun u hu hwu => hu (hi.locks.unique u t hwu hw)) (fun hr => Bool.false_ne_true (hr.2.symm.trans hat))
      nofun (hi.locks.writer t hw).2.symm nofun
  | releaseRead hp hw hcnt hlock =>
    rcases Bool.eq_false_or_eq_true (s.txn t).needsUnlock with hn | hn
    · rw [if_pos hn] at hcnt
      exact hi.locks.leaveRead ⟨hn,hw⟩ nofun hcnt nofun
    · rw [if_neg (Bool.eq_false_iff.mp hn)] at hcnt
      exact hi.locks.congr hn.symm rfl hcnt hlock
  | releaseWrite hp hinst hw hcnt =>
    have hwl : (s.txn t).WriteLocked := ⟨(hi.ok t).write_lock hw hp,hw⟩
    exact hi.locks.moveWrite (fun u hu hwu => hu (hi.locks.unique u t hwu hwl)) (fun hr => Bool.false_ne_true (hr.2.symm.trans hw))
      nofun hcnt nofun

/-- A step keeps what holds of every item: an install finds no other transaction under a lock. -/
theorem Step.ok (hi : Inv s) : ∀ u, (s'.txn u).Ok s'.installs := by
  have hok := hi.ok t
  have hat := hok.atPc
  have hset {x : Txn T} (hx : x.Ok s.installs) : ∀ u, (update s.txn t x u).Ok s.installs :=
    (forall_update_iff s.txn fun _ y => y.Ok s.installs).mpr ⟨hx,fun u _ => hi.ok u⟩
  cases h with
  | move hp hpc hl =>
    refine hset ⟨hok.read_of_lock,fun hw _ => hok.write_lock hw ?_,fun b hb ho _ _ => hok.held b hb ho ?_ ?_,hl⟩
    all_goals
      intro h
      rw [h] at hp
      exact hp trivial
  | read hp hr ho =>
    refine hset (.noteRead ⟨fun hl => hr (hok.read_of_lock hl),fun hw _ => hok.write_lock hw ?_,fun b hb ho _ _ => hok.held b hb ho ?_ ?_,
      trivial⟩ ho)
    all_goals
      rw [hp]
      nofun
  | lockRead hp =>
    refine hset (.noteRead ⟨fun _ => rfl,fun _ _ => rfl,fun b hb ho _ _ => ⟨rfl,(hok.held b hb ho ?_ ?_).2⟩,trivial⟩ fun _ => rfl)
    all_goals
      rw [hp]
      nofun
  | lockWrite hp =>
    refine hset ⟨nofun,fun _ _ => rfl,fun b hb ho _ _ => ⟨rfl,(hok.held b hb ho ?_ ?_).2⟩,trivial⟩
    all_goals
      rw [hp]
      nofun
  | upgrade hp =>
    rw [hp] at hat
    refine hset ⟨nofun,fun _ _ => hat.1.1,fun b hb ho _ _ => hok.held b hb ho ?_ ?_,trivial⟩
    all_goals
      rw [hp]
      nofun
  | commit hp =>
    refine hset ⟨hok.read_of_lock,fun hw _ => hok.write_lock hw ?_,fun b hb ho _ _ => hok.held b hb ho ?_ ?_,trivial⟩
    all_goals
      rw [hp]
      nofun
  | install hp hw =>
    have hn : (s.txn t).needsUnlock = true := hok.write_lock hw (by rw [hp]; nofun)
    refine (forall_update_iff s.txn fun _ y => y.Ok (t::s.installs)).mpr ⟨?_,fun u hu => ?_⟩
    · exact ⟨hok.read_of_lock,fun _ _ => hn,fun _ _ _ h _ => (h rfl).elim,hw⟩
    · refine ⟨(hi.ok u).read_of_lock,(hi.ok u).write_lock,?_,(hi.ok u).atPc⟩
      intro b hb ho hpi hpd
      exact absurd (hi.locks.exclusive ⟨hn,hw⟩ ((hi.ok u).held b hb ho hpi hpd).1) hu
  | installed | releaseRead | releaseWrite => exact hset (.finish _)

/-- A committed transaction stays so, and its read stays what it was. -/
theorem Step.final {u} (hf : (s.txn u).pc.Final) : (s'.txn u).pc.Final ∧ (s'.txn u).optimistic = (s.txn u).optimistic := by
  have hset {x : Txn T} (hx : (s.txn t).pc.Final → x.pc.Final ∧ x.optimistic = (s.txn t).optimistic) :
      (update s.txn t x u).pc.Final ∧ (update s.txn t x u).optimistic = (s.txn u).optimistic := by
    by_cases hu : u = t
    · subst hu
      rw [update_self]
      exact hx hf
    · rw [update_of_ne hu]
      exact ⟨hf,rfl⟩
  cases h with
  | move hp => exact hset fun h => (hp h).elim
  | read hp | lockRead hp | lockWrite hp | upgrade hp | commit hp =>
    refine hset fun h => ?_
    rw [hp] at h
    exact h.elim
  | install | installed | releaseRead | releaseWrite => exact hset fun _ => ⟨trivial,rfl⟩

theorem Step.commits : s'.commits = s.commits ∨
    ∃ b, (s.txn t).pc = .checking ∧ (s.txn t).readAt = some b ∧ s' = { s.set t { s.txn t with pc := .committed } with
      commits := (t,b,s.installs)::s.commits } := by
  cases h with
  | commit hp =>
    cases hr : (s.txn t).readAt with
    | none => exact .inl rfl
    | some b => exact .inr ⟨b,hp,rfl,rfl⟩
  | move | read | lockRead | lockWrite | upgrade | install | installed | releaseRead | releaseWrite => exact .inl rfl

theorem Step.inv (hi : Inv s) : Inv s' := by
  refine ⟨h.locks hi,h.ok hi,?_⟩
  have hold (u : T) (b a : List T) (hm : (u,b,a) ∈ s.commits) : (s'.txn u).pc.Final ∧ ((s'.txn u).optimistic = false → a = b) := by
    obtain ⟨hf,ho⟩ := h.final (hi.commits u b a hm).1
    exact ⟨hf,fun h => (hi.commits u b a hm).2 (ho ▸ h)⟩
  intro u b a hm
  rcases h.commits with heq | ⟨b',hp,hr,rfl⟩
  · exact hold u b a (heq ▸ hm)
  · rcases List.mem_cons.mp hm with heq | hm
    · obtain ⟨rfl,rfl,rfl⟩ := heq
      simp only [State.set,update_self]
      refine ⟨trivial,fun ho => ((hi.ok t).held b hr ho ?_ ?_).2⟩
      all_goals
        rw [hp]
        nofun
    · exact hold u b a hm

end

theorem inv_start (adaptive : Bool) (version : Nat) : Inv (object T adaptive version).start where
  locks := ⟨⟨∅,fun _ => iff_of_false (Finset.notMem_empty _) nofun,rfl⟩,nofun,nofun⟩
  ok _ := ⟨nofun,nofun,nofun,trivial⟩
  commits _ _ _ hm := absurd hm List.not_mem_nil

/-- A transaction whose first read was made under a lock it took or held commits with the installs
it read: nobody has installed in between. -/
theorem locked_read_commits_unchanged {adaptive : Bool} {version : Nat} (h : (object T adaptive version).Reachable s)
    {b a : List T} (hm : (t,b,a) ∈ s.commits) (ho : (s.txn t).optimistic = false) : a = b := by
  have hinv : Inv s := h.ofNext_invariant (inv_start adaptive version) fun s act s' hI hnext =>
    (Step.of_next (t := act.1) (a := act.2) (hI.ok act.1) hnext).inv hI
  exact (hinv.commits t b a hm).2 ho

end Steps

end

/-- A writer installs; then a transaction reads under a read lock, upgrades it and commits. -/
def lockedRun : List (Fin 2 × Act) :=
  [(0,.write),(0,.go),(0,.commit),(0,.go),(0,.install),(0,.go),
    (1,.observe),(1,.go),(1,.go),(1,.write),(1,.go),(1,.commit),(1,.go)]

theorem locked_read_commits_unchanged_upgraded :
    let s := (object (Fin 2) false 3).play (object (Fin 2) false 3).start lockedRun
    s.commits = [(1,[0],[0])] ∧ s.word = ⟨4,0,true,false,false⟩ ∧ ∀ b a, (1,b,a) ∈ s.commits → a = b := by
  intro s
  have hreach : (object (Fin 2) false 3).Reachable s := Machine.Reachable.play .start lockedRun (by decide +kernel)
  exact ⟨by decide +kernel,by decide +kernel,fun b a hm => locked_read_commits_unchanged hreach hm (by decide +kernel)⟩

/-- A first reader leaves the optimistic hint. The second reads by it, a writer installs, and the
second commits. -/
def hintedRun : List (Fin 3 × Act) :=
  [(0,.observe),(0,.go),(0,.go),(0,.commit),(0,.go),(0,.finish true),(1,.observe),(1,.go),
    (2,.write),(2,.go),(2,.commit),(2,.go),(2,.install),(2,.go),(1,.commit),(1,.go)]

theorem optimistic_read_commits_stale :
    let s := (object (Fin 3) true 3).play (object (Fin 3) true 3).start hintedRun
    (object (Fin 3) true 3).Reachable s ∧ (1,[],[2]) ∈ s.commits :=
  ⟨Machine.Reachable.play .start hintedRun (by decide +kernel),by decide +kernel⟩

end AlNiCo.Sto.LockVersion
