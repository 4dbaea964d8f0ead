import AlNiCo.Library.BitField
import AlNiCo.Sto.Version

/-! The 64-bit version word: a thread id and flags in its twelve low bits, the version above
them, and what each operation on the word does to its version and its lock. -/
namespace AlNiCo.Sto
open Library BitVec Bool

abbrev Tid : Type := BitVec 64

variable (v : Tid) (i : Nat)

namespace TransactionTid

def maskWidth : Nat := 7

def threadidMask : Tid := 0x7f
def lockBit : Tid := 1 <<< maskWidth
def nonopaqueBit : Tid := 1 <<< (maskWidth+1)
def incrementValue : Tid := 1 <<< (maskWidth+5)

def isLocked (v : Tid) : Bool := v &&& lockBit != 0#64

def isLockedElsewhere (v here : Tid) : Bool := v &&& lockBit != 0#64 && v &&& threadidMask != here

/-- The word is loaded first and swapped afterwards, when it may have become `v`. -/
def tryLock (loaded v here : Tid) : Option Tid :=
  if v = loaded &&& ~~~lockBit then some (loaded ||| lockBit ||| here) else none

def unlock (v : Tid) : Tid := v &&& ~~~(lockBit ||| threadidMask)

def setVersion (newV here : Tid) : Tid := newV ||| (lockBit ||| here)

def setVersionUnlock (newV : Tid) : Tid := newV &&& ~~~(lockBit ||| threadidMask)

def nextUnflaggedVersion (v : Tid) : Tid := (v+incrementValue) &&& ~~~(incrementValue-1)

def nextUnflaggedNonopaqueVersion (v : Tid) : Tid := nextUnflaggedVersion v ||| nonopaqueBit

def checkVersion (curVers oldVers : Tid) : Bool :=
  curVers &&& ~~~(incrementValue-1) == oldVers &&& ~~~(incrementValue-1)

/-- What the word says: its version, and the thread that has it locked. -/
def word (v : Tid) : Word Tid :=
  ⟨(v >>> (12 : Nat)).toNat,if isLocked v then some (v &&& threadidMask) else none⟩

private theorem getLsbD_threadidMask : threadidMask.getLsbD i = decide (i < 7) := by
  rw [show threadidMask = BitField.mask 64 0 7 by decide,BitField.getLsbD_mask]
  apply decide_eq_decide.2
  omega

private theorem getLsbD_lockBit : lockBit.getLsbD i = decide (i = 7) := by
  rw [show lockBit = BitField.mask 64 7 1 by decide,BitField.getLsbD_mask]
  apply decide_eq_decide.2
  omega

private theorem getLsbD_nonopaqueBit : nonopaqueBit.getLsbD i = decide (i = 8) := by
  rw [show nonopaqueBit = BitField.mask 64 8 1 by decide,BitField.getLsbD_mask]
  apply decide_eq_decide.2
  omega

private theorem getLsbD_flags : (incrementValue-1).getLsbD i = decide (i < 12) := by
  rw [show incrementValue-1 = BitField.mask 64 0 12 by decide,BitField.getLsbD_mask]
  apply decide_eq_decide.2
  omega

theorem isLocked_eq : isLocked v = v.getLsbD 7 := by
  have h : v &&& lockBit = 0#64 ↔ v.getLsbD 7 = false := by
    constructor
    · intro h
      have h7 := congrArg (fun x : Tid => x.getLsbD 7) h
      simpa only [BitVec.getLsbD_and,getLsbD_lockBit,decide_true,Bool.and_true,BitVec.getLsbD_zero] using h7
    · intro h
      apply BitVec.eq_of_getLsbD_eq
      intro i _
      rw [BitVec.getLsbD_and,getLsbD_lockBit]
      by_cases hi : i = 7
      · subst hi
        rw [h,Bool.false_and,BitVec.getLsbD_zero]
      · simp only [hi,decide_false,Bool.and_false,BitVec.getLsbD_zero]
  rw [Bool.eq_iff_iff,isLocked,bne_iff_ne,Ne,h,Bool.not_eq_false]

private theorem version_congr {u v} (h : ∀ i, 12 ≤ i → u.getLsbD i = v.getLsbD i) : (word u).version = (word v).version := by
  apply congrArg BitVec.toNat
  apply eq_of_getLsbD_eq
  intro i _
  rw [getLsbD_ushiftRight,getLsbD_ushiftRight]
  exact h _ (Nat.le_add_right _ _)

private theorem getLsbD_of_version {u v} (h : (word u).version = (word v).version) {i} (hi : 12 ≤ i) : u.getLsbD i = v.getLsbD i := by
  have hb := congrArg (fun x : Tid => x.getLsbD (i-12)) (toNat_inj.1 h)
  simpa only [getLsbD_ushiftRight,Nat.add_sub_cancel' hi] using hb

theorem checkVersion_iff (curVers oldVers : Tid) :
    checkVersion curVers oldVers = true ↔ (word curVers).version = (word oldVers).version := by
  have hflags (x : Tid) (i : Nat) (hi : 12 ≤ i) : (x &&& ~~~(incrementValue-1)).getLsbD i = x.getLsbD i := by
    rw [BitVec.getLsbD_and,BitVec.getLsbD_not,getLsbD_flags,decide_eq_false (show ¬ i < 12 by omega)]
    by_cases h64 : i < 64
    · simp [h64]
    · simp [BitVec.getLsbD_of_ge x i (by omega)]
  rw [checkVersion,beq_iff_eq]
  constructor
  · intro h
    apply version_congr
    intro i hi
    rw [← hflags _ i hi,h,hflags _ i hi]
  · intro h
    apply BitVec.eq_of_getLsbD_eq
    intro i _
    by_cases hi : 12 ≤ i
    · rw [hflags _ i hi,hflags _ i hi,getLsbD_of_version h hi]
    · simp only [BitVec.getLsbD_and,BitVec.getLsbD_not,getLsbD_flags,decide_eq_true (Nat.lt_of_not_le hi),Bool.not_true,Bool.and_false]

private theorem getLsbD_unlock : (unlock v).getLsbD i = (v.getLsbD i && decide (8 ≤ i)) := by
  rw [unlock,BitVec.getLsbD_and,BitVec.getLsbD_not,BitVec.getLsbD_or,getLsbD_lockBit,getLsbD_threadidMask]
  by_cases h64 : i < 64
  · have h : (decide (i = 7) || decide (i < 7)) = !decide (8 ≤ i) := by
      rw [← Bool.decide_or,← decide_not]
      exact decide_eq_decide.2 (by omega)
    rw [h,decide_eq_true h64,Bool.true_and,Bool.not_not]
  · simp [BitVec.getLsbD_of_ge v i (by omega)]

theorem word_unlock : word (unlock v) = (word v).unlock := by
  have hv : (word (unlock v)).version = (word v).version := by
    apply version_congr
    intro i hi
    rw [getLsbD_unlock,decide_eq_true (by omega),Bool.and_true]
  have ho : (word (unlock v)).owner = none := by
    simp only [word,isLocked_eq,getLsbD_unlock]
    simp
  exact Word.ext hv ho

private theorem getLsbD_tryLock {loaded v here v'} (h : tryLock loaded v here = some v') (i : Nat) :
    v' = loaded ||| lockBit ||| here ∧ v.getLsbD i = (loaded.getLsbD i && !decide (i = 7)) := by
  obtain ⟨hv,hv'⟩ := Option.ite_none_right_eq_some.1 h
  refine ⟨(Option.some.inj hv').symm,?_⟩
  rw [hv,getLsbD_and,getLsbD_not,getLsbD_lockBit]
  by_cases h64 : i < 64
  · simp [h64]
  · simp [getLsbD_of_ge loaded i (by omega)]

private theorem getLsbD_here {here} (hhere : here &&& threadidMask = here) (i : Nat) :
    here.getLsbD i = (here.getLsbD i && decide (i < 7)) := by
  rw [← getLsbD_threadidMask,← getLsbD_and,hhere]

/-- A lock is taken from a word that is not locked, and leaves its version. -/
theorem isLocked_tryLock {loaded v here v'} (h : tryLock loaded v here = some v') (hhere : here &&& threadidMask = here) :
    isLocked v = false ∧ isLocked v' = true ∧ (word v').version = (word v).version := by
  refine ⟨?_,?_,?_⟩
  · rw [isLocked_eq,(getLsbD_tryLock h 7).2]
    simp
  · rw [isLocked_eq,(getLsbD_tryLock h 7).1,getLsbD_or,getLsbD_or,getLsbD_lockBit]
    simp
  · apply version_congr
    intro i hi
    rw [(getLsbD_tryLock h i).1,(getLsbD_tryLock h i).2,getLsbD_or,getLsbD_or,getLsbD_lockBit,
      getLsbD_here hhere i,decide_eq_false (show i ≠ 7 by omega),decide_eq_false (show ¬ i < 7 by omega)]
    simp

theorem word_tryLock {loaded v here v'} (h : tryLock loaded v here = some v')
    (hfree : v &&& threadidMask = 0#64) (hhere : here &&& threadidMask = here) :
    (word v).owner = none ∧ word v' = (word v).lock here := by
  obtain ⟨hunlocked,hlocked,hver⟩ := isLocked_tryLock h hhere
  have hlow (i : Nat) (hi : i < 7) : loaded.getLsbD i = false := by
    have hz := congrArg (fun x : Tid => x.getLsbD i) hfree
    simpa only [BitVec.getLsbD_and,(getLsbD_tryLock h i).2,getLsbD_threadidMask,hi,decide_true,Bool.and_true,
      BitVec.getLsbD_zero,decide_eq_false (show i ≠ 7 by omega),Bool.not_false] using hz
  have hthread : v' &&& threadidMask = here := by
    apply BitVec.eq_of_getLsbD_eq
    intro i _
    rw [(getLsbD_tryLock h i).1,BitVec.getLsbD_and,BitVec.getLsbD_or,BitVec.getLsbD_or,getLsbD_lockBit,
      getLsbD_threadidMask,getLsbD_here hhere i]
    by_cases hi : i < 7
    · simp [hi,hlow i hi]
      omega
    · simp [hi]
  refine ⟨?_,Word.ext hver ?_⟩
  · simp only [word,hunlocked,Bool.false_eq_true,if_false]
  · simp only [word,hlocked,if_true,hthread,Word.lock]

theorem version_add : (word (v+incrementValue)).version = ((word v).version+1) % 2^52 := by
  simp only [word,toNat_ushiftRight,toNat_add,Nat.shiftRight_eq_div_pow]
  rw [show incrementValue.toNat = 4096 by decide]
  omega

/-- The next version, modulo the 52 bits that it has. -/
theorem version_next : (word (setVersionUnlock (nextUnflaggedNonopaqueVersion v))).version = ((word v).version+1) % 2^52 := by
  have hver : (word (setVersionUnlock (nextUnflaggedNonopaqueVersion v))).version = (word (v+incrementValue)).version := by
    apply version_congr
    intro i hi
    rw [setVersionUnlock,← unlock,getLsbD_unlock,nextUnflaggedNonopaqueVersion,nextUnflaggedVersion,getLsbD_or,
      getLsbD_nonopaqueBit,getLsbD_and,getLsbD_not,getLsbD_flags,decide_eq_false (show ¬ i < 12 by omega),
      decide_eq_false (show i ≠ 8 by omega),decide_eq_true (show 8 ≤ i by omega)]
    by_cases h64 : i < 64
    · simp [h64]
    · simp [getLsbD_of_ge _ i (Nat.le_of_not_lt h64)]
  rw [hver,version_add]

theorem word_release (hv : (word v).version+1 < 2^52) : word (setVersionUnlock (nextUnflaggedNonopaqueVersion v)) = (word v).release := by
  have ho : (word (setVersionUnlock (nextUnflaggedNonopaqueVersion v))).owner = none := by
    rw [setVersionUnlock,← unlock,word_unlock]
    rfl
  exact Word.ext ((version_next v).trans (Nat.mod_eq_of_lt hv)) ho

/-- The tests and updates of a version word are those of its version and its owner. -/
theorem tid_refines_word (v : Tid) : word (unlock v) = (word v).unlock ∧
    (∀ old, checkVersion v old = true ↔ (word v).version = (word old).version) ∧
    (∀ loaded here v', tryLock loaded v here = some v' → v &&& threadidMask = 0#64 → here &&& threadidMask = here →
      (word v).owner = none ∧ word v' = (word v).lock here) ∧
    ((word v).version+1 < 2^52 → word (setVersionUnlock (nextUnflaggedNonopaqueVersion v)) = (word v).release) :=
  ⟨word_unlock v,checkVersion_iff v,fun _ _ _ => word_tryLock,word_release v⟩

end TransactionTid

end AlNiCo.Sto
