import AlNiCo.Library.Machine
import AlNiCo.Sto.TransactionTid

/-! The versions that commits install on objects with opaque and with nonopaque versions
(ConcurrencyControl.hh, Transaction.hh): an opaque object takes the transaction's draw from the
global counter, a nonopaque one takes it too when there is one, and its own next version otherwise. -/
namespace AlNiCo.Sto.VersionGrowth
open Library TransactionTid Function List Option

inductive VersImpl
  | tVersion
  | tNonopaqueVersion
deriving DecidableEq

def version (v : Tid) : Nat := (TransactionTid.word v).version

section
variable {O : Type} [DecidableEq O]

/-- A transaction that commits: its draw, zero before it, and the write items that are locked and
not yet installed, in the order of the write set. -/
structure Txn (O : Type) where
  commitTid : Tid
  writeset : List O
  installing : Bool

structure State (O : Type) where
  tid : Tid
  word : O → Tid
  txn : BitVec 7 → Txn O
  -- the versions of an object that a commit has replaced
  replaced : O → List Nat

inductive Action (O : Type)
  -- the word that try_lock has loaded before its swap
  | lock (t : BitVec 7) (o : O) (loaded : Tid)
  | abort (t : BitVec 7)
  | install (t : BitVec 7)

def writeTid (tid commitTid : Tid) : Tid × Tid :=
  if commitTid = 0 then (tid+incrementValue,tid) else (tid,commitTid)

/-- `cp_commit_tid`: the counter, the draw, and the version to install over `v`. -/
def cpCommitTid (impl : VersImpl) (tid commitTid v : Tid) : Tid × Tid × Tid :=
  match impl with
  | .tVersion =>
    let (tid,commitTid) := writeTid tid commitTid
    (tid,commitTid,commitTid)
  | .tNonopaqueVersion => if commitTid ≠ 0 then (tid,commitTid,commitTid) else (tid,commitTid,nextUnflaggedNonopaqueVersion v)

/-- The constructors: with `initialized_tid`, or the default one. -/
def initialWord (impl : VersImpl) (explicit : Bool) : Tid :=
  match impl with
  | .tVersion => incrementValue
  | .tNonopaqueVersion => (if explicit then incrementValue else 0) ||| nonopaqueBit

def initial (impl : O → VersImpl) (explicit : O → Bool) : State O where
  tid := 3*incrementValue
  word := fun o => initialWord (impl o) (explicit o)
  txn := fun _ => ⟨0,[],false⟩
  replaced := fun _ => []

/-- The next write item: `set_version_unlock`. After the last one the transaction is over. -/
def State.install (impl : O → VersImpl) (s : State O) (t : BitVec 7) (o : O) (rest : List O) : State O :=
  let (tid,commitTid,v) := cpCommitTid (impl o) s.tid (s.txn t).commitTid (s.word o)
  { tid := tid
    word := update s.word o (setVersionUnlock v)
    txn := update s.txn t (if rest = [] then ⟨0,[],false⟩ else ⟨commitTid,rest,true⟩)
    replaced := update s.replaced o (version (s.word o) :: s.replaced o) }

def State.next (impl : O → VersImpl) (s : State O) : Action O → Option (State O)
  | .lock t o loaded =>
    if (s.txn t).installing then none
    else match tryLock loaded (s.word o) (t.setWidth 64) with
      | none => none
      | some v => some { s with
          word := update s.word o v
          txn := update s.txn t ⟨(s.txn t).commitTid,(s.txn t).writeset ++ [o],false⟩ }
  | .abort t =>
    if (s.txn t).installing then none
    else some { s with
      word := fun o => if o ∈ (s.txn t).writeset then unlock (s.word o) else s.word o
      txn := update s.txn t ⟨0,[],false⟩ }
  | .install t =>
    match (s.txn t).writeset with
    | [] => none
    | o :: rest => some (s.install impl t o rest)

/-- The commits of up to 128 threads, in any interleaving. -/
def commits (impl : O → VersImpl) (explicit : O → Bool) : Machine (State O) (Action O) :=
  Machine.ofNext (initial impl explicit) (State.next impl)

/-- A nonopaque object is below the draw that it gets, or its own version can grow. -/
def Grows (impl : O → VersImpl) (s : State O) (t : BitVec 7) (o : O) : Prop :=
  impl o = .tNonopaqueVersion →
    if (s.txn t).commitTid ≠ 0 then version (s.word o) < version (s.txn t).commitTid else version (s.word o)+1 < 2^52

/-- The counter has not used up its 52 bits. -/
def InRange (s : State O) : Prop := version s.tid+1 < 2^52

def Allowed (impl : O → VersImpl) (s : State O) : Action O → Prop
  | .install t => InRange s ∧ ∀ o ∈ (s.txn t).writeset.head?, Grows impl s t o
  | _ => True

end

section

theorem version_zero : version 0 = 0 := by decide

theorem ne_zero_of_version {v} (h : 0 < version v) : v ≠ 0 := by
  rintro rfl
  exact absurd h (version_zero ▸ Nat.lt_irrefl 0)

theorem version_unlock (v : Tid) : version (unlock v) = version v := by
  rw [version,word_unlock]
  rfl

theorem version_setVersionUnlock (v : Tid) : version (setVersionUnlock v) = version v := version_unlock v

theorem version_lt (v : Tid) : version v < 2^52 := by
  rw [version,TransactionTid.word]
  dsimp only
  rw [BitVec.toNat_ushiftRight,Nat.shiftRight_eq_div_pow]
  omega

theorem thread_mask (t : BitVec 7) : t.setWidth 64 &&& threadidMask = t.setWidth 64 := by
  revert t
  decide

variable {tid commitTid : Tid}

/-- What a commit does to the counter and the draw. -/
theorem cpCommitTid_counter (impl : VersImpl) (v : Tid) (hpos : 0 < version tid) (hrange : version tid+1 < 2^52)
    (hdrawn : commitTid ≠ 0 → version commitTid < version tid) :
    version tid ≤ version (cpCommitTid impl tid commitTid v).1 ∧ ((cpCommitTid impl tid commitTid v).2.1 ≠ 0 →
        version (cpCommitTid impl tid commitTid v).2.1 < version (cpCommitTid impl tid commitTid v).1) ∧
      (impl = .tVersion → (cpCommitTid impl tid commitTid v).2.2 = (cpCommitTid impl tid commitTid v).2.1 ∧
        (cpCommitTid impl tid commitTid v).2.1 ≠ 0) := by
  have hadd : version (tid+incrementValue) = version tid+1 := (version_add tid).trans (Nat.mod_eq_of_lt hrange)
  cases impl with
  | tVersion =>
    rw [cpCommitTid,writeTid]
    by_cases hc : commitTid = 0
    · rw [if_pos hc]
      dsimp only
      rw [hadd]
      exact ⟨Nat.le_succ _,fun _ => Nat.lt_succ_self _,fun _ => ⟨rfl,ne_zero_of_version hpos⟩⟩
    · rw [if_neg hc]
      exact ⟨le_rfl,hdrawn,fun _ => ⟨rfl,hc⟩⟩
  | tNonopaqueVersion =>
    rw [cpCommitTid]
    by_cases hc : commitTid ≠ 0
    · rw [if_pos hc]
      exact ⟨le_rfl,hdrawn,fun h => VersImpl.noConfusion h⟩
    · rw [if_neg hc]
      exact ⟨le_rfl,hdrawn,fun h => VersImpl.noConfusion h⟩

/-- What is below the counter, and below an earlier draw, is below the draw of a commit. -/
theorem cpCommitTid_ahead {impl v n} (hne : (cpCommitTid impl tid commitTid v).2.1 ≠ 0)
    (htid : n < version tid) (hdrawn : commitTid ≠ 0 → n < version commitTid) :
    n < version (cpCommitTid impl tid commitTid v).2.1 := by
  cases impl with
  | tVersion =>
    rw [cpCommitTid,writeTid] at hne ⊢
    by_cases hc : commitTid = 0
    · rw [if_pos hc]
      exact htid
    · rw [if_neg hc]
      exact hdrawn hc
  | tNonopaqueVersion =>
    rw [cpCommitTid] at hne ⊢
    by_cases hc : commitTid ≠ 0
    · rw [if_pos hc]
      exact hdrawn hc
    · rw [if_neg hc] at hne
      exact absurd hne hc

end

open State

section Growth
variable {O : Type} {impl : O → VersImpl} {explicit : O → Bool} {s s' : State O}

/-- The opaque versions are below the counter, and those that a transaction has still to write are
below its draw. -/
structure Inv (impl : O → VersImpl) (s : State O) : Prop where
  pos : 0 < version s.tid
  below : ∀ o, impl o = .tVersion → version (s.word o) < version s.tid
  drawn : ∀ t, (s.txn t).commitTid ≠ 0 → version (s.txn t).commitTid < version s.tid
  ahead : ∀ t, (s.txn t).commitTid ≠ 0 → ∀ o ∈ (s.txn t).writeset, impl o = .tVersion →
    version (s.word o) < version (s.txn t).commitTid
  idle : ∀ t, (s.txn t).installing = false → (s.txn t).commitTid = 0
  held : ∀ t, ∀ o ∈ (s.txn t).writeset, isLocked (s.word o) = true
  nodup : ∀ t, (s.txn t).writeset.Nodup
  apart : ∀ t u, t ≠ u → ∀ o ∈ (s.txn t).writeset, o ∉ (s.txn u).writeset
  replaced : ∀ o, ∀ v ∈ s.replaced o, v < version (s.word o)

theorem inv_initial : Inv impl (initial impl explicit) where
  pos := (by decide : 0 < version (3*incrementValue))
  below := by
    intro o ho
    have hword : (initial impl explicit).word o = incrementValue := by
      rw [initial]
      dsimp only
      rw [ho]
      rfl
    rw [hword]
    exact (by decide : version incrementValue < version (3*incrementValue))
  drawn _ h := absurd rfl h
  ahead _ h := absurd rfl h
  idle _ _ := rfl
  held _ _ h := absurd h not_mem_nil
  nodup _ := nodup_nil
  apart _ _ _ _ h := absurd h not_mem_nil
  replaced _ _ h := absurd h not_mem_nil

/-- Steps that leave the versions, and take no draw. -/
theorem Inv.of_versions (h : Inv impl s) (htid : s'.tid = s.tid) (hword : ∀ o, version (s'.word o) = version (s.word o))
    (hreplaced : s'.replaced = s.replaced) (htxn : ∀ t, s'.txn t = s.txn t ∨ (s'.txn t).commitTid = 0)
    (hheld : ∀ t, ∀ o ∈ (s'.txn t).writeset, isLocked (s'.word o) = true) (hnodup : ∀ t, (s'.txn t).writeset.Nodup)
    (hapart : ∀ t u, t ≠ u → ∀ o ∈ (s'.txn t).writeset, o ∉ (s'.txn u).writeset) : Inv impl s' where
  pos := htid ▸ h.pos
  below o ho := by
    rw [hword,htid]
    exact h.below o ho
  drawn t ht := by
    rcases htxn t with hsame | hzero
    · rw [hsame] at ht ⊢
      rw [htid]
      exact h.drawn t ht
    · exact absurd hzero ht
  ahead t ht o ho himpl := by
    rcases htxn t with hsame | hzero
    · rw [hsame] at ht ho ⊢
      rw [hword]
      exact h.ahead t ht o ho himpl
    · exact absurd hzero ht
  idle t ht := by
    rcases htxn t with hsame | hzero
    · rw [hsame] at ht ⊢
      exact h.idle t ht
    · exact hzero
  held := hheld
  nodup := hnodup
  apart := hapart
  replaced o v hv := by
    rw [hreplaced] at hv
    rw [hword]
    exact h.replaced o v hv

variable [DecidableEq O]

theorem Inv.lock (h : Inv impl s) {t o loaded} (hnext : s.next impl (.lock t o loaded) = some s') : Inv impl s' := by
  rw [State.next] at hnext
  obtain ⟨hidle,hnext⟩ := ite_none_left_eq_some.mp hnext
  cases hlock : tryLock loaded (s.word o) (t.setWidth 64) with
  | none =>
    rw [hlock] at hnext
    exact absurd hnext.symm (some_ne_none s')
  | some v =>
    rw [hlock] at hnext
    obtain rfl := some.inj hnext
    obtain ⟨hfree,hlocked,hver⟩ := isLocked_tryLock hlock (thread_mask t)
    -- a free word is in no write set
    have hout (u : BitVec 7) : o ∉ (s.txn u).writeset := by
      intro ho
      rw [h.held u o ho] at hfree
      exact Bool.noConfusion hfree
    have hmem {u : BitVec 7} {p : O} (hp : p ∈ (update s.txn t
        ⟨(s.txn t).commitTid,(s.txn t).writeset ++ [o],false⟩ u).writeset) : p ∈ (s.txn u).writeset ∨ (u = t ∧ p = o) := by
      by_cases hu : u = t
      · subst hu
        rw [update_self,mem_append,mem_singleton] at hp
        exact hp.imp_right (⟨rfl,·⟩)
      · rw [update_of_ne hu] at hp
        exact .inl hp
    refine h.of_versions rfl (fun p => ?_) rfl (fun u => ?_) (fun u p hp => ?_) (fun u => ?_) (fun u w huw p hp hpw => ?_)
    · dsimp only
      by_cases hp : p = o
      · rw [hp,update_self]
        exact hver
      · rw [update_of_ne hp]
    · dsimp only
      by_cases hu : u = t
      · subst hu
        rw [update_self]
        exact .inr (h.idle u (Bool.not_eq_true _ ▸ hidle))
      · exact .inl (update_of_ne hu _ _)
    · dsimp only
      by_cases hpo : p = o
      · rw [hpo,update_self]
        exact hlocked
      · rw [update_of_ne hpo]
        rcases hmem hp with hp | ⟨-,hp⟩
        · exact h.held u p hp
        · exact absurd hp hpo
    · dsimp only
      by_cases hu : u = t
      · subst hu
        rw [update_self]
        exact nodup_append.mpr ⟨h.nodup u,nodup_singleton o,fun a ha b hb hab => hout u (mem_singleton.mp hb ▸ hab ▸ ha)⟩
      · rw [update_of_ne hu]
        exact h.nodup u
    · rcases hmem hp with hpu | ⟨rfl,rfl⟩
      · rcases hmem hpw with hpw | ⟨-,hpo⟩
        · exact h.apart u w huw p hpu hpw
        · exact hout u (hpo ▸ hpu)
      · rcases hmem hpw with hpw | ⟨hwu,-⟩
        · exact hout w hpw
        · exact huw hwu.symm

theorem Inv.abort (h : Inv impl s) {t} (hnext : s.next impl (.abort t) = some s') : Inv impl s' := by
  rw [State.next] at hnext
  obtain ⟨-,hnext⟩ := ite_none_left_eq_some.mp hnext
  obtain rfl := some.inj hnext
  have hmem {u : BitVec 7} {p : O} (hp : p ∈ (update s.txn t ⟨0,[],false⟩ u).writeset) : u ≠ t ∧ p ∈ (s.txn u).writeset := by
    by_cases hu : u = t
    · rw [hu,update_self] at hp
      exact absurd hp not_mem_nil
    · rw [update_of_ne hu] at hp
      exact ⟨hu,hp⟩
  refine h.of_versions rfl (fun p => ?_) rfl (fun u => ?_) (fun u p hp => ?_) (fun u => ?_) (fun u w huw p hp hpw => ?_)
  · dsimp only
    split
    · exact version_unlock (s.word p)
    · rfl
  · dsimp only
    by_cases hu : u = t
    · rw [hu,update_self]
      exact .inr rfl
    · exact .inl (update_of_ne hu _ _)
  · obtain ⟨hu,hp⟩ := hmem hp
    dsimp only
    rw [if_neg (h.apart u t hu p hp)]
    exact h.held u p hp
  · dsimp only
    by_cases hu : u = t
    · rw [hu,update_self]
      exact nodup_nil
    · rw [update_of_ne hu]
      exact h.nodup u
  · exact h.apart u w huw p (hmem hp).2 (hmem hpw).2

/-- A write grows its object's version exactly under its condition. -/
theorem Inv.grows_iff (h : Inv impl s) {t o rest} (hset : (s.txn t).writeset = o :: rest) :
    version (s.word o) < version ((s.install impl t o rest).word o) ↔ Grows impl s t o := by
  have hword : version ((s.install impl t o rest).word o) =
      version (setVersionUnlock (cpCommitTid (impl o) s.tid (s.txn t).commitTid (s.word o)).2.2) := by
    rw [State.install]
    dsimp only
    rw [update_self]
  have hmem : o ∈ (s.txn t).writeset := hset ▸ mem_cons_self
  rw [hword,Grows]
  cases himpl : impl o with
  | tVersion =>
    refine ⟨fun _ hne => VersImpl.noConfusion hne,fun _ => ?_⟩
    rw [cpCommitTid,writeTid,version_setVersionUnlock]
    by_cases hc : (s.txn t).commitTid = 0
    · rw [if_pos hc]
      exact h.below o himpl
    · rw [if_neg hc]
      exact h.ahead t hc o hmem himpl
  | tNonopaqueVersion =>
    rw [cpCommitTid]
    by_cases hc : (s.txn t).commitTid ≠ 0
    · rw [if_pos hc,if_pos hc,version_setVersionUnlock]
      exact ⟨fun hlt _ => hlt,fun hgrows => hgrows rfl⟩
    · rw [if_neg hc,if_neg hc]
      have hnext : version (setVersionUnlock (nextUnflaggedNonopaqueVersion (s.word o))) = (version (s.word o)+1) % 2^52 :=
        version_next (s.word o)
      have hlt : version (s.word o) < 2^52 := version_lt (s.word o)
      rw [hnext]
      exact ⟨fun hgrows _ => by omega,fun hgrows => by have := hgrows rfl; omega⟩

/-- After an install a transaction is what it was, or it is the one that installs: done, or
with the rest of its writes. -/
theorem State.install_txn {t o rest} (Q : BitVec 7 → Txn O → Prop) (hother : ∀ u, u ≠ t → Q u (s.txn u))
    (hdone : Q t ⟨0,[],false⟩) (hrest : Q t ⟨(cpCommitTid (impl o) s.tid (s.txn t).commitTid (s.word o)).2.1,rest,true⟩)
    (u : BitVec 7) : Q u ((s.install impl t o rest).txn u) := by
  rw [install]
  dsimp only
  by_cases hu : u = t
  · subst hu
    rw [update_self]
    split
    · exact hdone
    · exact hrest
  · rw [update_of_ne hu]
    exact hother u hu

theorem State.mem_install {t o rest} (hset : (s.txn t).writeset = o :: rest) (u : BitVec 7) :
    ∀ p ∈ ((s.install impl t o rest).txn u).writeset, p ∈ (s.txn u).writeset ∧ (u = t → p ∈ rest) := by
  refine install_txn (fun u x => ∀ p ∈ x.writeset, p ∈ (s.txn u).writeset ∧ (u = t → p ∈ rest)) ?_ ?_ ?_ u
  · exact fun u hu p hp => ⟨hp,fun hut => absurd hut hu⟩
  · exact fun p hp => absurd hp not_mem_nil
  · exact fun p hp => ⟨hset ▸ mem_cons_of_mem o hp,fun _ => hp⟩

theorem Inv.install (h : Inv impl s) (hrange : InRange s) {t o rest}
    (hset : (s.txn t).writeset = o :: rest) (hgrows : Grows impl s t o) : Inv impl (s.install impl t o rest) := by
  have hgrow := (h.grows_iff hset).mpr hgrows
  obtain ⟨hle,hdraw,hdrawn⟩ := cpCommitTid_counter (impl o) (s.word o) h.pos hrange (h.drawn t)
  have hnodup := hset ▸ h.nodup t
  have hother {u : BitVec 7} {p : O} (hp : p ∈ ((s.install impl t o rest).txn u).writeset) : p ≠ o := by
    rintro rfl
    obtain ⟨hold,hrest⟩ := mem_install hset u p hp
    by_cases hu : u = t
    · exact (nodup_cons.mp hnodup).1 (hrest hu)
    · exact h.apart u t hu p hold (hset ▸ mem_cons_self)
  have hword {p : O} (hp : p ≠ o) : (s.install impl t o rest).word p = s.word p := update_of_ne hp _ _
  refine ⟨Nat.lt_of_lt_of_le h.pos hle,fun p hp => ?_,?_,fun u hu p hp himpl => ?_,?_,fun u p hp => ?_,?_,fun u w huw p hp hpw => ?_,
    fun p v hv => ?_⟩
  · by_cases hpo : p = o
    · subst hpo
      obtain ⟨hv,hne⟩ := hdrawn hp
      have hnew : version ((s.install impl t p rest).word p) =
          version (cpCommitTid (impl p) s.tid (s.txn t).commitTid (s.word p)).2.1 := by
        rw [← hv]
        exact (congrArg version (update_self p _ _)).trans (version_setVersionUnlock _)
      rw [hnew]
      exact hdraw hne
    · rw [hword hpo]
      exact Nat.lt_of_lt_of_le (h.below p hp) hle
  · refine install_txn (fun _ x => x.commitTid ≠ 0 → version x.commitTid < version (s.install impl t o rest).tid) ?_ ?_ hdraw
    · exact fun u _ hu => Nat.lt_of_lt_of_le (h.drawn u hu) hle
    · exact fun hzero => absurd rfl hzero
  · rw [hword (hother hp)]
    have hold := (mem_install hset u p hp).1
    revert hu
    refine install_txn (fun u x => p ∈ (s.txn u).writeset → x.commitTid ≠ 0 → version (s.word p) < version x.commitTid) ?_ ?_ ?_ u hold
    · exact fun u _ hmem hu => h.ahead u hu p hmem himpl
    · exact fun _ hzero => absurd rfl hzero
    · exact fun hmem hu => cpCommitTid_ahead hu (h.below p himpl) (fun hc => h.ahead t hc p hmem himpl)
  · refine install_txn (fun _ x => x.installing = false → x.commitTid = 0) (fun u _ => h.idle u) (fun _ => rfl) ?_
    exact fun hno => absurd hno.symm Bool.false_ne_true
  · rw [hword (hother hp)]
    exact h.held u p (mem_install hset u p hp).1
  · exact install_txn (fun _ x => x.writeset.Nodup) (fun u _ => h.nodup u) nodup_nil (nodup_cons.mp hnodup).2
  · exact h.apart u w huw p (mem_install hset u p hp).1 (mem_install hset w p hpw).1
  · by_cases hpo : p = o
    · subst hpo
      have hv' : v ∈ version (s.word p) :: s.replaced p := by
        have heq : (s.install impl t p rest).replaced p = version (s.word p) :: s.replaced p := update_self p _ _
        exact heq ▸ hv
      rcases mem_cons.mp hv' with rfl | hv'
      · exact hgrow
      · exact (h.replaced p v hv').trans hgrow
    · have heq : (s.install impl t o rest).replaced p = s.replaced p := update_of_ne hpo _ _
      rw [hword hpo]
      exact h.replaced p v (heq ▸ hv)

theorem Inv.next (h : Inv impl s) {a} (hallowed : Allowed impl s a) (hnext : s.next impl a = some s') : Inv impl s' := by
  cases a with
  | lock t o loaded => exact h.lock hnext
  | abort t => exact h.abort hnext
  | install t =>
    obtain ⟨hrange,hgrows⟩ := hallowed
    rw [State.next] at hnext
    cases hset : (s.txn t).writeset with
    | nil =>
      rw [hset] at hnext
      exact absurd hnext.symm (some_ne_none s')
    | cons o rest =>
      rw [hset] at hnext hgrows
      exact some.inj hnext ▸ h.install hrange hset (hgrows o rfl)

theorem inv_of_reached (h : (commits impl explicit).Reached (Allowed impl) s) : Inv impl s :=
  h.ofNext_invariant inv_initial (fun _ _ _ hI hallowed hnext => hI.next hallowed hnext)

/-- A committed write grows the version of its object exactly when the object is opaque, or when
its version is below the draw that it gets, or can still grow by itself; and while that is so no
version comes back. -/
theorem version_grows_iff (impl : O → VersImpl) (explicit : O → Bool) (s : State O)
    (h : (commits impl explicit).Reached (Allowed impl) s) :
    (∀ t o rest, (s.txn t).writeset = o :: rest → ∃ s', s.next impl (.install t) = some s' ∧
      (version (s.word o) < version (s'.word o) ↔ Grows impl s t o)) ∧
    ∀ o, ∀ v ∈ s.replaced o, v < version (s.word o) := by
  have hI := inv_of_reached h
  refine ⟨fun t o rest hset => ⟨s.install impl t o rest,?_,hI.grows_iff hset⟩,hI.replaced⟩
  rw [State.next,hset]

end Growth

section

def mixed (o : Bool) : VersImpl := if o then .tNonopaqueVersion else .tVersion

def mixedWrite (loaded : Tid) : List (Action Bool) :=
  [.lock 0 false incrementValue,.lock 0 true loaded,.install 0,.install 0]

/-- The nonopaque object is written alone, from its word on. -/
def aloneWrite (loaded : Tid) : List (Action Bool) := [.lock 0 true loaded,.install 0]

theorem version_grows_mixed : ∃ s, (commits mixed (fun _ => true)).Reached (Allowed mixed) s ∧
    (s.txn 0).writeset = [true] ∧ (∃ s', s.next mixed (.install 0) = some s' ∧
      (version (s.word true) < version (s'.word true) ↔ Grows mixed s 0 true)) ∧
    ∀ v ∈ s.replaced false, v < version (s.word false) := by
  have h : (commits mixed (fun _ => true)).Reached (Allowed mixed)
      ((commits mixed (fun _ => true)).play (commits mixed (fun _ => true)).start
        ((mixedWrite (incrementValue ||| nonopaqueBit)).take 3)) := by
    refine .next (.next (.next .start (by decide) trivial) (by decide) trivial) (by decide) ⟨by unfold InRange; decide,?_⟩
    intro o ho
    obtain rfl : false = o := Option.some.inj ho
    exact fun himpl => VersImpl.noConfusion himpl
  have hset : (((commits mixed (fun _ => true)).play (commits mixed (fun _ => true)).start
      ((mixedWrite (incrementValue ||| nonopaqueBit)).take 3)).txn 0).writeset = [true] := by decide
  have hgrows := version_grows_iff mixed (fun _ => true) _ h
  exact ⟨_,h,hset,hgrows.1 0 true [] hset,hgrows.2 false⟩

/-- Three writes of its own bring the nonopaque object to version 4; the first draw is 3, so the
write with the opaque object takes it back to version 3. -/
theorem version_returns : ∃ s, (commits mixed (fun _ => true)).Reachable s ∧ s.replaced true = [4,3,2,1] ∧
    version (s.word true) = 3 := by
  refine ⟨_,Machine.Reachable.play .start ([aloneWrite 0x1100,aloneWrite 0x2100,aloneWrite 0x3100,mixedWrite 0x4100].flatten)
    (by decide),?_,?_⟩
  · decide
  · decide

end

end AlNiCo.Sto.VersionGrowth
