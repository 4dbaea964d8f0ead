import AlNiCo.Sto.MvHistory

/-! What every step leaves true of the chain and of the transactions in it: the chain is
descending, a version is linked once and settles once, and no walk leaves the chain. -/
namespace AlNiCo.Sto.Mvcc
open Library DescendingChain Option
open Function (update update_self update_of_ne)

section WriteSteps
variable {T α : Type} [DecidableEq T] (P : Program T α)

inductive WriteStep (t : T) (m : Memory T α) : WritePc T → Memory T α → WritePc T → Prop
  | seek {target x} (hnext : after m.chain target = some x) : WriteStep t m (.seek target) m (.probe target x)
  | refuse {target x} : WriteStep t m (.probe target x) m .refused
  | further {target x} (hlt : P.ts t < P.wtid x) : WriteStep t m (.probe target x) m (.seek (some x))
  | probeAborted {target x} (hle : ¬P.ts t < P.wtid x) : WriteStep t m (.probe target x) m (.cas target x)
  | probe {target x} (hle : ¬P.ts t < P.wtid x) : WriteStep t m (.probe target x) m (.probeRtid target x)
  | refuseRead {target x} : WriteStep t m (.probeRtid target x) m .refused
  | probeRtid {target x} : WriteStep t m (.probeRtid target x) m (.cas target x)
  | linkDeleted {target x} (hnext : after m.chain target = some x) (hflag : (P.update t).flag = .deleted) :
    WriteStep t m (.cas target x) (m.link (.of t) target) (.wv1 (.load none))
  | link {target x} (hnext : after m.chain target = some x) (hflag : (P.update t).flag ≠ .deleted) :
    WriteStep t m (.cas target x) (m.link (.of t) target) (.wv2 (.load (some (.of t))) .deleted)
  | retry {target x} : WriteStep t m (.cas target x) m (.seek target)
  | wv1Load {place h} (hnext : after m.chain place = some h) : WriteStep t m (.wv1 (.load place)) m (.wv1 (.at h))
  | wv1Done : WriteStep t m (.wv1 (.at (.of t))) m (.wv2 (.load (some (.of t))) .deleted)
  | wv1Abort {h} : WriteStep t m (.wv1 (.at h)) (m.setStatus (.of t) .aborted) .aborted
  | wv1Pass {h} (hne : h ≠ .of t) (hdelta : (m.status h).isDelta = false) :
    WriteStep t m (.wv1 (.at h)) m (.wv1 (.load (some h)))
  | wv2Load {place stage h} (hnext : after m.chain place = some h) :
    WriteStep t m (.wv2 (.load place) stage) m (.wv2 (.at h) .deleted)
  | wv2End {place stage} (hnext : after m.chain place = none) : WriteStep t m (.wv2 (.load place) stage) m .locked
  | wv2Disabled {h} : WriteStep t m (.wv2 (.at h) .deleted) (m.setStatus (.of t) .aborted) .aborted
  | wv2Enabled {h} (hflags : ¬((m.status h).isDeleted = true ∧ (P.update t).flag = .delta)) :
    WriteStep t m (.wv2 (.at h) .deleted) m (.wv2 (.at h) .committed)
  | wv2Committed {h} (hc : (m.status h).isCommitted = true) : WriteStep t m (.wv2 (.at h) .committed) m (.wv2 (.at h) .rtid)
  | wv2Open {h} (hc : (m.status h).isCommitted = false) : WriteStep t m (.wv2 (.at h) .committed) m (.wv2 (.at h) .stop)
  | wv2Read {h} : WriteStep t m (.wv2 (.at h) .rtid) (m.setStatus (.of t) .aborted) .aborted
  | wv2Unread {h} (hle : m.rtid h ≤ P.ts t) : WriteStep t m (.wv2 (.at h) .rtid) m (.wv2 (.at h) .stop)
  | wv2Stop {h} (hc : (m.status h).isCommitted = true) : WriteStep t m (.wv2 (.at h) .stop) m .locked
  | wv2Pass {h} (hc : (m.status h).isCommitted = false) :
    WriteStep t m (.wv2 (.at h) .stop) m (.wv2 (.load (some h)) .deleted)

variable {P} {t : T} {m m' : Memory T α} {w w' : WritePc T}

private theorem writeStep_of_wv1 {v} (h : (WritePc.wv1 (.at v)).step P t m = some (m',w')) : WriteStep P t m (.wv1 (.at v)) m' w' := by
  rcases ite_eq_iff.mp h with ⟨rfl,⟨⟩⟩ | ⟨hne,h⟩
  · exact .wv1Done
  · rcases ite_eq_iff.mp h with ⟨-,⟨⟩⟩ | ⟨hdelta,⟨⟩⟩
    · exact .wv1Abort
    · exact .wv1Pass hne (Bool.eq_false_iff.mpr hdelta)

private theorem writeStep_of_wv2 {v stage} (h : (WritePc.wv2 (.at v) stage).step P t m = some (m',w')) :
    WriteStep P t m (.wv2 (.at v) stage) m' w' := by
  cases stage with
  | deleted =>
    rcases ite_eq_iff.mp h with ⟨-,⟨⟩⟩ | ⟨hflags,⟨⟩⟩
    · exact .wv2Disabled
    · exact .wv2Enabled hflags
  | committed =>
    rcases ite_eq_iff.mp h with ⟨hc,⟨⟩⟩ | ⟨hc,⟨⟩⟩
    · exact .wv2Committed hc
    · exact .wv2Open (Bool.eq_false_iff.mpr hc)
  | rtid =>
    rcases ite_eq_iff.mp h with ⟨-,⟨⟩⟩ | ⟨hle,⟨⟩⟩
    · exact .wv2Read
    · exact .wv2Unread (not_lt.mp hle)
  | stop =>
    rcases ite_eq_iff.mp h with ⟨hc,⟨⟩⟩ | ⟨hc,⟨⟩⟩
    · exact .wv2Stop hc
    · exact .wv2Pass (Bool.eq_false_iff.mpr hc)

private theorem writeStep_of_probe {target x}
    (h : (WritePc.probe target x).step P t m = some (m',w')) : WriteStep P t m (.probe target x) m' w' := by
  rcases ite_eq_iff.mp h with ⟨hlt,h⟩ | ⟨hle,h⟩
  · rcases ite_eq_iff.mp h with ⟨-,⟨⟩⟩ | ⟨-,⟨⟩⟩
    · exact .refuse
    · exact .further hlt
  · rcases ite_eq_iff.mp h with ⟨-,⟨⟩⟩ | ⟨-,⟨⟩⟩
    · exact .probeAborted hle
    · exact .probe hle

theorem writeStep_of_step (h : w.step P t m = some (m',w')) : WriteStep P t m w m' w' := by
  cases w with
  | idle | locked | installed | refused | aborted => cases h
  | seek target =>
    obtain ⟨x,hnext,⟨⟩⟩ := map_eq_some_iff.mp h
    exact .seek hnext
  | probe target x => exact writeStep_of_probe h
  | probeRtid target x =>
    rcases ite_eq_iff.mp h with ⟨-,⟨⟩⟩ | ⟨-,⟨⟩⟩
    · exact .refuseRead
    · exact .probeRtid
  | cas target x =>
    rcases ite_eq_iff.mp h with ⟨hnext,⟨⟩⟩ | ⟨-,⟨⟩⟩
    · split
      · next hflag => exact .linkDeleted hnext hflag
      · next hflag => exact .link hnext hflag
    · exact .retry
  | wv1 w =>
    cases w with
    | load place =>
      obtain ⟨x,hnext,⟨⟩⟩ := map_eq_some_iff.mp h
      exact .wv1Load hnext
    | «at» x => exact writeStep_of_wv1 h
  | wv2 w stage =>
    cases w with
    | load place =>
      rw [WritePc.step] at h
      split at h
      · next hnext =>
        cases h
        exact .wv2Load hnext
      · next hnext =>
        cases h
        exact .wv2End hnext
    | «at» x => exact writeStep_of_wv2 h

/-- The version that is linked first looks for what it must not be in front of. -/
theorem WriteStep.links (hs : WriteStep P t m w m' w') (hnot : .of t ∉ m.chain) (hmem : .of t ∈ m'.chain) :
    (P.update t).flag = .deleted ∧ w' = .wv1 (.load none) ∨ (P.update t).flag ≠ .deleted ∧ w' = .wv2 (.load (some (.of t))) .deleted := by
  cases hs with
  | linkDeleted _ hflag => exact .inl ⟨hflag,rfl⟩
  | link _ hflag => exact .inr ⟨hflag,rfl⟩
  | _ => exact absurd hmem hnot

end WriteSteps

section
variable {T α : Type} [DecidableEq T] (P : Program T α)

inductive ReadStep (t : T) (m : Memory T α) : ReadPc T → ReadPc T → Prop
  | findLoad {place h} (hnext : after m.chain place = some h) : ReadStep t m (.find (.load place)) (.find (.at h))
  | found {h} (hle : P.wtid h ≤ P.readTs t) (hc : (m.status h).isCommitted = true) : ReadStep t m (.find (.at h)) (.found h)
  | findPass {h} : ReadStep t m (.find (.at h)) (.find (.load (some h)))
  | checkLoad {v place h} (hnext : after m.chain place = some h) : ReadStep t m (.check v (.load place)) (.check v (.at h))
  | passed {v} : ReadStep t m (.check v (.at v)) (.passed v)
  | failed {v h} : ReadStep t m (.check v (.at h)) .failed
  | checkPass {v h} (hne : h ≠ v) (hpass : m.status h = .aborted ∨ P.ts t ≤ P.wtid h) :
    ReadStep t m (.check v (.at h)) (.check v (.load (some h)))

variable {P} {t : T} {m : Memory T α} {r r' : ReadPc T}

theorem readStep_of_step (h : r.step P t m = some r') : ReadStep P t m r r' := by
  cases r with
  | idle | found _ | passed _ | failed => cases h
  | find w =>
    cases w with
    | load place =>
      obtain ⟨x,hnext,⟨⟩⟩ := map_eq_some_iff.mp h
      exact .findLoad hnext
    | «at» x =>
      obtain ⟨-,h⟩ := ite_none_left_eq_some.mp h
      rcases ite_eq_iff.mp h with ⟨⟨hle,hc⟩,⟨⟩⟩ | ⟨-,⟨⟩⟩
      · exact .found hle hc
      · exact .findPass
  | check v w =>
    cases w with
    | load place =>
      obtain ⟨x,hnext,⟨⟩⟩ := map_eq_some_iff.mp h
      exact .checkLoad hnext
    | «at» x =>
      rcases ite_eq_iff.mp h with ⟨rfl,⟨⟩⟩ | ⟨hne,h⟩
      · exact .passed
      · rcases ite_eq_iff.mp h with ⟨-,⟨⟩⟩ | ⟨hx,⟨⟩⟩
        · exact .failed
        · rw [not_and_or,not_not,not_lt] at hx
          exact .checkPass hne hx

end

section
variable {T α : Type} [DecidableEq T] (P : Program T α)

inductive FlatStep (m : Memory T α) : FlatPc T α → Memory T α → FlatPc T α → Prop
  | full {fv curr trace} (hfull : (m.status curr).isFull = true) : FlatStep m (.back fv curr trace) m (.base fv curr trace)
  | push {fv curr trace} (hfull : (m.status curr).isFull = false) :
    FlatStep m (.back fv curr trace) m (.backLoad fv curr (curr :: trace))
  | backLoad {fv curr trace h} (hnext : after m.chain (some curr) = some h) :
    FlatStep m (.backLoad fv curr trace) m (.back fv h trace)
  | base {fv curr trace} :
    FlatStep m (.base fv curr trace) (m.updateRtid curr (P.wtid fv)) (.pop fv (m.value curr) (P.wtid curr) trace)
  | settle {fv value safe hnext trace prev} (hprev : after m.chain (some hnext) = some prev) (hle : P.wtid prev ≤ safe) :
    FlatStep m (.walk fv value safe (hnext :: trace)) m (.wait fv value (hnext :: trace))
  | descend {fv value safe hnext trace prev} (hprev : after m.chain (some hnext) = some prev) (hlt : safe < P.wtid prev) :
    FlatStep m (.walk fv value safe (hnext :: trace)) m (.walk fv value safe (prev :: hnext :: trace))
  | committed {fv value hnext trace} (hc : (m.status hnext).isCommitted = true) :
    FlatStep m (.wait fv value (hnext :: trace)) m (.apply fv value (hnext :: trace) (m.status hnext).isDelta)
  | aborted {fv value hnext trace} (ha : m.status hnext = .aborted) :
    FlatStep m (.wait fv value (hnext :: trace)) m (.pop fv value (P.wtid hnext) trace)
  | apply {fv value hnext trace delta} :
    FlatStep m (.apply fv value (hnext :: trace) delta) (m.updateRtid hnext (P.wtid fv))
      (.pop fv (if delta then (P.updateOf hnext).apply value else m.value hnext) (P.wtid hnext) trace)
  | lock {fv value} (hd : m.status fv = .committed .delta) : FlatStep m (.cas fv value) (m.setStatus fv .locked) (.store fv value)
  | lost {fv value} : FlatStep m (.cas fv value) m .done
  | store {fv value} : FlatStep m (.store fv value) (m.storeValue fv value) (.publish fv)
  | publish {fv} : FlatStep m (.publish fv) (m.setStatus fv (.committed .full)) .done

variable {P} {m m' : Memory T α} {c c' : FlatPc T α}

theorem MvStatus.eq_aborted {s : MvStatus} (hp : ¬s.isPending = true) (hc : ¬s.isCommitted = true) : s = .aborted := by
  cases s with
  | pending f => exact absurd rfl hp
  | committed | locked => exact absurd rfl hc
  | aborted => rfl

theorem flag_eq_delta {f} (h : (MvStatus.pending f).isDelta = true) : f = .delta := by
  cases f with
  | delta => rfl
  | _ => cases h

theorem flatStep_of_step (h : c.step P m = some (m',c')) : FlatStep P m c m' c' := by
  cases c with
  | idle | done => cases h
  | back fv curr trace =>
    rcases ite_eq_iff.mp h with ⟨hfull,⟨⟩⟩ | ⟨hfull,⟨⟩⟩
    · exact .full hfull
    · exact .push (Bool.eq_false_iff.mpr hfull)
  | backLoad fv curr trace =>
    obtain ⟨x,hnext,⟨⟩⟩ := map_eq_some_iff.mp h
    exact .backLoad hnext
  | base fv curr trace =>
    cases h
    exact .base
  | walk fv value safe trace =>
    cases trace with
    | nil => cases h
    | cons hnext trace =>
      obtain ⟨prev,hprev,h⟩ := map_eq_some_iff.mp h
      rcases ite_eq_iff.mp h with ⟨hle,⟨⟩⟩ | ⟨hlt,⟨⟩⟩
      · exact .settle hprev hle
      · exact .descend hprev (not_le.mp hlt)
  | wait fv value trace =>
    cases trace with
    | nil => cases h
    | cons hnext trace =>
      obtain ⟨hp,h⟩ := ite_none_left_eq_some.mp h
      rcases ite_eq_iff.mp h with ⟨hc,⟨⟩⟩ | ⟨hc,⟨⟩⟩
      · exact .committed hc
      · exact .aborted (MvStatus.eq_aborted hp hc)
  | apply fv value trace delta =>
    cases trace with
    | nil => cases h
    | cons hnext trace =>
      cases h
      exact .apply
  | cas fv value =>
    rcases ite_eq_iff.mp h with ⟨hd,⟨⟩⟩ | ⟨-,⟨⟩⟩
    · exact .lock hd
    · exact .lost
  | store fv value =>
    cases h
    exact .store
  | publish fv =>
    cases h
    exact .publish

end

section Evolution
variable {T α : Type} [DecidableEq T] {who : Option T} {m : Memory T α} {v : Version T}

theorem setStatus_self (v : Version T) (x : MvStatus) : (m.setStatus v x).status v = x := update_self _ _ _

variable {x : MvStatus} {y : Version T} (Q : MvStatus → Prop)

theorem setStatus_of_ne (h : y ≠ v) : (m.setStatus v x).status y = m.status y :=
  update_of_ne h _ _

/-- What becomes true of a status was true before, or is so by the store. -/
theorem of_setStatus (h : Q ((m.setStatus v x).status y)) : Q (m.status y) ∨ y = v ∧ Q x := by
  by_cases heq : y = v
  · rw [heq,setStatus_self] at h
    exact .inr ⟨heq,h⟩
  · rw [setStatus_of_ne heq] at h
    exact .inl h

/-- What is true of a status stays so, if the store does not change it. -/
theorem to_setStatus (h : Q (m.status y)) (hself : Q (m.status v) → Q x) : Q ((m.setStatus v x).status y) := by
  by_cases heq : y = v
  · rw [heq] at h ⊢
    rw [setStatus_self]
    exact hself h
  · rw [setStatus_of_ne heq]
    exact h

/-- What a step of transaction `who`, or of a flatten, can do to the memory. -/
structure Evolves (who : Option T) (m m' : Memory T α) : Prop where
  mem : ∀ v ∈ m.chain, v ∈ m'.chain
  new : ∀ t, who ≠ some t → .of t ∈ m'.chain → .of t ∈ m.chain
  pending : ∀ t, who ≠ some t → (m.status (.of t)).isPending = true → m'.status (.of t) = m.status (.of t)
  committed : ∀ v, (m.status v).isCommitted = true → (m'.status v).isCommitted = true
  aborted : ∀ v, m.status v = .aborted → m'.status v = .aborted
  locked : ∀ v, who.isSome → m.status v = .locked → m'.status v = .locked
  delta : ∀ v, (m'.status v).isDelta = true → (m.status v).isDelta = true
  deleted : ∀ v, (m'.status v).isDeleted = true → (m.status v).isDeleted = true
  commits : ∀ v, (m'.status v).isCommitted = true → (m.status v).isCommitted = true ∨ ∃ t, who = some t ∧ v = .of t
  value : ∀ v, who.isSome → m'.value v = m.value v
  rtid : ∀ v, m.rtid v ≤ m'.rtid v
  full : ∀ v, (m.status v).isFull = true → m'.status v = m.status v ∧ m'.value v = m.value v

namespace Evolves

omit [DecidableEq T] in
protected theorem refl (who : Option T) (m : Memory T α) : Evolves who m m where
  mem _ hv := hv
  new _ _ hv := hv
  pending _ _ _ := rfl
  committed _ hv := hv
  aborted _ hv := hv
  locked _ _ hv := hv
  delta _ hv := hv
  deleted _ hv := hv
  commits _ hv := .inl hv
  value _ _ := rfl
  rtid _ := le_rfl
  full _ _ := ⟨rfl,rfl⟩

theorem updateRtid (who : Option T) (m : Memory T α) (v : Version T) (tid : Nat) : Evolves who m (m.updateRtid v tid) where
  mem _ hv := hv
  new _ _ hv := hv
  pending _ _ _ := rfl
  committed _ hv := hv
  aborted _ hv := hv
  locked _ _ hv := hv
  delta _ hv := hv
  deleted _ hv := hv
  commits _ hv := .inl hv
  value _ _ := rfl
  rtid x := by
    change m.rtid x ≤ update m.rtid v _ x
    by_cases hx : x = v
    · rw [hx,update_self]
      exact le_max_left _ _
    · rw [update_of_ne hx]
  full _ _ := ⟨rfl,rfl⟩

theorem link {t target} (htarget : ∀ p ∈ target, p ∈ m.chain) : Evolves (some t) m (m.link (.of t) target) where
  mem _ hv := (mem_linkAfter htarget).mpr (.inr hv)
  new u hu hv := by
    rcases (mem_linkAfter htarget).mp hv with heq | hv
    · cases heq
      exact absurd rfl hu
    · exact hv
  pending _ _ _ := rfl
  committed _ hv := hv
  aborted _ hv := hv
  locked _ _ hv := hv
  delta _ hv := hv
  deleted _ hv := hv
  commits _ hv := .inl hv
  value _ _ := rfl
  rtid _ := le_rfl
  full _ _ := ⟨rfl,rfl⟩

theorem setStatus (hpending : ∀ t, who ≠ some t → v = .of t → (m.status v).isPending = false)
    (hcommitted : (m.status v).isCommitted = true → x.isCommitted = true) (haborted : m.status v = .aborted → x = .aborted)
    (hlocked : who.isSome → m.status v ≠ .locked) (hdelta : x.isDelta = true → (m.status v).isDelta = true)
    (hdeleted : x.isDeleted = true → (m.status v).isDeleted = true)
    (hcommits : x.isCommitted = true → (m.status v).isCommitted = true ∨ ∃ t, who = some t ∧ v = .of t)
      (hfull : (m.status v).isFull = false) : Evolves who m (m.setStatus v x) where
  mem _ hv := hv
  new _ _ hv := hv
  pending t ht hp := by
    refine update_of_ne (fun heq => ?_) _ _
    rw [heq,hpending t ht heq.symm] at hp
    cases hp
  committed _ hy := to_setStatus (MvStatus.isCommitted · = true) hy hcommitted
  aborted _ hy := to_setStatus (· = .aborted) hy haborted
  locked _ hwho hy := to_setStatus (· = .locked) hy (fun hv => absurd hv (hlocked hwho))
  delta y hy := (of_setStatus (MvStatus.isDelta · = true) hy).elim id (fun ⟨heq,hx⟩ => heq ▸ hdelta hx)
  deleted y hy := (of_setStatus (MvStatus.isDeleted · = true) hy).elim id (fun ⟨heq,hx⟩ => heq ▸ hdeleted hx)
  commits y hy := (of_setStatus (MvStatus.isCommitted · = true) hy).elim .inl (fun ⟨heq,hx⟩ => heq ▸ hcommits hx)
  value _ _ := rfl
  rtid _ := le_rfl
  full y hy := by
    refine ⟨update_of_ne (fun heq => ?_) _ _,rfl⟩
    rw [heq,hfull] at hy
    cases hy

theorem storeValue (x : α) (hfull : (m.status v).isFull = false) : Evolves none m (m.storeValue v x) where
  mem _ hv := hv
  new _ _ hv := hv
  pending _ _ _ := rfl
  committed _ hv := hv
  aborted _ hv := hv
  locked _ _ hv := hv
  delta _ hv := hv
  deleted _ hv := hv
  commits _ hv := .inl hv
  value _ h := by cases h
  rtid _ := le_rfl
  full y hy := by
    refine ⟨rfl,update_of_ne (fun heq => ?_) _ _⟩
    rw [heq,hfull] at hy
    cases hy

end Evolves

end Evolution

section WriteFacts
variable {T α : Type} [DecidableEq T] (P : Program T α) (m : Memory T α) (t : T)

def Hidden : Prop := .of t ∉ m.chain ∧ m.status (.of t) = .pending (P.update t).flag

/-- The version of `t` is linked and neither committed nor aborted. -/
def Linked : Prop := .of t ∈ m.chain ∧ m.status (.of t) = .pending (P.update t).flag

def Target (target : Option (Version T)) : Prop := ∀ p ∈ target, p ∈ m.chain ∧ P.ts t < P.wtid p

/-- The last loop of `cp_lock` is below its own version. -/
def Under : Walk (Version T) → Stage → Prop
  | .load place,_ => ∃ p, place = some p ∧ p ∈ m.chain ∧ P.wtid p ≤ P.ts t
  | .at h,stage => h ∈ m.chain ∧ P.wtid h < P.ts t ∧ (stage = .rtid → (m.status h).isCommitted = true)

def WriteOk : WritePc T → Prop
  | .idle => Hidden P m t
  | .refused => Hidden P m t
  | .seek target => Hidden P m t ∧ Target P m t target
  | .probe target x => Hidden P m t ∧ Target P m t target ∧ x ∈ m.chain
  | .probeRtid target x => Hidden P m t ∧ Target P m t target ∧ x ∈ m.chain ∧ P.wtid x < P.ts t
  | .cas target x => Hidden P m t ∧ Target P m t target ∧ x ∈ m.chain ∧ P.wtid x < P.ts t
  | .wv1 w => Linked P m t ∧ w.On m.chain ∧ (P.update t).flag = .deleted
  | .wv2 w stage => Linked P m t ∧ Under P m t w stage
  | .locked => Linked P m t
  | .installed => .of t ∈ m.chain ∧ (m.status (.of t)).isCommitted = true
  | .aborted => m.status (.of t) = .aborted

variable {P m t} {m' : Memory T α} {who : Option T} {w w' : WritePc T} {x : Version T}

omit [DecidableEq T] in
theorem wtid_lt_of_le (hne : x ≠ .of t) (hle : P.wtid x ≤ P.ts t) : P.wtid x < P.ts t := by
  cases x with
  | initial => exact P.ts_pos t
  | of u => exact lt_of_le_of_ne hle (fun heq => hne (congrArg Version.of (P.ts_injective heq)))

namespace Evolves

section
omit [DecidableEq T]

theorem pending_eq {f} (h : Evolves who m m') (ht : who ≠ some t) (hf : m.status (.of t) = .pending f) :
    m'.status (.of t) = .pending f := (h.pending t ht (by rw [hf]; rfl)).trans hf

theorem hidden (h : Evolves who m m') (ht : who ≠ some t) (ho : Hidden P m t) : Hidden P m' t :=
  ⟨fun hmem => ho.1 (h.new t ht hmem),h.pending_eq ht ho.2⟩

theorem linked (h : Evolves who m m') (ht : who ≠ some t) (ho : Linked P m t) : Linked P m' t :=
  ⟨h.mem _ ho.1,h.pending_eq ht ho.2⟩

theorem target {target : Option (Version T)} (h : Evolves who m m') (ho : Target P m t target) : Target P m' t target :=
  fun p hp => ⟨h.mem p (ho p hp).1,(ho p hp).2⟩

theorem on {w : Walk (Version T)} (h : Evolves who m m') (ho : w.On m.chain) : w.On m'.chain := by
  cases w with
  | load place => exact fun p hp => h.mem p (ho p hp)
  | «at» x => exact h.mem x ho

theorem under {w stage} (h : Evolves who m m') (ho : Under P m t w stage) : Under P m' t w stage := by
  cases w with
  | load place =>
    obtain ⟨p,hplace,hp,hle⟩ := ho
    exact ⟨p,hplace,h.mem p hp,hle⟩
  | «at» x => exact ⟨h.mem x ho.1,ho.2.1,fun hs => h.committed x (ho.2.2 hs)⟩

/-- A step of one transaction leaves true what holds of another's write. -/
theorem writeOk (h : Evolves who m m') (ht : who ≠ some t) (ho : WriteOk P m t w) : WriteOk P m' t w := by
  cases w with
  | idle | refused => exact h.hidden ht ho
  | seek target => exact ⟨h.hidden ht ho.1,h.target ho.2⟩
  | probe target x => exact ⟨h.hidden ht ho.1,h.target ho.2.1,h.mem x ho.2.2⟩
  | probeRtid target x | cas target x => exact ⟨h.hidden ht ho.1,h.target ho.2.1,h.mem x ho.2.2.1,ho.2.2.2⟩
  | wv1 w => exact ⟨h.linked ht ho.1,h.on ho.2.1,ho.2.2⟩
  | wv2 w stage => exact ⟨h.linked ht ho.1,h.under ho.2⟩
  | locked => exact h.linked ht ho
  | installed => exact ⟨h.mem _ ho.1,h.committed _ ho.2⟩
  | aborted => exact h.aborted _ ho

end

theorem settle {y f} (hf : m.status (.of t) = .pending f) (hy : y = .committed f ∨ y = .aborted) :
    Evolves (some t) m (m.setStatus (.of t) y) := by
  apply Evolves.setStatus
  · intro u hu heq
    cases heq
    exact absurd rfl hu
  · intro hc
    rw [hf] at hc
    cases hc
  · intro ha
    rw [hf] at ha
    cases ha
  · intro _
    rw [hf]
    nofun
  · intro hd
    rcases hy with rfl | rfl
    · rw [hf]
      cases f <;> exact hd
    · cases hd
  · intro hd
    rcases hy with rfl | rfl
    · rw [hf]
      cases f <;> exact hd
    · cases hd
  · exact fun _ => .inr ⟨t,rfl,rfl⟩
  · rw [hf]
    rfl

end Evolves

theorem le_updateRtid (v : Version T) (tid : Nat) : tid ≤ (m.updateRtid v tid).rtid v := by
  change tid ≤ update m.rtid v _ v
  rw [update_self]
  exact le_max_right _ _

theorem WriteStep.status (hs : WriteStep P t m w m' w') : m'.status = m.status ∨ m'.status = update m.status (.of t) .aborted := by
  cases hs with
  | wv1Abort | wv2Disabled | wv2Read => exact .inr rfl
  | _ => exact .inl rfl

theorem descending_link {target} (hl : Descending P.wtid m.chain) (htarget : Target P m t target)
    (hlt : P.wtid x < P.ts t) (hnext : after m.chain target = some x) :
    Descending P.wtid (m.link (.of t) target).chain := by
  refine descending_linkAfter hl (fun p hp => (htarget p hp).1) ?_ (fun y hy hbelow => ?_)
  · cases target with
    | none => trivial
    | some p => exact (htarget p rfl).2
  · exact (after_le hl hnext hy hbelow).trans_lt hlt

theorem linked_link {target} (hhidden : Hidden P m t) (htarget : Target P m t target) : Linked P (m.link (.of t) target) t :=
  ⟨(mem_linkAfter (fun p hp => (htarget p hp).1)).mpr (.inl rfl),hhidden.2⟩

/-- A step of `cp_lock` changes the memory as a transaction may, and knows where it is. -/
theorem WriteStep.sound (hs : WriteStep P t m w m' w') (hl : Descending P.wtid m.chain) (ho : WriteOk P m t w) :
    Evolves (some t) m m' ∧ Descending P.wtid m'.chain ∧ WriteOk P m' t w' := by
  cases hs with
  | seek hnext => exact ⟨.refl _ _,hl,ho.1,ho.2,after_mem hnext⟩
  | refuse | refuseRead | wv2End | wv2Stop => exact ⟨.refl _ _,hl,ho.1⟩
  | @further target x hlt =>
    refine ⟨.refl _ _,hl,ho.1,fun p hp => ?_⟩
    obtain rfl := some.inj hp
    exact ⟨ho.2.2,hlt⟩
  | probeAborted hle | probe hle =>
    refine ⟨.refl _ _,hl,ho.1,ho.2.1,ho.2.2,wtid_lt_of_le (fun heq => ho.1.1 (heq ▸ ho.2.2)) (not_lt.mp hle)⟩
  | probeRtid => exact ⟨.refl _ _,hl,ho⟩
  | retry => exact ⟨.refl _ _,hl,ho.1,ho.2.1⟩
  | linkDeleted hnext hflag =>
    obtain ⟨hhidden,htarget,hx,hlt⟩ := ho
    exact ⟨.link (fun p hp => (htarget p hp).1),descending_link hl htarget hlt hnext,linked_link hhidden htarget,nofun,hflag⟩
  | link hnext hflag =>
    obtain ⟨hhidden,htarget,hx,hlt⟩ := ho
    have hlinked := linked_link hhidden htarget
    exact ⟨.link (fun p hp => (htarget p hp).1),descending_link hl htarget hlt hnext,hlinked,_,rfl,hlinked.1,le_rfl⟩
  | wv1Load hnext => exact ⟨.refl _ _,hl,ho.1,after_mem hnext,ho.2.2⟩
  | wv1Done => exact ⟨.refl _ _,hl,ho.1,_,rfl,ho.1.1,le_rfl⟩
  | wv1Abort | wv2Disabled | wv2Read => exact ⟨.settle ho.1.2 (.inr rfl),hl,setStatus_self _ _⟩
  | @wv1Pass h hne hdelta => exact ⟨.refl _ _,hl,ho.1,fun p hp => some.inj hp ▸ ho.2.1,ho.2.2⟩
  | wv2Load hnext =>
    obtain ⟨hlinked,p,rfl,hp,hle⟩ := ho
    exact ⟨.refl _ _,hl,hlinked,after_mem hnext,(after_below hl hnext).trans_le hle,nofun⟩
  | wv2Enabled | wv2Open | wv2Unread => exact ⟨.refl _ _,hl,ho.1,ho.2.1,ho.2.2.1,nofun⟩
  | wv2Committed hc => exact ⟨.refl _ _,hl,ho.1,ho.2.1,ho.2.2.1,fun _ => hc⟩
  | @wv2Pass h hc => exact ⟨.refl _ _,hl,ho.1,h,rfl,ho.2.1,ho.2.2.1.le⟩

end WriteFacts

section
variable {T α : Type} [DecidableEq T] (P : Program T α) (m : Memory T α) (t : T)

/-- A committed version that `t` may have read. -/
def Seen (v : Version T) : Prop := v ∈ m.chain ∧ (m.status v).isCommitted = true ∧ P.wtid v < P.ts t

def ReadOk (w : WritePc T) : ReadPc T → Prop
  | .idle => True
  | .find walk => walk.On m.chain ∧ w = .idle
  | .found v => Seen P m t v
  | .check v walk => Seen P m t v ∧ P.ts t ≤ m.rtid v ∧ walk.On m.chain ∧ Ahead P.wtid walk v
  | .passed v => Seen P m t v ∧ P.ts t ≤ m.rtid v
  | .failed => True

variable {P m t} {m' : Memory T α} {who : Option T} {w w' : WritePc T} {r r' : ReadPc T} {v : Version T}

omit [DecidableEq T] in
theorem Evolves.seen (h : Evolves who m m') (ho : Seen P m t v) : Seen P m' t v :=
  ⟨h.mem v ho.1,h.committed v ho.2.1,ho.2.2⟩

omit [DecidableEq T] in
theorem Evolves.readOk (h : Evolves who m m') (hw : w = .idle → w' = .idle) (ho : ReadOk P m t w r) : ReadOk P m' t w' r := by
  cases r with
  | idle | failed => trivial
  | find walk => exact ⟨h.on ho.1,hw ho.2⟩
  | found v => exact h.seen ho
  | check v walk => exact ⟨h.seen ho.1,ho.2.1.trans (h.rtid v),h.on ho.2.2.1,ho.2.2.2⟩
  | passed v => exact ⟨h.seen ho.1,ho.2.trans (h.rtid v)⟩

theorem ReadStep.sound (hs : ReadStep P t m r r') (hl : Descending P.wtid m.chain) (hw : WriteOk P m t w)
    (ho : ReadOk P m t w r) : ReadOk P m t w r' := by
  cases hs with
  | findLoad hnext => exact ⟨after_mem hnext,ho.2⟩
  | @found v hle hc =>
    obtain ⟨hv,rfl⟩ := ho
    have hne : v ≠ .of t := fun heq => hw.1 (heq ▸ hv)
    exact ⟨hv,hc,wtid_lt_of_le hne (hle.trans (P.readTs_le t))⟩
  | findPass => exact ⟨fun p hp => some.inj hp ▸ ho.1,ho.2⟩
  | checkLoad hnext => exact ⟨ho.1,ho.2.1,after_mem hnext,ho.2.2.2.load hl hnext ho.1.1⟩
  | passed => exact ⟨ho.1,ho.2.1⟩
  | failed => trivial
  | checkPass hne hpass =>
    exact ⟨ho.1,ho.2.1,fun p hp => some.inj hp ▸ ho.2.2.1,ho.2.2.2.pass hl ho.1.1 ho.2.2.1 hne.symm⟩

end

section Runs
variable {T F α : Type} [DecidableEq T] [DecidableEq F] (P : Program T α)

inductive Step (s : State T F α) : State T F α → Prop
  | find (t : T) (hr : s.read t = .idle) (hw : s.write t = .idle) :
    Step s { s with read := update s.read t (.find (.load none)) }
  | read (t : T) (r : ReadPc T) (h : ReadStep P t s.memory (s.read t) r) :
    Step s { s with read := update s.read t r }
  | check (t : T) (v : Version T) (hr : s.read t = .found v) (hw : s.write t = .idle ∨ s.write t = .locked) :
    Step s { s with
      memory := s.memory.updateRtid v (P.ts t)
      read := update s.read t (.check v (.load none)) }
  | lock (t : T) (hr : State.readDone (s.read t) = true) (hw : s.write t = .idle) :
    Step s { s with write := update s.write t (.seek none) }
  | write (t : T) (m : Memory T α) (w : WritePc T) (h : WriteStep P t s.memory (s.write t) m w) :
    Step s { s with memory := m, write := update s.write t w }
  | install (t : T) (hw : s.write t = .locked) (hr : State.readChecked (s.read t) = true) :
    Step s { s with
      memory := s.memory.setStatus (.of t) (s.memory.status (.of t)).commit
      write := update s.write t .installed }
  | abort (t : T) (hw : s.write t ≠ .installed) :
    Step s { s with
      memory := s.memory.setStatus (.of t) .aborted
      read := update s.read t .failed
      write := update s.write t .aborted }
  | flatten (f : F) (fv : Version T) (hf : s.flat f = .idle) (hd : s.memory.status fv = .committed .delta) :
    Step s { s with flat := update s.flat f (.back fv fv []) }
  | flat (f : F) (m : Memory T α) (c : FlatPc T α) (h : FlatStep P s.memory (s.flat f) m c) :
    Step s { s with memory := m, flat := update s.flat f c }

variable {P} {s s' : State T F α} {a : Action T F}

theorem step_of_next (h : s.next P a = some s') : Step P s s' := by
  cases a with
  | find t =>
    obtain ⟨hc,rfl⟩ := ite_some_none_eq_some.mp h
    exact .find t hc.1 hc.2
  | read t =>
    obtain ⟨r,hr,heq⟩ := map_eq_some_iff.mp h
    exact heq ▸ .read t r (readStep_of_step hr)
  | check t =>
    rw [State.next,State.startCheck] at h
    split at h
    · next v hr =>
      obtain ⟨hw,rfl⟩ := ite_some_none_eq_some.mp h
      exact .check t v hr hw
    · cases h
  | lock t =>
    obtain ⟨hc,rfl⟩ := ite_some_none_eq_some.mp h
    exact .lock t hc.1 hc.2
  | write t =>
    obtain ⟨r,hr,heq⟩ := map_eq_some_iff.mp h
    exact heq ▸ .write t r.1 r.2 (writeStep_of_step hr)
  | install t =>
    obtain ⟨hc,rfl⟩ := ite_some_none_eq_some.mp h
    exact .install t hc.1 hc.2
  | abort t =>
    obtain ⟨hc,rfl⟩ := ite_some_none_eq_some.mp h
    exact .abort t hc
  | flatten f fv =>
    rw [State.next] at h
    split at h
    · next hf =>
      obtain ⟨hd,rfl⟩ := ite_some_none_eq_some.mp h
      exact .flatten f fv hf hd
    · cases h
  | flat f =>
    obtain ⟨r,hr,heq⟩ := map_eq_some_iff.mp h
    exact heq ▸ .flat f r.1 r.2 (flatStep_of_step hr)

def WritePc.checking : WritePc T → Bool
  | .wv1 _ => true
  | .wv2 _ _ => true
  | _ => false

def FlatPc.held : FlatPc T α → Option (Version T)
  | .store fv _ => some fv
  | .publish fv => some fv
  | _ => none

variable (P) in
structure Base (s : State T F α) : Prop where
  chain : Descending P.wtid s.memory.chain
  initial : .initial ∈ s.memory.chain
  initial_full : (s.memory.status .initial).isFull = true
  write : ∀ t, WriteOk P s.memory t (s.write t)
  read : ∀ t, ReadOk P s.memory t (s.write t) (s.read t)
  held : ∀ f v, (s.flat f).held = some v → s.memory.status v = .locked
  held_unique : ∀ f f' v, (s.flat f).held = some v → (s.flat f').held = some v → f = f'

structure Turn (t : T) (s s' : State T F α) : Prop where
  memory : Evolves (some t) s.memory s'.memory
  read : ∀ u, u ≠ t → s'.read u = s.read u
  write : ∀ u, u ≠ t → s'.write u = s.write u
  flat : s'.flat = s.flat

structure FlatTurn (f : F) (s s' : State T F α) : Prop where
  memory : Evolves none s.memory s'.memory
  chain : s'.memory.chain = s.memory.chain
  read : s'.read = s.read
  write : s'.write = s.write
  flat : ∀ f', f' ≠ f → s'.flat f' = s.flat f'

variable {t : T} {f : F} {c : FlatPc T α} {m : Memory T α} {w : WritePc T}

namespace Base

section
omit [DecidableEq T] [DecidableEq F]

theorem start : Base P (.start P : State T F α) where
  chain := List.pairwise_singleton _ _
  initial := List.mem_singleton_self _
  initial_full := by
    change (MvStatus.committed (P.updateOf .initial).flag).isFull = true
    rw [Program.updateOf]
    split <;> rfl
  write t := ⟨by simp [State.start],rfl⟩
  read _ := trivial
  held _ _ h := by cases h
  held_unique _ _ _ h := by cases h

theorem turn {r} (h : Base P s) (ht : Turn t s s') (hl : Descending P.wtid s'.memory.chain)
    (hwt : s'.write t = w) (hrt : s'.read t = r) (hw : WriteOk P s'.memory t w) (hr : ReadOk P s'.memory t w r) : Base P s' where
  chain := hl
  initial := ht.memory.mem _ h.initial
  initial_full := by
    rw [(ht.memory.full _ h.initial_full).1]
    exact h.initial_full
  write u := by
    by_cases hu : u = t
    · rw [hu,hwt]
      exact hw
    · rw [ht.write u hu]
      exact ht.memory.writeOk (fun heq => hu (some.inj heq).symm) (h.write u)
  read u := by
    by_cases hu : u = t
    · rw [hu,hwt,hrt]
      exact hr
    · rw [ht.read u hu,ht.write u hu]
      exact ht.memory.readOk id (h.read u)
  held f v hv := ht.memory.locked v rfl (h.held f v (ht.flat ▸ hv))
  held_unique f f' v hv hv' := h.held_unique f f' v (ht.flat ▸ hv) (ht.flat ▸ hv')

/-- A step of a flatten, given what becomes of held versions. -/
private theorem flatTurn (h : Base P s) (ht : FlatTurn f s s') (hf : s'.flat f = c)
    (hheld : ∀ v, c.held = some v → s'.memory.status v = .locked ∧ ∀ f', f' ≠ f → (s.flat f').held ≠ some v)
    (hother : ∀ f' v, f' ≠ f → (s.flat f').held = some v → s'.memory.status v = .locked) : Base P s' where
  chain := by
    rw [ht.chain]
    exact h.chain
  initial := ht.memory.mem _ h.initial
  initial_full := by
    rw [(ht.memory.full _ h.initial_full).1]
    exact h.initial_full
  write u := by
    rw [ht.write]
    exact ht.memory.writeOk nofun (h.write u)
  read u := by
    rw [ht.write,ht.read]
    exact ht.memory.readOk id (h.read u)
  held f' v hv := by
    by_cases hne : f' = f
    · rw [hne,hf] at hv
      exact (hheld v hv).1
    · rw [ht.flat f' hne] at hv
      exact hother f' v hne hv
  held_unique f₁ f₂ v h₁ h₂ := by
    by_cases hf₁ : f₁ = f <;> by_cases hf₂ : f₂ = f
    · exact hf₁.trans hf₂.symm
    · rw [hf₁,hf] at h₁
      rw [ht.flat f₂ hf₂] at h₂
      exact absurd h₂ ((hheld v h₁).2 f₂ hf₂)
    · rw [hf₂,hf] at h₂
      rw [ht.flat f₁ hf₁] at h₁
      exact absurd h₁ ((hheld v h₂).2 f₁ hf₁)
    · rw [ht.flat f₁ hf₁] at h₁
      rw [ht.flat f₂ hf₂] at h₂
      exact h.held_unique f₁ f₂ v h₁ h₂

private theorem flatPass (h : Base P s) (ht : FlatTurn f s s') (hf : s'.flat f = c)
    (hstatus : s'.memory.status = s.memory.status) (hc : c.held = none) : Base P s' := by
  refine h.flatTurn ht hf (fun v hv => ?_) (fun f' v _ hv => ?_)
  · rw [hc] at hv
    cases hv
  · rw [hstatus]
    exact h.held f' v hv

end

omit [DecidableEq T] in
private theorem held_pop (fv : Version T) (value : α) (safe : Nat) (trace : List (Version T)) :
    (FlatPc.pop fv value safe trace).held = none := by
  cases trace <;> rfl

omit [DecidableEq F] in
/-- A step of `flatten` changes the memory as no transaction does. -/
theorem flat_evolves {c} (h : Base P s) (hs : FlatStep P s.memory (s.flat f) m c) : Evolves none s.memory m := by
  generalize hpc : s.flat f = pc at hs
  cases hs with
  | full | push | backLoad | settle | descend | committed | aborted | lost => exact .refl _ _
  | base | apply => exact .updateRtid _ _ _ _
  | @lock fv value hd =>
    refine .setStatus (fun _ _ _ => ?_) (fun _ => rfl) (fun ha => ?_) nofun (fun _ => ?_) nofun (fun _ => .inl ?_) ?_
    · rw [hd]
      rfl
    · rw [hd] at ha
      cases ha
    · rw [hd]
      rfl
    · rw [hd]
      rfl
    · rw [hd]
      rfl
  | @store fv value =>
    refine .storeValue _ ?_
    rw [h.held f fv (by rw [hpc]; rfl)]
    rfl
  | @publish fv =>
    have hfv := h.held f fv (by rw [hpc]; rfl)
    refine .setStatus (fun _ _ _ => ?_) (fun _ => rfl) (fun ha => ?_) nofun nofun nofun (fun _ => .inl ?_) ?_
    · rw [hfv]
      rfl
    · rw [hfv] at ha
      cases ha
    · rw [hfv]
      rfl
    · rw [hfv]
      rfl

theorem flat_turn {c} (h : Base P s) (hs : FlatStep P s.memory (s.flat f) m c) :
    FlatTurn f s { s with memory := m, flat := update s.flat f c } where
  memory := h.flat_evolves hs
  chain := by
    generalize s.flat f = pc at hs
    cases hs <;> rfl
  read := rfl
  write := rfl
  flat f' hf' := update_of_ne hf' _ _

private theorem flatStep {c} (h : Base P s) (hs : FlatStep P s.memory (s.flat f) m c) :
    Base P { s with memory := m, flat := update s.flat f c } := by
  have ht := h.flat_turn hs
  have hself : update s.flat f c f = c := update_self _ _ _
  generalize hpc : s.flat f = pc at hs
  cases hs with
  | full | push | backLoad | settle | descend | committed | lost => exact h.flatPass ht hself rfl rfl
  | base | aborted | apply => exact h.flatPass ht hself rfl (held_pop _ _ _ _)
  | @lock fv value hd =>
    have hfree : ∀ f', (s.flat f').held ≠ some fv := by
      intro f' hf'
      have hlocked := h.held f' fv hf'
      rw [hd] at hlocked
      cases hlocked
    refine h.flatTurn ht hself (fun v hv => ?_) (fun f' v _ hv => ?_)
    · obtain rfl := some.inj hv
      exact ⟨setStatus_self _ _,fun f' _ => hfree f'⟩
    · refine (update_of_ne (fun heq => ?_) _ _).trans (h.held f' v hv)
      exact hfree f' (heq ▸ hv)
  | @store fv value =>
    have hfv : (s.flat f).held = some fv := by rw [hpc]; rfl
    refine h.flatTurn ht hself (fun v hv => ?_) (fun f' v _ hv => h.held f' v hv)
    obtain rfl := some.inj hv
    exact ⟨h.held f _ hfv,fun f' hf' hv' => hf' (h.held_unique f' f _ hv' hfv)⟩
  | @publish fv =>
    have hfv : (s.flat f).held = some fv := by rw [hpc]; rfl
    refine h.flatTurn ht hself nofun (fun f' v hf' hv => ?_)
    refine (update_of_ne (fun heq => hf' ?_) _ _).trans (h.held f' v hv)
    exact h.held_unique f' f v hv (heq ▸ hfv)

section
omit [DecidableEq T] [DecidableEq F]

theorem status_of_not_installed (h : Base P s) (hw : s.write t ≠ .installed) :
    s.memory.status (.of t) = .pending (P.update t).flag ∨ s.memory.status (.of t) = .aborted := by
  have ho := h.write t
  generalize s.write t = w at hw ho
  cases w with
  | idle | refused | locked => exact .inl ho.2
  | seek | probe | probeRtid | cas | wv1 | wv2 => exact .inl ho.1.2
  | installed => exact absurd rfl hw
  | aborted => exact .inr ho

theorem not_committed (h : Base P s) (hw : (s.write t).checking = true) : (s.memory.status (.of t)).isCommitted = false := by
  have ho := h.write t
  generalize s.write t = w at hw ho
  cases w with
  | wv1 | wv2 =>
    rw [ho.1.2]
    rfl
  | _ => cases hw

theorem mem_of_committed {v} (h : Base P s) (hc : (s.memory.status v).isCommitted = true) : v ∈ s.memory.chain := by
  cases v with
  | initial => exact h.initial
  | of t =>
    have ho := h.write t
    by_cases hw : s.write t = .installed
    · rw [hw] at ho
      exact ho.1
    · rcases h.status_of_not_installed hw with hp | ha
      · rw [hp] at hc
        cases hc
      · rw [ha] at hc
        cases hc

end

section
omit [DecidableEq F]

theorem abort_evolves (h : Base P s) (hw : s.write t ≠ .installed) : Evolves (some t) s.memory (s.memory.setStatus (.of t) .aborted) := by
  rcases h.status_of_not_installed hw with hp | ha
  · exact .settle hp (.inr rfl)
  · refine .setStatus (fun _ _ _ => ?_) (fun hc => ?_) (fun _ => rfl) (fun _ => ?_) nofun nofun nofun ?_
    · rw [ha]
      rfl
    · rw [ha] at hc
      cases hc
    · rw [ha]
      nofun
    · rw [ha]
      rfl

theorem write_turn (h : Base P s) (hs : WriteStep P t s.memory (s.write t) m w) :
    Turn t s { s with memory := m, write := update s.write t w } :=
  ⟨(hs.sound h.chain (h.write t)).1,fun _ _ => rfl,fun _ hu => update_of_ne hu _ _,rfl⟩

theorem install_turn (h : Base P s) (hw : s.write t = .locked) : Turn t s { s with
      memory := s.memory.setStatus (.of t) (s.memory.status (.of t)).commit
      write := update s.write t .installed } := by
  have ho := h.write t
  rw [hw] at ho
  refine ⟨.settle ho.2 (.inl ?_),fun _ _ => rfl,fun _ hu => update_of_ne hu _ _,rfl⟩
  rw [ho.2]
  rfl

theorem abort_turn (h : Base P s) (hw : s.write t ≠ .installed) : Turn t s { s with
      memory := s.memory.setStatus (.of t) .aborted
      read := update s.read t .failed
      write := update s.write t .aborted } :=
  ⟨h.abort_evolves hw,fun _ hu => update_of_ne hu _ _,fun _ hu => update_of_ne hu _ _,rfl⟩

end

theorem step (h : Base P s) (hs : Step P s s') : Base P s' := by
  cases hs with
  | find t hr hw =>
    exact h.turn (t := t) ⟨.refl _ _,fun u hu => update_of_ne hu _ _,fun _ _ => rfl,rfl⟩ h.chain rfl
      (update_self _ _ _) (h.write t) ⟨nofun,hw⟩
  | read t r hstep =>
    exact h.turn (t := t) ⟨.refl _ _,fun u hu => update_of_ne hu _ _,fun _ _ => rfl,rfl⟩ h.chain rfl
      (update_self _ _ _) (h.write t) (hstep.sound h.chain (h.write t) (h.read t))
  | check t v hr hw =>
    have hm := Evolves.updateRtid (some t) s.memory v (P.ts t)
    have hseen : Seen P s.memory t v := by
      have ho := h.read t
      rw [hr] at ho
      exact ho
    exact h.turn (t := t) ⟨hm,fun u hu => update_of_ne hu _ _,fun _ _ => rfl,rfl⟩ h.chain rfl (update_self _ _ _)
      ((Evolves.updateRtid none s.memory v (P.ts t)).writeOk nofun (h.write t)) ⟨hm.seen hseen,le_updateRtid _ _,nofun,trivial⟩
  | lock t hr hw =>
    have ho := h.write t
    have hro := h.read t
    rw [hw] at ho
    refine h.turn (t := t) ⟨.refl _ _,fun _ _ => rfl,fun u hu => update_of_ne hu _ _,rfl⟩ h.chain
      (update_self _ _ _) rfl ⟨ho,nofun⟩ ?_
    generalize s.read t = r at hr hro
    cases r with
    | idle => trivial
    | found v => exact hro
    | _ => cases hr
  | write t m w hstep =>
    obtain ⟨hm,hl,hwo⟩ := hstep.sound h.chain (h.write t)
    refine h.turn (h.write_turn hstep) hl (update_self _ _ _) rfl hwo (hm.readOk (fun hidle => ?_) (h.read t))
    rw [hidle] at hstep
    cases hstep
  | install t hw hr =>
    have ht := h.install_turn hw
    have ho := h.write t
    have hro := h.read t
    rw [hw] at ho hro
    refine h.turn ht h.chain (update_self _ _ _) rfl ⟨ho.1,?_⟩ (ht.memory.readOk (w := .locked) nofun hro)
    rw [setStatus_self,ho.2]
    rfl
  | abort t hw =>
    exact h.turn (h.abort_turn hw) h.chain (update_self _ _ _) (update_self _ _ _) (setStatus_self _ _) trivial
  | flatten f fv hf hd =>
    exact h.flatPass (f := f) ⟨.refl _ _,rfl,rfl,rfl,fun f' hf' => update_of_ne hf' _ _⟩ (update_self _ _ _) rfl rfl
  | flat f m c hstep => exact h.flatStep hstep

/-- Every step changes the memory in the name of one transaction or of none. -/
theorem evolves (h : Base P s) (hs : Step P s s') : ∃ who, Evolves who s.memory s'.memory := by
  cases hs with
  | find | read | lock | flatten => exact ⟨none,.refl _ _⟩
  | check t v _ _ => exact ⟨none,.updateRtid _ _ _ _⟩
  | write t m w hstep => exact ⟨some t,(h.write_turn hstep).memory⟩
  | install t hw _ => exact ⟨some t,(h.install_turn hw).memory⟩
  | abort t hw => exact ⟨some t,h.abort_evolves hw⟩
  | flat f m c hstep => exact ⟨none,h.flat_evolves hstep⟩

end Base

def Action.owner : Action T F → Option T
  | .find t => some t
  | .read t => some t
  | .check t => some t
  | .lock t => some t
  | .write t => some t
  | .install t => some t
  | .abort t => some t
  | .flatten _ _ => none
  | .flat _ => none

variable (P) in
inductive OwnStep (s : State T F α) (t : T) : Action T F → State T F α → Prop
  | find (hr : s.read t = .idle) (hw : s.write t = .idle) :
    OwnStep s t (.find t) { s with read := update s.read t (.find (.load none)) }
  | read (r : ReadPc T) (h : (s.read t).step P t s.memory = some r) :
    OwnStep s t (.read t) { s with read := update s.read t r }
  | check (v : Version T) (hr : s.read t = .found v) :
    OwnStep s t (.check t) { s with
      memory := s.memory.updateRtid v (P.ts t)
      read := update s.read t (.check v (.load none)) }
  | lock (hw : s.write t = .idle) : OwnStep s t (.lock t) { s with write := update s.write t (.seek none) }
  | write (m : Memory T α) (w : WritePc T) (h : WriteStep P t s.memory (s.write t) m w) :
    OwnStep s t (.write t) { s with memory := m, write := update s.write t w }
  | install (hw : s.write t = .locked) :
    OwnStep s t (.install t) { s with
      memory := s.memory.setStatus (.of t) (s.memory.status (.of t)).commit
      write := update s.write t .installed }
  | abort (hw : s.write t ≠ .installed) :
    OwnStep s t (.abort t) { s with
      memory := s.memory.setStatus (.of t) .aborted
      read := update s.read t .failed
      write := update s.write t .aborted }

theorem ownStep_of_next (ho : a.owner = some t) (h : s.next P a = some s') : OwnStep P s t a s' := by
  cases a with
  | flatten | flat => cases ho
  | find u =>
    cases ho
    obtain ⟨hc,rfl⟩ := ite_some_none_eq_some.mp h
    exact .find hc.1 hc.2
  | read u =>
    cases ho
    obtain ⟨r,hr,heq⟩ := map_eq_some_iff.mp h
    exact heq ▸ .read r hr
  | check u =>
    cases ho
    rw [State.next,State.startCheck] at h
    split at h
    · next v hr =>
      obtain ⟨-,rfl⟩ := ite_some_none_eq_some.mp h
      exact .check v hr
    · cases h
  | lock u =>
    cases ho
    obtain ⟨hc,rfl⟩ := ite_some_none_eq_some.mp h
    exact .lock hc.2
  | write u =>
    cases ho
    obtain ⟨r,hr,heq⟩ := map_eq_some_iff.mp h
    exact heq ▸ .write r.1 r.2 (writeStep_of_step hr)
  | install u =>
    cases ho
    obtain ⟨hc,rfl⟩ := ite_some_none_eq_some.mp h
    exact .install hc.1
  | abort u =>
    cases ho
    obtain ⟨hc,rfl⟩ := ite_some_none_eq_some.mp h
    exact .abort hc

theorem flatten_of_next {fv} (h : s.next P (.flatten f fv) = some s') :
    s.flat f = .idle ∧ s.memory.status fv = .committed .delta ∧ s' = { s with flat := update s.flat f (.back fv fv []) } := by
  rw [State.next] at h
  split at h
  · next hf =>
    obtain ⟨hd,heq⟩ := ite_none_right_eq_some.mp h
    exact ⟨hf,hd,(some.inj heq).symm⟩
  · cases h

omit [DecidableEq F] in
theorem Base.own_turn (h : Base P s) (hs : OwnStep P s t a s') : Turn t s s' := by
  cases hs with
  | find | read => exact ⟨.refl _ _,fun _ hu => update_of_ne hu _ _,fun _ _ => rfl,rfl⟩
  | check => exact ⟨.updateRtid _ _ _ _,fun _ hu => update_of_ne hu _ _,fun _ _ => rfl,rfl⟩
  | lock => exact ⟨.refl _ _,fun _ _ => rfl,fun _ hu => update_of_ne hu _ _,rfl⟩
  | write m w hstep => exact h.write_turn hstep
  | install hw => exact h.install_turn hw
  | abort hw => exact h.abort_turn hw

omit [DecidableEq F] in
/-- A transaction stores the status of its own version, while that is pending. -/
private theorem Base.store_cases {x} (hb : Base P s) (hw : s.write t ≠ .installed) (hx : x ≠ .locked)
    (ha : s.memory.status (.of t) = .aborted → x = .aborted) (v : Version T) :
    (s.memory.setStatus (.of t) x).status v = s.memory.status v ∨
      (s.memory.status v).isPending = true ∧ (s.memory.setStatus (.of t) x).status v ≠ .locked := by
  by_cases hv : v = .of t
  · subst hv
    rw [setStatus_self]
    rcases hb.status_of_not_installed hw with hp | habort
    · exact .inr ⟨by rw [hp]; rfl,hx⟩
    · exact .inl ((ha habort).trans habort.symm)
  · exact .inl (setStatus_of_ne hv)

/-- A status changes while it is pending, when a flatten locks the version, and when that
flatten publishes it. -/
theorem Step.status_cases (hs : Step P s s') (hb : Base P s) (v : Version T) : s'.memory.status v = s.memory.status v ∨
      ((s.memory.status v).isPending = true ∧ s'.memory.status v ≠ .locked) ∨
      (s.memory.status v = .committed .delta ∧ s'.memory.status v = .locked ∧ ∃ f x, s.flat f = .cas v x ∧ s'.flat f = .store v x) ∨
      (s.memory.status v = .locked ∧ s'.memory.status v = .committed .full ∧ ∃ f, s.flat f = .publish v) := by
  cases hs with
  | find | read | check | lock | flatten => exact .inl rfl
  | write t m w hstep =>
    have hw : s.write t ≠ .installed := by
      intro heq
      rw [heq] at hstep
      cases hstep
    rcases hstep.status with heq | heq
    · exact .inl (congrFun heq v)
    · have hm : m.status v = (s.memory.setStatus (.of t) .aborted).status v := congrFun heq v
      rw [hm]
      exact (hb.store_cases (x := .aborted) hw nofun (fun _ => rfl) v).imp_right .inl
  | install t hw hr =>
    have ho := hb.write t
    rw [hw] at ho
    refine (hb.store_cases (by rw [hw]; nofun) ?_ (fun ha => ?_) v).imp_right .inl
    · rw [ho.2]
      nofun
    · rw [ho.2] at ha
      cases ha
  | abort t hw => exact (hb.store_cases (x := .aborted) hw nofun (fun _ => rfl) v).imp_right .inl
  | flat f m c hstep =>
    have hself : update s.flat f c f = c := update_self _ _ _
    generalize hpc : s.flat f = pc at hstep
    cases hstep with
    | @lock fv x hd =>
      by_cases hv : v = fv
      · subst hv
        exact .inr (.inr (.inl ⟨hd,update_self _ _ _,f,x,hpc,hself⟩))
      · exact .inl (update_of_ne hv _ _)
    | @publish fv =>
      by_cases hv : v = fv
      · subst hv
        exact .inr (.inr (.inr ⟨hb.held f v (by rw [hpc]; rfl),update_self _ _ _,f,hpc⟩))
      · exact .inl (update_of_ne hv _ _)
    | _ => exact .inl rfl

end Runs

end AlNiCo.Sto.Mvcc
