import AlNiCo.Library.Machine
import AlNiCo.Sto.Version

/-! The two-word TicToc version of one object: the read timestamp with the lock in one word, the
write timestamp in another, readers that validate and writers that lock and install. Timestamps are
natural numbers: both words are assumed never to wrap around. -/
namespace AlNiCo.Sto.TicToc
open Library Function List Option

inductive Pc (T : Type)
  | idle
  | tested
  | half (rts : Nat)
  | running
  | stamping
  | validating (commitTs : Nat)
  | loadedWts (commitTs wts : Nat)
  | loadedRts (commitTs wts : Nat) (rts : Word T)
  | validated (commitTs : Nat)
  | installing (commitTs : Nat)
  | deleting (commitTs : Nat)
  | done

structure Txn (T : Type) where
  /-- The read and the write timestamp of the observation. -/
  read : Option (Nat × Nat)
  /-- The read timestamp seen with the lock held. -/
  seen : Option Nat
  pc : Pc T

structure State (T : Type) where
  wts : Nat
  rts : Word T
  txn : T → Txn T
  installed : List (T × Nat)
  /-- Who validated, the write timestamp it read and its commit timestamp. -/
  validated : List (T × Nat × Nat)

inductive Act
  | observe | skip | lock | commit (commitTs : Nat) | go | install | delete | abort

section Guards
variable {T : Type} {s s' : State T} {t : T}

/-- A lower bound of the timestamp the transaction may still install. -/
def Txn.bound (x : Txn T) : Option Nat :=
  match x.seen,x.pc with
  | some r,.running => some (r+1)
  | some _,.validating c | some _,.loadedWts c _ | some _,.loadedRts c _ _ | some _,.validated c => some c
  | _,_ => none

/-- The timestamp of which only one word is stored. -/
def Txn.mid (x : Txn T) : Option Nat :=
  match x.pc with
  | .installing c | .deleting c => some c
  | _ => none

/-- The others install above `c` from now on. -/
structure Low (s : State T) (t : T) (c : Nat) : Prop where
  version : c ≤ s.rts.version
  bound : ∀ u ≠ t, ∀ b, (s.txn u).bound = some b → c < b

structure Below (s : State T) (t : T) (c : Nat) : Prop extends Low s t c where
  mid : ∀ u ≠ t, ∀ v, (s.txn u).mid = some v → c < v

/-- The others have installed nothing between `w` and `c`. -/
def Clear (s : State T) (t : T) (w c : Nat) : Prop := ∀ u ≠ t, ∀ v, (u,v) ∈ s.installed → v ≤ w ∨ c < v

def Guarded (s : State T) (t : T) (w c : Nat) : Prop := c ≤ w ∨ (Clear s t w c ∧ Low s t c)

structure Later (s s' : State T) : Prop where
  version : s.rts.version ≤ s'.rts.version
  bound : ∀ u b, (s'.txn u).bound = some b → (∃ b' ≤ b, (s.txn u).bound = some b') ∨ s.rts.version < b
  mid : ∀ u v, (s'.txn u).mid = some v → (s.txn u).mid = some v ∨ ∃ b ≤ v, (s.txn u).bound = some b
  ended : ∀ u v, (s.txn u).mid = some v → (s'.txn u).mid = some v ∨ v ≤ s'.rts.version
  installed : ∀ u v, (u,v) ∈ s'.installed →
    (u,v) ∈ s.installed ∨ ((s'.txn u).mid = some v ∧ ∃ b ≤ v, (s.txn u).bound = some b)

theorem Low.later {c} (h : Low s t c) (hl : Later s s') : Low s' t c := by
  refine ⟨h.version.trans hl.version,fun u hu b hb => ?_⟩
  rcases hl.bound u b hb with ⟨b',hle,hb'⟩ | hlt
  · exact (h.bound u hu b' hb').trans_le hle
  · exact h.version.trans_lt hlt

theorem Below.later {c} (h : Below s t c) (hl : Later s s') : Below s' t c := by
  refine ⟨h.toLow.later hl,fun u hu v hv => ?_⟩
  rcases hl.mid u v hv with hv | ⟨b,hle,hb⟩
  · exact h.mid u hu v hv
  · exact (h.bound u hu b hb).trans_le hle

theorem Guarded.later {w c} (h : Guarded s t w c) (hl : Later s s') : Guarded s' t w c := by
  refine h.imp_right fun ⟨hclear,hlow⟩ => ⟨fun u hu v hv => ?_,hlow.later hl⟩
  rcases hl.installed u v hv with hv | ⟨-,b,hle,hb⟩
  · exact hclear u hu v hv
  · exact .inr ((hlow.bound u hu b hb).trans_le hle)

/-- What holds of a transaction: it has the lock when its state says so, and then the words hold
what it left in them. -/
def Txn.Ok (rts : Word T) (wts : Nat) (t : T) (x : Txn T) : Prop :=
  match x.pc with
  | .idle | .tested | .half _ | .done => x.seen = none
  | .running => ∀ r, x.seen = some r → rts = ⟨r,some t⟩
  | .stamping => x.seen = none ∧ rts.owner = some t
  | .validating c | .loadedWts c _ | .loadedRts c _ _ | .validated c =>
    ∀ r, x.seen = some r → r < c ∧ rts.owner = some t ∧ (rts.version = r ∨ rts.version = c)
  | .installing c => rts.owner = some t ∧ wts = c ∧ rts.version ≤ c
  | .deleting c => rts.owner = some t ∧ rts.version = c ∧ wts ≤ c

variable {rts rts' : Word T} {wts wts' : Nat} {x : Txn T}

/-- Nobody else touches the words of a transaction that has the lock. -/
theorem Txn.Ok.frame (h : x.Ok rts wts t) (hframe : rts.owner = some t → rts' = rts ∧ wts' = wts) : x.Ok rts' wts' t := by
  by_cases ho : rts.owner = some t
  · obtain ⟨rfl,rfl⟩ := hframe ho
    exact h
  obtain ⟨read,seen,pc⟩ := x
  cases pc with
  | idle | tested | half | done => exact h
  | running => exact fun r hr => absurd (congrArg Word.owner (h r hr)) ho
  | stamping => exact absurd h.2 ho
  | validating | loadedWts | loadedRts | validated => exact fun r hr => absurd (h r hr).2.1 ho
  | installing | deleting => exact absurd h.1 ho

/-- A transaction that may still install has the lock, and installs at or above the read timestamp. -/
theorem Txn.Ok.bound {b} (h : x.Ok rts wts t) (hb : x.bound = some b) : rts.owner = some t ∧ rts.version ≤ b := by
  obtain ⟨read,seen,pc⟩ := x
  cases seen with
  | none => cases hb
  | some r =>
    have htimed {c : Nat} (h : r < c ∧ rts.owner = some t ∧ (rts.version = r ∨ rts.version = c)) (hb : some c = some b) :
        rts.owner = some t ∧ rts.version ≤ b := by
      obtain rfl := some.inj hb
      exact ⟨h.2.1,by omega⟩
    cases pc with
    | running =>
      obtain rfl := some.inj hb
      rw [h r rfl]
      exact ⟨rfl,Nat.le_succ r⟩
    | validating | loadedWts | loadedRts | validated => exact htimed (h r rfl) hb
    | _ => cases hb

theorem Txn.Ok.mid {v} (h : x.Ok rts wts t) (hv : x.mid = some v) : rts.owner = some t := by
  obtain ⟨read,seen,pc⟩ := x
  cases pc with
  | installing | deleting => exact h.1
  | _ => cases hv

def Txn.holds (x : Txn T) : Bool :=
  match x.pc with
  | .stamping => true
  | _ => x.seen.isSome

theorem Txn.Ok.holds (h : x.Ok rts wts t) (hx : x.holds = true) : rts.owner = some t := by
  obtain ⟨read,seen,pc⟩ := x
  cases seen with
  | none => cases pc with
    | stamping => exact h.2
    | _ => cases hx
  | some r => cases pc with
    | running => exact congrArg Word.owner (h r rfl)
    | stamping => exact h.2
    | validating | loadedWts | loadedRts | validated => exact (h r rfl).2.1
    | installing | deleting => exact h.1
    | _ => cases h

end Guards

section
variable {T : Type} [DecidableEq T]

def isLockedElsewhere (t : T) (w : Word T) : Bool :=
  match w.owner with
  | none => false
  | some u => decide (u ≠ t)

namespace State

def set (s : State T) (t : T) (x : Txn T) : State T := { s with txn := update s.txn t x }

/-- The next load, store or swap of `observe_read`, `try_lock`, `validate_timestamps` or an install. -/
def go (s : State T) (t : T) : Option (State T) :=
  match s.txn t with
  | ⟨read,seen,.tested⟩ => some (s.set t ⟨read,seen,.half s.rts.version⟩)
  | ⟨_,seen,.half r⟩ => some (s.set t ⟨some (r,s.wts),seen,.running⟩)
  | ⟨read,_,.stamping⟩ => some (s.set t ⟨read,some s.rts.version,.running⟩)
  | ⟨some (r,w),seen,.validating c⟩ =>
    if c ≤ r then some { s.set t ⟨some (r,w),seen,.validated c⟩ with validated := (t,w,c)::s.validated }
    else some (s.set t ⟨some (r,w),seen,.loadedWts c s.wts⟩)
  | ⟨read,seen,.loadedWts c tw⟩ => some (s.set t ⟨read,seen,.loadedRts c tw s.rts⟩)
  | ⟨some (r,w),seen,.loadedRts c tw tr⟩ =>
    if tw ≠ w ∨ (tr.version < c ∧ isLockedElsewhere t tr = true) then none
    else if c ≤ tr.version then some { s.set t ⟨some (r,w),seen,.validated c⟩ with validated := (t,w,c)::s.validated }
    else if s.rts = tr then
      some { s.set t ⟨some (r,w),seen,.validated c⟩ with rts := ⟨c,tr.owner⟩, validated := (t,w,c)::s.validated }
    else some (s.set t ⟨some (r,w),seen,.validating c⟩)
  | ⟨read,_,.installing c⟩ => some { s.set t ⟨read,none,.done⟩ with rts := ⟨c,none⟩ }
  | ⟨read,_,.deleting c⟩ => some { s.set t ⟨read,none,.done⟩ with wts := c }
  | _ => none

/-- One atomic step of transaction `t`. A delete stores the read timestamp first and leaves the
lock behind; a transaction may give up until it installs. -/
def next (s : State T) : T × Act → Option (State T)
  | (t,.go) => s.go t
  | (t,.observe) =>
    match s.txn t with
    | ⟨read,seen,.idle⟩ => if isLockedElsewhere t s.rts then none else some (s.set t ⟨read,seen,.tested⟩)
    | _ => none
  | (t,.skip) =>
    match s.txn t with
    | ⟨read,seen,.idle⟩ => some (s.set t ⟨read,seen,.running⟩)
    | _ => none
  | (t,.lock) =>
    match s.txn t with
    | ⟨read,none,.running⟩ =>
      if s.rts.owner = none then some { s.set t ⟨read,none,.stamping⟩ with rts := s.rts.lock t } else none
    | _ => none
  | (t,.commit c) =>
    match s.txn t with
    | ⟨read,seen,.running⟩ =>
      -- a writer's timestamp is above the read timestamp it saw under its lock
      if ∀ r ∈ seen, r < c then some (s.set t ⟨read,seen,if read.isSome then .validating c else .validated c⟩) else none
    | _ => none
  | (t,.install) =>
    match s.txn t with
    | ⟨read,some r,.validated c⟩ =>
      some { s.set t ⟨read,some r,.installing c⟩ with wts := c, installed := (t,c)::s.installed }
    | _ => none
  | (t,.delete) =>
    match s.txn t with
    | ⟨read,some r,.validated c⟩ =>
      some { s.set t ⟨read,some r,.deleting c⟩ with rts := ⟨c,some t⟩, installed := (t,c)::s.installed }
    | _ => none
  | (t,.abort) =>
    if (s.txn t).mid = none then
      if (s.txn t).holds then some { s.set t ⟨(s.txn t).read,none,.done⟩ with rts := s.rts.unlock }
      else some (s.set t ⟨(s.txn t).read,none,.done⟩)
    else none

end State

def object (T : Type) [DecidableEq T] (ts : Nat) : Machine (State T) (T × Act) :=
  .ofNext ⟨ts,⟨ts,none⟩,fun _ => ⟨none,none,.idle⟩,[],[]⟩ State.next

/-- An observation loads the read timestamp when no other transaction holds the lock; a validation
loads it when the write timestamp is still the one it loaded and no other transaction holds the
lock at exactly the commit timestamp. -/
def steady (s : State T) : T × Act → Bool
  | (t,.go) =>
    match (s.txn t).pc with
    | .tested => !isLockedElsewhere t s.rts
    | .loadedWts c tw => s.wts == tw && !(isLockedElsewhere t s.rts && s.rts.version == c)
    | _ => true
  | _ => true

variable {x : Txn T} {wts : Nat} {rts : Word T} {validated : List (T × Nat × Nat)}

section Steps
variable {s s' : State T} {t : T}

/-- What a validation knows once it has loaded both words and the write timestamp matched. -/
structure Checked (s : State T) (t : T) (w c : Nat) (tr : Word T) : Prop where
  reached : c ≤ tr.version → Guarded s t w c
  below : tr.version < c → isLockedElsewhere t tr = false → Below s t tr.version
  clear : tr.version < c → isLockedElsewhere t tr = false → s.rts.version = tr.version →
    (∀ u ≠ t, (s.txn u).mid = none) → Clear s t w c

theorem Checked.later {w c tr} (h : Checked s t w c tr) (hl : Later s s') : Checked s' t w c tr := by
  refine ⟨fun hc => (h.reached hc).later hl,fun hc he => (h.below hc he).later hl,fun hc he heq hmid u hu v hv => ?_⟩
  have hb := h.below hc he
  have hsame : s.rts.version = tr.version := le_antisymm (heq ▸ hl.version) hb.version
  -- an install that was half done has moved the read timestamp past the one loaded
  have hmid' : ∀ u ≠ t, (s.txn u).mid = none := by
    intro u hu
    cases hv : (s.txn u).mid with
    | none => rfl
    | some v =>
      rcases hl.ended u v hv with hv' | hle
      · rw [hmid u hu] at hv'
        cases hv'
      · rw [heq] at hle
        exact absurd (hb.mid u hu v hv) (Nat.not_lt_of_le hle)
  rcases hl.installed u v hv with hv | ⟨hv,-⟩
  · exact h.clear hc he hsame hmid' u hu v hv
  · rw [hmid u hu] at hv
    cases hv

structure Inv (s : State T) : Prop where
  ok : ∀ t, (s.txn t).Ok s.rts s.wts t
  installed : ∀ u v, (u,v) ∈ s.installed → v ≤ s.wts ∨ (s.txn u).pc = .deleting v
  wts : s.wts ≤ s.rts.version ∨ ∃ u, (s.txn u).pc = .installing s.wts
  half : ∀ t r, (s.txn t).pc = .half r → Below s t r
  read : ∀ t r w, (s.txn t).read = some (r,w) → Guarded s t w r
  checked : ∀ t c w tr, (s.txn t).pc = .loadedRts c w tr → (∃ r, (s.txn t).read = some (r,w)) → Checked s t w c tr
  validated : ∀ t w c, (t,w,c) ∈ s.validated → Guarded s t w c

inductive Step (t : T) (s : State T) : State T → Prop
  | test {read seen} (hx : s.txn t = ⟨read,seen,.idle⟩) : Step t s (s.set t ⟨read,seen,.tested⟩)
  | skip {read seen} (hx : s.txn t = ⟨read,seen,.idle⟩) : Step t s (s.set t ⟨read,seen,.running⟩)
  | load {read seen} (hx : s.txn t = ⟨read,seen,.tested⟩) (hfree : isLockedElsewhere t s.rts = false) :
      Step t s (s.set t ⟨read,seen,.half s.rts.version⟩)
  | observe {read seen r} (hx : s.txn t = ⟨read,seen,.half r⟩) : Step t s (s.set t ⟨some (r,s.wts),seen,.running⟩)
  | lock {read} (hx : s.txn t = ⟨read,none,.running⟩) (ho : s.rts.owner = none) :
      Step t s { s.set t ⟨read,none,.stamping⟩ with rts := s.rts.lock t }
  | stamp {read seen} (hx : s.txn t = ⟨read,seen,.stamping⟩) : Step t s (s.set t ⟨read,some s.rts.version,.running⟩)
  | commit {read seen c pc} (hx : s.txn t = ⟨read,seen,.running⟩) (hc : ∀ r, seen = some r → r < c)
      (hpc : pc = .validated c ∨ pc = .validating c) : Step t s (s.set t ⟨read,seen,pc⟩)
  | early {seen c r w} (hx : s.txn t = ⟨some (r,w),seen,.validating c⟩) (hle : c ≤ r) :
      Step t s { s.set t ⟨some (r,w),seen,.validated c⟩ with validated := (t,w,c)::s.validated }
  | loadWts {read seen c} (hx : s.txn t = ⟨read,seen,.validating c⟩) : Step t s (s.set t ⟨read,seen,.loadedWts c s.wts⟩)
  | loadRts {read seen c} (hx : s.txn t = ⟨read,seen,.loadedWts c s.wts⟩)
      (hv : isLockedElsewhere t s.rts = true → s.rts.version ≠ c) : Step t s (s.set t ⟨read,seen,.loadedRts c s.wts s.rts⟩)
  | swap {seen c r w} (hx : s.txn t = ⟨some (r,w),seen,.loadedRts c w s.rts⟩) (hlt : s.rts.version < c)
      (he : isLockedElsewhere t s.rts = false) :
      Step t s { s.set t ⟨some (r,w),seen,.validated c⟩ with rts := ⟨c,s.rts.owner⟩, validated := (t,w,c)::s.validated }
  | retry {read seen c tw tr} (hx : s.txn t = ⟨read,seen,.loadedRts c tw tr⟩) : Step t s (s.set t ⟨read,seen,.validating c⟩)
  | late {seen c r w tr} (hx : s.txn t = ⟨some (r,w),seen,.loadedRts c w tr⟩) (hle : c ≤ tr.version) :
      Step t s { s.set t ⟨some (r,w),seen,.validated c⟩ with validated := (t,w,c)::s.validated }
  | install {read r c} (hx : s.txn t = ⟨read,some r,.validated c⟩) :
      Step t s { s.set t ⟨read,some r,.installing c⟩ with wts := c, installed := (t,c)::s.installed }
  | installed {read seen c} (hx : s.txn t = ⟨read,seen,.installing c⟩) :
      Step t s { s.set t ⟨read,none,.done⟩ with rts := ⟨c,none⟩ }
  | delete {read r c} (hx : s.txn t = ⟨read,some r,.validated c⟩) :
      Step t s { s.set t ⟨read,some r,.deleting c⟩ with rts := ⟨c,some t⟩, installed := (t,c)::s.installed }
  | deleted {read seen c} (hx : s.txn t = ⟨read,seen,.deleting c⟩) : Step t s { s.set t ⟨read,none,.done⟩ with wts := c }
  | leave {read seen pc} (hx : s.txn t = ⟨read,seen,pc⟩) (hmid : (s.txn t).mid = none) : Step t s (s.set t ⟨read,none,.done⟩)
  | unlock {read seen pc} (hx : s.txn t = ⟨read,seen,pc⟩) (hmid : (s.txn t).mid = none) (hh : (s.txn t).holds = true) :
      Step t s { s.set t ⟨read,none,.done⟩ with rts := s.rts.unlock }

theorem Step.of_go (h : s.go t = some s') (hP : steady s (t,.go) = true) : Step t s s' := by
  unfold State.go at h
  simp only [steady] at hP
  split at h
  · rename_i hx
    rw [hx] at hP
    exact some.inj h ▸ .load hx (by simpa using hP)
  · rename_i hx
    exact some.inj h ▸ .observe hx
  · rename_i hx
    exact some.inj h ▸ .stamp hx
  · rename_i hx
    split_ifs at h with hle
    · exact some.inj h ▸ .early hx hle
    · exact some.inj h ▸ .loadWts hx
  · rename_i hx
    simp only [hx,Bool.and_eq_true,beq_iff_eq,Bool.not_eq_true',Bool.and_eq_false_iff] at hP
    obtain ⟨rfl,hv⟩ := hP
    refine some.inj h ▸ .loadRts hx fun he hc => ?_
    simp [he,hc] at hv
  · rename_i hx
    split_ifs at h with hfail hle hsame
    · obtain ⟨rfl,-⟩ := not_or.mp hfail |>.imp_left not_not.mp
      exact some.inj h ▸ .late hx hle
    · obtain ⟨rfl,hl⟩ := not_or.mp hfail |>.imp_left not_not.mp
      subst hsame
      exact some.inj h ▸ .swap hx (Nat.lt_of_not_le hle)
        (Bool.eq_false_of_not_eq_true fun he => hl ⟨Nat.lt_of_not_le hle,he⟩)
    · exact some.inj h ▸ .retry hx
  · rename_i hx
    exact some.inj h ▸ .installed hx
  · rename_i hx
    exact some.inj h ▸ .deleted hx
  · cases h

theorem Step.of_next {a} (h : s.next (t,a) = some s') (hP : steady s (t,a) = true) : Step t s s' := by
  cases a with
  | go => exact .of_go h hP
  | observe =>
    simp only [State.next] at h
    split at h
    · rename_i hx
      obtain ⟨-,heq⟩ := ite_none_left_eq_some.mp h
      exact some.inj heq ▸ .test hx
    · cases h
  | skip =>
    simp only [State.next] at h
    split at h
    · rename_i hx
      exact some.inj h ▸ .skip hx
    · cases h
  | lock =>
    simp only [State.next] at h
    split at h
    · rename_i hx
      obtain ⟨ho,rfl⟩ := ite_some_none_eq_some.mp h
      exact .lock hx ho
    · cases h
  | commit c =>
    simp only [State.next] at h
    split at h
    · rename_i read seen hx
      obtain ⟨hc,rfl⟩ := ite_some_none_eq_some.mp h
      refine .commit hx hc ?_
      cases read.isSome
      · exact .inl rfl
      · exact .inr rfl
    · cases h
  | install =>
    simp only [State.next] at h
    split at h
    · rename_i hx
      exact some.inj h ▸ .install hx
    · cases h
  | delete =>
    simp only [State.next] at h
    split at h
    · rename_i hx
      exact some.inj h ▸ .delete hx
    · cases h
  | abort =>
    simp only [State.next] at h
    split_ifs at h with hmid hh
    · exact some.inj h ▸ .unlock rfl hmid hh
    · exact some.inj h ▸ .leave rfl hmid

/-- A step changes one transaction, the words and the lists. -/
private theorem later_of_set {installed validated} (hv : s.rts.version ≤ rts.version)
    (hb : ∀ b, x.bound = some b → (∃ b' ≤ b, (s.txn t).bound = some b') ∨ s.rts.version < b)
    (hm : ∀ v, x.mid = some v → (s.txn t).mid = some v ∨ ∃ b ≤ v, (s.txn t).bound = some b)
    (he : ∀ v, (s.txn t).mid = some v → x.mid = some v ∨ v ≤ rts.version)
    (hi : ∀ u v, (u,v) ∈ installed → (u,v) ∈ s.installed ∨ (u = t ∧ x.mid = some v ∧ ∃ b ≤ v, (s.txn t).bound = some b)) :
    Later s ⟨wts,rts,update s.txn t x,installed,validated⟩ := by
  have hself : update s.txn t x t = x := update_self _ _ _
  have hother {u : T} (hu : u ≠ t) : update s.txn t x u = s.txn u := update_of_ne hu _ _
  refine ⟨hv,fun u b hub => ?_,fun u v huv => ?_,fun u v huv => ?_,fun u v huv => ?_⟩
  · rcases eq_or_ne u t with rfl | hu
    · exact hb b (hself ▸ hub)
    · exact .inl ⟨b,le_rfl,hother hu ▸ hub⟩
  · rcases eq_or_ne u t with rfl | hu
    · exact hm v (hself ▸ huv)
    · exact .inl (hother hu ▸ huv)
  · rcases eq_or_ne u t with rfl | hu
    · exact (he v huv).imp_left (congrArg Txn.mid hself).trans
    · exact .inl ((congrArg Txn.mid (hother hu)).trans huv)
  · refine (hi u v huv).imp_right ?_
    rintro ⟨rfl,hmid,hbound⟩
    exact ⟨(congrArg Txn.mid hself).trans hmid,hbound⟩

private theorem later_quiet (hv : s.rts.version ≤ rts.version)
    (hb : ∀ b, x.bound = some b → (∃ b' ≤ b, (s.txn t).bound = some b') ∨ s.rts.version < b) (hm : x.mid = none)
    (he : ∀ v, (s.txn t).mid = some v → v ≤ rts.version) :
    Later s ⟨wts,rts,update s.txn t x,s.installed,validated⟩ := by
  apply later_of_set hv hb _ (fun v h => .inr (he v h)) (fun u v h => .inl h)
  intro v h
  rw [hm] at h
  cases h

/-- A step that leaves open what the transaction may install. -/
private theorem later_same {y} (hv : s.rts.version ≤ rts.version) (hx : s.txn t = y) (hb : x.bound = y.bound)
    (hm : x.mid = none) (he : y.mid = none) : Later s ⟨wts,rts,update s.txn t x,s.installed,validated⟩ := by
  subst hx
  apply later_quiet hv (fun b h => .inl ⟨b,le_rfl,hb ▸ h⟩) hm
  intro v h
  rw [he] at h
  cases h

private theorem later_install {wts c rts} (hv : s.rts.version ≤ rts.version) (hb : x.bound = none)
    (hm : x.mid = some c) (hc : (s.txn t).bound = some c) (he : (s.txn t).mid = none) :
    Later s ⟨wts,rts,update s.txn t x,(t,c)::s.installed,s.validated⟩ := by
  refine later_of_set hv (fun b h => ?_) (fun v h => .inr ⟨c,?_,hc⟩) (fun v h => ?_) (fun u v h => ?_)
  · rw [hb] at h
    cases h
  · exact (some.inj (hm.symm.trans h)).le
  · rw [he] at h
    cases h
  · rcases mem_cons.mp h with heq | h
    · obtain ⟨rfl,rfl⟩ := Prod.mk.inj heq
      exact .inr ⟨rfl,hm,v,le_rfl,hc⟩
    · exact .inl h

theorem Step.later (h : Inv s) (hs : Step t s s') : Later s s' := by
  have hok := h.ok t
  cases hs with
  | @test _ seen hx | @load _ seen hx | @loadWts _ seen _ hx | @loadRts _ seen _ hx | @early seen _ _ _ hx | @late seen _ _ _ _ hx
  | @retry _ seen _ _ _ hx => exact later_same le_rfl hx (by cases seen <;> rfl) rfl rfl
  | skip hx | observe hx =>
    rw [hx] at hok
    obtain rfl := hok
    exact later_same le_rfl hx rfl rfl rfl
  | lock hx ho => exact later_same le_rfl hx rfl rfl rfl
  | stamp hx =>
    refine later_quiet le_rfl (fun b hb => .inr ?_) rfl (by simp [Txn.mid,hx])
    obtain rfl := some.inj hb
    exact Nat.lt_succ_self _
  | @commit read seen c pc hx hc hpc =>
    refine later_quiet le_rfl (fun b hb => .inl ?_) (by rcases hpc with rfl | rfl <;> rfl) (by simp [Txn.mid,hx])
    rw [hx]
    cases seen with
    | none => cases hb
    | some r =>
      have hbc : some c = some b := by
        rcases hpc with rfl | rfl <;> exact hb
      exact ⟨r+1,some.inj hbc ▸ hc r rfl,rfl⟩
  | @swap seen c r w hx hlt he => exact later_same hlt.le hx (by cases seen <;> rfl) rfl rfl
  | install hx => exact later_install le_rfl rfl rfl (by rw [hx]; rfl) (by rw [hx]; rfl)
  | installed hx =>
    rw [hx] at hok
    refine later_quiet hok.2.2 (fun b hb => by cases hb) rfl fun v hv => ?_
    rw [hx] at hv
    exact (some.inj hv).ge
  | @delete read r c hx =>
    rw [hx] at hok
    obtain ⟨hrc,-,hv⟩ := hok r rfl
    have hle : s.rts.version ≤ c := by omega
    exact later_install hle rfl rfl (by rw [hx]; rfl) (by rw [hx]; rfl)
  | deleted hx =>
    rw [hx] at hok
    refine later_quiet le_rfl (fun b hb => by cases hb) rfl fun v hv => ?_
    rw [hx] at hv
    exact (some.inj hv).ge.trans hok.2.1.ge
  | leave hx hmid | unlock hx hmid => exact later_quiet le_rfl (fun b hb => by cases hb) rfl fun v hv => by rw [hmid] at hv; cases hv

private theorem owner_of_not_elsewhere (h : isLockedElsewhere t rts = false) {u} (hu : u ≠ t) : rts.owner ≠ some u := by
  intro ho
  simp [isLockedElsewhere,ho,hu] at h

/-- With no lock of another transaction, nobody else has anything to install. -/
private theorem Inv.below (h : Inv s) (hfree : isLockedElsewhere t s.rts = false) : Below s t s.rts.version := by
  refine ⟨⟨le_rfl,fun u hu b hb => ?_⟩,fun u hu v hv => ?_⟩
  · exact absurd ((h.ok u).bound hb).1 (owner_of_not_elsewhere hfree hu)
  · exact absurd ((h.ok u).mid hv) (owner_of_not_elsewhere hfree hu)

/-- A step keeps the invariant when the transaction's own clauses hold. -/
private theorem Inv.set {wts installed validated} (h : Inv s) (hl : Later s ⟨wts,rts,update s.txn t x,installed,validated⟩)
    (hf : ∀ u ≠ t, s.rts.owner = some u → rts = s.rts ∧ wts = s.wts) (hok : x.Ok rts wts t)
    (hinst : ∀ u v, (u,v) ∈ installed → v ≤ wts ∨ (update s.txn t x u).pc = .deleting v)
    (hwts : wts ≤ rts.version ∨ ∃ u, (update s.txn t x u).pc = .installing wts)
    (hhalf : ∀ r, x.pc = .half r → Below s t r) (hread : ∀ r w, x.read = some (r,w) → Guarded s t w r)
    (hchecked : ∀ c w tr, x.pc = .loadedRts c w tr → (∃ r, x.read = some (r,w)) → Checked s t w c tr)
    (hval : ∀ u w c, (u,w,c) ∈ validated → (u,w,c) ∈ s.validated ∨ Guarded ⟨wts,rts,update s.txn t x,installed,validated⟩ u w c) :
    Inv ⟨wts,rts,update s.txn t x,installed,validated⟩ := by
  have hself : update s.txn t x t = x := update_self _ _ _
  have hother {u : T} (hu : u ≠ t) : update s.txn t x u = s.txn u := update_of_ne hu _ _
  refine ⟨?_,hinst,hwts,fun u r hp => ?_,fun u r w hr => ?_,fun u c w tr hp hr => ?_,fun u w c hv => ?_⟩
  · apply (forall_update_iff s.txn fun u y => y.Ok rts wts u).mpr
    exact ⟨hok,fun u hu => (h.ok u).frame (hf u hu)⟩
  · rcases eq_or_ne u t with rfl | hu
    · exact (hhalf r ((congrArg Txn.pc hself).symm.trans hp)).later hl
    · exact (h.half u r ((congrArg Txn.pc (hother hu)).symm.trans hp)).later hl
  · rcases eq_or_ne u t with rfl | hu
    · exact (hread r w ((congrArg Txn.read hself).symm.trans hr)).later hl
    · exact (h.read u r w ((congrArg Txn.read (hother hu)).symm.trans hr)).later hl
  · obtain ⟨r,hr⟩ := hr
    rcases eq_or_ne u t with rfl | hu
    · exact (hchecked c w tr ((congrArg Txn.pc hself).symm.trans hp) ⟨r,(congrArg Txn.read hself).symm.trans hr⟩).later hl
    · exact (h.checked u c w tr ((congrArg Txn.pc (hother hu)).symm.trans hp) ⟨r,(congrArg Txn.read (hother hu)).symm.trans hr⟩).later hl
  · rcases hval u w c hv with hv | hg
    · exact (h.validated u w c hv).later hl
    · exact hg

private theorem Inv.quiet (h : Inv s) (hm : (s.txn t).mid = none)
    (hl : Later s ⟨s.wts,rts,update s.txn t x,s.installed,validated⟩) (hf : ∀ u ≠ t, s.rts.owner = some u → rts = s.rts)
    (hok : x.Ok rts s.wts t) (hhalf : ∀ r, x.pc = .half r → Below s t r) (hread : ∀ r w, x.read = some (r,w) → Guarded s t w r)
    (hchecked : ∀ c w tr, x.pc = .loadedRts c w tr → (∃ r, x.read = some (r,w)) → Checked s t w c tr)
    (hval : ∀ u w c, (u,w,c) ∈ validated → (u,w,c) ∈ s.validated ∨ Guarded ⟨s.wts,rts,update s.txn t x,s.installed,validated⟩ u w c) :
    Inv ⟨s.wts,rts,update s.txn t x,s.installed,validated⟩ := by
  have hpc {u : T} {v : Nat} (hp : (s.txn u).pc = .installing v ∨ (s.txn u).pc = .deleting v) :
      (update s.txn t x u).pc = (s.txn u).pc := by
    rcases eq_or_ne u t with rfl | hu
    · rcases hp with hp | hp <;> simp [Txn.mid,hp] at hm
    · rw [update_of_ne hu]
  refine h.set hl (fun u hu ho => ⟨hf u hu ho,rfl⟩) hok (fun u v hv => ?_) ?_ hhalf hread hchecked hval
  · exact (h.installed u v hv).imp_right fun hp => (hpc (.inr hp)).trans hp
  · refine h.wts.imp (fun hle => hle.trans hl.version) ?_
    rintro ⟨u,hp⟩
    exact ⟨u,(hpc (.inl hp)).trans hp⟩

/-- The lock holder finds the words in order: nobody else is half way. -/
private theorem Inv.settled (h : Inv s) (ho : s.rts.owner = some t) (hpc : ∀ v, (s.txn t).pc ≠ .deleting v) :
    ∀ u v, (u,v) ∈ s.installed → v ≤ s.wts := by
  intro u v hv
  refine (h.installed u v hv).resolve_right fun hp => ?_
  have hu : s.rts.owner = some u := (h.ok u).mid (v := v) (by simp [Txn.mid,hp])
  obtain rfl := some.inj (ho.symm.trans hu)
  exact hpc v hp

private theorem Inv.wts_le (h : Inv s) (ho : s.rts.owner = some t) (hpc : ∀ v, (s.txn t).pc ≠ .installing v) : s.wts ≤ s.rts.version := by
  refine h.wts.resolve_right ?_
  rintro ⟨u,hp⟩
  have hu : s.rts.owner = some u := (h.ok u).mid (v := s.wts) (by simp [Txn.mid,hp])
  obtain rfl := some.inj (ho.symm.trans hu)
  exact hpc _ hp

/-- A validation that has loaded both words. -/
private theorem Inv.check (h : Inv s) {c} (hv : isLockedElsewhere t s.rts = true → s.rts.version ≠ c) : Checked s t s.wts c s.rts := by
  have hdel {u : T} (hu : u ≠ t) {v : Nat} (hp : (s.txn u).pc = .deleting v) : s.rts.version = v ∧ isLockedElsewhere t s.rts = true := by
    have hok := h.ok u
    rw [Txn.Ok,hp] at hok
    exact ⟨hok.2.1,by simp [isLockedElsewhere,hok.1,hu]⟩
  refine ⟨fun hc => .inr ⟨fun u hu v hmem => ?_,hc,fun u hu b hb => ?_⟩,fun _ he => h.below he,fun _ he _ _ u hu v hmem => ?_⟩
  · refine (h.installed u v hmem).imp_right fun hp => ?_
    obtain ⟨rfl,he⟩ := hdel hu hp
    exact lt_of_le_of_ne hc (hv he).symm
  · obtain ⟨ho,hle⟩ := (h.ok u).bound hb
    have he : isLockedElsewhere t s.rts = true := by simp [isLockedElsewhere,ho,hu]
    exact (lt_of_le_of_ne hc (hv he).symm).trans_le hle
  · refine (h.installed u v hmem).imp_right fun hp => ?_
    rw [(hdel hu hp).2] at he
    cases he

omit [DecidableEq T] in
private theorem validated_cons {l : List (T × Nat × Nat)} {w c : Nat} {Q : T → Nat → Nat → Prop} (hnew : Q t w c) (u : T) (w' c' : Nat)
    (hv : (u,w',c') ∈ (t,w,c) :: l) : (u,w',c') ∈ l ∨ Q u w' c' := by
  rcases mem_cons.mp hv with heq | hv
  · simp only [Prod.mk.injEq] at heq
    obtain ⟨rfl,rfl,rfl⟩ := heq
    exact .inr hnew
  · exact .inl hv

variable {read : Option (Nat × Nat)} {seen : Option Nat} {pc : Pc T} {c r w : Nat}

private theorem Inv.ok_of (h : Inv s) (hx : s.txn t = x) : x.Ok s.rts s.wts t := hx ▸ h.ok t

private theorem Inv.read_of (h : Inv s) (hx : s.txn t = ⟨read,seen,pc⟩) (r w : Nat) (hr : read = some (r,w)) : Guarded s t w r :=
  h.read t r w ((congrArg Txn.read hx).trans hr)

/-- A step that changes nothing but the place of its transaction, and with it what it has read. -/
private theorem Inv.alone {y} (h : Inv s) (hx : s.txn t = y) (hm : y.mid = none) (hl : Later s (s.set t x))
    (hok : x.Ok s.rts s.wts t) (hhalf : ∀ r, x.pc = .half r → Below s t r)
    (hread : ∀ r w, x.read = some (r,w) → Guarded s t w r)
    (hchecked : ∀ c w tr, x.pc = .loadedRts c w tr → (∃ r, x.read = some (r,w)) → Checked s t w c tr) : Inv (s.set t x) :=
  h.quiet (hx ▸ hm) hl (fun _ _ _ => rfl) hok hhalf hread hchecked (fun _ _ _ => .inl)

omit [DecidableEq T] in
private theorem sole_owner (ho : s.rts.owner = some t) {P : Prop} (u : T) (hu : u ≠ t) (hu' : s.rts.owner = some u) : P :=
  absurd (some.inj (ho.symm.trans hu')) hu.symm

private theorem Inv.observe (h : Inv s) (hx : s.txn t = ⟨read,seen,.half r⟩) : Inv (s.set t ⟨some (r,s.wts),seen,.running⟩) := by
  have hseen : seen = none := h.ok_of hx
  have hb := h.half t r (by rw [hx])
  refine h.alone hx rfl ((Step.observe hx).later h) (fun q hq => ?_) nofun (fun q w hq => ?_) nofun
  · rw [hseen] at hq
    cases hq
  · obtain ⟨rfl,rfl⟩ := Prod.mk.inj (some.inj hq)
    -- what another transaction has installed is at most the write timestamp, or above the read one
    refine .inr ⟨fun u hu v hv => ?_,hb.toLow⟩
    exact (h.installed u v hv).imp_right fun hp => hb.mid u hu v (by simp [Txn.mid,hp])

private theorem Inv.commit (h : Inv s) (hx : s.txn t = ⟨read,seen,.running⟩) (hc : ∀ r, seen = some r → r < c)
    (hpc : pc = .validated c ∨ pc = .validating c) : Inv (s.set t ⟨read,seen,pc⟩) := by
  have hl := (Step.commit hx hc hpc).later h
  have htimed : ∀ r, seen = some r → r < c ∧ s.rts.owner = some t ∧ (s.rts.version = r ∨ s.rts.version = c) := by
    intro r hr
    have hw := h.ok_of hx r hr
    exact ⟨hc r hr,congrArg Word.owner hw,.inl (congrArg Word.version hw)⟩
  rcases hpc with rfl | rfl
  · exact h.alone hx rfl hl htimed nofun (h.read_of hx) nofun
  · exact h.alone hx rfl hl htimed nofun (h.read_of hx) nofun

private theorem Inv.early (h : Inv s) (hx : s.txn t = ⟨some (r,w),seen,.validating c⟩) (hle : c ≤ r) :
    Inv { s.set t ⟨some (r,w),seen,.validated c⟩ with validated := (t,w,c)::s.validated } := by
  have hl := (Step.early hx hle).later h
  have hk := h.ok_of hx
  refine h.quiet (by rw [hx]; rfl) hl (fun _ _ _ => rfl) hk nofun (h.read_of hx) nofun (validated_cons (Guarded.later ?_ hl))
  rcases h.read_of hx r w rfl with hrw | ⟨hclear,hlow⟩
  · exact .inl (hle.trans hrw)
  · exact .inr ⟨fun u hu v hv => (hclear u hu v hv).imp_right hle.trans_lt,hle.trans hlow.version,
      fun u hu b hb => hle.trans_lt (hlow.bound u hu b hb)⟩

private theorem Inv.swap (h : Inv s) (hx : s.txn t = ⟨some (r,w),seen,.loadedRts c w s.rts⟩) (hlt : s.rts.version < c)
    (he : isLockedElsewhere t s.rts = false) :
    Inv { s.set t ⟨some (r,w),seen,.validated c⟩ with rts := ⟨c,s.rts.owner⟩, validated := (t,w,c)::s.validated } := by
  have hck := h.checked t c w s.rts (by rw [hx]) ⟨r,by rw [hx]⟩
  have hfree (u : T) (hu : u ≠ t) : (s.txn u).mid = none := by
    cases hm : (s.txn u).mid with
    | none => rfl
    | some v => exact absurd ((h.ok u).mid hm) (owner_of_not_elsewhere he hu)
  refine h.quiet (by rw [hx]; rfl) ((Step.swap hx hlt he).later h) (fun u hu ho => absurd ho (owner_of_not_elsewhere he hu))
    (fun q hq => ?_) nofun (h.read_of hx) nofun
    (validated_cons (.inr ⟨hck.clear hlt he rfl hfree,le_rfl,fun u hu b hb => ?_⟩))
  · obtain ⟨hqc,ho,-⟩ := h.ok_of hx q hq
    exact ⟨hqc,ho,.inr rfl⟩
  · have hsame : update s.txn t ⟨some (r,w),seen,.validated c⟩ u = s.txn u := update_of_ne hu _ _
    exact absurd ((h.ok u).bound ((congrArg Txn.bound hsame).symm.trans hb)).1 (owner_of_not_elsewhere he hu)

private theorem Inv.late {tr : Word T} (h : Inv s) (hx : s.txn t = ⟨some (r,w),seen,.loadedRts c w tr⟩) (hle : c ≤ tr.version) :
    Inv { s.set t ⟨some (r,w),seen,.validated c⟩ with validated := (t,w,c)::s.validated } := by
  have hl := (Step.late hx hle).later h
  have hk := h.ok_of hx
  have hck := h.checked t c w tr (by rw [hx]) ⟨r,by rw [hx]⟩
  exact h.quiet (by rw [hx]; rfl) hl (fun _ _ _ => rfl) hk nofun (h.read_of hx) nofun
    (validated_cons ((hck.reached hle).later hl))

/-- A transaction that is about to install has the lock, and its timestamp is not below the words. -/
private theorem Inv.ready (h : Inv s) (hx : s.txn t = ⟨read,some r,.validated c⟩) :
    s.rts.owner = some t ∧ s.rts.version ≤ c ∧ s.wts ≤ c ∧ ∀ u v, (u,v) ∈ s.installed → v ≤ s.wts := by
  obtain ⟨hrc,ho,hver⟩ := h.ok_of hx r rfl
  have hle : s.rts.version ≤ c := by omega
  exact ⟨ho,hle,(h.wts_le ho (by simp [hx])).trans hle,h.settled ho (by simp [hx])⟩

private theorem Inv.install (h : Inv s) (hx : s.txn t = ⟨read,some r,.validated c⟩) :
    Inv { s.set t ⟨read,some r,.installing c⟩ with wts := c, installed := (t,c)::s.installed } := by
  obtain ⟨ho,hle,hwle,hset⟩ := h.ready hx
  refine h.set ((Step.install hx).later h) (sole_owner ho) ⟨ho,rfl,hle⟩ (fun u v hv => .inl ?_) (.inr ⟨t,?_⟩) nofun
    (h.read_of hx) nofun (fun _ _ _ => .inl)
  · rcases mem_cons.mp hv with heq | hv
    · exact (Prod.mk.inj heq).2.le
    · exact (hset u v hv).trans hwle
  · rw [update_self]

private theorem Inv.delete (h : Inv s) (hx : s.txn t = ⟨read,some r,.validated c⟩) :
    Inv { s.set t ⟨read,some r,.deleting c⟩ with rts := ⟨c,some t⟩, installed := (t,c)::s.installed } := by
  obtain ⟨ho,hle,hwle,hset⟩ := h.ready hx
  refine h.set ((Step.delete hx).later h) (sole_owner ho) ⟨rfl,rfl,hwle⟩ (fun u v hv => ?_) (.inl hwle) nofun
    (h.read_of hx) nofun (fun _ _ _ => .inl)
  rcases mem_cons.mp hv with heq | hv
  · obtain ⟨rfl,rfl⟩ := Prod.mk.inj heq
    exact .inr (by rw [update_self])
  · exact .inl (hset u v hv)

private theorem Inv.deleted (h : Inv s) (hx : s.txn t = ⟨read,seen,.deleting c⟩) : Inv { s.set t ⟨read,none,.done⟩ with wts := c } := by
  obtain ⟨ho,hver,hwle⟩ := h.ok_of hx
  refine h.set ((Step.deleted hx).later h) (sole_owner ho) rfl (fun u v hv => .inl ?_) (.inl hver.ge) nofun
    (h.read_of hx) nofun (fun _ _ _ => .inl)
  rcases h.installed u v hv with hv | hp
  · exact hv.trans hwle
  · have hu : s.rts.owner = some u := (h.ok u).mid (v := v) (by simp [Txn.mid,hp])
    obtain rfl := some.inj (ho.symm.trans hu)
    rw [hx] at hp
    exact (Pc.deleting.inj hp).ge

theorem Step.inv (h : Inv s) (hs : Step t s s') : Inv s' := by
  have hl := hs.later h
  cases hs with
  | test hx | loadWts hx | retry hx => exact h.alone hx rfl hl (h.ok_of hx :) nofun (h.read_of hx) nofun
  | skip hx =>
    refine h.alone hx rfl hl (fun r hr => ?_) nofun (h.read_of hx) nofun
    rw [show _ = none from h.ok_of hx] at hr
    cases hr
  | load hx hfree =>
    refine h.alone hx rfl hl (h.ok_of hx :) (fun r hp => ?_) (h.read_of hx) nofun
    exact Pc.half.inj hp ▸ h.below hfree
  | observe hx => exact h.observe hx
  | lock hx ho =>
    refine h.quiet (by rw [hx]; rfl) hl (fun u _ hu => ?_) ⟨rfl,rfl⟩ nofun (h.read_of hx) nofun (fun _ _ _ => .inl)
    rw [ho] at hu
    cases hu
  | stamp hx =>
    refine h.alone hx rfl hl (fun r hr => ?_) nofun (h.read_of hx) nofun
    exact some.inj hr ▸ Word.ext rfl (h.ok_of hx).2
  | commit hx hc hpc => exact h.commit hx hc hpc
  | early hx hle => exact h.early hx hle
  | loadRts hx hv =>
    refine h.alone hx rfl hl (h.ok_of hx :) nofun (h.read_of hx) (fun c w tr hp _ => ?_)
    obtain ⟨rfl,rfl,rfl⟩ := Pc.loadedRts.inj hp
    exact h.check hv
  | swap hx hlt he => exact h.swap hx hlt he
  | late hx hle => exact h.late hx hle
  | install hx => exact h.install hx
  | installed hx =>
    obtain ⟨ho,hw,hle⟩ := h.ok_of hx
    refine h.set hl (sole_owner ho) rfl (fun u v hv => .inl ?_) (.inl hw.le) nofun (h.read_of hx) nofun (fun _ _ _ => .inl)
    exact h.settled ho (by simp [hx]) u v hv
  | delete hx => exact h.delete hx
  | deleted hx => exact h.deleted hx
  | leave hx hm => exact h.alone rfl hm hl rfl nofun (h.read_of hx) nofun
  | unlock hx hm hh =>
    exact h.quiet hm hl (sole_owner ((h.ok t).holds hh)) rfl nofun (h.read_of hx) nofun (fun _ _ _ => .inl)

theorem inv_start (ts : Nat) : Inv (object T ts).start where
  ok _ := rfl
  installed _ _ hv := absurd hv not_mem_nil
  wts := .inl le_rfl
  half := nofun
  read := nofun
  checked := nofun
  validated _ _ _ hv := absurd hv not_mem_nil

/-- Under steady loads a validated reader's interval stays free: no version of another transaction
with a write timestamp above the one it read and up to its commit timestamp is ever installed. -/
theorem validation_keeps_interval {ts : Nat} (h : (object T ts).Reached (fun s a => steady s a = true) s) {t u : T} {w c v : Nat}
    (hval : (t,w,c) ∈ s.validated) (hinst : (u,v) ∈ s.installed) (hu : u ≠ t) : ¬ (w < v ∧ v ≤ c) := by
  have hinv : Inv s := h.ofNext_invariant (inv_start ts) fun s a s' hI hP hnext =>
    (Step.of_next (t := a.1) (a := a.2) hnext hP).inv hI
  rintro ⟨hwv,hvc⟩
  rcases hinv.validated t w c hval with hcw | ⟨hclear,-⟩
  · omega
  · rcases hclear u hu v hinst with hle | hlt <;> omega

end Steps

end

/-- A writer installs at 2; a reader of that version then extends it to 5. -/
def steadyRun {T : Type} (t u : T) : List (T × Act) :=
  [(t,.skip),(t,.lock),(t,.go),(t,.commit 2),(t,.install),(t,.go),
    (u,.observe),(u,.go),(u,.go),(u,.commit 5),(u,.go),(u,.go),(u,.go)]

theorem validation_keeps_interval_extended :
    let s := (object (Fin 2) 1).play (object (Fin 2) 1).start (steadyRun 0 1)
    s.validated = [(1,2,5)] ∧ s.installed = [(0,2)] ∧ s.rts = ⟨5,none⟩ ∧ ¬ (2 < 2 ∧ 2 ≤ 5) := by
  have hreach := Machine.Reached.start.playIf (steadyRun 0 1)
    (show (object (Fin 2) 1).playableIf steady (object (Fin 2) 1).start (steadyRun 0 1) = true by decide +kernel)
  have hval : (1,2,5) ∈ ((object (Fin 2) 1).play (object (Fin 2) 1).start (steadyRun 0 1)).validated := by decide +kernel
  have hinst : (0,2) ∈ ((object (Fin 2) 1).play (object (Fin 2) 1).start (steadyRun 0 1)).installed := by decide +kernel
  exact ⟨by decide +kernel,by decide +kernel,by decide +kernel,validation_keeps_interval hreach hval hinst (by decide)⟩

def splitRun {T : Type} (t u : T) : List (T × Act) :=
  [(u,.observe),(u,.go),(u,.go),(u,.commit 5),(u,.go),
    (t,.skip),(t,.lock),(t,.go),(t,.commit 2),(t,.install),(t,.go),(u,.go),(u,.go)]

theorem validation_misses_install :
    let s := (object (Fin 2) 1).play (object (Fin 2) 1).start (splitRun 0 1)
    (object (Fin 2) 1).Reachable s ∧ (1,1,5) ∈ s.validated ∧ (0,2) ∈ s.installed :=
  ⟨Machine.Reachable.play .start (splitRun 0 1) (by decide +kernel),by decide +kernel,by decide +kernel⟩

end AlNiCo.Sto.TicToc
