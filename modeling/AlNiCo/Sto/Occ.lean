import AlNiCo.Library.Machine
import AlNiCo.Library.SerialLog
import AlNiCo.Sto.Version

/-! Optimistic transactions over any objects: they observe versions and read values in place, and
commit by locking what they write, checking what they read and installing. Versions are assumed
never to wrap around. -/
namespace AlNiCo.Sto.Occ
open Library Function List Option

inductive Pc (X : Type)
  | running
  | locking (todo : List X)
  | checking (todo : List (X × Nat))
  | comparing (x : X) (v : Nat) (todo : List (X × Nat))
  | installing (stored : List X)
  | aborting
deriving DecidableEq

structure Txn (X V : Type) where
  reads : List (X × Nat)
  /-- What was read in place, with the version observed before. -/
  values : List (X × Nat × V)
  pc : Pc X

structure State (T X V : Type) where
  word : X → Word T
  value : X → V
  txn : T → Txn X V
  /-- The transactions that have all their locks, in the order in which they got there. -/
  points : List T
  snap : T → X → Word T

inductive Act (X : Type)
  | observe (x : X)
  | value (x : X)
  | commit | go | abort
  | store (x : X)
  | release (x : X)
  | unlock (x : X)

def Pc.committed {X : Type} : Pc X → Bool
  | .installing _ => true
  | _ => false

def Pc.pending {X : Type} : Pc X → Bool
  | .checking _ | .comparing _ _ _ => true
  | _ => false

open State

section
variable {T X V : Type} [DecidableEq T] [DecidableEq X]

namespace State

/-- The committed transactions in the order of their points. -/
def order (s : State T X V) : List T := s.points.filter fun t => (s.txn t).pc.committed

def turn (s : State T X V) (t : T) (x : Txn X V) : State T X V := { s with txn := update s.txn t x }

def setWord (s : State T X V) (x : X) (w : Word T) : State T X V := { s with word := update s.word x w }

def go (writes : T → Update X V) (s : State T X V) (t : T) : Option (State T X V) :=
  match s.txn t with
  | ⟨reads,values,.locking (x :: todo)⟩ =>
    if (s.word x).owner = none then some ((s.setWord x ((s.word x).lock t)).turn t ⟨reads,values,.locking todo⟩) else none
  | ⟨reads,values,.locking []⟩ =>
    some { s.turn t ⟨reads,values,.checking reads⟩ with points := s.points ++ [t], snap := update s.snap t s.word }
  | ⟨reads,values,.checking ((x,v) :: todo)⟩ =>
    -- the lock bit is not looked at for an object that is written as well
    if (s.word x).owner = none ∨ x ∈ (writes t).rows then some (s.turn t ⟨reads,values,.comparing x v todo⟩) else none
  | ⟨reads,values,.comparing x v todo⟩ =>
    if (s.word x).version = v then some (s.turn t ⟨reads,values,.checking todo⟩) else none
  | ⟨reads,values,.checking []⟩ => some (s.turn t ⟨reads,values,.installing []⟩)
  | _ => none

def next (writes : T → Update X V) (s : State T X V) : T × Act X → Option (State T X V)
  | (t,.go) => s.go writes t
  | (t,.observe x) =>
    match s.txn t with
    | ⟨reads,values,.running⟩ =>
      if (s.word x).owner = none then
        some (s.turn t ⟨if (reads.lookup x).isSome then reads else reads ++ [(x,(s.word x).version)],values,.running⟩)
      else none
    | _ => none
  | (t,.value x) =>
    match s.txn t with
    | ⟨reads,values,.running⟩ =>
      match reads.lookup x with
      | some v => some (s.turn t ⟨reads,(x,v,s.value x) :: values,.running⟩)
      | none => none
    | _ => none
  | (t,.commit) =>
    match s.txn t with
    | ⟨reads,values,.running⟩ => some (s.turn t ⟨reads,values,.locking (writes t).rows⟩)
    | _ => none
  | (t,.store x) =>
    match s.txn t with
    | ⟨reads,values,.installing stored⟩ =>
      if (s.word x).owner = some t then
        some { s.turn t ⟨reads,values,.installing (x :: stored)⟩ with value := update s.value x ((writes t).data x) }
      else none
    | _ => none
  | (t,.release x) =>
    match s.txn t with
    | ⟨_,_,.installing stored⟩ =>
      if (s.word x).owner = some t ∧ x ∈ stored then some (s.setWord x (s.word x).release) else none
    | _ => none
  | (t,.abort) =>
    match s.txn t with
    | ⟨reads,values,.running⟩ | ⟨reads,values,.locking _⟩ | ⟨reads,values,.checking _⟩ | ⟨reads,values,.comparing _ _ _⟩ =>
      some (s.turn t ⟨reads,values,.aborting⟩)
    | _ => none
  | (t,.unlock x) =>
    if (s.txn t).pc = .aborting ∧ (s.word x).owner = some t then some (s.setWord x (s.word x).unlock) else none

end State

def objects (writes : T → Update X V) (d : X → V) (version : X → Nat) : Machine (State T X V) (T × Act X) :=
  .ofNext ⟨fun x => ⟨version x,none⟩,d,fun _ => ⟨[],[],.running⟩,[],fun _ x => ⟨version x,none⟩⟩ (State.next writes)

section Steps
variable {writes : T → Update X V} {s s' : State T X V} {t : T}

/-- A step that changes nothing but `t` itself, before it commits. -/
inductive Turn (writes : T → Update X V) (t : T) (s : State T X V) : Txn X V → Prop
  | observe {x reads values} (hx : s.txn t = ⟨reads,values,.running⟩)
      (ho : (s.word x).owner = none) : Turn writes t s ⟨reads ++ [(x,(s.word x).version)],values,.running⟩
  | again : (s.txn t).pc = .running → Turn writes t s (s.txn t)
  | value {x v reads values} (hx : s.txn t = ⟨reads,values,.running⟩)
      (hv : (x,v) ∈ reads) : Turn writes t s ⟨reads,(x,v,s.value x) :: values,.running⟩
  | commit {reads values} (hx : s.txn t = ⟨reads,values,.running⟩) :
      Turn writes t s ⟨reads,values,.locking (writes t).rows⟩
  | test {x v todo reads values}
      (hx : s.txn t = ⟨reads,values,.checking ((x,v) :: todo)⟩)
      (ho : (s.word x).owner = none ∨ x ∈ (writes t).rows) : Turn writes t s ⟨reads,values,.comparing x v todo⟩
  | compare {x v todo reads values}
      (hx : s.txn t = ⟨reads,values,.comparing x v todo⟩)
      (hv : (s.word x).version = v) : Turn writes t s ⟨reads,values,.checking todo⟩
  | abort {pc reads values} (hx : s.txn t = ⟨reads,values,pc⟩)
      (hc : pc.committed = false) (ha : pc ≠ .aborting) : Turn writes t s ⟨reads,values,.aborting⟩

inductive Step (writes : T → Update X V) (t : T) (s : State T X V) : State T X V → Prop
  | turn {x} (h : Turn writes t s x) : Step writes t s (s.turn t x)
  | lock {x todo reads values}
      (hx : s.txn t = ⟨reads,values,.locking (x :: todo)⟩)
      (ho : (s.word x).owner = none) : Step writes t s ((s.setWord x ((s.word x).lock t)).turn t ⟨reads,values,.locking todo⟩)
  | point {reads values} (hx : s.txn t = ⟨reads,values,.locking []⟩) :
      Step writes t s { s.turn t ⟨reads,values,.checking reads⟩ with points := s.points ++ [t], snap := update s.snap t s.word }
  | commit {reads values} (hx : s.txn t = ⟨reads,values,.checking []⟩) :
      Step writes t s (s.turn t ⟨reads,values,.installing []⟩)
  | store {x stored reads values}
      (hx : s.txn t = ⟨reads,values,.installing stored⟩)
      (ho : (s.word x).owner = some t) :
      Step writes t s { s.turn t ⟨reads,values,.installing (x :: stored)⟩ with value := update s.value x ((writes t).data x) }
  | release {x stored} (hp : (s.txn t).pc = .installing stored) (ho : (s.word x).owner = some t) (hx : x ∈ stored) :
      Step writes t s (s.setWord x (s.word x).release)
  | unlock {x} (hp : (s.txn t).pc = .aborting) (ho : (s.word x).owner = some t) : Step writes t s (s.setWord x (s.word x).unlock)

theorem Step.of_go (h : s.go writes t = some s') : Step writes t s s' := by
  simp only [go] at h
  split at h
  · rename_i hx
    obtain ⟨ho,rfl⟩ := ite_some_none_eq_some.mp h
    exact .lock hx ho
  · rename_i hx
    exact some.inj h ▸ .point hx
  · rename_i hx
    obtain ⟨ho,rfl⟩ := ite_some_none_eq_some.mp h
    exact .turn (.test hx ho)
  · rename_i hx
    obtain ⟨hv,rfl⟩ := ite_some_none_eq_some.mp h
    exact .turn (.compare hx hv)
  · rename_i hx
    exact some.inj h ▸ .commit hx
  · cases h

theorem Step.of_next {a} (h : s.next writes (t,a) = some s') : Step writes t s s' := by
  cases a with
  | go => exact .of_go h
  | observe x =>
    simp only [State.next] at h
    split at h
    · rename_i reads values hx
      obtain ⟨ho,rfl⟩ := ite_some_none_eq_some.mp h
      split_ifs
      · rw [← hx]
        exact .turn (.again (by rw [hx]))
      · exact .turn (.observe hx ho)
    · cases h
  | value x =>
    simp only [State.next] at h
    split at h
    · rename_i reads values hx
      split at h
      · rename_i v hv
        obtain ⟨l,l',hreads,-⟩ := lookup_eq_some_iff.mp hv
        exact some.inj h ▸ .turn (.value hx (hreads ▸ mem_append_right l (mem_cons_self ..)))
      · cases h
    · cases h
  | commit =>
    simp only [State.next] at h
    split at h
    · rename_i hx
      exact some.inj h ▸ .turn (.commit hx)
    · cases h
  | store x =>
    simp only [State.next] at h
    split at h
    · rename_i hx
      obtain ⟨ho,rfl⟩ := ite_some_none_eq_some.mp h
      exact .store hx ho
    · cases h
  | release x =>
    simp only [State.next] at h
    split at h
    · rename_i hx
      obtain ⟨ho,rfl⟩ := ite_some_none_eq_some.mp h
      exact .release (congrArg Txn.pc hx) ho.1 ho.2
    · cases h
  | abort =>
    simp only [State.next] at h
    split at h
    case h_5 => cases h
    all_goals
      rename_i hx
      exact some.inj h ▸ .turn (.abort hx rfl nofun)
  | unlock x =>
    obtain ⟨hp,rfl⟩ := ite_some_none_eq_some.mp h
    exact .unlock hp.1 hp.2

omit [DecidableEq T] [DecidableEq X] in
theorem Turn.pcs {x} (h : Turn writes t s x) : (s.txn t).pc.committed = false ∧ (s.txn t).pc ≠ .aborting ∧ x.pc.committed = false := by
  cases h with
  | again hp => exact ⟨by rw [hp]; rfl,by rw [hp]; nofun,by rw [hp]; rfl⟩
  | abort hx hc ha => exact ⟨by rw [hx]; exact hc,by rw [hx]; exact ha,rfl⟩
  | observe hx | value hx | commit hx | test hx | compare hx => exact ⟨by rw [hx]; rfl,by rw [hx]; nofun,rfl⟩

end Steps

section Locks
variable {writes : T → Update X V} {d : X → V} {s s' : State T X V} {t : T}

/-- The locks a transaction has at its place, and whether its point has come. -/
def PhaseOk (writes : T → Update X V) (word : X → Word T) (points : List T) (t : T) : Pc X → Prop
  | .running => t ∉ points
  | .locking todo => t ∉ points ∧ todo ⊆ (writes t).rows ∧ ∀ x ∈ (writes t).rows, x ∈ todo ∨ (word x).owner = some t
  | .checking _ | .comparing _ _ _ => t ∈ points ∧ ∀ x ∈ (writes t).rows, (word x).owner = some t
  | .installing _ => t ∈ points
  | .aborting => True

structure Locks (writes : T → Update X V) (d : X → V) (s : State T X V) : Prop where
  nodup : s.points.Nodup
  held : ∀ x t, (s.word x).owner = some t → x ∈ (writes t).rows ∧ (s.txn t).pc ≠ .running
  phase : ∀ t, PhaseOk writes s.word s.points t (s.txn t).pc
  free : ∀ x, (∀ t, (s.word x).owner = some t → (s.txn t).pc.committed = false) → s.value x = Update.serial writes d s.order x
  mine : ∀ x t stored, (s.word x).owner = some t → (s.txn t).pc = .installing stored →
    Update.serial writes d s.order x = (writes t).data x ∧ (x ∈ stored → s.value x = (writes t).data x)
  /-- Who comes to its point later and has not aborted waited for the lock. -/
  exclusive : ∀ before t after, s.points = before ++ t :: after → ∀ u ∈ after, (s.txn u).pc ≠ .aborting →
    ∀ x ∈ (writes t).rows, x ∈ (writes u).rows → (s.word x).owner ≠ some t

section
omit [DecidableEq X]

theorem State.turn_txn (s : State T X V) (t : T) (x : Txn X V) (u : T) : (s.turn t x).txn u = if u = t then x else s.txn u :=
  update_apply ..

/-- What holds of the places of the others, and of the new place, holds of all. -/
private theorem pc_update {f : T → Txn X V} {x u} {P : Pc X → Prop} (hself : u = t → P x.pc) (hother : u ≠ t → P (f u).pc) :
    P (update f t x u).pc := by
  rw [update_apply]
  split_ifs with hu
  · exact hself hu
  · exact hother hu

private theorem pc_of_update {f : T → Txn X V} {x u} {P : Pc X → Prop} (h : P (update f t x u).pc) (ht : P x.pc → P (f t).pc) :
    P (f u).pc := by
  rw [update_apply] at h
  split_ifs at h with hu
  · exact hu ▸ ht h
  · exact h

theorem State.turn_order (s : State T X V) {x} (h : x.pc.committed = (s.txn t).pc.committed) : (s.turn t x).order = s.order := by
  refine filter_congr fun u _ => ?_
  rw [turn_txn]
  split_ifs with hu
  · rw [hu,h]
  · rfl

end

omit [DecidableEq T] in
theorem State.setWord_word (s : State T X V) (x : X) (w : Word T) (y : X) : (s.setWord x w).word y = if y = x then w else s.word y :=
  update_apply ..

omit [DecidableEq T] [DecidableEq X] in
/-- The place of a transaction stays all right when the locks it has stay. -/
theorem PhaseOk.keep {word word' points points' pc} (h : PhaseOk writes word points t pc)
    (hw : ∀ x, (word x).owner = some t → (word' x).owner = some t) (hp : t ∈ points' ↔ t ∈ points) :
      PhaseOk writes word' points' t pc := by
  cases pc with
  | running => exact mt hp.mp h
  | locking todo => exact ⟨mt hp.mp h.1,h.2.1,fun x hx => (h.2.2 x hx).imp_right (hw x)⟩
  | checking _ | comparing _ _ _ => exact ⟨hp.mpr h.1,fun x hx => hw x (h.2 x hx)⟩
  | installing _ => exact hp.mpr h
  | aborting => trivial

theorem Locks.turn {x} (h : Locks writes d s) (ht : Turn writes t s x) : Locks writes d (s.turn t x) := by
  obtain ⟨hc,ha,hc'⟩ := ht.pcs
  have horder : (s.turn t x).order = s.order := s.turn_order (hc'.trans hc.symm)
  have hphase : PhaseOk writes s.word s.points t x.pc := by
    have hold := h.phase t
    cases ht with
    | again => exact hold
    | observe hx | value hx | test hx | compare hx =>
      rw [hx] at hold
      exact hold
    | commit hx =>
      rw [hx] at hold
      exact ⟨hold,List.Subset.refl _,fun y hy => .inl hy⟩
    | abort => trivial
  refine ⟨h.nodup,fun y u ho => ⟨(h.held y u ho).1,?_⟩,fun u => ?_,fun y hy => ?_,fun y u stored ho hp => ?_,
    fun before u after hpts w hw haw => ?_⟩
  · rw [turn_txn]
    split_ifs with hu
    · subst hu
      -- a running transaction has no locks
      have hrun := (h.held y u ho).2
      cases ht with
      | again hp => exact absurd hp hrun
      | observe hx | value hx =>
        rw [hx] at hrun
        exact absurd rfl hrun
      | commit | test | compare | abort => nofun
    · exact (h.held y u ho).2
  · exact pc_update (P := PhaseOk writes s.word s.points u) (fun hu => hu ▸ hphase) (fun _ => h.phase u)
  · rw [horder]
    exact h.free y fun u ho => pc_of_update (P := (·.committed = false)) (hy u ho) (fun _ => hc)
  · rw [horder]
    rw [turn_txn] at hp
    split_ifs at hp with hu
    · rw [hp] at hc'
      cases hc'
    · exact h.mine y u stored ho hp
  · exact h.exclusive before u after hpts w hw (pc_of_update (P := (· ≠ .aborting)) haw (fun _ => ha))

theorem Locks.lock {x todo reads values} (h : Locks writes d s)
    (hx : s.txn t = ⟨reads,values,.locking (x :: todo)⟩) (ho : (s.word x).owner = none) :
    Locks writes d ((s.setWord x ((s.word x).lock t)).turn t ⟨reads,values,.locking todo⟩) := by
  have hphase := h.phase t
  rw [hx] at hphase
  obtain ⟨hpt,hsub,hrows⟩ := hphase
  have horder : ((s.setWord x ((s.word x).lock t)).turn t ⟨reads,values,.locking todo⟩).order = s.order := by
    refine turn_order (s.setWord x ((s.word x).lock t)) ?_
    rw [show (s.setWord x ((s.word x).lock t)).txn t = s.txn t from rfl,hx]
    rfl
  have hkeep (y : X) (u : T) (hu : (s.word y).owner = some u) : ((s.setWord x ((s.word x).lock t)).word y).owner = some u := by
    rw [setWord_word,if_neg]
    · exact hu
    · rintro rfl
      exact nomatch ho.symm.trans hu
  have hback (y : X) (u : T) (hu : ((s.setWord x ((s.word x).lock t)).word y).owner = some u) :
      y = x ∧ u = t ∨ (s.word y).owner = some u := by
    rw [setWord_word] at hu
    split_ifs at hu with hy
    · exact .inl ⟨hy,(some.inj hu).symm⟩
    · exact .inr hu
  refine ⟨h.nodup,fun y u hu => ?_,fun u => ?_,fun y hy => ?_,fun y u stored hu hp => ?_,
    fun before u after hpts w hw haw y hyu hyw hu => ?_⟩
  · rw [turn_txn]
    rcases hback y u hu with ⟨rfl,rfl⟩ | hu
    · exact ⟨hsub (mem_cons_self ..),by rw [if_pos rfl]; nofun⟩
    · refine ⟨(h.held y u hu).1,?_⟩
      split_ifs with hut
      · nofun
      · exact (h.held y u hu).2
  · rw [turn_txn]
    split_ifs with hu
    · subst hu
      refine ⟨hpt,fun y hy => hsub (mem_cons_of_mem x hy),fun y hy => ?_⟩
      rcases hrows y hy with hm | hoy
      · rcases mem_cons.mp hm with rfl | hm
        · exact .inr (congrArg Word.owner ((setWord_word ..).trans (if_pos rfl)))
        · exact .inl hm
      · exact .inr (hkeep y u hoy)
    · exact (h.phase u).keep (fun y => hkeep y u) Iff.rfl
  · rw [horder]
    exact h.free y fun u hu => pc_of_update (P := (·.committed = false)) (hy u (hkeep y u hu)) (fun _ => by rw [hx]; rfl)
  · rw [horder]
    rw [turn_txn] at hp
    split_ifs at hp with hut
    rcases hback y u hu with ⟨-,rfl⟩ | hu
    · exact absurd rfl hut
    · exact h.mine y u stored hu hp
  · rcases hback y u hu with ⟨-,rfl⟩ | hu
    · exact hpt (hpts ▸ mem_append_right before (mem_cons_self ..))
    · exact h.exclusive before u after hpts w hw (pc_of_update (P := (· ≠ .aborting)) haw (fun _ => by rw [hx]; nofun)) y hyu hyw hu

/-- A lock is given back on an object whose value is what the committed transactions make of it. -/
theorem Locks.giveBack {x w} (h : Locks writes d s) (hw : w.owner = none)
    (ho : (s.word x).owner = some t) (hv : s.value x = Update.serial writes d s.order x)
    (hp : (s.txn t).pc.pending = false ∧ ∀ todo, (s.txn t).pc ≠ .locking todo) : Locks writes d (s.setWord x w) := by
  have hback (y : X) (u : T) (hu : ((s.setWord x w).word y).owner = some u) : y ≠ x ∧ (s.word y).owner = some u := by
    rw [setWord_word] at hu
    split_ifs at hu with hy
    · exact nomatch hw.symm.trans hu
    · exact ⟨hy,hu⟩
  have hkeep (y : X) (u : T) (hut : u ≠ t) (hu : (s.word y).owner = some u) : ((s.setWord x w).word y).owner = some u := by
    rw [setWord_word,if_neg]
    · exact hu
    · rintro rfl
      exact hut (some.inj (hu.symm.trans ho))
  refine ⟨h.nodup,fun y u hu => h.held y u (hback y u hu).2,fun u => ?_,fun y hy => ?_,
    fun y u stored hu => h.mine y u stored (hback y u hu).2,
    fun before u after hpts z hz haz y hyu hyz hu => h.exclusive before u after hpts z hz haz y hyu hyz (hback y u hu).2⟩
  · by_cases hu : u = t
    · subst hu
      have hold := h.phase u
      change PhaseOk writes _ s.points u (s.txn u).pc
      generalize (s.txn u).pc = pc at hold hp
      match pc,hold,hp with
      | .running,hold,_ => exact hold
      | .locking todo,_,hp => exact absurd rfl (hp.2 todo)
      | .checking _,_,hp | .comparing _ _ _,_,hp => exact nomatch hp.1
      | .installing _,hold,_ => exact hold
      | .aborting,_,_ => trivial
    · exact (h.phase u).keep (fun y => hkeep y u hu) Iff.rfl
  · by_cases hyx : y = x
    · exact hyx ▸ hv
    · refine h.free y fun u hu => hy u ?_
      rwa [setWord_word,if_neg hyx]

theorem Locks.store {x stored reads values} (h : Locks writes d s)
    (hx : s.txn t = ⟨reads,values,.installing stored⟩) (ho : (s.word x).owner = some t) :
    Locks writes d { s.turn t ⟨reads,values,.installing (x :: stored)⟩ with value := update s.value x ((writes t).data x) } := by
  have horder : order { s.turn t ⟨reads,values,.installing (x :: stored)⟩ with value := update s.value x ((writes t).data x) } = s.order :=
    turn_order s (by rw [hx]; rfl)
  have hphase := h.phase t
  rw [hx] at hphase
  have htxn (u : T) : update s.txn t ⟨reads,values,.installing (x :: stored)⟩ u =
      if u = t then ⟨reads,values,.installing (x :: stored)⟩ else s.txn u :=
    update_apply ..
  refine ⟨h.nodup,fun y u hu => ⟨(h.held y u hu).1,?_⟩,fun u => ?_,fun y hy => ?_,fun y u st hu hp => ?_,
    fun before u after hpts w hw haw => ?_⟩
  · exact pc_update (P := (· ≠ .running)) (fun _ => nofun) (fun _ => (h.held y u hu).2)
  · exact pc_update (P := PhaseOk writes s.word s.points u) (fun hu => hu ▸ hphase) (fun _ => h.phase u)
  · rw [horder]
    change update s.value x _ y = _
    have hne : y ≠ x := by
      rintro rfl
      have hc := hy t ho
      change (update s.txn t _ t).pc.committed = false at hc
      rw [update_self] at hc
      cases hc
    rw [update_of_ne hne]
    exact h.free y fun u hu => pc_of_update (P := (·.committed = false)) (hy u hu) nofun
  · rw [horder]
    change Update.serial writes d s.order y = (writes u).data y ∧ (y ∈ st → update s.value x _ y = (writes u).data y)
    change (update s.txn t _ u).pc = .installing st at hp
    rw [htxn] at hp
    split_ifs at hp with hut
    · subst hut
      obtain rfl := Pc.installing.inj hp
      obtain ⟨hser,hst⟩ := h.mine y u stored hu (congrArg Txn.pc hx)
      refine ⟨hser,fun hm => ?_⟩
      by_cases hyx : y = x
      · rw [hyx,update_self]
      · rw [update_of_ne hyx]
        exact hst (mem_of_ne_of_mem hyx hm)
    · have hyx : y ≠ x := by
        rintro rfl
        exact hut (some.inj (hu.symm.trans ho))
      rw [update_of_ne hyx]
      exact h.mine y u st hu hp
  · exact h.exclusive before u after hpts w hw (pc_of_update (P := (· ≠ .aborting)) haw (fun _ => by rw [hx]; nofun))

omit [DecidableEq T] [DecidableEq X] in
/-- Where a list with a new last entry is cut at an entry. -/
theorem append_singleton_cut {before after l u} (h : l ++ [u] = before ++ t :: after) :
    before = l ∧ t = u ∧ after = [] ∨ ∃ after', after = after' ++ [u] ∧ l = before ++ t :: after' := by
  rcases eq_nil_or_concat after with rfl | ⟨after',w,rfl⟩
  · obtain ⟨rfl,heq⟩ := append_inj' h rfl
    exact .inl ⟨rfl,(singleton_inj.mp heq).symm,rfl⟩
  · rw [concat_eq_append,← cons_append,← append_assoc] at h
    obtain ⟨hl,heq⟩ := append_inj' h rfl
    exact .inr ⟨after',by rw [concat_eq_append,singleton_inj.mp heq],hl⟩

theorem Locks.point {reads values} (h : Locks writes d s) (hx : s.txn t = ⟨reads,values,.locking []⟩) :
    Locks writes d { s.turn t ⟨reads,values,.checking reads⟩ with points := s.points ++ [t], snap := update s.snap t s.word } := by
  have hphase := h.phase t
  rw [hx] at hphase
  obtain ⟨hpt,-,hrows⟩ := hphase
  have hrows (y : X) (hy : y ∈ (writes t).rows) : (s.word y).owner = some t := (hrows y hy).resolve_left not_mem_nil
  have horder : order { s.turn t ⟨reads,values,.checking reads⟩ with points := s.points ++ [t], snap := update s.snap t s.word } =
      s.order := by
    have hturn : (s.turn t ⟨reads,values,.checking reads⟩).order = s.order := turn_order s (by rw [hx]; rfl)
    rw [← hturn,order,order]
    change (s.points ++ [t]).filter (fun u => (update s.txn t _ u).pc.committed) = _
    rw [filter_append,filter_cons_of_neg,filter_nil,append_nil]
    · rfl
    · rw [update_self]
      exact Bool.false_ne_true
  refine ⟨?_,fun y u hu => ⟨(h.held y u hu).1,?_⟩,fun u => ?_,fun y hy => ?_,fun y u st hu hp => ?_,
    fun before u after hpts w hw haw y hyu hyw hu => ?_⟩
  · exact h.nodup.append (nodup_singleton t) (disjoint_singleton.mpr hpt)
  · exact pc_update (P := (· ≠ .running)) (fun _ => nofun) (fun _ => (h.held y u hu).2)
  · refine pc_update (P := PhaseOk writes s.word (s.points ++ [t]) u) (fun hu => ?_) (fun hu => (h.phase u).keep (fun _ => id) ?_)
    · subst hu
      exact ⟨mem_append_right _ (mem_singleton_self _),hrows⟩
    · rw [mem_append,mem_singleton,or_iff_left hu]
  · rw [horder]
    exact h.free y fun u hu => pc_of_update (P := (·.committed = false)) (hy u hu) (fun _ => by rw [hx]; rfl)
  · rw [horder]
    exact h.mine y u st hu (pc_of_update (P := (· = .installing st)) hp nofun)
  · change (s.word y).owner = some u at hu
    rcases append_singleton_cut hpts with ⟨rfl,rfl,rfl⟩ | ⟨after',rfl,hl⟩
    · exact not_mem_nil hw
    · rcases mem_append.mp hw with hw | hw
      · exact h.exclusive before u after' hl w hw (pc_of_update (P := (· ≠ .aborting)) haw (fun _ => by rw [hx]; nofun)) y hyu hyw hu
      · obtain rfl := mem_singleton.mp hw
        obtain rfl := some.inj (hu.symm.trans (hrows y hyw))
        exact hpt (hl ▸ mem_append_right before (mem_cons_self ..))

/-- A commit puts its transaction among the committed ones at the place of its point. Nobody
behind it there has written what it writes. -/
theorem Locks.commit {reads values} (h : Locks writes d s) (hx : s.txn t = ⟨reads,values,.checking []⟩) :
    Locks writes d (s.turn t ⟨reads,values,.installing []⟩) := by
  have hphase := h.phase t
  rw [hx] at hphase
  obtain ⟨hpt,hrows⟩ := hphase
  have hcommitted (u : T) : ((s.turn t ⟨reads,values,.installing []⟩).txn u).pc.committed =
      if u = t then true else (s.txn u).pc.committed := by
    rw [turn_txn]
    split_ifs <;> rfl
  have hwritten (y : X) (hy : y ∈ (writes t).rows) :
      Update.serial writes d (s.turn t ⟨reads,values,.installing []⟩).order y = (writes t).data y := by
    obtain ⟨before,after,hpts⟩ := append_of_mem hpt
    rw [order,show (s.turn t ⟨reads,values,.installing []⟩).points = before ++ t :: after from hpts,filter_append,
      filter_cons_of_pos (by rw [hcommitted,if_pos rfl])]
    refine Update.serial_last hy fun u hu hyu => ?_
    obtain ⟨hmem,hc⟩ := mem_filter.mp hu
    have hut : u ≠ t := by
      intro hut
      have hnd := h.nodup
      rw [hpts] at hnd
      exact (nodup_cons.mp hnd.of_append_right).1 (hut ▸ hmem)
    rw [hcommitted,if_neg hut] at hc
    refine h.exclusive before t after hpts u hmem ?_ y hy hyu (hrows y hy)
    intro ha
    rw [ha] at hc
    cases hc
  have hother (y : X) (hy : y ∉ (writes t).rows) :
      Update.serial writes d (s.turn t ⟨reads,values,.installing []⟩).order y = Update.serial writes d s.order y := by
    refine Update.serial_filter_congr fun u _ hyu => ?_
    rw [hcommitted,if_neg]
    rintro rfl
    exact hy hyu
  refine ⟨h.nodup,fun y u hu => ⟨(h.held y u hu).1,?_⟩,fun u => ?_,fun y hy => ?_,fun y u st hu hp => ?_,
    fun before u after hpts w hw haw => ?_⟩
  · exact pc_update (P := (· ≠ .running)) (fun _ => nofun) (fun _ => (h.held y u hu).2)
  · exact pc_update (P := PhaseOk writes s.word s.points u) (fun hu => hu ▸ hpt) (fun _ => h.phase u)
  · have hyt : y ∉ (writes t).rows := by
      intro hyt
      have hc := hy t (hrows y hyt)
      rw [hcommitted,if_pos rfl] at hc
      cases hc
    rw [hother y hyt]
    exact h.free y fun u hu => pc_of_update (P := (·.committed = false)) (hy u hu) nofun
  · rw [turn_txn] at hp
    split_ifs at hp with hut
    · subst hut
      obtain rfl := Pc.installing.inj hp
      exact ⟨hwritten y (h.held y u hu).1,nofun⟩
    · have hyt : y ∉ (writes t).rows := fun hyt => hut (some.inj (hu.symm.trans (hrows y hyt)))
      rw [hother y hyt]
      exact h.mine y u st hu hp
  · exact h.exclusive before u after hpts w hw (pc_of_update (P := (· ≠ .aborting)) haw (fun _ => by rw [hx]; nofun))

theorem Step.locks (hs : Step writes t s s') (h : Locks writes d s) : Locks writes d s' := by
  cases hs with
  | turn ht => exact h.turn ht
  | lock hx ho => exact h.lock hx ho
  | point hx => exact h.point hx
  | commit hx => exact h.commit hx
  | store hx ho => exact h.store hx ho
  | @release x stored hp ho hx =>
    obtain ⟨hser,hst⟩ := h.mine x t stored ho hp
    refine h.giveBack rfl ho ((hst hx).trans hser.symm) ?_
    rw [hp]
    exact ⟨rfl,nofun⟩
  | @unlock x hp ho =>
    refine h.giveBack rfl ho (h.free x fun u hu => ?_) ?_
    · obtain rfl := some.inj (hu.symm.trans ho)
      rw [hp]
      rfl
    · rw [hp]
      exact ⟨rfl,nofun⟩

theorem locks_start (writes : T → Update X V) (d : X → V) (version : X → Nat) : Locks writes d (objects writes d version).start where
  nodup := nodup_nil
  held := nofun
  phase _ := not_mem_nil
  free _ _ := rfl
  mine := nofun
  exclusive before t after hpts := absurd hpts (by simp [objects,Machine.ofNext])

end Locks

end

end AlNiCo.Sto.Occ
