import Mathlib
import AlNiCo.Library.Machine
import AlNiCo.Library.SerialLog

/-! Opaque versions: writers that commit at a drawn timestamp, and a transaction that only reads,
checks every version it observes against its start timestamp and commits without validation.
Versions and timestamps are assumed never to wrap around. -/
namespace AlNiCo.Sto.Opacity
open Library Function List Option

structure Row (T V : Type) where
  version : Nat
  owner : Option T
  nonopaqueBit : Bool
  value : V

structure Seen where
  version : Nat
  nonopaqueBit : Bool
deriving DecidableEq

inductive Phase (X : Type)
  | locking (todo : List X)
  | installing (stored : List X) (tid : Option Nat)
  | aborting
deriving DecidableEq

/-- The rows, the next timestamp, who has drawn one so far, and the writers. -/
structure Store (T X V : Type) where
  row : X → Row T V
  tid : Nat
  log : List T
  writer : T → Phase X

inductive WriterAct (X : Type)
  | lock | validated | giveUp | draw
  | unlock (x : X)
  | store (x : X)
  | setVersion (x : X)

inductive Pc (X : Type)
  | running
  | starting (x : X) (v : Seen)
  | testing (x : X) (v : Seen)
  | hard (x : X) (v : Seen)
  | checking (x : X) (v : Seen) (todo : List (X × Seen))
  | comparing (x : X) (v : Seen) (y : X) (w : Seen) (todo : List (X × Seen))
  | committed
  | aborted
deriving DecidableEq

structure Reader (X V : Type) where
  startTid : Nat
  reads : List (X × Seen)
  values : List (X × V)
  pc : Pc X

inductive ReaderAct (X : Type)
  | observe (x : X)
  | value (x : X)
  | go | commit | abort

structure State (T X V : Type) where
  store : Store T X V
  reader : Reader X V

inductive Act (T X : Type)
  | writer (t : T) (a : WriterAct X)
  | reader (a : ReaderAct X)

def Row.seen {T V : Type} (r : Row T V) : Seen := ⟨r.version,r.nonopaqueBit⟩

def tryCheckOpacity (startTid : Nat) (v : Seen) : Bool := decide (v.version < startTid) && !v.nonopaqueBit

open Update

section
variable {T X V : Type} [DecidableEq T] [DecidableEq X]

namespace Store

def setRow (s : Store T X V) (x : X) (r : Row T V) : Store T X V := { s with row := update s.row x r }

def setWriter (s : Store T X V) (t : T) (p : Phase X) : Store T X V := { s with writer := update s.writer t p }

/-- One atomic step of a writer. The timestamp is drawn once all rows are locked. -/
def next (writes : T → Update X V) (s : Store T X V) (t : T) : WriterAct X → Option (Store T X V)
  | .lock =>
    match s.writer t with
    | .locking (x :: todo) =>
      if (s.row x).owner = none then some ((s.setRow x { s.row x with owner := some t }).setWriter t (.locking todo)) else none
    | _ => none
  | .validated => if s.writer t = .locking [] then some (s.setWriter t (.installing [] none)) else none
  | .giveUp => match s.writer t with | .locking _ => some (s.setWriter t .aborting) | _ => none
  | .unlock x =>
    if s.writer t = .aborting ∧ (s.row x).owner = some t then some (s.setRow x { s.row x with owner := none }) else none
  | .store x =>
    match s.writer t with
    | .installing stored c =>
      if (s.row x).owner = some t then
        some ((s.setRow x { s.row x with value := (writes t).data x }).setWriter t (.installing (x :: stored) c))
      else none
    | _ => none
  | .draw =>
    match s.writer t with
    | .installing stored none =>
      some { s.setWriter t (.installing stored (some s.tid)) with tid := s.tid+1, log := s.log ++ [t] }
    | _ => none
  | .setVersion x =>
    match s.writer t with
    | .installing stored (some c) =>
      if x ∈ stored ∧ (s.row x).owner = some t then
        some (s.setRow x { s.row x with version := c, owner := none, nonopaqueBit := false })
      else none
    | _ => none

end Store

namespace Reader

/-- The observed version joins the read set unless the item has a read already. -/
def record (r : Reader X V) (x : X) (v : Seen) : Reader X V :=
  { r with reads := if (r.reads.lookup x).isSome then r.reads else r.reads ++ [(x,v)], pc := .running }

def go (s : Store T X V) (r : Reader X V) : Option (Reader X V) :=
  match r.pc with
  | .starting x v => some { r with startTid := s.tid, pc := .testing x v }
  | .testing x v =>
    if tryCheckOpacity r.startTid v then some (r.record x v)
    else if r.reads.lookup x = some v then some { r with pc := .running }
    else some { r with pc := .hard x v }
  | .hard x v => some { r with startTid := s.tid, pc := .checking x v r.reads }
  | .checking x v [] => some (r.record x v)
  | .checking x v ((y,w) :: todo) =>
    if (s.row y).owner = none then some { r with pc := .comparing x v y w todo } else none
  | .comparing x v y w todo => if (s.row y).version = w.version then some { r with pc := .checking x v todo } else none
  | _ => none

def next (s : Store T X V) (r : Reader X V) : ReaderAct X → Option (Reader X V)
  | .go => r.go s
  | .observe x =>
    if r.pc = .running ∧ (s.row x).owner = none then
      some { r with pc := if r.startTid = 0 then .starting x (s.row x).seen else .testing x (s.row x).seen }
    else none
  | .value x =>
    if r.pc = .running ∧ (r.reads.lookup x).isSome then some { r with values := (x,(s.row x).value) :: r.values } else none
  | .commit => if r.pc = .running then some { r with pc := .committed } else none
  | .abort => if r.pc = .committed then none else some { r with pc := .aborted }

end Reader

def State.next (writes : T → Update X V) (s : State T X V) : Act T X → Option (State T X V)
  | .writer t a => (s.store.next writes t a).map fun store => { s with store := store }
  | .reader a => (s.reader.next s.store a).map fun reader => { s with reader := reader }

def database (writes : T → Update X V) (d : X → V) (version : X → Nat) (nonopaqueBit : X → Bool) (tid : Nat) :
    Machine (State T X V) (Act T X) :=
  .ofNext ⟨⟨fun x => ⟨version x,none,nonopaqueBit x,d x⟩,tid,[],fun t => .locking (writes t).rows⟩,⟨0,[],[],.running⟩⟩ (State.next writes)

/-- A value is read while its row still carries the observed version, unlocked. -/
def steady (s : State T X V) : Act T X → Bool
  | .reader (.value x) => (s.store.row x).owner.isNone && (s.reader.reads.lookup x == some (s.store.row x).seen)
  | _ => true

section Writers
variable {writes : T → Update X V} {d : X → V} {first : Nat} {s s' : Store T X V} {t : T}

inductive Store.Step (writes : T → Update X V) (t : T) (s : Store T X V) : Store T X V → Prop
  | lock {x todo} (hp : s.writer t = .locking (x :: todo)) (ho : (s.row x).owner = none) :
      Step writes t s ((s.setRow x { s.row x with owner := some t }).setWriter t (.locking todo))
  | validated (hp : s.writer t = .locking []) : Step writes t s (s.setWriter t (.installing [] none))
  | giveUp {todo} (hp : s.writer t = .locking todo) : Step writes t s (s.setWriter t .aborting)
  | unlock {x} (hp : s.writer t = .aborting) (ho : (s.row x).owner = some t) :
      Step writes t s (s.setRow x { s.row x with owner := none })
  | store {x stored c} (hp : s.writer t = .installing stored c) (ho : (s.row x).owner = some t) :
      Step writes t s ((s.setRow x { s.row x with value := (writes t).data x }).setWriter t (.installing (x :: stored) c))
  | draw {stored} (hp : s.writer t = .installing stored none) :
      Step writes t s { s.setWriter t (.installing stored (some s.tid)) with tid := s.tid+1, log := s.log ++ [t] }
  | setVersion {x stored c} (hp : s.writer t = .installing stored (some c)) (hx : x ∈ stored)
      (ho : (s.row x).owner = some t) :
      Step writes t s (s.setRow x { s.row x with version := c, owner := none, nonopaqueBit := false })

theorem Store.Step.of_next {a} (h : s.next writes t a = some s') : Step writes t s s' := by
  cases a with
  | lock =>
    simp only [Store.next] at h
    split at h
    · rename_i hp
      obtain ⟨ho,rfl⟩ := ite_some_none_eq_some.mp h
      exact .lock hp ho
    · cases h
  | validated =>
    obtain ⟨hp,rfl⟩ := ite_some_none_eq_some.mp h
    exact .validated hp
  | giveUp =>
    simp only [Store.next] at h
    split at h
    · rename_i hp
      exact some.inj h ▸ .giveUp hp
    · cases h
  | unlock x =>
    obtain ⟨hp,rfl⟩ := ite_some_none_eq_some.mp h
    exact .unlock hp.1 hp.2
  | store x =>
    simp only [Store.next] at h
    split at h
    · rename_i hp
      obtain ⟨ho,rfl⟩ := ite_some_none_eq_some.mp h
      exact .store hp ho
    · cases h
  | draw =>
    simp only [Store.next] at h
    split at h
    · rename_i hp
      exact some.inj h ▸ .draw hp
    · cases h
  | setVersion x =>
    simp only [Store.next] at h
    split at h
    · rename_i hp
      obtain ⟨ho,rfl⟩ := ite_some_none_eq_some.mp h
      exact .setVersion hp ho.1 ho.2
    · cases h

/-- What holds of a writer at its phase: the locks it has, or the timestamp it has drawn. -/
def Store.PhaseOk (writes : T → Update X V) (s : Store T X V) (t : T) : Phase X → Prop
  | .locking todo => todo ⊆ (writes t).rows ∧ ∀ x ∈ (writes t).rows, x ∈ todo ∨ (s.row x).owner = some t
  | .installing _ none => ∀ x ∈ (writes t).rows, (s.row x).owner = some t
  | .installing _ (some c) => c < s.tid
  | .aborting => True

/-- What holds of a row locked by a writer at a phase; `v` is what the log makes of the row. -/
def Row.HeldOk (u : Update X V) (v : V) (x : X) (r : Row T V) : Phase X → Prop
  | .installing stored c => (x ∈ stored → r.value = u.data x) ∧ ∀ n, c = some n → r.version < n ∧ v = u.data x
  | _ => r.value = v

/-- The rows against the log: a row nobody holds is what the log makes of it, and carries the
timestamp of its last writer. -/
structure Store.Ok (writes : T → Update X V) (d : X → V) (first : Nat) (s : Store T X V) : Prop where
  tid : s.tid = first+s.log.length
  version : ∀ x, (s.row x).version < s.tid
  held : ∀ x t, (s.row x).owner = some t → x ∈ (writes t).rows ∧ (s.row x).HeldOk (writes t)
    (Update.serial writes d s.log x) x (s.writer t)
  free : ∀ x, (s.row x).owner = none → (s.row x).value = Update.serial writes d s.log x
  phase : ∀ t, s.PhaseOk writes t (s.writer t)
  logged : ∀ (i : Nat) t, s.log[i]? = some t → ∀ x ∈ (writes t).rows,
    first+i ≤ (s.row x).version ∨ (s.row x).owner = some t ∧ ∃ stored, s.writer t = .installing stored (some (first+i))

/-- A row that writer `t` may have changed: it is free for `t` before and after, and its version
has not gone back. -/
structure Row.Mine (tid : Nat) (t : T) (r r' : Row T V) : Prop where
  before : ∀ u, r.owner = some u → u = t
  after : ∀ u, r'.owner = some u → u = t
  version_le : r.version ≤ r'.version
  version_lt : r'.version < tid

/-- A step of `t` that draws no timestamp keeps what holds of the rows and the other writers. -/
theorem Store.Ok.of_change (h : s.Ok writes d first) (htid : s'.tid = s.tid) (hlog : s'.log = s.log)
    (hw : ∀ u, u ≠ t → s'.writer u = s.writer u) (hrow : ∀ y, s'.row y = s.row y ∨ (s.row y).Mine s.tid t (s'.row y))
    (hheld : ∀ y, (s'.row y).owner = some t → y ∈ (writes t).rows ∧ (s'.row y).HeldOk (writes t) (serial writes d s.log y) y (s'.writer t))
    (hfree : ∀ y, (s'.row y).owner = none → (s'.row y).value = serial writes d s.log y)
    (hphase : s'.PhaseOk writes t (s'.writer t))
    (hlogged : ∀ i stored, s.writer t = .installing stored (some (first+i)) → ∀ y, (s.row y).owner = some t →
      first+i ≤ (s'.row y).version ∨ (s'.row y).owner = some t ∧ ∃ stored, s'.writer t = .installing stored (some (first+i))) :
    s'.Ok writes d first := by
  -- what another writer holds is as before
  have hother (u : T) (hu : u ≠ t) (y : X) (ho : (s.row y).owner = some u ∨ (s'.row y).owner = some u) : s'.row y = s.row y := by
    rcases hrow y with heq | hm
    · exact heq
    · exact absurd (ho.elim (hm.before u) (hm.after u)) hu
  have hle (y : X) : (s.row y).version ≤ (s'.row y).version := by
    rcases hrow y with heq | hm
    · rw [heq]
    · exact hm.version_le
  refine ⟨?_,fun y => ?_,fun y u ho => ?_,?_,fun u => ?_,fun i u hi y hy => ?_⟩
  · rw [htid,hlog,h.tid]
  · rw [htid]
    rcases hrow y with heq | hm
    · rw [heq]
      exact h.version y
    · exact hm.version_lt
  · rw [hlog]
    by_cases hu : u = t
    · subst hu
      exact hheld y ho
    · have heq := hother u hu y (.inr ho)
      rw [heq,hw u hu]
      exact h.held y u (heq ▸ ho)
  · rw [hlog]
    exact hfree
  · by_cases hu : u = t
    · subst hu
      exact hphase
    · have hkeep (y : X) (ho : (s.row y).owner = some u) : (s'.row y).owner = some u := by
        rw [hother u hu y (.inl ho)]
        exact ho
      have hold := h.phase u
      rw [hw u hu]
      generalize s.writer u = p at hold
      match p,hold with
      | .locking todo,hold => exact ⟨hold.1,fun y hy => (hold.2 y hy).imp_right (hkeep y)⟩
      | .installing _ none,hold => exact fun y hy => hkeep y (hold y hy)
      | .installing _ (some c),hold => exact hold.trans_eq htid.symm
      | .aborting,_ => trivial
  · rw [hlog] at hi
    rcases h.logged i u hi y hy with hlt | ⟨ho,stored,hp⟩
    · exact .inl (hlt.trans (hle y))
    · by_cases hu : u = t
      · subst hu
        exact hlogged i stored hp y ho
      · rw [hother u hu y (.inl ho),hw u hu]
        exact .inr ⟨ho,stored,hp⟩

theorem Store.Ok.enter {p} (h : s.Ok writes d first) (hp : ∀ stored c, s.writer t ≠ .installing stored (some c))
    (hheld : ∀ y, (s.row y).HeldOk (writes t) (serial writes d s.log y) y (s.writer t) →
      (s.row y).HeldOk (writes t) (serial writes d s.log y) y p)
    (hphase : s.PhaseOk writes t p) : (s.setWriter t p).Ok writes d first := by
  have hself : (s.setWriter t p).writer t = p := update_self ..
  refine h.of_change rfl rfl (fun u hu => update_of_ne hu ..) (fun _ => .inl rfl) (fun y ho => ?_) h.free ?_ ?_
  · rw [hself]
    exact ⟨(h.held y t ho).1,hheld y (h.held y t ho).2⟩
  · rw [hself]
    exact hphase
  · exact fun i stored heq => absurd heq (hp _ _)

/-- A change of `t` to the row `x` and to its own phase. -/
theorem Store.Ok.change {x r p} (h : s.Ok writes d first) (hm : (s.row x).Mine s.tid t r)
    (hheld : r.owner = some t → x ∈ (writes t).rows ∧ r.HeldOk (writes t) (serial writes d s.log x) x p)
    (hfree : r.owner = none → r.value = serial writes d s.log x)
    (hothers : ∀ y, y ≠ x → (s.row y).HeldOk (writes t) (serial writes d s.log y) y (s.writer t) →
      (s.row y).HeldOk (writes t) (serial writes d s.log y) y p)
    (hphase : (s.setRow x r).PhaseOk writes t p)
    (hdrawn : ∀ stored c, s.writer t = .installing stored (some c) →
      (∃ stored, p = .installing stored (some c)) ∧ (c ≤ r.version ∨ r.owner = some t)) :
    ((s.setRow x r).setWriter t p).Ok writes d first := by
  have hself : ((s.setRow x r).setWriter t p).writer t = p := update_self ..
  have hrow : ((s.setRow x r).setWriter t p).row x = r := update_self ..
  have hrest {y : X} (hy : y ≠ x) : ((s.setRow x r).setWriter t p).row y = s.row y := update_of_ne hy ..
  refine h.of_change (t := t) rfl rfl (fun u hu => update_of_ne hu ..) (fun y => ?_) (fun y ho => ?_) (fun y ho => ?_) ?_
    (fun i stored heq y ho => ?_)
  · by_cases hy : y = x
    · rw [hy,hrow]
      exact .inr hm
    · exact .inl (hrest hy)
  · rw [hself]
    by_cases hy : y = x
    · subst hy
      rw [hrow] at ho ⊢
      exact hheld ho
    · rw [hrest hy] at ho ⊢
      exact ⟨(h.held y t ho).1,hothers y hy (h.held y t ho).2⟩
  · by_cases hy : y = x
    · subst hy
      rw [hrow] at ho ⊢
      exact hfree ho
    · rw [hrest hy] at ho ⊢
      exact h.free y ho
  · rw [hself]
    exact hphase
  · obtain ⟨hp,hx⟩ := hdrawn stored (first+i) heq
    rw [hself]
    by_cases hy : y = x
    · rw [hy,hrow]
      exact hx.imp_right fun ho => ⟨ho,hp⟩
    · rw [hrest hy]
      exact .inr ⟨ho,hp⟩

private theorem setRow_keep (s : Store T X V) (t : T) (x : X) (r : Row T V) : (s.setRow x r).setWriter t (s.writer t) = s.setRow x r := by
  rw [Store.setWriter]
  exact congrArg (fun w => { s.setRow x r with writer := w }) (update_eq_self t s.writer)

omit [DecidableEq T] in
private theorem setRow_owner {x y r} (h : r.owner = some t ∧ y = x ∨ (s.row y).owner = some t ∧ y ≠ x) :
    ((s.setRow x r).row y).owner = some t := by
  change (update s.row x r y).owner = some t
  rcases h with ⟨ho,rfl⟩ | ⟨ho,hy⟩
  · rwa [update_self]
  · rwa [update_of_ne hy]

/-- Drawing a timestamp: the writer holds every row it writes, so only those change in the log. -/
theorem Store.Ok.draw {stored} (h : s.Ok writes d first) (hp : s.writer t = .installing stored none) :
    Store.Ok writes d first { s.setWriter t (.installing stored (some s.tid)) with tid := s.tid+1, log := s.log ++ [t] } := by
  have hrows := h.phase t
  rw [hp] at hrows
  have hrows : ∀ x ∈ (writes t).rows, (s.row x).owner = some t := hrows
  have hother {y : X} (ho : (s.row y).owner ≠ some t) : serial writes d (s.log ++ [t]) y = serial writes d s.log y := by
    refine serial_append_unwritten fun u hu => ?_
    rw [mem_singleton.mp hu]
    exact fun hy => ho (hrows y hy)
  have hw (u : T) : update s.writer t (.installing stored (some s.tid)) u =
      if u = t then .installing stored (some s.tid) else s.writer u :=
    update_apply ..
  refine ⟨?_,fun y => Nat.lt_succ_of_lt (h.version y),fun y u ho => ?_,fun y ho => ?_,fun u => ?_,fun i u hi y hy => ?_⟩
  · change s.tid+1 = first+(s.log ++ [t]).length
    rw [length_append,length_singleton,h.tid,Nat.add_assoc]
  · refine ⟨(h.held y u ho).1,?_⟩
    change (s.row y).HeldOk (writes u) (serial writes d (s.log ++ [t]) y) y (update s.writer t _ u)
    rw [hw]
    split_ifs with hu
    · subst hu
      have hold := (h.held y u ho).2
      rw [hp] at hold
      refine ⟨hold.1,fun n hn => ?_⟩
      obtain rfl := some.inj hn
      exact ⟨h.version y,serial_last (h.held y u ho).1 (fun _ hv => absurd hv not_mem_nil)⟩
    · rw [hother fun heq => hu (some.inj (ho.symm.trans heq))]
      exact (h.held y u ho).2
  · change (s.row y).value = serial writes d (s.log ++ [t]) y
    rw [hother fun heq => some_ne_none t (heq.symm.trans ho)]
    exact h.free y ho
  · change Store.PhaseOk writes _ u (update s.writer t _ u)
    rw [hw]
    split_ifs with hu
    · exact Nat.lt_succ_self s.tid
    · have hold := h.phase u
      generalize s.writer u = p at hold
      cases p with
      | locking todo => exact hold
      | installing stored' c =>
        cases c with
        | none => exact hold
        | some c => exact Nat.lt_succ_of_lt hold
      | aborting => trivial
  · change first+i ≤ (s.row y).version ∨ (s.row y).owner = some u ∧ ∃ stored', update s.writer t _ u = .installing stored' (some (first+i))
    rw [hw]
    rcases Nat.lt_or_ge i s.log.length with hlt | hge
    · rw [getElem?_append_left hlt] at hi
      refine (h.logged i u hi y hy).imp_right fun hlog => ?_
      obtain ⟨ho,stored',heq⟩ := hlog
      refine ⟨ho,stored',?_⟩
      rw [if_neg]
      · exact heq
      · intro hu
        subst hu
        rw [hp] at heq
        cases heq
    · rw [getElem?_append_right hge,getElem?_singleton] at hi
      split_ifs at hi with hz
      obtain rfl := some.inj hi
      have hi : i = s.log.length := by omega
      rw [if_pos rfl,hi,← h.tid]
      exact .inr ⟨hrows y hy,stored,rfl⟩

theorem Store.Step.ok (hs : Step writes t s s') (h : s.Ok writes d first) : s'.Ok writes d first := by
  have hphase := h.phase t
  cases hs with
  | @lock x todo hp ho =>
    rw [hp] at hphase
    obtain ⟨hsub,hrows⟩ := hphase
    refine h.change ⟨fun u hu => (nomatch ho.symm.trans hu),fun u hu => (some.inj hu).symm,le_rfl,h.version x⟩
      (fun _ => ⟨hsub (mem_cons_self ..),h.free x ho⟩) nofun (fun y _ => ?_) ⟨fun y hy => hsub (mem_cons_of_mem x hy),fun y hy => ?_⟩ ?_
    · rw [hp]
      exact id
    · by_cases hyx : y = x
      · exact .inr (setRow_owner (.inl ⟨rfl,hyx⟩))
      · rcases hrows y hy with hmem | ho
        · exact .inl (mem_of_ne_of_mem hyx hmem)
        · exact .inr (setRow_owner (.inr ⟨ho,hyx⟩))
    · rw [hp]
      nofun
  | validated hp =>
    rw [hp] at hphase
    refine h.enter (by rw [hp]; nofun) (fun y _ => ⟨nofun,nofun⟩) fun y hy => ?_
    exact (hphase.2 y hy).resolve_left not_mem_nil
  | giveUp hp =>
    refine h.enter (by rw [hp]; nofun) (fun y => ?_) trivial
    rw [hp]
    exact id
  | @unlock x hp ho =>
    rw [← setRow_keep s t]
    have hheld := (h.held x t ho).2
    rw [hp] at hheld
    refine h.change ⟨fun u hu => (some.inj (ho.symm.trans hu)).symm,nofun,le_rfl,h.version x⟩ nofun (fun _ => hheld) (fun y _ => id) ?_ ?_
    · rw [hp]
      trivial
    · rw [hp]
      nofun
  | @store x stored c hp ho =>
    have hheld := (h.held x t ho).2
    rw [hp] at hheld hphase
    refine h.change ⟨fun u hu => (some.inj (ho.symm.trans hu)).symm,fun u hu => (some.inj (ho.symm.trans hu)).symm,le_rfl,h.version x⟩
      (fun _ => ⟨(h.held x t ho).1,fun _ => rfl,hheld.2⟩) (fun hn => nomatch ho.symm.trans hn) (fun y hy => ?_) ?_ ?_
    · rw [hp]
      rintro ⟨hst,hv⟩
      exact ⟨fun hmem => hst (mem_of_ne_of_mem hy hmem),hv⟩
    · cases c with
      | none =>
        intro y hy
        by_cases hyx : y = x
        · exact setRow_owner (.inl ⟨ho,hyx⟩)
        · exact setRow_owner (.inr ⟨hphase y hy,hyx⟩)
      | some c => exact hphase
    · rw [hp]
      intro stored' c' heq
      cases heq
      exact ⟨⟨_,rfl⟩,.inr ho⟩
  | draw hp => exact h.draw hp
  | @setVersion x stored c hp hx ho =>
    rw [← setRow_keep s t]
    have hheld := (h.held x t ho).2
    rw [hp] at hheld hphase
    obtain ⟨hlt,hser⟩ := hheld.2 c rfl
    refine h.change ⟨fun u hu => (some.inj (ho.symm.trans hu)).symm,nofun,hlt.le,hphase⟩ nofun
      (fun _ => (hheld.1 hx).trans hser.symm) (fun y _ => id) ?_ ?_
    · rw [hp]
      exact hphase
    · rw [hp]
      intro stored' c' heq
      cases heq
      exact ⟨⟨_,rfl⟩,.inl le_rfl⟩

structure Store.Later (s s' : Store T X V) : Prop where
  log : s.log <+: s'.log
  tid : s.tid ≤ s'.tid
  version : ∀ x, (s.row x).version ≤ (s'.row x).version

theorem Store.Step.later (hs : Step writes t s s') (h : s.Ok writes d first) : s.Later s' := by
  have hset {x : X} {r : Row T V} (hr : (s.row x).version ≤ r.version) (y : X) : (s.row y).version ≤ ((update s.row x r) y).version :=
    (forall_update_iff s.row fun y r => (s.row y).version ≤ r.version).mpr ⟨hr,fun _ _ => le_rfl⟩ y
  cases hs with
  | lock | unlock | store => exact ⟨prefix_rfl,le_rfl,hset le_rfl⟩
  | validated | giveUp => exact ⟨prefix_rfl,le_rfl,fun _ => le_rfl⟩
  | draw => exact ⟨prefix_append ..,Nat.le_succ _,fun _ => le_rfl⟩
  | @setVersion x stored c hp hx ho =>
    have hheld := (h.held x t ho).2
    rw [hp] at hheld
    exact ⟨prefix_rfl,le_rfl,hset (hheld.2 c rfl).1.le⟩

end Writers

section Readers
variable {writes : T → Update X V} {d : X → V} {first : Nat} {s s' : Store T X V} {r r' : Reader X V}

omit [DecidableEq T]

def Store.Below (writes : T → Update X V) (first : Nat) (s : Store T X V) (x : X) (v n : Nat) : Prop :=
  ∀ (i : Nat) t, s.log[i]? = some t → first+i < n → x ∈ (writes t).rows → first+i ≤ v

/-- A value that was read is what the log makes of its row up to the version observed, and unless
that is still to be compared, up to the start timestamp. -/
def Reader.Fresh (writes : T → Update X V) (d : X → V) (first : Nat) (s : Store T X V) (r : Reader X V) (todo : List (X × Seen)) : Prop :=
  ∀ x a, (x,a) ∈ r.values → ∃ v, (x,v) ∈ r.reads ∧ a = Update.serial writes d (s.log.take (v.version+1-first)) x ∧
    ((x,v) ∈ todo ∨ s.Below writes first x v.version r.startTid)

def Reader.PcOk (writes : T → Update X V) (d : X → V) (first : Nat) (s : Store T X V) (r : Reader X V) : Pc X → Prop
  | .starting _ v => r.startTid = 0 ∧ v.version < s.tid ∧ r.Fresh writes d first s []
  | .testing _ v | .hard _ v => v.version < s.tid ∧ r.Fresh writes d first s []
  | .checking _ v todo => v.version < r.startTid ∧ r.Fresh writes d first s todo
  | .comparing _ v y w todo => v.version < r.startTid ∧ r.Fresh writes d first s ((y,w) :: todo) ∧
      s.Below writes first y (s.row y).version r.startTid
  | .aborted => True
  | .running | .committed => r.Fresh writes d first s []

structure Reader.Ok (writes : T → Update X V) (d : X → V) (first : Nat) (s : Store T X V) (r : Reader X V) : Prop where
  start : r.startTid ≤ s.tid
  old : ∀ x v, (x,v) ∈ r.reads → v.version < r.startTid
  pc : r.PcOk writes d first s r.pc

omit [DecidableEq X] in
theorem Store.Below.later {x v v' n} (h : s.Below writes first x v n) (hl : s.Later s') (htid : s.tid = first+s.log.length)
    (hn : n ≤ s.tid) (hv : v ≤ v') : s'.Below writes first x v' n := by
  intro i t hi hlt hx
  have hlen : i < s.log.length := by omega
  obtain ⟨l,hl⟩ := hl.log
  rw [← hl,getElem?_append_left hlen] at hi
  exact (h i t hi hlt hx).trans hv

/-- A row that is found unlocked carries the timestamp of its last writer. -/
theorem Store.Ok.below (h : s.Ok writes d first) {x} (ho : (s.row x).owner = none) (n : Nat) :
    s.Below writes first x (s.row x).version n := by
  intro i t hi _ hx
  exact (h.logged i t hi x hx).resolve_right fun hr => nomatch ho.symm.trans hr.1

section
variable (h : r.Ok writes d first s)
include h

/-- A step of a writer keeps what holds of the reader. -/
theorem Reader.Ok.later (hl : s.Later s') (htid : s.tid = first+s.log.length) : r.Ok writes d first s' := by
  have hbelow {x : X} {v v' : Nat} (hb : s.Below writes first x v r.startTid) (hv : v ≤ v') : s'.Below writes first x v' r.startTid :=
    hb.later hl htid h.start hv
  have hfresh {todo : List (X × Seen)} (hf : r.Fresh writes d first s todo) : r.Fresh writes d first s' todo := by
    intro x a ha
    obtain ⟨v,hv,heq,hb⟩ := hf x a ha
    refine ⟨v,hv,?_,hb.imp_right fun hb => hbelow hb le_rfl⟩
    have hlt := h.old x v hv
    have hstart := h.start
    obtain ⟨l,hlog⟩ := hl.log
    rw [heq,← hlog,take_append_of_le_length (by omega)]
  refine ⟨h.start.trans hl.tid,h.old,?_⟩
  have hpc := h.pc
  generalize r.pc = pc at hpc
  match pc,hpc with
  | .running,hf | .committed,hf => exact hfresh hf
  | .starting _ _,⟨h0,hv,hf⟩ => exact ⟨h0,hv.trans_le hl.tid,hfresh hf⟩
  | .testing _ _,⟨hv,hf⟩ | .hard _ _,⟨hv,hf⟩ => exact ⟨hv.trans_le hl.tid,hfresh hf⟩
  | .checking _ _ _,⟨hv,hf⟩ => exact ⟨hv,hfresh hf⟩
  | .comparing _ _ y _ _,⟨hv,hf,hy⟩ => exact ⟨hv,hfresh hf,hbelow hy (hl.version y)⟩
  | .aborted,_ => trivial

theorem Reader.Ok.record {x v} (hv : v.version < r.startTid) (hf : r.Fresh writes d first s []) : (r.record x v).Ok writes d first s := by
  rw [Reader.record]
  split_ifs with hx
  · exact ⟨h.start,h.old,hf⟩
  · refine ⟨h.start,fun y w hm => ?_,fun y a ha => ?_⟩
    · rcases mem_append.mp hm with hm | hm
      · exact h.old y w hm
      · obtain ⟨rfl,rfl⟩ := Prod.mk.inj (mem_singleton.mp hm)
        exact hv
    · obtain ⟨w,hw,heq⟩ := hf y a ha
      exact ⟨w,mem_append_left _ hw,heq⟩

theorem Reader.Ok.go (hs : s.Ok writes d first) (hnext : r.go s = some r') : r'.Ok writes d first s := by
  have hpc := h.pc
  simp only [Reader.go] at hnext
  split at hnext
  · rename_i x v hp
    rw [hp] at hpc
    obtain ⟨h0,hv,hf⟩ := hpc
    -- nothing has been read before the first timestamp
    have hnone (y : X) (w : Seen) (hm : (y,w) ∈ r.reads) : False := Nat.not_lt_zero _ (h0 ▸ h.old y w hm)
    refine some.inj hnext ▸ ⟨le_rfl,fun y w hm => (hnone y w hm).elim,hv,fun y a ha => ?_⟩
    obtain ⟨w,hw,-⟩ := hf y a ha
    exact (hnone y w hw).elim
  · rename_i x v hp
    rw [hp] at hpc
    obtain ⟨hv,hf⟩ := hpc
    split_ifs at hnext with htry hsame
    · simp only [tryCheckOpacity,Bool.and_eq_true,decide_eq_true_eq] at htry
      exact some.inj hnext ▸ h.record htry.1 hf
    · exact some.inj hnext ▸ ⟨h.start,h.old,hf⟩
    · exact some.inj hnext ▸ ⟨h.start,h.old,hv,hf⟩
  · rename_i x v hp
    rw [hp] at hpc
    obtain ⟨hv,hf⟩ := hpc
    refine some.inj hnext ▸ ⟨le_rfl,fun y w hm => (h.old y w hm).trans_le h.start,hv,fun y a ha => ?_⟩
    obtain ⟨w,hw,heq,-⟩ := hf y a ha
    exact ⟨w,hw,heq,.inl hw⟩
  · rename_i x v hp
    rw [hp] at hpc
    exact some.inj hnext ▸ h.record hpc.1 hpc.2
  · rename_i x v y w todo hp
    rw [hp] at hpc
    obtain ⟨hv,hf⟩ := hpc
    obtain ⟨ho,rfl⟩ := ite_some_none_eq_some.mp hnext
    exact ⟨h.start,h.old,hv,hf,hs.below ho _⟩
  · rename_i x v y w todo hp
    rw [hp] at hpc
    obtain ⟨hv,hf,hy⟩ := hpc
    obtain ⟨hver,heq⟩ := ite_none_right_eq_some.mp hnext
    rw [hver] at hy
    refine some.inj heq ▸ ⟨h.start,h.old,hv,fun z a ha => ?_⟩
    obtain ⟨u,hu,hval,hb⟩ := hf z a ha
    refine ⟨u,hu,hval,?_⟩
    rcases hb with hmem | hb
    · rcases mem_cons.mp hmem with hyw | hmem
      · obtain ⟨rfl,rfl⟩ := Prod.mk.inj hyw
        exact .inr hy
      · exact .inl hmem
    · exact .inr hb
  · cases hnext

end

/-- The value of an unlocked row is what the log makes of it up to its version. -/
theorem Store.Ok.value_eq (hs : s.Ok writes d first) {x} (ho : (s.row x).owner = none) :
    (s.row x).value = serial writes d (s.log.take ((s.row x).version+1-first)) x := by
  have hver := hs.version x
  have htid := hs.tid
  have htake : serial writes d (s.log.take s.log.length) x = serial writes d (s.log.take ((s.row x).version+1-first)) x := by
    refine serial_take_eq (by omega) fun i t hge _ hi hx => ?_
    have := hs.below ho (first+i+1) i t hi (Nat.lt_succ_self _) hx
    omega
  rw [take_length] at htake
  exact (hs.free x ho).trans htake

theorem Reader.Ok.next {a} (h : r.Ok writes d first s) (hs : s.Ok writes d first)
    (hsteady : steady ⟨s,r⟩ (.reader a) = true) (hnext : r.next s a = some r') : r'.Ok writes d first s := by
  have hpc := h.pc
  cases a with
  | go => exact h.go hs hnext
  | observe x =>
    obtain ⟨⟨hp,ho⟩,heq⟩ := ite_none_right_eq_some.mp hnext
    rw [hp] at hpc
    refine some.inj heq ▸ ⟨h.start,h.old,?_⟩
    split_ifs with h0
    · exact ⟨h0,hs.version x,hpc⟩
    · exact ⟨hs.version x,hpc⟩
  | value x =>
    obtain ⟨⟨hp,-⟩,heq⟩ := ite_none_right_eq_some.mp hnext
    simp only [steady,Bool.and_eq_true,isNone_iff_eq_none,beq_iff_eq] at hsteady
    obtain ⟨ho,hlook⟩ := hsteady
    obtain ⟨l,l',hreads,-⟩ := lookup_eq_some_iff.mp hlook
    have hmem : (x,(s.row x).seen) ∈ r.reads := hreads ▸ mem_append_right l (mem_cons_self ..)
    rw [hp] at hpc
    refine some.inj heq ▸ ⟨h.start,h.old,?_⟩
    change Reader.PcOk writes d first s _ r.pc
    rw [hp]
    intro y a ha
    rcases mem_cons.mp ha with heq | ha
    · obtain ⟨rfl,rfl⟩ := Prod.mk.inj heq
      exact ⟨_,hmem,hs.value_eq ho,.inr (hs.below ho _)⟩
    · exact hpc y a ha
  | commit =>
    obtain ⟨hp,heq⟩ := ite_none_right_eq_some.mp hnext
    rw [hp] at hpc
    exact some.inj heq ▸ ⟨h.start,h.old,hpc⟩
  | abort =>
    obtain ⟨-,heq⟩ := ite_none_left_eq_some.mp hnext
    exact some.inj heq ▸ ⟨h.start,h.old,trivial⟩

/-- Between loads, all values belong to the state the start timestamp cuts from the log. -/
theorem Reader.Ok.serial (h : r.Ok writes d first s) (hf : r.Fresh writes d first s []) {x a} (ha : (x,a) ∈ r.values) :
    a = serial writes d (s.log.take (r.startTid-first)) x := by
  obtain ⟨v,hv,rfl,hb⟩ := hf x a ha
  have hlt := h.old x v hv
  have hb := hb.resolve_left not_mem_nil
  refine (serial_take_eq (by omega) fun i t hge hi hlog hx => ?_).symm
  have := hb i t hlog (by omega) hx
  omega

end Readers

theorem State.inv_start (writes : T → Update X V) (d : X → V) (version : X → Nat) (nonopaqueBit : X → Bool) {tid}
    (h : ∀ x, version x < tid) :
    (database writes d version nonopaqueBit tid).start.store.Ok writes d tid ∧
      (database writes d version nonopaqueBit tid).start.reader.Ok writes d tid
        (database writes d version nonopaqueBit tid).start.store := by
  refine ⟨⟨rfl,h,nofun,fun _ _ => rfl,fun t => ⟨List.Subset.refl _,fun x hx => .inl hx⟩,fun i t hi => ?_⟩,⟨Nat.zero_le _,?_,?_⟩⟩
  · exact absurd hi nofun
  all_goals exact fun _ _ hm => absurd hm not_mem_nil

/-- A transaction that only reads and commits without validation has read one state of the
database between two committed writers, in timestamp order, provided it reads each value from a
row that still carries the version it observed, unlocked. -/
theorem readonly_values_serial {writes : T → Update X V} {d : X → V} {version : X → Nat} {nonopaqueBit : X → Bool} {tid : Nat}
    {s : State T X V}
    (hv : ∀ x, version x < tid) (h : (database writes d version nonopaqueBit tid).Reached (fun s a => steady s a = true) s)
    (hc : s.reader.pc = .committed) :
    ∃ before after, s.store.log = before ++ after ∧ ∀ x a, (x,a) ∈ s.reader.values → a = Update.serial writes d before x := by
  have hinv : s.store.Ok writes d tid ∧ s.reader.Ok writes d tid s.store := by
    refine h.ofNext_invariant (I := fun s => s.store.Ok writes d tid ∧ s.reader.Ok writes d tid s.store)
      (State.inv_start writes d version nonopaqueBit hv) fun s a s' hI hP hnext => ?_
    cases a with
    | writer t a =>
      obtain ⟨store,hstore,rfl⟩ := Option.map_eq_some_iff.mp hnext
      have hstep := Store.Step.of_next hstore
      exact ⟨hstep.ok hI.1,hI.2.later (hstep.later hI.1) hI.1.tid⟩
    | reader a =>
      obtain ⟨reader,hreader,rfl⟩ := Option.map_eq_some_iff.mp hnext
      exact ⟨hI.1,hI.2.next hI.1 hP hreader⟩
  have hf := hinv.2.pc
  rw [hc] at hf
  exact ⟨_,_,(List.take_append_drop (s.reader.startTid-tid) s.store.log).symm,fun x a ha => hinv.2.serial hf ha⟩

end

def twoWriters : Fin 2 → Update Bool Nat
  | 0 => ⟨[false,true],fun _ => 1⟩
  | 1 => ⟨[true],fun _ => 2⟩

abbrev twoRows : Machine (State (Fin 2) Bool Nat) (Act (Fin 2) Bool) :=
  database twoWriters (fun _ => 0) (fun _ => 1) (fun _ => false) 3

/-- The second row is observed above the start timestamp, so the first is compared again. -/
def steadyRun {T : Type} (t : T) : List (Act T Bool) :=
  [.reader (.observe false),.reader .go,.reader .go,.reader (.value false),
    .writer t .lock,.writer t .validated,.writer t (.store true),.writer t .draw,.writer t (.setVersion true),
    .reader (.observe true),.reader .go,.reader .go,.reader .go,.reader .go,.reader .go,.reader (.value true),.reader .commit]

theorem readonly_values_serial_extended :
    let s := twoRows.play twoRows.start (steadyRun 1)
    s.reader.values = [(true,2),(false,0)] ∧ s.reader.startTid = 4 ∧
      ∃ before after, s.store.log = before ++ after ∧ ∀ x a,
        (x,a) ∈ s.reader.values → a = Update.serial twoWriters (fun _ => 0) before x := by
  have hreach := Machine.Reached.start.playIf (steadyRun 1)
      (show twoRows.playableIf steady twoRows.start (steadyRun 1) = true by decide +kernel)
  exact ⟨by decide +kernel,by decide +kernel,readonly_values_serial (fun _ => by decide) hreach (by decide +kernel)⟩

/-- Both rows are observed and one is read; then the writer of both installs; then the other is read. -/
def lateRun {T : Type} (t : T) : List (Act T Bool) :=
  [.reader (.observe false),.reader .go,.reader .go,.reader (.observe true),.reader .go,.reader (.value true),
    .writer t .lock,.writer t .lock,.writer t .validated,.writer t (.store false),.writer t .draw,.writer t (.setVersion false),
    .writer t (.store true),.writer t (.setVersion true),.reader (.value false),.reader .commit]

theorem readonly_values_torn :
    let s := twoRows.play twoRows.start (lateRun 0)
    twoRows.Reachable s ∧ s.reader.pc = .committed ∧
      ¬ ∃ before after, s.store.log = before ++ after ∧ ∀ x a,
        (x,a) ∈ s.reader.values → a = Update.serial twoWriters (fun _ => 0) before x := by
  refine ⟨Machine.Reachable.play .start (lateRun 0) (by decide +kernel),by decide +kernel,?_⟩
  rintro ⟨before,after,hlog,hval⟩
  have hlate := hval false 1 (by decide +kernel)
  have hearly := hval true 0 (by decide +kernel)
  have hlog : [0] = before ++ after := (show (twoRows.play twoRows.start (lateRun 0)).store.log = [0] by decide +kernel).symm.trans hlog
  cases before with
  | nil => exact absurd hlate (by decide)
  | cons t before =>
    obtain ⟨rfl,hrest⟩ := List.cons.inj hlog
    obtain ⟨rfl,-⟩ := List.append_eq_nil_iff.mp hrest.symm
    exact absurd hearly (by decide)

end AlNiCo.Sto.Opacity
