import AlNiCo.Sto.MvChain

/-! What `flatten` stores. Behind a flatten no version commits any more: the committed
versions it has passed carry its timestamp as read timestamp, and whoever links a version
between them meets one of these in `cp_lock` and gives up. -/
namespace AlNiCo.Sto.Mvcc
open Library DescendingChain List Option
open Function (update update_of_ne update_self)

open MvStatus

section Ranges
variable {T F α : Type} [DecidableEq T] [DecidableEq F] (P : Program T α)

/-- A transaction in `cp_lock` that has yet to look at a committed version from `b` on. -/
def Guarded (m : Memory T α) (b : Version T) : WritePc T → Prop
  | .wv1 _ => True
  | .wv2 (.load place) _ => Below P.wtid place b
  | .wv2 (.at h) stage => P.wtid b ≤ P.wtid h ∧ (stage = .stop → (m.status h).isCommitted = false)
  | _ => False

/-- From the full version `b` on and below `hi`, nothing commits any more. -/
structure Closed (s : State T F α) (b : Version T) (hi tid : Nat) : Prop where
  full : (s.memory.status b).isFull = true
  le : hi ≤ tid
  rtid : ∀ g, (s.memory.status g).isCommitted = true → P.wtid b ≤ P.wtid g → P.wtid g < hi → tid ≤ s.memory.rtid g
  guarded : ∀ u, .of u ∈ s.memory.chain → (s.memory.status (.of u)).isPending = true → P.wtid b < P.ts u → P.ts u < hi →
    Guarded P s.memory b (s.write u)

def Kept (s s' : State T F α) (b : Version T) (hi : Nat) : Prop :=
  ∀ g, P.wtid b ≤ P.wtid g → P.wtid g < hi →
    ((s'.memory.status g).isCommitted = true ↔ (s.memory.status g).isCommitted = true)

theorem MvStatus.isCommitted_of_isFull {x : MvStatus} (h : x.isFull = true) : x.isCommitted = true :=
  (Bool.and_eq_true_iff.mp h).1

theorem MvStatus.not_committed_of_pending {x : MvStatus} (h : x.isPending = true) : x.isCommitted = false := by
  cases x with
  | pending f => rfl
  | _ => cases h

variable {P} {s s' : State T F α} {b v : Version T} {hi tid : Nat} {x u : T} {who : Option T} {m m' : Memory T α} {pc pc' : WritePc T}

omit [DecidableEq T] in
theorem Evolves.isPending (h : Evolves who m m') (hp : (m'.status v).isPending = true) : (m.status v).isPending = true := by
  have hc := h.committed v
  have ha := h.aborted v
  cases hv : m.status v with
  | pending f => rfl
  | committed f | locked =>
    rw [hv] at hc
    rw [not_committed_of_pending hp] at hc
    cases hc rfl
  | aborted =>
    rw [ha hv] at hp
    cases hp

/-- Whoever is guarded stays so until it has aborted. -/
theorem Guarded.step (hg : Guarded P m b pc) (hs : WriteStep P x m pc m' pc') (hl : Descending P.wtid m.chain)
    (hw : WriteOk P m x pc) (hb : b ∈ m.chain) (hc : (m.status b).isCommitted = true) (hlt : P.wtid b < P.ts x)
    (hr : ∀ g, (m.status g).isCommitted = true → P.wtid b ≤ P.wtid g → P.wtid g < P.ts x → P.ts x < m.rtid g) :
    m'.status (.of x) = .aborted ∨ Guarded P m' b pc' := by
  cases hs with
  | wv1Load | wv1Pass => exact .inr trivial
  | wv1Done => exact .inr hlt
  | wv1Abort | wv2Disabled | wv2Read => exact .inl (setStatus_self _ _)
  | wv2Load hnext => exact .inr ⟨after_le hl hnext hb hg,nofun⟩
  | wv2End hnext =>
    obtain ⟨-,p,rfl,hp,-⟩ := hw
    exact absurd hg (after_eq_none hl (fun q hq => some.inj hq ▸ hp) hnext hb)
  | wv2Enabled | wv2Committed => exact .inr ⟨hg.1,nofun⟩
  | wv2Open hnot => exact .inr ⟨hg.1,fun _ => hnot⟩
  | wv2Unread hle => exact absurd hle (not_le.mpr (hr _ (hw.2.2.2 rfl) hg.1 hw.2.2.1))
  | wv2Stop hstop =>
    rw [hg.2 rfl] at hstop
    cases hstop
  | wv2Pass hnot =>
    refine .inr (lt_of_le_of_ne hg.1 (fun heq => ?_))
    rw [hl.eq_of_key_eq hb hw.2.1 heq,hnot] at hc
    cases hc
  | _ => cases hg

omit [DecidableEq T] in
theorem Guarded.mono (hg : Guarded P m b pc) (hw : WriteOk P m u pc)
    (h : ∀ g, P.wtid b ≤ P.wtid g → P.wtid g < P.ts u → (m'.status g).isCommitted = true → (m.status g).isCommitted = true) :
    Guarded P m' b pc := by
  cases pc with
  | wv1 w => trivial
  | wv2 w stage =>
    cases w with
    | load place => exact hg
    | «at» g =>
      refine ⟨hg.1,fun hstop => Bool.eq_false_iff.mpr (fun hc => ?_)⟩
      have hc' := h g hg.1 hw.2.2.1 hc
      rw [hg.2 hstop] at hc'
      cases hc'
  | _ => cases hg

namespace Closed

section
omit [DecidableEq T] [DecidableEq F]

/-- The range stays closed when nothing commits in it and new versions in it are guarded. -/
private theorem evolve (hc : Closed P s b hi tid) (hm : Evolves who s.memory s'.memory) (hk : Kept P s s' b hi)
    (hg : ∀ u, .of u ∈ s'.memory.chain → (s'.memory.status (.of u)).isPending = true → P.wtid b < P.ts u → P.ts u < hi →
      Guarded P s'.memory b (s'.write u)) : Closed P s' b hi tid where
  full := by
    rw [(hm.full b hc.full).1]
    exact hc.full
  le := hc.le
  rtid g hg hle hlt := (hc.rtid g ((hk g hle hlt).mp hg) hle hlt).trans (hm.rtid g)
  guarded := hg

private theorem turn (hc : Closed P s b hi tid) (hb : Base P s) (ht : Turn x s s')
    (hcommits : P.wtid b ≤ P.ts x → P.ts x < hi → (s'.memory.status (.of x)).isCommitted = true →
      (s.memory.status (.of x)).isCommitted = true)
    (hown : .of x ∈ s'.memory.chain → (s'.memory.status (.of x)).isPending = true → P.wtid b < P.ts x → P.ts x < hi →
      Guarded P s'.memory b (s'.write x)) : Closed P s' b hi tid ∧ Kept P s s' b hi := by
  have hk : Kept P s s' b hi := by
    intro g hle hlt
    refine ⟨fun hg => ?_,ht.memory.committed g⟩
    rcases ht.memory.commits g hg with hg' | ⟨t,ht',rfl⟩
    · exact hg'
    · obtain rfl := some.inj ht'
      exact hcommits hle hlt hg
  refine ⟨hc.evolve ht.memory hk (fun u hu hp hlt hlt' => ?_),hk⟩
  by_cases hux : u = x
  · subst hux
    exact hown hu hp hlt hlt'
  · rw [ht.write u hux]
    have hu' := ht.memory.new u (fun heq => hux (some.inj heq).symm) hu
    exact (hc.guarded u hu' (ht.memory.isPending hp) hlt hlt').mono (hb.write u)
      (fun g hle hlt'' hg => (hk g hle (hlt''.trans hlt')).mp hg)

private theorem flatTurn {f} (hc : Closed P s b hi tid) (hb : Base P s) (ht : FlatTurn f s s') :
    Closed P s' b hi tid ∧ Kept P s s' b hi := by
  have hk : Kept P s s' b hi := by
    intro g hle hlt
    refine ⟨fun hg => (ht.memory.commits g hg).resolve_right ?_,ht.memory.committed g⟩
    rintro ⟨t,ht',-⟩
    cases ht'
  refine ⟨hc.evolve ht.memory hk (fun u hu hp hlt hlt' => ?_),hk⟩
  rw [ht.write]
  rw [ht.chain] at hu
  exact (hc.guarded u hu (ht.memory.isPending hp) hlt hlt').mono (hb.write u)
    (fun g hle hlt'' hg => (hk g hle (hlt''.trans hlt')).mp hg)

end

omit [DecidableEq F] in
private theorem write {w : WritePc T} (hc : Closed P s b hi tid) (hb : Base P s) (hs : WriteStep P x s.memory (s.write x) m w) :
    Closed P { s with memory := m, write := update s.write x w } b hi tid ∧
      Kept P s { s with memory := m, write := update s.write x w } b hi := by
  have ht := hb.write_turn hs
  have hself : update s.write x w x = w := update_self _ _ _
  refine hc.turn hb ht (fun _ _ hx => ?_) (fun hmem hp hlt hlt' => ?_)
  · change (m.status (.of x)).isCommitted = true at hx
    rcases hs.status with heq | heq
    · exact heq ▸ hx
    · rw [heq,update_self] at hx
      cases hx
  · change Guarded P m b (update s.write x w x)
    rw [hself]
    by_cases hin : .of x ∈ s.memory.chain
    · have hbc := isCommitted_of_isFull hc.full
      have hg := hc.guarded x hin (ht.memory.isPending hp) hlt hlt'
      have hr : ∀ g, (s.memory.status g).isCommitted = true → P.wtid b ≤ P.wtid g → P.wtid g < P.ts x → P.ts x < s.memory.rtid g :=
        fun g hg hle hltg => (hlt'.trans_le hc.le).trans_le (hc.rtid g hg hle (hltg.trans hlt'))
      refine (hg.step hs hb.chain (hb.write x) (hb.mem_of_committed hbc) hbc hlt hr).resolve_left (fun ha => ?_)
      change (m.status (.of x)).isPending = true at hp
      rw [ha] at hp
      cases hp
    · rcases hs.links hin hmem with ⟨-,rfl⟩ | ⟨-,rfl⟩
      · trivial
      · exact hlt

/-- No step lets a version commit in a closed range. -/
theorem step (hc : Closed P s b hi tid) (hb : Base P s) (hs : Step P s s') : Closed P s' b hi tid ∧ Kept P s s' b hi := by
  cases hs with
  | find | read | flatten => exact ⟨⟨hc.full,hc.le,hc.rtid,hc.guarded⟩,fun _ _ _ => Iff.rfl⟩
  | check t v hr hw =>
    exact ⟨hc.evolve (.updateRtid (some t) _ _ _) (fun _ _ _ => Iff.rfl) hc.guarded,fun _ _ _ => Iff.rfl⟩
  | lock t hr hw =>
    refine hc.turn (x := t) hb ⟨.refl _ _,fun _ _ => rfl,fun _ hu => update_of_ne hu _ _,rfl⟩ (fun _ _ => id)
      (fun hmem hp hlt hlt' => ?_)
    have hg := hc.guarded t hmem hp hlt hlt'
    rw [hw] at hg
    cases hg
  | write t m w hstep => exact hc.write hb hstep
  | install t hw hr =>
    have ho := hb.write t
    rw [hw] at ho
    have hp : (s.memory.status (.of t)).isPending = true := by
      rw [ho.2]
      rfl
    have hg : P.wtid b < P.ts t → P.ts t < hi → False := by
      intro hlt hlt'
      have hg := hc.guarded t ho.1 hp hlt hlt'
      rw [hw] at hg
      cases hg
    refine hc.turn hb (hb.install_turn hw) (fun hle hlt' _ => ?_) (fun _ _ hlt hlt' => (hg hlt hlt').elim)
    refine (hg (wtid_lt_of_le (fun heq => ?_) hle) hlt').elim
    have hbc := isCommitted_of_isFull hc.full
    rw [heq,not_committed_of_pending hp] at hbc
    cases hbc
  | abort t hw =>
    refine hc.turn hb (hb.abort_turn hw) (fun _ _ hx => ?_) (fun _ hp _ _ => ?_)
    · rw [setStatus_self] at hx
      cases hx
    · rw [setStatus_self] at hp
      cases hp
  | flat f m c hstep => exact hc.flatTurn hb (hb.flat_turn hstep)

end Closed

end Ranges

section Values
variable {T F α : Type} [DecidableEq T] [DecidableEq F] (P : Program T α)

/-- The committed versions strictly between two timestamps, applied in ascending order. -/
def Memory.replay (m : Memory T α) (lo hi : Nat) (x : α) : α :=
  DescendingChain.replay P.wtid (fun v => (m.status v).isCommitted) (fun v => (P.updateOf v).apply) m.chain lo hi x

/-- `value` is what the committed versions below `hi` amount to, now and later. -/
def Reckoned (s : State T F α) (hi tid : Nat) (value : α) : Prop :=
  ∃ b, P.wtid b < hi ∧ Closed P s b hi tid ∧ value = s.memory.replay P (P.wtid b) hi (s.memory.value b)

/-- `value` is what the committed versions up to `fv` amount to. -/
def Settled (s : State T F α) (fv : Version T) (value : α) : Prop :=
  ∃ x, Reckoned P s (P.wtid fv) (P.wtid fv) x ∧ value = (P.updateOf fv).apply x

variable {P} {s s' : State T F α} {b v : Version T} {hi hi' tid : Nat} {x : α}

section
omit [DecidableEq T] [DecidableEq F]

theorem Base.eq_of_wtid_eq (hb : Base P s) (hv : (s.memory.status v).isCommitted = true) (hb' : b ∈ s.memory.chain)
    (h : P.wtid v = P.wtid b) : v = b := hb.chain.eq_of_key_eq (hb.mem_of_committed hv) hb' h

theorem Kept.replay (hk : Kept P s s' b hi) (hb : Base P s) (hb' : Base P s') :
    s'.memory.replay P (P.wtid b) hi x = s.memory.replay P (P.wtid b) hi x := by
  refine replay_congr hb'.chain hb.chain (fun g => ?_)
  rw [mem_window,mem_window]
  constructor
  · rintro ⟨-,hc,hlo,hhi⟩
    have hc' := (hk g hlo.le hhi).mp hc
    exact ⟨hb.mem_of_committed hc',hc',hlo,hhi⟩
  · rintro ⟨-,hc,hlo,hhi⟩
    have hc' := (hk g hlo.le hhi).mpr hc
    exact ⟨hb'.mem_of_committed hc',hc',hlo,hhi⟩

end

namespace Reckoned

theorem step (h : Reckoned P s hi tid x) (hb : Base P s) (hs : Step P s s') : Reckoned P s' hi tid x := by
  obtain ⟨b,hlt,hc,rfl⟩ := h
  obtain ⟨hc',hk⟩ := hc.step hb hs
  obtain ⟨who,hm⟩ := hb.evolves hs
  refine ⟨b,hlt,hc',?_⟩
  rw [hk.replay hb (hb.step hs),(hm.full b hc.full).2]

section
omit [DecidableEq T] [DecidableEq F]

/-- A full version is where a reckoning can start. -/
theorem fresh (hb : Base P s) (hfull : (s.memory.status v).isFull = true) (hlt : P.wtid v < tid) (hr : tid ≤ s.memory.rtid v) :
    Reckoned P s (P.wtid v+1) tid (s.memory.value v) := by
  have hv := hb.mem_of_committed (isCommitted_of_isFull hfull)
  refine ⟨v,Nat.lt_succ_self _,⟨hfull,hlt,fun g hg hle hlt' => ?_,fun u _ _ hlt' hlt'' => by omega⟩,?_⟩
  · rw [hb.eq_of_wtid_eq hg hv (by omega)]
    exact hr
  · exact (replay_eq_self (fun g _ _ hlo hhi => by omega)).symm

/-- What has aborted, or is not there, does not count. -/
theorem skip (h : Reckoned P s hi tid x) (hb : Base P s) (hle : hi ≤ hi') (hle' : hi' ≤ tid)
    (hnone : ∀ g ∈ s.memory.chain, hi ≤ P.wtid g → P.wtid g < hi' → s.memory.status g = .aborted) : Reckoned P s hi' tid x := by
  obtain ⟨b,hlt,hc,rfl⟩ := h
  have hbelow : ∀ g ∈ s.memory.chain, s.memory.status g ≠ .aborted → P.wtid g < hi' → P.wtid g < hi := by
    intro g hg hne hlt'
    by_contra hge
    exact hne (hnone g hg (not_lt.mp hge) hlt')
  have hcommitted : ∀ g, (s.memory.status g).isCommitted = true → P.wtid g < hi' → P.wtid g < hi := by
    intro g hg
    refine hbelow g (hb.mem_of_committed hg) (fun ha => ?_)
    rw [ha] at hg
    cases hg
  refine ⟨b,hlt.trans_le hle,⟨hc.full,hle',fun g hg hle hlt' => hc.rtid g hg hle (hcommitted g hg hlt'),fun u hu hp hlt' hlt'' => ?_⟩,?_⟩
  · refine hc.guarded u hu hp hlt' (hbelow _ hu (fun ha => ?_) hlt'')
    rw [ha] at hp
    cases hp
  · refine replay_congr hb.chain hb.chain (fun g => ?_)
    rw [mem_window,mem_window]
    exact ⟨fun ⟨hg,hk,hlo,hhi⟩ => ⟨hg,hk,hlo,hhi.trans_le hle⟩,fun ⟨hg,hk,hlo,hhi⟩ => ⟨hg,hk,hlo,hcommitted g hk hhi⟩⟩

/-- A committed version is applied. -/
theorem extend (h : Reckoned P s (P.wtid v) tid x) (hb : Base P s) (hv : (s.memory.status v).isCommitted = true)
    (hlt : P.wtid v < tid) (hr : tid ≤ s.memory.rtid v) : Reckoned P s (P.wtid v+1) tid ((P.updateOf v).apply x) := by
  obtain ⟨b,hbv,hc,rfl⟩ := h
  have hmem := hb.mem_of_committed hv
  refine ⟨b,hbv.trans (Nat.lt_succ_self _),⟨hc.full,hlt,fun g hg hle hlt' => ?_,fun u hu hp hlt' hlt'' => ?_⟩,?_⟩
  · rcases (Nat.lt_succ_iff.mp hlt').lt_or_eq with hlt' | heq
    · exact hc.rtid g hg hle hlt'
    · rw [hb.eq_of_wtid_eq hg hmem heq]
      exact hr
  · rcases (Nat.lt_succ_iff.mp hlt'').lt_or_eq with hlt'' | heq
    · exact hc.guarded u hu hp hlt' hlt''
    · rw [hb.eq_of_wtid_eq hv hu heq.symm,not_committed_of_pending hp] at hv
      cases hv
  · exact (replay_cons hb.chain hmem hv hbv (Nat.lt_succ_self _) (fun g _ _ hg => Nat.lt_succ_iff.mp hg)).symm

end

end Reckoned

theorem Settled.step (h : Settled P s v x) (hb : Base P s) (hs : Step P s s') : Settled P s' v x := by
  obtain ⟨y,hy,hx⟩ := h
  exact ⟨y,hy.step hb hs,hx⟩

end Values

section
variable {T α : Type} [DecidableEq T] (P : Program T α)

/-- The stack of a flatten: versions of the chain in ascending order, `fv` at the bottom. -/
structure Traced (m : Memory T α) (fv : Version T) (trace : List (Version T)) : Prop where
  ascending : trace.Pairwise (fun a b => P.wtid a < P.wtid b)
  mem : ∀ v ∈ trace, v ∈ m.chain
  last : trace.getLast? = some fv

namespace Traced
variable {P} {m m' : Memory T α} {fv h v : Version T} {trace : List (Version T)} {who : Option T}

section
omit [DecidableEq T]

theorem evolves (ht : Traced P m fv trace) (hm : Evolves who m m') : Traced P m' fv trace :=
  ⟨ht.ascending,fun v hv => hm.mem v (ht.mem v hv),ht.last⟩

theorem singleton (hfv : fv ∈ m.chain) : Traced P m fv [fv] :=
  ⟨pairwise_singleton _ _,fun _ hv => mem_singleton.mp hv ▸ hfv,rfl⟩

theorem eq_of_singleton (ht : Traced P m fv [h]) : h = fv := some.inj ht.last

theorem cons (ht : Traced P m fv (h :: trace)) (hv : v ∈ m.chain) (hlt : P.wtid v < P.wtid h) : Traced P m fv (v :: h :: trace) where
  ascending := by
    refine pairwise_cons.mpr ⟨fun g hg => ?_,ht.ascending⟩
    rcases mem_cons.mp hg with rfl | hg
    · exact hlt
    · exact hlt.trans ((pairwise_cons.mp ht.ascending).1 g hg)
  mem g hg := by
    rcases mem_cons.mp hg with rfl | hg
    · exact hv
    · exact ht.mem g hg
  last := getLast?_cons_cons.trans ht.last

theorem tail (ht : Traced P m fv (h :: v :: trace)) : Traced P m fv (v :: trace) :=
  ⟨(pairwise_cons.mp ht.ascending).2,fun g hg => ht.mem g (mem_cons_of_mem _ hg),getLast?_cons_cons.symm.trans ht.last⟩

theorem lt_of_mem (ht : Traced P m fv (h :: trace)) (hv : v ∈ trace) : P.wtid h < P.wtid v :=
  (pairwise_cons.mp ht.ascending).1 v hv

theorem lt_last (ht : Traced P m fv (h :: v :: trace)) : P.wtid h < P.wtid fv :=
  ht.lt_of_mem (mem_of_getLast? ht.tail.last)

theorem le_last (ht : Traced P m fv (h :: trace)) : P.wtid h ≤ P.wtid fv := by
  cases trace with
  | nil => rw [ht.eq_of_singleton]
  | cons v trace => exact ht.lt_last.le

end

end Traced

end

section Flattens
variable {T F α : Type} [DecidableEq T] [DecidableEq F] (P : Program T α)

def FlatPc.target : FlatPc T α → Option (Version T)
  | .idle => none
  | .back fv _ _ => some fv
  | .backLoad fv _ _ => some fv
  | .base fv _ _ => some fv
  | .walk fv _ _ _ => some fv
  | .wait fv _ _ => some fv
  | .apply fv _ _ _ => some fv
  | .cas fv _ => some fv
  | .store fv _ => some fv
  | .publish fv => some fv
  | .done => none

def FlatOk (s : State T F α) : FlatPc T α → Prop
  | .idle => True
  | .back fv curr trace => Traced P s.memory fv (curr :: trace)
  | .backLoad fv curr trace => Traced P s.memory fv trace ∧ trace.head? = some curr
  | .base fv curr trace => Traced P s.memory fv (curr :: trace) ∧ (s.memory.status curr).isFull = true
  | .walk fv value safe trace =>
    Traced P s.memory fv trace ∧ (∀ v ∈ trace, safe < P.wtid v) ∧ Reckoned P s (safe+1) (P.wtid fv) value
  | .wait fv value trace => Traced P s.memory fv trace ∧ ∀ h ∈ trace.head?, Reckoned P s (P.wtid h) (P.wtid fv) value
  | .apply fv value trace delta =>
    Traced P s.memory fv trace ∧ ∀ h ∈ trace.head?, Reckoned P s (P.wtid h) (P.wtid fv) value ∧
      (s.memory.status h).isCommitted = true ∧ (delta = false → (s.memory.status h).isFull = true)
  | .cas fv value => (s.memory.status fv).isFull = true ∨ Settled P s fv value
  | .store fv value => Settled P s fv value
  | .publish fv => Settled P s fv (s.memory.value fv)
  | .done => True

variable {P} {s s' : State T F α} {c c' : FlatPc T α} {fv v : Version T} {m m' : Memory T α}

/-- What a flatten knows stays true through the steps of others. -/
theorem FlatOk.step (ho : FlatOk P s c) (hb : Base P s) (hs : Step P s s')
    (hvalue : ∀ fv, c = .publish fv → s'.memory.value fv = s.memory.value fv) : FlatOk P s' c := by
  obtain ⟨who,hm⟩ := hb.evolves hs
  have hfull : ∀ v, (s.memory.status v).isFull = true → (s'.memory.status v).isFull = true := by
    intro v hv
    rw [(hm.full v hv).1]
    exact hv
  cases c with
  | idle | done => trivial
  | back fv curr trace => exact Traced.evolves ho hm
  | backLoad fv curr trace => exact ⟨ho.1.evolves hm,ho.2⟩
  | base fv curr trace => exact ⟨ho.1.evolves hm,hfull curr ho.2⟩
  | walk fv value safe trace => exact ⟨ho.1.evolves hm,ho.2.1,ho.2.2.step hb hs⟩
  | wait fv value trace => exact ⟨ho.1.evolves hm,fun h hh => (ho.2 h hh).step hb hs⟩
  | apply fv value trace delta =>
    refine ⟨ho.1.evolves hm,fun h hh => ?_⟩
    obtain ⟨hr,hc,hd⟩ := ho.2 h hh
    exact ⟨hr.step hb hs,hm.committed h hc,fun hdelta => hfull h (hd hdelta)⟩
  | cas fv value => exact ho.imp (hfull fv) (fun hset => hset.step hb hs)
  | store fv value => exact Settled.step ho hb hs
  | publish fv =>
    rw [FlatOk,hvalue fv rfl]
    exact Settled.step ho hb hs

section
omit [DecidableEq T] [DecidableEq F]

/-- The top of the stack is done with: it was the version itself, or the walk goes on above. -/
theorem flatOk_pop {value h trace} (ht : Traced P s.memory fv (h :: trace))
    (hlast : h = fv → (s.memory.status fv).isFull = true ∨ Settled P s fv value)
    (hnext : P.wtid h < P.wtid fv → Reckoned P s (P.wtid h+1) (P.wtid fv) value) : FlatOk P s (.pop fv value (P.wtid h) trace) := by
  cases trace with
  | nil => exact hlast ht.eq_of_singleton
  | cons v rest => exact ⟨ht.tail,fun g hg => ht.lt_of_mem hg,hnext ht.lt_last⟩

/-- A full version on top of the stack is where the reckoning starts anew. -/
theorem flatOk_restart {h trace} (hb : Base P s) (ht : Traced P s.memory fv (h :: trace))
    (hfull : (s.memory.status h).isFull = true) (hr : P.wtid fv ≤ s.memory.rtid h) :
    FlatOk P s (.pop fv (s.memory.value h) (P.wtid h) trace) :=
  flatOk_pop ht (fun heq => .inl (heq ▸ hfull)) (fun hlt => .fresh hb hfull hlt hr)

end

/-- What a flatten knows after a step of its own. -/
theorem FlatOk.advance (ho : FlatOk P s c) (hb : Base P s) (hs : Step P s s') (hstep : FlatStep P s.memory c m c')
    (hm : s'.memory = m) (hfv : ∀ fv, c.target = some fv → (s.memory.status fv).isCommitted = true) : FlatOk P s' c' := by
  obtain ⟨who,he⟩ := hb.evolves hs
  have hb' := hb.step hs
  cases hstep with
  | full hfull =>
    refine ⟨Traced.evolves ho he,?_⟩
    rw [hm]
    exact hfull
  | push hfull => exact ⟨Traced.evolves ho he,rfl⟩
  | @backLoad fv curr trace h hnext =>
    obtain ⟨ht,hhead⟩ := ho
    obtain ⟨rest,rfl⟩ := head?_eq_some_iff.mp hhead
    exact (ht.evolves he).cons (he.mem h (after_mem hnext)) (after_below hb.chain hnext)
  | @base fv curr trace =>
    obtain ⟨ht,hfull⟩ := ho
    obtain ⟨hstatus,hvalue⟩ := he.full curr hfull
    rw [← hstatus] at hfull
    rw [← hvalue]
    refine flatOk_restart hb' (ht.evolves he) hfull ?_
    rw [hm]
    exact le_updateRtid _ _
  | @settle fv value safe hnext trace prev hprev hle =>
    obtain ⟨ht,hsafe,hr⟩ := ho
    refine ⟨ht.evolves he,fun h hh => ?_⟩
    obtain rfl := some.inj hh
    -- nothing is linked between the last version done with and this one
    refine (hr.step hb hs).skip hb' (hsafe _ mem_cons_self) ht.le_last (fun g hg hge hlt => ?_)
    rw [hm] at hg
    have hgp : P.wtid g ≤ P.wtid prev := after_le hb.chain hprev hg hlt
    omega
  | @descend fv value safe hnext trace prev hprev hlt =>
    obtain ⟨ht,hsafe,hr⟩ := ho
    refine ⟨(ht.evolves he).cons (he.mem prev (after_mem hprev)) (after_below hb.chain hprev),fun g hg => ?_,hr.step hb hs⟩
    rcases mem_cons.mp hg with rfl | hg
    · exact hlt
    · exact hsafe g hg
  | @committed fv value hnext trace hc =>
    obtain ⟨ht,hr⟩ := ho
    refine ⟨ht.evolves he,fun h hh => ?_⟩
    obtain rfl := some.inj hh
    refine ⟨(hr _ rfl).step hb hs,he.committed _ hc,fun hdelta => ?_⟩
    rw [hm,isFull,hc,hdelta]
    rfl
  | @aborted fv value hnext trace ha =>
    obtain ⟨ht,hr⟩ := ho
    have ht' := ht.evolves he
    refine flatOk_pop ht' (fun heq => ?_) (fun hlt => ?_)
    · have hc := hfv fv rfl
      rw [← heq,ha] at hc
      cases hc
    · refine ((hr hnext rfl).step hb hs).skip hb' (Nat.le_succ _) hlt (fun g hg hge hlt => ?_)
      rw [hb'.chain.eq_of_key_eq hg (ht'.mem hnext mem_cons_self) (by omega)]
      exact he.aborted hnext ha
  | @apply fv value hnext trace delta =>
    obtain ⟨ht,hr⟩ := ho
    obtain ⟨hr,hc,hfull⟩ := hr hnext rfl
    have hr' := hr.step hb hs
    have hrtid : P.wtid fv ≤ s'.memory.rtid hnext := by
      rw [hm]
      exact le_updateRtid _ _
    cases delta with
    | true =>
      refine flatOk_pop (ht.evolves he) (fun heq => .inr ?_) (fun hlt => hr'.extend hb' (he.committed _ hc) hlt hrtid)
      obtain rfl := heq
      exact ⟨value,hr',rfl⟩
    | false =>
      obtain ⟨hstatus,hvalue⟩ := he.full hnext (hfull rfl)
      rw [if_neg Bool.false_ne_true,← hvalue]
      refine flatOk_restart hb' (ht.evolves he) ?_ hrtid
      rw [hstatus]
      exact hfull rfl
  | @lock fv value hd =>
    refine Settled.step (Or.resolve_left ho (fun hfull => ?_)) hb hs
    rw [hd] at hfull
    cases hfull
  | lost => trivial
  | @store fv value =>
    have hvalue : s'.memory.value fv = value := by
      rw [hm]
      exact update_self _ _ _
    rw [FlatOk,hvalue]
    exact Settled.step ho hb hs
  | publish => trivial

/-- A version becomes full when it commits as such or is published. -/
theorem Step.full (hs : Step P s s') (hb : Base P s) (hfull : (s'.memory.status v).isFull = true) :
    (s.memory.status v).isFull = true ∨ (P.updateOf v).flag ≠ .delta ∨ ∃ f, s.flat f = .publish v := by
  cases hs with
  | find | read | check | lock | flatten => exact .inl hfull
  | write t m w hstep =>
    rcases hstep.status with heq | heq
    · exact .inl (heq ▸ hfull)
    · change (m.status v).isFull = true at hfull
      rw [heq] at hfull
      exact .inl ((of_setStatus (isFull · = true) hfull).resolve_right nofun)
  | install t hw hr =>
    refine (of_setStatus (isFull · = true) hfull).imp_right (fun hv => .inl ?_)
    obtain ⟨rfl,hy⟩ := hv
    have ho := hb.write t
    rw [hw] at ho
    rw [ho.2] at hy
    intro hflag
    change (P.update t).flag = .delta at hflag
    rw [hflag] at hy
    cases hy
  | abort t hw => exact .inl ((of_setStatus (isFull · = true) hfull).resolve_right nofun)
  | flat f m c hstep =>
    generalize hpc : s.flat f = pc at hstep
    cases hstep with
    | lock hd => exact .inl ((of_setStatus (isFull · = true) hfull).resolve_right nofun)
    | publish =>
      refine (of_setStatus (isFull · = true) hfull).imp_right (fun hv => .inr ⟨f,?_⟩)
      rw [hpc,hv.1]
    | _ => exact .inl hfull

/-- A value changes when a flatten stores it. -/
theorem Step.stored (hs : Step P s s') (v : Version T) : s'.memory.value v = s.memory.value v ∧ s'.memory.stores v = s.memory.stores v ∨
      ∃ f, s.flat f = .store v (s'.memory.value v) ∧ s'.flat f = .publish v ∧ s'.memory.stores v = s.memory.stores v+1 := by
  cases hs with
  | find | read | check | lock | install | abort | flatten => exact .inl ⟨rfl,rfl⟩
  | write t m w hstep =>
    left
    generalize s.write t = old at hstep
    cases hstep <;> exact ⟨rfl,rfl⟩
  | flat f m c hstep =>
    have hself : update s.flat f c f = c := update_self _ _ _
    generalize hpc : s.flat f = pc at hstep
    cases hstep with
    | @store fv value =>
      by_cases hv : v = fv
      · subst hv
        refine .inr ⟨f,?_,hself,update_self _ _ _⟩
        change s.flat f = .store v (update s.memory.value v value v)
        rw [update_self,hpc]
      · exact .inl ⟨update_of_ne hv _ _,update_of_ne hv _ _⟩
    | _ => exact .inl ⟨rfl,rfl⟩

/-- A flatten waits, starts, or takes a step. -/
theorem Step.flat_cases (hs : Step P s s') (f : F) :
    s'.flat f = s.flat f ∨ (s.flat f = .idle ∧ ∃ fv, s.memory.status fv = .committed .delta ∧ s'.flat f = .back fv fv []) ∨
      FlatStep P s.memory (s.flat f) s'.memory (s'.flat f) := by
  cases hs with
  | flatten f' fv hf hd =>
    by_cases hff : f = f'
    · subst hff
      exact .inr (.inl ⟨hf,fv,hd,update_self _ _ _⟩)
    · exact .inl (update_of_ne hff _ _)
  | flat f' m c hstep =>
    by_cases hff : f = f'
    · subst hff
      refine .inr (.inr ?_)
      change FlatStep P s.memory (s.flat f) m (update s.flat f c f)
      rw [update_self]
      exact hstep
    · exact .inl (update_of_ne hff _ _)
  | _ => exact .inl rfl

theorem FlatStep.target (hs : FlatStep P m c m' c') (h : c'.target = some fv) : c.target = some fv := by
  have hpop : ∀ (fv' : Version T) (value : α) (safe : Nat) trace,
      (FlatPc.pop fv' value safe trace).target = some fv → some fv' = some fv := by
    intro fv' value safe trace h
    cases trace <;> exact h
  cases hs with
  | base | aborted | apply => exact hpop _ _ _ _ h
  | lost | publish => cases h
  | _ => exact h

variable (P) in
structure Flats (s : State T F α) : Prop where
  delta : ∀ v, (s.memory.status v).isDelta = true → (P.updateOf v).flag = .delta
  target : ∀ f fv, (s.flat f).target = some fv → (s.memory.status fv).isCommitted = true ∧ (P.updateOf fv).flag = .delta
  flat : ∀ f, FlatOk P s (s.flat f)
  given : ∀ v, (P.updateOf v).flag ≠ .delta → s.memory.value v = (P.updateOf v).apply P.first
  settled : ∀ v, (P.updateOf v).flag = .delta → (s.memory.status v).isFull = true → Settled P s v (s.memory.value v)
  once : ∀ v, s.memory.stores v = 0 ∨ s.memory.stores v = 1 ∧ ((s.memory.status v).isFull = true ∨ ∃ f, s.flat f = .publish v)

namespace Flats

omit [DecidableEq T] [DecidableEq F] in
theorem start : Flats P (.start P : State T F α) where
  delta v h := by
    cases v with
    | initial =>
      change (committed (P.updateOf .initial).flag).isDelta = true at h
      generalize (P.updateOf .initial).flag = f at h
      cases f with
      | delta => rfl
      | _ => cases h
    | of t => exact flag_eq_delta h
  target _ _ h := by cases h
  flat _ := trivial
  given _ _ := rfl
  settled v hflag hfull := by
    cases v with
    | initial =>
      change (committed (P.updateOf .initial).flag).isFull = true at hfull
      rw [hflag] at hfull
      cases hfull
    | of t => cases hfull
  once _ := .inl rfl

/-- While a flatten is about to publish a version, no other stores into it. -/
private theorem value_of_publish {f} (hb : Base P s) (hs : Step P s s') (hf : s.flat f = .publish v) :
    s'.memory.value v = s.memory.value v := by
  refine (hs.stored v).elim And.left (fun ⟨f',hf',_,_⟩ => ?_)
  have heq := hb.held_unique f f' v (by rw [hf]; rfl) (by rw [hf']; rfl)
  rw [← heq,hf] at hf'
  cases hf'

private theorem stores (h : Flats P s) (hb : Base P s) (hs : Step P s s') (v : Version T) :
    s'.memory.stores v = 0 ∨ s'.memory.stores v = 1 ∧ ((s'.memory.status v).isFull = true ∨ ∃ f, s'.flat f = .publish v) := by
  obtain ⟨who,hm⟩ := hb.evolves hs
  rcases hs.stored v with ⟨-,heq⟩ | ⟨f,hf,hf',heq⟩
  · rw [heq]
    refine (h.once v).imp_right (fun hv => ⟨hv.1,?_⟩)
    rcases hv.2 with hfull | ⟨f,hf⟩
    · rw [(hm.full v hfull).1]
      exact .inl hfull
    · rcases hs.flat_cases f with hsame | ⟨hidle,-⟩ | hstep
      · exact .inr ⟨f,hsame.trans hf⟩
      · rw [hf] at hidle
        cases hidle
      · left
        rw [hf] at hstep
        generalize s'.memory = m,s'.flat f = c at hstep
        cases hstep
        rw [setStatus_self]
        rfl
  · -- a flatten that is about to store holds a version nobody has stored into
    have hheld : (s.flat f).held = some v := by
      rw [hf]
      rfl
    have hzero := (h.once v).resolve_right (fun hv => ?_)
    · exact .inr ⟨by rw [heq,hzero],.inr ⟨f,hf'⟩⟩
    · rcases hv.2 with hfull | ⟨f',hpub⟩
      · rw [hb.held f v hheld] at hfull
        cases hfull
      · rw [hb.held_unique f f' v hheld (by rw [hpub]; rfl),hpub] at hf
        cases hf

theorem step (h : Flats P s) (hb : Base P s) (hs : Step P s s') : Flats P s' := by
  obtain ⟨who,hm⟩ := hb.evolves hs
  refine ⟨fun v hv => h.delta v (hm.delta v hv),fun f fv hf => ?_,fun f => ?_,fun v hv => ?_,fun v hflag hfull => ?_,fun v => ?_⟩
  · rcases hs.flat_cases f with heq | ⟨-,fv',hd,heq⟩ | hstep
    · rw [heq] at hf
      exact ⟨hm.committed fv (h.target f fv hf).1,(h.target f fv hf).2⟩
    · rw [heq] at hf
      obtain rfl := some.inj hf
      exact ⟨hm.committed _ (by rw [hd]; rfl),h.delta _ (by rw [hd]; rfl)⟩
    · have hf' := hstep.target hf
      exact ⟨hm.committed fv (h.target f fv hf').1,(h.target f fv hf').2⟩
  · rcases hs.flat_cases f with heq | ⟨-,fv,hd,heq⟩ | hstep
    · rw [heq]
      exact (h.flat f).step hb hs (fun fv hf => value_of_publish hb hs hf)
    · rw [heq]
      exact .singleton (hm.mem fv (hb.mem_of_committed (by rw [hd]; rfl)))
    · exact (h.flat f).advance hb hs hstep rfl (fun fv hfv => (h.target f fv hfv).1)
  · rcases hs.stored v with ⟨heq,-⟩ | ⟨f,hf,-,-⟩
    · rw [heq]
      exact h.given v hv
    · exact absurd (h.target f v (by rw [hf]; rfl)).2 hv
  · rcases hs.full hb hfull with hold | hne | ⟨f,hf⟩
    · rw [(hm.full v hold).2]
      exact (h.settled v hflag hold).step hb hs
    · exact absurd hflag hne
    · have ho := h.flat f
      rw [hf] at ho
      rw [value_of_publish hb hs hf]
      exact Settled.step ho hb hs
  · exact h.stores hb hs v

end Flats

end Flattens

section Stored
variable {T F α : Type} [DecidableEq T] [DecidableEq F] {P : Program T α} {s : State T F α} {v b : Version T}

theorem Update.apply_eq {u : Update α} (h : u.flag ≠ .delta) (x y : α) : u.apply x = u.apply y := by
  cases u with
  | delta operate => exact absurd rfl h
  | _ => rfl

omit [DecidableEq T] in
theorem wtid_pos_of_delta (h : (P.updateOf v).flag = .delta) : 0 < P.wtid v := by
  cases v with
  | initial =>
    rw [Program.updateOf] at h
    split at h <;> cases h
  | of t => exact P.ts_pos t

omit [DecidableEq T] [DecidableEq F] in
/-- A full version holds what all committed versions up to it amount to. -/
theorem Flats.value_eq (h : Flats P s) (hb : Base P s) (hv : (s.memory.status v).isFull = true) :
    s.memory.value v = s.memory.replay P 0 (P.wtid v+1) (s.memory.value .initial) := by
  -- by induction on the timestamp: a flattened delta has a full version below it
  induction hn : P.wtid v using Nat.strong_induction_on generalizing v with
  | _ n ih =>
    subst hn
    have hc := isCommitted_of_isFull hv
    have hlast : 0 < P.wtid v → s.memory.replay P 0 (P.wtid v+1) (s.memory.value .initial) =
        (P.updateOf v).apply (s.memory.replay P 0 (P.wtid v) (s.memory.value .initial)) := fun hpos =>
      replay_cons hb.chain (hb.mem_of_committed hc) hc hpos (Nat.lt_succ_self _) (fun g _ _ hg => Nat.lt_succ_iff.mp hg)
    by_cases hflag : (P.updateOf v).flag = .delta
    · obtain ⟨x,⟨b,hlt,hclosed,rfl⟩,hx⟩ := h.settled v hflag hv
      rw [hlast (wtid_pos_of_delta hflag),hx,ih _ hlt hclosed.full rfl]
      exact congrArg _ (replay_split hb.chain (Nat.zero_le _) hlt (fun g _ => Nat.lt_succ_iff)).symm
    · cases v with
      | initial => exact (replay_eq_self (fun g _ _ hlo hhi => absurd hlo (not_lt.mpr (Nat.lt_succ_iff.mp hhi)))).symm
      | of t =>
        rw [hlast (P.ts_pos t),h.given _ hflag]
        exact Update.apply_eq hflag _ _

variable (P) in
def NearestFull (m : Memory T α) (v b : Version T) : Prop :=
  b ∈ m.chain ∧ (m.status b).isFull = true ∧ P.wtid b < P.wtid v ∧
    ∀ g ∈ m.chain, (m.status g).isFull = true → P.wtid g < P.wtid v → P.wtid g ≤ P.wtid b

omit [DecidableEq T] [DecidableEq F] in
theorem Base.exists_nearestFull (hb : Base P s) (hpos : 0 < P.wtid v) : ∃ b, NearestFull P s.memory v b := by
  have hsome : (s.memory.chain.find? (fun g => decide (P.wtid g < P.wtid v) && (s.memory.status g).isFull)).isSome = true := by
    refine find?_isSome.mpr ⟨.initial,hb.initial,?_⟩
    rw [hb.initial_full,Bool.and_true]
    exact decide_eq_true hpos
  obtain ⟨b,hfind⟩ := isSome_iff_exists.mp hsome
  obtain ⟨hp,as,bs,hchain,has⟩ := find?_eq_some_iff_append.mp hfind
  obtain ⟨hlt,hfull⟩ := Bool.and_eq_true_iff.mp hp
  refine ⟨b,hb.mem_of_committed (isCommitted_of_isFull hfull),hfull,of_decide_eq_true hlt,fun g hg hgf hglt => ?_⟩
  have hd := hb.chain
  rw [hchain] at hg hd
  rcases mem_append.mp hg with hg | hg
  · have hnot := has g hg
    rw [hgf,decide_eq_true hglt] at hnot
    cases hnot
  · rcases mem_cons.mp hg with rfl | hg
    · exact le_rfl
    · exact ((pairwise_cons.mp (pairwise_append.mp hd).2.1).1 g hg).le

private theorem flats_of_reachable (h : (machine P).Reachable s) : Base P s ∧ Flats P s := by
  refine h.ofNext_invariant (I := fun s => Base P s ∧ Flats P s) ⟨.start,.start⟩ (fun s a s' hI hnext => ?_)
  have hs := step_of_next hnext
  exact ⟨hI.1.step hs,hI.2.step hI.1 hs⟩

/-- A full version is never changed. -/
private theorem full_of_leads {s'} (hb : Base P s) (hlead : (machine P).Leads s s') (hfull : (s.memory.status v).isFull = true) :
    (s'.memory.status v).isFull = true ∧ s'.memory.value v = s.memory.value v := by
  refine hlead.ofNext_monotone (I := Base P)
    (fun t => (t.memory.status v).isFull = true ∧ t.memory.value v = s.memory.value v) hb (fun t a t' ht hnext => ?_) ⟨hfull,rfl⟩
  have hs := step_of_next hnext
  obtain ⟨who,hm⟩ := ht.evolves hs
  refine ⟨ht.step hs,fun hv => ?_⟩
  obtain ⟨hstatus,hvalue⟩ := hm.full v hv.1
  rw [hstatus,hvalue]
  exact hv

/-- A value is stored at most once. The value of a flattened delta is what the committed
versions of any later history amount to, from the nearest full version below it up to and
including it. -/
theorem flatten_replays_history (h : (machine P).Reachable s) :
    (∀ v, s.memory.stores v ≤ 1) ∧
    ∀ v, (P.updateOf v).flag = .delta → (s.memory.status v).isFull = true → ∀ s', (machine P).Leads s s' →
      ∃ b, NearestFull P s'.memory v b ∧
        s.memory.value v = s'.memory.replay P (P.wtid b) (P.wtid v+1) (s'.memory.value b) := by
  obtain ⟨hb,hf⟩ := flats_of_reachable h
  refine ⟨fun v => ?_,fun v hflag hfull s' hlead => ?_⟩
  · rcases hf.once v with hzero | ⟨hone,-⟩
    · rw [hzero]
      exact Nat.zero_le 1
    · exact hone.le
  · obtain ⟨hb',hf'⟩ := flats_of_reachable (h.leads hlead)
    obtain ⟨hfull',hvalue⟩ := full_of_leads hb hlead hfull
    obtain ⟨b,hnear⟩ := hb'.exists_nearestFull (wtid_pos_of_delta hflag)
    refine ⟨b,hnear,?_⟩
    rw [← hvalue,hf'.value_eq hb' hfull',hf'.value_eq hb' hnear.2.1]
    exact replay_split hb'.chain (Nat.zero_le _) (hnear.2.2.1.trans (Nat.lt_succ_self _)) (fun g _ => Nat.lt_succ_iff)

def twoDeltas : Program (Fin 2) Nat where
  ts t := t+1
  ts_pos t := Nat.succ_pos t
  ts_injective _ _ h := Fin.ext (Nat.succ.inj h)
  readTs t := t+1
  readTs_le _ := le_rfl
  update := ![.delta (· + 1),.delta (· * 10)]
  first := 5
  firstDeleted := false

/-- Both commit, and then two flattens of the second one race. -/
def flattenTwice (t u : T) (f g : F) : List (Action T F) :=
  List.flatten [writeAlone t 9,writeAlone u 9,[.flatten f (.of u),.flatten g (.of u)],
    List.flatten (List.replicate 12 [.flat f,.flat g]),[.flat g,.flat f,.flat g,.flat g]]

def flattened (t u f g : Fin 2) : State (Fin 2) (Fin 2) Nat := (machine twoDeltas).play (.start twoDeltas) (flattenTwice t u f g)

theorem flatten_replays_two_deltas :
    (flattened 0 1 0 1).memory.value (.of 1) = 60 ∧ (flattened 0 1 0 1).memory.stores (.of 1) ≤ 1 ∧
    ∃ b, NearestFull twoDeltas (flattened 0 1 0 1).memory (.of 1) b ∧
      (flattened 0 1 0 1).memory.value (.of 1) =
        (flattened 0 1 0 1).memory.replay twoDeltas (twoDeltas.wtid b) (twoDeltas.wtid (.of 1)+1)
          ((flattened 0 1 0 1).memory.value b) := by
  have hreach : (machine twoDeltas).Reachable (flattened 0 1 0 1) :=
    Machine.Reachable.play .start (flattenTwice 0 1 0 1) (by decide +kernel)
  have hstatus : (flattened 0 1 0 1).memory.status (.of 1) = .committed .full := by decide +kernel
  obtain ⟨honce,hvalue⟩ := flatten_replays_history hreach
  refine ⟨by decide +kernel,honce (.of 1),hvalue (.of 1) rfl ?_ (flattened 0 1 0 1) (Machine.Leads.refl _ _)⟩
  rw [hstatus]
  rfl

end Stored

end AlNiCo.Sto.Mvcc
