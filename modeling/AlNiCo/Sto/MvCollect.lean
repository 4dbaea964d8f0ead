import AlNiCo.Sto.MvActors

/-! What the callbacks hand over. A version that a callback has passed is dead: it will not
become full any more. So two callbacks never meet, since each one stops at a full version. -/
namespace AlNiCo.Sto.MvGarbage
open Library DescendingChain Option Bool
open Function (update update_of_ne update_self)
open Mvcc (Version Program Memory MvStatus ReadPc WritePc FlatPc Action)

section Invariant
variable {T B α : Type} [DecidableEq T] [DecidableEq B] (P : Program T α)

namespace State
variable (s : State T B α)

/-- A version that will not become full any more. -/
def Dead (x : Version T) : Prop :=
  s.object.memory.status x = .aborted ∨ s.object.memory.status x = .committed .delta ∧ s.garbage x = true

def Behind (base h : Version T) : Prop :=
  ∀ x ∈ s.object.memory.chain, P.wtid h < P.wtid x → P.wtid x < P.wtid base → s.Dead x

def Reaching (base h : Version T) : Prop := h ∈ s.object.memory.chain ∧ P.wtid h < P.wtid base ∧ s.Behind P base h

def Follows (h : Version T) (next : Option (Version T)) : Prop :=
  (∀ n ∈ next, n ∈ s.object.memory.chain ∧ P.wtid n < P.wtid h) ∧
    ∀ x ∈ s.object.memory.chain, P.wtid x < P.wtid h → ∃ n ∈ next, P.wtid x ≤ P.wtid n

def WalkOk : GcPc T → Prop
  | .visit base h => s.Reaching P base h
  | .status base h next => s.Reaching P base h ∧ s.Follows P h next
  | .mark base h next st =>
    s.Reaching P base h ∧ s.Follows P h next ∧
      (st = .committed .delta ∨ st = s.object.memory.status h ∧ (st = .aborted ∨ st.isFull = true))
  | .marked base h next =>
    s.Reaching P base h ∧ s.Follows P h next ∧ (s.Dead h ∨ (s.object.memory.status h).isFull = true)
  | .done base h => s.Behind P base h
  | _ => True

end State

/-- The versions that a callback has handed over. -/
def GcPc.Covers : GcPc T → Version T → Prop
  | .visit base h,x => P.wtid h < P.wtid x ∧ P.wtid x < P.wtid base
  | .status base h _,x => P.wtid h < P.wtid x ∧ P.wtid x < P.wtid base
  | .mark base h _ _,x => P.wtid h < P.wtid x ∧ P.wtid x < P.wtid base
  | .marked base h _,x => P.wtid h < P.wtid x ∧ P.wtid x < P.wtid base
  | .done base h,x => P.wtid h ≤ P.wtid x ∧ P.wtid x < P.wtid base
  | _,_ => False

/-- A callback for `h`. Transactions that it does not wait for stay above `h`, and so do
background flattens; once it has started, nobody writes below `h` any more. -/
structure CallbackOk (s : State T B α) (c : Caller T B) (h : Version T) : Prop where
  full : (s.object.memory.status h).isFull = true
  reads : ∀ t, s.phase t = .active → s.waits c (.inl t) = false → P.wtid h ≤ P.readTs t → Seeing P h (s.object.read t)
  scans : ∀ b, s.waits c (.inr b) = false →
    Scanning P h (s.scan b) ∧ ∀ fv, (s.object.flat (.inr b)).target = some fv → P.wtid h ≤ P.wtid fv
  frozen : s.gc c ≠ .registered h → ∀ t, s.phase t = .active → s.drawn t = true → P.wtid h ≤ P.ts t
  walk : s.WalkOk P (s.gc c)

structure Inv (s : State T B α) : Prop where
  actors : Actors P s
  callback : ∀ c h, (s.gc c).base = some h → CallbackOk P s c h
  unique : ∀ c c' h, (s.gc c).base = some h → (s.gc c').base = some h → c = c'
  handed : ∀ v ∈ s.handed, ∃ c, (s.gc c).Covers P v
  nodup : s.handed.Nodup

structure Keeps (s s' : State T B α) (h : Version T) : Prop where
  mem : ∀ x ∈ s.object.memory.chain, x ∈ s'.object.memory.chain
  below : ∀ x ∈ s'.object.memory.chain, P.wtid x < P.wtid h → x ∈ s.object.memory.chain
  dead : ∀ x, s.Dead x → s'.Dead x
  aborted : ∀ x, s.object.memory.status x = .aborted → s'.object.memory.status x = .aborted
  full : ∀ x, (s.object.memory.status x).isFull = true → s'.object.memory.status x = s.object.memory.status x

namespace Keeps
variable {P} {s s' : State T B α} {base h : Version T} {next : Option (Version T)} {pc : GcPc T}

section
omit [DecidableEq T] [DecidableEq B]

section
variable (hk : Keeps P s s' base)
include hk

theorem behind (hb : s.Behind P base h) : s'.Behind P base h :=
  fun x hx hlo hhi => hk.dead x (hb x (hk.below x hx hhi) hlo hhi)

theorem reaching (hr : s.Reaching P base h) : s'.Reaching P base h :=
  ⟨hk.mem h hr.1,hr.2.1,hk.behind hr.2.2⟩

theorem follows (hlt : P.wtid h < P.wtid base) (hf : s.Follows P h next) : s'.Follows P h next :=
  ⟨fun n hn => ⟨hk.mem n (hf.1 n hn).1,(hf.1 n hn).2⟩,fun x hx hxh => hf.2 x (hk.below x hx (hxh.trans hlt)) hxh⟩

theorem walk (hbase : pc.base = some base) (hw : s.WalkOk P pc) : s'.WalkOk P pc := by
  cases pc with
  | idle | registered => trivial
  | visit b h =>
    cases hbase
    exact hk.reaching hw
  | status b h next =>
    cases hbase
    exact ⟨hk.reaching hw.1,hk.follows hw.1.2.1 hw.2⟩
  | mark b h next st =>
    cases hbase
    refine ⟨hk.reaching hw.1,hk.follows hw.1.2.1 hw.2.1,hw.2.2.imp_right (fun hst => ⟨?_,hst.2⟩)⟩
    obtain ⟨rfl,hst⟩ := hst
    exact hst.elim (fun ha => (ha.trans (hk.aborted h ha).symm)) (fun hfull => (hk.full h hfull).symm)
  | marked b h next =>
    cases hbase
    refine ⟨hk.reaching hw.1,hk.follows hw.1.2.1 hw.2.1,hw.2.2.imp (hk.dead h) (fun hfull => ?_)⟩
    rw [hk.full h hfull]
    exact hfull
  | done b h =>
    cases hbase
    exact hk.behind hw

end

end

/-- A step on the object, in which nobody links below `h` and no flatten locks garbage. -/
theorem of_step {o} (hb : Mvcc.Base P s.object) (hs : Mvcc.Step P s.object o)
    (hcas : ∀ f v x, s.object.flat f = .cas v x → o.flat f = .store v x → s.garbage v = false)
    (hnew : ∀ x ∈ o.memory.chain, P.wtid x < P.wtid h → x ∈ s.object.memory.chain) : Keeps P s (s.withObject o) h := by
  obtain ⟨who,hm⟩ := hb.evolves hs
  refine ⟨hm.mem,hnew,fun x hx => ?_,hm.aborted,fun x hx => (hm.full x hx).1⟩
  refine hx.imp (hm.aborted x) (fun hd => ?_)
  rcases hs.status_cases hb x with heq | ⟨hp,-⟩ | ⟨-,-,f,y,hf,hf'⟩ | ⟨hl,-⟩
  · refine ⟨heq.trans hd.1,?_⟩
    change s.keptGarbage o.memory x = true
    rw [State.keptGarbage,hd.2,heq,decide_eq_true rfl]
    rfl
  · rw [hd.1] at hp
    cases hp
  · rw [hcas f x y hf hf'] at hd
    cases hd.2
  · rw [hd.1] at hl
    cases hl

end Keeps

section
variable {P} {s : State T B α} {base x : Version T}

omit [DecidableEq T] in
theorem GcPc.Covers.exists_base {pc : GcPc T} (hc : pc.Covers P x) : ∃ b, pc.base = some b := by
  cases pc with
  | idle => exact hc.elim
  | _ => exact ⟨_,rfl⟩

section
omit [DecidableEq T] [DecidableEq B]

/-- Above what a callback has handed over, everything up to its own version is dead. -/
theorem GcPc.Covers.dead {pc} (hc : pc.Covers P x) (hbase : pc.base = some base) (hw : s.WalkOk P pc) :
    P.wtid x < P.wtid base ∧ s.Behind P base x := by
  cases pc with
  | idle | registered => exact hc.elim
  | visit b h =>
    cases hbase
    exact ⟨hc.2,fun y hy hlo hhi => hw.2.2 y hy (hc.1.trans hlo) hhi⟩
  | status b h n | mark b h n st | marked b h n =>
    cases hbase
    exact ⟨hc.2,fun y hy hlo hhi => hw.1.2.2 y hy (hc.1.trans hlo) hhi⟩
  | done b h =>
    cases hbase
    exact ⟨hc.2,fun y hy hlo hhi => hw y hy (hc.1.trans_lt hlo) hhi⟩

theorem State.not_dead_of_full (hfull : (s.object.memory.status x).isFull = true) : ¬s.Dead x := by
  rintro (ha | ⟨hd,-⟩)
  · rw [ha] at hfull
    cases hfull
  · rw [hd] at hfull
    cases hfull

end

end

namespace Inv
variable {P} {s s' : State T B α} {o : Mvcc.State T (T ⊕ B) α} {t : T} {a : Action T (T ⊕ B)}

section
omit [DecidableEq T] [DecidableEq B]

theorem start : Inv P (.start P : State T B α) where
  actors := .start
  callback _ _ h := by cases h
  unique _ _ _ h := by cases h
  handed _ h := by cases h
  nodup := List.nodup_nil

private theorem carry (h : Inv P s) (hact : Actors P s') (hgc : s'.gc = s.gc) (hhanded : s'.handed = s.handed)
    (hcb : ∀ c v, (s.gc c).base = some v → CallbackOk P s c v → CallbackOk P s' c v) : Inv P s' where
  actors := hact
  callback c v hv := by
    rw [hgc] at hv
    exact hcb c v hv (h.callback c v hv)
  unique c c' v hv hv' := by
    rw [hgc] at hv hv'
    exact h.unique c c' v hv hv'
  handed := by
    rw [hgc,hhanded]
    exact h.handed
  nodup := by
    rw [hhanded]
    exact h.nodup

end

private theorem withObject (h : Inv P s) (hact : Actors P (s.withObject o)) (hs : Mvcc.Step P s.object o)
    (hcas : ∀ f v x, s.object.flat f = .cas v x → o.flat f = .store v x → s.garbage v = false)
    (hnew : ∀ x ∈ o.memory.chain, x ∈ s.object.memory.chain ∨ ∃ t, x = .of t ∧ s.phase t = .active ∧ s.drawn t = true)
    (hreads : ∀ t v, s.phase t = .active → (s.object.memory.status v).isFull = true → P.wtid v ≤ P.readTs t →
      Seeing P v (s.object.read t) → Seeing P v (o.read t))
    (htarget : ∀ b fv, (o.flat (.inr b)).target = some fv → (s.object.flat (.inr b)).target = some fv ∨
      ∀ c v, (s.gc c).base = some v → s.waits c (.inr b) = false → P.wtid v ≤ P.wtid fv) : Inv P (s.withObject o) := by
  refine h.carry hact rfl rfl (fun c v hv hok => ?_)
  obtain ⟨who,hm⟩ := h.actors.base.evolves hs
  refine ⟨?_,fun t ht hw hle => hreads t v ht hok.full hle (hok.reads t ht hw hle),fun b hb => ⟨(hok.scans b hb).1,fun fv hfv => ?_⟩,
    hok.frozen,?_⟩
  · change (o.memory.status v).isFull = true
    rw [(hm.full v hok.full).1]
    exact hok.full
  · exact (htarget b fv hfv).elim ((hok.scans b hb).2 fv) (fun hall => hall c v hv hb)
  · by_cases hreg : s.gc c = .registered v
    · change State.WalkOk P _ (s.gc c)
      rw [hreg]
      trivial
    · refine (Keeps.of_step h.actors.base hs hcas (fun x hx hlt => (hnew x hx).resolve_right ?_)).walk hv hok.walk
      rintro ⟨t,rfl,hphase,hdrawn⟩
      exact absurd hlt (not_lt.mpr (hok.frozen hreg t hphase hdrawn))

theorem own (h : Inv P s) (hphase : s.phase t = .active) (htarget : (s.object.flat (.inl t)).target = none)
    (hs : Mvcc.OwnStep P s.object t a o) (hstep : Mvcc.Step P s.object o) (hlock : a = .lock t → s.drawn t = true) :
    Inv P (s.withObject o) := by
  have ht := h.actors.base.own_turn hs
  have hact := h.actors.own hphase htarget hs hstep hlock
  refine h.withObject hact hstep (fun f v x hf hf' => ?_) (fun x hx => ?_) (fun u v hu hfull hle hsee => ?_) (fun b fv hb => .inl ?_)
  · rw [ht.flat,hf] at hf'
    cases hf'
  · cases x with
    | initial => exact .inl h.actors.base.initial
    | of u =>
      by_cases hut : u = t
      · subst hut
        refine .inr ⟨u,rfl,hphase,?_⟩
        by_contra hnot
        exact (hact.undrawn u (eq_false_of_not_eq_true hnot)).1 hx
      · exact .inl (ht.memory.new u (fun heq => hut (some.inj heq).symm) hx)
  · by_cases hut : u = t
    · subst hut
      exact hsee.own h.actors.base hfull hle hs
    · rw [ht.read u hut]
      exact hsee
  · rw [ht.flat] at hb
    exact hb

theorem flat {f m c} (h : Inv P s) (hs : Mvcc.FlatStep P s.object.memory (s.object.flat f) m c)
    (hcas : ∀ v x, s.object.flat f = .cas v x → c = .store v x → s.garbage v = false) :
    Inv P (s.withObject { s.object with memory := m, flat := update s.object.flat f c }) := by
  have ht := h.actors.base.flat_turn hs
  refine h.withObject (h.actors.flat hs) (.flat f m c hs) (fun f' v x hf hf' => ?_) (fun x hx => .inl (ht.chain ▸ hx))
    (fun _ _ _ _ _ hsee => hsee) (fun b fv hb => .inl ?_)
  · change update s.object.flat f c f' = _ at hf'
    by_cases hff : f' = f
    · subst hff
      rw [update_self] at hf'
      exact hcas v x hf hf'
    · rw [update_of_ne hff,hf] at hf'
      cases hf'
  · change (update s.object.flat f c (.inr b)).target = _ at hb
    by_cases hff : .inr b = f
    · subst hff
      rw [update_self] at hb
      exact hs.target hb
    · rw [update_of_ne hff] at hb
      exact hb

theorem startFlatten {f fv} (h : Inv P s) (hidle : s.object.flat f = .idle) (hd : s.object.memory.status fv = .committed .delta)
    (hleft : ∀ t, f = .inl t → s.phase t = .active ∧ seen (s.object.read t) = some fv)
    (hright : ∀ b, f = .inr b → s.scan b = .flatten ∧ ∀ c v, (s.gc c).base = some v → s.waits c (.inr b) = false → P.wtid v ≤ P.wtid fv) :
    Inv P (s.withObject { s.object with flat := update s.object.flat f (.back fv fv []) }) := by
  refine h.withObject (h.actors.startFlatten hidle hd hleft (fun b hf => (hright b hf).1)) (.flatten f fv hidle hd)
    (fun f' v x hf hf' => ?_) (fun x hx => .inl hx) (fun _ _ _ _ _ hsee => hsee) (fun b fv' hb => ?_)
  · change update s.object.flat f _ f' = _ at hf'
    by_cases hff : f' = f
    · rw [hff,hidle] at hf
      cases hf
    · rw [update_of_ne hff,hf] at hf'
      cases hf'
  · change (update s.object.flat f _ (.inr b)).target = _ at hb
    by_cases hff : .inr b = f
    · subst hff
      rw [update_self] at hb
      cases hb
      exact .inr (hright b rfl).2
    · rw [update_of_ne hff] at hb
      exact .inl hb

omit [DecidableEq T] in
theorem setScan {b c} (h : Inv P s) (hact : Actors P (s.setScan b c))
    (hscan : ∀ v, (s.object.memory.status v).isFull = true → Scanning P v (s.scan b) → Scanning P v c) :
    Inv P (s.setScan b c) := by
  refine h.carry hact rfl rfl (fun c' v hv hok => ⟨hok.full,hok.reads,fun b' hb' => ⟨?_,(hok.scans b' hb').2⟩,hok.frozen,hok.walk⟩)
  change Scanning P v (update s.scan b c b')
  by_cases hbb : b' = b
  · subst hbb
    rw [update_self]
    exact hscan v hok.full (hok.scans b' hb').1
  · rw [update_of_ne hbb]
    exact (hok.scans b' hb').1

section
omit [DecidableEq B]

theorem begin (h : Inv P s) (ht : s.phase t = .fresh) : Inv P { s with phase := update s.phase t .active } := by
  obtain ⟨hread,hdrawn⟩ := h.actors.fresh t ht
  refine h.carry (h.actors.begin ht) rfl rfl (fun c v hv hok => ⟨hok.full,fun u hu hw hle => ?_,hok.scans,fun hreg u hu hd => ?_,hok.walk⟩)
  · by_cases hut : u = t
    · rw [hut]
      change Seeing P v (s.object.read t)
      rw [hread]
      trivial
    · exact hok.reads u ((update_of_ne hut _ _).symm.trans hu) hw hle
  · by_cases hut : u = t
    · rw [hut,show s.drawn t = false from hdrawn] at hd
      cases hd
    · exact hok.frozen hreg u ((update_of_ne hut _ _).symm.trans hu) hd

theorem draw (h : Inv P s) (hphase : s.phase t = .active) (htid : s.tid ≤ P.ts t) :
    Inv P { s with tid := P.ts t+1, drawn := update s.drawn t true } := by
  refine h.carry (h.actors.draw hphase htid) rfl rfl (fun c v hv hok => ⟨hok.full,hok.reads,hok.scans,fun hreg u hu hd => ?_,hok.walk⟩)
  by_cases hut : u = t
  · subst hut
    -- a full version was drawn for earlier
    cases v with
    | initial => exact Nat.zero_le _
    | of w =>
      have hmem := h.actors.base.mem_of_committed (Mvcc.MvStatus.isCommitted_of_isFull hok.full)
      have hdrawn : s.drawn w = true := by
        by_contra hnot
        exact (h.actors.undrawn w (eq_false_of_not_eq_true hnot)).1 hmem
      exact (h.actors.tid w hdrawn).le.trans htid
  · exact hok.frozen hreg u hu ((update_of_ne hut _ _).symm.trans hd)

theorem finish (h : Inv P s) (hwrite : writeOver (s.object.write t) = true) (htarget : (s.object.flat (.inl t)).target = none) :
    Inv P { s with phase := update s.phase t .finished } :=
  h.carry (h.actors.finish hwrite htarget) rfl rfl (fun _ _ _ hok => ⟨hok.full,fun u hu => hok.reads u (of_update hu nofun).2,
    hok.scans,fun hreg u hu => hok.frozen hreg u (of_update hu nofun).2,hok.walk⟩)

end

theorem register {c v} (h : Inv P s) (hidle : s.gc c = .idle)
    (hfull : (s.object.memory.status v).isFull = true) (hnone : ∀ c', (s.gc c').base ≠ some v)
    (hcaller : (∃ t, c = .install t ∧ s.object.write t = .installed) ∨ ∃ f, c = .flatten f ∧ s.object.flat f = .done) :
    Inv P (s.register c v) := by
  have hself : (s.register c v).gc c = .registered v := update_self _ _ _
  have hother : ∀ c', c' ≠ c → (s.register c v).gc c' = s.gc c' := fun c' hc' => update_of_ne hc' _ _
  refine ⟨h.actors.callback (fun c' hc' => ?_),fun c' v' hv' => ?_,fun c₁ c₂ v' h₁ h₂ => ?_,fun x hx => ?_,h.nodup⟩
  · by_cases heq : c' = c
    · exact .inr (heq ▸ hcaller)
    · exact .inl ((hother c' heq).trans hc')
  · by_cases heq : c' = c
    · subst heq
      rw [hself] at hv'
      cases hv'
      have hwaits : (s.register c' v).waits c' = s.running := update_self _ _ _
      refine ⟨hfull,fun t ht hw => ?_,fun b hb => ?_,fun hreg => absurd hself hreg,by rw [hself]; trivial⟩
      · rw [hwaits] at hw
        exact absurd ht (of_decide_eq_false hw)
      · rw [hwaits] at hb
        change (s.scan b).running = false at hb
        refine ⟨?_,fun fv hfv => ?_⟩
        · change Scanning P v (s.scan b)
          generalize s.scan b = pc at hb
          cases pc with
          | walk => cases hb
          | _ => trivial
        · rw [h.actors.background b fv hfv] at hb
          cases hb
    · rw [hother c' heq] at hv'
      obtain ⟨hok,hreads,hscans,hfrozen,hwalk⟩ := h.callback c' v' hv'
      have hwaits : (s.register c v).waits c' = s.waits c' := update_of_ne heq _ _
      rw [← hother c' heq] at hfrozen hwalk
      rw [← hwaits] at hreads hscans
      exact ⟨hok,hreads,hscans,hfrozen,hwalk⟩
  · by_cases e₁ : c₁ = c <;> by_cases e₂ : c₂ = c
    · exact e₁.trans e₂.symm
    · rw [e₁,hself] at h₁
      cases h₁
      rw [hother c₂ e₂] at h₂
      exact absurd h₂ (hnone c₂)
    · rw [e₂,hself] at h₂
      cases h₂
      rw [hother c₁ e₁] at h₁
      exact absurd h₁ (hnone c₁)
    · rw [hother c₁ e₁] at h₁
      rw [hother c₂ e₂] at h₂
      exact h.unique c₁ c₂ v' h₁ h₂
  · obtain ⟨c',hc'⟩ := h.handed x hx
    refine ⟨c',?_⟩
    rw [hother c']
    · exact hc'
    · rintro rfl
      rw [hidle] at hc'
      exact hc'

section Collect
variable {c : Caller T B} {base x : Version T} {next : Option (Version T)}

section
omit [DecidableEq T] [DecidableEq B]

/-- At a step of a callback no version below its own is locked. -/
theorem unlocked (h : Inv P s) (hbase : (s.gc c).base = some base) (ht : s.Timely P c) (hg : s.Grace c)
    (hlt : P.wtid x < P.wtid base) : s.object.memory.status x ≠ .locked := by
  intro hlocked
  have hok := h.callback c base hbase
  obtain ⟨f,hf⟩ := h.actors.locked x hlocked
  have htarget := target_of_held hf
  cases f with
  | inl t =>
    obtain ⟨hactive,hseen⟩ := h.actors.foreground t x htarget
    have hw : s.waits c (.inl t) = false := by
      by_contra hw
      exact of_decide_eq_false (hg _ (eq_true_of_not_eq_false hw)) hactive
    exact absurd hlt (not_lt.mpr ((hok.reads t hactive hw (ht base hbase t hactive)).le hseen))
  | inr b =>
    have hscan := h.actors.background b x htarget
    have hw : s.waits c (.inr b) = false := by
      by_contra hw
      have hrun := hg _ (eq_true_of_not_eq_false hw)
      rw [State.running,hscan] at hrun
      cases hrun
    exact absurd hlt (not_lt.mpr ((hok.scans b hw).2 x htarget))

/-- What a callback comes across, at a step of it. -/
theorem settled (h : Inv P s) (hbase : (s.gc c).base = some base) (ht : s.Timely P c) (hg : s.Grace c) (hr : s.Reaching P base x) :
    s.object.memory.status x = .committed .delta ∨ s.object.memory.status x = .aborted ∨ (s.object.memory.status x).isFull = true := by
  have hfrozen : ∀ t, s.phase t = .active → s.drawn t = true → P.wtid base ≤ P.ts t :=
    fun t hactive _ => (ht base hbase t hactive).trans (P.readTs_le t)
  have hlocked := h.unlocked hbase ht hg hr.2.1
  rcases h.actors.settled hfrozen hr.1 hr.2.1 with hc | ha
  · generalize s.object.memory.status x = st at hc hlocked
    cases st with
    | pending | aborted => cases hc
    | locked => exact absurd rfl hlocked
    | committed f =>
      cases f with
      | delta => exact .inl rfl
      | full | deleted => exact .inr (.inr rfl)
  · exact .inr (.inl ha)

end

private theorem setCallback {pc garbage handed} (h : Inv P s)
    (hbase : (s.gc c).base = some base) (ht : s.Timely P c) (hpc : pc.base = some base)
    (hgarbage : ∀ y, s.garbage y = true → garbage y = true)
    (hwalk : State.WalkOk P { s with garbage := garbage, gc := update s.gc c pc, handed := handed } pc)
    (hcovers : ∀ y, (s.gc c).Covers P y → pc.Covers P y) (hhanded : ∀ y ∈ handed, y ∈ s.handed ∨ pc.Covers P y)
    (hnodup : handed.Nodup) : Inv P { s with garbage := garbage, gc := update s.gc c pc, handed := handed } := by
  have hnext : ∀ c', (update s.gc c pc c').base = (s.gc c').base := by
    intro c'
    by_cases heq : c' = c
    · rw [heq,update_self,hpc,hbase]
    · rw [update_of_ne heq]
  refine ⟨h.actors.callback (fun c' hc' => .inl ?_),fun c' v hv => ?_,fun c₁ c₂ v h₁ h₂ => ?_,fun y hy => ?_,hnodup⟩
  · refine (update_of_ne ?_ _ _).trans hc'
    rintro rfl
    rw [hc'] at hbase
    cases hbase
  · have hv' : (s.gc c').base = some v := (hnext c').symm.trans hv
    obtain ⟨hfull,hreads,hscans,hfrozen,hw⟩ := h.callback c' v hv'
    refine ⟨hfull,hreads,hscans,fun hreg t hactive hdrawn => ?_,?_⟩
    · by_cases heq : c' = c
      · subst heq
        exact (ht v hv' t hactive).trans (P.readTs_le t)
      · exact hfrozen (fun hreg' => hreg ((update_of_ne heq _ _).trans hreg')) t hactive hdrawn
    · change State.WalkOk P _ (update s.gc c pc c')
      by_cases heq : c' = c
      · rw [heq,update_self]
        exact hwalk
      · rw [update_of_ne heq]
        have hk : Keeps P s { s with garbage := garbage, gc := update s.gc c pc, handed := handed } v :=
          ⟨fun _ hy => hy,fun _ hy _ => hy,fun y hy => hy.imp_right (fun hd => ⟨hd.1,hgarbage y hd.2⟩),fun _ hy => hy,fun _ _ => rfl⟩
        exact hk.walk hv' hw
  · exact h.unique c₁ c₂ v ((hnext c₁).symm.trans h₁) ((hnext c₂).symm.trans h₂)
  · have hself : pc.Covers P y → ∃ c', (update s.gc c pc c').Covers P y := by
      intro hy
      refine ⟨c,?_⟩
      rw [update_self]
      exact hy
    rcases hhanded y hy with hold | hnew
    · obtain ⟨c',hc'⟩ := h.handed y hold
      by_cases heq : c' = c
      · subst heq
        exact hself (hcovers y hc')
      · refine ⟨c',?_⟩
        change (update s.gc c pc c').Covers P y
        rw [update_of_ne heq]
        exact hc'
    · exact hself hnew

private theorem setGc {pc} (h : Inv P s) (hbase : (s.gc c).base = some base) (ht : s.Timely P c) (hpc : pc.base = some base)
    (hwalk : s.WalkOk P pc) (hcovers : ∀ y, (s.gc c).Covers P y → pc.Covers P y) : Inv P (s.setGc c pc) :=
  h.setCallback hbase ht hpc (fun _ hy => hy) (by cases pc <;> exact hwalk) hcovers (fun _ hy => .inl hy) h.nodup

section
variable (h : Inv P s)
include h

omit [DecidableEq T] [DecidableEq B] in
/-- No version that a callback comes across has been handed over. -/
theorem not_handed (hbase : (s.gc c).base = some base) (hr : s.Reaching P base x)
    (hcovers : ∀ y, (s.gc c).Covers P y → P.wtid x < P.wtid y) : x ∉ s.handed := by
  intro hx
  obtain ⟨c',hc'⟩ := h.handed x hx
  obtain ⟨b',hb'⟩ := GcPc.Covers.exists_base hc'
  have hfull := (h.callback c base hbase).full
  have hfull' := (h.callback c' b' hb').full
  have hmem := h.actors.base.mem_of_committed (Mvcc.MvStatus.isCommitted_of_isFull hfull)
  have hmem' := h.actors.base.mem_of_committed (Mvcc.MvStatus.isCommitted_of_isFull hfull')
  obtain ⟨hlt,hdead⟩ := hc'.dead hb' (h.callback c' b' hb').walk
  rcases lt_trichotomy (P.wtid b') (P.wtid base) with hless | heq | hmore
  · -- `c` has passed the version of `c'`, which is full
    exact s.not_dead_of_full hfull' (hr.2.2 b' hmem' hlt hless)
  · obtain rfl := h.actors.base.chain.eq_of_key_eq hmem' hmem heq
    obtain rfl := h.unique c c' b' hbase hb'
    exact lt_irrefl _ (hcovers x hc')
  · -- `c'` has passed the version of `c`, which is full
    exact s.not_dead_of_full hfull (hdead base hmem hr.2.1 hmore)

private theorem handOver (hbase : (s.gc c).base = some base) (ht : s.Timely P c) (hr : s.Reaching P base x)
    (hf : s.Follows P x next) (hx : s.Dead x ∨ (s.object.memory.status x).isFull = true)
    (hcovers : ∀ y, (s.gc c).Covers P y → P.wtid x < P.wtid y ∧ P.wtid y < P.wtid base) : Inv P (s.handOver c base x next) := by
  have hnew := h.not_handed hbase hr (fun y hy => (hcovers y hy).1)
  have hdone : Inv P { s with gc := update s.gc c (.done base x), handed := x :: s.handed } := by
    refine h.setCallback hbase ht rfl (fun _ hy => hy) hr.2.2 (fun y hy => ⟨(hcovers y hy).1.le,(hcovers y hy).2⟩) (fun y hy => ?_)
      (List.nodup_cons.mpr ⟨hnew,h.nodup⟩)
    exact (List.mem_cons.mp hy).symm.imp_right (fun heq => ⟨(congrArg P.wtid heq).ge,heq ▸ hr.2.1⟩)
  rw [State.handOver,GcPc.leave]
  split
  · exact hdone
  · next hnot =>
    have hdead := hx.resolve_right hnot
    cases next with
    | none => exact hdone
    | some n =>
      obtain ⟨hn,hlt⟩ := hf.1 n rfl
      have hbehind : s.Behind P base n := by
        intro y hy hlo hhi
        rcases lt_trichotomy (P.wtid y) (P.wtid x) with hless | heq | hmore
        · obtain ⟨n',hn',hle⟩ := hf.2 y hy hless
          cases hn'
          exact absurd hlo (not_lt.mpr hle)
        · exact h.actors.base.chain.eq_of_key_eq hy hr.1 heq ▸ hdead
        · exact hr.2.2 y hy hmore hhi
      refine h.setCallback hbase ht rfl (fun _ hy => hy) ⟨hn,hlt.trans hr.2.1,hbehind⟩
        (fun y hy => ⟨hlt.trans (hcovers y hy).1,(hcovers y hy).2⟩) (fun y hy => ?_) (List.nodup_cons.mpr ⟨hnew,h.nodup⟩)
      refine (List.mem_cons.mp hy).symm.imp_right (fun heq => ?_)
      rw [heq]
      exact ⟨hlt,hr.2.1⟩

omit [DecidableEq B] in
theorem follows_after (hx : x ∈ s.object.memory.chain) : s.Follows P x (after s.object.memory.chain (some x)) := by
  refine ⟨fun n hn => ⟨after_mem hn,after_below h.actors.base.chain hn⟩,fun y hy hlt => ?_⟩
  cases hafter : after s.object.memory.chain (some x) with
  | none => exact absurd hlt (after_eq_none h.actors.base.chain (fun p hp => some.inj hp ▸ hx) hafter hy)
  | some n => exact ⟨n,rfl,after_le h.actors.base.chain hafter hy hlt⟩

omit [DecidableEq T] [DecidableEq B] in
/-- A callback hands a version over when it will not become full any more, or is full. -/
private theorem dead_or_full (hbase : (s.gc c).base = some base) (ht : s.Timely P c) (hg : s.Grace c)
    (hr : s.Reaching P base x) (hmark : s.object.memory.status x = .committed .delta → s.garbage x = true) :
    s.Dead x ∨ (s.object.memory.status x).isFull = true := by
  rcases h.settled hbase ht hg hr with hd | ha | hfull
  · exact .inl (.inr ⟨hd,hmark hd⟩)
  · exact .inl (.inl ha)
  · exact .inr hfull

private theorem collect_registered (ht : s.Timely P c) (hpc : s.gc c = .registered base) :
    Inv P (s.setGc c ((after s.object.memory.chain (some base)).elim (.done base base) (.visit base))) := by
  have hbase : (s.gc c).base = some base := by rw [hpc]; rfl
  have hmem := h.actors.base.mem_of_committed (Mvcc.MvStatus.isCommitted_of_isFull (h.callback c base hbase).full)
  have hcovers : ∀ {pc : GcPc T} y, (s.gc c).Covers P y → pc.Covers P y := by
    intro pc y hy
    rw [hpc] at hy
    exact hy.elim
  have hfollows := h.follows_after hmem
  cases hafter : after s.object.memory.chain (some base) with
  | none => exact h.setGc hbase ht rfl (fun y _ hlo hhi => absurd (hlo.trans hhi) (lt_irrefl _)) hcovers
  | some x =>
    rw [hafter] at hfollows
    obtain ⟨hx,hlt⟩ := hfollows.1 x rfl
    refine h.setGc hbase ht rfl ⟨hx,hlt,fun y hy hlo hhi => ?_⟩ hcovers
    obtain ⟨n,hn,hle⟩ := hfollows.2 y hy hhi
    cases hn
    exact absurd hlo (not_lt.mpr hle)

private theorem collect_mark (hbase : (s.gc c).base = some base) (ht : s.Timely P c) (hg : s.Grace c)
    (hr : s.Reaching P base x) (hf : s.Follows P x next)
    (hcovers : ∀ y, (s.gc c).Covers P y → P.wtid x < P.wtid y ∧ P.wtid y < P.wtid base) :
    Inv P { s with garbage := update s.garbage x true, gc := update s.gc c (.marked base x next) } := by
  have hgarbage : ∀ y, s.garbage y = true → update s.garbage x true y = true := by
    intro y hy
    by_cases hyx : y = x
    · rw [hyx,update_self]
    · rw [update_of_ne hyx]
      exact hy
  refine h.setCallback hbase ht rfl hgarbage ⟨⟨hr.1,hr.2.1,fun y hy hlo hhi => ?_⟩,hf,?_⟩ hcovers (fun _ hy => .inl hy) h.nodup
  · exact (hr.2.2 y hy hlo hhi).imp_right (fun hd => ⟨hd.1,hgarbage y hd.2⟩)
  · rcases h.settled hbase ht hg hr with hd | ha | hfull
    · exact .inl (.inr ⟨hd,update_self _ _ _⟩)
    · exact .inl (.inl ha)
    · exact .inr hfull

theorem collect (ht : s.Timely P c) (hg : s.Grace c) (hnext : s.collect c = some s') : Inv P s' := by
  rw [State.collect] at hnext
  have hat {pc base x} (hpc : s.gc c = pc) (hbase : pc.base = some base)
      (hcovers : ∀ y, pc.Covers P y → P.wtid x < P.wtid y ∧ P.wtid y < P.wtid base) :
      (s.gc c).base = some base ∧ s.WalkOk P pc ∧ ∀ y, (s.gc c).Covers P y → P.wtid x < P.wtid y ∧ P.wtid y < P.wtid base := by
    subst hpc
    exact ⟨hbase,(h.callback c base hbase).walk,hcovers⟩
  cases hpc : s.gc c with
  | idle | done =>
    rw [hpc] at hnext
    cases hnext
  | registered base =>
    rw [hpc] at hnext
    cases hnext
    exact h.collect_registered ht hpc
  | visit base x =>
    obtain ⟨hbase,hw,hcovers⟩ := hat hpc rfl (fun _ hy => hy)
    rw [hpc] at hnext
    cases hnext
    exact h.setGc hbase ht rfl ⟨hw,h.follows_after hw.1⟩ hcovers
  | status base x next =>
    obtain ⟨hbase,hw,hcovers⟩ := hat hpc rfl (fun _ hy => hy)
    rw [hpc] at hnext
    dsimp only at hnext
    split at hnext
    · next hgarbage =>
      cases hnext
      exact h.handOver hbase ht hw.1 hw.2 (h.dead_or_full hbase ht hg hw.1 (fun _ => hgarbage)) hcovers
    · cases hnext
      exact h.setGc hbase ht rfl ⟨hw.1,hw.2,(h.settled hbase ht hg hw.1).imp_right (fun hst => ⟨rfl,hst⟩)⟩ hcovers
  | mark base x next st =>
    obtain ⟨hbase,hw,hcovers⟩ := hat hpc rfl (fun _ hy => hy)
    rw [hpc] at hnext
    dsimp only at hnext
    split at hnext
    · cases hnext
      exact h.collect_mark hbase ht hg hw.1 hw.2.1 hcovers
    · next hcas =>
      cases hnext
      refine h.handOver hbase ht hw.1 hw.2.1 (h.dead_or_full hbase ht hg hw.1 (fun hd => ?_)) hcovers
      -- the status of a delta is what it was, so only a mark can have made the compare-and-swap fail
      by_contra hnot
      refine hcas ⟨?_,eq_false_of_not_eq_true hnot⟩
      exact hw.2.2.elim (fun hst => hd.trans hst.symm) (fun hst => hst.1.symm)
  | marked base x next =>
    obtain ⟨hbase,hw,hcovers⟩ := hat hpc rfl (fun _ hy => hy)
    rw [hpc] at hnext
    cases hnext
    exact h.handOver hbase ht hw.1 hw.2.1 hw.2.2 hcovers

end

end Collect

omit [DecidableEq T] in
private theorem endScan {b c} (h : Inv P s) (hc : c = .flatten ∨ c = .done)
    (htarget : (s.object.flat (.inr b)).target = none) : Inv P (s.setScan b c) := by
  refine h.setScan (h.actors.setScan (fun _ w hw => ?_) (.inl htarget)) (fun v _ _ => ?_)
  · rcases hc with rfl | rfl <;> cases hw
  · rcases hc with rfl | rfl <;> trivial

omit [DecidableEq T] in
private theorem walkOn {b flattenv w w'} (h : Inv P s) (hpc : s.scan b = .walk flattenv w)
    (htarget : (s.object.flat (.inr b)).target = none) (hon : w'.On s.object.memory.chain)
    (hahead : ∀ v ∈ s.object.memory.chain, (s.object.memory.status v).isFull = true → Ahead P.wtid w v → Ahead P.wtid w' v) :
    Inv P (s.setScan b (.walk flattenv w')) := by
  refine h.setScan (h.actors.setScan (fun _ w hw => ?_) (.inl htarget)) (fun v hv hscan => ?_)
  · cases hw
    exact hon
  · rw [hpc] at hscan
    exact hahead v (h.actors.base.mem_of_committed (Mvcc.MvStatus.isCommitted_of_isFull hv)) hv hscan

private theorem flattenFound {b flattenv x} (h : Inv P s) (hpc : s.scan b = .walk flattenv (.at x))
    (htarget : (s.object.flat (.inr b)).target = none) (hact : s.act P (.flatten (.inr b) x) = some s') :
    Inv P (s'.setScan b .flatten) := by
  obtain ⟨o,ho,rfl⟩ := map_eq_some_iff.mp hact
  obtain ⟨hidle,hd,rfl⟩ := Mvcc.flatten_of_next ho
  refine (h.endScan (.inl rfl) htarget).startFlatten hidle hd (fun t ht => by cases ht) (fun b' hb' => ?_)
  cases hb'
  refine ⟨update_self _ _ _,fun c v hv hw => ?_⟩
  have hscan := ((h.callback c v hv).scans b hw).1
  rw [hpc] at hscan
  exact hscan

theorem goOn {b} (h : Inv P s) (hnext : s.goOn P b = some s') : Inv P s' := by
  rw [State.goOn] at hnext
  cases hpc : s.scan b with
  | idle | done =>
    rw [hpc] at hnext
    cases hnext
  | flatten =>
    rw [hpc] at hnext
    obtain ⟨htarget,rfl⟩ := ite_some_none_eq_some.mp hnext
    exact h.endScan (.inr rfl) htarget
  | walk flattenv w =>
    have htarget := h.actors.target_of_scan (b := b) (fun hflat => by rw [hpc] at hflat; cases hflat)
    have hon := h.actors.walking b flattenv w hpc
    rw [hpc] at hnext
    cases w with
    | load place =>
      obtain ⟨x,hafter,rfl⟩ := map_eq_some_iff.mp hnext
      exact h.walkOn hpc htarget (after_mem hafter) (fun v hv _ hahead => Ahead.load h.actors.base.chain hafter hv hahead)
    | «at» x =>
      dsimp only at hnext
      split at hnext
      · next hpass =>
        cases hnext
        refine h.walkOn hpc htarget (fun p hp => some.inj hp ▸ hon) (fun v hv hfull hahead => ?_)
        -- the walk would have stopped at a full version
        have hne : v ≠ x := by
          rintro rfl
          exact Bool.false_ne_true (hpass.2.1.symm.trans hfull)
        exact Ahead.pass h.actors.base.chain hv hon hne hahead
      · split at hnext
        · obtain ⟨s₁,hact,rfl⟩ := map_eq_some_iff.mp hnext
          exact h.flattenFound hpc htarget hact
        · cases hnext
          exact h.endScan (.inr rfl) htarget

theorem ownNext (h : Inv P s) (hnext : s.own P t a = some s') (ho : a.owner = some t) (hlock : a = .lock t → s.drawn t = true) :
    Inv P s' := by
  obtain ⟨⟨hphase,htarget⟩,hact⟩ := ite_none_right_eq_some.mp hnext
  obtain ⟨o,ho',rfl⟩ := map_eq_some_iff.mp hact
  exact h.own hphase htarget (Mvcc.ownStep_of_next ho ho') (Mvcc.step_of_next ho') hlock

private theorem install (h : Inv P s) (hown : s.own P t (.install t) = some s') (hflag : (P.update t).flag ≠ .delta) :
    Inv P (s'.register (.install t) (.of t)) := by
  have h' := h.ownNext hown rfl nofun
  obtain ⟨-,hact⟩ := ite_none_right_eq_some.mp hown
  obtain ⟨o,ho,rfl⟩ := map_eq_some_iff.mp hact
  obtain ⟨⟨hw,-⟩,rfl⟩ := ite_some_none_eq_some.mp ho
  have hpending := h.actors.base.write t
  rw [hw] at hpending
  refine h'.register (h.actors.install t (by rw [hw]; nofun)) ?_ (fun c hc => ?_) (.inl ⟨t,rfl,update_self _ _ _⟩)
  · change ((s.object.memory.setStatus (.of t) (s.object.memory.status (.of t)).commit).status (.of t)).isFull = true
    rw [Mvcc.setStatus_self,hpending.2]
    generalize (P.update t).flag = flag at hflag
    cases flag with
    | delta => exact absurd rfl hflag
    | full | deleted => rfl
  · -- a version with a callback is full, and this one was pending
    have hfull := (h.callback c (.of t) hc).full
    rw [hpending.2] at hfull
    cases hfull

private theorem publish {f fv} (h : Inv P s) (hpc : s.object.flat f = .publish fv)
    (hact : s.act P (.flat f) = some s') : Inv P (s'.register (.flatten f) fv) := by
  obtain ⟨o,ho,rfl⟩ := map_eq_some_iff.mp hact
  obtain ⟨r,hr,rfl⟩ := map_eq_some_iff.mp ho
  rw [hpc] at hr
  cases hr
  have hs : Mvcc.FlatStep P s.object.memory (s.object.flat f) (s.object.memory.setStatus fv (.committed .full)) .done := by
    rw [hpc]
    exact .publish
  have hlocked := h.actors.base.held f fv (by rw [hpc]; rfl)
  refine (h.flat hs nofun).register (h.actors.flatten f (by rw [hpc]; nofun)) ?_ (fun c hc => ?_)
    (.inr ⟨f,rfl,update_self _ _ _⟩)
  · change ((s.object.memory.setStatus fv (.committed .full)).status fv).isFull = true
    rw [Mvcc.setStatus_self]
    rfl
  · have hfull := (h.callback c fv hc).full
    rw [hlocked] at hfull
    cases hfull

private theorem flatNext {f} (h : Inv P s) (hcas : ∀ v x, s.object.flat f = .cas v x → s.garbage v = false)
    (hact : s.act P (.flat f) = some s') : Inv P s' := by
  obtain ⟨o,ho,rfl⟩ := map_eq_some_iff.mp hact
  obtain ⟨r,hr,rfl⟩ := map_eq_some_iff.mp ho
  exact h.flat (Mvcc.flatStep_of_step hr) (fun v x hf _ => hcas v x hf)

theorem runFlatten {f} (h : Inv P s) (hnext : s.runFlatten P f = some s') : Inv P s' := by
  rw [State.runFlatten] at hnext
  split at hnext
  · next fv x hpc =>
    split at hnext
    · cases hnext
      have hs : Mvcc.FlatStep P s.object.memory (s.object.flat f) s.object.memory .done := by
        rw [hpc]
        exact .lost
      exact h.flat hs nofun
    · next hgarbage =>
      refine h.flatNext (fun v x hf => ?_) hnext
      rw [hpc] at hf
      cases hf
      exact eq_false_of_not_eq_true hgarbage
  · next fv hpc =>
    obtain ⟨s₁,hact,rfl⟩ := map_eq_some_iff.mp hnext
    exact h.publish hpc hact
  · next hcas _ => exact h.flatNext (fun v x hf => absurd hf (hcas v x)) hnext

theorem use (h : Inv P s) (hnext : s.use P a = some s') : Inv P s' := by
  cases a with
  | find | check =>
    obtain ⟨-,hown⟩ := ite_none_right_eq_some.mp hnext
    exact h.ownNext hown rfl nofun
  | read | write | abort => exact h.ownNext hnext rfl nofun
  | lock u =>
    obtain ⟨hdrawn,hown⟩ := ite_none_right_eq_some.mp hnext
    exact h.ownNext hown rfl (fun _ => hdrawn)
  | install u =>
    obtain ⟨s₁,hown,rfl⟩ := map_eq_some_iff.mp hnext
    split
    · exact h.ownNext hown rfl nofun
    · next hflag => exact h.install hown hflag
  | flat f => exact h.runFlatten hnext
  | flatten f fv =>
    cases f with
    | inr b => cases hnext
    | inl u =>
      obtain ⟨hfound,hact⟩ := ite_none_right_eq_some.mp hnext
      obtain ⟨o,ho,rfl⟩ := map_eq_some_iff.mp hact
      obtain ⟨hidle,hd,rfl⟩ := Mvcc.flatten_of_next ho
      exact h.startFlatten hidle hd (fun t ht => Sum.inl.inj ht ▸ hfound) (fun b hb => by cases hb)

theorem next {b} (h : Inv P s) (hassumed : Assumed P s b) (hnext : s.next P b = some s') : Inv P s' := by
  cases b with
  | begin u =>
    obtain ⟨hfresh,rfl⟩ := ite_some_none_eq_some.mp hnext
    exact h.begin hfresh
  | draw u =>
    obtain ⟨⟨hphase,-,htid⟩,rfl⟩ := ite_some_none_eq_some.mp hnext
    exact h.draw hphase htid
  | finish u =>
    obtain ⟨⟨-,-,hwrite,htarget⟩,rfl⟩ := ite_some_none_eq_some.mp hnext
    exact h.finish hwrite htarget
  | object a => exact h.use hnext
  | background b flattenv =>
    obtain ⟨hidle,rfl⟩ := ite_some_none_eq_some.mp hnext
    have htarget := h.actors.target_of_scan (b := b) (fun hflat => by rw [hidle] at hflat; cases hflat)
    refine h.setScan (h.actors.setScan (fun _ w hw => ?_) (.inl htarget)) (fun _ _ _ => trivial)
    cases hw
    exact fun _ hp => absurd hp.symm (some_ne_none _)
  | scan b => exact h.goOn hnext
  | collect c => exact h.collect hassumed.1 hassumed.2 hnext

theorem of_reached (h : (machine P).Reached (Assumed P) s) : Inv P s :=
  h.ofNext_invariant .start (fun _ _ _ hI hassumed hnext => hI.next hassumed hnext)

end Inv

end Invariant

section Returned
variable {T B α : Type} [DecidableEq T] [DecidableEq B] {P : Program T α} {s s' : State T B α} {a : Action T (T ⊕ B)}

variable (P) in
/-- A step of a callback hands over the version it is at, or none. -/
theorem collect_cases {c} (hnext : s.collect c = some s') : s'.object = s.object ∧ (s'.handed = s.handed ∨
      ∃ base h, (s.gc c).base = some base ∧ s'.handed = h :: s.handed ∧ (s.WalkOk P (s.gc c) → s.Reaching P base h)) := by
  rw [State.collect] at hnext
  cases hpc : s.gc c with
  | idle | done =>
    rw [hpc] at hnext
    cases hnext
  | registered base | visit base h =>
    rw [hpc] at hnext
    cases hnext
    exact ⟨rfl,.inl rfl⟩
  | status base h next =>
    rw [hpc] at hnext
    dsimp only at hnext
    split at hnext <;> cases hnext
    · exact ⟨rfl,.inr ⟨base,h,rfl,rfl,fun hw => hw.1⟩⟩
    · exact ⟨rfl,.inl rfl⟩
  | mark base h next st =>
    rw [hpc] at hnext
    dsimp only at hnext
    split at hnext <;> cases hnext
    · exact ⟨rfl,.inl rfl⟩
    · exact ⟨rfl,.inr ⟨base,h,rfl,rfl,fun hw => hw.1⟩⟩
  | marked base h next =>
    rw [hpc] at hnext
    cases hnext
    exact ⟨rfl,.inr ⟨base,h,rfl,rfl,fun hw => hw.1⟩⟩

/-- What a step does to the object: nothing, a step of a transaction, or one in which no
transaction reads. -/
def Moved (P : Program T α) (o o' : Mvcc.State T (T ⊕ B) α) : Prop :=
  o' = o ∨ (∃ t a, Mvcc.OwnStep P o t a o') ∧ Mvcc.Step P o o' ∨ o'.read = o.read ∧ Mvcc.Step P o o'

namespace Moved

theorem act (hact : s.act P a = some s') : Moved P s.object s'.object := by
  obtain ⟨o,ho,rfl⟩ := map_eq_some_iff.mp hact
  have hstep := Mvcc.step_of_next ho
  cases howner : a.owner with
  | some t => exact .inr (.inl ⟨⟨t,a,Mvcc.ownStep_of_next howner ho⟩,hstep⟩)
  | none =>
    refine .inr (.inr ⟨?_,hstep⟩)
    cases a with
    | flatten f fv =>
      obtain ⟨-,-,rfl⟩ := Mvcc.flatten_of_next ho
      rfl
    | flat f =>
      obtain ⟨r,-,rfl⟩ := map_eq_some_iff.mp ho
      rfl
    | _ => cases howner

theorem own {t} (hown : s.own P t a = some s') : Moved P s.object s'.object :=
  .act (ite_none_right_eq_some.mp hown).2

theorem runFlatten {f} (hnext : s.runFlatten P f = some s') : Moved P s.object s'.object := by
  rw [State.runFlatten] at hnext
  split at hnext
  · next fv x hpc =>
    split at hnext
    · cases hnext
      refine .inr (.inr ⟨rfl,.flat f s.object.memory .done ?_⟩)
      rw [hpc]
      exact .lost
    · exact .act hnext
  · obtain ⟨s₁,hact,rfl⟩ := map_eq_some_iff.mp hnext
    have hm : Moved P s.object s₁.object := .act hact
    exact hm
  · exact .act hnext

theorem use (hnext : s.use P a = some s') : Moved P s.object s'.object := by
  cases a with
  | find | check | lock => exact .own (ite_none_right_eq_some.mp hnext).2
  | read | write | abort => exact .own hnext
  | install u =>
    obtain ⟨s₁,hown,rfl⟩ := map_eq_some_iff.mp hnext
    have hm : Moved P s.object s₁.object := .own hown
    split <;> exact hm
  | flat f => exact .runFlatten hnext
  | flatten f fv =>
    cases f with
    | inr b => cases hnext
    | inl u => exact .act (ite_none_right_eq_some.mp hnext).2

theorem goOn {b} (hnext : s.goOn P b = some s') : Moved P s.object s'.object := by
  rw [State.goOn] at hnext
  split at hnext
  · obtain ⟨x,-,rfl⟩ := map_eq_some_iff.mp hnext
    exact .inl rfl
  · split at hnext
    · cases hnext
      exact .inl rfl
    · split at hnext
      · obtain ⟨s₁,hact,rfl⟩ := map_eq_some_iff.mp hnext
        have hm : Moved P s.object s₁.object := .act hact
        exact hm
      · cases hnext
        exact .inl rfl
  · obtain ⟨-,rfl⟩ := ite_some_none_eq_some.mp hnext
    exact .inl rfl
  · cases hnext

theorem next {b} (hnext : s.next P b = some s') : Moved P s.object s'.object := by
  cases b with
  | object a => exact .use hnext
  | scan b => exact .goOn hnext
  | collect c => exact .inl (collect_cases P hnext).1
  | _ =>
    obtain ⟨-,rfl⟩ := ite_some_none_eq_some.mp hnext
    exact .inl rfl

end Moved

variable (P) in
/-- Transaction `t` cannot find anything below the full version `h`. -/
structure Shielded (h : Version T) (t : T) (o : Mvcc.State T (T ⊕ B) α) : Prop where
  base : Mvcc.Base P o
  full : (o.memory.status h).isFull = true
  seeing : Seeing P h (o.read t)

theorem Shielded.moved {h : Version T} {t : T} {o o' : Mvcc.State T (T ⊕ B) α} (hs : Shielded P h t o)
    (hle : P.wtid h ≤ P.readTs t) (hm : Moved P o o') : Shielded P h t o' := by
  have hstep : ∀ (_ : Mvcc.Step P o o') (_ : Seeing P h (o'.read t)), Shielded P h t o' := by
    intro hstep hsee
    obtain ⟨who,he⟩ := hs.base.evolves hstep
    refine ⟨hs.base.step hstep,?_,hsee⟩
    rw [(he.full h hs.full).1]
    exact hs.full
  rcases hm with rfl | ⟨⟨u,a,hown⟩,hst⟩ | ⟨hread,hst⟩
  · exact hs
  · refine hstep hst ?_
    by_cases hut : t = u
    · subst hut
      exact hs.seeing.own hs.base hs.full hle hown
    · rw [(hs.base.own_turn hown).read t hut]
      exact hs.seeing
  · refine hstep hst ?_
    rw [hread]
    exact hs.seeing

theorem Shielded.not_found {h v : Version T} {t : T} (hs : Shielded P h t s.object) (hle : P.wtid h ≤ P.readTs t)
    (hlt : P.wtid v < P.wtid h) (hlead : (machine P).Leads s s') : s'.object.read t ≠ .found v := by
  intro hfound
  have hs' : Shielded P h t s'.object := by
    refine hlead.ofNext_monotone (I := fun _ => True) (fun s => Shielded P h t s.object) trivial (fun s a s' _ hnext => ⟨trivial,?_⟩) hs
    exact fun hs => hs.moved hle (.next hnext)
  have hsee := hs'.seeing
  rw [hfound] at hsee
  exact absurd hlt (not_lt.mpr hsee)

end Returned

section Collected
variable {T B α : Type} [DecidableEq T] [DecidableEq B] {P : Program T α} {s : State T B α}

variable (P) in
def NewestFull (s : State T B α) (v : Version T) : Prop :=
  (s.object.memory.status v).isFull = true ∧ ∀ w, (s.object.memory.status w).isFull = true → P.wtid w ≤ P.wtid v

omit [DecidableEq T] [DecidableEq B] in
private theorem Inv.exists_full_above {v : Version T} (h : Inv P s) (hv : v ∈ s.handed) :
    ∃ w, (s.object.memory.status w).isFull = true ∧ P.wtid v < P.wtid w := by
  obtain ⟨c,hc⟩ := h.handed v hv
  obtain ⟨w,hw⟩ := GcPc.Covers.exists_base hc
  have hok := h.callback c w hw
  exact ⟨w,hok.full,(hc.dead hw hok.walk).1⟩

/-- Garbage collection is safe when a callback is timely and waits for its grace period. No
version is handed over twice, the newest full version never is, and whoever is active when a
version is handed over will not find it. -/
theorem collector_hands_over_once (h : (machine P).Reached (Assumed P) s) :
    s.handed.Nodup ∧ (∀ v, NewestFull P s v → v ∉ s.handed) ∧
    ∀ c s' v, Assumed P s (.collect c) → s.next P (.collect c) = some s' → s'.handed = v :: s.handed →
      ∀ t, s.phase t = .active → ∀ s'', (machine P).Leads s' s'' → s''.object.read t ≠ .found v := by
  have hinv := Inv.of_reached h
  refine ⟨hinv.nodup,fun v hnew hv => ?_,fun c s' v hassumed hnext hv t hactive s'' hlead => ?_⟩
  · obtain ⟨w,hfull,hlt⟩ := hinv.exists_full_above hv
    exact absurd hlt (not_lt.mpr (hnew.2 w hfull))
  · obtain ⟨htimely,hgrace⟩ := hassumed
    obtain ⟨hobject,hsame | ⟨base,x,hbase,hx,hreach⟩⟩ := collect_cases P hnext
    · exact absurd (hv.symm.trans hsame) (List.cons_ne_self v s.handed)
    obtain rfl : v = x := (List.cons.inj (hv.symm.trans hx)).1
    have hok := hinv.callback c base hbase
    have hle := htimely base hbase t hactive
    have hw : s.waits c (.inl t) = false := by
      by_contra hw
      exact of_decide_eq_false (hgrace _ (Bool.eq_true_of_not_eq_false hw)) hactive
    have hshield : Shielded P base t s'.object := by
      rw [hobject]
      exact ⟨hinv.actors.base,hok.full,hok.reads t hactive hw hle⟩
    exact hshield.not_found hle (hreach hok.walk).2.1 hlead

instance [Fintype T] : DecidablePred (TimelyOnly P s)
  | .begin _ => .isTrue trivial
  | .draw _ => .isTrue trivial
  | .finish _ => .isTrue trivial
  | .object _ => .isTrue trivial
  | .background _ _ => .isTrue trivial
  | .scan _ => .isTrue trivial
  | .collect c => inferInstanceAs (Decidable (∀ h ∈ (s.gc c).base, ∀ t, s.phase t = .active → P.wtid h ≤ P.readTs t))

instance [Fintype T] [Fintype B] : DecidablePred (Assumed P s)
  | .begin _ => .isTrue trivial
  | .draw _ => .isTrue trivial
  | .finish _ => .isTrue trivial
  | .object _ => .isTrue trivial
  | .background _ _ => .isTrue trivial
  | .scan _ => .isTrue trivial
  | .collect c => inferInstanceAs (Decidable ((∀ h ∈ (s.gc c).base, ∀ t, s.phase t = .active → P.wtid h ≤ P.readTs t) ∧
      ∀ r, s.waits c r = true → s.running r = false))

/-- A commutative update, a full version above it, and a later commutative update. -/
def deltaBelowFull : Program (Fin 3) Nat where
  ts t := t+1
  ts_pos t := Nat.succ_pos t
  ts_injective _ _ h := Fin.ext (Nat.succ.inj h)
  readTs t := t+1
  readTs_le _ := le_rfl
  update := ![.delta (· + 1),.full 7,.delta (· * 10)]
  first := 5
  firstDeleted := false

def arrive (t : T) : List (Act T B) := [.begin t,.draw t]

def commit (t : T) : List (Act T B) := ((Mvcc.writeAlone t 9).map .object).append [.finish t]

/-- Transaction `r` is in the middle of flattening the delta of `d` when `f` installs a full
version above it, and the callback of `f` does not wait for `r`. -/
def lateFlatten (d f r : T) : List (Act T B) :=
  List.flatten [arrive d,commit d,arrive f,arrive r,[.object (.find r),.object (.read r),.object (.read r)],
    [.object (.flatten (.inl r) (.of d))],List.replicate 8 (.object (.flat (.inl r))),commit f,
    List.replicate 9 (.collect (.install f)),List.replicate 2 (.object (.flat (.inl r))),
    List.replicate 3 (.collect (.flatten (.inl r)))]

def handedTwice (d f r : Fin 3) : State (Fin 3) Empty Nat := (machine deltaBelowFull).play (.start deltaBelowFull) (lateFlatten d f r)

/-- Without the grace period a version can be handed over twice: the flatten of `r` stores
its status over the mark, and registers a callback of its own. -/
theorem late_flatten_hands_over_twice :
    (machine deltaBelowFull).Reached (TimelyOnly deltaBelowFull) (handedTwice 0 1 2) ∧
    (handedTwice 0 1 2).handed = [.initial,.initial,.of 0] ∧ ¬(handedTwice 0 1 2).handed.Nodup := by
  have hhanded : (handedTwice 0 1 2).handed = [.initial,.initial,.of 0] := by decide +kernel
  refine ⟨?_,hhanded,?_⟩
  · exact Machine.Reached.playWhen (p := fun s a => decide (TimelyOnly deltaBelowFull s a)) (fun _ _ hp => of_decide_eq_true hp) .start
      (lateFlatten 0 1 2) (by decide +kernel)
  · rw [hhanded]
    decide

/-- Everybody has finished when the callback of `f` runs, except for `r`, which has come later. -/
def collecting (d f r : Fin 3) : State (Fin 3) Empty Nat :=
  (machine deltaBelowFull).play (.start deltaBelowFull)
    (List.flatten [arrive d,commit d,arrive f,commit f,arrive r,List.replicate 8 (.collect (.install f))])

theorem collector_hands_over_delta :
    (collecting 0 1 2).handed = [.of 0] ∧ (collecting 0 1 2).handed.Nodup ∧ .of 1 ∉ (collecting 0 1 2).handed ∧
    ∃ s', (collecting 0 1 2).next deltaBelowFull (.collect (.install 1)) = some s' ∧ s'.handed = [.initial,.of 0] ∧
      ∀ s'', (machine deltaBelowFull).Leads s' s'' → s''.object.read 2 ≠ .found .initial := by
  have hreach : (machine deltaBelowFull).Reached (Assumed deltaBelowFull) (collecting 0 1 2) :=
    Machine.Reached.playWhen (p := fun s a => decide (Assumed deltaBelowFull s a)) (fun _ _ hp => of_decide_eq_true hp) .start _
      (by decide +kernel)
  have hhanded : (collecting 0 1 2).handed = [.of 0] := by decide +kernel
  obtain ⟨hnodup,hnewest,hfind⟩ := collector_hands_over_once hreach
  have hnew : ((collecting 0 1 2).next deltaBelowFull (.collect (.install 1))).map State.handed = some [.initial,.of 0] := by
    decide +kernel
  obtain ⟨s',hnext,hs'⟩ := Option.map_eq_some_iff.mp hnew
  refine ⟨hhanded,hnodup,hnewest (.of 1) ?_,s',hnext,hs',?_⟩
  · refine ⟨by decide +kernel,fun w => ?_⟩
    cases w with
    | initial => exact fun _ => Nat.zero_le _
    | of t => revert t; decide +kernel
  · exact hfind (.install 1) s' .initial (by decide +kernel) hnext (by rw [hs',hhanded]) 2 (by decide +kernel)

end Collected

end AlNiCo.Sto.MvGarbage
