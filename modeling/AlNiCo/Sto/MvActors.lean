import AlNiCo.Sto.MvGarbage

/-! What every step leaves true of the transactions and of the flattens, foreground and
background, whatever the callbacks do. -/
namespace AlNiCo.Sto.MvGarbage
open Library DescendingChain Function Option
open Mvcc (Version Program Memory MvStatus ReadPc WritePc FlatPc Action)

section Actors
variable {T B α : Type} (P : Program T α)

/-- The `find` of a transaction does not go past `h`. -/
def Seeing (h : Version T) : ReadPc T → Prop
  | .find w => Ahead P.wtid w h
  | .found v => P.wtid h ≤ P.wtid v
  | .check v _ => P.wtid h ≤ P.wtid v
  | .passed v => P.wtid h ≤ P.wtid v
  | _ => True

/-- The walk of `gc_flatten_cb` has not gone past `h`. -/
def Scanning (h : Version T) : ScanPc T → Prop
  | .walk _ w => Ahead P.wtid w h
  | _ => True

variable {P} {o o' : Mvcc.State T (T ⊕ B) α} {t : T} {h v : Version T}

theorem Seeing.le {r : ReadPc T} (hsee : Seeing P h r) (hv : seen r = some v) : P.wtid h ≤ P.wtid v := by
  cases r with
  | found | check | passed =>
    cases hv
    exact hsee
  | _ => cases hv

theorem target_of_held {c : FlatPc T α} (hc : c.held = some v) : c.target = some v := by
  cases c with
  | store | publish => exact hc
  | _ => cases hc

variable [DecidableEq T] [DecidableEq B] {a : Action T (T ⊕ B)}

section
omit [DecidableEq B]

private theorem Seeing.step {r} (hb : Mvcc.Base P o) (hfull : (o.memory.status h).isFull = true)
    (hle : P.wtid h ≤ P.readTs t) (hsee : Seeing P h (o.read t)) (hr : (o.read t).step P t o.memory = some r) : Seeing P h r := by
  have hc := Mvcc.MvStatus.isCommitted_of_isFull hfull
  have hmem := hb.mem_of_committed hc
  have hok := hb.read t
  generalize o.read t = old at hsee hr hok
  cases old with
  | idle | found | passed | failed => cases hr
  | find w =>
    cases w with
    | load place =>
      obtain ⟨x,hnext,rfl⟩ := map_eq_some_iff.mp hr
      exact Ahead.load hb.chain hnext hmem hsee
    | «at» x =>
      rw [ReadPc.step] at hr
      split at hr
      · cases hr
      · split at hr
        · cases hr
          exact hsee
        · next hpass =>
          cases hr
          -- the walk would have stopped at `h` itself
          have hne : h ≠ x := by
            rintro rfl
            exact hpass ⟨hle,hc⟩
          exact Ahead.pass hb.chain hmem hok.1 hne hsee
  | check v w =>
    cases w with
    | load place =>
      obtain ⟨x,-,rfl⟩ := map_eq_some_iff.mp hr
      exact hsee
    | «at» x =>
      rw [ReadPc.step] at hr
      split at hr
      · cases hr
        exact hsee
      · split at hr
        · cases hr
          trivial
        · cases hr
          exact hsee

theorem Seeing.own (hsee : Seeing P h (o.read t)) (hb : Mvcc.Base P o) (hfull : (o.memory.status h).isFull = true)
    (hle : P.wtid h ≤ P.readTs t) (hs : Mvcc.OwnStep P o t a o') : Seeing P h (o'.read t) := by
  cases hs with
  | lock | write | install => exact hsee
  | find | abort =>
    dsimp only
    rw [update_self]
    trivial
  | read r hr =>
    dsimp only
    rw [update_self]
    exact hsee.step hb hfull hle hr
  | check v hr =>
    rw [hr] at hsee
    dsimp only
    rw [update_self]
    exact hsee

theorem installed_own (hs : Mvcc.OwnStep P o t a o') (hw : o.write t = .installed) : o'.write t = .installed := by
  cases hs with
  | find | read | check => exact hw
  | install => exact update_self _ _ _
  | abort hne => exact absurd hw hne
  | lock hidle =>
    rw [hw] at hidle
    cases hidle
  | write m w hstep =>
    rw [hw] at hstep
    cases hstep

/-- A transaction links nothing before it locks. -/
theorem undrawn_own (hs : Mvcc.OwnStep P o t a o') (hlock : a ≠ .lock t) (hw : o.write t = .idle ∨ o.write t = .aborted) :
    o'.memory.chain = o.memory.chain ∧ (o'.write t = .idle ∨ o'.write t = .aborted) := by
  cases hs with
  | find | read | check => exact ⟨rfl,hw⟩
  | abort => exact ⟨rfl,.inr (update_self _ _ _)⟩
  | lock => exact absurd rfl hlock
  | install hlocked =>
    rw [hlocked] at hw
    exact (hw.elim nofun nofun)
  | write m w hstep =>
    rcases hw with hw | hw <;>
    · rw [hw] at hstep
      cases hstep

end

end Actors

section
variable {T F α : Type} [DecidableEq T] [DecidableEq F] {P : Program T α} {o o' : Mvcc.State T F α}

/-- A locked version is held by some flatten. -/
theorem locked_step (hs : Mvcc.Step P o o') (hb : Mvcc.Base P o)
    (hl : ∀ v, o.memory.status v = .locked → ∃ f, (o.flat f).held = some v) (v : Version T)
    (hv : o'.memory.status v = .locked) : ∃ f, (o'.flat f).held = some v := by
  rcases hs.status_cases hb v with heq | ⟨-,hne⟩ | ⟨-,-,f,x,-,hf⟩ | ⟨-,hfull,-⟩
  · obtain ⟨f,hf⟩ := hl v (heq ▸ hv)
    refine ⟨f,?_⟩
    rcases hs.flat_cases f with hsame | ⟨hidle,-⟩ | hstep
    · rw [hsame]
      exact hf
    · rw [hidle] at hf
      cases hf
    · generalize o.flat f = c at hf hstep
      generalize o'.flat f = c' at hstep ⊢
      generalize o'.memory = m at hv hstep
      cases hstep with
      | store => exact hf
      | publish =>
        cases hf
        rw [Mvcc.setStatus_self] at hv
        cases hv
      | _ => cases hf
  · exact absurd hv hne
  · exact ⟨f,by rw [hf]; rfl⟩
  · rw [hfull] at hv
    cases hv

end

theorem of_update {T β} [DecidableEq T] {f : T → β} {t u : T} {x y : β} (h : update f t x u = y) (hne : x ≠ y) : u ≠ t ∧ f u = y := by
  by_cases hut : u = t
  · rw [hut,update_self] at h
    exact absurd h hne
  · rw [update_of_ne hut] at h
    exact ⟨hut,h⟩

section Invariant
variable {T B α : Type} [DecidableEq T] [DecidableEq B] (P : Program T α)

structure Actors (s : State T B α) : Prop where
  base : Mvcc.Base P s.object
  locked : ∀ v, s.object.memory.status v = .locked → ∃ f, (s.object.flat f).held = some v
  fresh : ∀ t, s.phase t = .fresh → s.object.read t = .idle ∧ s.drawn t = false
  undrawn : ∀ t, s.drawn t = false →
    .of t ∉ s.object.memory.chain ∧ (s.object.write t = .idle ∨ s.object.write t = .aborted)
  tid : ∀ t, s.drawn t = true → P.ts t < s.tid
  finished : ∀ t, s.phase t = .finished → writeOver (s.object.write t) = true
  foreground : ∀ t fv, (s.object.flat (.inl t)).target = some fv → s.phase t = .active ∧ seen (s.object.read t) = some fv
  walking : ∀ b flattenv w, s.scan b = .walk flattenv w → w.On s.object.memory.chain
  background : ∀ b fv, (s.object.flat (.inr b)).target = some fv → s.scan b = .flatten
  install : ∀ t, s.object.write t ≠ .installed → s.gc (.install t) = .idle
  flatten : ∀ f, s.object.flat f ≠ .done → s.gc (.flatten f) = .idle

namespace Actors
variable {P} {s : State T B α} {o : Mvcc.State T (T ⊕ B) α} {t : T} {a : Action T (T ⊕ B)}

omit [DecidableEq T] [DecidableEq B] in
theorem start : Actors P (.start P : State T B α) where
  base := .start
  locked v hv := by
    cases v with
    | initial | of => cases hv
  fresh _ _ := ⟨rfl,rfl⟩
  undrawn t _ := ⟨by simp [State.start,Mvcc.State.start],.inl rfl⟩
  tid _ h := by cases h
  finished _ h := by cases h
  foreground _ _ h := by cases h
  walking _ _ _ h := by cases h
  background _ _ h := by cases h
  install _ _ := rfl
  flatten _ _ := rfl

theorem own (h : Actors P s) (hphase : s.phase t = .active) (htarget : (s.object.flat (.inl t)).target = none)
    (hs : Mvcc.OwnStep P s.object t a o) (hstep : Mvcc.Step P s.object o) (hlock : a = .lock t → s.drawn t = true) :
    Actors P (s.withObject o) := by
  have ht := h.base.own_turn hs
  refine ⟨h.base.step hstep,locked_step hstep h.base h.locked,fun u hu => ?_,fun u hu => ?_,h.tid,fun u hu => ?_,fun u fv hu => ?_,
    fun b flattenv w hw => ht.memory.on (h.walking b flattenv w hw),fun b fv hb => ?_,fun u hu => h.install u (fun hw => hu ?_),
      fun f hf => ?_⟩
  · have hne : u ≠ t := fun heq => by rw [heq,show (s.withObject o).phase t = .active from hphase] at hu; cases hu
    change o.read u = _ ∧ _
    rw [ht.read u hne]
    exact h.fresh u hu
  · obtain ⟨hmem,hw⟩ := h.undrawn u hu
    by_cases hut : u = t
    · subst hut
      obtain ⟨hchain,hw'⟩ := undrawn_own hs (fun heq => Bool.false_ne_true (hu.symm.trans (hlock heq))) hw
      change _ ∉ o.memory.chain ∧ _
      rw [hchain]
      exact ⟨hmem,hw'⟩
    · change _ ∧ (o.write u = _ ∨ o.write u = _)
      rw [ht.write u hut]
      exact ⟨fun hin => hmem (ht.memory.new u (fun heq => hut (some.inj heq).symm) hin),hw⟩
  · have hne : u ≠ t := fun heq => by rw [heq,show (s.withObject o).phase t = .active from hphase] at hu; cases hu
    change writeOver (o.write u) = true
    rw [ht.write u hne]
    exact h.finished u hu
  · change (o.flat _).target = _ at hu
    rw [ht.flat] at hu
    have hne : u ≠ t := by
      rintro rfl
      rw [htarget] at hu
      cases hu
    change _ ∧ seen (o.read u) = _
    rw [ht.read u hne]
    exact h.foreground u fv hu
  · change (o.flat _).target = _ at hb
    rw [ht.flat] at hb
    exact h.background b fv hb
  · by_cases hut : u = t
    · subst hut
      exact installed_own hs hw
    · exact (ht.write u hut).trans hw
  · change o.flat f ≠ _ at hf
    rw [ht.flat] at hf
    exact h.flatten f hf

private theorem flatTurn {f} (h : Actors P s) (ht : Mvcc.FlatTurn f s.object o) (hstep : Mvcc.Step P s.object o)
    (hleft : ∀ t fv, f = .inl t → (o.flat f).target = some fv → s.phase t = .active ∧ seen (s.object.read t) = some fv)
    (hright : ∀ b fv, f = .inr b → (o.flat f).target = some fv → s.scan b = .flatten)
    (hdone : s.object.flat f ≠ .done) : Actors P (s.withObject o) := by
  refine ⟨h.base.step hstep,locked_step hstep h.base h.locked,fun u hu => ?_,fun u hu => ?_,h.tid,fun u hu => ?_,fun u fv hu => ?_,
    fun b flattenv w hw => ht.memory.on (h.walking b flattenv w hw),fun b fv hb => ?_,fun u hu => ?_,fun f' hf => ?_⟩
  · change o.read u = _ ∧ _
    rw [ht.read]
    exact h.fresh u hu
  · change _ ∉ o.memory.chain ∧ (o.write u = _ ∨ o.write u = _)
    rw [ht.chain,ht.write]
    exact h.undrawn u hu
  · change writeOver (o.write u) = true
    rw [ht.write]
    exact h.finished u hu
  · change _ ∧ seen (o.read u) = _
    rw [ht.read]
    by_cases hf : .inl u = f
    · exact hleft u fv hf.symm (hf ▸ hu)
    · exact h.foreground u fv (ht.flat _ hf ▸ hu)
  · by_cases hf : .inr b = f
    · exact hright b fv hf.symm (hf ▸ hb)
    · exact h.background b fv (ht.flat _ hf ▸ hb)
  · change o.write u ≠ _ at hu
    rw [ht.write] at hu
    exact h.install u hu
  · by_cases hff : f' = f
    · exact h.flatten f' (hff ▸ hdone)
    · exact h.flatten f' (ht.flat f' hff ▸ hf)

theorem flat {f m c} (h : Actors P s) (hs : Mvcc.FlatStep P s.object.memory (s.object.flat f) m c) :
    Actors P (s.withObject { s.object with memory := m, flat := update s.object.flat f c }) := by
  have htarget : ∀ fv, (update s.object.flat f c f).target = some fv → (s.object.flat f).target = some fv := by
    intro fv hfv
    rw [update_self] at hfv
    exact hs.target hfv
  refine h.flatTurn (h.base.flat_turn hs) (.flat f m c hs) (fun t fv hf hfv => ?_) (fun b fv hf hfv => ?_) (fun hdone => ?_)
  · exact h.foreground t fv (hf ▸ htarget fv hfv)
  · exact h.background b fv (hf ▸ htarget fv hfv)
  · rw [hdone] at hs
    cases hs

theorem startFlatten {f fv} (h : Actors P s) (hidle : s.object.flat f = .idle) (hd : s.object.memory.status fv = .committed .delta)
    (hleft : ∀ t, f = .inl t → s.phase t = .active ∧ seen (s.object.read t) = some fv)
    (hright : ∀ b, f = .inr b → s.scan b = .flatten) :
    Actors P (s.withObject { s.object with flat := update s.object.flat f (.back fv fv []) }) := by
  have hself : ∀ v, (update s.object.flat f (.back fv fv []) f).target = some v → fv = v := by
    intro v hv
    rw [update_self] at hv
    exact some.inj hv
  refine h.flatTurn (f := f) ⟨.refl _ _,rfl,rfl,rfl,fun f' hf' => update_of_ne hf' _ _⟩ (.flatten f fv hidle hd)
    (fun t v hf hv => ?_) (fun b _ hf _ => hright b hf) (by rw [hidle]; nofun)
  rw [← hself v hv]
  exact hleft t hf

omit [DecidableEq T] in
theorem setScan {b c} (h : Actors P s) (hon : ∀ flattenv w, c = .walk flattenv w → w.On s.object.memory.chain)
    (htarget : (s.object.flat (.inr b)).target = none ∨ c = .flatten) : Actors P (s.setScan b c) := by
  refine ⟨h.base,h.locked,h.fresh,h.undrawn,h.tid,h.finished,h.foreground,fun b' flattenv w hw => ?_,fun b' fv hb => ?_,h.install,
    h.flatten⟩
  · change update s.scan b c b' = _ at hw
    by_cases hb' : b' = b
    · rw [hb',update_self] at hw
      exact hon flattenv w hw
    · rw [update_of_ne hb'] at hw
      exact h.walking b' flattenv w hw
  · change update s.scan b c b' = _
    by_cases hb' : b' = b
    · subst hb'
      rw [update_self]
      refine htarget.resolve_left (fun hnone => ?_)
      rw [show (s.object.flat (.inr b')).target = some fv from hb] at hnone
      cases hnone
    · rw [update_of_ne hb']
      exact h.background b' fv hb

omit [DecidableEq T] [DecidableEq B] in
/-- Callbacks have no effect on the object. -/
theorem callback {garbage gc waits handed} (h : Actors P s) (hgc : ∀ c, s.gc c = .idle → gc c = .idle ∨
      (∃ t, c = .install t ∧ s.object.write t = .installed) ∨ ∃ f, c = .flatten f ∧ s.object.flat f = .done) :
    Actors P { s with garbage := garbage, gc := gc, waits := waits, handed := handed } := by
  refine ⟨h.base,h.locked,h.fresh,h.undrawn,h.tid,h.finished,h.foreground,h.walking,h.background,fun t ht => ?_,fun f hf => ?_⟩
  · rcases hgc _ (h.install t ht) with hidle | ⟨u,hu,hw⟩ | ⟨f,hf,-⟩
    · exact hidle
    · cases hu
      exact absurd hw ht
    · cases hf
  · rcases hgc _ (h.flatten f hf) with hidle | ⟨u,hu,-⟩ | ⟨f',hf',hdone⟩
    · exact hidle
    · cases hu
    · cases hf'
      exact absurd hdone hf

section
omit [DecidableEq B]

theorem begin (h : Actors P s) (ht : s.phase t = .fresh) : Actors P { s with phase := update s.phase t .active } := by
  refine ⟨h.base,h.locked,fun u hu => ?_,h.undrawn,h.tid,fun u hu => ?_,fun u fv hu => ?_,h.walking,h.background,h.install,h.flatten⟩
  · exact h.fresh u (of_update hu nofun).2
  · exact h.finished u (of_update hu nofun).2
  · obtain ⟨hactive,hseen⟩ := h.foreground u fv hu
    have hut : u ≠ t := by
      rintro rfl
      rw [ht] at hactive
      cases hactive
    exact ⟨(update_of_ne hut _ _).trans hactive,hseen⟩

theorem draw (h : Actors P s) (hphase : s.phase t = .active) (htid : s.tid ≤ P.ts t) :
    Actors P { s with tid := P.ts t+1, drawn := update s.drawn t true } := by
  refine ⟨h.base,h.locked,fun u hu => ?_,fun u hu => h.undrawn u (of_update hu nofun).2,fun u hu => ?_,h.finished,h.foreground,h.walking,
    h.background,h.install,h.flatten⟩
  · obtain ⟨hread,hnot⟩ := h.fresh u hu
    refine ⟨hread,(update_of_ne ?_ _ _).trans hnot⟩
    rintro rfl
    rw [show s.phase u = .fresh from hu] at hphase
    cases hphase
  · change P.ts u < P.ts t+1
    by_cases hut : u = t
    · rw [hut]
      exact Nat.lt_succ_self _
    · have hlt := h.tid u ((update_of_ne hut _ _).symm.trans hu)
      omega

theorem finish (h : Actors P s) (hwrite : writeOver (s.object.write t) = true) (htarget : (s.object.flat (.inl t)).target = none) :
    Actors P { s with phase := update s.phase t .finished } := by
  refine ⟨h.base,h.locked,fun u hu => ?_,h.undrawn,h.tid,fun u hu => ?_,fun u fv hu => ?_,h.walking,h.background,h.install,h.flatten⟩
  · exact h.fresh u (of_update hu nofun).2
  · by_cases hut : u = t
    · rw [hut]
      exact hwrite
    · exact h.finished u ((update_of_ne hut _ _).symm.trans hu)
  · obtain ⟨hactive,hseen⟩ := h.foreground u fv hu
    have hut : u ≠ t := by
      rintro rfl
      rw [show (s.object.flat (.inl u)).target = some fv from hu] at htarget
      cases htarget
    exact ⟨(update_of_ne hut _ _).trans hactive,hseen⟩

end

section
omit [DecidableEq T] [DecidableEq B]

theorem target_of_scan {b} (h : Actors P s) (hne : s.scan b ≠ .flatten) : (s.object.flat (.inr b)).target = none := by
  by_contra hsome
  obtain ⟨fv,hfv⟩ := ne_none_iff_exists'.mp hsome
  exact hne (h.background b fv hfv)

/-- Below a version that no active transaction is below, everything is settled. -/
theorem settled {h x} (ha : Actors P s) (hfrozen : ∀ t, s.phase t = .active → s.drawn t = true → P.wtid h ≤ P.ts t)
    (hx : x ∈ s.object.memory.chain) (hlt : P.wtid x < P.wtid h) :
    (s.object.memory.status x).isCommitted = true ∨ s.object.memory.status x = .aborted := by
  cases x with
  | initial => exact .inl (Mvcc.MvStatus.isCommitted_of_isFull ha.base.initial_full)
  | of t =>
    have hdrawn : s.drawn t = true := by
      by_contra hnot
      exact (ha.undrawn t (Bool.eq_false_of_not_eq_true hnot)).1 hx
    have hover : writeOver (s.object.write t) = true := by
      cases hphase : s.phase t with
      | fresh => exact absurd hdrawn (Bool.eq_false_iff.mp (ha.fresh t hphase).2)
      | active => exact absurd hlt (not_lt.mpr (hfrozen t hphase hdrawn))
      | finished => exact ha.finished t hphase
    have hw := ha.base.write t
    generalize s.object.write t = w at hover hw
    cases w with
    | idle => exact absurd hx hw.1
    | installed => exact .inl hw.2
    | aborted => exact .inr hw
    | _ => cases hover

end

end Actors

end Invariant

end AlNiCo.Sto.MvGarbage
