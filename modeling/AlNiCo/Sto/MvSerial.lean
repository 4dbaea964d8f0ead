import AlNiCo.Sto.MvChain

/-! No version commits between what a transaction read and its own timestamp, and none that
is commutative on top of a deleted one. The transaction that checks and the one that locks
walk the chain from both sides, and one of the two meets the other. -/
namespace AlNiCo.Sto.Mvcc
open Library DescendingChain
open Function (update update_of_ne update_self)

section
variable {T α : Type} [DecidableEq T] (P : Program T α)

/-- The last loop of `cp_lock` has `v` in front of it, or is at `v` in one of the stages. -/
def Nearing (here : Stage → Prop) (v : Version T) : Walk (Version T) → Stage → Prop
  | .load place,_ => Below P.wtid place v
  | .at h,stage => P.wtid v < P.wtid h ∨ h = v ∧ here stage

variable {P} {here : Stage → Prop} {t : T} {m m' : Memory T α} {v : Version T} {w : Walk (Version T)} {stage : Stage} {pc : WritePc T}

/-- The loop goes on towards `v`, gives up, or stops at a committed version above `v`. -/
theorem Nearing.step (hs : WriteStep P t m (.wv2 w stage) m' pc) (hn : Nearing P here v w stage)
    (hl : Descending P.wtid m.chain) (hu : Under P m t w stage) (hv : v ∈ m.chain) (hdeleted : here .deleted) (hstop : ¬here .stop)
    (henabled : ¬((m.status v).isDeleted = true ∧ (P.update t).flag = .delta) → here .committed)
    (hcommitted : here .committed → (m.status v).isCommitted = true ∧ here .rtid)
    (hrtid : here .rtid → P.ts t < m.rtid v) :
    m'.status (.of t) = .aborted ∨ (∃ w' stage', pc = .wv2 w' stage' ∧ Nearing P here v w' stage') ∨
      ∃ h, w = .at h ∧ (m.status h).isCommitted = true ∧ P.wtid v < P.wtid h ∧ m' = m := by
  cases hs with
  | wv2Load hnext =>
    right; left
    refine ⟨_,_,rfl,?_⟩
    rcases (after_le hl hnext hv hn).lt_or_eq with hlt | heq
    · exact .inl hlt
    · exact .inr ⟨(hl.eq_of_key_eq hv (after_mem hnext) heq).symm,hdeleted⟩
  | wv2End hnext =>
    obtain ⟨p,rfl,hp,-⟩ := hu
    exact absurd hn (after_eq_none hl (fun q hq => Option.some.inj hq ▸ hp) hnext hv)
  | wv2Disabled | wv2Read => exact .inl (setStatus_self _ _)
  | wv2Enabled hflags =>
    right; left
    refine ⟨_,_,rfl,?_⟩
    rcases hn with hlt | ⟨rfl,-⟩
    · exact .inl hlt
    · exact .inr ⟨rfl,henabled hflags⟩
  | wv2Committed hc =>
    right; left
    exact ⟨_,_,rfl,hn.imp_right (fun hx => ⟨hx.1,(hcommitted hx.2).2⟩)⟩
  | wv2Open hc =>
    right; left
    refine ⟨_,_,rfl,.inl (hn.resolve_right (fun hx => ?_))⟩
    have hcv := (hcommitted hx.2).1
    rw [← hx.1,hc] at hcv
    cases hcv
  | wv2Unread hle =>
    right; left
    refine ⟨_,_,rfl,.inl (hn.resolve_right (fun hx => ?_))⟩
    exact absurd (hx.1 ▸ hle) (not_le.mpr (hrtid hx.2))
  | wv2Stop hc => exact .inr (.inr ⟨_,rfl,hc,hn.resolve_right (fun hx => hstop hx.2),rfl⟩)
  | wv2Pass hc =>
    right; left
    exact ⟨_,_,rfl,hn.resolve_right (fun hx => hstop hx.2)⟩

end

section Reads
variable {T F α : Type} [DecidableEq T] [DecidableEq F] (P : Program T α)

/-- The version that a transaction checks, and how far it has come. -/
def ReadPc.span : ReadPc T → Option (Version T × Walk (Version T))
  | .check v w => some (v,w)
  | .passed v => some (v,.at v)
  | _ => none

/-- A transaction in `cp_lock` that has yet to look at `v`. -/
def Approaching (v : Version T) : WritePc T → Prop
  | .wv1 _ => True
  | .wv2 w stage => Nearing P (· ≠ .stop) v w stage
  | _ => False

/-- A committed version in front of the check, which will fail on it. -/
def Doomed (s : State T F α) (t : T) (v : Version T) (w : Walk (Version T)) : Prop :=
  ∃ q ∈ s.memory.chain, (s.memory.status q).isCommitted = true ∧ P.wtid v < P.wtid q ∧ P.wtid q < P.ts t ∧ Ahead P.wtid w q

/-- Why a version between the one read and the reader does no harm. -/
def Harmless (s : State T F α) (v : Version T) (w : Walk (Version T)) (e : Version T) : Prop :=
  s.memory.status e = .aborted ∨ Ahead P.wtid w e ∨ ∃ u, e = .of u ∧ Approaching P v (s.write u)

def Spanned (s : State T F α) (t : T) (v : Version T) (w : Walk (Version T)) : Prop :=
  Doomed P s t v w ∨ ∀ e ∈ s.memory.chain, P.wtid v < P.wtid e → P.wtid e < P.ts t → Harmless P s v w e

variable {P} {s s' : State T F α} {t u : T} {v : Version T} {w : Walk (Version T)} {who : Option T}

section
omit [DecidableEq T] [DecidableEq F]

theorem Doomed.evolves (h : Doomed P s t v w) (hm : Evolves who s.memory s'.memory) : Doomed P s' t v w := by
  obtain ⟨q,hq,hc,hlt,hlt',ha⟩ := h
  exact ⟨q,hm.mem q hq,hm.committed q hc,hlt,hlt',ha⟩

theorem Spanned.turn (h : Spanned P s t v w) (ht : Turn u s s') (hown : .of u ∈ s'.memory.chain → P.wtid v < P.ts u → P.ts u < P.ts t →
      s'.memory.status (.of u) = .aborted ∨ Approaching P v (s'.write u) ∨ .of u ∈ s.memory.chain ∧ ¬Approaching P v (s.write u)) :
    Spanned P s' t v w := by
  rcases h with hdoom | hall
  · exact .inl (hdoom.evolves ht.memory)
  -- a version that was there keeps its excuse, unless the excuse was the step of `u` itself
  have hkeep : ∀ e ∈ s.memory.chain, P.wtid v < P.wtid e → P.wtid e < P.ts t →
      (∀ x, e = .of x → Approaching P v (s.write x) → Approaching P v (s'.write x)) → Harmless P s' v w e := by
    intro e he hlt hlt' happ
    rcases hall e he hlt hlt' with ha | ha | ⟨x,rfl,ha⟩
    · exact .inl (ht.memory.aborted e ha)
    · exact .inr (.inl ha)
    · exact .inr (.inr ⟨x,rfl,happ x rfl ha⟩)
  right
  intro e he hlt hlt'
  by_cases heu : e = .of u
  · subst heu
    rcases hown he hlt hlt' with ha | ha | ⟨hmem,hnot⟩
    · exact .inl ha
    · exact .inr (.inr ⟨u,rfl,ha⟩)
    · refine hkeep _ hmem hlt hlt' (fun x hx ha => ?_)
      cases hx
      exact absurd ha hnot
  · cases e with
    | initial => exact absurd hlt (Nat.not_lt_zero _)
    | of x =>
      have hxu : x ≠ u := fun heq => heu (congrArg Version.of heq)
      refine hkeep _ (ht.memory.new x (fun heq => hxu (Option.some.inj heq).symm) he) hlt hlt' (fun y hy ha => ?_)
      cases hy
      rw [ht.write x hxu]
      exact ha

theorem Spanned.flatTurn {f} (h : Spanned P s t v w) (ht : FlatTurn f s s') : Spanned P s' t v w := by
  rcases h with hdoom | hall
  · exact .inl (hdoom.evolves ht.memory)
  right
  intro e he hlt hlt'
  rw [ht.chain] at he
  rcases hall e he hlt hlt' with ha | ha | ha
  · exact .inl (ht.memory.aborted e ha)
  · exact .inr (.inl ha)
  · exact .inr (.inr (ht.write ▸ ha))

theorem Base.span (hb : Base P s) (hspan : (s.read t).span = some (v,w)) : Seen P s.memory t v ∧ P.ts t ≤ s.memory.rtid v := by
  have ho := hb.read t
  generalize s.read t = r at hspan ho
  cases r with
  | check v' w' =>
    cases hspan
    exact ⟨ho.1,ho.2.1⟩
  | passed v' =>
    cases hspan
    exact ho
  | _ => cases hspan

end

omit [DecidableEq T] in
theorem Approaching.checking {pc} (h : Approaching P v pc) : pc.checking = true := by
  cases pc with
  | wv1 | wv2 => rfl
  | _ => cases h

omit [DecidableEq F] in
theorem Spanned.write {m pc} (h : Spanned P s t v w) (hb : Base P s)
    (hspan : (s.read t).span = some (v,w)) (hs : WriteStep P u s.memory (s.write u) m pc) :
    Spanned P { s with memory := m, write := update s.write u pc } t v w := by
  have ht := hb.write_turn hs
  obtain ⟨hseen,hrtid⟩ := hb.span hspan
  have hwu := hb.write u
  have hself : update s.write u pc u = pc := update_self _ _ _
  by_cases happ : Approaching P v (s.write u)
  · generalize hold : s.write u = old at hs hwu happ
    cases old with
    | wv1 wk =>
      refine h.turn ht (fun _ hlt _ => ?_)
      change m.status (.of u) = .aborted ∨ Approaching P v (update s.write u pc u) ∨ _
      rw [hself]
      cases hs with
      | wv1Load _ | wv1Pass _ _ => exact .inr (.inl trivial)
      | wv1Done => exact .inr (.inl hlt)
      | wv1Abort => exact .inl (setStatus_self _ _)
    | wv2 wk stage =>
      by_cases hut : P.ts u < P.ts t
      · rcases happ.step hs hb.chain hwu.2 hseen.1 nofun (fun hne => hne rfl) (fun _ => nofun) (fun _ => ⟨hseen.2.1,nofun⟩)
          (fun _ => hut.trans_le hrtid) with ha | ⟨w',stage',rfl,hn⟩ | ⟨q,rfl,hc,hlt,hm⟩
        · exact h.turn ht (fun _ _ _ => .inl ha)
        · refine h.turn ht (fun _ _ _ => .inr (.inl ?_))
          change Approaching P v (update s.write u _ u)
          rw [hself]
          exact hn
        · -- the loop stops at a committed version that the check has yet to pass
          have hdoom : Doomed P s t v w := by
            rcases h with hdoom | hall
            · exact hdoom
            have hqt := hwu.2.2.1.trans hut
            rcases hall q hwu.2.1 hlt hqt with ha | ha | ⟨x,rfl,ha⟩
            · rw [ha] at hc
              cases hc
            · exact ⟨q,hwu.2.1,hc,hlt,hqt,ha⟩
            · rw [hb.not_committed ha.checking] at hc
              cases hc
          exact .inl (hdoom.evolves ht.memory)
      · exact h.turn ht (fun _ _ hlt => absurd hlt hut)
    | _ => cases happ
  · refine h.turn ht (fun hmem hlt _ => ?_)
    by_cases hin : .of u ∈ s.memory.chain
    · exact .inr (.inr ⟨hin,happ⟩)
    · refine .inr (.inl ?_)
      change Approaching P v (update s.write u pc u)
      rw [hself]
      rcases hs.links hin hmem with ⟨-,rfl⟩ | ⟨-,rfl⟩
      · trivial
      · exact hlt

omit [DecidableEq F] in
/-- The check passes by what has aborted or is later than the reader, and by nothing else. -/
theorem Spanned.read {r w'} (hall : ∀ w, (s.read t).span = some (v,w) → Spanned P s t v w)
    (hl : Descending P.wtid s.memory.chain) (hb : ReadOk P s.memory t (s.write t) (s.read t))
    (hs : ReadStep P t s.memory (s.read t) r) (hspan : r.span = some (v,w')) : Spanned P s t v w' := by
  generalize s.read t = old at hall hb hs
  cases hs with
  | findLoad | found | findPass | failed => cases hspan
  | checkLoad hnext =>
    cases hspan
    rcases hall _ rfl with ⟨q,hq,hc,hlt,hlt',ha⟩ | hall
    · exact .inl ⟨q,hq,hc,hlt,hlt',ha.load hl hnext hq⟩
    · exact .inr (fun e he hlt hlt' => (hall e he hlt hlt').imp_right (Or.imp_left (fun ha => ha.load hl hnext he)))
  | passed =>
    cases hspan
    exact hall _ rfl
  | @checkPass _ h hne hpass =>
    cases hspan
    rcases hall _ rfl with ⟨q,hq,hc,hlt,hlt',ha⟩ | hall
    · refine .inl ⟨q,hq,hc,hlt,hlt',ha.pass hl hq hb.2.2.1 ?_⟩
      rintro rfl
      rcases hpass with hab | hle
      · rw [hab] at hc
        cases hc
      · exact absurd hlt' (not_lt.mpr hle)
    · refine .inr (fun e he hlt hlt' => ?_)
      by_cases heq : e = h
      · subst heq
        exact .inl (hpass.resolve_right (not_le.mpr hlt'))
      · exact (hall e he hlt hlt').imp_right (Or.imp_left (fun ha => ha.pass hl he hb.2.2.1 heq))

variable (P) in
def Spans (s : State T F α) : Prop := ∀ t v w, (s.read t).span = some (v,w) → Spanned P s t v w

theorem Spans.step (h : Spans P s) (hb : Base P s) (hs : Step P s s') : Spans P s' := by
  intro t v w hspan
  cases hs with
  | find u hr hw =>
    by_cases htu : t = u
    · subst htu
      simp only [update_self] at hspan
      cases hspan
    · simp only [update_of_ne htu] at hspan
      exact h t v w hspan
  | read u r hstep =>
    by_cases htu : t = u
    · subst htu
      simp only [update_self] at hspan
      exact Spanned.read (s := s) (h t v) hb.chain (hb.read t) hstep hspan
    · simp only [update_of_ne htu] at hspan
      exact h t v w hspan
  | check u x hr hw =>
    by_cases htu : t = u
    · subst htu
      simp only [update_self] at hspan
      cases hspan
      exact .inr (fun _ _ _ _ => .inr (.inl trivial))
    · simp only [update_of_ne htu] at hspan
      exact h t v w hspan
  | lock u hr hw =>
    refine (h t v w hspan).turn (u := u) ⟨.refl _ _,fun _ _ => rfl,fun _ hu => update_of_ne hu _ _,rfl⟩
      (fun hmem _ _ => .inr (.inr ⟨hmem,?_⟩))
    rw [hw]
    exact id
  | write u m pc hstep => exact (h t v w hspan).write hb hspan hstep
  | install u hw hr =>
    refine (h t v w hspan).turn (hb.install_turn hw) (fun hmem _ _ => .inr (.inr ⟨hmem,?_⟩))
    rw [hw]
    exact id
  | abort u hw =>
    have hspan' : (s.read t).span = some (v,w) := by
      by_cases htu : t = u
      · subst htu
        simp only [update_self] at hspan
        cases hspan
      · simp only [update_of_ne htu] at hspan
        exact hspan
    exact (h t v w hspan').turn (hb.abort_turn hw) (fun _ _ _ => .inl (setStatus_self _ _))
  | flatten f fv hf hd => exact h t v w hspan
  | flat f m c hstep => exact (h t v w hspan).flatTurn (hb.flat_turn hstep)

end Reads

section Deltas
variable {T F α : Type} [DecidableEq T] [DecidableEq F] (P : Program T α)

/-- A transaction that writes a delta has yet to look at `d` below it. -/
def Searching (d : Version T) : WritePc T → Prop
  | .wv2 w stage => Nearing P (· = .deleted) d w stage
  | _ => False

/-- A transaction that deletes has yet to look at `e` above it. -/
def Watching (e : Version T) : WritePc T → Prop
  | .wv1 w => Ahead P.wtid w e
  | _ => False

/-- A deleted version below a delta: something is committed between the two, or one of the
two transactions will meet the other's version. -/
def Parted (s : State T F α) (u : T) (d : Version T) : Prop :=
  (∃ b ∈ s.memory.chain, (s.memory.status b).isCommitted = true ∧ P.wtid d < P.wtid b ∧ P.wtid b < P.ts u) ∨
    Searching P d (s.write u) ∨ ∃ x, d = .of x ∧ Watching P (.of u) (s.write x)

def Deltas (s : State T F α) : Prop :=
  ∀ u d, .of u ∈ s.memory.chain → (s.memory.status (.of u)).isDelta = true → d ∈ s.memory.chain →
    (s.memory.status d).isDeleted = true → P.wtid d < P.ts u → Parted P s u d

variable {P} {s s' : State T F α} {x u : T} {d : Version T} {m m' : Memory T α} {pc pc' : WritePc T}

omit [DecidableEq T] in
theorem Searching.checking (h : Searching P d pc) : pc.checking = true := by
  cases pc with
  | wv2 => rfl
  | _ => cases h

omit [DecidableEq T] in
theorem Watching.checking {e} (h : Watching P e pc) : pc.checking = true := by
  cases pc with
  | wv1 => rfl
  | _ => cases h

omit [DecidableEq T] [DecidableEq F] in
/-- A step of `x` keeps what it does not answer for itself. -/
theorem Parted.turn (h : Parted P s u d) (ht : Turn x s s') (hu : x = u → Searching P d (s.write u) → Parted P s' u d)
    (hd : d = .of x → Watching P (.of u) (s.write x) → Parted P s' u d) : Parted P s' u d := by
  rcases h with ⟨b,hb,hc,hlt,hlt'⟩ | hsearch | ⟨y,rfl,hwatch⟩
  · exact .inl ⟨b,ht.memory.mem b hb,ht.memory.committed b hc,hlt,hlt'⟩
  · by_cases hx : x = u
    · exact hu hx hsearch
    · right; left
      rw [ht.write u (Ne.symm hx)]
      exact hsearch
  · by_cases hx : x = y
    · subst hx
      exact hd rfl hwatch
    · right; right
      refine ⟨y,rfl,?_⟩
      rw [ht.write y (Ne.symm hx)]
      exact hwatch

theorem flag_eq_deleted {f} (h : (MvStatus.pending f).isDeleted = true) : f = .deleted := by
  cases f with
  | deleted => rfl
  | _ => cases h

/-- The search for `d` finds it, or something committed above it. -/
theorem Searching.step (h : Searching P d pc) (hs : WriteStep P u m pc m' pc') (hl : Descending P.wtid m.chain)
    (hw : WriteOk P m u pc) (hdelta : (m.status (.of u)).isDelta = true) (hd : d ∈ m.chain) (hdel : (m.status d).isDeleted = true) :
    m'.status (.of u) = .aborted ∨ Searching P d pc' ∨
      ∃ b ∈ m'.chain, (m'.status b).isCommitted = true ∧ P.wtid d < P.wtid b ∧ P.wtid b < P.ts u := by
  cases pc with
  | wv2 w stage =>
    have hflag : (P.update u).flag = .delta := by
      rw [hw.1.2] at hdelta
      exact flag_eq_delta hdelta
    rcases Nearing.step hs h hl hw.2 hd rfl nofun (fun hnot => absurd ⟨hdel,hflag⟩ hnot) nofun nofun with
      ha | ⟨w',stage',rfl,hn⟩ | ⟨q,rfl,hc,hlt,rfl⟩
    · exact .inl ha
    · exact .inr (.inl hn)
    · exact .inr (.inr ⟨q,hw.2.1,hc,hlt,hw.2.2.1⟩)
  | _ => cases h

/-- The watch for `e` finds it. -/
theorem Watching.step {e} (h : Watching P e pc) (hs : WriteStep P x m pc m' pc') (hl : Descending P.wtid m.chain)
    (hw : WriteOk P m x pc) (he : e ∈ m.chain) (hdelta : (m.status e).isDelta = true) (hlt : P.ts x < P.wtid e) :
    m'.status (.of x) = .aborted ∨ Watching P e pc' := by
  cases pc with
  | wv1 w =>
    cases hs with
    | wv1Load hnext => exact .inr (h.load hl hnext he)
    | wv1Done => exact absurd hlt (not_lt.mpr h)
    | wv1Abort => exact .inl (setStatus_self _ _)
    | wv1Pass hne hnot =>
      refine .inr (h.pass hl he hw.2.1 ?_)
      rintro rfl
      rw [hnot] at hdelta
      cases hdelta
  | _ => cases h

section
omit [DecidableEq F]

/-- A version that is new in the chain is the one of the transaction that took the step. -/
theorem Turn.new_version {e} (ht : Turn x s s') (hb : Base P s) (he : e ∈ s'.memory.chain) (hnot : e ∉ s.memory.chain) : e = .of x := by
  cases e with
  | initial => exact absurd hb.initial hnot
  | of y =>
    by_contra hne
    refine hnot (ht.memory.new y (fun heq => hne ?_) he)
    rw [Option.some.inj heq]

theorem Base.pending_of_step (hb : Base P s) (hs : WriteStep P x s.memory (s.write x) m pc)
    (hnot : s.memory.status (.of x) ≠ .aborted) : s.memory.status (.of x) = .pending (P.update x).flag := by
  refine (hb.status_of_not_installed (fun heq => ?_)).resolve_right hnot
  rw [heq] at hs
  cases hs

theorem Deltas.write (h : Deltas P s) (hb : Base P s) (hs : WriteStep P x s.memory (s.write x) m pc) :
    Deltas P { s with memory := m, write := update s.write x pc } := by
  have ht := hb.write_turn hs
  have hself : update s.write x pc x = pc := update_self _ _ _
  intro u d hu hdelta hd hdel hlt
  have hdelta' := ht.memory.delta _ hdelta
  have hdel' := ht.memory.deleted _ hdel
  by_cases hu' : .of u ∈ s.memory.chain
  · by_cases hd' : d ∈ s.memory.chain
    · refine (h u d hu' hdelta' hd' hdel' hlt).turn ht (fun hxu hsearch => ?_) (fun hdx hwatch => ?_)
      · subst hxu
        rcases hsearch.step hs hb.chain (hb.write x) hdelta' hd' hdel' with ha | hsearch | hbetween
        · change (m.status (.of x)).isDelta = true at hdelta
          rw [ha] at hdelta
          cases hdelta
        · refine .inr (.inl ?_)
          change Searching P d (update s.write x pc x)
          rw [hself]
          exact hsearch
        · exact .inl hbetween
      · subst hdx
        rcases hwatch.step hs hb.chain (hb.write x) hu' hdelta' hlt with ha | hwatch
        · change (m.status (.of x)).isDeleted = true at hdel
          rw [ha] at hdel
          cases hdel
        · refine .inr (.inr ⟨x,rfl,?_⟩)
          change Watching P _ (update s.write x pc x)
          rw [hself]
          exact hwatch
    · -- the deletion has just been linked, and starts its watch at the head
      obtain rfl := ht.new_version hb hd hd'
      have hp := hb.pending_of_step hs (fun ha => by rw [ha] at hdel'; cases hdel')
      rw [hp] at hdel'
      refine .inr (.inr ⟨x,rfl,?_⟩)
      change Watching P _ (update s.write x pc x)
      rw [hself]
      rcases hs.links hd' hd with ⟨-,rfl⟩ | ⟨hflag,-⟩
      · trivial
      · exact absurd (flag_eq_deleted hdel') hflag
  · -- the delta has just been linked, and starts its search below itself
    obtain heq := ht.new_version hb hu hu'
    cases heq
    have hp := hb.pending_of_step hs (fun ha => by rw [ha] at hdelta'; cases hdelta')
    rw [hp] at hdelta'
    refine .inr (.inl ?_)
    change Searching P d (update s.write x pc x)
    rw [hself]
    rcases hs.links hu' hu with ⟨hflag,-⟩ | ⟨-,rfl⟩
    · rw [flag_eq_delta hdelta'] at hflag
      cases hflag
    · exact hlt

end

omit [DecidableEq T] [DecidableEq F] in
/-- What holds of all pairs after a step of `x` that links nothing. -/
theorem Deltas.turn (h : Deltas P s) (ht : Turn x s s') (hchain : s'.memory.chain = s.memory.chain)
    (hsearch : ∀ d, Searching P d (s.write x) → s'.memory.status (.of x) = .aborted)
    (hwatch : ∀ e, Watching P e (s.write x) → s'.memory.status (.of x) = .aborted) : Deltas P s' := by
  intro u d hu hdelta hd hdel hlt
  refine (h u d (hchain ▸ hu) (ht.memory.delta _ hdelta) (hchain ▸ hd) (ht.memory.deleted _ hdel) hlt).turn ht
    (fun hxu hs => ?_) (fun hdx hs => ?_)
  · subst hxu
    rw [hsearch d hs] at hdelta
    cases hdelta
  · subst hdx
    rw [hwatch _ hs] at hdel
    cases hdel

theorem Deltas.step (h : Deltas P s) (hb : Base P s) (hs : Step P s s') : Deltas P s' := by
  cases hs with
  | find | read | check | flatten => exact h
  | lock t hr hw =>
    refine h.turn (x := t) ⟨.refl _ _,fun _ _ => rfl,fun _ hu => update_of_ne hu _ _,rfl⟩ rfl (fun d hs => ?_) (fun e hs => ?_)
    · rw [hw] at hs
      cases hs
    · rw [hw] at hs
      cases hs
  | write t m pc hstep => exact h.write hb hstep
  | install t hw hr =>
    refine h.turn (hb.install_turn hw) rfl (fun d hs => ?_) (fun e hs => ?_)
    · rw [hw] at hs
      cases hs
    · rw [hw] at hs
      cases hs
  | abort t hw => exact h.turn (hb.abort_turn hw) rfl (fun _ _ => setStatus_self _ _) (fun _ _ => setStatus_self _ _)
  | flat f m c hstep =>
    have ht := hb.flat_turn hstep
    intro u d hu hdelta hd hdel hlt
    rw [ht.chain] at hu hd
    rcases h u d hu (ht.memory.delta _ hdelta) hd (ht.memory.deleted _ hdel) hlt with ⟨b,hb,hc,hlt,hlt'⟩ | hs
    · exact .inl ⟨b,ht.memory.mem b hb,ht.memory.committed b hc,hlt,hlt'⟩
    · exact .inr hs

end Deltas

section
variable {T F α : Type} [DecidableEq T] [DecidableEq F] {P : Program T α} {s : State T F α}

private theorem spans_of_reachable (h : (machine P).Reachable s) : Base P s ∧ Spans P s ∧ Deltas P s := by
  refine h.ofNext_invariant (I := fun s => Base P s ∧ Spans P s ∧ Deltas P s) ⟨.start,nofun,fun u d hu => ?_⟩
    (fun s a s' hI hnext => ?_)
  · cases List.mem_singleton.mp hu
  · obtain ⟨hb,hspans,hdeltas⟩ := hI
    have hs := step_of_next hnext
    exact ⟨hb.step hs,hspans.step hb hs,hdeltas.step hb hs⟩

/-- Whatever the interleaving: the chain is ordered by write timestamps, no version commits
between one that was read and its reader, and a committed delta never stands directly on a
deletion. -/
theorem mvcc_serializable (h : (machine P).Reachable s) :
    Descending P.wtid s.memory.chain ∧
    (∀ t v, s.read t = .passed v → ∀ w ∈ s.memory.chain, (s.memory.status w).isCommitted = true →
      ¬(P.wtid v < P.wtid w ∧ P.wtid w < P.ts t)) ∧
    (∀ v ∈ s.memory.chain, ∀ d ∈ s.memory.chain, (s.memory.status v).isCommitted = true → (s.memory.status v).isDelta = true →
      (s.memory.status d).isCommitted = true → (s.memory.status d).isDeleted = true → P.wtid d < P.wtid v →
      ∃ b ∈ s.memory.chain, (s.memory.status b).isCommitted = true ∧ P.wtid d < P.wtid b ∧ P.wtid b < P.wtid v) := by
  obtain ⟨hb,hspans,hdeltas⟩ := spans_of_reachable h
  refine ⟨hb.chain,fun t v hr w hw hc hlt => ?_,fun v hv d hd hc hdelta hdc hdel hlt => ?_⟩
  · have hspanned := hspans t v (.at v) (by rw [hr]; rfl)
    rcases hspanned with ⟨q,-,-,hlt,-,hle⟩ | hall
    · exact absurd hlt (not_lt.mpr hle)
    · rcases hall w hw hlt.1 hlt.2 with ha | ha | ⟨u,rfl,ha⟩
      · rw [ha] at hc
        cases hc
      · exact absurd hlt.1 (not_lt.mpr ha)
      · rw [hb.not_committed ha.checking] at hc
        cases hc
  · cases v with
    | initial => exact absurd hlt (Nat.not_lt_zero _)
    | of u =>
      rcases hdeltas u d hv hdelta hd hdel hlt with hbetween | hsearch | ⟨x,rfl,hwatch⟩
      · exact hbetween
      · rw [hb.not_committed hsearch.checking] at hc
        cases hc
      · rw [hb.not_committed hwatch.checking] at hdc
        cases hdc

def oneOfEach : Program (Fin 4) Nat where
  ts t := t+1
  ts_pos t := Nat.succ_pos t
  ts_injective _ _ h := Fin.ext (Nat.succ.inj h)
  readTs t := t+1
  readTs_le _ := le_rfl
  update := ![.delete 0,.full 10,.delta (· + 1),.full 0]
  first := 0
  firstDeleted := false

def oneAfterAnother (t u v w : T) : List (Action T F) :=
  List.flatten [writeAlone t 11,writeAlone u 9,writeAlone v 9,[.find w,.read w,.read w,.check w,.read w,.read w]]

def allWritten (t u v w : Fin 4) : State (Fin 4) (Fin 1) Nat :=
  (machine oneOfEach).play (.start oneOfEach) (oneAfterAnother t u v w)

theorem mvcc_serializable_one_of_each :
    (allWritten 0 1 2 3).read 3 = .passed (.of 2) ∧
    (∀ w ∈ (allWritten 0 1 2 3).memory.chain, ((allWritten 0 1 2 3).memory.status w).isCommitted = true →
      ¬(oneOfEach.wtid (.of 2) < oneOfEach.wtid w ∧ oneOfEach.wtid w < oneOfEach.ts 3)) ∧
    ∃ b ∈ (allWritten 0 1 2 3).memory.chain, ((allWritten 0 1 2 3).memory.status b).isCommitted = true ∧
      oneOfEach.wtid (.of 0) < oneOfEach.wtid b ∧ oneOfEach.wtid b < oneOfEach.wtid (.of 2) := by
  have hreach : (machine oneOfEach).Reachable (allWritten 0 1 2 3) :=
    Machine.Reachable.play .start (oneAfterAnother 0 1 2 3) (by decide +kernel)
  have hread : (allWritten 0 1 2 3).read 3 = .passed (.of 2) := by decide +kernel
  have hdelta : (allWritten 0 1 2 3).memory.status (.of 2) = .committed .delta := by decide +kernel
  have hdel : (allWritten 0 1 2 3).memory.status (.of 0) = .committed .deleted := by decide +kernel
  obtain ⟨-,hreads,hdeltas⟩ := mvcc_serializable hreach
  refine ⟨hread,hreads 3 _ hread,hdeltas (.of 2) (by decide +kernel) (.of 0) (by decide +kernel) ?_ ?_ ?_ ?_ (by decide)⟩
  · rw [hdelta]
    rfl
  · rw [hdelta]
    rfl
  · rw [hdel]
    rfl
  · rw [hdel]
    rfl

end

end AlNiCo.Sto.Mvcc
