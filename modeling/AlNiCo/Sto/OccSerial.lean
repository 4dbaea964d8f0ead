import AlNiCo.Sto.Occ

/-! Committed transactions read what they would have read one at a time in the order of their
points. -/
namespace AlNiCo.Sto.Occ
open Library Function List
variable {T X V : Type} [DecidableEq T] [DecidableEq X] {writes : T → Update X V} {d : X → V} {s s' : State T X V} {t : T}

/-- The value in place is one that a committed transaction has stored and not released yet. -/
def State.Storing (s : State T X V) (x : X) : Prop :=
  ∃ t stored, (s.word x).owner = some t ∧ (s.txn t).pc = .installing stored ∧ x ∈ stored

structure Later (s s' : State T X V) : Prop where
  version : ∀ x, (s.word x).version ≤ (s'.word x).version
  owner : ∀ x u, (s.word x).owner = some u →
    (s'.word x).owner = some u ∨ (s'.txn u).pc = .aborting ∨ (s.word x).version < (s'.word x).version
  aborting : ∀ u, (s.txn u).pc = .aborting → (s'.txn u).pc = .aborting
  frozen : ∀ u ∈ s.points, (s'.txn u).reads = (s.txn u).reads ∧ (s'.txn u).values = (s.txn u).values ∧ s'.snap u = s.snap u
  pending : ∀ u ∈ s.points, (s'.txn u).pc.pending = true → (s.txn u).pc.pending = true
  committed : ∀ u ∈ s.points, (s.txn u).pc.committed = true → (s'.txn u).pc.committed = true
  fresh : ∀ u ∈ s.points, (s'.txn u).pc.committed = true → (s.txn u).pc.committed = true ∨ (s.txn u).pc.pending = true
  storing : ∀ x, (s'.word x).version = (s.word x).version → s.Storing x → s'.Storing x
  value : ∀ x, ¬ s'.Storing x → s'.value x = s.value x ∨ s.Storing x

/-- Versions that were observed, and values that go with them. -/
structure ReadOk (s : State T X V) (reads : List (X × Nat)) (values : List (X × Nat × V)) : Prop where
  seen : ∀ x v, (x,v) ∈ reads → v ≤ (s.word x).version
  values : ∀ x v a, (x,v,a) ∈ values → (x,v) ∈ reads ∧ ((s.word x).version = v → ¬ s.Storing x → s.value x = a)

/-- What a check establishes of a read of `t`, whose point comes after those of `before`. -/
structure Good (writes : T → Update X V) (d : X → V) (s : State T X V) (before : List T) (t : T) (x : X) (v : Nat) : Prop where
  version : (s.snap t x).version = v
  owner : ∀ u, (s.snap t x).owner = some u → u = t ∨ (s.txn u).pc = .aborting
  values : ∀ a, (x,v,a) ∈ (s.txn t).values → a = Update.serial writes d (before.filter fun u => (s.txn u).pc.committed) x
  clear : ∀ u ∈ before, (s.txn u).pc.pending = true → x ∉ (writes u).rows

/-- Which reads have been checked at a place of `try_commit`. -/
def CheckOk (writes : T → Update X V) (d : X → V) (s : State T X V) (before : List T) (t : T) : Pc X → Prop
  | .checking todo => todo ⊆ (s.txn t).reads ∧ ∀ x v, (x,v) ∈ (s.txn t).reads → (x,v) ∈ todo ∨ Good writes d s before t x v
  | .comparing x v todo => todo ⊆ (s.txn t).reads ∧
      (∀ y w, (y,w) ∈ (s.txn t).reads → (y,w) ∈ (x,v) :: todo ∨ Good writes d s before t y w) ∧
      (v < (s.word x).version ∨ Good writes d s before t x v)
  | .installing _ => ∀ x v, (x,v) ∈ (s.txn t).reads → Good writes d s before t x v
  | _ => True

structure Serial (writes : T → Update X V) (d : X → V) (s : State T X V) : Prop where
  reads : ∀ t, ReadOk s (s.txn t).reads (s.txn t).values
  /-- Who comes later and writes what `t` has read holds it, or has changed its version. -/
  late : ∀ before t after, s.points = before ++ t :: after → ∀ x v, (x,v) ∈ (s.txn t).reads → ∀ u ∈ after, x ∈ (writes u).rows →
    (s.txn u).pc = .aborting ∨ (s.word x).owner = some u ∨ v < (s.word x).version
  snap_seen : ∀ t ∈ s.points, ∀ x v, (x,v) ∈ (s.txn t).reads → v ≤ (s.snap t x).version
  snap_version : ∀ t ∈ s.points, ∀ x, (s.snap t x).version ≤ (s.word x).version
  snap_owner : ∀ t ∈ s.points, ∀ x u, (s.snap t x).owner = some u →
    (s.word x).owner = some u ∨ (s.txn u).pc = .aborting ∨ (s.snap t x).version < (s.word x).version
  checks : ∀ before t after, s.points = before ++ t :: after → CheckOk writes d s before t (s.txn t).pc

section
omit [DecidableEq T] [DecidableEq X]

theorem mem_of_cut {l before after} (h : l = before ++ t :: after) : t ∈ l := h ▸ mem_append_right before (mem_cons_self ..)

theorem subset_of_cut {l before after} (h : l = before ++ t :: after) : before ⊆ l := fun _ hu => h ▸ mem_append_left _ hu

end

section
omit [DecidableEq T]

omit [DecidableEq X] in
theorem ReadOk.later {reads values} (h : ReadOk s reads values) (hl : Later s s') : ReadOk s' reads values := by
  refine ⟨fun x v hv => (h.seen x v hv).trans (hl.version x),fun x v a ha => ?_⟩
  obtain ⟨hmem,hval⟩ := h.values x v a ha
  refine ⟨hmem,fun hver hst => ?_⟩
  have heq : (s.word x).version = v := le_antisymm (hver ▸ hl.version x) (h.seen x v hmem)
  have hst' : ¬ s.Storing x := fun hold => hst (hl.storing x (hver.trans heq.symm) hold)
  rw [(hl.value x hst).resolve_right hst']
  exact hval heq hst'

/-- A read that was found good stays so: the transactions before it that still may commit do not
write it. -/
theorem Good.later {before x v} (h : Good writes d s before t x v) (hl : Later s s')
    (hsub : before ⊆ s.points) (ht : t ∈ s.points) : Good writes d s' before t x v := by
  obtain ⟨-,hvalues,hsnap⟩ := hl.frozen t ht
  refine ⟨?_,fun u hu => ?_,fun a ha => ?_,fun u hu hp => h.clear u hu (hl.pending u (hsub hu) hp)⟩
  · rw [hsnap]
    exact h.version
  · rw [hsnap] at hu
    exact (h.owner u hu).imp_right (hl.aborting u)
  · rw [hvalues] at ha
    rw [h.values a ha]
    refine Update.serial_filter_congr fun u hu hx => ?_
    rw [Bool.eq_iff_iff]
    refine ⟨hl.committed u (hsub hu),fun hc => ?_⟩
    exact (hl.fresh u (hsub hu) hc).resolve_right fun hp => h.clear u hu hp hx

theorem CheckOk.later {before pc} (h : CheckOk writes d s before t pc) (hl : Later s s')
    (hsub : before ⊆ s.points) (ht : t ∈ s.points) : CheckOk writes d s' before t pc := by
  obtain ⟨hreads,-⟩ := hl.frozen t ht
  have hgood {x : X} {v : Nat} (hg : Good writes d s before t x v) : Good writes d s' before t x v := hg.later hl hsub ht
  cases pc with
  | checking todo =>
    rw [CheckOk,hreads]
    exact ⟨h.1,fun x v hv => (h.2 x v hv).imp_right hgood⟩
  | comparing x v todo =>
    rw [CheckOk,hreads]
    exact ⟨h.1,fun y w hw => (h.2.1 y w hw).imp_right hgood,h.2.2.imp (fun hlt => hlt.trans_le (hl.version x)) hgood⟩
  | installing _ =>
    rw [CheckOk,hreads]
    exact fun x v hv => hgood (h x v hv)
  | running | locking _ | aborting => trivial

/-- At the load of the lock bit: an object that carries the observed version and is unlocked or
the transaction's own has been read as the transactions before leave it. -/
theorem Serial.good {before after x v} (h : Serial writes d s) (hl : Locks writes d s) (hpts : s.points = before ++ t :: after)
    (hp : (s.txn t).pc.pending = true) (hv : (x,v) ∈ (s.txn t).reads) (hver : (s.word x).version = v)
    (ho : ∀ u, (s.word x).owner = some u → u = t) : Good writes d s before t x v := by
  have ht : t ∈ s.points := mem_of_cut hpts
  have hnd := hl.nodup
  rw [hpts,nodup_middle,nodup_cons,mem_append,not_or] at hnd
  obtain ⟨⟨hbefore,hafter⟩,-⟩ := hnd
  have huncommitted : (s.txn t).pc.committed = false := by
    generalize (s.txn t).pc = pc at hp
    cases pc <;> first | rfl | cases hp
  have hsnap : (s.snap t x).version = v := le_antisymm (hver ▸ h.snap_version t ht x) (h.snap_seen t ht x v hv)
  refine ⟨hsnap,fun u hu => ?_,fun a ha => ?_,fun u hu hpu hx => ?_⟩
  · rcases h.snap_owner t ht x u hu with hou | hau | hlt
    · exact .inl (ho u hou)
    · exact .inr hau
    · omega
  · have hst : ¬ s.Storing x := by
      rintro ⟨u,stored,hou,hpu,-⟩
      rw [ho u hou] at hpu
      rw [hpu] at hp
      cases hp
    rw [← ((h.reads t).values x v a ha).2 hver hst,hl.free x fun u hou => ho u hou ▸ huncommitted,State.order,hpts,filter_append,
      filter_cons_of_neg (p := fun u => (s.txn u).pc.committed) (Bool.eq_false_iff.mp huncommitted)]
    refine Update.serial_append_unwritten fun u hu hx => ?_
    obtain ⟨hu,hc⟩ := mem_filter.mp hu
    rcases h.late before t after hpts x v hv u hu hx with hau | hou | hlt
    · rw [hau] at hc
      cases hc
    · exact hafter (ho u hou ▸ hu)
    · omega
  · have hphase := hl.phase u
    generalize (s.txn u).pc = pc at hphase hpu
    have hou : (s.word x).owner = some u := by
      cases pc with
      | checking | comparing => exact hphase.2 x hx
      | _ => cases hpu
    exact hbefore (ho u hou ▸ hu)

end

section Steps

structure Onward (x y : Txn X V) : Prop where
  reads : y.reads = x.reads
  values : y.values = x.values
  pending : y.pc.pending = true → x.pc.pending = true
  committed : x.pc.committed = true → y.pc.committed = true
  fresh : y.pc.committed = true → x.pc.committed = true ∨ x.pc.pending = true

omit [DecidableEq X] in
private theorem move_storing {x y} (htxn : ∀ u, s'.txn u = if u = t then y else s.txn u)
    (howner : ∀ u, (s.word x).owner = some u → (s'.word x).owner = some u) (hp : (s.txn t).pc.committed = false)
    (h : s.Storing x) : s'.Storing x := by
  obtain ⟨u,stored,ho,hpu,hx⟩ := h
  refine ⟨u,stored,howner u ho,?_,hx⟩
  rw [htxn,if_neg]
  · exact hpu
  · rintro rfl
    rw [hpu] at hp
    cases hp

omit [DecidableEq X] in
/-- A step that moves `t` and takes no lock away. -/
private theorem move_later {y} (htxn : ∀ u, s'.txn u = if u = t then y else s.txn u) (ha : (s.txn t).pc ≠ .aborting)
    (hversion : ∀ x, (s'.word x).version = (s.word x).version) (howner : ∀ x u, (s.word x).owner = some u → (s'.word x).owner = some u)
    (hsnap : ∀ u ∈ s.points, s'.snap u = s.snap u) (hon : t ∈ s.points → Onward (s.txn t) y)
    (hstoring : ∀ x, s.Storing x → s'.Storing x) (hvalue : ∀ x, ¬ s'.Storing x → s'.value x = s.value x) : Later s s' := by
  refine ⟨fun x => (hversion x).ge,fun x u ho => .inl (howner x u ho),fun u hu => ?_,fun u hu => ?_,fun u hu hp => ?_,fun u hu hc => ?_,
    fun u hu hc => ?_,fun x _ => hstoring x,fun x hx => .inl (hvalue x hx)⟩
  · rw [htxn,if_neg]
    · exact hu
    · rintro rfl
      exact ha hu
  · rw [htxn,hsnap u hu]
    split_ifs with hut
    · subst hut
      exact ⟨(hon hu).reads,(hon hu).values,rfl⟩
    · exact ⟨rfl,rfl,rfl⟩
  · rw [htxn] at hp
    split_ifs at hp with hut
    · subst hut
      exact (hon hu).pending hp
    · exact hp
  · rw [htxn]
    split_ifs with hut
    · subst hut
      exact (hon hu).committed hc
    · exact hc
  · rw [htxn] at hc
    split_ifs at hc with hut
    · subst hut
      exact (hon hu).fresh hc
    · exact .inl hc

theorem Turn.later {y} (ht : Turn writes t s y) (h : Locks writes d s) : Later s (s.turn t y) := by
  obtain ⟨hc,ha,hc'⟩ := ht.pcs
  have hphase := h.phase t
  refine move_later (State.turn_txn s t y) ha (fun _ => rfl) (fun _ _ => id) (fun _ _ => rfl) (fun hpoint => ?_)
    (fun x => move_storing (State.turn_txn s t y) (fun _ => id) hc) (fun _ _ => rfl)
  have hold : (s.txn t).pc.committed = true → y.pc.committed = true := fun hcu => absurd hcu (Bool.eq_false_iff.mp hc)
  have hnew : y.pc.committed = true → (s.txn t).pc.committed = true ∨ (s.txn t).pc.pending = true :=
    fun hcu => absurd hcu (Bool.eq_false_iff.mp hc')
  cases ht with
  | observe hx | value hx =>
    rw [hx] at hphase
    exact absurd hpoint hphase
  | again => exact ⟨rfl,rfl,id,hold,hnew⟩
  | commit hx | abort hx => exact ⟨by rw [hx],by rw [hx],nofun,hold,hnew⟩
  | test hx | compare hx => exact ⟨by rw [hx],by rw [hx],fun _ => by rw [hx]; rfl,hold,hnew⟩

omit [DecidableEq T] in
/-- A lock is given back by a transaction that aborts, or with a new version. -/
private theorem giveBack_later {x w} (ho : (s.word x).owner = some t)
    (hw : (s.word x).version ≤ w.version) (hp : (s.txn t).pc = .aborting ∨ (s.word x).version < w.version) : Later s (s.setWord x w) := by
  refine ⟨fun y => ?_,fun y u hu => ?_,fun _ => id,fun _ _ => ⟨rfl,rfl,rfl⟩,fun _ _ => id,fun _ _ => id,fun _ _ => .inl,
    fun y hver hst => ?_,
    fun _ _ => .inl rfl⟩
  · rw [State.setWord_word]
    split_ifs with hy
    · exact hy ▸ hw
    · exact le_rfl
  · rw [State.setWord_word]
    split_ifs with hy
    · subst hy
      obtain rfl := Option.some.inj (hu.symm.trans ho)
      exact .inr hp
    · exact .inl hu
  · obtain ⟨u,stored,hu,hpu,hm⟩ := hst
    rw [State.setWord_word] at hver
    split_ifs at hver with hy
    · subst hy
      obtain rfl := Option.some.inj (hu.symm.trans ho)
      rcases hp with ha | hlt
      · exact nomatch hpu.symm.trans ha
      · omega
    · exact ⟨u,stored,by rw [State.setWord_word,if_neg hy]; exact hu,hpu,hm⟩

theorem Step.later (hs : Step writes t s s') (h : Locks writes d s) : Later s s' := by
  have hphase := h.phase t
  cases hs with
  | turn ht => exact ht.later h
  | @lock x todo reads values hx ho =>
    rw [hx] at hphase
    have htxn := State.turn_txn (s.setWord x ((s.word x).lock t)) t ⟨reads,values,.locking todo⟩
    have hword (y : X) : ((s.setWord x ((s.word x).lock t)).turn t ⟨reads,values,.locking todo⟩).word y =
        if y = x then (s.word x).lock t else s.word y := State.setWord_word ..
    have howner (y : X) (u : T) (hu : (s.word y).owner = some u) :
        (((s.setWord x ((s.word x).lock t)).turn t ⟨reads,values,.locking todo⟩).word y).owner = some u := by
      rw [hword,if_neg]
      · exact hu
      · rintro rfl
        exact nomatch ho.symm.trans hu
    refine move_later htxn (by rw [hx]; nofun) (fun y => ?_) howner (fun _ _ => rfl) (fun hpoint => absurd hpoint hphase.1)
      (fun y => move_storing htxn (howner y) (by rw [hx]; rfl)) (fun _ _ => rfl)
    rw [hword]
    split_ifs with hy
    · rw [hy]
      rfl
    · rfl
  | @point reads values hx =>
    rw [hx] at hphase
    have htxn := State.turn_txn s t ⟨reads,values,.checking reads⟩
    refine move_later htxn (by rw [hx]; nofun) (fun _ => rfl) (fun _ _ => id) (fun u hu => ?_) (fun hpoint => absurd hpoint hphase.1)
      (fun y => move_storing htxn (fun _ => id) (by rw [hx]; rfl)) (fun _ _ => rfl)
    refine update_of_ne ?_ _ _
    rintro rfl
    exact hphase.1 hu
  | @commit reads values hx =>
    have htxn := State.turn_txn s t ⟨reads,values,.installing []⟩
    refine move_later htxn (by rw [hx]; nofun) (fun _ => rfl) (fun _ _ => id) (fun _ _ => rfl) (fun _ => ?_)
      (fun y => move_storing htxn (fun _ => id) (by rw [hx]; rfl)) (fun _ _ => rfl)
    rw [hx]
    exact ⟨rfl,rfl,nofun,fun _ => rfl,fun _ => .inr rfl⟩
  | @store x stored reads values hx ho =>
    have htxn := State.turn_txn s t ⟨reads,values,.installing (x :: stored)⟩
    have hmine : State.Storing { s.turn t ⟨reads,values,.installing (x :: stored)⟩ with
        value := update s.value x ((writes t).data x) } x :=
      ⟨t,x :: stored,ho,congrArg Txn.pc ((htxn t).trans (if_pos rfl)),mem_cons_self ..⟩
    refine move_later htxn (by rw [hx]; nofun) (fun _ => rfl) (fun _ _ => id) (fun _ _ => rfl) (fun _ => ?_) (fun y hst => ?_)
      (fun y hy => ?_)
    · rw [hx]
      exact ⟨rfl,rfl,nofun,fun _ => rfl,fun _ => .inl rfl⟩
    · obtain ⟨u,st,hu,hpu,hm⟩ := hst
      by_cases hut : u = t
      · subst hut
        rw [hx] at hpu
        obtain rfl := Pc.installing.inj hpu
        exact ⟨u,x :: stored,hu,congrArg Txn.pc ((htxn u).trans (if_pos rfl)),mem_cons_of_mem x hm⟩
      · exact ⟨u,st,hu,(congrArg Txn.pc ((htxn u).trans (if_neg hut))).trans hpu,hm⟩
    · refine update_of_ne ?_ _ _
      rintro rfl
      exact hy hmine
  | release hp ho hx => exact giveBack_later ho (Nat.le_succ _) (.inr (Nat.lt_succ_self _))
  | unlock hp ho => exact giveBack_later ho le_rfl (.inl hp)

/-- What a step that brings nobody to its point has to add: what the mover has read, and checked. -/
theorem Serial.move {y} (h : Serial writes d s) (hl : Later s s') (hpts : s'.points = s.points) (htxn : s'.txn = update s.txn t y)
    (hread : ReadOk s' y.reads y.values)
    (hcheck : ∀ before after, s.points = before ++ t :: after → CheckOk writes d s' before t y.pc) : Serial writes d s' := by
  refine ⟨fun u => ?_,fun before u after hp x v hv w hw hx => ?_,fun u hm x v hv => ?_,fun u hm x => ?_,fun u hm x w hw => ?_,
    fun before u after hp => ?_⟩
  · rw [htxn]
    by_cases hut : u = t
    · rw [hut,update_self]
      exact hread
    · rw [update_of_ne hut]
      exact (h.reads u).later hl
  · rw [hpts] at hp
    rw [(hl.frozen u (mem_of_cut hp)).1] at hv
    rcases h.late before u after hp x v hv w hw hx with ha | ho | hlt
    · exact .inl (hl.aborting w ha)
    · rcases hl.owner x w ho with ho | ha | hlt
      · exact .inr (.inl ho)
      · exact .inl ha
      · exact .inr (.inr (((h.reads u).seen x v hv).trans_lt hlt))
    · exact .inr (.inr (hlt.trans_le (hl.version x)))
  · rw [hpts] at hm
    obtain ⟨hreads,-,hsnap⟩ := hl.frozen u hm
    rw [hsnap]
    exact h.snap_seen u hm x v (hreads ▸ hv)
  · rw [hpts] at hm
    rw [(hl.frozen u hm).2.2]
    exact (h.snap_version u hm x).trans (hl.version x)
  · rw [hpts] at hm
    rw [(hl.frozen u hm).2.2] at hw ⊢
    rcases h.snap_owner u hm x w hw with ho | ha | hlt
    · exact (hl.owner x w ho).imp_right fun hrest => hrest.imp_right fun hlt => (h.snap_version u hm x).trans_lt hlt
    · exact .inr (.inl (hl.aborting w ha))
    · exact .inr (.inr (hlt.trans_le (hl.version x)))
  · rw [hpts] at hp
    rw [htxn]
    by_cases hut : u = t
    · subst hut
      rw [update_self]
      exact hcheck before after hp
    · rw [update_of_ne hut]
      exact (h.checks before u after hp).later hl (subset_of_cut hp) (mem_of_cut hp)

theorem Serial.turn {y} (h : Serial writes d s) (hl : Locks writes d s) (ht : Turn writes t s y) : Serial writes d (s.turn t y) := by
  have hlater := ht.later hl
  have hself : (s.turn t y).txn t = y := update_self ..
  have hread := (h.reads t).later hlater
  refine h.move hlater rfl rfl ?_ fun before after hpts => ?_
  · cases ht with
    | again => exact hread
    | @observe x reads values hx ho =>
      rw [hx] at hread
      refine ⟨fun z v hv => ?_,fun z v a ha => (hread.values z v a ha).imp_left fun hm => mem_append_left _ hm⟩
      rcases mem_append.mp hv with hv | hv
      · exact hread.seen z v hv
      · obtain ⟨rfl,rfl⟩ := Prod.mk.inj (mem_singleton.mp hv)
        exact le_rfl
    | @value x v reads values hx hv =>
      rw [hx] at hread
      refine ⟨hread.seen,fun z w a ha => ?_⟩
      rcases mem_cons.mp ha with heq | ha
      · obtain ⟨rfl,rfl,rfl⟩ := heq
        exact ⟨hv,fun _ _ => rfl⟩
      · exact hread.values z w a ha
    | commit hx | test hx | compare hx | abort hx =>
      rw [hx] at hread
      exact hread
  · have hold := h.checks before t after hpts
    have hgood {x : X} {v : Nat} (hg : Good writes d s before t x v) : Good writes d (s.turn t y) before t x v :=
      hg.later hlater (subset_of_cut hpts) (mem_of_cut hpts)
    cases ht with
    | again hp =>
      rw [hp]
      trivial
    | observe | value | commit | abort => trivial
    | @test x v todo reads values hx ho =>
      rw [hx] at hold
      obtain ⟨htodo,hchecked⟩ := hold
      rw [CheckOk,hself]
      rw [hx] at htodo hchecked
      refine ⟨fun z hz => htodo (mem_cons_of_mem _ hz),fun z w hw => (hchecked z w hw).imp_right hgood,?_⟩
      have hxv : (x,v) ∈ (s.txn t).reads := by
        rw [hx]
        exact htodo (mem_cons_self ..)
      rcases ((h.reads t).seen x v hxv).lt_or_eq with hlt | heq
      · exact .inl hlt
      · refine .inr (hgood (h.good hl hpts (by rw [hx]; rfl) hxv heq.symm fun u hu => ?_))
        rcases ho with ho | hrow
        · exact nomatch ho.symm.trans hu
        · have hphase := hl.phase t
          rw [hx] at hphase
          exact Option.some.inj (hu.symm.trans (hphase.2 x hrow))
    | @compare x v todo reads values hx hv =>
      rw [hx] at hold
      obtain ⟨htodo,hchecked,hxv⟩ := hold
      rw [CheckOk,hself]
      rw [hx] at htodo hchecked
      refine ⟨htodo,fun z w hw => ?_⟩
      rcases hchecked z w hw with hm | hg
      · rcases mem_cons.mp hm with heq | hm
        · obtain ⟨rfl,rfl⟩ := Prod.mk.inj heq
          exact .inr (hgood (hxv.resolve_left (by omega)))
        · exact .inl hm
      · exact .inr (hgood hg)

theorem Serial.point {reads values} (h : Serial writes d s) (hl : Locks writes d s) (hx : s.txn t = ⟨reads,values,.locking []⟩) :
    Serial writes d { s.turn t ⟨reads,values,.checking reads⟩ with points := s.points ++ [t], snap := update s.snap t s.word } := by
  have hstep : Step writes t s { s.turn t ⟨reads,values,.checking reads⟩ with
      points := s.points ++ [t], snap := update s.snap t s.word } :=
    .point hx
  have hlater := hstep.later hl
  have hphase := hl.phase t
  rw [hx] at hphase
  obtain ⟨hpt,-,hrows⟩ := hphase
  have hself : update s.txn t ⟨reads,values,.checking reads⟩ t = ⟨reads,values,.checking reads⟩ := update_self ..
  have hsnap : update s.snap t s.word t = s.word := update_self ..
  have hreads := h.reads t
  rw [hx] at hreads
  have hold {u : T} (hu : u ∈ s.points ++ [t]) : u = t ∨ u ∈ s.points :=
    (mem_append.mp hu).elim .inr fun hu => .inl (mem_singleton.mp hu)
  refine ⟨fun u => ?_,fun before u after hp x v hv w hw hxw => ?_,fun u hu x v hv => ?_,fun u hu x => ?_,fun u hu x w hw => ?_,
    fun before u after hp => ?_⟩
  · change ReadOk _ (update s.txn t _ u).reads (update s.txn t _ u).values
    by_cases hut : u = t
    · rw [hut,hself]
      exact hreads.later hlater
    · rw [update_of_ne hut]
      exact (h.reads u).later hlater
  · rcases append_singleton_cut hp with ⟨rfl,rfl,rfl⟩ | ⟨after',rfl,hcut⟩
    · exact absurd hw not_mem_nil
    · rw [(hlater.frozen u (mem_of_cut hcut)).1] at hv
      rcases mem_append.mp hw with hw | hw
      · exact (h.late before u after' hcut x v hv w hw hxw).imp_left (hlater.aborting w)
      · obtain rfl := mem_singleton.mp hw
        exact .inr (.inl ((hrows x hxw).resolve_left not_mem_nil))
  · change v ≤ (update s.snap t s.word u x).version
    change (x,v) ∈ (update s.txn t _ u).reads at hv
    rcases hold hu with rfl | hu
    · rw [hself] at hv
      rw [hsnap]
      exact hreads.seen x v hv
    · have hut : u ≠ t := fun hut => hpt (hut ▸ hu)
      rw [update_of_ne hut] at hv ⊢
      exact h.snap_seen u hu x v hv
  · change (update s.snap t s.word u x).version ≤ (s.word x).version
    rcases hold hu with rfl | hu
    · rw [hsnap]
    · have hut : u ≠ t := fun hut => hpt (hut ▸ hu)
      rw [update_of_ne hut]
      exact h.snap_version u hu x
  · change (update s.snap t s.word u x).owner = some w at hw
    change (s.word x).owner = some w ∨ _ ∨ (update s.snap t s.word u x).version < (s.word x).version
    rcases hold hu with rfl | hu
    · rw [hsnap] at hw
      exact .inl hw
    · have hut : u ≠ t := fun hut => hpt (hut ▸ hu)
      rw [update_of_ne hut] at hw ⊢
      exact (h.snap_owner u hu x w hw).imp_right fun hrest => hrest.imp_left (hlater.aborting w)
  · change CheckOk writes d _ before u (update s.txn t _ u).pc
    rcases append_singleton_cut hp with ⟨rfl,rfl,rfl⟩ | ⟨after',rfl,hcut⟩
    · rw [hself]
      change reads ⊆ (update s.txn u _ u).reads ∧ ∀ x v, (x,v) ∈ (update s.txn u _ u).reads → _
      rw [hself]
      exact ⟨List.Subset.refl _,fun x v hv => .inl hv⟩
    · have hut : u ≠ t := fun hut => hpt (hut ▸ mem_of_cut hcut)
      rw [update_of_ne hut]
      exact (h.checks before u after' hcut).later hlater (subset_of_cut hcut) (mem_of_cut hcut)

theorem Step.serial (hs : Step writes t s s') (hl : Locks writes d s) (h : Serial writes d s) : Serial writes d s' := by
  have hlater := hs.later hl
  have hread := (h.reads t).later hlater
  have hcheck {before after : List T} (hpts : s.points = before ++ t :: after) : CheckOk writes d s' before t (s.txn t).pc :=
    (h.checks before t after hpts).later hlater (subset_of_cut hpts) (mem_of_cut hpts)
  cases hs with
  | turn ht => exact h.turn hl ht
  | point hx => exact h.point hl hx
  | lock hx ho =>
    rw [hx] at hread
    exact h.move hlater rfl rfl hread fun _ _ _ => trivial
  | commit hx =>
    rw [hx] at hread hcheck
    exact h.move hlater rfl rfl hread fun _ _ hpts x v hv => ((hcheck hpts).2 x v hv).resolve_left not_mem_nil
  | store hx ho =>
    rw [hx] at hread hcheck
    exact h.move hlater rfl rfl hread fun _ _ => hcheck
  | release | unlock => exact h.move hlater rfl (update_eq_self t s.txn).symm hread fun _ _ => hcheck

theorem serial_start (writes : T → Update X V) (d : X → V) (version : X → Nat) : Serial writes d (objects writes d version).start := by
  have hnil (before after : List T) (t : T) : (objects writes d version).start.points ≠ before ++ t :: after :=
    fun hpts => not_mem_nil (mem_of_cut hpts)
  refine ⟨fun t => ⟨?_,?_⟩,fun before t after hpts => absurd hpts (hnil before after t),?_,?_,?_,
    fun before t after hpts => absurd hpts (hnil before after t)⟩
  · exact fun x v hv => absurd hv not_mem_nil
  · exact fun x v a ha => absurd ha not_mem_nil
  all_goals exact fun t ht => absurd ht not_mem_nil

end Steps

/-- The committed transactions, taken one at a time in the order of their points. -/
structure Serializable (writes : T → Update X V) (d : X → V) (s : State T X V) : Prop where
  /-- At its point an object that was read carried the version observed, and was unlocked, or the
  transaction's own, or locked by one that aborts. -/
  carried : ∀ t ∈ s.order, ∀ x v, (x,v) ∈ (s.txn t).reads →
    (s.snap t x).version = v ∧ ∀ u, (s.snap t x).owner = some u → u = t ∨ (s.txn u).pc = .aborting
  reads : ∀ before t after, s.order = before ++ t :: after → ∀ x v a, (x,v,a) ∈ (s.txn t).values → a = Update.serial writes d before x
  state : ∀ x, (s.word x).owner = none → s.value x = Update.serial writes d s.order x

omit [DecidableEq T] in
/-- Every read of a committed transaction is good. -/
theorem Serial.good_of_order (h : Serial writes d s) (ht : t ∈ s.order) :
    ∃ before after, s.points = before ++ t :: after ∧ ∀ x v, (x,v) ∈ (s.txn t).reads → Good writes d s before t x v := by
  obtain ⟨hmem,hc⟩ := mem_filter.mp ht
  obtain ⟨before,after,hpts⟩ := append_of_mem hmem
  refine ⟨before,after,hpts,?_⟩
  have hcheck := h.checks before t after hpts
  generalize (s.txn t).pc = pc at hc hcheck
  match pc,hcheck with
  | .installing _,hcheck => exact hcheck

/-- Committed transactions are equivalent to executing them one at a time in the order of the
instants at which they had all their locks. -/
theorem committed_serializable {version : X → Nat} (h : (objects writes d version).Reachable s) : Serializable writes d s := by
  obtain ⟨hl,hs⟩ : Locks writes d s ∧ Serial writes d s :=
    h.ofNext_invariant (I := fun s => Locks writes d s ∧ Serial writes d s) ⟨locks_start writes d version,serial_start writes d version⟩
      fun s a s' hI hnext =>
        have hstep : Step writes a.1 s s' := .of_next hnext
        ⟨hstep.locks hI.1,hstep.serial hI.1 hI.2⟩
  refine ⟨fun t ht x v hv => ?_,fun before t after hord x v a ha => ?_,fun x ho => hl.free x fun u hu => nomatch ho.symm.trans hu⟩
  · obtain ⟨before,after,-,hgood⟩ := hs.good_of_order ht
    exact ⟨(hgood x v hv).version,(hgood x v hv).owner⟩
  · obtain ⟨before',after',hpts,hgood⟩ := hs.good_of_order (mem_of_cut hord)
    have hcommitted := (List.mem_filter.mp (mem_of_cut hord)).2
    have hnd : s.order.Nodup := hl.nodup.filter _
    have hcut : s.order = before'.filter (fun u => (s.txn u).pc.committed) ++ t :: after'.filter fun u => (s.txn u).pc.committed := by
      rw [State.order,hpts,List.filter_append,List.filter_cons_of_pos (p := fun u => (s.txn u).pc.committed) hcommitted]
    -- an entry cuts a list without repetitions in one way
    rw [hord,List.nodup_middle,List.nodup_cons,List.mem_append,not_or] at hnd
    obtain ⟨rfl,-⟩ := (List.append_cons_inj_of_notMem hnd.1.1 hnd.1.2).mp (hord.symm.trans hcut)
    exact (hgood x v ((hs.reads t).values x v a ha).1).values a ha

def oneEach (t : Fin 3) : Update (Fin 3) Nat := ⟨[t.rev],fun _ => 10+t⟩

abbrev threeObjects : Machine (State (Fin 3) (Fin 3) Nat) (Fin 3 × Act (Fin 3)) := objects oneEach (fun _ => 0) (fun _ => 1)

/-- One transaction installs, and another reads that and its own object and commits. -/
def serialRun (t u x y : Fin 3) : List (Fin 3 × Act (Fin 3)) :=
  [(u,.observe x),(u,.value x),(u,.commit),(u,.go),(u,.go),(u,.go),(u,.go),(u,.go),(u,.store x),(u,.release x),
    (t,.observe x),(t,.value x),(t,.observe y),(t,.value y),(t,.commit),(t,.go),(t,.go),(t,.go),(t,.go),(t,.go),(t,.go),(t,.go),
    (t,.store y),(t,.release y)]

theorem committed_serializable_twice :
    let s := threeObjects.play threeObjects.start (serialRun 0 2 0 2)
    s.order = [2,0] ∧ (s.txn 0).values = [(2,1,0),(0,2,12)] ∧ Serializable oneEach (fun _ => 0) s := by
  have hreach := Machine.Reachable.play .start (serialRun 0 2 0 2)
      (show threeObjects.playable threeObjects.start (serialRun 0 2 0 2) = true by decide +kernel)
  exact ⟨by decide +kernel,by decide +kernel,committed_serializable hreach⟩

/-- Every object that `t` has read carries the version observed and is not locked by another. -/
def State.free (s : State (Fin 3) (Fin 3) Nat) (t : Fin 3) : Bool :=
  (s.txn t).reads.all fun (x,v) => (s.word x).version == v && ((s.word x).owner == none || (s.word x).owner == some t)

/-- A reader of two objects gets its lock while one of the two is locked. -/
def toLock (t u x y : Fin 3) : List (Fin 3 × Act (Fin 3)) :=
  [(t,.observe x),(t,.value x),(t,.observe y),(t,.value y),(u,.commit),(u,.go),(t,.commit),(t,.go)]

/-- It checks the other one, which then is locked; the first is given back and checked. -/
def toCommit (t u w y : Fin 3) : List (Fin 3 × Act (Fin 3)) :=
  [(t,.go),(t,.go),(t,.go),(w,.commit),(w,.go),(u,.abort),(u,.unlock y),(t,.go),(t,.go),(t,.go)]

theorem no_free_instant :
    let s := threeObjects.play threeObjects.start (toLock 0 1 0 1)
    let s' := threeObjects.play s (toCommit 0 1 2 1)
    threeObjects.Reachable s' ∧ (s.word 2).owner = some 0 ∧ s'.order = [0] ∧
      ∀ k < (toCommit 0 1 2 1).length+1, (threeObjects.play s ((toCommit 0 1 2 1).take k)).free 0 = false := by
  have hlock := Machine.Reachable.play .start (toLock 0 1 0 1)
      (show threeObjects.playable threeObjects.start (toLock 0 1 0 1) = true by decide +kernel)
  exact ⟨hlock.play (toCommit 0 1 2 1) (by decide +kernel),by decide +kernel,by decide +kernel,by decide +kernel⟩

end AlNiCo.Sto.Occ
