import AlNiCo.Nic.Invocation

/-! Restarting the scheduler. The prologue resets cursors, RRB words, old cores
and queue heads; the streams, the stored features, the counters and the tables
pass from one invocation to the next. -/
namespace AlNiCo.Nic
open List
variable {B : Build} {s : Fpga}

/-- Of what the prologue leaves alone, no request waits in a check stream, no
slot stores a feature and the counters are as constructed. -/
structure Fresh (B : Build) (s : Fpga) : Prop where
  check : ∀ b, (s.bank b).checkMsgOut = []
  features : ∀ b, ∀ k < B.perBank, (s.bank b).features k = 0
  clusters : ∀ c, ∀ f < 512, s.clusters c f = initialClusters c f

/-- The first check of the new invocation loads the tables, or none were loaded
before it. -/
def Reloaded (s : Fpga) (turns : List Turn) : Prop :=
  (∀ t ∈ turns.head?, t.status &&& 2 = 2) ∨
    s.mergeWeights = Fpga.static.mergeWeights ∧ s.hardPartition = Fpga.static.hardPartition

variable {l : Loop} {m : Bool → Nat → BitVec 32}

open Loop

section

private theorem reset_eq {α : Type*} {i n : Nat} {x y z : α} (h : ¬ i < n → y = z) :
    (if i < n then x else y) = if i < n then x else z := by
  split
  · rfl
  · exact h ‹_›

/-- A restart differs from a first invocation in the tables alone. -/
private theorem invoke_fresh (h : Untouched B s) (hdrained : Drained s) (hfresh : Fresh B s) :
    s.invoke B.args = { Fpga.static.invoke B.args with
      bitClusters := s.bitClusters
      mergeWeights := s.mergeWeights
      hardPartition := s.hardPartition } := by
  rw [invoke_eq,invoke_eq]
  ext1
  · rfl
  · rfl
  · funext b
    ext1
    · funext k
      exact reset_eq (fun hk => (h.bank b k (Nat.le_of_not_lt hk)).1)
    · funext k
      exact reset_eq (fun hk => (h.bank b k (Nat.le_of_not_lt hk)).2.1)
    · funext k
      by_cases hk : k < B.perBank
      · exact hfresh.features b k hk
      · exact (h.bank b k (Nat.le_of_not_lt hk)).2.2
    · rfl
    · rfl
    · exact hfresh.check b
  · rfl
  · exact hdrained.1
  · exact hdrained.2
  · funext g
    exact reset_eq (fun hg => h.oldCore g (Nat.le_of_not_lt hg))
  · funext c f
    by_cases hf : f < 512
    · exact hfresh.clusters c f hf
    · exact h.clusters c f (Nat.le_of_not_lt hf)
  · rfl
  · rfl
  · rfl
  · funext c
    exact reset_eq (fun hc => (h.queues c (Nat.le_of_not_lt hc)).1)
  · funext c
    exact reset_eq (fun hc => (h.queues c (Nat.le_of_not_lt hc)).2)

private theorem run_cons {l l' t ws} (h : l.turn t = (l',ws)) (turns : List Turn) : (run (t :: turns) l).2 = ws ++ (run turns l').2 := by
  rw [run,h]

private theorem run_returned (hl : l.running = false) (turns : List Turn) : (run turns l).2 = [] := by
  induction turns with
  | nil => rfl
  | cons t turns ih =>
    have hturn : l.turn t = (l,[]) := by simp [turn,hl]
    rw [run,hturn]
    exact ih

/-- The first bitmap computation removes the last difference. -/
private theorem initBitmap_forgets {bitClusters} (hbeyond : ∀ c ≥ 22, bitClusters c = s.bitClusters c) :
    initBitmap { s with bitClusters := bitClusters } = initBitmap s := by
  rw [initBitmap,initBitmap]
  congr 1
  funext c
  by_cases hc : c < 22
  · simp only [if_pos hc]
  · simp only [if_neg hc]
    exact hbeyond c (by omega)

/-- After the first check of both invocations only the bitmaps may differ. -/
private theorem turn_first (h : Untouched B s) (hdrained : Drained s) (hfresh : Fresh B s) {t}
    (hoffset : t.totalOffset = 666) {turns} (htables : Reloaded s (t :: turns)) :
    ∃ q, ((enter B.args Fpga.static).turn t) = (⟨0,true,q⟩,[]) ∧ (∀ c ≥ 22, s.bitClusters c = q.bitClusters c) ∧
      ((enter B.args s).turn t) = (⟨0,true,{ q with bitClusters := s.bitClusters }⟩,[]) := by
  have hbitmap : ∀ c ≥ 22, s.bitClusters c = (Fpga.static.invoke B.args).bitClusters c := by
    intro c hc
    rw [h.bitmap c hc,invoke_eq]
    rfl
  by_cases hload : t.status &&& 2 = 2
  · refine ⟨initWeight t.cdmaBuf (Fpga.static.invoke B.args),turn_load rfl rfl hoffset hload,hbitmap,?_⟩
    obtain ⟨loads,hloads⟩ := h.tables
    have hzero : (Fpga.static.invoke B.args).mergeWeights = fun _ _ => 0 := by
      rw [invoke_eq]
      rfl
    rw [enter,turn_load rfl rfl hoffset hload,invoke_fresh h hdrained hfresh,initWeight,initWeight,hloads,
      Placement.Nic.initWeight_loadedTable,hzero]
  · obtain hhead | ⟨hmerge,hhard⟩ := htables
    · exact absurd (hhead t rfl) hload
    · refine ⟨Fpga.static.invoke B.args,turn_check rfl rfl hoffset hload,hbitmap,?_⟩
      rw [enter,turn_check rfl rfl hoffset hload,invoke_fresh h hdrained hfresh,hmerge,hhard,invoke_eq]

end

def Turn.quiet : Turn := ⟨666,0,fun _ => 0,fun _ _ _ => 0⟩

def Turn.stop : Turn := ⟨0,0,fun _ => 0,fun _ _ _ => 0⟩

open Turn

section Stale

/-- The RRB words are those of an invocation that has polled nothing. -/
structure Unpolled (B : Build) (s : Fpga) : Prop where
  configured : Configured B s
  drained : Drained s
  rrb : ∀ b, ∀ k < B.perBank, (s.bank b).rrb k = 0

theorem unpolled_invoke (h : Drained s) : Unpolled B (s.invoke B.args) := by
  refine ⟨configured_invoke B s,?_,fun b k hk => ?_⟩
  · rw [invoke_eq]
    exact h
  · rw [invoke_eq]
    exact if_pos hk

private theorem Unpolled.poll (h : Unpolled B s) (b : Bool) :
    checkMessageDataflowNodma b (fun _ => 0) s = s.setBank b { s.bank b with next := (s.bank b).advance } := by
  have hhead : ¬ (0 : BitVec 32).extractLsb' 16 16 = ~~~(((s.bank b).rrb (s.bank b).next).setWidth 16) := by
    rw [h.rrb b _ (h.configured.next_lt b)]
    decide
  rw [checkMessageDataflowNodma,checkMessage_cases,if_neg hhead]

private theorem Unpolled.polls (h : Unpolled B s) :
    ∃ t, checkMessageDataflowNodma true (fun _ => 0) (checkMessageDataflowNodma false (fun _ => 0) s) = t ∧
      Unpolled B t ∧ t.kk = s.kk ∧ ∀ b, (t.bank b).checkMsgOut = (s.bank b).checkMsgOut := by
  have hstep : ∀ {p : Fpga} (b : Bool), Unpolled B p → Unpolled B (p.setBank b { p.bank b with next := (p.bank b).advance }) := by
    intro p b hp
    refine ⟨hp.configured.setBank rfl rfl (hp.configured.advance_lt b),hp.drained,fun c k hk => ?_⟩
    rw [setBank_proj Bank.rrb (by rfl)]
    exact hp.rrb c k hk
  have hfirst := hstep false h
  refine ⟨_,rfl,?_,?_,fun b => ?_⟩
  · rw [h.poll false,hfirst.poll true]
    exact hstep true hfirst
  · rw [h.poll false,hfirst.poll true]
    rfl
  · rw [h.poll false,hfirst.poll true,setBank_proj Bank.checkMsgOut (by rfl),setBank_proj Bank.checkMsgOut (by rfl)]

private theorem dataflow_idle {t}
    (ht : checkMessageDataflowNodma true (m true) (checkMessageDataflowNodma false (m false) s) = t) (hdrained : Drained t)
    (hout : (t.bank t.kk).checkMsgOut = []) : dataflowNoDma m s = ({ t with kk := !t.kk },none) := by
  simp [dataflowNoDma,ht,computeCoreId,hout,doorbellDataflow,updateCluster,hdrained.1,hdrained.2]

private theorem dataflow_rings {t}
    (ht : checkMessageDataflowNodma true (m true) (checkMessageDataflowNodma false (m false) s) = t) (hdrained : Drained t)
    {msg rest} (hout : (t.bank t.kk).checkMsgOut = msg :: rest) :
    (dataflowNoDma m s).2 ≠ none := by
  simp [dataflowNoDma,ht,computeCoreId,hout,dispatch,Fpga.setBank,doorbellDataflow,hdrained.1]

/-- A call that finds nothing on the stream it looks at turns to the other. -/
private theorem Unpolled.idle (h : Unpolled B s) (hout : (s.bank s.kk).checkMsgOut = []) :
    ∃ t, dataflowNoDma (fun _ _ => 0) s = (t,none) ∧ Unpolled B t ∧ t.kk = !s.kk ∧
      ∀ b, (t.bank b).checkMsgOut = (s.bank b).checkMsgOut := by
  obtain ⟨t,ht,hun,hkk,hcheck⟩ := h.polls
  have hempty : (t.bank t.kk).checkMsgOut = [] := by rw [hkk,hcheck,hout]
  exact ⟨{ t with kk := !t.kk },dataflow_idle ht hun.drained hempty,
    ⟨hun.configured.congr rfl rfl rfl rfl,hun.drained,hun.rrb⟩,by rw [hkk],hcheck⟩

/-- A call that finds a message rings a doorbell. -/
private theorem Unpolled.rings (h : Unpolled B s) (hout : (s.bank s.kk).checkMsgOut ≠ []) : (dataflowNoDma (fun _ _ => 0) s).2 ≠ none := by
  obtain ⟨t,ht,hun,hkk,hcheck⟩ := h.polls
  obtain ⟨msg,rest,hmsg⟩ := exists_cons_of_ne_nil hout
  have hhead : (t.bank t.kk).checkMsgOut = msg :: rest := by rw [hkk,hcheck,hmsg]
  exact dataflow_rings ht hun.drained hhead

/-- Calls over zeroed memory with empty streams only move cursors. -/
private theorem Unpolled.idles (h : Unpolled B s) (hout : ∀ b, (s.bank b).checkMsgOut = [])
    {memory n} (hmemory : ∀ it < n, memory it = fun _ _ => 0) :
    Unpolled B (dataflows memory n s).1 ∧ (∀ b, ((dataflows memory n s).1.bank b).checkMsgOut = []) ∧
      (dataflows memory n s).1.kk = (s.kk ^^ (n % 2 == 1)) ∧ (dataflows memory n s).2 = [] := by
  induction n with
  | zero =>
    rw [dataflows_zero]
    exact ⟨h,hout,by simp,rfl⟩
  | succ n ih =>
    obtain ⟨hun,hempty,hkk,hwrites⟩ := ih (fun it hit => hmemory it (by omega))
    obtain ⟨t,ht,hnext,hflip,hcheck⟩ := hun.idle (hempty _)
    rw [dataflows_succ,hmemory n (by omega),ht,hwrites]
    refine ⟨hnext,fun b => (hcheck b).trans (hempty b),?_,rfl⟩
    rw [hflip,hkk]
    rcases Nat.mod_two_eq_zero_or_one n with hn | hn
    · simp [hn,show (n+1) % 2 = 1 by omega]
    · simp [hn,show (n+1) % 2 = 0 by omega]

private theorem quiet_check (s : Fpga) : (⟨1024,true,s⟩ : Loop).turn .quiet = (⟨0,true,s⟩,[]) :=
  turn_check rfl rfl rfl (by decide)

private theorem quiet_bitmap {i} (s : Fpga) (heven : i % 2 = 0) (hi : i ≠ 1024) :
    (⟨i,true,s⟩ : Loop).turn .quiet = (⟨i+1,true,initBitmap s⟩,[]) :=
  turn_bitmap rfl heven hi

private theorem quiet_calls {i} (s : Fpga) (hodd : ¬ i % 2 = 0) : (⟨i,true,s⟩ : Loop).turn .quiet =
      (⟨i+1,true,(dataflows quiet.memory 1024 s).1⟩,(dataflows quiet.memory 1024 s).2) :=
  turn_calls rfl hodd

/-- The turns up to the first calls of an invocation over zeroed memory. -/
private theorem run_quiet (s : Fpga) : (run [.quiet,.quiet,.quiet] (enter B.args s)).2 =
      (dataflows quiet.memory 1024 (initBitmap (s.invoke B.args))).2 := by
  rw [enter,run_cons (quiet_check _),run_cons (quiet_bitmap _ rfl (by decide)),run_cons (quiet_calls _ (by decide)),
    nil_append,nil_append,run,append_nil]

private theorem Unpolled.bitmap (h : Unpolled B s) : Unpolled B (initBitmap s) :=
  ⟨h.configured.congr rfl rfl rfl rfl,h.drained,h.rrb⟩

theorem first_rings_nothing (B : Build) : (run [.quiet,.quiet,.quiet] (enter B.args Fpga.static)).2 = [] := by
  have hstart : Unpolled B (Fpga.static.invoke B.args) := unpolled_invoke ⟨rfl,rfl⟩
  have hempty : ∀ b, ((initBitmap (Fpga.static.invoke B.args)).bank b).checkMsgOut = [] := by
    intro b
    simp [initBitmap,invoke_eq,Fpga.static]
  rw [run_quiet]
  exact (hstart.bitmap.idles hempty (fun _ _ => rfl)).2.2.2

private theorem writes_persist {memory n k} (hk : n ≤ k) (h : (dataflows memory n s).2 ≠ []) : (dataflows memory k s).2 ≠ [] := by
  induction k, hk using Nat.le_induction with
  | base => exact h
  | succ k _ ih =>
    rw [dataflows_succ]
    exact fun hnil => ih (append_eq_nil_iff.mp hnil).1

/-- A message left in a check stream is rung after the restart, whatever its
slot holds by then. -/
theorem restart_rings_stale (hdrained : Drained s) {b} (hb : (s.bank b).checkMsgOut ≠ []) :
    (run [.quiet,.quiet,.quiet] (enter B.args s)).2 ≠ [] := by
  have hstart : Unpolled B (initBitmap (s.invoke B.args)) := (unpolled_invoke hdrained).bitmap
  have hkk : (initBitmap (s.invoke B.args)).kk = false := by rw [initBitmap,invoke_eq]
  have hcheck : ∀ c, ((initBitmap (s.invoke B.args)).bank c).checkMsgOut = (s.bank c).checkMsgOut := by
    intro c
    rw [initBitmap,invoke_eq]
  rw [run_quiet]
  by_cases hfalse : (s.bank false).checkMsgOut = []
  · -- the first call finds nothing and turns to bank 1
    obtain ⟨t,ht,hnext,hflip,hkeep⟩ := hstart.idle (by rw [hkk,hcheck,hfalse])
    have htrue : (t.bank t.kk).checkMsgOut ≠ [] := by
      cases b with
      | false => exact absurd hfalse hb
      | true => rwa [hflip,hkk,hkeep,hcheck]
    have hone : dataflows quiet.memory 1 (initBitmap (s.invoke B.args)) = (t,[]) := by
      have hmemory : quiet.memory 0 = fun _ _ => 0 := rfl
      rw [dataflows_succ,dataflows_zero,hmemory,ht]
      rfl
    refine writes_persist (n := 2) (by decide) ?_
    rw [dataflows_succ,hone]
    exact fun hnil => hnext.rings htrue (Option.toList_eq_nil_iff.mp hnil)
  · refine writes_persist (n := 1) (by decide) ?_
    rw [dataflows_succ]
    rw [dataflows_zero]
    exact fun hnil => hstart.rings (by rwa [hkk,hcheck]) (Option.toList_eq_nil_iff.mp hnil)

end Stale

section Return

/-- The headers of all slots flip before call `n`. -/
def Turn.flips (n : Nat) : Turn := ⟨666,0,fun _ => 0,fun it _ a => if n ≤ it ∧ a % 512 = 16 then 0xFFFF0000 else 0⟩

/-- One round of the loop, in whose last calls both polls find a request. -/
def lastRound (n : Nat) : List Turn := List.replicate 1024 Turn.quiet ++ [Turn.flips n,Turn.stop]

private theorem run_append (xs ys : List Turn) (l : Loop) : (run (xs ++ ys) l).1 = (run ys (run xs l).1).1 := by
  induction xs generalizing l with
  | nil => rfl
  | cons t xs ih => exact ih _

theorem Reached.run (hl : Reached B l) {turns} (hhint : ∀ t ∈ turns, t.Hinted B) : Reached B (run turns l).1 := by
  induction turns generalizing l with
  | nil => exact hl
  | cons t turns ih => exact ih (hl.turn t (hhint t mem_cons_self)) (fun u hu => hhint u (mem_cons_of_mem _ hu))

/-- The smallest build after its first bitmap computation. -/
def idle : Fpga := initBitmap (Fpga.static.invoke Build.smallest.args)

private theorem initBitmap_idle : initBitmap idle = idle :=
  initBitmap_forgets (s := Fpga.static.invoke Build.smallest.args) (fun _ hc => if_neg (Nat.not_lt.mpr hc))

/-- Its cursors have one place only. -/
private theorem Unpolled.poll_smallest (h : Unpolled .smallest s) (b : Bool) : checkMessageDataflowNodma b (fun _ => 0) s = s := by
  have hnext : (s.bank b).next = 0 := Nat.lt_one_iff.mp (h.configured.next_lt b)
  have hadvance : (s.bank b).advance = (s.bank b).next := by
    rw [Bank.advance,h.configured.partition_eq,hnext]
    rfl
  rw [h.poll,hadvance]
  exact congrArg (fun bank => { s with bank := bank }) (Function.update_eq_self b s.bank)

/-- Calls over zeroed memory turn from one bank to the other, and after an even number of them nothing has changed. -/
private theorem Unpolled.calls_smallest (h : Unpolled .smallest s) (hout : ∀ b, (s.bank b).checkMsgOut = [])
    {memory n} (hmemory : ∀ it < n, memory it = fun _ _ => 0) :
    dataflows memory n s = ({ s with kk := s.kk ^^ (n % 2 == 1) },[]) := by
  induction n with
  | zero => simp
  | succ n ih =>
    have hun (k : Bool) : Unpolled .smallest { s with kk := k } :=
      ⟨h.configured.congr rfl rfl rfl rfl,h.drained,h.rrb⟩
    have hpolls (k : Bool) : checkMessageDataflowNodma true (fun _ => 0) (checkMessageDataflowNodma false (fun _ => 0)
        { s with kk := k }) = { s with kk := k } := by
      rw [(hun k).poll_smallest,(hun k).poll_smallest]
    have hcall (k : Bool) : dataflowNoDma (fun _ _ => 0) { s with kk := k } = ({ s with kk := !k },none) :=
      dataflow_idle (m := fun _ _ => 0) (hpolls k) (hun k).drained (hout k)
    rw [dataflows_succ,ih (fun it hit => hmemory it (by omega)),hmemory n (by omega),hcall]
    rcases Nat.mod_two_eq_zero_or_one n with hn | hn
    · simp [hn,show (n+1) % 2 = 1 by omega]
    · simp [hn,show (n+1) % 2 = 0 by omega]

private theorem idle_calls (memory) {n} (hmemory : ∀ it < n, memory it = fun _ _ => 0) :
    dataflows memory n idle = ({ idle with kk := n % 2 == 1 },[]) := by
  have hun : Unpolled .smallest idle := (unpolled_invoke ⟨rfl,rfl⟩).bitmap
  have hout (b : Bool) : (idle.bank b).checkMsgOut = [] := by simp [idle,initBitmap,invoke_eq,Fpga.static]
  have hkk : idle.kk = false := by rw [idle,initBitmap,invoke_eq]
  rw [hun.calls_smallest hout hmemory,hkk,Bool.false_xor]

private theorem run_idle {j} (hj : j ≤ 1022) :
    (run (List.replicate (j+2) .quiet) (enter Build.smallest.args Fpga.static)).1 = ⟨j+1,true,idle⟩ := by
  induction j with
  | zero =>
    change (run [.quiet,.quiet] (enter Build.smallest.args Fpga.static)).1 = _
    rw [run,enter,quiet_check,run,quiet_bitmap _ rfl (by decide)]
    rfl
  | succ j ih =>
    rw [replicate_succ',run_append,ih (by omega)]
    change ((⟨j+1,true,idle⟩ : Loop).turn .quiet).1 = _
    by_cases heven : (j+1) % 2 = 0
    · rw [quiet_bitmap idle heven (by omega),initBitmap_idle]
    · rw [quiet_calls idle heven,idle_calls quiet.memory (fun _ _ => rfl)]
      rfl

/-- NIC memory with the flipped headers. -/
def flipped (_ : Nat) (_ : Bool) (a : Nat) : BitVec 32 := if a % 512 = 16 then 0xFFFF0000 else 0

private theorem flips_calls (n k : Nat) : dataflows (flips n).memory (n+k) idle = dataflows flipped k { idle with kk := n % 2 == 1 } := by
  induction k with
  | zero =>
    rw [dataflows_zero]
    exact idle_calls _ (fun it hit => funext fun b => funext fun a => if_neg (fun h => Nat.not_le.mpr hit h.1))
  | succ k ih =>
    have hmemory : (flips n).memory (n+k) = flipped k := by
      funext b a
      simp [flips,flipped]
    rw [← Nat.add_assoc,dataflows_succ,ih,dataflows_succ,hmemory]

/-- The state after the round, and that of an invocation that is stopped after as many calls. -/
private theorem run_lastRound {n k} (hn : n+k = 1024) : (run (lastRound n) (enter Build.smallest.args Fpga.static)).1 =
    ⟨0,false,(dataflows flipped k { idle with kk := n % 2 == 1 }).1⟩ := by
  have hcalls (p : Fpga) : (⟨1023,true,p⟩ : Loop).turn (.flips n) =
      (⟨1024,true,(dataflows (flips n).memory 1024 p).1⟩,(dataflows (flips n).memory 1024 p).2) :=
    turn_calls rfl (show ¬ 1023 % 2 = 0 by decide)
  have hstop (q : Fpga) : (⟨1024,true,q⟩ : Loop).turn .stop = (⟨0,false,q⟩,[]) :=
    turn_return rfl rfl (by decide)
  rw [lastRound,run_append,run_idle (le_refl 1022),run,hcalls,run,hstop,run,← flips_calls,hn]

private theorem reached_lastRound (n : Nat) : Reached .smallest (run (lastRound n) (enter Build.smallest.args Fpga.static)).1 := by
  have hzero : ((0 : BitVec 32).setWidth 16).toNat < 1 := by decide
  refine Reached.first.run (fun t ht it b k _ => ?_)
  rcases mem_append.mp ht with hquiet | hlast
  · rw [eq_of_mem_replicate hquiet]
    exact hzero
  · rcases mem_cons.mp hlast with rfl | hstop
    · simp only [flips]
      split <;> exact hzero
    · rw [mem_singleton.mp hstop]
      exact hzero

/-- Calls whose messages carry no features keep the counters and the tables. -/
private theorem dataflow_keeps (m : Bool → Nat → BitVec 32) (s : Fpga) (hmsg : ∀ msg ∈ (doorbellDataflow (computeCoreId
      (checkMessageDataflowNodma true (m true) (checkMessageDataflowNodma false (m false) s)))).1.updateClusterIn,
      msg.oldFeatures = 0 ∧ msg.newFeatures = 0) :
    (dataflowNoDma m s).1.clusters = s.clusters ∧ (dataflowNoDma m s).1.mergeWeights = s.mergeWeights ∧
      (dataflowNoDma m s).1.hardPartition = s.hardPartition := by
  have hcompute (t : Fpga) : (computeCoreId t).clusters = t.clusters ∧ (computeCoreId t).mergeWeights = t.mergeWeights ∧
      (computeCoreId t).hardPartition = t.hardPartition := by
    rw [computeCoreId]
    split <;> exact ⟨rfl,rfl,rfl⟩
  have hdoorbell (t : Fpga) : (doorbellDataflow t).1.clusters = t.clusters ∧ (doorbellDataflow t).1.mergeWeights = t.mergeWeights ∧
      (doorbellDataflow t).1.hardPartition = t.hardPartition := by
    rw [doorbellDataflow]
    split <;> exact ⟨rfl,rfl,rfl⟩
  have hupdate (t : Fpga) (h : ∀ msg ∈ t.updateClusterIn, msg.oldFeatures = 0 ∧ msg.newFeatures = 0) :
      (updateCluster t).clusters = t.clusters ∧ (updateCluster t).mergeWeights = t.mergeWeights ∧
      (updateCluster t).hardPartition = t.hardPartition := by
    rw [updateCluster]
    split
    · exact ⟨rfl,rfl,rfl⟩
    · next msg rest hin =>
      obtain ⟨hold,hnew⟩ := h msg (hin ▸ mem_cons_self)
      have hfeature (f : Nat) : updateFeature (t.oldCoreId msg.i) msg t.clusters f = t.clusters := by
        simp [updateFeature,hold,hnew]
      rw [foldl_fixed' hfeature]
      exact ⟨rfl,rfl,rfl⟩
  obtain ⟨hc,hm,hp⟩ := hupdate _ hmsg
  rw [dataflowNoDma,hc,hm,hp,(hdoorbell _).1,(hdoorbell _).2.1,(hdoorbell _).2.2,(hcompute _).1,(hcompute _).2.1,(hcompute _).2.2]
  exact ⟨rfl,rfl,rfl⟩

/-- A scheduler that returns with empty check streams, no stored features and
counters as constructed rings the same doorbells when it is invoked again as one
that is invoked for the first time, if the tables are reloaded at the first check
or were never loaded. -/
theorem restart_independent (B : Build) {l : Loop} (hl : Reached B l) (hfresh : Fresh B l.fpga) (turns : List Turn)
    (htables : Reloaded l.fpga turns) :
    (Loop.run turns (Loop.enter B.args l.fpga)).2 = (Loop.run turns (Loop.enter B.args Fpga.static)).2 := by
  cases turns with
  | nil => rfl
  | cons t turns =>
    by_cases hoffset : t.totalOffset = 666
    · obtain ⟨q,hfirst,hbitmap,hagain⟩ := turn_first hl.untouched hl.drained hfresh hoffset htables
      rw [Loop.run,Loop.run,hfirst,hagain]
      cases turns with
      | nil => rfl
      | cons u turns =>
        have hturn (p : Fpga) : (⟨0,true,p⟩ : Loop).turn u = (⟨1,true,initBitmap p⟩,[]) := rfl
        rw [Loop.run,Loop.run,hturn,hturn,initBitmap_forgets hbitmap]
    · rw [Loop.run,Loop.run,Loop.enter,Loop.enter,Loop.turn_return rfl rfl hoffset,Loop.turn_return rfl rfl hoffset]
      simp only [run_returned]

/-- The request of each bank is polled four calls before the return. Both are dispatched, the
scheduler returns, and it is invoked again and finds two requests. -/
theorem restart_independent_two_requests :
    let l := (Loop.run (lastRound 1020) (Loop.enter Build.smallest.args Fpga.static)).1
    let turns := [Turn.quiet,Turn.quiet,Turn.flips 1020]
    Reached .smallest l ∧ l.running = false ∧ l.fpga.queueMetadata 0 = 2 ∧
      (Loop.run turns (Loop.enter Build.smallest.args l.fpga)).2 = (Loop.run turns (Loop.enter Build.smallest.args Fpga.static)).2 ∧
      (Loop.run turns (Loop.enter Build.smallest.args Fpga.static)).2.map Prod.snd = [0,1] := by
  intro l turns
  have hl : l = ⟨0,false,(dataflows flipped 4 idle).1⟩ := run_lastRound rfl
  have hkeeps (n : Nat) (hn : n ≤ 4) : (dataflows flipped n idle).1.clusters = idle.clusters ∧
      (dataflows flipped n idle).1.mergeWeights = idle.mergeWeights ∧
      (dataflows flipped n idle).1.hardPartition = idle.hardPartition := by
    induction n with
    | zero => simp
    | succ n ih =>
      have hmsg : ∀ n < 4, ∀ msg ∈ (doorbellDataflow (computeCoreId (checkMessageDataflowNodma true (flipped n true)
          (checkMessageDataflowNodma false (flipped n false) (dataflows flipped n idle).1)))).1.updateClusterIn,
          msg.oldFeatures = 0 ∧ msg.newFeatures = 0 := by
        decide +kernel
      rw [dataflows_succ]
      obtain ⟨hc,hm,hp⟩ := dataflow_keeps (flipped n) (dataflows flipped n idle).1 (hmsg n hn)
      obtain ⟨hc',hm',hp'⟩ := ih (by omega)
      exact ⟨hc.trans hc',hm.trans hm',hp.trans hp'⟩
  obtain ⟨hclusters,hmerge,hhard⟩ := hkeeps 4 le_rfl
  have hfresh : Fresh .smallest l.fpga := by
    rw [hl]
    refine ⟨by decide +kernel,by decide +kernel,fun c f _ => ?_⟩
    rw [hclusters]
    rfl
  have htrace : (Loop.run turns (Loop.enter Build.smallest.args Fpga.static)).2 = (dataflows flipped 4 idle).2 := by
    rw [enter,run_cons (quiet_check _),run_cons (quiet_bitmap _ rfl (by decide)),
      run_cons (turn_calls rfl (show ¬ 1 % 2 = 0 by decide)),run,append_nil,nil_append,nil_append]
    exact congrArg Prod.snd (flips_calls 1020 4)
  have hreach : Reached .smallest l := reached_lastRound 1020
  refine ⟨hreach,by rw [hl],by rw [hl]; decide +kernel,?_,?_⟩
  · have htables : l.fpga.mergeWeights = Fpga.static.mergeWeights ∧ l.fpga.hardPartition = Fpga.static.hardPartition := by
      rw [hl,hmerge,hhard]
      exact ⟨rfl,rfl⟩
    clear_value l
    exact restart_independent .smallest hreach hfresh turns (.inr htables)
  · rw [htrace]
    decide +kernel

/-- In the smallest build the scheduler returns with a polled request in a check
stream; invoked again over zeroed NIC memory it rings that request's doorbell,
where a first invocation rings none. -/
theorem restart_rings_left_request :
    let l := (Loop.run (lastRound 1023) (Loop.enter Build.smallest.args Fpga.static)).1
    Reached .smallest l ∧ l.running = false ∧
    (Loop.run [.quiet,.quiet,.quiet] (Loop.enter Build.smallest.args l.fpga)).2 ≠ [] ∧
    (Loop.run [.quiet,.quiet,.quiet] (Loop.enter Build.smallest.args Fpga.static)).2 = [] := by
  intro l
  have hl : l = ⟨0,false,(dataflows flipped 1 { idle with kk := true }).1⟩ := run_lastRound rfl
  have hreach : Reached .smallest l := reached_lastRound 1023
  have hleft : (l.fpga.bank false).checkMsgOut ≠ [] := by
    rw [hl]
    decide +kernel
  exact ⟨hreach,by rw [hl],restart_rings_stale hreach.drained hleft,first_rings_nothing .smallest⟩

end Return

end AlNiCo.Nic
