import AlNiCo.Nic.Stages

/-! Whole invocations of `schedule_nodma`: the loop over `u_w`, its return, and
what survives until the next invocation. -/
namespace AlNiCo.Nic
open List

/-- What one turn of the loop may read: the word at `total_offset`, the CDMA
status and buffer, and NIC memory at each poll of its 1024 calls. -/
structure Turn where
  totalOffset : BitVec 32
  status : BitVec 32
  cdmaBuf : Nat → BitVec 8
  memory : Nat → Bool → Nat → BitVec 32

structure Loop where
  uW : Nat
  running : Bool
  fpga : Fpga

/-- `dataflow_no_dma` with the stages in program order, and its doorbell write. -/
def dataflowNoDma (m : Bool → Nat → BitVec 32) (s : Fpga) : Fpga × Option (Nat × BitVec 32) :=
  let s := checkMessageDataflowNodma false (m false) s
  let s := checkMessageDataflowNodma true (m true) s
  let s := computeCoreId s
  let d := doorbellDataflow s
  (updateCluster d.1,d.2)

/-- The first `n` of the calls in an odd turn, and the doorbell writes in order. -/
@[irreducible] def dataflows (memory : Nat → Bool → Nat → BitVec 32) (n : Nat) (s : Fpga) : Fpga × List (Nat × BitVec 32) :=
  (List.range n).foldl (fun p it =>
    let q := dataflowNoDma (memory it) p.1
    (q.1,p.2 ++ q.2.toList)) (s,[])

def Loop.turn (t : Turn) (l : Loop) : Loop × List (Nat × BitVec 32) :=
  if l.running then
    if l.uW % 2 = 0 then
      if l.uW = 1024 then
        if t.totalOffset ≠ 666 then ({ l with uW := 0, running := false },[])
        else if t.status &&& 2 = 2 then ({ l with uW := 0, fpga := initWeight t.cdmaBuf l.fpga },[])
        else ({ l with uW := 0 },[])
      else ({ l with uW := l.uW+1, fpga := initBitmap l.fpga },[])
    else ({ l with uW := l.uW+1, fpga := (dataflows t.memory 1024 l.fpga).1 },(dataflows t.memory 1024 l.fpga).2)
  else (l,[])

def Loop.run : List Turn → Loop → Loop × List (Nat × BitVec 32)
  | [],l => (l,[])
  | t :: turns,l => ((Loop.run turns (l.turn t).1).1,(l.turn t).2 ++ (Loop.run turns (l.turn t).1).2)

/-- `schedule_nodma` called with `con == 2`, at the head of its loop. -/
def Loop.enter (args : Args) (s : Fpga) : Loop := ⟨1024,true,s.invoke args⟩

/-- Every header in NIC memory hints at a core, as the clients write it. -/
def Turn.Hinted (B : Build) (t : Turn) : Prop :=
  ∀ it b, ∀ k < B.perBank, ((t.memory it b (512*k+16)).setWidth 16).toNat < B.coreNum

inductive Reached (B : Build) : Loop → Prop
  | first : Reached B (Loop.enter B.args Fpga.static)
  | turn {l} (t : Turn) (ht : t.Hinted B) : Reached B l → Reached B (l.turn t).1
  | again {l} (hreturn : l.running = false) : Reached B l → Reached B (Loop.enter B.args l.fpga)

/-- What lies outside the ranges the prologue resets is as it was constructed. -/
structure Untouched (B : Build) (s : Fpga) : Prop where
  configured : Configured B s
  check : ∀ b, ∀ msg ∈ (s.bank b).checkMsgOut, msg.i < B.maxSlot ∧ msg.coreId < B.coreNum
  compute : ∀ msg ∈ s.computeCoreIdOut, msg.coreId < B.coreNum
  update : ∀ msg ∈ s.updateClusterIn, msg.i < B.maxSlot
  bank : ∀ b, ∀ k ≥ B.perBank, (s.bank b).slotOffset k = 0 ∧ (s.bank b).rrb k = 0 ∧ (s.bank b).features k = 0
  oldCore : ∀ g ≥ B.maxSlot, s.oldCoreId g = 0
  clusters : ∀ c, ∀ f ≥ 512, s.clusters c f = initialClusters c f
  bitmap : ∀ c ≥ 22, s.bitClusters c = 0
  tables : ∃ loads, s.mergeWeights = Placement.Nic.loadedTable loads
  queues : ∀ c ≥ B.coreNum, s.queueAddrMap c = 0 ∧ s.queueMetadata c = 0

variable {B : Build} {s : Fpga}

theorem untouched_static (B : Build) : Untouched B (Fpga.static.invoke B.args) := by
  have hconf := configured_invoke B Fpga.static
  rw [invoke_eq] at hconf ⊢
  refine ⟨hconf,fun b msg hmsg => ?_,fun msg hmsg => ?_,fun msg hmsg => ?_,fun b k hk => ⟨?_,?_,rfl⟩,fun g hg => ?_,
    fun _ _ _ => rfl,fun _ _ => rfl,⟨[],rfl⟩,fun c hc => ⟨?_,?_⟩⟩
  · simp [Fpga.static] at hmsg
  · simp [Fpga.static] at hmsg
  · simp [Fpga.static] at hmsg
  · exact if_neg (by omega)
  · exact if_neg (by omega)
  · exact if_neg (by omega)
  · exact if_neg (by omega)
  · exact if_neg (by omega)

theorem Untouched.invoke (h : Untouched B s) : Untouched B (s.invoke B.args) := by
  have hconf := configured_invoke B s
  rw [invoke_eq] at hconf ⊢
  refine ⟨hconf,h.check,h.compute,h.update,fun b k hk => ?_,fun g hg => ?_,h.clusters,h.bitmap,h.tables,fun c hc => ?_⟩
  · have hlt : ¬ k < B.perBank := by omega
    simpa only [hlt,if_false] using h.bank b k hk
  · have hlt : ¬ g < B.maxSlot := by omega
    simpa only [hlt,if_false] using h.oldCore g hg
  · have hlt : ¬ c < B.coreNum := by omega
    simpa only [hlt,if_false] using h.queues c hc

section Stages

section
variable (h : Untouched B s)
include h

theorem Untouched.poll (b : Bool) {m} (hhint : ∀ k < B.perBank, ((m (512*k+16)).setWidth 16).toNat < B.coreNum) :
    Untouched B (checkMessageDataflowNodma b m s) := by
  have hconf := h.configured
  have hlt := hconf.next_lt b
  rw [checkMessageDataflowNodma,checkMessage_cases]
  split
  · refine ⟨hconf.setBank rfl rfl (hconf.advance_lt b),fun c msg hmsg => ?_,h.compute,h.update,fun c k hk => ?_,
      h.oldCore,h.clusters,h.bitmap,h.tables,h.queues⟩
    · by_cases hc : c = b
      · subst hc
        rw [setBank_self] at hmsg
        rcases mem_append.mp hmsg with hold | hlast
        · exact h.check c msg hold
        · obtain rfl := mem_singleton.mp hlast
          have hslot := Build.slotId_lt (b := c) hlt
          have hcore := hhint _ hlt
          rw [← base_eq hconf] at hslot
          rw [← hconf.offset_eq c _ hlt] at hcore
          exact ⟨hslot,hcore⟩
      · rw [setBank_of_ne _ _ hc] at hmsg
        exact h.check c msg hmsg
    · by_cases hc : c = b
      · subst hc
        obtain ⟨hoffset,hrrb,hfeatures⟩ := h.bank c k hk
        have hne : k ≠ (s.bank c).next := by omega
        rw [setBank_self,Bank.accept]
        exact ⟨hoffset,(Function.update_of_ne hne _ _).trans hrrb,(Function.update_of_ne hne _ _).trans hfeatures⟩
      · rw [setBank_of_ne _ _ hc]
        exact h.bank c k hk
  · refine ⟨hconf.setBank rfl rfl (hconf.advance_lt b),fun c msg hmsg => ?_,h.compute,h.update,fun c k hk => ?_,
      h.oldCore,h.clusters,h.bitmap,h.tables,h.queues⟩
    · rw [setBank_proj Bank.checkMsgOut (by rfl)] at hmsg
      exact h.check c msg hmsg
    · rw [setBank_proj Bank.slotOffset (by rfl),setBank_proj Bank.rrb (by rfl),setBank_proj Bank.features (by rfl)]
      exact h.bank c k hk

theorem Untouched.compute_step : Untouched B (computeCoreId s) := by
  have hconf := h.configured
  cases hout : (s.bank s.kk).checkMsgOut with
  | nil =>
    simp only [computeCoreId,hout]
    exact ⟨hconf.congr rfl rfl rfl rfl,h.check,h.compute,h.update,h.bank,h.oldCore,h.clusters,h.bitmap,h.tables,h.queues⟩
  | cons msg rest =>
    obtain ⟨hslot,hcore⟩ := h.check s.kk msg (by simp [hout])
    have hset : Configured B (s.setBank s.kk { s.bank s.kk with checkMsgOut := rest }) :=
      hconf.setBank rfl rfl (hconf.next_lt _)
    simp only [computeCoreId,hout,dispatch]
    refine ⟨hset.congr rfl rfl rfl rfl,fun c m hm => ?_,fun m hm => ?_,fun m hm => ?_,fun c k hk => ?_,
      h.oldCore,h.clusters,h.bitmap,h.tables,h.queues⟩
    · exact h.check c m (mem_of_mem_rest hout hm)
    · rcases mem_append.mp hm with hold | hlast
      · exact h.compute m hold
      · obtain rfl := mem_singleton.mp hlast
        exact hconf.coreNum_eq ▸ Placement.Nic.coreIdFunc_lt (hconf.coreNum_eq ▸ hcore) _ _ _
    · rcases mem_append.mp hm with hold | hlast
      · exact h.update m hold
      · obtain rfl := mem_singleton.mp hlast
        exact hslot
    · rw [setBank_proj Bank.slotOffset (by rfl),setBank_proj Bank.rrb (by rfl),setBank_proj Bank.features (by rfl)]
      exact h.bank c k hk

theorem Untouched.doorbell : Untouched B (doorbellDataflow s).1 := by
  cases hout : s.computeCoreIdOut with
  | nil =>
    simp only [doorbellDataflow,hout]
    exact h
  | cons msg rest =>
    have hcore := h.compute msg (by simp [hout])
    simp only [doorbellDataflow,hout]
    refine ⟨h.configured.congr rfl rfl rfl rfl,h.check,
      fun m hm => h.compute m (hout ▸ mem_cons_of_mem _ hm),h.update,h.bank,h.oldCore,h.clusters,h.bitmap,h.tables,
      fun c hc => ⟨(h.queues c hc).1,?_⟩⟩
    exact (Function.update_of_ne (by omega) _ _).trans (h.queues c hc).2

theorem Untouched.update_step : Untouched B (updateCluster s) := by
  cases hin : s.updateClusterIn with
  | nil =>
    simp only [updateCluster,hin]
    exact h
  | cons msg rest =>
    have hslot := h.update msg (by simp [hin])
    simp only [updateCluster,hin]
    refine ⟨h.configured.congr rfl rfl rfl rfl,h.check,h.compute,
      fun m hm => h.update m (hin ▸ mem_cons_of_mem _ hm),h.bank,fun g hg => ?_,fun c f hf => ?_,h.bitmap,h.tables,
      h.queues⟩
    · exact (Function.update_of_ne (by omega) _ _).trans (h.oldCore g hg)
    · have hbeyond := updateFeatures_apply (s.oldCoreId msg.i) msg s.clusters 512 c f
      rw [if_neg (by omega),add_zero,h.clusters c f hf] at hbeyond
      rw [← hbeyond]

theorem Untouched.bitmap_step : Untouched B (initBitmap s) := by
  refine ⟨h.configured.congr rfl rfl rfl rfl,h.check,h.compute,h.update,h.bank,h.oldCore,h.clusters,fun c hc => ?_,h.tables,h.queues⟩
  exact (if_neg (by omega)).trans (h.bitmap c hc)

theorem Untouched.weight_step (cdmaBuf : Nat → BitVec 8) : Untouched B (initWeight cdmaBuf s) := by
  obtain ⟨loads,hloads⟩ := h.tables
  refine ⟨h.configured.congr rfl rfl rfl rfl,h.check,h.compute,h.update,h.bank,h.oldCore,h.clusters,
    h.bitmap,⟨loads ++ [cdmaBuf],?_⟩,h.queues⟩
  rw [initWeight,hloads,Placement.Nic.loadedTable,Placement.Nic.loadedTable,foldl_append,foldl_cons,foldl_nil]

end

end Stages

variable {P : Fpga → Prop} (memory : Nat → Bool → Nat → BitVec 32)

section

theorem Untouched.dataflow (h : Untouched B s) {m} (hhint : ∀ b, ∀ k < B.perBank, ((m b (512*k+16)).setWidth 16).toNat < B.coreNum) :
    Untouched B (dataflowNoDma m s).1 :=
  ((((h.poll false (hhint false)).poll true (hhint true)).compute_step).doorbell).update_step

def Drained (s : Fpga) : Prop := s.computeCoreIdOut = [] ∧ s.updateClusterIn = []

/-- What `compute_core_id` sends is consumed by the same call. -/
theorem Drained.dataflow (h : Drained s) (m : Bool → Nat → BitVec 32) : Drained (dataflowNoDma m s).1 := by
  set t := checkMessageDataflowNodma true (m true) (checkMessageDataflowNodma false (m false) s) with ht
  have hstart : t.computeCoreIdOut = [] ∧ t.updateClusterIn = [] := h
  simp only [dataflowNoDma,← ht]
  cases hout : (t.bank t.kk).checkMsgOut with
  | nil => simp [Drained,computeCoreId,hout,doorbellDataflow,updateCluster,hstart]
  | cons msg rest => simp [Drained,computeCoreId,hout,dispatch,Fpga.setBank,doorbellDataflow,updateCluster,hstart]

@[simp] theorem dataflows_zero (s : Fpga) : dataflows memory 0 s = (s,[]) := by
  rw [dataflows]
  rfl

theorem dataflows_succ (n : Nat) (s : Fpga) : dataflows memory (n+1) s = ((dataflowNoDma (memory n) (dataflows memory n s).1).1,
        (dataflows memory n s).2 ++ (dataflowNoDma (memory n) (dataflows memory n s).1).2.toList) := by
  simp only [dataflows,range_succ,foldl_append,foldl_cons,foldl_nil]

/-- What every call keeps is kept by the calls of a turn. -/
theorem dataflows_induct {memory}
    (hcall : ∀ it s, P s → P (dataflowNoDma (memory it) s).1) (h : P s) (n : Nat) : P (dataflows memory n s).1 := by
  induction n with
  | zero => rwa [dataflows_zero]
  | succ n ih =>
    rw [dataflows_succ]
    exact hcall n _ ih

section
variable {l : Loop} {t : Turn}

section
variable (hrun : l.running = true)
include hrun

theorem Loop.turn_return (huw : l.uW = 1024) (hoffset : t.totalOffset ≠ 666) : l.turn t = ({ l with uW := 0, running := false },[]) := by
  have heven : l.uW % 2 = 0 := by rw [huw]
  rw [Loop.turn,if_pos hrun,if_pos heven,if_pos huw,if_pos hoffset]

theorem Loop.turn_load (huw : l.uW = 1024) (hoffset : t.totalOffset = 666)
    (hstatus : t.status &&& 2 = 2) : l.turn t = ({ l with uW := 0, fpga := initWeight t.cdmaBuf l.fpga },[]) := by
  have heven : l.uW % 2 = 0 := by rw [huw]
  rw [Loop.turn,if_pos hrun,if_pos heven,if_pos huw,if_neg (not_not_intro hoffset),if_pos hstatus]

theorem Loop.turn_check (huw : l.uW = 1024) (hoffset : t.totalOffset = 666)
    (hstatus : ¬ t.status &&& 2 = 2) : l.turn t = ({ l with uW := 0 },[]) := by
  have heven : l.uW % 2 = 0 := by rw [huw]
  rw [Loop.turn,if_pos hrun,if_pos heven,if_pos huw,if_neg (not_not_intro hoffset),if_neg hstatus]

theorem Loop.turn_bitmap (heven : l.uW % 2 = 0) (huw : l.uW ≠ 1024) :
    l.turn t = ({ l with uW := l.uW+1, fpga := initBitmap l.fpga },[]) := by
  rw [Loop.turn,if_pos hrun,if_pos heven,if_neg huw]

theorem Loop.turn_calls (hodd : ¬ l.uW % 2 = 0) : l.turn t = ({ l with uW := l.uW+1, fpga := (dataflows t.memory 1024 l.fpga).1 },
      (dataflows t.memory 1024 l.fpga).2) := by
  rw [Loop.turn,if_pos hrun,if_neg hodd]

end

end

/-- What a load, a bitmap and the calls of a turn keep, the turn keeps. -/
theorem Loop.turn_induct {t : Turn} {l : Loop} (hweight : ∀ s, P s → P (initWeight t.cdmaBuf s))
    (hbitmap : ∀ s, P s → P (initBitmap s)) (hcall : ∀ it s, P s → P (dataflowNoDma (t.memory it) s).1)
    (h : P l.fpga) : P (l.turn t).1.fpga := by
  have hcalls := dataflows_induct hcall h 1024
  rw [Loop.turn]
  split_ifs
  · exact h
  · exact hweight _ h
  · exact h
  · exact hbitmap _ h
  · exact hcalls
  · exact h

theorem Reached.untouched {l : Loop} (hl : Reached B l) : Untouched B l.fpga := by
  induction hl with
  | first => exact untouched_static B
  | turn t ht _ ih =>
    exact Loop.turn_induct (fun _ h => h.weight_step _) (fun _ h => h.bitmap_step) (fun it _ h => h.dataflow (ht it)) ih
  | again _ _ ih => exact ih.invoke

theorem Reached.drained {l : Loop} (hl : Reached B l) : Drained l.fpga := by
  induction hl with
  | first => simp [Drained,Loop.enter,invoke_eq,Fpga.static]
  | turn t ht _ ih => exact Loop.turn_induct (fun _ h => h) (fun _ h => h) (fun it _ h => h.dataflow _) ih
  | again _ _ ih => simpa only [Drained,Loop.enter,invoke_eq] using ih

end

end AlNiCo.Nic
