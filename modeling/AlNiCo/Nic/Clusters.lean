import AlNiCo.Nic.Stages
import AlNiCo.Library.Counting

/-! The cluster counters of the FPGA. The feature memory of a slot is replaced
at its poll and the counters several stages later, so the requests of a slot
that are in between form a chain from the applied features to the memory. -/
namespace AlNiCo.Nic
open Library.Counting List
open Function (update_of_ne update_self)

/-- Core and features of the request applied last to each slot. -/
def Applied : Type := Nat → Option (Nat × BitVec 512)

def Applied.features (a : Applied) (g : Nat) : BitVec 512 :=
  match a g with
  | none => 0
  | some (_,v) => v

def Applied.carries (a : Applied) (c f g : Nat) : Bool :=
  match a g with
  | none => false
  | some (d,v) => d == c && v.getLsbD f

def Applied.next (a : Applied) (s : Fpga) : Applied :=
  match s.updateClusterIn with
  | [] => a
  | msg :: _ => Function.update a msg.i (some (msg.coreId,msg.newFeatures))

/-- The runs of one invocation. Every stage steps on its own, so the streams may
delay as they like; NIC memory is anything whose polled header hints at a core. -/
inductive FpgaRun (B : Build) : Fpga → Applied → Prop
  | start : FpgaRun B (Fpga.static.invoke B.args) (fun _ => none)
  | poll {s a} (b : Bool) (m : Nat → BitVec 32)
      (hhint : ((m ((s.bank b).slotOffset (s.bank b).next)).setWidth 16).toNat < B.coreNum) :
      FpgaRun B s a → FpgaRun B (checkMessageDataflowNodma b m s) a
  | compute {s a} : FpgaRun B s a → FpgaRun B (computeCoreId s) a
  | doorbell {s a} : FpgaRun B s a → FpgaRun B (doorbellDataflow s).1 a
  | update {s a} : FpgaRun B s a → FpgaRun B (updateCluster s) (a.next s)
  | bitmap {s a} : FpgaRun B s a → FpgaRun B (initBitmap s) a
  | weight {s a} (cdmaBuf : Nat → BitVec 8) : FpgaRun B s a → FpgaRun B (initWeight cdmaBuf s) a

section

def Chained (v : BitVec 512) : List (BitVec 512 × BitVec 512) → BitVec 512 → Prop
  | [], w => v = w
  | p :: l, w => p.1 = v ∧ Chained p.2 l w

theorem Chained.snoc {v w l} (h : Chained v l w) (n : BitVec 512) : Chained v (l ++ [(w,n)]) n := by
  induction l generalizing v with
  | nil => exact ⟨h.symm,rfl⟩
  | cons p l ih => exact ⟨h.1,ih h.2⟩

variable (B : Build) (s : Fpga) (g : Nat)

def checkWaiting : List (BitVec 512 × BitVec 512) :=
  ((s.bank (B.bankOf g)).checkMsgOut.filter (·.i = g)).map (fun msg => (msg.oldFeatures,msg.newFeatures))

def updateWaiting : List (BitVec 512 × BitVec 512) :=
  (s.updateClusterIn.filter (·.i = g)).map (fun msg => (msg.oldFeatures,msg.newFeatures))

/-- The requests of slot `g` that are polled and not applied, oldest first. -/
def waiting : List (BitVec 512 × BitVec 512) := updateWaiting s g ++ checkWaiting B s g

def memory : BitVec 512 := (s.bank (B.bankOf g)).features (B.localOf g)

end

structure ClusterInv (B : Build) (s : Fpga) (a : Applied) : Prop where
  configured : Configured B s
  check : ∀ b, ∀ msg ∈ (s.bank b).checkMsgOut, (∃ i < B.perBank, msg.i = B.slotId b i) ∧ msg.coreId < B.coreNum
  update : ∀ msg ∈ s.updateClusterIn, msg.i < B.maxSlot ∧ msg.coreId < B.coreNum
  chained : ∀ g < B.maxSlot, Chained (a.features g) (waiting B s g) (memory B s g)
  oldCore : ∀ g < B.maxSlot, ∀ c v, a g = some (c,v) → s.oldCoreId g = c ∧ c < B.coreNum
  counted : ∀ c, ∀ f < 512, (s.clusters c f).toNat =
    (initialClusters c f).toNat+tally B.maxSlot (a.carries c f)

variable {B : Build} {s : Fpga} {a : Applied}

theorem clusterInv_start (B : Build) : ClusterInv B (Fpga.static.invoke B.args) (fun _ => none) := by
  refine ⟨configured_invoke B _,fun b msg hmsg => ?_,fun msg hmsg => ?_,fun g _ => ?_,fun g _ c v h => absurd h (by simp),fun c f _ => ?_⟩
  · simp [invoke_eq,Fpga.static] at hmsg
  · simp [invoke_eq,Fpga.static] at hmsg
  · simp [waiting,updateWaiting,checkWaiting,memory,Applied.features,Chained,invoke_eq,Fpga.static]
  · simp [invoke_eq,Fpga.static,tally,Applied.carries]

/-- Steps that touch neither slots, messages nor counters. -/
private theorem ClusterInv.frame {t} (h : ClusterInv B s a) (hconf : Configured B t)
    (hbank : ∀ b, (t.bank b).checkMsgOut = (s.bank b).checkMsgOut ∧ (t.bank b).features = (s.bank b).features)
    (hin : t.updateClusterIn = s.updateClusterIn) (hold : t.oldCoreId = s.oldCoreId)
    (hclusters : t.clusters = s.clusters) : ClusterInv B t a := by
  refine ⟨hconf,fun b msg hmsg => h.check b msg ((hbank b).1 ▸ hmsg),fun msg hmsg => h.update msg (hin ▸ hmsg),
    fun g hg => ?_,hold ▸ h.oldCore,hclusters ▸ h.counted⟩
  have hchain := h.chained g hg
  simpa only [waiting,updateWaiting,checkWaiting,memory,(hbank (B.bankOf g)).1,(hbank (B.bankOf g)).2,hin] using hchain

section
variable {b : Bool} {m : Nat → BitVec 32}

section
variable (h : Configured B s)
include h

private theorem message_i : ((s.bank b).message (s.base b) m).i = s.cursor B b :=
  base_eq h b _

private theorem bankOf_cursor : B.bankOf (s.cursor B b) = b :=
  Build.bankOf_slotId (h.next_lt b)

private theorem localOf_cursor : B.localOf (s.cursor B b) = (s.bank b).next :=
  Build.localOf_slotId (h.next_lt b)

private theorem waiting_accept_self : waiting B (s.setBank b ((s.bank b).accept (s.base b) m)) (s.cursor B b) =
      waiting B s (s.cursor B b) ++ [(memory B s (s.cursor B b),((s.bank b).message (s.base b) m).newFeatures)] := by
  have hmemory : memory B s (s.cursor B b) = ((s.bank b).message (s.base b) m).oldFeatures := by
    rw [memory,bankOf_cursor h,localOf_cursor h,Bank.message]
  rw [hmemory,waiting,waiting,append_assoc]
  simp only [checkWaiting,bankOf_cursor h,setBank_self,Bank.accept,filter_append,map_append,
    filter_cons,filter_nil,message_i h,decide_true,if_true,map_cons,map_nil]
  rfl

private theorem waiting_accept {g} (hg : g ≠ s.cursor B b) :
    waiting B (s.setBank b ((s.bank b).accept (s.base b) m)) g = waiting B s g := by
  have hin : updateWaiting (s.setBank b ((s.bank b).accept (s.base b) m)) g = updateWaiting s g := rfl
  rw [waiting,waiting,hin,checkWaiting,checkWaiting]
  by_cases hb : B.bankOf g = b
  · have hne : ¬ s.cursor B b = g := fun he => hg he.symm
    simp only [hb,setBank_self,Bank.accept,filter_append,filter_cons,filter_nil,message_i h,hne,
      decide_false,Bool.false_eq_true,if_false,append_nil]
  · rw [setBank_of_ne _ _ hb]

private theorem memory_accept_self : memory B (s.setBank b ((s.bank b).accept (s.base b) m)) (s.cursor B b) =
      ((s.bank b).message (s.base b) m).newFeatures := by
  simp only [memory,bankOf_cursor h,localOf_cursor h,setBank_self,Bank.accept,Bank.message,update_self]

private theorem memory_accept {g} (hg : g ≠ s.cursor B b) : memory B (s.setBank b ((s.bank b).accept (s.base b) m)) g = memory B s g := by
  rw [memory,memory]
  by_cases hb : B.bankOf g = b
  · have hlocal : B.localOf g ≠ (s.bank b).next := by
      intro hl
      exact hg (Build.eq_of_bankOf_localOf (hb.trans (bankOf_cursor h).symm) (hl.trans (localOf_cursor h).symm))
    simp only [hb,setBank_self,Bank.accept,update_of_ne hlocal]
  · rw [setBank_of_ne _ _ hb]

end

theorem ClusterInv.poll (h : ClusterInv B s a) (hhint : ((m ((s.bank b).slotOffset (s.bank b).next)).setWidth 16).toNat < B.coreNum) :
    ClusterInv B (checkMessageDataflowNodma b m s) a := by
  have hconf := h.configured
  rw [checkMessageDataflowNodma,checkMessage_cases]
  split
  · refine ⟨hconf.setBank rfl rfl (hconf.advance_lt b),fun c msg hmsg => ?_,h.update,fun g hg => ?_,h.oldCore,h.counted⟩
    · by_cases hc : c = b
      · subst hc
        rw [setBank_self] at hmsg
        rcases mem_append.mp hmsg with hold | hlast
        · exact h.check c msg hold
        · obtain rfl := mem_singleton.mp hlast
          exact ⟨⟨_,hconf.next_lt c,message_i hconf⟩,hhint⟩
      · rw [setBank_of_ne _ _ hc] at hmsg
        exact h.check c msg hmsg
    · by_cases hg' : g = s.cursor B b
      · subst hg'
        rw [waiting_accept_self hconf,memory_accept_self hconf]
        exact (h.chained _ hg).snoc _
      · rw [waiting_accept hconf hg',memory_accept hconf hg']
        exact h.chained g hg
  · refine h.frame (hconf.setBank rfl rfl (hconf.advance_lt b)) (fun c => ⟨?_,?_⟩) rfl rfl rfl
    · exact setBank_proj Bank.checkMsgOut (by rfl) c
    · exact setBank_proj Bank.features (by rfl) c

end

section

theorem ClusterInv.compute (h : ClusterInv B s a) : ClusterInv B (computeCoreId s) a := by
  have hconf := h.configured
  cases hout : (s.bank s.kk).checkMsgOut with
  | nil =>
    simp only [computeCoreId,hout]
    exact h.frame (hconf.congr rfl rfl rfl rfl) (fun _ => ⟨rfl,rfl⟩) rfl rfl rfl
  | cons msg rest =>
    obtain ⟨⟨i,hi,hid⟩,hcore⟩ := h.check s.kk msg (by simp [hout])
    have hbank : B.bankOf msg.i = s.kk := by rw [hid,Build.bankOf_slotId hi]
    have hset : Configured B (s.setBank s.kk { s.bank s.kk with checkMsgOut := rest }) :=
      hconf.setBank rfl rfl (hconf.next_lt _)
    simp only [computeCoreId,hout,dispatch]
    refine ⟨hset.congr rfl rfl rfl rfl,fun c m hm => ?_,fun m hm => ?_,fun g hg => ?_,h.oldCore,h.counted⟩
    · exact h.check c m (mem_of_mem_rest hout hm)
    · rcases mem_append.mp hm with hold | hlast
      · exact h.update m hold
      · obtain rfl := mem_singleton.mp hlast
        refine ⟨hid ▸ Build.slotId_lt hi,?_⟩
        exact hconf.coreNum_eq ▸ Placement.Nic.coreIdFunc_lt (hconf.coreNum_eq ▸ hcore) _ _ _
    · -- the head of the check stream becomes the last of the update stream
      have hchain := h.chained g hg
      have hmemory : memory B (computeCoreId s) g = memory B s g := by
        simp only [memory,computeCoreId,hout,dispatch]
        rw [setBank_proj Bank.features (by rfl)]
      have hwaiting : waiting B (computeCoreId s) g = waiting B s g := by
        simp only [waiting,updateWaiting,checkWaiting,computeCoreId,hout,dispatch]
        by_cases hb : B.bankOf g = s.kk
        · rw [hb,setBank_self,hout]
          by_cases hg' : msg.i = g
          · simp [hg',Fpga.setBank]
          · simp [hg',Fpga.setBank]
        · have hg' : ¬ msg.i = g := fun he => hb (he ▸ hbank)
          rw [setBank_of_ne _ _ hb]
          simp [hg',Fpga.setBank]
      rw [← hwaiting,← hmemory] at hchain
      simpa only [computeCoreId,hout,dispatch] using hchain

end

section Update

/-- The decrement meets a counter that holds the slot's old request, and the
increment one below its maximum. -/
structure Fits (oldIndex : Nat) (msg : UpdateClusterIn) (clusters : Nat → Nat → BitVec 8) (f : Nat) : Prop where
  decrement : msg.oldFeatures.getLsbD f = true → 0 < (clusters oldIndex f).toNat
  increment : msg.newFeatures.getLsbD f = true →
    ((if msg.oldFeatures.getLsbD f then bump clusters oldIndex f (-1) else clusters) msg.coreId f).toNat < 255

variable {msg : UpdateClusterIn} {rest : List UpdateClusterIn}

/-- The old features of an update are those its slot was last applied with. -/
theorem ClusterInv.old_features (h : ClusterInv B s a) (hin : s.updateClusterIn = msg :: rest) : msg.oldFeatures = a.features msg.i := by
  have hchain := h.chained msg.i (h.update msg (by simp [hin])).1
  simp only [waiting,updateWaiting,hin,filter_cons,decide_true,if_true,map_cons,cons_append] at hchain
  exact hchain.1

/-- The decrement at core `c` applies exactly where the slot is counted. -/
private theorem old_iff (h : ClusterInv B s a) (hin : s.updateClusterIn = msg :: rest) (c f : Nat) :
    (msg.oldFeatures.getLsbD f = true ∧ c = s.oldCoreId msg.i) ↔ a.carries c f msg.i = true := by
  have hold := h.old_features hin
  have hcore := h.oldCore msg.i (h.update msg (by simp [hin])).1
  rw [hold,Applied.features,Applied.carries]
  cases ha : a msg.i with
  | none => simp
  | some p =>
    obtain ⟨d,v⟩ := p
    have heq := (hcore d v ha).1
    simp only [Bool.and_eq_true,beq_iff_eq,heq]
    constructor
    · exact fun hh => ⟨hh.2.symm,hh.1⟩
    · exact fun hh => ⟨hh.2,hh.1.symm⟩

private theorem toNat_change (x : BitVec 8) (p q : Bool) (hp : p.toNat ≤ x.toNat) (hq : x.toNat+q.toNat < 256) :
    (x+((if p then (-1 : BitVec 8) else 0)+if q then 1 else 0)).toNat+p.toNat = x.toNat+q.toNat := by
  have hlt := x.isLt
  cases p <;> cases q <;> simp only [Bool.toNat_true,Bool.toNat_false,if_true,if_false,Bool.false_eq_true] at * <;>
    simp only [BitVec.toNat_add,BitVec.toNat_neg,BitVec.toNat_ofNat,BitVec.ofNat_eq_ofNat] <;> omega

private theorem next_self (a : Applied) (hin : s.updateClusterIn = msg :: rest) : a.next s msg.i = some (msg.coreId,msg.newFeatures) := by
  rw [Applied.next,hin]
  exact update_self msg.i _ a

private theorem next_of_ne (a : Applied) (hin : s.updateClusterIn = msg :: rest) {g} (hg : g ≠ msg.i) : a.next s g = a g := by
  rw [Applied.next,hin]
  exact update_of_ne hg _ a

section
variable (h : ClusterInv B s a)
include h

private theorem clusterChange_eq (hin : s.updateClusterIn = msg :: rest) (c f : Nat) :
    clusterChange (s.oldCoreId msg.i) msg c f = (if a.carries c f msg.i then -1 else 0)+
      if (a.next s).carries c f msg.i then 1 else 0 := by
  have hnew : (msg.newFeatures.getLsbD f = true ∧ c = msg.coreId) ↔ (a.next s).carries c f msg.i = true := by
    rw [Applied.carries,next_self a hin,Bool.and_eq_true,beq_iff_eq,and_comm,eq_comm]
  rw [clusterChange]
  simp only [old_iff h hin,hnew]

theorem ClusterInv.counter_le (c : Nat) {f} (hf : f < 512) : (s.clusters c f).toNat ≤ 193 := by
  have hcounted := h.counted c f hf
  have hinit : (initialClusters c f).toNat ≤ 1 := by
    rw [initialClusters]
    split <;> decide
  have htally := tally_le B.maxSlot (a.carries c f)
  have hbank := B.perBank_le
  have hslots : B.maxSlot = 2*B.perBank := rfl
  omega

private theorem carries_le {g} (hg : g < B.maxSlot) (c : Nat) {f} (hf : f < 512) : (a.carries c f g).toNat ≤ (s.clusters c f).toNat := by
  have hcounted := h.counted c f hf
  have hslot := toNat_le_tally hg (a.carries c f)
  omega

private theorem counted_update (hin : s.updateClusterIn = msg :: rest) (c : Nat) {f}
    (hf : f < 512) : ((List.range 512).foldl (updateFeature (s.oldCoreId msg.i) msg) s.clusters c f).toNat =
      (initialClusters c f).toNat+tally B.maxSlot ((a.next s).carries c f) := by
  have hslot := (h.update msg (by simp [hin])).1
  have hle := h.counter_le c hf
  have hbit := Bool.toNat_le ((a.next s).carries c f msg.i)
  have hchange := toNat_change (s.clusters c f) (a.carries c f msg.i) ((a.next s).carries c f msg.i)
    (carries_le h hslot c hf) (by omega)
  have hother : ∀ g, g ≠ msg.i → (a.next s).carries c f g = a.carries c f g := fun g hg => by
    rw [Applied.carries,Applied.carries,next_of_ne a hin hg]
  have htally := tally_replace hslot hother
  have hcounted := h.counted c f hf
  rw [updateFeatures_apply,if_pos hf,clusterChange_eq h hin]
  omega

theorem ClusterInv.update_step : ClusterInv B (updateCluster s) (a.next s) := by
  cases hin : s.updateClusterIn with
  | nil =>
    simp only [updateCluster,Applied.next,hin]
    exact h
  | cons msg rest =>
    obtain ⟨hslot,hcore⟩ := h.update msg (by simp [hin])
    simp only [updateCluster,hin]
    refine ⟨h.configured.congr rfl rfl rfl rfl,h.check,
      fun m hm => h.update m (hin ▸ mem_cons_of_mem _ hm),fun g hg => ?_,fun g hg c v hcv => ?_,fun c f hf => ?_⟩
    · have hchain := h.chained g hg
      by_cases hg' : g = msg.i
      · -- the head of the chain is what has been applied
        subst hg'
        simp only [waiting,updateWaiting,hin,filter_cons,decide_true,if_true,map_cons,cons_append,Chained] at hchain
        rw [Applied.features,next_self a hin]
        exact hchain.2
      · have hne : ¬ msg.i = g := fun he => hg' he.symm
        simp only [waiting,updateWaiting,hin,filter_cons,hne,decide_false,Bool.false_eq_true,if_false] at hchain
        rw [Applied.features,next_of_ne a hin hg']
        exact hchain
    · by_cases hg' : g = msg.i
      · subst hg'
        have hpair : msg.coreId = c := congrArg Prod.fst (Option.some.inj ((next_self a hin).symm.trans hcv))
        exact ⟨(update_self _ _ _).trans hpair,hpair ▸ hcore⟩
      · have hold := h.oldCore g hg c v ((next_of_ne a hin hg').symm.trans hcv)
        exact ⟨(update_of_ne hg' _ _).trans hold.1,hold.2⟩
    · rw [← counted_update h hin c hf]

end

end Update

section

theorem ClusterInv.doorbell (h : ClusterInv B s a) : ClusterInv B (doorbellDataflow s).1 a := by
  cases hout : s.computeCoreIdOut with
  | nil =>
    simp only [doorbellDataflow,hout]
    exact h
  | cons msg rest =>
    simp only [doorbellDataflow,hout]
    exact h.frame (h.configured.congr rfl rfl rfl rfl) (fun _ => ⟨rfl,rfl⟩) rfl rfl rfl

theorem clusterInv_of_run (hs : FpgaRun B s a) : ClusterInv B s a := by
  induction hs with
  | start => exact clusterInv_start B
  | poll b m hhint _ ih => exact ih.poll hhint
  | compute _ ih => exact ih.compute
  | doorbell _ ih => exact ih.doorbell
  | update _ ih => exact ih.update_step
  | bitmap _ ih | weight _ _ ih => exact ih.frame (ih.configured.congr rfl rfl rfl rfl) (fun _ => ⟨rfl,rfl⟩) rfl rfl rfl

/-- The iterations of one update neither wrap a counter nor index outside it. -/
theorem ClusterInv.fits (h : ClusterInv B s a) {msg rest} (hin : s.updateClusterIn = msg :: rest) {f} (hf : f < 512) :
    Fits (s.oldCoreId msg.i) msg ((List.range f).foldl (updateFeature (s.oldCoreId msg.i) msg) s.clusters) f := by
  have hslot := (h.update msg (by simp [hin])).1
  -- the iterations before `f` touch other columns
  have hcolumn : ∀ c, (List.range f).foldl (updateFeature (s.oldCoreId msg.i) msg) s.clusters c f = s.clusters c f := by
    intro c
    rw [updateFeatures_apply,if_neg (Nat.lt_irrefl f),add_zero]
  have hpos : msg.oldFeatures.getLsbD f = true → 0 < (s.clusters (s.oldCoreId msg.i) f).toNat := by
    intro hbit
    have hcarries := (old_iff h hin _ f).mp ⟨hbit,rfl⟩
    have hle := carries_le h hslot (s.oldCoreId msg.i) hf
    rw [hcarries] at hle
    exact hle
  refine ⟨fun hbit => hcolumn _ ▸ hpos hbit,fun _ => ?_⟩
  have hle := h.counter_le msg.coreId hf
  by_cases hbit : msg.oldFeatures.getLsbD f = true
  · rw [if_pos hbit,bump_apply,hcolumn]
    by_cases hcore : msg.coreId = s.oldCoreId msg.i
    · have hone := hpos hbit
      rw [← hcore] at hone
      rw [if_pos ⟨hcore,rfl⟩,BitVec.toNat_add,BitVec.toNat_neg]
      have hminus : (2^8-(1 : BitVec 8).toNat) % 2^8 = 255 := rfl
      omega
    · rw [if_neg (fun hh => hcore hh.1),add_zero]
      omega
  · rw [if_neg hbit,hcolumn]
    omega

/-- In every run of one invocation each counter is its constructed value plus the
number of slots last applied to its core with its feature. The update that comes
next carries as old features those of the previous update of its slot, indexes
existing cores only, and none of its 512 iterations wraps a counter. -/
theorem cluster_counters_exact (B : Build) {s : Fpga} {a : Applied} (hs : FpgaRun B s a) :
    (∀ c f, f < 512 → (s.clusters c f).toNat =
      (initialClusters c f).toNat+tally B.maxSlot (a.carries c f)) ∧
    ∀ msg rest, s.updateClusterIn = msg :: rest →
      msg.i < B.maxSlot ∧ msg.coreId < B.coreNum ∧
      (msg.oldFeatures ≠ 0 → s.oldCoreId msg.i < B.coreNum) ∧
      msg.oldFeatures = a.features msg.i ∧
      ∀ f < 512, Fits (s.oldCoreId msg.i) msg
        ((List.range f).foldl (updateFeature (s.oldCoreId msg.i) msg) s.clusters) f := by
  have h := clusterInv_of_run hs
  refine ⟨h.counted,fun msg rest hin => ?_⟩
  obtain ⟨hslot,hcore⟩ := h.update msg (by simp [hin])
  have hold := h.old_features hin
  refine ⟨hslot,hcore,fun hne => ?_,hold,fun f hf => h.fits hin hf⟩
  cases ha : a msg.i with
  | none =>
    rw [hold,Applied.features,ha] at hne
    exact absurd rfl hne
  | some p =>
    obtain ⟨heq,hlt⟩ := h.oldCore msg.i hslot p.1 p.2 ha
    exact heq ▸ hlt

/-- A request for core 1 with the features 0 and 2 in NIC memory. -/
def firstRequest (addr : Nat) : BitVec 32 := if addr = 16 then 0xFFFF0001 else if addr = 0 then 5 else 0

/-- The next one of the same slot, for core 0 and with the features 1 and 2. -/
def secondRequest (addr : Nat) : BitVec 32 := if addr = 0 then 6 else 0

theorem cluster_counters_exact_two_updates : ∃ s a, FpgaRun .twoCores s a ∧ a 0 = some (0,6) ∧
    (s.clusters 0 2).toNat = 1 ∧ (s.clusters 1 2).toNat = 0 := by
  have hfirst := (FpgaRun.start (B := .twoCores)).poll false firstRequest (by decide +kernel) |>.compute.update
  have hrun := hfirst.poll false secondRequest (by decide +kernel) |>.compute.update
  have hcount := (cluster_counters_exact .twoCores hrun).1
  exact ⟨_,_,hrun,by decide +kernel,(hcount 0 2 (by decide)).trans (by decide +kernel),(hcount 1 2 (by decide)).trans (by decide +kernel)⟩

end

end AlNiCo.Nic
