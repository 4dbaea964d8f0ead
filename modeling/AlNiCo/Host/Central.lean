import AlNiCo.Placement.HostWeights

/-! The CPU scheduler `central_scheduler_t`: the placement of one request. The
loops over 64 bytes `i` and 8 bits `j` are loops over the features `i*8+j`. -/
namespace AlNiCo.Host
open Placement Function

/-- The slots of a deployment, which the scheduling loops count in an `int`, and
`MAX_THREAD`, which is at most `MAX_CORE` = 24. -/
structure Config where
  slots : Nat
  maxThread : Nat
  slots_lt : slots < 2^31
  maxThread_le : maxThread ≤ 24

structure Central where
  cFeature : Nat → Nat → BitVec 64
  cByteFeature : Nat → Nat → BitVec 8
  mergeWeights : Nat → Nat → BitVec 32
  oldFeature : Nat → Nat → BitVec 8
  oldCoreId : Nat → BitVec 16
  filter : Nat → BitVec 8

/-- `cpu_alnico_init` on the zero-initialised global: `memset` to -1 leaves 65535
in every old core. -/
def cpuAlnicoInit : Central where
  cFeature _ _ := 0
  cByteFeature _ _ := 0
  mergeWeights _ _ := 0
  oldFeature _ _ := 0
  oldCoreId _ := 0xFFFF
  filter _ := 0xFF

namespace Central

def addFeature (c f : Nat) (d : BitVec 64) (s : Central) : Central :=
  { s with cFeature := update s.cFeature c (update (s.cFeature c) f (s.cFeature c f+d)) }

def storeByte (c i : Nat) (b : BitVec 8) (s : Central) : Central :=
  { s with cByteFeature := update s.cByteFeature c (update (s.cByteFeature c) i b) }

def copyFeature (slot : Nat) (features : Nat → BitVec 8) (s : Central) : Central :=
  { s with oldFeature := update s.oldFeature slot features }

def storeCore (slot : Nat) (coreId : BitVec 16) (s : Central) : Central :=
  { s with oldCoreId := update s.oldCoreId slot coreId }

/-- The bit is cleared if the group of `f` is a core other than `c`. -/
def clearFeature (c f : Nat) (s : Central) : Central :=
  if s.filter f ≠ 25 ∧ (s.filter f).toNat ≠ c then
    s.storeByte c (f/8) (s.cByteFeature c (f/8) &&& (255-1 <<< (f % 8)))
  else s

/-- The bit is set if `f` has no group or that of `c`; `x` is the count fetched
before, as an `int`. -/
def setFeature (c f : Nat) (x : BitVec 64) (s : Central) : Central :=
  if 0 ≤ (x.setWidth 32).toInt ∧ (s.filter f = 25 ∨ (s.filter f).toNat = c) then
    s.storeByte c (f/8) (s.cByteFeature c (f/8) ||| 1 <<< (f % 8))
  else s

def delateFeature (slot oldCId : Nat) (s : Central) (f : Nat) : Central :=
  if hasFeature (s.oldFeature slot) f then (s.addFeature oldCId f (-1)).clearFeature oldCId f else s

@[irreducible] def delateLoop (slot oldCId n : Nat) (s : Central) : Central :=
  (List.range n).foldl (delateFeature slot oldCId) s

/-- `delate_old_request`, with `features` where the request has them. The old
core is a `uint16_t` widened to `int` before it is compared. -/
def delateOldRequest (slot : Nat) (features : Nat → BitVec 8) (s : Central) : Central :=
  let oldCId := (s.oldCoreId slot).toNat
  let s := if (oldCId : Int) ≠ -1 then s.delateLoop slot oldCId 512 else s
  s.copyFeature slot features

def replaceFeature (slot coreId : Nat) (s : Central) (f : Nat) : Central :=
  if hasFeature (s.oldFeature slot) f then
    (s.addFeature coreId f 1).setFeature coreId f (s.cFeature coreId f)
  else s

@[irreducible] def replaceLoop (slot coreId n : Nat) (s : Central) : Central :=
  (List.range n).foldl (replaceFeature slot coreId) s

def replaceNewRequest (coreId : BitVec 16) (slot : Nat) (s : Central) : Central :=
  (s.storeCore slot coreId).replaceLoop slot coreId.toNat 512

end Central

/-- An accepted request: its slot, features and default core, which clients and
`rand() % MAX_THREAD` keep below `MAX_THREAD`. -/
structure Request (K : Config) where
  slot : Nat
  features : Nat → BitVec 8
  defaultId : BitVec 32
  slot_lt : slot < K.slots
  default_lt : defaultId.toNat < K.maxThread

variable (slot c n : Nat) (s : Central)

namespace Central
variable {K : Config}

def chosen (r : Request K) (s : Central) : BitVec 16 :=
  let s := s.delateOldRequest r.slot r.features
  Host.getCoreId K.maxThread s.mergeWeights (s.oldFeature r.slot) s.cByteFeature r.defaultId

/-- What `run_once` and `run_strife_once` do with an accepted request before they
push it. -/
def place (r : Request K) (s : Central) : Central :=
  (s.delateOldRequest r.slot r.features).replaceNewRequest (s.chosen r) r.slot

theorem delateLoop_zero : s.delateLoop slot c 0 = s := by
  rw [delateLoop]
  rfl

theorem delateLoop_succ : s.delateLoop slot c (n+1) = delateFeature slot c (s.delateLoop slot c n) n := by
  rw [delateLoop,delateLoop,List.range_succ,List.foldl_append]
  rfl

theorem replaceLoop_zero : s.replaceLoop slot c 0 = s := by
  rw [replaceLoop]
  rfl

theorem replaceLoop_succ : s.replaceLoop slot c (n+1) = replaceFeature slot c (s.replaceLoop slot c n) n := by
  rw [replaceLoop,replaceLoop,List.range_succ,List.foldl_append]
  rfl

theorem cFeature_addFeature (c f : Nat) (d : BitVec 64) (c' f' : Nat) :
    (s.addFeature c f d).cFeature c' f' = if c' = c ∧ f' = f then s.cFeature c f+d else s.cFeature c' f' := by
  rw [addFeature]
  by_cases hc : c' = c
  · subst hc
    by_cases hf : f' = f
    · subst hf
      simp
    · simp [hf]
  · simp [hc]

/-- A widened `uint16_t` is never -1, so the loop always runs. -/
theorem delateOldRequest_eq (features : Nat → BitVec 8) (s : Central) :
    s.delateOldRequest slot features = (s.delateLoop slot (s.oldCoreId slot).toNat 512).copyFeature slot features := by
  have hwide : ((s.oldCoreId slot).toNat : Int) ≠ -1 := by omega
  simp only [delateOldRequest,if_pos hwide]

structure Agree (s s' : Central) : Prop where
  oldFeature : s'.oldFeature = s.oldFeature
  oldCoreId : s'.oldCoreId = s.oldCoreId
  filter : s'.filter = s.filter
  mergeWeights : s'.mergeWeights = s.mergeWeights

theorem Agree.refl : s.Agree s := ⟨rfl,rfl,rfl,rfl⟩

theorem Agree.trans {s s' s'' : Central} (h : s.Agree s') (k : s'.Agree s'') : s.Agree s'' :=
  ⟨k.oldFeature.trans h.oldFeature,k.oldCoreId.trans h.oldCoreId,k.filter.trans h.filter,k.mergeWeights.trans h.mergeWeights⟩

/-- The bitmap updates write bitmaps only. -/
theorem clearFeature_frame (c f : Nat) : s.Agree (s.clearFeature c f) ∧ (s.clearFeature c f).cFeature = s.cFeature := by
  rw [clearFeature]
  split <;> exact ⟨⟨rfl,rfl,rfl,rfl⟩,rfl⟩

theorem setFeature_frame (c f : Nat) (x : BitVec 64) : s.Agree (s.setFeature c f x) ∧ (s.setFeature c f x).cFeature = s.cFeature := by
  rw [setFeature]
  split <;> exact ⟨⟨rfl,rfl,rfl,rfl⟩,rfl⟩

theorem delateFeature_agree (f : Nat) : s.Agree (delateFeature slot c s f) := by
  rw [delateFeature]
  split
  · have hadd : s.Agree (s.addFeature c f (-1)) := ⟨rfl,rfl,rfl,rfl⟩
    exact hadd.trans (clearFeature_frame _ c f).1
  · exact .refl s

theorem replaceFeature_agree (f : Nat) : s.Agree (replaceFeature slot c s f) := by
  rw [replaceFeature]
  split
  · have hadd : s.Agree (s.addFeature c f 1) := ⟨rfl,rfl,rfl,rfl⟩
    exact hadd.trans (setFeature_frame _ c f _).1
  · exact .refl s

/-- The loops write counters and bitmaps only. -/
theorem delateLoop_agree : s.Agree (s.delateLoop slot c n) := by
  induction n with
  | zero => rw [delateLoop_zero]; exact .refl s
  | succ n ih =>
    rw [delateLoop_succ]
    exact ih.trans (delateFeature_agree slot c _ n)

theorem replaceLoop_agree : s.Agree (s.replaceLoop slot c n) := by
  induction n with
  | zero => rw [replaceLoop_zero]; exact .refl s
  | succ n ih =>
    rw [replaceLoop_succ]
    exact ih.trans (replaceFeature_agree slot c _ n)

theorem delateOldRequest_frame (features : Nat → BitVec 8) (s : Central) :
    (s.delateOldRequest slot features).oldFeature = update s.oldFeature slot features ∧
      (s.delateOldRequest slot features).oldCoreId = s.oldCoreId ∧
      (s.delateOldRequest slot features).filter = s.filter := by
  have hagree := delateLoop_agree slot (s.oldCoreId slot).toNat 512 s
  have hcopy (d : Central) : (d.copyFeature slot features).oldFeature = update d.oldFeature slot features ∧
      (d.copyFeature slot features).oldCoreId = d.oldCoreId ∧ (d.copyFeature slot features).filter = d.filter :=
    ⟨rfl,rfl,rfl⟩
  rw [delateOldRequest_eq,(hcopy _).1,(hcopy _).2.1,(hcopy _).2.2]
  exact ⟨by rw [hagree.oldFeature],hagree.oldCoreId,hagree.filter⟩

theorem place_frame (r : Request K) (s : Central) : (s.place r).oldFeature = update s.oldFeature r.slot r.features ∧
      (s.place r).oldCoreId = update s.oldCoreId r.slot (s.chosen r) ∧ (s.place r).filter = s.filter := by
  obtain ⟨hfeature,hcore,hfilter⟩ := s.delateOldRequest_frame r.slot r.features
  have hstore (d : Central) : (d.storeCore r.slot (s.chosen r)).oldFeature = d.oldFeature ∧
      (d.storeCore r.slot (s.chosen r)).oldCoreId = update d.oldCoreId r.slot (s.chosen r) ∧
      (d.storeCore r.slot (s.chosen r)).filter = d.filter := ⟨rfl,rfl,rfl⟩
  have hagree := replaceLoop_agree r.slot (s.chosen r).toNat 512
    ((s.delateOldRequest r.slot r.features).storeCore r.slot (s.chosen r))
  rw [place,replaceNewRequest,hagree.oldFeature,hagree.oldCoreId,hagree.filter,(hstore _).1,(hstore _).2.1,(hstore _).2.2,
    hfeature,hcore,hfilter]
  exact ⟨rfl,rfl,rfl⟩

end Central

end AlNiCo.Host
