import AlNiCo.Host.FeatureCounts
import AlNiCo.Nic.Scheduler

/-! What the bitmaps `c_byte_feature` mean. The CPU keeps them incrementally from
the features of the slot being replaced, where `init_bitmap` of the FPGA computes
them from counters and groups. -/
namespace AlNiCo.Host
open Placement Library.Counting Function
variable {K : Config}

namespace Central

def bit (s : Central) (c f : Nat) : Bool := hasFeature (s.cByteFeature c) f

def Carried (K : Config) (s : Central) (c f : Nat) : Prop :=
  ∃ g < K.slots, (s.oldCoreId g).toNat = c ∧ hasFeature (s.oldFeature g) f = true

/-- The bit of `f` belongs in the bitmap of `c`. -/
def Entitled (K : Config) (s : Central) (c f : Nat) : Prop :=
  (s.filter f).toNat = c ∨ s.filter f = 25 ∧ s.Carried K c f

/-- Every bitmap holds exactly the features its core is entitled to. -/
def Meaning (K : Config) (s : Central) : Prop :=
  ∀ c < 24, ∀ f < 512, s.bit c f = true ↔ s.Entitled K c f

end Central

/-- What happens between two points of a run: a request is placed, `merge_weights`
of the guideline model stores new groups, or `update_weights` reads weights. -/
inductive Event (K : Config)
  | place (r : Request K)
  | guideline (group : Nat → BitVec 8)
  | weights (weights : Nat → BitVec 8)

namespace Central

def apply (s : Central) : Event K → Central
  | .place r => s.place r
  | .guideline group => { s with filter := group }
  | .weights weights => { s with mergeWeights := Host.updateWeights weights s.mergeWeights }

/-- A placement takes no ungrouped feature away from a core, and new groups
entitle the same cores. -/
def Keeps (s : Central) : Event K → Prop
  | .place r => ∀ f < 512, s.filter f = 25 → hasFeature (s.oldFeature r.slot) f = true →
      (∃ g < K.slots, g ≠ r.slot ∧ s.oldCoreId g = s.oldCoreId r.slot ∧ hasFeature (s.oldFeature g) f = true) ∨
        s.chosen r = s.oldCoreId r.slot ∧ hasFeature r.features f = true
  | .guideline group => ∀ c < 24, ∀ f < 512, Entitled K { s with filter := group } c f ↔ s.Entitled K c f
  | .weights _ => True

def run (s : Central) (events : List (Event K)) : Central := events.foldl apply s

def AllPoints (P : Central → Prop) : Central → List (Event K) → Prop
  | s,[] => P s
  | s,e :: events => P s ∧ AllPoints P (s.apply e) events

def AllSteps (Q : Central → Event K → Prop) : Central → List (Event K) → Prop
  | _,[] => True
  | s,e :: events => Q s e ∧ AllSteps Q (s.apply e) events

end Central

open Central

section Bits

private theorem clear_mask : ∀ j < 8, ∀ k < 8, (255-1 <<< j : BitVec 8).getLsbD k = decide (k ≠ j) := by decide
private theorem set_mask : ∀ j < 8, ∀ k < 8, (1 <<< j : BitVec 8).getLsbD k = decide (k = j) := by decide

/-- A store to byte `f/8` that changes bit `f % 8` alone. -/
private theorem bit_storeByte (s : Central) (c f : Nat) {b v} (hself : b.getLsbD (f % 8) = v)
    (hother : ∀ k < 8, k ≠ f % 8 → b.getLsbD k = (s.cByteFeature c (f/8)).getLsbD k) (c' f' : Nat) :
    (s.storeByte c (f/8) b).bit c' f' = if c' = c ∧ f' = f then v else s.bit c' f' := by
  simp only [bit,storeByte,hasFeature]
  by_cases hc : c' = c
  · subst hc
    rw [update_self]
    by_cases hbyte : f'/8 = f/8
    · rw [hbyte,update_self]
      by_cases hf : f' = f
      · rw [if_pos ⟨rfl,hf⟩,hf,hself]
      · rw [if_neg (fun h => hf h.2),hother _ (Nat.mod_lt _ (by decide)) (by omega)]
    · rw [update_of_ne hbyte,if_neg (fun h => hbyte (by rw [h.2]))]
  · rw [update_of_ne hc,if_neg (fun h => hc h.1)]

private theorem bit_clearFeature (s : Central) (c f c' f' : Nat) : (s.clearFeature c f).bit c' f' =
    if c' = c ∧ f' = f ∧ s.filter f ≠ 25 ∧ (s.filter f).toNat ≠ c then false else s.bit c' f' := by
  have hlt : f % 8 < 8 := Nat.mod_lt _ (by decide)
  rw [clearFeature]
  by_cases hgroup : s.filter f ≠ 25 ∧ (s.filter f).toNat ≠ c
  · rw [if_pos hgroup,bit_storeByte s c f (v := false)]
    · simp only [hgroup,ne_eq,not_false_eq_true,and_true]
    · rw [BitVec.getLsbD_and,clear_mask _ hlt _ hlt]
      simp
    · intro k hk hne
      rw [BitVec.getLsbD_and,clear_mask _ hlt _ hk,decide_eq_true hne,Bool.and_true]
  · rw [if_neg hgroup,if_neg (fun h => hgroup h.2.2)]

private theorem bit_setFeature (s : Central) (c f : Nat) {x} (hx : 0 ≤ (x.setWidth 32).toInt) (c' f' : Nat) :
    (s.setFeature c f x).bit c' f' = if c' = c ∧ f' = f ∧ (s.filter f = 25 ∨ (s.filter f).toNat = c) then true else s.bit c' f' := by
  have hlt : f % 8 < 8 := Nat.mod_lt _ (by decide)
  rw [setFeature]
  by_cases hgroup : s.filter f = 25 ∨ (s.filter f).toNat = c
  · rw [if_pos ⟨hx,hgroup⟩,bit_storeByte s c f (v := true)]
    · simp only [hgroup,and_true]
    · rw [BitVec.getLsbD_or,set_mask _ hlt _ hlt]
      simp
    · intro k hk hne
      rw [BitVec.getLsbD_or,set_mask _ hlt _ hk,decide_eq_false hne,Bool.or_false]
  · rw [if_neg (fun h => hgroup h.2),if_neg (fun h => hgroup h.2.2)]

/-- The bits after `delate_old_request`: of the old features those with the group
of another core are cleared. -/
private theorem bit_delates (s : Central) (slot c n c' f' : Nat) : (s.delateLoop slot c n).bit c' f' =
      if c' = c ∧ f' < n ∧ hasFeature (s.oldFeature slot) f' = true ∧ s.filter f' ≠ 25 ∧ (s.filter f').toNat ≠ c
      then false else s.bit c' f' := by
  induction n with
  | zero => simp [delateLoop_zero]
  | succ n ih =>
    have hagree := delateLoop_agree slot c n s
    rw [delateLoop_succ,delateFeature,hagree.oldFeature]
    by_cases hbit : hasFeature (s.oldFeature slot) n = true
    · have hadd (d : Central) : (d.addFeature c n (-1)).bit c' f' = d.bit c' f' := rfl
      have hfilter (d : Central) : (d.addFeature c n (-1)).filter = d.filter := rfl
      rw [if_pos hbit,bit_clearFeature,hadd,hfilter,hagree.filter,ih]
      by_cases hf : f' = n
      · subst hf
        simp [hbit]
      · have hiff : f' < n+1 ↔ f' < n := by omega
        simp [hf,hiff]
    · rw [if_neg hbit,ih]
      by_cases hf : f' = n
      · subst hf
        simp [hbit]
      · have hiff : f' < n+1 ↔ f' < n := by omega
        simp [hiff]

/-- The bits after `replace_new_request`: of the new features those without a
group or with that of the core are set. -/
private theorem bit_replaces (s : Central) (slot c : Nat) (hx : ∀ f < 512, 0 ≤ ((s.cFeature c f).setWidth 32).toInt) {n} (hn : n ≤ 512) :
    (∀ f ≥ n, (s.replaceLoop slot c n).cFeature c f = s.cFeature c f) ∧
    ∀ c' f', (s.replaceLoop slot c n).bit c' f' =
      if c' = c ∧ f' < n ∧ hasFeature (s.oldFeature slot) f' = true ∧ (s.filter f' = 25 ∨ (s.filter f').toNat = c)
      then true else s.bit c' f' := by
  induction n with
  | zero => simp [replaceLoop_zero]
  | succ n ih =>
    obtain ⟨hcount,hbits⟩ := ih (by omega)
    have hagree := replaceLoop_agree slot c n s
    rw [replaceLoop_succ,replaceFeature,hagree.oldFeature]
    set d := s.replaceLoop slot c n with hd
    by_cases hbit : hasFeature (s.oldFeature slot) n = true
    · rw [if_pos hbit]
      constructor
      · intro f hf
        rw [(setFeature_frame _ c n _).2,cFeature_addFeature,if_neg (by omega),hcount f (by omega)]
      · intro c' f'
        have hnonneg : 0 ≤ ((d.cFeature c n).setWidth 32).toInt := by
          rw [hcount n (Nat.le_refl n)]
          exact hx n (by omega)
        have hadd : (d.addFeature c n 1).bit c' f' = d.bit c' f' := rfl
        have hfilter : (d.addFeature c n 1).filter = d.filter := rfl
        rw [bit_setFeature _ c n hnonneg,hadd,hfilter,hagree.filter,hbits]
        by_cases hf : f' = n
        · subst hf
          simp [hbit]
        · have hiff : f' < n+1 ↔ f' < n := by omega
          simp [hf,hiff]
    · rw [if_neg hbit]
      refine ⟨fun f hf => hcount f (by omega),fun c' f' => ?_⟩
      rw [hbits]
      by_cases hf : f' = n
      · subst hf
        simp [hbit]
      · have hiff : f' < n+1 ↔ f' < n := by omega
        simp [hiff]

end Bits

section

/-- A state of the scheduler between complete requests: one thread has run, and
is idle. -/
def Between (K : Config) (s : Central) : Prop :=
  ∃ u : System, Reachable (Ranges.single K) u ∧ u.central = s ∧ ∀ t, u.phase t = .idle

theorem between_init (K : Config) : Between K cpuAlnicoInit := ⟨_,.start,rfl,fun _ => rfl⟩

variable {s : Central}

section
variable (h : Between K s)
include h

private theorem Between.turn (r : Request K) :
    ∃ u : System, Reachable (Ranges.single K) u ∧ u.central = s ∧ (∀ t, u.phase t = .idle) ∧ u.slot 0 = r.slot := by
  obtain ⟨u,hu,hcentral,hidle⟩ := h
  refine ⟨_,hu.step (.turn 0 r.slot (hidle 0) (Nat.zero_le _) r.slot_lt),hcentral,fun t => ?_,?_⟩
  · by_cases ht : t = 0
    · subst ht
      simp [System.phase]
    · simpa [System.phase,ht] using hidle t
  · simp [System.slot]

theorem Between.place (r : Request K) : Between K (s.place r) := by
  obtain ⟨u,hu,rfl,hidle,hslot⟩ := h.turn r
  have hend : u.slot 0 < (Ranges.single K).endId 0 := hslot ▸ r.slot_lt
  refine ⟨u.go 0 .idle (u.central.place r),hu.place (hidle 0) r hslot ⟨Nat.zero_le _,hend⟩,System.central_go _ _,fun t => ?_⟩
  by_cases ht : t = 0
  · subst ht
    rw [System.phase_go_self]
  · rw [System.phase_go _ _ ht,hidle t]

theorem Between.apply (e : Event K) : Between K (s.apply e) := by
  cases e with
  | place r => exact h.place r
  | guideline group =>
    obtain ⟨u,hu,rfl,hidle⟩ := h
    exact ⟨_,hu.step (.guideline group),rfl,hidle⟩
  | weights weights =>
    obtain ⟨u,hu,rfl,hidle⟩ := h
    exact ⟨_,hu.step (.weights (Host.updateWeights weights u.central.mergeWeights)),rfl,hidle⟩

/-- After `delate_old_request` every count is non-negative as an `int`. -/
theorem Between.count_nonneg (r : Request K) (c : Nat) {f} (hf : f < 512) :
    0 ≤ (((s.delateOldRequest r.slot r.features).cFeature c f).setWidth 32).toInt := by
  obtain ⟨u,hu,rfl,hidle,hslot⟩ := h.turn r
  have hend : u.slot 0 < (Ranges.single K).endId 0 := hslot ▸ r.slot_lt
  have hle := (inv_of_reachable (hu.delateOldRequest (hidle 0) r hslot ⟨Nat.zero_le _,hend⟩)).count_le c hf
  have hslots := K.slots_lt
  rw [System.central_go] at hle
  have hmod : ((u.central.delateOldRequest r.slot r.features).cFeature c f).toNat % 2^32 =
      ((u.central.delateOldRequest r.slot r.features).cFeature c f).toNat := Nat.mod_eq_of_lt (by omega)
  rw [BitVec.toInt_eq_toNat_of_lt (by rw [BitVec.toNat_setWidth,hmod]; omega)]
  exact Int.natCast_nonneg _

/-- A counter is positive exactly when some slot was last placed there. -/
theorem Between.count_ne_zero_iff (c : Nat) {f} (hf : f < 512) : s.cFeature c f ≠ 0 ↔ s.Carried K c f := by
  obtain ⟨u,hu,rfl,hidle⟩ := h
  have hinv := inv_of_reachable hu
  have hcounted (g : Nat) : u.counted (Ranges.single K) c f g = u.placed c f g := by
    have hnone : u.phaseOf (Ranges.single K) g = .idle := by rw [System.phaseOf,hidle,ite_self]
    rw [System.counted,hnone,Phase.counts,Bool.and_true]
  have hcount := hinv.counts c f hf
  constructor
  · intro hne
    by_contra hnone
    have hzero : tally K.slots (u.counted (Ranges.single K) c f) = 0 := by
      refine Finset.sum_eq_zero (fun g hg => ?_)
      rw [hcounted g,Bool.toNat_eq_zero]
      by_contra hplaced
      rw [Bool.not_eq_false,System.placed,Bool.and_eq_true,beq_iff_eq] at hplaced
      exact hnone ⟨g,Finset.mem_range.mp hg,hplaced⟩
    rw [hzero] at hcount
    exact hne (BitVec.eq_of_toNat_eq hcount)
  · rintro ⟨g,hg,hcore,hbit⟩ hzero
    have hle := toNat_le_tally hg (u.counted (Ranges.single K) c f)
    have hplaced : u.placed c f g = true := by simp [System.placed,hcore,hbit]
    rw [← hcount,hzero,hcounted g,hplaced] at hle
    exact absurd hle (by decide)

/-- A slot that stores a feature was placed on an existing core. -/
theorem Between.placed_lt {g f} (hf : f < 512) (hbit : hasFeature (s.oldFeature g) f = true) : (s.oldCoreId g).toNat < 24 := by
  obtain ⟨u,hu,rfl,hidle⟩ := h
  have hmax := K.maxThread_le
  rcases (inv_of_reachable hu).unplaced g with hlt | hchoose | hempty
  · omega
  · rw [System.phaseOf,hidle,ite_self] at hchoose
    exact absurd hchoose (by simp)
  · exact absurd ((hempty f hf).symm.trans hbit) (by decide)

end

end

section Placement
variable {s : Central}

private theorem bit_delateOldRequest (s : Central) (slot : Nat) (features : Nat → BitVec 8) (c : Nat) {f}
    (hf : f < 512) : (s.delateOldRequest slot features).bit c f = true ↔
      s.bit c f = true ∧ ¬ (c = (s.oldCoreId slot).toNat ∧ hasFeature (s.oldFeature slot) f = true ∧
        s.filter f ≠ 25 ∧ (s.filter f).toNat ≠ c) := by
  have hcopy (d : Central) : (d.copyFeature slot features).bit c f = d.bit c f := rfl
  rw [delateOldRequest_eq,hcopy,bit_delates]
  split
  · rename_i hclear
    obtain ⟨rfl,-,hbit,hnone,hgroup⟩ := hclear
    exact ⟨fun h => absurd h (by decide),fun h => absurd ⟨rfl,hbit,hnone,hgroup⟩ h.2⟩
  · rename_i hkeep
    refine ⟨fun h => ⟨h,?_⟩,fun h => h.1⟩
    rintro ⟨rfl,hbit,hnone,hgroup⟩
    exact hkeep ⟨rfl,hf,hbit,hnone,hgroup⟩

private theorem bit_replaceNewRequest (s : Central) (coreId : BitVec 16) (slot : Nat)
    (hx : ∀ f < 512, 0 ≤ ((s.cFeature coreId.toNat f).setWidth 32).toInt) (c : Nat) {f} (hf : f < 512) :
    (s.replaceNewRequest coreId slot).bit c f = true ↔ s.bit c f = true ∨
      c = coreId.toNat ∧ hasFeature (s.oldFeature slot) f = true ∧ (s.filter f = 25 ∨ (s.filter f).toNat = c) := by
  have hstore : (s.storeCore slot coreId).bit c f = s.bit c f ∧ (s.storeCore slot coreId).oldFeature = s.oldFeature ∧
      (s.storeCore slot coreId).filter = s.filter := ⟨rfl,rfl,rfl⟩
  rw [replaceNewRequest,(bit_replaces (s.storeCore slot coreId) slot coreId.toNat hx (Nat.le_refl 512)).2,hstore.1,hstore.2.1,hstore.2.2]
  split
  · rename_i hset
    obtain ⟨rfl,-,hbit,hgroup⟩ := hset
    exact ⟨fun _ => .inr ⟨rfl,hbit,hgroup⟩,fun _ => rfl⟩
  · rename_i hkeep
    refine ⟨.inl,fun h => h.resolve_right ?_⟩
    rintro ⟨rfl,hbit,hgroup⟩
    exact hkeep ⟨rfl,hf,hbit,hgroup⟩

private theorem bit_place (h : Between K s) (r : Request K) (c : Nat) {f} (hf : f < 512) : (s.place r).bit c f = true ↔
      s.bit c f = true ∧ ¬ (c = (s.oldCoreId r.slot).toNat ∧ hasFeature (s.oldFeature r.slot) f = true ∧
        s.filter f ≠ 25 ∧ (s.filter f).toNat ≠ c) ∨
      c = (s.chosen r).toNat ∧ hasFeature r.features f = true ∧ (s.filter f = 25 ∨ (s.filter f).toNat = c) := by
  obtain ⟨hfeature,-,hfilter⟩ := s.delateOldRequest_frame r.slot r.features
  rw [place,bit_replaceNewRequest _ _ _ (fun f hf => h.count_nonneg r _ hf) c hf,bit_delateOldRequest s _ _ c hf,
    hfeature,hfilter,update_self]

/-- The features carried after a placement: those of the other slots, and the
new ones at the chosen core. -/
private theorem carried_place (r : Request K) (s : Central) (c f : Nat) : (s.place r).Carried K c f ↔
    (∃ g < K.slots, g ≠ r.slot ∧ (s.oldCoreId g).toNat = c ∧ hasFeature (s.oldFeature g) f = true) ∨
      (s.chosen r).toNat = c ∧ hasFeature r.features f = true := by
  obtain ⟨hfeature,hcore,-⟩ := s.place_frame r
  rw [Central.Carried,hfeature,hcore]
  constructor
  · rintro ⟨g,hg,hon,hbit⟩
    by_cases hslot : g = r.slot
    · rw [hslot,update_self] at hon hbit
      exact .inr ⟨hon,hbit⟩
    · rw [update_of_ne hslot] at hon hbit
      exact .inl ⟨g,hg,hslot,hon,hbit⟩
  · rintro (⟨g,hg,hslot,hon,hbit⟩ | ⟨hon,hbit⟩)
    · refine ⟨g,hg,?_⟩
      rw [update_of_ne hslot,update_of_ne hslot]
      exact ⟨hon,hbit⟩
    · refine ⟨r.slot,r.slot_lt,?_⟩
      rw [update_self,update_self]
      exact ⟨hon,hbit⟩

private theorem entitled_of_grouped {c f} (hgroup : s.filter f ≠ 25) : s.Entitled K c f ↔ (s.filter f).toNat = c :=
  ⟨fun h => h.resolve_right (fun hh => hgroup hh.1),.inl⟩

private theorem entitled_of_ungrouped {c f} (hc : c < 24) (hgroup : s.filter f = 25) : s.Entitled K c f ↔ s.Carried K c f := by
  refine ⟨fun h => ?_,fun h => .inr ⟨hgroup,h⟩⟩
  rcases h with hcore | hcarried
  · rw [hgroup] at hcore
    exact absurd hcore (by rw [show (25 : BitVec 8).toNat = 25 from rfl]; omega)
  · exact hcarried.2

/-- A placement keeps the meaning exactly when it takes no ungrouped feature away
from a core. -/
theorem meaning_place_iff (h : Between K s) (hmean : s.Meaning K) (r : Request K) : (s.place r).Meaning K ↔ s.Keeps (.place r) := by
  have hfilter := (s.place_frame r).2.2
  constructor
  · intro hafter f hf hgroup hold
    have hcore := h.placed_lt hf hold
    have hbefore : s.bit (s.oldCoreId r.slot).toNat f = true :=
      (hmean _ hcore f hf).mpr (.inr ⟨hgroup,r.slot,r.slot_lt,rfl,hold⟩)
    have hbit : (s.place r).bit (s.oldCoreId r.slot).toNat f = true :=
      (bit_place h r _ hf).mpr (.inl ⟨hbefore,fun hclear => hclear.2.2.1 hgroup⟩)
    have hentitled := (hafter _ hcore f hf).mp hbit
    rw [entitled_of_ungrouped hcore (hfilter ▸ hgroup),carried_place] at hentitled
    rcases hentitled with ⟨g,hg,hne,hon,hhas⟩ | ⟨hon,hhas⟩
    · exact .inl ⟨g,hg,hne,BitVec.eq_of_toNat_eq hon,hhas⟩
    · exact .inr ⟨BitVec.eq_of_toNat_eq hon,hhas⟩
  · intro hkeeps c hc f hf
    rw [bit_place h r c hf]
    by_cases hgroup : s.filter f = 25
    · rw [entitled_of_ungrouped hc (hfilter ▸ hgroup),carried_place,hmean c hc f hf,entitled_of_ungrouped hc hgroup]
      constructor
      · rintro (⟨⟨g,hg,hon,hhas⟩,-⟩ | ⟨hon,hhas,-⟩)
        · by_cases hslot : g = r.slot
          · subst hslot
            rcases hkeeps f hf hgroup hhas with ⟨g',hg',hne,hsame,hhas'⟩ | ⟨hsame,hhas'⟩
            · exact .inl ⟨g',hg',hne,by rw [hsame,hon],hhas'⟩
            · exact .inr ⟨by rw [hsame,hon],hhas'⟩
          · exact .inl ⟨g,hg,hslot,hon,hhas⟩
        · exact .inr ⟨hon.symm,hhas⟩
      · rintro (⟨g,hg,-,hon,hhas⟩ | ⟨hon,hhas⟩)
        · exact .inl ⟨⟨g,hg,hon,hhas⟩,fun hclear => hclear.2.2.1 hgroup⟩
        · exact .inr ⟨hon.symm,hhas,.inl hgroup⟩
    · have hafter : (s.place r).filter f ≠ 25 := by rwa [hfilter]
      rw [entitled_of_grouped hafter,hfilter,hmean c hc f hf,entitled_of_grouped hgroup]
      constructor
      · rintro (⟨hon,-⟩ | ⟨-,-,hon⟩)
        · exact hon
        · exact hon.resolve_left hgroup
      · exact fun hon => .inl ⟨hon,fun hclear => hclear.2.2.2 hon⟩

theorem meaning_apply_iff (h : Between K s) (hmean : s.Meaning K) (e : Event K) : (s.apply e).Meaning K ↔ s.Keeps e := by
  cases e with
  | place r => exact meaning_place_iff h hmean r
  | guideline group =>
    constructor
    · exact fun hafter c hc f hf => ((hafter c hc f hf).symm.trans (hmean c hc f hf))
    · exact fun hkeeps c hc f hf => (hmean c hc f hf).trans (hkeeps c hc f hf).symm
  | weights weights => exact ⟨fun _ => trivial,fun _ => hmean⟩

end Placement

section Runs

theorem meaning_init (K : Config) : cpuAlnicoInit.Meaning K := by
  intro c hc f _
  have hgroup : cpuAlnicoInit.filter f ≠ 25 := show (0xFF : BitVec 8) ≠ 25 by decide
  have hcore : (cpuAlnicoInit.filter f).toNat = 255 := rfl
  rw [entitled_of_grouped hgroup,hcore]
  constructor
  · intro hbit
    simp [bit,cpuAlnicoInit,hasFeature] at hbit
  · omega

/-- From a point where the bitmaps have their meaning, they keep it at every
later point exactly if every step keeps it. -/
private theorem allPoints_iff {s} (h : Between K s) (hmean : s.Meaning K) (events : List (Event K)) :
    s.AllPoints (Central.Meaning K) events ↔ s.AllSteps Central.Keeps events := by
  induction events generalizing s with
  | nil => exact ⟨fun _ => trivial,fun _ => hmean⟩
  | cons e events ih =>
    have hstep := meaning_apply_iff h hmean e
    constructor
    · rintro ⟨-,hrest⟩
      have hnext : (s.apply e).Meaning K := by
        cases events with
        | nil => exact hrest
        | cons _ _ => exact hrest.1
      exact ⟨hstep.mp hnext,(ih (h.apply e) hnext).mp hrest⟩
    · rintro ⟨hkeeps,hrest⟩
      exact ⟨hmean,(ih (h.apply e) (hstep.mpr hkeeps)).mpr hrest⟩

/-- What `init_bitmap` computes from the counters and groups of a state. -/
theorem Between.initBitmap_iff {s} (h : Between K s) {p} (hgroup : ∀ f < 512, p.hardPartition f = s.filter f)
    (hcount : ∀ c f, f < 512 → (p.clusters c f = 0 ↔ s.cFeature c f = 0)) {c f} (hc : c < 22) (hf : f < 512) :
    ((Nic.initBitmap p).bitClusters c).getLsbD f = true ↔ s.Entitled K c f := by
  have hcarried : p.clusters c f ≠ 0 ↔ s.Carried K c f := (hcount c f hf).not.trans (h.count_ne_zero_iff c hf)
  have htop : (p.hardPartition f).toNat = 25 ↔ p.hardPartition f = 25 := by
    rw [← BitVec.toNat_inj]
    rfl
  simp only [Nic.initBitmap,if_pos hc,BitVec.getLsbD_ofFnLE,dif_pos hf,Bool.or_eq_true,Bool.and_eq_true,beq_iff_eq,
    bne_iff_ne,htop,hcarried]
  rw [Central.Entitled,hgroup f hf,and_comm]

private theorem between_run (K : Config) (events : List (Event K)) : Between K (cpuAlnicoInit.run events) := by
  induction events using List.reverseRecOn with
  | nil => exact between_init K
  | append_singleton events e ih =>
    rw [run,List.foldl_append]
    exact ih.apply e

/-- The bitmaps have their meaning at every point of a run exactly if no
placement takes an ungrouped feature away from a core and no new groups entitle
other cores than the old ones. The meaning is what `init_bitmap` computes from
the same counters and groups. -/
theorem cpu_bitmap_meaning_iff (K : Config) (events : List (Event K)) :
    (cpuAlnicoInit.AllPoints (Central.Meaning K) events ↔ cpuAlnicoInit.AllSteps Central.Keeps events) ∧
    ∀ p : Nic.Fpga, (∀ f < 512, p.hardPartition f = (cpuAlnicoInit.run events).filter f) →
      (∀ c f, f < 512 → (p.clusters c f = 0 ↔ (cpuAlnicoInit.run events).cFeature c f = 0)) →
      ∀ c < 22, ∀ f < 512, ((Nic.initBitmap p).bitClusters c).getLsbD f = true ↔
        (cpuAlnicoInit.run events).Entitled K c f :=
  ⟨allPoints_iff (between_init K) (meaning_init K) events,
    fun _ hgroup hcount _ hc _ hf => (between_run K events).initBitmap_iff hgroup hcount hc hf⟩

def Config.smallest : Config := ⟨1,1,by decide,by decide⟩

def carrier : Request .smallest := ⟨0,fun i => if i = 0 then 1 else 0,0,by decide,by decide⟩
def bare : Request .smallest := ⟨0,fun _ => 0,0,by decide,by decide⟩

private theorem run_places (s : Central) (e : Event K) (r r' : Request K) :
    s.run [e,.place r,.place r'] = ((s.apply e).place r).place r' := by
  have happly (d : Central) (q : Request K) : d.apply (.place q) = d.place q := rfl
  rw [run,List.foldl_cons,List.foldl_cons,List.foldl_cons,List.foldl_nil,happly,happly]

/-- The bit outlives the only slot that carried its feature. -/
private theorem dropped_feature {s} (hs : Between .smallest s) (hgroup : s.filter 0 = 25) :
    ((s.place carrier).place bare).bit 0 0 = true ∧ ¬ ((s.place carrier).place bare).Entitled .smallest 0 0 := by
  have hgroup' : (s.place carrier).filter 0 = 25 := by rw [(s.place_frame carrier).2.2,hgroup]
  have hfilter : ((s.place carrier).place bare).filter 0 = 25 := by rw [((s.place carrier).place_frame bare).2.2,hgroup']
  have hcore : (s.chosen carrier).toNat = 0 :=
    Nat.lt_one_iff.mp (Host.getCoreId_lt (by decide) _ _ _ carrier.default_lt)
  have hset : (s.place carrier).bit 0 0 = true :=
    (bit_place hs carrier 0 (by decide)).mpr (.inr ⟨hcore.symm,by decide,.inl hgroup⟩)
  refine ⟨(bit_place (hs.place carrier) bare 0 (by decide)).mpr (.inl ⟨hset,fun hclear => hclear.2.2.1 hgroup'⟩),?_⟩
  rw [entitled_of_ungrouped (by decide) hfilter,carried_place]
  rintro (⟨g,hg,hne,-⟩ | ⟨-,hbit⟩)
  · exact hne (Nat.lt_one_iff.mp hg)
  · exact absurd hbit (by decide)

/-- With feature 0 ungrouped, its bit at core 0 stays set after the only slot that
carried it has been replaced; and a group of core 0 alone sets no bit. -/
theorem cpu_bitmap_keeps_dropped_feature :
    (cpuAlnicoInit.run [.guideline (fun _ => 25),.place carrier,.place bare]).bit 0 0 = true ∧
    ¬ (cpuAlnicoInit.run [.guideline (fun _ => 25),.place carrier,.place bare]).Entitled .smallest 0 0 ∧
    (cpuAlnicoInit.run [Event.guideline (K := .smallest) (fun _ => 0)]).bit 0 0 = false ∧
    (cpuAlnicoInit.run [Event.guideline (K := .smallest) (fun _ => 0)]).Entitled .smallest 0 0 := by
  have hstart : Between .smallest (cpuAlnicoInit.apply (.guideline (fun _ => 25) : Event .smallest)) :=
    (between_init .smallest).apply _
  obtain ⟨hbit,hnot⟩ := dropped_feature hstart rfl
  rw [run_places]
  exact ⟨hbit,hnot,rfl,.inl rfl⟩

end Runs

end AlNiCo.Host
