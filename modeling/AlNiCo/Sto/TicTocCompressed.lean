import AlNiCo.Sto.TransactionTid

/-! The compressed TicToc version: write timestamp, an 8-bit distance to the read timestamp, and
the flags of the version word. -/
namespace AlNiCo.Sto.TicTocCompressed
open Library TransactionTid BitVec

def deltaShift : Nat := 12
def wtsShift : Nat := 20
def deltaMask : Tid := 0xff#64 <<< deltaShift

def wtsValue (t : Tid) : Tid := t >>> wtsShift

def rtsValue (t : Tid) : Tid :=
  let delta := (t &&& deltaMask) >>> deltaShift
  wtsValue t+delta

/-- The word `validate_timestamps` swaps in. The shift binds tighter than the last mask. -/
def extended (v commitTs : Tid) : Tid :=
  let delta := commitTs-wtsValue v
  let shift := delta-(delta &&& 0xff#64)
  let vv := v+(shift <<< wtsShift)
  let vv := vv &&& ~~~deltaMask
  vv ||| (delta &&& (0xff#64 <<< deltaShift))

/-- What one turn of the loop finds in the word: at the load, at the lock test and at the swap. -/
structure Turn where
  v : Tid
  tested : Tid
  swapped : Tid

inductive Outcome where
  | invalid
  | valid
  | extended (old new : Tid)
deriving DecidableEq

/-- One turn of the loop; none when the swap failed and the loop goes on. -/
def Turn.outcome (t : Turn) (here readTss commitTs : Tid) : Option Outcome :=
  if commitTs ≤ rtsValue readTss then some .valid
  else if wtsValue t.v ≠ wtsValue readTss ∨ (rtsValue t.v < commitTs ∧ isLockedElsewhere t.tested here = true) then
    some .invalid
  else if rtsValue t.v < commitTs then
    if t.swapped = t.v then some (.extended t.v (extended t.v commitTs)) else none
  else some .valid

def validateTimestamps (here readTss commitTs : Tid) : List Turn → Option Outcome
  | [] => none
  | t::turns => match t.outcome here readTss commitTs with
    | none => validateTimestamps here readTss commitTs turns
    | some o => some o

/-- A loop that ends in a swap swapped in the extension of a word read below the commit timestamp. -/
theorem validateTimestamps_extended {here readTss commitTs old new turns}
    (h : validateTimestamps here readTss commitTs turns = some (.extended old new)) :
    rtsValue old < commitTs ∧ new = extended old commitTs := by
  induction turns with
  | nil => cases h
  | cons t turns ih =>
    rw [validateTimestamps] at h
    split at h
    · exact ih h
    · rename_i o ho
      obtain rfl := Option.some.inj h
      simp only [Turn.outcome] at ho
      split_ifs at ho with h1 h2 h3 h4 <;> simp only [Option.some.injEq,reduceCtorEq,Outcome.extended.injEq] at ho
      obtain ⟨rfl,rfl⟩ := ho
      exact ⟨h3,rfl⟩

private theorem deltaMask_eq : deltaMask = BitField.mask 64 12 8 := by decide

private theorem toNat_wtsValue (t : Tid) : (wtsValue t).toNat = t.toNat / 2^20 := by
  rw [wtsValue,toNat_ushiftRight,Nat.shiftRight_eq_div_pow]
  rfl

private theorem toNat_rtsValue (t : Tid) : (rtsValue t).toNat = t.toNat / 2^20+t.toNat / 2^12 % 2^8 := by
  have hd : ((t &&& deltaMask) >>> deltaShift).toNat = t.toNat / 2^12 % 2^8 := by
    rw [deltaMask_eq]
    exact BitField.toNat_field 12 8 (by decide) t
  have ht := t.isLt
  rw [rtsValue,toNat_add,hd,toNat_wtsValue]
  omega

private theorem toNat_and_ff (x : Tid) : (x &&& 0xff#64).toNat = x.toNat % 2^8 := by
  rw [toNat_and]
  exact Nat.and_two_pow_sub_one_eq_mod x.toNat 8

/-- The word after the addition: the write timestamp raised by the whole part of the distance. -/
private theorem toNat_raised {v commitTs} (hle : (wtsValue v).toNat ≤ commitTs.toNat) (hts : commitTs.toNat < 2^44) :
    let delta := commitTs-wtsValue v
    delta.toNat = commitTs.toNat-v.toNat / 2^20 ∧
      (v+((delta-(delta &&& 0xff#64)) <<< wtsShift)).toNat = v.toNat+(delta.toNat-delta.toNat % 2^8)*2^20 := by
  intro delta
  have hd : delta.toNat = commitTs.toNat-v.toNat / 2^20 := by
    rw [← toNat_wtsValue]
    exact toNat_sub_of_le (le_def.2 hle)
  have hs : (delta-(delta &&& 0xff#64)).toNat = delta.toNat-delta.toNat % 2^8 := by
    rw [toNat_sub_of_le]
    · rw [toNat_and_ff]
    · rw [le_def,toNat_and_ff]
      exact Nat.mod_le _ _
  refine ⟨hd,?_⟩
  rw [toNat_wtsValue] at hle
  rw [toNat_add,toNat_shiftLeft,hs,Nat.shiftLeft_eq,show wtsShift = 20 from rfl]
  have hv := v.isLt
  omega

/-- The extension of `v` to `commitTs`, as its fields. -/
theorem extended_fields {v commitTs} (hle : (wtsValue v).toNat ≤ commitTs.toNat) (hts : commitTs.toNat < 2^44) :
    let delta := commitTs.toNat-(wtsValue v).toNat
    (wtsValue (extended v commitTs)).toNat = (wtsValue v).toNat+(delta-delta % 256) ∧
      (rtsValue (extended v commitTs)).toNat = (wtsValue v).toNat+(delta-delta % 256)+delta / 4096 % 256 ∧
      (extended v commitTs).setWidth 12 = v.setWidth 12 := by
  intro delta
  obtain ⟨hd,hu⟩ := toNat_raised hle hts
  set d := commitTs-wtsValue v with hdef
  set u := v+((d-(d &&& 0xff#64)) <<< wtsShift) with hudef
  have he : extended v commitTs = BitField.merge (BitField.mask 64 12 8) u d := by
    rw [← deltaMask_eq]
    rfl
  have hdelta : d.toNat = delta := by rw [hd,← toNat_wtsValue]
  rw [hdelta] at hu
  have hw : (wtsValue (extended v commitTs)).toNat = (wtsValue v).toNat+(delta-delta % 256) := by
    have hsame : wtsValue (extended v commitTs) = wtsValue u := by
      rw [he]
      exact BitField.merge_ushiftRight (by decide) u d
    rw [hsame,toNat_wtsValue,hu,toNat_wtsValue]
    omega
  have hf : ((extended v commitTs &&& deltaMask) >>> deltaShift).toNat = delta / 4096 % 256 := by
    rw [he,deltaMask_eq,BitField.merge_and,← hdelta]
    exact BitField.toNat_field 12 8 (by decide) d
  refine ⟨hw,?_,?_⟩
  · have hlt : (wtsValue v).toNat+(delta-delta % 256)+delta / 4096 % 256 < 2^64 := by
      rw [toNat_wtsValue] at hle ⊢
      omega
    rw [rtsValue,toNat_add,hw,hf,Nat.mod_eq_of_lt hlt]
  · rw [he,BitField.merge_setWidth (by decide)]
    apply eq_of_toNat_eq
    rw [toNat_setWidth,toNat_setWidth,hu]
    omega

/-- What a successful swap owes: the read timestamp reaches the commit timestamp, the twelve low
bits stay, and the write timestamp moves only by what makes the distance fit its eight bits. -/
structure Extends (old new commitTs : Tid) : Prop where
  rts : commitTs ≤ rtsValue new
  flags : new.setWidth 12 = old.setWidth 12
  fits : commitTs.toNat-(wtsValue old).toNat < 256 → wtsValue new = wtsValue old
  excess : 256 ≤ commitTs.toNat-(wtsValue old).toNat →
    (wtsValue new).toNat = (wtsValue old).toNat+(commitTs.toNat-(wtsValue old).toNat-(commitTs.toNat-(wtsValue old).toNat) % 256)
  wts : wtsValue new ≤ commitTs

/-- The new distance is taken from bits 12 to 19 of the difference, so the swap reaches the
commit timestamp only when these are at least its low byte. -/
theorem compressed_extension_iff {here readTss commitTs old new : Tid} {turns : List Turn} (hts : commitTs.toNat < 2^44)
    (h : validateTimestamps here readTss commitTs turns = some (.extended old new)) :
    Extends old new commitTs ↔
      (commitTs.toNat-(wtsValue old).toNat) % 256 ≤ (commitTs.toNat-(wtsValue old).toNat) / 4096 % 256 := by
  obtain ⟨hlt,rfl⟩ := validateTimestamps_extended h
  have hle : (wtsValue old).toNat ≤ commitTs.toNat := by
    have hr := BitVec.lt_def.1 hlt
    rw [toNat_rtsValue,← toNat_wtsValue] at hr
    omega
  obtain ⟨hw,hr,hflags⟩ := extended_fields hle hts
  constructor
  · intro hext
    have hrts := BitVec.le_def.1 hext.rts
    rw [hr] at hrts
    omega
  · intro hcond
    refine ⟨BitVec.le_def.2 ?_,hflags,fun hfit => BitVec.eq_of_toNat_eq ?_,fun _ => hw,BitVec.le_def.2 ?_⟩
    · rw [hr]
      omega
    · rw [hw]
      omega
    · rw [hw]
      omega

/-- A word at write timestamp 5, extended to 4101: the difference 4096 has an empty low byte. -/
theorem compressed_extension_of_4096 :
    let v : Tid := 5#64 <<< 20
    validateTimestamps 1 v 4101 [⟨v,v,v⟩] = some (.extended v (extended v 4101)) ∧ Extends v (extended v 4101) 4101 := by
  intro v
  have h : validateTimestamps 1 v 4101 [⟨v,v,v⟩] = some (.extended v (extended v 4101)) := by decide
  exact ⟨h,(compressed_extension_iff (by decide) h).2 (by decide)⟩

/-- Extending write timestamp 5 to commit timestamp 6 validates, and leaves the read timestamp at 5. -/
theorem compressed_extension_stays_short :
    let v : Tid := 5#64 <<< 20
    validateTimestamps 1 v 6 [⟨v,v,v⟩] = some (.extended v (extended v 6)) ∧ rtsValue (extended v 6) = 5 ∧
      ¬ Extends v (extended v 6) 6 :=
  ⟨by decide,by decide,fun h => absurd h.rts (by decide)⟩

end AlNiCo.Sto.TicTocCompressed
