import AlNiCo.Nic.DoorbellRing
import AlNiCo.Nic.Progress

/-! Exactly-once dispatch: every request issued to the NIC is rung once, under
the id of its slot, in the queue of one core, and the streams stay bounded. -/
namespace AlNiCo.Nic
open Library Library.Counting Library.RingLog List
variable {B : Build} {s : System}

section

def Stage.next : Stage → Stage
  | poll0 => poll1
  | poll1 => compute
  | compute => doorbell
  | doorbell => update
  | update => poll0

end

section

end

section

def inQueue (B : Build) (c addr : Nat) : Bool := (List.range 256).any (fun id => addr == B.entryAddr c id)

private theorem inQueue_iff {c addr} : inQueue B c addr = true ↔ ∃ id < 256, addr = B.entryAddr c id := by
  simp [inQueue]

/-- The words that were written to the entries of a core's queue. -/
def sentTo (B : Build) (w : List (Nat × BitVec 32)) (c : Nat) : List (BitVec 32) :=
  (w.filter (fun x => inQueue B c x.1)).map Prod.snd

/-- The history of the queues is what was written there. -/
structure Logged (B : Build) (w : List (Nat × BitVec 32)) (s : System) : Prop where
  entries : ∀ x ∈ w, ∃ c < B.coreNum, ∃ id < 256, ∃ g < B.maxSlot, x = (B.entryAddr c id,BitVec.ofNat 32 g)
  sent : ∀ c < B.coreNum, sentTo B w c = (s.rung c).map (BitVec.ofNat 32)
  counted : ∀ g < B.maxSlot, (w.map Prod.snd).count (BitVec.ofNat 32 g) = rungCount B s g

variable {w : List (Nat × BitVec 32)}

private theorem Logged.congr {t} (h : Logged B w s) (hrung : t.rung = s.rung) : Logged B w t :=
  ⟨h.entries,fun c hc => hrung ▸ h.sent c hc,fun g hg => (h.counted g hg).trans (by rw [rungCount,rungCount,hrung])⟩

private theorem ofNat_inj {g x} (hg : g < B.maxSlot) (hx : x < B.maxSlot) : BitVec.ofNat 32 g = BitVec.ofNat 32 x ↔ g = x := by
  have hbank := B.perBank_le
  rw [Build.maxSlot] at hg hx
  refine ⟨fun heq => ?_,congrArg _⟩
  have hnat := congrArg BitVec.toNat heq
  rwa [BitVec.toNat_ofNat,BitVec.toNat_ofNat,Nat.mod_eq_of_lt (by omega),Nat.mod_eq_of_lt (by omega)] at hnat

/-- A doorbell adds the word it writes to the queue of one core. -/
private theorem Logged.doorbell (h : Logged B w s) (hinv : Inv B s) : Logged B (w ++ Stage.doorbell.written s) s.doorbell := by
  cases hwrite : (doorbellDataflow s.fpga).2 with
  | none =>
    have hrung : s.doorbell.rung = s.rung := by
      cases hout : s.fpga.computeCoreIdOut with
      | nil => simp only [System.doorbell,hout]
      | cons => simp [doorbellDataflow,hout] at hwrite
    rw [Stage.written,hwrite,Option.toList_none,append_nil]
    exact h.congr hrung
  | some x =>
    obtain ⟨addr,word⟩ := x
    obtain ⟨c,hc,g,hg,rfl,rfl,hself,hothers⟩ := doorbell_write hinv hwrite
    have hid : (s.rung c).length % 256 < 256 := Nat.mod_lt _ (by decide)
    rw [Stage.written,hwrite,Option.toList_some]
    refine ⟨fun x hx => ?_,fun d hd => ?_,fun x hx => ?_⟩
    · rcases mem_append.mp hx with hold | hlast
      · exact h.entries x hold
      · exact ⟨c,hc,_,hid,g,hg,mem_singleton.mp hlast⟩
    · rw [sentTo,filter_append,map_append,← sentTo,h.sent d hd]
      by_cases hdc : d = c
      · subst hdc
        rw [hself,map_append,filter_singleton,inQueue_iff.mpr ⟨_,hid,rfl⟩]
        rfl
      · have hother : inQueue B d (B.entryAddr c ((s.rung c).length % 256)) = false := by
          rw [Bool.eq_false_iff,ne_eq,inQueue_iff]
          rintro ⟨id,hlt,heq⟩
          exact hdc (B.entryAddr_inj hid hlt heq).1.symm
        rw [hothers d hdc,filter_singleton,hother]
        exact append_nil _
    · have hgain : rungCount B s.doorbell x = rungCount B s x+if g = x then 1 else 0 := by
        refine sum_range_gain hc (fun d hd => by rw [hothers d hd]) ?_
        rw [hself,count_append,count_singleton]
        simp only [beq_iff_eq]
      rw [map_append,count_append,h.counted x hx,hgain,map_singleton,count_singleton]
      simp only [beq_iff_eq,ofNat_inj hg hx]

theorem Run.logged (h : Run B w s) : Logged B w s := by
  induction h with
  | start _ =>
    refine ⟨fun _ hx => absurd hx not_mem_nil,fun _ _ => rfl,fun g _ => ?_⟩
    simp [rungCount,System.start]
  | @stage w s k hrun ih =>
    cases k with
    | doorbell => exact ih.doorbell (inv_of_reachable hrun.reachable)
    | poll0 | poll1 | compute | update => exact (append_nil w).symm ▸ ih.congr rfl
  | outside _ hstep ih => exact ih.congr (by cases hstep <;> rfl)

/-- The calls of the scheduler add to what was written. -/
private theorem Run.calls (h : Run B w s) (n : Nat) : ∃ w', w <+: w' ∧ Run B w' (System.call^[n] s) := by
  induction n with
  | zero => exact ⟨w,prefix_rfl,h⟩
  | succ n ih =>
    obtain ⟨w',hw',hrun⟩ := ih
    rw [Function.iterate_succ_apply']
    exact ⟨_,hw'.trans (((prefix_append ..).trans (prefix_append ..)).trans
      (((prefix_append ..).trans (prefix_append ..)).trans (prefix_append ..))),
      ((((hrun.stage .poll0).stage .poll1).stage .compute).stage .doorbell).stage .update⟩

end

end AlNiCo.Nic
