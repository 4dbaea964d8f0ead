import AlNiCo.Nic.StageSteps

/-! The workers keep the invariant, and with them every reachable state has it. -/
namespace AlNiCo.Nic
open Library.Counting Library.RingLog
variable {B : Build} {s : System} {c g : Nat}

private theorem served_of_duty {t d} (hcleared : t.cleared d = s.cleared d)
    (hduty : (t.worker d).duty = .replied ↔ (s.worker d).duty = .replied) : served t d = served s d := by
  rw [served,served,hcleared]
  simp only [hduty]

private theorem live_congr {t d} (hrung : t.rung d = s.rung d) (hserved : served t d = served s d) : live t d = live s d := by
  rw [live,live,hrung,hserved]

section

/-- The entry a waiting worker finds full is the oldest one it has not cleared. -/
theorem Inv.head_entry (h : Inv B s) (hc : c < B.coreNum) (hfull : s.hostm (B.entryAddr c (s.worker c).msgId) ≠ 0xFFFFFFFF) :
    ∃ g, (s.rung c)[s.cleared c]? = some g ∧ messageSlot B (s.hostm (B.entryAddr c (s.worker c).msgId)) = g := by
  have hq := h.queued c hc
  have hbank := B.perBank_le
  have hne : ∀ g ∈ s.rung c, BitVec.ofNat 32 g ≠ 0xFFFFFFFF := by
    intro g hg heq
    have hlt := hq.ids g hg
    have hnat := congrArg BitVec.toNat heq
    rw [BitVec.toNat_ofNat,Build.maxSlot] at *
    simp only [BitVec.reduceToNat] at hnat
    omega
  rw [hq.msgId] at hfull ⊢
  have hlt := (hq.ring.head_iff (by decide) hne).mp hfull
  refine ⟨(s.rung c)[s.cleared c],List.getElem?_eq_getElem hlt,?_⟩
  have hid := hq.ids _ (List.getElem_mem hlt)
  have hcell := hq.ring.live _ _ (Nat.le_refl _) (List.getElem?_eq_getElem hlt)
  rw [hcell,messageSlot,BitVec.toNat_ofNat,Nat.div_add_mod']
  rw [Build.maxSlot] at hid
  omega

private theorem receive_live (hduty : (s.worker c).duty = .waiting) (d : Nat) : live (s.receive B c) d = live s d := by
  refine live_congr rfl (served_of_duty rfl ?_)
  by_cases hd : d = c
  · subst hd
    simp [System.receive,hduty]
  · simp [System.receive,hd]

theorem Inv.receive (h : Inv B s) (hc : c < B.coreNum) (hduty : (s.worker c).duty = .waiting)
    (hfull : s.hostm (B.entryAddr c (s.worker c).msgId) ≠ 0xFFFFFFFF) : Inv B (s.receive B c) := by
  obtain ⟨g,hget,hentry⟩ := h.head_entry hc hfull
  refine ⟨h.configured,fun x hx => (h.linked x hx).congr rfl (fun _ => rfl) rfl rfl rfl rfl,
    ⟨h.streamed.check,h.streamed.compute⟩,fun d hd => ?_,h.beyond,fun x hx => ?_,h.counted⟩
  · by_cases hself : d = c
    · subst hself
      have hq := h.queued d hd
      have hwaiting := hq.duty
      rw [Served,hduty] at hwaiting
      refine ⟨hq.ring,hq.head,?_,hq.ids,?_⟩
      · simpa [System.receive] using hq.msgId
      · have hlt := (List.getElem?_eq_some_iff.mp hget).1
        have hlast : (s.rung d).take (s.cleared d+1) = (s.rung d).take (s.cleared d) ++ [g] := by
          rw [List.take_add_one,hget]
          rfl
        simp only [Served,System.receive,Function.update_self,hentry]
        exact ⟨hget,by rw [hlast,hwaiting]⟩
    · refine (h.queued d hd).congr (fun _ _ => rfl) rfl rfl rfl ?_ ?_ <;> simp [System.receive,hself]
  · have hlive : liveCount B (s.receive B c) x = liveCount B s x :=
      Finset.sum_congr rfl (fun d _ => by rw [receive_live hduty])
    rw [hlive]
    exact h.tokens x hx

end

section

private theorem reply_live (hduty : (s.worker c).duty = .serving g)
    (hget : (s.rung c)[s.cleared c]? = some g) : live s c = g :: live (s.reply c g) c := by
  have hbefore : served s c = s.cleared c := by simp [served,hduty]
  have hafter : served (s.reply c g) c = s.cleared c+1 := by simp [served,System.reply]
  have hlt := (List.getElem?_eq_some_iff.mp hget).1
  have hval := (List.getElem?_eq_some_iff.mp hget).2
  have hrung : (s.reply c g).rung c = s.rung c := rfl
  rw [live,live,hbefore,hafter,hrung,List.drop_eq_getElem_cons hlt,hval]

private theorem reply_live_of_ne {d} (hd : d ≠ c) : live (s.reply c g) d = live s d :=
  live_congr rfl (served_of_duty rfl (by simp [System.reply,hd]))

/-- Publishing the reply ends the token of the slot that was served. -/
private theorem reply_liveCount (hc : c < B.coreNum) (hduty : (s.worker c).duty = .serving g)
    (hget : (s.rung c)[s.cleared c]? = some g) (x : Nat) :
    liveCount B s x = liveCount B (s.reply c g) x+if g = x then 1 else 0 := by
  refine sum_range_gain hc (fun d hd => ?_) ?_
  · rw [reply_live_of_ne hd]
  · rw [reply_live hduty hget,List.count_cons]
    simp

theorem Inv.reply (h : Inv B s) (hc : c < B.coreNum) (hduty : (s.worker c).duty = .serving g) : Inv B (s.reply c g) := by
  have hserving := (h.queued c hc).duty
  rw [Served,hduty] at hserving
  obtain ⟨hget,hreceived⟩ := hserving
  refine ⟨h.configured,fun x hx => (h.linked x hx).congr rfl (fun _ => rfl) rfl rfl rfl rfl,
    ⟨h.streamed.check,h.streamed.compute⟩,fun d hd => ?_,h.beyond,fun x hx => ?_,h.counted⟩
  · by_cases hself : d = c
    · subst hself
      have hq := h.queued d hd
      refine ⟨hq.ring,hq.head,?_,hq.ids,?_⟩
      · simpa [System.reply] using hq.msgId
      · simp only [Served,System.reply,Function.update_self]
        exact ⟨(List.getElem?_eq_some_iff.mp hget).1,hreceived⟩
    · refine (h.queued d hd).congr (fun _ _ => rfl) rfl rfl rfl ?_ rfl
      simp [System.reply,hself]
  · have htok := h.tokens x hx
    have hcount := reply_liveCount hc hduty hget x
    have hpending : pending B (s.reply c g) x = pending B s x := rfl
    rw [hpending]
    by_cases hxg : g = x
    · subst hxg
      rw [if_pos rfl] at hcount
      have hphase : (s.reply c g).phase g ≠ .outstanding := by simp [System.reply]
      rw [if_neg hphase]
      split at htok <;> omega
    · rw [if_neg hxg,Nat.add_zero] at hcount
      have hphase : (s.reply c g).phase x = s.phase x := by
        simp [System.reply,Function.update_of_ne (fun he : x = g => hxg he.symm)]
      rw [hphase,← hcount]
      exact htok

end

section

private theorem clear_served (hduty : (s.worker c).duty = .replied) (d : Nat) : served (s.clear B c) d = served s d := by
  by_cases hd : d = c
  · subst hd
    simp [served,System.clear,hduty]
  · exact served_of_duty (by simp [System.clear,hd]) (by simp [System.clear,hd])

theorem Inv.clear (h : Inv B s) (hc : c < B.coreNum) (hduty : (s.worker c).duty = .replied) : Inv B (s.clear B c) := by
  have hreplied := (h.queued c hc).duty
  rw [Served,hduty] at hreplied
  obtain ⟨hlt,hreceived⟩ := hreplied
  refine ⟨h.configured,fun x hx => (h.linked x hx).congr rfl (fun _ => rfl) rfl rfl rfl rfl,
    ⟨h.streamed.check,h.streamed.compute⟩,fun d hd => ?_,h.beyond,fun x hx => ?_,h.counted⟩
  · by_cases hself : d = c
    · subst hself
      have hq := h.queued d hd
      have hcleared : (s.clear B d).cleared d = s.cleared d+1 := by simp [System.clear]
      refine ⟨?_,hq.head,?_,hq.ids,?_⟩
      · rw [hcleared]
        refine (hq.ring.clear hlt).congr (fun e he => ?_) (by decide)
        by_cases hcell : e = s.cleared d % 256
        · simp [System.clear,hcell,hq.msgId]
        · have hne : B.entryAddr d e ≠ B.entryAddr d (s.cleared d % 256) :=
            fun ha => hcell (B.entryAddr_inj he (Nat.mod_lt _ (by decide)) ha).2
          simp [System.clear,hq.msgId,hne,hcell]
      · rw [hcleared]
        simp only [System.clear,Function.update_self,hq.msgId]
        omega
      · simp only [Served,System.clear,Function.update_self]
        exact hreceived
    · refine (h.queued d hd).congr (fun e he => ?_) rfl ?_ rfl ?_ rfl
      · have hid : (s.worker c).msgId < 256 := by
          rw [(h.queued c hc).msgId]
          exact Nat.mod_lt _ (by decide)
        have hne : B.entryAddr d e ≠ B.entryAddr c (s.worker c).msgId :=
          fun ha => hself (B.entryAddr_inj he hid ha).1
        simp [System.clear,hne]
      · simp [System.clear,hself]
      · simp [System.clear,hself]
  · have hlive : liveCount B (s.clear B c) x = liveCount B s x :=
      Finset.sum_congr rfl (fun d _ => by rw [live_congr (s := s) (t := s.clear B c) rfl (clear_served hduty d)])
    rw [hlive]
    exact h.tokens x hx

end

theorem Inv.outside {t} (h : Inv B s) (hstep : Outside B s t) : Inv B t := by
  cases hstep with
  | issue hg hidle hhint => exact h.issue hg hidle hhint
  | landWord k hg hflight _ => exact h.landWord hg hflight k
  | landHeader hg hflight hlast => exact h.landHeader hg hflight hlast
  | seeReply _ hphase => exact h.seeReply hphase
  | bitmap => exact h.bitmap
  | weight cdmaBuf => exact h.weight cdmaBuf
  | receive hc hduty hfull => exact h.receive hc hduty hfull
  | reply hc hduty => exact h.reply hc hduty
  | clear hc hduty => exact h.clear hc hduty

/-- Every interleaving of the parties keeps the invariant. -/
theorem inv_of_reachable (h : Reachable B s) : Inv B s := by
  induction h with
  | start hempty => exact inv_start hempty
  | stage k _ ih => exact ih.stage k
  | outside _ hstep ih => exact ih.outside hstep

end AlNiCo.Nic
