import AlNiCo.Nic.ClientSteps

/-! The FPGA stages keep the invariant. -/
namespace AlNiCo.Nic
open Library.Counting Library.RingLog List
variable {B : Build} {s t : System}

section Poll
variable {b : Bool}

section
variable (h : Inv B s)
include h

private theorem cursor_bank : B.bankOf (s.fpga.cursor B b) = b :=
  Build.bankOf_slotId (h.configured.next_lt b)

private theorem cursor_local : B.localOf (s.fpga.cursor B b) = (s.fpga.bank b).next :=
  Build.localOf_slotId (h.configured.next_lt b)

private theorem cursor_lt : s.fpga.cursor B b < B.maxSlot :=
  Build.slotId_lt (h.configured.next_lt b)

private theorem cursor_offset : (s.fpga.bank b).slotOffset (s.fpga.bank b).next = B.headerAddr (s.fpga.cursor B b) := by
  rw [h.configured.offset_eq b _ (h.configured.next_lt b),Build.headerAddr,cursor_local h]

private theorem cursor_header : s.m b ((s.fpga.bank b).slotOffset (s.fpga.bank b).next) = header B s (s.fpga.cursor B b) := by
  rw [cursor_offset h,header,cursor_bank h]

private theorem cursor_polled : ((s.fpga.bank b).rrb (s.fpga.bank b).next).setWidth 16 = polled B s (s.fpga.cursor B b) := by
  rw [polled,cursor_bank h,cursor_local h]

/-- A poll either accepts the request that waits under the cursor or only moves
the cursor on. -/
theorem Inv.poll_cases (b : Bool) : (landed B s (s.fpga.cursor B b) = polled B s (s.fpga.cursor B b) ∧
      s.poll b = { s with fpga := s.fpga.setBank b { s.fpga.bank b with next := (s.fpga.bank b).advance } }) ∨
    (landed B s (s.fpga.cursor B b) ≠ polled B s (s.fpga.cursor B b) ∧
      s.poll b = { s with fpga := s.fpga.setBank b ((s.fpga.bank b).accept (s.fpga.base b) (s.m b)) }) := by
  have hpoll : s.poll b = { s with fpga := s.fpga.setBank b (checkMessage (s.fpga.base b) (s.m b) (s.fpga.bank b)) } := rfl
  rw [checkMessage_cases,cursor_header h,cursor_polled h,← landed] at hpoll
  by_cases hsame : landed B s (s.fpga.cursor B b) = polled B s (s.fpga.cursor B b)
  · have hne : landed B s (s.fpga.cursor B b) ≠ ~~~(polled B s (s.fpga.cursor B b)) := by
      rw [hsame]
      exact fun hc => not_ne_self _ hc.symm
    rw [if_neg hne] at hpoll
    exact .inl ⟨hsame,hpoll⟩
  · rw [if_pos ((h.linked _ (cursor_lt h)).fresh hsame).1] at hpoll
    exact .inr ⟨hsame,hpoll⟩

end

private def moved (s : System) (b : Bool) : System :=
  { s with fpga := s.fpga.setBank b { s.fpga.bank b with next := (s.fpga.bank b).advance } }

private theorem moved_polled (s : System) (b : Bool) (x : Nat) : polled B (moved s b) x = polled B s x := by
  rw [polled,moved,setBank_proj Bank.rrb (by rfl),polled]

private theorem moved_out (s : System) (b c : Bool) : ((moved s b).fpga.bank c).checkMsgOut = (s.fpga.bank c).checkMsgOut := by
  rw [moved,setBank_proj Bank.checkMsgOut (by rfl)]

/-- Moving a cursor changes nothing the invariant speaks of. -/
private theorem Inv.move (h : Inv B s) (b : Bool) : Inv B (moved s b) := by
  have hpending (x : Nat) : pending B (moved s b) x = pending B s x := by
    have hrest : pending B (moved s b) x = inFlight s x+unpolled B (moved s b) x+checked B (moved s b) x+computed s x := rfl
    rw [hrest,unpolled_congr (s := s) (t := moved s b) rfl (moved_polled s b x),checked,moved_out,← checked,pending]
  refine ⟨h.configured.setBank rfl rfl (h.configured.advance_lt b),
    fun x hx => (h.linked x hx).congr rfl (fun _ => rfl) (moved_polled s b x) rfl rfl rfl,
    ⟨fun c msg hmsg => h.streamed.check c msg (moved_out s b c ▸ hmsg),h.streamed.compute⟩,
    fun c hc => (h.queued c hc).congr (fun _ _ => rfl) rfl rfl rfl rfl rfl,h.beyond,fun x hx => ?_,fun x hx => ?_⟩
  · rw [hpending]
    exact h.tokens x hx
  · rw [hpending]
    exact h.counted x hx

section

private def accepted (s : System) (b : Bool) : System :=
  { s with fpga := s.fpga.setBank b ((s.fpga.bank b).accept (s.fpga.base b) (s.m b)) }

section
variable (h : Inv B s)
include h

private theorem accepted_polled_self : polled B (accepted s b) (s.fpga.cursor B b) = landed B s (s.fpga.cursor B b) := by
  rw [polled,cursor_bank h,cursor_local h,accepted]
  simp only [setBank_self,Bank.accept,Function.update_self]
  rw [cursor_header h,setWidth_tmpRRB,landed]

private theorem accepted_polled {x} (hx : x ≠ s.fpga.cursor B b) : polled B (accepted s b) x = polled B s x := by
  rw [polled,polled,accepted]
  by_cases hb : B.bankOf x = b
  · have hlocal : B.localOf x ≠ (s.fpga.bank b).next := by
      intro hl
      refine hx (Build.eq_of_bankOf_localOf (hb.trans (cursor_bank h).symm) ?_)
      rw [hl,cursor_local h]
    simp only [hb,setBank_self,Bank.accept,Function.update_of_ne hlocal]
  · simp only [setBank_of_ne _ _ hb]

private theorem accepted_message (b : Bool) : ((s.fpga.bank b).message (s.fpga.base b) (s.m b)).i = s.fpga.cursor B b :=
  base_eq h.configured b _

private theorem accepted_checked (x : Nat) : checked B (accepted s b) x = checked B s x+if x = s.fpga.cursor B b then 1 else 0 := by
  rw [checked,checked,accepted]
  by_cases hb : B.bankOf x = b
  · simp only [hb,setBank_self,Bank.accept,map_append,map_cons,map_nil,count_append,accepted_message h b]
    by_cases hx : x = s.fpga.cursor B b
    · simp [← hx]
    · simp [hx,count_eq_zero_of_not_mem]
  · have hx : x ≠ s.fpga.cursor B b := by
      rintro rfl
      exact hb (cursor_bank h)
    simp only [setBank_of_ne _ _ hb,hx,if_false,Nat.add_zero]

/-- The token moves from NIC memory to the check stream. -/
private theorem accepted_pending (hnew : landed B s (s.fpga.cursor B b) ≠ polled B s (s.fpga.cursor B b)) (x : Nat) :
    pending B (accepted s b) x = pending B s x := by
  have hrest : pending B (accepted s b) x = inFlight s x+unpolled B (accepted s b) x+checked B (accepted s b) x+computed s x := rfl
  rw [hrest,accepted_checked h,pending]
  by_cases hx : x = s.fpga.cursor B b
  · subst hx
    have hpolled := accepted_polled_self (b := b) h
    have hlanded : landed B (accepted s b) (s.fpga.cursor B b) = landed B s (s.fpga.cursor B b) := rfl
    have hafter : unpolled B (accepted s b) (s.fpga.cursor B b) = 0 := by
      rw [unpolled,hpolled,hlanded,if_pos rfl]
    have hbefore : unpolled B s (s.fpga.cursor B b) = 1 := by rw [unpolled,if_neg hnew]
    rw [hafter,hbefore,if_pos rfl]
    omega
  · rw [unpolled_congr (s := s) (t := accepted s b) rfl (accepted_polled h hx),if_neg hx]
    rfl

private theorem accepted_features {v} (hwords : ∀ k, featureWord B s (s.fpga.cursor B b) k = v.extractLsb' (32*k.val) 32) :
    loadFeature ((s.fpga.bank b).slotOffset (s.fpga.bank b).next-16) (s.m b) = v := by
  refine loadFeature_eq (fun k => ?_)
  rw [← hwords k,featureWord,cursor_bank h,cursor_offset h,Build.headerAddr,Nat.add_sub_cancel]

private theorem Inv.accept (hnew : landed B s (s.fpga.cursor B b) ≠ polled B s (s.fpga.cursor B b)) : Inv B (accepted s b) := by
  have hlink := h.linked _ (cursor_lt (b := b) h)
  obtain ⟨_,hhint,hwords⟩ := hlink.fresh hnew
  have hpolled := accepted_polled_self (b := b) h
  refine ⟨h.configured.setBank rfl rfl (h.configured.advance_lt b),fun x hx => ?_,⟨fun c msg hmsg => ?_,h.streamed.compute⟩,
    fun c hc => (h.queued c hc).congr (fun _ _ => rfl) rfl rfl rfl rfl rfl,h.beyond,fun x hx => ?_,fun x hx => ?_⟩
  · by_cases hxg : x = s.fpga.cursor B b
    · subst hxg
      refine ⟨hlink.hint_lt,hlink.latest_lt,fun f hf => absurd (hlink.flying f hf).2.1 hnew,hlink.arrived,
        fun hne => absurd hpolled.symm hne⟩
    · exact (h.linked x hx).congr rfl (fun _ => rfl) (accepted_polled h hxg) rfl rfl rfl
  · by_cases hc : c = b
    · subst hc
      have hmem : msg ∈ (s.fpga.bank c).checkMsgOut ++ [(s.fpga.bank c).message (s.fpga.base c) (s.m c)] := by
        simpa [accepted,Bank.accept] using hmsg
      rcases mem_append.mp hmem with hold | hlast
      · exact h.streamed.check c msg hold
      · obtain rfl := mem_singleton.mp hlast
        refine ⟨⟨_,h.configured.next_lt c,accepted_message h c⟩,?_,?_⟩
        · rw [accepted_message h c,Bank.message,cursor_header h,hhint]
          rfl
        · rw [accepted_message h c,Bank.message,accepted_features h hwords]
          rfl
    · have hsame : ((accepted s b).fpga.bank c).checkMsgOut = (s.fpga.bank c).checkMsgOut := by
        rw [accepted,setBank_of_ne _ _ hc]
      exact h.streamed.check c msg (hsame ▸ hmsg)
  · rw [accepted_pending h hnew]
    exact h.tokens x hx
  · rw [accepted_pending h hnew]
    exact h.counted x hx

end

end

theorem Inv.poll (h : Inv B s) (b : Bool) : Inv B (s.poll b) := by
  rcases h.poll_cases b with ⟨_,hpoll⟩ | ⟨hnew,hpoll⟩
  · rw [hpoll]
    exact h.move b
  · rw [hpoll]
    exact h.accept hnew

end Poll

section

private def popped (f : Fpga) (rest : List CdmaMsgOut) : Fpga :=
  f.setBank f.kk { f.bank f.kk with checkMsgOut := rest }

/-- The token moves from the check stream to the doorbell stream. -/
private theorem compute_pending (h : Inv B s) {msg rest} (hout : (s.fpga.bank s.fpga.kk).checkMsgOut = msg :: rest) (x : Nat) :
    pending B s.compute x = pending B s x := by
  obtain ⟨⟨i,hi,hid⟩,_⟩ := h.streamed.check s.fpga.kk msg (by simp [hout])
  have hbank : B.bankOf msg.i = s.fpga.kk := by rw [hid,Build.bankOf_slotId hi]
  have hpolled : polled B s.compute x = polled B s x := by
    simp only [polled,System.compute,computeCoreId,hout,dispatch]
    rw [setBank_proj Bank.rrb (by rfl)]
  have hcomputed : computed s.compute x = computed s x+if msg.i = x then 1 else 0 := by
    simp only [computed,System.compute,computeCoreId,hout,dispatch,Fpga.setBank,map_append,
      map_cons,map_nil,count_append,count_cons,count_nil,beq_iff_eq,Nat.zero_add]
  have hchecked : checked B s x = checked B s.compute x+if msg.i = x then 1 else 0 := by
    simp only [checked,System.compute,computeCoreId,hout,dispatch]
    by_cases hx : B.bankOf x = s.fpga.kk
    · rw [hx,setBank_self,hout]
      simp only [map_cons,count_cons,beq_iff_eq]
    · rw [setBank_of_ne _ _ hx,if_neg (fun he : msg.i = x => hx (he ▸ hbank)),Nat.add_zero]
  have hrest : pending B s.compute x = inFlight s x+unpolled B s.compute x+checked B s.compute x+computed s.compute x := rfl
  rw [hrest,unpolled_congr (s := s) (t := s.compute) rfl hpolled,hcomputed,pending,hchecked]
  omega

theorem Inv.compute (h : Inv B s) : Inv B s.compute := by
  cases hout : (s.fpga.bank s.fpga.kk).checkMsgOut with
  | nil =>
    have hstep : s.compute = { s with fpga := { s.fpga with kk := !s.fpga.kk } } := by
      simp only [System.compute,computeCoreId,hout]
    rw [hstep]
    exact h.aside _ _ _ _ _ _ _
  | cons msg rest =>
    obtain ⟨⟨i,hi,hid⟩,hhint,_⟩ := h.streamed.check s.fpga.kk msg (by simp [hout])
    have hlt : msg.i < B.maxSlot := hid ▸ Build.slotId_lt hi
    have hcore : msg.coreId < B.coreNum := hhint ▸ (h.linked _ hlt).latest_lt
    have hstep : s.compute = { s with fpga := dispatch msg (popped s.fpga rest) } := by
      simp only [System.compute,computeCoreId,hout,popped]
    have hpending := compute_pending h hout
    rw [hstep] at hpending ⊢
    have hconf : Configured B (popped s.fpga rest) :=
      h.configured.setBank rfl rfl (h.configured.next_lt _)
    refine ⟨hconf.congr rfl rfl rfl rfl,fun x hx => ?_,⟨fun c m hm => ?_,fun m hm => ?_⟩,
      fun c hc => (h.queued c hc).congr (fun _ _ => rfl) rfl rfl rfl rfl rfl,h.beyond,fun x hx => ?_,fun x hx => ?_⟩
    · refine (h.linked x hx).congr rfl (fun _ => rfl) ?_ rfl rfl rfl
      simp only [polled,dispatch,popped]
      rw [setBank_proj Bank.rrb (by rfl)]
    · exact h.streamed.check c m (mem_of_mem_rest hout hm)
    · rcases mem_append.mp hm with hold | hlast
      · exact h.streamed.compute m hold
      · obtain rfl := mem_singleton.mp hlast
        refine ⟨hlt,?_⟩
        have hnum : s.fpga.coreNum = B.coreNum := h.configured.coreNum_eq
        exact hnum ▸ Placement.Nic.coreIdFunc_lt (hnum ▸ hcore) _ _ _
    · rw [hpending]
      exact h.tokens x hx
    · rw [hpending]
      exact h.counted x hx

end

section Doorbell

private def rang (B : Build) (s : System) (msg : ComputeIdOut) (rest : List ComputeIdOut) : System :=
  let len := (s.rung msg.coreId).length
  { s with
    fpga := { s.fpga with
      computeCoreIdOut := rest
      queueMetadata := Function.update s.fpga.queueMetadata msg.coreId ((len+1) % 256) }
    hostm := Function.update s.hostm (B.entryAddr msg.coreId (len % 256)) (BitVec.ofNat 32 msg.i)
    rung := Function.update s.rung msg.coreId (s.rung msg.coreId ++ [msg.i]) }

private theorem doorbell_eq (h : Inv B s) {msg rest} (hout : s.fpga.computeCoreIdOut = msg :: rest) : s.doorbell = rang B s msg rest := by
  have hcore := (h.streamed.compute msg (by simp [hout])).2
  have hhead := (h.queued _ hcore).head
  have haddr : s.fpga.queueAddrMap msg.coreId+s.fpga.queueMetadata msg.coreId*16 =
      B.entryAddr msg.coreId ((s.rung msg.coreId).length % 256) := by
    rw [h.configured.addr_eq _ hcore,hhead,Build.entryAddr_eq,Build.entryAddr_eq]
    omega
  have hnext : (if s.fpga.queueMetadata msg.coreId+1 = s.fpga.messNum then 0
      else s.fpga.queueMetadata msg.coreId+1) = ((s.rung msg.coreId).length+1) % 256 := by
    rw [h.configured.messNum_eq,hhead]
    split <;> omega
  simp only [System.doorbell,doorbellDataflow,hout,rang,haddr,hnext]

variable {msg : ComputeIdOut} {rest : List ComputeIdOut}

private theorem rang_rung (c : Nat) : (rang B s msg rest).rung c = if c = msg.coreId then s.rung c ++ [msg.i] else s.rung c := by
  by_cases hc : c = msg.coreId
  · subst hc
    simp [rang]
  · simp [rang,hc]

private theorem rang_live (h : Inv B s) (hcore : msg.coreId < B.coreNum) (c : Nat) :
    live (rang B s msg rest) c = if c = msg.coreId then live s c ++ [msg.i] else live s c := by
  have hserved : served (rang B s msg rest) c = served s c := rfl
  rw [live,hserved,rang_rung]
  by_cases hc : c = msg.coreId
  · subst hc
    rw [if_pos rfl,if_pos rfl,drop_append_of_le_length (served_le h hcore),live]
  · rw [if_neg hc,if_neg hc,live]

private theorem count_snoc (l : List Nat) (g x : Nat) : (l ++ [g]).count x = l.count x+if g = x then 1 else 0 := by
  simp [count_append,count_cons]

private theorem rang_counts (h : Inv B s) (hout : s.fpga.computeCoreIdOut = msg :: rest) (x : Nat) :
    pending B s x = pending B (rang B s msg rest) x+(if msg.i = x then 1 else 0) ∧
    liveCount B (rang B s msg rest) x = liveCount B s x+(if msg.i = x then 1 else 0) ∧
    rungCount B (rang B s msg rest) x = rungCount B s x+(if msg.i = x then 1 else 0) := by
  have hcore := (h.streamed.compute msg (by simp [hout])).2
  refine ⟨?_,?_,?_⟩
  · have hcomputed : computed s x = computed (rang B s msg rest) x+if msg.i = x then 1 else 0 := by
      simp only [computed,rang,hout,map_cons,count_cons,beq_iff_eq]
    have hrest : pending B (rang B s msg rest) x = inFlight s x+unpolled B s x+checked B s x+computed (rang B s msg rest) x := rfl
    rw [hrest,pending,hcomputed]
    omega
  · refine sum_range_gain hcore (fun d hd => ?_) ?_
    · rw [rang_live h hcore,if_neg hd]
    · rw [rang_live h hcore,if_pos rfl,count_snoc]
  · refine sum_range_gain hcore (fun d hd => ?_) ?_
    · rw [rang_rung,if_neg hd]
    · rw [rang_rung,if_pos rfl,count_snoc]

private theorem served_append (h : Queued B s msg.coreId) : Served (rang B s msg rest) msg.coreId := by
  have hduty := h.duty
  have hle := h.ring.done_le
  have hrung : (rang B s msg rest).rung msg.coreId = s.rung msg.coreId ++ [msg.i] := by simp [rang]
  have hworker : (rang B s msg rest).worker msg.coreId = s.worker msg.coreId := rfl
  have hcleared : (rang B s msg rest).cleared msg.coreId = s.cleared msg.coreId := rfl
  have hreceived : (rang B s msg rest).received msg.coreId = s.received msg.coreId := rfl
  rw [Served] at hduty
  rw [Served,hworker,hrung,hcleared,hreceived]
  cases hd : (s.worker msg.coreId).duty with
  | waiting =>
    rw [hd] at hduty
    simpa only [List.take_append_of_le_length hle] using hduty
  | serving g =>
    rw [hd] at hduty
    obtain ⟨hget,hrec⟩ := hduty
    have hlt := (List.getElem?_eq_some_iff.mp hget).1
    exact ⟨by rw [List.getElem?_append_left hlt,hget],by rw [List.take_append_of_le_length hlt,hrec]⟩
  | replied =>
    rw [hd] at hduty
    obtain ⟨hlt,hrec⟩ := hduty
    exact ⟨by rw [List.length_append]; omega,by rw [List.take_append_of_le_length hlt,hrec]⟩

/-- The entry written is free, because the outstanding slots fit the ring. -/
private theorem queued_rang (h : Inv B s) (hout : s.fpga.computeCoreIdOut = msg :: rest) : Queued B (rang B s msg rest) msg.coreId := by
  obtain ⟨hid,hcore⟩ := h.streamed.compute msg (by simp [hout])
  have hq := h.queued _ hcore
  have hroom : (s.rung msg.coreId).length < s.cleared msg.coreId+256 := by
    have hocc := h.occupancy hcore
    have hbank := B.perBank_le
    rw [Build.maxSlot] at hocc
    omega
  have hrung : (rang B s msg rest).rung msg.coreId = s.rung msg.coreId ++ [msg.i] := by simp [rang]
  refine ⟨?_,?_,hq.msgId,?_,served_append hq⟩
  · rw [hrung]
    refine (hq.ring.push hroom msg.i).congr (fun e he => ?_) (by decide)
    by_cases hself : e = (s.rung msg.coreId).length % 256
    · rw [hself]
      simp [rang]
    · have hne : B.entryAddr msg.coreId e ≠ B.entryAddr msg.coreId ((s.rung msg.coreId).length % 256) :=
        fun ha => hself (B.entryAddr_inj he (Nat.mod_lt _ (by decide)) ha).2
      simp [rang,hself,hne]
  · rw [hrung]
    simp [rang]
  · intro g hg
    rw [hrung] at hg
    rcases mem_append.mp hg with hold | hlast
    · exact hq.ids g hold
    · exact mem_singleton.mp hlast ▸ hid

theorem Inv.doorbell (h : Inv B s) : Inv B s.doorbell := by
  cases hout : s.fpga.computeCoreIdOut with
  | nil =>
    have hstep : s.doorbell = s := by
      simp only [System.doorbell,doorbellDataflow,hout]
    rwa [hstep]
  | cons msg rest =>
    have hcore := (h.streamed.compute msg (by simp [hout])).2
    rw [doorbell_eq h hout]
    refine ⟨h.configured.congr rfl rfl rfl rfl,fun x hx => (h.linked x hx).congr rfl (fun _ => rfl) rfl rfl rfl rfl,
      ⟨h.streamed.check,fun m hm => h.streamed.compute m (by rw [hout]; exact mem_cons_of_mem _ hm)⟩,
      fun c hc => ?_,fun c hc => ?_,fun x hx => ?_,fun x hx => ?_⟩
    · by_cases hself : c = msg.coreId
      · subst hself
        exact queued_rang h hout
      · refine (h.queued c hc).congr (fun e he => ?_) ?_ rfl ?_ rfl rfl
        · have hne : B.entryAddr c e ≠ B.entryAddr msg.coreId ((s.rung msg.coreId).length % 256) :=
            fun ha => hself (B.entryAddr_inj he (Nat.mod_lt _ (by decide)) ha).1
          simp [rang,hne]
        · rw [rang_rung,if_neg hself]
        · simp [rang,hself]
    · rw [rang_rung,if_neg (by omega)]
      exact h.beyond c hc
    · obtain ⟨hpend,hlive,_⟩ := rang_counts h hout x
      have htok := h.tokens x hx
      rw [hpend] at htok
      rw [hlive,← Nat.add_assoc,Nat.add_right_comm]
      exact htok
    · obtain ⟨hpend,_,hrung⟩ := rang_counts h hout x
      have hcount := h.counted x hx
      rw [hpend] at hcount
      rw [hrung,Nat.add_right_comm,Nat.add_assoc]
      exact hcount

end Doorbell

theorem Inv.update (h : Inv B s) : Inv B s.update := by
  cases hin : s.fpga.updateClusterIn with
  | nil =>
    have hstep : s.update = s := by
      simp only [System.update,updateCluster,hin]
    rwa [hstep]
  | cons msg rest =>
    simp only [System.update,updateCluster,hin]
    exact h.aside _ _ _ _ _ _ _

theorem Inv.stage (h : Inv B s) (k : Stage) : Inv B (k.run s) := by
  cases k with
  | poll0 => exact h.poll false
  | poll1 => exact h.poll true
  | compute => exact h.compute
  | doorbell => exact h.doorbell
  | update => exact h.update

end AlNiCo.Nic
