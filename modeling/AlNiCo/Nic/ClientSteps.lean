import AlNiCo.Nic.Invariant

/-! The clients and the network keep the invariant. -/
namespace AlNiCo.Nic
open BitVec
variable {B : Build} {s t : System}

section

theorem landed_congr {g} (hhead : header B t g = header B s g) : landed B t g = landed B s g := by
  rw [landed,hhead,landed]

theorem Linked.congr {g} (h : Linked B s g) (hhead : header B t g = header B s g)
    (hword : ∀ k, featureWord B t g k = featureWord B s g k) (hpolled : polled B t g = polled B s g)
    (hflight : t.flight g = s.flight g) (hlatest : t.latest g = s.latest g) (hrrb : t.rrb g = s.rrb g) :
    Linked B t g := by
  have hlanded := landed_congr hhead
  refine ⟨hhead ▸ h.hint_lt,hlatest ▸ h.latest_lt,?_,?_,?_⟩
  · intro f hf
    rw [hflight] at hf
    simpa only [hlatest,hlanded,hpolled,hrrb,hword] using h.flying f hf
  · intro hf
    rw [hflight] at hf
    rw [hrrb,hlanded,h.arrived hf]
  · simpa only [hlanded,hpolled,hhead,hlatest,hword] using h.fresh

theorem Queued.congr {c} (h : Queued B s c) (hhost : ∀ e < 256, t.hostm (B.entryAddr c e) = s.hostm (B.entryAddr c e))
    (hrung : t.rung c = s.rung c) (hcleared : t.cleared c = s.cleared c)
    (hhead : t.fpga.queueMetadata c = s.fpga.queueMetadata c) (hworker : t.worker c = s.worker c)
    (hreceived : t.received c = s.received c) : Queued B t c := by
  refine ⟨?_,?_,?_,?_,?_⟩
  · rw [hrung,hcleared]
    exact h.ring.congr hhost (by decide)
  · rw [hhead,hrung,h.head]
  · rw [hworker,hcleared,h.msgId]
  · rw [hrung]
    exact h.ids
  · simpa only [Served,hworker,hrung,hcleared,hreceived] using h.duty

theorem unpolled_congr {g} (hhead : header B t g = header B s g) (hpolled : polled B t g = polled B s g) :
    unpolled B t g = unpolled B s g := by
  rw [unpolled,landed_congr hhead,hpolled,unpolled]

end

open Nic.System

section

theorem writeNic_of_ne {b c a x} (w : BitVec 32) (h : ¬ (c = b ∧ x = a)) : (s.writeNic b a w).m c x = s.m c x := by
  simp only [writeNic]
  by_cases hc : c = b
  · subst hc
    rw [Function.update_self,Function.update_of_ne (fun hx => h ⟨rfl,hx⟩)]
  · rw [Function.update_of_ne hc]

theorem writeNic_self (b : Bool) (a : Nat) (w : BitVec 32) : (s.writeNic b a w).m b a = w := by
  simp [writeNic]

/-- Header and feature words of all slots are words of their own. -/
theorem headerAddr_ne_word (g h : Nat) (k : Fin 16) : B.headerAddr g ≠ 512*B.localOf h+k.val := by
  rw [Build.headerAddr]
  omega

theorem eq_of_headerAddr {g h} (hb : B.bankOf g = B.bankOf h) (ha : B.headerAddr g = B.headerAddr h) : g = h := by
  rw [Build.headerAddr,Build.headerAddr] at ha
  exact Build.eq_of_bankOf_localOf hb (by omega)

theorem eq_of_word {g h : Nat} {j k : Fin 16} (hb : B.bankOf g = B.bankOf h)
    (ha : 512*B.localOf g+j.val = 512*B.localOf h+k.val) : g = h ∧ j = k :=
  ⟨Build.eq_of_bankOf_localOf hb (by omega),Fin.ext (by omega)⟩

end

/-- A slot named by a message of a check stream is counted there. -/
theorem checked_pos_of_mem (h : Streamed B s) {b msg} (hmsg : msg ∈ (s.fpga.bank b).checkMsgOut) : 0 < checked B s msg.i := by
  obtain ⟨⟨i,hi,hid⟩,_⟩ := h.check b msg hmsg
  rw [checked,hid,Build.bankOf_slotId hi,← hid,List.count_pos_iff]
  exact List.mem_map_of_mem hmsg

section
variable {g : Nat} {r : Request}

private theorem pending_issue (hnone : s.flight g = none) (x : Nat) :
    pending B (s.issue g r) x = pending B s x+if x = g then 1 else 0 := by
  have hrest : pending B (s.issue g r) x = inFlight (s.issue g r) x+unpolled B s x+checked B s x+computed s x := rfl
  rw [hrest,pending]
  by_cases hx : x = g
  · subst hx
    simp [inFlight,issue,hnone]
    omega
  · simp [inFlight,issue,hx]

private theorem linked_issue (h : Linked B s g) (hnone : s.flight g = none)
    (hsame : landed B s g = polled B s g) (hhint : r.hint.toNat < B.coreNum) :
    Linked B (s.issue g r) g := by
  have hlatest : (s.issue g r).latest g = r := by simp [issue]
  have hrrb : (s.issue g r).rrb g = ~~~(s.rrb g) := by simp [issue]
  refine ⟨h.hint_lt,by rwa [hlatest],?_,fun hf => absurd hf (by simp [issue]),fun hne => absurd hsame hne⟩
  intro f hf
  obtain rfl : (⟨r,Finset.univ⟩ : Flight) = f := by simpa [issue] using hf
  refine ⟨hlatest.symm,hsame,?_,fun k hk => absurd (Finset.mem_univ k) hk⟩
  rw [hrrb,h.arrived hnone]
  rfl

/-- A reused slot has no token left, so its RRB words agree and the flipped
word is new to the FPGA. -/
theorem Inv.issue (h : Inv B s) (hg : g < B.maxSlot) (hidle : s.phase g = .idle)
    (hhint : r.hint.toNat < B.coreNum) : Inv B (s.issue g r) := by
  obtain ⟨hpending,hlive⟩ := h.quiet hg (by rw [hidle]; decide)
  obtain ⟨hfly,hun,hchk⟩ : inFlight s g = 0 ∧ unpolled B s g = 0 ∧ checked B s g = 0 := by
    rw [pending] at hpending
    omega
  have hnone : s.flight g = none := by simpa [inFlight] using hfly
  have hsame : landed B s g = polled B s g := by simpa [unpolled] using hun
  refine ⟨h.configured,fun x hx => ?_,⟨fun b msg hmsg => ?_,h.streamed.compute⟩,
    fun c hc => (h.queued c hc).congr (fun _ _ => rfl) rfl rfl rfl rfl rfl,h.beyond,fun x hx => ?_,fun x hx => ?_⟩
  · by_cases hxg : x = g
    · subst hxg
      exact linked_issue (h.linked x hx) hnone hsame hhint
    · refine (h.linked x hx).congr rfl (fun _ => rfl) rfl ?_ ?_ ?_ <;> simp [System.issue,hxg]
  · have hne : msg.i ≠ g := by
      rintro rfl
      exact absurd (checked_pos_of_mem h.streamed hmsg) (by omega)
    have hlatest : (s.issue g r).latest msg.i = s.latest msg.i := by simp [System.issue,hne]
    rw [hlatest]
    exact h.streamed.check b msg hmsg
  · have htok := h.tokens x hx
    have hsum : liveCount B (s.issue g r) x = liveCount B s x := rfl
    rw [pending_issue hnone,hsum]
    by_cases hxg : x = g
    · subst hxg
      simp [System.issue,hpending,hlive]
    · simpa [System.issue,hxg] using htok
  · have hcount := h.counted x hx
    have hsum : rungCount B (s.issue g r) x = rungCount B s x := rfl
    rw [pending_issue hnone,hsum]
    by_cases hxg : x = g
    · subst hxg
      simp [System.issue]
      omega
    · simpa [System.issue,hxg] using hcount

end

section Landing
variable {g : Nat} {f : Flight}

/-- What a landing leaves to show: the links, and that no request is lost. -/
private theorem Inv.land {m flight} (h : Inv B s) (hlinked : ∀ x < B.maxSlot, Linked B { s with m, flight } x)
    (hpending : ∀ x, pending B { s with m, flight } x = pending B s x) : Inv B { s with m, flight } := by
  refine ⟨h.configured,hlinked,⟨h.streamed.check,h.streamed.compute⟩,
    fun c hc => (h.queued c hc).congr (fun _ _ => rfl) rfl rfl rfl rfl rfl,h.beyond,fun x hx => ?_,fun x hx => ?_⟩
  · rw [hpending]
    exact h.tokens x hx
  · rw [hpending]
    exact h.counted x hx

private theorem header_landWord (k : Fin 16) (x : Nat) : header B (s.landWord B g f k) x = header B s x :=
  writeNic_of_ne _ (fun h => headerAddr_ne_word x g k h.2)

private theorem featureWord_landWord {k j : Fin 16} {x : Nat} (hne : ¬ (x = g ∧ j = k)) :
    featureWord B (s.landWord B g f k) x j = featureWord B s x j :=
  writeNic_of_ne _ (fun h => hne (eq_of_word h.1 h.2))

private theorem pending_landWord (hflight : s.flight g = some f) (k : Fin 16) (x : Nat) :
    pending B (s.landWord B g f k) x = pending B s x := by
  have hrest : pending B (s.landWord B g f k) x =
      inFlight (s.landWord B g f k) x+unpolled B (s.landWord B g f k) x+checked B s x+computed s x := rfl
  have hfly : inFlight (s.landWord B g f k) x = inFlight s x := by
    by_cases hx : x = g
    · subst hx
      simp [inFlight,landWord,hflight]
    · simp [inFlight,landWord,hx]
  rw [hrest,hfly,unpolled_congr (header_landWord k x) rfl,pending]

private theorem linked_landWord (h : Linked B s g) (hflight : s.flight g = some f) (k : Fin 16) : Linked B (s.landWord B g f k) g := by
  obtain ⟨hreq,hsame,hrrb,hwords⟩ := h.flying f hflight
  have hlanded : landed B (s.landWord B g f k) g = landed B s g := landed_congr (header_landWord k g)
  refine ⟨(header_landWord (s := s) k g).symm ▸ h.hint_lt,h.latest_lt,?_,fun hf => absurd hf (by simp [landWord]),
    fun hne => absurd (hlanded.trans hsame) hne⟩
  intro f' hf'
  obtain rfl : { f with words := f.words.erase k } = f' := by simpa [landWord] using hf'
  refine ⟨hreq,hlanded.trans hsame,hrrb.trans (by rw [hlanded]),?_⟩
  intro j hj
  by_cases hjk : j = k
  · subst hjk
    exact (writeNic_self _ _ _).trans (by rw [hreq]; rfl)
  · rw [featureWord_landWord (fun hh => hjk hh.2)]
    exact hwords j (fun hin => hj (Finset.mem_erase.mpr ⟨hjk,hin⟩))

theorem Inv.landWord (h : Inv B s) (hg : g < B.maxSlot) (hflight : s.flight g = some f) (k : Fin 16) : Inv B (s.landWord B g f k) := by
  refine h.land (fun x hx => ?_) (pending_landWord hflight k)
  by_cases hxg : x = g
  · subst hxg
    exact linked_landWord (h.linked x hx) hflight k
  · exact (h.linked x hx).congr (header_landWord k x) (fun j => featureWord_landWord (fun hh => hxg hh.1)) rfl
      (by simp [hxg]) rfl rfl

private theorem upper_append (a b : BitVec 16) : (a ++ b).extractLsb' 16 16 = a := by
  apply eq_of_getLsbD_eq
  intro i hi
  rw [getLsbD_extractLsb',getLsbD_append]
  simp [hi]

private theorem lower_append (a b : BitVec 16) : (a ++ b).setWidth 16 = b := by
  apply eq_of_getLsbD_eq
  intro i hi
  rw [getLsbD_setWidth,getLsbD_append]
  simp [hi]

private theorem header_landHeader_self : header B (s.landHeader B g f) g = s.rrb g ++ f.request.hint :=
  writeNic_self _ _ _

private theorem landed_landHeader_self : landed B (s.landHeader B g f) g = s.rrb g := by
  rw [landed,header_landHeader_self]
  exact upper_append _ _

private theorem header_landHeader {x} (hne : x ≠ g) : header B (s.landHeader B g f) x = header B s x :=
  writeNic_of_ne _ (fun h => hne (eq_of_headerAddr h.1 h.2))

private theorem featureWord_landHeader (k : Fin 16) (x : Nat) : featureWord B (s.landHeader B g f) x k = featureWord B s x k :=
  writeNic_of_ne _ (fun h => headerAddr_ne_word g x k h.2.symm)

theorem not_ne_self (v : BitVec 16) : ~~~v ≠ v := by
  intro h
  have hbit := congrArg (fun w => w.getLsbD 0) h
  simp at hbit

private theorem pending_landHeader (h : Linked B s g) (hflight : s.flight g = some f) (x : Nat) :
    pending B (s.landHeader B g f) x = pending B s x := by
  obtain ⟨_,hsame,hrrb,_⟩ := h.flying f hflight
  have hrest : pending B (s.landHeader B g f) x =
      inFlight (s.landHeader B g f) x+unpolled B (s.landHeader B g f) x+checked B s x+computed s x := rfl
  rw [hrest,pending]
  by_cases hx : x = g
  · subst hx
    have hnew : landed B (s.landHeader B x f) x ≠ polled B (s.landHeader B x f) x := by
      rw [landed_landHeader_self,hrrb,hsame]
      exact not_ne_self _
    have hold : inFlight s x = 1 := by simp [inFlight,hflight]
    have hgone : inFlight (s.landHeader B x f) x = 0 := by simp [inFlight,landHeader]
    rw [hold,hgone,unpolled,if_neg hnew,unpolled,if_pos hsame]
  · have hfly : inFlight (s.landHeader B g f) x = inFlight s x := by simp [inFlight,landHeader,hx]
    rw [hfly,unpolled_congr (header_landHeader hx) rfl]

private theorem hint_landHeader (hreq : f.request = s.latest g) : (header B (s.landHeader B g f) g).setWidth 16 = (s.latest g).hint := by
  rw [header_landHeader_self,← hreq]
  exact lower_append _ _

private theorem linked_landHeader (h : Linked B s g) (hflight : s.flight g = some f) (hlast : f.words = ∅) :
    Linked B (s.landHeader B g f) g := by
  obtain ⟨hreq,hsame,hrrb,hwords⟩ := h.flying f hflight
  have hhint := hint_landHeader (B := B) (s := s) (g := g) hreq
  have hgone : (s.landHeader B g f).flight g = none := by simp [landHeader]
  have hrrb' : (s.landHeader B g f).rrb g = s.rrb g := rfl
  have hlatest : (s.landHeader B g f).latest g = s.latest g := rfl
  have hpolled : polled B (s.landHeader B g f) g = polled B s g := rfl
  have hland : landed B (s.landHeader B g f) g = s.rrb g := landed_landHeader_self
  constructor
  · rw [hhint]
    exact h.latest_lt
  · rw [hlatest]
    exact h.latest_lt
  · intro f' hf'
    rw [hgone] at hf'
    exact absurd hf' (by simp)
  · intro _
    rw [hrrb',hland]
  · intro _
    rw [hland,hlatest,hpolled,hhint]
    refine ⟨?_,rfl,fun k => ?_⟩
    · rw [hrrb,hsame]
    · rw [featureWord_landHeader]
      exact hwords k (by simp [hlast])

theorem Inv.landHeader (h : Inv B s) (hg : g < B.maxSlot) (hflight : s.flight g = some f)
    (hlast : f.words = ∅) : Inv B (s.landHeader B g f) := by
  refine h.land (fun x hx => ?_) (pending_landHeader (h.linked g hg) hflight)
  by_cases hxg : x = g
  · subst hxg
    exact linked_landHeader (h.linked x hx) hflight hlast
  · exact (h.linked x hx).congr (header_landHeader hxg) (fun k => featureWord_landHeader k x) rfl
      (by simp [hxg]) rfl rfl

end Landing

theorem Inv.seeReply (h : Inv B s) {g} (hphase : s.phase g = .answered) : Inv B (s.seeReply g) := by
  refine ⟨h.configured,fun x hx => (h.linked x hx).congr rfl (fun _ => rfl) rfl rfl rfl rfl,⟨h.streamed.check,h.streamed.compute⟩,
    fun c hc => (h.queued c hc).congr (fun _ _ => rfl) rfl rfl rfl rfl rfl,h.beyond,fun x hx => ?_,h.counted⟩
  have htok := h.tokens x hx
  by_cases hxg : x = g
  · subst hxg
    rw [if_neg (by rw [hphase]; decide)] at htok
    exact htok.trans (by simp [System.seeReply])
  · exact htok.trans (by simp [System.seeReply,hxg])

/-- The weights and clusters, and which stream is looked at next, are no part of the path. -/
theorem Inv.aside (h : Inv B s) (kk : Bool) (updateClusterIn : List UpdateClusterIn) (oldCoreId : Nat → Nat)
    (clusters : Nat → Nat → BitVec 8) (bitClusters : Nat → BitVec 512) (mergeWeights : Nat → Nat → BitVec 12)
    (hardPartition : Nat → BitVec 8) : Inv B { s with fpga := { s.fpga with
      kk, updateClusterIn, oldCoreId, clusters, bitClusters, mergeWeights, hardPartition } } :=
  ⟨h.configured.congr rfl rfl rfl rfl,
    fun x hx => (h.linked x hx).congr rfl (fun _ => rfl) rfl rfl rfl rfl,⟨h.streamed.check,h.streamed.compute⟩,
    fun c hc => (h.queued c hc).congr (fun _ _ => rfl) rfl rfl rfl rfl rfl,h.beyond,h.tokens,h.counted⟩

theorem Inv.bitmap (h : Inv B s) : Inv B s.bitmap :=
  h.aside _ _ _ _ _ _ _

theorem Inv.weight (h : Inv B s) (cdmaBuf : Nat → BitVec 8) : Inv B (s.weight cdmaBuf) :=
  h.aside _ _ _ _ _ _ _

end AlNiCo.Nic
