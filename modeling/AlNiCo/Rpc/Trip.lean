import AlNiCo.Rpc.System

/-! The round trips of one slot. Of the tags of the requests issued, the first have
landed, the next are flying to the client, the next wait for the reply thread and
the last are owed by a worker; at most one has not landed. -/
namespace AlNiCo.Rpc
open Library Library.ByteMemory Client List

def latest (l : List (BitVec 32)) : BitVec 32 := l.getLast?.getD 0

@[simp] theorem latest_concat (l : List (BitVec 32)) (v : BitVec 32) : latest (l ++ [v]) = v := by
  simp [latest]

inductive Gaze
  | away
  | differs
  | noted
deriving DecidableEq

/-- One slot, with its parts at the client, the worker and the reply thread. -/
structure Track where
  issued : List (BitVec 32)
  published : List (BitVec 32)
  posted : List (BitVec 32)
  landed : List (BitVec 32)
  flying : List (BitVec 32)
  busy : Bool
  quiet : Bool
  gaze : Gaze
  single : BitVec 32
  head : BitVec 32
  send : BitVec 32
  last : BitVec 32
  reply : BitVec 32

namespace Track

def issue (x : Track) (id : BitVec 32) : Track :=
  { x with issued := x.issued ++ [id], busy := true, quiet := false, single := id, head := id }

def publish (x : Track) (v : BitVec 32) : Track :=
  { x with published := x.published ++ [v], quiet := true, send := v }

def note (x : Track) : Track := { x with gaze := .noted, last := x.send }

def post (x : Track) : Track :=
  { x with posted := x.posted ++ [x.send], flying := x.flying ++ [x.send], gaze := .away }

def land (x : Track) (v : BitVec 32) (rest : List (BitVec 32)) : Track :=
  { x with landed := x.landed ++ [v], flying := rest, reply := v }

end Track

/-- The tags in order: landed, flying, waiting to be posted, owed. -/
structure Parts (x : Track) (waiting owed : List (BitVec 32)) : Prop where
  posted : x.posted = x.landed ++ x.flying
  published : x.published = x.posted ++ waiting
  issued : x.issued.map (·+100) = x.published ++ owed
  single : (x.flying ++ waiting ++ owed).length ≤ x.busy.toNat
  quiet : x.quiet = true ↔ owed = []
  gaze : x.gaze ≠ .away → waiting ≠ []

structure Trip (x : Track) : Prop where
  chain : x.issued.IsChain (· ≠ ·)
  small : ∀ id ∈ x.issued, id.toNat < 1000
  single : x.single = latest x.issued
  head : x.head = latest x.issued
  send : x.send = latest x.published
  reply : x.reply = latest x.landed
  last : x.last = if x.gaze = .noted then x.send else latest x.posted
  parts : ∃ waiting owed, Parts x waiting owed

section
variable {x : Track}

private theorem latest_map {l} (hne : l ≠ []) : latest (l.map (·+100)) = latest l+100 := by
  obtain ⟨init,d,rfl⟩ := eq_nil_or_concat l |>.resolve_left hne
  rw [concat_eq_append,map_append,map_singleton,latest_concat,latest_concat]

/-- A tag is not the one before it, and no tag is 0. -/
theorem Trip.tag_ne (h : Trip x) {l v} (heq : x.issued.map (·+100) = l ++ [v]) : v ≠ latest l := by
  obtain ⟨ids,last,hids,rfl,hlast⟩ := map_eq_append_iff.mp heq
  obtain ⟨id,rest,rfl,rfl,hrest⟩ := map_eq_cons_iff.mp hlast
  obtain rfl := map_eq_nil_iff.mp hrest
  have hid : id.toNat < 1000 := h.small id (by simp [hids])
  rcases eq_nil_or_concat ids with rfl | ⟨init,before,rfl⟩
  · simp only [map_nil,latest,getLast?_nil,Option.getD_none]
    bv_omega
  · have hchain := h.chain
    rw [hids,concat_eq_append,isChain_append] at hchain
    have hne : before ≠ id := hchain.2.2 before (by simp) id (by simp)
    rw [latest_map (by simp),concat_eq_append,latest_concat]
    intro hadd
    exact hne (add_right_cancel hadd.symm)

theorem Trip.tag_single (h : Trip x) {l v} (heq : x.issued.map (·+100) = l ++ [v]) : v = x.single+100 := by
  have hne : x.issued ≠ [] := by
    intro hnil
    rw [hnil] at heq
    simp at heq
  rw [h.single,← latest_map hne,heq,latest_concat]

/-- What has not landed: nothing, a reply in flight, a reply to post, or a request
without its reply. -/
theorem Parts.cases {waiting owed} (h : Parts x waiting owed) : (x.flying = [] ∧ waiting = [] ∧ owed = []) ∨
    (∃ v, x.flying = [v] ∧ waiting = [] ∧ owed = [] ∧ x.busy = true) ∨
    (∃ v, x.flying = [] ∧ waiting = [v] ∧ owed = [] ∧ x.busy = true) ∨
    (∃ v, x.flying = [] ∧ waiting = [] ∧ owed = [v] ∧ x.busy = true) := by
  have hle := h.single
  cases hbusy : x.busy with
  | false =>
    rw [hbusy] at hle
    left
    simpa using hle
  | true =>
    rw [hbusy,length_append,length_append] at hle
    simp only [Bool.toNat_true] at hle
    rcases hf : x.flying with _ | ⟨v,flying⟩
    · rcases waiting with _ | ⟨v,waiting⟩
      · rcases owed with _ | ⟨v,owed⟩
        · simp
        · rw [length_cons] at hle
          have hnil : owed = [] := eq_nil_of_length_eq_zero (by omega)
          simp [hnil]
      · rw [length_cons] at hle
        have hnil : waiting = [] := eq_nil_of_length_eq_zero (by omega)
        have hnil' : owed = [] := eq_nil_of_length_eq_zero (by omega)
        simp [hnil,hnil']
    · rw [hf,length_cons] at hle
      have hnil : flying = [] := eq_nil_of_length_eq_zero (by omega)
      have hnil' : waiting = [] := eq_nil_of_length_eq_zero (by omega)
      have hnil'' : owed = [] := eq_nil_of_length_eq_zero (by omega)
      simp [hnil,hnil',hnil'']

end

section Steps
variable {x : Track}

section
variable (h : Trip x)
include h

theorem Trip.issue (hidle : x.busy = false) {id} (hid : id.toNat < 1000) (hne : id ≠ x.head) : Trip (x.issue id) := by
  obtain ⟨waiting,owed,hp⟩ := h.parts
  obtain ⟨hflying,rfl,rfl⟩ | ⟨v,-,-,-,hbusy⟩ | ⟨v,-,-,-,hbusy⟩ | ⟨v,-,-,-,hbusy⟩ := hp.cases
  · refine ⟨?_,?_,by simp [Track.issue],by simp [Track.issue],h.send,h.reply,h.last,[],[id+100],?_⟩
    · refine isChain_append.mpr ⟨h.chain,isChain_singleton _,fun d hd e he => ?_⟩
      have hlatest : latest x.issued = d := by rw [latest,Option.mem_def.mp hd,Option.getD_some]
      obtain rfl : id = e := by simpa using he
      rw [← hlatest,← h.head]
      exact hne.symm
    · intro d hd
      rcases mem_append.mp hd with hd | hd
      · exact h.small d hd
      · rw [mem_singleton.mp hd]
        exact hid
    · refine ⟨hp.posted,hp.published,?_,by simp [Track.issue,hflying],by simp [Track.issue],hp.gaze⟩
      rw [Track.issue,map_append,hp.issued,append_nil,map_singleton]
  all_goals
    rw [hidle] at hbusy
    cases hbusy

theorem Trip.publish (hloud : x.quiet = false) : Trip (x.publish (x.single+100)) := by
  obtain ⟨waiting,owed,hp⟩ := h.parts
  have howed : owed ≠ [] := fun hnil => by simpa [hloud] using hp.quiet.mpr hnil
  obtain ⟨-,-,hnil⟩ | ⟨v,-,-,hnil,-⟩ | ⟨v,-,-,hnil,-⟩ | ⟨v,hflying,rfl,rfl,hbusy⟩ := hp.cases
  · exact absurd hnil howed
  · exact absurd hnil howed
  · exact absurd hnil howed
  · -- nobody looks at the slot, since nothing waits there
    have haway : x.gaze = .away := by
      by_contra hgaze
      exact hp.gaze hgaze rfl
    refine ⟨h.chain,h.small,h.single,h.head,by simp [Track.publish],h.reply,?_,[x.single+100],[],?_⟩
    · have hlast := h.last
      simp only [haway,reduceCtorEq,if_false] at hlast
      simpa [Track.publish,haway] using hlast
    · refine ⟨hp.posted,?_,?_,by simp [Track.publish,hflying,hbusy],by simp [Track.publish],by simp⟩
      · rw [Track.publish,hp.published,append_nil]
      · rw [Track.publish,append_nil,hp.issued,← h.tag_single hp.issued]

/-- The reply thread finds a difference just when a reply waits. -/
theorem Trip.differs_iff (haway : x.gaze ≠ .noted) : x.send ≠ x.last ↔ x.posted ≠ x.published := by
  obtain ⟨waiting,owed,hp⟩ := h.parts
  rw [h.last,if_neg haway,h.send]
  have hnone (hnil : waiting = []) : x.posted = x.published := by rw [hp.published,hnil,append_nil]
  obtain ⟨-,hnil,-⟩ | ⟨v,-,hnil,-,-⟩ | ⟨v,hflying,rfl,rfl,-⟩ | ⟨v,-,hnil,-,-⟩ := hp.cases
  · simp [hnone hnil]
  · simp [hnone hnil]
  · have htags := hp.issued
    rw [append_nil,hp.published] at htags
    rw [hp.published,latest_concat]
    simpa using h.tag_ne htags
  · simp [hnone hnil]

theorem Trip.check (haway : x.gaze = .away) (hne : x.send ≠ x.last) : Trip { x with gaze := .differs } := by
  have hunposted := (h.differs_iff (by simp [haway])).mp hne
  obtain ⟨waiting,owed,hp⟩ := h.parts
  have hlast := h.last
  rw [haway] at hlast
  refine ⟨h.chain,h.small,h.single,h.head,h.send,h.reply,hlast,waiting,owed,?_⟩
  refine ⟨hp.posted,hp.published,hp.issued,hp.single,hp.quiet,fun _ hnil => hunposted ?_⟩
  rw [hp.published,hnil,append_nil]

theorem Trip.note (hgaze : x.gaze = .differs) : Trip x.note := by
  obtain ⟨waiting,owed,hp⟩ := h.parts
  exact ⟨h.chain,h.small,h.single,h.head,h.send,h.reply,rfl,waiting,owed,hp.posted,hp.published,hp.issued,
    hp.single,hp.quiet,fun _ => hp.gaze (by simp [hgaze])⟩

theorem Trip.post (hgaze : x.gaze = .noted) : Trip x.post := by
  obtain ⟨waiting,owed,hp⟩ := h.parts
  have hwaiting : waiting ≠ [] := hp.gaze (by simp [hgaze])
  obtain ⟨-,hnil,-⟩ | ⟨v,-,hnil,-,-⟩ | ⟨v,hflying,rfl,rfl,hbusy⟩ | ⟨v,-,hnil,-,-⟩ := hp.cases
  · exact absurd hnil hwaiting
  · exact absurd hnil hwaiting
  · have hsend : x.send = v := by rw [h.send,hp.published,latest_concat]
    have hlast := h.last
    rw [if_pos hgaze] at hlast
    refine ⟨h.chain,h.small,h.single,h.head,h.send,h.reply,by simp [Track.post,hlast],[],[],?_⟩
    refine ⟨?_,?_,hp.issued,by simp [Track.post,hflying,hbusy],hp.quiet,fun haway => absurd rfl haway⟩
    · rw [Track.post,hp.posted,append_assoc]
    · rw [Track.post,append_nil,hp.published,hsend]
  · exact absurd hnil hwaiting

theorem Trip.land {v rest} (hflying : x.flying = v :: rest) : Trip (x.land v rest) := by
  obtain ⟨waiting,owed,hp⟩ := h.parts
  refine ⟨h.chain,h.small,h.single,h.head,h.send,by simp [Track.land],h.last,waiting,owed,?_⟩
  refine ⟨?_,hp.published,hp.issued,?_,hp.quiet,hp.gaze⟩
  · rw [Track.land,hp.posted,hflying,append_assoc,singleton_append]
  · have hle := hp.single
    simp only [hflying,length_append,length_cons] at hle
    simp only [Track.land,length_append]
    omega

/-- A reply that is accepted is the reply of the last request. -/
theorem Trip.accepts_latest (hreply : x.reply = x.single+100) : x.landed = x.issued.map (·+100) := by
  obtain ⟨waiting,owed,hp⟩ := h.parts
  have hall := hp.issued
  rw [hp.published,hp.posted] at hall
  -- a tag that has not landed differs from the reply
  have hnone {v : BitVec 32} (htags : x.issued.map (·+100) = x.landed ++ [v]) : False := by
    apply h.tag_ne htags
    rw [← h.reply,hreply]
    exact h.tag_single htags
  obtain ⟨h1,h2,h3⟩ | ⟨v,h1,h2,h3,-⟩ | ⟨v,h1,h2,h3,-⟩ | ⟨v,h1,h2,h3,-⟩ := hp.cases
  · simpa [h1,h2,h3] using hall.symm
  · exact (hnone (by simpa [h1,h2,h3] using hall)).elim
  · exact (hnone (by simpa [h1,h2,h3] using hall)).elim
  · exact (hnone (by simpa [h1,h2,h3] using hall)).elim

theorem Trip.see (hreply : x.reply = x.single+100) : Trip { x with busy := false } := by
  have hlanded := h.accepts_latest hreply
  obtain ⟨waiting,owed,hp⟩ := h.parts
  have hall := hp.issued
  rw [hp.published,hp.posted,← hlanded] at hall
  have hnone : x.flying ++ waiting ++ owed = [] := by simpa using hall.symm
  exact ⟨h.chain,h.small,h.single,h.head,h.send,h.reply,h.last,waiting,owed,hp.posted,hp.published,hp.issued,
    by simp [hnone],hp.quiet,hp.gaze⟩

end

end Steps

section Lanes
variable {l : Lane} {i j : Nat}

def Packet.replyAt (i : Nat) : Packet → Option (BitVec 32)
  | .reply j value => if j = i then some value else none
  | .counter _ _ => none

def Post.replyAt (i : Nat) : Post → Option (BitVec 32)
  | .reply j value => if j = i then some value else none
  | .block _ => none

def Watch.gaze (i : Nat) : Watch → Gaze
  | .idle => .away
  | .differs j => if j = i then .differs else .away
  | .noted j => if j = i then .noted else .away

def Lane.track (l : Lane) (i : Nat) : Track where
  issued := l.issued i
  published := l.published i
  posted := l.posted i
  landed := l.landed i
  flying := l.wire.filterMap (Packet.replyAt i) ++ l.posts.filterMap (Post.replyAt i)
  busy := l.busy i
  quiet := l.stage i == .quiet
  gaze := l.watch.gaze i
  single := l.singleRpcId i
  head := word (l.data i) 4
  send := l.send i
  last := l.lastRpcId i
  reply := l.reply i

def Lane.Trips (l : Lane) : Prop := ∀ i, Trip (l.track i)

theorem Lane.Trips.update {l' : Lane} (h : l.Trips) (hself : Trip (l'.track i))
    (hother : ∀ j, j ≠ i → l'.track j = l.track j) : l'.Trips := by
  intro j
  by_cases hj : j = i
  · rwa [hj]
  · rw [hother j hj]
    exact h j

theorem Lane.Trips.start : Lane.start.Trips := fun _ =>
  ⟨isChain_nil,fun _ hid => absurd hid not_mem_nil,rfl,load_zero 4 4,rfl,rfl,rfl,[],[],
    ⟨rfl,rfl,rfl,Nat.zero_le _,by simp [Lane.track,Lane.start],fun hgaze => absurd rfl hgaze⟩⟩

section
variable (h : l.Trips)
include h

theorem Lane.Trips.generate (hidle : l.busy i = false) (c : Call) (delivery : Bool) : (l.generate i c delivery).Trips := by
  refine h.update (i := i) ?_ (fun j hj => ?_)
  · have hself : (l.generate i c delivery).track i = (l.track i).issue (pushNewCallWrite c l.rpcnum (l.data i)).rpcId := by
      simp only [Lane.track,Lane.generate,Track.issue,Function.update_self,push_id]
      rfl
    rw [hself]
    exact (h i).issue hidle (push_rpcId_lt c l.rpcnum (l.data i)) (push_rpcId_ne c l.rpcnum (l.data i))
  · simp only [Lane.track,Lane.generate,Function.update_of_ne hj]

theorem Lane.Trips.seeReply (hbusy : l.busy i = true) : (l.seeReply i).Trips := by
  refine h.update (i := i) ?_ (fun j hj => by simp only [Lane.track,Lane.seeReply,Function.update_of_ne hj])
  cases hanswered : l.answered i with
  | false =>
    have hself : (l.seeReply i).track i = l.track i := by
      simp [Lane.track,Lane.seeReply,hanswered,hbusy]
    rw [hself]
    exact h i
  | true =>
    have hself : (l.seeReply i).track i = { l.track i with busy := false } := by
      simp [Lane.track,Lane.seeReply,hanswered]
    rw [hself]
    exact (h i).see (beq_iff_eq.mp hanswered)

theorem Lane.Trips.setStage {stage} (hold : l.stage i ≠ .quiet) (hnew : stage ≠ .quiet) : (l.setStage i stage).Trips := by
  refine h.update (i := i) ?_ (fun j hj => by simp only [Lane.track,Lane.setStage,Function.update_of_ne hj])
  have hself : (l.setStage i stage).track i = l.track i := by
    simp [Lane.track,Lane.setStage,hold,hnew]
  rw [hself]
  exact h i

theorem Lane.Trips.publish (hserved : l.stage i ≠ .quiet) (hid : word (l.memory i) 4 = l.singleRpcId i) : (l.publish i).Trips := by
  refine h.update (i := i) ?_ (fun j hj => by simp only [Lane.track,Lane.publish,Function.update_of_ne hj])
  have hself : (l.publish i).track i = (l.track i).publish (l.singleRpcId i+100) := by
    simp [Lane.track,Lane.publish,Track.publish,hid]
  rw [hself]
  exact (h i).publish (by simpa [Lane.track] using hserved)

theorem Lane.Trips.check (hidle : l.watch = .idle) (hne : l.send i ≠ l.lastRpcId i) : ({ l with watch := .differs i } : Lane).Trips := by
  refine h.update (i := i) ?_ (fun j hj => by simp [Lane.track,Watch.gaze,hidle,hj.symm])
  have hself : ({ l with watch := .differs i } : Lane).track i = { l.track i with gaze := .differs } := by
    simp [Lane.track,Watch.gaze]
  rw [hself]
  exact (h i).check (by simp [Lane.track,Watch.gaze,hidle]) hne

theorem Lane.Trips.note (hwatch : l.watch = .differs i) : l.note.Trips := by
  simp only [Lane.note,hwatch]
  refine h.update (i := i) ?_ (fun j hj => by simp [Lane.track,Watch.gaze,hwatch,hj,hj.symm])
  have hself : ({ l with lastRpcId := Function.update l.lastRpcId i (l.send i), watch := .noted i } : Lane).track i =
      (l.track i).note := by
    simp [Lane.track,Track.note,Watch.gaze]
  rw [hself]
  exact (h i).note (by simp [Lane.track,Watch.gaze,hwatch])

theorem Lane.Trips.post (hwatch : l.watch = .noted i) : l.post.Trips := by
  refine h.update (i := i) ?_ (fun j hj => ?_)
  · have hself : l.post.track i = (l.track i).post := by
      simp [Lane.track,Lane.post,hwatch,Track.post,Watch.gaze,Post.replyAt]
    rw [hself]
    exact (h i).post (by simp [Lane.track,Watch.gaze,hwatch])
  · simp [Lane.track,Lane.post,hwatch,Watch.gaze,Post.replyAt,hj,hj.symm]

theorem Lane.Trips.transmit (counter : Nat → BitVec 64) : (l.transmit counter).Trips := by
  intro i
  have hself : (l.transmit counter).track i = l.track i := by
    cases hposts : l.posts with
    | nil => simp [Lane.transmit,hposts]
    | cons p posts =>
      cases p with
      | reply j value =>
        by_cases hj : j = i <;> simp [Lane.track,Lane.transmit,hposts,Post.replyAt,Packet.replyAt,hj]
      | block d =>
        by_cases hd : d+1 < 1000 <;> simp [Lane.track,Lane.transmit,hposts,filterMap_cons,Post.replyAt,Packet.replyAt,hd]
  rw [hself]
  exact h i

theorem Lane.Trips.land : l.land.Trips := by
  cases hwire : l.wire with
  | nil => simpa only [Lane.land,hwire] using h
  | cons p wire =>
    cases p with
    | counter d value =>
      intro i
      have hself : l.land.track i = l.track i := by
        simp [Lane.track,Lane.land,hwire,filterMap_cons,Packet.replyAt]
      rw [hself]
      exact h i
    | reply i value =>
      refine h.update (i := i) ?_ (fun j hj => ?_)
      · have hself : l.land.track i = (l.track i).land value
            (wire.filterMap (Packet.replyAt i) ++ l.posts.filterMap (Post.replyAt i)) := by
          simp [Lane.track,Lane.land,hwire,Track.land]
        rw [hself]
        exact (h i).land (by simp [Lane.track,hwire,Packet.replyAt])
      · simp [Lane.track,Lane.land,hwire,Packet.replyAt,hj,hj.symm]

end

end Lanes

end AlNiCo.Rpc
