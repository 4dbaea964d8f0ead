import AlNiCo.Client.Call
import AlNiCo.Library.Machine

/-! Reception of requests by the CPU scheduler. The client writes a request into
the slot of the server, and the scheduler polls size, magic and tail word of the
slot while the words of the write are still landing. -/
namespace AlNiCo.Host.Reception
open Library Library.ByteMemory Client List BitVec

/-- A word of a write on its way: the bytes of `image` in word `index`, up to the
end of the write. -/
structure Landing where
  index : Nat
  stop : Nat
  image : Memory

def Landing.land (w : Landing) (m : Memory) : Memory :=
  fun i => if i/4 = w.index ∧ i < w.stop then w.image i else m i

def rdmaWrite (image : Memory) (size : Nat) : List Landing :=
  (List.range ((size+3)/4)).map (fun k => ⟨k,size,image⟩)

inductive Scan
  | start
  | size (size : BitVec 32)
  | magic (size magic : BitVec 32)
  | found (size : BitVec 32)
deriving DecidableEq

/-- The client thread: free for a request, waiting for the reply, or with the
request accepted by the server so that the reply can come. -/
inductive Turn
  | idle
  | waiting
  | served
deriving DecidableEq

structure Slot where
  /-- The send buffer of the client. -/
  mirror : Memory
  /-- The slot in the memory of the server. -/
  memory : Memory
  wire : List Landing
  scan : Scan
  turn : Turn
  calls : List Call
  /-- The sizes with which the scheduler has accepted requests so far. -/
  accepted : List (BitVec 32)

namespace Slot

def start : Slot := ⟨fun _ => 0,fun _ => 0,[],.start,.idle,[],[]⟩

def call (s : Slot) (rpcnum : Nat) (c : Call) : Slot :=
  let image := (pushNewCallWrite c rpcnum s.mirror).data
  { s with
    mirror := image
    wire := s.wire ++ rdmaWrite image (c.location+4)
    turn := .waiting
    calls := s.calls ++ [c] }

def land (s : Slot) : Slot :=
  match s.wire with
  | [] => s
  | w :: wire => { s with memory := w.land s.memory, wire := wire }

def tailMagic (size : BitVec 32) : Nat := 4*(size.toNat/4)

def poll (s : Slot) : Slot :=
  match s.scan with
  | .start => if word s.memory 16 = 0 then s else { s with scan := .size (word s.memory 16) }
  | .size size => { s with scan := .magic size (word s.memory 20) }
  | .magic size magic =>
    { s with scan := if magic = word s.memory (tailMagic size) then .found size else .start }
  | .found size =>
    { s with
      memory := storeWord s.memory (tailMagic size) 0
      scan := .start
      turn := if s.turn = .waiting then .served else s.turn
      accepted := s.accepted ++ [size] }

def sizes (s : Slot) : List (BitVec 32) := s.calls.map (fun c => BitVec.ofNat 32 c.location)

end Slot

inductive Action
  | call (rpcnum : Nat) (c : Call)
  | land
  | poll
  | reply

namespace Slot

def step (s : Slot) : Action → Slot
  | .call rpcnum c => s.call rpcnum c
  | .land => s.land
  | .poll => s.poll
  | .reply => { s with turn := .idle }

/-- A request is issued only after the reply to the one before. -/
def ready (s : Slot) : Action → Bool
  | .call _ _ => s.turn = .idle
  | .land => !s.wire.isEmpty
  | .poll => true
  | .reply => s.turn = .served

/-- No word is taken for a magic word that is none: the request ends at a word;
its word at the old tail is neither the old nor the new magic word; the server
does not hold the old magic word at the new tail; and no magic word is read
before the first one has landed. -/
def Safe (s : Slot) : Action → Prop
  | .call rpcnum c => 4 ∣ c.location ∧ (word s.memory 16 ≠ 0 →
      let image := (pushNewCallWrite c rpcnum s.mirror).data
      let old := tailMagic (word s.memory 16)
      (old < c.location → word image old ≠ word s.memory 20 ∧ word image old ≠ word image 20) ∧
        word s.memory c.location ≠ word s.memory 20)
  | .poll => (∃ size, s.scan = .size size) → word s.memory 20 ≠ 0
  | .land | .reply => True

instance (scan : Scan) : Decidable (∃ size, scan = .size size) :=
  match scan with
  | .size a => isTrue ⟨a,rfl⟩
  | .start | .magic _ _ | .found _ => isFalse (by simp)

instance (s : Slot) (a : Action) : Decidable (s.Safe a) :=
  match a with
  | .call _ _ | .poll | .land | .reply => by dsimp only [Safe]; infer_instance

end Slot

def slotMachine : Machine Slot Action := ⟨.start,Slot.ready,Slot.step⟩

section

def landedOver (image base : Memory) (n : Nat) : Memory := fun i => if i < 4*n then image i else base i

private theorem word_landedOver (image base : Memory) {n p} (hp : 4 ∣ p) :
    word (landedOver image base n) p = if p < 4*n then word image p else word base p := by
  by_cases h : p < 4*n
  · rw [if_pos h]
    exact word_congr (fun i _ hi => if_pos (by omega))
  · rw [if_neg h]
    exact word_congr (fun i hi _ => if_neg (by omega))

/-- The next word of a write that ends at a word boundary. -/
private theorem land_landedOver (image base : Memory) {n stop} (h : 4*n+4 ≤ stop) :
    Landing.land ⟨n,stop,image⟩ (landedOver image base n) = landedOver image base (n+1) := by
  funext i
  simp only [Landing.land,landedOver]
  by_cases hi : i/4 = n
  · rw [if_pos ⟨hi,by omega⟩,if_pos (by omega)]
  · rw [if_neg (fun h => hi h.1)]
    by_cases hlt : i < 4*n
    · rw [if_pos hlt,if_pos (by omega)]
    · rw [if_neg hlt,if_neg (by omega)]

private theorem drop_rdmaWrite (image : Memory) {k n} (h : n ≤ k) :
    (rdmaWrite image (4*k+4)).drop n = ⟨n,4*k+4,image⟩ :: (rdmaWrite image (4*k+4)).drop (n+1) := by
  have hlen : n < (rdmaWrite image (4*k+4)).length := by
    simp only [rdmaWrite,length_map,length_range]
    omega
  rw [drop_eq_getElem_cons hlen]
  simp [rdmaWrite]

private theorem length_rdmaWrite (image : Memory) (k : Nat) : (rdmaWrite image (4*k+4)).length = k+1 := by
  simp only [rdmaWrite,length_map,length_range]
  omega

end

structure Written (s : Slot) (c : Call) : Prop where
  last : ∃ before, s.calls = before ++ [c]
  aligned : 4 ∣ c.location
  size : word s.mirror 16 = BitVec.ofNat 32 c.location
  magic : word s.mirror 20 = word s.mirror c.location
  magic_ne : word s.mirror 20 ≠ 0

/-- From `l` on the server holds what the client holds, or a cleared tail. -/
def Behind (memory mirror : Memory) (l : Nat) : Prop :=
  ∀ p, 4 ∣ p → l ≤ p → word memory p = word mirror p ∨ word memory p = 0

structure Settled (s : Slot) (c : Call) : Prop extends Written s c where
  wire : s.wire = []
  turn : s.turn ≠ .waiting
  payload : ∀ i < c.location, s.memory i = s.mirror i
  tail : word s.memory c.location = 0
  behind : Behind s.memory s.mirror (c.location+4)
  accepted : s.accepted = s.sizes
  scan : s.scan = .start ∨ s.scan = .size (word s.mirror 16) ∨
    s.scan = .magic (word s.mirror 16) (word s.mirror 20)

structure Older (base mirror : Memory) (l : Nat) : Prop where
  aligned : 4 ∣ (word base 16).toNat
  cleared : word base (word base 16).toNat = 0
  tail_ne : word base l ≠ word base 20
  inside : (word base 16).toNat < l →
    word mirror (word base 16).toNat ≠ word base 20 ∧ word mirror (word base 16).toNat ≠ word mirror 20
  toggled : (word base 16).toNat = l → word mirror 20 ≠ word base 20

structure Before (base mirror : Memory) (l : Nat) : Prop where
  behind : Behind base mirror (l+4)
  tail_ne : word base l ≠ word mirror 20
  older : (word base 16 = 0 ∧ word base 20 = 0) ∨ Older base mirror l

/-- The words a scan can hold while a request lands over `base`. -/
def Scan.Seen (base mirror : Memory) (complete : Prop) : Scan → Prop
  | .start => True
  | .size a => a ≠ 0 ∧ (a = word base 16 ∨ a = word mirror 16)
  | .magic a b => a ≠ 0 ∧ (a = word base 16 ∨ a = word mirror 16) ∧ b ≠ 0 ∧ (b = word base 20 ∨ b = word mirror 20)
  | .found a => a = word mirror 16 ∧ complete

/-- The last request is landing: `n` of its words have replaced those of `base`. -/
structure Sent (s : Slot) (c : Call) (base : Memory) (n : Nat) : Prop extends Written s c where
  wire : s.wire = (rdmaWrite s.mirror (c.location+4)).drop n
  landed_le : 4*n ≤ c.location+4
  turn : s.turn = .waiting
  memory : s.memory = landedOver s.mirror base n
  before : Before base s.mirror c.location
  accepted : s.accepted ++ [BitVec.ofNat 32 c.location] = s.sizes
  scan : s.scan.Seen base s.mirror (4*n = c.location+4)

open Slot

section
variable {s : Slot} {c : Call} {base : Memory} {n : Nat}

theorem tailMagic_of_dvd {size} (h : 4 ∣ size.toNat) : tailMagic size = size.toNat := by
  rw [tailMagic]
  omega

theorem Written.toNat_size (h : Written s c) : (word s.mirror 16).toNat = c.location := by
  rw [h.size,toNat_ofNat,Nat.mod_eq_of_lt c.location_lt]

theorem Written.tailMagic (h : Written s c) : tailMagic (word s.mirror 16) = c.location := by
  rw [tailMagic_of_dvd (h.toNat_size ▸ h.aligned),h.toNat_size]

theorem Written.size_ne (h : Written s c) : word s.mirror 16 ≠ 0 := by
  intro hzero
  have hnat := h.toNat_size
  have hloc := c.le_location
  rw [hzero] at hnat
  simp at hnat
  omega

theorem Settled.size_eq (h : Settled s c) : word s.memory 16 = word s.mirror 16 :=
  word_congr (fun i _ hi => h.payload i (by have := c.le_location; omega))

theorem Settled.magic_eq (h : Settled s c) : word s.memory 20 = word s.mirror 20 :=
  word_congr (fun i _ hi => h.payload i (by have := c.le_location; omega))

section
variable (h : Sent s c base n)
include h

theorem Sent.read {p} (hp : 4 ∣ p) : word s.memory p = if p < 4*n then word s.mirror p else word base p := by
  rw [h.memory,word_landedOver _ _ hp]

/-- A size or magic word is the old one or the new one. -/
theorem Sent.read_or {p} (hp : 4 ∣ p) : word s.memory p = word base p ∨ word s.memory p = word s.mirror p := by
  rw [h.read hp]
  split
  · exact .inr rfl
  · exact .inl rfl

/-- The tail of the request itself matches only when the request has landed. -/
theorem Sent.match_new {magic} (hne : magic ≠ 0) (hmagic : magic = word base 20 ∨ magic = word s.mirror 20)
    (htail : magic = word s.memory c.location) : 4*n = c.location+4 := by
  by_cases hn : c.location < 4*n
  · have hle := h.landed_le
    have haligned := h.aligned
    omega
  · rw [h.read h.aligned,if_neg hn] at htail
    rcases hmagic with hold | hnew
    · rcases h.before.older with ⟨_,hzero⟩ | holder
      · exact absurd (hold.trans hzero) hne
      · exact absurd (htail.symm.trans hold) holder.tail_ne
    · exact absurd (htail.symm.trans hnew) h.before.tail_ne

/-- The tail of the request before matches only where it is also the tail of the
request itself. -/
theorem Sent.match_old {size magic} (hsize : size ≠ 0) (hold : size = word base 16) (hne : magic ≠ 0)
    (hmagic : magic = word base 20 ∨ magic = word s.mirror 20)
    (htail : magic = word s.memory (tailMagic size)) :
    size = word s.mirror 16 ∧ 4*n = c.location+4 := by
  rcases h.before.older with ⟨hzero,_⟩ | holder
  · exact absurd (hold.trans hzero) hsize
  rw [hold,tailMagic_of_dvd holder.aligned,h.read holder.aligned] at htail
  by_cases hn : (word base 16).toNat < 4*n
  · rw [if_pos hn] at htail
    rcases Nat.lt_trichotomy (word base 16).toNat c.location with hlt | heq | hgt
    · obtain ⟨h1,h2⟩ := holder.inside hlt
      rcases hmagic with hm | hm
      · exact absurd (htail.symm.trans hm) h1
      · exact absurd (htail.symm.trans hm) h2
    · refine ⟨?_,?_⟩
      · rw [hold,h.size,← heq,ofNat_toNat,setWidth_eq]
      · have hle := h.landed_le
        have haligned := h.aligned
        omega
    · have hle := h.landed_le
      have hdvd := holder.aligned
      have haligned := h.aligned
      omega
  · rw [if_neg hn,holder.cleared] at htail
    exact absurd htail hne

end

end

section Steps
variable {s : Slot} {c : Call} {base : Memory} {n : Nat}

private theorem Sent.setScan (h : Sent s c base n) {scan}
    (hscan : scan.Seen base s.mirror (4*n = c.location+4)) : Sent { s with scan := scan } c base n :=
  ⟨⟨h.last,h.aligned,h.size,h.magic,h.magic_ne⟩,h.wire,h.landed_le,h.turn,h.memory,h.before,h.accepted,hscan⟩

private theorem Settled.setScan (h : Settled s c) {scan} (hscan : scan = .start ∨
      scan = .size (word s.mirror 16) ∨ scan = .magic (word s.mirror 16) (word s.mirror 20)) :
    Settled { s with scan := scan } c :=
  ⟨⟨h.last,h.aligned,h.size,h.magic,h.magic_ne⟩,h.wire,h.turn,h.payload,h.tail,h.behind,h.accepted,hscan⟩

section
variable (h : Sent s c base n)
include h

private theorem Sent.wire_nil (hn : 4*n = c.location+4) : s.wire = [] := by
  obtain ⟨k,hk⟩ := h.aligned
  rw [h.wire,hk,drop_eq_nil_iff,length_rdmaWrite]
  omega

/-- Once a scan has found the request, clearing its tail word settles it. -/
private theorem Sent.settle {a} (hscan : s.scan = .found a) (ha : a = word s.mirror 16) (hn : 4*n = c.location+4) : Settled s.poll c := by
  have hmem : s.poll.memory = storeWord s.memory c.location 0 := by
    simp only [poll,hscan]
    rw [ha,h.tailMagic]
  have hmirror : s.poll.mirror = s.mirror := by simp only [poll,hscan]
  have hcalls : s.poll.calls = s.calls := by simp only [poll,hscan]
  refine ⟨⟨?_,h.aligned,?_,?_,?_⟩,?_,?_,?_,?_,?_,?_,?_⟩
  · rw [hcalls]; exact h.last
  · rw [hmirror]; exact h.size
  · rw [hmirror]; exact h.magic
  · rw [hmirror]; exact h.magic_ne
  · simp only [poll,hscan]
    exact h.wire_nil hn
  · simp only [poll,hscan,h.turn,if_true]
    decide
  · intro i hi
    rw [hmem,hmirror,storeWord_of_lt _ _ hi,h.memory,landedOver,if_pos (by omega)]
  · rw [hmem,word_storeWord_self]
  · intro p hp hle
    rw [hmem,hmirror,word_storeWord _ (.inr hle),h.read hp,if_neg (by omega)]
    exact h.before.behind p hp hle
  · rw [sizes,hcalls]
    simp only [poll,hscan]
    rw [ha,h.size,h.accepted,sizes]
  · left
    simp only [poll,hscan]

theorem Sent.poll (hsafe : s.Safe .poll) : Sent s.poll c base n ∨ Settled s.poll c := by
  have hseen := h.scan
  cases hscan : s.scan with
  | start =>
    left
    by_cases hzero : word s.memory 16 = 0
    · simpa only [Slot.poll,hscan,if_pos hzero] using h
    · simp only [Slot.poll,hscan,if_neg hzero]
      exact h.setScan ⟨hzero,h.read_or (by decide)⟩
  | size a =>
    left
    rw [hscan] at hseen
    simp only [Slot.poll,hscan]
    exact h.setScan ⟨hseen.1,hseen.2,hsafe ⟨a,hscan⟩,h.read_or (by decide)⟩
  | magic a b =>
    left
    rw [hscan] at hseen
    obtain ⟨hne,hsize,hbne,hmagic⟩ := hseen
    simp only [Slot.poll,hscan]
    by_cases htail : b = word s.memory (Slot.tailMagic a)
    · rw [if_pos htail]
      rcases hsize with hold | hnew
      · exact h.setScan (h.match_old hne hold hbne hmagic htail)
      · rw [hnew,h.tailMagic] at htail
        exact h.setScan ⟨hnew,h.match_new hbne hmagic htail⟩
    · rw [if_neg htail]
      exact h.setScan trivial
  | found a =>
    right
    rw [hscan] at hseen
    exact h.settle hscan hseen.1 hseen.2

theorem Sent.land (hwire : s.wire ≠ []) : Sent s.land c base (n+1) := by
  obtain ⟨k,hk⟩ := h.aligned
  have hlt : n ≤ k := by
    by_contra hge
    have hle := h.landed_le
    exact hwire (h.wire_nil (by omega))
  have hcons := h.wire
  rw [hk,drop_rdmaWrite _ hlt,← hk] at hcons
  have hmem : Landing.land ⟨n,c.location+4,s.mirror⟩ s.memory = landedOver s.mirror base (n+1) := by
    rw [h.memory]
    exact land_landedOver _ _ (by omega)
  have hland : s.land = { s with
      memory := landedOver s.mirror base (n+1)
      wire := (rdmaWrite s.mirror (c.location+4)).drop (n+1) } := by
    rw [Slot.land,hcons,← hmem]
  -- a scan that has found the request has seen all of its words, so none is left to land
  have hseen : s.scan.Seen base s.mirror (4*(n+1) = c.location+4) := by
    have hold := h.scan
    cases hscan : s.scan with
    | start => trivial
    | size | magic => rw [hscan] at hold; exact hold
    | found a =>
      rw [hscan] at hold
      exact absurd (h.wire_nil hold.2) hwire
  rw [hland]
  exact ⟨⟨h.last,h.aligned,h.size,h.magic,h.magic_ne⟩,rfl,by omega,h.turn,rfl,h.before,h.accepted,hseen⟩

end

theorem Settled.poll (h : Settled s c) : Settled s.poll c := by
  rcases h.scan with hscan | hscan | hscan
  · have hne : word s.memory 16 ≠ 0 := h.size_eq ▸ h.size_ne
    simp only [Slot.poll,hscan,if_neg hne]
    exact h.setScan (.inr (.inl (by rw [h.size_eq])))
  · simp only [Slot.poll,hscan]
    exact h.setScan (.inr (.inr (by rw [h.magic_eq])))
  · have htail : word s.mirror 20 ≠ word s.memory (Slot.tailMagic (word s.mirror 16)) := by
      rw [h.tailMagic,h.tail]
      exact h.magic_ne
    simp only [Slot.poll,hscan,if_neg htail]
    exact h.setScan (.inl rfl)

/-- A request written when all before it are accepted starts to land. -/
private theorem sent_call (rpcnum : Nat) (haligned : 4 ∣ c.location) (hwire : s.wire = []) (haccepted : s.accepted = s.sizes)
    (hbefore : Before s.memory (pushNewCallWrite c rpcnum s.mirror).data c.location)
    (hscan : s.scan.Seen s.memory (pushNewCallWrite c rpcnum s.mirror).data (4*0 = c.location+4)) :
    Sent (s.call rpcnum c) c s.memory 0 := by
  have hmagic : word (pushNewCallWrite c rpcnum s.mirror).data 20 =
      word (pushNewCallWrite c rpcnum s.mirror).data c.location := by rw [push_magic,push_tail]
  have hne : word (pushNewCallWrite c rpcnum s.mirror).data 20 ≠ 0 := by
    rw [push_magic]
    exact toggle_ne_zero _
  refine ⟨⟨⟨s.calls,rfl⟩,haligned,push_size c rpcnum s.mirror,hmagic,hne⟩,?_,by omega,rfl,?_,hbefore,?_,hscan⟩
  · simp only [call,hwire,nil_append,drop_zero]
  · funext i
    simp [landedOver,call]
  · simp only [call,sizes,map_append,map_cons,map_nil]
    rw [haccepted,sizes]

end Steps

section
variable {s : Slot} {c d : Call}

/-- The server holds what the client holds, except for cleared tails. -/
private theorem Settled.agree (h : Settled s d) : Behind s.memory s.mirror 0 := by
  intro p hp _
  have haligned := h.aligned
  rcases Nat.lt_trichotomy p d.location with hlt | heq | hgt
  · exact .inl (word_congr (fun i _ hi => h.payload i (by omega)))
  · rw [heq]
    exact .inr h.tail
  · exact h.behind p hp (by omega)

private theorem Settled.older (h : Settled s d) (rpcnum : Nat) (hsafe : s.Safe (.call rpcnum c)) :
    Older s.memory (pushNewCallWrite c rpcnum s.mirror).data c.location := by
  have hnat : (word s.memory 16).toNat = d.location := by rw [h.size_eq,h.toNat_size]
  have hne : word s.memory 16 ≠ 0 := h.size_eq ▸ h.size_ne
  have haligned : 4 ∣ (word s.memory 16).toNat := hnat ▸ h.aligned
  obtain ⟨hinside,htail⟩ := hsafe.2 hne
  rw [tailMagic_of_dvd haligned] at hinside
  refine ⟨haligned,by rw [hnat]; exact h.tail,htail,hinside,?_⟩
  intro hsame
  rw [push_magic,h.magic_eq,h.magic,← hsame,hnat]
  exact toggle_ne _

theorem Settled.call (h : Settled s d) (rpcnum : Nat) (hsafe : s.Safe (.call rpcnum c)) : Sent (s.call rpcnum c) c s.memory 0 := by
  have holder := h.older rpcnum hsafe
  have hmagic : word s.memory 20 ≠ 0 := h.magic_eq ▸ h.magic_ne
  have hsize : word s.memory 16 ≠ 0 := h.size_eq ▸ h.size_ne
  refine sent_call rpcnum hsafe.1 h.wire h.accepted ⟨fun p hp hle => ?_,?_,.inr holder⟩ ?_
  · rw [word_congr (fun i hi _ => push_beyond c rpcnum s.mirror (by omega))]
    exact h.agree p hp (Nat.zero_le _)
  · rw [push_magic]
    rcases h.agree c.location hsafe.1 (Nat.zero_le _) with heq | hzero
    · rw [heq]
      exact (toggle_ne _).symm
    · rw [hzero]
      exact (toggle_ne_zero _).symm
  · rcases h.scan with hscan | hscan | hscan
    · rw [hscan]
      trivial
    · rw [hscan,← h.size_eq]
      exact ⟨hsize,.inl rfl⟩
    · rw [hscan,← h.size_eq,← h.magic_eq]
      exact ⟨hsize,.inl rfl,hmagic,.inl rfl⟩

private theorem word_zero (a : Nat) : word (fun _ => 0) a = 0 := by
  apply eq_of_getLsbD_eq
  intro i hi
  simp [word,load,getLsbD_ofFnLE]

theorem start_call (rpcnum : Nat) (hsafe : start.Safe (.call rpcnum c)) : Sent (start.call rpcnum c) c start.memory 0 := by
  refine sent_call rpcnum hsafe.1 rfl rfl ⟨fun p _ _ => .inr (word_zero p),?_,.inl ⟨word_zero _,word_zero _⟩⟩ trivial
  rw [push_magic,show start.memory = fun _ => 0 from rfl,word_zero]
  exact (toggle_ne_zero _).symm

/-- No request yet, all requests accepted, or the last one on its way. -/
def Inv (s : Slot) : Prop := s = .start ∨ (∃ c, Settled s c) ∨ ∃ c base n, Sent s c base n

theorem Inv.step {a} (h : Inv s) (hready : s.ready a = true) (hsafe : s.Safe a) : Inv (s.step a) := by
  rcases h with rfl | ⟨d,h⟩ | ⟨d,base,n,h⟩
  · cases a with
    | call rpcnum c => exact .inr (.inr ⟨c,_,0,start_call rpcnum hsafe⟩)
    | land | reply => exact absurd hready (by decide)
    | poll =>
      left
      change Slot.poll .start = _
      simp only [Slot.poll,Slot.start,word_zero,if_true]
  · cases a with
    | call rpcnum c => exact .inr (.inr ⟨c,_,0,h.call rpcnum hsafe⟩)
    | land => simp [Slot.ready,h.wire] at hready
    | poll => exact .inr (.inl ⟨d,h.poll⟩)
    | reply =>
      refine .inr (.inl ⟨d,⟨h.last,h.aligned,h.size,h.magic,h.magic_ne⟩,h.wire,?_,h.payload,h.tail,h.behind,h.accepted,h.scan⟩)
      simp [Slot.step]
  · cases a with
    | call | reply => simp [Slot.ready,h.turn] at hready
    | land =>
      have hwire : s.wire ≠ [] := by simpa [Slot.ready] using hready
      exact .inr (.inr ⟨d,base,n+1,h.land hwire⟩)
    | poll =>
      rcases h.poll hsafe with hs | hs
      · exact .inr (.inr ⟨d,base,n,hs⟩)
      · exact .inr (.inl ⟨d,hs⟩)

theorem inv_of_reached (h : slotMachine.Reached Slot.Safe s) : Inv s :=
  h.invariant (.inl rfl) (fun _ _ hinv hready hsafe => hinv.step hready hsafe)

end

section
variable {s : Slot} {c : Call} {base : Memory} {n : Nat}

private theorem poll_sizes (s : Slot) : s.poll.sizes = s.sizes := by
  cases hscan : s.scan with
  | start =>
    simp only [poll,hscan]
    split <;> rfl
  | size | magic | found => simp only [poll,hscan,sizes]

section
variable (h : Sent s c base n)
include h

/-- Once all words have landed every read gives the new word. -/
private theorem Sent.read_new (hn : 4*n = c.location+4) {p} (hp : 4 ∣ p) (hle : p ≤ c.location) : word s.memory p = word s.mirror p := by
  rw [h.read hp,if_pos (by omega)]

private theorem Sent.safe_poll (hn : 4*n = c.location+4) : s.Safe .poll := by
  intro _
  have hloc := c.le_location
  rw [h.read_new hn (by decide) (by omega)]
  exact h.magic_ne

private theorem Sent.poll_sent (hn : 4*n = c.location+4) (hscan : ∀ a, s.scan ≠ .found a) : Sent s.poll c base n := by
  rcases h.poll (h.safe_poll hn) with hs | hs
  · exact hs
  -- only the last access of a scan changes what is accepted
  · have haccepted : s.poll.accepted = s.accepted := by
      cases hs : s.scan with
      | start =>
        simp only [Slot.poll,hs]
        split <;> rfl
      | size | magic => simp only [Slot.poll,hs]
      | found a => exact absurd hs (hscan a)
    have hlen := congrArg List.length (hs.accepted.trans (poll_sizes s))
    rw [haccepted,← h.accepted,length_append,length_singleton] at hlen
    omega

private theorem Sent.accepts_found {a} (hscan : s.scan = .found a) : s.poll.accepted = s.sizes := by
  have hseen := h.scan
  rw [hscan] at hseen
  simp only [Slot.poll,hscan]
  rw [hseen.1,h.size,h.accepted]

private theorem Sent.accepts_start (hn : 4*n = c.location+4) (hscan : s.scan = .start) : (Slot.poll^[4] s).accepted = s.sizes := by
  have hloc := c.le_location
  have hsize : word s.memory 16 = word s.mirror 16 := h.read_new hn (by decide) (by omega)
  have hmagic : word s.memory 20 = word s.mirror 20 := h.read_new hn (by decide) (by omega)
  have htail : word s.mirror 20 = word s.memory c.location := by rw [h.read_new hn h.aligned le_rfl,h.magic]
  have hne : word s.memory 16 ≠ 0 := hsize ▸ h.size_ne
  have h1 : s.poll = { s with scan := .size (word s.mirror 16) } := by
    simp only [Slot.poll,hscan]
    rw [if_neg hne,hsize]
  have h2 : s.poll.poll = { s with scan := .magic (word s.mirror 16) (word s.mirror 20) } := by
    rw [h1]
    simp only [Slot.poll,hmagic]
  have h3 : s.poll.poll.poll = { s with scan := .found (word s.mirror 16) } := by
    rw [h2]
    simp only [Slot.poll]
    rw [h.tailMagic,if_pos htail]
  have hfound : Sent s.poll.poll.poll c base n := by
    rw [h3]
    exact h.setScan ⟨rfl,hn⟩
  change s.poll.poll.poll.poll.accepted = s.sizes
  rw [hfound.accepts_found (by rw [h3]),poll_sizes,poll_sizes,poll_sizes]

private theorem Sent.accepts_magic (hn : 4*n = c.location+4) {a b}
    (hscan : s.scan = .magic a b) : ∃ k ≤ 5, (Slot.poll^[k] s).accepted = s.sizes := by
  have hs := h.poll_sent hn (fun a hf => by rw [hscan] at hf; cases hf)
  by_cases htail : b = word s.memory (Slot.tailMagic a)
  · have hnext : s.poll.scan = .found a := by simp only [Slot.poll,hscan,if_pos htail]
    refine ⟨2,by omega,?_⟩
    change s.poll.poll.accepted = s.sizes
    rw [hs.accepts_found hnext,poll_sizes]
  · have hnext : s.poll.scan = .start := by simp only [Slot.poll,hscan,if_neg htail]
    refine ⟨5,by omega,?_⟩
    rw [Function.iterate_succ_apply,hs.accepts_start hn hnext,poll_sizes]

/-- Polling accepts a request that has landed, from wherever the scan is. -/
theorem Sent.accepts (hn : 4*n = c.location+4) : ∃ k ≤ 6, (Slot.poll^[k] s).accepted = s.sizes := by
  cases hscan : s.scan with
  | start => exact ⟨4,by omega,h.accepts_start hn hscan⟩
  | size a =>
    have hs := h.poll_sent hn (fun a hf => by rw [hscan] at hf; cases hf)
    obtain ⟨k,hk,haccepted⟩ := hs.accepts_magic hn (a := a) (b := word s.memory 20) (by simp only [Slot.poll,hscan])
    exact ⟨k+1,by omega,by rw [Function.iterate_succ_apply,haccepted,poll_sizes]⟩
  | magic a b =>
    obtain ⟨k,hk,haccepted⟩ := h.accepts_magic hn hscan
    exact ⟨k,by omega,haccepted⟩
  | found a => exact ⟨1,by omega,h.accepts_found hscan⟩

end

end

/-- In every run whose steps are safe, the accepted sizes are those of the
requests in their order, each once, with at most the last one missing; a request
is accepted only when all of its words have landed; clearing its tail word leaves
the words before it as the client wrote them; and polling accepts every request
that has landed. -/
theorem tail_magic_reception {s : Slot} (hs : slotMachine.Reached Slot.Safe s) :
    (∃ rest, s.sizes = s.accepted ++ rest ∧ rest.length ≤ 1) ∧
    (∀ size, s.scan = .found size → s.wire = [] ∧ s.sizes = s.accepted ++ [size] ∧
      (∀ i < size.toNat+4, s.memory i = s.mirror i) ∧ ∀ i < size.toNat, s.poll.memory i = s.mirror i) ∧
    (∀ c, s.calls.getLast? = some c → s.wire = [] → ∀ i < c.location, s.memory i = s.mirror i) ∧
    (s.wire = [] → ∃ k ≤ 6, (Slot.poll^[k] s).accepted = s.sizes) := by
  rcases inv_of_reached hs with rfl | ⟨c,h⟩ | ⟨c,base,n,h⟩
  · refine ⟨⟨[],rfl,by decide⟩,fun size hscan => ?_,fun c hc => ?_,fun _ => ⟨0,by omega,rfl⟩⟩
    · cases hscan
    · cases hc
  · refine ⟨⟨[],by rw [h.accepted,List.append_nil],Nat.zero_le _⟩,fun size hscan => ?_,fun d hd _ i hi => ?_,
      fun _ => ⟨0,by omega,h.accepted⟩⟩
    · rcases h.scan with hs | hs | hs <;> rw [hs] at hscan <;> cases hscan
    · obtain ⟨before,hcalls⟩ := h.last
      rw [hcalls,List.getLast?_append,List.getLast?_singleton,Option.some_or,Option.some.injEq] at hd
      exact h.payload i (hd ▸ hi)
  · have hcomplete (hwire : s.wire = []) : 4*n = c.location+4 := by
      obtain ⟨k,hk⟩ := h.aligned
      have hdrop := h.wire
      rw [hwire,hk,eq_comm,List.drop_eq_nil_iff,length_rdmaWrite] at hdrop
      have hle := h.landed_le
      omega
    have hpayload (hn : 4*n = c.location+4) (i : Nat) (hi : i < c.location+4) : s.memory i = s.mirror i := by
      rw [h.memory,landedOver,if_pos (by omega)]
    refine ⟨⟨_,h.accepted.symm,le_rfl⟩,fun size hscan => ?_,fun d hd hwire i hi => ?_,
      fun hwire => h.accepts (hcomplete hwire)⟩
    · have hseen := h.scan
      rw [hscan] at hseen
      obtain ⟨hsize,hn⟩ := hseen
      have hnat : size.toNat = c.location := by rw [hsize,h.toNat_size]
      have hsettled := h.settle hscan hsize hn
      refine ⟨h.wire_nil hn,by rw [← h.accepted,hsize,h.size],by rw [hnat]; exact hpayload hn,fun i hi => ?_⟩
      rw [hsettled.payload i (hnat ▸ hi)]
      simp only [Slot.poll,hscan]
    · obtain ⟨before,hcalls⟩ := h.last
      rw [hcalls,List.getLast?_append,List.getLast?_singleton,Option.some_or,Option.some.injEq] at hd
      exact hpayload (hcomplete hwire) i (by rw [hd]; omega)

def bareCall (req : List (List (BitVec 8))) (fits : 28+4*req.length+(req.map List.length).sum < 2^32) : Call :=
  ⟨67,1,0,0,0,0,0,req,none,fits⟩

def lands (n : Nat) : List Action := List.replicate n .land
def polls (n : Nat) : List Action := List.replicate n .poll

/-- A request that is polled before its tail has landed, and then accepted; and one whose
words land while a scan is under way. -/
def servedRun : List Action :=
  [[.call 0 (bareCall [[0,0,0,0]] (by decide))],lands 7,polls 3,lands 3,polls 4,[.reply],polls 1,
    [.call 2 (bareCall [[1,2,3,4,5,6,7,8]] (by decide))],lands 9,polls 2,lands 2,polls 3].flatten

theorem tail_magic_reception_two_requests :
    ∃ s, slotMachine.Reached Slot.Safe s ∧ s.sizes = [36,40] ∧ s.accepted = [36] ∧ s.scan = .found 40 ∧ s.wire = [] ∧
      s.poll.accepted = s.sizes ∧ ∀ i < 40, s.poll.memory i = s.mirror i := by
  have hs : slotMachine.Reached Slot.Safe (slotMachine.play .start servedRun) :=
    Machine.Reached.start.playWhen (p := fun s a => decide (s.Safe a)) (fun _ _ => of_decide_eq_true) servedRun (by decide +kernel)
  have hscan : (slotMachine.play .start servedRun).scan = .found 40 := by decide +kernel
  obtain ⟨hwire,-,-,hmemory⟩ := (tail_magic_reception hs).2.1 40 hscan
  exact ⟨_,hs,by decide +kernel,by decide +kernel,hscan,hwire,by decide +kernel,hmemory⟩

section

/-- The first request of a slot, polled between its size word and its magic word. -/
def earlyRun : List Action := [[.call 0 (bareCall [] (by decide))],lands 5,polls 4].flatten

/-- A second request whose word at the old tail is the old magic word. -/
def staleRun : List Action :=
  [[.call 0 (bareCall [[0,0,0,0]] (by decide))],lands 10,polls 4,[.reply],polls 2,
    [.call 2 (bareCall [[0,0,0,0,111,0,0,0]] (by decide))],lands 10,polls 2].flatten

/-- A request of 33 bytes, landed and then polled once. -/
def oddRun : List Action := [[.call 0 (bareCall [[7]] (by decide))],lands 10,polls 3].flatten

/-- A first request is accepted with three of its words missing, and once more
when they have landed; a later request is accepted with the size of the one
before and its last word missing; and a scan passes over a request that
does not end at a word. -/
theorem reception_takes_other_words :
    (∃ s, slotMachine.Reachable s ∧ s.calls.length = 1 ∧ s.accepted = [28] ∧ s.wire.length = 3) ∧
    (∃ s, slotMachine.Reachable s ∧ s.calls.length = 1 ∧ s.accepted = [28,28]) ∧
    (∃ s, slotMachine.Reachable s ∧ s.sizes = [36,40] ∧ s.accepted = [36,36] ∧ s.wire.length = 1) ∧
    (∃ s, slotMachine.Reachable s ∧ s.sizes = [33] ∧ s.wire.length = 0 ∧ s.scan = .start ∧
      s.poll.poll.poll.accepted = []) := by
  have hstart : slotMachine.Reachable slotMachine.start := .start
  refine ⟨⟨_,hstart.play earlyRun ?_,?_⟩,⟨_,hstart.play (earlyRun ++ lands 3 ++ polls 4) ?_,?_⟩,
    ⟨_,hstart.play staleRun ?_,?_⟩,⟨_,hstart.play oddRun ?_,?_⟩⟩ <;> decide +kernel

end

end AlNiCo.Host.Reception
